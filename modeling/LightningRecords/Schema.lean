import LightningRecords.Key
import LightningRecords.Value

namespace LightningRecords

-- One kind of record: its table, the attribute that every record of the kind
-- has, and the attributes that reports may change.
structure Schema where
  kind : String
  table : String
  unique : String
  mutable : List String
deriving DecidableEq, Repr

namespace Schema

def isImmutable (schema : Schema) : Bool := schema.mutable.isEmpty

-- Revision of a record that was just created.
def baseRevision : Int64 := 0

def node : Schema where
  kind := "node"
  table := "nodes"
  unique := "public_key"
  mutable := ["alias", "color", "features", "sockets", "updated_at"]

def channel : Schema where
  kind := "channel"
  table := "channels"
  unique := "id"
  mutable := ["capacity", "transaction_id", "transaction_vout"]

def policy : Schema where
  kind := "policy"
  table := "policies"
  unique := "id"
  mutable :=
    ["base_fee_mtokens", "cltv_delta", "fee_rate", "is_disabled", "max_htlc_mtokens",
     "min_htlc_mtokens", "updated_at"]

def peer : Schema where
  kind := "peer"
  table := "peers"
  unique := "public_key"
  mutable := ["features", "is_connected", "is_inbound", "is_sync_peer", "socket"]

def localChannel : Schema where
  kind := "local_channel"
  table := "local_channels"
  unique := "id"
  mutable :=
    ["commit_transaction_fee", "commit_transaction_weight", "is_active", "local_balance",
     "received", "remote_balance", "sent", "unsettled_balance"]

def block : Schema where
  kind := "block"
  table := "blocks"
  unique := "id"
  mutable := []

def forwardHtlc : Schema where
  kind := "forward_htlc"
  table := "forward_htlcs"
  unique := "out_payment"
  mutable :=
    ["cltv_delta", "external_failure", "fee_mtokens", "internal_failure", "is_confirmed",
     "is_failed", "mtokens", "timeout", "updated_at"]

def paymentHtlc : Schema where
  kind := "payment_htlc"
  table := "payment_htlcs"
  unique := "out_payment"
  mutable := ["is_confirmed", "is_failed", "mtokens", "timeout", "updated_at"]

def receiveHtlc : Schema where
  kind := "receive_htlc"
  table := "receive_htlcs"
  unique := "in_payment"
  mutable := ["is_confirmed", "is_failed", "updated_at"]

def all : List Schema :=
  [node, channel, policy, peer, localChannel, block, forwardHtlc, paymentHtlc, receiveHtlc]

def ofKind? (kind : String) : Option Schema := all.find? fun schema => schema.kind = kind

end Schema

end LightningRecords
