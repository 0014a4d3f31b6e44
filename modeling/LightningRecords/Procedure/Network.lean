import LightningRecords.Procedure.Field
import LightningRecords.Procedure.Reconcile

namespace LightningRecords

-- An attribute of the stored record, if there is one.
def stored? (stored : Option Record) (name : String) : Option Value :=
  stored.bind fun record => record.get? name

-- Features that a report names, or the stored ones if it names none.
def keptFeatures (stored : Option Record) (features : List UInt32) : Value :=
  let reported := Value.list (features.map Value.ofUInt32)
  if features.isEmpty then (stored? stored "features").getD reported else reported

-- The record that a report makes of a node. The time of the last announcement
-- stays when none is reported.
def NodeReport.record (report : NodeReport) (publicKey : Bytes) (stored : Option Record) : Record :=
  OrderedMap.ofList
    [("alias", .text report.nickname),
     ("color", .text report.color),
     ("features", keptFeatures stored report.features),
     ("public_key", .bytes publicKey),
     ("sockets", .list (report.sockets.map Value.text))]
  |>.insertSome "updated_at" ((report.updatedAt.map Value.text).or (stored? stored "updated_at"))

namespace ChannelReport

-- What says where a channel's funds are.
def funding : List String := ["capacity", "transaction_id", "transaction_vout"]

-- A transaction id of zeros alone stands for an unknown one.
def hasFunding (report : ChannelReport) : Bool :=
  report.transactionId.toList.any fun c => c != '0'

def publicKeys (report : ChannelReport) : Except SyncError (List Bytes) :=
  report.policies.mapM fun policy => Field.hex Schema.channel.kind "policy public key" policy.publicKey

-- The record that a report makes of a channel. Funding that is stored is final.
def record (report : ChannelReport) (id : String) (stored : Option Record) :
    Except SyncError Record := do
  let publicKeys ← report.publicKeys
  let known : Record := OrderedMap.ofList
    [("id", .text id), ("public_keys", .list (publicKeys.map Value.bytes))]
  if (stored? stored "capacity").isSome then
    return funding.foldl (fun record name => record.insertSome name (stored? stored name)) known
  else if report.hasFunding then
    let transactionId ← Field.hex Schema.channel.kind "transaction id" report.transactionId
    return known
      |>.insert "capacity" (.int report.capacity)
      |>.insert "transaction_id" (.bytes transactionId)
      |>.insert "transaction_vout" (.ofUInt32 report.transactionVout)
  else return known

end ChannelReport

namespace PolicyReport

-- The policy of one end of a channel, if it was published. The first policy to
-- be stored has to say whether it is disabled.
def ofChannel? (report : ChannelReport) (publicKey : String) (stored : Option Record) :
    Option PolicyReport := do
  let policy ← report.policies.find? fun policy => policy.publicKey = publicKey
  guard policy.updatedAt.isSome
  guard (stored.isSome || policy.isDisabled.isSome)
  return policy

def record (policy : PolicyReport) (channelId : String) (publicKey : Bytes) : Record :=
  OrderedMap.ofList [("id", .text channelId), ("public_key", .bytes publicKey)]
  |>.insertSome "base_fee_mtokens" (policy.baseFeeMtokens.map Value.text)
  |>.insertSome "cltv_delta" (policy.cltvDelta.map Value.ofUInt32)
  |>.insertSome "fee_rate" (policy.feeRate.map Value.int)
  |>.insertSome "is_disabled" (policy.isDisabled.map Value.bool)
  |>.insertSome "max_htlc_mtokens" (policy.maxHtlcMtokens.map Value.text)
  |>.insertSome "min_htlc_mtokens" (policy.minHtlcMtokens.map Value.text)
  |>.insertSome "updated_at" (policy.updatedAt.map Value.text)

end PolicyReport

-- A channel that is closed: whether it was before, and the keys of its ends.
structure ClosedChannel where
  wasClosed : Bool
  publicKeys : List Bytes
deriving DecidableEq, Repr

namespace Procedure

-- Brings the record of a node in line with what is announced of it.
def node (publicKey : String) : Procedure Outcome := do
  let schema := Schema.node
  let bytes ← ofExcept (Field.hex schema.kind "public key" publicKey)
  let key ← ofExcept (Field.key schema [publicKey])
  let stored ← load schema.table key
  let report ← ask schema.kind (.node publicKey)
  reconcile schema key stored (report.map fun report => report.record bytes stored)

-- Brings the record of a channel in line with what is known of it.
def channel (id : String) : Procedure Outcome := do
  let schema := Schema.channel
  ofExcept (Field.require schema.kind "channel id" id)
  let key ← ofExcept (Field.key schema [id])
  let stored ← load schema.table key
  let report ← ask schema.kind (.channel id)
  let fresh ← ofExcept (report.mapM fun report => report.record id stored)
  reconcile schema key stored fresh

-- Keys of a channel's ends, as they are stored.
def storedPublicKeys (stored : Record) : List Bytes :=
  (((stored.get? "public_keys").bind Value.asList?).getD []).filterMap Value.asBytes?

-- Writes down the height at which a channel was closed, once.
def closeChannel (id : String) (height : UInt32) : Procedure (Option ClosedChannel) := do
  let schema := Schema.channel
  ofExcept (Field.require schema.kind "channel id" id)
  ofExcept (Field.height schema.kind "close height" height)
  let key ← ofExcept (Field.key schema [id])
  match ← load schema.table key with
  | none => return none
  | some stored =>
    let publicKeys := storedPublicKeys stored
    if stored.contains "close_height" then return some ⟨true, publicKeys⟩
    let changes : Changes := OrderedMap.insert ∅ "close_height" (.set (.ofUInt32 height))
    let expected ← ofExcept (expectRevision schema.table stored)
    let _ ← update schema.table key changes.bumpRevision expected
    return some ⟨false, publicKeys⟩

-- Brings the record of one end's policy in line with what its author published.
def policy (publicKey channelId : String) : Procedure Outcome := do
  let schema := Schema.policy
  let bytes ← ofExcept (Field.hex schema.kind "public key" publicKey)
  ofExcept (Field.require schema.kind "channel id" channelId)
  let key ← ofExcept (Field.key schema [publicKey, channelId])
  let stored ← load schema.table key
  let report ← ask schema.kind (.channel channelId)
  let published := report.bind fun report => PolicyReport.ofChannel? report publicKey stored
  reconcile schema key stored (published.map fun policy => policy.record channelId bytes)

-- Stores a block. Blocks never change.
def block (id : String) (height : UInt32) : Procedure Outcome := do
  let schema := Schema.block
  let bytes ← ofExcept (Field.hex schema.kind "block id" id)
  let key ← ofExcept (Field.key schema [id])
  let stored ← load schema.table key
  let fresh : Record := OrderedMap.ofList [("height", .ofUInt32 height), ("id", .bytes bytes)]
  reconcile schema key stored (some fresh)

end Procedure

end LightningRecords
