import LightningRecords.OrderedMap
import LightningRecords.Text.Utf8

namespace LightningRecords

-- What the network tells about a node.
structure NodeReport where
  nickname : String := ""
  color : String := ""
  features : List UInt32 := []
  sockets : List String := []
  updatedAt : Option String := none
deriving DecidableEq, Repr, Inhabited

-- The terms under which one end of a channel forwards payments.
structure PolicyReport where
  publicKey : String := ""
  baseFeeMtokens : Option String := none
  cltvDelta : Option UInt32 := none
  feeRate : Option Int64 := none
  isDisabled : Option Bool := none
  maxHtlcMtokens : Option String := none
  minHtlcMtokens : Option String := none
  updatedAt : Option String := none
deriving DecidableEq, Repr, Inhabited

-- A channel as the network knows it, with the policies of its ends.
structure ChannelReport where
  id : String := ""
  capacity : Int64 := 0
  transactionId : String := ""
  transactionVout : UInt32 := 0
  policies : List PolicyReport := []
deriving DecidableEq, Repr, Inhabited

-- A node that the local node is connected to.
structure PeerReport where
  publicKey : String := ""
  features : List UInt32 := []
  isInbound : Bool := false
  isSyncPeer : Option Bool := none
  socket : String := ""
deriving DecidableEq, Repr, Inhabited

-- A channel that the local node is an end of.
structure LocalChannelReport where
  capacity : Int64 := 0
  commitTransactionFee : Int64 := 0
  commitTransactionWeight : Int64 := 0
  cooperativeCloseAddress : Option String := none
  id : String := ""
  isActive : Bool := false
  isPartnerInitiated : Bool := false
  isPrivate : Bool := false
  isStaticRemoteKey : Option Bool := none
  localBalance : Int64 := 0
  localGiven : Option Int64 := none
  localReserve : Int64 := 0
  partnerPublicKey : String := ""
  received : Int64 := 0
  remoteBalance : Int64 := 0
  remoteGiven : Option Int64 := none
  remoteReserve : Int64 := 0
  sent : Int64 := 0
  transactionId : String := ""
  transactionVout : UInt32 := 0
  unsettledBalance : Int64 := 0
deriving DecidableEq, Repr, Inhabited

-- All channels and the public keys of all nodes.
structure GraphReport where
  channels : List ChannelReport := []
  nodes : List String := []
deriving DecidableEq, Repr, Inhabited

-- A payment that the node passed on from one channel to another.
structure ForwardHtlc where
  publicKey : String := ""
  time : String := ""
  inChannel : String := ""
  inPayment : UInt64 := 0
  outChannel : String := ""
  outPayment : UInt64 := 0
  cltvDelta : Option UInt32 := none
  externalFailure : Option String := none
  feeMtokens : Option String := none
  internalFailure : Option String := none
  isConfirmed : Bool := false
  isFailed : Bool := false
  mtokens : Option String := none
  timeout : Option UInt32 := none
deriving DecidableEq, Repr, Inhabited

-- A payment that the node made.
structure PaymentHtlc where
  publicKey : String := ""
  time : String := ""
  outChannel : String := ""
  outPayment : UInt64 := 0
  isConfirmed : Bool := false
  isFailed : Bool := false
  mtokens : Option String := none
  timeout : Option UInt32 := none
deriving DecidableEq, Repr, Inhabited

-- A payment that the node took.
structure ReceiveHtlc where
  publicKey : String := ""
  time : String := ""
  inChannel : String := ""
  inPayment : UInt64 := 0
  externalFailure : Option String := none
  internalFailure : Option String := none
  isConfirmed : Bool := false
  isFailed : Bool := false
deriving DecidableEq, Repr, Inhabited

-- What the local node can be asked.
inductive Question where
  | identity
  | node (publicKey : String)
  | channel (id : String)
  | peers
  | localChannels
  | graph
deriving DecidableEq, Repr

-- What it tells when it is asked. A node or channel it does not know is no error.
abbrev Question.Answer : Question → Type
  | .identity => String
  | .node _ => Option NodeReport
  | .channel _ => Option ChannelReport
  | .peers => List PeerReport
  | .localChannels => List LocalChannelReport
  | .graph => GraphReport

-- One state of affairs, out of which every question is answered.
structure Outlook where
  identity : String := ""
  nodes : OrderedMap Text.compare NodeReport := ∅
  channels : OrderedMap Text.compare ChannelReport := ∅
  peers : List PeerReport := []
  localChannels : List LocalChannelReport := []
  statedGraph : Option GraphReport := none

namespace Outlook

-- The stated graph, or else everything there is.
def graph (outlook : Outlook) : GraphReport :=
  outlook.statedGraph.getD
    { channels := outlook.channels.toList.map (·.2), nodes := outlook.nodes.keys }

def answer (outlook : Outlook) : (q : Question) → q.Answer
  | .identity => outlook.identity
  | .node publicKey => outlook.nodes.get? publicKey
  | .channel id => outlook.channels.get? id
  | .peers => outlook.peers
  | .localChannels => outlook.localChannels
  | .graph => outlook.graph

end Outlook

end LightningRecords
