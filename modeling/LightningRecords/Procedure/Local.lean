import LightningRecords.Procedure.Network

namespace LightningRecords

-- The record of a connected peer, as the node `local` sees it.
def PeerReport.record (report : PeerReport) (localKey publicKey : Bytes) (stored : Option Record) :
    Record :=
  OrderedMap.ofList
    [("features", keptFeatures stored report.features),
     ("from", .bytes localKey),
     ("is_connected", .bool true),
     ("is_inbound", .bool report.isInbound),
     ("public_key", .bytes publicKey),
     ("socket", .text report.socket)]
  |>.insertSome "is_sync_peer" (report.isSyncPeer.map Value.bool)

-- The record of a peer that is no longer connected. One that was not connected
-- before is as it was.
def disconnected? (stored : Option Record) : Option Record := do
  let record ← stored
  guard (record.get? "is_connected" = some (.bool true))
  return record.insert "is_connected" (.bool false)

def LocalChannelReport.record (report : LocalChannelReport) (localKey transactionId : Bytes) :
    Except SyncError Record := do
  let partner ← Field.hex Schema.localChannel.kind "partner public key" report.partnerPublicKey
  return OrderedMap.ofList
    [("capacity", .int report.capacity),
     ("commit_transaction_fee", .int report.commitTransactionFee),
     ("commit_transaction_weight", .int report.commitTransactionWeight),
     ("id", .text report.id),
     ("is_active", .bool report.isActive),
     ("is_partner_initiated", .bool report.isPartnerInitiated),
     ("is_private", .bool report.isPrivate),
     ("local_balance", .int report.localBalance),
     ("local_public_key", .bytes localKey),
     ("local_reserve", .int report.localReserve),
     ("partner_public_key", .bytes partner),
     ("received", .int report.received),
     ("remote_balance", .int report.remoteBalance),
     ("remote_reserve", .int report.remoteReserve),
     ("sent", .int report.sent),
     ("transaction_id", .bytes transactionId),
     ("transaction_vout", .ofUInt32 report.transactionVout),
     ("unsettled_balance", .int report.unsettledBalance)]
  |>.insertSome "cooperative_close_address" (report.cooperativeCloseAddress.map Value.text)
  |>.insertSome "is_static_remote_key" (report.isStaticRemoteKey.map Value.bool)
  |>.insertSome "local_given" (report.localGiven.map Value.int)
  |>.insertSome "remote_given" (report.remoteGiven.map Value.int)

namespace Procedure

-- Brings the record of a peer in line with the list of connected ones.
def peer (publicKey : String) : Procedure Outcome := do
  let schema := Schema.peer
  let bytes ← ofExcept (Field.hex schema.kind "public key" publicKey)
  let localKey ← ask schema.kind .identity
  let localBytes ← ofExcept (Field.hex schema.kind "local public key" localKey)
  let key ← ofExcept (Field.key schema [localKey, publicKey])
  let stored ← load schema.table key
  let peers ← ask schema.kind .peers
  let fresh :=
    match peers.find? fun peer => peer.publicKey = publicKey with
    | some report => some (report.record localBytes bytes stored)
    | none => disconnected? stored
  reconcile schema key stored fresh

-- Brings the record of the channel that an output funds in line with the local
-- node's own channels.
def localChannel (publicKey transactionId : String) (vout : UInt32) : Procedure Outcome := do
  let schema := Schema.localChannel
  let localBytes ← ofExcept (Field.hex schema.kind "public key" publicKey)
  let transaction ← ofExcept (Field.hex schema.kind "transaction id" transactionId)
  let key ← ofExcept (Field.key schema [publicKey, transactionId, toString vout.toNat])
  let stored ← load schema.table key
  let channels ← ask schema.kind .localChannels
  let report := channels.find? fun channel =>
    channel.transactionId = transactionId && channel.transactionVout = vout
  let fresh ← ofExcept (report.mapM fun report => report.record localBytes transaction)
  reconcile schema key stored fresh

end Procedure

end LightningRecords
