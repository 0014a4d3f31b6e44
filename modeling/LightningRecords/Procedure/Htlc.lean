import LightningRecords.Procedure.Network

namespace LightningRecords

-- The record of a forwarded payment after an event. What an event need not tell
-- stays as an earlier one told it.
def ForwardHtlc.record (htlc : ForwardHtlc) (publicKey : Bytes) (inPayment outPayment : Int64)
    (stored : Option Record) : Record :=
  let kept (name : String) (told : Option Value) := told.or (stored? stored name)
  OrderedMap.ofList
    [("in_channel", .text htlc.inChannel),
     ("in_payment", .int inPayment),
     ("is_confirmed", .bool htlc.isConfirmed),
     ("is_failed", .bool htlc.isFailed),
     ("out_channel", .text htlc.outChannel),
     ("out_payment", .int outPayment),
     ("public_key", .bytes publicKey),
     ("updated_at", .text htlc.time)]
  |>.insertSome "external_failure" (htlc.externalFailure.map Value.text)
  |>.insertSome "internal_failure" (htlc.internalFailure.map Value.text)
  |>.insertSome "cltv_delta" (kept "cltv_delta" (htlc.cltvDelta.map Value.ofUInt32))
  |>.insertSome "fee_mtokens" (kept "fee_mtokens" (htlc.feeMtokens.map Value.text))
  |>.insertSome "mtokens" (kept "mtokens" (htlc.mtokens.map Value.text))
  |>.insertSome "timeout" (kept "timeout" (htlc.timeout.map Value.ofUInt32))

def PaymentHtlc.record (htlc : PaymentHtlc) (publicKey : Bytes) (outPayment : Int64)
    (stored : Option Record) : Record :=
  let kept (name : String) (told : Option Value) := told.or (stored? stored name)
  OrderedMap.ofList
    [("is_confirmed", .bool htlc.isConfirmed),
     ("is_failed", .bool htlc.isFailed),
     ("out_channel", .text htlc.outChannel),
     ("out_payment", .int outPayment),
     ("public_key", .bytes publicKey),
     ("updated_at", .text htlc.time)]
  |>.insertSome "mtokens" (kept "mtokens" (htlc.mtokens.map Value.text))
  |>.insertSome "timeout" (kept "timeout" (htlc.timeout.map Value.ofUInt32))

def ReceiveHtlc.record (htlc : ReceiveHtlc) (publicKey : Bytes) (inPayment : Int64) : Record :=
  OrderedMap.ofList
    [("in_channel", .text htlc.inChannel),
     ("in_payment", .int inPayment),
     ("is_confirmed", .bool htlc.isConfirmed),
     ("is_failed", .bool htlc.isFailed),
     ("public_key", .bytes publicKey),
     ("updated_at", .text htlc.time)]
  |>.insertSome "external_failure" (htlc.externalFailure.map Value.text)
  |>.insertSome "internal_failure" (htlc.internalFailure.map Value.text)

namespace Procedure

def forwardHtlc (htlc : ForwardHtlc) : Procedure Outcome := do
  let schema := Schema.forwardHtlc
  let publicKey ← ofExcept (Field.hex schema.kind "public key" htlc.publicKey)
  ofExcept (Field.require schema.kind "observation time" htlc.time)
  ofExcept (Field.require schema.kind "in channel" htlc.inChannel)
  ofExcept (Field.require schema.kind "out channel" htlc.outChannel)
  let inPayment ← ofExcept (Field.index schema.kind "in payment" htlc.inPayment)
  let outPayment ← ofExcept (Field.index schema.kind "out payment" htlc.outPayment)
  let key ← ofExcept (Field.key schema
    [htlc.publicKey, htlc.inChannel, toString htlc.inPayment.toNat, htlc.outChannel,
     toString htlc.outPayment.toNat])
  let stored ← load schema.table key
  reconcile schema key stored (some (htlc.record publicKey inPayment outPayment stored))

def paymentHtlc (htlc : PaymentHtlc) : Procedure Outcome := do
  let schema := Schema.paymentHtlc
  let publicKey ← ofExcept (Field.hex schema.kind "public key" htlc.publicKey)
  ofExcept (Field.require schema.kind "observation time" htlc.time)
  ofExcept (Field.require schema.kind "out channel" htlc.outChannel)
  let outPayment ← ofExcept (Field.index schema.kind "out payment" htlc.outPayment)
  let key ← ofExcept (Field.key schema
    [htlc.publicKey, htlc.outChannel, toString htlc.outPayment.toNat])
  let stored ← load schema.table key
  reconcile schema key stored (some (htlc.record publicKey outPayment stored))

def receiveHtlc (htlc : ReceiveHtlc) : Procedure Outcome := do
  let schema := Schema.receiveHtlc
  let publicKey ← ofExcept (Field.hex schema.kind "public key" htlc.publicKey)
  ofExcept (Field.require schema.kind "observation time" htlc.time)
  ofExcept (Field.require schema.kind "in channel" htlc.inChannel)
  let inPayment ← ofExcept (Field.index schema.kind "in payment" htlc.inPayment)
  let key ← ofExcept (Field.key schema
    [htlc.publicKey, htlc.inChannel, toString htlc.inPayment.toNat])
  let stored ← load schema.table key
  reconcile schema key stored (some (htlc.record publicKey inPayment))

end Procedure

end LightningRecords
