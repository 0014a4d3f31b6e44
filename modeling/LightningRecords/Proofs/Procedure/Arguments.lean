import LightningRecords.Proofs.Key
import LightningRecords.Proofs.Procedure.Calls

namespace LightningRecords

-- What a call is given that identifies its record, apart from numbers that always fit.
inductive Argument where
  | hex (text : String)
  | name (text : String)
  | index (n : UInt64)

def Argument.Fits : Argument → Prop
  | .hex text => Text.isBlank text = false ∧ ∃ bytes, Hex.decode text = .ok bytes
  | .name text => Text.isBlank text = false ∧ Key.hasColon text = false
  | .index n => (n.toNat : Int) ≤ Int64.maxValue.toInt

def Call.arguments : Call → List Argument
  | .node publicKey | .peer publicKey => [.hex publicKey]
  | .channel id | .closeChannel id _ => [.name id]
  | .policy publicKey channelId => [.hex publicKey, .name channelId]
  | .localChannel publicKey transactionId _ => [.hex publicKey, .hex transactionId]
  | .block id _ => [.hex id]
  | .forwardHtlc htlc =>
    [.hex htlc.publicKey, .name htlc.inChannel, .index htlc.inPayment, .name htlc.outChannel,
     .index htlc.outPayment]
  | .paymentHtlc htlc => [.hex htlc.publicKey, .name htlc.outChannel, .index htlc.outPayment]
  | .receiveHtlc htlc => [.hex htlc.publicKey, .name htlc.inChannel, .index htlc.inPayment]

section Guards

variable {α β : Type} {entity field text : String} {n : UInt64} {schema : Schema}
  {parts : List String} {key : Key}

-- A check that fails blames the caller.
def Blames (x : Except SyncError β) : Prop := ∀ error, x = .error error → error.kind = .validation

-- A procedure that fails on its arguments alone, unless they are as they should be.
def Refuses (fits : Prop) (p : Procedure α) : Prop :=
  fits ∨ ∃ error, error.kind = .validation ∧ p.run = .done (.error error)

theorem Refuses.bind {fits : Prop} {x : Except SyncError β} {f : β → Procedure α} (hx : Blames x)
    (h : ∀ b, x = .ok b → Refuses fits (f b)) : Refuses fits (Procedure.ofExcept x >>= f) := by
  cases x with
  | error error => exact .inr ⟨error, hx error rfl, rfl⟩
  | ok b => exact h b rfl

theorem Field.blames_require (entity field text : String) :
    Blames (Field.require entity field text) := by
  intro error h
  unfold Field.require at h
  split at h <;> cases h
  rfl

theorem Field.blames_height (entity field : String) (n : UInt32) :
    Blames (Field.height entity field n) := by
  intro error h
  unfold Field.height at h
  split at h <;> cases h
  rfl

theorem Field.blames_hex (entity field text : String) : Blames (Field.hex entity field text) := by
  intro error h
  rcases bind_eq_error_iff.mp h with hblank | ⟨_, _, h⟩
  · exact Field.blames_require entity field text error hblank
  · split at h <;> cases h
    rfl

theorem Field.blames_index (entity field : String) (n : UInt64) :
    Blames (Field.index entity field n) := by
  intro error h
  unfold Field.index at h
  split at h <;> cases h
  rfl

theorem Field.blames_key (schema : Schema) (parts : List String) :
    Blames (Field.key schema parts) := by
  intro error h
  unfold Field.key at h
  split at h <;> cases h
  rfl

theorem Field.isBlank_of_require (h : Field.require entity field text = .ok ()) :
    Text.isBlank text = false := by
  unfold Field.require at h
  split at h
  · cases h
  · rename_i hblank
    simpa using hblank

theorem Argument.fits_hex {bytes : Bytes} (h : Field.hex entity field text = .ok bytes) :
    (Argument.hex text).Fits := by
  obtain ⟨_, hblank, h⟩ := bind_eq_ok_iff.mp h
  split at h
  · rename_i decoded hdecoded
    exact ⟨Field.isBlank_of_require hblank, decoded, hdecoded⟩
  · cases h

theorem Argument.fits_name (h : Field.require entity field text = .ok ())
    (hkey : Field.key schema parts = .ok key) (hpart : text ∈ parts) : (Argument.name text).Fits :=
  ⟨Field.isBlank_of_require h, Field.not_hasColon_of_key hkey hpart⟩

theorem Argument.fits_index {stored : Int64} (h : Field.index entity field n = .ok stored) :
    (Argument.index n).Fits := by
  unfold Field.index at h
  split at h
  · assumption
  · cases h

end Guards

open LightningRecords.Field in
theorem Call.refuses : (c : Call) → Refuses (∀ a ∈ c.arguments, a.Fits) c.procedure
  | .node publicKey => by
    refine .bind (blames_hex _ _ _) fun _ hhex => .inl ?_
    exact List.forall_mem_singleton.mpr (Argument.fits_hex hhex)
  | .peer publicKey => by
    refine .bind (blames_hex _ _ _) fun _ hhex => .inl ?_
    exact List.forall_mem_singleton.mpr (Argument.fits_hex hhex)
  | .channel id => by
    refine .bind (blames_require _ _ _) fun _ hid => .bind (blames_key _ _) fun _ hkey => .inl ?_
    exact List.forall_mem_singleton.mpr (Argument.fits_name hid hkey (by simp))
  | .closeChannel id height => by
    refine .bind (blames_require _ _ _) fun _ hid => .bind (blames_height _ _ _) fun _ _ =>
      .bind (blames_key _ _) fun _ hkey => .inl ?_
    exact List.forall_mem_singleton.mpr (Argument.fits_name hid hkey (by simp))
  | .policy publicKey channelId => by
    refine .bind (blames_hex _ _ _) fun _ hhex => .bind (blames_require _ _ _) fun _ hid =>
      .bind (blames_key _ _) fun _ hkey => .inl ?_
    simp only [Call.arguments, List.forall_mem_cons]
    exact ⟨Argument.fits_hex hhex, Argument.fits_name hid hkey (by simp), by simp⟩
  | .localChannel publicKey transactionId vout => by
    refine .bind (blames_hex _ _ _) fun _ hhex => .bind (blames_hex _ _ _) fun _ htransaction =>
      .inl ?_
    simp only [Call.arguments, List.forall_mem_cons]
    exact ⟨Argument.fits_hex hhex, Argument.fits_hex htransaction, by simp⟩
  | .block id height => by
    refine .bind (blames_hex _ _ _) fun _ hhex => .inl ?_
    exact List.forall_mem_singleton.mpr (Argument.fits_hex hhex)
  | .forwardHtlc htlc => by
    refine .bind (blames_hex _ _ _) fun _ hhex => .bind (blames_require _ _ _) fun _ _ =>
      .bind (blames_require _ _ _) fun _ hin => .bind (blames_require _ _ _) fun _ hout =>
      .bind (blames_index _ _ _) fun _ hinPayment => .bind (blames_index _ _ _) fun _ houtPayment =>
      .bind (blames_key _ _) fun _ hkey => .inl ?_
    simp only [Call.arguments, List.forall_mem_cons]
    exact ⟨Argument.fits_hex hhex, Argument.fits_name hin hkey (by simp),
      Argument.fits_index hinPayment, Argument.fits_name hout hkey (by simp),
      Argument.fits_index houtPayment, by simp⟩
  | .paymentHtlc htlc => by
    refine .bind (blames_hex _ _ _) fun _ hhex => .bind (blames_require _ _ _) fun _ _ =>
      .bind (blames_require _ _ _) fun _ hout => .bind (blames_index _ _ _) fun _ houtPayment =>
      .bind (blames_key _ _) fun _ hkey => .inl ?_
    simp only [Call.arguments, List.forall_mem_cons]
    exact ⟨Argument.fits_hex hhex, Argument.fits_name hout hkey (by simp),
      Argument.fits_index houtPayment, by simp⟩
  | .receiveHtlc htlc => by
    refine .bind (blames_hex _ _ _) fun _ hhex => .bind (blames_require _ _ _) fun _ _ =>
      .bind (blames_require _ _ _) fun _ hin => .bind (blames_index _ _ _) fun _ hinPayment =>
      .bind (blames_key _ _) fun _ hkey => .inl ?_
    simp only [Call.arguments, List.forall_mem_cons]
    exact ⟨Argument.fits_hex hhex, Argument.fits_name hin hkey (by simp),
      Argument.fits_index hinPayment, by simp⟩

end LightningRecords
