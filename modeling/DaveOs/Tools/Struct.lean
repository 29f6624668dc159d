import DaveOs.Lib.Bytes

/-!
# Packing by the host tools

The Python tools build binary records with `struct` and `bytearray`. A packing call refuses a number
outside its field's range, so the tools' functions answer `Except ToolError`.
-/

namespace DaveOs.Tools

variable {v : Int} {b : Bytes}

open Bytes

inductive ToolError
  | valueError (message : String)
  | structError
  | unicodeEncodeError
  | runtimeError (message : String)
  | osError (message : String)
  deriving DecidableEq, Repr

/-- One `I` of `struct.pack`: an unsigned 32-bit number. -/
def packI (v : Int) : Except ToolError Bytes :=
  if 0 ≤ v ∧ v < 4294967296 then .ok (leBytes 4 v.toNat) else .error .structError

/-- `struct.pack_into`: the packed fields, one after another from `pos`. -/
def packInto (record : Bytes) (pos : Nat) : List Bytes → Bytes
  | [] => record
  | field :: rest => packInto (splice record pos field) (pos + field.length) rest

/-- `str.encode("ascii")`. -/
def encodeAscii (text : String) : Except ToolError Bytes :=
  if text.toList.all (fun c => decide (c.toNat < 128)) then
    .ok (text.toList.map fun c => UInt8.ofNat c.toNat)
  else .error .unicodeEncodeError

theorem packI_ok (h : packI v = .ok b) : 0 ≤ v ∧ v < 4294967296 ∧ b = leBytes 4 v.toNat := by
  unfold packI at h
  split at h
  · next hv => exact ⟨hv.1, hv.2, (Except.ok.inj h).symm⟩
  · cases h

theorem packI_word (h : packI v = .ok b) : b = leBytes 4 (UInt32.ofNat v.toNat).toNat := by
  obtain ⟨h0, hlt, rfl⟩ := packI_ok h
  rw [UInt32.toNat_ofNat_of_lt' (show v.toNat < 2 ^ 32 by omega)]

theorem bind_ok {α β : Type} {x : Except ToolError α} {f : α → Except ToolError β} {b : β}
    (h : (x >>= f) = .ok b) : ∃ a, x = .ok a ∧ f a = .ok b := by
  cases x with
  | error e => cases h
  | ok a => exact ⟨a, rfl, h⟩

end DaveOs.Tools
