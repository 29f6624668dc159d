import DaveOs.Lib.Crc

/-!
# CRC-32/ISO-HDLC (`lib/util/crc32.h`)

The software CRC every integrity check of the repository uses. The optional hardware backend of
`crc32::Service` is documented to compute the same function, so `update` stands for both.
-/

namespace DaveOs.Crc32

def poly : UInt32 := 0xedb88320

/-- One bit of the source's inner loop. -/
def bitStep (crc : UInt32) : UInt32 :=
  (crc >>> 1) ^^^ (if crc &&& 1 = 1 then poly else 0)

/-- The source's inner loop over `n` bits. -/
def bitSteps : Nat → UInt32 → UInt32
  | 0, crc => crc
  | n + 1, crc => bitSteps n (bitStep crc)

/-- One byte of the source's outer loop. -/
def byteStep (crc : UInt32) (byte : UInt8) : UInt32 := bitSteps 8 (crc ^^^ byte.toUInt32)

/-- Continues the checksum `value` over `bytes`. -/
def update (value : UInt32) (bytes : Bytes) : UInt32 := ~~~bytes.foldl byteStep (~~~value)

/-- The checksum of `bytes`. -/
def calculate (bytes : Bytes) : UInt32 := update 0 bytes

/-! ## The register of `Lib.Crc` -/

theorem and_one_iff (c : UInt32) : c &&& 1 = 1 ↔ c.toBitVec.getLsbD 0 = true := by
  rw [← UInt32.toBitVec_inj, UInt32.toBitVec_and]
  show c.toBitVec &&& 1#32 = 1#32 ↔ _
  rw [BitVec.and_one_eq_setWidth_ofBool_getLsbD]
  cases c.toBitVec.getLsbD 0 <;> decide

theorem bitStep_toBitVec (c : UInt32) :
    (bitStep c).toBitVec = Crc.bitStep poly.toBitVec c.toBitVec := by
  unfold bitStep Crc.bitStep
  by_cases h : c &&& 1 = 1
  · rw [if_pos h, if_pos ((and_one_iff c).mp h)]
    rfl
  · rw [if_neg h, if_neg (mt (and_one_iff c).mpr h)]
    rfl

theorem bitSteps_toBitVec (n : Nat) (c : UInt32) :
    (bitSteps n c).toBitVec = Crc.bitSteps poly.toBitVec n c.toBitVec := by
  induction n generalizing c with
  | zero => rfl
  | succ n ih => rw [bitSteps, Crc.bitSteps, ih, bitStep_toBitVec]

theorem byteStep_toBitVec (c : UInt32) (b : UInt8) :
    (byteStep c b).toBitVec = Crc.byteStep poly.toBitVec c.toBitVec b := by
  rw [byteStep, Crc.byteStep, bitSteps_toBitVec]
  rfl

theorem foldl_toBitVec (c : UInt32) (bytes : Bytes) :
    (bytes.foldl byteStep c).toBitVec = Crc.run poly.toBitVec c.toBitVec bytes := by
  induction bytes generalizing c with
  | nil => rfl
  | cons b bs ih => rw [List.foldl_cons, ih, byteStep_toBitVec]; rfl

theorem update_eq_run (value : UInt32) (bytes : Bytes) :
    (update value bytes).toBitVec = ~~~Crc.run poly.toBitVec (~~~value).toBitVec bytes := by
  rw [update, UInt32.toBitVec_not, foldl_toBitVec]

/-! ## What the integrity checks use -/

@[simp] theorem update_nil (value : UInt32) : update value [] = value := by
  simp [update]

theorem update_append (value : UInt32) (a b : Bytes) :
    update (update value a) b = update value (a ++ b) := by
  simp [update, List.foldl_append]

theorem update_calculate (a b : Bytes) : update (calculate a) b = calculate (a ++ b) :=
  update_append 0 a b

/-- **One changed byte changes the checksum.** -/
theorem calculate_set_ne {bytes : Bytes} {i : Nat} {v : UInt8} (hi : i < bytes.length)
    (hv : bytes[i] ≠ v) : calculate (bytes.set i v) ≠ calculate bytes := by
  intro h
  have h' := congrArg UInt32.toBitVec h
  rw [calculate, calculate, update_eq_run, update_eq_run, BitVec.not_inj] at h'
  exact Crc.run_set_ne (by decide) (by decide) hi hv _ h'

/-- **A changed pair of first bytes changes the checksum.** -/
theorem calculate_pair_inj {x y x' y' : UInt8} {rest : Bytes}
    (h : calculate (x :: y :: rest) = calculate (x' :: y' :: rest)) : x = x' ∧ y = y' := by
  have h' := congrArg UInt32.toBitVec h
  rw [calculate, calculate, update_eq_run, update_eq_run, BitVec.not_inj, Crc.run_cons, Crc.run_cons,
    Crc.run_cons, Crc.run_cons] at h'
  exact Crc.byteStep_pair_inj (by decide) (by decide) (Crc.run_inj (by decide) (by decide) h')

end DaveOs.Crc32
