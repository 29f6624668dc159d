import DaveOs.Lib.Bytes

/-!
# Reflected cyclic redundancy checks

The shift register of a reflected CRC of any width, one bit and one byte at a time. When the
register's generator has its top bit set every bit step is injective (`bitStep_injective`), so two
registers that differ stay different for as long as they are fed the same bytes, and a message is
told from every message that differs from it in one byte (`run_set_ne`) or in its first two
(`byteStep_pair_inj`).
-/

namespace Crc

variable {w : Nat}
variable {poly : BitVec w}

/-- One bit: shift down, and add the generator when a one falls out. -/
def bitStep (poly c : BitVec w) : BitVec w :=
  (c >>> 1) ^^^ (if c.getLsbD 0 then poly else 0#w)

/-- `n` bit steps. -/
def bitSteps (poly : BitVec w) : Nat → BitVec w → BitVec w
  | 0, c => c
  | n + 1, c => bitSteps poly n (bitStep poly c)

/-- One byte: added to the low end of the register, then eight bit steps. -/
def byteStep (poly c : BitVec w) (b : UInt8) : BitVec w :=
  bitSteps poly 8 (c ^^^ b.toBitVec.setWidth w)

def run (poly c : BitVec w) (bytes : Bytes) : BitVec w := bytes.foldl (byteStep poly) c

theorem run_append (poly c : BitVec w) (a b : Bytes) :
    run poly c (a ++ b) = run poly (run poly c a) b := List.foldl_append

theorem run_cons (poly c : BitVec w) (b : UInt8) (bytes : Bytes) :
    run poly c (b :: bytes) = run poly (byteStep poly c b) bytes := rfl

theorem bitStep_msb (hw : 0 < w) (hp : poly.getLsbD (w - 1) = true) (c : BitVec w) :
    (bitStep poly c).getLsbD (w - 1) = c.getLsbD 0 := by
  have hout : (c >>> 1).getLsbD (w - 1) = false := by
    rw [BitVec.getLsbD_ushiftRight, BitVec.getLsbD_of_ge c _ (by omega)]
  unfold bitStep
  rw [BitVec.getLsbD_xor, hout]
  cases c.getLsbD 0
  · simp
  · simp [hp]

theorem bitStep_injective (hw : 0 < w) (hp : poly.getLsbD (w - 1) = true) :
    Function.Injective (bitStep poly) := by
  intro a b h
  have h0 : a.getLsbD 0 = b.getLsbD 0 := by
    rw [← bitStep_msb hw hp a, ← bitStep_msb hw hp b, h]
  have hs : a >>> 1 = b >>> 1 := by
    unfold bitStep at h
    rw [h0] at h
    exact BitVec.xor_left_inj _ |>.mp h
  apply BitVec.eq_of_getLsbD_eq
  intro i hi
  cases i with
  | zero => exact h0
  | succ i =>
    have := congrArg (fun x : BitVec w => x.getLsbD i) hs
    simp only [BitVec.getLsbD_ushiftRight] at this
    rwa [Nat.add_comm 1 i] at this

theorem bitSteps_injective (hw : 0 < w) (hp : poly.getLsbD (w - 1) = true) (n : Nat) :
    Function.Injective (bitSteps poly n) := by
  induction n with
  | zero => exact fun a b h => h
  | succ n ih => exact fun a b h => bitStep_injective hw hp (ih h)

section

variable {poly : BitVec w} (hw : 8 ≤ w) (hp : poly.getLsbD (w - 1) = true)
variable {a b : BitVec w} {x : UInt8} {bytes : Bytes}

include hw hp in
theorem byteStep_left_inj (h : byteStep poly a x = byteStep poly b x) : a = b :=
  (BitVec.xor_left_inj _).mp (bitSteps_injective (by omega) hp 8 h)

include hw hp in
theorem byteStep_right_inj {c : BitVec w} {y : UInt8} (h : byteStep poly c x = byteStep poly c y) :
    x = y := by
  have h' : x.toBitVec.setWidth w = y.toBitVec.setWidth w :=
    (BitVec.xor_right_inj _).mp (bitSteps_injective (by omega) hp 8 h)
  apply UInt8.toBitVec_inj.mp
  apply BitVec.eq_of_toNat_eq
  have := congrArg BitVec.toNat h'
  have hx : x.toBitVec.toNat < 2 ^ w :=
    Nat.lt_of_lt_of_le x.toBitVec.isLt (Nat.pow_le_pow_right (by omega) hw)
  have hy : y.toBitVec.toNat < 2 ^ w :=
    Nat.lt_of_lt_of_le y.toBitVec.isLt (Nat.pow_le_pow_right (by omega) hw)
  rwa [BitVec.toNat_setWidth, BitVec.toNat_setWidth, Nat.mod_eq_of_lt hx,
    Nat.mod_eq_of_lt hy] at this

include hw hp in
theorem run_inj (h : run poly a bytes = run poly b bytes) : a = b := by
  induction bytes generalizing a b with
  | nil => exact h
  | cons x xs ih => exact byteStep_left_inj hw hp (ih h)

include hw hp in
/-- **One changed byte changes the register**, wherever it stands in the message. -/
theorem run_set_ne {i : Nat} {v : UInt8} (hi : i < bytes.length) (hv : bytes[i] ≠ v) (c : BitVec w) :
    run poly c (bytes.set i v) ≠ run poly c bytes := by
  induction bytes generalizing i c with
  | nil => simp at hi
  | cons x xs ih =>
    cases i with
    | zero =>
      intro h
      have hstep : byteStep poly c v = byteStep poly c x := run_inj hw hp h
      exact hv (byteStep_right_inj hw hp hstep).symm
    | succ i => exact ih (by simpa using hi) (by simpa using hv) (byteStep poly c x)

end

/-! ## Two changed bytes -/

theorem bitStep_xor (poly a b : BitVec w) :
    bitStep poly (a ^^^ b) = bitStep poly a ^^^ bitStep poly b := by
  unfold bitStep
  rw [BitVec.getLsbD_xor, BitVec.ushiftRight_xor_distrib]
  apply BitVec.eq_of_getLsbD_eq
  intro i _
  cases a.getLsbD 0 <;> cases b.getLsbD 0 <;> simp [Bool.xor_comm, Bool.xor_left_comm]

theorem bitSteps_xor (poly : BitVec w) (n : Nat) (a b : BitVec w) :
    bitSteps poly n (a ^^^ b) = bitSteps poly n a ^^^ bitSteps poly n b := by
  induction n generalizing a b with
  | zero => rfl
  | succ n ih => rw [bitSteps, bitStep_xor, ih]; rfl

theorem bitSteps_add (poly : BitVec w) (n m : Nat) (c : BitVec w) :
    bitSteps poly m (bitSteps poly n c) = bitSteps poly (n + m) c := by
  induction n generalizing c with
  | zero => rw [Nat.zero_add]; rfl
  | succ n ih => rw [Nat.succ_add, bitSteps, bitSteps, ih]

theorem bitSteps_shiftLeft (poly : BitVec w) {v : BitVec w} : ∀ {n : Nat}, v.toNat * 2 ^ n < 2 ^ w →
    bitSteps poly n (v <<< n) = v := by
  intro n
  induction n with
  | zero => intro _; simp [bitSteps]
  | succ n ih =>
    intro h
    have hlt : v.toNat * 2 ^ n < 2 ^ w := by
      rw [Nat.pow_succ, ← Nat.mul_assoc] at h
      omega
    have hout : (v <<< (n + 1)).getLsbD 0 = false := by simp
    have hdown : (v <<< (n + 1)) >>> 1 = v <<< n := by
      apply BitVec.eq_of_toNat_eq
      rw [BitVec.toNat_ushiftRight, BitVec.toNat_shiftLeft, BitVec.toNat_shiftLeft,
        Nat.shiftLeft_eq, Nat.shiftLeft_eq, Nat.mod_eq_of_lt h, Nat.mod_eq_of_lt hlt,
        Nat.shiftRight_eq_div_pow, Nat.pow_succ, ← Nat.mul_assoc]
      omega
    rw [bitSteps, bitStep, hout, hdown]
    simpa using ih hlt

section

variable {poly : BitVec w} (hw : 16 ≤ w) (hp : poly.getLsbD (w - 1) = true)

include hw in
theorem byteStep_pair (c : BitVec w) (x y : UInt8) :
    byteStep poly (byteStep poly c x) y = bitSteps poly 16
      (c ^^^ x.toBitVec.setWidth w ^^^ (y.toBitVec.setWidth w <<< 8)) := by
  have hy : (y.toBitVec.setWidth w).toNat * 2 ^ 8 < 2 ^ w := by
    have h8 : y.toBitVec.toNat < 2 ^ 8 := y.toBitVec.isLt
    have hpow : 2 ^ 16 ≤ 2 ^ w := Nat.pow_le_pow_right (by omega) hw
    have hle : (y.toBitVec.setWidth w).toNat ≤ y.toBitVec.toNat := by
      rw [BitVec.toNat_setWidth]
      exact Nat.mod_le _ _
    omega
  rw [byteStep, byteStep, ← bitSteps_add poly 8 8, bitSteps_xor poly 8 (c ^^^ _),
    bitSteps_shiftLeft poly hy]

include hw hp in
theorem byteStep_pair_inj {c : BitVec w} {x y x' y' : UInt8}
    (h : byteStep poly (byteStep poly c x) y = byteStep poly (byteStep poly c x') y') :
    x = x' ∧ y = y' := by
  rw [byteStep_pair hw, byteStep_pair hw] at h
  have h := bitSteps_injective (by omega) hp 16 h
  rw [BitVec.xor_assoc, BitVec.xor_assoc, BitVec.xor_right_inj] at h
  have hbit : ∀ i, (x.toBitVec.setWidth w ^^^ (y.toBitVec.setWidth w <<< 8)).getLsbD i =
      (x'.toBitVec.setWidth w ^^^ (y'.toBitVec.setWidth w <<< 8)).getLsbD i := fun i => by rw [h]
  constructor
  · apply UInt8.toBitVec_inj.mp
    apply BitVec.eq_of_getLsbD_eq
    intro i hi
    have := hbit i
    simpa [hi, show i < w by omega] using this
  · apply UInt8.toBitVec_inj.mp
    apply BitVec.eq_of_getLsbD_eq
    intro i hi
    have := hbit (i + 8)
    simpa [show i + 8 < w by omega, show i < w by omega, show ¬ i + 8 < 8 by omega,
      BitVec.getLsbD_of_ge] using this

end

end Crc
