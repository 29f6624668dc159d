import DaveOs.Lib.Checked

/-!
# Averages in the log

`LogAverage` of `lib/core/logging/log_format.hpp` prints a quotient of two 64-bit counters with one
decimal. The tenths are counted by ten additions of the remainder modulo the count, so that ten times the
total is never formed; every 32- and 64-bit operation is checked, and none wraps.
-/

namespace DaveOs.Logging

open Checked

/-- The digits that `PRIu32` prints. -/
def decimal (n : Nat) : List Char := Nat.toDigits 10 n

/-- `snprintf` to a buffer of `size` bytes: what does not fit in front of the NUL is cut off. -/
def snprintf (size : Nat) (text : List Char) : List Char := text.take (size - 1)

/-- The values a counter is shown up to. -/
def kLimit : Nat := 4294967295

def kAverageSize : Nat := 13

/-- One turn of the loop in `LogAverage`: the digit and the fraction, with the remainder added. -/
def addRemainder (count remainder : Nat) : Nat × Nat → Option (Nat × Nat)
  | (digit, fraction) => do
    let gap ← sub count remainder
    if gap ≤ fraction then return (← add 32 digit 1, ← sub fraction gap)
    else return (digit, ← add 64 fraction remainder)

/-- The loop, with `n` turns left. -/
def addRemainders (count remainder : Nat) : Nat → Nat × Nat → Option (Nat × Nat)
  | 0, s => some s
  | n + 1, s => addRemainder count remainder s >>= addRemainders count remainder n

/-- The whole part and the digit after it, rounded. -/
def roundAverage (whole remainder count : Nat) : Option (Nat × Nat) := do
  let (digit, fraction) ← addRemainders count remainder 10 (0, 0)
  let half ← add 64 (count / 2) (count % 2)
  let digit ← if half ≤ fraction then add 32 digit 1 else some digit
  if digit = 10 then return (← add 64 whole 1, 0) else return (whole, digit)

def logAverage (total count : Nat) : Option (List Char) := do
  let whole := if count ≠ 0 then total / count else 0
  let remainder := if count ≠ 0 then total % count else 0
  if kLimit < whole ∨ (whole = kLimit ∧ remainder ≠ 0) then
    return snprintf kAverageSize (decimal kLimit ++ ['+'])
  let (whole, digit) ← if count ≠ 0 then roundAverage whole remainder count else some (whole, 0)
  return snprintf kAverageSize (decimal (whole % 2 ^ 32) ++ '.' :: decimal digit)

variable {total count remainder whole : Nat}

/-! ## The tenths -/

/-- `i` remainders make `digit` counts and `fraction`. -/
structure Divided (count remainder i : Nat) (s : Nat × Nat) : Prop where
  sum : s.1 * count + s.2 = i * remainder
  lt : s.2 < count

theorem addRemainder_spec {i : Nat} {s : Nat × Nat} (hc : count < 2 ^ 64) (hr : remainder < count)
    (hi : i < 10) (h : Divided count remainder i s) :
    ∃ s', addRemainder count remainder s = some s' ∧ Divided count remainder (i + 1) s' := by
  obtain ⟨digit, fraction⟩ := s
  obtain ⟨hsum, hlt⟩ := h
  simp only at hsum hlt
  have hdigit : digit < 10 := by
    by_contra hge
    have h10 : 10 * count ≤ digit * count := Nat.mul_le_mul_right count (by omega)
    have : i * remainder ≤ 9 * remainder := Nat.mul_le_mul_right remainder (by omega)
    omega
  unfold addRemainder
  rw [sub_eq (Nat.le_of_lt hr)]
  by_cases hgap : count - remainder ≤ fraction
  · refine ⟨(digit + 1, fraction - (count - remainder)), ?_, ?_, ?_⟩
    · simp [hgap, add_eq (w := 32) (a := digit) (b := 1) (by omega), sub_eq hgap]
    · show (digit + 1) * count + (fraction - (count - remainder)) = (i + 1) * remainder
      rw [Nat.succ_mul, Nat.succ_mul]
      omega
    · show fraction - (count - remainder) < count
      omega
  · refine ⟨(digit, fraction + remainder), ?_, ?_, ?_⟩
    · simp [hgap, add_eq (w := 64) (a := fraction) (b := remainder) (by omega)]
    · show digit * count + (fraction + remainder) = (i + 1) * remainder
      rw [Nat.succ_mul]
      omega
    · show fraction + remainder < count
      omega

theorem addRemainders_spec (hc : count < 2 ^ 64) (hr : remainder < count) :
    ∀ {n i : Nat} {s : Nat × Nat}, i + n ≤ 10 → Divided count remainder i s →
      ∃ s', addRemainders count remainder n s = some s' ∧ Divided count remainder (i + n) s'
  | 0, _, s, _, h => ⟨s, rfl, h⟩
  | n + 1, i, s, hi, h => by
    obtain ⟨s₁, hs₁, h₁⟩ := addRemainder_spec hc hr (by omega) h
    obtain ⟨s', hs', h'⟩ := addRemainders_spec (n := n) hc hr (by omega) h₁
    refine ⟨s', ?_, by rwa [Nat.add_right_comm i 1 n] at h'⟩
    rw [addRemainders, hs₁]
    exact hs'

/-- The tenths of the average, rounded half up. -/
def tenths (total count : Nat) : Nat := (20 * total + count) / (2 * count)

theorem roundAverage_spec (hc : count < 2 ^ 64) (hw : whole ≤ kLimit) (hr : remainder < count) :
    roundAverage whole remainder count =
      some (tenths (count * whole + remainder) count / 10, tenths (count * whole + remainder) count % 10) := by
  obtain ⟨⟨digit, fraction⟩, hloop, hsum, hlt⟩ := addRemainders_spec (n := 10) hc hr (Nat.le_refl _)
    (show Divided count remainder 0 (0, 0) from ⟨by simp, by simp; omega⟩)
  simp only at hsum hlt
  -- The rounded digit is `digit`, or one more if at least half of a tenth is left.
  have htenths : tenths (count * whole + remainder) count =
      10 * whole + (if count ≤ 2 * fraction then digit + 1 else digit) := by
    unfold tenths
    rw [show 20 * (count * whole + remainder) + count =
      2 * count * (10 * whole + digit) + (2 * fraction + count) by linarith]
    rw [Nat.mul_add_div (by omega)]
    split
    · rw [Nat.div_eq_of_lt_le (k := 1) (by omega) (by omega)]
      rfl
    · rw [Nat.div_eq_of_lt (by omega)]
      rfl
  have hdigit : digit < 10 := by
    by_contra hge
    have h10 : 10 * count ≤ digit * count := Nat.mul_le_mul_right count (by omega)
    omega
  rw [htenths]
  unfold roundAverage kLimit at *
  rw [hloop]
  simp only [Option.bind_eq_bind, Option.bind_some, add_eq (w := 64) (a := count / 2) (b := count % 2) (by omega)]
  have hhalf : count / 2 + count % 2 ≤ fraction ↔ count ≤ 2 * fraction := by omega
  simp only [hhalf]
  split
  · rw [add_eq (by omega), Option.bind_some]
    split
    · rw [add_eq (by omega)]
      simp
      omega
    · simp
      omega
  · rw [if_neg (by omega)]
    simp
    omega

/-- The cap is for quotients above the limit, the remainder included. -/
theorem capped_iff (hc : 0 < count) :
    (kLimit < total / count ∨ (total / count = kLimit ∧ total % count ≠ 0)) ↔ count * kLimit < total := by
  have hdiv := Nat.div_add_mod total count
  have hmod := Nat.mod_lt total hc
  rcases Nat.lt_trichotomy (total / count) kLimit with h | h | h
  · have := Nat.mul_le_mul_left count (Nat.succ_le_of_lt h)
    rw [Nat.mul_succ] at this
    omega
  · rw [h] at hdiv ⊢
    omega
  · have := Nat.mul_le_mul_left count (Nat.succ_le_of_lt h)
    rw [Nat.mul_succ] at this
    omega

theorem tenths_le (hc : 0 < count) (h : total ≤ count * kLimit) : tenths total count ≤ 10 * kLimit := by
  refine Nat.le_of_lt_succ ((Nat.div_lt_iff_lt_mul (by omega)).2 ?_)
  linarith

/-! ## The text -/

theorem snprintf_eq {size : Nat} {text : List Char} (h : text.length < size) : snprintf size text = text :=
  List.take_of_length_le (by omega)

theorem length_decimal {n e : Nat} (he : 0 < e) (h : n < 10 ^ e) : (decimal n).length ≤ e :=
  Nat.toDigits_length 10 n e he h

/-- For all 64-bit counters, `LogAverage` prints the quotient rounded half up to one decimal if it is at
most the limit, the limit and a plus if it is not, and zero without a count. The text fits its buffer, and
no step wraps. -/
theorem logAverage_exact (total count : UInt64) :
    ∃ text, logAverage total.toNat count.toNat = some text ∧ text.length < kAverageSize ∧
      text = if count = 0 then ['0', '.', '0']
        else if (total.toNat / count.toNat : ℚ) ≤ kLimit then
          decimal (⌊10 * (total.toNat / count.toNat : ℚ) + 1 / 2⌋₊ / 10) ++
            '.' :: decimal (⌊10 * (total.toNat / count.toNat : ℚ) + 1 / 2⌋₊ % 10)
        else decimal kLimit ++ ['+'] := by
  obtain ⟨hc, ht⟩ := (⟨count.toNat_lt, total.toNat_lt⟩ : count.toNat < 2 ^ 64 ∧ total.toNat < 2 ^ 64)
  have hzero : count = 0 ↔ count.toNat = 0 := UInt64.toNat_inj.symm
  simp only [hzero]
  generalize total.toNat = total at *
  generalize count.toNat = count at *
  by_cases h0 : count = 0
  · subst h0
    refine ⟨['0', '.', '0'], ?_, by decide, (if_pos rfl).symm⟩
    simp only [logAverage, ne_eq, not_true_eq_false, if_false]
    rfl
  have hpos : 0 < count := Nat.pos_of_ne_zero h0
  have hle : ((total : ℚ) / count ≤ kLimit) ↔ total ≤ count * kLimit := by
    rw [div_le_iff₀' (by exact_mod_cast hpos)]
    exact_mod_cast Iff.rfl
  have htenths : ⌊10 * ((total : ℚ) / count) + 1 / 2⌋₊ = tenths total count := by
    rw [tenths, ← Nat.floor_div_eq_div (K := ℚ)]
    congr 1
    push_cast
    field_simp
    ring
  simp only [if_neg h0, hle, htenths]
  unfold logAverage
  simp only [if_pos (show count ≠ 0 from h0)]
  by_cases hlimit : total ≤ count * kLimit
  · -- The quotient is shown: at most ten digits, the point and one digit.
    have hnot := mt (capped_iff hpos).1 (Nat.not_lt.2 hlimit)
    have htop := tenths_le hpos hlimit
    have hdigits : tenths total count / 10 < 10 ^ 10 := by
      unfold kLimit at htop
      omega
    rw [if_neg hnot, roundAverage_spec hc (by omega) (Nat.mod_lt total hpos), Nat.div_add_mod]
    simp only [Option.bind_eq_bind, Option.bind_some]
    have hlength : (decimal (tenths total count / 10) ++ '.' :: decimal (tenths total count % 10)).length <
        kAverageSize := by
      have h10 := length_decimal (by decide) hdigits
      have h1 := length_decimal (n := tenths total count % 10) (e := 1) (by decide) (by omega)
      simp only [List.length_append, List.length_cons, kAverageSize]
      omega
    rw [if_pos hlimit, Nat.mod_eq_of_lt (by unfold kLimit at htop; omega), snprintf_eq hlength]
    exact ⟨_, rfl, hlength, rfl⟩
  · rw [if_pos ((capped_iff hpos).2 (Nat.not_le.1 hlimit)), if_neg hlimit]
    exact ⟨_, rfl, by decide, by decide⟩

end DaveOs.Logging
