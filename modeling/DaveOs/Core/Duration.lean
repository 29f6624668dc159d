import DaveOs.Core.Deadline
import DaveOs.Lib.Checked

/-!
# Exact conversion of durations

`to_microseconds` of `lib/core/foundation/duration.hpp` converts an integral `std::chrono::duration` to
microseconds. The scale is reduced before it is applied, in two guarded multiplications of 64 bits.
-/

namespace DaveOs

open Checked

/-- A `std::chrono::duration`: a count of an integral type of at most 64 bits, and its period in seconds. -/
structure ChronoDuration where
  signed : Bool
  count : Int
  num : Nat
  den : Nat
  count_ge : (if signed then -2 ^ 63 else 0) ≤ count
  count_lt : count < if signed then 2 ^ 63 else 2 ^ 64
  num_pos : 0 < num
  num_lt : num < 2 ^ 63
  den_pos : 0 < den
  den_lt : den < 2 ^ 63
  coprime : Nat.Coprime num den

namespace ChronoDuration

/-- The delay in microseconds, as a rational number. -/
def exact (delay : ChronoDuration) : ℚ := delay.count * delay.num * 1000000 / delay.den

/-- `to_microseconds`: the status, and what `result` holds after it. -/
def toMicroseconds (delay : ChronoDuration) (result : Time) : Option (Status × Time) := do
  if delay.signed ∧ delay.count < 0 then return (.invalidArgument, result)
  let common := Nat.gcd delay.den 1000000
  let divisor := delay.den / common
  let multiplier := 1000000 / common
  let count := delay.count.toNat
  if count % divisor ≠ 0 ∨ (kForever - 1) / delay.num < count / divisor then
    return (.invalidArgument, result)
  let scaled ← mul 64 (count / divisor) delay.num
  if (kForever - 1) / multiplier < scaled then return (.invalidArgument, result)
  return (.ok, ← mul 64 scaled multiplier)

variable (delay : ChronoDuration)

/-- The reduced scale: the period in microseconds in lowest terms is `num * multiplier / divisor`. -/
structure Scale (common divisor multiplier : Nat) : Prop where
  pos : 0 < common ∧ 0 < divisor ∧ 0 < multiplier
  den : delay.den = divisor * common
  million : 1000000 = multiplier * common
  coprime : Nat.Coprime divisor (delay.num * multiplier)

theorem scale : delay.Scale (Nat.gcd delay.den 1000000) (delay.den / Nat.gcd delay.den 1000000)
    (1000000 / Nat.gcd delay.den 1000000) := by
  have hpos : 0 < Nat.gcd delay.den 1000000 := Nat.gcd_pos_of_pos_left _ delay.den_pos
  have hden := Nat.div_mul_cancel (Nat.gcd_dvd_left delay.den 1000000)
  refine ⟨⟨hpos, Nat.div_gcd_pos_of_pos_left _ delay.den_pos, Nat.div_gcd_pos_of_pos_right _ (by decide)⟩,
    hden.symm, (Nat.div_mul_cancel (Nat.gcd_dvd_right delay.den 1000000)).symm, Nat.Coprime.mul_right ?_ ?_⟩
  · exact (Nat.Coprime.coprime_dvd_right ⟨_, hden.symm⟩ delay.coprime).symm
  · exact Nat.coprime_div_gcd_div_gcd hpos

variable {delay} {common divisor multiplier count : Nat}

/-- The exact value is a whole number exactly if the count is a multiple of the divisor. -/
theorem Scale.exact_iff (h : delay.Scale common divisor multiplier) (hcount : delay.count = count)
    (n : Nat) : delay.exact = n ↔ count % divisor = 0 ∧ n = count / divisor * delay.num * multiplier := by
  obtain ⟨hcommon, hdivisor, -⟩ := h.pos
  have hcross : delay.exact = n ↔ count * delay.num * (multiplier * common) = n * (divisor * common) := by
    unfold exact
    rw [hcount, h.den, div_eq_iff (by positivity), ← h.million]
    exact_mod_cast Iff.rfl
  rw [hcross, ← Nat.mul_assoc, ← Nat.mul_assoc, Nat.mul_left_inj (by omega), Nat.mul_assoc]
  constructor
  · intro heq
    obtain ⟨k, rfl⟩ := h.coprime.dvd_of_dvd_mul_right (Dvd.intro_left n heq.symm)
    refine ⟨Nat.mul_mod_right _ _, ?_⟩
    rw [Nat.mul_div_cancel_left _ hdivisor]
    refine Nat.eq_of_mul_eq_mul_right hdivisor ?_
    linarith
  · rintro ⟨hmod, rfl⟩
    obtain ⟨k, rfl⟩ := Nat.dvd_of_mod_eq_zero hmod
    rw [Nat.mul_div_cancel_left _ hdivisor]
    ring

/-- What a count that is not negative is converted to. -/
theorem toMicroseconds_eq {count : Nat} (hcount : delay.count = count) (result : Time) :
    ∃ divisor multiplier, (∃ common, delay.Scale common divisor multiplier) ∧
      delay.toMicroseconds result =
        if count % divisor = 0 ∧ count / divisor * delay.num * multiplier ≤ kForever - 1 then
          some (.ok, count / divisor * delay.num * multiplier)
        else some (.invalidArgument, result) := by
  refine ⟨_, _, ⟨_, delay.scale⟩, ?_⟩
  obtain ⟨-, -, hmultiplier⟩ := delay.scale.pos
  have hforever : kForever < 2 ^ 64 := by decide
  unfold toMicroseconds
  rw [if_neg (by omega), hcount, Int.toNat_natCast]
  dsimp only
  generalize delay.den / Nat.gcd delay.den 1000000 = divisor at *
  generalize 1000000 / Nat.gcd delay.den 1000000 = multiplier at *
  simp only [Nat.div_lt_iff_lt_mul delay.num_pos, Nat.div_lt_iff_lt_mul hmultiplier]
  have hle := Nat.le_mul_of_pos_right (count / divisor * delay.num) hmultiplier
  split
  · rw [if_neg (by omega)]
    rfl
  · rw [mul_eq (by omega)]
    dsimp only [Option.bind_eq_bind, Option.bind_some]
    split
    · rw [if_neg (by omega)]
      rfl
    · rw [mul_eq (by omega), if_pos (by omega)]
      rfl

/-- **Exact conversion**: the status is ok exactly if the delay is a whole number of microseconds below the
sentinel, which is then the result; else the result stays as it is. No product wraps. -/
theorem toMicroseconds_exact (delay : ChronoDuration) (result : Time) :
    (∀ n : Nat, n ≤ kForever - 1 → delay.exact = n → delay.toMicroseconds result = some (.ok, n)) ∧
    ((¬∃ n : Nat, n ≤ kForever - 1 ∧ delay.exact = n) →
      delay.toMicroseconds result = some (.invalidArgument, result)) := by
  rcases lt_or_ge delay.count 0 with hneg | hpos
  · -- Only a signed count is negative, and so is then the delay.
    have hsigned : delay.signed = true := by
      have := delay.count_ge
      by_contra hs
      rw [if_neg hs] at this
      omega
    have hexact : ∀ n : Nat, delay.exact ≠ n := by
      intro n hn
      have hnum : (0 : ℚ) < delay.num := by exact_mod_cast delay.num_pos
      have hden : (0 : ℚ) < delay.den := by exact_mod_cast delay.den_pos
      have hcount : (delay.count : ℚ) < 0 := by exact_mod_cast hneg
      have : delay.exact < 0 := div_neg_of_neg_of_pos
        (mul_neg_of_neg_of_pos (mul_neg_of_neg_of_pos hcount hnum) (by norm_num)) hden
      exact absurd (Nat.cast_nonneg (α := ℚ) n) (by rw [← hn]; exact not_le.2 this)
    refine ⟨fun n _ hn => absurd hn (hexact n), fun _ => ?_⟩
    unfold toMicroseconds
    rw [if_pos ⟨hsigned, hneg⟩]
    rfl
  · obtain ⟨count, hcount⟩ := Int.eq_ofNat_of_zero_le hpos
    obtain ⟨divisor, multiplier, ⟨common, hscale⟩, heq⟩ := toMicroseconds_eq hcount result
    rw [heq]
    refine ⟨fun n hn hexact => ?_, fun hno => if_neg fun h => hno ?_⟩
    · obtain ⟨hmod, rfl⟩ := (hscale.exact_iff hcount n).1 hexact
      exact if_pos ⟨hmod, hn⟩
    · exact ⟨_, h.2, (hscale.exact_iff hcount _).2 ⟨h.1, rfl⟩⟩

end ChronoDuration

end DaveOs
