import DaveOs.Boot.Guarded

/-!
# What it takes to write an image

`plan` is the purpose of the slot writer in its own terms: unit by unit, in order, the image filled up with
ones, and the erase of a sector right before its first unit. What the plan contains is said here; that the
writer follows it is said in `WriterExact`.
-/

namespace DaveOs.Update

variable {n size : Nat} {more : Bytes}

open Boot Bytes

/-- How many pieces of `size` bytes it takes to cover `n` bytes. -/
def cover (n size : Nat) : Nat := (n + (size - 1)) / size

theorem cover_eq {c : Nat} (hle : n ≤ c * size) (hlt : c * size < n + size) : cover n size = c := by
  unfold cover
  refine Nat.div_eq_of_lt_le ?_ ?_
  · omega
  · rw [Nat.succ_mul]
    omega

theorem cover_spec (hsize : 0 < size) :
    n ≤ cover n size * size ∧ cover n size * size < n + size := by
  have hdiv := Nat.div_add_mod (n + (size - 1)) size
  have hmod := Nat.mod_lt (n + (size - 1)) hsize
  rw [Nat.mul_comm] at hdiv
  unfold cover
  omega

theorem eq_of_multiples {a b s : Nat} (ha : a % s = 0) (hb : b % s = 0) (hle : a ≤ b) (hlt : b < a + s) : a = b := by
  obtain ⟨x, rfl⟩ := Nat.dvd_of_mod_eq_zero ha
  obtain ⟨y, rfl⟩ := Nat.dvd_of_mod_eq_zero hb
  have hxy : y < x + 1 := by
    refine Nat.lt_of_mul_lt_mul_left (a := s) ?_
    rw [Nat.mul_succ]
    exact hlt
  have hs : 0 < s := by omega
  have hyx : x ≤ y := Nat.le_of_mul_le_mul_left hle hs
  rw [Nat.le_antisymm hyx (Nat.le_of_lt_succ hxy)]

variable (layout : Layout)

/-- Unit `k` of an image, the last one filled up with ones. -/
def unitAt (image : Bytes) (k : Nat) : Bytes :=
  let part := (image.drop (k * layout.unit)).take layout.unit
  part ++ List.replicate (layout.unit - part.length) 0xff

/-- The erase before unit `k`, if it is the first of a sector. -/
def erasePlan (i k : Nat) : List Operation :=
  if k * layout.unit % layout.sector = 0 then [.erase (layout.slot i + k * layout.unit)] else []

/-- The operations for the first `n` units of an image in slot `i`. -/
def planTo (i : Nat) (image : Bytes) : Nat → List Operation
  | 0 => []
  | n + 1 => planTo i image n ++ erasePlan layout i n ++
      [.program (layout.slot i + n * layout.unit) (unitAt layout image n)]

/-- The operations for an image in slot `i`. -/
def plan (i : Nat) (image : Bytes) : List Operation := planTo layout i image (cover image.length layout.unit)

def erasedBy : Operation → Option Nat
  | .erase pos => some pos
  | .program _ _ => none

/-- What an operation programs, and where. -/
def programmedBy : Operation → Option (Nat × Bytes)
  | .erase _ => none
  | .program pos data => some (pos, data)

variable {layout} {i : Nat} {image : Bytes}

theorem sector_unit (hl : layout.Valid) : layout.sector % layout.unit = 0 := by
  have := hl.record_dvd
  rcases hl.unit_eq with hu | hu <;> rw [hu] <;> omega

theorem mul_sector_unit (hl : layout.Valid) (c : Nat) : c * layout.sector % layout.unit = 0 :=
  Nat.mod_eq_zero_of_dvd (Nat.dvd_trans (Nat.dvd_of_mod_eq_zero (sector_unit hl)) (Nat.dvd_mul_left _ c))

theorem unit_pos (hl : layout.Valid) : 0 < layout.unit := by
  rcases hl.unit_eq with hu | hu <;> omega

theorem length_unitAt (image : Bytes) (k : Nat) : (unitAt layout image k).length = layout.unit := by
  simp only [unitAt, List.length_append, List.length_replicate, List.length_take, List.length_drop]
  omega

theorem unitAt_append {k : Nat} (h : (k + 1) * layout.unit ≤ image.length) :
    unitAt layout (image ++ more) k = unitAt layout image k := by
  rw [Nat.succ_mul] at h
  have hpart : ((image ++ more).drop (k * layout.unit)).take layout.unit =
      (image.drop (k * layout.unit)).take layout.unit := by
    rw [List.drop_append_of_le_length (by omega), List.take_append_of_le_length]
    rw [List.length_drop]
    omega
  unfold unitAt
  rw [hpart]

theorem planTo_append : ∀ {n : Nat}, n * layout.unit ≤ image.length →
    planTo layout i (image ++ more) n = planTo layout i image n := by
  intro n
  induction n with
  | zero => exact fun _ => rfl
  | succ n ih =>
    intro h
    rw [planTo, planTo, unitAt_append h, ih]
    rw [Nat.succ_mul] at h
    omega

/-! ## What the plan contains -/

theorem planTo_prefix (n : Nat) : ∀ m, planTo layout i image n <+: planTo layout i image (n + m) := by
  intro m
  induction m with
  | zero => exact List.prefix_refl _
  | succ m ih =>
    refine ih.trans ?_
    rw [← Nat.add_assoc, planTo, List.append_assoc]
    exact List.prefix_append _ _

theorem programs_planTo : ∀ n, (planTo layout i image n).filterMap programmedBy =
    (List.range n).map fun k => (layout.slot i + k * layout.unit, unitAt layout image k) := by
  intro n
  induction n with
  | zero => rfl
  | succ n ih =>
    have herase : (erasePlan layout i n).filterMap programmedBy = [] := by
      unfold erasePlan
      split <;> rfl
    rw [planTo, List.filterMap_append, List.filterMap_append, ih, herase, List.append_nil, List.range_succ,
      List.map_append]
    rfl

theorem erases_planTo (hl : layout.Valid) (i : Nat) (image : Bytes) : ∀ n, ∃ c, (planTo layout i image n).filterMap erasedBy =
      (List.range c).map (fun s => layout.slot i + s * layout.sector) ∧
    n * layout.unit ≤ c * layout.sector ∧ c * layout.sector < n * layout.unit + layout.sector := by
  intro n
  have hunit := sector_unit hl
  have hpos := unit_pos hl
  induction n with
  | zero => exact ⟨0, rfl, by omega, by have := hl.sector_pos; omega⟩
  | succ n ih =>
    obtain ⟨c, hc, hle, hlt⟩ := ih
    have hstep (rest : List Operation) : (planTo layout i image n ++ rest ++
        [Operation.program (layout.slot i + n * layout.unit) (unitAt layout image n)]).filterMap erasedBy =
        (List.range c).map (fun s => layout.slot i + s * layout.sector) ++ rest.filterMap erasedBy := by
      rw [List.filterMap_append, List.filterMap_append, hc]
      exact List.append_nil _
    rw [planTo, hstep, Nat.succ_mul]
    unfold erasePlan
    split
    · next hmod =>
      have heq : n * layout.unit = c * layout.sector :=
        eq_of_multiples hmod (Nat.mul_mod_left c layout.sector) hle hlt
      refine ⟨c + 1, ?_, ?_, ?_⟩
      · rw [List.range_succ, List.map_append, heq]
        rfl
      · rw [Nat.succ_mul]
        have : layout.unit ≤ layout.sector := Nat.le_of_dvd hl.sector_pos (Nat.dvd_of_mod_eq_zero hunit)
        omega
      · rw [Nat.succ_mul]
        omega
    · next hmod =>
      refine ⟨c, List.append_nil _, ?_, by omega⟩
      by_contra hgt
      have heq : n * layout.unit = c * layout.sector :=
        eq_of_multiples (Nat.mul_mod_left n layout.unit) (mul_sector_unit hl c) hle (by omega)
      rw [heq] at hmod
      exact hmod (Nat.mul_mod_left c layout.sector)

theorem erases_plan (hl : layout.Valid) : (plan layout i image).filterMap erasedBy =
    (List.range (cover image.length layout.sector)).map (fun s => layout.slot i + s * layout.sector) := by
  obtain ⟨c, hc, hle, hlt⟩ := erases_planTo hl i image (cover image.length layout.unit)
  obtain ⟨hle', hlt'⟩ := cover_spec (n := image.length) (unit_pos hl)
  rw [plan, hc]
  congr 2
  refine (cover_eq (by omega) ?_).symm
  -- One sector less would end before the last unit.
  by_contra hge
  have hc1 : c * layout.sector = (c - 1) * layout.sector + layout.sector := by
    rw [← Nat.succ_mul]
    congr 1
    have : c ≠ 0 := by
      rintro rfl
      have := hl.sector_pos
      omega
    omega
  have heq := eq_of_multiples (mul_sector_unit hl (c - 1)) (Nat.mul_mod_left (cover image.length layout.unit) layout.unit) (by omega) (by omega)
  omega

theorem erased_before (hl : layout.Valid) : ∀ n {ops : List Operation} {pos : Nat} {data : Bytes},
    ops ++ [.program pos data] <+: planTo layout i image n →
    ∃ s, .erase s ∈ ops ∧ s ≤ pos ∧ pos + layout.unit ≤ s + layout.sector := by
  intro n
  induction n with
  | zero =>
    intro ops pos data h
    simp [planTo] at h
  | succ n ih =>
    intro ops pos data h
    rw [planTo, List.prefix_concat_iff] at h
    rcases h with h | h
    · obtain ⟨hops, hlast⟩ := List.append_inj' h rfl
      obtain ⟨hpos, -⟩ := Operation.program.inj (List.singleton_inj.mp hlast)
      subst hops hpos
      obtain ⟨c, hc, hle, hlt⟩ := erases_planTo hl i image n
      by_cases hmod : n * layout.unit % layout.sector = 0
      · refine ⟨layout.slot i + n * layout.unit, ?_, Nat.le_refl _, ?_⟩
        · rw [erasePlan, if_pos hmod]
          exact List.mem_append_right _ (List.mem_singleton_self _)
        · have := Nat.le_of_dvd hl.sector_pos (Nat.dvd_of_mod_eq_zero (sector_unit hl))
          omega
      · -- The last sector that has been erased reaches beyond the unit.
        have hne : n * layout.unit ≠ c * layout.sector := fun heq => hmod (heq ▸ Nat.mul_mod_left c layout.sector)
        have hc0 : c ≠ 0 := by
          rintro rfl
          omega
        have hc1 : c * layout.sector = (c - 1) * layout.sector + layout.sector := by
          rw [← Nat.succ_mul]
          congr 1
          omega
        refine ⟨layout.slot i + (c - 1) * layout.sector, ?_, by omega, ?_⟩
        · have hmem : layout.slot i + (c - 1) * layout.sector ∈ (planTo layout i image n).filterMap erasedBy := by
            rw [hc]
            exact List.mem_map.mpr ⟨c - 1, List.mem_range.mpr (by omega), rfl⟩
          obtain ⟨op, hop, heq⟩ := List.mem_filterMap.mp hmem
          cases op with
          | erase s => exact List.mem_append_left _ (Option.some.inj heq ▸ hop)
          | program => cases heq
        · by_contra hgt
          exact hne (eq_of_multiples (Nat.mul_mod_left n layout.unit) (mul_sector_unit hl c) hle (by omega))
    · unfold erasePlan at h
      split at h
      · rw [List.prefix_concat_iff] at h
        rcases h with h | h
        · cases List.singleton_inj.mp (List.append_inj' h rfl).2
        · exact ih h
      · rw [List.append_nil] at h
        exact ih h

theorem plan_inside (hl : layout.Valid) (hfits : image.length ≤ layout.room) {op : Operation}
    (h : op ∈ plan layout i image) {x : Nat} (hx : op.Covers layout x) : layout.InSlot i x := by
  have hroom : layout.room % layout.unit = 0 := by
    obtain ⟨q, hq⟩ := Nat.dvd_of_mod_eq_zero hl.room_dvd
    rw [hq, Nat.mul_comm]
    exact mul_sector_unit hl q
  cases op with
  | erase pos =>
    have hmem : pos ∈ (plan layout i image).filterMap erasedBy := List.mem_filterMap.mpr ⟨_, h, rfl⟩
    rw [erases_plan hl] at hmem
    obtain ⟨s, hs, rfl⟩ := List.mem_map.mp hmem
    have hlt : s * layout.sector < layout.room := by
      have hs := List.mem_range.mp hs
      have hmul := Nat.mul_le_mul_right layout.sector (Nat.succ_le_of_lt hs)
      have := (cover_spec (n := image.length) hl.sector_pos).2
      rw [Nat.succ_mul] at hmul
      omega
    have hend : s * layout.sector + layout.sector ≤ layout.room := by
      by_contra hgt
      have := eq_of_multiples (Nat.mul_mod_left s layout.sector) hl.room_dvd (Nat.le_of_lt hlt) (by omega)
      omega
    obtain ⟨h1, h2⟩ := hx
    simp only [Operation.pos, Operation.size] at h1 h2
    exact ⟨by omega, by omega⟩
  | program pos data =>
    have hmem : (pos, data) ∈ (plan layout i image).filterMap programmedBy := List.mem_filterMap.mpr ⟨_, h, rfl⟩
    rw [plan, programs_planTo] at hmem
    obtain ⟨k, hk, heq⟩ := List.mem_map.mp hmem
    obtain ⟨rfl, rfl⟩ := Prod.mk.inj heq
    have hlt : k * layout.unit < layout.room := by
      have hk := List.mem_range.mp hk
      have hmul := Nat.mul_le_mul_right layout.unit (Nat.succ_le_of_lt hk)
      have := (cover_spec (n := image.length) (unit_pos hl)).2
      rw [Nat.succ_mul] at hmul
      omega
    have hend : k * layout.unit + layout.unit ≤ layout.room := by
      by_contra hgt
      have := eq_of_multiples (Nat.mul_mod_left k layout.unit) hroom (Nat.le_of_lt hlt) (by omega)
      omega
    obtain ⟨h1, h2⟩ := hx
    simp only [Operation.pos, Operation.size, length_unitAt] at h1 h2
    exact ⟨by omega, by omega⟩

end DaveOs.Update
