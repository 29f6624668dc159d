import Mathlib

/-!
# Scans of a table for its earliest entry

A table is scanned from its first entry to its last for the smallest time below a limit; the first of
several equal entries is kept (`Scan.earliest`). `Scan.earliest_spec` says all there is to know about
the result: the time is a bound for every entry, and the entry found, if there is one, has that time.
`swapRemove` takes an entry out of an unordered list by moving the last one into its place.
-/

namespace Scan

variable {ι : Type}
variable {due : ι → Option Nat} {limit : Nat} {table : List ι}

/-- One entry of the scan: it replaces the best so far when it is strictly earlier. -/
def consider (due : ι → Option Nat) (best : Nat × Option ι) (x : ι) : Nat × Option ι :=
  match due x with
  | some t => if t < best.1 then (t, some x) else best
  | none => best

/-- The earliest time below `limit` in the table, with the first entry that has it. -/
def earliest (due : ι → Option Nat) (limit : Nat) (table : List ι) : Nat × Option ι :=
  table.foldl (consider due) (limit, none)

/-- What a scan of `table` from the limit has found. -/
structure Found (due : ι → Option Nat) (limit : Nat) (table : List ι) (best : Nat × Option ι) :
    Prop where
  bound : ∀ x ∈ table, ∀ t, due x = some t → best.1 ≤ t
  le_limit : best.1 ≤ limit
  entry : ∀ x, best.2 = some x → x ∈ table ∧ due x = some best.1 ∧ best.1 < limit
  none : best.2 = none → best.1 = limit

theorem Found.consider {best : Nat × Option ι} (h : Found due limit table best) (x : ι) :
    Found due limit (table ++ [x]) (consider due best x) := by
  unfold Scan.consider
  cases hx : due x with
  | none =>
    refine ⟨?_, h.le_limit, ?_, h.none⟩
    · intro y hy t ht
      rcases List.mem_append.1 hy with hy | hy
      · exact h.bound y hy t ht
      · rw [List.mem_singleton.1 hy, hx] at ht
        cases ht
    · intro y hy
      obtain ⟨hm, hd, hl⟩ := h.entry y hy
      exact ⟨List.mem_append_left _ hm, hd, hl⟩
  | some u =>
    dsimp only
    split
    · next hlt =>
      refine ⟨?_, Nat.le_trans (Nat.le_of_lt hlt) h.le_limit, ?_, nofun⟩
      · intro y hy t ht
        rcases List.mem_append.1 hy with hy | hy
        · exact Nat.le_trans (Nat.le_of_lt hlt) (h.bound y hy t ht)
        · rw [List.mem_singleton.1 hy, hx] at ht
          cases ht
          exact Nat.le_refl _
      · intro y hy
        cases hy
        exact ⟨List.mem_append_right _ (List.mem_singleton_self x), hx, Nat.lt_of_lt_of_le hlt h.le_limit⟩
    · next hge =>
      refine ⟨?_, h.le_limit, ?_, h.none⟩
      · intro y hy t ht
        rcases List.mem_append.1 hy with hy | hy
        · exact h.bound y hy t ht
        · rw [List.mem_singleton.1 hy, hx] at ht
          cases ht
          omega
      · intro y hy
        obtain ⟨hm, hd, hl⟩ := h.entry y hy
        exact ⟨List.mem_append_left _ hm, hd, hl⟩

theorem earliest_spec (due : ι → Option Nat) (limit : Nat) (table : List ι) :
    Found due limit table (earliest due limit table) := by
  -- The part of the table already scanned grows from the left.
  have run : ∀ (rest done : List ι) (best : Nat × Option ι), Found due limit done best →
      Found due limit (done ++ rest) (rest.foldl (consider due) best) := by
    intro rest
    induction rest with
    | nil =>
      intro done best h
      rwa [List.append_nil]
    | cons x rest ih =>
      intro done best h
      rw [List.append_cons]
      exact ih _ _ (h.consider x)
  exact run table [] (limit, none) ⟨nofun, Nat.le_refl _, nofun, fun _ => rfl⟩

theorem limit_le_of_none (h : (earliest due limit table).2 = none) {x : ι} (hx : x ∈ table)
    {t : Nat} (ht : due x = some t) : limit ≤ t := by
  have spec := earliest_spec due limit table
  rw [← spec.none h]
  exact spec.bound x hx t ht

end Scan

/-! ## Removal by moving the last entry -/

/-- The list without entry `i`, whose place the last entry takes. -/
def swapRemove {α : Type} (l : List α) (i : Fin l.length) : List α :=
  (l.set i (l.getLast (List.ne_nil_of_length_pos i.pos))).dropLast

theorem cons_swapRemove_perm {α : Type} (l : List α) (i : Fin l.length) :
    (l.get i :: swapRemove l i).Perm l := by
  have hne : l ≠ [] := List.ne_nil_of_length_pos i.pos
  obtain ⟨i, hi⟩ := i
  obtain ⟨front, last, rfl⟩ : ∃ front last, l = front ++ [last] :=
    ⟨l.dropLast, l.getLast hne, (List.dropLast_append_getLast hne).symm⟩
  by_cases hlt : i < front.length
  · -- An entry of the front: the last entry replaces it.
    have hremove : swapRemove (front ++ [last]) ⟨i, hi⟩ = front.set i last := by
      simp only [swapRemove, List.getLast_append_singleton, List.set_append_left _ _ hlt,
        List.dropLast_concat]
    rw [hremove, List.get_eq_getElem, List.getElem_append_left hlt]
    calc List.Perm (front[i] :: front.set i last) (front[i] :: last :: front.eraseIdx i) :=
          (List.set_perm_cons_eraseIdx hlt last).cons _
      List.Perm _ (last :: front[i] :: front.eraseIdx i) := List.Perm.swap _ _ _
      List.Perm _ (last :: front) := (List.getElem_cons_eraseIdx_perm hlt).cons _
      List.Perm _ (front ++ [last]) := (List.perm_append_singleton last front).symm
  · -- The last entry itself.
    have heq : i = front.length := by
      rw [List.length_append, List.length_singleton] at hi
      omega
    subst heq
    have hremove : swapRemove (front ++ [last]) ⟨front.length, hi⟩ = front := by
      simp [swapRemove]
    rw [hremove, List.get_eq_getElem, List.getElem_concat_length rfl]
    exact (List.perm_append_singleton last front).symm
