import Mathlib

/-!
# Delivery with losses

A queue accepts items and delivers them in order, but at any time what it holds may be lost. `Delivers`
relates the history of such a queue to the items that come out of it: an item is missing only if a loss came
after it had been accepted.
-/

namespace Delivery

inductive Mark (α : Type) where
  | accepted (a : α)
  | loss
  deriving DecidableEq

/-- These items come out of a queue with this history, the oldest first. -/
inductive Delivers {α : Type} : List (Mark α) → List α → Prop
  | nil : Delivers [] []
  | kept {marks : List (Mark α)} {out : List α} {a : α} (rest : Delivers marks out) :
      Delivers (.accepted a :: marks) (a :: out)
  | lost {marks : List (Mark α)} {out : List α} {a : α} (later : .loss ∈ marks) (rest : Delivers marks out) :
      Delivers (.accepted a :: marks) out
  | loss {marks : List (Mark α)} {out : List α} (rest : Delivers marks out) : Delivers (.loss :: marks) out

namespace Delivers

variable {α : Type} {marks : List (Mark α)} {out lost : List α}

theorem accept (h : Delivers marks out) (a : α) : Delivers (marks ++ [.accepted a]) (out ++ [a]) := by
  induction h with
  | nil => exact .kept .nil
  | kept _ ih => exact .kept ih
  | lost later _ ih => exact .lost (List.mem_append_left _ later) ih
  | loss _ ih => exact .loss ih

theorem lose (h : Delivers marks (out ++ lost)) : Delivers (marks ++ [.loss]) out := by
  generalize hall : out ++ lost = all at h
  induction h generalizing out lost with
  | nil =>
    obtain ⟨rfl, -⟩ := List.append_eq_nil_iff.mp hall
    exact .loss .nil
  | @kept marks rest a _ ih =>
    cases out with
    | nil =>
      have hall' : [] ++ rest = rest := rfl
      exact .lost (List.mem_append_right _ (List.mem_singleton_self _)) (ih hall')
    | cons b out =>
      obtain ⟨rfl, hrest⟩ := List.cons_eq_cons.mp hall
      exact .kept (ih hrest)
  | lost later _ ih => exact .lost (List.mem_append_left _ later) (ih hall)
  | loss _ ih => exact .loss (ih hall)

end Delivers

end Delivery
