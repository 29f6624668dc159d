import Mathlib

/-!
# Runs under a fair schedule

A system takes one action of a schedule after another. When every state that is not final waits for
one kind of action, keeps waiting for it under every other action, and lowers a rank as soon as it is
served, then a schedule that serves every kind again and again leads to a final state
(`Fair.reaches`).
-/

namespace Fair

variable {S A K : Type}

/-- The state after `n` actions of a schedule. -/
def run (step : S → A → S) (schedule : Nat → A) (s : S) : Nat → S
  | 0 => s
  | n + 1 => step (run step schedule s n) (schedule n)

/-- The schedule serves every kind again and again. -/
def Serves (kind : A → K → Prop) (schedule : Nat → A) : Prop :=
  ∀ k i, ∃ j, i ≤ j ∧ kind (schedule j) k

variable {kind : A → K → Prop} {schedule : Nat → A} {state : Nat → S} {Wait : K → Nat → S → Prop}
  {Final : S → Prop}

/-- Progress: the final state, or a wait of smaller rank. -/
def Progress (Wait : K → Nat → S → Prop) (Final : S → Prop) (n : Nat) (s : S) : Prop :=
  Final s ∨ ∃ k' n', n' < n ∧ Wait k' n' s

/-- A wait goes on until there is progress, which comes when the kind waited for is served. -/
theorem progress_of_wait
    (hstep : ∀ i k n, Wait k n (state i) → Progress Wait Final n (state (i + 1)) ∨
      (Wait k n (state (i + 1)) ∧ ¬ kind (schedule i) k))
    {k : K} {n : Nat} (d : Nat) : ∀ {i : Nat}, Wait k n (state i) → kind (schedule (i + d)) k →
    ∃ j, i ≤ j ∧ Progress Wait Final n (state j) := by
  induction d with
  | zero =>
    intro i hw hk
    rcases hstep i k n hw with hp | ⟨-, hn⟩
    · exact ⟨i + 1, by omega, hp⟩
    · exact absurd hk hn
  | succ d ih =>
    intro i hw hk
    rcases hstep i k n hw with hp | ⟨hw', -⟩
    · exact ⟨i + 1, by omega, hp⟩
    · obtain ⟨j, hj, hp⟩ := ih hw' (by rwa [Nat.add_assoc, Nat.add_comm 1])
      exact ⟨j, by omega, hp⟩

theorem reaches (hserves : Serves kind schedule)
    (hstep : ∀ i k n, Wait k n (state i) → Progress Wait Final n (state (i + 1)) ∨
      (Wait k n (state (i + 1)) ∧ ¬ kind (schedule i) k)) :
    ∀ (n : Nat) {k : K} {i : Nat}, Wait k n (state i) → ∃ j, i ≤ j ∧ Final (state j) := by
  intro n
  induction n using Nat.strongRecOn with
  | ind n ih =>
    intro k i hw
    obtain ⟨j, hij, hk⟩ := hserves k i
    obtain ⟨j', hij', hp⟩ := progress_of_wait hstep (j - i) hw (by rwa [Nat.add_sub_cancel' hij])
    rcases hp with hfinal | ⟨k', n', hlt, hw'⟩
    · exact ⟨j', hij', hfinal⟩
    · obtain ⟨j'', hj'', hfinal⟩ := ih n' hlt hw'
      exact ⟨j'', by omega, hfinal⟩

end Fair
