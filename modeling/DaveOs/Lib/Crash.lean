import Mathlib

/-!
# Computations that may be cut short

A `Crash σ α` is a program over a state `σ` that survives the program: it runs to a value, or it is
cut short, and the state it had reached is what remains. Nothing else of a cut program remains, so
whatever it kept in its own variables is gone.

`Wp x C Q s` is the weakest precondition with two postconditions: `Q` for a run that returns, `C`
for the state a cut run leaves. A program is verified for every place it can be cut at once, because
`C` is carried unchanged through `bind` and through every iteration of a loop.

`loop` is the unbounded loop of such programs. It is given fuel by a measure of the state; as long
as every further iteration lowers the measure the fuel is never what stops it (`loop_eq`).
-/

/-- A program over the surviving state `σ`: a value, or `none` when it was cut short. -/
def Crash (σ : Type) (α : Type) : Type := σ → Option α × σ

namespace Crash

variable {σ α β γ : Type}
variable {x : Crash σ α} {f : α → Crash σ β} {s s' : σ} {fuel : σ → Nat}
  {body : β → Crash σ (β ⊕ α)} {C : σ → Prop} {Q : α → σ → Prop} {b : β}

instance : Monad (Crash σ) where
  pure a := fun s => (some a, s)
  bind x f := fun s =>
    match x s with
    | (some a, s') => f a s'
    | (none, s') => (none, s')

/-- The program that reads the surviving state. -/
def get : Crash σ σ := fun s => (some s, s)

/-- The program that is cut short at once. -/
def cut : Crash σ α := fun s => (none, s)

/-- Iterates `body` at most `n` times, until it answers `.inr`. -/
def loopN (body : β → Crash σ (β ⊕ α)) : Nat → β → Crash σ α
  | 0, _ => cut
  | n + 1, b => do
    match ← body b with
    | .inl b' => loopN body n b'
    | .inr a => pure a

/-- Iterates `body` until it answers `.inr`, with `fuel s` iterations from the state `s`. -/
def loop (fuel : σ → Nat) (body : β → Crash σ (β ⊕ α)) (b : β) : Crash σ α :=
  fun s => loopN body (fuel s) b s

theorem pure_apply (a : α) (s : σ) : (pure a : Crash σ α) s = (some a, s) := rfl

theorem bind_apply (x : Crash σ α) (f : α → Crash σ β) (s : σ) :
    (x >>= f) s = match x s with
      | (some a, s') => f a s'
      | (none, s') => (none, s') := rfl

theorem bind_of_some {a : α} (h : x s = (some a, s')) : (x >>= f) s = f a s' := by
  rw [bind_apply, h]

theorem bind_of_none (h : x s = (none, s')) : (x >>= f) s = (none, s') := by
  rw [bind_apply, h]

/-! ## Weakest preconditions -/

/-- From `s`, the program returns into `Q` or is cut short in `C`. Proofs go by the rules below, so
that nothing tries to run the program. -/
@[irreducible] def Wp (x : Crash σ α) (C : σ → Prop) (Q : α → σ → Prop) (s : σ) : Prop :=
  match x s with
  | (some a, s') => Q a s'
  | (none, s') => C s'

namespace Wp

variable {x : Crash σ α} {C C' : σ → Prop} {Q Q' : α → σ → Prop} {s : σ}
variable {a : α} {P : σ → Prop} {R : α → σ → Prop} {f : α → Crash σ β} {s' : σ}
  {body : β → Crash σ (β ⊕ α)}

theorem pure (h : Q a s) : Wp (Pure.pure a) C Q s := by
  unfold Wp
  exact h

theorem cut (h : C s) : Wp (Crash.cut : Crash σ α) C Q s := by
  unfold Wp
  exact h

theorem get {Q : σ → σ → Prop} (h : Q s s) : Wp (Crash.get : Crash σ σ) C Q s := by
  unfold Wp
  exact h

theorem trivial : Wp x (fun _ => True) (fun _ _ => True) s := by
  unfold Wp
  split <;> exact True.intro

theorem mono (h : Wp x C Q s) (hC : ∀ s, C s → C' s) (hQ : ∀ a s, Q a s → Q' a s) :
    Wp x C' Q' s := by
  unfold Wp at h ⊢
  split at h
  · exact hQ _ _ h
  · exact hC _ h

theorem conseq (h : Wp x C Q s) (hQ : ∀ a s, Q a s → Q' a s) : Wp x C Q' s :=
  h.mono (fun _ hc => hc) hQ

theorem and (h : Wp x C Q s) (h' : Wp x P R s) :
    Wp x (fun s => C s ∧ P s) (fun a s => Q a s ∧ R a s) s := by
  unfold Wp at h h' ⊢
  split at h
  · next heq => rw [heq] at h'; exact ⟨h, h'⟩
  · next heq => rw [heq] at h'; exact ⟨h, h'⟩

theorem adding (h : Wp x C Q s) (h' : Wp x (fun _ => True) R s) :
    Wp x C (fun a s => Q a s ∧ R a s) s :=
  (h.and h').mono (fun _ h => h.1) fun _ _ h => h

theorem ite {c : Prop} [Decidable c] {y : Crash σ α} (ht : c → Wp x C Q s)
    (hf : ¬c → Wp y C Q s) : Wp (if c then x else y) C Q s := by
  by_cases h : c
  · rw [if_pos h]
    exact ht h
  · rw [if_neg h]
    exact hf h

/-- Sequencing: the first program's postcondition is the second's precondition. -/
theorem bind {R : β → σ → Prop} (h : Wp x C Q s) (hf : ∀ a s', Q a s' → Wp (f a) C R s') :
    Wp (x >>= f) C R s := by
  unfold Wp at h
  split at h
  · next a s' heq =>
    have := hf a s' h
    unfold Wp at this ⊢
    rwa [bind_of_some heq]
  · next s' heq =>
    unfold Wp
    rw [bind_of_none heq]
    exact h

/-- Sequencing, with what the second program needs as the first one's postcondition. -/
theorem seq {R : β → σ → Prop} (h : Wp x C (fun a => Wp (f a) C R) s) : Wp (x >>= f) C R s :=
  h.bind fun _ _ h => h

theorem of_some (h : Wp x C Q s) (hx : x s = (some a, s')) : Q a s' := by
  unfold Wp at h
  rwa [hx] at h

theorem of_none (h : Wp x C Q s) (hx : x s = (none, s')) : C s' := by
  unfold Wp at h
  rwa [hx] at h

/-- The final state of a run, returned or cut, when both postconditions give one property. -/
theorem final (h : Wp x P (fun _ s => P s) s) : P (x s).2 := by
  unfold Wp at h
  split at h
  · next heq => rw [heq]; exact h
  · next heq => rw [heq]; exact h

theorem run : Wp x (fun s' => x s = (none, s')) (fun a s' => x s = (some a, s')) s := by
  unfold Wp
  split
  · next heq => rw [heq]
  · next heq => rw [heq]

theorem ran (h : Wp x (fun _ => True) Q s) :
    Wp x (fun _ => True) (fun a s' => x s = (some a, s') ∧ Q a s') s :=
  (run.and h).mono (fun _ _ => True.intro) fun _ _ h => h

theorem returns (h : Wp x (fun _ => False) Q s) : ∃ a s', x s = (some a, s') ∧ Q a s' := by
  rcases hx : x s with ⟨_ | a, s'⟩
  · exact (h.of_none hx).elim
  · exact ⟨a, s', rfl, h.of_some hx⟩

/-- The invariant rule for loops: what one iteration keeps, the loop keeps. -/
theorem loopN (Inv : β → σ → Prop) (hC : ∀ b s, Inv b s → C s)
    (hbody : ∀ b s, Inv b s → Wp (body b) C
      (fun r s' => match r with
        | .inl b' => Inv b' s'
        | .inr a => Q a s') s) (n : Nat) :
    ∀ {b : β} {s : σ}, Inv b s → Wp (Crash.loopN body n b) C Q s := by
  induction n with
  | zero => intro b s h; exact Wp.cut (hC b s h)
  | succ n ih =>
    intro b s h
    refine (hbody b s h).bind fun r s' hr => ?_
    cases r with
    | inl b' => exact ih hr
    | inr a => exact Wp.pure hr

theorem loop {fuel : σ → Nat} (Inv : β → σ → Prop) (hC : ∀ b s, Inv b s → C s)
    (hbody : ∀ b s, Inv b s → Wp (body b) C
      (fun r s' => match r with
        | .inl b' => Inv b' s'
        | .inr a => Q a s') s) {b : β} (h : Inv b s) : Wp (Crash.loop fuel body b) C Q s := by
  have := Wp.loopN Inv hC hbody (fuel s) h
  unfold Wp at this ⊢
  exact this

end Wp

/-- The invariant rule for a loop whose every further iteration lowers its fuel: it ends. -/
theorem Wp.loop_ends (Inv : β → σ → Prop) (hbody : ∀ b s, Inv b s → Wp (body b) C
      (fun r s' => match r with
        | .inl b' => Inv b' s' ∧ fuel s' < fuel s
        | .inr a => Q a s') s) (h : Inv b s) :
    Wp (Crash.loop (fun s => fuel s + 1) body b) C Q s := by
  have hrun : ∀ (n : Nat) (b : β) (s : σ), Inv b s → fuel s < n →
      Wp (Crash.loopN body n b) C Q s := by
    intro n
    induction n with
    | zero => exact fun b s _ hn => absurd hn (Nat.not_lt_zero _)
    | succ n ih =>
      intro b s hb hn
      refine (hbody b s hb).bind fun r s' hr => ?_
      cases r with
      | inl b' => exact ih b' s' hr.1 (by omega)
      | inr a => exact Wp.pure hr
  have := hrun (fuel s + 1) b s h (Nat.lt_succ_self _)
  unfold Wp at this ⊢
  exact this

/-- The invariant rule for a loop with a bound on its further iterations: with that much fuel it ends. -/
theorem Wp.loop_counted (Inv : β → σ → Prop) (left : β → Nat)
    (hbody : ∀ b s, Inv b s → Wp (body b) C
      (fun r s' => match r with
        | .inl b' => Inv b' s' ∧ left b' < left b
        | .inr a => Q a s') s) (hC : fuel s ≤ left b → ∀ b' s', Inv b' s' → C s') (h : Inv b s) :
    Wp (Crash.loop fuel body b) C Q s := by
  have hrun : ∀ (n : Nat) (b' : β) (s' : σ), Inv b' s' → left b' < n →
      Wp (Crash.loopN body n b') C Q s' := by
    intro n
    induction n with
    | zero => exact fun b' s' _ hn => absurd hn (Nat.not_lt_zero _)
    | succ n ih =>
      intro b' s' hb hn
      refine (hbody b' s' hb).bind fun r s₂ hr => ?_
      cases r with
      | inl b₂ => exact ih b₂ s₂ hr.1 (by omega)
      | inr a => exact Wp.pure hr
  rcases Nat.lt_or_ge (left b) (fuel s) with hlt | hge
  · have := hrun (fuel s) b s h hlt
    unfold Wp at this ⊢
    exact this
  · refine Wp.loop Inv (hC hge) (fun b' s' hb => (hbody b' s' hb).conseq fun r s₂ hr => ?_) h
    cases r with
    | inl b₂ => exact hr.1
    | inr a => exact hr

/-! ## Budgets -/

/-- What a run uses up, and how the state may develop meanwhile. -/
structure Meter (σ : Type) where
  life : σ → Int
  later : σ → σ → Prop
  refl : ∀ s, later s s
  trans : ∀ {s t u}, later s t → later t u → later s u

section budgets

variable {M : Meter σ} {n k : Nat} {x : Crash σ α} {s : σ}

/-- The program needs at most `n` of what the meter counts: it is cut short only with less. -/
def Costs (M : Meter σ) (n : Nat) (x : Crash σ α) (s : σ) : Prop :=
  Wp x (fun _ => M.life s < n) (fun _ s' => M.life s ≤ M.life s' + n ∧ M.later s s') s

theorem Costs.pure {a : α} : Costs M n (Pure.pure a) s :=
  Wp.pure ⟨by omega, M.refl s⟩

theorem Costs.mono (h : Costs M n x s) (hn : n ≤ k) : Costs M k x s :=
  Wp.mono h (fun _ h => by omega) fun _ _ h => ⟨by omega, h.2⟩

theorem Costs.bind {f : α → Crash σ β} (h : Costs M n x s)
    (hf : ∀ a s', Costs M k (f a) s') : Costs M (n + k) (x >>= f) s := by
  refine Wp.bind (Wp.mono h (fun _ h => by omega) fun _ _ h => h) fun a s' hs => ?_
  exact Wp.mono (hf a s') (fun _ h => by omega) fun _ _ h => ⟨by omega, M.trans hs.2 h.2⟩

theorem Costs.ite {c : Prop} [Decidable c] {y : Crash σ α} (ht : c → Costs M n x s)
    (hf : ¬c → Costs M n y s) : Costs M n (if c then x else y) s :=
  Wp.ite ht hf

/-- A loop that ends after `left b` further iterations, each of which needs at most `k`. -/
theorem Costs.loop {fuel : σ → Nat} {body : β → Crash σ (β ⊕ α)} (Inv : β → Prop) (left : β → Nat)
    (hbody : ∀ b s, Inv b → Wp (body b) (fun _ => M.life s < k) (fun r s' =>
      M.life s ≤ M.life s' + k ∧ M.later s s' ∧ ∀ b', r = .inl b' →
        Inv b' ∧ left b' < left b ∧ fuel s' < fuel s) s) {b : β} (hb : Inv b) :
    Costs M (k * (left b + 1)) (Crash.loop (fun s => fuel s + 1) body b) s := by
  refine Wp.loop_ends (fun b' s' => Inv b' ∧ left b' ≤ left b ∧ M.later s s' ∧
    M.life s + k * left b' ≤ M.life s' + k * left b) ?_ ⟨hb, Nat.le_refl _, M.refl s, by omega⟩
  rintro b' s' ⟨hinv, hle, hlater, hlife⟩
  have hk : (0 : Int) ≤ k * left b' := Int.mul_nonneg (by omega) (by omega)
  refine Wp.mono (hbody b' s' hinv) (fun _ h => ?_) ?_
  · rw [Nat.mul_add_one]
    push_cast
    omega
  · rintro (b₂ | a) s₂ ⟨hspent, hlater₂, hnext⟩
    · obtain ⟨hinv₂, hlt, hfuel⟩ := hnext b₂ rfl
      refine ⟨⟨hinv₂, by omega, M.trans hlater hlater₂, ?_⟩, hfuel⟩
      have : k * (left b₂ + 1) ≤ k * left b' := Nat.mul_le_mul_left k hlt
      rw [Nat.mul_add_one] at this
      have : (k : Int) * left b₂ + k ≤ k * left b' := by exact_mod_cast this
      omega
    · refine ⟨?_, M.trans hlater hlater₂⟩
      rw [Nat.mul_add_one]
      push_cast
      omega

theorem Costs.returns (h : Costs M n x s) (hn : n ≤ M.life s) : ∃ a s', x s = (some a, s') := by
  rcases hx : x s with ⟨_ | a, s'⟩
  · have := Wp.of_none h hx
    omega
  · exact ⟨a, s', rfl⟩

end budgets

/-! ## The loop's fuel -/

/-- A loop whose further iterations lower `fuel` is not stopped by it: more fuel changes nothing. -/
theorem loopN_stable (hlow : ∀ b s b' s', body b s = (some (.inl b'), s') → fuel s' < fuel s) :
    ∀ (n m : Nat) (b : β) (s : σ), fuel s < n → fuel s < m →
      loopN body n b s = loopN body m b s := by
  intro n
  induction n with
  | zero => intro m b s hn; omega
  | succ n ih =>
    intro m b s hn hm
    cases m with
    | zero => omega
    | succ m =>
      rcases hb : body b s with ⟨_ | r, s'⟩
      · simp only [loopN, bind_of_none hb]
      · cases r with
        | inl b' =>
          have hlt := hlow b s b' s' hb
          simp only [loopN, bind_of_some hb]
          exact ih m b' s' (by omega) (by omega)
        | inr a => simp only [loopN, bind_of_some hb]

/-- **The loop's equation**: one iteration, then the loop again. -/
theorem loop_eq (hlow : ∀ b s b' s', body b s = (some (.inl b'), s') → fuel s' < fuel s) (b : β)
    (s : σ) : loop (fun s => fuel s + 1) body b s =
      (body b >>= fun r => match r with
        | .inl b' => loop (fun s => fuel s + 1) body b'
        | .inr a => pure a) s := by
  rcases hb : body b s with ⟨_ | r, s'⟩
  · simp only [loop, loopN, bind_of_none hb]
  · cases r with
    | inl b' =>
      have hlt := hlow b s b' s' hb
      simp only [loop, loopN, bind_of_some hb]
      exact loopN_stable hlow _ _ b' s' hlt (Nat.lt_succ_self _)
    | inr a => simp only [loop, loopN, bind_of_some hb]

end Crash
