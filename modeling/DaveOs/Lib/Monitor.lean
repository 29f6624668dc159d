import Mathlib

/-!
# Programs that log their calls, and monitors over the log

A `Logged` program runs against a hidden world and appends one event to a log for every call it makes
to that world, so its log is what an observer at the interface sees. A `Monitor` reads such a log from
left to right and says of each event whether it is allowed. `Obeys` is the rule of reasoning: from a
monitor state, the program makes only allowed calls, and its result and the monitor state it leaves
satisfy a postcondition. The rules `Obeys.pure`, `Obeys.bind`, `Obeys.call` and `Obeys.emit` follow
the program's text; `Obeys.run` turns a proof into a statement about the whole log.
-/

/-- A program over a hidden world `σ` with a log of events `ε`. -/
abbrev Logged (σ ε : Type) := StateM (σ × List ε)

namespace Logged

variable {σ ε α β : Type}

/-- A call of the world, logged with its result. -/
def call (f : σ → β × σ) (log : β → ε) : Logged σ ε β := fun w =>
  ((f w.1).1, ((f w.1).2, w.2 ++ [log (f w.1).1]))

def emit (e : ε) : Logged σ ε Unit := fun w => ((), (w.1, w.2 ++ [e]))

theorem bind_apply (m : Logged σ ε α) (f : α → Logged σ ε β) (w : σ × List ε) :
    (m >>= f) w = f (m w).1 (m w).2 := rfl

theorem pure_apply (a : α) (w : σ × List ε) : (pure a : Logged σ ε α) w = (a, w) := rfl

/-- Runs a step for each element of a list, passing a value along. -/
def iterate (step : β → α → Logged σ ε β) : List α → β → Logged σ ε β
  | [], b => pure b
  | a :: rest, b => step b a >>= iterate step rest

/-- Two programs that make the same calls in every world, with results that `R` relates. -/
def Same (R : α → β → Prop) (m : Logged σ ε α) (m' : Logged σ ε β) : Prop :=
  ∀ w, (m' w).2 = (m w).2 ∧ R (m w).1 (m' w).1

namespace Same

variable {γ δ : Type} {R : α → β → Prop} {S : γ → δ → Prop}
variable {m : Logged σ ε α} {m' : Logged σ ε β}

theorem pure {a : α} {b : β} (h : R a b) : Same R (Pure.pure a : Logged σ ε α) (Pure.pure b) :=
  fun _ => ⟨rfl, h⟩

theorem bind {f : α → Logged σ ε γ} {g : β → Logged σ ε δ} (hm : Same R m m')
    (hf : ∀ a b, R a b → Same S (f a) (g b)) : Same S (m >>= f) (m' >>= g) := by
  intro w
  obtain ⟨hw, hr⟩ := hm w
  rw [bind_apply, bind_apply, hw]
  exact hf _ _ hr _

theorem refl : Same Eq m m := fun _ => ⟨rfl, rfl⟩

theorem call_bind {f : σ → α × σ} {log : α → ε} {k : α → Logged σ ε γ} {k' : α → Logged σ ε δ}
    (h : ∀ a, Same S (k a) (k' a)) : Same S (call f log >>= k) (call f log >>= k') :=
  fun _ => h _ _

theorem emit_bind {e e' : ε} {k : Unit → Logged σ ε γ} {k' : Unit → Logged σ ε δ} (he : e' = e)
    (h : Same S (k ()) (k' ())) : Same S (emit e >>= k) (emit e' >>= k') :=
  he ▸ fun _ => h _

theorem ite {c c' : Prop} [Decidable c] [Decidable c'] {n : Logged σ ε α} {n' : Logged σ ε β}
    (hc : c' ↔ c) (h : c → Same R m m') (h' : ¬c → Same R n n') :
    Same R (if c then m else n) (if c' then m' else n') := by
  by_cases hcase : c
  · rw [if_pos hcase, if_pos (hc.mpr hcase)]
    exact h hcase
  · rw [if_neg hcase, if_neg (hc.not.mpr hcase)]
    exact h' hcase

end Same

end Logged

/-- A monitor: its state before any event, how an event changes it, and which events it allows. -/
structure Monitor (ε S : Type) where
  start : S
  next : S → ε → S
  Allowed : S → ε → Prop

namespace Monitor

variable {σ ε S α β : Type} (M : Monitor ε S)

def after (log : List ε) : S := log.foldl M.next M.start

/-- Every event of the log was allowed when it came. -/
def Accepts (log : List ε) : Prop :=
  ∀ before e rest, log = before ++ e :: rest → M.Allowed (M.after before) e

@[simp] theorem after_nil : M.after [] = M.start := rfl

@[simp] theorem after_append_singleton (log : List ε) (e : ε) :
    M.after (log ++ [e]) = M.next (M.after log) e := by
  simp [after]

theorem accepts_nil : M.Accepts [] := fun before e rest h => by simp at h

theorem Accepts.append {log : List ε} {e : ε} (h : M.Accepts log)
    (he : M.Allowed (M.after log) e) : M.Accepts (log ++ [e]) := by
  intro before e' rest hsplit
  rcases List.eq_nil_or_concat rest with rfl | ⟨rest, last, rfl⟩
  · obtain ⟨rfl, hcons⟩ := List.append_inj' hsplit rfl
    obtain rfl := (List.cons.inj hcons).1
    exact he
  · refine h before e' rest ?_
    have : log ++ [e] = (before ++ e' :: rest) ++ [last] := by simpa using hsplit
    exact (List.append_inj' this rfl).1

/-- From monitor state `s`, `m` makes only allowed calls, and its result and the monitor state it
leaves satisfy `Q`. -/
def Obeys (m : Logged σ ε α) (s : S) (Q : α → S → Prop) : Prop :=
  ∀ w : σ × List ε, M.Accepts w.2 → M.after w.2 = s →
    M.Accepts (m w).2.2 ∧ Q (m w).1 (M.after (m w).2.2)

namespace Obeys

variable {M} {s : S}
variable {Q : α → S → Prop} {m : Logged σ ε α} {f : σ → β × σ} {R : α → S → Prop} {log : β → ε}
  {e : ε}

theorem pure {a : α} (h : Q a s) : M.Obeys (Pure.pure a : Logged σ ε α) s Q := by
  rintro w hw rfl
  exact ⟨hw, h⟩

theorem bind {f : α → Logged σ ε β} {Q : β → S → Prop} (hm : M.Obeys m s R)
    (hf : ∀ a s', R a s' → M.Obeys (f a) s' Q) : M.Obeys (m >>= f) s Q := by
  intro w hw hs
  obtain ⟨hacc, hr⟩ := hm w hw hs
  exact hf _ _ hr _ hacc rfl

theorem call {Q : β → S → Prop} (h : ∀ b, M.Allowed s (log b) ∧ Q b (M.next s (log b))) :
    M.Obeys (Logged.call f log) s Q := by
  rintro w hw rfl
  refine ⟨hw.append M (h _).1, ?_⟩
  show Q _ (M.after (w.2 ++ [_]))
  rw [after_append_singleton]
  exact (h _).2

theorem emit {Q : Unit → S → Prop} (he : M.Allowed s e) (hQ : Q () (M.next s e)) :
    M.Obeys (Logged.emit e : Logged σ ε Unit) s Q := by
  rintro w hw rfl
  refine ⟨hw.append M he, ?_⟩
  show Q _ (M.after (w.2 ++ [e]))
  rw [after_append_singleton]
  exact hQ

theorem call_bind {k : β → Logged σ ε α} (h : ∀ b, M.Allowed s (log b))
    (hk : ∀ b, M.Obeys (k b) (M.next s (log b)) Q) : M.Obeys (Logged.call f log >>= k) s Q :=
  bind (R := fun b s' => s' = M.next s (log b)) (call fun b => ⟨h b, rfl⟩) fun b _ hs => hs ▸ hk b

theorem emit_bind {k : Unit → Logged σ ε α} (he : M.Allowed s e)
    (hk : M.Obeys (k ()) (M.next s e) Q) : M.Obeys (Logged.emit e >>= k) s Q :=
  bind (R := fun _ s' => s' = M.next s e) (emit he rfl) fun _ _ hs => hs ▸ hk

theorem mono (h : M.Obeys m s Q) (hQ : ∀ a s', Q a s' → R a s') : M.Obeys m s R :=
  fun w hw hs => ⟨(h w hw hs).1, hQ _ _ (h w hw hs).2⟩

theorem ite {c : Prop} [Decidable c] {m' : Logged σ ε α} (h : c → M.Obeys m s Q)
    (h' : ¬ c → M.Obeys m' s Q) : M.Obeys (if c then m else m') s Q := by
  split
  · next hc => exact h hc
  · next hc => exact h' hc

theorem iterate {step : β → α → Logged σ ε β} {Inv : β → S → Prop}
    (hstep : ∀ b a s, Inv b s → M.Obeys (step b a) s Inv) (l : List α) :
    ∀ (b : β) (s : S), Inv b s → M.Obeys (Logged.iterate step l b) s Inv := by
  induction l with
  | nil => exact fun b s h => .pure h
  | cons a l ih => exact fun b s h => (hstep b a s h).bind ih

theorem run (h : M.Obeys m M.start Q) (world : σ) :
    M.Accepts (m (world, [])).2.2 ∧ Q (m (world, [])).1 (M.after (m (world, [])).2.2) :=
  h _ M.accepts_nil rfl

end Obeys

end Monitor
