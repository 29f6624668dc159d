import DaveOs.Core.Deadline
import DaveOs.Lib.Crash

/-!
# 64-bit time and the compare timer on TIM2 (`platform/detail/stm32_tim2_impl.hpp`)

TIM2 is a free-running 32-bit counter. It sets its update flag when it wraps and its compare flag when it shows
the compare value, and any number of ticks may pass before each access to a register. The driver extends the
counter to 64 bits by counting update flags, and reaches far deadlines through intermediate compares.

`Tim2` has the registers, the driver's members, and records that are not in the source: when each `now` was
called and what it answered, each `arm`, and each call of a callback. Functions run with interrupts masked, so
that each is one step to everything else; a callback runs after `interrupt`, and what it calls is called next.
-/

namespace DaveOs.Platform

open Crash

/-- The period of the counter in ticks. -/
def kPeriod : Nat := 4294967296

/-- The first time after `t` at which the counter shows `c`. -/
def nextShown (t c : Nat) : Nat := t + 1 + (c + kPeriod - (t + 1) % kPeriod) % kPeriod

/-- What happens before an access: ticks pass. A compare value that equals the counter when it is written may
be flagged at once. -/
structure Passing where
  ticks : Nat := 0
  atOnce : Bool := false

/-- A call of `now`: the time when it was called and when it returned, and its answer. -/
structure Reading where
  start : Nat
  stop : Nat
  value : Nat
  deriving DecidableEq, Repr

/-- A call of `arm`: what `now` answered in it, and the delay. -/
structure Arming where
  number : Nat
  reading : Nat
  delay : Nat
  deriving DecidableEq, Repr

structure Firing where
  number : Nat
  time : Nat
  deriving DecidableEq, Repr

/-- TIM2 with its interrupt line, and its driver after `init`. -/
structure Tim2 where
  accesses : Nat := 0
  /-- The ticks since the counter was enabled. -/
  time : Nat := 0
  uif : Bool := false
  cc1if : Bool := false
  cc1ie : Bool := false
  ccr1 : Nat := 0
  /-- The interrupt was made pending by software. -/
  irq : Bool := false
  epoch : Nat := 0
  due : Nat := kForever
  /-- The number of the `arm` whose callback waits. -/
  callback : Option Nat := none
  readings : List Reading := []
  armings : List Arming := []
  firings : List Firing := []
  deriving DecidableEq, Repr

namespace Tim2

variable {t c k : Nat} {s₁ s₂ s₃ s' : Tim2} {value : Nat}

/-- An interrupt is pending; the update interrupt is always enabled. -/
def pending (s : Tim2) : Bool := s.irq || s.uif || s.cc1if && s.cc1ie

def advance (s : Tim2) (n : Nat) : Tim2 :=
  { s with
    time := s.time + n
    uif := s.uif || decide (nextShown s.time 0 ≤ s.time + n)
    cc1if := s.cc1if || decide (nextShown s.time s.ccr1 ≤ s.time + n) }

section program

variable (env : Nat → Passing)

def access {α : Type} (f : Passing → Tim2 → α × Tim2) : Crash Tim2 α := fun s =>
  let p := env s.accesses
  let r := f p { s.advance p.ticks with accesses := s.accesses + 1 }
  (some r.1, r.2)

/-- A change of the driver's members, or of the records. -/
def update (f : Tim2 → Tim2) : Crash Tim2 Unit := fun s => (some (), f s)

def cnt : Crash Tim2 Nat := access env fun _ s => (s.time % kPeriod, s)

/-- Reads `UIF` of `SR`. -/
def readUif : Crash Tim2 Bool := access env fun _ s => (s.uif, s)

def clearUif : Crash Tim2 Unit := access env fun _ s => ((), { s with uif := false })

def clearCc1if : Crash Tim2 Unit := access env fun _ s => ((), { s with cc1if := false })

/-- Writes `DIER`: the compare interrupt is enabled or not. -/
def writeCc1ie (enabled : Bool) : Crash Tim2 Unit := access env fun _ s => ((), { s with cc1ie := enabled })

def writeCcr1 (value : Nat) : Crash Tim2 Unit := access env fun p s =>
  ((), { s with ccr1 := value, cc1if := s.cc1if || p.atOnce && value == s.time % kPeriod })

/-- `NVIC_SetPendingIRQ`. -/
def setPendingIrq : Crash Tim2 Unit := access env fun _ s => ((), { s with irq := true })

def add64 (a b : Nat) : Nat := (a + b) % 2 ^ 64

/-- The body of `now`. -/
def sample : Crash Tim2 Nat := do
  let low ← cnt env
  if ← readUif env then
    clearUif env
    update fun s => { s with epoch := add64 s.epoch kPeriod }
    let low ← cnt env
    let s ← Crash.get
    pure (add64 s.epoch low)
  else
    let s ← Crash.get
    pure (add64 s.epoch low)

def now : Crash Tim2 Nat := do
  let s ← Crash.get
  let value ← sample env
  update fun s' => { s' with readings := ⟨s.time, s'.time, value⟩ :: s'.readings }
  pure value

def programCompare : Crash Tim2 Unit := do
  writeCc1ie env false
  clearCc1if env
  let current ← now env
  let s ← Crash.get
  let delay := if s.due > current then s.due - current else 0
  let target := add64 current (min delay 0x7fffffff)
  writeCcr1 env (target % kPeriod)
  writeCc1ie env true
  -- The compare may have passed while programming it, including delay zero.
  if (← now env) ≥ target then setPendingIrq env else pure ()

def arm (delay : UInt64) : Crash Tim2 Unit := do
  update fun s => { s with callback := some s.armings.length }
  let current ← now env
  update fun s => { s with
    due := after current delay.toNat
    armings := ⟨s.armings.length, current, delay.toNat⟩ :: s.armings }
  programCompare env

def disarm : Crash Tim2 Unit := do
  writeCc1ie env false
  clearCc1if env
  update fun s => { s with callback := none, due := kForever }

/-- The interrupt handler. The pending state of the interrupt is cleared by its entry. -/
def interrupt : Crash Tim2 Unit := do
  update fun s => { s with irq := false }
  let current ← now env
  clearCc1if env
  let s ← Crash.get
  match s.callback with
  | some number =>
    if current ≥ s.due then
      disarm env
      update fun s => { s with firings := ⟨number, s.time⟩ :: s.firings }
    else programCompare env
  | none => pure ()

inductive Call
  | now
  | arm (delay : UInt64)
  | disarm
  | interrupt
  deriving DecidableEq, Repr

def call : Call → Crash Tim2 Unit
  | .now => do
    let _ ← now env
    pure ()
  | .arm delay => arm env delay
  | .disarm => disarm env
  | .interrupt => interrupt env

def run : List Call → Crash Tim2 Unit
  | [] => pure ()
  | c :: rest => do
    call env c
    run rest

end program

/-! ## The counter -/

theorem lt_nextShown (t c : Nat) : t < nextShown t c := by
  unfold nextShown
  omega

theorem nextShown_mod (t c : Nat) : nextShown t c % kPeriod = c % kPeriod := by
  unfold nextShown kPeriod
  omega

theorem nextShown_le (h : t < k) (hk : k % kPeriod = c % kPeriod) : nextShown t c ≤ k := by
  unfold nextShown
  unfold kPeriod at *
  omega

theorem nextShown_zero_le : nextShown t 0 ≤ k ↔ t / kPeriod < k / kPeriod := by
  unfold nextShown kPeriod
  omega

theorem nextShown_trans {a b d : Nat} (hab : a ≤ b) (hbd : b ≤ d) :
    (nextShown a c ≤ b ∨ nextShown b c ≤ d) ↔ nextShown a c ≤ d := by
  constructor
  · rintro (h | h)
    · exact Nat.le_trans h hbd
    · exact Nat.le_trans (nextShown_le (Nat.lt_of_le_of_lt hab (lt_nextShown b c)) (nextShown_mod b c)) h
  · intro h
    rcases Nat.lt_or_ge b (nextShown a c) with hlt | hge
    · exact .inr (Nat.le_trans (nextShown_le hlt (nextShown_mod a c)) h)
    · exact .inl hge

/-- Ticks have passed, and nothing else has happened. -/
structure Passed (s s' : Tim2) : Prop where
  time : s.time ≤ s'.time
  uif : s'.uif = (s.uif || decide (s.time / kPeriod < s'.time / kPeriod))
  cc1if : s'.cc1if = (s.cc1if || decide (nextShown s.time s.ccr1 ≤ s'.time))
  rest : s' = { s with accesses := s'.accesses, time := s'.time, uif := s'.uif, cc1if := s'.cc1if }

theorem passed_advance (s : Tim2) (n k : Nat) : Passed s { s.advance n with accesses := k } where
  time := Nat.le_add_right _ _
  uif := by simp only [advance, nextShown_zero_le]
  cc1if := rfl
  rest := rfl

section rules

variable {env : Nat → Passing} {s : Tim2} {C : Tim2 → Prop}

theorem wp_access {α : Type} {f : Passing → Tim2 → α × Tim2} {Q : α → Tim2 → Prop}
    (h : ∀ p s', Passed s s' → Q (f p s').1 (f p s').2) : Wp (access env f) C Q s := by
  unfold Wp
  exact h _ _ (passed_advance s _ _)

theorem wp_update {f : Tim2 → Tim2} {Q : Unit → Tim2 → Prop} (h : Q () (f s)) : Wp (update f) C Q s := by
  unfold Wp
  exact h

end rules

/-! ## Reading the time -/

/-- When `now` was last called; the counter starts at zero. -/
def lastStart : List Reading → Nat
  | [] => 0
  | r :: _ => r.start

/-- `now` is called often enough: fewer ticks than a period pass from the start of each call to the end of the
next, and fewer than `2 ^ 64` in all. -/
inductive Frequent : List Reading → Prop
  | nil : Frequent []
  | cons {r : Reading} {past : List Reading} (close : r.stop < lastStart past + kPeriod) (fits : r.stop < 2 ^ 64)
      (rest : Frequent past) : Frequent (r :: past)

/-- The epoch counts the periods up to some instant since `now` was last called, and the update flag is that of
the time since. -/
def Counted (s : Tim2) : Prop :=
  ∃ t, lastStart s.readings ≤ t ∧ t ≤ s.time ∧ s.epoch = kPeriod * (t / kPeriod) ∧
    s.uif = decide (t / kPeriod < s.time / kPeriod)

/-- What the body of `now` does: the time passes, and when it is called often enough its answer is a time of the
call, up to an instant of which the epoch counts. -/
structure Sampled (s : Tim2) (value : Nat) (s' : Tim2) : Prop where
  time : s.time ≤ s'.time
  cc1if : s'.cc1if = (s.cc1if || decide (nextShown s.time s.ccr1 ≤ s'.time))
  rest : s' = { s with
    accesses := s'.accesses, time := s'.time, uif := s'.uif, cc1if := s'.cc1if, epoch := s'.epoch }
  exact : s'.time < lastStart s.readings + kPeriod → s'.time < 2 ^ 64 → Counted s →
    (s.time ≤ value ∧ value ≤ s'.time) ∧ ∃ t, s.time ≤ t ∧ t ≤ s'.time ∧ s'.epoch = kPeriod * (t / kPeriod) ∧
      s'.uif = decide (t / kPeriod < s'.time / kPeriod)

/-- What `now` does. -/
structure Reads (s : Tim2) (value : Nat) (s' : Tim2) : Prop where
  time : s.time ≤ s'.time
  cc1if : s'.cc1if = (s.cc1if || decide (nextShown s.time s.ccr1 ≤ s'.time))
  rest : s' = { s with
    accesses := s'.accesses, time := s'.time, uif := s'.uif, cc1if := s'.cc1if, epoch := s'.epoch
    readings := ⟨s.time, s'.time, value⟩ :: s.readings }
  exact : Frequent s'.readings → Counted s → Counted s' ∧ s.time ≤ value ∧ value ≤ s'.time

theorem Passed.trans (h : Passed s s₁) (h' : Passed s₁ s₂) : Passed s s₂ where
  time := Nat.le_trans h.time h'.time
  uif := by
    rw [h'.uif, h.uif, Bool.or_assoc, ← Bool.decide_or]
    congr 2
    have := h.time
    have := h'.time
    simp only [kPeriod, eq_iff_iff]
    omega
  cc1if := by
    have hccr : s₁.ccr1 = s.ccr1 := by rw [h.rest]
    rw [h'.cc1if, h.cc1if, hccr, Bool.or_assoc, ← Bool.decide_or]
    congr 2
    rw [nextShown_trans h.time h'.time]
  rest := by
    rw [h'.rest, h.rest]

variable {env : Nat → Passing} {s : Tim2}

theorem sampled_steady (h₁ : Passed s s₁) (h₂ : Passed s₁ s₂) (hflag : s₂.uif = false) :
    Sampled s (add64 s₂.epoch (s₁.time % kPeriod)) s₂ where
  time := (h₁.trans h₂).time
  cc1if := (h₁.trans h₂).cc1if
  rest := by
    have hrest := (h₁.trans h₂).rest
    have hepoch : s₂.epoch = s.epoch := by rw [hrest]
    rw [hepoch]
    exact hrest
  exact _ h64 hcounted := by
    obtain ⟨t, hlast, ht, hepoch, huif⟩ := hcounted
    have hpassed := h₁.trans h₂
    have hepoch₂ : s₂.epoch = s.epoch := by rw [hpassed.rest]
    have htime₁ := h₁.time
    have htime₂ := h₂.time
    have hsteady := hpassed.uif
    rw [hflag, huif, ← Bool.decide_or] at hsteady
    have hsame : t / kPeriod = s₂.time / kPeriod ∧ s.time / kPeriod = s₂.time / kPeriod := by
      have hnot := of_decide_eq_false hsteady.symm
      unfold kPeriod at *
      omega
    have hvalue : add64 s₂.epoch (s₁.time % kPeriod) = s₁.time := by
      rw [hepoch₂, hepoch]
      unfold add64 kPeriod at *
      omega
    rw [hvalue]
    refine ⟨⟨htime₁, htime₂⟩, s₂.time, hpassed.time, Nat.le_refl _, by rw [hepoch₂, hepoch, hsame.1], ?_⟩
    rw [hflag, decide_eq_false (Nat.lt_irrefl _)]

/-- The counter wrapped: the flag is cleared, the period counted and the counter sampled again. -/
theorem sampled_wrapped {s₄ : Tim2} (h₁ : Passed s s₁) (h₂ : Passed s₁ s₂) (hflag : s₂.uif = true)
    (h₃ : Passed s₂ s₃) (h₄ : Passed { s₃ with uif := false, epoch := add64 s₃.epoch kPeriod } s₄) :
    Sampled s (add64 s₄.epoch (s₄.time % kPeriod)) s₄ := by
  have hpassed := (h₁.trans h₂).trans h₃
  have hrest := hpassed.rest
  have hepoch₄ : s₄.epoch = add64 s.epoch kPeriod := by
    rw [h₄.rest]
    simp only
    rw [hrest]
  have htime₄ : s₃.time ≤ s₄.time := h₄.time
  refine ⟨Nat.le_trans hpassed.time htime₄, ?_, ?_, fun hlate h64 hcounted => ?_⟩
  · have hcc : s₄.cc1if = (s₃.cc1if || decide (nextShown s₃.time s₃.ccr1 ≤ s₄.time)) := h₄.cc1if
    have hccr : s₃.ccr1 = s.ccr1 := by rw [hrest]
    rw [hcc, hpassed.cc1if, hccr, Bool.or_assoc, ← Bool.decide_or]
    congr 2
    rw [nextShown_trans hpassed.time htime₄]
  · rw [h₄.rest]
    simp only
    rw [hrest]
  · obtain ⟨t, hlast, ht, hepoch, huif⟩ := hcounted
    have hwrap := (h₁.trans h₂).uif
    rw [hflag, huif, ← Bool.decide_or] at hwrap
    have hwrap := of_decide_eq_true hwrap.symm
    have htime₂ := (h₁.trans h₂).time
    have htime₃ := h₃.time
    -- No more than one wrap fits between two calls.
    have honce : s₃.time / kPeriod = t / kPeriod + 1 ∧ s₄.time / kPeriod = t / kPeriod + 1 := by
      unfold kPeriod at *
      omega
    have hepoch₃ : s₄.epoch = kPeriod * (s₃.time / kPeriod) := by
      rw [hepoch₄, hepoch, honce.1]
      unfold add64 kPeriod at *
      omega
    have hvalue : add64 s₄.epoch (s₄.time % kPeriod) = s₄.time := by
      rw [hepoch₃]
      unfold add64 kPeriod at *
      omega
    rw [hvalue]
    have hle := Nat.le_trans hpassed.time htime₄
    refine ⟨⟨hle, Nat.le_refl _⟩, s₃.time, hpassed.time, htime₄, hepoch₃, ?_⟩
    have huif₄ : s₄.uif = (false || decide (s₃.time / kPeriod < s₄.time / kPeriod)) := h₄.uif
    rw [huif₄, Bool.false_or]

/-- **`now`.** -/
theorem wp_now : Wp (now env) (fun _ => False) (fun value s' => Reads s value s') s := by
  refine .seq (Wp.get ?_)
  refine .bind (Q := fun value s' => Sampled s value s') ?_ fun value s' h => ?_
  · refine .seq (wp_access fun _ s₁ h₁ => .seq (wp_access fun _ s₂ h₂ => ?_))
    refine .ite (fun hflag => ?_) fun hflag => ?_
    · refine .seq (wp_access fun _ s₃ h₃ => .seq (wp_update (.seq (wp_access fun _ s₄ h₄ => ?_))))
      exact .seq (Wp.get (.pure (sampled_wrapped h₁ h₂ hflag h₃ h₄)))
    · exact .seq (Wp.get (.pure (sampled_steady h₁ h₂ (Bool.eq_false_iff.mpr hflag))))
  · refine .seq (wp_update (.pure ⟨h.time, h.cc1if, ?_, fun hfrequent hcounted => ?_⟩))
    · have hreadings : s'.readings = s.readings := by rw [h.rest]
      rw [hreadings]
      conv_lhs => rw [h.rest]
    · have hreadings : s'.readings = s.readings := by rw [h.rest]
      cases hfrequent with
      | cons close fits rest =>
      rw [hreadings] at close
      obtain ⟨hvalue, t, hstart, hstop, hepoch, huif⟩ := h.exact close fits hcounted
      exact ⟨⟨t, hstart, hstop, hepoch, huif⟩, hvalue⟩

/-! ## The clock -/

/-- The answers so far are times of their calls, and the epoch is up to date. -/
structure Clock (s : Tim2) : Prop where
  exact : ∀ r ∈ s.readings, r.start ≤ r.value ∧ r.value ≤ r.stop
  ordered : s.readings.Pairwise fun later earlier => earlier.stop ≤ later.start
  past : ∀ r ∈ s.readings, r.stop ≤ s.time
  counted : Counted s

theorem Clock.passed (h : Clock s) (hp : Passed s s') : Clock s' := by
  have hreadings : s'.readings = s.readings := by rw [hp.rest]
  have hepoch : s'.epoch = s.epoch := by rw [hp.rest]
  refine ⟨?_, ?_, ?_, ?_⟩
  · rw [hreadings]
    exact h.exact
  · rw [hreadings]
    exact h.ordered
  · rw [hreadings]
    exact fun r hr => Nat.le_trans (h.past r hr) hp.time
  · obtain ⟨t, hlast, ht, he, huif⟩ := h.counted
    have htime := hp.time
    refine ⟨t, by rw [hreadings]; exact hlast, Nat.le_trans ht htime, by rw [hepoch, he], ?_⟩
    rw [hp.uif, huif, ← Bool.decide_or]
    congr 1
    unfold kPeriod
    simp only [eq_iff_iff]
    omega

theorem Clock.reads (h : Clock s) (hr : Reads s value s') (hfrequent : Frequent s'.readings) :
    Clock s' ∧ s.time ≤ value ∧ value ≤ s'.time := by
  have hreadings : s'.readings = ⟨s.time, s'.time, value⟩ :: s.readings := by rw [hr.rest]
  obtain ⟨hcounted, hvalue⟩ := hr.exact hfrequent h.counted
  refine ⟨⟨?_, ?_, ?_, hcounted⟩, hvalue⟩
  · rw [hreadings]
    exact List.forall_mem_cons.mpr ⟨hvalue, h.exact⟩
  · rw [hreadings]
    exact List.pairwise_cons.mpr ⟨h.past, h.ordered⟩
  · rw [hreadings]
    exact List.forall_mem_cons.mpr ⟨Nat.le_refl _, fun r hr' => Nat.le_trans (h.past r hr') hr.time⟩

/-! ## The compare -/

/-- Time passes and calls of `now` may be recorded; the callback is as it was. -/
structure Keeps (s s' : Tim2) : Prop where
  time : s.time ≤ s'.time
  due : s'.due = s.due
  callback : s'.callback = s.callback
  armings : s'.armings = s.armings
  firings : s'.firings = s.firings
  readings : s.readings <:+ s'.readings

theorem Keeps.trans (h : Keeps s₁ s₂) (h' : Keeps s₂ s₃) : Keeps s₁ s₃ where
  time := Nat.le_trans h.time h'.time
  due := h'.due.trans h.due
  callback := h'.callback.trans h.callback
  armings := h'.armings.trans h.armings
  firings := h'.firings.trans h.firings
  readings := h.readings.trans h'.readings

theorem Passed.keeps (h : Passed s s') : Keeps s s' := by
  have hreadings : s'.readings = s.readings := by rw [h.rest]
  refine ⟨h.time, ?_, ?_, ?_, ?_, hreadings ▸ List.suffix_refl _⟩
  all_goals rw [h.rest]

theorem Reads.keeps (h : Reads s value s') : Keeps s s' := by
  refine ⟨h.time, ?_, ?_, ?_, ?_, ?_⟩
  all_goals rw [h.rest]
  exact List.suffix_cons _ _

theorem Frequent.suffix : ∀ {past now : List Reading}, past <:+ now → Frequent now → Frequent past := by
  intro past now hsuffix h
  induction now with
  | nil => rw [List.suffix_nil.mp hsuffix]; exact .nil
  | cons r rest ih =>
    rcases List.suffix_cons_iff.mp hsuffix with rfl | hrest
    · exact h
    · cases h with
      | cons _ _ past => exact ih hrest past

/-- An interrupt will come: it is pending, or the compare value lies ahead by less than half a period. -/
def Coming (s : Tim2) : Prop :=
  s.cc1ie = true ∧ (s.irq = true ∨ s.cc1if = true ∨
    ∃ k, s.time < k ∧ k < s.time + 2 ^ 31 ∧ k % kPeriod = s.ccr1 % kPeriod)

theorem Coming.later (h : Coming s) (htime : s.time ≤ s'.time)
    (hcc1if : s'.cc1if = (s.cc1if || decide (nextShown s.time s.ccr1 ≤ s'.time)))
    (hie : s'.cc1ie = s.cc1ie) (hirq : s'.irq = s.irq) (hccr : s'.ccr1 = s.ccr1) : Coming s' := by
  refine ⟨hie.trans h.1, ?_⟩
  rw [hirq, hcc1if, hccr]
  rcases h.2 with hi | hc | ⟨k, hlt, hnear, hk⟩
  · exact .inl hi
  · exact .inr (.inl (by rw [hc]; rfl))
  · rcases Nat.lt_or_ge s'.time k with hahead | hpast
    · exact .inr (.inr ⟨k, hahead, by omega, hk⟩)
    · refine .inr (.inl ?_)
      rw [decide_eq_true (Nat.le_trans (nextShown_le hlt hk) hpast), Bool.or_true]

theorem Coming.passed (h : Coming s) (hp : Passed s s') : Coming s' := by
  refine h.later hp.time hp.cc1if ?_ ?_ ?_
  all_goals rw [hp.rest]

theorem Coming.reads (h : Coming s) (hr : Reads s value s') : Coming s' := by
  refine h.later hr.time hr.cc1if ?_ ?_ ?_
  all_goals rw [hr.rest]

/-- The last look at the time in `ProgramCompare`: the compare has not passed unnoticed. -/
theorem coming_of_reads {target : Nat} (hr : Reads s value s') (hie : s.cc1ie = true)
    (hccr : s.ccr1 = target % kPeriod) (hvalue : s.time ≤ value ∧ value ≤ s'.time)
    (hbefore : value < target) (hnear : target < s.time + 2 ^ 31) : Coming s' := by
  have hie' : s'.cc1ie = s.cc1ie := by rw [hr.rest]
  have hccr' : s'.ccr1 = s.ccr1 := by rw [hr.rest]
  have hmod : target % kPeriod = s.ccr1 % kPeriod := by rw [hccr, Nat.mod_mod]
  refine ⟨hie'.trans hie, .inr ?_⟩
  rcases Nat.lt_or_ge s'.time target with hahead | hpast
  · have := hr.time
    exact .inr ⟨target, hahead, by omega, by rw [hccr', hmod]⟩
  · left
    rw [hr.cc1if, decide_eq_true (Nat.le_trans (nextShown_le (by omega) hmod) hpast), Bool.or_true]

/-- **`ProgramCompare`.** -/
theorem wp_programCompare : Wp (programCompare env) (fun _ => False)
    (fun _ s' => Keeps s s' ∧ (Frequent s'.readings → Clock s → s.due < 2 ^ 64 → Clock s' ∧ Coming s')) s := by
  refine .seq (wp_access fun _ s₁ h₁ => .seq (wp_access fun _ s₂ h₂ => ?_))
  refine .bind wp_now fun current s₃ h₃ => .seq (Wp.get ?_)
  refine .seq (wp_access fun p s₄ h₄ => .seq (wp_access fun _ s₅ h₅ => ?_))
  refine .bind wp_now fun value s₆ h₆ => ?_
  have hk₃ : Keeps s s₃ := by
    have hk₁ : Keeps s { s₁ with cc1ie := false } := { h₁.keeps with }
    have hk₂ : Keeps { s₁ with cc1ie := false } { s₂ with cc1if := false } := { h₂.keeps with }
    exact (hk₁.trans hk₂).trans h₃.keeps
  set target := add64 current (min (if s₃.due > current then s₃.due - current else 0) 0x7fffffff) with htarget
  have hk₆ : Keeps s₃ s₆ := by
    have hk₄ : Keeps s₃ { s₄ with
        ccr1 := target % kPeriod, cc1if := s₄.cc1if || p.atOnce && target % kPeriod == s₄.time % kPeriod } :=
      { h₄.keeps with }
    have hk₅ : Keeps _ { s₅ with cc1ie := true } := { h₅.keeps with }
    exact (hk₄.trans hk₅).trans h₆.keeps
  have hspec : Frequent s₆.readings → Clock s → s.due < 2 ^ 64 → Clock s₆ ∧ (value < target → Coming s₆) := by
    intro hfrequent hclock hdue
    have hclock₂ : Clock { s₂ with cc1if := false } := by
      have hc₁ := hclock.passed h₁
      have hc₁' : Clock { s₁ with cc1ie := false } := { hc₁ with }
      have hc₂ := hc₁'.passed h₂
      exact { hc₂ with }
    obtain ⟨hclock₃, hcurrent⟩ := hclock₂.reads h₃ (hfrequent.suffix hk₆.readings)
    have hclock₅ : Clock { s₅ with cc1ie := true } := by
      have hc₄ := hclock₃.passed h₄
      have hc₄' : Clock { s₄ with
        ccr1 := target % kPeriod, cc1if := s₄.cc1if || p.atOnce && target % kPeriod == s₄.time % kPeriod } :=
        { hc₄ with }
      have hc₅ := hc₄'.passed h₅
      exact { hc₅ with }
    obtain ⟨hclock₆, hvalue⟩ := hclock₅.reads h₆ hfrequent
    refine ⟨hclock₆, fun hbefore => ?_⟩
    have hccr : s₅.ccr1 = target % kPeriod := by rw [h₅.rest]
    have h₄₅ : s₄.time ≤ s₅.time := h₅.time
    have hnear : target < s₅.time + 2 ^ 31 := by
      have htime := h₄.time
      have hlt : current < 2 ^ 64 := by
        have hread : s₃.readings = ⟨s₂.time, s₃.time, current⟩ :: s₂.readings := by rw [h₃.rest]
        have hf := hfrequent.suffix hk₆.readings
        rw [hread] at hf
        cases hf with
        | cons _ fits _ => exact Nat.lt_of_le_of_lt hcurrent.2 fits
      rw [hk₃.due] at htarget
      rw [htarget]
      unfold add64
      split <;> omega
    exact coming_of_reads h₆ rfl hccr hvalue hbefore hnear
  refine .ite (fun hpast => wp_access fun _ s₇ h₇ => ?_) fun hbefore => .pure ?_
  · refine ⟨{ (hk₃.trans hk₆).trans h₇.keeps with }, fun hfrequent hclock hdue => ?_⟩
    have hreadings : s₇.readings = s₆.readings := by rw [h₇.rest]
    have hie₆ : s₆.cc1ie = true := by rw [h₆.rest]
    have hie : s₇.cc1ie = true := by rw [h₇.rest, hie₆]
    have hfrequent' : Frequent s₇.readings := hfrequent
    rw [hreadings] at hfrequent'
    have hclock₇ := (hspec hfrequent' hclock hdue).1.passed h₇
    exact ⟨{ hclock₇ with }, hie, .inl rfl⟩
  · refine ⟨hk₃.trans hk₆, fun hfrequent hclock hdue => ?_⟩
    obtain ⟨hclock₆, hcoming⟩ := hspec hfrequent hclock hdue
    exact ⟨hclock₆, hcoming (Nat.lt_of_not_le hbefore)⟩

/-! ## Callbacks -/

/-- Callbacks are called for what was armed, once and not before they are due. -/
structure Alarms (s : Tim2) : Prop where
  due : s.due < 2 ^ 64
  numbers : ∀ a ∈ s.armings, a.number < s.armings.length
  distinct : (s.armings.map Arming.number).Nodup
  readings : ∀ a ∈ s.armings, ∃ r ∈ s.readings, r.value = a.reading
  waiting : ∀ n, s.callback = some n → n < s.armings.length ∧ (∀ f ∈ s.firings, f.number ≠ n) ∧
    ∃ a ∈ s.armings, a.number = n ∧ s.due = after a.reading a.delay
  fired : ∀ f ∈ s.firings, f.number < s.armings.length ∧ f.time ≤ s.time ∧
    ∃ a ∈ s.armings, a.number = f.number ∧ after a.reading a.delay ≤ f.time
  once : (s.firings.map Firing.number).Nodup

theorem Alarms.keeps (h : Alarms s) (hk : Keeps s s') : Alarms s' := by
  refine ⟨?_, ?_, ?_, ?_, ?_, ?_, ?_⟩
  · rw [hk.due]
    exact h.due
  · rw [hk.armings]
    exact h.numbers
  · rw [hk.armings]
    exact h.distinct
  · rw [hk.armings]
    exact fun a ha => (h.readings a ha).imp fun r hr => ⟨hk.readings.subset hr.1, hr.2⟩
  · rw [hk.callback, hk.armings, hk.firings, hk.due]
    exact h.waiting
  · rw [hk.firings, hk.armings]
    exact fun f hf => ⟨(h.fired f hf).1, Nat.le_trans (h.fired f hf).2.1 hk.time, (h.fired f hf).2.2⟩
  · rw [hk.firings]
    exact h.once

structure Sound (s : Tim2) : Prop where
  clock : Clock s
  alarms : Alarms s
  coming : s.callback ≠ none → Coming s

theorem sound_new : Sound {} where
  clock := ⟨by simp, List.Pairwise.nil, by simp, ⟨0, Nat.le_refl _, Nat.le_refl _, rfl, rfl⟩⟩
  alarms := ⟨by decide, by simp, List.nodup_nil, by simp, nofun, by simp, List.nodup_nil⟩
  coming := nofun

theorem Sound.passed (h : Sound s) (hp : Passed s s') : Sound s' where
  clock := h.clock.passed hp
  alarms := h.alarms.keeps hp.keeps
  coming hc := (h.coming (by rw [← hp.keeps.callback]; exact hc)).passed hp

/-- What a function leaves: the records go on, and what holds between the functions holds again. -/
def Leaves (s s' : Tim2) : Prop :=
  s.readings <:+ s'.readings ∧ (Frequent s'.readings → Sound s → Sound s')

theorem wp_call_now : Wp (call env .now) (fun _ => False) (fun _ s' => Leaves s s') s := by
  refine .bind wp_now fun value s' h => .pure ⟨h.keeps.readings, fun hfrequent hs => ?_⟩
  refine ⟨(hs.clock.reads h hfrequent).1, hs.alarms.keeps h.keeps, fun hc => ?_⟩
  exact (hs.coming (by rw [← h.keeps.callback]; exact hc)).reads h

/-- A new alarm, which is due after what `now` answered. -/
theorem Alarms.arm (h : Alarms s) {current : Nat} (delay : Nat)
    (hr : Reads { s with callback := some s.armings.length } current s') : Alarms { s' with
      due := after current delay, armings := ⟨s'.armings.length, current, delay⟩ :: s'.armings } := by
  have hk := hr.keeps
  have harmings : s'.armings = s.armings := hk.armings
  have hfirings : s'.firings = s.firings := hk.firings
  have hreadings : s'.readings = ⟨s.time, s'.time, current⟩ :: s.readings := by rw [hr.rest]
  refine ⟨?_, ?_, ?_, ?_, ?_, ?_, ?_⟩
  · exact Nat.lt_trans (after_lt_kForever current delay) (by decide)
  · rw [harmings]
    refine List.forall_mem_cons.mpr ⟨Nat.lt_succ_self _, fun a ha => ?_⟩
    exact Nat.lt_succ_of_lt (h.numbers a ha)
  · simp only [harmings]
    refine List.nodup_cons.mpr ⟨fun hmem => ?_, h.distinct⟩
    obtain ⟨a, ha, hnumber⟩ := List.mem_map.mp hmem
    exact absurd (h.numbers a ha) (by rw [hnumber]; exact Nat.lt_irrefl _)
  · simp only [harmings, hreadings]
    refine List.forall_mem_cons.mpr ⟨⟨_, List.mem_cons_self, rfl⟩, fun a ha => ?_⟩
    exact (h.readings a ha).imp fun r hr' => ⟨List.mem_cons_of_mem _ hr'.1, hr'.2⟩
  · intro n hn
    have hn' : some s.armings.length = some n := hk.callback.symm.trans hn
    obtain rfl := Option.some.inj hn'
    simp only [harmings, hfirings]
    refine ⟨Nat.lt_succ_self _, fun f hf heq => ?_, _, List.mem_cons_self, rfl, rfl⟩
    exact absurd (h.fired f hf).1 (by rw [heq]; exact Nat.lt_irrefl _)
  · simp only [harmings, hfirings]
    intro f hf
    obtain ⟨hlt, htime, a, ha, hnumber, hdue⟩ := h.fired f hf
    have hlater : s.time ≤ s'.time := hk.time
    exact ⟨Nat.lt_succ_of_lt hlt, Nat.le_trans htime hlater, a, List.mem_cons_of_mem _ ha, hnumber, hdue⟩
  · simp only [hfirings]
    exact h.once

theorem wp_arm (delay : UInt64) : Wp (arm env delay) (fun _ => False) (fun _ s' => Leaves s s') s := by
  refine .seq (wp_update (.bind wp_now fun current s₁ h₁ => .seq (wp_update ?_)))
  refine wp_programCompare.conseq fun _ s₂ ⟨hk, hspec⟩ => ⟨?_, fun hfrequent hs => ?_⟩
  · exact h₁.keeps.readings.trans hk.readings
  · have hclock₀ : Clock { s with callback := some s.armings.length } := { hs.clock with }
    have hclock₁ := (hclock₀.reads h₁ (hfrequent.suffix hk.readings)).1
    have halarms := hs.alarms.arm delay.toNat h₁
    obtain ⟨hclock₂, hcoming⟩ := hspec hfrequent { hclock₁ with } halarms.due
    exact ⟨hclock₂, halarms.keeps hk, fun _ => hcoming⟩

/-- What `disarm` leaves: no callback waits any more. -/
structure Disarmed (s s' : Tim2) : Prop where
  callback : s'.callback = none
  due : s'.due = kForever
  time : s.time ≤ s'.time
  readings : s'.readings = s.readings
  armings : s'.armings = s.armings
  firings : s'.firings = s.firings
  clock : Clock s → Clock s'

theorem wp_disarm : Wp (disarm env) (fun _ => False) (fun _ s' => Disarmed s s') s := by
  refine .seq (wp_access fun _ s₁ h₁ => .seq (wp_access fun _ s₂ h₂ => wp_update ?_))
  have h₂' : Passed { s₁ with cc1ie := false } s₂ := h₂
  have hk := h₁.keeps
  have hk₂ := h₂'.keeps
  have hreadings : s₂.readings = s.readings := by rw [h₂'.rest, h₁.rest]
  refine ⟨rfl, rfl, Nat.le_trans hk.time hk₂.time, hreadings, hk₂.armings.trans hk.armings,
    hk₂.firings.trans hk.firings, fun hclock => ?_⟩
  have hc₁ : Clock { s₁ with cc1ie := false } := { hclock.passed h₁ with }
  exact { hc₁.passed h₂' with }

theorem Alarms.disarmed (h : Alarms s) (hd : Disarmed s s') : Alarms s' := by
  refine ⟨by rw [hd.due]; decide, ?_, ?_, ?_, ?_, ?_, ?_⟩
  · rw [hd.armings]
    exact h.numbers
  · rw [hd.armings]
    exact h.distinct
  · rw [hd.armings, hd.readings]
    exact h.readings
  · rw [hd.callback]
    exact nofun
  · rw [hd.firings, hd.armings]
    exact fun f hf => ⟨(h.fired f hf).1, Nat.le_trans (h.fired f hf).2.1 hd.time, (h.fired f hf).2.2⟩
  · rw [hd.firings]
    exact h.once

theorem wp_call_disarm : Wp (call env .disarm) (fun _ => False) (fun _ s' => Leaves s s') s :=
  wp_disarm.conseq fun _ _ hd => ⟨hd.readings ▸ List.suffix_refl _, fun _ hs =>
    ⟨hd.clock hs.clock, hs.alarms.disarmed hd, fun hc => absurd hd.callback hc⟩⟩

theorem Alarms.fire (h : Alarms s) (hd : Disarmed s s') {n : Nat} (hn : s.callback = some n)
    (hdue : s.due ≤ s'.time) : Alarms { s' with firings := ⟨n, s'.time⟩ :: s'.firings } := by
  have h' := h.disarmed hd
  obtain ⟨hlt, hnew, a, ha, hnumber, hafter⟩ := h.waiting n hn
  refine { h' with waiting := ?_, fired := ?_, once := ?_ }
  · intro k hk
    exact absurd (hd.callback.symm.trans hk) nofun
  · refine List.forall_mem_cons.mpr ⟨?_, h'.fired⟩
    rw [← hd.armings] at hlt ha
    exact ⟨hlt, Nat.le_refl _, a, ha, hnumber, by rw [← hafter]; exact hdue⟩
  · refine List.nodup_cons.mpr ⟨fun hmem => ?_, h'.once⟩
    obtain ⟨f, hf, hfn⟩ := List.mem_map.mp hmem
    rw [hd.firings] at hf
    exact hnew f hf hfn

/-- **The interrupt** calls what is due, and programs the next compare for what is not. -/
theorem wp_interrupt : Wp (interrupt env) (fun _ => False) (fun _ s' => Leaves s s') s := by
  refine .seq (wp_update (.bind wp_now fun current s₁ h₁ => .seq (wp_access fun _ s₂ h₂ => ?_)))
  refine .seq (Wp.get ?_)
  have hk : Keeps s { s₂ with cc1if := false } := by
    have hk₁ : Keeps s s₁ := { h₁.keeps with }
    exact hk₁.trans { h₂.keeps with }
  have hreadings : s₂.readings = s₁.readings := by rw [h₂.rest]
  have hclock (hfrequent : Frequent s₂.readings) (hs : Sound s) :
      Clock { s₂ with cc1if := false } ∧ current ≤ s₂.time := by
    have hclock₀ : Clock { s with irq := false } := { hs.clock with }
    obtain ⟨hclock₁, -, hcurrent⟩ := hclock₀.reads h₁ (hreadings ▸ hfrequent)
    exact ⟨{ hclock₁.passed h₂ with }, Nat.le_trans hcurrent h₂.time⟩
  dsimp only
  split
  · next number hnumber =>
    refine .ite (fun hdue => ?_) fun _ => ?_
    · refine .bind wp_disarm fun _ s₃ hd => wp_update ⟨?_, fun hfrequent hs => ?_⟩
      · simp only [hd.readings]
        exact hk.readings
      · have hfrequent' : Frequent s₂.readings := by
          simp only [hd.readings] at hfrequent
          exact hfrequent
        obtain ⟨hclock₂, hcurrent⟩ := hclock hfrequent' hs
        have hclock₃ := hd.clock hclock₂
        have hfire := (hs.alarms.keeps hk).fire hd hnumber (Nat.le_trans hdue (Nat.le_trans hcurrent hd.time))
        exact ⟨{ hclock₃ with }, hfire, fun hc => absurd hd.callback hc⟩
    · refine wp_programCompare.conseq fun _ s₃ ⟨hk₃, hspec⟩ => ⟨hk.readings.trans hk₃.readings, fun hfrequent hs => ?_⟩
      have halarms := hs.alarms.keeps hk
      obtain ⟨hclock₃, hcoming⟩ := hspec hfrequent (hclock (hfrequent.suffix hk₃.readings) hs).1 halarms.due
      exact ⟨hclock₃, halarms.keeps hk₃, fun _ => hcoming⟩
  · next hnone =>
    refine .pure ⟨hk.readings, fun hfrequent hs => ⟨(hclock hfrequent hs).1, hs.alarms.keeps hk, fun hc => ?_⟩⟩
    exact absurd hnone hc

theorem wp_call (c : Call) : Wp (call env c) (fun _ => False) (fun _ s' => Leaves s s') s := by
  cases c with
  | now => exact wp_call_now
  | arm delay => exact wp_arm delay
  | disarm => exact wp_call_disarm
  | interrupt => exact wp_interrupt

/-- **Any calls.** -/
theorem wp_run (cs : List Call) : ∀ {s : Tim2}, Wp (run env cs) (fun _ => False) (fun _ s' => Leaves s s') s := by
  induction cs with
  | nil => exact .pure ⟨List.suffix_refl _, fun _ hs => hs⟩
  | cons c rest ih =>
    intro s
    refine .bind (wp_call c) fun _ s₁ ⟨hsuffix, h₁⟩ => ih.conseq fun _ s₂ ⟨hsuffix₂, h₂⟩ => ?_
    exact ⟨hsuffix.trans hsuffix₂, fun hfrequent hs => h₂ hfrequent (h₁ (hfrequent.suffix hsuffix₂) hs)⟩

theorem Clock.mono (h : Clock s) : s.readings.Pairwise fun later earlier => earlier.value ≤ later.value := by
  refine h.ordered.imp_of_mem fun {later earlier} hlater hearlier hle => ?_
  have hl := h.exact later hlater
  have he := h.exact earlier hearlier
  omega

/-- **The clock and the compare timer.** Whatever ticks pass before each access and whatever is called, as long as
`now` is called often enough: every answer of `now` is the number of elapsed ticks at some instant of the call,
and later answers are not lower; every call of a callback is for an `arm`, once, and not before what `now`
answered there plus the delay; and while a callback waits an interrupt is pending, or the compare value lies ahead
of the counter by less than half a period and its interrupt is enabled. -/
theorem tim2_exact (env : Nat → Passing) (cs : List Call) (n : Nat)
    (hfrequent : Frequent (run env cs {}).2.readings) :
    let s := (run env cs {}).2.advance n
    ((∀ r ∈ s.readings, r.start ≤ r.value ∧ r.value ≤ r.stop) ∧
        s.readings.Pairwise fun later earlier => earlier.stop ≤ later.start ∧ earlier.value ≤ later.value) ∧
      ((s.firings.map Firing.number).Nodup ∧ (s.armings.map Arming.number).Nodup ∧
        ∀ f ∈ s.firings, ∃ a ∈ s.armings, a.number = f.number ∧ after a.reading a.delay ≤ f.time ∧
          ∃ r ∈ s.readings, r.value = a.reading) ∧
      (s.callback ≠ none → s.pending = true ∨ s.cc1ie = true ∧
        ∃ k, s.time < k ∧ k < s.time + 2 ^ 31 ∧ k % kPeriod = s.ccr1 % kPeriod) := by
  obtain ⟨_, s', hrun, -, hleaves⟩ := (wp_run cs : Wp (run env cs) (fun _ => False) (fun _ s' => Leaves {} s') {}).returns
  have hs' : (run env cs {}).2 = s' := by rw [hrun]
  rw [hs'] at hfrequent ⊢
  have hsound : Sound (s'.advance n) := (hleaves hfrequent sound_new).passed (passed_advance s' n s'.accesses)
  refine ⟨⟨hsound.clock.exact, hsound.clock.ordered.and hsound.clock.mono⟩,
    ⟨hsound.alarms.once, hsound.alarms.distinct, fun f hf => ?_⟩, fun hc => ?_⟩
  · obtain ⟨-, -, a, ha, hnumber, hdue⟩ := hsound.alarms.fired f hf
    exact ⟨a, ha, hnumber, hdue, hsound.alarms.readings a ha⟩
  · obtain ⟨hie, hcoming⟩ := hsound.coming hc
    rcases hcoming with hirq | hcc | hahead
    · left
      rw [pending, hirq]
      rfl
    · left
      rw [pending, hcc, hie]
      simp
    · exact .inr ⟨hie, hahead⟩

def ticking : Nat → Passing := fun _ => ⟨1, false⟩

theorem tim2_exact_short : Frequent (run ticking [.arm 3] {}).2.readings ∧
    (((run ticking [.arm 3] {}).2.advance 0).callback ≠ none → ((run ticking [.arm 3] {}).2.advance 0).pending = true ∨
      ((run ticking [.arm 3] {}).2.advance 0).cc1ie = true ∧ ∃ k, ((run ticking [.arm 3] {}).2.advance 0).time < k ∧
        k < ((run ticking [.arm 3] {}).2.advance 0).time + 2 ^ 31 ∧
        k % kPeriod = ((run ticking [.arm 3] {}).2.advance 0).ccr1 % kPeriod) := by
  have hreadings : (run ticking [.arm 3] {}).2.readings = [⟨8, 10, 9⟩, ⟨4, 6, 5⟩, ⟨0, 2, 1⟩] := by decide +kernel
  have hfrequent : Frequent (run ticking [.arm 3] {}).2.readings := by
    rw [hreadings]
    exact .cons (by decide) (by decide) (.cons (by decide) (by decide) (.cons (by decide) (by decide) .nil))
  exact ⟨hfrequent, (tim2_exact ticking [.arm 3] 0 hfrequent).2.2⟩

/-! ## What is asked of the calls of `now` -/

/-- Fewer ticks than a period pass between the end of a call of `now` and the start of the next. -/
def Gaps : List Reading → Prop
  | r :: r' :: past => r.start < r'.stop + kPeriod ∧ Gaps (r' :: past)
  | _ => True

/-- A period passes before the counter is sampled, and another one before the update flag is cleared. -/
def stalled (n : Nat) : Passing := if n = 2 ∨ n = 4 then ⟨kPeriod, false⟩ else {}

/-- Fewer ticks than a period pass from the start of each call of `now` to the end of the next. -/
def Close : List Reading → Prop
  | [] => True
  | r :: past => r.stop < lastStart past + kPeriod ∧ Close past

section steady

variable {k : Nat}

theorem wp_access_steady {α : Type} {f : Passing → Tim2 → α × Tim2} {Q : α → Tim2 → Prop} {C : Tim2 → Prop}
    (h : ∀ s', s'.time = s.time + k → s'.readings = s.readings → Q (f ⟨k, false⟩ s').1 (f ⟨k, false⟩ s').2) :
    Wp (access (fun _ => ⟨k, false⟩) f) C Q s := by
  unfold Wp
  exact h _ rfl rfl

/-- A call of `now` takes two to four accesses, and its answer has 64 bits. -/
theorem wp_now_steady : Wp (now fun _ => ⟨k, false⟩) (fun _ => False) (fun value s' =>
    value < 2 ^ 64 ∧ s.time + 2 * k ≤ s'.time ∧ s'.time ≤ s.time + 4 * k ∧
      s'.readings = ⟨s.time, s'.time, value⟩ :: s.readings) s := by
  have h64 (a b : Nat) : add64 a b < 2 ^ 64 := Nat.mod_lt _ (by decide)
  refine .seq (Wp.get (.bind (Q := fun value s' => value < 2 ^ 64 ∧ s.time + 2 * k ≤ s'.time ∧
    s'.time ≤ s.time + 4 * k ∧ s'.readings = s.readings) ?_ fun value s' h => ?_))
  · refine .seq (wp_access_steady fun s₁ h₁ hr₁ => .seq (wp_access_steady fun s₂ h₂ hr₂ => ?_))
    dsimp only at h₁ h₂
    refine .ite (fun _ => ?_) fun _ => .seq (Wp.get (.pure ⟨h64 _ _, ?_, ?_, hr₂.trans hr₁⟩))
    rotate_left
    · dsimp only
      omega
    · dsimp only
      omega
    refine .seq (wp_access_steady fun s₃ h₃ hr₃ => .seq (wp_update (.seq (wp_access_steady fun s₄ h₄ hr₄ => ?_))))
    dsimp only at h₃ h₄
    refine .seq (Wp.get (.pure ⟨h64 _ _, ?_, ?_, ((hr₄.trans hr₃).trans hr₂).trans hr₁⟩))
    · dsimp only
      omega
    · dsimp only
      omega
  · refine .seq (wp_update (.pure ⟨h.1, h.2.1, h.2.2.1, ?_⟩))
    simp only [h.2.2.2]

/-- Calls of `now` and nothing else: they stay close, and the time goes on. -/
theorem run_steady (hk : 8 * k < kPeriod) : ∀ (n : Nat) {s : Tim2}, Close s.readings →
    s.time ≤ lastStart s.readings + 4 * k →
    Wp (run (fun _ => ⟨k, false⟩) (List.replicate (n + 1) .now)) (fun _ => False) (fun _ s' =>
      Close s'.readings ∧ ∃ r ∈ s'.readings, r.value < 2 ^ 64 ∧ s.time + n * (2 * k) ≤ r.start) s := by
  intro n
  induction n with
  | zero =>
    intro s hclose htime
    refine .seq (.bind wp_now_steady fun value s₁ ⟨hv, hlo, hhi, hreadings⟩ => .pure (.pure ?_))
    rw [hreadings]
    exact ⟨⟨by simp only; omega, hclose⟩, _, List.mem_cons_self, hv, by simp only; omega⟩
  | succ n ih =>
    intro s hclose htime
    rw [List.replicate_succ]
    refine .seq (.bind wp_now_steady fun value s₁ ⟨hv, hlo, hhi, hreadings⟩ => .pure ?_)
    refine (ih ?_ ?_).conseq fun _ s' ⟨hclose', r, hr, hvalue, hstart⟩ => ⟨hclose', r, hr, hvalue, ?_⟩
    · rw [hreadings]
      exact ⟨by simp only; omega, hclose⟩
    · rw [hreadings]
      exact hhi
    · rw [Nat.succ_mul]
      omega

end steady

/-- A gap of less than a period between the calls of `now` is not enough when a call itself takes long, and after
`2 ^ 64` ticks no answer is right. -/
theorem tim2_late :
    (∃ env cs, Gaps (run env cs {}).2.readings ∧ ∃ r ∈ (run env cs {}).2.readings, r.value < r.start) ∧
      ∃ env cs, Close (run env cs {}).2.readings ∧ ∃ r ∈ (run env cs {}).2.readings, r.value < r.start := by
  constructor
  · refine ⟨stalled, [.now, .now, .now], ?_, ⟨8589934592, 8589934592, 4294967296⟩, by decide +kernel, by decide⟩
    have hrun : (run stalled [.now, .now, .now] {}).2.readings =
        [⟨8589934592, 8589934592, 4294967296⟩, ⟨0, 8589934592, 4294967296⟩, ⟨0, 0, 0⟩] := by decide +kernel
    rw [hrun]
    exact ⟨by decide, by decide, trivial⟩
  · obtain ⟨n, hn⟩ : ∃ n, 2 ^ 64 ≤ n * (2 * 1048576) := ⟨2 ^ 64, Nat.le_mul_of_pos_right _ (by decide)⟩
    have hsteady : Wp (run (fun _ => ⟨1048576, false⟩) (List.replicate (n + 1) .now)) (fun _ => False) _ {} :=
      run_steady (by decide) n trivial (Nat.zero_le _)
    obtain ⟨_, s', hrun, hclose, r, hr, hvalue, hstart⟩ := hsteady.returns
    refine ⟨fun _ => ⟨1048576, false⟩, List.replicate (n + 1) .now, by rw [hrun]; exact hclose, r, ?_, ?_⟩
    · rw [hrun]
      exact hr
    · exact Nat.lt_of_lt_of_le hvalue (Nat.le_trans hn (Nat.le_trans (Nat.le_add_left _ _) hstart))

end Tim2

end DaveOs.Platform
