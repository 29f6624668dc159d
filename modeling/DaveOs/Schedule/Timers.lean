import DaveOs.Schedule.TimerStep

/-!
# One platform timer for many requests

The invariant `System.Timed` of every run: a callback has at most one slot, the wake slot has none, every
due time is a real one, and whenever no `Fire` is in progress the platform timer stands for the earliest
active slot (`State.ArmedFor`). A slot is left in four ways only (`Left`).
-/

namespace DaveOs.Schedule

variable {μ ε κ ρ : Type} {c : Config μ}

namespace State

variable {s : State c ε κ ρ}
variable {i : Fin (c.timerCapacity + 1)}

/-- The platform timer stands for the earliest active slot, counted from when it was armed (no delay for
a time already past), or for nothing when no slot is active. -/
def ArmedFor (s : State c ε κ ρ) : Prop :=
  match s.armed with
  | none => ∀ i, (s.timers i).active = false
  | some alarm => ∃ i, (s.timers i).active = true ∧
      (∀ j, (s.timers j).active = true → (s.timers i).due ≤ (s.timers j).due) ∧
      alarm.since ≤ s.now ∧ alarm.delay = (s.timers i).due - alarm.since

theorem timerDue_eq_some {t : Nat} :
    s.timerDue i = some t ↔ (s.timers i).active = true ∧ (s.timers i).due = t := by
  unfold timerDue
  split
  · next h => simp [h]
  · next h => simp [h]

theorem armedFor_rearm (h : ∀ i, (s.timers i).active = true → (s.timers i).due < kForever) :
    s.rearm.ArmedFor := by
  have spec := Scan.earliest_spec s.timerDue kForever (List.finRange (c.timerCapacity + 1))
  unfold ArmedFor rearm alarm
  dsimp only
  by_cases hf : (Scan.earliest s.timerDue kForever (List.finRange (c.timerCapacity + 1))).1 = kForever
  · rw [if_pos hf]
    intro i
    by_contra hi
    rw [Bool.not_eq_false] at hi
    have hb := spec.bound i (List.mem_finRange i) _ (timerDue_eq_some.2 ⟨hi, rfl⟩)
    have := h i hi
    omega
  · rw [if_neg hf]
    obtain ⟨i, hi⟩ : ∃ i, (Scan.earliest s.timerDue kForever
        (List.finRange (c.timerCapacity + 1))).2 = some i := by
      cases hs : (Scan.earliest s.timerDue kForever (List.finRange (c.timerCapacity + 1))).2 with
      | none => exact absurd (spec.none hs) hf
      | some i => exact ⟨i, rfl⟩
    obtain ⟨-, hdue, -⟩ := spec.entry i hi
    obtain ⟨hact, heq⟩ := timerDue_eq_some.1 hdue
    refine ⟨i, hact, ?_, Nat.le_refl _, ?_⟩
    · intro j hj
      rw [heq]
      exact spec.bound j (List.mem_finRange j) _ (timerDue_eq_some.2 ⟨hj, rfl⟩)
    · dsimp only
      rw [heq]
      split <;> omega

theorem armedFor_same {s' : State c ε κ ρ} (h : s.ArmedFor) (ht : s'.timers = s.timers)
    (ha : s'.armed = s.armed) (hn : s.now ≤ s'.now) : s'.ArmedFor := by
  unfold ArmedFor at h ⊢
  rw [ha, ht]
  cases hs : s.armed with
  | none =>
    rw [hs] at h
    exact h
  | some alarm =>
    rw [hs] at h
    obtain ⟨i, hi, hmin, hsince, hdelay⟩ := h
    exact ⟨i, hi, hmin, Nat.le_trans hsince hn, hdelay⟩

theorem dueSlot_eq_some (h : s.dueSlot = some i) :
    (s.timers i).active = true ∧ (s.timers i).due ≤ s.now := by
  obtain ⟨-, hdue, -⟩ := (Scan.earliest_spec _ _ _).entry i h
  split at hdue
  · next hi => exact hi
  · cases hdue

theorem lt_due_of_dueSlot_eq_none (h : s.dueSlot = none) (hi : (s.timers i).active = true)
    (hlt : (s.timers i).due < kForever) : s.now < (s.timers i).due := by
  by_contra hge
  have := Scan.limit_le_of_none h (List.mem_finRange i) (if_pos ⟨hi, by omega⟩)
  omega

end State

/-- What the slots look like: the wake slot has no callback, every request has one, a callback has at most
one slot, and no slot is due at the sentinel. -/
structure SlotsOk {n : Nat} (timers : Fin (n + 1) → Timer κ) : Prop where
  wake : (timers (Fin.last n)).callback = none
  named : ∀ i : Fin n, (timers i.castSucc).active = true → (timers i.castSucc).callback ≠ none
  unique : ∀ i j : Fin n, (timers i.castSucc).active = true → (timers j.castSucc).active = true →
    (timers i.castSucc).callback = (timers j.castSucc).callback → i = j
  real : ∀ i, (timers i).active = true → (timers i).due < kForever

namespace SlotsOk

variable {n : Nat} {timers : Fin (n + 1) → Timer κ}
variable {due : Nat}

theorem off (h : SlotsOk timers) {timers' : Fin (n + 1) → Timer κ}
    (hle : ∀ i, (timers' i).callback = (timers i).callback ∧ (timers' i).due = (timers i).due ∧
      ((timers' i).active = true → (timers i).active = true)) : SlotsOk timers' where
  wake := by rw [(hle _).1, h.wake]
  named := fun i hi => by
    rw [(hle _).1]
    exact h.named i ((hle _).2.2 hi)
  unique := fun i j hi hj hk => by
    rw [(hle _).1, (hle _).1] at hk
    exact h.unique i j ((hle _).2.2 hi) ((hle _).2.2 hj) hk
  real := fun i hi => by
    rw [(hle _).2.1]
    exact h.real i ((hle _).2.2 hi)

theorem deactivate (h : SlotsOk timers) (i : Fin (n + 1)) :
    SlotsOk (Function.update timers i { timers i with active := false }) := by
  refine h.off fun j => ?_
  by_cases hj : j = i
  · subst hj
    rw [Function.update_self]
    exact ⟨rfl, rfl, nofun⟩
  · rw [Function.update_of_ne hj]
    exact ⟨rfl, rfl, id⟩

/-- A request takes the slot of its callback, or a free one when no slot has it. -/
theorem hold (h : SlotsOk timers) (i : Fin n) (k : κ) (hdue : due < kForever)
    (hother : ∀ j, j ≠ i → (timers j.castSucc).active = true →
      (timers j.castSucc).callback ≠ some k) :
    SlotsOk (Function.update timers i.castSucc ⟨true, due, some k⟩) := by
  have hlast : Fin.last n ≠ i.castSucc := (Fin.castSucc_lt_last i).ne'
  have hne : ∀ j : Fin n, j ≠ i → (j.castSucc : Fin (n + 1)) ≠ i.castSucc := fun j hj he =>
    hj (Fin.castSucc_injective n he)
  refine ⟨?_, ?_, ?_, ?_⟩
  · rw [Function.update_of_ne hlast]
    exact h.wake
  · intro j hj
    by_cases hji : j = i
    · subst hji
      rw [Function.update_self]
      nofun
    · rw [Function.update_of_ne (hne j hji)] at hj ⊢
      exact h.named j hj
  · intro j l hj hl hk
    by_cases hji : j = i <;> by_cases hli : l = i
    · rw [hji, hli]
    · subst hji
      rw [Function.update_of_ne (hne l hli)] at hl hk
      rw [Function.update_self] at hk
      exact absurd hk.symm (hother l hli hl)
    · subst hli
      rw [Function.update_of_ne (hne j hji)] at hj hk
      rw [Function.update_self] at hk
      exact absurd hk (hother j hji hj)
    · rw [Function.update_of_ne (hne j hji)] at hj hk
      rw [Function.update_of_ne (hne l hli)] at hl hk
      exact h.unique j l hj hl hk
  · intro j hj
    by_cases hji : j = i.castSucc
    · subst hji
      rw [Function.update_self]
      exact hdue
    · rw [Function.update_of_ne hji] at hj ⊢
      exact h.real j hj

theorem setWake (h : SlotsOk timers) {active : Bool} (hdue : active = true → due < kForever) :
    SlotsOk (Function.update timers (Fin.last n) ⟨active, due, none⟩) := by
  have hne : ∀ j : Fin n, (j.castSucc : Fin (n + 1)) ≠ Fin.last n := fun j =>
    (Fin.castSucc_lt_last j).ne
  refine ⟨by rw [Function.update_self], ?_, ?_, ?_⟩
  · intro j hj
    rw [Function.update_of_ne (hne j)] at hj ⊢
    exact h.named j hj
  · intro j l hj hl hk
    rw [Function.update_of_ne (hne j)] at hj hk
    rw [Function.update_of_ne (hne l)] at hl hk
    exact h.unique j l hj hl hk
  · intro j hj
    by_cases hjl : j = Fin.last n
    · subst hjl
      rw [Function.update_self] at hj ⊢
      exact hdue hj
    · rw [Function.update_of_ne hjl] at hj ⊢
      exact h.real j hj

end SlotsOk

namespace System

variable {i : Fin c.timerCapacity} {k : κ} {n : Nat}

structure Timed (w : System c ε κ ρ) : Prop where
  slots : SlotsOk w.state.timers
  quiet : w.state.lifecycle ≠ .running →
    (∀ i, (w.state.timers i).active = false) ∧ w.state.armed = none
  armed : w.fires = [] → w.state.ArmedFor

theorem timed_initial : Timed ({} : System c ε κ ρ) where
  slots := ⟨rfl, nofun, nofun, nofun⟩
  quiet := fun _ => ⟨fun _ => rfl, rfl⟩
  armed := fun _ _ => rfl

variable {w w' : System c ε κ ρ} {a : Action μ ε κ ρ}

/-- The slot a request may take is the only one that could hold its callback. -/
theorem Timed.others (h : w.Timed) (hi : w.state.Holds i k ∨
      ((∀ j, ¬ w.state.Holds j k) ∧ (w.state.timers i.castSucc).active = false)) :
    ∀ j, j ≠ i → (w.state.timers j.castSucc).active = true →
      (w.state.timers j.castSucc).callback ≠ some k := by
  intro j hj hact hk
  rcases hi with hi | ⟨hnone, -⟩
  · exact hj (h.slots.unique j i hact hi.1 (by rw [hk, hi.2]))
  · exact hnone j ⟨hact, hk⟩

theorem set_ne_nil {α : Type} {l : List α} {x y : α} (h : l[n]? = some x) : l.set n y ≠ [] := by
  intro hl
  rw [(List.set_eq_nil_iff _ _).1 hl] at h
  cases h

theorem observeFired_timers (timer : Timer κ) (s : State c ε κ ρ) :
    (observeFired timer s).timers = s.timers := by
  unfold observeFired
  split <;> rfl

theorem observeFired_lifecycle (timer : Timer κ) (s : State c ε κ ρ) :
    (observeFired timer s).lifecycle = s.lifecycle := by
  unfold observeFired
  split <;> rfl

/-- While running, a section that ends with `Rearm` only has to keep the slots. -/
theorem Timed.rearmed (s' : State c ε κ ρ) (hl : w'.state.lifecycle = .running)
    (hslots : SlotsOk s'.timers) (hs : SameTimers s'.rearm w'.state) : w'.Timed := by
  have ht : w'.state.timers = s'.timers := hs.timers
  refine ⟨by rw [ht]; exact hslots, fun hne => absurd hl hne, fun _ => ?_⟩
  exact State.armedFor_same (State.armedFor_rearm hslots.real) hs.timers hs.armed hs.now.ge

theorem Timed.step (h : w.Timed) (hs : TimerStep w a w') : w'.Timed := by
  cases hs with
  | same hs hl hf =>
    refine ⟨by rw [hs.timers]; exact h.slots, ?_, ?_⟩
    · rw [hl, hs.timers, hs.armed]
      exact h.quiet
    · rw [hf]
      exact fun hf => State.armedFor_same (h.armed hf) hs.timers hs.armed hs.now.ge
  | lifecycle hs hl hf =>
    obtain ⟨hoff, hdis⟩ := h.quiet hl
    refine ⟨by rw [hs.timers]; exact h.slots, fun _ => ?_, fun _ => ?_⟩
    · rw [hs.timers, hs.armed]
      exact ⟨hoff, hdis⟩
    · unfold State.ArmedFor
      rw [hs.armed, hdis, hs.timers]
      exact hoff
  | advance =>
    exact ⟨h.slots, h.quiet, fun hf =>
      State.armedFor_same (h.armed hf) rfl rfl (Nat.le_add_right _ _)⟩
  | hold i k delay _ hl hi hw =>
    subst hw
    exact .rearmed _ hl (h.slots.hold i k (after_lt_kForever _ _) (h.others hi))
      ⟨rfl, rfl, rfl, rfl⟩
  | drop i _ hl hw =>
    subst hw
    exact .rearmed _ hl (h.slots.deactivate i.castSucc) ⟨rfl, rfl, rfl, rfl⟩
  | wake hl hstate hf =>
    have hle := (Scan.earliest_spec w.state.taskDue kForever (List.finRange c.tasks)).le_limit
    refine Timed.rearmed (w.state.setTimer (Fin.last _) ⟨_, _, none⟩) (by rw [hstate]; exact hl)
      (h.slots.setWake fun hact => ?_) (by rw [hstate]; exact .refl _)
    have hne := of_decide_eq_true hact
    omega
  | halt hl hstate hf =>
    have hoff : ∀ i, (w'.state.timers i).active = false := by
      rw [hstate]
      exact fun _ => rfl
    have hdis : w'.state.armed = none := by
      rw [hstate]
      rfl
    refine ⟨?_, fun _ => ⟨hoff, hdis⟩, fun _ => ?_⟩
    · rw [hstate]
      exact h.slots.off fun _ => ⟨rfl, rfl, nofun⟩
    · unfold State.ArmedFor
      rw [hdis]
      exact hoff
  | expire =>
    refine ⟨h.slots, fun hl => ⟨(h.quiet hl).1, rfl⟩, fun hf => ?_⟩
    exact absurd hf (List.append_ne_nil_of_right_ne_nil _ (List.cons_ne_nil _ _))
  | leave n _ hl =>
    refine ⟨h.slots, h.quiet, fun _ => ?_⟩
    unfold State.ArmedFor
    rw [(h.quiet hl).2]
    exact (h.quiet hl).1
  | finish n _ hl _ => exact .rearmed _ hl h.slots (.refl _)
  | serve n i hn hl _ =>
    refine ⟨?_, fun hne => absurd hl ?_, fun hf => absurd hf (set_ne_nil hn)⟩
    · rw [observeFired_timers]
      exact h.slots.deactivate i
    · rwa [observeFired_lifecycle] at hne
  | fired n callback hn =>
    exact ⟨h.slots, h.quiet, fun hf => absurd hf (set_ne_nil hn)⟩

/-! ## How a slot is left -/

/-- How slot `i`, held by callback `k` for time `due`, is left: the callback is run once, not before its
time; or the request is cancelled; or it is replaced by a later one for the same callback; or the
scheduler leaves the running state. -/
inductive Left (w : System c ε κ ρ) (i : Fin c.timerCapacity) (k : κ) (due : Nat) :
    Action μ ε κ ρ → System c ε κ ρ → Prop
  | run (n : Nat) (w' : System c ε κ ρ) : due ≤ w.state.now →
      w'.fires[n]? = some (.calling (some k)) →
      firings w'.state.history = (k, due, w.state.now) :: firings w.state.history →
      Left w i k due (.fire n) w'
  | cancelled (a : Action μ ε κ ρ) (w' : System c ε κ ρ) : a.Calls (.cancelTimer (some k)) →
      Left w i k due a w'
  | replaced (a : Action μ ε κ ρ) (w' : System c ε κ ρ) (delay : Nat) :
      a.Calls (.timer delay (some k)) →
      w'.state.timers i.castSucc = ⟨true, after w.state.now delay, some k⟩ → Left w i k due a w'
  | stopped (a : Action μ ε κ ρ) (w' : System c ε κ ρ) : w.state.lifecycle = .running →
      w'.state.lifecycle ≠ .running → Left w i k due a w'

theorem firings_observeFired {timer : Timer κ} (h : timer.callback = some k) (s : State c ε κ ρ) :
    firings (observeFired timer s).history =
      (k, timer.due, s.now) :: firings s.history := by
  unfold observeFired
  rw [h]
  rfl

theorem TimerStep.left (hs : TimerStep w a w') (hi : w.state.Holds i k) :
    w'.state.timers i.castSucc = w.state.timers i.castSucc ∨
      Left w i k (w.state.timers i.castSucc).due a w' := by
  cases hs with
  | same hs _ _ | lifecycle hs _ _ => exact .inl (by rw [hs.timers])
  | advance | expire | leave | finish | fired => exact .inl rfl
  | hold j l delay ha _ hj hw =>
    subst hw
    by_cases hij : i.castSucc = j.castSucc
    · -- The slot itself: the request is for its own callback.
      have hji : j = i := (Fin.castSucc_injective _ hij).symm
      subst hji
      have hkl : l = k := by
        rcases hj with hj | ⟨-, hj⟩
        · exact Option.some.inj (hj.2.symm.trans hi.2)
        · rw [hi.1] at hj
          cases hj
      subst hkl
      exact .inr (.replaced _ _ delay ha (Function.update_self _ _ _))
    · exact .inl (Function.update_of_ne hij _ _)
  | drop j ha _ hw =>
    subst hw
    by_cases hij : i.castSucc = j.castSucc
    · rw [← hij, hi.2] at ha
      exact .inr (.cancelled _ _ ha)
    · exact .inl (Function.update_of_ne hij _ _)
  | wake _ hstate _ =>
    rw [hstate]
    exact .inl (Function.update_of_ne (Fin.castSucc_lt_last i).ne _ _)
  | halt hl hstate _ =>
    refine .inr (.stopped _ _ hl ?_)
    rw [hstate]
    show w.state.lifecycle.step .stop ≠ .running
    rw [hl]
    nofun
  | serve n j hn hl hslot =>
    by_cases hij : i.castSucc = j
    · subst hij
      refine .inr (.run n _ (State.dueSlot_eq_some hslot).2 ?_ (firings_observeFired hi.2 _))
      rw [List.getElem?_set_self (List.getElem?_eq_some_iff.1 hn).1, hi.2]
    · rw [observeFired_timers]
      exact .inl (Function.update_of_ne hij _ _)

/-- A callback is only ever called for a slot that held it until then and that is due. -/
theorem TimerStep.firings_cases (h : w.Timed) (hs : TimerStep w a w') :
    firings w'.state.history = firings w.state.history ∨
      ∃ n i k, a = .fire n ∧ w.state.Holds i k ∧ (w.state.timers i.castSucc).due ≤ w.state.now ∧
        (w'.state.timers i.castSucc).active = false ∧
        firings w'.state.history =
          (k, (w.state.timers i.castSucc).due, w.state.now) :: firings w.state.history := by
  cases hs with
  | same hs _ _ | lifecycle hs _ _ => exact .inl hs.firings
  | hold j l delay _ _ _ hw | drop j _ _ hw =>
    subst hw
    exact .inl rfl
  | wake _ hstate _ | halt _ hstate _ =>
    rw [hstate]
    exact .inl rfl
  | serve n j hn hl hslot =>
    obtain ⟨hact, hdue⟩ := State.dueSlot_eq_some hslot
    cases j using Fin.lastCases with
    | last =>
      -- The wake slot has no callback.
      refine .inl ?_
      unfold observeFired
      rw [h.slots.wake]
      rfl
    | cast j =>
      obtain ⟨k, hk⟩ := Option.ne_none_iff_exists'.1 (h.slots.named j hact)
      refine .inr ⟨n, j, k, rfl, ⟨hact, hk⟩, hdue, ?_, firings_observeFired hk _⟩
      rw [observeFired_timers]
      simp [State.setTimer]
  | _ => exact .inl rfl

/-- A `Fire` returns in the running state only when no active slot is due. -/
theorem TimerStep.fire_returns (h : w.Timed) (hs : TimerStep w (.fire n) w')
    (hl : w.state.lifecycle = .running) (hlen : w'.fires.length < w.fires.length)
    (i : Fin (c.timerCapacity + 1)) (hi : (w.state.timers i).active = true) :
    w.state.now < (w.state.timers i).due := by
  cases hs with
  | finish _ _ _ hslot => exact State.lt_due_of_dueSlot_eq_none hslot hi (h.slots.real i hi)
  | leave _ _ hne | lifecycle _ hne _ => exact absurd hl hne
  | serve =>
    rw [List.length_set] at hlen
    exact absurd hlen (Nat.lt_irrefl _)
  | same _ _ hf | wake _ _ hf | halt _ _ hf =>
    rw [hf] at hlen
    exact absurd hlen (Nat.lt_irrefl _)
  | hold _ _ _ ha | drop _ ha => rcases ha with ha | ha <;> cases ha

/-- The answer to a request: full exactly when every slot is held by another callback. -/
theorem timerSlot_full_iff [DecidableEq κ] {s : State c ε κ ρ} (hl : s.lifecycle = .running)
    {delay : Nat} (hd : delay ≠ 0) (k : κ) :
    (s.timerSlot delay (some k)).1 = .full ↔
      ∀ i : Fin c.timerCapacity, (s.timers i.castSucc).active = true ∧
        (s.timers i.castSucc).callback ≠ some k := by
  have hslot : (s.timerSlot delay (some k)).1 = .full ↔
      s.findSlot k (List.finRange c.timerCapacity) none = none := by
    unfold State.timerSlot
    rw [if_neg (not_not.2 hl), if_neg hd]
    dsimp only
    cases s.findSlot k (List.finRange c.timerCapacity) none with
    | none => exact ⟨fun _ => rfl, fun _ => rfl⟩
    | some i => exact ⟨nofun, nofun⟩
  rw [hslot, State.findSlot_eq_none]
  constructor
  · intro h i
    obtain ⟨hact, hheld⟩ := h.2 i (List.mem_finRange i)
    exact ⟨hact, fun hk => hheld ⟨hact, hk⟩⟩
  · intro h
    exact ⟨rfl, fun i _ => ⟨(h i).1, fun hheld => (h i).2 hheld.2⟩⟩

/-- Timer multiplexing is exact: what holds of a system and of every action it can take next. -/
structure TimersExact [DecidableEq μ] [DecidableEq κ] (w : System c ε κ ρ) : Prop where
  /-- A callback identity has at most one active slot. -/
  unique : ∀ i j, (w.state.timers i).active = true → (w.state.timers j).active = true →
    (w.state.timers i).callback = (w.state.timers j).callback → i = j
  /-- With no `Fire` in progress, the platform timer stands for the earliest active slot. -/
  armed : w.fires = [] → w.state.ArmedFor
  /-- An accepted request is due `delay` from now, saturating, and no other slot changes. -/
  accepted : ∀ delay k, (w.state.timerSlot delay (some k)).1 = .ok →
    ∃ i : Fin c.timerCapacity,
      (w.state.timerSlot delay (some k)).2.timers =
        Function.update w.state.timers i.castSucc ⟨true, after w.state.now delay, some k⟩
  /-- A request stays in its slot until it is left in one of the four ways. -/
  left : ∀ a i k, w.state.Holds i k →
    (w.act a).state.timers i.castSucc = w.state.timers i.castSucc ∨
      Left w i k (w.state.timers i.castSucc).due a (w.act a)
  /-- A callback is called only for the slot that held it, once, when it is due. -/
  called : ∀ a, firings (w.act a).state.history = firings w.state.history ∨
    ∃ n i k, a = .fire n ∧ w.state.Holds i k ∧ (w.state.timers i.castSucc).due ≤ w.state.now ∧
      ((w.act a).state.timers i.castSucc).active = false ∧
      firings (w.act a).state.history =
        (k, (w.state.timers i.castSucc).due, w.state.now) :: firings w.state.history
  /-- A `Fire` that returns in the running state left no active slot due. -/
  returns : ∀ n, w.state.lifecycle = .running → (w.act (.fire n)).fires.length < w.fires.length →
    ∀ i, (w.state.timers i).active = true → w.state.now < (w.state.timers i).due
  /-- A valid request is refused with full exactly when every slot is held by another callback. -/
  full : ∀ delay k, w.state.lifecycle = .running → delay ≠ 0 →
    ((w.state.timerSlot delay (some k)).1 = .full ↔
      ∀ i : Fin c.timerCapacity, (w.state.timers i.castSucc).active = true ∧
        (w.state.timers i.castSucc).callback ≠ some k)
  /-- A refusal for want of a slot is counted and changes nothing else. -/
  refused : ∀ delay k, (w.state.timerSlot delay (some k)).1 = .full →
    (w.state.timerSlot delay (some k)).2 = w.state.withStatistics
      { w.state.statistics with timerOverflows := w.state.statistics.timerOverflows + 1 }

/-- In every run, whatever the callbacks and the interrupts do and whenever the platform timer fires. -/
theorem timers_exact [DecidableEq μ] [DecidableEq κ] (actions : List (Action μ ε κ ρ)) :
    TimersExact (runs {} actions : System c ε κ ρ) := by
  obtain ⟨hplaced, htimed⟩ := runs_induction (c := c) (P := Timed) timed_initial
    (fun w a hp ht => ht.step (act_timerStep hp a)) actions
  generalize (runs {} actions : System c ε κ ρ) = w at hplaced htimed
  have hstep := fun a => act_timerStep hplaced a
  refine ⟨?_, htimed.armed, ?_, fun a i k hi => (hstep a).left hi,
    fun a => (hstep a).firings_cases htimed, fun n hl hlen => (hstep _).fire_returns htimed hl hlen,
    fun delay k hl hd => timerSlot_full_iff hl hd k, ?_⟩
  · intro i j hi hj hk
    cases i using Fin.lastCases with
    | last =>
      cases j using Fin.lastCases with
      | last => rfl
      | cast j => exact absurd (hk.symm.trans htimed.slots.wake) (htimed.slots.named j hj)
    | cast i =>
      cases j using Fin.lastCases with
      | last => exact absurd (hk.trans htimed.slots.wake) (htimed.slots.named i hi)
      | cast j => rw [htimed.slots.unique i j hi hj hk]
  · intro delay k hok
    rcases State.timerSlot_cases (s := w.state) delay (some k) with
      ⟨hne, -⟩ | ⟨hfull, -⟩ | ⟨l, i, hl, -, -, heq⟩
    · exact absurd hok hne
    · rw [hok] at hfull
      cases hfull
    · cases hl
      rw [heq]
      exact ⟨i, rfl⟩
  · intro delay k hfull
    rcases State.timerSlot_cases (s := w.state) delay (some k) with
      ⟨-, hne, -⟩ | ⟨-, heq⟩ | ⟨l, i, -, -, -, heq⟩
    · exact absurd hfull hne
    · exact heq
    · rw [heq] at hfull
      cases hfull

end System

end DaveOs.Schedule
