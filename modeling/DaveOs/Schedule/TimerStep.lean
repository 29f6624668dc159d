import DaveOs.Schedule.Placement

/-!
# What an action does to the timers

`TimerStep` lists once all that can happen to the timer slots, the platform timer and the `Fire`s in
progress (`act_timerStep`). Every other action is a frame: the slots, the platform timer, the clock and
the callbacks called so far stay as they are.
-/

namespace DaveOs.Schedule

variable {μ ε κ ρ : Type} {c : Config μ}

/-- The timer callbacks called so far, newest first, each with its due time and the time of the call. -/
def firings {n : Nat} (history : List (Observation n μ ε κ)) : List (κ × Nat × Nat) :=
  history.filterMap fun o =>
    match o with
    | .fired k due now => some (k, due, now)
    | _ => none

/-- The timer side of two states is the same. -/
structure SameTimers (s s' : State c ε κ ρ) : Prop where
  timers : s'.timers = s.timers
  armed : s'.armed = s.armed
  now : s'.now = s.now
  firings : firings s'.history = firings s.history

namespace SameTimers

theorem refl (s : State c ε κ ρ) : SameTimers s s := ⟨rfl, rfl, rfl, rfl⟩

theorem takeTask (s : State c ε κ ρ) (i : Fin c.tasks) : SameTimers s (s.takeTask i) :=
  ⟨rfl, rfl, rfl, rfl⟩

theorem settle (s : State c ε κ ρ) (status : Status) : SameTimers s (s.settle status) := by
  unfold State.settle
  split
  · exact ⟨rfl, rfl, rfl, rfl⟩
  · exact ⟨rfl, rfl, rfl, rfl⟩

end SameTimers

namespace System

/-- Everything that can happen to the timers. -/
inductive TimerStep (w : System c ε κ ρ) : Action μ ε κ ρ → System c ε κ ρ → Prop
  | same {a : Action μ ε κ ρ} {w' : System c ε κ ρ} : SameTimers w.state w'.state →
      w'.state.lifecycle = w.state.lifecycle → w'.fires = w.fires → TimerStep w a w'
  | lifecycle {a : Action μ ε κ ρ} {w' : System c ε κ ρ} : SameTimers w.state w'.state →
      w.state.lifecycle ≠ .running → w'.fires = w.fires → TimerStep w a w'
  | advance {delay : Nat} : TimerStep w (.advance delay)
      { w with state := { w.state with now := w.state.now + delay } }
  | hold {a : Action μ ε κ ρ} {w' : System c ε κ ρ} (i : Fin c.timerCapacity) (k : κ) (delay : Nat) :
      a.Calls (.timer delay (some k)) → w.state.lifecycle = .running →
      (w.state.Holds i k ∨
        ((∀ j, ¬ w.state.Holds j k) ∧ (w.state.timers i.castSucc).active = false)) →
      w' = { w with state := w.state.holdTimer i k (after w.state.now delay) } → TimerStep w a w'
  | drop {a : Action μ ε κ ρ} {w' : System c ε κ ρ} (i : Fin c.timerCapacity) :
      a.Calls (.cancelTimer (w.state.timers i.castSucc).callback) → w.state.lifecycle = .running →
      w' = { w with state := w.state.dropTimer i } → TimerStep w a w'
  | wake {a : Action μ ε κ ρ} {w' : System c ε κ ρ} : w.state.lifecycle = .running →
      w'.state = w.state.prepareIdle.2 → w'.fires = w.fires → TimerStep w a w'
  | halt {a : Action μ ε κ ρ} {w' : System c ε κ ρ} : w.state.lifecycle = .running →
      w'.state = w.state.halt → w'.fires = w.fires → TimerStep w a w'
  | expire : TimerStep w .expire
      { w with state := { w.state with armed := none }, fires := w.fires ++ [.checking] }
  | leave (n : Nat) : w.fires[n]? = some .checking → w.state.lifecycle ≠ .running →
      TimerStep w (.fire n) { w with fires := w.fires.eraseIdx n }
  | finish (n : Nat) : w.fires[n]? = some .checking → w.state.lifecycle = .running →
      w.state.dueSlot = none →
      TimerStep w (.fire n) { w with state := w.state.rearm, fires := w.fires.eraseIdx n }
  | serve (n : Nat) (i : Fin (c.timerCapacity + 1)) : w.fires[n]? = some .checking →
      w.state.lifecycle = .running → w.state.dueSlot = some i →
      TimerStep w (.fire n)
        { w with
          state := observeFired (w.state.timers i)
            (w.state.setTimer i { w.state.timers i with active := false })
          fires := w.fires.set n (.calling (w.state.timers i).callback) }
  | fired (n : Nat) (callback : Option κ) : w.fires[n]? = some (.calling callback) →
      TimerStep w (.fired n) { w with state := w.state.notify, fires := w.fires.set n .checking }

variable {w w' : System c ε κ ρ} {a : Action μ ε κ ρ}

theorem Called.timerStep {kind : Option CallbackKind} {x : Call μ ε κ ρ} (ha : a.Calls x)
    (h : Called kind w x w') : TimerStep w a w' := by
  cases h with
  | task i => exact .same (.takeTask _ i) rfl rfl
  | command => exact .same (.refl _) rfl rfl
  | request x s' hr =>
    cases hr with
    | hold i k delay hrun hi => exact .hold i k delay ha hrun hi rfl
    | drop i callback hrun hi =>
      subst hi
      exact .drop i ha hrun rfl
    | _ => exact .same ⟨rfl, rfl, rfl, rfl⟩ rfl rfl

/-- Of the steps of the scheduler thread only the one before idle and the one after the loop change a
timer. -/
theorem Acts.timerStep [DecidableEq μ] [DecidableEq κ] (ha : Acts w a w') : TimerStep w a w' := by
  cases ha with
  | advance delay => exact .advance
  | called kind x hx => exact (call_called kind x).timerStep hx
  | wake observed sleep _ _ hl => exact .wake hl rfl rfl
  | lifecycle l r m _ hl hne => exact .lifecycle ⟨rfl, rfl, rfl, rfl⟩ (hl ▸ hne) rfl
  | fail status run sleep _ _ hl => exact .lifecycle (.settle _ _) (by rw [hl]; nofun) rfl
  | start _ _ hl => exact .lifecycle ⟨rfl, rfl, rfl, rfl⟩ (by rw [hl]; nofun) rfl
  | halt sleep _ _ hl => exact .halt hl rfl rfl
  | expire => exact .expire
  | drop n hn hl => exact .leave n hn hl
  | rearm n hn hl hslot => exact .finish n hn hl hslot
  | serve n i hn hl hslot => exact .serve n i hn hl hslot
  | fired n callback hn => exact .fired n callback hn
  | _ => exact .same ⟨rfl, rfl, rfl, rfl⟩ rfl rfl

theorem act_timerStep [DecidableEq μ] [DecidableEq κ] (h : w.Placed) (a : Action μ ε κ ρ) :
    TimerStep w a (w.act a) := (act_acts h a).timerStep

end System

end DaveOs.Schedule
