import DaveOs.Schedule.Placement

/-!
# What an action does to the events

The books kept in the history: the records accepted, taken out by the loop, discarded, and handed to
modules. `EventStep` lists once all that can happen to them (`act_eventStep`).
-/

namespace DaveOs.Schedule

variable {μ ε κ ρ : Type} {c : Config μ}

section Books

variable {n : Nat}

/-- The records of the posts answered ok, newest first. -/
def accepted (history : List (Observation n μ ε κ)) : List (EventRecord μ ε) :=
  history.filterMap fun o =>
    match o with
    | .accepted record => some record
    | _ => none

/-- The records the loop took out to deliver, newest first. -/
def picked (history : List (Observation n μ ε κ)) : List (EventRecord μ ε) :=
  history.filterMap fun o =>
    match o with
    | .picked record => some record
    | _ => none

/-- The records discarded from the queue. -/
def discarded (history : List (Observation n μ ε κ)) : List (EventRecord μ ε) :=
  history.flatMap fun o =>
    match o with
    | .discarded records => records
    | _ => []

/-- The calls of event handlers, newest first. -/
def delivered (history : List (Observation n μ ε κ)) : List (μ × EventRecord μ ε) :=
  history.filterMap fun o =>
    match o with
    | .delivered m record => some (m, record)
    | _ => none

end Books

/-- The event side of two systems is the same. -/
structure SameEvents [DecidableEq μ] (w w' : System c ε κ ρ) : Prop where
  events : w'.state.events = w.state.events
  accepted : accepted w'.state.history = accepted w.state.history
  picked : picked w'.state.history = picked w.state.history
  discarded : discarded w'.state.history = discarded w.state.history
  delivered : delivered w'.state.history = delivered w.state.history
  pending : w'.main.pending = w.main.pending

namespace System

variable [DecidableEq μ]
variable {sleep : Bool} {observed : Nat}

/-- Everything that can happen to the events. -/
inductive EventStep (w : System c ε κ ρ) : Action μ ε κ ρ → System c ε κ ρ → Prop
  | same {a : Action μ ε κ ρ} {w' : System c ε κ ρ} : SameEvents w w' → EventStep w a w'
  | accept {a : Action μ ε κ ρ} (v : ε) (sender : Option μ) : w.state.lifecycle.acceptsWork = true →
      EventStep w a { w with state := w.state.accept ⟨v, sender, w.state.now⟩ }
  | pick {sleep : Bool} (observed : Nat) (j : Fin w.state.events.length) :
      w.main = .selecting observed → w.state.selectEvent = some j →
      EventStep w (.step sleep)
        { w with
          state := { w.state with events := swapRemove w.state.events j }.observe
            (.picked (w.state.events.get j))
          main := .delivering (w.state.events.get j) c.modules }
  | deliver {sleep : Bool} (record : EventRecord μ ε) (m : μ) (rest : List μ) :
      w.main = .delivering record (m :: rest) → record.sender ≠ some m →
      EventStep w (.step sleep)
        { w with
          state := w.state.observe (.delivered m record)
          main := .receiving record rest }
  | stop {sleep : Bool} : w.main = .stopping →
      EventStep w (.step sleep) { w with state := w.state.halt, main := .quiescing }
  | fail {sleep : Bool} (status : Status) (run : Bool) : w.main = .settling status run →
      status ≠ .ok →
      EventStep w (.step sleep)
        { w with state := w.state.settle status, main := .flushing .failedInit }

variable {w w' : System c ε κ ρ} {a : Action μ ε κ ρ}

theorem Called.eventStep {kind : Option CallbackKind} {x : Call μ ε κ ρ} (h : Called kind w x w') :
    EventStep w a w' := by
  cases h with
  | task i | command => exact .same ⟨rfl, rfl, rfl, rfl, rfl, rfl⟩
  | request x s' hr =>
    cases hr with
    | post v sender hw => exact .accept v sender hw
    | _ => exact .same ⟨rfl, rfl, rfl, rfl, rfl, rfl⟩

theorem Acts.eventStep [DecidableEq κ] (ha : Acts w a w') : EventStep w a w' := by
  cases ha with
  | called kind x => exact (call_called kind x).eventStep
  | moved m _ _ hp => exact .same ⟨rfl, rfl, rfl, rfl, rfl, hp⟩
  | pick observed j sleep _ hm hj => exact .pick observed j hm hj
  | deliver record m rest sleep _ hm hsender => exact .deliver record m rest hm hsender
  | drain record rest consumer _ hp => exact .same ⟨rfl, rfl, rfl, rfl, rfl, hp.symm⟩
  | lifecycle l r m _ _ _ _ _ _ hp hp' => exact .same ⟨rfl, rfl, rfl, rfl, rfl, hp'.trans hp.symm⟩
  | use m _ hm _ hp => exact .same ⟨rfl, rfl, rfl, rfl, rfl, by rw [hm]; exact hp⟩
  | fail status run sleep _ hm _ hok => exact .fail status run hm hok
  | halt sleep _ hm => exact .stop hm
  | serve n i =>
    unfold observeFired
    split <;> exact .same ⟨rfl, rfl, rfl, rfl, rfl, rfl⟩
  | sample _ hm | take observed i _ hm | poll observed _ hm | wake observed sleep _ hm
  | defaults run _ hm | start _ hm => exact .same ⟨rfl, rfl, rfl, rfl, rfl, by rw [hm]; rfl⟩
  | _ => exact .same ⟨rfl, rfl, rfl, rfl, rfl, rfl⟩

theorem act_eventStep [DecidableEq κ] (h : w.Placed) (a : Action μ ε κ ρ) : EventStep w a (w.act a) :=
  (act_acts h a).eventStep

end System

end DaveOs.Schedule
