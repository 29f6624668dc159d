import DaveOs.Schedule.Placement

/-!
# What an action does to the tasks

The tasks, the activations of `RunTask` on the stack and the iterations since a task was last scheduled.
`TaskStep` lists once all that can happen to them (`act_taskStep`).
-/

namespace DaveOs.Schedule

variable {μ ε κ ρ : Type} {c : Config μ}

/-- The iterations a task was taken for since it was last scheduled or the run started. -/
def iterations {n : Nat} (i : Fin n) : List (Observation n μ ε κ) → Nat
  | [] => 0
  | .taken j _ _ :: rest => if j = i then iterations i rest + 1 else iterations i rest
  | .scheduled j :: rest => if j = i then 0 else iterations i rest
  | .started :: _ => 0
  | _ :: rest => iterations i rest

/-- The activations of `RunTask` on a stack, each with the generation it was taken at. -/
def frames {n : Nat} (stack : List (Activation n)) : List (Fin n × Nat) :=
  stack.filterMap fun x =>
    match x with
    | .task f => some (f.task, f.generation)
    | .command => none

/-- The task side of two systems is the same. -/
structure SameTasks (w w' : System c ε κ ρ) : Prop where
  tasks : w'.state.tasks = w.state.tasks
  frames : frames w'.stack = frames w.stack
  iterations : ∀ i, iterations i w'.state.history = iterations i w.state.history
  taken : ∀ i t n, w'.state.history ≠ .taken i t n :: w.state.history

theorem ne_cons_self {α : Type} (x : α) (l : List α) : l ≠ x :: l := fun h =>
  absurd (congrArg List.length h) (by simp)

theorem SameTasks.of_eq {w w' : System c ε κ ρ} (ht : w'.state.tasks = w.state.tasks)
    (hf : Schedule.frames w'.stack = Schedule.frames w.stack)
    (hh : w'.state.history = w.state.history) : SameTasks w w' :=
  ⟨ht, hf, fun i => by rw [hh], fun i t n h => ne_cons_self _ _ (hh.symm.trans h)⟩

namespace System

/-- A task is taken for one iteration: it is due and not on the stack. -/
structure Takes (w : System c ε κ ρ) (i : Fin c.tasks) (w' : System c ε κ ρ) : Prop where
  running : w.state.lifecycle = .running
  active : (w.state.tasks i).active = true
  due : (w.state.tasks i).due ≤ w.state.now
  idle : (w.state.tasks i).executing = false ∨ w.stack = []
  state : w'.state = w.state.takeTask i
  frames : frames w'.stack = (i, (w.state.tasks i).generation) :: frames w.stack

/-- Everything that can happen to the tasks. -/
inductive TaskStep (w w' : System c ε κ ρ) : Prop
  | same : SameTasks w w' → w'.state.lifecycle = w.state.lifecycle → TaskStep w w'
  /-- The lifecycle moves, not into the running state and not back. -/
  | lifecycle : SameTasks w w' → w'.state.lifecycle ≠ .running →
      (w'.state.lifecycle.early = true → w.state.lifecycle.early = true) → TaskStep w w'
  | defaults : w'.state = w.state.applyDefaults → frames w'.stack = frames w.stack →
      w.state.lifecycle = .initializing → TaskStep w w'
  | start : w'.state = w.state.start → frames w'.stack = frames w.stack →
      w.state.lifecycle = .ready → TaskStep w w'
  | discard : (∀ i, (w'.state.tasks i) = { w.state.tasks i with active := false }) →
      frames w'.stack = frames w.stack → w'.state.lifecycle.early = false →
      (∀ i t n, w'.state.history ≠ .taken i t n :: w.state.history) → TaskStep w w'
  | schedule (i : Fin c.tasks) (delay : Nat) (mode : Mode) : (mode = .repeats → delay ≠ 0) →
      w'.state = w.state.reschedule i delay mode → frames w'.stack = frames w.stack → TaskStep w w'
  | cancel (i : Fin c.tasks) : w'.state = w.state.deactivate i → frames w'.stack = frames w.stack →
      TaskStep w w'
  | take (i : Fin c.tasks) : Takes w i w' → TaskStep w w'
  | finish (f : Frame c.tasks) (start duration : Nat) :
      frames w.stack = (f.task, f.generation) :: frames w'.stack →
      w'.state = w.state.finishTask f start duration → TaskStep w w'

variable {w w' : System c ε κ ρ}

theorem TaskStep.of_eq (ht : w'.state.tasks = w.state.tasks) (hf : frames w'.stack = frames w.stack)
    (hh : w'.state.history = w.state.history) (hl : w'.state.lifecycle = w.state.lifecycle) :
    TaskStep w w' := .same (.of_eq ht hf hh) hl

theorem Called.taskStep {kind : Option CallbackKind} {x : Call μ ε κ ρ} (h : Called kind w x w') :
    TaskStep w w' := by
  cases h with
  | task i _ _ hrun hi =>
    have hidle := ((Scan.earliest_spec _ _ _).entry i hi).2.1
    unfold State.idleTask at hidle
    split at hidle
    · next hready =>
      exact .take i ⟨hrun, hready.1, hready.2.2, .inl (by simpa using hready.2.1), rfl, rfl⟩
    · cases hidle
  | command => exact .of_eq rfl rfl rfl rfl
  | request x s' hr =>
    cases hr with
    | post v sender => exact .same ⟨rfl, rfl, fun _ => rfl, fun _ _ _ h => nomatch h⟩ rfl
    | schedule _ _ i delay mode _ hd => exact .schedule i delay mode hd rfl rfl
    | cancel _ _ i => exact .cancel i rfl rfl
    | _ => exact .of_eq rfl rfl rfl rfl

theorem frames_addNested (duration : Nat) (stack : List (Activation c.tasks)) :
    frames (addNested duration stack) = frames stack := by
  unfold addNested
  split <;> rfl

theorem Acts.taskStep [DecidableEq μ] [DecidableEq κ] {a : Action μ ε κ ρ} (ha : Acts w a w') :
    TaskStep w w' := by
  cases ha with
  | called kind x => exact (call_called kind x).taskStep
  | enter f rest sleep hs | answer rest hs => exact .of_eq rfl (by rw [hs]; rfl) rfl rfl
  | finish f rest start duration sleep hs => exact .finish f _ _ (by rw [hs]; rfl) rfl
  | leave f rest start status sleep hs =>
    refine .of_eq rfl ?_ rfl rfl
    rw [hs]
    show _ :: frames (addNested _ rest) = _
    rw [frames_addNested]
    rfl
  | pick observed j sleep | deliver record m rest sleep =>
    exact .same ⟨rfl, rfl, fun _ => rfl, fun _ _ _ h => nomatch h⟩ rfl
  | take observed i hs _ hl hi =>
    have hready := ((Scan.earliest_spec _ _ _).entry i hi).2.1
    unfold State.readyTask at hready
    split at hready
    · next hdue => exact .take i ⟨hl, hdue.1, hdue.2, .inr hs, rfl, rfl⟩
    · cases hready
  | lifecycle l r m _ hl _ hrun hearly =>
    subst hl
    exact .lifecycle (.of_eq rfl rfl rfl) hrun hearly
  | defaults run _ _ hl => exact .defaults rfl rfl hl
  | fail status run sleep _ _ hl hok =>
    unfold State.settle
    rw [if_neg hok]
    refine .discard (fun _ => rfl) rfl ?_ (fun _ _ _ h => nomatch h)
    exact congrArg (fun l => (Lifecycle.step l .fail).early) hl
  | start _ _ hl => exact .start rfl rfl hl
  | halt sleep _ _ hl =>
    refine .discard (fun _ => rfl) rfl ?_ (fun _ _ _ h => nomatch h)
    exact congrArg (fun l => (Lifecycle.step l .stop).early) hl
  | serve n i =>
    unfold observeFired
    split
    · exact .of_eq rfl rfl rfl rfl
    · exact .same ⟨rfl, rfl, fun _ => rfl, fun _ _ _ h => nomatch h⟩ rfl
  | _ => exact .of_eq rfl rfl rfl rfl

theorem act_taskStep [DecidableEq μ] [DecidableEq κ] (h : w.Placed) (a : Action μ ε κ ρ) :
    TaskStep w (w.act a) := (act_acts h a).taskStep

end System

end DaveOs.Schedule
