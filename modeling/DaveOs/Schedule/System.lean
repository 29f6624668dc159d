import DaveOs.Schedule.State

/-!
# The run loop, its callbacks and the interrupts

Who executes what: the scheduler thread with its place in `init` or `run` (`Main`) and the task and
command callbacks on its stack, and the platform timer callbacks in progress (`FireState`). Each guarded
section is one action, and so is each unguarded read that another section can fall in front of. The
callbacks are not modelled: a callback in progress may make any call at any time and return any answer,
and an interrupt may make any call at any time. An action out of place changes nothing.
-/

namespace DaveOs.Schedule

open Logging

/-- How far `RunTask` is: before the callback's start time is read, in the callback, and after it. -/
inductive Phase
  | entering
  | running (start : Nat)
  | leaving (start duration : Nat)
  deriving DecidableEq, Repr

/-- One activation of `RunTask`. -/
structure Frame (n : Nat) where
  task : Fin n
  scheduled : Nat
  generation : Nat
  nested : Nat := 0
  phase : Phase := .entering

/-- What is on the scheduler thread's stack above the loop. -/
inductive Activation (n : Nat)
  | task (frame : Frame n)
  | command

inductive Consumer
  | loop | shutdown | failedInit
  deriving DecidableEq, Repr

/-- Where the scheduler thread is, callbacks on the stack apart. -/
inductive Main (μ ε : Type)
  | outside
  /-- `run` on a fresh scheduler, before the first section of `init`. -/
  | launching
  | binding (run : Bool)
  | setup (stage2 : Bool) (rest : List μ) (run : Bool)
  /-- In a module's init callback; `rest` are the modules after it. -/
  | settingUp (stage2 : Bool) (rest : List μ) (run : Bool)
  | settling (status : Status) (run : Bool)
  | starting
  | top
  | selecting (observed : Nat)
  | delivering (record : EventRecord μ ε) (rest : List μ)
  /-- In a module's event callback. -/
  | receiving (record : EventRecord μ ε) (rest : List μ)
  | dispatching
  | polling (observed : Nat)
  /-- In a log subscriber's callback while some remain. -/
  | publishing (remaining : Nat) (consumer : Consumer)
  | consulting (observed : Nat) (sleep : Bool) (rest : List μ)
  /-- In a module's can_sleep callback. -/
  | asking (observed : Nat) (sleep : Bool) (rest : List μ)
  | deciding (observed : Nat) (sleep : Bool)
  | idling (deadline : Nat) (sleep : Bool) (observed : Nat)
  | stopping
  | quiescing
  | flushing (consumer : Consumer)
  | closing

/-- Where a consumer goes on when the log queue is empty. -/
def Consumer.next {μ ε : Type} : Consumer → Main μ ε
  | .loop => .top
  | .shutdown => .closing
  | .failedInit => .outside

/-- How far a `Fire` is: before its guarded section, or in the callback it took from a slot. -/
inductive FireState (κ : Type)
  | checking
  | calling (callback : Option κ)

/-- A scheduler with its threads of control. -/
structure System {μ : Type} (c : Config μ) (ε κ ρ : Type) where
  state : State c ε κ ρ := {}
  main : Main μ ε := .outside
  stack : List (Activation c.tasks) := []
  fires : List (FireState κ) := []

/-- The calls a callback or an interrupt can make. -/
inductive Call (μ ε κ ρ : Type)
  | schedule (module : μ) (index : Nat) (delay : Nat) (mode : Mode)
  | cancel (module : μ) (index : Nat)
  | post (value : Option ε) (sender : Option μ)
  | timer (delay : Nat) (callback : Option κ)
  | cancelTimer (callback : Option κ)
  | stop
  | yield
  | resetStatistics
  | log (record : ρ) (truncated : Bool)
  | invoke

inductive Action (μ ε κ ρ : Type)
  /-- Time passes. -/
  | advance (delay : Nat)
  /-- The application calls `init` or `run`. -/
  | init
  | run
  /-- The scheduler thread takes its next step; `sleep` is the platform's `can_sleep`. -/
  | step (sleep : Bool)
  /-- The callback on the scheduler thread makes a call. -/
  | call (call : Call μ ε κ ρ)
  /-- The callback returns, an init callback with a status and a can_sleep callback with an answer. -/
  | returns (status : Status) (sleep : Bool)
  /-- An interrupt makes a call. -/
  | interrupt (call : Call μ ε κ ρ)
  /-- The platform timer calls `Fire`. -/
  | expire
  /-- A `Fire` takes its guarded section. -/
  | fire (index : Nat)
  /-- The callback of a `Fire` returns. -/
  | fired (index : Nat)

namespace State

variable {μ ε κ ρ : Type} {c : Config μ}

/-- The due time of a task the loop may run now. -/
def readyTask (s : State c ε κ ρ) (i : Fin c.tasks) : Option Nat :=
  if (s.tasks i).active ∧ (s.tasks i).due ≤ s.now then some (s.tasks i).due else none

/-- The due time of a task a yield may run now: one that is not on the stack already. -/
def idleTask (s : State c ε κ ρ) (i : Fin c.tasks) : Option Nat :=
  if (s.tasks i).active ∧ ¬ (s.tasks i).executing ∧ (s.tasks i).due ≤ s.now then
    some (s.tasks i).due
  else none

/-- The due time of a queued event the loop may deliver now. -/
def readyEvent (s : State c ε κ ρ) (j : Fin s.events.length) : Option Nat :=
  if (s.events.get j).due ≤ s.now then some (s.events.get j).due else none

def selectTask (s : State c ε κ ρ) : Nat × Option (Fin c.tasks) :=
  Scan.earliest s.readyTask kForever (List.finRange c.tasks)

/-- The loop's scan of the events, for one strictly earlier than the task found. -/
def selectEvent (s : State c ε κ ρ) : Option (Fin s.events.length) :=
  (Scan.earliest s.readyEvent s.selectTask.1 (List.finRange s.events.length)).2

/-- The section of `init` that activates the tasks with a default period. -/
def applyDefaults (s : State c ε κ ρ) : State c ε κ ρ :=
  { s with tasks := fun i =>
      let t := s.tasks i
      let period := (c.descriptor i).period
      if period ≠ 0 ∧ ¬ t.explicitlyScheduled then
        { t with active := true, mode := .repeats, interval := period, due := period }
      else t }

/-- The section of `run` before its loop: first due times count from here. -/
def start (s : State c ε κ ρ) : State c ε κ ρ :=
  { s with
    lifecycle := s.lifecycle.step .run
    tasks := fun i =>
      let t := s.tasks i
      if t.active then
        { t with due := after s.now t.interval, firstDue := after s.now t.interval }
      else t }.observe .started

def taskDue (s : State c ε κ ρ) (i : Fin c.tasks) : Option Nat :=
  if (s.tasks i).active then some (s.tasks i).due else none

/-- The section before idle: the wake slot is set for the tasks, and the deadline covers all slots. -/
def prepareIdle (s : State c ε κ ρ) : Nat × State c ε κ ρ :=
  let wake := (Scan.earliest s.taskDue kForever (List.finRange c.tasks)).1
  let s' := s.setTimer (Fin.last _) ⟨wake ≠ kForever, wake, none⟩
  ((Scan.earliest s'.timerDue wake (List.finRange _)).1, s'.rearm)

/-- Tasks are deactivated and events dropped. -/
def discardWork (s : State c ε κ ρ) : State c ε κ ρ :=
  { s with
    tasks := fun i => { s.tasks i with active := false }
    events := [] }.observe (.discarded s.events)

/-- The section of `run` after its loop. -/
def halt (s : State c ε κ ρ) : State c ε κ ρ :=
  { s with
    lifecycle := s.lifecycle.step .stop
    timers := fun i => { s.timers i with active := false }
    armed := none }.discardWork

/-- The last section of `init`. -/
def settle (status : Status) (s : State c ε κ ρ) : State c ε κ ρ :=
  if status = .ok then { s with lifecycle := s.lifecycle.step .ready }
  else { s with lifecycle := s.lifecycle.step .fail, failure := status }.discardWork

/-- The section at the end of `RunTask`. -/
def finishTask (f : Frame c.tasks) (start duration : Nat) (s : State c ε κ ρ) : State c ε κ ρ :=
  let t := s.tasks f.task
  let completed := if t.generation = f.generation then t.completed + 1 else t.completed
  let stats := (s.statistics.tasks f.task).add f.scheduled start duration f.nested
  { s.setTask f.task { t with executing := false, completed := completed } with
    statistics :=
      { s.statistics with tasks := Function.update s.statistics.tasks f.task stats } }

end State

namespace System

variable {μ ε κ ρ : Type} {c : Config μ}

def apply (f : State c ε κ ρ → State c ε κ ρ) (w : System c ε κ ρ) : System c ε κ ρ :=
  { w with state := f w.state }

def goto (m : Main μ ε) (w : System c ε κ ρ) : System c ε κ ρ := { w with main := m }

/-! ## Calls -/

/-- The kind of callback on top of the scheduler thread, if user code is running there. -/
def callback (w : System c ε κ ρ) : Option CallbackKind :=
  match w.stack with
  | .command :: _ => some .command
  | .task f :: _ =>
    match f.phase with
    | .running _ => some .task
    | _ => none
  | [] =>
    match w.main with
    | .outside => some .outside
    | .settingUp .. => some .initialization
    | .receiving .. => some .event
    | .publishing (_ + 1) _ => some .logging
    | .asking .. => some .idle
    | _ => none

/-- `TakeTask` and the entry of `RunTask`. -/
def beginTask (i : Fin c.tasks) (w : System c ε κ ρ) : System c ε κ ρ :=
  let t := w.state.tasks i
  { w with
    state := w.state.takeTask i
    stack := .task { task := i, scheduled := t.due, generation := t.generation } :: w.stack }

/-- `yield` from a callback of the given kind; interrupts have none. -/
def yield (kind : Option CallbackKind) (w : System c ε κ ρ) : Status × System c ε κ ρ :=
  let s := w.state
  if kind ≠ some .task then
    (.invalidContext, w.apply fun s => { s with statistics :=
      { s.statistics with invalidYields := s.statistics.invalidYields + 1 } })
  else if s.stopRequested ∨ s.lifecycle ≠ .running then (.notRunning, w)
  else
    match (Scan.earliest s.idleTask kForever (List.finRange c.tasks)).2 with
    | none => (.empty, w)
    | some i =>
      if c.yieldLimit ≤ s.taskDepth then
        (.depthLimit, w.apply fun s => { s with statistics :=
          { s.statistics with yieldDepthErrors := s.statistics.yieldDepthErrors + 1 } })
      else (.ok, w.beginTask i)

/-- `Invoke`: a command callback in its own context. -/
def invoke (kind : Option CallbackKind) (w : System c ε κ ρ) : Status × System c ε κ ρ :=
  if kind = none then (.invalidArgument, w)
  else if w.state.lifecycle ≠ .running then (.notRunning, w)
  else (.ok, { w with stack := .command :: w.stack })

/-- A section with a status, applied to the state. -/
def request (f : State c ε κ ρ → Status × State c ε κ ρ) (w : System c ε κ ρ) :
    Status × System c ε κ ρ :=
  ((f w.state).1, { w with state := (f w.state).2 })

/-- One call, from a callback of the given kind or from an interrupt. -/
def call [DecidableEq μ] [DecidableEq κ] (kind : Option CallbackKind) (x : Call μ ε κ ρ)
    (w : System c ε κ ρ) : Status × System c ε κ ρ :=
  match x with
  | .schedule module index delay mode => w.request (State.scheduleSlot module index delay mode)
  | .cancel module index => w.request (State.cancelSlot kind.isNone module index)
  | .post value sender => w.request (State.post value sender)
  | .timer delay callback => w.request (State.timerSlot delay callback)
  | .cancelTimer callback => w.request (State.cancelTimer callback)
  | .stop => w.request State.stop
  | .yield => w.yield kind
  | .resetStatistics => (.ok, w.apply State.resetStatistics)
  | .log record truncated => w.request (State.write record truncated)
  | .invoke => w.invoke kind

/-! ## The scheduler thread -/

/-- A log record is taken out for the subscribers, or the consumer goes on. -/
def drain (consumer : Consumer) (next : Main μ ε) (w : System c ε κ ρ) : System c ε κ ρ :=
  match c.logging, w.state.logger.take with
  | true, some (_, rest) =>
    { w with state := { w.state with logger := rest }, main := .publishing c.subscribers consumer }
  | _, _ => w.goto next

/-- The selection section: stop, or take the earliest event or task that is due. -/
def select (observed : Nat) (w : System c ε κ ρ) : System c ε κ ρ :=
  let s := w.state
  if s.stopRequested then w.goto .stopping
  else
    match s.selectEvent with
    | some j =>
      let record := s.events.get j
      { w with
        state := { s with events := swapRemove s.events j }.observe (.picked record)
        main := .delivering record c.modules }
    | none =>
      match s.selectTask.2 with
      | some i => (w.beginTask i).goto .dispatching
      | none => w.goto (.polling observed)

def beforeIdle (observed : Nat) (sleep : Bool) (w : System c ε κ ρ) : System c ε κ ρ :=
  let s := w.state
  if s.stopRequested then w.goto .top
  else if c.logging ∧ ¬ s.logger.empty then w.goto .top
  else { w with state := s.prepareIdle.2, main := .idling s.prepareIdle.1 sleep observed }

/-- The next step of the scheduler thread below its stack. -/
def loop [DecidableEq μ] (sleep : Bool) (w : System c ε κ ρ) : System c ε κ ρ :=
  match w.main with
  | .outside => w
  | .launching => (w.apply fun s => { s with lifecycle := s.lifecycle.step .init }).goto (.binding true)
  | .binding run => (w.apply State.applyDefaults).goto (.setup false c.modules run)
  | .setup stage2 (_ :: rest) run => w.goto (.settingUp stage2 rest run)
  | .setup false [] run => w.goto (.setup true c.modules run)
  | .setup true [] run => w.goto (.settling .ok run)
  | .settingUp .. => w
  | .settling status run =>
    (w.apply (State.settle status)).goto
      (if status ≠ .ok then .flushing .failedInit else if run then .starting else .outside)
  | .starting => (w.apply State.start).goto .top
  | .top => w.goto (.selecting w.state.sequence)
  | .selecting observed => w.select observed
  | .delivering _ [] => w.goto .top
  | .delivering record (m :: rest) =>
    if record.sender = some m then w.goto (.delivering record rest)
    else (w.apply (State.observe (.delivered m record))).goto (.receiving record rest)
  | .receiving .. => w
  | .dispatching => w.goto .top
  | .polling observed => w.drain .loop (.consulting observed sleep c.modules)
  | .publishing 0 consumer =>
    w.goto (if consumer = .loop then .top else .flushing consumer)
  | .publishing (_ + 1) _ => w
  | .consulting observed sleep (_ :: rest) => w.goto (.asking observed sleep rest)
  | .consulting observed sleep [] => w.goto (.deciding observed sleep)
  | .asking .. => w
  | .deciding observed sleep => w.beforeIdle observed sleep
  | .idling .. => w.goto .top
  | .stopping => (w.apply State.halt).goto .quiescing
  | .quiescing => if w.fires = [] then w.goto (.flushing .shutdown) else w
  | .flushing consumer => w.drain consumer consumer.next
  | .closing => (w.apply fun s => { s with lifecycle := s.lifecycle.step .stopped }).goto .outside

/-- The next step of the scheduler thread: `RunTask` around its callback, else the loop. -/
def step [DecidableEq μ] (sleep : Bool) (w : System c ε κ ρ) : System c ε κ ρ :=
  match w.stack with
  | [] => w.loop sleep
  | .command :: _ => w
  | .task f :: rest =>
    match f.phase with
    | .entering =>
      { w with
        state := { w.state with taskDepth := w.state.taskDepth + 1 }
        stack := .task { f with phase := .running w.state.now } :: rest }
    | .running _ => w
    | .leaving start duration => { w with state := w.state.finishTask f start duration, stack := rest }

/-- The nested time of the activation below grows by a finished one's duration. -/
def addNested (duration : Nat) : List (Activation c.tasks) → List (Activation c.tasks)
  | .task f :: rest => .task { f with nested := f.nested + duration } :: rest
  | stack => stack

def returns (status : Status) (sleep : Bool) (w : System c ε κ ρ) : System c ε κ ρ :=
  match w.stack with
  | .command :: rest => { w with stack := rest }
  | .task f :: rest =>
    match f.phase with
    | .running start =>
      let duration := w.state.now - start
      { w with
        state := { w.state with taskDepth := w.state.taskDepth - 1 }
        stack := .task { f with phase := .leaving start duration } :: addNested duration rest }
    | _ => w
  | [] =>
    match w.main with
    | .settingUp stage2 rest run =>
      w.goto (if status = .ok then .setup stage2 rest run else .settling status run)
    | .receiving record rest => w.goto (.delivering record rest)
    | .publishing (n + 1) consumer => w.goto (.publishing n consumer)
    | .asking observed before rest => w.goto (.consulting observed (before && sleep) rest)
    | _ => w

/-! ## The platform timer -/

/-- The platform calls `Fire`, once and not before the delay has passed. -/
def expire (w : System c ε κ ρ) : System c ε κ ρ :=
  match w.state.armed with
  | none => w
  | some alarm =>
    if alarm.since + alarm.delay ≤ w.state.now then
      { w with state := { w.state with armed := none }, fires := w.fires ++ [.checking] }
    else w

/-- What the observer sees when a slot is taken for its callback. -/
def observeFired (timer : Timer κ) (s : State c ε κ ρ) : State c ε κ ρ :=
  match timer.callback with
  | none => s
  | some k => s.observe (.fired k timer.due s.now)

/-- The guarded section of a `Fire`: it returns, or takes the earliest due slot for its callback. -/
def fire (k : Nat) (w : System c ε κ ρ) : System c ε κ ρ :=
  match w.fires[k]? with
  | some .checking =>
    if w.state.lifecycle ≠ .running then { w with fires := w.fires.eraseIdx k }
    else
      match w.state.dueSlot with
      | none => { w with state := w.state.rearm, fires := w.fires.eraseIdx k }
      | some i =>
        let timer := w.state.timers i
        { w with
          state := observeFired timer (w.state.setTimer i { timer with active := false })
          fires := w.fires.set k (.calling timer.callback) }
  | _ => w

/-- The callback of a `Fire` is done. -/
def fired (k : Nat) (w : System c ε κ ρ) : System c ε κ ρ :=
  match w.fires[k]? with
  | some (.calling _) => { w with state := w.state.notify, fires := w.fires.set k .checking }
  | _ => w

/-! ## Runs -/

/-- `init` called by the application. -/
def enterInit (w : System c ε κ ρ) : System c ε κ ρ :=
  match w.main, w.stack, w.state.lifecycle with
  | .outside, [], .fresh =>
    (w.apply fun s => { s with lifecycle := s.lifecycle.step .init }).goto (.binding false)
  | _, _, _ => w

/-- `run` called by the application. -/
def enterRun (w : System c ε κ ρ) : System c ε κ ρ :=
  match w.main, w.stack, w.state.used with
  | .outside, [], false =>
    (w.apply fun s => { s with used := true }).goto
      (match w.state.lifecycle with
        | .fresh => .launching
        | .ready => .starting
        | _ => .outside)
  | _, _, _ => w

/-- Time passes, and never reaches the sentinel. -/
def advance (delay : Nat) (w : System c ε κ ρ) : System c ε κ ρ :=
  if w.state.now + delay < kForever then
    w.apply fun s => { s with now := s.now + delay }
  else w

def act [DecidableEq μ] [DecidableEq κ] (w : System c ε κ ρ) (a : Action μ ε κ ρ) :
    System c ε κ ρ :=
  match a with
  | .advance delay => w.advance delay
  | .init => w.enterInit
  | .run => w.enterRun
  | .step sleep => w.step sleep
  | .call x =>
    match w.callback with
    | some kind => (w.call (some kind) x).2
    | none => w
  | .returns status sleep => w.returns status sleep
  | .interrupt x => (w.call none x).2
  | .expire => w.expire
  | .fire k => w.fire k
  | .fired k => w.fired k

/-- The system after a run of actions. -/
def runs [DecidableEq μ] [DecidableEq κ] (w : System c ε κ ρ) (actions : List (Action μ ε κ ρ)) :
    System c ε κ ρ := actions.foldl act w

end System

end DaveOs.Schedule
