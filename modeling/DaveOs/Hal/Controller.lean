import DaveOs.Hal.Actions

/-!
# The bus controller

`lib/hal/controller.hpp`: one controller serves one transaction at a time. A start, probe or reset is
accepted under a try-lock, and a six-state machine, ticked at most eight times per interrupt entry, takes
the transaction to its end. `State` has what the lock guards, with the clock and its two alarms; a call
or an interrupt entry changes it in one step, since nobody else gets the lock meanwhile.

What the backend and the clock answer is an argument of each step: `Answers` for a tick, `Admission` for
a start or reset. Time passes by any amount before each reading of the clock. `State.history` lists what
can be seen from outside, newest first. The tickets in it number the accepted transactions and are not in
the source.
-/

namespace DaveOs.Hal

/-! ## Counters -/

/-- `Counters::Index`. -/
inductive Counter where
  | readAttempts
  | writeAttempts
  | readErrors
  | writeErrors
  | accepted
  | completed
  | failed
  | timedOut
  | rejected
  | cleanupFailures
  | resets
  | resetFailures
deriving DecidableEq, Repr

abbrev Counters := Counter → Nat

/-- The largest value of a counter, where it stays. -/
def kCounterMax : Nat := 2 ^ 64 - 1

def Counters.increment (cells : Counters) (index : Counter) : Counters := fun i =>
  if i = index then (if cells i = kCounterMax then cells i else cells i + 1) else cells i

/-! ## State -/

/-- `Controller::State`, the states of the machine. -/
inductive Machine where
  | idle
  | transfer
  | pause
  | finish
  | reset
  | faulted
deriving DecidableEq, Repr

/-- What was accepted: a transfer for a device, the number of devices standing for a probe, or a reset. -/
inductive Kind where
  | transfer (device : Nat)
  | reset
deriving DecidableEq, Repr

/-- An accepted transaction and its callback. -/
structure Ticket (κ : Type) where
  number : Nat
  callback : κ
  kind : Kind
deriving DecidableEq

structure Result (α : Type) where
  status : Status := .ok
  completedActions : Nat := 0
  actions : List α := []
deriving DecidableEq

inductive Outcome (α : Type) where
  | transfer (result : Result α)
  | reset (status : Status)
deriving DecidableEq

inductive Observation (α κ : Type) where
  | accepted (ticket : Ticket κ)
  /-- A start or probe returned this error and was counted for the device. -/
  | rejected (device : Nat) (status : Status)
  /-- A reset returned this error. -/
  | refused (status : Status)
  | began (status : Status)
  | started (action : α) (first last : Bool) (status : Status)
  | polled (status : Status)
  | paused (now due : Nat)
  | resumed (now : Nat)
  /-- A response check went on. -/
  | matched
  /-- A response check or the last allowed poll did not match. -/
  | mismatched
  | timerFailed
  /-- The deadline had passed. -/
  | expired
  /-- `backend.finish()` returned. -/
  | cleaned (status : Status)
  | finished (ticket : Ticket κ) (outcome : Outcome α)
  | called (ticket : Ticket κ) (outcome : Outcome α)
  /-- The counters of a device, or of the controller, were cleared. -/
  | cleared (device : Option Nat)

/-- What is fixed when a controller is built. -/
structure Setup where
  devices : Nat
  /-- The backend has `start_reset`, `poll_reset` and `abort_reset`. -/
  asyncReset : Bool

/-- The members of a controller, its clock and the borrowed buffers. -/
structure State (α κ : Type) where
  initialized : Bool := false
  faulted : Bool := false
  machine : Machine := .idle
  active : Bool := false
  resetting : Bool := false
  started : Bool := false
  again : Bool := false
  setupFailed : Bool := false
  resetStarted : Bool := false
  device : Nat := 0
  completed : Nat := 0
  deadline : Nat := 0
  pauseDue : Nat := 0
  pollRetry : Bool := false
  pollCount : Nat := 0
  actions : List α := []
  callback : Option (Ticket κ) := none
  notification : Option (Ticket κ) := none
  notificationResult : Result α := {}
  resetCallback : Option (Ticket κ) := none
  resetNotification : Option (Ticket κ) := none
  resetResult : Status := .ok
  status : Status := .ok
  counters : Counters := fun _ => 0
  deviceCounters : Nat → Counters := fun _ _ => 0
  now : Nat := 0
  /-- The armed time of `Alarm()`. -/
  alarm : Option Nat := none
  /-- The armed time of `PauseAlarm()`. -/
  pauseAlarm : Option Nat := none
  memory : Memory := fun _ => 0
  /-- The transactions accepted so far. -/
  serial : Nat := 0
  history : List (Observation α κ) := []

/-- What the backend and the clock answer in one tick of the machine. -/
structure Answers where
  /-- The time that passes before the first, second and third reading of the clock. -/
  wait₁ : Nat := 0
  wait₂ : Nat := 0
  wait₃ : Nat := 0
  poll : Option Status := none
  /-- What a completed action leaves in its receive buffer. -/
  received : List UInt8 := []
  start : Status := .ok
  arm : Status := .ok
  finish : Status := .ok
  reset : Status := .ok
  pollReset : Option Status := none

/-- What a start, probe or reset meets. -/
structure Admission where
  /-- The critical section or the lock is not to be had. -/
  contended : Bool := false
  rate : Nat := 1
  validate : Nat → Status := fun _ => .ok
  wait : Nat := 0
  arm : Status := .ok
  begin : Status := .ok

namespace State

variable {α κ : Type}

/-- `timing_.now()`. -/
def elapse (wait : Nat) (s : State α κ) : State α κ := { s with now := s.now + wait }

def observe (o : Observation α κ) (s : State α κ) : State α κ := { s with history := o :: s.history }

/-- Counts for the controller and, if there is such a device, for it. -/
def count (c : Setup) (device : Nat) (counter : Counter) (s : State α κ) : State α κ :=
  { s with
    counters := s.counters.increment counter
    deviceCounters := fun d =>
      if d = device ∧ d < c.devices then (s.deviceCounters d).increment counter
      else s.deviceCounters d }

def record (c : Setup) (counter : Counter) (s : State α κ) : State α κ := s.count c s.device counter

/-- `Record` under a condition. -/
def recordIf (c : Setup) (p : Bool) (counter : Counter) (s : State α κ) : State α κ :=
  if p then s.record c counter else s

variable [BusAction α]

open BusAction

def recordAttempts (c : Setup) (action : α) (s : State α κ) : State α κ :=
  (s.recordIf c (reads action) .readAttempts).recordIf c (writes action) .writeAttempts

def recordActionError (c : Setup) (s : State α κ) : State α κ :=
  if s.started then
    match s.actions[s.completed]? with
    | none => s
    | some action =>
      (s.recordIf c (reads action) .readErrors).recordIf c (writes action) .writeErrors
  else s

/-! ## The machine -/

/-- The next state is `finish`, in the same interrupt entry. -/
def leave (s : State α κ) : State α κ := { s with machine := .finish, again := true }

/-- The transaction ends with an error of the current action. -/
def fail (c : Setup) (status : Status) (s : State α κ) : State α κ :=
  (recordActionError c { s with status }).leave

/-- The pause alarm could not be armed. -/
def timerFailed (due : Nat) (s : State α κ) : State α κ :=
  ({ s with pauseDue := due, status := .timerError }.observe .timerFailed).leave

def beginPause (a : Answers) (amount : Nat) (s : State α κ) : State α κ :=
  match add s.now amount with
  | none => s.timerFailed s.now
  | some due =>
    if a.arm = .ok then
      { s with pauseDue := due, pauseAlarm := some due, machine := .pause }.observe (.paused s.now due)
    else s.timerFailed due

/-- `backend.start()` and what is done with its answer. -/
def backendStart (c : Setup) (a : Answers) (action : α) (s : State α κ) : State α κ :=
  if a.start = .ok then
    s.observe (.started (transferAction action) (s.completed = 0 ∧ ¬ s.pollRetry)
      (s.completed + 1 = s.actions.length ∧ ¬ polls action) .ok)
  else
    (s.observe (.started (transferAction action) (s.completed = 0 ∧ ¬ s.pollRetry)
      (s.completed + 1 = s.actions.length ∧ ¬ polls action) a.start)).fail c a.start

/-- The second half of `State::transfer`: no action is under way. -/
def next (c : Setup) (a : Answers) (s : State α κ) : State α κ :=
  if s.completed = s.actions.length then s.leave
  else match s.actions[s.completed]? with
    -- The list has an entry here: `completed` never passes its length.
    | none => s
    | some action =>
      if checks action then
        if isMatch s.memory action then
          { s with completed := s.completed + 1, again := true }.observe .matched
        else ({ s with status := .responseMismatch }.observe .mismatched).leave
      else if pause action ≠ 0 then (s.elapse a.wait₂).beginPause a (pause action)
      else { s.recordAttempts c action with started := true }.backendStart c a action

/-- A poll that did not match is made again, up to its limit if it has one. -/
def retry (c : Setup) (a : Answers) (limit : Nat) (s : State α κ) : State α κ :=
  if limit = 0 then { s with pollRetry := true, started := false }.next c a
  else if limit ≤ s.pollCount + 1 then
    ({ s with pollRetry := true, pollCount := s.pollCount + 1 }.observe .mismatched).fail c
      .responseMismatch
  else { s with pollRetry := true, pollCount := s.pollCount + 1, started := false }.next c a

/-- An action has completed, with its bytes in the receive buffer. -/
def received (c : Setup) (a : Answers) (action : α) (s : State α κ) : State α κ :=
  if polls action && !pollMatched s.memory action then s.retry c a (pollLimit action)
  else
    { s with pollRetry := false, pollCount := 0, completed := s.completed + 1, started := false }.next c a

/-- `backend.poll()` reported that the action under way has completed well. -/
def polled (c : Setup) (a : Answers) (s : State α κ) : State α κ :=
  match s.actions[s.completed]? with
  -- An action is only started where the list has one.
  | none => s
  | some action => { s with memory := (rx action).store a.received s.memory }.received c a action

/-- `State::transfer` past the setup failure, with the clock read. -/
def running (c : Setup) (a : Answers) (s : State α κ) : State α κ :=
  if s.deadline ≤ s.now then (s.observe .expired).fail c .timeout
  else if s.started then
    match a.poll with
    | none => s
    | some status =>
      if status = .ok then (s.observe (.polled .ok)).polled c a
      else (s.observe (.polled status)).fail c status
  else s.next c a

/-- `State::transfer`. -/
def transferStep (c : Setup) (a : Answers) (s : State α κ) : State α κ :=
  if s.setupFailed then { s with setupFailed := false }.leave
  else (s.elapse a.wait₁).running c a

/-- The deadline has not passed; the pause may have. -/
def pausing (s : State α κ) : State α κ :=
  if s.pauseDue ≤ s.now then
    { s with completed := s.completed + 1, machine := .transfer, again := true }.observe (.resumed s.now)
  else s

/-- `State::pause`. -/
def pauseStep (a : Answers) (s : State α κ) : State α κ :=
  if s.deadline ≤ s.now + a.wait₁ then
    ({ s.elapse a.wait₁ with status := .timeout }.observe .expired).leave
  else ((s.elapse a.wait₁).elapse a.wait₂).pausing

/-- `backend.finish()` and what is done with its answer. -/
def cleanup (answer : Status) (s : State α κ) : State α κ :=
  { s with
    alarm := none
    pauseAlarm := none
    counters := if answer = .ok then s.counters else s.counters.increment .cleanupFailures
    status := if answer ≠ .ok ∧ s.status = .ok then .hardwareError else s.status
    faulted := answer ≠ .ok
    history := .cleaned answer :: s.history }

def recordOutcome (c : Setup) (s : State α κ) : State α κ :=
  ((s.record c .completed).recordIf c (s.status ≠ .ok) .failed).recordIf c (s.status = .timeout)
    .timedOut

/-- The result is there to be taken by the interrupt entry, and the controller is free. -/
def notify (s : State α κ) : State α κ :=
  { s with
    notification := s.callback
    notificationResult := ⟨s.status, s.completed, s.actions⟩
    actions := []
    callback := none
    active := false
    machine := if s.faulted then .faulted else .idle
    history := (s.callback.map fun ticket =>
      .finished ticket (.transfer ⟨s.status, s.completed, s.actions⟩)).toList ++ s.history }

/-- `State::finish`. -/
def finishStep (c : Setup) (a : Answers) (s : State α κ) : State α κ :=
  ((s.cleanup a.finish).recordOutcome c).notify

/-- The end of `State::reset`. -/
def resetDone (result : Status) (s : State α κ) : State α κ :=
  { s with
    alarm := none
    pauseAlarm := none
    faulted := result ≠ .ok
    counters := if result = .ok then s.counters else s.counters.increment .resetFailures
    resetNotification := s.resetCallback
    resetResult := result
    resetCallback := none
    resetting := false
    active := false
    machine := if result = .ok then .idle else .faulted
    history := (s.resetCallback.map fun ticket => .finished ticket (.reset result)).toList ++ s.history }

def kResetPollUs : Nat := 10

/-- `poll_reset` has no answer yet, and is asked again later. -/
def pollLater (a : Answers) (s : State α κ) : State α κ :=
  match add s.now kResetPollUs with
  | none => s.resetDone .timerError
  | some due =>
    if a.arm = .ok then { s with pauseAlarm := some due } else s.resetDone .timerError

/-- `State::reset` with an asynchronous backend. -/
def recover (a : Answers) (s : State α κ) : State α κ :=
  if s.deadline ≤ s.now then s.resetDone .timeout
  else match a.pollReset with
    | some result => (s.elapse a.wait₂).resetDone result
    | none => ((s.elapse a.wait₂).elapse a.wait₃).pollLater a

/-- `State::reset`. -/
def resetStep (c : Setup) (a : Answers) (s : State α κ) : State α κ :=
  if c.asyncReset then { s.elapse a.wait₁ with resetStarted := true }.recover a
  else (s.elapse a.wait₁).resetDone (if s.deadline ≤ s.now + a.wait₁ then .timeout else a.reset)

/-- `State::idle` and `State::faulted`: an accepted reset or transfer is taken up. -/
def takeUp (s : State α κ) : State α κ :=
  if s.resetting then { s with machine := .reset, again := true }
  else if s.active then { s with machine := .transfer, again := true }
  else s

def step (c : Setup) (a : Answers) (s : State α κ) : State α κ :=
  match s.machine with
  | .idle | .faulted => s.takeUp
  | .transfer => s.transferStep c a
  | .pause => s.pauseStep a
  | .finish => s.finishStep c a
  | .reset => s.resetStep c a

/-- A tick, with the flag that asks for another one cleared. -/
def tick (c : Setup) (a : Answers) (s : State α κ) : State α κ := { s with again := false }.step c a

/-- The loop of `interrupt()`, with the ticks it may still make. -/
def serve (c : Setup) : Nat → (Nat → Answers) → State α κ → State α κ
  | 0, _, s => s
  | ticks + 1, answers, s =>
    if s.active then
      if (s.tick c (answers 0)).again then
        serve c ticks (fun i => answers (i + 1)) (s.tick c (answers 0))
      else s.tick c (answers 0)
    else s

/-! ## Admission -/

/-- The first answer of `validate_action` that is not ok; a response check is not put to the backend. -/
def validateActions (validate : Nat → Status) : Nat → List α → Status
  | _, [] => .ok
  | i, action :: rest =>
    if checks action ∨ validate i = .ok then validateActions validate (i + 1) rest else validate i

/-- The checks of `Start` on a free controller: the callback and the deadline, or the error. -/
def checkStart (actions : List α) (callback : Option κ) (requested : Option Duration) (a : Admission)
    (now : Nat) : Except Status (κ × Nat) :=
  match callback with
  | none => .error .invalidArgument
  | some callback =>
    match timeout actions a.rate requested with
    | .error status => .error status
    | .ok delay =>
      match validateActions a.validate 0 actions with
      | .ok =>
        match add now delay with
        | none => .error .invalidArgument
        | some deadline => if a.arm = .ok then .ok (callback, deadline) else .error .timerError
      | status => .error status

def reject (c : Setup) (device : Nat) (status : Status) (s : State α κ) : Status × State α κ :=
  (status, (s.count c device .rejected).observe (.rejected device status))

/-- A transfer is accepted, and the backend begins it. -/
def accept (c : Setup) (device : Nat) (actions : List α) (callback : κ) (deadline : Nat)
    (begin : Status) (s : State α κ) : State α κ :=
  { s with
    alarm := some deadline
    deadline, actions, device
    pollRetry := false
    pollCount := 0
    callback := some ⟨s.serial, callback, .transfer device⟩
    completed := 0
    started := false
    resetting := false
    status := begin
    setupFailed := begin ≠ Status.ok
    active := true
    serial := s.serial + 1
    history := .began begin :: .accepted ⟨s.serial, callback, .transfer device⟩ :: s.history }.record c
      .accepted

/-- `Start`: the status it returns and the state it leaves. -/
def start (c : Setup) (device : Nat) (actions : List α) (callback : Option κ)
    (requested : Option Duration) (a : Admission) (s : State α κ) : Status × State α κ :=
  if !s.initialized then s.reject c device .notInitialized
  else if a.contended ∨ s.active then s.reject c device .busy
  else if s.faulted then s.reject c device .faulted
  else
    let s := s.elapse a.wait
    match checkStart actions callback requested a s.now with
    | .error status => s.reject c device status
    | .ok (callback, deadline) => (.ok, s.accept c device actions callback deadline a.begin)

def probe (c : Setup) (address : UInt8) (callback : Option κ) (requested : Option Duration)
    (a : Admission) (s : State α κ) : Status × State α κ :=
  match (BusAction.probe : Option α) with
  | none => (.invalidArgument, s)
  | some action =>
    if I2c.addressValid address then s.start c c.devices [action] callback requested a
    else s.reject c c.devices .invalidArgument

def acceptReset (callback : κ) (deadline : Nat) (s : State α κ) : State α κ :=
  { s with
    alarm := some deadline
    deadline
    resetCallback := some ⟨s.serial, callback, .reset⟩
    resetStarted := false
    resetting := true
    active := true
    counters := s.counters.increment .resets
    serial := s.serial + 1
    history := .accepted ⟨s.serial, callback, .reset⟩ :: s.history }

def reset (callback : Option κ) (requested : Option Duration) (a : Admission) (s : State α κ) :
    Status × State α κ :=
  let refuse (status : Status) (s : State α κ) : Status × State α κ :=
    (status, s.observe (.refused status))
  match callback with
  | none => refuse .invalidArgument s
  | some callback =>
    if requested.any (!·.valid) then refuse .invalidArgument s
    else if !s.initialized then refuse .notInitialized s
    else if a.contended ∨ s.active then refuse .busy s
    else
      let s := s.elapse a.wait
      match add s.now ((requested.map (·.microseconds)).getD kResetTimeoutUs) with
      | none => refuse .invalidArgument s
      | some deadline =>
        if a.arm = .ok then (.ok, s.acceptReset callback deadline) else refuse .timerError s

/-- `init()`, with the answers of the backend. -/
def init (answer : Status) (needsReset : Bool) (s : State α κ) : State α κ :=
  if s.initialized then s
  else if answer = .ok then { s with faulted := needsReset, initialized := true }
  else s

/-- Clears the counters of the controller or of a device. -/
def clearStatistics (device : Option Nat) (s : State α κ) : State α κ :=
  match device with
  | none => { s with counters := fun _ => 0 }.observe (.cleared none)
  | some device =>
    { s with deviceCounters := fun d => if d = device then fun _ => 0 else s.deviceCounters d }.observe
      (.cleared (some device))

end State

/-! ## Whole runs -/

/-- A controller among its callers, its clock and its interrupt. -/
structure World (α κ : Type) where
  state : State α κ := {}
  /-- `pend()` was called and the interrupt has not been entered since. -/
  pended : Bool := false
  /-- Alarms the clock has taken out to call and has not called yet. -/
  fired : Nat := 0
  /-- Calls that have given the lock back and have yet to call `pend()`. -/
  pends : Nat := 0
  /-- Callbacks that interrupt entries have taken out of the controller and have yet to make. -/
  owed : List (Ticket κ × Outcome α) := []

inductive Action (α κ : Type) where
  | advance (time : Nat)
  /-- Any change of the borrowed buffers. -/
  | poke (memory : Memory)
  | init (answer : Status) (needsReset : Bool)
  | deinit
  | start (device : Nat) (actions : List α) (callback : Option κ) (requested : Option Duration)
      (a : Admission)
  | probe (address : UInt8) (callback : Option κ) (requested : Option Duration) (a : Admission)
  | reset (callback : Option κ) (requested : Option Duration) (a : Admission)
  | clear (device : Option Nat)
  /-- A call reaches its `pend()`. -/
  | pend
  /-- The interrupt is entered, pended or not. -/
  | irq (contended : Bool) (answers : Nat → Answers)
  /-- The clock takes out the deadline alarm, not before its time. -/
  | expire
  /-- The clock takes out the pause alarm, not before its time. -/
  | expirePause
  /-- The clock calls an alarm that it has taken out, cancelled since or not. -/
  | alarm (contended : Bool) (answers : Nat → Answers)
  /-- One of the owed callbacks is made. -/
  | call (i : Nat)

namespace World

variable {α κ : Type} [BusAction α]

/-- `interrupt()`, up to where it gives the lock back. -/
def interrupt (c : Setup) (contended : Bool) (answers : Nat → Answers) (w : World α κ) : World α κ :=
  if contended then { w with pended := true }
  else
    let s := w.state.serve c 8 answers
    { w with
      state := { s with notification := none, resetNotification := none }
      pends := w.pends + (s.again && s.active).toNat
      owed := (s.notification.map fun ticket => (ticket, .transfer s.notificationResult)).toList ++
        (s.resetNotification.map fun ticket => (ticket, .reset s.resetResult)).toList ++ w.owed }

/-- A call has returned; an accepted one still has its `pend()` to make. -/
def returned (w : World α κ) (r : Status × State α κ) : World α κ :=
  { w with state := r.2, pends := if r.1 = .ok then w.pends + 1 else w.pends }

/-- What an action leaves; one that is out of place changes nothing. -/
def act (c : Setup) (w : World α κ) : Action α κ → World α κ
  | .advance time => { w with state := w.state.elapse time }
  | .poke memory => { w with state := { w.state with memory } }
  | .init answer needsReset => { w with state := w.state.init answer needsReset }
  | .deinit => { w with state := { w.state with initialized := false } }
  | .start device actions callback requested a =>
    if device < c.devices then w.returned (w.state.start c device actions callback requested a) else w
  | .probe address callback requested a => w.returned (w.state.probe c address callback requested a)
  | .reset callback requested a => w.returned (w.state.reset callback requested a)
  | .clear device => { w with state := w.state.clearStatistics device }
  | .pend => if 0 < w.pends then { w with pends := w.pends - 1, pended := true } else w
  | .irq contended answers => { w with pended := false }.interrupt c contended answers
  | .expire =>
    match w.state.alarm with
    | none => w
    | some due =>
      if due ≤ w.state.now then { w with state := { w.state with alarm := none }, fired := w.fired + 1 }
      else w
  | .expirePause =>
    match w.state.pauseAlarm with
    | none => w
    | some due =>
      if due ≤ w.state.now then
        { w with state := { w.state with pauseAlarm := none }, fired := w.fired + 1 }
      else w
  | .alarm contended answers =>
    if 0 < w.fired then { w with fired := w.fired - 1 }.interrupt c contended answers else w
  | .call i =>
    match w.owed[i]? with
    | none => w
    | some (ticket, outcome) =>
      { w with state := w.state.observe (.called ticket outcome), owed := w.owed.eraseIdx i }

def runs (c : Setup) (w : World α κ) (actions : List (Action α κ)) : World α κ := actions.foldl (act c) w

end World

end DaveOs.Hal
