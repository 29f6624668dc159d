import DaveOs.Core.Deadline
import DaveOs.Lib.Scan
import DaveOs.Logging.Logger

/-!
# The scheduler's state and its guarded sections

The data of `Scheduler` in `lib/core/schedule/scheduler.hpp`, and its operations that run as one section
under the platform guard: `post`, `stop`, `cancel_timer`, `TimerSlot`, `ScheduleSlot`, `CancelSlot`,
`TakeTask`, the bookkeeping at the end of `RunTask`, `Rearm` and the section of `Fire`. How the run loop,
the callbacks and the interrupts interleave these sections is in `DaveOs.Schedule.System`.

A registration that `Validate` accepts is a `Config`; times are in microseconds, and the 64-bit counters are
natural numbers. The platform is its clock, its notification count and its one timer. `history` records,
newest first, what the sections did that an observer outside the scheduler can see; no section reads it.
-/

namespace DaveOs.Schedule

open Logging

inductive Lifecycle
  | fresh | initializing | ready | running | stopping | stopped | failed
  deriving DecidableEq, Repr, Inhabited

namespace Lifecycle

/-- Requests to the lifecycle machine. -/
inductive Request
  | init | ready | fail | run | stop | stopped
  deriving DecidableEq, Repr

/-- `Lifecycle::Step`: a request out of place leaves the state. -/
def step : Lifecycle → Request → Lifecycle
  | .fresh, .init => .initializing
  | .initializing, .ready => .ready
  | .initializing, .fail => .failed
  | .ready, .run => .running
  | .running, .stop => .stopping
  | .stopping, .stopped => .stopped
  | s, _ => s

def acceptsWork : Lifecycle → Bool
  | .fresh | .initializing | .ready | .running => true
  | .stopping | .stopped | .failed => false

end Lifecycle

/-- Repeat cadence is based on scheduled time, not callback completion. -/
inductive Mode
  | once | repeats
  deriving DecidableEq, Repr, Inhabited

/-- What kind of callback the scheduler thread is in. -/
inductive CallbackKind
  | outside | initialization | task | event | command | logging | idle
  deriving DecidableEq, Repr, Inhabited

/-- The registered constants of a task: its module, its index there, the names of both and its default
period. -/
structure Descriptor (μ : Type) where
  module : μ
  index : Nat
  moduleName : String
  name : String
  period : Nat

/-- A registration that `Validate` accepts, with the sizes and the platform's constants: a module
registered twice has one name twice, so the modules are distinct. -/
structure Config (μ : Type) where
  modules : List μ
  nodup : modules.Nodup
  tasks : Nat
  descriptor : Fin tasks → Descriptor μ
  eventCapacity : Nat
  timerCapacity : Nat
  yieldLimit : Nat
  /-- Whether a logger is attached, with its record capacity and its subscribers. -/
  logging : Bool
  logCapacity : Nat
  subscribers : Nat
  /-- The platform's `can_stop`. -/
  canStop : Bool

structure Task where
  active : Bool := false
  executing : Bool := false
  mode : Mode := .once
  interval : Nat := 0
  due : Nat := 0
  explicitlyScheduled : Bool := false
  firstDue : Nat := 0
  completed : Nat := 0
  generation : Nat := 0
  deriving DecidableEq, Repr, Inhabited

/-- A queued event with its sender, absent for an anonymous one. -/
structure EventRecord (μ ε : Type) where
  value : ε
  sender : Option μ
  due : Nat
  deriving DecidableEq, Repr

/-- A timer slot; the scheduler's own wake slot has no callback. -/
structure Timer (κ : Type) where
  active : Bool := false
  due : Nat := 0
  callback : Option κ := none
  deriving DecidableEq, Repr, Inhabited

/-- Completed iterations of one task since the statistics were reset. -/
structure TaskStatistics where
  executions : Nat := 0
  lateStarts : Nat := 0
  maxLateness : Nat := 0
  minDuration : Nat := 0
  maxDuration : Nat := 0
  totalDuration : Nat := 0
  totalSelfDuration : Nat := 0
  totalNestedDuration : Nat := 0
  deriving DecidableEq, Repr, Inhabited

/-- The statistics of one more completed iteration. -/
def TaskStatistics.add (scheduled start duration nested : Nat) (t : TaskStatistics) :
    TaskStatistics :=
  { t with
    minDuration := if t.executions = 0 ∨ duration < t.minDuration then duration else t.minDuration
    maxDuration := if duration > t.maxDuration then duration else t.maxDuration
    executions := t.executions + 1
    totalDuration := t.totalDuration + duration
    totalSelfDuration := t.totalSelfDuration + (duration - nested)
    totalNestedDuration := t.totalNestedDuration + nested
    lateStarts := if start > scheduled then t.lateStarts + 1 else t.lateStarts
    maxLateness := if start > scheduled ∧ start - scheduled > t.maxLateness then start - scheduled
      else t.maxLateness }

structure Statistics (n : Nat) where
  tasks : Fin n → TaskStatistics := fun _ => {}
  eventOverflows : Nat := 0
  timerOverflows : Nat := 0
  invalidYields : Nat := 0
  yieldDepthErrors : Nat := 0

/-- A request to the platform timer: the callback comes `delay` after `since`. -/
structure Alarm where
  since : Nat
  delay : Nat
  deriving DecidableEq, Repr

/-- What an observer sees of the scheduler. -/
inductive Observation (n : Nat) (μ ε κ : Type)
  /-- A post was answered ok. -/
  | accepted (record : EventRecord μ ε)
  /-- Queued events were discarded. -/
  | discarded (records : List (EventRecord μ ε))
  /-- The run loop took an event out to deliver it. -/
  | picked (record : EventRecord μ ε)
  /-- A module's event handler was called. -/
  | delivered (module : μ) (record : EventRecord μ ε)
  /-- A schedule call was answered ok. -/
  | scheduled (task : Fin n)
  /-- Dispatch started: the times of all active tasks count from here. -/
  | started
  /-- A task was taken for one iteration. -/
  | taken (task : Fin n) (scheduled : Nat) (now : Nat)
  /-- A timer callback was called. -/
  | fired (callback : κ) (due : Nat) (now : Nat)

structure State {μ : Type} (c : Config μ) (ε κ ρ : Type) where
  lifecycle : Lifecycle := .fresh
  used : Bool := false
  stopRequested : Bool := false
  tasks : Fin c.tasks → Task := fun _ => {}
  events : List (EventRecord μ ε) := []
  timers : Fin (c.timerCapacity + 1) → Timer κ := fun _ => {}
  statistics : Statistics c.tasks := {}
  taskDepth : Nat := 0
  failure : Status := .initializationFailed
  logger : Logger ρ := {}
  now : Nat := 0
  sequence : Nat := 0
  armed : Option Alarm := none
  history : List (Observation c.tasks μ ε κ) := []

namespace State

variable {μ ε κ ρ : Type} {c : Config μ}

def notify (s : State c ε κ ρ) : State c ε κ ρ := { s with sequence := s.sequence + 1 }

def observe (o : Observation c.tasks μ ε κ) (s : State c ε κ ρ) : State c ε κ ρ :=
  { s with history := o :: s.history }

def setTask (i : Fin c.tasks) (t : Task) (s : State c ε κ ρ) : State c ε κ ρ :=
  { s with tasks := Function.update s.tasks i t }

def setTimer (i : Fin (c.timerCapacity + 1)) (t : Timer κ) (s : State c ε κ ρ) : State c ε κ ρ :=
  { s with timers := Function.update s.timers i t }

/-! ## Timers -/

def timerDue (s : State c ε κ ρ) (i : Fin (c.timerCapacity + 1)) : Option Nat :=
  if (s.timers i).active then some (s.timers i).due else none

/-- What the platform timer is asked for: the earliest of all active slots. -/
def alarm (s : State c ε κ ρ) : Option Alarm :=
  let earliest := (Scan.earliest s.timerDue kForever (List.finRange _)).1
  if earliest = kForever then none
  else some ⟨s.now, if earliest > s.now then earliest - s.now else 0⟩

/-- `Rearm`: one platform timer for all slots. -/
def rearm (s : State c ε κ ρ) : State c ε κ ρ := { s with armed := s.alarm }

/-- The slot search of `TimerSlot`: the slot that holds the callback, else the last free one. -/
def findSlot [DecidableEq κ] (s : State c ε κ ρ) (callback : κ) :
    List (Fin c.timerCapacity) → Option (Fin c.timerCapacity) → Option (Fin c.timerCapacity)
  | [], slot => slot
  | i :: rest, slot =>
    if (s.timers i.castSucc).active ∧ (s.timers i.castSucc).callback = some callback then
      some i
    else
      findSlot s callback rest (if (s.timers i.castSucc).active then slot else some i)

def holdTimer (i : Fin c.timerCapacity) (callback : κ) (due : Nat) (s : State c ε κ ρ) :
    State c ε κ ρ :=
  ((s.setTimer i.castSucc ⟨true, due, some callback⟩).rearm).notify

def dropTimer (i : Fin c.timerCapacity) (s : State c ε κ ρ) : State c ε κ ρ :=
  ((s.setTimer i.castSucc { s.timers i.castSucc with active := false }).rearm).notify

/-- `TimerSlot`: requests a callback after a delay, in place of its pending request. -/
def timerSlot [DecidableEq κ] (delay : Nat) (callback : Option κ) (s : State c ε κ ρ) :
    Status × State c ε κ ρ :=
  if s.lifecycle ≠ .running then (.notRunning, s)
  else if delay = 0 then (.invalidArgument, s)
  else
    match callback with
    | none => (.invalidArgument, s)
    | some k =>
      match s.findSlot k (List.finRange c.timerCapacity) none with
      | none =>
        (.full, { s with statistics :=
          { s.statistics with timerOverflows := s.statistics.timerOverflows + 1 } })
      | some i =>
        (.ok, s.holdTimer i k (after s.now delay))

/-- The slot `cancel_timer` clears. -/
def heldSlot [DecidableEq κ] (s : State c ε κ ρ) (callback : Option κ) :
    Option (Fin c.timerCapacity) :=
  (List.finRange c.timerCapacity).find? fun i =>
    (s.timers i.castSucc).active && (s.timers i.castSucc).callback == callback

def cancelTimer [DecidableEq κ] (callback : Option κ) (s : State c ε κ ρ) :
    Status × State c ε κ ρ :=
  if s.lifecycle ≠ .running then (.notRunning, s)
  else
    match s.heldSlot callback with
    | none => (.notFound, s)
    | some i => (.ok, s.dropTimer i)

/-- The slot `Fire` serves next: among the due ones, the earliest. -/
def dueSlot (s : State c ε κ ρ) : Option (Fin (c.timerCapacity + 1)) :=
  (Scan.earliest
    (fun i => if (s.timers i).active ∧ (s.timers i).due ≤ s.now then some (s.timers i).due else none)
    kForever (List.finRange _)).2

/-! ## Requests -/

def stop (s : State c ε κ ρ) : Status × State c ε κ ρ :=
  if s.lifecycle ≠ .running then (.notRunning, s)
  else if c.canStop then (.ok, { s with stopRequested := true }.notify)
  else (.ok, s)

/-- Whether a post names a sender that is not registered. -/
def foreign [DecidableEq μ] (c : Config μ) : Option μ → Bool
  | none => false
  | some m => m ∉ c.modules

def accept (record : EventRecord μ ε) (s : State c ε κ ρ) : State c ε κ ρ :=
  ({ s with events := s.events ++ [record] }.notify).observe (.accepted record)

/-- `post`; a variant that lost its value is absent. -/
def post [DecidableEq μ] (value : Option ε) (sender : Option μ) (s : State c ε κ ρ) :
    Status × State c ε κ ρ :=
  if ¬ s.lifecycle.acceptsWork then (.notRunning, s)
  else
    match value with
    | none => (.invalidArgument, s)
    | some v =>
      if foreign c sender then (.notFound, s)
      else if s.events.length = c.eventCapacity then
        (.full, { s with statistics :=
          { s.statistics with eventOverflows := s.statistics.eventOverflows + 1 } })
      else
        (.ok, s.accept ⟨v, sender, s.now⟩)

def findTask [DecidableEq μ] (c : Config μ) (module : μ) (index : Nat) : Option (Fin c.tasks) :=
  (List.finRange c.tasks).find? fun i =>
    (c.descriptor i).module = module ∧ (c.descriptor i).index = index

/-- A task is scheduled anew: delays count from the call while running, and from the start of the run
before. -/
def reschedule (i : Fin c.tasks) (delay : Nat) (mode : Mode) (s : State c ε κ ρ) : State c ε κ ρ :=
  let due := if s.lifecycle = .running then after s.now delay else delay
  ((s.setTask i
    { s.tasks i with
      active := true
      explicitlyScheduled := true
      interval := delay
      mode := mode
      due := due
      firstDue := due
      completed := 0
      generation := (s.tasks i).generation + 1 }).notify).observe (.scheduled i)

def scheduleSlot [DecidableEq μ] (module : μ) (index : Nat) (delay : Nat) (mode : Mode)
    (s : State c ε κ ρ) : Status × State c ε κ ρ :=
  if ¬ s.lifecycle.acceptsWork then (.notRunning, s)
  else if mode = .repeats ∧ delay = 0 then (.invalidArgument, s)
  else
    match findTask c module index with
    | none => (.notFound, s)
    | some i => (.ok, s.reschedule i delay mode)

def deactivate (i : Fin c.tasks) (s : State c ε κ ρ) : State c ε κ ρ :=
  (s.setTask i
    { s.tasks i with
      active := false
      explicitlyScheduled := true
      generation := (s.tasks i).generation + 1 }).notify

/-- `CancelSlot`: interrupt callers are rejected. -/
def cancelSlot [DecidableEq μ] (interrupt : Bool) (module : μ) (index : Nat) (s : State c ε κ ρ) :
    Status × State c ε κ ρ :=
  if interrupt then (.invalidArgument, s)
  else if ¬ s.lifecycle.acceptsWork then (.notRunning, s)
  else
    match findTask c module index with
    | none => (.notFound, s)
    | some i =>
      if (s.tasks i).active then (.ok, s.deactivate i) else (.notFound, s)

def resetStatistics (s : State c ε κ ρ) : State c ε κ ρ := { s with statistics := {} }

/-- The storing section of a log write. -/
def write (record : ρ) (truncated : Bool) (s : State c ε κ ρ) : Status × State c ε κ ρ :=
  if ¬ c.logging then (.ok, s)
  else
    let stored := s.logger.store c.logCapacity record truncated
    (stored.1,
      if stored.1 = .full then { s with logger := stored.2 }
      else { s with logger := stored.2 }.notify)

/-! ## Tasks -/

/-- `TakeTask`: a repeating task is due again one interval after its scheduled time. -/
def takeTask (i : Fin c.tasks) (s : State c ε κ ρ) : State c ε κ ρ :=
  let t := s.tasks i
  (s.setTask i
    (if t.mode = .repeats then { t with executing := true, due := after t.due t.interval }
     else { t with executing := true, active := false })).observe (.taken i t.due s.now)

end State

end DaveOs.Schedule
