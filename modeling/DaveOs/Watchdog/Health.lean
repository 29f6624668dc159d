import DaveOs.Util.Fault
import DaveOs.Watchdog.Controller

/-!
# The health module

`HealthModule` of `lib/watchdog/health.hpp` ties the controller, the confirmation and the progress of the scheduler
to one board: an image is confirmed only under a watchdog that has not failed (`confirmed_if_supervised`).
-/

namespace DaveOs.Watchdog

/-- What the module is bound to; `progress` is the attached scheduler's. -/
structure Board (n : Nat) (σ : Type) where
  now : σ → Nat × σ
  progress : Option (σ → Progress n × σ)
  present : Bool
  start : Nat → σ → Status × σ
  feed : σ → Status × σ
  confirm : Option (σ → Status × σ)
  record : Fault.Kind → Failure → σ → σ

/-- What the two checks read beside the board. -/
structure Pulse (σ : Type) where
  lastHeartbeat : Nat := 0
  dispatching : Bool := false
  board : σ

def kWatchdogTimeout : Nat := 5000000
def kHeartbeatMaxAge : Nat := 1000000
def kProgressAllowance : Nat := 100000
def kConfirmationDelay : Int := 5000000

variable {n : Nat} {σ α : Type} (b : Board n σ)

def Pulse.ask (f : σ → α × σ) (w : Pulse σ) : α × Pulse σ := ((f w.board).1, { w with board := (f w.board).2 })

/-- `Heartbeat`, and all that `init` changes. -/
def Pulse.heartbeat (w : Pulse σ) : Pulse σ :=
  let (now, w) := w.ask b.now
  { w with lastHeartbeat := now }

/-- The age of the heartbeat is a difference of two unsigned times. -/
def heartbeatHealth (w : Pulse σ) : Failure × Pulse σ :=
  if w.dispatching = false then ({}, w)
  else
    let (now, w) := w.ask b.now
    (if kHeartbeatMaxAge < (now + 2 ^ 64 - w.lastHeartbeat) % 2 ^ 64 then { status := .healthFailed } else {}, w)

def progressHealth (w : Pulse σ) : Failure × Pulse σ :=
  if w.dispatching = false then ({}, w)
  else
    match b.progress with
    | some progress =>
      let (p, w) := w.ask progress
      (checkProgress p kProgressAllowance, w)
    | none => ({ status := .notRunning }, w)

/-- A callback that does not call the controller. -/
def quiet (f : Pulse σ → α × Pulse σ) (w : Pulse σ) : (α × List Call) × Pulse σ := (((f w).1, []), (f w).2)

def setup : Setup (Pulse σ) where
  checks := [⟨"heartbeat", some (quiet (heartbeatHealth b))⟩, ⟨"task_progress", some (quiet (progressHealth b))⟩]
  present := b.present
  start timeout := quiet (Pulse.ask (b.start timeout))
  feed := quiet (Pulse.ask b.feed)
  observer := some fun f w => ([], { w with board := b.record .watchdog f w.board })

/-- The module, with the logs of its two machines. It is halted by `initialization_failed`, which does not return. -/
structure HealthModule (σ : Type) where
  controller : Controller := {}
  confirmation : Confirmation := {}
  pulse : Pulse σ
  halted : Bool := false
  events : List Event := []
  attempts : List Attempt := []

inductive HealthCall
  | early | heartbeat | check

namespace HealthModule

def initializationFailed (h : HealthModule σ) (status : Status) (module : String) : HealthModule σ :=
  let board := b.record .initialization { status, check := "initialization", module } h.pulse.board
  { h with halted := true, pulse := { h.pulse with board } }

def early (h : HealthModule σ) : HealthModule σ :=
  let r := h.controller.start (setup b) kWatchdogTimeout (h.pulse, h.events)
  let h := { h with controller := r.1.2, pulse := r.2.1, events := r.2.2 }
  if r.1.1 = .ok then h else h.initializationFailed b r.1.1 "core"

/-- `Check` up to the tick of the controller. -/
def dispatch (h : HealthModule σ) : Pulse σ :=
  if h.pulse.dispatching then h.pulse else { h.pulse.heartbeat b with dispatching := true }

def check (h : HealthModule σ) : HealthModule σ :=
  let r := h.controller.tick (setup b) (h.dispatch b, h.events)
  let now := r.2.1.ask b.now
  let c := h.confirmation.tick kConfirmationDelay b.confirm now.1 (r.1.state = .running) (now.2.board, h.attempts)
  let h := { h with controller := r.1, confirmation := c.1, pulse := { now.2 with board := c.2.1 }, events := r.2.2,
                    attempts := c.2.2 }
  if r.1.state = .running ∧ c.1.status ≠ .ok then h.initializationFailed b c.1.status "boot" else h

def call (h : HealthModule σ) (call : HealthCall) : HealthModule σ :=
  if h.halted then h
  else
    match call with
    | .early => h.early b
    | .heartbeat => { h with pulse := h.pulse.heartbeat b }
    | .check => h.check b

/-- Both machines keep to their monitors. -/
structure Supervised (h : HealthModule σ) : Prop where
  events : (Controller.monitor (setup b)).Accepts h.events
  controller : h.controller.Fits (setup b) ((Controller.monitor (setup b)).after h.events)
  attempts : (Confirmation.monitor kConfirmationDelay).Accepts h.attempts
  confirmation : h.confirmation.Fits kConfirmationDelay b.confirm
    ((Confirmation.monitor kConfirmationDelay).after h.attempts)

variable {b} {h : HealthModule σ}

theorem Supervised.early (hs : h.Supervised b) : (h.early b).Supervised b := by
  obtain ⟨hevents, hcontroller⟩ :=
    Controller.obeys_call (.start kWatchdogTimeout) hs.controller (h.pulse, h.events) hs.events rfl
  unfold HealthModule.early
  dsimp only
  split <;> exact { hs with events := hevents, controller := hcontroller }

theorem Supervised.check (hs : h.Supervised b) : (h.check b).Supervised b := by
  obtain ⟨hevents, hcontroller⟩ := Controller.obeys_tick hs.controller (h.dispatch b, h.events) hs.events rfl
  unfold HealthModule.check
  dsimp only
  obtain ⟨hattempts, hconfirmation⟩ := Confirmation.obeys_tick hs.confirmation (_, h.attempts) hs.attempts rfl
  split <;> exact ⟨hevents, hcontroller, hattempts, hconfirmation⟩

theorem supervised_runs (b : Board n σ) (board : σ) (calls : List HealthCall) :
    (calls.foldl (call b) { pulse := { board } }).Supervised b := by
  refine List.foldlRecOn calls _ ⟨Monitor.accepts_nil _, Controller.fits_new, Monitor.accepts_nil _,
    Confirmation.fits_new⟩ fun h hs a _ => ?_
  unfold call
  split
  · exact hs
  · cases a with
    | early => exact hs.early
    | heartbeat => exact { hs with }
    | check => exact hs.check

end HealthModule

/-- A tick without health does not call the callback. -/
theorem Confirmation.healthy_of_confirm {delay : Int} {callback : Option (σ → Status × σ)} {c : Confirmation}
    {now : Nat} {healthy : Bool} {w : σ × List Attempt} {status : Status}
    (hlast : (c.tick delay callback now healthy w).2.2.getLast? = some (.confirm status)) : healthy = true := by
  cases healthy with
  | true => rfl
  | false =>
    have hlog : (c.tick delay callback now false w).2.2 = w.2 ++ [.tick now false] := by
      unfold tick step
      cases c.state <;> rfl
    simp [hlog] at hlast

/-- **Confirmed only under supervision.** Whatever the board answers: in every run both machines keep to their monitors,
and a `Check` that calls the confirmation leaves a watchdog that was started and has seen no failure. -/
theorem confirmed_if_supervised (b : Board n σ) (board : σ) (calls : List HealthCall) :
    let h := calls.foldl (HealthModule.call b) { pulse := { board } }
    (Controller.monitor (setup b)).Accepts h.events ∧ (Confirmation.monitor kConfirmationDelay).Accepts h.attempts ∧
      ∀ status, (h.check b).attempts.getLast? = some (.confirm status) →
        let watch := (Controller.monitor (setup b)).after (h.check b).events
        watch.started = true ∧ watch.failure = none := by
  intro h
  have hs : h.Supervised b := HealthModule.supervised_runs b board calls
  refine ⟨hs.events, hs.attempts, fun status hlast => ?_⟩
  obtain ⟨now, w, hattempts⟩ : ∃ now w, (h.check b).attempts = (h.confirmation.tick kConfirmationDelay b.confirm now
      ((h.check b).controller.state = .running) w).2.2 := by
    unfold HealthModule.check
    dsimp only
    split <;> exact ⟨_, _, rfl⟩
  rw [hattempts] at hlast
  have hrun := of_decide_eq_true (Confirmation.healthy_of_confirm hlast)
  have hfits := hs.check.controller
  refine ⟨hfits.started hrun, hfits.failure.trans ?_⟩
  rw [hrun]
  rfl

end DaveOs.Watchdog
