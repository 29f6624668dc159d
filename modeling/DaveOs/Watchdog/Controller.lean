import DaveOs.Lib.Monitor
import DaveOs.Watchdog.Progress

/-!
# The watchdog's controller, and the confirmation of an image

`Controller` of `lib/watchdog/watchdog.hpp` and `Confirmation` of `lib/watchdog/confirmation.h`, over callbacks
that may answer anything and call the machine again. Both machines latch. What they may call is said by a
monitor over the log of a run (`Controller.monitor`, `Confirmation.monitor`).
-/

namespace DaveOs.Watchdog

/-! ## The controller -/

inductive ControllerState
  | stopped | running | failed
  deriving DecidableEq

structure Controller where
  failure : Failure := {}
  state : ControllerState := .stopped
  timeout : Nat := 0
  startRequested : Bool := false

inductive Call
  | start (timeout : Nat)
  | tick

structure Check (σ : Type) where
  name : String
  test : Option (σ → (Failure × List Call) × σ)

/-- What a controller is built with; `present` says that the driver can be started and fed. A callback answers,
with the calls of the controller it made itself. -/
structure Setup (σ : Type) where
  checks : List (Check σ)
  present : Bool
  start : Nat → σ → (Status × List Call) × σ
  feed : σ → (Status × List Call) × σ
  observer : Option (Failure → σ → List Call × σ)

/-- A tick of the machine, and what it called with the answer. A check without a test answers too. -/
inductive Event
  | tick
  | checked (name : String) (result : Failure)
  | started (timeout : Nat) (status : Status)
  | fed (status : Status)
  | observed (failure : Failure)

namespace Controller

variable {σ : Type} (setup : Setup σ)

/-- `start` up to its tick, or the status that it returns at once. -/
def request (c : Controller) (timeout : Nat) : Except Status Controller :=
  if c.state ≠ .stopped then
    .error (if c.state = .failed then c.failure.status else .alreadyInitialized)
  else if timeout = 0 ∨ timeout = kForever ∨ setup.present = false then .error .invalidArgument
  else .ok { c with timeout, startRequested := true }

/-- A call from inside a callback. The machine is ticking, so that its `tick` returns at once. -/
def reenter (c : Controller) : Call → Controller
  | .start timeout => (c.request setup timeout).toOption.getD c
  | .tick => c

def test (check : Check σ) : Logged σ Event (Failure × List Call) :=
  match check.test with
  | some test => Logged.call test fun r => .checked check.name r.1
  | none => do
    Logged.emit (.checked check.name { status := .invalidArgument })
    pure ({ status := .invalidArgument }, [])

def checkHealth (c : Controller) : List (Check σ) → Logged σ Event (Failure × Controller)
  | [] => pure ({}, c)
  | check :: checks => do
    let (result, calls) ← test check
    let c := calls.foldl (reenter setup) c
    if result.status ≠ .ok then pure ({ result with check := check.name }, c)
    else checkHealth c checks

/-- `failure_` after the checks and, if they passed, the driver. -/
def attempt (c : Controller) (drive : Controller → σ → (Status × List Call) × σ)
    (event : Controller → Status → Event) (check : String) : Logged σ Event (Failure × Controller) := do
  let (failure, c) ← checkHealth setup c setup.checks
  if failure.status = .ok then do
    let (status, calls) ← Logged.call (drive c) fun r => event c r.1
    pure ({ status, check }, calls.foldl (reenter setup) c)
  else pure (failure, c)

def step (c : Controller) : Logged σ Event Controller :=
  match c.state with
  | .stopped =>
    if c.startRequested then do
      let (failure, c) ← attempt setup { c with startRequested := false } (fun c => setup.start c.timeout)
        (fun c => .started c.timeout) "start"
      pure { c with failure, state := if failure.status = .ok then .running else .failed }
    else pure c
  | .running => do
    let (failure, c) ← attempt setup c (fun _ => setup.feed) (fun _ => .fed) "feed"
    pure { c with failure, state := if failure.status ≠ .ok then .failed else c.state }
  | .failed => pure c

def onEnter (c : Controller) : Logged σ Event Controller :=
  match setup.observer with
  | some observer =>
    if c.state = .failed then do
      let calls ← Logged.call (observer c.failure) fun _ => .observed c.failure
      pure (calls.foldl (reenter setup) c)
    else pure c
  | none => pure c

/-- `tick` of the state machine. The entry of its initial state calls nothing. -/
def tick (c : Controller) : Logged σ Event Controller := do
  Logged.emit .tick
  let c' ← c.step setup
  if c'.state ≠ c.state then c'.onEnter setup else pure c'

def start (c : Controller) (timeout : Nat) : Logged σ Event (Status × Controller) :=
  match c.request setup timeout with
  | .error status => pure (status, c)
  | .ok c => do
    let c ← c.tick setup
    pure (c.failure.status, c)

def call (c : Controller) : Call → Logged σ Event Controller
  | .start timeout => do
    let (_, c) ← c.start setup timeout
    pure c
  | .tick => c.tick setup

/-! ### What it may call -/

/-- What a log says: the checks passed in the last tick, whether the driver was started, the first failure, and
how often it was observed. -/
structure Watch where
  passed : Nat := 0
  started : Bool := false
  failure : Option Failure := none
  observed : Nat := 0

/-- An answer with this failure. -/
def Watch.fail (w : Watch) (f : Failure) : Watch :=
  if f.status = .ok then w else { w with failure := some f }

/-- Nothing but the observer is called behind a failure, and it once. The driver is called after all checks of the
tick have passed; it is fed after its start. -/
def monitor : Monitor Event Watch where
  start := {}
  next w
    | .tick => { w with passed := 0 }
    | .checked name r => Watch.fail { w with passed := w.passed + 1 } { r with check := name }
    | .started _ status => Watch.fail { w with started := true } { status, check := "start" }
    | .fed status => w.fail { status, check := "feed" }
    | .observed _ => { w with observed := w.observed + 1 }
  Allowed w
    | .tick => True
    | .checked name _ => w.failure = none ∧ (setup.checks[w.passed]?).map Check.name = some name
    | .started _ _ => w.failure = none ∧ w.passed = setup.checks.length ∧ w.started = false
    | .fed _ => w.failure = none ∧ w.passed = setup.checks.length ∧ w.started = true
    | .observed f => w.failure = some f ∧ w.observed = 0

/-- The log as the controller's state tells it. -/
structure Fits (c : Controller) (w : Watch) : Prop where
  started : c.state = .running → w.started = true
  stopped : c.state = .stopped → w.started = false
  failure : w.failure = if c.state = .failed then some c.failure else none
  observed : w.observed = if c.state = .failed ∧ setup.observer.isSome then 1 else 0

variable {setup} {c c' : Controller} {w : Watch}

theorem fits_new : Fits setup {} (monitor setup).start := ⟨nofun, fun _ => rfl, rfl, rfl⟩

theorem request_same {timeout : Nat} (h : c.request setup timeout = .ok c') :
    c' = { c with timeout, startRequested := true } := by
  unfold request at h
  split at h
  · cases h
  · split at h
    · cases h
    · exact (Except.ok.inj h).symm

/-- A callback's own calls change neither the state nor the failure. -/
theorem foldl_reenter (setup : Setup σ) (calls : List Call) :
    ∃ timeout requested, calls.foldl (reenter setup) c = { c with timeout, startRequested := requested } := by
  induction calls generalizing c with
  | nil => exact ⟨_, _, rfl⟩
  | cons call calls ih =>
    obtain ⟨t, b, hcall⟩ : ∃ timeout requested, c.reenter setup call =
        { c with timeout, startRequested := requested } := by
      cases call with
      | tick => exact ⟨_, _, rfl⟩
      | start timeout =>
        cases h : c.request setup timeout with
        | error r => exact ⟨c.timeout, c.startRequested, by simp [reenter, h, Except.toOption]⟩
        | ok c' => exact ⟨timeout, true, by simp [reenter, h, Except.toOption, request_same h]⟩
    obtain ⟨t', b', h⟩ := ih (c := c.reenter setup call)
    exact ⟨t', b', by rw [List.foldl_cons, h, hcall]⟩

theorem obeys_test {check : Check σ} (hw : w.failure = none)
    (hcheck : (setup.checks[w.passed]?).map Check.name = some check.name) :
    (monitor setup).Obeys (test check) w (fun r w' =>
      w' = Watch.fail { w with passed := w.passed + 1 } { r.1 with check := check.name }) := by
  unfold test
  split
  · exact .call fun r => ⟨⟨hw, hcheck⟩, rfl⟩
  · exact .emit_bind ⟨hw, hcheck⟩ (.pure rfl)

/-- **`CheckHealth`** passes all checks, or stops at the first failure. -/
theorem obeys_checkHealth (checks : List (Check σ)) (hw : w.failure = none)
    (hchecks : setup.checks.drop w.passed = checks) (hle : w.passed ≤ setup.checks.length) :
    (monitor setup).Obeys (checkHealth setup c checks) w (fun r w' =>
      (∃ timeout requested, r.2 = { c with timeout, startRequested := requested }) ∧
        w' = { w with passed := w'.passed, failure := if r.1.status = .ok then none else some r.1 } ∧
        (r.1.status = .ok → w'.passed = setup.checks.length)) := by
  induction checks generalizing c w with
  | nil =>
    refine .pure ⟨⟨_, _, rfl⟩, by rw [if_pos rfl, ← hw], fun _ => ?_⟩
    exact Nat.le_antisymm hle (List.drop_eq_nil_iff.mp hchecks)
  | cons check checks ih =>
    have hget : setup.checks[w.passed]? = some check := by
      rw [← List.head?_drop, hchecks]
      rfl
    refine (obeys_test hw (by rw [hget]; rfl)).bind ?_
    rintro ⟨result, calls⟩ _ rfl
    obtain ⟨t, b, hc⟩ := foldl_reenter setup (c := c) calls
    refine .ite (fun hr => .pure ⟨⟨t, b, hc⟩, ?_⟩) fun hr => ?_
    · simp_all [Watch.fail]
    · have hr : result.status = .ok := Decidable.not_not.mp hr
      have hlt := (List.getElem?_eq_some_iff.mp hget).1
      simp only [Watch.fail, hr, if_true]
      refine (ih (w := { w with passed := w.passed + 1 }) hw ?_ hlt).mono ?_
      · rw [← List.tail_drop, hchecks]
        rfl
      · rintro r w' ⟨⟨t', b', hr'⟩, hw', hok⟩
        refine ⟨⟨t', b', by rw [hr', hc]⟩, ?_, hok⟩
        rw [hw']

/-- **An attempt** that calls the driver when it may has the failure of the last answer. -/
theorem obeys_attempt {drive : Controller → σ → (Status × List Call) × σ} {event : Controller → Status → Event}
    {check : String} (started : Bool) (hw : w.failure = none) (hpassed : w.passed = 0)
    (hallowed : ∀ c status w', w' = { w with passed := w'.passed } → w'.passed = setup.checks.length →
      (monitor setup).Allowed w' (event c status) ∧
        (monitor setup).next w' (event c status) = Watch.fail { w' with started } { status, check }) :
    (monitor setup).Obeys (attempt setup c drive event check) w (fun r w' =>
      (∃ timeout requested, r.2 = { c with timeout, startRequested := requested }) ∧
        w'.observed = w.observed ∧ (r.1.status = .ok → w'.started = started) ∧
        w'.failure = if r.1.status = .ok then none else some r.1) := by
  refine (obeys_checkHealth setup.checks hw (by rw [hpassed]; rfl) (hpassed ▸ Nat.zero_le _)).bind ?_
  rintro ⟨f, c₁⟩ w₁ ⟨⟨t, b, rfl⟩, hw₁, hok⟩
  refine .ite (fun hf => ?_) fun hf => .pure ⟨⟨t, b, rfl⟩, ?_⟩
  · have hw₂ : w₁ = { w with passed := w₁.passed } := hw₁.trans (by rw [if_pos hf, ← hw])
    refine .call_bind (fun r => (hallowed _ _ w₁ hw₂ (hok hf)).1) fun r => .pure ?_
    rw [(hallowed _ _ w₁ hw₂ (hok hf)).2]
    refine ⟨?_, ?_⟩
    · obtain ⟨t', b', hc⟩ := foldl_reenter setup (c := { c with timeout := t, startRequested := b }) r.2
      exact ⟨t', b', hc⟩
    have hobserved : w₁.observed = w.observed := by rw [hw₂]
    have hfailure : w₁.failure = none := by rw [hw₂, hw]
    unfold Watch.fail
    split
    · next hr => exact ⟨hobserved, fun _ => rfl, hfailure⟩
    · next hr => exact ⟨hobserved, fun h => absurd h hr, rfl⟩
  · rw [hw₁]
    exact ⟨rfl, fun h => absurd h hf, rfl⟩

/-- **A tick** keeps to the monitor. -/
theorem obeys_tick (h : c.Fits setup w) : (monitor setup).Obeys (c.tick setup) w (fun c' w' => c'.Fits setup w') := by
  have hfailure := h.failure
  have hobserved := h.observed
  refine .emit_bind trivial ?_
  -- Where the step may lead, before the observer is called.
  have hstep : (monitor setup).Obeys (c.step setup) { w with passed := 0 } (fun c' w' =>
      c'.state = c.state ∧ c'.Fits setup w' ∨ c'.state ≠ c.state ∧ w'.observed = 0 ∧
        (c'.state = .running ∧ w'.started = true ∧ w'.failure = none ∨
          c'.state = .failed ∧ w'.failure = some c'.failure)) := by
    unfold step
    split
    · next hs =>
      refine .ite (fun _ => ?_) fun _ => .pure (.inl ⟨rfl, { h with }⟩)
      rw [hs] at hfailure hobserved
      refine (obeys_attempt (w := { w with passed := 0 }) true hfailure rfl ?_).bind ?_
      · rintro c status w' hw' hpassed
        exact ⟨⟨by rw [hw']; exact hfailure, hpassed, by rw [hw']; exact h.stopped hs⟩, rfl⟩
      · rintro ⟨f, c₁⟩ w₁ ⟨⟨t, b, rfl⟩, ho, hok, hf⟩
        refine .pure (.inr ?_)
        by_cases hst : f.status = .ok <;> simp_all
    · next hs =>
      rw [hs] at hfailure hobserved
      refine (obeys_attempt (w := { w with passed := 0 }) true hfailure rfl ?_).bind ?_
      · rintro c status w' hw' hpassed
        have hstarted : w'.started = true := by rw [hw']; exact h.started hs
        exact ⟨⟨by rw [hw']; exact hfailure, hpassed, hstarted⟩, by rw [← hstarted]; rfl⟩
      · rintro ⟨f, c₁⟩ w₁ ⟨⟨t, b, rfl⟩, ho, hok, hf⟩
        refine .pure ?_
        by_cases hst : f.status = .ok
        · refine .inl ⟨by simp [hst], ⟨fun _ => hok hst, ?_, ?_, ?_⟩⟩ <;> simp_all
        · refine .inr ?_
          simp_all
    · exact .pure (.inl ⟨rfl, { h with }⟩)
  refine hstep.bind fun c₁ w₁ hcases => .ite (fun hne => ?_) fun heq => .pure ?_
  · obtain ⟨heq, -⟩ | ⟨-, ho, hcases⟩ := hcases
    · exact absurd heq hne
    unfold onEnter
    split
    · next observer hobs =>
      refine .ite (fun hs => ?_) fun hs => .pure ?_
      · rcases hcases with ⟨hs', -⟩ | ⟨-, hf⟩
        · rw [hs] at hs'
          cases hs'
        refine .call_bind (fun _ => ⟨hf, ho⟩) fun calls => .pure ?_
        obtain ⟨t, b, hc⟩ := foldl_reenter setup (c := c₁) calls
        rw [hc]
        constructor <;> simp_all [monitor]
      · constructor <;> simp_all
    · refine .pure ?_
      rcases hcases with hc | hc <;> constructor <;> simp_all
  · rcases hcases with ⟨-, hfits⟩ | ⟨hne, -⟩
    · exact hfits
    · exact absurd hne heq

theorem obeys_call (call : Call) (h : c.Fits setup w) :
    (monitor setup).Obeys (c.call setup call) w (fun c' w' => c'.Fits setup w') := by
  cases call with
  | tick => exact obeys_tick h
  | start timeout =>
    refine .bind (R := fun r w' => r.2.Fits setup w') ?_ fun r w' hr => .pure hr
    unfold start
    split
    · exact .pure h
    · next hreq =>
      obtain rfl := request_same hreq
      exact Monitor.Obeys.bind (obeys_tick (c := { c with timeout, startRequested := true }) { h with })
        fun c' w' h' => .pure h'

end Controller

/-! ## The confirmation -/

inductive ConfirmationState
  | waiting | observing | confirmed | failed
  deriving DecidableEq

structure Confirmation where
  state : ConfirmationState := .waiting
  since : Nat := 0
  status : Status := .ok

/-- A tick, and a call of the callback with its answer. -/
inductive Attempt
  | tick (now : Nat) (healthy : Bool)
  | confirm (status : Status)

namespace Confirmation

variable {σ : Type} (delay : Int) (callback : Option (σ → Status × σ))

def step (c : Confirmation) (now : Nat) (healthy : Bool) : Logged σ Attempt Confirmation :=
  match c.state with
  | .waiting =>
    if healthy = false ∨ delay ≤ 0 then pure { c with status := .healthFailed, state := .failed }
    else if callback.isSome then pure { c with since := now, state := .observing }
    else pure c
  | .observing =>
    if healthy = false ∨ now < c.since then pure { c with status := .healthFailed, state := .failed }
    else if delay.toNat ≤ now - c.since then
      match callback with
      | some confirm => do
        let status ← Logged.call confirm .confirm
        pure { c with status, state := if status = .ok then .confirmed else .failed }
      | none => pure c
    else pure c
  | .confirmed | .failed => pure c

/-- `tick`. A tick from inside the callback returns at once. -/
def tick (c : Confirmation) (now : Nat) (healthy : Bool) : Logged σ Attempt Confirmation := do
  Logged.emit (.tick now healthy)
  c.step delay callback now healthy

/-- What a log says: the times of the first and of the last tick, whether all ticks were healthy and none before
the first, and whether the callback was called. -/
structure Seen where
  since : Option Nat := none
  last : Nat := 0
  healthy : Bool := true
  called : Bool := false

/-- The callback is called once, when all ticks were healthy and the last is late enough. -/
def monitor : Monitor Attempt Seen where
  start := {}
  next s
    | .tick now healthy =>
      { s with since := s.since.or (some now), last := now,
               healthy := s.healthy && healthy && decide (s.since.getD now ≤ now) }
    | .confirm _ => { s with called := true }
  Allowed s
    | .tick _ _ => True
    | .confirm _ => s.called = false ∧ s.healthy = true ∧ 0 < delay ∧ ∃ t, s.since = some t ∧ t + delay ≤ s.last

/-- The log as the confirmation's state tells it. -/
structure Fits (c : Confirmation) (s : Seen) : Prop where
  waiting : c.state = .waiting → callback.isSome → s = {}
  observing : c.state = .observing → s.since = some c.since ∧ s.healthy = true ∧ s.called = false ∧ 0 < delay

variable {delay callback} {c : Confirmation} {s : Seen}

theorem fits_new : Fits delay callback {} (monitor delay).start := ⟨fun _ _ => rfl, nofun⟩

theorem obeys_tick {now : Nat} {healthy : Bool} (h : c.Fits delay callback s) :
    (monitor delay).Obeys (c.tick delay callback now healthy) s (fun c' s' => c'.Fits delay callback s') := by
  refine .emit_bind trivial ?_
  unfold step
  split
  · next hs =>
    refine .ite (fun _ => .pure ⟨nofun, nofun⟩) fun hgood => .ite (fun hcall => .pure ⟨nofun, fun _ => ?_⟩) fun hno =>
      .pure ⟨fun _ hcall => absurd hcall hno, fun ho => ?_⟩
    · rw [not_or, Bool.not_eq_false, Int.not_le] at hgood
      rw [h.waiting hs hcall]
      simpa [monitor] using hgood
    · rw [hs] at ho
      cases ho
  · next hs =>
    obtain ⟨hsince, hhealthy, hcalled, hpos⟩ := h.observing hs
    have hno {s' : Seen} : c.state = .waiting → callback.isSome → s' = {} := by
      rw [hs]
      exact nofun
    refine .ite (fun _ => .pure ⟨nofun, nofun⟩) fun hgood => ?_
    rw [not_or, Bool.not_eq_false, Nat.not_lt] at hgood
    have hstay : c.Fits delay callback ((monitor delay).next s (.tick now healthy)) :=
      ⟨hno, fun _ => by simp [monitor, hsince, hhealthy, hcalled, hpos, hgood]⟩
    refine .ite (fun hlate => ?_) fun _ => .pure hstay
    split
    · refine .call_bind (fun r => ?_) fun r => .pure ⟨?_, ?_⟩
      · refine ⟨hcalled, by simp [monitor, hsince, hhealthy, hgood], hpos, c.since, by simp [monitor, hsince], ?_⟩
        simp only [monitor]
        omega
      all_goals
        intro hr
        dsimp only at hr
        split at hr <;> cases hr
    · exact .pure hstay
  · next hs => exact .pure ⟨by rw [hs]; exact nofun, by rw [hs]; exact nofun⟩
  · next hs => exact .pure ⟨by rw [hs]; exact nofun, by rw [hs]; exact nofun⟩

end Confirmation

/-- **Never fed after a failure, confirmed only after continuous health.** Whatever the callbacks answer, and
whatever they call themselves: every run of the controller keeps to its monitor, and ends with the failure that the
log tells and with the observer called once for it; every run of the confirmation keeps to its monitor. -/
theorem fed_and_confirmed_only_if_healthy {σ : Type} :
    (∀ (setup : Setup σ) (calls : List Call) (world : σ),
      let r := Logged.iterate (Controller.call setup) calls {} (world, [])
      (Controller.monitor setup).Accepts r.2.2 ∧ ∀ f, ((Controller.monitor setup).after r.2.2).failure = some f →
        r.1.failure = f ∧ ((Controller.monitor setup).after r.2.2).observed = if setup.observer.isSome then 1 else 0) ∧
    ∀ (delay : Int) (callback : Option (σ → Status × σ)) (ticks : List (Nat × Bool)) (world : σ),
      (Confirmation.monitor delay).Accepts
        (Logged.iterate (fun c t => Confirmation.tick delay callback c t.1 t.2) ticks {} (world, [])).2.2 := by
  refine ⟨fun setup calls world => ?_, fun delay callback ticks world => ?_⟩
  · have hruns : (Controller.monitor setup).Obeys (Logged.iterate (Controller.call setup) calls {})
        (Controller.monitor setup).start (Controller.Fits setup) :=
      .iterate (fun _ call _ => Controller.obeys_call call) calls _ _ Controller.fits_new
    obtain ⟨haccepts, hfits⟩ := hruns.run world
    refine ⟨haccepts, fun f hf => ?_⟩
    have hfailure := hfits.failure
    have hobserved := hfits.observed
    rw [hf] at hfailure
    split at hfailure
    · next hs =>
      refine ⟨(Option.some.inj hfailure).symm, ?_⟩
      simpa [hs] using hobserved
    · cases hfailure
  · have hruns : (Confirmation.monitor delay).Obeys
        (Logged.iterate (fun c t => Confirmation.tick delay callback c t.1 t.2) ticks {})
        (Confirmation.monitor delay).start (Confirmation.Fits delay callback) :=
      .iterate (fun _ _ _ => Confirmation.obeys_tick) ticks _ _ Confirmation.fits_new
    exact (hruns.run world).1

end DaveOs.Watchdog
