import DaveOs.Hal.Step
import DaveOs.Schedule.Sections

/-!
# The scheduler's timers as the controller's clock

`lib/hal/adapters/daveos.hpp`: `DaveOsClock` arms an alarm for an absolute time with a timer of the
scheduler, and reads the clock itself to know how long that is. The controller has read the clock before
to know what time to ask for. When at least the pause has passed between the two readings, the alarm is
refused and the transaction ends with `timer_error`.
-/

namespace DaveOs.Hal

/-! ## The adapter -/

namespace DaveOsClock

variable {μ ε κ ρ : Type} {g : Schedule.Config μ}

/-- `to_microseconds` of a count of microseconds. -/
def toMicroseconds (count : Nat) : Option Nat := if kForever - 1 < count then none else some count

def timer [DecidableEq κ] (delay : Nat) (callback : κ) (s : Schedule.State g ε κ ρ) :
    DaveOs.Status × Schedule.State g ε κ ρ :=
  match toMicroseconds delay with
  | none => (.invalidArgument, s)
  | some micros => s.timerSlot micros (some callback)

/-- `DaveOsClock::arm`, on a clock that is bound to a scheduler or not. The scheduler reads the clock once
more, `wait` later. -/
def arm [DecidableEq κ] (deadline : Nat) (callback : κ) (wait : Nat) :
    Option (Schedule.State g ε κ ρ) → Status × Option (Schedule.State g ε κ ρ)
  | none => (.timerError, none)
  | some s =>
    let time := s.now
    if deadline ≤ time then (.timerError, some s)
    else
      let r := timer (deadline - time) callback { s with now := s.now + wait }
      (if r.1 = .ok then .ok else .timerError, some r.2)

/-- The scheduler is running, and has a timer slot for the callback. -/
structure Ready [DecidableEq κ] (s : Schedule.State g ε κ ρ) (callback : κ) : Prop where
  running : s.lifecycle = .running
  slot : s.findSlot callback (List.finRange g.timerCapacity) none ≠ none

theorem findSlot_elapsed [DecidableEq κ] (s : Schedule.State g ε κ ρ) (now : Nat) (callback : κ)
    (table : List (Fin g.timerCapacity)) (slot : Option (Fin g.timerCapacity)) :
    Schedule.State.findSlot { s with now := now } callback table slot =
      s.findSlot callback table slot := by
  induction table generalizing slot with
  | nil => rfl
  | cons i rest ih =>
    unfold Schedule.State.findSlot
    rw [ih]

/-- On a running scheduler with a free slot the alarm is armed unless its time has come. -/
theorem arm_ready [DecidableEq κ] {s : Schedule.State g ε κ ρ} {callback : κ} {deadline wait : Nat}
    (h : Ready s callback) (hd : deadline ≤ kMaximumTime) :
    (arm deadline callback wait (some s)).1 = .ok ↔ s.now < deadline := by
  unfold arm
  dsimp only
  by_cases hlate : deadline ≤ s.now
  · rw [if_pos hlate]
    exact iff_of_false nofun (Nat.not_lt.2 hlate)
  · rw [if_neg hlate]
    have hmax : kMaximumTime = kForever - 1 := rfl
    have hmicros : toMicroseconds (deadline - s.now) = some (deadline - s.now) :=
      if_neg (by omega)
    have hslot : Schedule.State.findSlot { s with now := s.now + wait } callback
        (List.finRange g.timerCapacity) none ≠ none := by
      rw [findSlot_elapsed]
      exact h.slot
    obtain ⟨i, hi⟩ := Option.ne_none_iff_exists'.1 hslot
    refine iff_of_true ?_ (Nat.not_le.1 hlate)
    have htimer : (timer (deadline - s.now) callback { s with now := s.now + wait }).1 = .ok := by
      unfold timer
      rw [hmicros]
      unfold Schedule.State.timerSlot
      dsimp only
      rw [if_neg (by simp [h.running]), if_neg (by omega), hi]
    rw [if_pos htimer]

end DaveOsClock

/-! ## What a tick asks of the clock -/

namespace State

variable {α κ : Type}
variable {t : State α κ}

/-- A step of the machine as a function of the clock's answer: it does not ask, it begins a pause, or it
puts off the next poll of a reset. `now` is the time before. -/
inductive Asks (now : Nat) (f : Status → State α κ) : Prop where
  | nothing (h : ∀ arm arm', f arm = f arm')
  | pause (t : State α κ) (amount : Nat) (pos : amount ≠ 0) (now : now ≤ t.now)
      (h : ∀ arm, f arm = t.beginPause { arm } amount)
  | poll (t : State α κ) (now : now ≤ t.now) (h : ∀ arm, f arm = t.pollLater { arm })

section

variable [BusAction α] (c : Setup) (a : Answers) (s : State α κ)
variable {now : Nat}

theorem next_asks (hn : now ≤ s.now) : Asks now fun arm => s.next c { a with arm } := by
  unfold next
  split
  · exact .nothing fun _ _ => rfl
  split
  · exact .nothing fun _ _ => rfl
  · split
    · split
      · exact .nothing fun _ _ => rfl
      · exact .nothing fun _ _ => rfl
    · split
      · next hpause => exact .pause (s.elapse a.wait₂) _ hpause (Nat.le_trans hn (Nat.le_add_right _ _)) fun _ => rfl
      · exact .nothing fun _ _ => rfl

theorem received_asks (hn : now ≤ s.now) (action : α) :
    Asks now fun arm => s.received c { a with arm } action := by
  unfold received
  split
  · unfold retry
    split
    · exact next_asks c a _ hn
    split
    · exact .nothing fun _ _ => rfl
    · exact next_asks c a _ hn
  · exact next_asks c a _ hn

theorem polled_asks (hn : now ≤ s.now) : Asks now fun arm => s.polled c { a with arm } := by
  unfold polled
  split
  · exact .nothing fun _ _ => rfl
  · next action _ =>
    exact received_asks c a { s with memory := (BusAction.rx action).store a.received s.memory } hn action

theorem running_asks (hn : now ≤ s.now) : Asks now fun arm => s.running c { a with arm } := by
  unfold running
  split
  · exact .nothing fun _ _ => rfl
  split
  · dsimp only
    split
    · exact .nothing fun _ _ => rfl
    split
    · exact polled_asks c a (s.observe (.polled .ok)) hn
    · exact .nothing fun _ _ => rfl
  · exact next_asks c a _ hn

omit [BusAction α] in
theorem recover_asks (hn : now ≤ s.now) : Asks now fun arm => s.recover { a with arm } := by
  unfold recover
  split
  · exact .nothing fun _ _ => rfl
  dsimp only
  split
  · exact .nothing fun _ _ => rfl
  · refine .poll ((s.elapse a.wait₂).elapse a.wait₃) ?_ fun _ => rfl
    show now ≤ s.now + a.wait₂ + a.wait₃
    omega

theorem tick_asks : Asks s.now fun arm => s.tick c { a with arm } := by
  unfold tick step
  split
  · exact .nothing fun _ _ => rfl
  · exact .nothing fun _ _ => rfl
  · unfold transferStep
    split
    · exact .nothing fun _ _ => rfl
    · exact running_asks c a (elapse a.wait₁ { s with again := false }) (Nat.le_add_right _ _)
  · exact .nothing fun _ _ => rfl
  · exact .nothing fun _ _ => rfl
  · unfold resetStep
    split
    · exact recover_asks a { elapse a.wait₁ { s with again := false } with resetStarted := true }
        (Nat.le_add_right _ _)
    · exact .nothing fun _ _ => rfl

end

theorem beginPause_clock {amount due : Nat} (arm : Status) (hdue : add t.now amount = some due) :
    t.beginPause { arm } amount = if arm = .ok then
      { t with pauseDue := due, pauseAlarm := some due, machine := .pause }.observe (.paused t.now due)
    else t.timerFailed due := by
  unfold beginPause
  rw [hdue]

theorem tick_paused [BusAction α] {c : Setup} {b : Answers} (hm : t.machine = .pause)
    (hlate : t.pauseDue ≤ t.now + b.wait₁ + b.wait₂) (hearly : t.now + b.wait₁ < t.deadline) :
    (t.tick c b).machine = .transfer ∧ (t.tick c b).completed = t.completed + 1 := by
  have hstep : t.tick c b = pauseStep b { t with again := false } := by
    unfold tick step
    dsimp only
    rw [hm]
  rw [hstep, pauseStep, if_neg (Nat.not_le.2 hearly)]
  unfold pausing
  split
  · exact ⟨rfl, rfl⟩
  · next hnot => exact absurd hlate hnot

end State

/-! ## Pauses and reset polls on the scheduler's timers -/

section

variable {α κ μ ε ι ρ : Type} [BusAction α] [DecidableEq ι] {g : Schedule.Config μ}

/-- Every tick that asks the clock begins a pause or puts off a poll of a reset. Through a running
scheduler with a free timer slot, whose clock the adapter reads `lag` after the controller: the pause
begins exactly when `lag` is less than the pause, and then ends when its time has come; and the reset goes
on to its next poll exactly when `lag` is less than the poll interval. -/
theorem pause_armed_iff (c : Setup) (a : Answers) (s : State α κ) :
    State.Asks s.now (fun arm => s.tick c { a with arm }) ∧
    ∀ (t : State α κ) (scheduler : Schedule.State g ε ι ρ) (callback : ι) (due lag wait : Nat),
      DaveOsClock.Ready scheduler callback → scheduler.now = t.now + lag →
      ∀ r, r = s.tick c { a with arm := (DaveOsClock.arm due callback wait (some scheduler)).1 } →
      (∀ amount, (∀ arm, s.tick c { a with arm } = t.beginPause { arm } amount) →
        add t.now amount = some due →
        (lag < amount ↔ r.machine = .pause ∧ r.history = .paused t.now due :: t.history) ∧
        (amount ≤ lag ↔ r.machine = .finish ∧ r.status = .timerError ∧
          r.history = .timerFailed :: t.history) ∧
        (lag < amount → ∀ b : Answers, due ≤ t.now + b.wait₁ + b.wait₂ →
          t.now + b.wait₁ < t.deadline →
          (r.tick c b).machine = .transfer ∧ (r.tick c b).completed = t.completed + 1)) ∧
      ((∀ arm, s.tick c { a with arm } = t.pollLater { arm }) →
        add t.now State.kResetPollUs = some due →
        (lag < State.kResetPollUs → r = { t with pauseAlarm := some due }) ∧
        (State.kResetPollUs ≤ lag → r = t.resetDone .timerError)) := by
  refine ⟨State.tick_asks c a s, fun t scheduler callback due lag wait hs hlag r hr => ?_⟩
  have harm : ∀ {amount : Nat}, add t.now amount = some due →
      ((DaveOsClock.arm due callback wait (some scheduler)).1 = .ok ↔ lag < amount) := by
    intro amount hdue
    obtain ⟨hsum, hmax⟩ := add_eq_some hdue
    rw [DaveOsClock.arm_ready hs hmax, hlag, hsum]
    omega
  refine ⟨fun amount h hdue => ?_, fun h hdue => ?_⟩
  · rw [h, State.beginPause_clock _ hdue] at hr
    subst hr
    by_cases hok : lag < amount
    · rw [if_pos ((harm hdue).2 hok)]
      exact ⟨iff_of_true hok ⟨rfl, rfl⟩, iff_of_false (by omega) nofun, fun _ b hlate hearly =>
        State.tick_paused rfl hlate hearly⟩
    · rw [if_neg fun hc => hok ((harm hdue).1 hc)]
      exact ⟨iff_of_false hok nofun, iff_of_true (by omega) ⟨rfl, rfl, rfl⟩, fun hc => absurd hc hok⟩
  · rw [h, State.pollLater, hdue] at hr
    subst hr
    refine ⟨fun hok => if_pos ((harm hdue).2 hok), fun hbad => if_neg fun hc => ?_⟩
    have := (harm hdue).1 hc
    omega

end

/-- A scheduler that has been running since time 2, with a free timer slot. -/
def lateScheduler : Schedule.State
    (⟨[()], by decide, 0, nofun, 0, 1, 0, false, 0, 0, false⟩ : Schedule.Config Unit) Unit Unit Unit :=
  { lifecycle := .running, now := 2 }

def shortPause : Spi.Action := { operation := .pause, amount := 1 }

/-- The pause alarm is asked for at time 1 and due at time 2, when the adapter reads the clock. -/
theorem short_pause_fails : DaveOsClock.Ready lateScheduler () ∧
    finished (World.runs ⟨1, false⟩ ({} : World Spi.Action Unit)
      [.init .ok false, .advance 1, .start 0 [shortPause] (some ()) none {}, .pend,
        .irq false fun _ => { arm := (DaveOsClock.arm 2 () 0 (some lateScheduler)).1 }]).state.history =
      [(⟨0, (), .transfer 0⟩, .transfer ⟨.timerError, 0, [shortPause]⟩)] := by
  refine ⟨⟨rfl, ?_⟩, ?_⟩
  · decide +kernel
  · decide +kernel

/-- A transfer whose next action is a pause of ten microseconds. -/
def beforePause : State Spi.Action Unit :=
  { active := true, machine := .transfer, deadline := 100, now := 1
    actions := [{ operation := .pause, amount := 10 }] }

/-- On time: the alarm is asked for at time 1 and due at time 11, and the adapter reads the clock at
time 2. -/
theorem pause_armed_iff_on_time :
    (beforePause.tick ⟨1, false⟩
      { arm := (DaveOsClock.arm 11 () 0 (some lateScheduler)).1 }).machine = .pause := by
  have hready : DaveOsClock.Ready lateScheduler () := ⟨rfl, by decide +kernel⟩
  have h := ((pause_armed_iff ⟨1, false⟩ {} beforePause).2
    { beforePause with again := false } lateScheduler () 11 1 0 hready rfl _ rfl).1 10
    (fun _ => rfl) (by decide)
  exact (h.1.1 (by decide)).1

end DaveOs.Hal
