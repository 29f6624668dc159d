import DaveOs.Hal.Actions

/-!
# Clearing an I2C bus

`lib/hal/i2c/bus_clear.h`: up to nine clocks for a device that holds SDA, then a STOP, bit by bit on open-drain
pins. The machine is polled by the controller's reset timer and waits at least five microseconds after every
edge; a low SCL is never forced high.

A poll's time and the levels it would sample are its arguments. What the pins see is a list of events, newest
first, and `Waveform` says of each event what the earlier ones must have been.
-/

namespace DaveOs.Hal

namespace BusClear

/-- `BusClear::State`. -/
inductive Phase where
  | idle
  | initial
  | low
  | rising
  | high
  | stopLow
  | stopRising
  | stopHigh
  | check
deriving DecidableEq, Repr

end BusClear

/-- The members of a `BusClear`; `available` is the validity of its pins. -/
structure BusClear where
  available : Bool := true
  phase : BusClear.Phase := .idle
  result : Option Status := none
  edge : Nat := 0
  pulses : Nat := 0
  requested : Bool := false
deriving DecidableEq, Repr

namespace BusClear

variable {now : Nat} {b' : BusClear}

/-- A call of a pin hook, with the time of the poll that makes it. -/
inductive Event where
  | enter
  | leave
  /-- SCL is released or driven low. -/
  | scl (release : Bool) (time : Nat)
  | sda (release : Bool) (time : Nat)
  /-- A level of SCL was sampled. -/
  | sawScl (high : Bool) (time : Nat)
  | sawSda (high : Bool) (time : Nat)
deriving DecidableEq, Repr

def kEdgeUs : Nat := 5

def start (b : BusClear) : BusClear := { b with requested := true, result := none }

/-- `Finish`, which also leaves the pins. -/
def finish (b : BusClear) (status : Status) : BusClear := { b with result := some status, phase := .idle }

/-- The state that follows an edge or a sample at `now`. -/
def goto (b : BusClear) (now : Nat) (phase : Phase) : BusClear := { b with edge := now, phase }

/-- The step from `idle`. -/
def begin (b : BusClear) (now : Nat) : BusClear × List Event :=
  if b.requested then
    let b := { b with requested := false, pulses := 0 }
    if b.available then (b.goto now .initial, [.enter]) else ({ b with result := some .faulted }, [])
  else (b, [])

/-- The step from an active state whose last edge is old enough. -/
def work (b : BusClear) (now : Nat) (sclHigh sdaHigh : Bool) : BusClear × List Event :=
  match b.phase with
  | .idle => (b, [])
  | .initial =>
    if sclHigh then
      if sdaHigh then (b.finish .ok, [.leave, .sawSda true now, .sawScl true now])
      else (b.goto now .low, [.scl false now, .sawSda false now, .sawScl true now])
    else (b, [.sawScl false now])
  | .low => (b.goto now .rising, [.scl true now])
  | .rising => if sclHigh then (b.goto now .high, [.sawScl true now]) else (b, [.sawScl false now])
  | .high =>
    if ¬sclHigh then (b.goto now .rising, [.sawScl false now])
    else
      let b := { b with pulses := b.pulses + 1 }
      if sdaHigh ∨ b.pulses = 9 then
        (b.goto now .stopLow, [.sda false now, .scl false now, .sawSda sdaHigh now, .sawScl true now])
      else (b.goto now .low, [.scl false now, .sawSda sdaHigh now, .sawScl true now])
  | .stopLow => (b.goto now .stopRising, [.scl true now])
  | .stopRising => if sclHigh then (b.goto now .stopHigh, [.sawScl true now]) else (b, [.sawScl false now])
  | .stopHigh =>
    if ¬sclHigh then (b.goto now .stopRising, [.sawScl false now])
    else (b.goto now .check, [.sda true now, .sawScl true now])
  | .check =>
    if sclHigh then
      (b.finish (if sdaHigh then .ok else .faulted), [.leave, .sawSda sdaHigh now, .sawScl true now])
    else (b.finish .faulted, [.leave, .sawScl false now])

/-- `poll`, with what the pins see of it, newest first. Its answer is the `result` it leaves. -/
def poll (b : BusClear) (now : Nat) (sclHigh sdaHigh : Bool) : BusClear × List Event :=
  if b.phase = .idle then b.begin now
  else if now - b.edge < kEdgeUs then (b, [])
  else b.work now sclHigh sdaHigh

def abort (b : BusClear) : BusClear × List Event :=
  if b.phase = .idle then ({ b with requested := false, result := some .timeout }, [])
  else (b.finish .timeout, [.leave])

/-- The machine after any calls, with what the pins have seen and the time of the last poll. A clear is started
only while none is in progress. -/
inductive Reach (available : Bool) : BusClear → List Event → Nat → Prop
  | new : Reach available { available } [] 0
  | start {b seen t} (h : Reach available b seen t) (idle : b.phase = .idle) : Reach available b.start seen t
  | poll {b seen t} (h : Reach available b seen t) (now : Nat) (later : t ≤ now) (sclHigh sdaHigh : Bool) :
      Reach available (b.poll now sclHigh sdaHigh).1 ((b.poll now sclHigh sdaHigh).2 ++ seen) now
  | abort {b seen t} (h : Reach available b seen t) : Reach available b.abort.1 (b.abort.2 ++ seen) t

/-! ## The waveform -/

/-- The time of a change the machine makes to a line. -/
def Event.change : Event → Option Nat
  | .scl _ t => some t
  | .sda _ t => some t
  | _ => none

/-- The pins have been entered and not left since. -/
def inside : List Event → Bool
  | [] => false
  | .enter :: _ => true
  | .leave :: _ => false
  | _ :: past => inside past

/-- What has been seen since the pins were last entered. -/
def current (seen : List Event) : List Event := seen.takeWhile (· ≠ .enter)

def Event.isLow : Event → Bool
  | .scl false _ => true
  | _ => false

def Event.isStop : Event → Bool
  | .sda false _ => true
  | _ => false

/-- How often SCL was driven low in the current clear. -/
def lows (seen : List Event) : Nat := (current seen).countP Event.isLow

/-- How often a STOP was begun in the current clear. -/
def stops (seen : List Event) : Nat := (current seen).countP Event.isStop

/-- Up to nine pulses, and one for a STOP. -/
def Counted (seen : List Event) : Prop := lows seen ≤ 9 + stops seen ∧ stops seen ≤ 1

/-- Every line change of the past is at least five microseconds old. -/
def Quiet (past : List Event) (now : Nat) : Prop := ∀ e ∈ past, ∀ t, e.change = some t → t + kEdgeUs ≤ now

/-- What must have been seen before an event. -/
def Event.Fits (past : List Event) : Event → Prop
  | .enter => inside past = false
  | .leave => inside past = true ∧ Counted past
  | .scl true now => inside past = true ∧ Quiet past now
  -- The first pulse needs SCL high once, every other one twice.
  | .scl false now => inside past = true ∧ Quiet past now ∧
      ((∃ rest, past = .sawSda false now :: .sawScl true now :: rest ∧ lows rest = 0) ∨
        ∃ level before rest, past = .sawSda level now :: .sawScl true now :: .sawScl true before :: rest ∧
          before + kEdgeUs ≤ now)
  -- SDA is pulled low together with SCL.
  | .sda false now => inside past = true ∧ ∃ rest, past = .scl false now :: rest ∧ Quiet rest now
  | .sda true now => inside past = true ∧ Quiet past now ∧
      ∃ before rest, past = .sawScl true now :: .sawScl true before :: rest ∧ before + kEdgeUs ≤ now
  | .sawScl _ _ => inside past = true
  | .sawSda _ _ => inside past = true

/-- Every event fits what was seen before it. -/
def Waveform : List Event → Prop
  | [] => True
  | e :: past => e.Fits past ∧ Waveform past

/-! ## The invariant -/

section counting

variable {past : List Event} {e : Event}

theorem lows_cons (he : e ≠ .enter) : lows (e :: past) = lows past + if e.isLow then 1 else 0 := by
  simp [lows, current, he, List.countP_cons]

theorem stops_cons (he : e ≠ .enter) : stops (e :: past) = stops past + if e.isStop then 1 else 0 := by
  simp [stops, current, he, List.countP_cons]

end counting

/-- What an active state knows of its clear. -/
def Progress (b : BusClear) (seen : List Event) : Prop :=
  match b.phase with
  | .idle => Counted seen
  | .initial => b.pulses = 0 ∧ lows seen = 0 ∧ stops seen = 0
  | .low | .rising => b.pulses ≤ 8 ∧ lows seen = b.pulses + 1 ∧ stops seen = 0
  | .high => b.pulses ≤ 8 ∧ lows seen = b.pulses + 1 ∧ stops seen = 0 ∧ ∃ rest, seen = .sawScl true b.edge :: rest
  | .stopLow | .stopRising | .check => lows seen ≤ 10 ∧ stops seen = 1
  | .stopHigh => lows seen ≤ 10 ∧ stops seen = 1 ∧ ∃ rest, seen = .sawScl true b.edge :: rest

/-- What holds of the machine and of what the pins have seen, at the time of the last poll. -/
structure Sound (b : BusClear) (seen : List Event) (last : Nat) : Prop where
  waveform : Waveform seen
  inside : inside seen = decide (b.phase ≠ .idle)
  edge : b.phase ≠ .idle → b.edge ≤ last
  /-- The last edge is that of the last change, or later. -/
  changes : ∀ e ∈ seen, ∀ t, e.change = some t → t ≤ last ∧ (b.phase ≠ .idle → t ≤ b.edge)
  progress : b.Progress seen
  requested : b.requested = true → b.result = none ∧ b.phase = .idle
  working : b.phase ≠ .idle → b.result = none
  ok : b.result = some .ok → ∃ t rest, seen = .leave :: .sawSda true t :: .sawScl true t :: rest

theorem sound_new (available : Bool) : Sound { available } [] 0 where
  waveform := trivial
  inside := rfl
  edge h := absurd rfl h
  changes _ he := by cases he
  progress := ⟨by decide, by decide⟩
  requested := nofun
  working h := absurd rfl h
  ok := nofun

variable {b : BusClear} {seen : List Event} {last : Nat}

theorem Sound.start (h : b.Sound seen last) (hidle : b.phase = .idle) : b.start.Sound seen last where
  waveform := h.waveform
  inside := h.inside
  edge := h.edge
  changes := h.changes
  progress := h.progress
  requested _ := ⟨rfl, hidle⟩
  working hne := absurd hidle hne
  ok := nofun

theorem Sound.counted (h : b.Sound seen last) : Counted seen := by
  have hp := h.progress
  unfold Progress at hp
  split at hp
  · exact hp
  all_goals
    unfold Counted
    omega

/-- Leaving the pins from an active state, after samples that are no changes. -/
theorem Sound.finish (h : b.Sound seen last) (hactive : b.phase ≠ .idle) {status : Status}
    (samples : List Event) (hlater : last ≤ now) (hwave : Waveform (samples ++ seen))
    (hinside : BusClear.inside (samples ++ seen) = true) (hcounted : Counted (samples ++ seen))
    (hquiet : ∀ e ∈ samples, e.change = none)
    (hok : status = .ok → ∃ t rest, samples ++ seen = .sawSda true t :: .sawScl true t :: rest) :
    (b.finish status).Sound (.leave :: samples ++ seen) now where
  waveform := ⟨⟨hinside, hcounted⟩, hwave⟩
  inside := rfl
  edge hne := absurd rfl hne
  changes e he t ht := by
    refine ⟨?_, fun hne => absurd rfl hne⟩
    rcases List.mem_cons.mp he with rfl | he
    · cases ht
    rcases List.mem_append.mp he with he | he
    · rw [hquiet e he] at ht
      cases ht
    · exact Nat.le_trans (h.changes e he t ht).1 hlater
  progress := by simpa [Progress, BusClear.finish, Counted, lows_cons, stops_cons, Event.isLow, Event.isStop] using hcounted
  requested hr := absurd (h.requested hr).2 hactive
  working hne := absurd rfl hne
  ok hr := by
    obtain ⟨t, rest, hs⟩ := hok (Option.some.inj hr)
    exact ⟨t, rest, by rw [List.cons_append, hs]⟩

theorem Sound.abort (h : b.Sound seen last) : b.abort.1.Sound (b.abort.2 ++ seen) last := by
  unfold BusClear.abort
  split
  · next hidle =>
    exact
      { waveform := h.waveform, inside := h.inside, edge := h.edge, changes := h.changes, progress := h.progress
        requested := nofun, working := fun hne => absurd hidle hne
        ok := nofun }
  · next hactive =>
    have hinside : BusClear.inside seen = true := by rw [h.inside]; exact decide_eq_true hactive
    exact h.finish hactive [] (Nat.le_refl _) h.waveform hinside h.counted (by simp) nofun

theorem Quiet.cons {e : Event} (h : Quiet seen now) (he : e.change = none) :
    Quiet (e :: seen) now := by
  intro e' he' t ht
  rcases List.mem_cons.mp he' with rfl | he'
  · rw [he] at ht
    cases ht
  · exact h e' he' t ht

theorem Sound.quiet (h : b.Sound seen last) (hactive : b.phase ≠ .idle)
    (hedge : b.edge + kEdgeUs ≤ now) : Quiet seen now := fun e he t ht =>
  Nat.le_trans (Nat.add_le_add_right ((h.changes e he t ht).2 hactive) _) hedge

theorem Sound.goto (h : b.Sound seen last) (hactive : b.phase ≠ .idle) {pulses : Nat}
    {phase : Phase} (events : List Event) (hlater : last ≤ now) (hphase : phase ≠ .idle)
    (hwave : Waveform (events ++ seen)) (hinside : BusClear.inside (events ++ seen) = true)
    (hnow : ∀ e ∈ events, ∀ t, e.change = some t → t = now)
    (hprogress : (({ b with pulses } : BusClear).goto now phase).Progress (events ++ seen)) :
    (({ b with pulses } : BusClear).goto now phase).Sound (events ++ seen) now where
  waveform := hwave
  inside := by rw [hinside]; exact (decide_eq_true hphase).symm
  edge _ := Nat.le_refl _
  changes e he t ht := by
    rcases List.mem_append.mp he with he | he
    · rw [hnow e he t ht]
      exact ⟨Nat.le_refl _, fun _ => Nat.le_refl _⟩
    · have hle := Nat.le_trans (h.changes e he t ht).1 hlater
      exact ⟨hle, fun _ => hle⟩
  progress := hprogress
  requested hr := absurd (h.requested hr).2 hactive
  working _ := h.working hactive
  ok hr := absurd ((h.working hactive).symm.trans hr) nofun

theorem Sound.stay (h : b.Sound seen last) (hactive : b.phase ≠ .idle) (hlater : last ≤ now)
    (hphase : b.phase ≠ .high ∧ b.phase ≠ .stopHigh) : b.Sound (.sawScl false now :: seen) now where
  waveform := ⟨by rw [Event.Fits, h.inside]; exact decide_eq_true hactive, h.waveform⟩
  inside := h.inside
  edge hne := Nat.le_trans (h.edge hne) hlater
  changes e he t ht := by
    rcases List.mem_cons.mp he with rfl | he
    · cases ht
    · exact ⟨Nat.le_trans (h.changes e he t ht).1 hlater, (h.changes e he t ht).2⟩
  progress := by
    have hp := h.progress
    unfold Progress at hp ⊢
    split at hp
    all_goals simp_all [lows_cons, stops_cons, Event.isLow, Event.isStop]
  requested := h.requested
  working := h.working
  ok hr := absurd ((h.working hactive).symm.trans hr) nofun

theorem Sound.wait (h : b.Sound seen last) (hlater : last ≤ now) : b.Sound seen now where
  waveform := h.waveform
  inside := h.inside
  edge hne := Nat.le_trans (h.edge hne) hlater
  changes e he t ht := ⟨Nat.le_trans (h.changes e he t ht).1 hlater, (h.changes e he t ht).2⟩
  progress := h.progress
  requested := h.requested
  working := h.working
  ok := h.ok

/-- The step from `idle` starts a clear, or reports that there are no pins. -/
theorem Sound.begin (h : b.Sound seen last) (hidle : b.phase = .idle) (hlater : last ≤ now) :
    (b.begin now).1.Sound ((b.begin now).2 ++ seen) now := by
  unfold BusClear.begin
  split
  · next hreq =>
    dsimp only
    split
    · exact
        { waveform := ⟨by
            have hout := h.inside
            rw [hidle] at hout
            exact hout, h.waveform⟩
          inside := rfl
          edge := fun _ => Nat.le_refl _
          changes := fun e he t ht => by
            rcases List.mem_cons.mp he with rfl | he
            · cases ht
            · have hle := Nat.le_trans (h.changes e he t ht).1 hlater
              exact ⟨hle, fun _ => hle⟩
          progress := ⟨rfl, rfl, rfl⟩
          requested := nofun
          working := fun _ => (h.requested hreq).1
          ok := fun hr => absurd ((h.requested hreq).1.symm.trans hr) nofun }
    · have hw := h.wait hlater
      exact
        { waveform := hw.waveform, inside := hw.inside, edge := hw.edge, changes := hw.changes
          progress := by
            have hcounted := h.counted
            simpa only [Progress, hidle, List.nil_append] using hcounted
          requested := nofun, working := fun hne => absurd hidle hne, ok := nofun }
  · exact h.wait hlater

/-- **The step from an active state.** -/
theorem Sound.work (h : b.Sound seen last) (hactive : b.phase ≠ .idle) (hlater : last ≤ now)
    (hedge : b.edge + kEdgeUs ≤ now) (sclHigh sdaHigh : Bool) :
    (b.work now sclHigh sdaHigh).1.Sound ((b.work now sclHigh sdaHigh).2 ++ seen) now := by
  have hin : BusClear.inside seen = true := by rw [h.inside]; exact decide_eq_true hactive
  have hquiet : Quiet seen now := h.quiet hactive hedge
  have hrelease : Waveform ([.scl true now] ++ seen) := ⟨⟨hin, hquiet⟩, h.waveform⟩
  have hsaw (level : Bool) : Waveform ([.sawScl level now] ++ seen) := ⟨hin, h.waveform⟩
  have hboth (scl sda : Bool) : Waveform ([.sawSda sda now, .sawScl scl now] ++ seen) := ⟨hin, hin, h.waveform⟩
  have hquiet' (scl sda : Bool) : Quiet ([.sawSda sda now, .sawScl scl now] ++ seen) now :=
    (hquiet.cons rfl).cons rfl
  have hp := h.progress
  unfold Progress at hp
  unfold BusClear.work
  split
  · next hs => exact absurd hs hactive
  · -- Both lines are high, or a first pulse begins.
    next hs =>
    simp only [hs] at hp
    split
    · split
      · refine h.finish hactive [.sawSda true now, .sawScl true now] hlater (hboth _ _) hin ?_ ?_ ?_
        · simp [Counted, lows_cons, stops_cons, Event.isLow, Event.isStop, hp]
        · simp [Event.change]
        · exact fun _ => ⟨now, seen, rfl⟩
      · refine h.goto hactive [.scl false now, .sawSda false now, .sawScl true now] hlater nofun
          ⟨⟨hin, hquiet' _ _, .inl ⟨seen, rfl, hp.2.1⟩⟩, hboth _ _⟩ hin ?_ ?_
        · simp [Event.change]
        · simp [Progress, BusClear.goto, lows_cons, stops_cons, Event.isLow, Event.isStop, hp]
    · exact h.stay hactive hlater (by rw [hs]; decide)
  · -- The pulse ends.
    next hs =>
    simp only [hs] at hp
    refine h.goto hactive [.scl true now] hlater nofun hrelease hin ?_ ?_
    · simp [Event.change]
    · simp [Progress, BusClear.goto, lows_cons, stops_cons, Event.isLow, Event.isStop, hp]
  · next hs =>
    simp only [hs] at hp
    split
    · refine h.goto hactive [.sawScl true now] hlater nofun (hsaw _) hin ?_ ?_
      · simp [Event.change]
      · simp [Progress, BusClear.goto, lows_cons, stops_cons, Event.isLow, Event.isStop, hp]
    · exact h.stay hactive hlater (by rw [hs]; decide)
  · -- SCL has been high for long enough: another pulse, or the one for a STOP.
    next hs =>
    simp only [hs] at hp
    obtain ⟨hpulses, hlows, hstops, rest, hrest⟩ := hp
    have hlow : Waveform ([.scl false now, .sawSda sdaHigh now, .sawScl true now] ++ seen) :=
      ⟨⟨hin, hquiet' _ _, .inr ⟨sdaHigh, b.edge, rest, by rw [hrest]; rfl, hedge⟩⟩, hboth _ _⟩
    split
    · refine h.goto hactive [.sawScl false now] hlater nofun (hsaw _) hin ?_ ?_
      · simp [Event.change]
      · simp [Progress, BusClear.goto, lows_cons, stops_cons, Event.isLow, Event.isStop, hpulses, hlows, hstops]
    · dsimp only
      split
      · refine h.goto hactive [.sda false now, .scl false now, .sawSda sdaHigh now, .sawScl true now] hlater nofun
          ⟨⟨hin, _, rfl, hquiet' _ _⟩, hlow⟩ hin ?_ ?_
        · simp [Event.change]
        · simp [Progress, BusClear.goto, lows_cons, stops_cons, Event.isLow, Event.isStop, hlows, hstops]
          omega
      · next hgo =>
        refine h.goto hactive [.scl false now, .sawSda sdaHigh now, .sawScl true now] hlater nofun hlow hin ?_ ?_
        · simp [Event.change]
        · simp [Progress, BusClear.goto, lows_cons, stops_cons, Event.isLow, Event.isStop, hlows, hstops]
          omega
  · -- The STOP.
    next hs =>
    simp only [hs] at hp
    refine h.goto hactive [.scl true now] hlater nofun hrelease hin ?_ ?_
    · simp [Event.change]
    · simp [Progress, BusClear.goto, lows_cons, stops_cons, Event.isLow, Event.isStop, hp]
  · next hs =>
    simp only [hs] at hp
    split
    · refine h.goto hactive [.sawScl true now] hlater nofun (hsaw _) hin ?_ ?_
      · simp [Event.change]
      · simp [Progress, BusClear.goto, lows_cons, stops_cons, Event.isLow, Event.isStop, hp]
    · exact h.stay hactive hlater (by rw [hs]; decide)
  · next hs =>
    simp only [hs] at hp
    obtain ⟨hlows, hstops, rest, hrest⟩ := hp
    split
    · refine h.goto hactive [.sawScl false now] hlater nofun (hsaw _) hin ?_ ?_
      · simp [Event.change]
      · simp [Progress, BusClear.goto, lows_cons, stops_cons, Event.isLow, Event.isStop, hlows, hstops]
    · refine h.goto hactive [.sda true now, .sawScl true now] hlater nofun
        ⟨⟨hin, hquiet.cons rfl, b.edge, rest, by rw [hrest]; rfl, hedge⟩, hsaw _⟩ hin ?_ ?_
      · simp [Event.change]
      · simp [Progress, BusClear.goto, lows_cons, stops_cons, Event.isLow, Event.isStop, hlows, hstops]
  · -- The last sample.
    next hs =>
    simp only [hs] at hp
    split
    · refine h.finish hactive [.sawSda sdaHigh now, .sawScl true now] hlater (hboth _ _) hin ?_ ?_ ?_
      · simp [Counted, lows_cons, stops_cons, Event.isLow, Event.isStop, hp]
      · simp [Event.change]
      · intro hok
        split at hok
        · next hsda => exact ⟨now, seen, by rw [hsda]; rfl⟩
        · cases hok
    · refine h.finish hactive [.sawScl false now] hlater (hsaw _) hin ?_ ?_ nofun
      · simp [Counted, lows_cons, stops_cons, Event.isLow, Event.isStop, hp]
      · simp [Event.change]

theorem Sound.poll (h : b.Sound seen last) (hlater : last ≤ now) (sclHigh sdaHigh : Bool) :
    (b.poll now sclHigh sdaHigh).1.Sound ((b.poll now sclHigh sdaHigh).2 ++ seen) now := by
  unfold BusClear.poll
  split
  · next hidle => exact h.begin hidle hlater
  · next hactive =>
    split
    · exact h.wait hlater
    · next hold =>
      refine h.work hactive hlater ?_ sclHigh sdaHigh
      have := h.edge hactive
      simp only [kEdgeUs] at hold ⊢
      omega

/-- **Every reachable machine** keeps to the waveform. -/
theorem Reach.sound {available : Bool} (h : Reach available b seen last) : b.Sound seen last := by
  induction h with
  | new => exact sound_new available
  | start _ idle ih => exact ih.start idle
  | poll _ now later sclHigh sdaHigh ih => exact ih.poll later sclHigh sdaHigh
  | abort _ ih => exact ih.abort

theorem poll_available (now : Nat) (sclHigh sdaHigh : Bool) :
    (b.poll now sclHigh sdaHigh).1.available = b.available := by
  simp only [BusClear.poll, BusClear.begin, BusClear.work]
  repeat' split
  all_goals rfl

theorem Reach.available {available : Bool} (h : Reach available b seen last) : b.available = available := by
  induction h with
  | new => rfl
  | start _ _ ih => exact ih
  | poll _ now _ sclHigh sdaHigh ih => rw [poll_available, ih]
  | abort _ ih =>
    unfold BusClear.abort
    split <;> exact ih

/-! ## Finishing -/

/-- A clear is in progress or has been asked for. -/
def Pending (b : BusClear) : Prop := b.phase ≠ .idle ∨ b.requested = true

/-- How many polls are left, when SCL is not held. -/
def rank (b : BusClear) : Nat :=
  match b.phase with
  | .idle => if b.requested then 33 else 0
  | .initial => 32
  | .low => 31 - 3 * b.pulses
  | .rising => 30 - 3 * b.pulses
  | .high => 29 - 3 * b.pulses
  | .stopLow => 4
  | .stopRising => 3
  | .stopHigh => 2
  | .check => 1

theorem rank_le (b : BusClear) : b.rank ≤ 33 := by
  unfold rank
  split
  · split <;> omega
  all_goals omega

/-- **A poll with SCL high** five microseconds after the last brings the end nearer. -/
theorem Sound.rank_poll (h : b.Sound seen last) (hspaced : last + kEdgeUs ≤ now)
    (hpending : b.Pending) (sdaHigh : Bool) : (b.poll now true sdaHigh).1.rank < b.rank ∧
      ((b.poll now true sdaHigh).1.Pending ∨ (b.poll now true sdaHigh).1.result ≠ none) := by
  unfold BusClear.poll
  split
  · next hidle =>
    have hreq : b.requested = true := hpending.resolve_left fun hne => hne hidle
    simp only [BusClear.begin, hreq, if_true]
    split
    · simp [rank, BusClear.goto, hidle, hreq, Pending]
    · simp [rank, hidle, hreq]
  · next hactive =>
    have hreq : b.requested = false := by
      cases hr : b.requested with
      | false => rfl
      | true => exact absurd (h.requested hr).2 hactive
    have hedge := h.edge hactive
    have hp := h.progress
    unfold Progress at hp
    rw [if_neg (by simp only [kEdgeUs] at hspaced ⊢; omega)]
    unfold BusClear.work
    split at hp
    · next hs => exact absurd hs hactive
    · next hs =>
      simp only [hs, if_true]
      split <;> simp [rank, BusClear.finish, BusClear.goto, Pending, hs, hp, hreq]
    · next hs =>
      simp only [hs, rank, BusClear.goto, Pending]
      simp
      omega
    · next hs =>
      simp only [hs, rank, BusClear.goto, Pending]
      simp
      omega
    · next hs =>
      simp only [hs, not_true_eq_false, if_false]
      split
      · simp [rank, BusClear.goto, Pending, hs]
        omega
      · simp [rank, BusClear.goto, Pending, hs]
        omega
    all_goals
      next hs => simp [rank, BusClear.goto, BusClear.finish, Pending, hs, hreq]

/-- Polls with SCL high, each with its time and the level of SDA. -/
def polls (b : BusClear) : List (Nat × Bool) → BusClear
  | [] => b
  | (now, sdaHigh) :: rest => (b.poll now true sdaHigh).1.polls rest

theorem poll_idle (hidle : ¬b.Pending) (now : Nat) (sclHigh sdaHigh : Bool) : (b.poll now sclHigh sdaHigh).1 = b := by
  obtain ⟨hphase, hreq⟩ := not_or.mp hidle
  rw [poll, if_pos (Decidable.not_not.mp hphase), BusClear.begin, if_neg hreq]

theorem polls_idle (hidle : ¬b.Pending) (times : List (Nat × Bool)) : b.polls times = b := by
  induction times with
  | nil => rfl
  | cons now rest ih => rw [polls, poll_idle hidle, ih]

/-- **The end is reached** in as many polls as are left, spaced by five microseconds. -/
theorem Sound.polls {times : List (Nat × Bool)} : ∀ {b : BusClear} {seen : List Event} {last : Nat},
    b.Sound seen last → (last :: times.map Prod.fst).IsChain (fun s t => s + kEdgeUs ≤ t) → b.Pending →
    b.rank ≤ times.length → ¬(b.polls times).Pending ∧ (b.polls times).result ≠ none := by
  induction times with
  | nil =>
    intro b seen last h _ hpending hrank
    have hlt := (h.rank_poll (Nat.le_refl _) hpending true).1
    rw [Nat.le_zero.mp hrank] at hlt
    exact absurd hlt (Nat.not_lt_zero _)
  | cons now rest ih =>
    intro b seen last h hspaced hpending hrank
    obtain ⟨hnow, hrest⟩ := List.isChain_cons_cons.mp hspaced
    have hlater : last ≤ now.1 := Nat.le_trans (Nat.le_add_right _ _) hnow
    obtain ⟨hlt, hend⟩ := h.rank_poll hnow hpending now.2
    rw [BusClear.polls]
    by_cases hmore : (b.poll now.1 true now.2).1.Pending
    · exact ih (h.poll hlater true now.2) hrest hmore (by rw [List.length_cons] at hrank; omega)
    · rw [polls_idle hmore]
      exact ⟨hmore, hend.resolve_left hmore⟩

/-! ## Starting afresh -/

inductive Call where
  | start
  | poll (now : Nat) (sclHigh sdaHigh : Bool)
  | abort
deriving DecidableEq, Repr

def call (b : BusClear) : Call → BusClear × List Event
  | .start => (b.start, [])
  | .poll now sclHigh sdaHigh => b.poll now sclHigh sdaHigh
  | .abort => b.abort

/-- A sequence of calls: what the pins see of each and what is reported after it, in order. -/
def calls (b : BusClear) : List Call → List (List Event × Option Status)
  | [] => []
  | c :: rest => ((b.call c).2, (b.call c).1.result) :: (b.call c).1.calls rest

/-- Machines that differ at most in what a new clear sets anew. -/
structure Alike (b b' : BusClear) : Prop where
  available : b.available = b'.available
  phase : b.phase = b'.phase
  result : b.result = b'.result
  requested : b.requested = b'.requested
  clear : b.phase ≠ .idle → b = b'

theorem Alike.of_eq (h : b = b') : Alike b b' := by
  subst h
  exact ⟨rfl, rfl, rfl, rfl, fun _ => rfl⟩

theorem Alike.call (h : Alike b b') (c : Call) :
    (b.call c).2 = (b'.call c).2 ∧ Alike (b.call c).1 (b'.call c).1 := by
  by_cases hidle : b.phase = .idle
  · have hidle' : b'.phase = .idle := h.phase.symm.trans hidle
    cases c with
    | start => exact ⟨rfl, h.available, h.phase, rfl, rfl, fun hne => absurd hidle hne⟩
    | abort =>
      simp only [BusClear.call, BusClear.abort, hidle, hidle', if_true, true_and]
      exact ⟨h.available, rfl, rfl, rfl, fun hne => absurd rfl hne⟩
    | poll now sclHigh sdaHigh =>
      simp only [BusClear.call, BusClear.poll, hidle, hidle', if_true, BusClear.begin, ← h.requested, ← h.available]
      split
      · split
        · exact ⟨rfl, .of_eq (by simp only [BusClear.goto, h.available, h.result])⟩
        · exact ⟨rfl, rfl, rfl, rfl, rfl, fun hne => absurd rfl hne⟩
      · exact ⟨rfl, h⟩
  · obtain rfl := h.clear hidle
    exact ⟨rfl, .of_eq rfl⟩

theorem Alike.calls {cs : List Call} : ∀ {b b' : BusClear}, Alike b b' → b.calls cs = b'.calls cs := by
  induction cs with
  | nil => exact fun _ => rfl
  | cons c rest ih =>
    intro b b' h
    obtain ⟨hevents, hnext⟩ := h.call c
    rw [BusClear.calls, BusClear.calls, hevents, hnext.result, ih hnext]

/-! ## The bus clear -/

/-- **The bus clear**, after any calls: what the pins have seen is a waveform of at most nine pulses and one for a
STOP; the pins have been entered and not left exactly while a clear is in progress, and an abort leaves them; `ok`
is reported after both lines were sampled high; a clear that has been asked for ends within 33 polls spaced by
five microseconds in which SCL is high; and a machine that is idle starts as a new one does. -/
theorem bus_clear_waveform {available : Bool} {b : BusClear} {seen : List Event} {last : Nat}
    (h : Reach available b seen last) :
    (Waveform seen ∧ Counted seen) ∧
      (inside seen = true ↔ b.phase ≠ .idle) ∧
      (b.abort.1.phase = .idle ∧ b.abort.2 = if b.phase = .idle then [] else [.leave]) ∧
      (b.result = some .ok → ∃ t rest, seen = .leave :: .sawSda true t :: .sawScl true t :: rest) ∧
      (∀ times : List (Nat × Bool), (last :: times.map Prod.fst).IsChain (fun s t => s + kEdgeUs ≤ t) →
        33 ≤ times.length → b.Pending → ¬(b.polls times).Pending ∧ (b.polls times).result ≠ none) ∧
      (b.phase = .idle → ∀ cs, b.start.calls cs = ({ available } : BusClear).start.calls cs) := by
  have hs := h.sound
  have hpins : b.available = available := h.available
  refine ⟨⟨hs.waveform, hs.counted⟩, ?_, ?_, hs.ok, fun times hspaced hlength hpending => ?_, fun hidle cs => ?_⟩
  · rw [hs.inside, decide_eq_true_eq]
  · unfold abort
    split
    · next hidle => exact ⟨hidle, rfl⟩
    · exact ⟨rfl, rfl⟩
  · exact hs.polls hspaced hpending (Nat.le_trans b.rank_le hlength)
  · exact Alike.calls ⟨hpins, hidle, rfl, rfl, fun hne => absurd hidle hne⟩

theorem bus_clear_waveform_pulse :
    ∃ seen, Reach true { edge := 36, pulses := 1, result := some .ok } seen 41 ∧ Waveform seen ∧ lows seen = 2 := by
  have hnew : Reach true {} [] 0 := .new
  have hpulse := (((hnew.start rfl).poll 1 (by decide) true true).poll 6 (by decide) true false).poll 11 (by decide)
    true false
  have hstop := ((hpulse.poll 16 (by decide) true true).poll 21 (by decide) true true).poll 26 (by decide) true true
  have hend := ((hstop.poll 31 (by decide) true true).poll 36 (by decide) true true).poll 41 (by decide) true true
  exact ⟨_, hend, (bus_clear_waveform hend).1.1, by decide⟩

end BusClear

end DaveOs.Hal
