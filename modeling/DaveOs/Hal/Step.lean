import DaveOs.Hal.Controller

/-!
# What a tick can do

A tick on an active controller either leaves the transaction in progress (`Quiet`) or ends it
(`Completed`). An interrupt entry is up to eight such ticks, and once the deadline has passed the third of
them at the latest ends the transaction.
-/

namespace DaveOs.Hal

variable {α κ : Type}

/-! ## Reading the history -/

/-- The accepted transactions, newest first. -/
def accepted : List (Observation α κ) → List (Ticket κ) :=
  List.filterMap fun | .accepted ticket => some ticket | _ => none

/-- The finished transactions with their outcomes, newest first. -/
def finished : List (Observation α κ) → List (Ticket κ × Outcome α) :=
  List.filterMap fun | .finished ticket outcome => some (ticket, outcome) | _ => none

def called : List (Observation α κ) → List (Ticket κ × Outcome α) :=
  List.filterMap fun | .called ticket outcome => some (ticket, outcome) | _ => none

/-- The status of the transfer accepted last, from what has happened to it since. -/
def verdict : List (Observation α κ) → Status
  | [] => .ok
  | .accepted _ :: _ => .ok
  | .began status :: _ => status
  | .started _ _ _ status :: h => if status = .ok then verdict h else status
  | .polled status :: h => if status = .ok then verdict h else status
  | .mismatched :: _ => .responseMismatch
  | .timerFailed :: _ => .timerError
  | .expired :: _ => .timeout
  | .cleaned status :: h => if status ≠ .ok ∧ verdict h = .ok then .hardwareError else verdict h
  | _ :: h => verdict h

/-- Observations that neither open nor close a transaction. -/
def Observation.Inner : Observation α κ → Prop
  | .accepted _ | .finished _ _ | .called _ _ | .cleared _ => False
  | _ => True

section

variable {added h : List (Observation α κ)}

theorem accepted_inner (ha : ∀ o ∈ added, o.Inner) : accepted (added ++ h) = accepted h := by
  have hnil : accepted added = [] := by
    refine List.filterMap_eq_nil_iff.mpr fun o ho => ?_
    cases o with
    | accepted ticket => exact (ha _ ho).elim
    | _ => rfl
  rw [accepted, List.filterMap_append, ← accepted, hnil, List.nil_append]

theorem finished_inner (ha : ∀ o ∈ added, o.Inner) : finished (added ++ h) = finished h := by
  have hnil : finished added = [] := by
    refine List.filterMap_eq_nil_iff.mpr fun o ho => ?_
    cases o with
    | finished ticket outcome => exact (ha _ ho).elim
    | _ => rfl
  rw [finished, List.filterMap_append, ← finished, hnil, List.nil_append]

theorem called_inner (ha : ∀ o ∈ added, o.Inner) : called (added ++ h) = called h := by
  have hnil : called added = [] := by
    refine List.filterMap_eq_nil_iff.mpr fun o ho => ?_
    cases o with
    | called ticket outcome => exact (ha _ ho).elim
    | _ => rfl
  rw [called, List.filterMap_append, ← called, hnil, List.nil_append]

end

namespace State

variable {i j : Counter} {device : Nat}

/-- The counters of the controller, or of a device. -/
def cells (s : State α κ) : Option Nat → Counters
  | none => s.counters
  | some device => s.deviceCounters device

/-- The status is the one that the history tells. -/
def Tracks (s : State α κ) : Prop := s.status = verdict s.history

/-- Callbacks that the machine has left for the interrupt entry. -/
def taken (s : State α κ) : List (Ticket κ × Outcome α) :=
  (s.notification.map fun ticket => (ticket, .transfer s.notificationResult)).toList ++
    (s.resetNotification.map fun ticket => (ticket, .reset s.resetResult)).toList

theorem taken_eq_nil {s : State α κ} :
    s.taken = [] ↔ s.notification = none ∧ s.resetNotification = none := by
  simp [taken]

/-- A transaction in progress stays as it is. -/
structure Quiet (s s' : State α κ) : Prop where
  active : s'.active = s.active
  resetting : s'.resetting = s.resetting
  callback : s'.callback = s.callback
  resetCallback : s'.resetCallback = s.resetCallback
  taken : s'.taken = s.taken
  deadline : s'.deadline = s.deadline
  device : s'.device = s.device
  alarm : s'.alarm = s.alarm
  serial : s'.serial = s.serial
  now : s.now ≤ s'.now
  machine : s'.machine = .reset → s.machine = .reset ∨ s.resetting = true
  history : ∃ added, (∀ o ∈ added, o.Inner) ∧ s'.history = added ++ s.history
  tracks : s.Tracks → s'.Tracks
  accepted : ∀ d, s'.cells d .accepted = s.cells d .accepted
  completed : ∀ d, s'.cells d .completed = s.cells d .completed

variable {s s₁ s₂ s' : State α κ} {c : Setup} {a : Answers} {t : Ticket κ} {outcome : Outcome α}

theorem Quiet.refl (s : State α κ) : Quiet s s where
  active := rfl
  resetting := rfl
  callback := rfl
  resetCallback := rfl
  taken := rfl
  deadline := rfl
  device := rfl
  alarm := rfl
  serial := rfl
  now := Nat.le_refl _
  machine := Or.inl
  history := ⟨[], by simp, rfl⟩
  tracks := id
  accepted _ := rfl
  completed _ := rfl

theorem Quiet.trans (h₁ : Quiet s s₁) (h₂ : Quiet s₁ s₂) : Quiet s s₂ where
  active := h₂.active.trans h₁.active
  resetting := h₂.resetting.trans h₁.resetting
  callback := h₂.callback.trans h₁.callback
  resetCallback := h₂.resetCallback.trans h₁.resetCallback
  taken := h₂.taken.trans h₁.taken
  deadline := h₂.deadline.trans h₁.deadline
  device := h₂.device.trans h₁.device
  alarm := h₂.alarm.trans h₁.alarm
  serial := h₂.serial.trans h₁.serial
  now := Nat.le_trans h₁.now h₂.now
  machine hm := by
    rcases h₂.machine hm with hm | hr
    · exact h₁.machine hm
    · exact .inr (h₁.resetting ▸ hr)
  history := by
    obtain ⟨added₁, hi₁, hh₁⟩ := h₁.history
    obtain ⟨added₂, hi₂, hh₂⟩ := h₂.history
    refine ⟨added₂ ++ added₁, ?_, by rw [hh₂, hh₁, List.append_assoc]⟩
    intro o ho
    rcases List.mem_append.mp ho with ho | ho
    · exact hi₂ o ho
    · exact hi₁ o ho
  tracks := h₂.tracks ∘ h₁.tracks
  accepted d := (h₂.accepted d).trans (h₁.accepted d)
  completed d := (h₂.completed d).trans (h₁.completed d)

/-! ## Counting -/

theorem Counters.increment_of_ne {cells : Counters} (h : j ≠ i) :
    cells.increment i j = cells j := if_neg h

theorem count_cells_of_ne (h : j ≠ i) (d : Option Nat) :
    (s.count c device i).cells d j = s.cells d j := by
  cases d with
  | none => exact Counters.increment_of_ne h
  | some d =>
    show (if d = device ∧ d < c.devices then (s.deviceCounters d).increment i else s.deviceCounters d) j = _
    split
    · exact Counters.increment_of_ne h
    · rfl

theorem Quiet.count (ha : Counter.accepted ≠ i) (hc : Counter.completed ≠ i) :
    Quiet s (s.count c device i) :=
  { Quiet.refl s with accepted := count_cells_of_ne ha, completed := count_cells_of_ne hc }

theorem Quiet.recordIf {p : Bool} (ha : Counter.accepted ≠ i) (hc : Counter.completed ≠ i) :
    Quiet s (s.recordIf c p i) := by
  unfold State.recordIf
  split
  · exact Quiet.count ha hc
  · exact Quiet.refl s

/-! ## Ticks in progress -/

theorem Quiet.fields {initialized faulted started again setupFailed resetStarted pollRetry : Bool}
    {completed pauseDue pollCount : Nat} {pauseAlarm : Option Nat} {memory : Memory} :
    Quiet s { s with
      initialized, faulted, started, again, setupFailed, resetStarted, pollRetry, completed, pauseDue,
      pollCount, pauseAlarm, memory } :=
  { Quiet.refl s with }

theorem Quiet.elapse (wait : Nat) : Quiet s (s.elapse wait) :=
  { Quiet.refl s with now := Nat.le_add_right _ _ }

theorem Quiet.leave : Quiet s s.leave := { Quiet.refl s with machine := nofun }

theorem Quiet.observe (o : Observation α κ) {status : Status} (hi : o.Inner)
    (hv : s.Tracks → status = verdict (o :: s.history)) : Quiet s ({ s with status }.observe o) :=
  { Quiet.refl s with
    history := ⟨[o], by simpa using hi, rfl⟩
    tracks := hv }

theorem Quiet.timerFailed (due : Nat) : Quiet s (s.timerFailed due) := by
  have hdue : Quiet s { s with pauseDue := due } := Quiet.fields
  exact hdue.trans ((Quiet.observe .timerFailed trivial fun _ => rfl).trans Quiet.leave)

theorem Quiet.beginPause {amount : Nat} : Quiet s (s.beginPause a amount) := by
  unfold State.beginPause
  split
  · exact Quiet.timerFailed _
  split
  · exact { Quiet.refl _ with
      machine := nofun
      history := ⟨[.paused _ _], by simp [Observation.Inner], rfl⟩ }
  · exact Quiet.timerFailed _

theorem Quiet.pauseStep : Quiet s (s.pauseStep a) := by
  unfold State.pauseStep
  split
  · exact (Quiet.elapse a.wait₁).trans ((Quiet.observe .expired trivial fun _ => rfl).trans Quiet.leave)
  · refine ((Quiet.elapse a.wait₁).trans (Quiet.elapse a.wait₂)).trans ?_
    unfold State.pausing
    split
    · exact { Quiet.refl _ with
        machine := nofun
        history := ⟨[.resumed _], by simp [Observation.Inner], rfl⟩ }
    · exact Quiet.refl _

section

variable [BusAction α]
variable {action : α}

theorem Quiet.recordAttempts : Quiet s (s.recordAttempts c action) :=
  (Quiet.recordIf (by decide) (by decide)).trans (Quiet.recordIf (by decide) (by decide))

theorem Quiet.recordActionError : Quiet s (s.recordActionError c) := by
  unfold State.recordActionError
  split
  · split
    · exact Quiet.refl s
    · exact (Quiet.recordIf (by decide) (by decide)).trans (Quiet.recordIf (by decide) (by decide))
  · exact Quiet.refl s

theorem Quiet.fail {o : Observation α κ} {status : Status} (hi : o.Inner)
    (hv : status = verdict (o :: s.history)) : Quiet s ((s.observe o).fail c status) :=
  ((Quiet.observe o hi fun _ => hv).trans Quiet.recordActionError).trans Quiet.leave

theorem Quiet.backendStart : Quiet s (s.backendStart c a action) := by
  unfold State.backendStart
  split
  · exact Quiet.observe (.started _ _ _ .ok) trivial fun ht => ht
  · rename_i hs
    exact Quiet.fail trivial (if_neg hs).symm

theorem Quiet.next : Quiet s (s.next c a) := by
  unfold State.next
  split
  · exact Quiet.leave
  split
  · exact Quiet.refl s
  split
  · split
    · exact { Quiet.refl s with history := ⟨[.matched], by simp [Observation.Inner], rfl⟩ }
    · exact (Quiet.observe .mismatched trivial fun _ => rfl).trans Quiet.leave
  split
  · exact (Quiet.elapse a.wait₂).trans Quiet.beginPause
  · exact Quiet.recordAttempts.trans (Quiet.fields.trans Quiet.backendStart)

theorem Quiet.retry {limit : Nat} : Quiet s (s.retry c a limit) := by
  unfold State.retry
  split
  · exact Quiet.fields.trans Quiet.next
  split
  · exact Quiet.fields.trans (Quiet.fail trivial rfl)
  · exact Quiet.fields.trans Quiet.next

theorem Quiet.received : Quiet s (s.received c a action) := by
  unfold State.received
  split
  · exact Quiet.retry
  · exact Quiet.fields.trans Quiet.next

theorem Quiet.polled : Quiet s (s.polled c a) := by
  unfold State.polled
  split
  · exact Quiet.refl s
  · exact Quiet.fields.trans Quiet.received

theorem Quiet.running : Quiet s (s.running c a) := by
  unfold State.running
  split
  · exact Quiet.fail trivial rfl
  split
  · split
    · exact Quiet.refl s
    split
    · exact (Quiet.observe (.polled .ok) trivial fun ht => ht).trans Quiet.polled
    · rename_i hs
      exact Quiet.fail trivial (if_neg hs).symm
  · exact Quiet.next

theorem Quiet.transferStep : Quiet s (s.transferStep c a) := by
  unfold State.transferStep
  split
  · exact Quiet.fields.trans Quiet.leave
  · exact (Quiet.elapse a.wait₁).trans Quiet.running

end

/-! ## The end of a transaction -/

inductive Doing (s : State α κ) : Option (Ticket κ) → Prop where
  | free (active : s.active = false) (resetting : s.resetting = false)
      (machine : s.machine = .idle ∨ s.machine = .faulted) (callback : s.callback = none)
      (resetCallback : s.resetCallback = none) : Doing s none
  | transfer (t : Ticket κ) (active : s.active = true) (resetting : s.resetting = false)
      (machine : s.machine ≠ .reset) (callback : s.callback = some t)
      (resetCallback : s.resetCallback = none) (kind : t.kind = .transfer s.device) : Doing s (some t)
  | reset (t : Ticket κ) (active : s.active = true) (resetting : s.resetting = true)
      (machine : s.machine = .idle ∨ s.machine = .faulted ∨ s.machine = .reset)
      (callback : s.callback = none) (resetCallback : s.resetCallback = some t) (kind : t.kind = .reset) :
      Doing s (some t)

theorem Doing.active {t : Option (Ticket κ)} (h : Doing s t) : s.active = t.isSome := by
  cases h with
  | free active | transfer t active | reset t active => exact active

theorem Doing.again {t : Option (Ticket κ)} (h : Doing s t) (again : Bool) :
    Doing { s with again } t := by
  cases h with
  | free ha hr hm hc hn => exact .free ha hr hm hc hn
  | transfer t ha hr hm hc hn hk => exact .transfer t ha hr hm hc hn hk
  | reset t ha hr hm hc hn hk => exact .reset t ha hr hm hc hn hk

/-- The transactions that a set of counters is about: all transfers, or those of a device. -/
def Counts : Option Nat → Kind → Bool
  | none, .transfer _ => true
  | some device, .transfer d => d = device
  | _, .reset => false

def bumped (n : Nat) (p : Bool) : Nat := if p ∧ n ≠ kCounterMax then n + 1 else n

/-- The transaction has ended, and its callback is there to be taken. -/
structure Completed (c : Setup) (s s' : State α κ) (t : Ticket κ) (outcome : Outcome α) : Prop where
  free : Doing s' none
  taken : s.taken = [] → s'.taken = [(t, outcome)]
  resetting : ∀ result, outcome = .transfer result → s.resetting = false
  serial : s'.serial = s.serial
  now : s.now ≤ s'.now
  history : ∃ added, (∀ o ∈ added, o.Inner) ∧ s'.history = .finished t outcome :: (added ++ s.history) ∧
    ∀ result, outcome = .transfer result → (∃ answer, added.head? = some (.cleaned answer)) ∧
      (s.Tracks → result.status = verdict (added ++ s.history))
  accepted : ∀ d, s'.cells d .accepted = s.cells d .accepted
  completed : ∀ d, (∀ i, d = some i → i < c.devices) →
    s'.cells d .completed = bumped (s.cells d .completed) (Counts d t.kind)

theorem Completed.of_quiet (h : Quiet s s₁) (h' : Completed c s₁ s₂ t outcome) :
    Completed c s s₂ t outcome where
  free := h'.free
  taken ht := h'.taken (h.taken.trans ht)
  resetting result ho := h.resetting.symm.trans (h'.resetting result ho)
  serial := h'.serial.trans h.serial
  now := Nat.le_trans h.now h'.now
  history := by
    obtain ⟨added₁, hi₁, hh₁⟩ := h.history
    obtain ⟨added₂, hi₂, hh₂, hr⟩ := h'.history
    refine ⟨added₂ ++ added₁, ?_, by rw [hh₂, hh₁, List.append_assoc], fun result ho => ?_⟩
    · intro o ho
      rcases List.mem_append.mp ho with ho | ho
      · exact hi₂ o ho
      · exact hi₁ o ho
    · obtain ⟨⟨answer, ha⟩, hv⟩ := hr result ho
      refine ⟨⟨answer, by rw [List.head?_append, ha]; rfl⟩, fun ht => ?_⟩
      rw [List.append_assoc, ← hh₁]
      exact hv (h.tracks ht)
  accepted d := (h'.accepted d).trans (h.accepted d)
  completed d hd := by rw [h'.completed d hd, h.completed d]

theorem Doing.quiet_transfer (h : Quiet s s') (ha : s.active = true) (hr : s.resetting = false)
    (hm : s.machine ≠ .reset) (hc : s.callback = some t) (hn : s.resetCallback = none)
    (hk : t.kind = .transfer s.device) : Doing s' (some t) := by
  refine .transfer t (h.active.trans ha) (h.resetting.trans hr) ?_ (h.callback.trans hc)
    (h.resetCallback.trans hn) (by rw [h.device]; exact hk)
  intro hm'
  rcases h.machine hm' with hm' | hr'
  · exact hm hm'
  · exact absurd (hr.symm.trans hr') nofun

theorem Counters.increment_self (cells : Counters) (i : Counter) :
    cells.increment i i = bumped (cells i) true := by
  unfold Counters.increment bumped
  rw [if_pos rfl]
  split <;> simp_all

theorem bumped_false (n : Nat) : bumped n false = n := rfl

theorem count_cells {d : Option Nat} (hd : ∀ j, d = some j → j < c.devices) :
    (s.count c device i).cells d i = bumped (s.cells d i) (Counts d (.transfer device)) := by
  cases d with
  | none => exact Counters.increment_self _ i
  | some d =>
    show (if d = device ∧ d < c.devices then (s.deviceCounters d).increment i else s.deviceCounters d) i =
      bumped (s.deviceCounters d i) (decide (device = d))
    split
    · rename_i h
      rw [Counters.increment_self, decide_eq_true h.1.symm]
    · rename_i h
      have hne : ¬ device = d := fun he => h ⟨he.symm, hd d rfl⟩
      rw [decide_eq_false hne, bumped_false]

theorem recordOutcome_spec : ∃ counters deviceCounters,
    s.recordOutcome c = { s with counters, deviceCounters } ∧
    (∀ d, (s.recordOutcome c).cells d .accepted = s.cells d .accepted) ∧
    ∀ d, (s.recordOutcome c).cells d .completed = (s.record c .completed).cells d .completed := by
  have hif {s : State α κ} {p : Bool} {i : Counter} : ∃ counters deviceCounters,
      s.recordIf c p i = { s with counters, deviceCounters } := by
    unfold recordIf
    split
    · exact ⟨_, _, rfl⟩
    · exact ⟨_, _, rfl⟩
  have hquiet : Quiet (s.record c .completed) (s.recordOutcome c) :=
    (Quiet.recordIf (by decide) (by decide)).trans (Quiet.recordIf (by decide) (by decide))
  obtain ⟨counters₁, deviceCounters₁, h₁⟩ := hif (s := s.record c .completed) (p := s.status ≠ .ok)
    (i := .failed)
  obtain ⟨counters₂, deviceCounters₂, h₂⟩ :=
    hif (s := (s.record c .completed).recordIf c (s.status ≠ .ok) .failed) (p := s.status = .timeout)
      (i := .timedOut)
  refine ⟨counters₂, deviceCounters₂, ?_, fun d => ?_, hquiet.completed⟩
  · unfold recordOutcome
    rw [h₂, h₁]
    rfl
  · exact (hquiet.accepted d).trans (count_cells_of_ne (by decide) d)

theorem finishStep_completed (hr : s.resetting = false) (hc : s.callback = some t)
    (hn : s.resetCallback = none) (hk : t.kind = .transfer s.device) :
    Completed c s (s.finishStep c a) t
      (.transfer ⟨(s.cleanup a.finish).status, s.completed, s.actions⟩) := by
  obtain ⟨counters, deviceCounters, hs, hacc, hcomp⟩ :=
    recordOutcome_spec (s := s.cleanup a.finish) (c := c)
  have hcells (i : Counter) (hi : i ≠ .cleanupFailures) (d : Option Nat) :
      (s.cleanup a.finish).cells d i = s.cells d i := by
    cases d with
    | none =>
      show (if a.finish = .ok then s.counters else s.counters.increment .cleanupFailures) i = _
      split
      · rfl
      · exact Counters.increment_of_ne hi
    | some d => rfl
  have hcells' (i : Counter) (d : Option Nat) :
      (s.finishStep c a).cells d i = ((s.cleanup a.finish).recordOutcome c).cells d i := by
    cases d <;> rfl
  unfold finishStep
  rw [hs]
  refine ⟨.free rfl hr ?_ rfl hn, fun ht => ?_, fun _ _ => hr, rfl, Nat.le_refl _,
    ⟨[.cleaned a.finish], ?_, ?_, ?_⟩, ?_, ?_⟩
  · by_cases hf : (s.cleanup a.finish).faulted = true
    · exact .inr (if_pos hf)
    · exact .inl (if_neg hf)
  · show (s.callback.map _).toList ++ (s.resetNotification.map _).toList = _
    rw [hc, (taken_eq_nil.mp ht).2]
    rfl
  · simp [Observation.Inner]
  · show (s.callback.map _).toList ++ _ = _
    rw [hc]
    rfl
  · intro result ho
    refine ⟨⟨a.finish, rfl⟩, fun ht => ?_⟩
    rw [← Outcome.transfer.inj ho]
    show (if a.finish ≠ .ok ∧ s.status = .ok then .hardwareError else s.status) =
      if a.finish ≠ .ok ∧ verdict s.history = .ok then .hardwareError else verdict s.history
    rw [← ht]
  · intro d
    rw [← hs]
    exact (hcells' _ d).trans ((hacc d).trans (hcells .accepted (by decide) d))
  · intro d hd
    rw [← hs, hk]
    refine (hcells' _ d).trans ((hcomp d).trans ((count_cells hd).trans ?_))
    rw [hcells .completed (by decide) d]
    rfl

theorem resetDone_completed {result : Status} (hc : s.callback = none) (hr : s.resetCallback = some t)
    (hk : t.kind = .reset) : Completed c s (s.resetDone result) t (.reset result) := by
  have hcells (i : Counter) (hi : i ≠ .resetFailures) (d : Option Nat) :
      (s.resetDone result).cells d i = s.cells d i := by
    cases d with
    | none =>
      show (if result = .ok then s.counters else s.counters.increment .resetFailures) i = _
      split
      · rfl
      · exact Counters.increment_of_ne hi
    | some d => rfl
  refine ⟨.free rfl rfl ?_ hc rfl, fun ht => ?_, nofun, rfl, Nat.le_refl _, ⟨[], by simp, ?_, nofun⟩,
    hcells .accepted (by decide), fun d _ => ?_⟩
  · by_cases hok : result = .ok
    · exact .inl (if_pos hok)
    · exact .inr (if_neg hok)
  · show (s.notification.map _).toList ++ (s.resetCallback.map _).toList = _
    rw [hr, (taken_eq_nil.mp ht).1]
    rfl
  · show (s.resetCallback.map _).toList ++ _ = _
    rw [hr]
    rfl
  · rw [hcells .completed (by decide) d, hk]
    cases d <;> rfl

/-- A tick on an active controller goes on with the transaction or ends it. -/
inductive Progress (c : Setup) (s s' : State α κ) (t : Ticket κ) : Prop where
  | quiet (h : Quiet s s') (doing : Doing s' (some t))
  | completed (outcome : Outcome α) (h : Completed c s s' t outcome)

theorem Progress.of_quiet (h : Quiet s s₁) (h' : Progress c s₁ s₂ t) : Progress c s s₂ t := by
  cases h' with
  | quiet h₂ doing => exact .quiet (h.trans h₂) doing
  | completed outcome h₂ => exact .completed outcome (h₂.of_quiet h)

theorem recover_progress (ha : s.active = true) (hr : s.resetting = true) (hm : s.machine = .reset)
    (hc : s.callback = none) (hn : s.resetCallback = some t) (hk : t.kind = .reset) :
    Progress c s (s.recover a) t := by
  have hdone {s : State α κ} {result : Status} (hc : s.callback = none) (hn : s.resetCallback = some t) :
      Progress c s (s.resetDone result) t := .completed _ (resetDone_completed hc hn hk)
  unfold recover
  split
  · exact hdone hc hn
  split
  · exact .of_quiet (Quiet.elapse a.wait₂) (hdone hc hn)
  · refine .of_quiet ((Quiet.elapse a.wait₂).trans (Quiet.elapse a.wait₃)) ?_
    unfold pollLater
    split
    · exact hdone hc hn
    split
    · exact .quiet Quiet.fields (.reset t ha hr (.inr (.inr hm)) hc hn hk)
    · exact hdone hc hn

theorem resetStep_progress (ha : s.active = true) (hr : s.resetting = true) (hm : s.machine = .reset)
    (hc : s.callback = none) (hn : s.resetCallback = some t) (hk : t.kind = .reset) :
    Progress c s (s.resetStep c a) t := by
  unfold resetStep
  split
  · have hfields : Quiet s { s.elapse a.wait₁ with resetStarted := true } :=
      (Quiet.elapse a.wait₁).trans Quiet.fields
    exact .of_quiet hfields (recover_progress ha hr hm hc hn hk)
  · exact .of_quiet (Quiet.elapse a.wait₁) (.completed _ (resetDone_completed hc hn hk))

theorem takeUp_transfer (hr : s.resetting = false) (ha : s.active = true) :
    s.takeUp = { s with machine := .transfer, again := true } := by
  unfold takeUp
  rw [if_neg (by simp [hr]), if_pos ha]

theorem takeUp_reset (hr : s.resetting = true) : s.takeUp = { s with machine := .reset, again := true } :=
  if_pos hr

theorem recover_expired (h : s.deadline ≤ s.now) : (s.recover a).active = false := by
  unfold recover
  rw [if_pos h]
  rfl

section

variable [BusAction α]

theorem step_progress (h : Doing s (some t)) : Progress c s (s.step c a) t := by
  cases h with
  | transfer _ ha hr hm hc hn hk =>
    have htake : Progress c s s.takeUp t := by
      rw [takeUp_transfer hr ha]
      exact .quiet { Quiet.refl s with machine := nofun } (.transfer t ha hr nofun hc hn hk)
    unfold step
    split
    · exact htake
    · exact htake
    · exact .quiet Quiet.transferStep (.quiet_transfer Quiet.transferStep ha hr hm hc hn hk)
    · exact .quiet Quiet.pauseStep (.quiet_transfer Quiet.pauseStep ha hr hm hc hn hk)
    · exact .completed _ (finishStep_completed hr hc hn hk)
    · rename_i hm'
      exact absurd hm' hm
  | reset _ ha hr hm hc hn hk =>
    have htake : Progress c s s.takeUp t := by
      rw [takeUp_reset hr]
      exact .quiet { Quiet.refl s with machine := fun _ => .inr hr }
        (.reset t ha hr (.inr (.inr rfl)) hc hn hk)
    unfold step
    rcases hm with hm | hm | hm
    · rw [hm]
      exact htake
    · rw [hm]
      exact htake
    · rw [hm]
      exact resetStep_progress ha hr hm hc hn hk

theorem serve_free (ticks : Nat) (answers : Nat → Answers) (h : s.active = false) :
    s.serve c ticks answers = s := by
  cases ticks with
  | zero => rfl
  | succ ticks => exact if_neg (by simp [h])

theorem tick_progress (h : Doing s (some t)) : Progress c s (s.tick c a) t :=
  (step_progress (h.again false)).of_quiet Quiet.fields

theorem serve_progress (ticks : Nat) (answers : Nat → Answers) (h : Doing s (some t)) :
    Progress c s (s.serve c ticks answers) t := by
  induction ticks generalizing answers s with
  | zero => exact .quiet (Quiet.refl s) h
  | succ ticks ih =>
    have hactive : s.active = true := h.active
    have htick : Progress c s (s.tick c (answers 0)) t := tick_progress h
    unfold serve
    rw [if_pos hactive]
    split
    · cases htick with
      | quiet hq hd => exact (ih _ hd).of_quiet hq
      | completed outcome hd =>
        rw [serve_free _ _ hd.free.active]
        exact .completed outcome hd
    · exact htick

/-! ## Past the deadline -/

/-- The ticks that a transaction past its deadline still needs. -/
def rank : Machine → Nat
  | .idle | .faulted => 3
  | .transfer | .pause => 2
  | .finish | .reset => 1

theorem running_expired (h : s.deadline ≤ s.now) :
    (s.running c a).machine = .finish ∧ (s.running c a).again = true := by
  unfold running
  rw [if_pos h]
  exact ⟨rfl, rfl⟩

/-- Past the deadline a tick ends the transaction, or brings its end nearer and asks for another. -/
theorem step_expired (h : Doing s (some t)) (hd : s.deadline ≤ s.now) :
    (s.step c a).active = false ∨ (s.step c a).again = true ∧ rank (s.step c a).machine < rank s.machine := by
  have hnow : s.deadline ≤ s.now + a.wait₁ := Nat.le_trans hd (Nat.le_add_right _ _)
  have htake : (s.takeUp).again = true ∧ rank s.takeUp.machine < 3 := by
    cases h with
    | transfer _ ha hr =>
      rw [takeUp_transfer hr ha]
      exact ⟨rfl, (by decide : 2 < 3)⟩
    | reset _ ha hr =>
      rw [takeUp_reset hr]
      exact ⟨rfl, (by decide : 1 < 3)⟩
  unfold step
  split
  · rename_i hm
    rw [hm]
    exact .inr htake
  · rename_i hm
    rw [hm]
    exact .inr htake
  · rename_i hm
    right
    unfold transferStep
    rw [hm]
    split
    · exact ⟨rfl, (by decide : 1 < 2)⟩
    · have hrun := running_expired (c := c) (a := a) (s := s.elapse a.wait₁) hnow
      rw [hrun.1]
      exact ⟨hrun.2, by decide⟩
  · rename_i hm
    right
    unfold pauseStep
    rw [if_pos hnow, hm]
    exact ⟨rfl, (by decide : 1 < 2)⟩
  · exact .inl rfl
  · left
    unfold resetStep
    split
    · exact recover_expired hnow
    · rfl

theorem tick_expired (h : Doing s (some t)) (hd : s.deadline ≤ s.now) :
    (s.tick c a).active = false ∨ (s.tick c a).again = true ∧ rank (s.tick c a).machine < rank s.machine :=
  step_expired (h.again false) hd

theorem serve_expired {ticks : Nat} {answers : Nat → Answers} (h : Doing s (some t))
    (hd : s.deadline ≤ s.now) (ht : rank s.machine ≤ ticks) :
    (s.serve c ticks answers).active = false := by
  induction ticks generalizing answers s with
  | zero =>
    exfalso
    revert ht
    cases s.machine <;> decide
  | succ ticks ih =>
    have hactive : s.active = true := h.active
    have htick : Progress c s (s.tick c (answers 0)) t := tick_progress h
    unfold serve
    rw [if_pos hactive]
    rcases tick_expired (c := c) (a := answers 0) h hd with hfree | ⟨hmore, hrank⟩
    · split
      · rw [serve_free _ _ hfree]
        exact hfree
      · exact hfree
    · rw [if_pos hmore]
      cases htick with
      | quiet hq hdoing =>
        refine ih hdoing ?_ ?_
        · rw [hq.deadline]
          exact Nat.le_trans hd hq.now
        · exact Nat.le_of_lt_succ (Nat.lt_of_lt_of_le hrank ht)
      | completed outcome hdone =>
        rw [serve_free _ _ hdone.free.active]
        exact hdone.free.active

end

end State

end DaveOs.Hal
