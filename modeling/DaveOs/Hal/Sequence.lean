import DaveOs.Hal.Script
import DaveOs.Hal.Once

/-!
# Transfers follow their scripts

Every accepted transfer goes as `Script` says for its action list, whatever the backend answers, whatever
its bytes and whoever else calls the controller meanwhile. The log of a run has what the transfers did,
newest first, each entry with the memory after the tick that made it.
-/

namespace DaveOs.Hal

open BusAction

variable {α κ : Type}
variable {count : Nat} {l : List α} {sums out : Nat × Nat}

/-! ## Logs -/

/-- What a transfer does, as opposed to what is asked of the controller. -/
def Observation.own : Observation α κ → Bool
  | .accepted _ | .rejected .. | .refused _ | .called .. | .cleared _ | .finished _ (.reset _) => false
  | _ => true

namespace State

/-- What a step from `s` to `s'` adds to the log. -/
def fresh (s s' : State α κ) : List (Entry α κ) :=
  ((s'.history.take (s'.history.length - s.history.length)).filter Observation.own).map (·, s'.memory)

/-- The log of `serve`. -/
def serveLog [BusAction α] (c : Setup) : Nat → (Nat → Answers) → State α κ → List (Entry α κ)
  | 0, _, _ => []
  | ticks + 1, answers, s =>
    if s.active then
      if (s.tick c (answers 0)).again then
        serveLog c ticks (fun i => answers (i + 1)) (s.tick c (answers 0)) ++
          s.fresh (s.tick c (answers 0))
      else s.fresh (s.tick c (answers 0))
    else []

end State

namespace World

variable [BusAction α]

/-- The log of `interrupt()`. -/
def interruptLog (c : Setup) (contended : Bool) (answers : Nat → Answers) (w : World α κ) :
    List (Entry α κ) :=
  if contended then [] else w.state.serveLog c 8 answers

def log (c : Setup) (w : World α κ) : Action α κ → List (Entry α κ)
  | .irq contended answers => w.interruptLog c contended answers
  | .alarm contended answers => if 0 < w.fired then w.interruptLog c contended answers else []
  | a => w.state.fresh (w.act c a).state

def logs (c : Setup) (w : World α κ) : List (Action α κ) → List (Entry α κ)
  | [] => []
  | a :: actions => (w.act c a).logs c actions ++ w.log c a

/-- The list of the transfer that an action starts. -/
def accepts (c : Setup) (w : World α κ) : Action α κ → Option (List α)
  | .start device actions callback requested a =>
    if device < c.devices ∧ (w.state.start c device actions callback requested a).1 = .ok then some actions
    else none
  | .probe address callback requested a =>
    if (w.state.probe c address callback requested a).1 = .ok then (BusAction.probe : Option α).map ([·])
    else none
  | _ => none

end World

/-! ## Where the controller is in the script -/

namespace State

variable {v : State α κ} {actions : List α} {status : Status} {requested : Option Duration}
  {device : Nat} {callback : Option κ}

section

variable [BusAction α]
variable {o : Observation α κ} {older : List (Observation α κ)}

/-- The flag and the counter of the readings without a match. -/
structure Retries (s : State α κ) (r : Nat) : Prop where
  retry : s.pollRetry = decide (r ≠ 0)
  zero : r = 0 → s.pollCount = 0
  count : ∀ a, s.actions[s.completed]? = some a → pollLimit a ≠ 0 → s.pollCount = r

/-- The members of the controller are those of a transfer in this phase. -/
inductive Fits (s : State α κ) (r : Nat) : Phase → Prop where
  | ready (machine : s.machine = .idle ∨ s.machine = .faulted ∨ s.machine = .transfer)
      (setup : s.setupFailed = false) (started : s.started = false) (status : s.status = .ok)
      (retries : s.Retries r) : Fits s r .ready
  | refused (machine : s.machine = .idle ∨ s.machine = .faulted ∨ s.machine = .transfer)
      (setup : s.setupFailed = true) : Fits s r (.failed s.status)
  | busy (machine : s.machine = .transfer) (setup : s.setupFailed = false) (started : s.started = true)
      (status : s.status = .ok) (retries : s.Retries r) : Fits s r .busy
  | resting (machine : s.machine = .pause) (setup : s.setupFailed = false) (started : s.started = false)
      (status : s.status = .ok) (retries : s.Retries r) : Fits s r (.resting s.pauseDue)
  | failed (machine : s.machine = .finish) : Fits s r (.failed s.status)
  | finished (machine : s.machine = .finish) (status : s.status = .ok)
      (completed : s.completed = s.actions.length) : Fits s r .ready

/-- The transfer under way has this list and this log. -/
def At (actions : List α) (s : State α κ) (h : List (Entry α κ)) : Prop :=
  s.actions = actions ∧ ∃ r phase, Script actions h s.completed r phase ∧ Fits s r phase

/-- The history has grown from `older`, and with it the log from `h`. -/
def Goes (s : State α κ) (older : List (Observation α κ)) (h : List (Entry α κ)) (s' : State α κ) : Prop :=
  ∃ added, s'.history = added ++ older ∧ s'.memory = s.memory ∧ (∀ o ∈ added, o.own = true) ∧
    At s.actions s' (added.map (·, s.memory) ++ h)

variable {c : Setup} {a : Answers} {s s' : State α κ} {h : List (Entry α κ)} {r : Nat} {action : α}

theorem Goes.silent (hh : s'.history = s.history) (hm : s'.memory = s.memory) (ha : At s.actions s' h) :
    Goes s s.history h s' :=
  ⟨[], hh, hm, nofun, ha⟩

theorem Goes.one (hh : s'.history = o :: s.history) (hm : s'.memory = s.memory) (ho : o.own = true)
    (ha : At s.actions s' ((o, s.memory) :: h)) : Goes s s.history h s' :=
  ⟨[o], hh, hm, fun x hx => by rwa [List.mem_singleton.1 hx], ha⟩

theorem Goes.cons (ho : o.own = true) (hg : Goes s (o :: older) ((o, s.memory) :: h) s') :
    Goes s older h s' := by
  obtain ⟨added, hh, hm, hown, ha⟩ := hg
  refine ⟨added ++ [o], by simp [hh], hm, fun x hx => ?_, by simpa using ha⟩
  rcases List.mem_append.1 hx with hx | hx
  · exact hown x hx
  · rwa [List.mem_singleton.1 hx]

theorem recordActionError_eq : ∃ counters deviceCounters,
    s.recordActionError c = { s with counters, deviceCounters } := by
  unfold recordActionError recordIf record count
  split
  · split
    · exact ⟨_, _, rfl⟩
    · split <;> split <;> exact ⟨_, _, rfl⟩
  · exact ⟨_, _, rfl⟩

theorem recordAttempts_eq (action : α) : ∃ counters deviceCounters,
    s.recordAttempts c action = { s with counters, deviceCounters } := by
  unfold recordAttempts recordIf record count
  split <;> split <;> exact ⟨_, _, rfl⟩

theorem fail_at {status : Status} (hh : Script s.actions h s.completed r (.failed status)) :
    At s.actions (s.fail c status) h ∧ (s.fail c status).history = s.history ∧
      (s.fail c status).memory = s.memory := by
  obtain ⟨counters, deviceCounters, he⟩ := recordActionError_eq (s := { s with status }) (c := c)
  unfold fail
  rw [he]
  exact ⟨⟨rfl, r, _, hh, .failed rfl⟩, rfl, rfl⟩

theorem ready_zero {actions : List α} {k : Nat} (hh : Script actions h k r .ready)
    (ha : actions[k]? = some action) (hs : checks action = true ∨ pause action ≠ 0) : r = 0 := by
  obtain ⟨n, rfl, hst⟩ := hh.started_spec
  by_contra hne
  obtain ⟨a', ha', hc, hp, -⟩ := hst.next hne
  obtain rfl : action = a' := Option.some.inj (ha.symm.trans ha')
  rcases hs with hs | hs
  · rw [hc] at hs
    cases hs
  · exact hs hp

theorem timerFailed_at {due : Nat} {now : Nat} (hh : Script s.actions h s.completed 0 .ready)
    (ha : s.actions[s.completed]? = some action) (hc : checks action = false) (hp : pause action ≠ 0) :
    Goes s s.history h ((s.elapse now).timerFailed due) :=
  .one rfl rfl rfl ⟨rfl, 0, _, .timerFailed s.memory hh ha hc hp, .failed rfl⟩

theorem backendStart_at {t : State α κ} (hh : Script s.actions h s.completed r .ready)
    (ha : s.actions[s.completed]? = some action) (hc : checks action = false) (hp : pause action = 0)
    (hr : s.Retries r) (hm : s.machine = .transfer) (hf : s.setupFailed = false) (hs : s.status = .ok)
    (ht : ∃ counters deviceCounters, t = { s with counters, deviceCounters, started := true }) :
    Goes s s.history h (t.backendStart c a action) := by
  obtain ⟨counters, deviceCounters, rfl⟩ := ht
  have hobs (status : Status) : (.started (transferAction action) (s.completed = 0 ∧ ¬ s.pollRetry)
        (s.completed + 1 = s.actions.length ∧ ¬ polls action) status : Observation α κ) =
      .started (transferAction action) (s.completed = 0 ∧ r = 0)
        (s.completed + 1 = s.actions.length ∧ polls action = false) status := by
    simp [hr.retry]
  unfold backendStart
  split
  · refine .one rfl rfl rfl ⟨rfl, r, .busy, ?_, .busy hm hf rfl hs ⟨hr.retry, hr.zero, hr.count⟩⟩
    have hscript := Script.started s.memory hh ha hc hp
    rw [← hobs] at hscript
    exact hscript
  · rename_i hne
    have hscript := Script.notStarted s.memory hne hh ha hc hp
    rw [← hobs] at hscript
    obtain ⟨hat, hhist, hmem⟩ := fail_at (c := c) (s := State.observe
      (.started (transferAction action) (s.completed = 0 ∧ ¬ s.pollRetry)
        (s.completed + 1 = s.actions.length ∧ ¬ polls action) a.start)
      { s with counters, deviceCounters, started := true }) hscript
    exact .one hhist hmem rfl hat

theorem next_at (hh : Script s.actions h s.completed r .ready) (hm : s.machine = .transfer)
    (hf : s.setupFailed = false) (hn : s.started = false) (hs : s.status = .ok) (hr : s.Retries r) :
    Goes s s.history h (s.next c a) := by
  obtain ⟨n, -, hst⟩ := hh.started_spec
  have hzero {t : State α κ} (h0 : r = 0) (ht : t.pollRetry = s.pollRetry) (hp : t.pollCount = s.pollCount) :
      t.Retries 0 := by
    subst h0
    exact ⟨ht.trans hr.retry, fun _ => hp.trans (hr.zero rfl), fun _ _ _ => hp.trans (hr.zero rfl)⟩
  unfold next
  split
  · rename_i hc
    exact .silent rfl rfl ⟨rfl, r, .ready, hh, .finished rfl hs hc⟩
  rename_i hne
  split
  · rename_i hnone
    have hle := hst.le
    rw [List.getElem?_eq_none_iff] at hnone
    omega
  rename_i action ha
  split
  · rename_i hc
    obtain rfl := ready_zero hh ha (.inl hc)
    split
    · rename_i hmatch
      exact .one rfl rfl rfl ⟨rfl, 0, .ready, .matched s.memory hh ha hc hmatch,
        .ready (.inr (.inr hm)) hf hn hs (hzero rfl rfl rfl)⟩
    · rename_i hmatch
      exact .one rfl rfl rfl ⟨rfl, 0, _, .mismatched s.memory hh ha hc (Bool.not_eq_true _ ▸ hmatch),
        .failed rfl⟩
  rename_i hc
  rw [Bool.not_eq_true] at hc
  split
  · rename_i hp
    obtain rfl := ready_zero hh ha (.inr hp)
    unfold beginPause
    split
    · exact timerFailed_at hh ha hc hp
    · rename_i due hdue
      obtain rfl := (add_eq_some hdue).1
      split
      · exact .one rfl rfl rfl ⟨rfl, 0, _, .paused s.memory (s.now + a.wait₂) hh ha hc hp,
          .resting rfl hf hn hs (hzero rfl rfl rfl)⟩
      · exact timerFailed_at hh ha hc hp
  · rename_i hp
    refine backendStart_at hh ha hc (not_not.1 hp) hr hm hf hs ?_
    obtain ⟨counters, deviceCounters, he⟩ := recordAttempts_eq action (s := s) (c := c)
    exact ⟨counters, deviceCounters, by rw [he]⟩

theorem retry_at (hh : Script s.actions h s.completed r .busy)
    (ha : s.actions[s.completed]? = some action) (hp : polls action = true)
    (hx : pollMatched s.memory action = false) (hm : s.machine = .transfer)
    (hf : s.setupFailed = false) (hs : s.status = .ok) (hr : s.Retries r)
    (ho : s.history = .polled .ok :: older) : Goes s older h (s.retry c a (pollLimit action)) := by
  have hagain {t : State α κ} (hscript : Script s.actions ((.polled .ok, s.memory) :: h) s.completed
      (r + 1) .ready) (ht : ∃ pollCount, t = { s with pollRetry := true, started := false, pollCount } ∧
        (pollLimit action ≠ 0 → pollCount = r + 1)) : Goes s older h (t.next c a) := by
    obtain ⟨pollCount, rfl, hcount⟩ := ht
    refine .cons (o := .polled .ok) rfl ?_
    rw [← ho]
    refine next_at (s := { s with pollRetry := true, started := false, pollCount }) hscript hm hf rfl hs
      ⟨rfl, nofun, fun a' ha' h0 => ?_⟩
    obtain rfl : action = a' := Option.some.inj (ha.symm.trans ha')
    exact hcount h0
  unfold retry
  split
  · rename_i h0
    exact hagain (.retry s.memory hh ha hp hx (.inl h0)) ⟨_, rfl, fun h => absurd h0 h⟩
  rename_i h0
  have hcount := hr.count action ha h0
  split
  · rename_i hl
    rw [hcount] at hl
    have hscript := Script.exhausted s.memory hh ha hp hx ⟨h0, hl⟩
    obtain ⟨hat, hhist, hmem⟩ := fail_at (c := c) (s := State.observe .mismatched
      { s with pollRetry := true, pollCount := s.pollCount + 1 }) hscript
    refine ⟨[.mismatched, .polled .ok], ?_, hmem, by simp [Observation.own], hat⟩
    rw [hhist]
    show .mismatched :: s.history = _
    rw [ho]
    rfl
  · rename_i hl
    rw [hcount] at hl
    exact hagain (.retry s.memory hh ha hp hx (.inr (by omega))) ⟨_, rfl, fun _ => by rw [hcount]⟩

theorem received_at (hh : Script s.actions h s.completed r .busy)
    (ha : s.actions[s.completed]? = some action) (hm : s.machine = .transfer)
    (hf : s.setupFailed = false) (hs : s.status = .ok) (hr : s.Retries r)
    (ho : s.history = .polled .ok :: older) : Goes s older h (s.received c a action) := by
  unfold received
  split
  · rename_i hx
    rw [Bool.and_eq_true, Bool.not_eq_true'] at hx
    exact retry_at hh ha hx.1 hx.2 hm hf hs hr ho
  · rename_i hx
    refine .cons (o := .polled .ok) rfl ?_
    rw [← ho]
    have hscript : Script s.actions ((.polled .ok, s.memory) :: h) (s.completed + 1) 0 .ready :=
      .done s.memory hh ha fun hp => by simpa [hp] using hx
    exact next_at (s := { s with
        pollRetry := false
        pollCount := 0
        completed := s.completed + 1
        started := false })
      hscript hm hf rfl hs ⟨rfl, fun _ => rfl, fun _ _ _ => rfl⟩

/-- A tick leaves the transfer under way. -/
def Advances (s : State α κ) (h : List (Entry α κ)) (s' : State α κ) : Prop :=
  ∃ added, s'.history = added ++ s.history ∧ (∀ o ∈ added, o.own = true) ∧
    At s.actions s' (added.map (·, s'.memory) ++ h)

theorem Goes.advances {t : State α κ} (ht : t.actions = s.actions) (hg : Goes t s.history h s') :
    Advances s h s' := by
  obtain ⟨added, hh, hm, hown, hat⟩ := hg
  rw [ht, ← hm] at hat
  exact ⟨added, hh, hown, hat⟩

/-- While the machine transfers, the next action is to be started or under way. -/
theorem Fits.transferring {phase : Phase} (hfit : Fits s r phase) (hm : s.machine = .transfer)
    (hf : s.setupFailed = false) : s.status = .ok ∧ s.Retries r ∧
      (phase = .ready ∧ s.started = false ∨ phase = .busy ∧ s.started = true) := by
  cases hfit with
  | ready _ _ hn hs hr => exact ⟨hs, hr, .inl ⟨rfl, hn⟩⟩
  | busy _ _ hn hs hr => exact ⟨hs, hr, .inr ⟨rfl, hn⟩⟩
  | _ => simp_all

theorem running_at (hat : At s.actions s h) (hm : s.machine = .transfer) (hf : s.setupFailed = false) :
    Advances s h (s.running c a) := by
  obtain ⟨-, r, phase, hh, hfit⟩ := hat
  obtain ⟨hs, hr, hphase⟩ := hfit.transferring hm hf
  unfold running
  split
  · have hlive : ∀ status, phase ≠ .failed status := by
      rintro status rfl
      rcases hphase with ⟨h, -⟩ | ⟨h, -⟩ <;> cases h
    obtain ⟨hat, hhist, hmem⟩ := fail_at (c := c) (s := s.observe .expired) (.expired s.memory hh hlive)
    exact Goes.advances rfl (.one hhist hmem rfl hat)
  rcases hphase with ⟨rfl, hn⟩ | ⟨rfl, hn⟩
  · rw [if_neg (by simp [hn])]
    exact Goes.advances rfl (next_at hh hm hf hn hs hr)
  rw [if_pos hn]
  split
  · exact Goes.advances rfl (.silent rfl rfl ⟨rfl, r, _, hh, .busy hm hf hn hs hr⟩)
  split
  · unfold polled
    split
    · rename_i hnone
      obtain ⟨n, rfl, hst⟩ := hh.started_spec
      obtain ⟨a', ha', -⟩ := hst.next (Nat.succ_ne_zero r)
      exact absurd (hnone.symm.trans ha') nofun
    · rename_i action ha
      exact Goes.advances
        (t := { s.observe (.polled .ok) with memory := (rx action).store a.received s.memory })
        rfl (received_at hh ha hm hf hs ⟨hr.retry, hr.zero, hr.count⟩ rfl)
  · rename_i hne
    obtain ⟨hat, hhist, hmem⟩ := fail_at (c := c) (s := s.observe (.polled _))
      (.pollFailed s.memory hne hh)
    exact Goes.advances rfl (.one hhist hmem rfl hat)

end

/-! ## What others do meanwhile -/

/-- The transfer under way, if there is one, is where it was. -/
structure Aside (s s' : State α κ) : Prop where
  active : s'.active = s.active
  resetting : s'.resetting = s.resetting
  callback : s'.callback = s.callback
  machine : s'.machine = s.machine
  setupFailed : s'.setupFailed = s.setupFailed
  started : s'.started = s.started
  status : s'.status = s.status
  pollRetry : s'.pollRetry = s.pollRetry
  pollCount : s'.pollCount = s.pollCount
  pauseDue : s'.pauseDue = s.pauseDue
  actions : s'.actions = s.actions
  completed : s'.completed = s.completed
  history : ∃ added, (∀ o ∈ added, o.own = false) ∧ s'.history = added ++ s.history

theorem Aside.refl (s : State α κ) : Aside s s :=
  ⟨rfl, rfl, rfl, rfl, rfl, rfl, rfl, rfl, rfl, rfl, rfl, rfl, [], nofun, rfl⟩

theorem fresh_eq {s : State α κ} {added : List (Observation α κ)}
    (h : v.history = added ++ s.history) :
    s.fresh v = (added.filter Observation.own).map (·, v.memory) := by
  unfold fresh
  rw [h]
  simp

theorem Aside.fresh {s s' : State α κ} (h : Aside s s') : s.fresh s' = [] := by
  obtain ⟨added, hown, hh⟩ := h.history
  rw [fresh_eq hh, List.filter_eq_nil_iff.2 fun o ho => by simp [hown o ho]]
  rfl

theorem Aside.foreign {s : State α κ} (h : Aside s v) {o : Observation α κ} (ho : o.own = false) :
    Aside s (v.observe o) := by
  obtain ⟨added, hown, hh⟩ := h.history
  refine { h with history := ⟨o :: added, fun x hx => ?_, ?_⟩ }
  · rcases List.mem_cons.1 hx with rfl | hx
    · exact ho
    · exact hown x hx
  · show o :: v.history = _
    rw [hh]
    rfl

variable [BusAction α]

theorem At.aside {s s' : State α κ} {h : List (Entry α κ)} (hat : At actions s h) (ha : Aside s s') :
    At actions s' h := by
  obtain ⟨hact, r, phase, hh, hfit⟩ := hat
  refine ⟨ha.actions.trans hact, r, phase, ha.completed ▸ hh, ?_⟩
  have hretries (hr : s.Retries r) : s'.Retries r := by
    refine ⟨ha.pollRetry.trans hr.retry, fun h0 => ha.pollCount.trans (hr.zero h0), ?_⟩
    rw [ha.actions, ha.completed, ha.pollCount]
    exact hr.count
  cases hfit with
  | ready hm hf hn hs hr =>
    exact .ready (ha.machine ▸ hm) (ha.setupFailed.trans hf) (ha.started.trans hn) (ha.status.trans hs)
      (hretries hr)
  | refused hm hf => exact ha.status ▸ .refused (ha.machine ▸ hm) (ha.setupFailed.trans hf)
  | busy hm hf hn hs hr =>
    exact .busy (ha.machine.trans hm) (ha.setupFailed.trans hf) (ha.started.trans hn) (ha.status.trans hs)
      (hretries hr)
  | resting hm hf hn hs hr =>
    exact ha.pauseDue ▸ .resting (ha.machine.trans hm) (ha.setupFailed.trans hf) (ha.started.trans hn)
      (ha.status.trans hs) (hretries hr)
  | failed hm => exact ha.status ▸ .failed (ha.machine.trans hm)
  | finished hm hs hc =>
    exact .finished (ha.machine.trans hm) (ha.status.trans hs) (by rw [ha.completed, ha.actions, hc])

/-! ## Ticks -/

variable {c : Setup} {a : Answers} {s s' : State α κ} {h : List (Entry α κ)} {r : Nat} {t : Ticket κ}

/-- The transfer `t` has this log. -/
inductive Serving (actions : List α) (t : Ticket κ) (s : State α κ) (log : List (Entry α κ)) : Prop where
  | under (active : s.active = true) (resetting : s.resetting = false) (callback : s.callback = some t)
      (hat : At actions s log)
  | ended (active : s.active = false) (course : Course actions log)

theorem Serving.course (hs : Serving actions t s h) : Course actions h := by
  cases hs with
  | under _ _ _ hat =>
    obtain ⟨-, r, phase, hh, -⟩ := hat
    exact .under hh
  | ended _ hc => exact hc

theorem Serving.aside (hs : Serving actions t s h) (ha : Aside s s') : Serving actions t s' h := by
  cases hs with
  | under hact hr hc hat =>
    exact .under (ha.active.trans hact) (ha.resetting.trans hr) (ha.callback.trans hc) (hat.aside ha)
  | ended hact hc => exact .ended (ha.active.trans hact) hc

theorem pauseStep_at (hat : At s.actions s h) (hm : s.machine = .pause) : Advances s h (s.pauseStep a) := by
  obtain ⟨-, r, phase, hh, hfit⟩ := hat
  cases hfit with
  | resting _ hf hn hs hr =>
    obtain ⟨rfl, -⟩ := hh.resting
    unfold pauseStep
    split
    · exact Goes.advances rfl (.one rfl rfl rfl ⟨rfl, 0, _, .expired s.memory hh nofun, .failed rfl⟩)
    unfold pausing
    split
    · rename_i hd
      refine Goes.advances rfl (.one rfl rfl rfl ⟨rfl, 0, _, .resumed s.memory hd hh, ?_⟩)
      exact .ready (.inr (.inr rfl)) hf hn hs ⟨hr.retry, hr.zero, fun _ _ _ => hr.zero rfl⟩
    · exact Goes.advances rfl (.silent rfl rfl ⟨rfl, 0, _, hh,
        .resting hm hf hn hs ⟨hr.retry, hr.zero, hr.count⟩⟩)
  | _ => simp_all

theorem Advances.serving (hadv : Advances s h s') (ha : s'.active = true) (hr : s'.resetting = false)
    (hc : s'.callback = some t) : Serving s.actions t s' (s.fresh s' ++ h) := by
  obtain ⟨added, hh, hown, hat⟩ := hadv
  rw [fresh_eq hh, List.filter_eq_self.2 hown]
  exact .under ha hr hc hat

theorem finishStep_serving (hat : At s.actions s h) (hm : s.machine = .finish) (hc : s.callback = some t) :
    Serving s.actions t (s.finishStep c a) (s.fresh (s.finishStep c a) ++ h) := by
  obtain ⟨-, r, phase, hh, hfit⟩ := hat
  have hover : ((∃ status, phase = .failed status) ∨ phase = .ready ∧ s.completed = s.actions.length) ∧
      (s.cleanup a.finish).status = phase.verdict a.finish := by
    unfold cleanup Phase.verdict
    cases hfit with
    | refused | failed => exact ⟨.inl ⟨_, rfl⟩, rfl⟩
    | finished _ hs hcomp =>
      refine ⟨.inr ⟨rfl, hcomp⟩, ?_⟩
      simp [hs]
    | _ => simp_all
  obtain ⟨counters, deviceCounters, hs, -⟩ := recordOutcome_spec (s := s.cleanup a.finish) (c := c)
  have hhist : (s.finishStep c a).history =
      [.finished t (.transfer ⟨phase.verdict a.finish, s.completed, s.actions⟩), .cleaned a.finish] ++
        s.history := by
    unfold finishStep
    rw [hs, ← hover.2]
    show (s.callback.map _).toList ++ _ = _
    rw [hc]
    rfl
  rw [fresh_eq hhist]
  exact .ended rfl (.ended _ a.finish t hh hover.1)

theorem step_serving (ha : s.active = true) (hr : s.resetting = false) (hc : s.callback = some t)
    (hat : At s.actions s h) : Serving s.actions t (s.step c a) (s.fresh (s.step c a) ++ h) := by
  have htake (hm : s.machine = .idle ∨ s.machine = .faulted) :
      Serving s.actions t s.takeUp (s.fresh s.takeUp ++ h) := by
    rw [takeUp_transfer hr ha]
    obtain ⟨-, r, phase, hh, hfit⟩ := hat
    refine Advances.serving ⟨[], rfl, nofun, rfl, r, phase, hh, ?_⟩ ha hr hc
    cases hfit with
    | ready _ hf hn hs hr => exact .ready (.inr (.inr rfl)) hf hn hs ⟨hr.retry, hr.zero, hr.count⟩
    | refused _ hf =>
      exact Fits.refused (s := { s with machine := .transfer, again := true }) (.inr (.inr rfl)) hf
    | _ => simp_all
  have hquiet {s' : State α κ} (hq : Quiet s s') (hadv : Advances s h s') :
      Serving s.actions t s' (s.fresh s' ++ h) :=
    hadv.serving (hq.active.trans ha) (hq.resetting.trans hr) (hq.callback.trans hc)
  unfold step
  split
  · exact htake (.inl (by assumption))
  · exact htake (.inr (by assumption))
  · rename_i hm
    refine hquiet Quiet.transferStep ?_
    unfold transferStep
    split
    · rename_i hf
      obtain ⟨-, r, phase, hh, hfit⟩ := hat
      cases hfit with
      | refused =>
        exact Goes.advances rfl (.silent rfl rfl ⟨rfl, r, _, hh,
          Fits.failed (s := State.leave { s with setupFailed := false }) rfl⟩)
      | _ => simp_all
    · rename_i hf
      rw [Bool.not_eq_true] at hf
      exact running_at (s := s.elapse a.wait₁) (hat.aside { Aside.refl s with }) hm hf
  · rename_i hm
    exact hquiet Quiet.pauseStep (pauseStep_at hat hm)
  · rename_i hm
    exact finishStep_serving hat hm hc
  · rename_i hm
    obtain ⟨-, r, phase, hh, hfit⟩ := hat
    cases hfit <;> simp_all

theorem tick_serving (ha : s.active = true) (hr : s.resetting = false) (hc : s.callback = some t)
    (hat : At s.actions s h) : Serving s.actions t (s.tick c a) (s.fresh (s.tick c a) ++ h) :=
  step_serving (s := { s with again := false }) ha hr hc (hat.aside { Aside.refl s with })

theorem serve_serving (ticks : Nat) (answers : Nat → Answers) (hs : Serving actions t s h) :
    Serving actions t (s.serve c ticks answers) (s.serveLog c ticks answers ++ h) := by
  induction ticks generalizing s h answers with
  | zero => exact hs
  | succ ticks ih =>
    unfold serve serveLog
    split
    · rename_i hactive
      have htick : Serving actions t (s.tick c (answers 0)) (s.fresh (s.tick c (answers 0)) ++ h) := by
        cases hs with
        | under ha hr hc hat =>
          obtain rfl := hat.1
          exact tick_serving ha hr hc hat
        | ended ha =>
          rw [ha] at hactive
          cases hactive
      split
      · rw [List.append_assoc]
        exact ih _ htick
      · exact htick
    · exact hs

/-! ## Admission -/

omit [BusAction α] in
theorem Aside.reject (device : Nat) (status : Status) (ha : Aside s v) :
    Aside s (v.reject c device status).2 :=
  Aside.foreign (v := v.count c device .rejected) { ha with } (o := .rejected device status) rfl

omit [BusAction α] in
theorem checked_error {τ : Type} {x : Option τ} (h : checked x = .error status) : status ≠ .ok := by
  cases x with
  | none =>
    cases h
    exact nofun
  | some value => cases h

theorem measureAll_error {requested : Bool} {count : Nat} {l : List α} {sums : Nat × Nat}
    (h : measureAll requested count l sums = .error status) : status ≠ .ok := by
  induction l generalizing sums with
  | nil => cases h
  | cons action rest ih =>
    unfold measureAll at h
    split at h
    · cases h
      exact nofun
    split at h
    · cases h
      exact nofun
    · exact ih h

theorem timeout_error {rate : Nat} (h : timeout actions rate requested = .error status) :
    status ≠ .ok := by
  unfold timeout at h
  split at h
  · cases h
    exact nofun
  split at h
  · rename_i hm
    cases h
    exact measureAll_error hm
  split at h
  · cases h
  · exact checked_error h

theorem checkStart_cases (actions : List α) (callback : Option κ) (requested : Option Duration)
    (a : Admission) (now : Nat) :
    (∃ status, status ≠ .ok ∧ checkStart actions callback requested a now = .error status) ∨
    ∃ accepted delay, checkStart actions callback requested a now = .ok accepted ∧
      timeout actions a.rate requested = .ok delay := by
  unfold checkStart
  split
  · exact .inl ⟨.invalidArgument, nofun, rfl⟩
  split
  · rename_i ht
    exact .inl ⟨_, timeout_error ht, rfl⟩
  rename_i delay ht
  split
  · split
    · exact .inl ⟨.invalidArgument, nofun, rfl⟩
    split
    · exact .inr ⟨_, delay, rfl, ht⟩
    · exact .inl ⟨.timerError, nofun, rfl⟩
  · rename_i hne
    exact .inl ⟨_, hne, rfl⟩

/-- A start is accepted, or leaves the transfers alone. -/
inductive Starts (c : Setup) (device : Nat) (actions : List α) (requested : Option Duration) (a : Admission)
    (s : State α κ) : Status × State α κ → Prop where
  | rejected {status : Status} {s' : State α κ} (hne : status ≠ .ok) (haside : Aside s s') :
      Starts c device actions requested a s (status, s')
  | accepted (callback : κ) (deadline : Nat) (active : s.active = false) {delay : Nat}
      (htimeout : timeout actions a.rate requested = .ok delay) :
      Starts c device actions requested a s
        (.ok, (s.elapse a.wait).accept c device actions callback deadline a.begin)

theorem start_cases (device : Nat) (actions : List α) (callback : Option κ) (requested : Option Duration)
    (a : Admission) (s : State α κ) :
    Starts c device actions requested a s (s.start c device actions callback requested a) := by
  unfold start
  split
  · exact .rejected nofun ((Aside.refl s).reject device _)
  split
  · exact .rejected nofun ((Aside.refl s).reject device _)
  split
  · exact .rejected nofun ((Aside.refl s).reject device _)
  rename_i hfree _
  have hactive : s.active = false := by
    cases ha : s.active with
    | false => rfl
    | true => exact absurd (.inr ha) hfree
  dsimp only
  rcases checkStart_cases actions callback requested a (s.elapse a.wait).now with
    ⟨status, hne, he⟩ | ⟨accepted, delay, he, ht⟩
  · rw [he]
    exact .rejected hne (Aside.reject device status { Aside.refl s with })
  · rw [he]
    exact .accepted accepted.1 accepted.2 hactive ht

theorem start_beside {a : Admission}
    (hs : (s.start c device actions callback requested a).2.serial = s.serial) :
    Aside s (s.start c device actions callback requested a).2 := by
  cases hcases : s.start c device actions callback requested a with
  | mk status s' =>
    have hstarts := start_cases (c := c) device actions callback requested a s
    rw [hcases] at hstarts hs
    cases hstarts with
    | rejected _ haside => exact haside
    | accepted => exact absurd hs (Nat.succ_ne_self _)

theorem probe_beside {address : UInt8} {a : Admission}
    (hs : (s.probe c address callback requested a).2.serial = s.serial) :
    Aside s (s.probe c address callback requested a).2 := by
  revert hs
  unfold probe
  split
  · exact fun _ => Aside.refl s
  split
  · exact start_beside
  · exact fun _ => (Aside.refl s).reject _ _

omit [BusAction α] in
theorem reset_beside {a : Admission} (hs : (s.reset callback requested a).2.serial = s.serial) :
    Aside s (s.reset callback requested a).2 := by
  have hrefuse {v : State α κ} (status : Status) (ha : Aside s v) :
      Aside s (v.observe (.refused status)) := ha.foreign rfl
  revert hs
  unfold reset
  dsimp only
  split
  · exact fun _ => hrefuse _ (Aside.refl s)
  split
  · exact fun _ => hrefuse _ (Aside.refl s)
  split
  · exact fun _ => hrefuse _ (Aside.refl s)
  split
  · exact fun _ => hrefuse _ (Aside.refl s)
  split
  · exact fun _ => hrefuse (v := s.elapse a.wait) _ { Aside.refl s with }
  split
  · exact fun hs => absurd hs (Nat.succ_ne_self _)
  · exact fun _ => hrefuse (v := s.elapse a.wait) _ { Aside.refl s with }

theorem accept_serving {callback : κ} {deadline : Nat} {begin : Status}
    (hm : s.machine = .idle ∨ s.machine = .faulted) :
    ∃ t, Serving actions t (s.accept c device actions callback deadline begin)
      (s.fresh (s.accept c device actions callback deadline begin)) := by
  have hm' : s.machine = .idle ∨ s.machine = .faulted ∨ s.machine = .transfer := hm.imp_right .inl
  refine ⟨⟨s.serial, callback, .transfer device⟩, ?_⟩
  rw [fresh_eq (v := s.accept c device actions callback deadline begin)
    (show _ = [.began begin, .accepted ⟨s.serial, callback, .transfer device⟩] ++ s.history from rfl)]
  refine .under rfl rfl rfl ⟨rfl, 0, ?_⟩
  by_cases hb : begin = .ok
  · subst hb
    exact ⟨.ready, .began _, .ready hm' rfl rfl rfl ⟨rfl, fun _ => rfl, fun _ _ _ => rfl⟩⟩
  · refine ⟨.failed begin, .refused _ hb, ?_⟩
    exact Fits.refused (s := s.accept c device actions callback deadline begin) hm' (decide_eq_true hb)

end State

/-! ## Whole runs -/

namespace World

open State

variable [BusAction α] {c : Setup} {w : World α κ} {actions : List α} {t : Ticket κ}
  {h : List (Entry α κ)}
variable {s : State α κ}

def Undisturbed (c : Setup) (w : World α κ) : List (Action α κ) → Prop
  | [] => True
  | a :: rest => (w.act c a).state.serial = w.state.serial ∧ (w.act c a).Undisturbed c rest

theorem interrupt_serving (contended : Bool) (answers : Nat → Answers) (hs : Serving actions t w.state h) :
    Serving actions t (w.interrupt c contended answers).state (w.interruptLog c contended answers ++ h) := by
  unfold interrupt interruptLog
  split
  · exact hs
  · exact (serve_serving 8 answers hs).aside { Aside.refl _ with }

theorem act_serving (a : Action α κ) (hs : Serving actions t w.state h)
    (hserial : (w.act c a).state.serial = w.state.serial) :
    Serving actions t (w.act c a).state (w.log c a ++ h) := by
  have hbeside (ha : Aside w.state (w.act c a).state)
      (hlog : w.log c a = w.state.fresh (w.act c a).state) :
      Serving actions t (w.act c a).state (w.log c a ++ h) := by
    rw [hlog, ha.fresh]
    exact hs.aside ha
  cases a with
  | advance | poke | deinit => exact hbeside { Aside.refl w.state with } rfl
  | init answer needsReset =>
    refine hbeside ?_ rfl
    show Aside w.state (w.state.init answer needsReset)
    unfold State.init
    split
    · exact Aside.refl _
    split
    · exact { Aside.refl w.state with }
    · exact Aside.refl _
  | start device list callback requested a =>
    refine hbeside ?_ rfl
    revert hserial
    unfold World.act
    dsimp only
    split
    · exact fun hserial => start_beside hserial
    · exact fun _ => Aside.refl _
  | probe address callback requested a => exact hbeside (probe_beside hserial) rfl
  | reset callback requested a => exact hbeside (reset_beside hserial) rfl
  | clear device =>
    refine hbeside ?_ rfl
    cases device with
    | none =>
      exact Aside.foreign (v := { w.state with counters := fun _ => 0 }) (o := .cleared none)
        { Aside.refl w.state with } rfl
    | some device =>
      exact Aside.foreign (o := .cleared (some device)) (v := { w.state with
        deviceCounters := fun d => if d = device then fun _ => 0 else w.state.deviceCounters d })
        { Aside.refl w.state with } rfl
  | pend =>
    refine hbeside ?_ rfl
    show Aside w.state (if 0 < w.pends then _ else w).state
    split <;> exact Aside.refl _
  | irq contended answers => exact interrupt_serving (w := { w with pended := false }) contended answers hs
  | expire | expirePause =>
    refine hbeside ?_ rfl
    unfold World.act
    dsimp only
    split
    · exact Aside.refl _
    split
    · exact { Aside.refl w.state with }
    · exact Aside.refl _
  | alarm contended answers =>
    show Serving actions t (if 0 < w.fired then _ else w).state ((if 0 < w.fired then _ else _) ++ h)
    split
    · exact interrupt_serving (w := { w with fired := w.fired - 1 }) contended answers hs
    · exact hs
  | call i =>
    refine hbeside ?_ rfl
    unfold World.act
    dsimp only
    split
    · exact Aside.refl _
    · exact Aside.foreign (Aside.refl _) rfl

theorem logs_serving (post : List (Action α κ)) (hs : Serving actions t w.state h)
    (hu : w.Undisturbed c post) : Serving actions t (w.runs c post).state (w.logs c post ++ h) := by
  induction post generalizing w h with
  | nil => exact hs
  | cons a post ih =>
    obtain ⟨hserial, hu⟩ := hu
    unfold logs
    rw [List.append_assoc]
    exact ih (act_serving a hs hserial) hu

theorem act_accepts {a : Action α κ} (hw : Good c w) (ha : w.accepts c a = some actions) :
    (∃ t, Serving actions t (w.act c a).state (w.log c a)) ∧
      ∃ rate requested delay, timeout actions rate requested = .ok delay := by
  obtain ⟨ticket, hsound⟩ := hw.sound
  have hmachine (hfree : w.state.active = false) : w.state.machine = .idle ∨ w.state.machine = .faulted := by
    cases hsound.doing with
    | free _ _ hm => exact hm
    | transfer _ hact | reset _ hact => exact absurd (hfree.symm.trans hact) nofun
  have hstart {device : Nat} {list : List α} {callback : Option κ} {requested : Option Duration}
      {a : Admission} (hok : (w.state.start c device list callback requested a).1 = .ok) :
      (∃ t, Serving list t (w.state.start c device list callback requested a).2
        (w.state.fresh (w.state.start c device list callback requested a).2)) ∧
      ∃ rate requested delay, timeout list rate requested = .ok delay := by
    cases hcases : w.state.start c device list callback requested a with
    | mk status s' =>
      have hstarts := start_cases (c := c) device list callback requested a w.state
      rw [hcases] at hstarts hok
      cases hstarts with
      | rejected hne => exact absurd hok hne
      | accepted callback deadline hfree ht =>
        exact ⟨accept_serving (s := w.state.elapse a.wait) (hmachine hfree), _, _, _, ht⟩
  cases a with
  | start device list callback requested a =>
    have ha : (if _ then some list else none) = some actions := ha
    split at ha
    · rename_i hok
      cases ha
      have hact : w.act c (.start device actions callback requested a) =
          w.returned (w.state.start c device actions callback requested a) := if_pos hok.1
      show (∃ t, Serving actions t (w.act c (.start device actions callback requested a)).state
        (w.state.fresh (w.act c (.start device actions callback requested a)).state)) ∧ _
      rw [hact]
      exact hstart hok.2
    · cases ha
  | probe address callback requested a =>
    have ha : (if (w.state.probe c address callback requested a).1 = .ok then _ else none) = some actions := ha
    split at ha
    · rename_i hok
      obtain ⟨action, haction, rfl⟩ := Option.map_eq_some_iff.1 ha
      show (∃ t, Serving [action] t (w.state.probe c address callback requested a).2
        (w.state.fresh (w.state.probe c address callback requested a).2)) ∧ _
      unfold State.probe at hok ⊢
      rw [haction] at hok ⊢
      dsimp only at hok ⊢
      split at hok
      · rename_i hvalid
        rw [if_pos hvalid]
        exact hstart hok
      · cases hok
    · cases ha
  | _ => cases ha

end World

/-! ## Accepted lists -/

theorem measureAll_valid [BusAction α] {requested : Bool}
    (h : measureAll requested count l sums = .ok out) :
    ∀ x ∈ l, ∃ sums out, measure x count sums = .ok out := by
  induction l generalizing sums with
  | nil => exact nofun
  | cons action rest ih =>
    unfold measureAll at h
    split at h
    · cases h
    split at h
    · cases h
    · rename_i sums' hm
      intro x hx
      rcases List.mem_cons.1 hx with rfl | hx
      · exact ⟨_, _, hm⟩
      · exact ih h x hx

theorem timeout_valid [BusAction α] {rate : Nat} {requested : Option Duration} {delay : Nat}
    (h : timeout l rate requested = .ok delay) :
    ∀ x ∈ l, ∃ sums out, measure x l.length sums = .ok out := by
  unfold timeout at h
  split at h
  · cases h
  split at h
  · cases h
  · exact measureAll_valid (by assumption)

theorem Spi.Action.pause_ne_zero {x : Spi.Action} (h : x.measure count sums = .ok out) :
    x.pause ≠ 0 ↔ x.operation = .pause := by
  unfold Spi.Action.pause
  split
  · rename_i hop
    unfold Spi.Action.measure at h
    rw [hop] at h
    dsimp only at h
    split at h
    · cases h
    split at h
    · rename_i hamount
      have hne : x.amount.toNat ≠ 0 := fun h0 => hamount.1 (UInt64.toNat_inj.1 h0)
      exact iff_of_true hne hop
    · cases h
  · rename_i hop
    exact iff_of_false (not_not.2 rfl) hop

theorem I2c.plain (x : I2c.Action) : Plain x := ⟨rfl, rfl, rfl⟩

/-! ## Every transfer -/

open World in
/-- In every run, an accepted transfer of either bus goes through its list in order. -/
theorem transfers_sequenced {κ : Type} (c : Setup) :
    (∀ (pre post : List (Action Spi.Action κ)) (a : Action Spi.Action κ) (actions : List Spi.Action),
      (runs c {} pre).accepts c a = some actions → ((runs c {} pre).act c a).Undisturbed c post →
      Sequenced actions ((runs c {} pre).logs c (a :: post)) ∧
        ∀ x ∈ actions, pause x ≠ 0 ↔ x.operation = .pause) ∧
    (∀ (pre post : List (Action I2c.Action κ)) (a : Action I2c.Action κ) (actions : List I2c.Action),
      (runs c {} pre).accepts c a = some actions → ((runs c {} pre).act c a).Undisturbed c post →
      Sequenced actions ((runs c {} pre).logs c (a :: post)) ∧
        ∀ x first last status m older,
          (.started x first last status, m) :: older <:+ (runs c {} pre).logs c (a :: post) →
          (first = true ↔ starts older = []) ∧
          (last = true ↔ (starts older).length + 1 = actions.length)) := by
  refine ⟨fun pre post a actions ha hu => ?_, fun pre post a actions ha hu => ?_⟩
  · obtain ⟨⟨t, hs⟩, rate, requested, delay, ht⟩ := act_accepts (good_initial.runs pre) ha
    refine ⟨(logs_serving post hs hu).course.sequenced, fun x hx => ?_⟩
    obtain ⟨sums, out, hx⟩ := timeout_valid ht x hx
    exact Spi.Action.pause_ne_zero hx
  · obtain ⟨⟨t, hs⟩, -⟩ := act_accepts (good_initial.runs pre) ha
    have hseq := (logs_serving post hs hu).course.sequenced
    exact ⟨hseq, hseq.ends fun x _ => I2c.plain x⟩

/-- Writes a byte, then reads one until it is not idle. -/
def pollingList : List Spi.Action :=
  [{ operation := .write, tx := ⟨0, 1⟩ }, { operation := .readUntil, rx := ⟨1, 1⟩, amount := 3 }]

/-- A register is written to a device and read. -/
def registerList : List I2c.Action :=
  [{ operation := .write, tx := ⟨0, 1⟩ }, { operation := .read, rx := ⟨1, 1⟩ }]

/-- An interrupt entry whose poll leaves one byte. -/
def pollEntry (α : Type) (byte : UInt8) : Action α Unit :=
  .irq false fun _ => { poll := some .ok, received := [byte] }

open World in
theorem transfers_sequenced_examples :
    let c : Setup := ⟨1, false⟩
    let w : World Spi.Action Unit := runs c {} [.init .ok false]
    let a : Action Spi.Action Unit := .start 0 pollingList (some ()) (some ⟨1000, true⟩) {}
    let post := [pollEntry _ 0, pollEntry _ 0, pollEntry _ 0xff, pollEntry _ 5]
    let v : World I2c.Action Unit := runs c {} [.init .ok false]
    let b : Action I2c.Action Unit := .start 0 registerList (some ()) none {}
    let later := [pollEntry _ 0, pollEntry _ 0, pollEntry _ 0]
    ((w.accepts c a = some pollingList ∧ (starts (w.logs c (a :: post))).length = 3) ∧
      Sequenced pollingList (w.logs c (a :: post))) ∧
    (v.accepts c b = some registerList ∧ (starts (v.logs c (b :: later))).length = 2) ∧
      Sequenced registerList (v.logs c (b :: later)) := by
  refine ⟨⟨⟨by decide, by decide⟩, ?_⟩, ⟨by decide, by decide⟩, ?_⟩
  · refine ((transfers_sequenced _).1 [.init .ok false] _ _ pollingList ?_ ?_).1
    · decide
    · exact ⟨by decide, by decide, by decide, by decide, trivial⟩
  · refine ((transfers_sequenced _).2 [.init .ok false] _ _ registerList ?_ ?_).1
    · decide
    · exact ⟨by decide, by decide, by decide, trivial⟩

end DaveOs.Hal
