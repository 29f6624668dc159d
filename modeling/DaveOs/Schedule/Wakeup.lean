import DaveOs.Schedule.Placement

/-!
# No lost wakeup

The loop samples the notification count before it looks for work, and waits in idle only while that count
stands. `Unnoticed` says what the sections do to it: they add work only together with a notification.
`System.Awake` carries this through the gaps between the scan for work, the log check, the can_sleep
callbacks and the section before idle.
-/

namespace DaveOs.Schedule

variable {μ ε κ ρ : Type} {c : Config μ}

/-- From `s` to `s'` no work was added unless a notification was. -/
structure Unnoticed (s s' : State c ε κ ρ) : Prop where
  sequence_le : s.sequence ≤ s'.sequence
  events : s'.sequence = s.sequence → s'.events = s.events
  stop : s'.sequence = s.sequence → s'.stopRequested = s.stopRequested
  records : s'.sequence = s.sequence → s'.logger.records = s.logger.records
  tasks : s'.sequence = s.sequence → s'.tasks = s.tasks

namespace Unnoticed

variable {s s' : State c ε κ ρ}

theorem of_eq (hq : s'.sequence = s.sequence) (he : s'.events = s.events)
    (hs : s'.stopRequested = s.stopRequested) (hr : s'.logger.records = s.logger.records)
    (ht : s'.tasks = s.tasks) : Unnoticed s s' :=
  ⟨hq.ge, fun _ => he, fun _ => hs, fun _ => hr, fun _ => ht⟩

theorem of_notify (hq : s'.sequence = s.sequence + 1) : Unnoticed s s' := by
  have hne : s'.sequence ≠ s.sequence := by omega
  exact ⟨by omega, fun h => absurd h hne, fun h => absurd h hne, fun h => absurd h hne,
    fun h => absurd h hne⟩

end Unnoticed

theorem State.Requested.unnoticed {s s' : State c ε κ ρ} {x : Call μ ε κ ρ}
    (h : s.Requested x s') : Unnoticed s s' := by
  cases h with
  | none | statistics => exact .of_eq rfl rfl rfl rfl rfl
  | dropLog logger _ _ hr => exact .of_eq rfl rfl rfl hr rfl
  | _ => exact .of_notify rfl

/-- The clock and the stamps: no time reaches the sentinel, events were stamped before now, and without a
logger no record is ever queued. -/
structure State.Stamped (s : State c ε κ ρ) : Prop where
  real : s.now < kForever
  events : ∀ e ∈ s.events, e.due ≤ s.now
  silent : c.logging = false → s.logger.records = []

namespace State.Stamped

variable {s s' : State c ε κ ρ}

theorem of_eq (h : s.Stamped) (hn : s'.now = s.now) (he : s'.events = s.events)
    (hr : s'.logger.records = s.logger.records) : s'.Stamped := by
  refine ⟨by rw [hn]; exact h.real, ?_, by rw [hr]; exact h.silent⟩
  rw [he, hn]
  exact h.events

theorem requested {x : Call μ ε κ ρ} (h : s.Stamped) (hr : s.Requested x s') : s'.Stamped := by
  cases hr with
  | post v sender =>
    refine ⟨h.real, ?_, h.silent⟩
    intro e he
    rcases List.mem_append.1 he with he | he
    · exact h.events e he
    · rw [List.mem_singleton.1 he]
      exact Nat.le_refl _
  | dropLog logger _ _ hr => exact h.of_eq rfl rfl hr
  | log logger record _ hlog hr =>
    exact ⟨h.real, h.events, fun hno => absurd (hlog.symm.trans hno) nofun⟩
  | _ => exact h.of_eq rfl rfl rfl

/-- An empty scan for work means an empty queue: every queued event is due. -/
theorem events_eq_nil (h : s.Stamped) (he : s.selectEvent = none) (ht : s.selectTask.2 = none) :
    s.events = [] := by
  have hlimit : s.selectTask.1 = kForever := (Scan.earliest_spec _ _ _).none ht
  by_contra hne
  have hpos : 0 < s.events.length := List.length_pos_of_ne_nil hne
  have hdue := h.events _ (List.get_mem s.events ⟨0, hpos⟩)
  have hle := Scan.limit_le_of_none he (List.mem_finRange ⟨0, hpos⟩) (if_pos hdue)
  have := h.real
  omega

theorem settle (h : s.Stamped) (status : Status) : (s.settle status).Stamped := by
  unfold State.settle
  split
  · exact h.of_eq rfl rfl rfl
  · exact ⟨h.real, nofun, h.silent⟩

theorem taken (h : s.Stamped) {record : ρ} {rest : Logging.Logger ρ}
    (ht : s.logger.take = some (record, rest)) : State.Stamped { s with logger := rest } := by
  refine ⟨h.real, h.events, fun hno => ?_⟩
  have hnil := Logging.Logger.take_eq_none.2 (h.silent hno)
  rw [ht] at hnil
  cases hnil

end State.Stamped

/-- The deadline is a bound for every active task and every active slot, the wake slot included. -/
theorem State.prepareIdle_le (s : State c ε κ ρ) :
    (∀ i, (s.tasks i).active = true → s.prepareIdle.1 ≤ (s.tasks i).due) ∧
      ∀ i, (s.prepareIdle.2.timers i).active = true →
        s.prepareIdle.1 ≤ (s.prepareIdle.2.timers i).due := by
  have htasks : ∀ i, (s.tasks i).active = true →
      (Scan.earliest s.taskDue kForever (List.finRange c.tasks)).1 ≤ (s.tasks i).due := fun i hi =>
    (Scan.earliest_spec s.taskDue kForever (List.finRange c.tasks)).bound i (List.mem_finRange i) _
      (if_pos hi)
  unfold prepareIdle
  dsimp only
  generalize (Scan.earliest s.taskDue kForever (List.finRange c.tasks)).1 = wake at htasks ⊢
  generalize s.setTimer (Fin.last _) ⟨wake ≠ kForever, wake, none⟩ = s'
  have hslots := Scan.earliest_spec s'.timerDue wake (List.finRange (c.timerCapacity + 1))
  refine ⟨fun i hi => ?_, fun i hi => ?_⟩
  · exact Nat.le_trans hslots.le_limit (htasks i hi)
  · exact hslots.bound i (List.mem_finRange i) _ (if_pos hi)

/-- Whether the scheduler thread at a place may be below callbacks on the stack. -/
def Main.callsOut : Main μ ε → Bool
  | .outside | .settingUp .. | .receiving .. | .dispatching | .publishing .. | .asking .. => true
  | _ => false

namespace System

variable {kind : Option CallbackKind} {x : Call μ ε κ ρ} {m : Main μ ε} {o : Nat} {b : Bool}

/-- What is known at a place since the notification count was sampled. -/
structure Watch (w : System c ε κ ρ) : Prop where
  sampled : ∀ o, w.main.sampled = some o → o ≤ w.state.sequence
  scanned : ∀ o, w.main.sampled = some o → w.main.scanned = true → w.state.sequence = o →
    w.state.events = []
  idle : ∀ deadline sleep o, w.main = .idling deadline sleep o → w.state.sequence = o →
    w.state.stopRequested = false ∧ w.state.logger.records = [] ∧
      ∀ i, (w.state.tasks i).active = true → deadline ≤ (w.state.tasks i).due

structure Awake (w : System c ε κ ρ) : Prop where
  watch : w.Watch
  stamped : w.state.Stamped
  stack : w.stack ≠ [] → w.main.callsOut = true

theorem awake_initial : Awake ({} : System c ε κ ρ) where
  watch := ⟨nofun, nofun, nofun⟩
  stamped := ⟨by show (0 : Nat) < kForever; unfold kForever; omega, nofun, fun _ => rfl⟩
  stack := fun h => absurd rfl h

variable {w w' : System c ε κ ρ}

theorem Called.main (h : Called kind w x w') : w'.main = w.main := by
  cases h <;> rfl

/-- Sections of others leave what is known: a count still equal to the sample was never touched. -/
theorem Watch.unnoticed (h : w.Watch) (hm : w'.main = w.main) (hu : Unnoticed w.state w'.state) :
    w'.Watch := by
  have hle := hu.sequence_le
  refine ⟨?_, ?_, ?_⟩
  · intro o ho
    rw [hm] at ho
    exact Nat.le_trans (h.sampled o ho) hle
  · intro o ho hscan heq
    rw [hm] at ho hscan
    have ho' := h.sampled o ho
    rw [hu.events (by omega)]
    exact h.scanned o ho hscan (by omega)
  · intro deadline sleep o hidle heq
    rw [hm] at hidle
    have ho' := h.sampled o (by rw [hidle]; rfl)
    rw [hu.stop (by omega), hu.records (by omega), hu.tasks (by omega)]
    exact h.idle deadline sleep o hidle (by omega)

theorem Watch.of_none (hm : w.main.sampled = none) : w.Watch := by
  refine ⟨?_, ?_, ?_⟩
  · intro o ho
    rw [hm] at ho
    cases ho
  · intro o ho
    rw [hm] at ho
    cases ho
  · intro deadline sleep o hidle
    rw [hidle] at hm
    cases hm

theorem Watch.move (h : w.Watch) (ho : w.main.sampled = some o) (hm : m.sampled = some o)
    (hscan : m.scanned = true → w.main.scanned = true)
    (hidle : ∀ deadline sleep o, m ≠ .idling deadline sleep o) : (w.goto m).Watch := by
  refine ⟨?_, ?_, ?_⟩
  · intro o' ho'
    rw [show m.sampled = some o' from ho', Option.some.injEq] at hm
    subst hm
    exact h.sampled o' ho
  · intro o' ho' hs heq
    rw [show m.sampled = some o' from ho', Option.some.injEq] at hm
    subst hm
    exact h.scanned o' ho (hscan hs) heq
  · intro deadline sleep o' hi
    exact absurd hi (hidle deadline sleep o')

theorem Awake.frame (h : w.Awake) (hm : w'.main = w.main) (hs : w'.stack = w.stack)
    (hu : Unnoticed w.state w'.state) (hstamped : w'.state.Stamped) : w'.Awake := by
  refine ⟨h.watch.unnoticed hm hu, hstamped, ?_⟩
  rw [hm, hs]
  exact h.stack

theorem Awake.moved {s' : State c ε κ ρ} (hs : w.stack = []) (hstamped : s'.Stamped)
    (hm : m.sampled = none) : Awake { w with state := s', main := m } :=
  ⟨.of_none hm, hstamped, fun hne => absurd hs hne⟩

/-- User code on the scheduler thread only runs at a place that calls out. -/
theorem Awake.callsOut (h : w.Awake) {kind : CallbackKind} (hk : w.callback = some kind) :
    w.main.callsOut = true := by
  by_cases hs : w.stack = []
  · unfold callback at hk
    rw [hs] at hk
    cases hm : w.main with
    | publishing n consumer => rfl
    | _ =>
      rw [hm] at hk
      first | rfl | cases hk
  · exact h.stack hs

theorem Awake.called (h : w.Awake) (hk : kind = none ∨ w.callback = kind) (hx : Called kind w x w') :
    w'.Awake := by
  -- A callback on the stack was started from a place that calls out, so not from idle.
  have hout : kind ≠ none → w.main.callsOut = true := by
    intro hne
    obtain ⟨kind', rfl⟩ := Option.ne_none_iff_exists'.1 hne
    exact h.callsOut (hk.resolve_left nofun)
  cases hx with
  | request x s' hr => exact h.frame rfl rfl hr.unnoticed (h.stamped.requested hr)
  | task i hkind =>
    have hmain := hout (by rw [hkind]; nofun)
    refine ⟨⟨h.watch.sampled, h.watch.scanned, ?_⟩, h.stamped.of_eq rfl rfl rfl, fun _ => hmain⟩
    intro deadline sleep o hidle
    rw [show w.main = _ from hidle] at hmain
    cases hmain
  | command hne => exact ⟨⟨h.watch.sampled, h.watch.scanned, h.watch.idle⟩, h.stamped, fun _ => hout hne⟩

/-- The section before idle sees that there is neither a stop request nor a log record. -/
theorem Awake.wake (h : w.Awake) (hs : w.stack = []) (hm : w.main = .deciding o b)
    (hstop : w.state.stopRequested = false) (hlog : c.logging = true → w.state.logger.empty = true) :
    Awake { w with state := w.state.prepareIdle.2, main := .idling w.state.prepareIdle.1 b o } := by
  have hrecords : w.state.logger.records = [] := by
    by_cases hlogging : c.logging = true
    · exact Logging.Logger.empty_iff.1 (hlog hlogging)
    · exact h.stamped.silent (by simpa using hlogging)
  have hsample : w.main.sampled = some o := by
    rw [hm]
    rfl
  refine ⟨⟨?_, ?_, ?_⟩, h.stamped.of_eq rfl rfl rfl, fun hne => absurd hs hne⟩
  · intro o' ho
    cases ho
    exact h.watch.sampled o hsample
  · intro o' ho _ heq
    cases ho
    exact h.watch.scanned o hsample (by rw [hm]; rfl) heq
  · intro deadline sleep o' hidle _
    cases hidle
    exact ⟨hstop, hrecords, w.state.prepareIdle_le.1⟩

theorem Acts.awake [DecidableEq μ] [DecidableEq κ] {a : Action μ ε κ ρ} (h : w.Awake)
    (ha : Acts w a w') : w'.Awake := by
  -- Callbacks on the stack were started from a place that calls out, so not from idle.
  have hout : ∀ {top : Activation c.tasks} {rest}, w.stack = top :: rest →
      w.main.callsOut = true := fun hs => h.stack (by rw [hs]; exact List.cons_ne_nil _ _)
  have hstamped : ∀ {s' : State c ε κ ρ}, s'.now = w.state.now → s'.events = w.state.events →
      s'.logger.records = w.state.logger.records → s'.Stamped :=
    fun hn he hr => h.stamped.of_eq hn he hr
  cases ha with
  | nothing => exact h
  | advance delay hlt =>
    refine h.frame rfl rfl (.of_eq rfl rfl rfl rfl rfl) ⟨hlt, fun e he => ?_, h.stamped.silent⟩
    exact Nat.le_trans (h.stamped.events e he) (Nat.le_add_right _ _)
  | called kind x _ hk => exact h.called hk (call_called kind x)
  | finish f rest start duration sleep hs =>
    -- The end of a task: its record changes, at a place that is not idle.
    refine ⟨⟨h.watch.sampled, h.watch.scanned, ?_⟩, hstamped rfl rfl rfl, fun _ => hout hs⟩
    intro deadline sleep o hidle
    have := hout hs
    rw [show w.main = _ from hidle] at this
    cases this
  | enter f rest sleep hs | answer rest hs | leave f rest start status sleep hs =>
    exact ⟨h.watch.unnoticed rfl (.of_eq rfl rfl rfl rfl rfl), hstamped rfl rfl rfl, fun _ => hout hs⟩
  | moved m hs _ _ hm =>
    rcases hm with hm | ⟨ho, hscan, hidle⟩
    · exact .moved hs h.stamped hm
    · cases hsample : w.main.sampled with
      | none => exact .moved hs h.stamped (ho.trans hsample)
      | some o =>
        exact ⟨h.watch.move hsample (ho.trans hsample) (fun _ => hscan) hidle, h.stamped,
          fun hne => absurd hs hne⟩
  | sample hs =>
    refine ⟨⟨?_, nofun, nofun⟩, h.stamped, fun hne => absurd hs hne⟩
    intro o ho
    cases ho
    exact Nat.le_refl _
  | pick observed j sleep hs =>
    refine .moved hs ⟨h.stamped.real, fun e he => h.stamped.events e ?_, h.stamped.silent⟩ rfl
    exact (cons_swapRemove_perm _ j).subset (List.mem_cons_of_mem _ he)
  | take observed i => exact ⟨.of_none rfl, hstamped rfl rfl rfl, fun _ => rfl⟩
  | poll observed hs hm hevent htask =>
    have hnil := h.stamped.events_eq_nil hevent htask
    refine ⟨⟨?_, fun _ _ _ _ => hnil, nofun⟩, h.stamped, fun hne => absurd hs hne⟩
    intro o ho
    cases ho
    exact h.watch.sampled observed (by rw [hm]; rfl)
  | drain record rest consumer hs _ _ htake => exact .moved hs (h.stamped.taken htake) rfl
  | wake observed sleep hs hm _ hstop hlog => exact h.wake hs hm hstop hlog
  | lifecycle l r m hs _ _ _ _ _ _ _ hm | use m hs _ _ _ hm => exact .moved hs (hstamped rfl rfl rfl) hm
  | fail status run sleep hs => exact .moved hs (h.stamped.settle status) rfl
  | halt sleep hs => exact .moved hs ⟨h.stamped.real, nofun, h.stamped.silent⟩ rfl
  | deliver record m rest sleep hs | defaults run hs | start hs =>
    exact .moved hs (hstamped rfl rfl rfl) rfl
  | serve n i =>
    unfold observeFired
    split <;> exact h.frame rfl rfl (.of_eq rfl rfl rfl rfl rfl) (hstamped rfl rfl rfl)
  | fired n => exact h.frame rfl rfl (.of_notify rfl) (hstamped rfl rfl rfl)
  | _ => exact h.frame rfl rfl (.of_eq rfl rfl rfl rfl rfl) (hstamped rfl rfl rfl)

/-! ## The deadline -/

/-- Idle is entered with the deadline of the section before it. -/
def Prepared (w w' : System c ε κ ρ) (deadline : Nat) : Prop :=
  deadline = w.state.prepareIdle.1 ∧ w'.state = w.state.prepareIdle.2

variable {deadline observed : Nat} {sleep : Bool}

theorem Acts.idling [DecidableEq μ] [DecidableEq κ] {a : Action μ ε κ ρ} (ha : Acts w a w')
    (h : w'.main = .idling deadline sleep observed) :
    w.main = .idling deadline sleep observed ∨ Prepared w w' deadline := by
  have hsampled : w'.main.sampled ≠ none := by
    rw [h]
    nofun
  cases ha with
  | called kind x => exact .inl ((call_called kind x).main ▸ h)
  | moved m _ _ _ hm =>
    rcases hm with hm | ⟨-, -, hidle⟩
    · exact absurd hm hsampled
    · exact absurd h (hidle _ _ _)
  | wake observed sleep =>
    cases h
    exact .inr ⟨rfl, rfl⟩
  | lifecycle l r m _ _ _ _ _ _ _ _ hm | use m _ _ _ _ hm => exact absurd hm hsampled
  | _ => first | exact .inl h | cases h

/-- What the loop never does, in a system and in whatever it does next. -/
structure NoLostWakeup [DecidableEq μ] [DecidableEq κ] (w : System c ε κ ρ) : Prop where
  /-- While idle may wait, that is while no notification came since the sample and the deadline has not
  passed, there is nothing to do. -/
  waits : ∀ deadline sleep observed, w.main = .idling deadline sleep observed →
    w.state.sequence = observed → w.state.now < deadline →
    w.state.events = [] ∧
      (∀ i, (w.state.tasks i).active = true → w.state.now < (w.state.tasks i).due) ∧
      w.state.stopRequested = false ∧ w.state.logger.records = []
  /-- The deadline is never later than a task or a timer active when it is computed. -/
  deadline : ∀ a deadline sleep observed, (w.act a).main = .idling deadline sleep observed →
    w.main ≠ .idling deadline sleep observed →
    (∀ i, ((w.act a).state.tasks i).active = true → deadline ≤ ((w.act a).state.tasks i).due) ∧
      ∀ i, ((w.act a).state.timers i).active = true → deadline ≤ ((w.act a).state.timers i).due

theorem no_lost_wakeup [DecidableEq μ] [DecidableEq κ] (actions : List (Action μ ε κ ρ)) :
    NoLostWakeup (runs {} actions : System c ε κ ρ) := by
  obtain ⟨hplaced, hawake⟩ := runs_induction (c := c) (P := Awake) awake_initial
    (fun w a hp h => (act_acts hp a).awake h) actions
  refine ⟨?_, ?_⟩
  · intro deadline sleep observed hidle hseq hnow
    obtain ⟨hstop, hrecords, htasks⟩ := hawake.watch.idle deadline sleep observed hidle hseq
    have hevents := hawake.watch.scanned observed (by rw [hidle]; rfl) (by rw [hidle]; rfl) hseq
    exact ⟨hevents, fun i hi => Nat.lt_of_lt_of_le hnow (htasks i hi), hstop, hrecords⟩
  · intro a deadline sleep observed hidle hne
    obtain ⟨rfl, hstate⟩ := ((act_acts hplaced a).idling hidle).resolve_left hne
    rw [hstate]
    obtain ⟨htasks, hslots⟩ := State.prepareIdle_le (runs {} actions : System c ε κ ρ).state
    exact ⟨htasks, hslots⟩

end System

end DaveOs.Schedule
