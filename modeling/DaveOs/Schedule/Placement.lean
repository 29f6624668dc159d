import DaveOs.Schedule.Sections

/-!
# Where the scheduler thread is

The lifecycle follows the scheduler thread (`System.Placed`): only the sections of `init` and `run` move
it, each at its own place. In particular the run loop and every task and command callback run in the
running state. `System.Acts` says once what an action does to a system that is placed: every invariant of
the scheduler is a case analysis of it. `System.runs_induction` is the induction over runs that the rest
of the development uses.
-/

namespace DaveOs.Schedule

variable {μ ε κ ρ : Type} {c : Config μ}

/-- The lifecycle state a consumer of the log queue runs in. -/
def Consumer.lifecycle : Consumer → Lifecycle
  | .loop => .running
  | .shutdown => .stopping
  | .failedInit => .failed

/-- The lifecycle states in which the scheduler thread can be at a place. -/
def Main.Fits : Main μ ε → Lifecycle → Prop
  | .outside, l => l = .fresh ∨ l = .ready ∨ l = .stopped ∨ l = .failed
  | .launching, l => l = .fresh
  | .binding _, l | .setup .., l | .settingUp .., l | .settling .., l => l = .initializing
  | .starting, l => l = .ready
  | .quiescing, l | .closing, l => l = .stopping
  | .flushing consumer, l | .publishing _ consumer, l => l = consumer.lifecycle
  | .top, l | .selecting _, l | .delivering .., l | .receiving .., l | .dispatching, l
  | .polling _, l | .consulting .., l | .asking .., l | .deciding .., l | .idling .., l
  | .stopping, l => l = .running

/-- The states before `run` has started its loop. -/
def Lifecycle.early : Lifecycle → Bool
  | .fresh | .initializing | .ready => true
  | _ => false

/-- The handlers of some modules that a record is due to: all but the sender's, in order. -/
def EventRecord.receivers [DecidableEq μ] (record : EventRecord μ ε) (modules : List μ) :
    List (μ × EventRecord μ ε) :=
  (modules.filter fun m => record.sender ≠ some m).map fun m => (m, record)

/-- The handlers still to be called for the record in delivery. -/
def Main.pending [DecidableEq μ] : Main μ ε → List (μ × EventRecord μ ε)
  | .delivering record rest | .receiving record rest => record.receivers rest
  | _ => []

/-- The notification count sampled for the current round of the loop. -/
def Main.sampled : Main μ ε → Option Nat
  | .selecting observed | .polling observed | .consulting observed .. | .asking observed ..
  | .deciding observed _ | .idling _ _ observed => some observed
  | _ => none

/-- The places after a scan for work that found none. -/
def Main.scanned : Main μ ε → Bool
  | .polling _ | .consulting .. | .asking .. | .deciding .. | .idling .. => true
  | _ => false

/-- A call made by a callback or by an interrupt. -/
def Action.Calls (a : Action μ ε κ ρ) (x : Call μ ε κ ρ) : Prop := a = .call x ∨ a = .interrupt x

theorem State.Requested.lifecycle {s s' : State c ε κ ρ} {x : Call μ ε κ ρ}
    (h : s.Requested x s') : s'.lifecycle = s.lifecycle := by
  cases h <;> rfl

namespace System

/-- The place of the scheduler thread fits the lifecycle, and callbacks on the stack run in the running
state. -/
structure Placed (w : System c ε κ ρ) : Prop where
  main : w.main.Fits w.state.lifecycle
  stack : w.stack ≠ [] → w.state.lifecycle = .running

theorem placed_initial : Placed ({} : System c ε κ ρ) := ⟨.inl rfl, fun h => absurd rfl h⟩

variable {w w' : System c ε κ ρ}

theorem Called.placed (h : w.Placed) {kind : Option CallbackKind} {x : Call μ ε κ ρ}
    (hx : Called kind w x w') : w'.Placed := by
  cases hx with
  | request x s' hr => exact ⟨by rw [hr.lifecycle]; exact h.main, by rw [hr.lifecycle]; exact h.stack⟩
  | task i _ _ hrun | command _ hrun => exact ⟨h.main, fun _ => hrun⟩

/-! ## Everything an action can do -/

section Acts

variable [DecidableEq μ] [DecidableEq κ]

/-- What an action does to a system. -/
inductive Acts (w : System c ε κ ρ) : Action μ ε κ ρ → System c ε κ ρ → Prop
  | nothing (a : Action μ ε κ ρ) : Acts w a w
  | advance (delay : Nat) : w.state.now + delay < kForever →
      Acts w (.advance delay) { w with state := { w.state with now := w.state.now + delay } }
  | called {a : Action μ ε κ ρ} (kind : Option CallbackKind) (x : Call μ ε κ ρ) : a.Calls x →
      kind = none ∨ w.callback = kind → Acts w a (w.call kind x).2
  /-- `RunTask` before and after its callback. -/
  | enter (f : Frame c.tasks) (rest : List (Activation c.tasks)) (sleep : Bool) :
      w.stack = .task f :: rest → f.phase = .entering →
      Acts w (.step sleep)
        { w with
          state := { w.state with taskDepth := w.state.taskDepth + 1 }
          stack := .task { f with phase := .running w.state.now } :: rest }
  | finish (f : Frame c.tasks) (rest : List (Activation c.tasks)) (start duration : Nat)
      (sleep : Bool) : w.stack = .task f :: rest → f.phase = .leaving start duration →
      Acts w (.step sleep) { w with state := w.state.finishTask f start duration, stack := rest }
  | answer {a : Action μ ε κ ρ} (rest : List (Activation c.tasks)) : w.stack = .command :: rest →
      Acts w a { w with stack := rest }
  | leave (f : Frame c.tasks) (rest : List (Activation c.tasks)) (start : Nat) (status : Status)
      (sleep : Bool) : w.stack = .task f :: rest → f.phase = .running start →
      Acts w (.returns status sleep)
        { w with
          state := { w.state with taskDepth := w.state.taskDepth - 1 }
          stack := .task { f with phase := .leaving start (w.state.now - start) } ::
            addNested (w.state.now - start) rest }
  /-- The scheduler thread goes on and does nothing else: in a round of the loop after its scan for work,
  or outside the rounds. -/
  | moved {a : Action μ ε κ ρ} (m : Main μ ε) : w.stack = [] → (∀ l, w.main.Fits l → m.Fits l) →
      m.pending = w.main.pending →
      (m.sampled = none ∨
        (m.sampled = w.main.sampled ∧ w.main.scanned = true ∧ ∀ d s o, m ≠ .idling d s o)) →
      Acts w a (w.goto m)
  | sample {a : Action μ ε κ ρ} : w.stack = [] → w.main = .top →
      Acts w a (w.goto (.selecting w.state.sequence))
  | pick (observed : Nat) (j : Fin w.state.events.length) (sleep : Bool) : w.stack = [] →
      w.main = .selecting observed → w.state.selectEvent = some j →
      Acts w (.step sleep)
        { w with
          state := { w.state with events := swapRemove w.state.events j }.observe
            (.picked (w.state.events.get j))
          main := .delivering (w.state.events.get j) c.modules }
  | take {a : Action μ ε κ ρ} (observed : Nat) (i : Fin c.tasks) : w.stack = [] →
      w.main = .selecting observed → w.state.lifecycle = .running → w.state.selectTask.2 = some i →
      Acts w a ((w.beginTask i).goto .dispatching)
  | poll {a : Action μ ε κ ρ} (observed : Nat) : w.stack = [] → w.main = .selecting observed →
      w.state.selectEvent = none → w.state.selectTask.2 = none → Acts w a (w.goto (.polling observed))
  | deliver (record : EventRecord μ ε) (m : μ) (rest : List μ) (sleep : Bool) : w.stack = [] →
      w.main = .delivering record (m :: rest) → record.sender ≠ some m →
      Acts w (.step sleep)
        { w with state := w.state.observe (.delivered m record), main := .receiving record rest }
  | drain {a : Action μ ε κ ρ} (record : ρ) (rest : Logging.Logger ρ) (consumer : Consumer) :
      w.stack = [] → w.main.pending = [] → w.state.lifecycle = consumer.lifecycle →
      w.state.logger.take = some (record, rest) →
      Acts w a { w with
        state := { w.state with logger := rest }, main := .publishing c.subscribers consumer }
  | wake {a : Action μ ε κ ρ} (observed : Nat) (sleep : Bool) : w.stack = [] →
      w.main = .deciding observed sleep → w.state.lifecycle = .running →
      w.state.stopRequested = false → (c.logging = true → w.state.logger.empty = true) →
      Acts w a { w with
        state := w.state.prepareIdle.2, main := .idling w.state.prepareIdle.1 sleep observed }
  /-- A request to the lifecycle machine outside the loop. -/
  | lifecycle {a : Action μ ε κ ρ} (l : Lifecycle) (r : Lifecycle.Request) (m : Main μ ε) :
      w.stack = [] → w.state.lifecycle = l → l ≠ .running → l.step r ≠ .running →
      ((l.step r).early = true → l.early = true) → m.Fits (l.step r) → w.main.pending = [] →
      m.pending = [] → m.sampled = none →
      Acts w a { w with
        state := { w.state with lifecycle := w.state.lifecycle.step r }, main := m }
  | use {a : Action μ ε κ ρ} (m : Main μ ε) : w.stack = [] → w.main = .outside →
      m.Fits w.state.lifecycle → m.pending = [] → m.sampled = none →
      Acts w a { w with state := { w.state with used := true }, main := m }
  | defaults {a : Action μ ε κ ρ} (run : Bool) : w.stack = [] → w.main = .binding run →
      w.state.lifecycle = .initializing →
      Acts w a { w with state := w.state.applyDefaults, main := .setup false c.modules run }
  | fail (status : Status) (run sleep : Bool) : w.stack = [] → w.main = .settling status run →
      w.state.lifecycle = .initializing → status ≠ .ok →
      Acts w (.step sleep) { w with state := w.state.settle status, main := .flushing .failedInit }
  | start {a : Action μ ε κ ρ} : w.stack = [] → w.main = .starting → w.state.lifecycle = .ready →
      Acts w a { w with state := w.state.start, main := .top }
  | halt (sleep : Bool) : w.stack = [] → w.main = .stopping → w.state.lifecycle = .running →
      Acts w (.step sleep) { w with state := w.state.halt, main := .quiescing }
  | expire : Acts w .expire
      { w with state := { w.state with armed := none }, fires := w.fires ++ [.checking] }
  /-- The guarded section of a `Fire`, and the end of its callback. -/
  | drop (n : Nat) : w.fires[n]? = some .checking → w.state.lifecycle ≠ .running →
      Acts w (.fire n) { w with fires := w.fires.eraseIdx n }
  | rearm (n : Nat) : w.fires[n]? = some .checking → w.state.lifecycle = .running →
      w.state.dueSlot = none →
      Acts w (.fire n) { w with state := w.state.rearm, fires := w.fires.eraseIdx n }
  | serve (n : Nat) (i : Fin (c.timerCapacity + 1)) : w.fires[n]? = some .checking →
      w.state.lifecycle = .running → w.state.dueSlot = some i →
      Acts w (.fire n)
        { w with
          state := observeFired (w.state.timers i)
            (w.state.setTimer i { w.state.timers i with active := false })
          fires := w.fires.set n (.calling (w.state.timers i).callback) }
  | fired (n : Nat) (callback : Option κ) : w.fires[n]? = some (.calling callback) →
      Acts w (.fired n) { w with state := w.state.notify, fires := w.fires.set n .checking }

variable {a : Action μ ε κ ρ}

theorem drain_acts {consumer : Consumer} {next : Main μ ε} (hs : w.stack = [])
    (hm : w.main.pending = []) (hl : w.state.lifecycle = consumer.lifecycle)
    (hnext : Acts w a (w.goto next)) : Acts w a (w.drain consumer next) := by
  unfold System.drain
  split
  · next record rest _ htake => exact .drain record rest consumer hs hm hl htake
  · exact hnext

theorem select_acts {observed : Nat} {sleep : Bool} (h : w.Placed) (hs : w.stack = [])
    (hm : w.main = .selecting observed) : Acts w (.step sleep) (w.select observed) := by
  have hl := h.main
  rw [hm] at hl
  unfold select
  dsimp only
  split
  · exact .moved _ hs (by rw [hm]; exact fun _ hl => hl) (by rw [hm]; rfl) (.inl rfl)
  · split
    · next j hj => exact .pick observed j sleep hs hm hj
    · next hevent =>
      split
      · next i hi => exact .take observed i hs hm hl hi
      · next htask => exact .poll observed hs hm hevent htask

theorem loop_acts (h : w.Placed) (hs : w.stack = []) (sleep : Bool) :
    Acts w (.step sleep) (w.loop sleep) := by
  have hfits := h.main
  have move : ∀ m : Main μ ε, (∀ l, w.main.Fits l → m.Fits l) → m.pending = w.main.pending →
      m.sampled = none → Acts w (.step sleep) (w.goto m) := fun m hl hp hm =>
    .moved m hs hl hp (.inl hm)
  unfold loop
  cases hm : w.main with
  | outside | settingUp stage2 rest run | receiving record rest | asking observed sleep rest => exact .nothing _
  | launching =>
    rw [hm] at hfits
    exact .lifecycle .fresh .init _ hs hfits nofun nofun (fun _ => rfl) rfl (by rw [hm]; rfl) rfl rfl
  | binding run =>
    rw [hm] at hfits
    exact .defaults run hs hm hfits
  | setup stage2 rest run =>
    rw [hm] at move
    cases rest <;> cases stage2 <;> exact move _ (fun _ hl => hl) rfl rfl
  | settling status run =>
    rw [hm] at hfits
    by_cases hok : status = .ok
    · subst hok
      refine .lifecycle .initializing .ready _ hs hfits nofun nofun (fun _ => rfl) ?_
        (by rw [hm]; rfl) ?_ ?_
      · cases run
        · exact .inr (.inl rfl)
        · exact rfl
      · cases run <;> rfl
      · cases run <;> rfl
    · dsimp only
      rw [if_pos hok]
      exact .fail status run sleep hs hm hfits hok
  | starting =>
    rw [hm] at hfits
    exact .start hs hm hfits
  | top => exact .sample hs hm
  | selecting observed => exact select_acts h hs hm
  | delivering record rest =>
    rw [hm] at move
    cases rest with
    | nil => exact move _ (fun _ hl => hl) rfl rfl
    | cons m rest =>
      dsimp only
      split
      · next hsender =>
        refine move _ (fun _ hl => hl) ?_ rfl
        simp [Main.pending, EventRecord.receivers, hsender]
      · next hsender => exact .deliver record m rest sleep hs hm hsender
  | dispatching | idling deadline sleep observed =>
    rw [hm] at move
    exact move _ (fun _ hl => hl) rfl rfl
  | polling observed =>
    rw [hm] at hfits
    refine drain_acts hs (by rw [hm]; rfl) hfits (.moved _ hs ?_ ?_ ?_) <;> rw [hm]
    · exact fun _ hl => hl
    · rfl
    · exact .inr ⟨rfl, rfl, nofun⟩
  | publishing remaining consumer =>
    rw [hm] at move
    cases remaining with
    | zero => cases consumer <;> exact move _ (fun _ hl => hl) rfl rfl
    | succ n => exact .nothing _
  | consulting observed sleep rest =>
    cases rest <;> refine .moved _ hs ?_ ?_ ?_ <;> rw [hm]
    all_goals first
      | exact fun _ hl => hl
      | exact .inr ⟨rfl, rfl, nofun⟩
      | rfl
  | deciding observed sleep =>
    rw [hm] at hfits move
    dsimp only
    unfold beforeIdle
    dsimp only
    split
    · exact move _ (fun _ hl => hl) rfl rfl
    · next hstop =>
      split
      · exact move _ (fun _ hl => hl) rfl rfl
      · next hlog =>
        refine .wake observed sleep hs hm hfits (by simpa using hstop) fun hlogging => ?_
        by_contra hne
        exact hlog ⟨hlogging, hne⟩
  | stopping =>
    rw [hm] at hfits
    exact .halt sleep hs hm hfits
  | quiescing =>
    rw [hm] at move
    dsimp only
    split
    · exact move _ (fun _ hl => hl) rfl rfl
    · exact .nothing _
  | flushing consumer =>
    rw [hm] at hfits move
    refine drain_acts hs (by rw [hm]; rfl) hfits (move _ (fun l hl => ?_) ?_ ?_)
    · rw [show l = consumer.lifecycle from hl]
      cases consumer
      · exact rfl
      · exact rfl
      · exact .inr (.inr (.inr rfl))
    · cases consumer <;> rfl
    · cases consumer <;> rfl
  | closing =>
    rw [hm] at hfits
    exact .lifecycle .stopping .stopped _ hs hfits nofun nofun nofun (.inr (.inr (.inl rfl)))
      (by rw [hm]; rfl) rfl rfl

theorem returns_acts (status : Status) (sleep : Bool) :
    Acts w (.returns status sleep) (w.returns status sleep) := by
  unfold System.returns
  split
  · next rest hs => exact .answer rest hs
  · next f rest hs =>
    split
    · next start hphase => exact .leave f rest start status sleep hs hphase
    · exact .nothing _
  · next hs =>
    split <;> rename_i hm
    · refine .moved _ hs (fun l hl => ?_) ?_ (.inl ?_)
      · rw [hm] at hl
        split <;> exact hl
      · rw [hm]
        split <;> rfl
      · split <;> rfl
    · exact .moved _ hs (by rw [hm]; exact fun _ hl => hl) (by rw [hm]; rfl) (.inl rfl)
    · exact .moved _ hs (by rw [hm]; exact fun _ hl => hl) (by rw [hm]; rfl) (.inl rfl)
    · exact .moved _ hs (by rw [hm]; exact fun _ hl => hl) (by rw [hm]; rfl)
        (.inr ⟨by rw [hm]; rfl, by rw [hm]; rfl, nofun⟩)
    · exact .nothing _

theorem fire_acts (n : Nat) : Acts w (.fire n) (w.fire n) := by
  unfold System.fire
  split
  · next hn =>
    split
    · next hl => exact .drop n hn hl
    · next hl =>
      rw [not_not] at hl
      split
      · next hslot => exact .rearm n hn hl hslot
      · next i hslot => exact .serve n i hn hl hslot
  · exact .nothing _

theorem act_acts (h : w.Placed) (a : Action μ ε κ ρ) : Acts w a (w.act a) := by
  cases a with
  | advance delay =>
    show Acts w _ (w.advance delay)
    unfold System.advance
    split
    · next hlt => exact .advance delay hlt
    · exact .nothing _
  | init =>
    show Acts w _ w.enterInit
    unfold enterInit
    split
    · next hm hs hl =>
      exact .lifecycle .fresh .init _ hs hl nofun nofun (fun _ => rfl) rfl (by rw [hm]; rfl) rfl rfl
    · exact .nothing _
  | run =>
    show Acts w _ w.enterRun
    unfold enterRun
    split
    · next hm hs hu =>
      have hfits := h.main
      rw [hm] at hfits
      refine .use _ hs hm ?_ ?_ ?_ <;> split
      all_goals first | assumption | rfl
    · exact .nothing _
  | step sleep =>
    show Acts w _ (w.step sleep)
    unfold System.step
    split
    · next hs => exact loop_acts h hs sleep
    · exact .nothing _
    · next f rest hs =>
      split
      · next hphase => exact .enter f rest sleep hs hphase
      · exact .nothing _
      · next start duration hphase => exact .finish f rest start duration sleep hs hphase
  | call x =>
    unfold System.act
    dsimp only
    split
    · next kind hkind => exact .called (some kind) x (.inl rfl) (.inr hkind)
    · exact .nothing _
  | returns status sleep => exact returns_acts status sleep
  | interrupt x => exact .called none x (.inr rfl) (.inl rfl)
  | expire =>
    show Acts w _ w.expire
    unfold System.expire
    split
    · exact .nothing _
    · split
      · exact .expire
      · exact .nothing _
  | fire n => exact fire_acts n
  | fired n =>
    show Acts w _ (w.fired n)
    unfold System.fired
    split
    · next callback hn => exact .fired n callback hn
    · exact .nothing _

theorem Acts.placed (h : w.Placed) (ha : Acts w a w') : w'.Placed := by
  have hrun : ∀ {top : Activation c.tasks} {rest}, w.stack = top :: rest →
      w.state.lifecycle = .running := fun hs => h.stack (by rw [hs]; exact List.cons_ne_nil _ _)
  have hfits := h.main
  cases ha with
  | called kind x => exact (call_called kind x).placed h
  | enter f rest sleep hs | finish f rest start duration sleep hs | answer rest hs
  | leave f rest start status sleep hs => exact ⟨h.main, fun _ => hrun hs⟩
  | moved m hs hl => exact ⟨hl _ h.main, fun hne => absurd hs hne⟩
  | take observed i hs hm hl => exact ⟨hl, fun _ => hl⟩
  | drain record rest consumer hs _ hl => exact ⟨hl, fun hne => absurd hs hne⟩
  | lifecycle l r m hs hl _ _ _ hm =>
    subst hl
    exact ⟨hm, fun hne => absurd hs hne⟩
  | use m hs _ hm => exact ⟨hm, fun hne => absurd hs hne⟩
  | fail status run sleep hs _ hl hok =>
    refine ⟨?_, fun hne => absurd hs hne⟩
    show (w.state.settle status).lifecycle = .failed
    unfold State.settle
    rw [if_neg hok]
    exact congrArg (Lifecycle.step · .fail) hl
  | start hs _ hl => exact ⟨congrArg (Lifecycle.step · .run) hl, fun hne => absurd hs hne⟩
  | halt sleep hs _ hl => exact ⟨congrArg (Lifecycle.step · .stop) hl, fun hne => absurd hs hne⟩
  | serve n i =>
    unfold observeFired
    split <;> exact ⟨h.main, h.stack⟩
  | sample hs hm | poll observed hs hm | pick observed j sleep hs hm | wake observed sleep hs hm
  | deliver record m rest sleep hs hm | defaults run hs hm =>
    rw [hm] at hfits
    exact ⟨hfits, fun hne => absurd hs hne⟩
  | _ => exact ⟨h.main, h.stack⟩

theorem Placed.act (h : w.Placed) (a : Action μ ε κ ρ) : (w.act a).Placed :=
  (act_acts h a).placed h

end Acts

theorem runs_induction [DecidableEq μ] [DecidableEq κ] {P : System c ε κ ρ → Prop} (h0 : P {})
    (hact : ∀ w a, w.Placed → P w → P (w.act a)) (actions : List (Action μ ε κ ρ)) :
    Placed (runs {} actions : System c ε κ ρ) ∧ P (runs {} actions) := by
  have run : ∀ (actions : List (Action μ ε κ ρ)) (w : System c ε κ ρ), w.Placed → P w →
      (w.runs actions).Placed ∧ P (w.runs actions) := by
    intro actions
    induction actions with
    | nil =>
      intro w hw hp
      exact ⟨hw, hp⟩
    | cons a rest ih =>
      intro w hw hp
      exact ih (w.act a) (hw.act a) (hact w a hw hp)
  exact run actions {} placed_initial h0

end System

end DaveOs.Schedule
