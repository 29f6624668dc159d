import DaveOs.Schedule.EventStep
import DaveOs.Schedule.Tasks
import DaveOs.Schedule.TimerStep
import DaveOs.Schedule.Wakeup

/-!
# Exactly-once events and dispatch order

`System.Ledger` balances the books in every run: the accepted records are those still queued, those taken
out and those discarded, and the handlers called are those of the records taken out, one record after the
other and each in registration order. `State.backlog` counts what can still come before a queued event
once the clock has passed its time; every selection lowers it, so the event is not passed over forever.
-/

namespace DaveOs.Schedule

variable {μ ε κ ρ : Type} {c : Config μ}

namespace System

variable [DecidableEq μ]

structure Ledger (w : System c ε κ ρ) : Prop where
  books : (accepted w.state.history).Perm
    (w.state.events ++ (picked w.state.history ++ discarded w.state.history))
  order : (delivered w.state.history).reverse ++ w.main.pending =
    (picked w.state.history).reverse.flatMap fun record => record.receivers c.modules

theorem ledger_initial : Ledger ({} : System c ε κ ρ) := ⟨List.Perm.nil, rfl⟩

variable {w w' : System c ε κ ρ} {a : Action μ ε κ ρ}

theorem Ledger.discard (h : w.Ledger) (hm : w.main.pending = []) (hm' : w'.main.pending = [])
    (he : w'.state.events = [])
    (hh : w'.state.history = .discarded w.state.events :: w.state.history) : w'.Ledger := by
  refine ⟨?_, ?_⟩
  · rw [he, hh]
    refine h.books.trans ?_
    show List.Perm _ (picked w.state.history ++ (w.state.events ++ discarded w.state.history))
    rw [← List.append_assoc, ← List.append_assoc]
    exact List.perm_append_comm.append_right _
  · have horder := h.order
    rw [hm] at horder
    rw [hm', hh]
    exact horder

theorem Ledger.step (h : w.Ledger) (hs : EventStep w a w') : w'.Ledger := by
  cases hs with
  | same hs =>
    refine ⟨?_, ?_⟩
    · rw [hs.accepted, hs.events, hs.picked, hs.discarded]
      exact h.books
    · rw [hs.delivered, hs.pending, hs.picked]
      exact h.order
  | accept v sender =>
    refine ⟨?_, h.order⟩
    show List.Perm (_ :: accepted w.state.history) (w.state.events ++ [_] ++ _)
    rw [List.append_assoc]
    exact (h.books.cons _).trans List.perm_middle.symm
  | pick observed j hm hj =>
    have horder := h.order
    rw [hm] at horder
    refine ⟨?_, ?_⟩
    · show List.Perm (accepted w.state.history) (swapRemove w.state.events j ++
        (w.state.events.get j :: (picked w.state.history ++ discarded w.state.history)))
      refine h.books.trans (List.Perm.trans ?_ List.perm_middle.symm)
      exact ((cons_swapRemove_perm w.state.events j).append_right _).symm
    · show (delivered w.state.history).reverse ++ EventRecord.receivers (w.state.events.get j) c.modules =
        (w.state.events.get j :: picked w.state.history).reverse.flatMap _
      rw [List.reverse_cons, List.flatMap_append, ← horder, List.flatMap_singleton]
      show _ = _ ++ [] ++ _
      rw [List.append_nil]
  | deliver record m rest hm hsender =>
    have horder := h.order
    rw [hm] at horder
    refine ⟨h.books, ?_⟩
    show ((m, record) :: delivered w.state.history).reverse ++ record.receivers rest = _
    have hcons : (Main.delivering record (m :: rest)).pending = (m, record) :: record.receivers rest := by
      simp [Main.pending, EventRecord.receivers, hsender]
    rw [List.reverse_cons, List.append_assoc, List.singleton_append, ← hcons]
    exact horder
  | stop hm => exact h.discard (by rw [hm]; rfl) rfl rfl rfl
  | fail status run hm hok =>
    have hsettle : w.state.settle status = State.discardWork
        { w.state with lifecycle := w.state.lifecycle.step .fail, failure := status } := if_neg hok
    refine h.discard (by rw [hm]; rfl) rfl ?_ ?_
    · dsimp only
      rw [hsettle]
      rfl
    · dsimp only
      rw [hsettle]
      rfl

end System

/-! ## Selection -/

namespace State

variable {s : State c ε κ ρ}
variable {i : Fin c.tasks} {t : Nat} {j : Fin s.events.length}

/-- A due time is due, and the smallest among all active tasks and queued events that are. -/
structure Earliest (s : State c ε κ ρ) (due : Nat) : Prop where
  due_le : due ≤ s.now
  tasks : ∀ i, (s.tasks i).active = true → (s.tasks i).due ≤ s.now → due ≤ (s.tasks i).due
  events : ∀ e ∈ s.events, e.due ≤ s.now → due ≤ e.due

theorem readyTask_eq (ha : (s.tasks i).active = true) (hd : (s.tasks i).due ≤ s.now) :
    s.readyTask i = some (s.tasks i).due := if_pos ⟨ha, hd⟩

theorem readyTask_eq_some (h : s.readyTask i = some t) :
    (s.tasks i).active = true ∧ (s.tasks i).due ≤ s.now ∧ (s.tasks i).due = t := by
  unfold readyTask at h
  split at h
  · next hi =>
    cases h
    exact ⟨hi.1, hi.2, rfl⟩
  · cases h

theorem readyEvent_eq_some (h : s.readyEvent j = some t) :
    (s.events.get j).due ≤ s.now ∧ (s.events.get j).due = t := by
  unfold readyEvent at h
  split at h
  · next hj =>
    cases h
    exact ⟨hj, rfl⟩
  · cases h

theorem selectTask_le (ha : (s.tasks i).active = true) (hd : (s.tasks i).due ≤ s.now) :
    s.selectTask.1 ≤ (s.tasks i).due :=
  (Scan.earliest_spec _ _ _).bound i (List.mem_finRange i) _ (readyTask_eq ha hd)

theorem earliest_of_event (h : s.selectEvent = some j) : s.Earliest (s.events.get j).due := by
  have spec := Scan.earliest_spec s.readyEvent s.selectTask.1 (List.finRange s.events.length)
  obtain ⟨-, hready, hlt⟩ := spec.entry j h
  obtain ⟨hle, heq⟩ := readyEvent_eq_some hready
  refine ⟨hle, fun i ha hd => ?_, fun e he hd => ?_⟩
  · have := selectTask_le ha hd
    omega
  · obtain ⟨k, rfl⟩ := List.get_of_mem he
    rw [heq]
    exact spec.bound k (List.mem_finRange k) _ (if_pos hd)

theorem earliest_of_task (he : s.selectEvent = none) (h : s.selectTask.2 = some i) :
    (s.tasks i).active = true ∧ s.Earliest (s.tasks i).due := by
  obtain ⟨-, hready, -⟩ := (Scan.earliest_spec _ _ _).entry i h
  obtain ⟨ha, hle, heq⟩ := readyTask_eq_some hready
  refine ⟨ha, hle, fun j hja hjd => ?_, fun e hmem hd => ?_⟩
  · rw [heq]
    exact selectTask_le hja hjd
  · obtain ⟨k, rfl⟩ := List.get_of_mem hmem
    rw [heq]
    exact Scan.limit_le_of_none he (List.mem_finRange k) (if_pos hd)

theorem Stamped.nothing_due (h : s.Stamped) (he : s.selectEvent = none)
    (ht : s.selectTask.2 = none) :
    s.events = [] ∧ ∀ i, (s.tasks i).active = true → s.now < (s.tasks i).due := by
  refine ⟨h.events_eq_nil he ht, fun i ha => ?_⟩
  by_contra hd
  have hle := Scan.limit_le_of_none ht (List.mem_finRange i) (readyTask_eq ha (by omega))
  have := h.real
  omega

end State

namespace System

variable {w w' : System c ε κ ρ}

/-- One selection of the loop: it takes the earliest event or task that is due, or nothing is due. -/
inductive Selected (w w' : System c ε κ ρ) : Prop
  | event (record : EventRecord μ ε) (j : Fin w.state.events.length) :
      w.state.events.get j = record → w.state.Earliest record.due →
      w'.state.events = swapRemove w.state.events j → w'.state.tasks = w.state.tasks →
      w'.state.history = .picked record :: w.state.history → Selected w w'
  | task (i : Fin c.tasks) : (w.state.tasks i).active = true →
      w.state.Earliest (w.state.tasks i).due → w'.state = w.state.takeTask i → Selected w w'
  | nothing : w.state.events = [] →
      (∀ i, (w.state.tasks i).active = true → w.state.now < (w.state.tasks i).due) →
      w'.state = w.state → Selected w w'

theorem Awake.selected (h : w.Awake) {observed : Nat} (hstop : w.state.stopRequested = false) :
    Selected w (w.select observed) := by
  unfold System.select
  dsimp only
  rw [if_neg (by simp [hstop])]
  split
  · next j hj => exact .event _ j rfl (State.earliest_of_event hj) rfl rfl rfl
  · next he =>
    split
    · next i hi =>
      obtain ⟨ha, hearliest⟩ := State.earliest_of_task he hi
      exact .task i ha hearliest rfl
    · next ht =>
      obtain ⟨hnil, htasks⟩ := h.stamped.nothing_due he ht
      exact .nothing hnil htasks rfl

end System

/-! ## No event is passed over forever -/

/-- How many more iterations a task can be taken for at or before a time. -/
def Task.remaining (t : Nat) (task : Task) : Nat := if task.active then t + 1 - task.due else 0

/-- What can still be selected at or before a time. -/
def State.backlog (t : Nat) (s : State c ε κ ρ) : Nat :=
  ∑ i, (s.tasks i).remaining t + (s.events.filter fun e => e.due ≤ t).length

/-- Taking a task for an iteration that is due at or before a time uses it up. -/
theorem Task.remaining_take {t : Nat} {task task' : Task} (ht : t + 1 < kForever)
    (htask : task' = if task.mode = .repeats
      then { task with executing := true, due := after task.due task.interval }
      else { task with executing := true, active := false })
    (ha : task.active = true) (hi : task.mode = .repeats → 0 < task.interval) :
    task'.remaining t ≤ task.remaining t ∧
      (task.due ≤ t → task'.remaining t < task.remaining t) := by
  have hk : kForever = 2 ^ 64 - 1 := rfl
  subst htask
  unfold Task.remaining
  by_cases hm : task.mode = .repeats
  · have hpos := hi hm
    rw [if_pos hm]
    simp only [ha, if_true, after_eq_min]
    omega
  · rw [if_neg hm]
    simp only [ha, if_true, Bool.false_eq_true, if_false]
    omega

namespace System

variable {w w' : System c ε κ ρ} {t : Nat}
variable {a : Action μ ε κ ρ} {e : EventRecord μ ε}

/-- While running, past a time, no action adds to what can be selected up to that time. -/
theorem TaskStep.remaining_le (h : w.Paced) (hs : TaskStep w w')
    (hrun : w.state.lifecycle = .running) (hnow : t < w.state.now) (hreal : w.state.now < kForever)
    (i : Fin c.tasks) : (w'.state.tasks i).remaining t ≤ (w.state.tasks i).remaining t := by
  cases hs with
  | same hs | lifecycle hs => rw [hs.tasks]
  | defaults _ _ hl | start _ _ hl =>
    rw [hrun] at hl
    cases hl
  | discard ht =>
    rw [ht i]
    exact Nat.zero_le _
  | schedule j delay mode _ hstate =>
    rw [hstate]
    by_cases hj : i = j
    · -- A new schedule starts no earlier than now.
      subst hj
      have hself : ((w.state.reschedule i delay mode).tasks i).due = after w.state.now delay := by
        unfold State.reschedule
        rw [if_pos hrun]
        simp [State.observe, State.notify, State.setTask]
      have hle := le_after hreal delay
      unfold Task.remaining
      rw [hself]
      split <;> omega
    · exact Nat.le_of_eq (congrArg (Task.remaining t) (Function.update_of_ne hj _ _))
  | cancel j hstate =>
    rw [hstate]
    by_cases hj : i = j
    · subst hj
      have hself : ((w.state.deactivate i).tasks i).active = false := by
        simp [State.deactivate, State.notify, State.setTask]
      unfold Task.remaining
      rw [hself]
      exact Nat.zero_le _
    · exact Nat.le_of_eq (congrArg (Task.remaining t) (Function.update_of_ne hj _ _))
  | take j ht =>
    rw [ht.state]
    by_cases hj : i = j
    · subst hj
      exact (Task.remaining_take (by omega) (Function.update_self _ _ _) ht.active
        (h.interval i ht.active)).1
    · exact Nat.le_of_eq (congrArg (Task.remaining t) (Function.update_of_ne hj _ _))
  | finish f _ _ _ hstate =>
    rw [hstate]
    by_cases hj : i = f.task
    · subst hj
      refine Nat.le_of_eq ?_
      simp [State.finishTask, State.setTask, Task.remaining]
    · exact Nat.le_of_eq (congrArg (Task.remaining t) (Function.update_of_ne hj _ _))

def upTo (t : Nat) (events : List (EventRecord μ ε)) : Nat :=
  (events.filter fun e => e.due ≤ t).length

theorem upTo_swapRemove (events : List (EventRecord μ ε)) (j : Fin events.length) :
    upTo t events =
      upTo t (swapRemove events j) + if (events.get j).due ≤ t then 1 else 0 := by
  have hperm := ((cons_swapRemove_perm events j).filter fun e => e.due ≤ t).length_eq
  unfold upTo
  rw [← hperm, List.filter_cons]
  split <;> simp_all

theorem EventStep.upTo_le [DecidableEq μ] (hs : EventStep w a w') (hnow : t < w.state.now) :
    upTo t w'.state.events ≤ upTo t w.state.events := by
  cases hs with
  | same hs => rw [hs.events]
  | accept v sender =>
    show upTo t (w.state.events ++ [_]) ≤ _
    unfold upTo
    rw [List.filter_append, List.length_append]
    simp [hnow]
  | pick observed j hm hj =>
    have := upTo_swapRemove (t := t) w.state.events j
    show upTo t (swapRemove w.state.events j) ≤ _
    omega
  | deliver => exact Nat.le_refl _
  | stop => exact Nat.zero_le _
  | fail status run hm hok =>
    show upTo t (w.state.settle status).events ≤ _
    unfold State.settle
    rw [if_neg hok]
    exact Nat.zero_le _

/-- A selection, with an event queued from a time that has passed, takes something due up to then. -/
theorem Selected.backlog_lt (hp : w.Paced) (hs : Selected w w') (he : e ∈ w.state.events)
    (hnow : e.due < w.state.now) (hreal : w.state.now < kForever) :
    w'.state.backlog e.due < w.state.backlog e.due := by
  cases hs with
  | event record j hget hearliest hevents htasks _ =>
    have hle := hearliest.events e he (Nat.le_of_lt hnow)
    have hcount := upTo_swapRemove (t := e.due) w.state.events j
    rw [hget, if_pos hle] at hcount
    unfold State.backlog
    rw [htasks, hevents]
    unfold upTo at hcount
    omega
  | task i ha hearliest hstate =>
    have hle := hearliest.events e he (Nat.le_of_lt hnow)
    have hself : w'.state.tasks i =
        if (w.state.tasks i).mode = .repeats then
          { w.state.tasks i with
            executing := true
            due := after (w.state.tasks i).due (w.state.tasks i).interval }
        else { w.state.tasks i with executing := true, active := false } := by
      rw [hstate]
      exact Function.update_self _ _ _
    have hother : ∀ j, j ≠ i → w'.state.tasks j = w.state.tasks j := fun j hj => by
      rw [hstate]
      exact Function.update_of_ne hj _ _
    have htake := Task.remaining_take (t := e.due) (by omega) hself ha (hp.interval i ha)
    have hsum : ∑ j, (w'.state.tasks j).remaining e.due < ∑ j, (w.state.tasks j).remaining e.due := by
      refine Finset.sum_lt_sum (fun j _ => ?_) ⟨i, Finset.mem_univ i, htake.2 hle⟩
      by_cases hj : j = i
      · subst hj
        exact htake.1
      · rw [hother j hj]
    have hevents : w'.state.events = w.state.events := by
      rw [hstate]
      rfl
    unfold State.backlog
    rw [hevents]
    omega
  | nothing hnil _ _ =>
    rw [hnil] at he
    cases he

/-- Whether an action is the loop's selection of work. -/
def selects (w : System c ε κ ρ) (a : Action μ ε κ ρ) : Bool :=
  match a, w.main, w.stack with
  | .step _, .selecting _, [] => true
  | _, _, _ => false

def selections [DecidableEq μ] [DecidableEq κ] (w : System c ε κ ρ) :
    List (Action μ ε κ ρ) → Nat
  | [] => 0
  | a :: rest => (if w.selects a then 1 else 0) + selections (w.act a) rest

/-- A stop was requested or carried out. -/
def Stops (w : System c ε κ ρ) : Prop :=
  w.state.stopRequested = true ∨ w.state.lifecycle ≠ .running

theorem TimerStep.now_le (hs : TimerStep w a w') : w.state.now ≤ w'.state.now := by
  cases hs with
  | same hs | lifecycle hs => exact hs.now.ge
  | advance => exact Nat.le_add_right _ _
  | hold _ _ _ _ _ _ hw | drop _ _ _ hw =>
    subst hw
    exact Nat.le_refl _
  | wake _ hstate _ | halt _ hstate _ =>
    rw [hstate]
    exact Nat.le_refl _
  | serve n i =>
    dsimp only [observeFired]
    split <;> exact Nat.le_refl _
  | _ => exact Nat.le_refl _

theorem EventStep.discarded_cases [DecidableEq μ] (hs : EventStep w a w')
    (hne : discarded w'.state.history ≠ discarded w.state.history) :
    w.main = .stopping ∨ ∃ status run, w.main = .settling status run ∧ status ≠ .ok := by
  cases hs with
  | same hs => exact absurd hs.discarded hne
  | accept | pick | deliver => exact absurd rfl hne
  | stop hm => exact .inl hm
  | fail status run hm hok => exact .inr ⟨status, run, hm, hok⟩

theorem Ledger.full_iff [DecidableEq μ] (h : w.Ledger) {v : ε} {sender : Option μ}
    (hw : w.state.lifecycle.acceptsWork = true) (hf : State.foreign c sender = false) :
    (w.state.post (some v) sender).1 = .full ↔
      (accepted w.state.history).length =
        (picked w.state.history).length + (discarded w.state.history).length + c.eventCapacity := by
  have hlen := h.books.length_eq
  rw [List.length_append, List.length_append] at hlen
  have hfull : (w.state.post (some v) sender).1 = .full ↔
      w.state.events.length = c.eventCapacity := by
    unfold State.post
    rw [if_neg (by simp [hw])]
    dsimp only
    rw [if_neg (by simp [hf])]
    split
    · next heq => exact ⟨fun _ => heq, fun _ => rfl⟩
    · next hne => exact ⟨fun h => (by cases h), fun heq => absurd heq hne⟩
  rw [hfull]
  omega

structure Sane (w : System c ε κ ρ) : Prop where
  placed : w.Placed
  paced : w.Paced
  awake : w.Awake

variable [DecidableEq μ] [DecidableEq κ]

theorem Sane.act (h : w.Sane) (a : Action μ ε κ ρ) : (w.act a).Sane :=
  ⟨h.placed.act a, h.paced.step (act_taskStep h.placed a), (act_acts h.placed a).awake h.awake⟩

theorem Sane.backlog_le (h : w.Sane) (hrun : w.state.lifecycle = .running)
    (hnow : t < w.state.now) (a : Action μ ε κ ρ) :
    (w.act a).state.backlog t ≤ w.state.backlog t := by
  have hevents := (act_eventStep h.placed a).upTo_le hnow
  have htasks : ∑ i, ((w.act a).state.tasks i).remaining t ≤ ∑ i, (w.state.tasks i).remaining t :=
    Finset.sum_le_sum fun i _ => (act_taskStep h.placed a).remaining_le h.paced hrun hnow
      h.awake.stamped.real i
  unfold upTo at hevents
  unfold State.backlog
  omega

theorem act_selecting {sleep : Bool} {observed : Nat} (hm : w.main = .selecting observed)
    (hs : w.stack = []) : w.act (.step sleep) = w.select observed := by
  show w.step sleep = _
  unfold step loop
  rw [hs]
  dsimp only
  rw [hm]

theorem Sane.backlog_lt (h : w.Sane) (hstop : w.state.stopRequested = false)
    (he : e ∈ w.state.events) (hnow : e.due < w.state.now) (ha : w.selects a = true) :
    (w.act a).state.backlog e.due < w.state.backlog e.due := by
  unfold selects at ha
  split at ha
  · next sleep observed hm hs =>
    rw [act_selecting hm hs]
    exact (h.awake.selected hstop).backlog_lt h.paced he hnow h.awake.stamped.real
  · cases ha

/-- Once the clock has passed the time of a queued event, the event leaves the queue within as many
selections as its backlog, unless a stop comes first. -/
theorem Sane.served (actions : List (Action μ ε κ ρ)) :
    ∀ {w : System c ε κ ρ}, w.Sane → e.due < w.state.now →
      w.state.backlog e.due < selections w actions →
      ∃ n, n ≤ actions.length ∧
        (e ∉ (w.runs (actions.take n)).state.events ∨ Stops (w.runs (actions.take n))) := by
  induction actions with
  | nil =>
    intro w _ _ hlt
    exact absurd hlt (Nat.not_lt_zero _)
  | cons a rest ih =>
    intro w h hnow hlt
    by_cases hstops : Stops w
    · exact ⟨0, Nat.zero_le _, .inr hstops⟩
    by_cases he : e ∈ w.state.events
    · obtain ⟨hstop, hrun⟩ := not_or.1 hstops
      have hle := h.backlog_le (not_not.1 hrun) hnow a
      have hlt' : (w.act a).state.backlog e.due < selections (w.act a) rest := by
        unfold selections at hlt
        split at hlt
        · next hsel =>
          have := h.backlog_lt (by simpa using hstop) he hnow hsel
          omega
        · omega
      have hnow' := Nat.lt_of_lt_of_le hnow (act_timerStep h.placed a).now_le
      obtain ⟨n, hn, hend⟩ := ih (h.act a) hnow' hlt'
      exact ⟨n + 1, Nat.succ_le_succ hn, hend⟩
    · exact ⟨0, Nat.zero_le _, .inl he⟩

/-- Events are delivered exactly once, in order, and work is picked by due time: what holds of a system
and of whatever it does next. -/
structure EventsExact (w : System c ε κ ρ) : Prop where
  /-- Every accepted event is still queued, or was taken out by the loop, or was discarded, once. -/
  books : (accepted w.state.history).Perm
    (w.state.events ++ (picked w.state.history ++ discarded w.state.history))
  /-- The handlers called, and those still to be called for the event in delivery, are for one event after
  the other those of every registered module but the sender, in registration order. -/
  order : (delivered w.state.history).reverse ++ w.main.pending =
    (picked w.state.history).reverse.flatMap fun record =>
      (c.modules.filter fun m => record.sender ≠ some m).map fun m => (m, record)
  /-- Events are only discarded by the section after the loop and by a failed initialization. -/
  discards : ∀ a, discarded (w.act a).state.history ≠ discarded w.state.history →
    w.main = .stopping ∨ ∃ status run, w.main = .settling status run ∧ status ≠ .ok
  /-- A valid post is refused with full exactly when the capacity is taken by accepted events that are
  neither taken out nor discarded; the refusal is counted and changes nothing else. -/
  full : ∀ v sender, w.state.lifecycle.acceptsWork = true → State.foreign c sender = false →
    ((w.state.post (some v) sender).1 = .full ↔
      (accepted w.state.history).length =
        (picked w.state.history).length + (discarded w.state.history).length + c.eventCapacity)
  refused : ∀ v sender, (w.state.post (some v) sender).1 = .full →
    (w.state.post (some v) sender).2 = w.state.withStatistics
      { w.state.statistics with eventOverflows := w.state.statistics.eventOverflows + 1 }
  /-- The loop's selection takes the earliest of all that is due. -/
  selected : ∀ sleep observed, w.main = .selecting observed → w.stack = [] →
    w.state.stopRequested = false → Selected w (w.act (.step sleep))
  /-- A queued event is not passed over forever. -/
  served : ∀ e ∈ w.state.events, ∀ actions, e.due < w.state.now →
    w.state.backlog e.due < selections w actions →
    ∃ n, n ≤ actions.length ∧
      (e ∉ (w.runs (actions.take n)).state.events ∨ Stops (w.runs (actions.take n)))

end System

end DaveOs.Schedule
