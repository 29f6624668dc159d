import DaveOs.Schedule.Tasks

/-!
# Nested yields and the time they take

A yield runs another task on the same stack. Under the activation on top all task callbacks are running,
each since before the one above it began, and the nested time it has collected fits between the two
(`Below`); so no duration is smaller than its nested part. The time counted as some task's own is the
duration of the finished outermost activations and the nested time collected on the stack, less the
duration of an activation that has ended and is not counted yet (`Balanced`).
-/

namespace DaveOs.Schedule

variable {μ ε κ ρ : Type} {c : Config μ} {n : Nat}
variable {t t' : Nat} {f : Frame n}

/-! ## The stack -/

/-- The activations under one that began at `t`. -/
def Below : Nat → List (Activation n) → Prop
  | _, [] => True
  | _, .command :: _ => False
  | t, .task f :: rest =>
    match f.phase with
    | .running start => start + f.nested ≤ t ∧ Below start rest
    | _ => False

/-- The stack at time `now`. -/
def Stacked (now : Nat) : List (Activation n) → Prop
  | [] => True
  | .command :: rest => Stacked now rest
  | .task f :: rest =>
    match f.phase with
    | .entering => f.nested = 0 ∧ Below now rest
    | .running start => start + f.nested ≤ now ∧ Below start rest
    | .leaving start duration => start + duration ≤ now ∧ f.nested ≤ duration ∧ Below now rest

/-- The task callbacks that are running. -/
def depth : List (Activation n) → Nat
  | [] => 0
  | .command :: rest => depth rest
  | .task f :: rest =>
    match f.phase with
    | .running _ => depth rest + 1
    | _ => depth rest

/-- The nested time collected on the stack. -/
def nestedTime : List (Activation n) → Nat
  | [] => 0
  | .command :: rest => nestedTime rest
  | .task f :: rest => f.nested + nestedTime rest

/-- The duration of an activation that has ended inside another, until it is counted. -/
def uncounted : List (Activation n) → Nat
  | .command :: rest => uncounted rest
  | .task f :: _ :: _ =>
    match f.phase with
    | .leaving _ duration => duration
    | _ => 0
  | _ => 0

theorem Below.mono (htt : t ≤ t') : ∀ {stack : List (Activation n)}, Below t stack →
    Below t' stack
  | [], _ => trivial
  | .command :: _, h => h
  | .task f :: rest, h => by
    unfold Below at h ⊢
    split at h
    · exact ⟨Nat.le_trans h.1 htt, h.2⟩
    · exact h

theorem Stacked.mono (htt : t ≤ t') : ∀ {stack : List (Activation n)},
    Stacked t stack → Stacked t' stack
  | [], _ => trivial
  | .command :: rest, h => by
    have hrest : Stacked t rest := h
    exact hrest.mono htt
  | .task f :: rest, h => by
    unfold Stacked at h ⊢
    split at h
    · exact ⟨h.1, h.2.mono htt⟩
    · exact ⟨Nat.le_trans h.1 htt, h.2⟩
    · exact ⟨Nat.le_trans h.1 htt, h.2.1, h.2.2.mono htt⟩

theorem Below.depth_eq : ∀ {t : Nat} {stack : List (Activation n)}, Below t stack →
    depth stack = (frames stack).length ∧ uncounted stack = 0
  | _, [], _ => ⟨rfl, rfl⟩
  | _, .command :: _, h => h.elim
  | t, .task f :: rest, h => by
    unfold Below at h
    split at h
    · next start hphase =>
      obtain ⟨hdepth, -⟩ := h.2.depth_eq
      refine ⟨?_, ?_⟩
      · simp only [depth, hphase, hdepth]
        rfl
      · cases rest with
        | nil => rfl
        | cons a rest => simp only [uncounted, hphase]
    · exact h.elim

theorem Below.stacked : ∀ {stack : List (Activation n)}, Below t stack → Stacked t stack
  | [], _ => trivial
  | .command :: _, h => h.elim
  | .task f :: rest, h => by
    unfold Below at h
    split at h
    · next start hphase =>
      simp only [Stacked, hphase]
      exact h
    · exact h.elim

theorem Below.running : ∀ {t : Nat} {stack : List (Activation n)}, Below t stack →
    .task f ∈ stack → ∃ start, f.phase = .running start
  | _, .command :: _, h, _ => h.elim
  | _, .task g :: rest, h, hf => by
    unfold Below at h
    split at h
    · next start hphase =>
      rcases List.mem_cons.1 hf with hfg | hf
      · obtain rfl := Activation.task.inj hfg
        exact ⟨start, hphase⟩
      · exact h.2.running hf
    · exact h.elim

/-- No activation that has ended lasted shorter than what was nested in it. -/
theorem Stacked.nested_le {now start duration : Nat} (hphase : f.phase = .leaving start duration) :
    ∀ {stack : List (Activation n)},
    Stacked now stack → .task f ∈ stack → f.nested ≤ duration
  | .command :: rest, h, hf => by
    rcases List.mem_cons.1 hf with hfc | hf
    · cases hfc
    · have hrest : Stacked now rest := h
      exact hrest.nested_le hphase hf
  | .task g :: rest, h, hf => by
    rcases List.mem_cons.1 hf with hfg | hf
    · obtain rfl := Activation.task.inj hfg
      simp only [Stacked, hphase] at h
      exact h.2.1
    · -- under another activation it would be running
      have hbelow : ∃ t, Below t rest := by
        unfold Stacked at h
        split at h
        · exact ⟨_, h.2⟩
        · exact ⟨_, h.2⟩
        · exact ⟨_, h.2.2⟩
      obtain ⟨t, ht⟩ := hbelow
      obtain ⟨start', hrun⟩ := ht.running hf
      rw [hphase] at hrun
      cases hrun

theorem owed_of_frames {stack : List (Activation n)} (h : frames stack = []) :
    nestedTime stack = 0 ∧ uncounted stack = 0 := by
  induction stack with
  | nil => exact ⟨rfl, rfl⟩
  | cons a rest ih =>
    cases a with
    | command => exact ih h
    | task f => cases h

theorem Below.addNested (htt : t ≤ t') {stack : List (Activation c.tasks)} (h : Below t stack) :
    Below t' (System.addNested (t' - t) stack) ∧
      depth (System.addNested (t' - t) stack) = depth stack ∧
      nestedTime (System.addNested (t' - t) stack) =
        nestedTime stack + (if stack = [] then 0 else t' - t) := by
  cases stack with
  | nil => exact ⟨trivial, rfl, rfl⟩
  | cons a rest =>
    cases a with
    | command => exact h.elim
    | task f =>
      unfold Below at h
      split at h
      · next start hphase =>
        refine ⟨?_, ?_, ?_⟩
        · simp only [System.addNested, Below, hphase]
          exact ⟨by omega, h.2⟩
        · simp only [System.addNested, depth, hphase]
        · simp only [System.addNested, nestedTime, reduceCtorEq, if_false]
          omega
      · exact h.elim

/-! ## What an action does to the stack -/

namespace System

/-- Task callbacks that may yield: the one on top of the stack is running. -/
def Yielding (stack : List (Activation c.tasks)) : Prop :=
  ∃ f rest start, stack = .task f :: rest ∧ f.phase = .running start

/-- The depth, the times of the tasks and the clock are the same. -/
structure SameTimes (s s' : State c ε κ ρ) : Prop where
  depth : s'.taskDepth = s.taskDepth
  times : s'.statistics.tasks = s.statistics.tasks
  now : s'.now = s.now

/-- Everything that can happen to the stack, its depth and the times that are counted, with the duration
of an outermost activation that is finished by it; `reset` is whether the statistics may be reset. -/
inductive StackStep (reset : Prop) (w : System c ε κ ρ) : Nat → System c ε κ ρ → Prop
  | same {w' : System c ε κ ρ} : w'.stack = w.stack → SameTimes w.state w'.state →
      StackStep reset w 0 w'
  | advance {w' : System c ε κ ρ} : w'.stack = w.stack → w'.state.taskDepth = w.state.taskDepth →
      w'.state.statistics.tasks = w.state.statistics.tasks → w.state.now ≤ w'.state.now →
      StackStep reset w 0 w'
  | reset {w' : System c ε κ ρ} : reset → w'.stack = w.stack →
      w'.state.taskDepth = w.state.taskDepth → w'.state.now = w.state.now → StackStep reset w 0 w'
  /-- A task is taken by the loop, or by a yield within the limit. -/
  | take {w' : System c ε κ ρ} (f : Frame c.tasks) : f.phase = .entering → f.nested = 0 →
      w'.stack = .task f :: w.stack → SameTimes w.state w'.state →
      (w.stack = [] ∨ (Yielding w.stack ∧ w.state.taskDepth < c.yieldLimit)) →
      StackStep reset w 0 w'
  /-- A command callback begins or returns. -/
  | invoke {w' : System c ε κ ρ} : w'.stack = .command :: w.stack → SameTimes w.state w'.state →
      StackStep reset w 0 w'
  | answer {w' : System c ε κ ρ} : w.stack = .command :: w'.stack → SameTimes w.state w'.state →
      StackStep reset w 0 w'
  | enter {w' : System c ε κ ρ} (f : Frame c.tasks) (rest : List (Activation c.tasks)) :
      f.phase = .entering → w.stack = .task f :: rest →
      w'.stack = .task { f with phase := .running w.state.now } :: rest →
      w'.state = { w.state with taskDepth := w.state.taskDepth + 1 } → StackStep reset w 0 w'
  | leave {w' : System c ε κ ρ} (f : Frame c.tasks) (rest : List (Activation c.tasks))
      (start : Nat) : f.phase = .running start → w.stack = .task f :: rest →
      w'.stack = .task { f with phase := .leaving start (w.state.now - start) } ::
        addNested (w.state.now - start) rest →
      w'.state = { w.state with taskDepth := w.state.taskDepth - 1 } → StackStep reset w 0 w'
  | finish {w' : System c ε κ ρ} (f : Frame c.tasks) (rest : List (Activation c.tasks))
      (start duration : Nat) : f.phase = .leaving start duration → w.stack = .task f :: rest →
      w'.stack = rest → w'.state = w.state.finishTask f start duration →
      StackStep reset w (if rest = [] then duration else 0) w'

variable {w w' : System c ε κ ρ}

/-- A call other than `reset_statistics` leaves the times of the tasks. -/
theorem call_times [DecidableEq μ] [DecidableEq κ] (kind : Option CallbackKind)
    {x : Call μ ε κ ρ} (hx : x ≠ .resetStatistics) : SameTimes w.state (w.call kind x).2.state := by
  cases x with
  | schedule module index delay mode =>
    show SameTimes w.state (w.state.scheduleSlot module index delay mode).2
    rcases w.state.scheduleSlot_cases module index delay mode with h | ⟨i, -, -, h⟩ <;> rw [h] <;>
      exact ⟨rfl, rfl, rfl⟩
  | cancel module index =>
    show SameTimes w.state (w.state.cancelSlot kind.isNone module index).2
    rcases w.state.cancelSlot_cases kind.isNone module index with h | ⟨i, -, h⟩ <;> rw [h] <;>
      exact ⟨rfl, rfl, rfl⟩
  | post value sender =>
    show SameTimes w.state (w.state.post value sender).2
    rcases w.state.post_cases value sender with ⟨-, -, h⟩ | ⟨-, -, h⟩ | ⟨v, -, -, -, -, h⟩ <;> rw [h] <;>
      exact ⟨rfl, rfl, rfl⟩
  | timer delay callback =>
    show SameTimes w.state (w.state.timerSlot delay callback).2
    rcases State.timerSlot_cases (s := w.state) delay callback with ⟨-, -, h⟩ | ⟨-, h⟩ |
      ⟨k, i, -, -, -, h⟩ <;> rw [h] <;> exact ⟨rfl, rfl, rfl⟩
  | cancelTimer callback =>
    show SameTimes w.state (w.state.cancelTimer callback).2
    rcases State.cancelTimer_cases (s := w.state) callback with h | ⟨i, -, -, -, h⟩ <;> rw [h] <;>
      exact ⟨rfl, rfl, rfl⟩
  | stop =>
    show SameTimes w.state w.state.stop.2
    rcases w.state.stop_cases with h | ⟨-, h⟩ <;> rw [h] <;> exact ⟨rfl, rfl, rfl⟩
  | yield =>
    show SameTimes w.state (w.yield kind).2.state
    unfold yield
    dsimp only
    repeat' split
    all_goals exact ⟨rfl, rfl, rfl⟩
  | resetStatistics => exact absurd rfl hx
  | log record truncated =>
    show SameTimes w.state (w.state.write record truncated).2
    rcases w.state.write_cases record truncated with h | ⟨logger, -, h⟩ | ⟨logger, -, -, h⟩ <;>
      rw [h] <;> exact ⟨rfl, rfl, rfl⟩
  | invoke =>
    show SameTimes w.state (w.invoke kind).2.state
    unfold invoke
    repeat' split
    all_goals exact ⟨rfl, rfl, rfl⟩

theorem call_stackStep [DecidableEq μ] [DecidableEq κ] (kind : Option CallbackKind)
    (x : Call μ ε κ ρ) (hkind : kind = some .task → Yielding w.stack) :
    StackStep (x = .resetStatistics) w 0 (w.call kind x).2 := by
  by_cases hx : x = .resetStatistics
  · subst hx
    exact .reset rfl rfl rfl rfl
  have htimes := call_times (w := w) kind hx
  have hcalled := call_called (w := w) kind x
  generalize (w.call kind x).2 = w' at htimes hcalled
  cases hcalled with
  | request x s' _ => exact .same rfl htimes
  | task i htask _ _ _ hdepth => exact .take _ rfl rfl rfl htimes (.inr ⟨hkind htask, hdepth⟩)
  | command => exact .invoke rfl htimes

theorem callback_task (h : w.callback = some .task) : Yielding w.stack := by
  unfold callback at h
  split at h
  · cases h
  · next f rest hs =>
    split at h
    · next start hphase => exact ⟨f, rest, start, hs, hphase⟩
    · cases h
  · split at h <;> cases h

end System

/-- The action calls `reset_statistics`. -/
def Action.Resets : Action μ ε κ ρ → Prop
  | .call x | .interrupt x => x = .resetStatistics
  | _ => False

namespace System

variable {w w' : System c ε κ ρ}
variable {reset : Prop} {ended outer : Nat}

/-- The duration of the outermost activation that an action finishes. -/
def finished (w : System c ε κ ρ) : Action μ ε κ ρ → Nat
  | .step _ =>
    match w.stack with
    | [.task f] =>
      match f.phase with
      | .leaving _ duration => duration
      | _ => 0
    | _ => 0
  | _ => 0

/-- Only the end of the one activation on the stack counts. -/
theorem finished_cases (a : Action μ ε κ ρ) : w.finished a = 0 ∨
    ∃ f start duration sleep, a = .step sleep ∧ w.stack = [.task f] ∧
      f.phase = .leaving start duration ∧ w.finished a = duration := by
  unfold finished
  split
  · split
    · next f hs =>
      split
      · next start duration hphase => exact .inr ⟨f, start, duration, _, rfl, hs, hphase, rfl⟩
      · exact .inl rfl
    · exact .inl rfl
  · exact .inl rfl

theorem act_stackStep [DecidableEq μ] [DecidableEq κ] (h : w.Placed) (a : Action μ ε κ ρ) :
    StackStep a.Resets w (w.finished a) (w.act a) := by
  rcases w.finished_cases a with hzero | ⟨f, start, duration, sleep, rfl, hs, hphase, hf⟩
  · rw [hzero]
    have hacts := act_acts h a
    generalize w.act a = w' at hacts
    cases hacts with
    | advance delay => exact .advance rfl rfl rfl (Nat.le_add_right _ _)
    | called kind x ha hk =>
      have hcall := call_stackStep (w := w) kind x fun hkind =>
        callback_task (hk.resolve_left (by rw [hkind]; nofun) |>.trans hkind)
      rcases ha with rfl | rfl <;> exact hcall
    | enter f rest sleep hs hphase => exact .enter f rest hphase hs rfl rfl
    | finish f rest start duration sleep hs hphase =>
      cases rest with
      | nil =>
        simp only [finished, hs, hphase] at hzero
        subst hzero
        exact .finish f [] start 0 hphase hs rfl rfl
      | cons top rest => exact .finish f (top :: rest) start duration hphase hs rfl rfl
    | answer rest hs => exact .answer hs ⟨rfl, rfl, rfl⟩
    | leave f rest start status sleep hs hphase => exact .leave f rest start hphase hs rfl rfl
    | take observed i hs => exact .take _ rfl rfl rfl ⟨rfl, rfl, rfl⟩ (.inl hs)
    | fail status run sleep _ _ _ hok =>
      unfold State.settle
      rw [if_neg hok]
      exact .same rfl ⟨rfl, rfl, rfl⟩
    | serve n i =>
      unfold observeFired
      split <;> exact .same rfl ⟨rfl, rfl, rfl⟩
    | _ => exact .same rfl ⟨rfl, rfl, rfl⟩
  · rw [hf]
    have hact : w.act (.step sleep : Action μ ε κ ρ) =
        { w with state := w.state.finishTask f start duration, stack := [] } := by
      simp only [act, step, hs, hphase]
    rw [hact]
    exact .finish f [] start duration hphase hs rfl rfl

/-! ## Runs -/

/-- What holds of the stack in every run. -/
structure Nested (w : System c ε κ ρ) : Prop where
  stacked : Stacked w.state.now w.stack
  depth : w.state.taskDepth = depth w.stack
  bound : (frames w.stack).length ≤ max 1 c.yieldLimit

theorem nested_initial : Nested ({} : System c ε κ ρ) := ⟨trivial, rfl, Nat.zero_le _⟩

theorem Stacked.below {now : Nat} {stack : List (Activation c.tasks)} (h : Stacked now stack)
    (hy : Yielding stack) : Below now stack := by
  obtain ⟨f, rest, start, rfl, hphase⟩ := hy
  simp only [Stacked, hphase] at h
  simp only [Below, hphase]
  exact h

theorem Nested.step (h : w.Nested) (hs : StackStep reset w ended w') : w'.Nested := by
  obtain ⟨hstacked, hdepth, hbound⟩ := h
  cases hs with
  | same hstack ht =>
    refine ⟨?_, ?_, ?_⟩ <;> rw [hstack]
    · rw [ht.now]
      exact hstacked
    · rw [ht.depth, hdepth]
    · exact hbound
  | advance hstack hd _ hnow =>
    refine ⟨?_, ?_, ?_⟩ <;> rw [hstack]
    · exact hstacked.mono hnow
    · rw [hd, hdepth]
    · exact hbound
  | reset _ hstack hd hnow =>
    refine ⟨?_, ?_, ?_⟩ <;> rw [hstack]
    · rw [hnow]
      exact hstacked
    · rw [hd, hdepth]
    · exact hbound
  | take f hphase hnested hstack ht hroom =>
    have hbelow : Below w.state.now w.stack := by
      rcases hroom with hnil | ⟨hy, -⟩
      · rw [hnil]
        trivial
      · exact Stacked.below hstacked hy
    refine ⟨?_, ?_, ?_⟩ <;> rw [hstack]
    · simp only [Stacked, hphase]
      exact ⟨hnested, by rw [ht.now]; exact hbelow⟩
    · simp only [Schedule.depth, hphase]
      rw [ht.depth, hdepth]
    · show (frames w.stack).length + 1 ≤ _
      rw [← hbelow.depth_eq.1, ← hdepth]
      rcases hroom with hnil | ⟨-, hlt⟩
      · rw [hdepth, hnil]
        exact Nat.le_max_left 1 _
      · exact Nat.le_trans hlt (Nat.le_max_right 1 _)
  | invoke hstack ht =>
    refine ⟨?_, ?_, ?_⟩ <;> rw [hstack]
    · rw [ht.now]
      exact hstacked
    · rw [ht.depth, hdepth]
      rfl
    · exact hbound
  | answer hstack ht =>
    rw [hstack] at hstacked hdepth hbound
    refine ⟨?_, ?_, hbound⟩
    · rw [ht.now]
      exact hstacked
    · rw [ht.depth, hdepth]
      rfl
  | enter f rest hphase hstack hstack' hstate =>
    rw [hstack] at hstacked hdepth hbound
    simp only [Stacked, hphase] at hstacked
    simp only [Schedule.depth, hphase] at hdepth
    refine ⟨?_, ?_, ?_⟩ <;> rw [hstack']
    · rw [hstate]
      exact ⟨by dsimp only; omega, hstacked.2⟩
    · rw [hstate]
      exact congrArg (· + 1) hdepth
    · exact hbound
  | leave f rest start hphase hstack hstack' hstate =>
    rw [hstack] at hstacked hdepth hbound
    simp only [Stacked, hphase] at hstacked
    simp only [Schedule.depth, hphase] at hdepth
    obtain ⟨hfit, hbelow⟩ := hstacked
    obtain ⟨hbelow', hdepth', -⟩ := hbelow.addNested (show start ≤ w.state.now by omega)
    refine ⟨?_, ?_, ?_⟩ <;> rw [hstack']
    · rw [hstate]
      exact ⟨by dsimp only; omega, by dsimp only; omega, hbelow'⟩
    · rw [hstate]
      simp only [Schedule.depth]
      rw [hdepth', hdepth, Nat.add_sub_cancel]
    · show (frames (addNested _ rest)).length + 1 ≤ _
      rw [frames_addNested]
      exact hbound
  | finish f rest start duration hphase hstack hstack' hstate =>
    rw [hstack] at hstacked hdepth hbound
    simp only [Stacked, hphase] at hstacked
    simp only [Schedule.depth, hphase] at hdepth
    refine ⟨?_, ?_, ?_⟩ <;> rw [hstack']
    · rw [hstate]
      exact hstacked.2.2.stacked
    · rw [hstate]
      exact hdepth
    · exact Nat.le_of_succ_le hbound

/-- The time counted as the tasks' own is that of the outermost activations, of which `outer` is
finished. -/
structure Balanced (outer : Nat) (w : System c ε κ ρ) : Prop where
  total : ∀ i, (w.state.statistics.tasks i).totalDuration =
    (w.state.statistics.tasks i).totalSelfDuration + (w.state.statistics.tasks i).totalNestedDuration
  balance : (∑ i, (w.state.statistics.tasks i).totalSelfDuration) + uncounted w.stack =
    outer + nestedTime w.stack

theorem balanced_initial : Balanced 0 ({} : System c ε κ ρ) := by
  refine ⟨fun _ => rfl, ?_⟩
  show (∑ _i : Fin c.tasks, 0) + 0 = 0 + 0
  rw [Finset.sum_const_zero]

theorem Balanced.same (h : w.Balanced outer)
    (ht : w'.state.statistics.tasks = w.state.statistics.tasks)
    (hu : uncounted w'.stack + nestedTime w.stack = uncounted w.stack + nestedTime w'.stack) :
    w'.Balanced outer := by
  refine ⟨?_, ?_⟩ <;> rw [ht]
  · exact h.total
  · have := h.balance
    omega

theorem sum_update_add (g : Fin n → Nat) (j : Fin n) (d : Nat) :
    ∑ i, Function.update g j (g j + d) i = (∑ i, g i) + d := by
  rw [Finset.sum_update_of_mem (Finset.mem_univ j), ← Finset.sum_sdiff (Finset.subset_univ {j}),
    Finset.sum_singleton]
  omega

theorem Balanced.step (h : w.Balanced outer) (hn : w.Nested) (hs : StackStep False w ended w') :
    w'.Balanced (outer + ended) := by
  cases hs with
  | same hstack ht => exact h.same ht.times (by rw [hstack])
  | advance hstack _ ht _ => exact h.same ht (by rw [hstack])
  | reset hno => exact hno.elim
  | take f hphase hnested hstack ht hroom =>
    refine h.same ht.times ?_
    have hzero : uncounted w.stack = 0 := by
      rcases hroom with hnil | ⟨hy, -⟩
      · rw [hnil]
        rfl
      · exact (Stacked.below hn.stacked hy).depth_eq.2
    have hzero' : uncounted (.task f :: w.stack) = 0 := by
      cases w.stack <;> simp only [uncounted, hphase]
    rw [hstack, hzero, hzero', nestedTime, hnested, Nat.zero_add, Nat.zero_add]
  | invoke hstack ht | answer hstack ht => exact h.same ht.times (by rw [hstack]; rfl)
  | enter f rest hphase hstack hstack' hstate =>
    refine h.same (by rw [hstate]) ?_
    rw [hstack, hstack']
    cases rest <;> simp only [uncounted, hphase, nestedTime]
  | leave f rest start hphase hstack hstack' hstate =>
    refine h.same (by rw [hstate]) ?_
    have hstacked := hn.stacked
    rw [hstack] at hstacked
    simp only [Stacked, hphase] at hstacked
    obtain ⟨hfit, hbelow⟩ := hstacked
    obtain ⟨-, -, hnested⟩ := hbelow.addNested (show start ≤ w.state.now by omega)
    rw [hstack, hstack']
    cases rest with
    | nil => simp only [uncounted, nestedTime, addNested]
    | cons a rest =>
      rw [nestedTime, nestedTime, hnested, if_neg (List.cons_ne_nil a rest)]
      cases a with
      | command => exact hbelow.elim
      | task g =>
        simp only [uncounted, hphase, addNested]
        omega
  | finish f rest start duration hphase hstack hstack' hstate =>
    have hstacked := hn.stacked
    rw [hstack] at hstacked
    simp only [Stacked, hphase] at hstacked
    obtain ⟨-, hfit, hbelow⟩ := hstacked
    have hstats : w'.state.statistics.tasks = Function.update w.state.statistics.tasks f.task
        ((w.state.statistics.tasks f.task).add f.scheduled start duration f.nested) := by
      rw [hstate]
      rfl
    refine ⟨fun i => ?_, ?_⟩
    · rw [hstats]
      by_cases hi : i = f.task
      · subst hi
        rw [Function.update_self]
        have := h.total f.task
        simp only [TaskStatistics.add]
        omega
      · rw [Function.update_of_ne hi]
        exact h.total i
    · have hself : (fun i => (w'.state.statistics.tasks i).totalSelfDuration) =
          Function.update (fun i => (w.state.statistics.tasks i).totalSelfDuration) f.task
            ((w.state.statistics.tasks f.task).totalSelfDuration + (duration - f.nested)) := by
        funext i
        rw [hstats]
        by_cases hi : i = f.task
        · subst hi
          rw [Function.update_self, Function.update_self]
          rfl
        · rw [Function.update_of_ne hi, Function.update_of_ne hi]
      have hbalance := h.balance
      rw [show (∑ i, (w'.state.statistics.tasks i).totalSelfDuration) =
        (∑ i, (w.state.statistics.tasks i).totalSelfDuration) + (duration - f.nested) by
          rw [← sum_update_add, ← hself], hstack', hbelow.depth_eq.2]
      rw [hstack, nestedTime] at hbalance
      cases rest with
      | nil =>
        simp only [uncounted, nestedTime, if_true] at hbalance ⊢
        omega
      | cons a rest =>
        simp only [uncounted, hphase] at hbalance
        rw [if_neg (List.cons_ne_nil a rest)]
        omega

/-- The durations of the outermost activations that a run finishes. -/
def outermost [DecidableEq μ] [DecidableEq κ] (w : System c ε κ ρ) : List (Action μ ε κ ρ) → Nat
  | [] => 0
  | a :: rest => w.finished a + (w.act a).outermost rest

theorem runs_balanced [DecidableEq μ] [DecidableEq κ] (actions : List (Action μ ε κ ρ)) :
    ∀ {w : System c ε κ ρ} {outer : Nat}, w.Placed → w.Nested → w.Balanced outer →
    (∀ a ∈ actions, ¬ a.Resets) → (w.runs actions).Balanced (outer + w.outermost actions) := by
  induction actions with
  | nil => exact fun _ _ h _ => h
  | cons a rest ih =>
    intro w outer hp hn h hno
    have hstep : StackStep False w (w.finished a) (w.act a) := by
      have := act_stackStep hp a
      rwa [eq_false (hno a List.mem_cons_self)] at this
    have := ih (hp.act a) (hn.step hstep) (h.step hn hstep) fun b hb => hno b (List.mem_cons_of_mem a hb)
    rwa [Nat.add_assoc] at this

/-- Over every run: no two activations of one task, no more of them than the limit, no dispatch from
anything but a task callback, no activation shorter than what was nested in it; and unless the
statistics are reset, all time is counted once. -/
theorem yields_accounted [DecidableEq μ] [DecidableEq κ] (actions : List (Action μ ε κ ρ)) :
    ((frames (runs ({} : System c ε κ ρ) actions).stack).map Prod.fst).Nodup ∧
    (frames (runs ({} : System c ε κ ρ) actions).stack).length ≤ max 1 c.yieldLimit ∧
    (∀ kind, kind ≠ some .task → ∃ statistics : Statistics c.tasks,
      (runs ({} : System c ε κ ρ) actions).yield kind = (.invalidContext,
        (runs ({} : System c ε κ ρ) actions).apply fun s => { s with statistics := statistics })) ∧
    (∀ f start duration, .task f ∈ (runs ({} : System c ε κ ρ) actions).stack →
      f.phase = .leaving start duration → f.nested ≤ duration) ∧
    ((∀ a ∈ actions, ¬ a.Resets) →
      (∀ i, ((runs ({} : System c ε κ ρ) actions).state.statistics.tasks i).totalDuration =
        ((runs ({} : System c ε κ ρ) actions).state.statistics.tasks i).totalSelfDuration +
        ((runs ({} : System c ε κ ρ) actions).state.statistics.tasks i).totalNestedDuration) ∧
      (frames (runs ({} : System c ε κ ρ) actions).stack = [] →
        ∑ i, ((runs ({} : System c ε κ ρ) actions).state.statistics.tasks i).totalSelfDuration =
          outermost ({} : System c ε κ ρ) actions)) := by
  obtain ⟨-, hpaced, hnested⟩ := runs_induction (c := c) (P := fun w => w.Paced ∧ w.Nested)
    ⟨paced_initial, nested_initial⟩
    (fun w a hp h => ⟨h.1.step (act_taskStep hp a), h.2.step (act_stackStep hp a)⟩) actions
  refine ⟨hpaced.nodup, hnested.bound, fun kind hkind => ?_, fun f start duration hf hphase =>
    hnested.stacked.nested_le hphase hf, fun hno => ?_⟩
  · unfold yield
    dsimp only
    rw [if_pos hkind]
    exact ⟨_, rfl⟩
  · have hbal : Balanced (0 + outermost {} actions) (runs ({} : System c ε κ ρ) actions) :=
      runs_balanced actions placed_initial nested_initial balanced_initial hno
    refine ⟨hbal.total, fun hempty => ?_⟩
    have := hbal.balance
    rw [(owed_of_frames hempty).1, (owed_of_frames hempty).2] at this
    omega

def pair : Config Unit where
  modules := [()]
  nodup := List.nodup_singleton ()
  tasks := 2
  descriptor i := ⟨(), i.val, "module", "task", 10⟩
  eventCapacity := 1
  timerCapacity := 1
  yieldLimit := 2
  logging := false
  logCapacity := 0
  subscribers := 0
  canStop := true

/-- A run in which the first task yields to the second. -/
def yielding : List (Action Unit Unit Unit Unit) :=
  [.run, .step true, .step true, .step true, .returns .ok true, .step true, .step true,
    .returns .ok true, .step true, .step true, .step true, .advance 10, .step true, .step true,
    .step true, .advance 3, .call .yield, .step true, .advance 4, .returns .ok true, .advance 1,
    .step true, .advance 2, .returns .ok true, .advance 7, .step true]

theorem yields_accounted_pair :
    ∑ i, ((runs ({} : System pair Unit Unit Unit) yielding).state.statistics.tasks i).totalSelfDuration =
      outermost ({} : System pair Unit Unit Unit) yielding ∧
    outermost ({} : System pair Unit Unit Unit) yielding = 10 := by
  have hno : ∀ a ∈ yielding, ¬ a.Resets := by
    simp [yielding, Action.Resets]
  have hempty : frames (runs ({} : System pair Unit Unit Unit) yielding).stack = [] := by
    decide +kernel
  exact ⟨((yields_accounted yielding).2.2.2.2 hno).2 hempty, by decide +kernel⟩

end System

end DaveOs.Schedule
