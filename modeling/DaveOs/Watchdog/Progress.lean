import DaveOs.Schedule.Tasks

/-!
# The progress check

`progress` of the scheduler and `check_progress` of `lib/watchdog/watchdog.hpp`. The check divides the time
since a task's first due time by its period; by the cadence of the scheduler this is exactly the number of
iterations whose time has passed the allowance (`cadence_exact`).
-/

namespace DaveOs.Watchdog

variable {cutoff : Nat} {t : TaskProgress}

open Schedule

/-- Progress of a task within its current scheduling generation. -/
structure TaskProgress where
  module : String
  task : String
  repeating : Bool
  firstDue : Nat
  period : Nat
  completed : Nat
  generation : Nat
  deriving DecidableEq, Repr

structure Progress (n : Nat) where
  running : Bool
  now : Nat
  tasks : Fin n → TaskProgress

variable {μ ε κ ρ : Type} {c : Config μ}

def progress (s : State c ε κ ρ) : Progress c.tasks where
  running := s.lifecycle = .running
  now := s.now
  tasks := fun i =>
    { module := (c.descriptor i).moduleName
      task := (c.descriptor i).name
      repeating := (s.tasks i).active && (s.tasks i).mode = .repeats
      firstDue := (s.tasks i).firstDue
      period := (s.tasks i).interval
      completed := (s.tasks i).completed
      generation := (s.tasks i).generation }

structure Failure where
  status : Status := .ok
  check : String := ""
  module : String := ""
  task : String := ""
  expected : Nat := 0
  completed : Nat := 0
  deriving DecidableEq, Repr

/-- The check of one task: the iterations due strictly before the cutoff must be completed. -/
def checkTask (cutoff : Nat) (t : TaskProgress) : Option Failure :=
  if t.repeating = false ∨ t.period = 0 ∨ cutoff ≤ t.firstDue then none
  else
    let expected := (cutoff - 1 - t.firstDue) / t.period + 1
    if t.completed < expected then
      some { status := .healthFailed, check := "task_progress", module := t.module, task := t.task,
             expected := expected, completed := t.completed }
    else none

/-- `check_progress`: the first task that fell behind. -/
def checkProgress {n : Nat} (p : Progress n) (allowance : Nat) : Failure :=
  if p.running = false ∨ p.now ≤ allowance then {}
  else ((List.finRange n).findSome? fun i => checkTask (p.now - allowance) (p.tasks i)).getD {}

theorem ncard_due (firstDue cutoff : Nat) {period : Nat} (hp : 0 < period) :
    Set.ncard {k : Nat | firstDue + k * period < cutoff} =
      if cutoff ≤ firstDue then 0 else (cutoff - 1 - firstDue) / period + 1 := by
  have hset : {k : Nat | firstDue + k * period < cutoff} =
      Set.Iio (if cutoff ≤ firstDue then 0 else (cutoff - 1 - firstDue) / period + 1) := by
    ext k
    rw [Set.mem_ofPred_eq, Set.mem_Iio]
    split
    · omega
    · rw [Nat.lt_succ_iff, Nat.le_div_iff_mul_le hp]
      omega
  rw [hset, Set.ncard_eq_toFinset_card', Set.toFinset_Iio, Nat.card_Iio]

theorem checkTask_isSome (hp : t.repeating = true → 0 < t.period) :
    (checkTask cutoff t).isSome = true ↔ t.repeating = true ∧
      t.completed < Set.ncard {k : Nat | t.firstDue + k * t.period < cutoff} := by
  unfold checkTask
  by_cases hrep : t.repeating = true
  · have hpos := hp hrep
    rw [ncard_due _ _ hpos]
    by_cases hcut : cutoff ≤ t.firstDue
    · rw [if_pos (.inr (.inr hcut)), if_pos hcut]
      exact ⟨nofun, fun h => absurd h.2 (Nat.not_lt_zero _)⟩
    · rw [if_neg (by simp [hrep]; omega), if_neg hcut]
      dsimp only
      split
      · next hlt => exact ⟨fun _ => ⟨hrep, hlt⟩, fun _ => rfl⟩
      · next hge => exact ⟨nofun, fun h => absurd h.2 hge⟩
  · rw [if_pos (.inl (by simpa using hrep))]
    exact ⟨nofun, fun h => absurd h.1 hrep⟩

theorem checkTask_status {f : Failure} (h : checkTask cutoff t = some f) :
    f.status = .healthFailed := by
  unfold checkTask at h
  split at h
  · cases h
  · dsimp only at h
    split at h
    · cases h
      rfl
    · cases h

theorem checkProgress_fails {n : Nat} {p : Progress n} {allowance : Nat} (hrun : p.running = true)
    (hnow : allowance < p.now) :
    (checkProgress p allowance).status ≠ .ok ↔
      ∃ i, (checkTask (p.now - allowance) (p.tasks i)).isSome = true := by
  unfold checkProgress
  rw [if_neg (by simp [hrun]; omega)]
  cases hfound : (List.finRange n).findSome? fun i => checkTask (p.now - allowance) (p.tasks i) with
  | none =>
    refine ⟨fun h => absurd rfl h, ?_⟩
    rintro ⟨i, hi⟩
    rw [List.findSome?_eq_none_iff.1 hfound i (List.mem_finRange i)] at hi
    cases hi
  | some f =>
    obtain ⟨i, -, hi⟩ := List.exists_of_findSome?_eq_some hfound
    refine ⟨fun _ => ⟨i, by rw [hi]; rfl⟩, fun _ => ?_⟩
    rw [Option.getD_some, checkTask_status hi]
    nofun

/-- The cadence of the repeating tasks of a running scheduler, and what the progress check makes of it. -/
structure CadenceExact [DecidableEq μ] [DecidableEq κ] (w : System c ε κ ρ) : Prop where
  /-- The stored due time counts the completed and the executing iterations of the current schedule;
  it saturates just below the sentinel. -/
  due : w.state.lifecycle = .running → ∀ i, (w.state.tasks i).active = true →
    (w.state.tasks i).mode = .repeats → (w.state.tasks i).due =
      min ((w.state.tasks i).firstDue +
        ((w.state.tasks i).completed + w.live i) * (w.state.tasks i).interval) (kForever - 1)
  /-- An iteration is taken for the time its place in the schedule says, and never before it. -/
  taken : ∀ a i scheduled now,
    (w.act a).state.history = .taken i scheduled now :: w.state.history →
    (w.state.tasks i).mode = .repeats → (w.state.tasks i).active = true ∧
      scheduled = min ((w.state.tasks i).firstDue +
        iterations i w.state.history * (w.state.tasks i).interval) (kForever - 1) ∧
      scheduled ≤ now ∧ now = w.state.now
  /-- The progress check counts the missed iterations exactly. -/
  health : ∀ allowance, w.state.lifecycle = .running → allowance < w.state.now →
    ((checkProgress (progress w.state) allowance).status ≠ .ok ↔
      ∃ i, (w.state.tasks i).active = true ∧ (w.state.tasks i).mode = .repeats ∧
        (w.state.tasks i).completed < Set.ncard {k : Nat |
          (w.state.tasks i).firstDue + k * (w.state.tasks i).interval < w.state.now - allowance})

theorem taken_onTime {w w' : System c ε κ ρ} (h : w.Paced) (hs : System.TaskStep w w')
    {i : Fin c.tasks} {scheduled now : Nat}
    (htaken : w'.state.history = .taken i scheduled now :: w.state.history)
    (hm : (w.state.tasks i).mode = .repeats) : (w.state.tasks i).active = true ∧
      scheduled = min ((w.state.tasks i).firstDue +
        iterations i w.state.history * (w.state.tasks i).interval) (kForever - 1) ∧
      scheduled ≤ now ∧ now = w.state.now := by
  cases hs with
  | same hs | lifecycle hs => exact absurd htaken (hs.taken _ _ _)
  | discard _ _ _ hne => exact absurd htaken (hne _ _ _)
  | defaults hstate | cancel _ hstate | finish _ _ _ _ hstate =>
    rw [hstate] at htaken
    exact absurd htaken (ne_cons_self _ _)
  | start hstate | schedule _ _ _ _ hstate =>
    rw [hstate] at htaken
    cases htaken
  | take j ht =>
    rw [ht.state] at htaken
    cases htaken
    have hontime := h.cadence ht.running i ht.active hm
    refine ⟨ht.active, ?_, ht.due, rfl⟩
    rw [hontime.iterations]
    exact hontime.due

theorem cadence_exact [DecidableEq μ] [DecidableEq κ] (actions : List (Action μ ε κ ρ)) :
    CadenceExact (System.runs {} actions : System c ε κ ρ) := by
  obtain ⟨hplaced, hpaced⟩ := System.runs_induction (c := c) (P := System.Paced)
    System.paced_initial (fun w a hp h => h.step (System.act_taskStep hp a)) actions
  generalize (System.runs {} actions : System c ε κ ρ) = w at hplaced hpaced
  refine ⟨fun hrun i ha hm => (hpaced.cadence hrun i ha hm).due, ?_, ?_⟩
  · intro a i scheduled now htaken hm
    exact taken_onTime hpaced (System.act_taskStep hplaced a) htaken hm
  · intro allowance hrun hnow
    rw [checkProgress_fails (by simpa [progress] using hrun) hnow]
    refine exists_congr fun i => ?_
    have hrepeating : ((progress w.state).tasks i).repeating = true ↔
        (w.state.tasks i).active = true ∧ (w.state.tasks i).mode = .repeats := by
      simp [progress]
    rw [checkTask_isSome, hrepeating, and_assoc]
    · rfl
    · intro hrep
      obtain ⟨ha, hm⟩ := hrepeating.1 hrep
      exact hpaced.interval i ha hm

end DaveOs.Watchdog
