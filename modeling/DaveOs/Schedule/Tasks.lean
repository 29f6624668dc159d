import DaveOs.Schedule.TaskStep

/-!
# The cadence of repeating tasks

The invariant `System.Paced` of every run. A task is on the stack at most once, marked by its executing
flag. The due time of a repeating task is its first due time plus one interval for every iteration it was
taken for since it was scheduled, and these are the completed ones and the one still executing, unless
that one belongs to an earlier schedule.
-/

namespace DaveOs.Schedule

variable {μ ε κ ρ : Type} {c : Config μ}

namespace System

variable {i : Fin c.tasks}

/-- The iterations of a task's current schedule that are still executing. -/
def live (w : System c ε κ ρ) (i : Fin c.tasks) : Nat :=
  (frames w.stack).count (i, (w.state.tasks i).generation)

/-- The stored times of a task that repeats: its due time saturates just below the sentinel. -/
structure OnTime (w : System c ε κ ρ) (i : Fin c.tasks) : Prop where
  due : (w.state.tasks i).due =
    min ((w.state.tasks i).firstDue +
      ((w.state.tasks i).completed + w.live i) * (w.state.tasks i).interval) (kForever - 1)
  iterations : iterations i w.state.history = (w.state.tasks i).completed + w.live i

structure Paced (w : System c ε κ ρ) : Prop where
  nodup : ((frames w.stack).map Prod.fst).Nodup
  executing : ∀ i, (w.state.tasks i).executing = true ↔ i ∈ (frames w.stack).map Prod.fst
  generation : ∀ f ∈ frames w.stack, f.2 ≤ (w.state.tasks f.1).generation
  early : w.state.lifecycle.early = true → frames w.stack = [] ∧
    ∀ i, (w.state.tasks i).completed = 0 ∧ iterations i w.state.history = 0
  interval : ∀ i, (w.state.tasks i).active = true → (w.state.tasks i).mode = .repeats →
    0 < (w.state.tasks i).interval
  cadence : w.state.lifecycle = .running → ∀ i, (w.state.tasks i).active = true →
    (w.state.tasks i).mode = .repeats → w.OnTime i

theorem paced_initial : Paced ({} : System c ε κ ρ) where
  nodup := List.nodup_nil
  executing := fun _ => ⟨nofun, nofun⟩
  generation := nofun
  early := fun _ => ⟨rfl, fun _ => ⟨rfl, rfl⟩⟩
  interval := nofun
  cadence := nofun

variable {w w' : System c ε κ ρ}

theorem OnTime.same (h : w.OnTime i) (ht : w'.state.tasks i = w.state.tasks i)
    (hlive : w'.live i = w.live i)
    (hi : Schedule.iterations i w'.state.history = Schedule.iterations i w.state.history) :
    w'.OnTime i := by
  refine ⟨?_, ?_⟩
  · rw [ht, hlive]
    exact h.due
  · rw [ht, hlive, hi]
    exact h.iterations

theorem live_same (hf : frames w'.stack = frames w.stack)
    (hg : (w'.state.tasks i).generation = (w.state.tasks i).generation) : w'.live i = w.live i := by
  unfold live
  rw [hf, hg]

theorem Paced.same (h : w.Paced) (hs : SameTasks w w')
    (hearly : w'.state.lifecycle.early = true → w.state.lifecycle.early = true)
    (hrun : w'.state.lifecycle = .running → w.state.lifecycle = .running) : w'.Paced := by
  refine ⟨?_, ?_, ?_, ?_, ?_, ?_⟩
  · rw [hs.frames]
    exact h.nodup
  · rw [hs.frames, hs.tasks]
    exact h.executing
  · rw [hs.frames, hs.tasks]
    exact h.generation
  · intro he
    obtain ⟨hf, hi⟩ := h.early (hearly he)
    refine ⟨hs.frames.trans hf, fun i => ?_⟩
    rw [hs.tasks, hs.iterations]
    exact hi i
  · rw [hs.tasks]
    exact h.interval
  · intro hl i ha hm
    rw [hs.tasks] at ha hm
    refine (h.cadence (hrun hl) i ha hm).same (by rw [hs.tasks]) ?_ (hs.iterations i)
    exact live_same hs.frames (by rw [hs.tasks])

theorem OnTime.first (hdue : (w.state.tasks i).due = (w.state.tasks i).firstDue)
    (hlt : (w.state.tasks i).due < kForever) (hc : (w.state.tasks i).completed = 0)
    (hlive : w.live i = 0) (hi : Schedule.iterations i w.state.history = 0) : w.OnTime i := by
  refine ⟨?_, ?_⟩
  · rw [hc, hlive, Nat.add_zero, Nat.zero_mul, Nat.add_zero]
    omega
  · rw [hc, hlive, hi]

theorem Paced.start (h : w.Paced) (hstate : w'.state = w.state.start)
    (hf : frames w'.stack = frames w.stack) (hl : w.state.lifecycle = .ready) : w'.Paced := by
  obtain ⟨hnil, hzero⟩ := h.early (by rw [hl]; rfl)
  have hrecord : ∀ i, w'.state.tasks i =
      if (w.state.tasks i).active then
        { w.state.tasks i with
          due := after w.state.now (w.state.tasks i).interval
          firstDue := after w.state.now (w.state.tasks i).interval }
      else w.state.tasks i := fun i => by
    rw [hstate]
    rfl
  have hkeep : ∀ i, (w'.state.tasks i).executing = (w.state.tasks i).executing ∧
      (w'.state.tasks i).active = (w.state.tasks i).active ∧
      (w'.state.tasks i).mode = (w.state.tasks i).mode ∧
      (w'.state.tasks i).interval = (w.state.tasks i).interval ∧
      (w'.state.tasks i).completed = (w.state.tasks i).completed := fun i => by
    rw [hrecord i]
    split <;> exact ⟨rfl, rfl, rfl, rfl, rfl⟩
  refine ⟨?_, ?_, ?_, ?_, ?_, ?_⟩
  · rw [hf]
    exact h.nodup
  · intro i
    rw [hf, (hkeep i).1]
    exact h.executing i
  · rw [hf, hnil]
    nofun
  · intro he
    rw [hstate] at he
    have : (w.state.lifecycle.step .run).early = true := he
    rw [hl] at this
    cases this
  · intro i ha hm
    rw [(hkeep i).2.1] at ha
    rw [(hkeep i).2.2.1] at hm
    rw [(hkeep i).2.2.2.1]
    exact h.interval i ha hm
  · intro _ i ha _
    rw [(hkeep i).2.1] at ha
    have hi := hrecord i
    rw [if_pos ha] at hi
    refine OnTime.first (by rw [hi]) ?_ ((hkeep i).2.2.2.2.trans (hzero i).1) ?_ ?_
    · rw [hi]
      exact after_lt_kForever _ _
    · unfold live
      rw [hf, hnil]
      rfl
    · rw [hstate]
      rfl

theorem Paced.defaults (h : w.Paced) (hstate : w'.state = w.state.applyDefaults)
    (hf : frames w'.stack = frames w.stack) (hl : w.state.lifecycle = .initializing) : w'.Paced := by
  obtain ⟨hnil, hzero⟩ := h.early (by rw [hl]; rfl)
  have hrecord : ∀ i, w'.state.tasks i =
      if (c.descriptor i).period ≠ 0 ∧ ¬ (w.state.tasks i).explicitlyScheduled then
        { w.state.tasks i with
          active := true
          mode := .repeats
          interval := (c.descriptor i).period
          due := (c.descriptor i).period }
      else w.state.tasks i := fun i => by
    rw [hstate]
    rfl
  refine ⟨?_, ?_, ?_, ?_, ?_, ?_⟩
  · rw [hf]
    exact h.nodup
  · intro i
    rw [hf, hrecord i]
    split <;> exact h.executing i
  · rw [hf, hnil]
    nofun
  · intro _
    refine ⟨hf.trans hnil, fun i => ?_⟩
    rw [hrecord i, hstate]
    split <;> exact hzero i
  · intro i
    rw [hrecord i]
    split
    · next hp => exact fun _ _ => Nat.pos_of_ne_zero hp.1
    · exact h.interval i
  · intro hrun
    rw [hstate] at hrun
    have : w.state.lifecycle = .running := hrun
    rw [hl] at this
    cases this

/-- The record of one task changes, and perhaps its own activations on the stack. -/
theorem Paced.update (h : w.Paced) (i : Fin c.tasks)
    (hl : w'.state.lifecycle = w.state.lifecycle)
    (htasks : ∀ j, j ≠ i → w'.state.tasks j = w.state.tasks j)
    (hother : ∀ j, j ≠ i → ∀ g, (j, g) ∈ frames w'.stack ↔ (j, g) ∈ frames w.stack)
    (hlive : ∀ j, j ≠ i → w'.live j = w.live j)
    (hiter : ∀ j, j ≠ i → iterations j w'.state.history = iterations j w.state.history)
    (hnodup : ((frames w'.stack).map Prod.fst).Nodup)
    (hexec : (w'.state.tasks i).executing = true ↔ i ∈ (frames w'.stack).map Prod.fst)
    (hgen : ∀ g, (i, g) ∈ frames w'.stack → g ≤ (w'.state.tasks i).generation)
    (hearly : w.state.lifecycle.early = true → frames w'.stack = [] ∧
      (w'.state.tasks i).completed = 0 ∧ iterations i w'.state.history = 0)
    (hint : (w'.state.tasks i).active = true → (w'.state.tasks i).mode = .repeats →
      0 < (w'.state.tasks i).interval)
    (hcad : w.state.lifecycle = .running → (w'.state.tasks i).active = true →
      (w'.state.tasks i).mode = .repeats → w'.OnTime i) : w'.Paced := by
  refine ⟨hnodup, ?_, ?_, ?_, ?_, ?_⟩
  · intro j
    by_cases hj : j = i
    · subst hj
      exact hexec
    · rw [htasks j hj, h.executing j, List.mem_map, List.mem_map]
      constructor
      · rintro ⟨⟨k, g⟩, hmem, rfl⟩
        exact ⟨(k, g), (hother k hj g).2 hmem, rfl⟩
      · rintro ⟨⟨k, g⟩, hmem, rfl⟩
        exact ⟨(k, g), (hother k hj g).1 hmem, rfl⟩
  · rintro ⟨j, g⟩ hmem
    by_cases hj : j = i
    · subst hj
      exact hgen g hmem
    · dsimp only
      rw [htasks j hj]
      exact h.generation (j, g) ((hother j hj g).1 hmem)
  · intro he
    rw [hl] at he
    obtain ⟨hnil, hc, hi⟩ := hearly he
    refine ⟨hnil, fun j => ?_⟩
    by_cases hj : j = i
    · subst hj
      exact ⟨hc, hi⟩
    · rw [htasks j hj, hiter j hj]
      exact (h.early he).2 j
  · intro j
    by_cases hj : j = i
    · subst hj
      exact hint
    · rw [htasks j hj]
      exact h.interval j
  · intro hrun j
    rw [hl] at hrun
    by_cases hj : j = i
    · subst hj
      exact hcad hrun
    · intro ha hm
      rw [htasks j hj] at ha hm
      exact (h.cadence hrun j ha hm).same (htasks j hj) (hlive j hj) (hiter j hj)

theorem Paced.count_succ (h : w.Paced) (i : Fin c.tasks) :
    (frames w.stack).count (i, (w.state.tasks i).generation + 1) = 0 := by
  rw [List.count_eq_zero]
  intro hmem
  have hle := h.generation _ hmem
  dsimp only at hle
  omega

theorem Paced.schedule (h : w.Paced) (i : Fin c.tasks) (delay : Nat) (mode : Mode)
    (hd : mode = .repeats → delay ≠ 0) (hstate : w'.state = w.state.reschedule i delay mode)
    (hf : frames w'.stack = frames w.stack) : w'.Paced := by
  have hself : w'.state.tasks i =
      { w.state.tasks i with
        active := true
        explicitlyScheduled := true
        interval := delay
        mode := mode
        due := if w.state.lifecycle = .running then after w.state.now delay else delay
        firstDue := if w.state.lifecycle = .running then after w.state.now delay else delay
        completed := 0
        generation := (w.state.tasks i).generation + 1 } := by
    rw [hstate]
    exact Function.update_self _ _ _
  have hiter : iterations i w'.state.history = 0 := by
    rw [hstate]
    exact if_pos rfl
  have htasks : ∀ j, j ≠ i → w'.state.tasks j = w.state.tasks j := fun j hj => by
    rw [hstate]
    exact Function.update_of_ne hj _ _
  have hlive : w'.live i = 0 := by
    unfold live
    rw [hf, hself]
    exact h.count_succ i
  refine h.update i (by rw [hstate]; rfl) htasks (fun j _ g => by rw [hf])
    (fun j hj => live_same hf (by rw [htasks j hj])) ?_ (by rw [hf]; exact h.nodup) ?_ ?_ ?_ ?_ ?_
  · intro j hj
    rw [hstate]
    exact if_neg (Ne.symm hj)
  · rw [hf, hself]
    exact h.executing i
  · intro g hg
    rw [hf] at hg
    rw [hself]
    exact Nat.le_succ_of_le (h.generation (i, g) hg)
  · intro he
    rw [hf, hself]
    exact ⟨(h.early he).1, rfl, hiter⟩
  · rw [hself]
    exact fun _ hm => Nat.pos_of_ne_zero (hd hm)
  · intro hrun _ _
    refine OnTime.first (by rw [hself]) ?_ (by rw [hself]) hlive hiter
    rw [hself]
    dsimp only
    rw [if_pos hrun]
    exact after_lt_kForever _ _

theorem Paced.cancel (h : w.Paced) (i : Fin c.tasks) (hstate : w'.state = w.state.deactivate i)
    (hf : frames w'.stack = frames w.stack) : w'.Paced := by
  have hself : w'.state.tasks i =
      { w.state.tasks i with
        active := false
        explicitlyScheduled := true
        generation := (w.state.tasks i).generation + 1 } := by
    rw [hstate]
    exact Function.update_self _ _ _
  have hhist : w'.state.history = w.state.history := by
    rw [hstate]
    rfl
  have htasks : ∀ j, j ≠ i → w'.state.tasks j = w.state.tasks j := fun j hj => by
    rw [hstate]
    exact Function.update_of_ne hj _ _
  refine h.update i (by rw [hstate]; rfl) htasks (fun j _ g => by rw [hf])
    (fun j hj => live_same hf (by rw [htasks j hj])) (fun j _ => by rw [hhist])
    (by rw [hf]; exact h.nodup) ?_ ?_ ?_ (by rw [hself]; nofun) (by rw [hself]; nofun)
  · rw [hf, hself]
    exact h.executing i
  · intro g hg
    rw [hf] at hg
    rw [hself]
    exact Nat.le_succ_of_le (h.generation (i, g) hg)
  · intro he
    rw [hf, hself, hhist]
    exact ⟨(h.early he).1, (h.early he).2 i⟩

theorem Paced.not_mem (h : w.Paced) (ht : Takes w i w') : i ∉ (frames w.stack).map Prod.fst := by
  rcases ht.idle with hidle | hnil
  · rw [← h.executing i, hidle]
    nofun
  · rw [hnil]
    nofun

theorem Paced.take (h : w.Paced) (ht : Takes w i w') : w'.Paced := by
  have hfree := h.not_mem ht
  have hstate := ht.state
  have hself : w'.state.tasks i =
      if (w.state.tasks i).mode = .repeats then
        { w.state.tasks i with
          executing := true
          due := after (w.state.tasks i).due (w.state.tasks i).interval }
      else { w.state.tasks i with executing := true, active := false } := by
    rw [hstate]
    exact Function.update_self _ _ _
  have htasks : ∀ j, j ≠ i → w'.state.tasks j = w.state.tasks j := fun j hj => by
    rw [hstate]
    exact Function.update_of_ne hj _ _
  have hgen : (w'.state.tasks i).generation = (w.state.tasks i).generation := by
    rw [hself]
    split <;> rfl
  have hlive : w'.live i = w.live i + 1 := by
    unfold live
    rw [ht.frames, hgen, List.count_cons_self]
  have hiter : iterations i w'.state.history = iterations i w.state.history + 1 := by
    rw [hstate]
    exact if_pos rfl
  refine h.update i (by rw [hstate]; rfl) htasks ?_ ?_ ?_ ?_ ?_ ?_ ?_ ?_ ?_
  · intro j hj g
    rw [ht.frames, List.mem_cons]
    exact or_iff_right fun he => hj (congrArg Prod.fst he)
  · intro j hj
    unfold live
    rw [ht.frames, htasks j hj]
    exact List.count_cons_of_ne fun he => hj (congrArg Prod.fst he).symm
  · intro j hj
    rw [hstate]
    exact if_neg (Ne.symm hj)
  · rw [ht.frames, List.map_cons]
    exact List.nodup_cons.2 ⟨hfree, h.nodup⟩
  · have hexec : (w'.state.tasks i).executing = true := by
      rw [hself]
      split <;> rfl
    rw [ht.frames]
    exact ⟨fun _ => List.mem_cons_self, fun _ => hexec⟩
  · intro g hg
    rw [ht.frames, List.mem_cons] at hg
    rw [hgen]
    rcases hg with hg | hg
    · cases hg
      exact Nat.le_refl _
    · exact h.generation (i, g) hg
  · intro he
    rw [ht.running] at he
    cases he
  · rw [hself]
    split
    · next hm => exact fun ha _ => h.interval i ha hm
    · nofun
  · intro hrun ha hm
    have hrep : (w.state.tasks i).mode = .repeats := by
      rw [hself] at hm
      split at hm
      · next hrep => exact hrep
      · exact hm
    have hontime := h.cadence hrun i ht.active hrep
    have hdue := hontime.due
    rw [if_pos hrep] at hself
    refine ⟨?_, ?_⟩
    · rw [hlive, hself]
      dsimp only
      rw [hdue, after_min, ← Nat.add_assoc, Nat.add_mul _ 1, Nat.one_mul, Nat.add_assoc]
    · rw [hiter, hontime.iterations, hlive, hself]
      dsimp only
      omega

theorem Paced.finish (h : w.Paced) (f : Frame c.tasks) (start duration : Nat)
    (hf : frames w.stack = (f.task, f.generation) :: frames w'.stack)
    (hstate : w'.state = w.state.finishTask f start duration) : w'.Paced := by
  have hself : w'.state.tasks f.task =
      { w.state.tasks f.task with
        executing := false
        completed := if (w.state.tasks f.task).generation = f.generation
          then (w.state.tasks f.task).completed + 1 else (w.state.tasks f.task).completed } := by
    rw [hstate]
    exact Function.update_self _ _ _
  have htasks : ∀ j, j ≠ f.task → w'.state.tasks j = w.state.tasks j := fun j hj => by
    rw [hstate]
    exact Function.update_of_ne hj _ _
  have hhist : w'.state.history = w.state.history := by
    rw [hstate]
    rfl
  have hnodup := h.nodup
  rw [hf, List.map_cons, List.nodup_cons] at hnodup
  -- The iteration counted as executing becomes one counted as completed.
  have hsum : (w'.state.tasks f.task).completed + w'.live f.task =
      (w.state.tasks f.task).completed + w.live f.task := by
    unfold live
    rw [hf, hself]
    dsimp only
    by_cases hg : (w.state.tasks f.task).generation = f.generation
    · rw [if_pos hg, hg, List.count_cons_self]
      omega
    · rw [if_neg hg, List.count_cons_of_ne fun he => hg (congrArg Prod.snd he).symm]
  refine h.update f.task (by rw [hstate]; rfl) htasks ?_ ?_ (fun j _ => by rw [hhist]) hnodup.2 ?_ ?_
    ?_ ?_ ?_
  · intro j hj g
    rw [hf, List.mem_cons]
    exact (or_iff_right fun he => hj (congrArg Prod.fst he)).symm
  · intro j hj
    unfold live
    rw [hf, htasks j hj]
    exact (List.count_cons_of_ne fun he => hj (congrArg Prod.fst he).symm).symm
  · rw [hself]
    exact ⟨nofun, fun hmem => absurd hmem hnodup.1⟩
  · intro g hg
    rw [hself]
    exact h.generation (f.task, g) (by rw [hf]; exact List.mem_cons_of_mem _ hg)
  · intro he
    rw [(h.early he).1] at hf
    cases hf
  · rw [hself]
    exact h.interval f.task
  · intro hrun ha hm
    have hontime := h.cadence hrun f.task (by rw [hself] at ha; exact ha) (by rw [hself] at hm; exact hm)
    refine ⟨?_, ?_⟩
    · rw [hsum, hself]
      exact hontime.due
    · rw [hsum, hhist]
      exact hontime.iterations

theorem Paced.discard (h : w.Paced)
    (ht : ∀ i, w'.state.tasks i = { w.state.tasks i with active := false })
    (hf : frames w'.stack = frames w.stack) (hl : w'.state.lifecycle.early = false) : w'.Paced := by
  refine ⟨?_, ?_, ?_, ?_, ?_, ?_⟩
  · rw [hf]
    exact h.nodup
  · intro i
    rw [hf, ht i]
    exact h.executing i
  · intro f hmem
    rw [hf] at hmem
    rw [ht f.1]
    exact h.generation f hmem
  · intro he
    rw [hl] at he
    cases he
  · intro i ha
    rw [ht i] at ha
    cases ha
  · intro _ i ha
    rw [ht i] at ha
    cases ha

theorem Paced.step (h : w.Paced) (hs : TaskStep w w') : w'.Paced := by
  cases hs with
  | same hs hl => exact h.same hs (by rw [hl]; exact id) (by rw [hl]; exact id)
  | lifecycle hs hne he => exact h.same hs he fun hrun => absurd hrun hne
  | defaults hstate hf hl => exact h.defaults hstate hf hl
  | start hstate hf hl => exact h.start hstate hf hl
  | discard ht hf hl _ => exact h.discard ht hf hl
  | schedule i delay mode hd hstate hf => exact h.schedule i delay mode hd hstate hf
  | cancel i hstate hf => exact h.cancel i hstate hf
  | take i ht => exact h.take ht
  | finish f start duration hf hstate => exact h.finish f start duration hf hstate

end System

end DaveOs.Schedule
