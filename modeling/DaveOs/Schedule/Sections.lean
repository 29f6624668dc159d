import DaveOs.Schedule.System

/-!
# What one section does

One inversion lemma for each request (`post_cases`, `timerSlot_cases` and so on): it changes nothing, it
counts a refusal, or it makes exactly the change written out. `System.Placed` ties the place of the
scheduler thread to the lifecycle: whatever the callbacks and the interrupts do, the loop only runs while
the scheduler is running.
-/

namespace DaveOs.Schedule

variable {μ ε κ ρ : Type} {c : Config μ}

namespace State

variable (s : State c ε κ ρ)
variable {k : κ} {table : List (Fin c.timerCapacity)} {slot : Option (Fin c.timerCapacity)}

/-- `s` with other statistics. -/
def withStatistics (statistics : Statistics c.tasks) : State c ε κ ρ := { s with statistics }

theorem stop_cases : s.stop.2 = s ∨
    (s.lifecycle = .running ∧ s.stop.2 = { s with stopRequested := true }.notify) := by
  unfold stop
  split
  · exact .inl rfl
  · next h =>
    split
    · exact .inr ⟨not_not.1 h, rfl⟩
    · exact .inl rfl

theorem post_cases [DecidableEq μ] (value : Option ε) (sender : Option μ) :
    ((s.post value sender).1 ≠ .ok ∧ (s.post value sender).1 ≠ .full ∧
      (s.post value sender).2 = s) ∨
    ((s.post value sender).1 = .full ∧ s.events.length = c.eventCapacity ∧
      (s.post value sender).2 = s.withStatistics
        { s.statistics with eventOverflows := s.statistics.eventOverflows + 1 }) ∨
    (∃ v, value = some v ∧ foreign c sender = false ∧ s.lifecycle.acceptsWork = true ∧
      s.events.length ≠ c.eventCapacity ∧
      s.post value sender = (.ok, s.accept ⟨v, sender, s.now⟩)) := by
  unfold post
  split
  · exact .inl ⟨nofun, nofun, rfl⟩
  · next hw =>
    cases value with
    | none => exact .inl ⟨nofun, nofun, rfl⟩
    | some v =>
      dsimp only
      split
      · exact .inl ⟨nofun, nofun, rfl⟩
      · next hf =>
        split
        · next hfull => exact .inr (.inl ⟨rfl, hfull, rfl⟩)
        · next hroom =>
          refine .inr (.inr ⟨v, rfl, ?_, ?_, hroom, rfl⟩)
          · simpa using hf
          · simpa using hw

theorem scheduleSlot_cases [DecidableEq μ] (module : μ) (index delay : Nat) (mode : Mode) :
    (s.scheduleSlot module index delay mode).2 = s ∨
    ∃ i, s.lifecycle.acceptsWork = true ∧ (mode = .repeats → delay ≠ 0) ∧
      (s.scheduleSlot module index delay mode).2 = s.reschedule i delay mode := by
  unfold scheduleSlot
  split
  · exact .inl rfl
  · next hw =>
    split
    · exact .inl rfl
    · next hd =>
      cases findTask c module index with
      | none => exact .inl rfl
      | some i =>
        refine .inr ⟨i, ?_, ?_, rfl⟩
        · simpa using hw
        · exact fun hm h0 => hd ⟨hm, h0⟩

theorem cancelSlot_cases [DecidableEq μ] (interrupt : Bool) (module : μ) (index : Nat) :
    (s.cancelSlot interrupt module index).2 = s ∨
    ∃ i, (s.tasks i).active = true ∧ (s.cancelSlot interrupt module index).2 = s.deactivate i := by
  unfold cancelSlot
  split
  · exact .inl rfl
  · split
    · exact .inl rfl
    · cases findTask c module index with
      | none => exact .inl rfl
      | some i =>
        dsimp only
        split
        · next ha => exact .inr ⟨i, ha, rfl⟩
        · exact .inl rfl

theorem write_cases (record : ρ) (truncated : Bool) :
    (s.write record truncated).2 = s ∨
    (∃ logger : Logging.Logger ρ, logger.records = s.logger.records ∧
      (s.write record truncated).2 = { s with logger := logger }) ∨
    (∃ logger : Logging.Logger ρ, c.logging = true ∧
      logger.records = s.logger.records ++ [record] ∧
      (s.write record truncated).2 = { s with logger := logger }.notify) := by
  unfold write
  split
  · exact .inl rfl
  · next hlogging =>
    right
    dsimp only
    unfold Logging.Logger.store
    by_cases hfull : s.logger.full c.logCapacity = true
    · rw [if_pos hfull]
      exact .inl ⟨{ s.logger with dropped := s.logger.dropped + 1 }, rfl, if_pos rfl⟩
    · rw [if_neg hfull]
      refine .inr ⟨_, not_not.1 hlogging, ?_, if_neg ?_⟩
      · rfl
      · cases truncated <;> simp

/-! ## Timer slots -/

/-- Slot `i` holds a request for the callback. -/
def Holds (i : Fin c.timerCapacity) (k : κ) : Prop :=
  (s.timers i.castSucc).active = true ∧ (s.timers i.castSucc).callback = some k

variable [DecidableEq κ] {s}

theorem findSlot_eq_some {i : Fin c.timerCapacity} (h : s.findSlot k table slot = some i) :
    s.Holds i k ∨
      ((∀ j ∈ table, ¬ s.Holds j k) ∧ ((s.timers i.castSucc).active = false ∨ slot = some i)) := by
  induction table generalizing slot with
  | nil => exact .inr ⟨nofun, .inr h⟩
  | cons j rest ih =>
    unfold findSlot at h
    split at h
    · next hj =>
      cases h
      exact .inl hj
    · next hj =>
      rcases ih h with hi | ⟨hrest, hi⟩
      · exact .inl hi
      · refine .inr ⟨?_, ?_⟩
        · intro l hl
          rcases List.mem_cons.1 hl with rfl | hl
          · exact hj
          · exact hrest l hl
        · rcases hi with hi | hi
          · exact .inl hi
          · split at hi
            · exact .inr hi
            · next hfree =>
              cases hi
              exact .inl (by simpa using hfree)

theorem findSlot_eq_none : s.findSlot k table slot = none ↔
      slot = none ∧ ∀ j ∈ table, (s.timers j.castSucc).active = true ∧ ¬ s.Holds j k := by
  induction table generalizing slot with
  | nil => simp [findSlot]
  | cons j rest ih =>
    unfold findSlot
    split
    · next hj => exact ⟨nofun, fun h => absurd hj (h.2 j List.mem_cons_self).2⟩
    · next hj =>
      rw [ih, List.forall_mem_cons]
      by_cases ha : (s.timers j.castSucc).active = true
      · rw [if_pos ha]
        exact ⟨fun h => ⟨h.1, ⟨ha, hj⟩, h.2⟩, fun h => ⟨h.1, h.2.2⟩⟩
      · rw [if_neg ha]
        exact ⟨fun h => absurd h.1 (by simp), fun h => absurd h.2.1.1 ha⟩

theorem timerSlot_cases (delay : Nat) (callback : Option κ) :
    ((s.timerSlot delay callback).1 ≠ .ok ∧ (s.timerSlot delay callback).1 ≠ .full ∧
      (s.timerSlot delay callback).2 = s) ∨
    ((s.timerSlot delay callback).1 = .full ∧
      (s.timerSlot delay callback).2 = s.withStatistics
        { s.statistics with timerOverflows := s.statistics.timerOverflows + 1 }) ∨
    (∃ k i, callback = some k ∧ s.lifecycle = .running ∧
      (s.Holds i k ∨ ((∀ j, ¬ s.Holds j k) ∧ (s.timers i.castSucc).active = false)) ∧
      s.timerSlot delay callback = (.ok, s.holdTimer i k (after s.now delay))) := by
  unfold timerSlot
  split
  · exact .inl ⟨nofun, nofun, rfl⟩
  · next hrun =>
    split
    · exact .inl ⟨nofun, nofun, rfl⟩
    · cases callback with
      | none => exact .inl ⟨nofun, nofun, rfl⟩
      | some k =>
        dsimp only
        cases hslot : s.findSlot k (List.finRange c.timerCapacity) none with
        | none => exact .inr (.inl ⟨rfl, rfl⟩)
        | some i =>
          refine .inr (.inr ⟨k, i, rfl, not_not.1 hrun, ?_, rfl⟩)
          rcases findSlot_eq_some hslot with hi | ⟨hnone, hi⟩
          · exact .inl hi
          · exact .inr ⟨fun j => hnone j (List.mem_finRange j), hi.resolve_right nofun⟩

theorem cancelTimer_cases (callback : Option κ) :
    (s.cancelTimer callback).2 = s ∨
    (∃ i, s.lifecycle = .running ∧ (s.timers i.castSucc).active = true ∧
      (s.timers i.castSucc).callback = callback ∧ s.cancelTimer callback = (.ok, s.dropTimer i)) := by
  unfold cancelTimer
  split
  · exact .inl rfl
  · next hrun =>
    cases hslot : s.heldSlot callback with
    | none => exact .inl rfl
    | some i =>
      have hi := List.find?_some hslot
      simp only [Bool.and_eq_true, beq_iff_eq] at hi
      exact .inr ⟨i, not_not.1 hrun, hi.1, hi.2, rfl⟩

/-! ## All requests at once -/

inductive Requested (s : State c ε κ ρ) : Call μ ε κ ρ → State c ε κ ρ → Prop
  | none (x : Call μ ε κ ρ) : Requested s x s
  | statistics (x : Call μ ε κ ρ) (statistics : Statistics c.tasks) :
      Requested s x (s.withStatistics statistics)
  | stop : s.lifecycle = .running → Requested s .stop ({ s with stopRequested := true }.notify)
  | post (v : ε) (sender : Option μ) : s.lifecycle.acceptsWork = true →
      s.events.length ≠ c.eventCapacity →
      Requested s (.post (some v) sender) (s.accept ⟨v, sender, s.now⟩)
  | schedule (module : μ) (index : Nat) (i : Fin c.tasks) (delay : Nat) (mode : Mode) :
      s.lifecycle.acceptsWork = true → (mode = .repeats → delay ≠ 0) →
      Requested s (.schedule module index delay mode) (s.reschedule i delay mode)
  | cancel (module : μ) (index : Nat) (i : Fin c.tasks) :
      Requested s (.cancel module index) (s.deactivate i)
  | hold (i : Fin c.timerCapacity) (k : κ) (delay : Nat) : s.lifecycle = .running →
      (s.Holds i k ∨ ((∀ j, ¬ s.Holds j k) ∧ (s.timers i.castSucc).active = false)) →
      Requested s (.timer delay (some k)) (s.holdTimer i k (after s.now delay))
  | drop (i : Fin c.timerCapacity) (callback : Option κ) : s.lifecycle = .running →
      (s.timers i.castSucc).callback = callback → Requested s (.cancelTimer callback) (s.dropTimer i)
  | dropLog (logger : Logging.Logger ρ) (record : ρ) (truncated : Bool) :
      logger.records = s.logger.records →
      Requested s (.log record truncated) { s with logger := logger }
  | log (logger : Logging.Logger ρ) (record : ρ) (truncated : Bool) : c.logging = true →
      logger.records = s.logger.records ++ [record] →
      Requested s (.log record truncated) ({ s with logger := logger }.notify)

end State

namespace System

variable {w : System c ε κ ρ}

/-- A call is a request, or it starts a task or a command callback. -/
inductive Called (kind : Option CallbackKind) (w : System c ε κ ρ) :
    Call μ ε κ ρ → System c ε κ ρ → Prop
  | request (x : Call μ ε κ ρ) (s' : State c ε κ ρ) : w.state.Requested x s' →
      Called kind w x { w with state := s' }
  | task (i : Fin c.tasks) : kind = some .task → w.state.stopRequested = false →
      w.state.lifecycle = .running →
      (Scan.earliest w.state.idleTask kForever (List.finRange c.tasks)).2 = some i →
      w.state.taskDepth < c.yieldLimit → Called kind w .yield (w.beginTask i)
  | command : kind ≠ none → w.state.lifecycle = .running →
      Called kind w .invoke { w with stack := .command :: w.stack }

theorem yield_called (kind : Option CallbackKind) : Called kind w .yield (w.yield kind).2 := by
  unfold yield
  dsimp only
  split
  · exact .request _ _ (.statistics _ _)
  · next hkind =>
    split
    · exact .request _ _ (.none _)
    · next hrun =>
      push Not at hrun
      split
      · exact .request _ _ (.none _)
      · next i hi =>
        split
        · exact .request _ _ (.statistics _ _)
        · next hdepth =>
          exact .task i (not_not.1 hkind) (by simpa using hrun.1) hrun.2 hi (by omega)

theorem call_called [DecidableEq μ] [DecidableEq κ] (kind : Option CallbackKind)
    (x : Call μ ε κ ρ) : Called kind w x (w.call kind x).2 := by
  cases x with
  | schedule module index delay mode =>
    refine .request _ _ ?_
    rcases w.state.scheduleSlot_cases module index delay mode with h | ⟨i, hw, hd, h⟩
    · rw [h]
      exact .none _
    · rw [h]
      exact .schedule module index i delay mode hw hd
  | cancel module index =>
    refine .request _ _ ?_
    rcases w.state.cancelSlot_cases kind.isNone module index with h | ⟨i, -, h⟩
    · rw [h]
      exact .none _
    · rw [h]
      exact .cancel module index i
  | post value sender =>
    refine .request _ _ ?_
    rcases w.state.post_cases value sender with ⟨-, -, h⟩ | ⟨-, -, h⟩ | ⟨v, rfl, -, hw, hroom, h⟩
    · rw [h]
      exact .none _
    · rw [h]
      exact .statistics _ _
    · rw [h]
      exact .post v sender hw hroom
  | timer delay callback =>
    refine .request _ _ ?_
    rcases State.timerSlot_cases delay callback with ⟨-, -, h⟩ | ⟨-, h⟩ | ⟨k, i, rfl, hrun, hi, h⟩
    · rw [h]
      exact .none _
    · rw [h]
      exact .statistics _ _
    · rw [h]
      exact .hold i k delay hrun hi
  | cancelTimer callback =>
    refine .request _ _ ?_
    rcases State.cancelTimer_cases callback with h | ⟨i, hrun, -, hi, h⟩
    · rw [h]
      exact .none _
    · rw [h]
      exact .drop i callback hrun hi
  | stop =>
    refine .request _ _ ?_
    rcases w.state.stop_cases with h | ⟨hrun, h⟩
    · rw [h]
      exact .none _
    · rw [h]
      exact .stop hrun
  | yield => exact yield_called kind
  | resetStatistics => exact .request _ _ (.statistics _ _)
  | log record truncated =>
    refine .request _ _ ?_
    rcases w.state.write_cases record truncated with h | ⟨logger, hr, h⟩ | ⟨logger, hlog, hr, h⟩
    · rw [h]
      exact .none _
    · rw [h]
      exact .dropLog logger record truncated hr
    · rw [h]
      exact .log logger record truncated hlog hr
  | invoke =>
    show Called kind w .invoke (w.invoke kind).2
    unfold invoke
    split
    · exact .request _ _ (.none _)
    · next hkind =>
      split
      · exact .request _ _ (.none _)
      · next hrun => exact .command hkind (not_not.1 hrun)

end System

end DaveOs.Schedule
