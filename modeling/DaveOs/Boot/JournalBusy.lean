import DaveOs.Boot.Probe

/-!
# The journal's busy status

The status word and the machine's state are kept apart, so that they can disagree.
`Journal.Truthful` says that the status is `busy` exactly while an operation is outstanding. Every call
keeps it, with one exception: the read-back of a record stores the flash's answer as the status, and an
answer of `busy` there leaves a busy status without an operation (`Journal.Misreads`). Nothing takes it
back, so the loops that wait for the journal do not end then, and otherwise do (`busy_truthful`).
-/

namespace DaveOs.Boot

open Crash Relation

namespace Journal

/-- An operation has been requested or is being worked on. -/
def Outstanding (j : Journal) : Prop :=
  j.requested = true ∨ j.state ∈ [.erase, .eraseWait, .write, .writeWait, .verify]

instance (j : Journal) : Decidable j.Outstanding := inferInstanceAs (Decidable (_ ∨ _))

/-- The status is `busy` exactly while an operation is outstanding. -/
def Truthful (j : Journal) : Prop := j.status = .busy ↔ j.Outstanding

instance (j : Journal) : Decidable j.Truthful := inferInstanceAs (Decidable (_ ↔ _))

/-- A request is made only while the machine rests. -/
structure Orderly (j : Journal) : Prop where
  truthful : j.Truthful
  requested : j.requested = true → j.state = .idle ∨ j.state = .done ∨ j.state = .failed

theorem orderly_new : Orderly {} := ⟨by decide, nofun⟩

section flash

variable {σ : Type} (flash : Flash σ) (layout : Layout)
variable {loaded : Bool}

/-- The read-back of a record is answered with `busy`. -/
def Misreads (j : Journal) (s : σ) : Prop :=
  j.state = .verify ∧ ∃ j₁ s₁ bytes s₂, j.watch flash layout s = (some j₁, s₁) ∧
    flash.read j.target kRecordSize s₁ = (some (.busy, bytes), s₂)

variable {flash layout} {j j' : Journal} {s : σ}

theorem orderly_rest (hreq : j.requested = false)
    (hstate : j.state = .idle ∨ j.state = .done ∨ j.state = .failed) (hstatus : j.status ≠ .busy) :
    j.Orderly := by
  refine ⟨iff_of_false hstatus ?_, fun h => by rw [hreq] at h; cases h⟩
  rintro (h | h)
  · rw [hreq] at h
    cases h
  · rcases hstate with hs | hs | hs <;> rw [hs] at h <;> exact absurd h (by decide)

theorem orderly_work (hreq : j.requested = false)
    (hstate : j.state ∈ [.erase, .eraseWait, .write, .writeWait, .verify]) (hstatus : j.status = .busy) :
    j.Orderly :=
  ⟨iff_of_true hstatus (.inr hstate), fun h => by rw [hreq] at h; cases h⟩

theorem Orderly.at_work (h : j.Orderly) (hs : j.state ∈ working) : j.requested = false ∧ j.status = .busy := by
  refine ⟨?_, h.truthful.mpr (.inr hs)⟩
  by_contra hreq
  rcases h.requested (by simpa using hreq) with h' | h' | h' <;> rw [h'] at hs <;> exact absurd hs (by decide)

/-- The status stays `busy` although the machine rests. -/
structure Stuck (j : Journal) : Prop where
  status : j.status = .busy
  requested : j.requested = false
  state : j.state = .failed

theorem Stuck.not_truthful (h : j.Stuck) : ¬j.Truthful := by
  intro ht
  rcases ht.mp h.status with hr | hs
  · rw [h.requested] at hr
    cases hr
  · rw [h.state] at hs
    exact absurd hs (by decide)

theorem refused_ne_busy (r : Status) : (if r = .busy then Status.ioError else r) ≠ .busy := by
  split
  · decide
  · assumption

theorem lapsed_ne_busy {r : Status} {late : Bool} (h : late = true ∨ r ≠ .ok ∧ r ≠ .busy) :
    (if late then Status.timeout else r) ≠ .busy := by
  split
  · decide
  · next hlate => exact (h.resolve_left hlate).2

/-- The next step reads a record back and is answered with `busy`. -/
def BusyRead (flash : Flash σ) (j : Journal) (s : σ) : Prop :=
  j.state = .verify ∧ ∃ bytes s', flash.read j.target kRecordSize s = (some (.busy, bytes), s')

theorem Stepped.orderly (h : Stepped flash layout j s j' s') (ho : j.Orderly) (hread : ¬BusyRead flash j s) :
    j'.Orderly := by
  by_cases hs : j.state ∈ working
  · obtain ⟨hreq, hbusy⟩ := ho.at_work hs
    cases h with
    | rest hrest | request hrest => exact absurd hs hrest
    | wait => exact ho
    | late | mismatch => exact orderly_rest hreq (.inr (.inr rfl)) nofun
    | erasedOnly | verified => exact orderly_rest hreq (.inr (.inl rfl)) nofun
    | notErased | notProgrammed => exact orderly_rest hreq (.inr (.inr rfl)) (refused_ne_busy _)
    | lapsed _ hr => exact orderly_rest hreq (.inr (.inr rfl)) (lapsed_ne_busy hr)
    | misread hv _ run =>
      refine orderly_rest hreq (.inr (.inr rfl)) ?_
      rintro rfl
      exact hread ⟨hv, _, _, run⟩
    | erase | program | erased => exact orderly_work hreq (by simp) hbusy
    | chain => exact orderly_work hreq (by simp) rfl
    | written =>
      refine orderly_work hreq ?_ hbusy
      dsimp only
      split <;> decide
  · rcases h.resting hs with ⟨-, rfl, -⟩ | ⟨hreq, rfl, -⟩
    · exact ho
    · refine orderly_work rfl ?_ (ho.truthful.mpr (.inl hreq))
      dsimp only
      split <;> decide

theorem Stepped.stuck (h : Stepped flash layout j s j' s') (ho : j.Orderly) (hread : BusyRead flash j s) :
    j'.Stuck := by
  obtain ⟨hs, bytes, s₂, hrun⟩ := hread
  cases h with
  | misread _ _ run =>
    obtain ⟨rfl, -⟩ := Prod.mk.inj (Option.some.inj (Prod.mk.inj (run.symm.trans hrun)).1)
    exact ⟨rfl, (ho.at_work (by rw [hs]; decide)).1, rfl⟩
  | mismatch _ _ run | chain _ _ run | verified _ _ run => cases run.symm.trans hrun
  | _ => simp_all [working]

/-- The machine and its status are as they were. -/
structure Idem (j j' : Journal) : Prop where
  state : j'.state = j.state
  status : j'.status = j.status
  requested : j'.requested = j.requested

theorem Idem.refl (j : Journal) : j.Idem j := ⟨rfl, rfl, rfl⟩

theorem Idem.orderly (h : j.Idem j') (ho : j.Orderly) : j'.Orderly := by
  refine ⟨?_, ?_⟩
  · have ht := ho.truthful
    unfold Truthful Outstanding at ht ⊢
    rwa [h.state, h.status, h.requested]
  · rw [h.requested, h.state]
    exact ho.requested

theorem Watched.idem (h : Watched flash layout j s j' s') : j.Idem j' := by
  cases h <;> exact ⟨rfl, rfl, rfl⟩

/-- **A tick** keeps the status truthful, or its read-back is answered with `busy` and the status is stuck. -/
theorem tick_orderly (h : j.Orderly) :
    Wp (j.tick flash layout) (fun _ => True) (fun j' _ =>
      ¬j.Misreads flash layout s ∧ j'.Orderly ∨ j.Misreads flash layout s ∧ j'.Stuck) s := by
  refine .bind (Wp.ran (watch_spec.mono (fun _ _ => trivial) fun _ _ h => h)) fun j₁ s₁ ⟨hrun, hwatch⟩ => ?_
  have hsame := hwatch.same
  have h₁ := hwatch.idem.orderly h
  have hmis : j.Misreads flash layout s ↔ BusyRead flash j₁ s₁ := by
    unfold Misreads BusyRead
    rw [hsame]
    refine and_congr_right fun _ => ⟨?_, fun ⟨bytes, s₂, hread⟩ => ⟨j₁, s₁, bytes, s₂, hrun, hread⟩⟩
    rintro ⟨j₂, s₂, bytes, s₃, hrun', hread⟩
    obtain ⟨-, rfl⟩ := Prod.mk.inj (hrun.symm.trans hrun')
    exact ⟨bytes, s₃, hread⟩
  rw [hmis]
  refine step_spec.mono (fun _ _ => trivial) fun j' s' hstep => ?_
  by_cases hread : BusyRead flash j₁ s₁
  · exact .inr ⟨hread, hstep.stuck h₁ hread⟩
  · exact .inl ⟨hread, hstep.orderly h₁ hread⟩

theorem load_idem : Wp (j.load flash layout) (fun _ => True) (fun a _ => j.Idem a.2.2) s := by
  refine .ite (fun _ => .pure (.refl j)) fun _ => .bind Wp.trivial fun r s₁ _ => ?_
  refine .ite (fun _ => .pure (.refl j)) fun _ => .bind Wp.trivial ?_
  rintro ⟨conflict, scan⟩ s₂ -
  simp only
  cases scan.best with
  | none => exact .pure (.refl j)
  | some best => exact .ite (fun _ => .pure ⟨rfl, rfl, rfl⟩) fun _ => .pure ⟨rfl, rfl, rfl⟩

theorem placeAppend_idem :
    Wp (j.placeAppend flash layout loaded) (fun _ => True) (fun j' _ => j.Idem j') s := by
  refine .ite (fun _ => .bind Wp.trivial fun found s₁ _ => ?_) fun _ => .pure ⟨rfl, rfl, rfl⟩
  cases found with
  | none | some pos => exact .pure ⟨rfl, rfl, rfl⟩

theorem placeRuntime_idem {executing : Nat} :
    Wp (j.placeRuntime flash layout executing loaded) (fun _ => True) (fun a _ => j.Idem a.2) s := by
  refine .bind Wp.trivial fun found s₁ _ => ?_
  cases found with
  | some pos => exact .pure ⟨rfl, rfl, rfl⟩
  | none =>
    refine .ite (fun _ => .bind Wp.trivial fun free s₂ _ => ?_) fun _ => .pure ⟨rfl, rfl, rfl⟩
    cases free with
    | none => exact .pure ⟨rfl, rfl, rfl⟩
    | some checkpoint =>
      refine .bind Wp.trivial ?_
      rintro ⟨r, record⟩ s₃ -
      exact .ite (fun _ => .pure ⟨rfl, rfl, rfl⟩) fun _ => .pure ⟨rfl, rfl, rfl⟩

theorem place_idem :
    Wp (j.place flash layout loaded) (fun _ => True) (fun a _ => j.Idem a.2) s := by
  refine .bind placeAppend_idem fun j₁ s₁ h => .ite (fun _ => ?_) fun _ => .pure h
  refine placeRuntime_idem.conseq fun a s₂ h' => ?_
  exact ⟨h'.state.trans h.state, h'.status.trans h.status, h'.requested.trans h.requested⟩

theorem begin_orderly (h : j.Orderly) (snapshot : Snapshot) (fresh : Bool) :
    Wp (j.begin flash layout snapshot fresh) (fun _ => True) (fun a _ => a.2.Orderly) s := by
  refine .ite (fun _ => .pure h) fun hfree => .bind load_idem ?_
  rintro ⟨loaded, current, j₁⟩ s₁ h₁
  refine .ite (fun _ => .pure (h₁.orderly h)) fun _ => .bind Wp.trivial fun r s₂ _ => ?_
  refine .ite (fun _ => .pure (h₁.orderly h)) fun _ => .ite (fun _ => .pure (h₁.orderly h)) fun _ => ?_
  have hencoded {record : Bytes} : j.Idem { j₁ with record, checkpoint := false, eraseOnly := false } :=
    ⟨h₁.state, h₁.status, h₁.requested⟩
  refine .ite (fun _ => .pure (hencoded.orderly h)) fun _ => .bind place_idem ?_
  rintro ⟨result, j₂⟩ s₃ h₂
  have hj₂ : j.Idem j₂ := ⟨h₂.state.trans h₁.state, h₂.status.trans h₁.status, h₂.requested.trans h₁.requested⟩
  refine .ite (fun _ => .pure (hj₂.orderly h)) fun _ => .pure ⟨iff_of_true rfl (.inl rfl), fun _ => ?_⟩
  -- The status was not `busy`, so the machine rests.
  have hnot : ¬j.Outstanding := fun ho => hfree (h.truthful.mpr ho)
  simp only [Outstanding, not_or] at hnot
  have hst : j₂.state = j.state := hj₂.state
  rw [hst]
  cases hs : j.state <;> simp [hs] at hnot ⊢

end flash

/-! ## Waiting for the journal -/

section rounds

variable {σ : Type} (flash : Flash σ) (layout : Layout) (deadline : Option (Nat × Nat))

/-- One round of a caller that waits for the journal: a tick, under a deadline of the caller's own or
without one. -/
def round (j : Journal) : Crash σ Journal :=
  match deadline with
  | none => j.tick flash layout
  | some (start, timeout) => do
    let now ← flash.now
    tick flash layout { j with timedOut := decide (now - start ≥ timeout) }

/-- At most `n` rounds, for as long as the status is `busy`. -/
def rounds : Nat → Journal → Crash σ Journal
  | 0, j => pure j
  | n + 1, j => if j.status = .busy then j.round flash layout deadline >>= rounds n else pure j

/-- The read-back of this round is answered with `busy`. -/
def RoundMisreads (j : Journal) (s : σ) : Prop :=
  match deadline with
  | none => j.Misreads flash layout s
  | some (start, timeout) => ∃ now s₁, flash.now s = (some now, s₁) ∧
      { j with timedOut := decide (now - start ≥ timeout) }.Misreads flash layout s₁

/-- In some round of the waiting the read-back is answered with `busy`. -/
def SomeMisread (j : Journal) (s : σ) : Prop :=
  ∃ n j' s', rounds flash layout deadline n j s = (some j', s') ∧ j'.status = .busy ∧
    j'.RoundMisreads flash layout deadline s'

variable {flash layout deadline} {j : Journal} {s : σ}

theorem round_orderly (h : j.Orderly) :
    Wp (j.round flash layout deadline) (fun _ => True) (fun j' _ =>
      ¬j.RoundMisreads flash layout deadline s ∧ j'.Orderly ∨
        j.RoundMisreads flash layout deadline s ∧ j'.Stuck) s := by
  unfold round RoundMisreads
  cases deadline with
  | none => exact tick_orderly h
  | some d =>
    refine .bind Wp.trivial.ran fun now s₁ ⟨hnow, _⟩ => ?_
    have h' : Orderly { j with timedOut := decide (now - d.1 ≥ d.2) } := ⟨h.truthful, h.requested⟩
    refine (tick_orderly h').conseq fun j' s' hj' => hj'.imp (fun hj => ⟨?_, hj.2⟩) fun hj => ⟨?_, hj.2⟩
    · rintro ⟨now', s₂, hnow', hmis⟩
      obtain ⟨hsome, rfl⟩ := Prod.mk.inj (hnow.symm.trans hnow')
      obtain rfl := Option.some.inj hsome
      exact hj.1 hmis
    · exact ⟨now, s₁, hnow, hj.1⟩

end rounds

/-- What is left to do once the deadline has passed. -/
def lateRank (j : Journal) : Nat :=
  if j.requested then 3
  else
    match j.state with
    | .verify => 2
    | .erase | .eraseWait | .write | .writeWait => 1
    | .idle | .done | .failed => 0

section late

variable {σ : Type} {flash : Flash σ} {layout : Layout} {j j' : Journal} {s s' : σ}

/-- Once the deadline has passed the machine fails with its next operation. -/
theorem Stepped.late_rank (h : Stepped flash layout j s j' s') (ho : j.Orderly) (hbusy : j.status = .busy)
    (ht : j.timedOut = true) (hb : j'.status = .busy) : j'.lateRank < j.lateRank ∨ j'.Stuck := by
  by_cases hs : j.state ∈ working
  · have hreq := (ho.at_work hs).1
    cases h with
    | rest hrest | request hrest => exact absurd hs hrest
    | notErased _ ht' | erase _ ht' | notProgrammed _ ht' | program _ ht' | wait _ ht' | erasedOnly _ ht'
    | erased _ ht' | written _ ht' => exact absurd (ht.symm.trans ht') nofun
    | late | mismatch | verified => cases hb
    | lapsed _ hr => exact absurd hb (lapsed_ne_busy hr)
    | misread => exact .inr ⟨hb, hreq, rfl⟩
    | chain hv =>
      left
      simp [lateRank, hreq, hv]
  · rcases h.resting hs with ⟨hreq, -, -⟩ | ⟨hreq, rfl, -⟩
    · rcases ho.truthful.mp hbusy with hr | hw
      · exact absurd (hreq.symm.trans hr) nofun
      · exact absurd hw hs
    · left
      rw [lateRank, lateRank, if_pos hreq, if_neg Bool.false_ne_true]
      dsimp only
      split <;> simp_all

end late

/-! ### On a flash that may answer anything -/

section probe

variable {replies : Nat → Reply} {fuel : Nat} {executing : Option Nat} {layout : Layout}
  {deadline : Option (Nat × Nat)} {j : Journal} {p : Probe}
variable {j' : Journal} {p' q : Probe}

/-- Every round from here on finds that the deadline has passed. -/
def Late (replies : Nat → Reply) (layout : Layout) (deadline : Option (Nat × Nat)) (j : Journal)
    (p : Probe) : Prop :=
  match deadline with
  | none => j.requested = false ∧ j.operationStarted + layout.operationTimeout ≤ (replies p.next).time
  | some (start, timeout) => start + timeout ≤ (replies p.next).time

theorem Stepped.next (h : Stepped (Probe.flash replies fuel executing) layout j p j' p') :
    p.next ≤ p'.next := by
  cases h with
  | rest | request | late => exact Nat.le_refl _
  | _ =>
    rename_i run
    exact Nat.le_trans (Nat.le_succ _) (Nat.le_of_eq (congrArg (·.2.next) run))

/-- What a round of waiting does to a busy journal. -/
structure Round (replies : Nat → Reply) (layout : Layout) (deadline : Option (Nat × Nat)) (j : Journal)
    (p : Probe) (j' : Journal) (p' : Probe) : Prop where
  next : p.next < p'.next
  late : Late replies layout deadline j p → j'.status = .busy → j'.lateRank < j.lateRank ∨ j'.Stuck
  requested : j'.requested = false
  started : deadline = none → j.requested = false → j'.operationStarted = j.operationStarted

/-- A tick of a busy journal takes calls; one that finds its deadline passed, whether it has been told or looks
at the clock itself, is near the end. -/
theorem tick_round (h : j.Orderly) (hbusy : j.status = .busy) :
    Wp (j.tick (Probe.flash replies fuel executing) layout) (fun _ => False) (fun j' p' =>
      p.next < p'.next ∧ (j.timedOut = true ∨ Late replies layout none j p → j'.status = .busy →
        j'.lateRank < j.lateRank ∨ j'.Stuck) ∧
      j'.requested = false ∧ (j.requested = false → j'.operationStarted = j.operationStarted)) p := by
  refine tick_spec.mono (fun _ hcut => hcut Probe.answers) ?_
  rintro j' p' ⟨j₁, p₁, hwatch, hstep⟩
  have h₁ := hwatch.idem.orderly h
  have hnext := hstep.next
  obtain ⟨hclock, -, hreq'⟩ := hstep.kept fun hs => (h₁.at_work hs).1
  cases hwatch with
  | idle _ hfree => exact absurd hbusy hfree
  | starts hreq run =>
    cases run
    refine ⟨hnext, fun ht => hstep.late_rank h₁ hbusy (ht.resolve_right fun hl => ?_), hreq', fun hno => ?_⟩
    · exact absurd (hreq.symm.trans hl.1) nofun
    · exact absurd (hreq.symm.trans hno) nofun
  | looks hreq _ run =>
    cases run
    refine ⟨hnext, fun ht => hstep.late_rank h₁ hbusy ?_, hreq', fun _ => hclock⟩
    rcases ht with ht | ht
    · simp [ht]
    · simp [Nat.le_sub_of_add_le' ht.2]

theorem round_spec (h : j.Orderly) (hbusy : j.status = .busy) :
    Wp (j.round (Probe.flash replies fuel executing) layout deadline) (fun _ => False)
      (Round replies layout deadline j p) p := by
  unfold round
  cases deadline with
  | none =>
    refine (tick_round h hbusy).conseq fun j' p' ⟨hnext, hlate, hreq, hclock⟩ => ?_
    exact ⟨hnext, fun hl => hlate (.inr hl), hreq, fun _ => hclock⟩
  | some d =>
    refine .seq (Probe.wp_now ?_)
    have h₁ : Orderly { j with timedOut := decide ((replies p.next).time - d.1 ≥ d.2) } :=
      ⟨h.truthful, h.requested⟩
    refine (tick_round h₁ hbusy).conseq fun j' p' ⟨hnext, hlate, hreq, _⟩ => ?_
    exact ⟨Nat.lt_trans (Nat.lt_succ_self _) hnext,
      fun hl => hlate (.inl (decide_eq_true (Nat.le_sub_of_add_le' hl))), hreq, nofun⟩

theorem Late.later (hclock : Ticking replies) (h : Late replies layout deadline j p)
    (hle : p.next ≤ q.next) : Late replies layout deadline j q := by
  have htime : (replies p.next).time ≤ (replies q.next).time := hclock.mono _ _ hle
  cases deadline with
  | none => exact ⟨h.1, Nat.le_trans h.2 htime⟩
  | some d => exact Nat.le_trans h htime

theorem Late.round (h : Late replies layout deadline j q)
    (hr : Round replies layout deadline j p j' p') : Late replies layout deadline j' q := by
  cases deadline with
  | none =>
    refine ⟨hr.requested, ?_⟩
    rw [hr.started rfl h.1]
    exact h.2
  | some d => exact h

theorem round_onward (h : j.Orderly) (hbusy : j.status = .busy)
    (hnone : ¬SomeMisread (Probe.flash replies fuel executing) layout deadline j p) :
    ∃ j' p', j'.Orderly ∧ Round replies layout deadline j p j' p' ∧
      ¬SomeMisread (Probe.flash replies fuel executing) layout deadline j' p' ∧
      ∀ n, rounds (Probe.flash replies fuel executing) layout deadline (n + 1) j p =
        rounds (Probe.flash replies fuel executing) layout deadline n j' p' := by
  obtain ⟨j', p', hrun, hround, hkept⟩ := ((round_spec h hbusy).adding (round_orderly h)).returns
  have hnext : ∀ n, rounds (Probe.flash replies fuel executing) layout deadline (n + 1) j p =
      rounds (Probe.flash replies fuel executing) layout deadline n j' p' := fun n => by
    rw [rounds, if_pos hbusy, bind_of_some hrun]
  refine ⟨j', p', ?_, hround, ?_, hnext⟩
  · rcases hkept with ⟨-, ho⟩ | ⟨hmis, -⟩
    · exact ho
    · exact absurd ⟨0, j, p, rfl, hbusy, hmis⟩ hnone
  · rintro ⟨n, j₁, p₁, hrounds, hb, hmis⟩
    exact hnone ⟨n + 1, j₁, p₁, (hnext n).trans hrounds, hb, hmis⟩

/-- With the deadline passed the waiting ends: the induction is on what is left to do. -/
theorem ends_late (hclock : Ticking replies) : ∀ (k : Nat) {j : Journal} {p : Probe}, j.Orderly →
    ¬SomeMisread (Probe.flash replies fuel executing) layout deadline j p →
    Late replies layout deadline j p → j.lateRank ≤ k →
    ∃ n j' p', rounds (Probe.flash replies fuel executing) layout deadline n j p = (some j', p') ∧
      j'.status ≠ .busy := by
  intro k
  induction k with
  | zero =>
    intro j p h hnone hl hk
    by_cases hbusy : j.status = .busy
    · obtain ⟨j', p', ho, hround, -, hnext⟩ := round_onward h hbusy hnone
      refine ⟨1, j', p', hnext 0, fun hb => ?_⟩
      rcases hround.late hl hb with hlt | hstuck
      · omega
      · exact hstuck.not_truthful ho.truthful
    · exact ⟨0, j, p, rfl, hbusy⟩
  | succ k ih =>
    intro j p h hnone hl hk
    by_cases hbusy : j.status = .busy
    · obtain ⟨j', p', ho, hround, hnone', hnext⟩ := round_onward h hbusy hnone
      have hl' : Late replies layout deadline j' p' := (hl.later hclock (Nat.le_of_lt hround.next)).round hround
      by_cases hb : j'.status = .busy
      · have hlt := (hround.late hl hb).resolve_right fun hs => hs.not_truthful ho.truthful
        obtain ⟨n, j₂, p₂, hrun, hst⟩ := ih ho hnone' hl' (by omega)
        exact ⟨n + 1, j₂, p₂, (hnext n).trans hrun, hst⟩
      · exact ⟨1, j', p', hnext 0, hb⟩
    · exact ⟨0, j, p, rfl, hbusy⟩

theorem ends_due (hclock : Ticking replies) : ∀ (k : Nat) {j : Journal} {p : Probe}, j.Orderly →
    ¬SomeMisread (Probe.flash replies fuel executing) layout deadline j p →
    Late replies layout deadline j q → q.next ≤ p.next + k →
    ∃ n j' p', rounds (Probe.flash replies fuel executing) layout deadline n j p = (some j', p') ∧
      j'.status ≠ .busy := by
  intro k
  induction k with
  | zero =>
    intro j p h hnone hl hk
    exact ends_late hclock _ h hnone (hl.later hclock hk) (Nat.le_refl _)
  | succ k ih =>
    intro j p h hnone hl hk
    by_cases hbusy : j.status = .busy
    · obtain ⟨j', p', ho, hround, hnone', hnext⟩ := round_onward h hbusy hnone
      have hlt := hround.next
      obtain ⟨n, j₂, p₂, hrun, hst⟩ := ih ho hnone' (hl.round hround) (by omega)
      exact ⟨n + 1, j₂, p₂, (hnext n).trans hrun, hst⟩
    · exact ⟨0, j, p, rfl, hbusy⟩

/-- **Waiting for the journal ends**, if no read-back is answered with `busy`. -/
theorem rounds_end (hclock : Ticking replies) (h : j.Orderly)
    (hnone : ¬SomeMisread (Probe.flash replies fuel executing) layout deadline j p) :
    ∃ n j' p', rounds (Probe.flash replies fuel executing) layout deadline n j p = (some j', p') ∧
      j'.status ≠ .busy := by
  have hdue {j : Journal} {p : Probe} (h : j.Orderly)
      (hnone : ¬SomeMisread (Probe.flash replies fuel executing) layout deadline j p)
      (hl : ∃ i, Late replies layout deadline j { next := i }) :
      ∃ n j' p', rounds (Probe.flash replies fuel executing) layout deadline n j p = (some j', p') ∧
        j'.status ≠ .busy := by
    obtain ⟨i, hi⟩ := hl
    exact ends_due hclock i h hnone hi (Nat.le_add_left _ _)
  cases deadline with
  | some d => exact hdue h hnone (hclock.passes (d.1 + d.2))
  | none =>
    have hstarted {j : Journal} (hreq : j.requested = false) : ∃ i, Late replies layout none j { next := i } := by
      obtain ⟨i, hi⟩ := hclock.passes (j.operationStarted + layout.operationTimeout)
      exact ⟨i, hreq, hi⟩
    cases hreq : j.requested with
    | false => exact hdue h hnone (hstarted hreq)
    | true =>
      -- The first tick takes up the request and starts the clock.
      obtain ⟨j', p', ho, hround, hnone', hnext⟩ := round_onward h (h.truthful.mpr (.inl hreq)) hnone
      obtain ⟨n, j₂, p₂, hrun, hst⟩ := hdue ho hnone' (hstarted hround.requested)
      exact ⟨n + 1, j₂, p₂, (hnext n).trans hrun, hst⟩

end probe

/-! ### A status that is stuck -/

section stuck

variable {σ : Type} {flash : Flash σ} {layout : Layout} {deadline : Option (Nat × Nat)} {j j' : Journal}
  {s s' : σ}

theorem Stuck.round (h : j.Stuck) :
    Wp (j.round flash layout deadline) (fun _ => True) (fun j' _ => j'.Stuck) s := by
  have htick {j : Journal} {s : σ} (h : j.Stuck) :
      Wp (j.tick flash layout) (fun _ => True) (fun j' _ => j'.Stuck) s := by
    refine tick_spec.mono (fun _ _ => trivial) ?_
    rintro j' s' ⟨j₁, s₁, hwatch, hstep⟩
    obtain ⟨hstate, hstatus, hreq⟩ := hwatch.idem
    rcases hstep.resting (by rw [hstate, h.state]; decide) with ⟨-, rfl, -⟩ | ⟨hreq', -, -⟩
    · exact ⟨hstatus.trans h.status, hreq.trans h.requested, hstate.trans h.state⟩
    · exact absurd ((hreq.trans h.requested).symm.trans hreq') nofun
  unfold Journal.round
  cases deadline with
  | none => exact htick h
  | some d => exact .bind Wp.trivial fun now s₁ _ => htick ⟨h.status, h.requested, h.state⟩

theorem Stuck.rounds : ∀ (n : Nat) {j : Journal} {s : σ}, j.Stuck →
    Wp (rounds flash layout deadline n j) (fun _ => True) (fun j' _ => j'.Stuck) s := by
  intro n
  induction n with
  | zero => exact fun h => .pure h
  | succ n ih =>
    intro j s h
    rw [Journal.rounds]
    exact .ite (fun _ => .bind h.round fun j' s' h' => ih h') fun _ => .pure h

theorem rounds_add (n m : Nat) : ∀ {j j' : Journal} {s s' : σ},
    rounds flash layout deadline n j s = (some j', s') →
    rounds flash layout deadline (n + m) j s = rounds flash layout deadline m j' s' := by
  induction n with
  | zero =>
    intro j j' s s' h
    cases h
    rw [Nat.zero_add]
  | succ n ih =>
    intro j j' s s' h
    rw [Nat.succ_add, rounds]
    rw [rounds] at h
    split at h
    · next hbusy =>
      rw [if_pos hbusy]
      rcases hr : j.round flash layout deadline s with ⟨_ | j₁, s₁⟩
      · rw [bind_of_none hr] at h
        cases h
      · rw [bind_of_some hr] at h
        rw [bind_of_some hr]
        exact ih h
    · next hidle =>
      cases h
      rw [if_neg hidle]
      cases m with
      | zero => rfl
      | succ m => rw [rounds, if_neg hidle]

theorem rounds_orderly : ∀ (n : Nat) {j : Journal} {s : σ}, j.Orderly ∨ j.Stuck →
    Wp (rounds flash layout deadline n j) (fun _ => True) (fun j' _ => j'.Orderly ∨ j'.Stuck) s := by
  intro n
  induction n with
  | zero => exact fun h => .pure h
  | succ n ih =>
    intro j s h
    rw [Journal.rounds]
    refine .ite (fun _ => .bind ?_ fun j' s' h' => ih h') fun _ => .pure h
    rcases h with ho | hs
    · exact (round_orderly ho).conseq fun j' _ hj => hj.imp And.right And.right
    · exact hs.round.conseq fun j' _ hj => .inr hj

theorem RoundMisreads.state (h : j.RoundMisreads flash layout deadline s) : j.state = .verify := by
  unfold RoundMisreads at h
  cases deadline with
  | none => exact h.1
  | some d =>
    obtain ⟨now, s₁, -, hmis⟩ := h
    exact hmis.1

/-- A read-back that is answered with `busy` keeps the waiting from ending. -/
theorem SomeMisread.endless (h : j.Orderly) (hmis : SomeMisread flash layout deadline j s) {n : Nat}
    (hend : rounds flash layout deadline n j s = (some j', s')) : j'.status = .busy := by
  obtain ⟨k, j₁, s₁, hk, hbusy, hmis⟩ := hmis
  by_contra hidle
  have ho₁ : j₁.Orderly := ((rounds_orderly k (.inl h)).of_some hk).resolve_right fun hs => by
    have hv := hmis.state
    rw [hs.state] at hv
    cases hv
  -- The rounds after the misread return what the ended ones have returned.
  have hrun : rounds flash layout deadline (n + 1) j₁ s₁ = (some j', s') := by
    rw [← rounds_add k (n + 1) hk, Nat.add_comm k, Nat.add_assoc, rounds_add n _ hend, Nat.add_comm, rounds,
      if_neg hidle]
    rfl
  have hstuck : Wp (rounds flash layout deadline (n + 1) j₁) (fun _ => True) (fun j' _ => j'.Stuck) s₁ := by
    rw [rounds, if_pos hbusy]
    refine .bind (round_orderly ho₁) fun j₂ s₂ h₂ => ?_
    rcases h₂ with ⟨hno, -⟩ | ⟨-, hs⟩
    · exact absurd hmis hno
    · exact hs.rounds n
  exact hidle (hstuck.of_some hrun).status

end stuck

/-! ### The foreground loop -/

section drive

variable {σ : Type} {flash : Flash σ} {layout : Layout} {start timeout : Nat} {j j' : Journal} {s s' : σ}

/-- The body of the loop in `commit` and `prepare_runtime`. -/
def driveBody (flash : Flash σ) (layout : Layout) (start timeout : Nat) (j : Journal) :
    Crash σ (Journal ⊕ Journal) :=
  if j.status = .busy then do
    let now ← flash.now
    let j ← tick flash layout { j with timedOut := decide (now - start ≥ timeout) }
    pure (.inl j)
  else pure (.inr j)

theorem drive_eq : drive flash layout start timeout j s =
    loopN (driveBody flash layout start timeout) (flash.fuel s + 1) j s := rfl

theorem driveBody_busy (hbusy : j.status = .busy) {r : Option Journal} {s₁ : σ}
    (hr : j.round flash layout (some (start, timeout)) s = (r, s₁)) :
    driveBody flash layout start timeout j s = (r.map .inl, s₁) := by
  simp only [round] at hr
  simp only [driveBody, if_pos hbusy]
  rcases hn : flash.now s with ⟨_ | now, s₂⟩
  · rw [bind_of_none hn] at hr ⊢
    cases hr
    rfl
  · rw [bind_of_some hn] at hr ⊢
    cases r with
    | none => rw [bind_of_none hr]; rfl
    | some j₁ => rw [bind_of_some hr]; rfl

theorem driveBody_idle (hidle : j.status ≠ .busy) :
    driveBody flash layout start timeout j s = (some (.inr j), s) := by
  rw [driveBody, if_neg hidle]
  rfl

theorem loop_of_rounds : ∀ {n m : Nat} {j : Journal} {s : σ}, n < m →
    rounds flash layout (some (start, timeout)) n j s = (some j', s') → j'.status ≠ .busy →
    loopN (driveBody flash layout start timeout) m j s = (some j', s') := by
  intro n m
  induction m generalizing n with
  | zero => exact fun h => absurd h (Nat.not_lt_zero _)
  | succ m ih =>
    intro j s hlt hrun hidle
    by_cases hbusy : j.status = .busy
    · cases n with
      | zero =>
        cases hrun
        exact absurd hbusy hidle
      | succ n =>
        rw [rounds, if_pos hbusy] at hrun
        rcases hr : j.round flash layout (some (start, timeout)) s with ⟨_ | j₁, s₁⟩
        · rw [bind_of_none hr] at hrun
          cases hrun
        · rw [bind_of_some hr] at hrun
          rw [loopN, bind_of_some (driveBody_busy hbusy hr)]
          exact ih (by omega) hrun hidle
    · have hsame : (some j', s') = (some j, s) := by
        rw [← hrun]
        cases n with
        | zero => rfl
        | succ n => rw [rounds, if_neg hbusy]; rfl
      rw [loopN, bind_of_some (driveBody_idle hbusy), hsame]
      rfl

theorem rounds_of_loop : ∀ {m : Nat} {j : Journal} {s : σ},
    loopN (driveBody flash layout start timeout) m j s = (some j', s') →
    j'.status ≠ .busy ∧ ∃ n, rounds flash layout (some (start, timeout)) n j s = (some j', s') := by
  intro m
  induction m with
  | zero => exact fun h => nomatch h
  | succ m ih =>
    intro j s hrun
    by_cases hbusy : j.status = .busy
    · rcases hr : j.round flash layout (some (start, timeout)) s with ⟨_ | j₁, s₁⟩
      · rw [loopN, bind_of_none (driveBody_busy hbusy hr)] at hrun
        cases hrun
      · rw [loopN, bind_of_some (driveBody_busy hbusy hr)] at hrun
        obtain ⟨hidle, n, hn⟩ := ih hrun
        refine ⟨hidle, n + 1, ?_⟩
        rw [rounds, if_pos hbusy, bind_of_some hr]
        exact hn
    · rw [loopN, bind_of_some (driveBody_idle hbusy)] at hrun
      cases hrun
      exact ⟨hbusy, 0, rfl⟩

end drive

section probe

variable {replies : Nat → Reply} {executing : Option Nat} {layout : Layout} {deadline : Option (Nat × Nat)}
  {j : Journal} {p : Probe}

theorem rounds_fuel (fuel n : Nat) : ∀ (j : Journal),
    rounds (Probe.flash replies fuel executing) layout deadline n j =
      rounds (Probe.flash replies 0 executing) layout deadline n j := by
  induction n with
  | zero => exact fun _ => rfl
  | succ n ih =>
    intro j
    rw [rounds, rounds, funext ih]
    rfl

/-- Waiting for the journal ends exactly if no read-back is answered with `busy`. -/
theorem rounds_end_iff (hclock : Ticking replies) (h : j.Orderly) :
    (∃ n j' p', rounds (Probe.flash replies 0 executing) layout deadline n j p = (some j', p') ∧
      j'.status ≠ .busy) ↔ ¬SomeMisread (Probe.flash replies 0 executing) layout deadline j p := by
  refine ⟨fun ⟨n, j', p', hrun, hidle⟩ hmis => hidle (hmis.endless h hrun), fun hnone => ?_⟩
  exact rounds_end hclock h hnone

/-- The foreground loop ends exactly if no read-back in it is answered with `busy`. -/
theorem drive_ends_iff (hclock : Ticking replies) (h : j.Orderly) (start timeout : Nat) :
    (∃ n, ∀ fuel, n ≤ fuel → ∃ j' p',
      drive (Probe.flash replies fuel executing) layout start timeout j p = (some j', p')) ↔
    ¬SomeMisread (Probe.flash replies 0 executing) layout (some (start, timeout)) j p := by
  rw [← rounds_end_iff hclock h]
  constructor
  · rintro ⟨n, hn⟩
    obtain ⟨j', p', hrun⟩ := hn n (Nat.le_refl n)
    rw [drive_eq] at hrun
    obtain ⟨hidle, k, hk⟩ := rounds_of_loop hrun
    rw [rounds_fuel] at hk
    exact ⟨k, j', p', hk, hidle⟩
  · rintro ⟨n, j', p', hrun, hidle⟩
    refine ⟨n, fun fuel hle => ⟨j', p', ?_⟩⟩
    rw [drive_eq]
    rw [← rounds_fuel fuel] at hrun
    exact loop_of_rounds (Nat.lt_succ_of_le hle) hrun hidle

end probe

/-! ## The status over any calls -/

section calls

variable {σ : Type} (flash : Flash σ) (layout : Layout)

/-- A `begin`, or a tick whose read-back is not answered with `busy`. -/
inductive Acts : Journal × σ → Journal × σ → Prop
  | begin {j j' : Journal} {s s' : σ} (snapshot : Snapshot) (fresh : Bool) (result : Status)
      (run : j.begin flash layout snapshot fresh s = (some (result, j'), s')) : Acts (j, s) (j', s')
  | tick {j j' : Journal} {s s' : σ} (clear : ¬j.Misreads flash layout s)
      (run : j.tick flash layout s = (some j', s')) : Acts (j, s) (j', s')

theorem Acts.orderly {flash : Flash σ} {layout : Layout} {x y : Journal × σ}
    (h : ReflTransGen (Acts flash layout) x y) (ho : x.1.Orderly) : y.1.Orderly := by
  induction h with
  | refl => exact ho
  | tail _ hstep ih =>
    cases hstep with
    | begin snapshot fresh result run => exact (begin_orderly ih snapshot fresh).of_some run
    | tick clear run =>
      rcases (tick_orderly ih).of_some run with ⟨-, ho'⟩ | ⟨hmis, -⟩
      · exact ho'
      · exact absurd hmis clear

end calls

end Journal

open Journal in
/-- **The journal's busy status is truthful and waiting for it ends**, as long as no read-back is answered
with `busy`. Over any calls on any flash whose ticks all have that, the status is `busy` exactly while an
operation is outstanding, and the next tick keeps it so exactly if it has that too. On a flash that answers
anything, with a clock that passes every time, the loop of `commit` and `prepare_runtime` ends exactly if
no read-back in it is answered with `busy`; and so does the refusal of `begin`, for a caller that ticks. -/
theorem busy_truthful (layout : Layout) :
    (∀ {σ : Type} (flash : Flash σ) (s : σ) (x : Journal × σ),
      ReflTransGen (Acts flash layout) ({}, s) x → x.1.Orderly ∧
        ∀ j' s', x.1.tick flash layout x.2 = (some j', s') →
          (j'.Truthful ↔ ¬x.1.Misreads flash layout x.2)) ∧
    ∀ (replies : Nat → Reply) (executing : Option Nat) (j : Journal) (p : Probe), Ticking replies →
      j.Orderly →
      (∀ start timeout, (∃ n, ∀ fuel, n ≤ fuel → ∃ j' p',
          drive (Probe.flash replies fuel executing) layout start timeout j p = (some j', p')) ↔
        ¬SomeMisread (Probe.flash replies 0 executing) layout (some (start, timeout)) j p) ∧
      ((∃ n j' p', rounds (Probe.flash replies 0 executing) layout none n j p = (some j', p') ∧
          j'.status ≠ .busy) ↔
        ¬SomeMisread (Probe.flash replies 0 executing) layout none j p) := by
  refine ⟨fun flash s x hruns => ?_, fun replies executing j p hclock h => ?_⟩
  · have ho := Acts.orderly hruns orderly_new
    refine ⟨ho, fun j' s' hrun => ?_⟩
    rcases (tick_orderly ho).of_some hrun with ⟨hno, ho'⟩ | ⟨hmis, hstuck⟩
    · exact iff_of_true ho'.truthful hno
    · exact iff_of_false hstuck.not_truthful fun hno => hno hmis
  · exact ⟨fun start timeout => drive_ends_iff hclock h start timeout, rounds_end_iff hclock h⟩

/-- A flash on which nothing is ever busy, with a clock that runs. -/
def readyReplies (i : Nat) : Reply := { time := i }

theorem readyReplies_ticking : Ticking readyReplies := ⟨fun _ _ h => h, fun t => ⟨t, Nat.le_refl t⟩⟩

open Journal in
theorem readyReplies_misread {layout : Layout} {deadline : Option (Nat × Nat)} {j : Journal} {p : Probe} :
    ¬SomeMisread (Probe.flash readyReplies 0 none) layout deadline j p := by
  have hread {j : Journal} {p : Probe} : ¬j.Misreads (Probe.flash readyReplies 0 none) layout p := by
    rintro ⟨-, j₁, p₁, bytes, p₂, -, hread⟩
    cases hread
  rintro ⟨n, j', p', -, -, hmis⟩
  unfold RoundMisreads at hmis
  cases deadline with
  | none => exact hread hmis
  | some d =>
    obtain ⟨now, p₁, -, hmis⟩ := hmis
    exact hread hmis

theorem busy_truthful_readyReplies :
    Journal.Orderly {} ∧
    ∃ n, ∀ fuel, n ≤ fuel → ∃ j' p', Journal.drive (Probe.flash readyReplies fuel none) (tinyLayout 256 16) 0 1000
      { requested := true, status := .busy } {} = (some j', p') := by
  obtain ⟨hcalls, hwaiting⟩ := busy_truthful (tinyLayout 256 16)
  have hrequest : Journal.Orderly { requested := true, status := .busy } :=
    ⟨iff_of_true rfl (.inl rfl), fun _ => .inl rfl⟩
  refine ⟨(hcalls (Probe.flash readyReplies 0 none) {} ({}, {}) .refl).1, ?_⟩
  exact ((hwaiting readyReplies none _ {} readyReplies_ticking hrequest).1 0 1000).mpr readyReplies_misread

/-- A flash that is blank and works, but is busy whenever a whole record is read. -/
def busyFlash : Flash Unit where
  read _ n := pure (if n = kRecordSize then (.busy, []) else (.ok, List.replicate n 0xff))
  erase _ := pure .ok
  program _ _ := pure .ok
  poll := pure .ok
  now := pure 0
  executingBank := none
  fuel _ := 0

open Journal in
/-- A first record is written, and its read-back is answered with `busy`: the status stays `busy` with no
operation outstanding, and a tick changes nothing about it. -/
theorem busy_untruthful :
    ((do
      let (result, j) ← Journal.begin busyFlash (tinyLayout 256 16) {} {} true
      let j ← rounds busyFlash (tinyLayout 256 16) none 36 j
      let j' ← j.tick busyFlash (tinyLayout 256 16)
      pure (result, j.status, j.requested, j.state, decide (j' = j)) :
        Crash Unit (Status × Status × Bool × JournalState × Bool)) ()).1 =
      some (.ok, .busy, false, .failed, true) := by
  decide +kernel

end DaveOs.Boot
