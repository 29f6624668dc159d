import DaveOs.Boot.Budget
import DaveOs.Boot.JournalCalls

/-!
# Journal operations that succeed

On a flash whose operations succeed, after any number of busy polls and before any deadline, a
commit that the journal can accept ends with ok (`wp_commit_ok`), and the calls it needs are bounded
(`commitCalls`).
-/

namespace DaveOs.Boot

open Bytes Wire Crash

/-- Reads and starts succeed, and a poll that is not busy completes the operation. -/
structure Event.Works {layout : Layout} (e : Event layout) : Prop where
  read : ∀ x, e.read x = .ok
  start : e.start = .ok
  poll : e.poll = .ok ∨ e.poll = .busy

def Medium.Works (m : Medium) : Prop := ∀ e, m.May e → e.Works

theorem Medium.Works.steady {m : Medium} (h : m.Works) : m.Steady := fun e he x _ => (h e he).read x

/-- The steps of writing a record from `offset` on: each unit is started and waited for, and the
record is read back. -/
def writeSteps (layout : Layout) (offset : Nat) : Nat :=
  2 * ((kRecordSize - offset) / layout.unit) + 1

/-- The steps of erasing a bank and writing a record into it. -/
def eraseSteps (layout : Layout) : Nat := 2 + writeSteps layout 0

/-- The steps that follow a checkpoint: the record itself. -/
def Journal.chainSteps (layout : Layout) (j : Journal) : Nat :=
  if j.checkpoint then eraseSteps layout else 0

/-- The steps from a state on, besides waiting. -/
def Journal.stepsFrom (layout : Layout) (j : Journal) : JournalState → Nat
  | .idle | .done | .failed => 0
  | .erase => eraseSteps layout + j.chainSteps layout
  | .eraseWait => 1 + writeSteps layout 0 + j.chainSteps layout
  | .write => writeSteps layout j.offset + j.chainSteps layout
  | .writeWait => writeSteps layout j.offset - 1 + j.chainSteps layout
  | .verify => 1 + j.chainSteps layout

/-- How many steps the journal still takes. -/
def Journal.rank (layout : Layout) (j : Journal) : Nat :=
  if j.requested then 1 + j.stepsFrom layout (if j.eraseNeeded then .erase else .write)
  else j.stepsFrom layout j.state

/-- What a step does on a flash that works: it does not fail, and it uses up a call for each step
it comes closer, or waits. -/
structure Journal.Lively {m : Medium} (j : Journal) (d : Device m) (j' : Journal) (d' : Device m) :
    Prop where
  status : j'.status = .busy ∨ j'.status = .ok
  requested : j'.requested = false
  timedOut : j'.timedOut = false
  started : j'.operationStarted = j.operationStarted
  rank : d.life + 3 * j'.rank m.layout + 2 ≤ d'.life + 3 * j.rank m.layout
  later : d.Later d'

/-- All the time left is before the operation's deadline. -/
def Journal.InTime {m : Medium} (j : Journal) (d : Device m) : Prop :=
  if j.requested then d.horizon < d.clock + m.layout.operationTimeout
  else j.operationStarted ≤ d.clock ∧ d.horizon < j.operationStarted + m.layout.operationTimeout

section live

variable {m : Medium} {executing : Option Nat} {d : Device m} {cur nxt : Snapshot} {j : Journal}
variable {layout : Layout}

theorem writeSteps_le (hl : layout.Valid) (k : Nat) : writeSteps layout k ≤ 33 := by
  unfold writeSteps
  rcases hl.unit_eq with hu | hu <;> rw [hu] <;> simp only [kRecordSize] <;> omega

theorem Journal.chainSteps_le (hl : layout.Valid) : j.chainSteps layout ≤ 35 := by
  have := writeSteps_le hl 0
  unfold chainSteps eraseSteps
  split <;> omega

theorem Journal.stepsFrom_le (hl : layout.Valid) (s : JournalState) :
    j.stepsFrom layout s ≤ 79 := by
  have h0 := writeSteps_le hl 0
  have hk := writeSteps_le hl j.offset
  have hchain := j.chainSteps_le hl
  cases s <;> simp only [stepsFrom, eraseSteps] <;> omega

theorem Journal.rank_le (hl : layout.Valid) : j.rank layout ≤ 80 := by
  have := stepsFrom_le (j := j) hl
  unfold rank
  split
  · have := this (if j.eraseNeeded then .erase else .write)
    omega
  · have := this j.state
    omega

theorem writeSteps_next (hl : layout.Valid) {k : Nat} (h : k + layout.unit ≤ kRecordSize) :
    writeSteps layout k = writeSteps layout (k + layout.unit) + 2 := by
  unfold writeSteps
  simp only [kRecordSize] at h ⊢
  rcases hl.unit_eq with hu | hu <;> rw [hu] at h ⊢ <;> omega

theorem not_late {t start timeout : Nat} (hle : start ≤ t) (hlt : t < start + timeout) :
    ¬t - start ≥ timeout := by
  omega

theorem Device.clock_le (d : Device m) : d.clock ≤ d.horizon := Nat.le_add_right _ _

theorem wp_clock : Wp Device.now (fun _ => d.life < 1) (fun t d' => d'.toMemory = d.toMemory ∧
    t = d'.clock ∧ d.life ≤ d'.life + 1 ∧ d.Later d' ∧ d'.events.length < d.events.length) d := by
  have hvalue : Wp Device.now (fun _ => True)
      (fun t d' => d'.toMemory = d.toMemory ∧ t = d'.clock) d :=
    Device.wp_call trivial fun _ _ _ => ⟨rfl, rfl⟩
  refine .conseq ((costs_now.adding spends_now).adding hvalue) ?_
  rintro t d' ⟨⟨⟨hlife, hlater⟩, hspent⟩, hm, ht⟩
  exact ⟨hm, ht, hlife, hlater, hspent⟩

theorem Journal.inTime_iff (h : j.requested = false) : j.InTime d ↔ j.operationStarted ≤ d.clock ∧
    d.horizon < j.operationStarted + m.layout.operationTimeout := by
  unfold InTime
  rw [if_neg (by rw [h]; decide)]

theorem Journal.InTime.later {d' : Device m} (h : j.InTime d) (hlater : d.Later d') :
    j.InTime d' := by
  unfold InTime at h ⊢
  split
  · next hreq =>
    rw [if_pos hreq] at h
    exact Nat.lt_of_le_of_lt hlater.horizon
      (Nat.lt_of_lt_of_le h (Nat.add_le_add_right hlater.clock _))
  · next hreq =>
    rw [if_neg hreq] at h
    exact ⟨Nat.le_trans h.1 hlater.clock, Nat.lt_of_le_of_lt hlater.horizon h.2⟩

/-- What the steps of an operation rely on, in its last states. -/
structure Journal.Fitting (layout : Layout) (j : Journal) : Prop where
  requested : j.state ∈ working → j.requested = false
  offset : j.state = .eraseWait → j.eraseOnly = false → j.offset = 0
  room : j.state = .writeWait → j.offset + layout.unit ≤ kRecordSize

theorem Journal.rank_eq (h : j.requested = false) :
    j.rank layout = j.stepsFrom layout j.state := if_neg (by rw [h]; decide)

/-- **Every step** brings an operation closer to its end, apart from waiting. -/
theorem Journal.Stepped.rank_lt {σ : Type} {flash : Flash σ} {j' : Journal} {s s' : σ}
    (hl : layout.Valid) (h : Stepped flash layout j s j' s') (hf : j.Fitting layout) :
    j'.rank layout < j.rank layout ∨
      j' = j ∧ (j.requested = true ∨ j.state ∈ working → flash.poll s = (some .busy, s')) := by
  by_cases hs : j.state ∈ working
  · have hreq := hf.requested hs
    have hpos : 0 < j.stepsFrom layout j.state := by
      cases hv : j.state with
      | writeWait =>
        have := writeSteps_next hl (hf.room hv)
        simp only [stepsFrom]
        omega
      | idle | done | failed => simp [hv, working] at hs
      | _ =>
        simp only [stepsFrom, eraseSteps, writeSteps]
        omega
    -- The state that is entered has this many steps left.
    have hnext {j' : Journal} (hreq' : j'.requested = false) (hlt : j'.stepsFrom layout j'.state <
        j.stepsFrom layout j.state) : j'.rank layout < j.rank layout ∨
        j' = j ∧ (j.requested = true ∨ j.state ∈ working → flash.poll s = (some .busy, s')) := by
      rw [rank_eq hreq, rank_eq hreq']
      exact .inl hlt
    cases h with
    | rest hrest | request hrest => exact absurd hs hrest
    | wait _ _ run => exact .inr ⟨rfl, fun _ => run⟩
    | late | notErased | notProgrammed | lapsed | erasedOnly | misread | mismatch | verified =>
      exact hnext hreq hpos
    | erase hv | program hv =>
      refine hnext hreq ?_
      rw [hv]
      simp [stepsFrom, chainSteps, eraseSteps, writeSteps]
    | erased hv _ ho =>
      refine hnext hreq ?_
      rw [hv]
      simp [stepsFrom, chainSteps, hf.offset hv ho]
    | written hv =>
      have hsteps := writeSteps_next hl (hf.room hv)
      have hge : 1 ≤ writeSteps layout (j.offset + layout.unit) := Nat.le_add_left _ _
      refine hnext hreq ?_
      rw [hv]
      dsimp only
      split <;> simp only [stepsFrom, chainSteps] <;> omega
    | chain hv hc =>
      refine hnext hreq ?_
      rw [hv]
      simp [stepsFrom, chainSteps, hc]
  · rcases h.resting hs with ⟨hreq, rfl, -⟩ | ⟨hreq, rfl, -⟩
    · exact .inr ⟨rfl, fun hno => absurd hno (by simp [hreq, hs])⟩
    · left
      rw [rank_eq rfl, rank, if_pos hreq]
      exact Nat.lt_add_of_pos_left Nat.one_pos

/-- What an operation's stage says of the step to come. -/
structure Journal.Poised (j : Journal) (d : Device m) : Prop extends j.Fitting m.layout where
  busy : j.requested = true ∨ j.state ∈ working
  idle : j.state = .erase ∨ j.state = .write ∨ j.state = .verify → d.pending = none
  bytes : j.state = .verify → d.cells.bytes j.target kRecordSize = some j.record

theorem Stage.poised (hl : m.layout.Valid) (h : Stage m.layout cur nxt j d.toMemory) : j.Poised d := by
  -- A journal that enters `s` is in no other of the working states.
  have hat {s : JournalState} (he : j.Entering s) (hs : s ∈ working)
      (hoff : s = .eraseWait → j.eraseOnly = false → j.offset = 0)
      (hroom : s = .writeWait → j.offset + m.layout.unit ≤ kRecordSize)
      (hidle : s = .erase ∨ s = .write ∨ s = .verify → d.pending = none)
      (hbytes : s = .verify → d.cells.bytes j.target kRecordSize = some j.record) : j.Poised d := by
    rcases he with ⟨hreq, rfl⟩ | ⟨hreq, hrest, -⟩
    · exact ⟨⟨fun _ => hreq, hoff, hroom⟩, .inr hs, hidle, hbytes⟩
    · have hno : j.state ∉ working := by rcases hrest with hr | hr | hr <;> rw [hr] <;> decide
      exact ⟨⟨fun hw => absurd hw hno, fun hr => absurd (by rw [hr]; decide) hno,
        fun hr => absurd (by rw [hr]; decide) hno⟩, .inl hreq,
        fun hr => absurd (by rcases hr with hr | hr | hr <;> rw [hr] <;> decide) hno,
        fun hr => absurd (by rw [hr]; decide) hno⟩
  cases h with
  | toErase i entering idle | toWrite entering idle =>
    exact hat entering (by decide) nofun nofun (fun _ => idle) nofun
  | eraseWait i entering pending erasing =>
    exact hat entering (by decide) (fun _ _ => erasing.offset) nofun (by simp) nofun
  | erased entering idle only appending =>
    exact hat entering (by decide) (fun _ ho => (appending ho).1) nofun (fun _ => idle) nofun
  | writeWait entering pending room appending =>
    exact hat entering (by decide) nofun (fun _ => (appending.writing.room hl.unit_eq room).2) (by simp) nofun
  | written entering idle room appending =>
    exact hat entering (by decide) nofun (fun _ => appending.writing.le) (fun _ => idle) nofun
  | toVerify entering idle appending =>
    exact hat entering (by decide) nofun nofun (fun _ => idle) fun _ => appending.writing.bytes

section works

variable (hw : m.Works)

include hw

theorem wp_start_works {op : Operation} (hp : d.pending = none) :
    Wp (Device.start op) (fun _ => d.life < 1)
      (fun r d' => r = .ok ∧ d.life ≤ d'.life + 1 ∧ d.Later d') d := by
  refine .conseq ((costs_start op).adding (Device.wp_start (Q := fun r _ => r = .ok) trivial
    (fun _ _ _ => rfl) (fun _ h _ => absurd hp h) fun e _ he h _ => absurd (hw e he).start h)) ?_
  exact fun r d' h => ⟨h.2, h.1.1, h.1.2⟩

theorem wp_read_works {pos n : Nat} (hp : d.pending = none) :
    Wp (Device.read pos n) (fun _ => d.life < 1) (fun r d' => r = d.cells.answer pos n ∧
      d'.toMemory = d.toMemory ∧ d.life ≤ d'.life + 1 ∧ d.Later d') d := by
  refine .conseq ((costs_read pos n).adding (Device.wp_read_steady
    (Q := fun r d' => r = d.cells.answer pos n ∧ d'.toMemory = d.toMemory)
    (fun e he => (hw e he).read pos) hp trivial fun d' hm => ⟨rfl, hm⟩)) ?_
  exact fun r d' h => ⟨h.2.1, h.2.2, h.1.1, h.1.2⟩

/-- A poll completes the operation, or is busy and worth its own iteration. -/
theorem wp_poll_works :
    Wp Device.poll (fun _ => d.life < 1) (fun r d' => d.Later d' ∧
      (r = .ok ∧ d.life ≤ d'.life + 1 ∨ r = .busy ∧ d.life + 2 ≤ d'.life)) d := by
  refine .conseq (costs_poll.adding (R := fun r d' => r = .ok ∨ r = .busy ∧
    d.life + 2 ≤ d'.life) ?_) ?_
  · unfold Wp Device.poll Device.call
    cases hev : d.events with
    | nil => trivial
    | cons e rest =>
      simp only [Device.pollAs]
      cases d.pending with
      | none => exact .inl rfl
      | some op =>
        rcases (hw e.1 e.2).poll with hok | hbusy
        · exact .inl (by simp only [hok]; rfl)
        · refine .inr ⟨by simp only [hbusy]; rfl, ?_⟩
          have hworth : e.1.worth = -2 := if_pos hbusy
          show d.life + 2 ≤ (rest.map (·.1.worth)).sum
          rw [Device.life, hev, List.map_cons, List.sum_cons, hworth]
          omega
  · rintro r d' ⟨⟨hlife, hlater⟩, h | h⟩
    · exact ⟨hlater, .inl ⟨h, hlife⟩⟩
    · exact ⟨hlater, .inr h⟩

theorem lively_step (hl : m.layout.Valid) (hstatus : j.status = .busy) (ht : j.timedOut = false)
    (hstage : Stage m.layout cur nxt j d.toMemory) :
    Wp (Journal.step (Device.flash executing) m.layout j) (fun _ => d.life < 1) (j.Lively d) d := by
  have h := hstage.poised hl
  refine .conseq (costs_step.adding (Journal.step_spec.mono (fun _ _ => trivial) fun _ _ h => h)) ?_
  rintro j' d' ⟨⟨hlife, hlater⟩, hstep⟩
  obtain ⟨hstarted, ht', hreq⟩ := hstep.kept h.requested
  refine ⟨?_, hreq, ht'.trans ht, hstarted, ?_, hlater⟩
  · cases hstep with
    | rest | request | erase | program | wait | erased | written => exact .inl hstatus
    | chain => exact .inl rfl
    | erasedOnly | verified => exact .inr rfl
    | late _ hlate => exact absurd (ht.symm.trans hlate) nofun
    | notErased hs _ hr run | notProgrammed hs _ hr run =>
      exact absurd ((wp_start_works hw (h.idle (by simp [hs]))).of_some run).1 hr
    | lapsed _ hr run =>
      obtain ⟨hok, hbusy⟩ := hr.resolve_left (by rw [ht]; decide)
      rcases ((wp_poll_works hw).of_some run).2 with hr | hr
      · exact absurd hr.1 hok
      · exact absurd hr.1 hbusy
    | misread hs hr run =>
      have hread := ((wp_read_works hw (h.idle (by simp [hs]))).of_some run).1
      rw [Cells.answer, h.bytes hs] at hread
      exact absurd (congrArg Prod.fst hread) hr
    | mismatch hs hb run =>
      have hread := ((wp_read_works hw (h.idle (by simp [hs]))).of_some run).1
      rw [Cells.answer, h.bytes hs] at hread
      exact absurd (congrArg Prod.snd hread) hb
  · have hlife : d.life ≤ d'.life + 1 := hlife
    rcases hstep.rank_lt hl h.toFitting with hlt | ⟨rfl, hpoll⟩
    · omega
    · rcases ((wp_poll_works hw).of_some (hpoll h.busy)).2 with hr | hr
      · cases hr.1
      · omega

/-- **One tick**, before the deadline. -/
theorem lively_tick (hl : m.layout.Valid) (hstatus : j.status = .busy) (ht : j.timedOut = false)
    (htime : j.InTime d) (hstage : Stage m.layout cur nxt j d.toMemory) :
    Wp (Journal.tick (Device.flash executing) m.layout j) (fun _ => d.life < 2)
      (fun j' d' => (j'.status = .busy ∨ j'.status = .ok) ∧ j'.timedOut = false ∧ j'.InTime d' ∧
        d.life + 3 * j'.rank m.layout + 1 ≤ d'.life + 3 * j.rank m.layout ∧ d.Later d') d := by
  have hstep : ∀ (t : Time) (d₁ : Device m), d₁.toMemory = d.toMemory → d.life ≤ d₁.life + 1 →
      d.Later d₁ → t ≤ d₁.clock → d₁.horizon < t + m.layout.operationTimeout →
      Wp (Journal.step (Device.flash executing) m.layout { j with operationStarted := t })
        (fun _ => d.life < 2)
        (fun j' d' => (j'.status = .busy ∨ j'.status = .ok) ∧ j'.timedOut = false ∧ j'.InTime d' ∧
          d.life + 3 * j'.rank m.layout + 1 ≤ d'.life + 3 * j.rank m.layout ∧ d.Later d') d₁ := by
    intro t d₁ hm hlife hlater hle hlt
    refine .mono (lively_step hw hl (j := { j with operationStarted := t }) hstatus ht
      (by rw [hm]; exact hstage.watch t j.timedOut)) (fun _ _ => by omega) fun j' d' h => ?_
    refine ⟨h.status, h.timedOut, ?_, ?_, Device.meter.trans hlater h.later⟩
    · refine (Journal.inTime_iff h.requested).mpr ?_
      rw [h.started]
      exact ⟨Nat.le_trans hle h.later.clock, Nat.lt_of_le_of_lt h.later.horizon hlt⟩
    · have hrank := h.rank
      have heq : ({ j with operationStarted := t } : Journal).rank m.layout = j.rank m.layout := rfl
      rw [heq] at hrank
      omega
  refine .seq (.ite (fun hreq => ?_) fun hreq => .ite (fun _ => ?_) fun h => absurd hstatus h)
  · refine .bind (.mono wp_clock (fun _ _ => by omega) fun _ _ h => h) ?_
    rintro _ d₁ ⟨hm, rfl, hlife, hlater, -⟩
    refine .pure (hstep d₁.clock d₁ hm hlife hlater (Nat.le_refl _) ?_)
    have hlt : d.horizon < d.clock + m.layout.operationTimeout := (if_pos hreq).mp htime
    exact Nat.lt_of_le_of_lt hlater.horizon
      (Nat.lt_of_lt_of_le hlt (Nat.add_le_add_right hlater.clock _))
  · obtain ⟨hle, hlt⟩ := (Journal.inTime_iff (by simpa using hreq)).mp htime
    refine .bind (.mono wp_clock (fun _ _ => by omega) fun _ _ h => h) ?_
    rintro _ d₁ ⟨hm, rfl, hlife, hlater, -⟩
    have hearly : ¬d₁.clock - j.operationStarted ≥ m.layout.operationTimeout :=
      not_late (Nat.le_trans hle hlater.clock)
        (Nat.lt_of_le_of_lt (Nat.le_trans d₁.clock_le hlater.horizon) hlt)
    rw [if_neg hearly]
    exact .pure (hstep j.operationStarted d₁ hm hlife hlater (Nat.le_trans hle hlater.clock)
      (Nat.lt_of_le_of_lt hlater.horizon hlt))

/-- **Driving** an operation on a flash that works, before its deadlines, ends with ok. -/
theorem lively_drive (hl : m.layout.Valid) {cells₀ : Cells} {start timeout : Time}
    (hstart : start ≤ d.clock) (hend : d.horizon < start + timeout) (htime : j.InTime d)
    (hstatus : j.status = .busy ∨ j.status = .ok) (h : Moved m cells₀ cur nxt j d) :
    Wp (Journal.drive (Device.flash executing) m.layout start timeout j)
      (fun _ => d.life < 3 + 3 * j.rank m.layout)
      (fun j' d' => j'.status = .ok ∧ d.life ≤ d'.life + 3 * j.rank m.layout ∧ d.Later d') d := by
  refine Wp.loop_ends (fun j' d' => (j'.status = .busy ∨ j'.status = .ok) ∧ j'.InTime d' ∧
    Moved m cells₀ cur nxt j' d' ∧
    d.life + 3 * j'.rank m.layout ≤ d'.life + 3 * j.rank m.layout ∧ d.Later d') ?_
    ⟨hstatus, htime, h, by omega, Device.meter.refl d⟩
  rintro j' d' ⟨hst, hin, hmoved, hlife, hlater⟩
  refine .ite (fun hbusy => ?_) fun hne =>
    .pure ⟨hst.resolve_left hne, by omega, hlater⟩
  refine .bind (.mono wp_clock (fun _ _ => by omega) fun _ _ h => h) ?_
  rintro _ d₁ ⟨hm, rfl, hlife₁, hlater₁, hspent⟩
  have hlater₀ := Device.meter.trans hlater hlater₁
  have hearly : decide (d₁.clock - start ≥ timeout) = false :=
    decide_eq_false (not_late (Nat.le_trans hstart hlater₀.clock)
      (Nat.lt_of_le_of_lt (Nat.le_trans d₁.clock_le hlater₀.horizon) hend))
  rw [hearly]
  have hstage : Stage m.layout cur nxt { j' with timedOut := false } d₁.toMemory := by
    rw [hm]
    exact (hmoved.stage hbusy).watch j'.operationStarted false
  have hconf : Confined m.layout cells₀ d₁.toMemory := by
    rw [hm]
    exact hmoved.2
  have hin₁ : ({ j' with timedOut := false } : Journal).InTime d₁ := hin.later hlater₁
  have hrank : ({ j' with timedOut := false } : Journal).rank m.layout = j'.rank m.layout := rfl
  have hbusy₁ : ({ j' with timedOut := false } : Journal).status = .busy := hbusy
  refine .bind (.mono ((lively_tick hw hl hbusy₁ rfl hin₁ hstage).and
    (wp_tick hl hconf hw.steady hbusy₁ hstage)) (fun _ h => ?_) fun _ _ h => h) ?_
  · have := h.1
    omega
  · rintro j₂ d₂ ⟨⟨hst₂, -, hin₂, hlife₂, hlater₂⟩, hmoved₂⟩
    rw [hrank] at hlife₂
    refine .pure ⟨⟨hst₂, hin₂, hmoved₂, by omega, Device.meter.trans hlater₀ hlater₂⟩, ?_⟩
    exact Nat.lt_of_le_of_lt hlater₂.events hspent

end works

/-- The most calls the search for an erased slot makes. -/
def scanCalls (layout : Layout) : Nat := 2 * ((layout.sector + 255) / 256 + 1)

/-- The most calls a commit makes at boot, besides waiting. -/
def commitCalls (layout : Layout) : Nat := loadCalls layout + 1 + scanCalls layout + 244

/-- The journal can write `s` after `cur`. -/
structure Writable (s cur : Snapshot) : Prop where
  sequence : cur.sequence ≠ 0xffffffffffffffff
  counter : cur.counter ≤ s.counter
  storable : Snapshot.Storable { s with sequence := cur.sequence + 1 }

section commit

variable (hl : m.layout.Valid)
  (hends : ∀ i, i < 2 → m.layout.bank i + m.layout.sector < 4294967296)
variable {i : Nat} {s : Snapshot} {fresh : Bool}

include hl hends

omit hl in
theorem bank_limit (hi : i < 2) (hl : m.layout.Valid) :
    m.layout.bank i + m.layout.sector + 256 ≤ 4294967296 := by
  have h1 : 256 ∣ m.layout.sector := Nat.dvd_of_mod_eq_zero hl.record_dvd
  have h2 : 256 ∣ m.layout.bank i :=
    Nat.dvd_trans h1 (Nat.dvd_of_mod_eq_zero (hl.bank_dvd i hi))
  have := hends i hi
  omega

omit hends in
theorem lively_load (hsteady : m.Steady) (hvalid : m.layout.valid = true) (hp : d.pending = none)
    (hsound : Sound m.layout d.cells cur) :
    Wp (Journal.load (Device.flash executing) m.layout j) (fun _ => d.life < loadCalls m.layout)
      (fun r d' => ∃ p i, r = (.ok, cur, { j with latest := p }) ∧ d'.toMemory = d.toMemory ∧
        m.layout.InBank i p ∧ d'.cells.snapshot p = some cur ∧
        d.life ≤ d'.life + loadCalls m.layout ∧ d.Later d') d := by
  have hheld : Held m.layout d.toMemory (· = cur) := Held.of_sound hp rfl hsound
  refine .conseq (costs_load.adding ((wp_load hl hsteady hvalid hheld).mono
    (fun _ _ => trivial) fun _ _ h => h)) ?_
  rintro r d' ⟨⟨hlife, hlater⟩, ⟨-, hne, -⟩ | ⟨cur', p, i, rfl, rfl, hp', ho, -, hin, hsn⟩⟩
  · exact absurd hp hne
  · exact ⟨p, i, rfl, outcome_same hp hp' ho, hin, hsn, hlife, hlater⟩

theorem costs_placeAppend (h : m.layout.InBank i j.latest) : Costs Device.meter (scanCalls m.layout)
      (Journal.placeAppend (Device.flash executing) m.layout true j) d := by
  have hi := h.1
  have hin := h.inside hl
  have hlimit := bank_limit hends hi hl
  have hbank : ({ j with eraseNeeded := true, target := m.layout.bank 0 } : Journal).latestBank
      m.layout = i := latestBank_eq hl h
  simp only [Journal.placeAppend, hbank, if_true]
  refine .mono (.bind (k := 0) (costs_findErased hlimit) fun r d' => ?_) ?_
  · cases r with
    | some q | none => exact .pure
  · have hnext : nextRecord j.latest = j.latest + 256 := by
      simp only [nextRecord, kRecordSize]
      omega
    rw [hnext]
    unfold scanCalls
    omega

theorem lively_begin (hboot : 2 ≤ executing.getD 2) (hsteady : m.Steady)
    (hvalid : m.layout.valid = true) (hp : d.pending = none) (hsound : Sound m.layout d.cells cur)
    (hrest : j.Resting) (hs : Writable s cur) :
    Wp (Journal.begin (Device.flash executing) m.layout j s fresh)
      (fun _ => d.life < loadCalls m.layout + 1 + scanCalls m.layout)
      (fun r d' => r.1 = .ok ∧ r.2.requested = true ∧
        d.life ≤ d'.life + (loadCalls m.layout + 1 + scanCalls m.layout) ∧ d.Later d') d := by
  refine .ite (fun h => absurd h hrest.status) fun _ => ?_
  refine .bind (.mono (lively_load hl hsteady hvalid hp hsound) (fun _ _ => by omega)
    fun _ _ h => h) ?_
  rintro _ d₁ ⟨p, i, rfl, hm, hin, -, hlife, hlater⟩
  refine .ite (fun h => absurd rfl h.1) fun _ => ?_
  have hp₁ : d₁.pending = none := by rw [hm, hp]
  refine .bind (.mono ((costs_poll (d := d₁)).and (Device.wp_poll (C := fun _ => True)
    (Q := fun r _ => r = .ok) trivial (fun _ _ _ => rfl)
    (fun op _ hop _ => by rw [hp₁] at hop; cases hop) (fun _ _ _ _ => rfl)
    fun e op _ _ hop _ _ _ => by rw [hp₁] at hop; cases hop)) (fun _ h => ?_) fun _ _ h => h) ?_
  · have : d₁.life < 1 := h.1
    omega
  rintro _ d₂ ⟨⟨hlife₂, hlater₂⟩, rfl⟩
  have hlife₂ : d₁.life ≤ d₂.life + 1 := hlife₂
  refine .ite (fun h => absurd h (by decide)) fun _ => .ite (fun h => ?_) fun _ => ?_
  · exact absurd h (not_or.mpr ⟨hs.sequence, UInt64.not_lt.mpr hs.counter⟩)
  refine .ite (fun h => ?_) fun _ => ?_
  · simp only [decode_encode hs.storable] at h
    cases h
  have hlat : m.layout.InBank i ({ { j with latest := p } with
      record := encode { s with sequence := cur.sequence + 1 } m.layout.writeSize
      checkpoint := false, eraseOnly := false } : Journal).latest := hin
  refine .seq (.bind (.mono (costs_placeAppend hl hends hlat) (fun _ h => ?_)
    fun _ _ h => h) ?_)
  · have : d₂.life < scanCalls m.layout := h
    omega
  rintro j₁ d₃ ⟨hlife₃, hlater₃⟩
  have hlife₃ : d₂.life ≤ d₃.life + scanCalls m.layout := hlife₃
  refine .ite (fun h => absurd h (Nat.not_lt.mpr hboot)) fun _ => .pure ?_
  refine .ite (fun h => absurd rfl h) fun _ => .pure ⟨rfl, rfl, by omega, ?_⟩
  exact Device.meter.trans hlater (Device.meter.trans hlater₂ hlater₃)

/-- **A commit** at boot on a flash that works, in time, ends with ok. -/
theorem lively_commit (hboot : 2 ≤ executing.getD 2) (hw : m.Works) (hvalid : m.layout.valid = true)
    (hp : d.pending = none) (hsound : Sound m.layout d.cells cur) (hrest : j.Resting)
    (hs : Writable s cur) (htime : d.horizon < d.clock + m.layout.operationTimeout) :
    Wp (Journal.commit (Device.flash executing) m.layout j s 0 fresh)
      (fun _ => d.life < commitCalls m.layout)
      (fun r d' => r.1 = .ok ∧ r.2.Resting ∧ d'.pending = none ∧
        Sound m.layout d'.cells (s.following cur) ∧ Confined m.layout d.cells d'.toMemory ∧
        d.life ≤ d'.life + commitCalls m.layout ∧ d.Later d') d := by
  have hheld : Held m.layout d.toMemory (· = cur) := Held.of_sound hp rfl hsound
  unfold commitCalls
  simp only [Journal.commit, if_true]
  refine .bind (.mono ((lively_begin hl hends hboot hw.steady hvalid hp hsound hrest hs).and
    (wp_begin hl hw.steady hends hvalid hheld hrest)) (fun _ h => ?_) fun _ _ h => h) ?_
  · have := h.1
    omega
  rintro ⟨r, j₁⟩ d₁ ⟨⟨hok, hreq, hlife, hlater⟩, hbegun⟩
  obtain rfl : r = .ok := hok
  cases hbegun with
  | refused failed => exact absurd rfl failed
  | accepted cur' ok status based idle stage =>
    obtain rfl : cur' = cur := based.source
    have hm : d₁.toMemory = d.toMemory := outcome_same hp idle based.outcome
    refine .ite (fun h => absurd rfl h) fun _ => ?_
    refine .bind (.mono wp_clock (fun _ _ => by omega) fun _ _ h => h) ?_
    rintro _ d₂ ⟨hm₂, rfl, hlife₂, hlater₂, -⟩
    have hlater₀ := Device.meter.trans hlater hlater₂
    have hconf : Confined m.layout d.cells d₂.toMemory := by
      rw [hm₂, hm]
      exact ⟨fun _ _ => rfl, fun op hop => by rw [hp] at hop; cases hop⟩
    have hmoved : Moved m d.cells cur' (s.following cur') j₁ d₂ :=
      ⟨.busy status (by rw [hm₂]; exact stage), hconf⟩
    have hend : d₂.horizon < d₂.clock + m.layout.operationTimeout :=
      Nat.lt_of_le_of_lt hlater₀.horizon
        (Nat.lt_of_lt_of_le htime (Nat.add_le_add_right hlater₀.clock _))
    have hin : j₁.InTime d₂ := (if_pos hreq).mpr hend
    have hrank := j₁.rank_le hl
    refine .bind (.mono ((lively_drive hw hl (Nat.le_refl _) hend hin (.inl status) hmoved).and
      (wp_drive hl hw.steady hmoved)) (fun _ h => ?_) fun _ _ h => h) ?_
    · have := h.1
      omega
    · rintro j₂ d₃ ⟨⟨hok₂, hlife₃, hlater₃⟩, -, hmoved₂⟩
      obtain ⟨hidle, hnew⟩ := hmoved₂.sound hok₂
      refine .pure ⟨hok₂, hmoved₂.resting (by rw [hok₂]; decide), hidle, hnew, hmoved₂.2, ?_,
        Device.meter.trans hlater₀ hlater₃⟩
      omega

end commit

end live

end DaveOs.Boot
