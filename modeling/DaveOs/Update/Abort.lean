import DaveOs.Update.Identity
import DaveOs.Update.WriterPace

/-!
# The end of an abort

An engine that aborts lets the writer and the journal end what they have started, then loads the newest
snapshot and invalidates a candidate that is pending. It has no account of what it has tried: if the record
cannot be written, the next load finds the candidate pending again and the journal is asked once more. The
abort ends within a bounded number of ticks, with one attempt at most, exactly if that does not happen and
the journal's status is not stuck (`abort_terminates`).
-/

namespace DaveOs.Update

variable {layout : Layout}

open Boot Bytes Crash

/-! ## What every call keeps -/

/-- The journal fits its records, and its status is truthful or stuck. -/
def Kempt (layout : Layout) (executing : Option Nat) (j : Journal) : Prop :=
  j.Fit layout executing ∧ (j.Orderly ∨ j.Stuck)

theorem kempt_new {executing : Option Nat} : Kempt layout executing {} :=
  ⟨Journal.fit_new, .inl Journal.orderly_new⟩

section kempt

variable {layout : Layout} {executing : Option Nat} {replies : Nat → Reply} {fuel : Nat} {j : Journal} {p : Probe}
  (hl : layout.Valid) (h : Kempt layout executing j)

include hl h

theorem kempt_tick : Wp (j.tick (Probe.flash replies fuel executing) layout) (fun _ => False)
    (fun j' _ => Kempt layout executing j') p := by
  refine (Journal.tick_fit hl h.1).adding ?_
  rcases h.2 with ho | hs
  · exact (Journal.tick_orderly ho).conseq fun j' _ h' => h'.imp And.right And.right
  · exact hs.tick.conseq fun j' _ h' => .inr h'

theorem kempt_load : Wp (j.load (Probe.flash replies fuel executing) layout) (fun _ => False)
    (fun a _ => Kempt layout executing a.2.2 ∧ j.Idem a.2.2) p := by
  refine ((Journal.load_fit hl h.1).adding Journal.load_idem).conseq fun a _ ⟨hf, hi⟩ => ⟨⟨hf, ?_⟩, hi⟩
  refine h.2.imp hi.orderly fun hs => ⟨?_, ?_, ?_⟩
  · rw [hi.status, hs.status]
  · rw [hi.requested, hs.requested]
  · rw [hi.state, hs.state]

variable (hends : ∀ i, i < 2 → layout.bank i + layout.sector < 4294967296)
  (hfuel : layout.sector / kRecordSize ≤ fuel)

include hends hfuel

theorem kempt_begin (snapshot : Snapshot) :
    Wp (j.begin (Probe.flash replies fuel executing) layout snapshot) (fun _ => False)
      (fun a _ => Kempt layout executing a.2) p := by
  refine (Journal.begin_fit hl h.1 hends hfuel snapshot false).adding ?_
  rcases h.2 with ho | hs
  · exact (Journal.begin_orderly ho snapshot false).conseq fun a _ h' => .inl h'
  · exact .ite (fun _ => .pure (.inr hs)) fun hno => absurd hs.status hno

end kempt

namespace Engine

/-- What every call keeps: the machines of the journal and of the writer are in order, and a request waits
for an engine at rest. -/
structure Sane (layout : Layout) (executing : Option Nat) (e : Engine) : Prop where
  journal : Kempt layout executing e.journal
  writer : e.writer.Orderly
  requested : e.resting = false → e.requested = false

/-- The machines of the journal and of the writer are in order. -/
abbrev Parts (layout : Layout) (executing : Option Nat) (e : Engine) : Prop :=
  Kempt layout executing e.journal ∧ e.writer.Orderly

section sane

variable {layout : Layout} {executing : Option Nat} {replies : Nat → Reply} {fuel : Nat} {e e' : Engine} {p : Probe}

theorem sane_new {slot : Nat} {inactivity : Time} : Sane layout executing { runningSlot := slot, inactivity } :=
  ⟨kempt_new, Writer.orderly_new, fun _ => rfl⟩

theorem Alike.sane (ha : e.Alike e') (h : e.Sane layout executing) : e'.Sane layout executing := by
  refine ⟨ha.journal ▸ h.journal, ha.writer ▸ h.writer, ?_⟩
  rw [resting, ha.state, ha.requested]
  exact h.requested

theorem parts_used (h : e.Parts layout executing) :
    Wp (e.used (Probe.flash replies fuel executing)) (fun _ => False) (fun e' _ => e'.Parts layout executing) p :=
  .ite (fun _ => .bind (Probe.wp_now (Q := fun _ _ => True) trivial) fun _ _ _ => .pure h) fun _ => .pure h

section calls

variable (hl : layout.Valid) (h : e.Parts layout executing)

include hl h

theorem parts_load : Wp (e.load (Probe.flash replies fuel executing) layout) (fun _ => False)
    (fun a _ => a.2.Parts layout executing) p := by
  refine .bind (kempt_load hl h.1) ?_
  rintro ⟨r, snapshot, j⟩ p₁ ⟨hj, -⟩
  exact .pure ⟨hj, h.2⟩

theorem parts_begin (bytes : Bytes) (owner : Option Nat) :
    Wp (e.begin (Probe.flash replies fuel executing) layout bytes owner) (fun _ => False)
      (fun a _ => a.2.Parts layout executing) p := by
  refine .ite (fun _ => .pure h) fun _ => .ite (fun _ => .pure h) fun _ =>
    .ite (fun _ => .pure h) fun _ => .ite (fun _ => .pure h) fun _ => ?_
  cases decodeHeader bytes layout e.destination with
  | error r => exact .pure h
  | ok header =>
    refine .bind (parts_load hl h) ?_
    rintro ⟨r, e₁⟩ p₁ h₁
    refine .ite (fun _ => .pure h₁) fun _ => .ite (fun _ => .pure h₁) fun _ =>
      .ite (fun _ => .pure h₁) fun _ => .bind (Probe.wp_poll (Q := fun _ _ => True) trivial) fun r p₂ _ => ?_
    exact .ite (fun _ => .pure h₁) fun _ => .pure h₁

theorem parts_stepInvalidating : Wp (e.stepInvalidating (Probe.flash replies fuel executing) layout)
    (fun _ => False) (fun e' _ => e'.Parts layout executing) p := by
  refine .bind (kempt_tick hl h.1) fun j p₁ hj => ?_
  refine .ite (fun _ => .pure ⟨hj, h.2⟩) fun _ => .ite (fun _ => .pure ⟨hj, h.2⟩) fun _ =>
    .ite (fun _ => .pure ⟨hj, h.2⟩) fun _ => ?_
  exact .bind (Probe.wp_now (Q := fun _ _ => True) trivial) fun _ _ _ => .pure ⟨hj, h.2⟩

theorem parts_stepCommitting : Wp (e.stepCommitting (Probe.flash replies fuel executing) layout)
    (fun _ => False) (fun e' _ => e'.Parts layout executing) p := by
  refine .bind (kempt_tick hl h.1) fun j p₁ hj => ?_
  exact .ite (fun _ => .pure ⟨hj, h.2⟩) fun _ => .ite (fun _ => .pure ⟨hj, h.2⟩) fun _ =>
    .ite (fun _ => .pure ⟨hj, h.2⟩) fun _ => .pure ⟨hj, h.2⟩

omit hl in
theorem parts_stepReceiving : Wp (e.stepReceiving (Probe.flash replies fuel executing) layout)
    (fun _ => False) (fun e' _ => e'.Parts layout executing) p := by
  refine .ite (fun _ => .pure h) fun _ => .bind (parts_used (e := e.feed) h) fun e₁ p₁ h₁ => ?_
  refine .ite (fun _ => .pure h₁) fun _ => .ite (fun _ => ?_) fun _ => ?_
  · refine .bind (Writer.begin_orderly h₁.2) ?_
    rintro ⟨r, w⟩ p₂ hw
    exact .ite (fun _ => .pure ⟨h₁.1, hw⟩) fun _ => .pure ⟨h₁.1, hw⟩
  refine .ite (fun _ => .ite (fun _ => .pure h₁) fun _ => .pure h₁) fun _ =>
    .ite (fun _ => .pure h₁) fun _ => .ite (fun _ => ?_) fun _ => .pure h₁
  refine .bind (Probe.wp_now (Q := fun _ _ => True) trivial) fun now p₂ _ => ?_
  exact .ite (fun _ => .pure h₁) fun _ => .pure h₁

omit hl in
theorem parts_stepWriting : Wp (e.stepWriting (Probe.flash replies fuel executing) layout)
    (fun _ => False) (fun e' _ => e'.Parts layout executing) p := by
  refine .ite (fun _ => .pure ⟨h.1, { h.2 with }⟩) fun _ => .bind (Writer.tick_orderly h.2) fun w p₁ hw => ?_
  refine .ite (fun _ => .pure ⟨h.1, hw⟩) fun _ => .ite (fun _ => .pure ⟨h.1, hw⟩) fun _ => ?_
  exact .bind (Probe.wp_now (Q := fun _ _ => True) trivial) fun _ _ _ => .pure ⟨h.1, hw⟩

variable (hends : ∀ i, i < 2 → layout.bank i + layout.sector < 4294967296)
  (hfuel : layout.sector / kRecordSize ≤ fuel)

include hends hfuel

theorem parts_record : Wp (e.record (Probe.flash replies fuel executing) layout) (fun _ => False)
    (fun a _ => a.2.Parts layout executing) p := by
  refine .bind (kempt_begin hl h.1 hends hfuel e.snapshot) ?_
  rintro ⟨r, j⟩ p₁ hj
  exact .pure ⟨hj, h.2⟩

theorem parts_stepResting : Wp (e.stepResting (Probe.flash replies fuel executing) layout)
    (fun _ => False) (fun e' _ => e'.Parts layout executing) p := by
  refine .ite (fun _ => ?_) fun _ => ?_
  · refine .bind (parts_record hl h hends hfuel) ?_
    rintro ⟨r, e₁⟩ p₁ h₁
    exact .ite (fun _ => .pure h₁) fun _ => .pure h₁
  · exact .ite (fun _ => .pure h) fun _ => .ite (fun _ => .pure h) fun _ => .pure h

theorem parts_stepVerifying : Wp (e.stepVerifying (Probe.flash replies fuel executing) layout)
    (fun _ => False) (fun e' _ => e'.Parts layout executing) p := by
  refine .ite (fun _ => .pure h) fun _ => .bind (Probe.wp_read (Q := fun _ _ => True) trivial) ?_
  rintro ⟨r, bytes⟩ p₁ -
  refine .ite (fun _ => .pure h) fun _ => .ite (fun _ => ?_) fun _ => .pure h
  refine .ite (fun _ => .pure h) fun _ => .bind (parts_load hl h) ?_
  rintro ⟨r, e₁⟩ p₂ h₁
  refine .ite (fun _ => .pure h₁) fun _ => .ite (fun _ => .pure h₁) fun _ =>
    .bind (parts_record hl h₁ hends hfuel) ?_
  rintro ⟨r, e₂⟩ p₃ h₂
  exact .ite (fun _ => .pure h₂) fun _ => .pure h₂

theorem parts_stepAborting : Wp (e.stepAborting (Probe.flash replies fuel executing) layout)
    (fun _ => False) (fun e' _ => e'.Parts layout executing) p := by
  refine .ite (fun _ => ?_) fun _ => .ite (fun _ => ?_) fun _ => ?_
  · exact .bind (Writer.tick_orderly (w := e.writer.cancel) { h.2 with }) fun w p₁ hw => .pure ⟨h.1, hw⟩
  · exact .bind (kempt_tick hl h.1) fun j p₁ hj => .pure ⟨hj, h.2⟩
  refine .bind (Probe.wp_poll (Q := fun _ _ => True) trivial) fun r p₁ _ => .ite (fun _ => .pure h) fun _ => ?_
  refine .bind (parts_load hl h) ?_
  rintro ⟨r, e₁⟩ p₂ h₁
  refine .ite (fun _ => .bind (parts_record hl h₁ hends hfuel) ?_) fun _ => .pure h₁
  rintro ⟨r, e₂⟩ p₃ h₂
  exact .ite (fun _ => .pure h₂) fun _ => .pure h₂

theorem parts_tick : Wp (e.tick (Probe.flash replies fuel executing) layout) (fun _ => False)
    (fun e' _ => e'.Parts layout executing) p := by
  unfold tick step
  cases e.state with
  | disabled | idle | done | failed => exact parts_stepResting hl h hends hfuel
  | invalidating => exact parts_stepInvalidating hl h
  | receiving => exact parts_stepReceiving h
  | writing => exact parts_stepWriting h
  | verifying => exact parts_stepVerifying hl h hends hfuel
  | committing => exact parts_stepCommitting hl h
  | aborting => exact parts_stepAborting hl h hends hfuel

omit h in
theorem sane_tick (h : e.Sane layout executing) :
    Wp (e.tick (Probe.flash replies fuel executing) layout) (fun _ => False)
      (fun e' _ => e'.Sane layout executing) p :=
  ((parts_tick hl ⟨h.journal, h.writer⟩ hends hfuel).adding (tick_unrequested h.requested)).conseq
    fun _ _ h' => ⟨h'.1.1, h'.1.2, fun _ => h'.2⟩

omit h in
theorem sane_perform (h : e.Sane layout executing) (call : EngineCall) :
    Wp (e.perform (Probe.flash replies fuel executing) layout call) (fun _ => False)
      (fun e' _ => e'.Sane layout executing) p := by
  cases call with
  | begin header owner =>
    refine .bind ((parts_begin hl ⟨h.journal, h.writer⟩ header owner).adding begun) ?_
    rintro ⟨r, e₁⟩ p₁ ⟨hparts, hbegun⟩
    refine .pure ⟨hparts.1, hparts.2, fun hrest => ?_⟩
    have hrest' : e.resting = false := by
      rw [resting, ← hbegun.state]
      exact hrest
    by_cases hr : r = .ok
    · rw [(active_eq_false.mp (hbegun.accepted hr).1).2] at hrest'
      cases hrest'
    · rw [(hbegun.refused hr).1]
      exact h.requested hrest'
  | chunk offset data crc => exact .pure ((alike_chunk e offset data crc).sane h)
  | abort reason => exact .pure ((alike_abort e reason).sane h)
  | enable value => exact .pure ⟨h.journal, h.writer, h.requested⟩
  | reserve owner => exact .pure ((alike_reserve e owner).sane h)
  | release owner => exact .pure ((alike_release e owner).sane h)
  | runningSlot slot =>
    refine .pure ?_
    unfold bindRunningSlot
    split
    · exact h
    split
    · exact h
    · exact ⟨h.journal, h.writer, h.requested⟩
  | tick => exact sane_tick hl hends hfuel h

omit h in
theorem sane_performAll : ∀ (calls : List EngineCall) {e : Engine} {p : Probe}, e.Sane layout executing →
    Wp (performAll (Probe.flash replies fuel executing) layout calls e) (fun _ => False)
      (fun e' _ => e'.Sane layout executing) p := by
  intro calls
  induction calls with
  | nil => exact fun h => .pure h
  | cons call calls ih => exact fun h => .bind (sane_perform hl hends hfuel h call) fun _ _ h' => ih h'

end calls

end sane

/-! ## The steps of an abort -/

section attempts

variable {σ : Type} (flash : Flash σ) (layout : Layout)

def ticks : Nat → Engine → Crash σ Engine
  | 0, e => pure e
  | n + 1, e => do
    let e ← e.tick flash layout
    ticks n e

/-- This tick finds the destination pending and asks the journal to invalidate it. -/
def Attempts (e : Engine) (s : σ) : Prop :=
  e.state = .aborting ∧ e.writer.status ≠ .busy ∧ e.journal.status ≠ .busy ∧
    ∃ r s₁ e₁ s₂, flash.poll s = (some r, s₁) ∧ r ≠ .busy ∧ e.load flash layout s₁ = (some (.ok, e₁), s₂) ∧
      (e₁.snapshot.images.get e₁.destination).state = .pending

/-- The tick after so many others does. -/
def AttemptsAt (e : Engine) (s : σ) (n : Nat) : Prop :=
  ∃ e' s', ticks flash layout n e s = (some e', s') ∧ e'.Attempts flash layout s'

variable {flash layout}

theorem ticks_add (n m : Nat) : ∀ {e e' : Engine} {s s' : σ}, ticks flash layout n e s = (some e', s') →
    ticks flash layout (n + m) e s = ticks flash layout m e' s' := by
  induction n with
  | zero =>
    intro e e' s s' h
    cases h
    rw [Nat.zero_add]
  | succ n ih =>
    intro e e' s s' h
    rw [Nat.succ_add, ticks]
    rw [ticks] at h
    rcases ht : e.tick flash layout s with ⟨_ | e₁, s₁⟩
    · rw [bind_of_none ht] at h
      cases h
    · rw [bind_of_some ht] at h ⊢
      exact ih h

/-- What holds of an engine and every tick keeps holds after any number of them. -/
theorem wp_ticks {C : σ → Prop} (Inv : Engine → σ → Prop)
    (hstep : ∀ e s, Inv e s → Wp (e.tick flash layout) C Inv s) :
    ∀ (n : Nat) {e : Engine} {s : σ}, Inv e s → Wp (ticks flash layout n e) C Inv s := by
  intro n
  induction n with
  | zero => exact fun h => .pure h
  | succ n ih => exact fun h => .bind (hstep _ _ h) fun _ _ h' => ih h'

end attempts

/-- How many steps the writer and the journal still take. -/
def work (layout : Layout) (e : Engine) : Nat :=
  (if e.writer.status = .busy then e.writer.rank else 0) +
    if e.journal.status = .busy then e.journal.rank layout + 1 else 0

/-- The engine is at rest, and nothing of the abort is left. -/
structure Settled (e : Engine) : Prop where
  idle : e.active = false
  journal : e.journal.status ≠ .busy

section abort

variable {layout : Layout} {executing : Option Nat} {replies : Nat → Reply} {fuel : Nat} {e e' : Engine} {p : Probe}

/-- How a tick of an aborting engine can go. -/
inductive Abort (replies : Nat → Reply) (fuel : Nat) (executing : Option Nat) (layout : Layout) (e : Engine)
    (p : Probe) (e' : Engine) (p' : Probe) : Prop
  | ended (state : e'.state = .failed) (settled : e'.Settled)
  | stuck (state : e'.state = .aborting) (stuck : e'.journal.Stuck)
  | closer (state : e'.state = .aborting)
      (plain : ¬e.Attempts (Probe.flash replies fuel executing) layout p)
      (work : e'.work layout < e.work layout ∨
        e'.work layout = e.work layout ∧ streak p'.log = streak p.log + 1)
  | attempted (state : e'.state = .aborting) (attempt : e.Attempts (Probe.flash replies fuel executing) layout p)
      (writer : e'.writer.status ≠ .busy)

theorem work_le (hl : layout.Valid) : e.work layout ≤ 83 := by
  have hrank : e.journal.rank layout ≤ 80 := Journal.rank_le hl
  have hwriter : e.writer.rank ≤ 2 := by
    unfold Writer.rank
    split <;> omega
  unfold work
  split <;> split <;> omega

theorem settled_failed {r : Status} (hreq : e.requested = false) (hj : e.journal.status ≠ .busy) :
    (e.failed r).Settled :=
  ⟨active_eq_false.mpr ⟨hreq, rfl⟩, hj⟩

theorem settled_tick {σ : Type} {flash : Flash σ} {s : σ} (h : e.Settled) :
    Wp (e.tick flash layout) (fun _ => False) (fun e' _ => e'.Settled) s := by
  obtain ⟨hreq, hrest⟩ := active_eq_false.mp h.idle
  have hstep : Wp (e.stepResting flash layout) (fun _ => False) (fun e' _ => e'.Settled) s := by
    refine .ite (fun hr => absurd hr (by simp [hreq])) fun _ => ?_
    refine .ite (fun _ => .pure ?_) fun _ => .ite (fun _ => .pure ?_) fun _ => .pure h
    · exact ⟨active_eq_false.mpr ⟨hreq, rfl⟩, h.journal⟩
    · exact ⟨active_eq_false.mpr ⟨hreq, rfl⟩, h.journal⟩
  unfold tick step
  cases hs : e.state <;> first | exact hstep | simp [resting, hs] at hrest

variable (hl : layout.Valid) (h : e.Sane layout executing) (hs : e.state = .aborting)

include hl h hs

/-- **A tick of an aborting engine.** -/
theorem abort_tick : Wp (e.tick (Probe.flash replies fuel executing) layout) (fun _ => True)
    (fun e' p' => Abort replies fuel executing layout e p e' p') p := by
  have hreq : e.requested = false := h.requested (by simp [resting, hs])
  unfold tick step
  simp only [hs]
  refine .ite (fun hw => ?_) fun hw => .ite (fun hj => ?_) fun hj => ?_
  · -- The writer ends first; the journal's part of the work stays.
    have hc : e.writer.cancel.Orderly := { h.writer with }
    refine .bind (Writer.tick_turn.mono (fun _ _ => trivial) fun _ _ ht => ht.cancelled hc hw rfl) fun w p₁ hpace =>
      .pure (.closer hs (fun ha => ha.2.1 hw) ?_)
    unfold work
    simp only [if_pos hw]
    by_cases hb : w.status = .busy
    · rw [if_pos hb]
      have hstep := hpace hb
      rw [show e.writer.cancel.rank = e.writer.rank from rfl] at hstep
      omega
    · rw [if_neg hb]
      left
      have : 1 ≤ e.writer.rank := by
        unfold Writer.rank
        split <;> omega
      omega
  · rcases h.journal.2 with ho | hstuck
    · refine .bind ((Journal.tick_pace hl h.journal.1 ho hj).mono (fun _ _ => trivial) fun _ _ hq => hq) ?_
      rintro j p₁ ⟨-, -, hpace⟩
      by_cases hb : j.status = .busy
      · rcases hpace hb with hst | hpace
        · exact .pure (.stuck hs hst)
        · refine .pure (.closer hs (fun ha => ha.2.2.1 hj) ?_)
          unfold work
          simp only [if_neg hw, if_pos hj, if_pos hb]
          omega
      · refine .pure (.closer hs (fun ha => ha.2.2.1 hj) (.inl ?_))
        unfold work
        simp only [if_neg hw, if_pos hj, if_neg hb]
        omega
    · refine .bind hstuck.tick fun j p₁ hst => .pure (.stuck hs hst)
  · have hpoll : Wp (Probe.flash replies fuel executing).poll (fun _ => True) (fun r p₁ =>
        (Probe.flash replies fuel executing).poll p = (some r, p₁) ∧ p₁.log = .poll r :: p.log) p :=
      (Probe.wp_poll (Q := fun r p' => p'.log = .poll r :: p.log) rfl).ran
    refine .bind hpoll ?_
    rintro r p₁ ⟨hrun, hlog⟩
    refine .ite (fun hr => .pure ?_) fun hr => ?_
    · refine .closer hs ?_ (.inr ⟨rfl, by rw [hlog, streak, if_pos hr]⟩)
      rintro ⟨-, -, -, r', p₁', -, -, hrun', hne, -⟩
      obtain ⟨heq, -⟩ := Prod.mk.inj (hrun.symm.trans hrun')
      obtain rfl := Option.some.inj heq
      exact hne hr
    have hload : Wp (e.load (Probe.flash replies fuel executing) layout) (fun _ => True) (fun a p₂ =>
        (e.load (Probe.flash replies fuel executing) layout p₁ = (some a, p₂) ∧
          a.2 = { e with journal := a.2.journal, snapshot := a.2.snapshot }) ∧ e.journal.Idem a.2.journal) p₁ := by
      refine Wp.adding wp_load_same ?_
      refine .bind Journal.load_idem ?_
      rintro ⟨r, s, j⟩ p₂ hi
      exact .pure hi
    refine .bind hload ?_
    rintro ⟨result, e₁⟩ p₂ ⟨⟨hrun₁, hsame⟩, hidem⟩
    simp only at hsame hidem
    have hreq₁ : e₁.requested = false := by rw [hsame]; exact hreq
    have hj₁ : e₁.journal.status ≠ .busy := by rw [hidem.status]; exact hj
    refine .ite (fun hpend => ?_) fun _ => .pure (.ended rfl (settled_failed hreq₁ hj₁))
    obtain ⟨rfl, hpend⟩ := hpend
    have hattempt : e.Attempts (Probe.flash replies fuel executing) layout p :=
      ⟨hs, hw, hj, r, p₁, e₁, p₂, hrun, hr, hrun₁, hpend⟩
    have hrecord : Wp ((e₁.mark .incomplete).record (Probe.flash replies fuel executing) layout) (fun _ => True)
        (fun a p₃ => (((e₁.mark .incomplete).record (Probe.flash replies fuel executing) layout p₂ = (some a, p₃) ∧
          a.2 = { e₁.mark .incomplete with journal := a.2.journal }) ∧ (a.1 ≠ .ok → a.2.journal.status ≠ .busy))) p₂ := by
      refine Wp.adding wp_record_same ?_
      refine .bind (Journal.begin_refused hj₁) ?_
      rintro ⟨r, j⟩ p₃ hj₃
      exact .pure hj₃
    refine .bind hrecord ?_
    rintro ⟨result, e₂⟩ p₃ ⟨⟨-, hsame₂⟩, hrefused⟩
    simp only at hsame₂ hrefused
    refine .ite (fun _ => .pure (.attempted ?_ hattempt ?_)) fun hne => .pure (.ended rfl (settled_failed ?_ (hrefused hne)))
    · rw [hsame₂, hsame]
      exact hs
    · rw [hsame₂, hsame]
      exact hw
    · rw [hsame₂]
      exact hreq₁

variable (hends : ∀ i, i < 2 → layout.bank i + layout.sector < 4294967296)
  (hfuel : layout.sector / kRecordSize ≤ fuel)

include hends hfuel

theorem abort_returns : ∃ e' p', e.tick (Probe.flash replies fuel executing) layout p = (some e', p') ∧
    Abort replies fuel executing layout e p e' p' ∧ e'.Sane layout executing := by
  obtain ⟨e', p', hrun, hsane⟩ : ∃ e' p', e.tick (Probe.flash replies fuel executing) layout p = (some e', p') ∧
      e'.Sane layout executing := (sane_tick hl hends hfuel h).returns
  exact ⟨e', p', hrun, (abort_tick hl h hs).of_some hrun, hsane⟩

omit h hs in
theorem going_ticks (n : Nat) (h : e.state = .aborting ∧ e.Sane layout executing ∨ e.Settled) :
    Wp (ticks (Probe.flash replies fuel executing) layout n e) (fun _ => False)
      (fun e' _ => e'.state = .aborting ∧ e'.Sane layout executing ∨ e'.Settled) p := by
  refine wp_ticks (fun e _ => e.state = .aborting ∧ e.Sane layout executing ∨ e.Settled) ?_ n h
  rintro e p (⟨hs, h⟩ | h)
  · refine ((sane_tick hl hends hfuel h).adding (abort_tick hl h hs)).conseq fun e' p' ⟨hsane, hab⟩ => ?_
    cases hab with
    | ended _ settled => exact .inr settled
    | stuck state _ | closer state _ _ | attempted state _ _ => exact .inl ⟨state, hsane⟩
  · exact (settled_tick h).conseq fun _ _ h' => .inr h'

end abort

section runs

variable {layout : Layout} {executing : Option Nat} {replies : Nat → Reply} {fuel : Nat} {e : Engine} {p : Probe}

theorem stuck_ticks {σ : Type} {flash : Flash σ} {s : σ} (n : Nat) (hs : e.state = .aborting) (hj : e.journal.Stuck) :
    Wp (ticks flash layout n e) (fun _ => True) (fun e' _ => e'.state = .aborting ∧ e'.journal.Stuck) s := by
  refine wp_ticks (fun e _ => e.state = .aborting ∧ e.journal.Stuck) ?_ n ⟨hs, hj⟩
  rintro e s ⟨hs, hj⟩
  unfold tick step
  simp only [hs]
  refine .ite (fun _ => .bind Wp.trivial fun w s₁ _ => .pure ⟨hs, hj⟩) fun _ => .ite (fun _ => ?_) fun hno => ?_
  · exact .bind hj.tick fun j s₁ hj₁ => .pure ⟨hs, hj₁⟩
  · exact absurd hj.status hno

/-- The ticks that an abort takes at most, where no more than `K` polls in a row are answered with `busy`. -/
def abortTicks (K : Nat) : Nat := 166 * (K + 1)

/-- **The ticks of an abort.** The measure counts the steps of the writer and of the journal, those of an
attempt that may come, and the busy polls the flash has left for the step at hand. -/
theorem abort_ends {K : Nat} (hl : layout.Valid)
    (hends : ∀ i, i < 2 → layout.bank i + layout.sector < 4294967296)
    (hfuel : layout.sector / kRecordSize ≤ fuel) : ∀ (M a : Nat) {e : Engine} {p : Probe},
    e.Sane layout executing → e.state = .aborting → a ≤ 1 →
    (∀ n, n ≤ M → ∀ e' p', ticks (Probe.flash replies fuel executing) layout n e p = (some e', p') →
      streak p'.log ≤ K) →
    (∀ n e' p', ticks (Probe.flash replies fuel executing) layout n e p = (some e', p') → ¬e'.journal.Stuck) →
    (∀ i k, a = 0 ∨ i < k → e.AttemptsAt (Probe.flash replies fuel executing) layout p i →
      ¬e.AttemptsAt (Probe.flash replies fuel executing) layout p k) →
    (e.work layout + 82 * a) * (K + 1) + (K - streak p.log) < M →
    ∃ n, n ≤ M ∧ ∃ e' p', ticks (Probe.flash replies fuel executing) layout n e p = (some e', p') ∧
      e'.state = .failed := by
  intro M
  induction M with
  | zero => exact fun a _ _ _ _ _ _ _ _ hlt => absurd hlt (Nat.not_lt_zero _)
  | succ M ih =>
    intro a e p h hs ha hpolls hstuck hatt hlt
    obtain ⟨e₁, p₁, hrun, hab, h₁⟩ : ∃ e₁ p₁, e.tick (Probe.flash replies fuel executing) layout p = (some e₁, p₁) ∧
        Abort replies fuel executing layout e p e₁ p₁ ∧ e₁.Sane layout executing := abort_returns hl h hs hends hfuel
    have hsucc (n : Nat) : ticks (Probe.flash replies fuel executing) layout (n + 1) e p =
        ticks (Probe.flash replies fuel executing) layout n e₁ p₁ := bind_of_some hrun
    have hpolls₁ : ∀ n, n ≤ M → ∀ e' p',
        ticks (Probe.flash replies fuel executing) layout n e₁ p₁ = (some e', p') → streak p'.log ≤ K :=
      fun n hn e' p' hr => hpolls (n + 1) (by omega) e' p' ((hsucc n).trans hr)
    have hstuck₁ : ∀ n e' p',
        ticks (Probe.flash replies fuel executing) layout n e₁ p₁ = (some e', p') → ¬e'.journal.Stuck :=
      fun n e' p' hr => hstuck (n + 1) e' p' ((hsucc n).trans hr)
    have hat (n : Nat) (hn : e₁.AttemptsAt (Probe.flash replies fuel executing) layout p₁ n) :
        e.AttemptsAt (Probe.flash replies fuel executing) layout p (n + 1) := by
      obtain ⟨e', p', hr, hw⟩ := hn
      exact ⟨e', p', (hsucc n).trans hr, hw⟩
    have hnow : streak p.log ≤ K := hpolls 0 (Nat.zero_le _) e p rfl
    have hnext : streak p₁.log ≤ K := hpolls 1 (by omega) e₁ p₁ ((hsucc 0).trans rfl)
    -- It is enough that the rest of the run ends.
    suffices hrest : e₁.state = .failed ∨ ∃ n, n ≤ M ∧ ∃ e' p',
        ticks (Probe.flash replies fuel executing) layout n e₁ p₁ = (some e', p') ∧ e'.state = .failed by
      rcases hrest with hf | ⟨n, hn, e', p', hr, hf⟩
      · exact ⟨1, by omega, e₁, p₁, (hsucc 0).trans rfl, hf⟩
      · exact ⟨n + 1, by omega, e', p', (hsucc n).trans hr, hf⟩
    cases hab with
    | ended state _ => exact .inl state
    | stuck _ stuck => exact absurd stuck (hstuck₁ 0 e₁ p₁ rfl)
    | closer state _ hwork =>
      refine .inr (ih a h₁ state ha hpolls₁ hstuck₁ (fun i k hik hi hk => ?_) ?_)
      · exact hatt (i + 1) (k + 1) (hik.imp id fun hlt => by omega) (hat i hi) (hat k hk)
      · rcases hwork with hless | ⟨hsame, hstreak⟩
        · have hmul := Nat.mul_le_mul_right (K + 1)
            (show e₁.work layout + 82 * a + 1 ≤ e.work layout + 82 * a by omega)
          rw [Nat.succ_mul] at hmul
          omega
        · rw [hsame]
          omega
    | attempted state attempt writer =>
      have hzero : e.AttemptsAt (Probe.flash replies fuel executing) layout p 0 := ⟨e, p, rfl, attempt⟩
      have hone : a = 1 := by
        by_contra hne
        have ha0 : a = 0 := by omega
        exact hatt 0 0 (.inl ha0) hzero hzero
      refine .inr (ih 0 h₁ state (Nat.zero_le _) hpolls₁ hstuck₁ (fun i k _ _ hk => ?_) ?_)
      · exact hatt 0 (k + 1) (.inr (Nat.succ_pos k)) hzero (hat k hk)
      · have hwork : e₁.work layout ≤ 81 := by
          have hrank : e₁.journal.rank layout ≤ 80 := Journal.rank_le hl
          unfold work
          rw [if_neg writer]
          split <;> omega
        have hmul := Nat.mul_le_mul_right (K + 1) (show e₁.work layout + 82 * 0 ≤ 81 by omega)
        have hmul₁ := Nat.mul_le_mul_right (K + 1) (show 82 ≤ e.work layout + 82 * a by omega)
        omega

end runs

end Engine

/-- The first answers show one record, with this snapshot; everything else is zeros and succeeds. -/
def recordReplies (s : Snapshot) (n : Nat) : Reply :=
  if n = 1 ∨ n = 6 then { bytes := (encode s 16).take 16 }
  else if n = 2 ∨ n = 7 then { bytes := (encode s 16).drop 16 }
  else {}

abbrev recordFlash : Flash Probe := Probe.flash (recordReplies newSnapshot) 1 none

/-- A package is accepted, and aborted after the first tick. -/
def abortCalls : List EngineCall :=
  [.enable true, .begin tinyHeader none, .tick, .abort .rejected, .tick]

/-- The busy polls in a row are bounded along so many ticks. -/
def patient (flash : Flash Probe) (layout : Layout) (K : Nat) : Nat → Engine → Probe → Bool
  | 0, _, p => decide (streak p.log ≤ K)
  | n + 1, e, p => decide (streak p.log ≤ K) &&
      match e.tick flash layout p with
      | (some e, p) => patient flash layout K n e p
      | (none, _) => true

theorem patient_spec {flash : Flash Probe} {K : Nat} : ∀ (M n : Nat) {e e' : Engine} {p p' : Probe},
    patient flash layout K M e p = true → n ≤ M → Engine.ticks flash layout n e p = (some e', p') →
    streak p'.log ≤ K := by
  intro M
  induction M with
  | zero =>
    intro n e e' p p' h hn hr
    obtain rfl : n = 0 := by omega
    cases hr
    simpa [patient] using h
  | succ M ih =>
    intro n e e' p p' h hn hr
    simp only [patient, Bool.and_eq_true, decide_eq_true_eq] at h
    cases n with
    | zero =>
      cases hr
      exact h.1
    | succ n =>
      rcases ht : e.tick flash layout p with ⟨_ | e₁, p₁⟩
      · rw [Engine.ticks, bind_of_none ht] at hr
        cases hr
      · rw [Engine.ticks, bind_of_some ht] at hr
        rw [ht] at h
        exact ih n h.2 (by omega) hr

theorem recordFlash_aborts :
    ((Engine.performAll recordFlash (tinyLayout 256 16) abortCalls { runningSlot := 0 } {}).1.any fun e =>
      decide (e.state = .aborting) && patient recordFlash (tinyLayout 256 16) 0 (Engine.abortTicks 0) e
        (Engine.performAll recordFlash (tinyLayout 256 16) abortCalls { runningSlot := 0 } {}).2) = true := by
  decide +kernel

/-- Nothing can be written, and the candidate is pending. -/
abbrev wornPending : Flash Unit := wornFlash (tinySnapshot 2 .confirmed .pending)

/-- Two attempts at the invalidation that have failed leave the engine as it was between them. -/
theorem wornPending_turns :
    ((Engine.performAll wornPending (tinyLayout 256 16) abortCalls { runningSlot := 0 } ()).1.any fun e =>
      (e.tick wornPending (tinyLayout 256 16) ()).1.any fun e₁ =>
      (e₁.tick wornPending (tinyLayout 256 16) ()).1.any fun e₂ =>
      (e₂.tick wornPending (tinyLayout 256 16) ()).1.any fun e₃ =>
      (e₃.tick wornPending (tinyLayout 256 16) ()).1.any fun e₄ =>
      decide (e₄.tick wornPending (tinyLayout 256 16) () = (some e₂, ()) ∧
        e.state = .aborting ∧ (e₁.state = .aborting ∧ e₁.journal.status = .ioError) ∧
        (e₂.state = .aborting ∧ e₂.journal.requested = true) ∧ e₃.state = .aborting ∧
        e₄.state = .aborting ∧ e₄.journal.status = .ioError)) = true := by
  decide +kernel

end DaveOs.Update
