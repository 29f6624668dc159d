import DaveOs.Update.EngineRuns

/-!
# What one tick of the engine can do, on any flash

`Engine.Turn` lists the ways a tick can go with respect to the end of an installation: on with the work, a
failure of the engine's own that starts an abort, or the end, either by an answer of the journal or with
the reason of the abort. Nothing is assumed about the flash. What the calls return is in `Engine.answer`.
-/

namespace DaveOs.Update

open Boot Bytes Crash

def PackageReader.Honest (r : PackageReader) : Prop := r.state = .failed → r.status = .parseError

namespace PackageReader

variable {r : PackageReader}

theorem honest_of_state (h : r.state ≠ .failed) : r.Honest := fun hf => absurd hf h

theorem Honest.finish : r.finish.Honest := by
  unfold PackageReader.finish
  split
  · exact honest_of_state (by simp)
  · exact fun _ => rfl

theorem Honest.announce : r.announce.Honest := by
  unfold PackageReader.announce
  simp only
  split
  · exact fun _ => rfl
  · refine honest_of_state ?_
    simp only
    split <;> simp

theorem Honest.tick (h : r.Honest) (input : Bytes) : (r.tick input).2.Honest := by
  unfold PackageReader.tick PackageReader.step
  split
  · exact honest_of_state (by simp)
  cases hs : r.state with
  | header =>
    simp only
    split
    · exact Honest.announce
    · exact honest_of_state (by simp)
  | patches =>
    simp only
    split
    · exact honest_of_state (by simp)
    · exact honest_of_state (by simp)
  | data =>
    simp only
    split
    · exact Honest.finish
    · exact honest_of_state (by simp)
  | ready =>
    simp only
    split
    · refine honest_of_state ?_
      simp only
      split <;> simp
    · exact h
  | idle | done | failed => exact h

end PackageReader

namespace Engine

section flash

variable {σ : Type} (flash : Flash σ) (layout : Layout)

/-- One call with the status it returns, if it returns one. -/
def answer (e : Engine) : EngineCall → Crash σ (Option Status × Engine)
  | .begin header owner => do
    let (result, e) ← e.begin flash layout header owner
    pure (some result, e)
  | .chunk offset data crc =>
    pure (some (e.chunk offset data crc).1, (e.chunk offset data crc).2)
  | .abort reason => pure (none, e.abort reason)
  | .enable value => pure (none, e.enable value)
  | .reserve owner => pure (some (e.reserve owner).1, (e.reserve owner).2)
  | .release owner => pure (none, e.release owner)
  | .runningSlot slot => pure (some (e.bindRunningSlot slot).1, (e.bindRunningSlot slot).2)
  | .tick => do
    let e ← e.tick flash layout
    pure (none, e)

/-- The journal call by which this tick invalidates the destination answers `r`, and that is no success. -/
def JournalFails (e : Engine) (s : σ) (r : Status) : Prop :=
  r ≠ .ok ∧
  match e.state with
  | .invalidating => ∃ j s₁, e.journal.tick flash layout s = (some j, s₁) ∧ j.status = r
  | .aborting =>
    ∃ p s₁ r₁ e₁ s₂, flash.poll s = (some p, s₁) ∧ e.load flash layout s₁ = (some (r₁, e₁), s₂) ∧
      (r₁ = r ∨ r₁ = .ok ∧ (e₁.snapshot.images.get e₁.destination).state = .pending ∧
        ∃ e₂ s₃, (e₁.mark .incomplete).record flash layout s₂ = (some (r, e₂), s₃))
  | _ => ∃ e₁ s₁,
      ({ e with requested := false }.mark .incomplete).record flash layout s = (some (r, e₁), s₁)

/-- How a tick of `e` from the state `s` can go. -/
inductive Turn (e : Engine) (s : σ) (e' : Engine) : Prop
  | onward (reason : e'.abortReason = e.abortReason) (asked : e'.abortRequested = e.abortRequested)
      (going : e'.state = .failed → e.state = .failed ∧ e.active = false)
      (aborting : e'.state = .aborting → e.state ≠ .aborting →
        e.authorized = false ∨ e.abortRequested = true)
  | failing (authorized : e.authorized = true) (fresh : e.abortRequested = false)
      (working : e.state ≠ .aborting) (state : e'.state = .aborting)
      (asked : e'.abortRequested = true) (reason : e.reader.Honest → e'.abortReason ≠ .ok)
  | refused (fails : JournalFails flash layout e s e'.status) (state : e'.state = .failed)
  | ended (working : e.state = .aborting) (clean : ∀ r, ¬JournalFails flash layout e s r)
      (state : e'.state = .failed) (status : e'.status = e.abortReason)

structure Kept (e e' : Engine) : Prop where
  runningSlot : e'.runningSlot = e.runningSlot
  header : e'.header = e.header
  owner : e'.owner = e.owner
  enabled : e'.enabled = e.enabled
  requested : e'.requested = true → e.requested = true
  received : e'.received = e.received
  reader : e.reader.Honest → e'.reader.Honest

variable {flash layout} {e e' : Engine} {s : σ}

theorem Kept.refl (e : Engine) : e.Kept e := ⟨rfl, rfl, rfl, rfl, id, rfl, id⟩

theorem wp_load_same : Wp (e.load flash layout) (fun _ => True)
    (fun r s' => e.load flash layout s = (some r, s') ∧
      r.2 = { e with journal := r.2.journal, snapshot := r.2.snapshot }) s := by
  refine (Wp.bind Wp.trivial ?_).ran
  rintro ⟨result, snapshot, journal⟩ s' -
  exact Wp.pure rfl

theorem wp_record_same : Wp (e.record flash layout) (fun _ => True)
    (fun r s' => e.record flash layout s = (some r, s') ∧
      r.2 = { e with journal := r.2.journal }) s := by
  refine (Wp.bind Wp.trivial ?_).ran
  rintro ⟨result, journal⟩ s' -
  exact Wp.pure rfl

abbrev Told (flash : Flash σ) (layout : Layout) (e : Engine) (s : σ) (e' : Engine) : Prop :=
  e.Kept e' ∧ Turn flash layout e s e'

/-- A step on with the work, in a state that is neither the abort nor the end. -/
theorem told_onward (hk : e.Kept e') (hr : e'.abortReason = e.abortReason)
    (ha : e'.abortRequested = e.abortRequested) (hf : e'.state ≠ .failed) (hs : e'.state ≠ .aborting) :
    Told flash layout e s e' :=
  ⟨hk, .onward hr ha (fun h => absurd h hf) fun h => absurd h hs⟩

theorem told_aborting (hk : e.Kept e') (hr : e'.abortReason = e.abortReason)
    (ha : e'.abortRequested = e.abortRequested) (hs : e'.state = .aborting)
    (h : ¬e.authorized ∨ e.abortRequested) : Told flash layout e s e' :=
  ⟨hk, .onward hr ha (fun hf => by rw [hs] at hf; cases hf) fun _ _ =>
    h.imp Bool.eq_false_iff.mpr id⟩

theorem told_fail {e₁ : Engine} {r : Status} (hk : e.Kept e₁) (h : ¬(¬e.authorized ∨ e.abortRequested))
    (hs : e.state ≠ .aborting) (hr : e.reader.Honest → r ≠ .ok) : Told flash layout e s (e₁.fail r) := by
  simp only [not_or, Bool.not_eq_true, Bool.not_eq_false] at h
  exact ⟨{ hk with }, .failing h.1 h.2 hs rfl rfl hr⟩

theorem told_stepResting (hrest : e.resting = true) :
    Wp (e.stepResting flash layout) (fun _ => True) (fun e' _ => Told flash layout e s e') s := by
  have hne : e.state ≠ .aborting := by
    rintro hs
    simp [resting, hs] at hrest
  refine Wp.ite (fun hreq => ?_) fun hreq => ?_
  · refine Wp.bind wp_record_same ?_
    rintro ⟨result, e₁⟩ s₁ ⟨hrun, hsame⟩
    simp only at hsame
    have hk : e.Kept e₁ := by
      rw [hsame]
      exact ⟨rfl, rfl, rfl, rfl, fun h => absurd h Bool.false_ne_true, rfl, id⟩
    refine Wp.ite (fun _ => Wp.pure ?_) fun hr => Wp.pure ⟨{ hk with }, .refused ?_ rfl⟩
    · refine told_onward { hk with } ?_ ?_ (by simp) (by simp)
      · rw [hsame]
        rfl
      · rw [hsame]
        rfl
    · refine ⟨hr, ?_⟩
      split
      · next hs => simp [resting, hs] at hrest
      · next hs => exact absurd hs hne
      · exact ⟨e₁, s₁, hrun⟩
  · refine Wp.ite (fun _ => Wp.pure ?_) fun _ => Wp.ite (fun _ => Wp.pure ?_) fun _ => Wp.pure ?_
    · exact told_onward { Kept.refl e with } rfl rfl (by simp) (by simp)
    · exact told_onward { Kept.refl e with } rfl rfl (by simp) (by simp)
    · refine ⟨.refl e, .onward rfl rfl (fun hf => ⟨hf, ?_⟩) fun h => absurd h hne⟩
      exact active_eq_false.mpr ⟨Bool.eq_false_iff.mpr hreq, hrest⟩

theorem told_stepInvalidating (hs : e.state = .invalidating) :
    Wp (e.stepInvalidating flash layout) (fun _ => True) (fun e' _ => Told flash layout e s e') s := by
  refine Wp.bind Wp.trivial.ran fun j s₁ ⟨hrun, _⟩ => ?_
  refine Wp.ite (fun h => Wp.pure ?_) fun h => ?_
  · exact told_aborting { Kept.refl e with } rfl rfl rfl h
  refine Wp.ite (fun _ => Wp.pure ?_) fun _ => Wp.ite (fun hr => Wp.pure ?_) fun _ => ?_
  · exact told_onward { Kept.refl e with } rfl rfl (by simp [hs]) (by simp [hs])
  · refine ⟨{ Kept.refl e with }, .refused ⟨hr, ?_⟩ rfl⟩
    rw [hs]
    exact ⟨j, s₁, hrun, rfl⟩
  · refine Wp.bind Wp.trivial fun now s₂ _ => Wp.pure ?_
    refine told_onward ⟨rfl, rfl, rfl, rfl, id, rfl, fun h => ?_⟩ rfl rfl (by simp) (by simp)
    exact PackageReader.Honest.tick (r := e.reader.start e.header e.destination) h []

theorem told_stepReceiving (hs : e.state = .receiving) :
    Wp (e.stepReceiving flash layout) (fun _ => True) (fun e' _ => Told flash layout e s e') s := by
  refine Wp.ite (fun h => Wp.pure ?_) fun h => ?_
  · exact told_aborting { Kept.refl e with } rfl rfl rfl h
  -- The parser is ticked, and the chunk may be used up.
  have hused : Wp (e.feed.used flash) (fun _ => True) (fun e₁ _ => e.Kept e₁ ∧ (e.reader.Honest → e₁.reader.Honest) ∧
      e₁.abortReason = e.abortReason ∧ e₁.abortRequested = e.abortRequested ∧
      e₁.state = .receiving) s := by
    have hreader (hh : e.reader.Honest) : (e.reader.tick (e.rx.drop e.rxAt)).2.Honest := hh.tick _
    refine Wp.ite (fun _ => Wp.bind Wp.trivial fun now s₁ _ => Wp.pure ?_) fun _ => Wp.pure ?_
    · exact ⟨⟨rfl, rfl, rfl, rfl, id, rfl, hreader⟩, hreader, rfl, rfl, hs⟩
    · exact ⟨⟨rfl, rfl, rfl, rfl, id, rfl, hreader⟩, hreader, rfl, rfl, hs⟩
  have hne : e.state ≠ .aborting := by simp [hs]
  refine Wp.bind hused ?_
  rintro e₁ s₁ ⟨hk, hh₁, hr₁, ha₁, hs₁⟩
  have hstay : Told flash layout e s e₁ := told_onward hk hr₁ ha₁ (by simp [hs₁]) (by simp [hs₁])
  refine Wp.ite (fun hf => Wp.pure ?_) fun _ => Wp.ite (fun _ => ?_) fun _ => ?_
  · refine told_fail hk h hne fun hh => ?_
    rw [hh₁ hh hf]
    decide
  · refine Wp.bind Wp.trivial ?_
    rintro ⟨result, writer⟩ s₂ -
    refine Wp.ite (fun _ => Wp.pure ?_) fun hr => Wp.pure (told_fail { hk with } h hne fun _ => hr)
    exact told_onward { hk with } hr₁ ha₁ (by simp) (by simp)
  refine Wp.ite (fun _ => ?_) fun _ => ?_
  · refine Wp.ite (fun _ => Wp.pure (told_fail hk h hne fun _ => by decide)) fun _ => Wp.pure ?_
    exact told_onward { hk with } hr₁ ha₁ (by simp) (by simp)
  refine Wp.ite (fun _ => Wp.pure (told_fail hk h hne fun _ => by decide)) fun _ => ?_
  refine Wp.ite (fun _ => Wp.bind Wp.trivial fun now s₂ _ => ?_) fun _ => Wp.pure hstay
  exact Wp.ite (fun _ => Wp.pure (told_fail hk h hne fun _ => by decide)) fun _ => Wp.pure hstay

theorem told_stepWriting (hs : e.state = .writing) :
    Wp (e.stepWriting flash layout) (fun _ => True) (fun e' _ => Told flash layout e s e') s := by
  refine Wp.ite (fun h => Wp.pure ?_) fun h => ?_
  · exact told_aborting { Kept.refl e with } rfl rfl rfl h
  have hne : e.state ≠ .aborting := by simp [hs]
  refine Wp.bind Wp.trivial fun writer s₁ _ => ?_
  refine Wp.ite (fun _ => Wp.pure ?_) fun _ => Wp.ite (fun hr => Wp.pure ?_) fun _ => ?_
  · exact told_onward { Kept.refl e with } rfl rfl (by simp [hs]) (by simp [hs])
  · exact told_fail { Kept.refl e with } h hne fun _ => hr
  · refine Wp.bind Wp.trivial fun now s₂ _ => Wp.pure ?_
    exact told_onward { Kept.refl e with } rfl rfl (by simp) (by simp)

theorem told_stepVerifying (hs : e.state = .verifying) :
    Wp (e.stepVerifying flash layout) (fun _ => True) (fun e' _ => Told flash layout e s e') s := by
  refine Wp.ite (fun h => Wp.pure ?_) fun h => ?_
  · exact told_aborting { Kept.refl e with } rfl rfl rfl h
  have hne : e.state ≠ .aborting := by simp [hs]
  refine Wp.bind Wp.trivial ?_
  rintro ⟨result, bytes⟩ s₁ -
  refine Wp.ite (fun hr => Wp.pure (told_fail (.refl e) h hne fun _ => hr)) fun _ => ?_
  refine Wp.ite (fun _ => ?_) fun _ => Wp.pure ?_
  · refine Wp.ite (fun _ => Wp.pure (told_fail { Kept.refl e with } h hne fun _ => by decide)) fun _ => ?_
    refine Wp.bind wp_load_same ?_
    rintro ⟨result, e₁⟩ s₂ ⟨-, hsame⟩
    simp only at hsame
    have hk : e.Kept e₁ := by
      rw [hsame]
      exact ⟨rfl, rfl, rfl, rfl, id, rfl, id⟩
    refine Wp.ite (fun hr => Wp.pure (told_fail hk h hne fun _ => hr)) fun _ => ?_
    refine Wp.ite (fun _ => Wp.pure (told_fail hk h hne fun _ => by decide)) fun _ => ?_
    refine Wp.bind wp_record_same ?_
    rintro ⟨result, e₂⟩ s₃ ⟨-, hsame₂⟩
    simp only at hsame₂
    have hk₂ : e.Kept e₂ := by
      rw [hsame₂, hsame]
      exact ⟨rfl, rfl, rfl, rfl, id, rfl, id⟩
    refine Wp.ite (fun _ => Wp.pure ?_) fun hr => Wp.pure (told_fail hk₂ h hne fun _ => hr)
    refine told_onward { hk₂ with } ?_ ?_ (by simp) (by simp)
    · rw [hsame₂, hsame]
      rfl
    · rw [hsame₂, hsame]
      rfl
  · exact told_onward { Kept.refl e with } rfl rfl (by simp [hs]) (by simp [hs])

theorem told_stepCommitting (hs : e.state = .committing) :
    Wp (e.stepCommitting flash layout) (fun _ => True) (fun e' _ => Told flash layout e s e') s := by
  refine Wp.bind Wp.trivial fun j s₁ _ => ?_
  refine Wp.ite (fun h => Wp.pure ?_) fun h => ?_
  · exact told_aborting { Kept.refl e with } rfl rfl rfl h
  refine Wp.ite (fun _ => Wp.pure ?_) fun _ => Wp.ite (fun _ => Wp.pure ?_) fun hr => Wp.pure ?_
  · exact told_onward { Kept.refl e with } rfl rfl (by simp [hs]) (by simp [hs])
  · exact told_onward { Kept.refl e with } rfl rfl (by simp) (by simp)
  · exact told_fail { Kept.refl e with } h (by simp [hs]) fun _ => hr

theorem told_stepAborting (hs : e.state = .aborting) :
    Wp (e.stepAborting flash layout) (fun _ => True) (fun e' _ => Told flash layout e s e') s := by
  have hon : ∀ {e₁ : Engine}, e.Kept e₁ → e₁.abortReason = e.abortReason →
      e₁.abortRequested = e.abortRequested → e₁.state = .aborting → Told flash layout e s e₁ :=
    fun hk hr ha hs₁ => ⟨hk, .onward hr ha (fun hf => by rw [hs₁] at hf; cases hf) fun _ h => absurd hs h⟩
  refine Wp.ite (fun _ => ?_) fun _ => Wp.ite (fun _ => ?_) fun _ => ?_
  · exact Wp.bind Wp.trivial fun w s₁ _ => Wp.pure (hon { Kept.refl e with } rfl rfl hs)
  · exact Wp.bind Wp.trivial fun j s₁ _ => Wp.pure (hon { Kept.refl e with } rfl rfl hs)
  refine Wp.bind Wp.trivial.ran fun p s₁ ⟨hpoll, _⟩ => ?_
  refine Wp.ite (fun _ => Wp.pure (hon (.refl e) rfl rfl hs)) fun _ => ?_
  refine Wp.bind wp_load_same ?_
  rintro ⟨result, e₁⟩ s₂ ⟨hload, hsame⟩
  simp only at hsame
  have hk : e.Kept e₁ := by
    rw [hsame]
    exact ⟨rfl, rfl, rfl, rfl, id, rfl, id⟩
  have hreason : e₁.abortReason = e.abortReason := by rw [hsame]
  refine Wp.ite (fun hpend => ?_) fun hpend => Wp.pure ?_
  · refine Wp.bind wp_record_same ?_
    rintro ⟨result₂, e₂⟩ s₃ ⟨hrec, hsame₂⟩
    simp only at hsame₂
    have hk₂ : e.Kept e₂ := by
      rw [hsame₂]
      exact { hk with }
    refine Wp.ite (fun _ => Wp.pure (hon hk₂ ?_ ?_ ?_)) fun hr => Wp.pure ⟨{ hk₂ with }, .refused ?_ rfl⟩
    · rw [hsame₂]
      exact hreason
    · rw [hsame₂, hsame]
      rfl
    · rw [hsame₂, hsame]
      exact hs
    · have hstatus : (e₂.failed result₂).status = result₂ := if_neg hr
      rw [hstatus]
      refine ⟨hr, ?_⟩
      rw [hs]
      refine ⟨p, s₁, result, e₁, s₂, hpoll, hload, .inr ⟨hpend.1, hpend.2, e₂, s₃, hrec⟩⟩
  · by_cases hr : result = .ok
    · subst hr
      refine ⟨{ hk with }, .ended hs ?_ rfl hreason⟩
      -- The load has answered ok and the destination is not pending, so no journal call has failed.
      rintro r ⟨hne, hfails⟩
      rw [hs] at hfails
      obtain ⟨p', s₁', r₁, e₁', s₂', hpoll', hload', hor⟩ := hfails
      obtain ⟨-, rfl⟩ := Prod.mk.inj (hpoll.symm.trans hpoll')
      obtain ⟨heq, -⟩ := Prod.mk.inj (hload.symm.trans hload')
      obtain ⟨rfl, rfl⟩ := Prod.mk.inj (Option.some.inj heq)
      rcases hor with rfl | ⟨-, hp, -⟩
      · exact hne rfl
      · exact hpend ⟨rfl, hp⟩
    · refine ⟨{ hk with }, .refused ?_ rfl⟩
      have hstatus : (e₁.failed result).status = result := if_neg hr
      rw [hstatus]
      refine ⟨hr, ?_⟩
      rw [hs]
      exact ⟨p, s₁, result, e₁, s₂, hpoll, hload, .inl rfl⟩

theorem tick_idle (h : e.active = false) :
    Wp (e.tick flash layout) (fun _ => True) (fun e' _ => e'.active = false) s := by
  obtain ⟨hreq, hrest⟩ := active_eq_false.mp h
  have hstep : Wp (e.stepResting flash layout) (fun _ => True) (fun e' _ => e'.active = false) s := by
    refine Wp.ite (fun hr => absurd hr (by simp [hreq])) fun _ => ?_
    refine Wp.ite (fun _ => Wp.pure ?_) fun _ => Wp.ite (fun _ => Wp.pure ?_) fun _ => Wp.pure h
    · exact active_eq_false.mpr ⟨hreq, rfl⟩
    · exact active_eq_false.mpr ⟨hreq, rfl⟩
  unfold tick step
  cases hs : e.state <;> first | exact hstep | simp [resting, hs] at hrest

/-- **What a tick can do**, whatever the flash answers. -/
theorem told_tick :
    Wp (e.tick flash layout) (fun _ => True) (fun e' _ => Told flash layout e s e') s := by
  unfold tick step
  cases hs : e.state with
  | disabled | idle | done | failed => exact told_stepResting (by simp [resting, hs])
  | invalidating => exact told_stepInvalidating hs
  | receiving => exact told_stepReceiving hs
  | writing => exact told_stepWriting hs
  | verifying => exact told_stepVerifying hs
  | committing => exact told_stepCommitting hs
  | aborting => exact told_stepAborting hs

theorem tick_unrequested (h : e.resting = false → e.requested = false) :
    Wp (e.tick flash layout) (fun _ => True) (fun e' _ => e'.requested = false) s := by
  have hkept (hreq : e.requested = false) : Wp (e.tick flash layout) (fun _ => True)
      (fun e' _ => e'.requested = false) s :=
    told_tick.conseq fun e' _ ht => Bool.eq_false_iff.mpr fun h' => by
      rw [ht.1.requested h'] at hreq
      cases hreq
  cases hrest : e.resting with
  | false => exact hkept (h hrest)
  | true =>
    cases hreq : e.requested with
    | false => exact hkept hreq
    | true =>
      have hstep : Wp (e.stepResting flash layout) (fun _ => True) (fun e' _ => e'.requested = false) s := by
        refine Wp.ite (fun _ => Wp.bind wp_record_same ?_) fun hno => absurd hreq hno
        rintro ⟨result, e₁⟩ s₁ ⟨-, hsame⟩
        have hreq₁ : e₁.requested = false := by
          simp only at hsame
          rw [hsame]
          rfl
        exact Wp.ite (fun _ => Wp.pure hreq₁) fun _ => Wp.pure hreq₁
      unfold tick step
      cases hs : e.state <;> first | exact hstep | simp [resting, hs] at hrest

end flash

end Engine

end DaveOs.Update
