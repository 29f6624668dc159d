import DaveOs.Boot.Journal

/-!
# One step of the journal's machine

`Journal.Stepped` has a case for everything that a step can do, with the call it makes and the answer to it.
What a step keeps on any flash is read off these cases, so that only `step_spec` follows the code.
-/

namespace DaveOs.Boot

open Crash Bytes

/-- The states in which an operation is being worked on. -/
def working : List JournalState := [.erase, .eraseWait, .write, .writeWait, .verify]

/-- No call of the driver is cut short. -/
structure Flash.Answers {σ : Type} (flash : Flash σ) : Prop where
  read : ∀ pos n s, (flash.read pos n s).1 ≠ none
  erase : ∀ pos s, (flash.erase pos s).1 ≠ none
  program : ∀ pos data s, (flash.program pos data s).1 ≠ none
  poll : ∀ s, (flash.poll s).1 ≠ none
  now : ∀ s, (flash.now s).1 ≠ none

namespace Journal

variable {σ : Type} (flash : Flash σ) (layout : Layout)

/-- What a step does. -/
inductive Stepped (j : Journal) (s : σ) : Journal → σ → Prop
  | rest (hs : j.state ∉ working) (hreq : j.requested = false) : Stepped j s j s
  | request (hs : j.state ∉ working) (hreq : j.requested = true) : Stepped j s
      { j with requested := false, state := if j.eraseNeeded then .erase else .write } s
  | late (hs : j.state = .erase ∨ j.state = .write) (ht : j.timedOut = true) :
      Stepped j s { j with status := .timeout, state := .failed } s
  | notErased {r : Status} {s' : σ} (hs : j.state = .erase) (ht : j.timedOut = false) (hr : r ≠ .ok)
      (run : flash.erase j.target s = (some r, s')) :
      Stepped j s { j with status := if r = .busy then .ioError else r, state := .failed } s'
  | erase {s' : σ} (hs : j.state = .erase) (ht : j.timedOut = false)
      (run : flash.erase j.target s = (some .ok, s')) : Stepped j s { j with state := .eraseWait } s'
  | notProgrammed {r : Status} {s' : σ} (hs : j.state = .write) (ht : j.timedOut = false) (hr : r ≠ .ok)
      (run : flash.program (j.target + j.offset) (slice j.record j.offset layout.unit) s = (some r, s')) :
      Stepped j s { j with status := if r = .busy then .ioError else r, state := .failed } s'
  | program {s' : σ} (hs : j.state = .write) (ht : j.timedOut = false)
      (run : flash.program (j.target + j.offset) (slice j.record j.offset layout.unit) s = (some .ok, s')) :
      Stepped j s { j with state := .writeWait } s'
  | wait {s' : σ} (hs : j.state = .eraseWait ∨ j.state = .writeWait) (ht : j.timedOut = false)
      (run : flash.poll s = (some .busy, s')) : Stepped j s j s'
  | lapsed {r : Status} {s' : σ} (hs : j.state = .eraseWait ∨ j.state = .writeWait)
      (hr : j.timedOut = true ∨ r ≠ .ok ∧ r ≠ .busy) (run : flash.poll s = (some r, s')) :
      Stepped j s { j with status := if j.timedOut then .timeout else r, state := .failed } s'
  | erasedOnly {s' : σ} (hs : j.state = .eraseWait) (ht : j.timedOut = false) (ho : j.eraseOnly = true)
      (run : flash.poll s = (some .ok, s')) : Stepped j s { j with status := .ok, state := .done } s'
  | erased {s' : σ} (hs : j.state = .eraseWait) (ht : j.timedOut = false) (ho : j.eraseOnly = false)
      (run : flash.poll s = (some .ok, s')) : Stepped j s { j with state := .write } s'
  | written {s' : σ} (hs : j.state = .writeWait) (ht : j.timedOut = false)
      (run : flash.poll s = (some .ok, s')) : Stepped j s
      { j with
        offset := j.offset + layout.unit
        state := if j.offset + layout.unit = j.record.length then .verify else .write } s'
  | misread {r : Status} {bytes : Bytes} {s' : σ} (hs : j.state = .verify) (hr : r ≠ .ok)
      (run : flash.read j.target kRecordSize s = (some (r, bytes), s')) :
      Stepped j s { j with status := r, state := .failed } s'
  | mismatch {bytes : Bytes} {s' : σ} (hs : j.state = .verify) (hb : bytes ≠ j.record)
      (run : flash.read j.target kRecordSize s = (some (.ok, bytes), s')) :
      Stepped j s { j with status := .checksumError, state := .failed } s'
  | chain {s' : σ} (hs : j.state = .verify) (hc : j.checkpoint = true)
      (run : flash.read j.target kRecordSize s = (some (.ok, j.record), s')) : Stepped j s
      { j with
        record := j.pendingRecord, target := j.pendingTarget, offset := 0, checkpoint := false,
        status := .busy, state := .erase } s'
  | verified {s' : σ} (hs : j.state = .verify) (hc : j.checkpoint = false)
      (run : flash.read j.target kRecordSize s = (some (.ok, j.record), s')) :
      Stepped j s { j with status := .ok, state := .done } s'

/-- What `watch` does. -/
inductive Watched (j : Journal) (s : σ) : Journal → σ → Prop
  | idle (hreq : j.requested = false) (hfree : j.status ≠ .busy) : Watched j s j s
  | starts {t : Time} {s' : σ} (hreq : j.requested = true) (run : flash.now s = (some t, s')) :
      Watched j s { j with operationStarted := t } s'
  | looks {t : Time} {s' : σ} (hreq : j.requested = false) (hbusy : j.status = .busy)
      (run : flash.now s = (some t, s')) : Watched j s
      { j with timedOut := j.timedOut || decide (t - j.operationStarted ≥ layout.operationTimeout) } s'

variable {flash layout} {j j' : Journal} {s s' : σ}

theorem wp_call {α : Type} {x : Crash σ α} (h : flash.Answers → (x s).1 ≠ none) :
    Wp x (fun _ => ¬flash.Answers) (fun a s' => x s = (some a, s')) s :=
  Wp.run.mono (fun _ hx ha => h ha (by rw [hx])) fun _ _ hx => hx

theorem step_spec : Wp (j.step flash layout) (fun _ => ¬flash.Answers) (Stepped flash layout j s) s := by
  -- The states at rest, and the two that wait, share their code.
  have hrest (hs : j.state ∉ working) : Wp (if j.requested then
        pure { j with requested := false, state := if j.eraseNeeded then .erase else .write }
      else pure j) (fun _ => ¬flash.Answers) (Stepped flash layout j s) s :=
    .ite (fun hreq => .pure (.request hs hreq)) fun hreq =>
      .pure (.rest hs (Bool.eq_false_iff.mpr hreq))
  have hwait {next : Crash σ Journal} (hs : j.state = .eraseWait ∨ j.state = .writeWait)
      (hnext : ∀ s', j.timedOut = false → flash.poll s = (some .ok, s') →
        Wp next (fun _ => ¬flash.Answers) (Stepped flash layout j s) s') :
      Wp (do
        let result ← flash.poll
        if result = .busy ∧ ¬j.timedOut then pure j
        else if result ≠ .ok ∨ j.timedOut then
          pure { j with status := if j.timedOut then .timeout else result, state := .failed }
        else next) (fun _ => ¬flash.Answers) (Stepped flash layout j s) s := by
    refine .bind (wp_call fun h => h.poll s) fun r s' run => ?_
    refine .ite (fun hb => .pure ?_) fun hb => .ite (fun hr => .pure (.lapsed hs ?_ run)) fun hr => ?_
    · obtain ⟨rfl, ht⟩ := hb
      exact .wait hs (Bool.eq_false_iff.mpr ht) run
    · by_cases ht : j.timedOut = true
      · exact .inl ht
      · exact .inr ⟨hr.resolve_right ht, fun hbusy => hb ⟨hbusy, ht⟩⟩
    · obtain ⟨hok, ht⟩ := not_or.mp hr
      obtain rfl := Decidable.not_not.mp hok
      exact hnext s' (Bool.eq_false_iff.mpr ht) run
  unfold step
  split
  · next hs => exact hrest (by rw [hs]; decide)
  · next hs => exact hrest (by rw [hs]; decide)
  · next hs => exact hrest (by rw [hs]; decide)
  · next hs =>
    refine .ite (fun ht => .pure (.late (.inl hs) ht)) fun ht => ?_
    have ht := Bool.eq_false_iff.mpr ht
    refine .bind (wp_call fun h => h.erase _ s) fun r s' run => ?_
    refine .ite (fun hr => .pure (.notErased hs ht hr run)) fun hr => .pure ?_
    obtain rfl := Decidable.not_not.mp hr
    exact .erase hs ht run
  · next hs =>
    refine hwait (.inl hs) fun s' ht run => .ite (fun ho => .pure ?_) fun ho => .pure ?_
    · exact .erasedOnly hs ht ho run
    · exact .erased hs ht (Bool.eq_false_iff.mpr ho) run
  · next hs => exact hwait (.inr hs) fun s' ht run => .pure (.written hs ht run)
  · next hs =>
    refine .ite (fun ht => .pure (.late (.inr hs) ht)) fun ht => ?_
    have ht := Bool.eq_false_iff.mpr ht
    refine .bind (wp_call fun h => h.program _ _ s) fun r s' run => ?_
    refine .ite (fun hr => .pure (.notProgrammed hs ht hr run)) fun hr => .pure ?_
    obtain rfl := Decidable.not_not.mp hr
    exact .program hs ht run
  · next hs =>
    refine .bind (wp_call fun h => h.read _ _ s) ?_
    rintro ⟨r, bytes⟩ s' run
    refine .ite (fun hr => .pure (.misread hs hr run)) fun hr => ?_
    obtain rfl := Decidable.not_not.mp hr
    refine .ite (fun hb => .pure (.mismatch hs hb run)) fun hb => ?_
    obtain rfl := Decidable.not_not.mp hb
    refine .ite (fun hc => .pure (.chain hs hc run)) fun hc => .pure ?_
    exact .verified hs (Bool.eq_false_iff.mpr hc) run

theorem watch_spec : Wp (j.watch flash layout) (fun _ => ¬flash.Answers) (Watched flash layout j s) s := by
  refine .ite (fun hreq => ?_) fun hreq => .ite (fun hbusy => ?_) fun hfree => .pure ?_
  · exact .bind (wp_call fun h => h.now s) fun t s' run => .pure (.starts hreq run)
  · refine .bind (wp_call fun h => h.now s) fun t s' run => .pure ?_
    have hlooks : Watched flash layout _ _ _ _ := .looks (Bool.eq_false_iff.mpr hreq) hbusy run
    split
    · next hlate => simpa [hlate] using hlooks
    · next hearly => simpa [hearly] using hlooks
  · exact .idle (Bool.eq_false_iff.mpr hreq) hfree

theorem tick_spec : Wp (j.tick flash layout) (fun _ => ¬flash.Answers)
    (fun j' s' => ∃ j₁ s₁, Watched flash layout j s j₁ s₁ ∧ Stepped flash layout j₁ s₁ j' s') s :=
  .bind watch_spec fun j₁ s₁ hw => step_spec.conseq fun _ _ h => ⟨j₁, s₁, hw, h⟩

/-- A machine at rest takes up the request. -/
theorem Stepped.resting (h : Stepped flash layout j s j' s') (hs : j.state ∉ working) :
    j.requested = false ∧ j' = j ∧ s' = s ∨ j.requested = true ∧
      j' = { j with requested := false, state := if j.eraseNeeded then .erase else .write } ∧ s' = s := by
  cases h with
  | rest _ hreq => exact .inl ⟨hreq, rfl, rfl⟩
  | request _ hreq => exact .inr ⟨hreq, rfl, rfl⟩
  | late hw | wait hw | lapsed hw => rcases hw with hw | hw <;> simp [hw, working] at hs
  | _ => simp_all [working]

/-- The machine starts no clock, and a request is taken up by its next step. -/
theorem Stepped.kept (h : Stepped flash layout j s j' s') (hw : j.state ∈ working → j.requested = false) :
    j'.operationStarted = j.operationStarted ∧ j'.timedOut = j.timedOut ∧ j'.requested = false := by
  by_cases hs : j.state ∈ working
  · have hreq := hw hs
    cases h <;> exact ⟨rfl, rfl, by first | exact hreq | rfl⟩
  · rcases h.resting hs with ⟨hreq, rfl, -⟩ | ⟨-, rfl, -⟩
    · exact ⟨rfl, rfl, hreq⟩
    · exact ⟨rfl, rfl, rfl⟩

/-- Only the clock and the deadline are touched. -/
theorem Watched.same (h : Watched flash layout j s j' s') :
    j' = { j with operationStarted := j'.operationStarted, timedOut := j'.timedOut } := by
  cases h <;> rfl

end Journal

end DaveOs.Boot
