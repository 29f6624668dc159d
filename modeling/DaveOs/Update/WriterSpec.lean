import DaveOs.Boot.Guarded
import DaveOs.Update.Writer

/-!
# What the slot writer touches

A busy writer erases and programs inside its slot only (`Writer.wp_tick`), whatever the flash
answers; when it has ended well nothing is in progress.
-/

namespace DaveOs.Update

open Boot Bytes Crash

/-- No operation of the writer is in progress. -/
structure Writer.Resting (w : Writer) : Prop where
  status : w.status ≠ .busy
  requested : w.requested = false
  state : w.state = .idle ∨ w.state = .done ∨ w.state = .failed

/-- The writer's block lies in slot `i`, written in whole units up to its last. -/
structure Writer.Block (layout : Layout) (i : Nat) (w : Writer) : Prop where
  base : w.base = layout.slot i
  aligned : w.offset % layout.unit = 0
  fits : w.offset + w.data.length ≤ layout.room
  written : w.written ≤ w.data.length
  units : w.written < w.data.length → w.written % layout.unit = 0

/-- The writer is at work in slot `i`: about to start an operation, or waiting for one. -/
inductive Writer.Busy (layout : Layout) (i : Nat) (w : Writer) (mem : Memory) : Prop
  | prepare (status : w.status = .busy) (block : w.Block layout i)
      (entering : w.requested = true ∧ (w.state = .idle ∨ w.state = .done ∨ w.state = .failed) ∨
        w.requested = false ∧ w.state = .prepare) (idle : mem.pending = none)
  | waiting (status : w.status = .busy) (block : w.Block layout i)
      (requested : w.requested = false) (state : w.state = .eraseWait ∨ w.state = .programWait)

/-- Outside slot `i` the cells are `cells₀` and no operation is in progress. -/
structure SlotConfined (layout : Layout) (i : Nat) (cells₀ : Cells) (mem : Memory) : Prop where
  cells : ∀ x, ¬layout.InSlot i x → mem.cells x = cells₀ x
  pending : ∀ op, mem.pending = some op → ∀ x, op.Covers layout x → layout.InSlot i x

section confined

variable {layout : Layout} {i : Nat} {cells₀ : Cells} {mem mem' : Memory}

theorem SlotConfined.settle (h : SlotConfined layout i cells₀ mem) (hp : mem'.pending = none)
    (ho : Outcome layout mem mem'.cells) : SlotConfined layout i cells₀ mem' where
  cells x hx := by
    unfold Outcome at ho
    split at ho
    · rw [ho, h.cells x hx]
    · next op hop => rw [ho.outside x fun hc => hx (h.pending op hop x hc), h.cells x hx]
  pending op hop := by
    rw [hp] at hop
    cases hop

theorem SlotConfined.start (h : SlotConfined layout i cells₀ mem) {op : Operation}
    (hop : ∀ x, op.Covers layout x → layout.InSlot i x) :
    SlotConfined layout i cells₀ { mem with pending := some op } where
  cells := h.cells
  pending op' h' := by
    obtain rfl := Option.some.inj h'
    exact hop

theorem SlotConfined.of_idle (hp : mem.pending = none) : SlotConfined layout i mem.cells mem :=
  ⟨fun _ _ => rfl, fun op hop => by rw [hp] at hop; cases hop⟩

end confined

section writer

variable {m : Medium} {executing : Option Nat} {d : Device m} {w : Writer} {i : Nat}
  {cells₀ : Cells} (hl : m.layout.Valid)
variable {x : Nat} {r : Status} {mem : Memory}

theorem Writer.length_word (layout : Layout) : (w.word layout).length = layout.unit := by
  have hle : w.count layout ≤ w.data.length - w.written := Nat.min_le_right _ _
  have hle' : w.count layout ≤ layout.unit := Nat.min_le_left _ _
  rw [Writer.word, List.length_append, List.length_take, List.length_drop, List.length_replicate]
  omega

include hl

theorem Writer.Block.erase_inside (h : w.Block m.layout i) (hw : w.written < w.data.length)
    (hx : (Operation.erase
      (w.base + (w.position - w.position % m.layout.sector))).Covers m.layout x) :
    m.layout.InSlot i x := by
  have hroom := hl.room_dvd
  have hpos := hl.sector_pos
  have hfits := h.fits
  have hlt : w.position < m.layout.room := by
    unfold Writer.position
    omega
  obtain ⟨q, hq⟩ := Nat.dvd_of_mod_eq_zero hroom
  have hk : w.position / m.layout.sector < q := by
    refine Nat.lt_of_mul_lt_mul_left (a := m.layout.sector) ?_
    have := Nat.mul_div_le w.position m.layout.sector
    omega
  have hdiv := Nat.div_add_mod w.position m.layout.sector
  have hnext : m.layout.sector * (w.position / m.layout.sector) + m.layout.sector ≤
      m.layout.room := by
    rw [hq, ← Nat.mul_succ]
    exact Nat.mul_le_mul_left _ hk
  obtain ⟨h1, h2⟩ := hx
  simp only [Operation.pos, Operation.size, h.base] at h1 h2
  exact ⟨by omega, by omega⟩

theorem Writer.Block.program_inside (h : w.Block m.layout i) (hw : w.written < w.data.length)
    (hx : (Operation.program (w.base + w.position) (w.word m.layout)).Covers m.layout x) :
    m.layout.InSlot i x := by
  have hunits := h.units hw
  have haligned := h.aligned
  have hfits := h.fits
  have hroom : m.layout.room % m.layout.unit = 0 := by
    have h1 := hl.room_dvd
    have h2 := hl.record_dvd
    have h3 : m.layout.room % 256 = 0 :=
      Nat.mod_eq_zero_of_dvd
        (Nat.dvd_trans (Nat.dvd_of_mod_eq_zero h2) (Nat.dvd_of_mod_eq_zero h1))
    rcases hl.unit_eq with hu | hu <;> rw [hu] <;> omega
  have hend : w.position + m.layout.unit ≤ m.layout.room := by
    unfold Writer.position
    rcases hl.unit_eq with hu | hu <;> rw [hu] at hunits haligned hroom ⊢ <;> omega
  obtain ⟨h1, h2⟩ := hx
  simp only [Operation.pos, Operation.size, h.base, Writer.length_word] at h1 h2
  exact ⟨by omega, by omega⟩

omit hl in
theorem Writer.Block.advance (h : w.Block m.layout i) :
    ({ w with written := w.written + w.count m.layout } : Writer).Block m.layout i where
  base := h.base
  aligned := h.aligned
  fits := h.fits
  written := by
    have := h.written
    simp only [Writer.count]
    omega
  units hlt := by
    simp only [Writer.count] at hlt ⊢
    have hmin : min m.layout.unit (w.data.length - w.written) = m.layout.unit := by omega
    rw [hmin, Nat.add_mod_right]
    exact h.units (by omega)

omit hl

/-- The writer after a step: still at work in its slot, or ended. -/
abbrev Writer.Moved (m : Medium) (i : Nat) (cells₀ : Cells) (w : Writer) (d : Device m) : Prop :=
  SlotConfined m.layout i cells₀ d.toMemory ∧
    (w.Busy m.layout i d.toMemory ∨ w.Resting ∧ (w.status = .ok → d.pending = none))

abbrev Writer.Cut (m : Medium) (i : Nat) (cells₀ : Cells) (d : Device m) : Prop :=
  SlotConfined m.layout i cells₀ d.toMemory

theorem Writer.Cut.same {d' : Device m} (h : Writer.Cut m i cells₀ d)
    (hm : d'.toMemory = d.toMemory) : Writer.Cut m i cells₀ d' := by
  unfold Writer.Cut
  rw [hm]
  exact h

theorem Writer.moved_failed (hconf : Writer.Cut m i cells₀ d) (hreq : w.requested = false)
    (hr : r ≠ .ok) (hr' : r ≠ .busy) :
    Writer.Moved m i cells₀ { w with status := r, state := .failed } d :=
  ⟨hconf, .inr ⟨⟨hr', hreq, .inr (.inr rfl)⟩, fun h => absurd h hr⟩⟩

theorem Writer.moved_done (hconf : Writer.Cut m i cells₀ d) (hreq : w.requested = false)
    (hr : r ≠ .busy) (hidle : d.pending = none) :
    Writer.Moved m i cells₀ { w with status := r, state := .done } d :=
  ⟨hconf, .inr ⟨⟨hr, hreq, .inr (.inl rfl)⟩, fun _ => hidle⟩⟩

/-- Starting an operation inside the slot, as the state `prepare` does. -/
theorem Writer.wp_started {op : Operation} (hconf : Writer.Cut m i cells₀ d)
    (hidle : d.pending = none) (hop : ∀ x, op.Covers m.layout x → m.layout.InSlot i x)
    (hstatus : w.status = .busy) (hblock : w.Block m.layout i) (hreq : w.requested = false)
    (hstate : w.state = .eraseWait ∨ w.state = .programWait) :
    Wp (Device.start op >>= fun result => Writer.started (Device.flash executing) w result)
      (Writer.Cut m i cells₀) (Writer.Moved m i cells₀) d := by
  refine .seq (Device.wp_start hconf ?_ ?_ ?_)
  · intro d' _ hm
    have hconf' : Writer.Cut m i cells₀ d' := by
      unfold Writer.Cut
      rw [hm]
      exact hconf.start hop
    refine .seq (Device.wp_now hconf' fun t d₂ hm₂ => ?_)
    refine .ite (fun h => absurd rfl h) fun _ => .pure ⟨hconf'.same hm₂, .inl ?_⟩
    exact .waiting hstatus { hblock with } hreq hstate
  · exact fun d' hp _ => absurd hidle hp
  · intro e d' _ he hm
    have hconf' := hconf.same hm
    refine .seq (Device.wp_now hconf' fun t d₂ hm₂ => ?_)
    refine .ite (fun _ => .pure (Writer.moved_failed (hconf'.same hm₂) hreq ?_ ?_))
      fun h => absurd he h
    · split <;> first | exact he | decide
    · split <;> first | assumption | decide

/-- The end of a wait, by its result: only `timeout` leaves an operation in progress. -/
theorem Writer.moved_waited (hconf : Writer.Cut m i cells₀ d)
    (hr : r ≠ .busy → r ≠ .timeout → d.pending = none) (hstatus : w.status = .busy)
    (hblock : w.Block m.layout i) (hreq : w.requested = false)
    (hstate : w.state = .eraseWait ∨ w.state = .programWait) :
    Writer.Moved m i cells₀ (w.waited m.layout r) d := by
  unfold Writer.waited
  split
  · exact ⟨hconf, .inl (.waiting hstatus hblock hreq hstate)⟩
  next hb =>
  split
  · next ho => exact Writer.moved_failed hconf hreq ho hb
  next ho =>
  have hidle : d.pending = none := by
    obtain rfl : r = .ok := Decidable.not_not.mp ho
    exact hr hb (by decide)
  split
  · exact Writer.moved_done hconf hreq (by decide) hidle
  · refine ⟨hconf, .inl (.prepare hstatus ?_ (.inr ⟨hreq, rfl⟩) hidle)⟩
    split
    · exact { hblock.advance with }
    · exact { hblock with }

theorem Writer.wp_await (hconf : Writer.Cut m i cells₀ d) :
    Wp (w.await (Device.flash executing) m.layout) (Writer.Cut m i cells₀)
      (fun r d' => Writer.Cut m i cells₀ d' ∧ (r ≠ .busy → r ≠ .timeout → d'.pending = none)) d := by
  refine .seq (wp_settle hconf (fun d' _ hm => ?_) fun r d' hr hp ho => ?_)
  · refine .ite (fun _ => ?_) fun h => absurd rfl h
    refine .seq (Device.wp_now (hconf.same hm) fun t d₂ hm₂ => .pure ⟨?_, fun h h' => ?_⟩)
    · exact (hconf.same hm).same hm₂
    · split at h'
      · exact absurd rfl h'
      · next hlt => exact absurd (if_neg hlt) h
  · exact .ite (fun h => absurd h hr) fun _ => .pure ⟨hconf.settle hp ho, fun _ _ => hp⟩

/-- **The writer's ticks** stay in its slot, and a writer that has ended well leaves nothing in
progress. -/
theorem Writer.wp_tick (hl : m.layout.Valid) (h : w.Busy m.layout i d.toMemory)
    (hconf : Writer.Cut m i cells₀ d) :
    Wp (w.tick (Device.flash executing) m.layout) (Writer.Cut m i cells₀)
      (Writer.Moved m i cells₀) d := by
  unfold Writer.tick Writer.step
  cases h with
  | prepare status block entering idle =>
    rcases entering with ⟨hreq, hst⟩ | ⟨hreq, hst⟩
    · have henter : Wp (if w.requested then pure { w with requested := false, state := .prepare }
          else pure w) (Writer.Cut m i cells₀) (Writer.Moved m i cells₀) d :=
        .ite (fun _ => .pure ⟨hconf, .inl (.prepare status { block with }
          (.inr ⟨rfl, rfl⟩) idle)⟩) fun h => absurd hreq h
      rcases hst with hst | hst | hst <;> simp only [hst] <;> exact henter
    · simp only [hst]
      refine .ite (fun _ => .pure (Writer.moved_done hconf hreq (by decide) idle)) fun _ => ?_
      refine .ite (fun _ => .pure (Writer.moved_done hconf hreq (by decide) idle)) fun hw => ?_
      have hlt : w.written < w.data.length := by
        have := block.written
        omega
      refine .ite (fun _ => ?_) fun _ => ?_
      · exact Writer.wp_started hconf idle (fun x hx => block.erase_inside hl hlt hx) status
          { block with } hreq (.inl rfl)
      · exact Writer.wp_started hconf idle (fun x hx => block.program_inside hl hlt hx) status
          { block with } hreq (.inr rfl)
  | waiting status block requested state =>
    have hwait : Wp (w.await (Device.flash executing) m.layout >>= fun result =>
        pure (w.waited m.layout result)) (Writer.Cut m i cells₀) (Writer.Moved m i cells₀) d :=
      .bind (Writer.wp_await hconf) fun r d' ⟨hcut, hidle⟩ =>
        .pure (Writer.moved_waited hcut hidle status block requested state)
    rcases state with hst | hst <;> simp only [hst] <;> exact hwait

theorem Writer.wp_begin {offset : Nat} {data : Bytes} (h : w.Resting)
    (hidle : d.pending = none) :
    Wp (w.begin (Device.flash executing) m.layout i offset data)
      (fun d' => d'.toMemory = d.toMemory)
      (fun r d' => d'.toMemory = d.toMemory ∧
        (r.1 = .ok ∧ r.2.Busy m.layout i d'.toMemory ∨ r.1 ≠ .ok ∧ r.2 = w)) d := by
  refine .ite (fun hb => absurd hb h.status) fun _ => ?_
  refine .ite (fun _ => .pure ⟨rfl, .inr ⟨Status.noConfusion, rfl⟩⟩) fun hargs => ?_
  simp only [not_or, Nat.not_le, Decidable.not_not] at hargs
  obtain ⟨-, -, -, haligned, hoffset, hlen⟩ := hargs
  refine .seq (wp_settle rfl (fun d' hp _ => absurd hidle hp) fun r d' hr hp ho => ?_)
  have hm := outcome_same hidle hp ho
  refine .ite (fun hb => absurd hb hr) fun _ => .pure ⟨hm, .inl ⟨rfl, ?_⟩⟩
  refine .prepare rfl ⟨rfl, haligned, ?_, Nat.zero_le _, fun _ => Nat.zero_mod _⟩
    (.inl ⟨rfl, h.state⟩) hp
  simp only
  omega

theorem Writer.Busy.cancel (h : w.Busy m.layout i mem) : w.cancel.Busy m.layout i mem := by
  cases h with
  | prepare status block entering idle => exact .prepare status { block with } entering idle
  | waiting status block requested state => exact .waiting status { block with } requested state

theorem Writer.Busy.status_eq {layout : Layout} (h : w.Busy layout i mem) : w.status = .busy := by
  cases h with
  | prepare status | waiting status => exact status

end writer

end DaveOs.Update
