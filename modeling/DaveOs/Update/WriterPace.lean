import DaveOs.Boot.JournalPace
import DaveOs.Update.Writer

/-!
# The steps of the slot writer

What a tick of the writer can do on a flash that may answer anything (`Writer.Turn`), with what it adds to the
log. From that: the status is `busy` exactly while there is something to do, and every tick of a busy writer
brings it a step closer to the end or is answered with `busy` by the poll.
-/

namespace DaveOs.Update

open Boot Crash

namespace Writer

variable {replies : Nat → Reply} {fuel : Nat} {executing : Option Nat} {layout : Layout} {w w' : Writer} {p : Probe}
  {log log' : List Access}
variable {r : Status} {wait : WriterState} {slot offset : Nat} {data : Bytes} {t : WriterState}

abbrev resting : List WriterState := [.idle, .done, .failed]

abbrev working : List WriterState := [.prepare, .eraseWait, .programWait]

theorem working_not_resting : ∀ s ∈ working, s ∉ resting := by decide

def sectorAt (layout : Layout) (w : Writer) : Nat := w.position - w.position % layout.sector

/-- The writer after starting an operation: refused, or waiting for it. -/
def begun (w : Writer) (r : Status) (t : Time) (wait : WriterState) : Writer :=
  if r = .ok then { w with operationStarted := t, state := wait }
  else { w with operationStarted := t, status := if r = .busy then .ioError else r, state := .failed }

inductive Turn (layout : Layout) (w : Writer) (log : List Access) : Writer → List Access → Prop
  | rest (state : w.state ∈ resting) (idle : w.requested = false) : Turn layout w log w log
  | enter (state : w.state ∈ resting) (asked : w.requested = true) :
      Turn layout w log { w with requested := false, state := .prepare } log
  | reject (state : w.state = .prepare) (cancelled : w.cancelled = true) :
      Turn layout w log { w with status := .rejected, state := .done } log
  | complete (state : w.state = .prepare) (going : w.cancelled = false) (all : w.written = w.data.length) :
      Turn layout w log { w with status := .ok, state := .done } log
  | erase (state : w.state = .prepare) (going : w.cancelled = false) (some : w.written ≠ w.data.length)
      (due : w.erasedUntil ≤ w.position) (r : Status) (t : Time) :
      Turn layout w log ({ w with erasedUntil := w.sectorAt layout + layout.sector }.begun r t .eraseWait)
        (.now t :: .erase (w.base + w.sectorAt layout) r :: log)
  | program (state : w.state = .prepare) (going : w.cancelled = false) (some : w.written ≠ w.data.length)
      (erased : w.position < w.erasedUntil) (r : Status) (t : Time) :
      Turn layout w log (w.begun r t .programWait)
        (.now t :: .program (w.base + w.position) (w.word layout) r :: log)
  | wait (state : w.state ∈ [.eraseWait, .programWait]) (t : Time)
      (early : t - w.operationStarted < layout.operationTimeout) : Turn layout w log w (.now t :: .poll .busy :: log)
  | timeout (state : w.state ∈ [.eraseWait, .programWait]) (t : Time) :
      Turn layout w log { w with status := .timeout, state := .failed } (.now t :: .poll .busy :: log)
  | polled (state : w.state ∈ [.eraseWait, .programWait]) (r : Status) (ended : r ≠ .busy) :
      Turn layout w log (w.waited layout r) (.poll r :: log)

theorem started_begun (hs : w.state = wait) :
    Wp (started (Probe.flash replies fuel executing) w r) (fun _ => False)
      (fun w' p' => ∃ t, w' = w.begun r t wait ∧ p'.log = .now t :: p.log) p := by
  refine .bind (Probe.wp_now (Q := fun t p' => p'.log = .now t :: p.log) rfl) fun t p₁ hlog => ?_
  refine .ite (fun hr => .pure ⟨t, ?_, hlog⟩) fun hr => .pure ⟨t, ?_, hlog⟩
  · rw [begun, if_neg hr]
  · rw [begun, if_pos (Decidable.not_not.mp hr), ← hs]

/-- **A tick**, whatever the flash answers. -/
theorem tick_turn : Wp (w.tick (Probe.flash replies fuel executing) layout) (fun _ => False)
    (fun w' p' => w.Turn layout p.log w' p'.log) p := by
  have hrest (hs : w.state ∈ resting) : Wp (if w.requested then
      pure { w with requested := false, state := .prepare } else pure w : Crash Probe Writer)
      (fun _ => False) (fun w' p' => w.Turn layout p.log w' p'.log) p :=
    .ite (fun hreq => .pure (.enter hs hreq)) fun hreq => .pure (.rest hs (Bool.eq_false_iff.mpr hreq))
  have hwait (hs : w.state ∈ [.eraseWait, .programWait]) : Wp (do
      let result ← w.await (Probe.flash replies fuel executing) layout
      pure (w.waited layout result)) (fun _ => False) (fun w' p' => w.Turn layout p.log w' p'.log) p := by
    refine .bind (Q := fun r p' => w.Turn layout p.log (w.waited layout r) p'.log) ?_ fun r p₁ h => .pure h
    refine .bind (Probe.wp_poll (Q := fun r p' => p'.log = .poll r :: p.log) rfl) fun r p₁ hlog => ?_
    refine .ite (fun hr => ?_) fun hr => .pure (hlog ▸ .polled hs r hr)
    refine .bind (Probe.wp_now (Q := fun t p' => p'.log = .now t :: p₁.log) rfl) fun t p₂ hlog₂ => .pure ?_
    rw [hlog₂, hlog, hr]
    split
    · exact .timeout hs t
    · next hlt => exact .wait hs t (Nat.lt_of_not_le hlt)
  unfold tick step
  split
  · next hs => exact hrest (by rw [hs]; decide)
  · next hs => exact hrest (by rw [hs]; decide)
  · next hs => exact hrest (by rw [hs]; decide)
  · next hs =>
    refine .ite (fun hc => .pure (.reject hs hc)) fun hc => ?_
    have hgo : w.cancelled = false := Bool.eq_false_iff.mpr hc
    refine .ite (fun hall => .pure (.complete hs hgo hall)) fun hsome => .ite (fun hdue => ?_) fun hdue => ?_
    · refine .bind (Probe.wp_erase (Q := fun r p' =>
        p'.log = .erase (w.base + w.sectorAt layout) r :: p.log) rfl) fun r p₁ hlog => ?_
      refine (started_begun rfl).conseq fun w' p' ⟨t, hw', hlog'⟩ => ?_
      rw [hlog', hlog, hw']
      exact .erase hs hgo hsome hdue r t
    · refine .bind (Probe.wp_program (Q := fun r p' =>
        p'.log = .program (w.base + w.position) (w.word layout) r :: p.log) rfl) fun r p₁ hlog => ?_
      refine (started_begun rfl).conseq fun w' p' ⟨t, hw', hlog'⟩ => ?_
      rw [hlog', hlog, hw']
      exact .program hs hgo hsome (Nat.lt_of_not_le hdue) r t
  · next hs => exact hwait (by rw [hs]; decide)
  · next hs => exact hwait (by rw [hs]; decide)

/-- The writer after accepting a block. -/
def accepted (w : Writer) (layout : Layout) (slot offset : Nat) (data : Bytes) : Writer :=
  { w with
    base := layout.slot slot, offset, erasedUntil := if offset = 0 then 0 else w.erasedUntil,
    written := 0, data, requested := true, cancelled := false, status := .busy }

/-- How `begin` can go: nothing changes, or a block that fits is accepted while the flash is not busy. -/
inductive Begins (layout : Layout) (w : Writer) (slot offset : Nat) (data : Bytes) (log : List Access) :
    Status → Writer → List Access → Prop
  | early (r : Status) (refused : r ≠ .ok) : Begins layout w slot offset data log r w log
  | busy : Begins layout w slot offset data log .busy w (.poll .busy :: log)
  | accepted (free : w.status ≠ .busy) (slot_lt : slot < 2) (some : data ≠ [])
      (aligned : offset % layout.unit = 0) (fits : offset + data.length ≤ layout.room) (r : Status)
      (ended : r ≠ .busy) :
      Begins layout w slot offset data log .ok (w.accepted layout slot offset data) (.poll r :: log)

theorem begin_begins :
    Wp (w.begin (Probe.flash replies fuel executing) layout slot offset data) (fun _ => False)
      (fun a p' => Begins layout w slot offset data p.log a.1 a.2 p'.log) p := by
  refine .ite (fun _ => .pure (.early .busy (by decide))) fun hfree =>
    .ite (fun _ => .pure (.early .invalidArgument (by decide))) fun hok => ?_
  simp only [not_or, Decidable.not_not, Nat.not_le, Nat.not_lt, ge_iff_le, gt_iff_lt, List.isEmpty_iff] at hok
  obtain ⟨-, hslot, hsome, haligned, hlt, hfits⟩ := hok
  refine .bind (Probe.wp_poll (Q := fun r p' => p'.log = .poll r :: p.log) rfl) fun r p₁ hlog => ?_
  refine .ite (fun hr => .pure ?_) fun hr => .pure ?_
  · rw [hlog, hr]
    exact .busy
  · rw [hlog]
    exact .accepted hfree hslot hsome haligned (by omega) r hr

/-! ## The status -/

/-- The status is `busy` exactly while the writer has something to do. -/
structure Orderly (w : Writer) : Prop where
  rest : w.status ≠ .busy → w.requested = false ∧ w.state ∈ resting
  work : w.status = .busy → w.requested = true ∧ w.state ∈ resting ∨ w.requested = false ∧ w.state ∈ working

theorem orderly_new : Orderly {} := ⟨fun _ => ⟨rfl, by decide⟩, nofun⟩

theorem orderly_ended {s : Status} (hs : s ≠ .busy) (ht : t ∈ resting) (hreq : w.requested = false) :
    Orderly { w with status := s, state := t } :=
  ⟨fun _ => ⟨hreq, ht⟩, fun hb => absurd hb hs⟩

theorem orderly_work (ht : t ∈ working) (hs : w.state = t) (hb : w.status = .busy)
    (hreq : w.requested = false) : w.Orderly :=
  ⟨fun hne => absurd hb hne, fun _ => .inr ⟨hreq, hs ▸ ht⟩⟩

theorem Orderly.at_work (h : w.Orderly) (hs : w.state ∈ working) : w.requested = false ∧ w.status = .busy := by
  have hno : w.state ∉ resting := working_not_resting _ hs
  have hb : w.status = .busy := by
    by_contra hne
    exact hno (h.rest hne).2
  exact ⟨((h.work hb).resolve_left fun hw => hno hw.2).1, hb⟩

theorem orderly_begun {t : Time} (hwait : wait ∈ working) (hb : w.status = .busy)
    (hreq : w.requested = false) : (w.begun r t wait).Orderly := by
  unfold begun
  split
  · exact orderly_work hwait rfl hb hreq
  · exact orderly_ended (w := { w with operationStarted := t }) (Journal.refused_ne_busy r) (by decide) hreq

theorem orderly_waited (hr : r ≠ .busy) (hb : w.status = .busy) (hreq : w.requested = false) :
    (w.waited layout r).Orderly := by
  rw [waited, if_neg hr]
  split
  · exact orderly_ended hr (by decide) hreq
  split
  · exact orderly_ended (by decide) (by decide) hreq
  · exact orderly_work (t := .prepare) (by decide) rfl hb hreq

theorem Turn.orderly (ht : w.Turn layout log w' log') (h : w.Orderly) : w'.Orderly := by
  cases ht with
  | rest | wait => exact h
  | enter state asked =>
    have hb : w.status = .busy := by
      by_contra hne
      rw [(h.rest hne).1] at asked
      cases asked
    exact orderly_work (t := .prepare) (by decide) rfl hb rfl
  | reject state | complete state =>
    exact orderly_ended (by decide) (by decide) (h.at_work (by rw [state]; decide)).1
  | erase state _ _ _ r t | program state _ _ _ r t =>
    obtain ⟨hreq, hb⟩ := h.at_work (by rw [state]; decide)
    exact orderly_begun (by decide) hb hreq
  | timeout state t => exact orderly_ended (by decide) (by decide) (h.at_work (List.mem_cons_of_mem _ state)).1
  | polled state r ended =>
    obtain ⟨hreq, hb⟩ := h.at_work (List.mem_cons_of_mem _ state)
    exact orderly_waited ended hb hreq

theorem Begins.orderly (hb : Begins layout w slot offset data log r w' log') (h : w.Orderly) :
    w'.Orderly := by
  cases hb with
  | early | busy => exact h
  | accepted free => exact ⟨fun hs => absurd rfl hs, fun _ => .inl ⟨rfl, (h.rest free).2⟩⟩

theorem tick_orderly (h : w.Orderly) : Wp (w.tick (Probe.flash replies fuel executing) layout) (fun _ => False)
    (fun w' _ => w'.Orderly) p :=
  tick_turn.conseq fun _ _ ht => ht.orderly h

theorem begin_orderly (h : w.Orderly) :
    Wp (w.begin (Probe.flash replies fuel executing) layout slot offset data) (fun _ => False)
      (fun a _ => a.2.Orderly) p :=
  begin_begins.conseq fun _ _ hb => hb.orderly h

/-! ## The steps that are left -/

/-- How many steps a cancelled writer still takes. -/
def rank (w : Writer) : Nat := if w.requested then 2 else 1

/-- **A tick of a cancelled writer**: it has ended, is a step closer to its end, or was polled as busy. -/
theorem Turn.cancelled (ht : w.Turn layout log w' log') (h : w.Orderly) (hbusy : w.status = .busy)
    (hcancel : w.cancelled = true) (hbusy' : w'.status = .busy) :
    w'.rank < w.rank ∨ w'.rank = w.rank ∧ streak log' = streak log + 1 := by
  cases ht with
  | rest state idle =>
    have hwork := (h.work hbusy).resolve_left fun hw => by
      rw [idle] at hw
      cases hw.1
    exact absurd state (working_not_resting _ hwork.2)
  | enter state asked =>
    left
    simp [rank, asked]
  | reject | complete | timeout => cases hbusy'
  | erase _ going | program _ going => rw [hcancel] at going; cases going
  | wait => exact .inr ⟨rfl, rfl⟩
  | polled _ r ended =>
    rw [waited, if_neg ended] at hbusy'
    split at hbusy'
    · exact absurd hbusy' ended
    · cases hbusy'

/-- How many units of the block are left. -/
def left (layout : Layout) (w : Writer) : Nat := (w.data.length - w.written + (layout.unit - 1)) / layout.unit

/-- How many steps the writer still takes, where nothing fails: four for a unit at the start of a sector. -/
def steps (layout : Layout) (w : Writer) : Nat :=
  if w.requested then 4 * w.left layout + 3
  else
    match w.state with
    | .prepare => 4 * w.left layout + if w.position < w.erasedUntil then 0 else 2
    | .eraseWait => 4 * w.left layout + 1
    | .programWait => 4 * w.left layout - 1
    | .idle | .done | .failed => 0

structure Inside (layout : Layout) (w : Writer) : Prop where
  written : w.written ≤ w.data.length
  waiting : w.state ∈ [.eraseWait, .programWait] → w.written < w.data.length
  erased : w.state = .eraseWait → w.position < w.erasedUntil

theorem inside_new : Inside layout {} := ⟨Nat.le_refl 0, nofun, nofun⟩

theorem inside_of_state (hs : w.state ∉ [.eraseWait, .programWait]) (h : w.written ≤ w.data.length) :
    w.Inside layout :=
  ⟨h, fun hw => absurd hw hs, fun he => absurd (by rw [he]; decide) hs⟩

theorem position_lt (hl : layout.Valid) : w.position < w.sectorAt layout + layout.sector := by
  have hpos := hl.sector_pos
  have hmod := Nat.mod_lt w.position hpos
  unfold sectorAt
  omega

theorem inside_begun {t : Time} (hlt : w.written < w.data.length)
    (he : wait = .eraseWait → w.position < w.erasedUntil) : (w.begun r t wait).Inside layout := by
  unfold begun
  split
  · exact ⟨Nat.le_of_lt hlt, fun _ => hlt, he⟩
  · exact inside_of_state (by simp) (Nat.le_of_lt hlt)

theorem inside_waited (h : w.Inside layout) (hr : r ≠ .busy) :
    (w.waited layout r).Inside layout := by
  rw [waited, if_neg hr]
  split
  · exact inside_of_state (by simp) h.written
  split
  · exact inside_of_state (by simp) h.written
  · refine inside_of_state (by simp) ?_
    have hcount : w.count layout ≤ w.data.length - w.written := Nat.min_le_right _ _
    have hle := h.written
    simp only
    split <;> omega

theorem Turn.inside (hl : layout.Valid) (ht : w.Turn layout log w' log') (h : w.Inside layout) : w'.Inside layout := by
  cases ht with
  | rest | wait => exact h
  | enter | reject | complete | timeout => exact inside_of_state (by simp) h.written
  | erase _ _ some =>
    exact inside_begun (w := { w with erasedUntil := w.sectorAt layout + layout.sector })
      (Nat.lt_of_le_of_ne h.written some) fun _ => position_lt hl
  | program _ _ some => exact inside_begun (Nat.lt_of_le_of_ne h.written some) nofun
  | polled _ r ended => exact inside_waited h ended

theorem Begins.inside (hb : Begins layout w slot offset data log r w' log') (ho : w.Orderly)
    (h : w.Inside layout) : w'.Inside layout := by
  cases hb with
  | early | busy => exact h
  | accepted free =>
    refine inside_of_state (fun hs => ?_) (Nat.zero_le _)
    exact working_not_resting _ (List.mem_cons_of_mem _ hs) (ho.rest free).2

theorem left_next (hl : layout.Valid) (h : w.written < w.data.length) :
    ((w.data.length - (w.written + w.count layout) + (layout.unit - 1)) / layout.unit) + 1 = w.left layout := by
  unfold left count
  rcases hl.unit_eq with hu | hu <;> rw [hu] <;> omega

/-- **A tick of a busy writer**: it has ended, is a step closer to its end, or was polled as busy. -/
theorem Turn.pace (hl : layout.Valid) (ht : w.Turn layout log w' log') (h : w.Orderly) (hi : w.Inside layout)
    (hbusy : w.status = .busy) (hbusy' : w'.status = .busy) :
    w'.steps layout < w.steps layout ∨ w'.steps layout = w.steps layout ∧ streak log' = streak log + 1 := by
  have hwork (hs : w.state ∈ working) : w.requested = false := (h.at_work hs).1
  have hrefused {w : Writer} {r : Status} {t : Time} {wait : WriterState} (hb : (w.begun r t wait).status = .busy) :
      w.begun r t wait = { w with operationStarted := t, state := wait } := by
    unfold begun at hb ⊢
    split
    · rfl
    · next hr =>
      rw [if_neg hr] at hb
      exact absurd hb (Journal.refused_ne_busy r)
  cases ht with
  | rest state idle =>
    have hwork := (h.work hbusy).resolve_left fun hw => by
      rw [idle] at hw
      cases hw.1
    exact absurd state (working_not_resting _ hwork.2)
  | enter state asked =>
    left
    simp only [steps, left, asked, if_true, Bool.false_eq_true, if_false]
    split <;> omega
  | reject | complete | timeout => cases hbusy'
  | erase state going some due r t =>
    left
    have hreq := hwork (by rw [state]; decide)
    rw [hrefused hbusy']
    simp only [steps, left, hreq, state, Bool.false_eq_true, if_false, if_neg (Nat.not_lt.mpr due)]
    omega
  | program state going some erased r t =>
    left
    have hreq := hwork (by rw [state]; decide)
    have hleft : 1 ≤ w.left layout := by
      rw [← left_next hl (Nat.lt_of_le_of_ne hi.written some)]
      exact Nat.le_add_left 1 _
    rw [hrefused hbusy']
    simp only [steps, hreq, state, Bool.false_eq_true, if_false, if_pos erased]
    change 4 * w.left layout - 1 < 4 * w.left layout + 0
    omega
  | wait => exact .inr ⟨rfl, rfl⟩
  | polled state r ended =>
    left
    have hreq := hwork (List.mem_cons_of_mem _ state)
    have hlt := hi.waiting state
    have hleft := left_next hl hlt
    rw [waited, if_neg ended] at hbusy' ⊢
    split at hbusy'
    · exact absurd hbusy' ended
    split at hbusy'
    · cases hbusy'
    next hok hgo =>
    rw [if_neg hok, if_neg hgo]
    simp only [List.mem_cons, List.not_mem_nil, or_false] at state
    rcases state with state | state
    · have herased := hi.erased state
      simp only [steps, left, hreq, state, Bool.false_eq_true, if_false, reduceCtorEq, position] at herased ⊢
      rw [if_pos herased]
      omega
    · simp only [steps, hreq, state, Bool.false_eq_true, if_false, if_true, left] at hleft ⊢
      split <;> omega

end Writer

end DaveOs.Update
