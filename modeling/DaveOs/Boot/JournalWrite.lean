import DaveOs.Boot.JournalLoad

/-!
# What the journal writes

An accepted operation takes the newest snapshot from `cur` to `nxt`. `Stage` says where the journal
is in it: about to erase or erasing, about to program a unit or programming it, about to read back;
with a checkpoint of `cur`'s record first where the executing bank needs one. From every stage, and
however power or an error tears the flash operation in progress, the newest snapshot is `cur` or
`nxt` (`Stage.held`).

`wp_tick`, `wp_begin`, `wp_commit` and `wp_prepareRuntime` are the specifications of the journal's
calls. Outside the metadata sectors nothing changes (`Confined`).
-/

namespace DaveOs.Boot

open Bytes Wire Crash

variable (layout : Layout)

/-- No operation of the journal is in progress. -/
structure Journal.Resting (j : Journal) : Prop where
  status : j.status ≠ .busy
  requested : j.requested = false
  state : j.state = .idle ∨ j.state = .done ∨ j.state = .failed

theorem Journal.resting_new : ({} : Journal).Resting := ⟨Status.noConfusion, rfl, .inl rfl⟩

/-- The machine is in state `s`, or enters it with the next step. -/
def Journal.Entering (j : Journal) (s : JournalState) : Prop :=
  j.requested = false ∧ j.state = s ∨
    j.requested = true ∧ (j.state = .idle ∨ j.state = .done ∨ j.state = .failed) ∧
      (if j.eraseNeeded then JournalState.erase else .write) = s

/-- The snapshot whose record is being programmed: a checkpoint comes before the new one. -/
def Journal.goal (j : Journal) (cur nxt : Snapshot) : Snapshot := if j.checkpoint then cur else nxt

/-- Bank `i` is to be erased, and then to receive the journal's record unless it only erases. The
newest snapshot is in the other bank. -/
structure Erasing (j : Journal) (cells : Cells) (cur nxt : Snapshot) (i : Nat) : Prop where
  sound : Sound layout cells cur
  lt : i < 2
  target : j.target = layout.bank i
  other : HasIn layout cells (1 - i) cur
  offset : j.offset = 0
  checkpoint : j.checkpoint = false
  only : j.eraseOnly = true → nxt = cur
  fits : j.eraseOnly = false → Fits layout j.record nxt
  follows : j.eraseOnly = false → cur.sequence < nxt.sequence ∨
    nxt = cur ∧ ∃ q, layout.InBank (1 - i) q ∧ cells.bytes q kRecordSize = some j.record

/-- The first `k` bytes of the journal's record are in its slot; after a checkpoint the other bank
is erased for the new record. -/
structure Appending (j : Journal) (cells : Cells) (cur nxt : Snapshot) (k : Nat) : Prop where
  sound : Sound layout cells (if k = kRecordSize then j.goal cur nxt else cur)
  writing : Writing layout cells cur j.record j.target k (j.goal cur nxt)
  eraseOnly : j.eraseOnly = false
  chain : j.checkpoint = true → cur.sequence < nxt.sequence ∧ Fits layout j.pendingRecord nxt ∧
    ∃ i, i < 2 ∧ j.pendingTarget = layout.bank i ∧ layout.InBank (1 - i) j.target

/-- Where the journal is in an operation that takes the newest snapshot from `cur` to `nxt`. While
it waits, the flash operation is in progress, or has been completed by another user's poll. -/
inductive Stage (cur nxt : Snapshot) (j : Journal) (mem : Memory) : Prop
  | toErase (i : Nat) (entering : j.Entering .erase) (idle : mem.pending = none)
      (erasing : Erasing layout j mem.cells cur nxt i)
  | eraseWait (i : Nat) (entering : j.Entering .eraseWait)
      (pending : mem.pending = some (.erase j.target))
      (erasing : Erasing layout j mem.cells cur nxt i)
  | erased (entering : j.Entering .eraseWait) (idle : mem.pending = none)
      (only : j.eraseOnly = true → nxt = cur ∧ Sound layout mem.cells cur)
      (appending : j.eraseOnly = false → j.offset = 0 ∧ Appending layout j mem.cells cur nxt 0)
  | toWrite (entering : j.Entering .write) (idle : mem.pending = none)
      (room : j.offset < kRecordSize)
      (appending : Appending layout j mem.cells cur nxt j.offset)
  | writeWait (entering : j.Entering .writeWait)
      (pending : mem.pending =
        some (.program (j.target + j.offset) (slice j.record j.offset layout.unit)))
      (room : j.offset < kRecordSize)
      (appending : Appending layout j mem.cells cur nxt j.offset)
  | written (entering : j.Entering .writeWait) (idle : mem.pending = none)
      (room : j.offset < kRecordSize)
      (appending : Appending layout j mem.cells cur nxt (j.offset + layout.unit))
  | toVerify (entering : j.Entering .verify) (idle : mem.pending = none)
      (appending : Appending layout j mem.cells cur nxt kRecordSize)

/-- Outside the metadata the cells are `cells₀` and no operation is in progress. -/
structure Confined (cells₀ : Cells) (mem : Memory) : Prop where
  cells : ∀ x, ¬layout.InMetadata x → mem.cells x = cells₀ x
  pending : ∀ op, mem.pending = some op → ∀ x, op.Covers layout x → layout.InMetadata x

section confined

variable {layout} {cells₀ : Cells} {mem : Memory}

theorem Confined.outcome (h : Confined layout cells₀ mem) {mem' : Memory}
    (hp : mem'.pending = none) (ho : Outcome layout mem mem'.cells) :
    Confined layout cells₀ mem' where
  cells x hx := by
    unfold Outcome at ho
    split at ho
    · rw [ho, h.cells x hx]
    · next op hop =>
      rw [ho.outside x fun hc => hx (h.pending op hop x hc), h.cells x hx]
  pending op hop := by
    rw [hp] at hop
    cases hop

theorem Confined.start (h : Confined layout cells₀ mem) {op : Operation}
    (hop : ∀ x, op.Covers layout x → layout.InMetadata x) :
    Confined layout cells₀ { mem with pending := some op } where
  cells := h.cells
  pending op' h' := by
    obtain rfl := Option.some.inj h'
    exact hop

theorem covers_erase {i : Nat} (hi : i < 2) (x : Nat)
    (h : (Operation.erase (layout.bank i)).Covers layout x) : layout.InMetadata x :=
  ⟨i, hi, h⟩

theorem covers_program {j : Journal} {cells : Cells} {cur nxt : Snapshot}
    (hl : layout.Valid) (h : Appending layout j cells cur nxt j.offset)
    (hk : j.offset < kRecordSize) (x : Nat)
    (hx : (Operation.program (j.target + j.offset)
      (slice j.record j.offset layout.unit)).Covers layout x) : layout.InMetadata x := by
  obtain ⟨i, hp⟩ := h.writing.place
  obtain ⟨hlen, hroom⟩ := h.writing.room hl.unit_eq hk
  have hin := hp.inside hl
  have hx' : j.target + j.offset ≤ x ∧
      x < j.target + j.offset + (slice j.record j.offset layout.unit).length := hx
  simp only [kRecordSize] at hroom
  exact ⟨i, hp.1, by omega, by omega⟩

end confined

section stages

variable {layout} {cur nxt : Snapshot} {j : Journal} {mem : Memory} {cells' : Cells} {i : Nat}
variable {cells : Cells}

theorem Erasing.leaves (hl : layout.Valid) (h : Erasing layout j mem.cells cur nxt i)
    (hleaves : Leaves layout (.erase j.target) mem.cells cells') : Sound layout cells' cur := by
  rw [h.target] at hleaves
  exact h.sound.erase hl h.lt h.other hleaves

theorem Erasing.erased (hl : layout.Valid) (h : Erasing layout j cells cur nxt i)
    (honly : j.eraseOnly = false) :
    Appending layout j ((Operation.erase j.target).apply layout cells) cur nxt 0 := by
  have hgoal : j.goal cur nxt = nxt := by
    rw [Journal.goal, h.checkpoint]
    rfl
  have hleaves := Operation.apply_leaves layout (.erase (layout.bank i)) cells
  have hfirst := Layout.InBank.first hl h.lt
  refine { sound := ?_, writing := ?_, eraseOnly := honly, chain := fun hc => ?_ }
  · rw [h.target]
    exact h.sound.erase hl h.lt h.other hleaves
  · rw [hgoal, h.target]
    refine
      { place := ⟨i, hfirst⟩, fits := h.fits honly, follows := ?_,
        written := fun x hx => absurd hx (Nat.not_lt_zero x), blank := fun x _ hx => ?_,
        aligned := Nat.zero_mod _, le := Nat.zero_le _ }
    · rcases h.follows honly with hlt | ⟨heq, q, hq, hb⟩
      · exact .inl hlt
      · refine .inr ⟨heq, 1 - i, q, hq, ?_⟩
        have hap := hq.other hl h.lt (by have := h.lt; omega)
        rw [Cells.bytes_congr fun x hx => hleaves.outside_erase ?_, hb]
        simp only [kRecordSize] at hx
        omega
    · have := hfirst.inside hl
      simp only [kRecordSize] at hx
      exact Operation.apply_erase (by omega)
  · rw [h.checkpoint] at hc
    cases hc

theorem Appending.leaves (hl : layout.Valid) (h : Appending layout j mem.cells cur nxt j.offset)
    (hk : j.offset < kRecordSize)
    (hleaves : Leaves layout
      (.program (j.target + j.offset) (slice j.record j.offset layout.unit)) mem.cells cells') :
    Sound layout cells' cur ∨ Sound layout cells' nxt := by
  have hsound := h.sound
  rw [if_neg (by omega)] at hsound
  rcases hsound.program hl h.writing hk hleaves with hs | hs
  · exact .inl hs
  · unfold Journal.goal at hs
    split at hs
    · exact .inl hs
    · exact .inr hs

theorem Appending.programmed (hl : layout.Valid) (h : Appending layout j cells cur nxt j.offset)
    (hk : j.offset < kRecordSize) : Appending layout j ((Operation.program (j.target + j.offset)
      (slice j.record j.offset layout.unit)).apply layout cells) cur nxt
      (j.offset + layout.unit) := by
  have hsound := h.sound
  rw [if_neg (by omega)] at hsound
  exact { sound := hsound.programmed hl h.writing hk, writing := h.writing.program hl hk,
          eraseOnly := h.eraseOnly, chain := h.chain }

/-- The newest snapshot with `k` bytes of a record in place. -/
theorem Appending.newest {k : Nat} (h : Appending layout j cells cur nxt k) :
    Sound layout cells cur ∨ Sound layout cells nxt := by
  have hs := h.sound
  unfold Journal.goal at hs
  split at hs
  · split at hs
    · exact .inl hs
    · exact .inr hs
  · exact .inl hs

theorem Held.of_either (hp : mem.pending = none)
    (h : Sound layout mem.cells cur ∨ Sound layout mem.cells nxt) :
    Held layout mem fun s => s = cur ∨ s = nxt := by
  rcases h with h | h
  · exact Held.of_sound hp (.inl rfl) h
  · exact Held.of_sound hp (.inr rfl) h

/-- **Whatever ends an operation at any stage**, the newest snapshot is the old or the new one. -/
theorem Stage.held (hl : layout.Valid) (h : Stage layout cur nxt j mem) :
    Held layout mem fun s => s = cur ∨ s = nxt := by
  cases h with
  | toErase i entering idle erasing => exact Held.of_either idle (.inl erasing.sound)
  | eraseWait i entering pending erasing =>
    intro cells' ho
    rw [Outcome, pending] at ho
    exact ⟨cur, .inl rfl, erasing.leaves hl ho⟩
  | erased entering idle only appending =>
    cases ho : j.eraseOnly with
    | true => exact Held.of_either idle (.inl (only ho).2)
    | false => exact Held.of_either idle (appending ho).2.newest
  | toWrite entering idle room appending | written entering idle room appending
  | toVerify entering idle appending => exact Held.of_either idle appending.newest
  | writeWait entering pending room appending =>
    intro cells' ho
    rw [Outcome, pending] at ho
    rcases appending.leaves hl room ho with hs | hs
    · exact ⟨cur, .inl rfl, hs⟩
    · exact ⟨nxt, .inr rfl, hs⟩

/-- The flash operation of a stage may be completed by another user's poll. -/
theorem Stage.completed (hl : layout.Valid) (h : Stage layout cur nxt j mem) {op : Operation}
    (hop : mem.pending = some op) :
    Stage layout cur nxt j { cells := op.apply layout mem.cells } := by
  have hbusy : ∀ {Q : Prop}, mem.pending = none → Q := fun h => by
    rw [hop] at h
    cases h
  cases h with
  | toErase i entering idle erasing | erased entering idle only appending
  | toWrite entering idle room appending | written entering idle room appending
  | toVerify entering idle appending => exact hbusy idle
  | eraseWait i entering pending erasing =>
    obtain rfl := Option.some.inj (hop.symm.trans pending)
    refine .erased entering rfl (fun ho => ⟨erasing.only ho, ?_⟩) fun ho =>
      ⟨erasing.offset, erasing.erased hl ho⟩
    exact erasing.leaves hl (Operation.apply_leaves layout _ _)
  | writeWait entering pending room appending =>
    obtain rfl := Option.some.inj (hop.symm.trans pending)
    exact .written entering rfl room (appending.programmed hl room)

end stages

/-- What a step makes of the operation: it goes on, it has succeeded, or it has failed. -/
inductive Progress (cur nxt : Snapshot) (j : Journal) (mem : Memory) : Prop
  | busy (status : j.status = .busy) (stage : Stage layout cur nxt j mem)
  | done (status : j.status = .ok) (resting : j.Resting) (idle : mem.pending = none)
      (sound : Sound layout mem.cells nxt)
      (home : j.eraseOnly = false → mem.cells.snapshot j.target = some nxt)
  | failed (status : j.status ≠ .ok) (resting : j.Resting)
      (held : Held layout mem fun s => s = cur ∨ s = nxt)

theorem Held.settle {layout : Layout} {mem mem' : Memory} {S : Snapshot → Prop}
    (h : Held layout mem S) (hp : mem'.pending = none) (ho : Outcome layout mem mem'.cells) :
    Held layout mem' S := by
  obtain ⟨s, hs, hsound⟩ := h mem'.cells ho
  exact Held.of_sound hp hs hsound

section step

variable {m : Medium} {executing : Option Nat} {d : Device m} {cur nxt : Snapshot} {j : Journal}
  {cells₀ : Cells}
variable {d' : Device m}

/-- Cut short, the operation may still end either way. -/
abbrev Cut (m : Medium) (cells₀ : Cells) (cur nxt : Snapshot) (d : Device m) : Prop :=
  Held m.layout d.toMemory (fun s => s = cur ∨ s = nxt) ∧ Confined m.layout cells₀ d.toMemory

abbrev Moved (m : Medium) (cells₀ : Cells) (cur nxt : Snapshot) (j : Journal) (d : Device m) :
    Prop :=
  Progress m.layout cur nxt j d.toMemory ∧ Confined m.layout cells₀ d.toMemory

/-- A failed step: the journal rests and what is in progress may still end either way. -/
theorem Cut.failed {r : Status} (h : Cut m cells₀ cur nxt d) (hr : r ≠ .ok) (hr' : r ≠ .busy)
    (hreq : j.requested = false) :
    Moved m cells₀ cur nxt { j with status := r, state := .failed } d :=
  ⟨.failed hr ⟨hr', hreq, .inr (.inr rfl)⟩ h.1, h.2⟩

theorem moved_done (hconf : Confined m.layout cells₀ d.toMemory) (hreq : j.requested = false)
    (hidle : d.pending = none) (hsound : Sound m.layout d.cells nxt)
    (hhome : j.eraseOnly = false → d.cells.snapshot j.target = some nxt) :
    Moved m cells₀ cur nxt { j with status := .ok, state := .done } d :=
  ⟨.done rfl ⟨Status.noConfusion, hreq, .inr (.inl rfl)⟩ hidle hsound hhome, hconf⟩

theorem Cut.same (h : Cut m cells₀ cur nxt d) (hm : d'.toMemory = d.toMemory) :
    Cut m cells₀ cur nxt d' := by
  unfold Cut
  rw [hm]
  exact h

theorem Cut.settle (h : Cut m cells₀ cur nxt d) (hp : d'.pending = none)
    (ho : Outcome m.layout d.toMemory d'.cells) : Cut m cells₀ cur nxt d' :=
  ⟨h.1.settle hp ho, h.2.outcome hp ho⟩

/-- Starting a flash operation, as the states `erase` and `write` do. -/
theorem wp_startOperation {op : Operation} {next : JournalState} (hcut : Cut m cells₀ cur nxt d)
    (hstatus : j.status = .busy) (hreq : j.requested = false) (hidle : d.pending = none)
    (hcov : ∀ x, op.Covers m.layout x → m.layout.InMetadata x)
    (hstage : Stage m.layout cur nxt { j with state := next }
      { d.toMemory with pending := some op }) :
    Wp (if j.timedOut then pure { j with status := .timeout, state := .failed }
      else do
        let result ← Device.start op
        if result ≠ .ok then
          pure { j with status := if result = .busy then .ioError else result, state := .failed }
        else pure { j with state := next }) (Cut m cells₀ cur nxt) (Moved m cells₀ cur nxt) d := by
  refine .ite (fun _ => ?_) fun _ => .seq (Device.wp_start hcut ?_ ?_ ?_)
  · exact .pure (hcut.failed (by decide) (by decide) hreq)
  · intro d' _ hm
    refine .ite (fun h => absurd rfl h) fun _ => .pure ?_
    unfold Moved
    rw [hm]
    exact ⟨.busy hstatus hstage, hcut.2.start hcov⟩
  · exact fun d' hp _ => absurd hidle hp
  · intro e d' _ he hm
    refine .ite (fun _ => .pure ((hcut.same hm).failed ?_ ?_ hreq)) fun h => absurd he h
    · split <;> first | exact he | decide
    · split <;> first | assumption | decide

/-- Waiting for a flash operation, as the states `erase_wait` and `write_wait` do; `next` goes on
from the completed operation. -/
theorem wp_waitOperation {next : Crash (Device m) Journal} (hcut : Cut m cells₀ cur nxt d)
    (hstatus : j.status = .busy) (hreq : j.requested = false)
    (hstage : Stage m.layout cur nxt j d.toMemory)
    (hnext : ∀ d' : Device m, d'.pending = none → (d.pending = none → d'.cells = d.cells) →
      (∀ op, d.pending = some op → d'.cells = op.apply m.layout d.cells) →
      Cut m cells₀ cur nxt d' → Wp next (Cut m cells₀ cur nxt) (Moved m cells₀ cur nxt) d') :
    Wp (do
        let result ← Device.poll
        if result = .busy ∧ ¬j.timedOut then pure j
        else if result ≠ .ok ∨ j.timedOut then
          pure { j with status := if j.timedOut then .timeout else result, state := .failed }
        else next) (Cut m cells₀ cur nxt) (Moved m cells₀ cur nxt) d := by
  have hfail : ∀ (r : Status) (d' : Device m), Cut m cells₀ cur nxt d' →
      (r ≠ .busy ∧ r ≠ .ok ∨ j.timedOut = true) →
      Moved m cells₀ cur nxt
        { j with status := if j.timedOut then .timeout else r, state := .failed } d' := by
    intro r d' h' hr
    refine h'.failed ?_ ?_ hreq
    · split
      · decide
      · next ht => exact (hr.resolve_right ht).2
    · split
      · decide
      · next ht => exact (hr.resolve_right ht).1
  have hok : ∀ d' : Device m, d'.pending = none → (d.pending = none → d'.cells = d.cells) →
      (∀ op, d.pending = some op → d'.cells = op.apply m.layout d.cells) →
      Cut m cells₀ cur nxt d' →
      Wp (if Status.ok = Status.busy ∧ ¬j.timedOut then pure j
        else if Status.ok ≠ Status.ok ∨ j.timedOut then
          pure { j with status := if j.timedOut then .timeout else .ok, state := .failed }
        else next) (Cut m cells₀ cur nxt) (Moved m cells₀ cur nxt) d' := by
    intro d' hp h1 h2 h'
    refine .ite (fun h => absurd h.1 (by decide)) fun _ => ?_
    refine .ite (fun h => ?_) fun _ => hnext d' hp h1 h2 h'
    exact .pure (hfail .ok d' h' (.inr (h.resolve_left fun h => h rfl)))
  refine .seq (Device.wp_poll hcut ?_ ?_ ?_ ?_)
  · intro d' hp hm
    refine hok d' (by rw [hm, hp]) (fun _ => by rw [hm]) (fun op hop => ?_) (hcut.same hm)
    rw [hp] at hop
    cases hop
  · intro op d' hop hm
    refine .ite (fun _ => .pure ?_) fun hb => ?_
    · unfold Moved
      rw [hm]
      exact ⟨.busy hstatus hstage, hcut.2⟩
    · have ht : j.timedOut = true := Classical.byContradiction fun h => hb ⟨rfl, h⟩
      refine .ite (fun _ => .pure (hfail .busy d' (hcut.same hm) (.inr ht))) fun h => ?_
      exact absurd (.inr ht) h
  · intro op d' hop hm
    have hp : d'.pending = none := by rw [hm]
    refine hok d' hp (fun hn => ?_) (fun op' hop' => ?_) (hcut.settle hp ?_)
    · rw [hn] at hop
      cases hop
    · rw [hop] at hop'
      obtain rfl := Option.some.inj hop'
      rw [hm]
    · rw [Outcome, hop, hm]
      exact Operation.apply_leaves m.layout op d.cells
  · intro e op d' _ hop he he' hm
    have hp : d'.pending = none := by rw [hm]
    have hcut' : Cut m cells₀ cur nxt d' := by
      refine hcut.settle hp ?_
      rw [Outcome, hop, hm]
      exact e.torn_leaves op d.cells
    refine .ite (fun h => absurd h.1 he') fun _ => ?_
    refine .ite (fun _ => .pure (hfail e.poll d' hcut' (.inl ⟨he', he⟩))) fun h => ?_
    exact absurd (.inl he) h

theorem Stage.cut (hl : m.layout.Valid) (h : Stage m.layout cur nxt j d.toMemory)
    (hconf : Confined m.layout cells₀ d.toMemory) : Cut m cells₀ cur nxt d :=
  ⟨h.held hl, hconf⟩

theorem Stage.request (h : Stage m.layout cur nxt j d.toMemory) (hreq : j.requested = true) :
    Stage m.layout cur nxt
      { j with requested := false, state := if j.eraseNeeded then .erase else .write }
      d.toMemory := by
  have hent : ∀ s, j.Entering s → (if j.eraseNeeded then JournalState.erase else .write) = s := by
    rintro s (⟨hr, -⟩ | ⟨-, -, hs⟩)
    · rw [hreq] at hr
      cases hr
    · exact hs
  cases h with
  | toErase i entering idle erasing =>
    exact .toErase i (.inl ⟨rfl, hent _ entering⟩) idle { erasing with }
  | toWrite entering idle room appending =>
    exact .toWrite (.inl ⟨rfl, hent _ entering⟩) idle room { appending with }
  | eraseWait i entering pending erasing | erased entering idle only appending
  | writeWait entering pending room appending | written entering idle room appending
  | toVerify entering idle appending =>
    have := hent _ entering
    split at this <;> cases this

theorem Appending.next (hreq : j.requested = false) (hidle : d.pending = none)
    (h : Appending m.layout j d.cells cur nxt (j.offset + m.layout.unit)) :
    Stage m.layout cur nxt
      { j with
        offset := j.offset + m.layout.unit
        state := if j.offset + m.layout.unit = j.record.length then .verify else .write }
      d.toMemory := by
  have hlen := h.writing.fits.length
  have hle := h.writing.le
  by_cases heq : j.offset + m.layout.unit = kRecordSize
  · rw [heq] at h
    exact .toVerify (.inl ⟨hreq, if_pos (heq.trans hlen.symm)⟩) hidle { h with }
  · refine .toWrite (.inl ⟨hreq, if_neg fun h => heq (h.trans hlen)⟩) hidle ?_ { h with }
    exact Nat.lt_of_le_of_ne hle heq

variable (hl : m.layout.Valid) (hconf : Confined m.layout cells₀ d.toMemory)

include hl hconf

/-- Reading the record back: it is there, so the operation ends or goes on to erase. -/
theorem wp_step_verify (hsteady : m.Steady) (hreq : j.requested = false)
    (hstate : j.state = .verify) (hidle : d.pending = none) (happ : Appending m.layout j d.cells cur nxt kRecordSize) :
    Wp (Journal.step (Device.flash executing) m.layout j) (Cut m cells₀ cur nxt)
      (Moved m cells₀ cur nxt) d := by
  obtain ⟨i, hp⟩ := happ.writing.place
  have hcut : Cut m cells₀ cur nxt d := ⟨Held.of_either hidle happ.newest, hconf⟩
  have hsound := happ.sound
  rw [if_pos rfl] at hsound
  have hbytes := happ.writing.bytes
  simp only [Journal.step, hstate]
  refine .seq (Device.wp_read_steady (fun e he => ?_) hidle hcut fun d' hm => ?_)
  · exact hsteady e he _ (hp.metadata hl (x := 0) (by decide))
  unfold Cells.answer
  rw [hbytes]
  refine .ite (fun h => absurd rfl h) fun _ => .ite (fun h => absurd rfl h) fun _ => ?_
  refine .ite (fun hc => .pure ?_) fun hc => .pure ?_
  · obtain ⟨hlt, hfits, i', hi', htarget, hin⟩ := happ.chain hc
    rw [Journal.goal, if_pos hc] at hsound
    have hfit := happ.writing.fits
    rw [Journal.goal, if_pos hc] at hfit
    unfold Moved
    rw [hm]
    refine ⟨.busy rfl (.toErase i' (.inl ⟨hreq, rfl⟩) hidle ?_), hconf⟩
    have hcur : HasIn m.layout d.cells (1 - i') cur :=
      ⟨j.target, hin, by rw [Cells.snapshot_of_bytes hbytes, hfit.decodes]⟩
    exact
      { sound := hsound, lt := hi', target := htarget, other := hcur, offset := rfl,
        checkpoint := rfl, only := fun h => absurd h (by rw [happ.eraseOnly]; decide),
        fits := fun _ => hfits, follows := fun _ => .inl hlt }
  · rw [Journal.goal, if_neg hc] at hsound
    have hfit := happ.writing.fits
    rw [Journal.goal, if_neg hc] at hfit
    refine moved_done ?_ hreq ?_ ?_ fun _ => ?_ <;> rw [hm]
    · exact hconf
    · exact hidle
    · exact hsound
    · rw [Cells.snapshot_of_bytes hbytes, hfit.decodes]

/-- **One step** takes an operation to its next stage, or ends it. -/
theorem wp_step (hsteady : m.Steady) (hstatus : j.status = .busy)
    (hstage : Stage m.layout cur nxt j d.toMemory) :
    Wp (Journal.step (Device.flash executing) m.layout j) (Cut m cells₀ cur nxt)
      (Moved m cells₀ cur nxt) d := by
  have hcut := hstage.cut hl hconf
  cases hreq : j.requested with
  | true =>
    have hrest : j.state = .idle ∨ j.state = .done ∨ j.state = .failed := by
      have : ∀ s, j.Entering s → j.state = .idle ∨ j.state = .done ∨ j.state = .failed := by
        rintro s (⟨hr, -⟩ | ⟨-, hs, -⟩)
        · rw [hreq] at hr
          cases hr
        · exact hs
      cases hstage <;> exact this _ ‹_›
    have hmove := hstage.request hreq
    rcases hrest with hs | hs | hs
    all_goals
      simp only [Journal.step, hs, hreq, if_true]
      exact .pure ⟨.busy hstatus hmove, hconf⟩
  | false =>
    have hat : ∀ s, j.Entering s → j.state = s := by
      rintro s (⟨-, hs⟩ | ⟨hr, -, -⟩)
      · exact hs
      · rw [hreq] at hr
        cases hr
    cases id hstage with
    | toErase i entering idle erasing =>
      simp only [Journal.step, hat _ entering]
      refine wp_startOperation hcut hstatus hreq idle ?_ ?_
      · rw [erasing.target]
        exact covers_erase erasing.lt
      · exact .eraseWait i (.inl ⟨hreq, rfl⟩) rfl { erasing with }
    | toWrite entering idle room appending =>
      simp only [Journal.step, hat _ entering]
      refine wp_startOperation hcut hstatus hreq idle (covers_program hl appending room) ?_
      exact .writeWait (.inl ⟨hreq, rfl⟩) rfl room { appending with }
    | eraseWait i entering pending erasing =>
      simp only [Journal.step, hat _ entering]
      refine wp_waitOperation hcut hstatus hreq hstage fun d' hp _ hdone hcut' => ?_
      have hcells := hdone _ pending
      refine .ite (fun ho => .pure ?_) fun ho => .pure ⟨?_, hcut'.2⟩
      · refine moved_done hcut'.2 hreq hp ?_ fun h => absurd ho (by rw [h]; decide)
        rw [erasing.only ho, hcells]
        have erasing : Erasing m.layout j d.toMemory.cells cur nxt i := erasing
        exact erasing.leaves hl (Operation.apply_leaves m.layout _ _)
      · have ho : j.eraseOnly = false := by simpa using ho
        refine .busy hstatus (.toWrite (.inl ⟨hreq, rfl⟩) hp ?_ ?_)
        · rw [erasing.offset]
          decide
        · rw [erasing.offset, hcells]
          exact { erasing.erased hl ho with }
    | erased entering idle only appending =>
      simp only [Journal.step, hat _ entering]
      refine wp_waitOperation hcut hstatus hreq hstage fun d' hp hsame _ hcut' => ?_
      have hcells := hsame idle
      refine .ite (fun ho => .pure ?_) fun ho => .pure ⟨?_, hcut'.2⟩
      · refine moved_done hcut'.2 hreq hp ?_ fun h => absurd ho (by rw [h]; decide)
        obtain ⟨heq, hs⟩ := only ho
        rw [heq, hcells]
        exact hs
      · obtain ⟨hoff, happ⟩ := appending (by simpa using ho)
        refine .busy hstatus (.toWrite (.inl ⟨hreq, rfl⟩) hp ?_ ?_)
        · rw [hoff]
          decide
        · rw [hoff, hcells]
          exact { happ with }
    | writeWait entering pending room appending =>
      simp only [Journal.step, hat _ entering]
      refine wp_waitOperation hcut hstatus hreq hstage fun d' hp _ hdone hcut' =>
        .pure ⟨.busy hstatus (Appending.next hreq hp ?_), hcut'.2⟩
      rw [hdone _ pending]
      exact appending.programmed hl room
    | written entering idle room appending =>
      simp only [Journal.step, hat _ entering]
      refine wp_waitOperation hcut hstatus hreq hstage fun d' hp hsame _ hcut' =>
        .pure ⟨.busy hstatus (Appending.next hreq hp ?_), hcut'.2⟩
      rw [hsame idle]
      exact appending
    | toVerify entering idle appending =>
      exact wp_step_verify hl hconf hsteady hreq (hat _ entering) idle appending

omit hl hconf in
theorem Stage.watch {layout : Layout} {mem : Memory} (h : Stage layout cur nxt j mem) (t : Time)
    (b : Bool) : Stage layout cur nxt { j with operationStarted := t, timedOut := b } mem := by
  cases h with
  | toErase i entering idle erasing => exact .toErase i entering idle { erasing with }
  | eraseWait i entering pending erasing => exact .eraseWait i entering pending { erasing with }
  | erased entering idle only appending =>
    exact .erased entering idle only fun h => ⟨(appending h).1, { (appending h).2 with }⟩
  | toWrite entering idle room appending => exact .toWrite entering idle room { appending with }
  | writeWait entering pending room appending =>
    exact .writeWait entering pending room { appending with }
  | written entering idle room appending => exact .written entering idle room { appending with }
  | toVerify entering idle appending => exact .toVerify entering idle { appending with }

/-- **A tick** takes an operation to its next stage, or ends it. -/
theorem wp_tick (hsteady : m.Steady) (hstatus : j.status = .busy)
    (hstage : Stage m.layout cur nxt j d.toMemory) :
    Wp (Journal.tick (Device.flash executing) m.layout j) (Cut m cells₀ cur nxt)
      (Moved m cells₀ cur nxt) d := by
  have hcut := hstage.cut hl hconf
  have hstep : ∀ (t : Time) (b : Bool) (d' : Device m), d'.toMemory = d.toMemory →
      Wp (Journal.step (Device.flash executing) m.layout
        { j with operationStarted := t, timedOut := b }) (Cut m cells₀ cur nxt)
        (Moved m cells₀ cur nxt) d' := by
    intro t b d' hm
    exact wp_step hl (by rw [hm]; exact hconf) hsteady hstatus (by rw [hm]; exact hstage.watch t b)
  refine .seq (.ite (fun _ => .seq (Device.wp_now hcut fun t d' hm => ?_)) fun _ =>
    .ite (fun _ => .seq (Device.wp_now hcut fun t d' hm => ?_)) fun h => absurd hstatus h)
  · exact .pure (hstep t j.timedOut d' hm)
  · refine .pure ?_
    split
    · exact hstep j.operationStarted true d' hm
    · exact hstep j.operationStarted j.timedOut d' hm

end step

theorem Journal.Resting.tick {σ : Type} {flash : Flash σ} {layout : Layout} {j : Journal}
    (h : j.Resting) : Journal.tick flash layout j = pure j := by
  have hw : Journal.watch flash layout j = pure j := by
    rw [Journal.watch, if_neg (by rw [h.requested]; decide), if_neg h.status]
  have hs : Journal.step flash layout j = pure j := by
    unfold Journal.step
    rcases h.state with hst | hst | hst <;> simp only [hst, h.requested] <;> rfl
  rw [Journal.tick, hw]
  exact hs

end DaveOs.Boot
