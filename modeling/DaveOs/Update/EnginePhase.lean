import DaveOs.Update.Engine
import DaveOs.Update.WriterSpec

/-!
# What the engine does to the flash

`Engine.Phase` says where the engine is in an installation: what it knows of the newest snapshot,
which of its two machines is at work and what it may touch. Every step keeps it (`Engine.wp_tick`),
and in every phase the flash is guarded (`Engine.Phase.guarded`): the engine only invalidates its
destination, writes it while it is incomplete, and installs what it has read back.
-/

namespace DaveOs.Update

variable {layout : Layout}

open Boot Bytes Crash

/-- The header of a package that this layout admits. -/
structure Admitted (layout : Layout) (header : Header) : Prop where
  size_ne : header.imageSize ≠ 0
  fits : header.imageSize ≤ layout.slotSize
  product : header.product = layout.product
  revision : header.revision = layout.revision

theorem decodeHeader_admitted {bytes : Bytes} {destination : Nat} {header : Header}
    (h : decodeHeader bytes layout destination = .ok header) : Admitted layout header := by
  unfold decodeHeader at h
  split at h
  · cases h
  split at h
  · cases h
  split at h
  · cases h
  simp only at h
  split at h
  · cases h
  next hc =>
    simp only [not_or, Decidable.not_not, UInt32.not_lt] at hc
    obtain rfl := Except.ok.inj h
    exact ⟨hc.1, hc.2.1, hc.2.2.1, hc.2.2.2.1⟩

/-- An operation inside slot `i`, whose image is incomplete in the newest snapshot. -/
theorem guarded_of_slot {P : Snapshot → Cells → Prop} {i : Nat} {cells₀ : Cells} {mem : Memory}
    {cur : Snapshot} (hl : layout.Valid) (hP : Policy layout i P) (hi : i < 2)
    (hconf : SlotConfined layout i cells₀ mem) (hsound : Sound layout cells₀ cur)
    (hcur : P cur cells₀) (hstate : (cur.images.get i).state = .incomplete) :
    Guarded layout P mem := by
  have hsame : ∀ {cells : Cells}, (∀ x, ¬layout.InSlot i x → cells x = cells₀ x) →
      Sound layout cells cur ∧ P cur cells := fun h =>
    ⟨hsound.congr fun j p x hp hx => h _ fun hin => hin.not_metadata hl hi (hp.metadata hl hx),
      hP.overwrite hcur hstate h⟩
  constructor
  · intro cells' ho
    have hconf' : SlotConfined layout i cells₀ { cells := cells' } := hconf.settle rfl ho
    exact ⟨cur, hsame hconf'.cells⟩
  · intro op hop
    obtain ⟨h1, h2⟩ := hsame hconf.cells
    exact .inr ⟨i, cur, hi, hconf.pending op hop, h1, h2, hstate⟩

namespace Engine

theorem active_eq_false {e : Engine} : e.active = false ↔ e.requested = false ∧ e.resting = true := by
  simp [active]

/-- An installation that has been admitted is under way. -/
structure Admits (layout : Layout) (e : Engine) : Prop where
  slot : e.runningSlot < 2
  header : Admitted layout e.header

structure Calm (e : Engine) : Prop where
  journal : e.journal.Resting
  writer : e.writer.Resting

/-- Nothing of the destination has been read back yet. -/
structure Unread (e : Engine) : Prop where
  offset : e.verifyOffset = 0
  crc : e.verifyCrc = 0

/-- Nothing is in progress, and the newest snapshot is `cur`. -/
structure Knows (layout : Layout) (P : Snapshot → Cells → Prop) (mem : Memory) (cur : Snapshot) :
    Prop where
  idle : mem.pending = none
  sound : Sound layout mem.cells cur
  fine : P cur mem.cells

theorem Knows.guarded {layout : Layout} {P : Snapshot → Cells → Prop} {mem : Memory}
    {cur : Snapshot} (h : Knows layout P mem cur) : Guarded layout P mem :=
  .of_sound h.idle h.sound h.fine

/-- Where the engine is in an installation. -/
inductive Phase (layout : Layout) (P : Snapshot → Cells → Prop) (e : Engine) (mem : Memory) : Prop
  | quiet (state : e.resting = true ∨ e.state = .aborting ∧ e.Admits layout)
      (requested : e.requested = false) (calm : e.Calm) (guarded : Guarded layout P mem)
  | requested (state : e.resting = true) (requested : e.requested = true) (calm : e.Calm)
      (admits : e.Admits layout) (unread : e.Unread) (knows : Knows layout P mem e.snapshot)
  | journaling (cur nxt : Snapshot) (cells₀ : Cells)
      (state : e.state = .invalidating ∨ e.state = .committing ∨ e.state = .aborting)
      (requested : e.requested = false) (writer : e.writer.Resting) (admits : e.Admits layout)
      (status : e.journal.status = .busy) (stage : Stage layout cur nxt e.journal mem)
      (confined : Confined layout cells₀ mem) (old : P cur cells₀) (new : P nxt cells₀)
      (invalid : e.state = .invalidating → e.Unread ∧
        (nxt.images.get e.destination).state = .incomplete)
      (pending : e.state = .committing → nxt.images.get e.destination =
        (e.snapshot.images.get e.destination).stored ∧
        (nxt.images.get e.destination).state = .pending)
  | receiving (cur : Snapshot) (state : e.state = .receiving) (requested : e.requested = false)
      (calm : e.Calm) (admits : e.Admits layout) (unread : e.Unread)
      (knows : Knows layout P mem cur)
      (incomplete : (cur.images.get e.destination).state = .incomplete)
  | writing (cur : Snapshot) (cells₀ : Cells) (state : e.state = .writing ∨ e.state = .aborting)
      (requested : e.requested = false) (journal : e.journal.Resting) (admits : e.Admits layout)
      (unread : e.state = .writing → e.Unread)
      (writer : e.writer.Busy layout e.destination mem)
      (confined : SlotConfined layout e.destination cells₀ mem)
      (sound : Sound layout cells₀ cur) (fine : P cur cells₀)
      (incomplete : (cur.images.get e.destination).state = .incomplete)
  | verifying (cur : Snapshot) (state : e.state = .verifying) (requested : e.requested = false)
      (calm : e.Calm) (admits : e.Admits layout) (knows : Knows layout P mem cur)
      (incomplete : (cur.images.get e.destination).state = .incomplete)
      (offset : e.verifyOffset < e.header.imageSize.toNat)
      (read : ∃ bs, mem.cells.bytes (layout.slot e.destination) e.verifyOffset = some bs ∧
        e.verifyCrc = Crc32.calculate bs)
  | installed (cur : Snapshot) (state : e.state = .done) (requested : e.requested = false)
      (calm : e.Calm) (knows : Knows layout P mem cur)
      (image : cur.images.get e.destination = (e.snapshot.images.get e.destination).stored)
      (pending : (cur.images.get e.destination).state = .pending)
  | aborted (cur : Snapshot) (state : e.state = .failed) (requested : e.requested = false)
      (calm : e.Calm) (knows : Knows layout P mem cur)
      (clean : (cur.images.get e.destination).state ≠ .pending)

section phase

variable {layout : Layout} {P : Snapshot → Cells → Prop} {e : Engine} {mem : Memory}

theorem destination_lt (e : Engine) : e.destination < 2 := by
  unfold destination
  omega

/-- **In every phase the flash is guarded.** -/
theorem Phase.guarded (hl : layout.Valid) (hP : e.runningSlot < 2 → Policy layout e.destination P)
    (h : e.Phase layout P mem) : Guarded layout P mem := by
  cases h with
  | quiet state requested calm guarded => exact guarded
  | requested state requested calm admits unread knows
  | receiving cur state requested calm admits unread knows incomplete
  | verifying cur state requested calm admits knows incomplete offset read
  | installed cur state requested calm knows image pending | aborted cur state requested calm knows clean =>
    exact knows.guarded
  | journaling cur nxt cells₀ state requested writer admits status stage confined old new _ _ =>
    have hcut : Cut ⟨layout, fun _ => True⟩ cells₀ cur nxt { mem with events := [] } :=
      ⟨stage.held hl, confined⟩
    exact Guarded.of_cut (hP admits.slot).metadata hcut old new
  | writing cur cells₀ state requested journal admits unread writer confined sound fine inc =>
    exact guarded_of_slot hl (hP admits.slot) e.destination_lt confined sound fine inc

theorem Phase.completed (hl : layout.Valid) (h : e.Phase layout P mem) {op : Operation}
    (hop : mem.pending = some op) :
    e.Phase layout P { cells := op.apply layout mem.cells } := by
  have hout : Outcome layout mem (op.apply layout mem.cells) := by
    rw [Outcome, hop]
    exact Operation.apply_leaves layout op mem.cells
  have hbusy : ∀ {Q : Prop}, mem.pending = none → Q := fun h => by
    rw [hop] at h
    cases h
  cases h with
  | quiet state requested calm guarded =>
    exact .quiet state requested calm (guarded.settle rfl hout)
  | requested state requested calm admits unread knows
  | receiving cur state requested calm admits unread knows incomplete
  | verifying cur state requested calm admits knows incomplete offset read
  | installed cur state requested calm knows image pending | aborted cur state requested calm knows clean =>
    exact hbusy knows.idle
  | journaling cur nxt cells₀ state requested writer admits status stage confined old new inv pend =>
    exact .journaling cur nxt cells₀ state requested writer admits status (stage.completed hl hop)
      (confined.outcome rfl hout) old new inv pend
  | writing cur cells₀ state requested journal admits unread writer confined sound fine inc =>
    refine .writing cur cells₀ state requested journal admits unread ?_ (confined.settle rfl hout)
      sound fine inc
    cases writer with
    | prepare status block entering idle => exact hbusy idle
    | waiting status block requested state => exact .waiting status block requested state

end phase

/-! ## The engine's steps -/

section steps

variable {m : Medium} {executing : Option Nat} {d : Device m} {P : Snapshot → Cells → Prop}
  {e : Engine} (hm : m.Regular)
variable {mem mem' : Memory} {cur : Snapshot} {d' : Device m}

/-- The engine after a step: of the same slot, in a phase. -/
abbrev Next (m : Medium) (P : Snapshot → Cells → Prop) (e e' : Engine) (d : Device m) : Prop :=
  e'.runningSlot = e.runningSlot ∧ e'.Phase m.layout P d.toMemory

/-- A step cut short leaves a guarded flash. -/
abbrev Lost (m : Medium) (P : Snapshot → Cells → Prop) (d : Device m) : Prop :=
  Guarded m.layout P d.toMemory

theorem Knows.same {layout : Layout} (h : Knows layout P mem cur) (heq : mem' = mem) :
    Knows layout P mem' cur := by
  rw [heq]
  exact h

theorem Knows.lost (h : Knows m.layout P d.toMemory cur) (heq : d'.toMemory = d.toMemory) :
    Lost m P d' :=
  (h.same heq).guarded

include hm

/-- Loading: busy while an operation is in progress, and otherwise the newest snapshot. -/
theorem wp_load (hg : Guarded m.layout P d.toMemory) :
    Wp (e.load (Device.flash executing) m.layout) (Lost m P)
      (fun r d' => (r.1 = .busy ∧ r.2 = e ∧ d.pending ≠ none ∧ d'.toMemory = d.toMemory) ∨
        ∃ cur p, r = (.ok, { e with
          journal := { e.journal with latest := p }, snapshot := cur }) ∧
          Outcome m.layout d.toMemory d'.cells ∧ Knows m.layout P d'.toMemory cur) d := by
  refine .bind (wp_load_guarded hm hg) ?_
  rintro _ d' (⟨rfl, hp, hsame⟩ | ⟨cur, p, rfl, hp, ho, hsound, hP⟩)
  · exact .pure (.inl ⟨rfl, rfl, hp, hsame⟩)
  · exact .pure (.inr ⟨cur, p, rfl, ho, hp, hsound, hP⟩)

/-- Asking the journal to write the snapshot at hand after `cur`. -/
theorem wp_record (hrest : e.journal.Resting) (hk : Knows m.layout P d.toMemory cur) :
    Wp (e.record (Device.flash executing) m.layout) (Lost m P)
      (fun r d' => d'.toMemory = d.toMemory ∧ ∃ j, r.2 = { e with journal := j } ∧
        ((r.1 = .ok ∧ j.status = .busy ∧
          Stage m.layout cur (e.snapshot.following cur) j d'.toMemory) ∨
        (r.1 ≠ .ok ∧ j.Resting))) d := by
  refine .bind ((wp_begin_idle hm hrest hk.idle hk.sound).mono (fun d' h => hk.lost h)
    fun _ _ h => h) ?_
  rintro ⟨r, j⟩ d' ⟨hsame, ⟨hok, hbusy, hstage, -⟩ | hfail⟩
  · exact .pure ⟨hsame, j, rfl, .inl ⟨hok, hbusy, hstage⟩⟩
  · exact .pure ⟨hsame, j, rfl, .inr hfail⟩

omit hm in
theorem confined_idle (hp : d.pending = none) (hsame : d'.toMemory = d.toMemory) :
    Confined m.layout d.cells d'.toMemory := by
  rw [hsame]
  exact ⟨fun _ _ => rfl, fun op hop => by rw [hp] at hop; cases hop⟩

/-- From rest an admitted package begins with the invalidation of the destination. -/
theorem wp_stepResting (hP : e.runningSlot < 2 → Policy m.layout e.destination P)
    (hstate : e.resting = true) (h : e.Phase m.layout P d.toMemory) :
    Wp (e.stepResting (Device.flash executing) m.layout) (Lost m P) (Next m P e) d := by
  have hguard := h.guarded hm.layout hP
  have hcases : (e.requested = false ∧ e.Calm) ∨ (e.requested = true ∧ e.Calm ∧
      e.Admits m.layout ∧ e.Unread ∧ Knows m.layout P d.toMemory e.snapshot) := by
    cases h with
    | quiet _ requested calm | installed _ _ requested calm | aborted _ _ requested calm =>
      exact .inl ⟨requested, calm⟩
    | requested _ requested calm admits unread knows =>
      exact .inr ⟨requested, calm, admits, unread, knows⟩
    | journaling _ _ _ state => rcases state with h | h | h <;> simp [resting, h] at hstate
    | writing _ _ state => rcases state with h | h <;> simp [resting, h] at hstate
    | _ => simp_all [resting]
  refine .ite (fun hreq => ?_) fun hreq => ?_
  · obtain ⟨hr, -⟩ | ⟨-, calm, admits, unread, knows⟩ := hcases
    · rw [hr] at hreq
      cases hreq
    refine .bind (wp_record hm (e := { e with requested := false }.mark .incomplete)
      calm.journal knows) ?_
    rintro ⟨r, e'⟩ d' ⟨hsame, j, rfl, ⟨rfl, hbusy, hstage⟩ | ⟨hfail, hrest⟩⟩
    · refine .ite (fun _ => .pure ⟨rfl, ?_⟩) fun h => absurd rfl h
      refine .journaling e.snapshot _ d.cells (.inl rfl) rfl calm.writer { admits with } hbusy hstage
        (confined_idle knows.idle hsame) knows.fine ((hP admits.slot).invalidate knows.fine)
        (fun _ => ⟨{ unread with }, ?_⟩) (fun h => by cases h)
      show (((e.snapshot.mark e.destination .incomplete).following e.snapshot).images.get
        e.destination).state = .incomplete
      rw [Snapshot.following_get, Snapshot.mark_get]
      rfl
    · refine .ite (fun h => absurd h hfail) fun _ => .pure ⟨rfl, ?_⟩
      exact .quiet (.inl rfl) rfl ⟨hrest, calm.writer⟩ (knows.lost hsame)
  · have hcalm : e.Calm := hcases.elim (·.2) (·.2.1)
    have hreq : e.requested = false := Bool.eq_false_iff.mpr hreq
    refine .ite (fun _ => .pure ⟨rfl, .quiet (.inl rfl) hreq { hcalm with } hguard⟩) fun _ => ?_
    refine .ite (fun _ => .pure ⟨rfl, .quiet (.inl rfl) hreq { hcalm with } hguard⟩) fun _ => ?_
    exact .pure ⟨rfl, h⟩

/-- An operation of the journal that the engine has begun: from `cur` to `nxt`, both fine. -/
structure Recording (m : Medium) (P : Snapshot → Cells → Prop) (e : Engine) (cells₀ : Cells)
    (cur nxt : Snapshot) : Prop where
  requested : e.requested = false
  writer : e.writer.Resting
  admits : e.Admits m.layout
  old : P cur cells₀
  new : P nxt cells₀

section recording

variable {cells₀ : Cells} {cur nxt : Snapshot} {j : Journal}
  (hP : e.runningSlot < 2 → Policy m.layout e.destination P)
  (hr : Recording m P e cells₀ cur nxt)

include hP hr

omit hm in
theorem Recording.lost (hcut : Cut m cells₀ cur nxt d) : Lost m P d :=
  Guarded.of_cut (hP hr.admits.slot).metadata hcut hr.old hr.new

omit hm in
/-- An operation that has succeeded leaves its snapshot as the newest one. -/
theorem Recording.knows (hmv : Moved m cells₀ cur nxt j d) (hok : j.status = .ok) :
    Knows m.layout P d.toMemory nxt := by
  obtain ⟨hidle, hsound⟩ := hmv.sound hok
  exact ⟨hidle, hsound, (hP hr.admits.slot).metadata hr.new hmv.2.cells⟩

theorem Recording.aborting (hmv : Moved m cells₀ cur nxt j d) :
    ({ e with journal := j, state := .aborting } : Engine).Phase m.layout P d.toMemory := by
  by_cases hb : j.status = .busy
  · exact .journaling cur nxt cells₀ (.inr (.inr rfl)) hr.requested hr.writer { hr.admits with } hb
      (hmv.stage hb) hmv.2 hr.old hr.new (fun h => by cases h) (fun h => by cases h)
  · exact .quiet (.inr ⟨rfl, { hr.admits with }⟩) hr.requested ⟨hmv.resting hb, hr.writer⟩
      (hr.lost hP (hmv.cut hm.layout))

theorem Recording.quiet (hmv : Moved m cells₀ cur nxt j d) (hb : j.status ≠ .busy)
    {e' : Engine} (hstate : e'.resting = true) (hreq : e'.requested = e.requested)
    (hw : e'.writer = e.writer) (hj : e'.journal = j) : e'.Phase m.layout P d.toMemory :=
  .quiet (.inl hstate) (hreq.trans hr.requested)
    ⟨by rw [hj]; exact hmv.resting hb, by rw [hw]; exact hr.writer⟩
    (hr.lost hP (hmv.cut hm.layout))

end recording

/-- With the destination invalid in the newest snapshot, the engine receives. -/
theorem wp_stepInvalidating (hP : e.runningSlot < 2 → Policy m.layout e.destination P)
    (hstate : e.state = .invalidating) (h : e.Phase m.layout P d.toMemory) :
    Wp (e.stepInvalidating (Device.flash executing) m.layout) (Lost m P) (Next m P e) d := by
  cases h with
  | journaling cur nxt cells₀ state requested writer admits status stage conf old new inv pend =>
    have hr : Recording m P e cells₀ cur nxt := ⟨requested, writer, admits, old, new⟩
    obtain ⟨hunread, hinv⟩ := inv hstate
    refine .bind ((Boot.wp_tick hm.layout conf hm.steady status stage).mono
      (fun d' h => hr.lost hP h) fun _ _ h => h) fun j d' hmv => ?_
    have habort := hr.aborting hm hP hmv
    refine .ite (fun _ => .pure ⟨rfl, habort⟩) fun _ => ?_
    refine .ite (fun hb => .pure ⟨rfl, ?_⟩) fun hb => ?_
    · exact .journaling cur nxt cells₀ state requested writer { admits with } hb
        (hmv.stage hb) hmv.2 old new (fun _ => ⟨{ hunread with }, hinv⟩) pend
    refine .ite (fun ho => .pure ⟨rfl, hr.quiet hm hP hmv hb rfl rfl rfl rfl⟩) fun ho => ?_
    have hk := hr.knows hP hmv (Decidable.not_not.mp ho)
    refine .seq (Device.wp_now hk.guarded fun t d₂ hsame => .pure ⟨rfl, ?_⟩)
    exact .receiving nxt rfl requested ⟨hmv.resting hb, writer⟩ { admits with } { hunread with }
      (hk.same hsame) hinv
  | _ => simp_all [resting]

omit hm in
theorem wp_used (hk : Knows m.layout P d.toMemory cur) :
    Wp (e.used (Device.flash executing)) (Lost m P) (fun e' d' => d'.toMemory = d.toMemory ∧
      ∃ rx rxAt t, e' = { e with rx, rxAt, waitingSince := t }) d := by
  refine .ite (fun _ => ?_) fun _ => .pure ⟨rfl, e.rx, e.rxAt, e.waitingSince, rfl⟩
  exact .seq (Device.wp_now hk.guarded fun t d' hsame => .pure ⟨hsame, [], 0, t, rfl⟩)

omit hm in
theorem phase_fail {r : Status} (hreq : e.requested = false) (calm : e.Calm)
    (admits : e.Admits m.layout) (hk : Knows m.layout P d.toMemory cur) :
    (e.fail r).Phase m.layout P d.toMemory :=
  .quiet (.inr ⟨rfl, { admits with }⟩) hreq { calm with } hk.guarded

omit hm in
/-- The engine receives until a block is ready to be written or the image is complete. -/
theorem wp_stepReceiving (hstate : e.state = .receiving) (h : e.Phase m.layout P d.toMemory) :
    Wp (e.stepReceiving (Device.flash executing) m.layout) (Lost m P) (Next m P e) d := by
  cases h with
  | receiving cur state requested calm admits unread knows incomplete =>
    refine .ite (fun _ => .pure ⟨rfl, ?_⟩) fun _ => ?_
    · exact .quiet (.inr ⟨rfl, { admits with }⟩) requested { calm with } knows.guarded
    refine .bind (wp_used (e := e.feed) knows) ?_
    rintro e' d' ⟨hsame, rx, rxAt, t, rfl⟩
    have hk := knows.same hsame
    have hfail : ∀ (r : Status) (d₂ : Device m), d₂.toMemory = d'.toMemory →
        (({ e.feed with rx, rxAt, waitingSince := t } : Engine).fail r).Phase m.layout P
          d₂.toMemory := fun r d₂ h₂ =>
      phase_fail requested { calm with } { admits with } (hk.same h₂)
    refine .ite (fun _ => .pure ⟨rfl, hfail _ d' rfl⟩) fun _ => ?_
    refine .ite (fun _ => ?_) fun _ => .ite (fun _ => ?_) fun _ => ?_
    · refine .bind ((Writer.wp_begin calm.writer hk.idle).mono (fun d₂ h => hk.lost h)
        fun _ _ h => h) ?_
      rintro ⟨r, w⟩ d₂ ⟨hsame₂, ⟨hok, hbusy⟩ | ⟨hno, rfl⟩⟩
      · refine .ite (fun _ => .pure ⟨rfl, ?_⟩) fun h => absurd hok h
        have hk₂ := hk.same hsame₂
        exact .writing cur d₂.cells (.inl rfl) requested calm.journal { admits with }
          (fun _ => { unread with }) hbusy (.of_idle hk₂.idle) hk₂.sound hk₂.fine incomplete
      · exact .ite (fun h => absurd h hno) fun _ => .pure ⟨rfl, hfail r d₂ hsame₂⟩
    · refine .ite (fun _ => .pure ⟨rfl, hfail _ d' rfl⟩) fun _ => .pure ⟨rfl, ?_⟩
      refine .verifying cur rfl requested { calm with } { admits with } hk incomplete ?_ ?_
      · show e.verifyOffset < e.header.imageSize.toNat
        rw [unread.offset]
        exact Nat.pos_of_ne_zero fun h => admits.header.size_ne (UInt32.toNat_inj.mp h)
      · refine ⟨[], ?_, unread.crc⟩
        show d'.cells.bytes _ e.verifyOffset = some []
        rw [unread.offset]
        rfl
    · have hstay : ∀ d₂ : Device m, d₂.toMemory = d'.toMemory →
          ({ e.feed with rx, rxAt, waitingSince := t } : Engine).Phase m.layout P d₂.toMemory :=
        fun d₂ h₂ => .receiving cur state requested { calm with } { admits with } { unread with }
          (hk.same h₂) incomplete
      refine .ite (fun _ => .pure ⟨rfl, hfail _ d' rfl⟩) fun _ => ?_
      refine .ite (fun _ => ?_) fun _ => .pure ⟨rfl, hstay d' rfl⟩
      refine .seq (Device.wp_now hk.guarded fun t₂ d₂ h₂ => ?_)
      exact .ite (fun _ => .pure ⟨rfl, hfail _ d₂ h₂⟩) fun _ => .pure ⟨rfl, hstay d₂ h₂⟩
  | _ => simp_all [resting]

/-- What the writer leaves of slot `i` is as fine as what it found. -/
theorem wp_writer {cells₀ : Cells} {w : Writer} {i : Nat} (hP : Policy m.layout i P) (hi : i < 2)
    (hw : w.Busy m.layout i d.toMemory) (hconf : SlotConfined m.layout i cells₀ d.toMemory)
    (hsound : Sound m.layout cells₀ cur) (hfine : P cur cells₀)
    (hinc : (cur.images.get i).state = .incomplete) :
    Wp (w.tick (Device.flash executing) m.layout) (Lost m P)
      (fun w' d' => SlotConfined m.layout i cells₀ d'.toMemory ∧ Lost m P d' ∧
        (w'.Busy m.layout i d'.toMemory ∨
          w'.Resting ∧ (w'.status = .ok → Knows m.layout P d'.toMemory cur))) d := by
  have hlost : ∀ d' : Device m, SlotConfined m.layout i cells₀ d'.toMemory → Lost m P d' :=
    fun d' h => guarded_of_slot hm.layout hP hi h hsound hfine hinc
  refine (Writer.wp_tick hm.layout hw hconf).mono hlost fun w' d' ⟨hc, hmv⟩ => ⟨hc, hlost d' hc, ?_⟩
  refine hmv.imp id fun ⟨hrest, hok⟩ => ⟨hrest, fun hs => ⟨hok hs, ?_, ?_⟩⟩
  · exact hsound.congr fun k p x hp hx => hc.cells _ fun hin =>
      hin.not_metadata hm.layout hi (hp.metadata hm.layout hx)
  · exact hP.overwrite hfine hinc hc.cells

theorem wp_stepWriting (hP : e.runningSlot < 2 → Policy m.layout e.destination P)
    (hstate : e.state = .writing) (h : e.Phase m.layout P d.toMemory) :
    Wp (e.stepWriting (Device.flash executing) m.layout) (Lost m P) (Next m P e) d := by
  cases h with
  | writing cur cells₀ state requested journal admits unread writer confined sound fine inc =>
    refine .ite (fun _ => .pure ⟨rfl, ?_⟩) fun _ => ?_
    · exact .writing cur cells₀ (.inr rfl) requested journal { admits with } (fun h => by cases h)
        writer.cancel confined sound fine inc
    refine .bind (wp_writer hm (hP admits.slot) e.destination_lt writer confined sound fine inc) ?_
    rintro w d' ⟨hconf, hlost, hbusy | ⟨hrest, hok⟩⟩
    · refine .ite (fun _ => .pure ⟨rfl, ?_⟩) fun h => absurd hbusy.status_eq h
      exact .writing cur cells₀ state requested journal { admits with }
        (fun h => { unread hstate with }) hbusy hconf sound fine inc
    refine .ite (fun h => absurd h hrest.status) fun _ => .ite (fun _ => .pure ⟨rfl, ?_⟩) ?_
    · exact .quiet (.inr ⟨rfl, { admits with }⟩) requested ⟨journal, hrest⟩ hlost
    · intro hst
      have hk := hok (Decidable.not_not.mp hst)
      refine .seq (Device.wp_now hlost fun t d₂ hsame => .pure ⟨rfl, ?_⟩)
      exact .receiving cur rfl requested ⟨journal, hrest⟩ { admits with } { unread hstate with }
        (hk.same hsame) inc
  | _ => simp_all [resting]

theorem wp_stepCommitting (hP : e.runningSlot < 2 → Policy m.layout e.destination P)
    (hstate : e.state = .committing) (h : e.Phase m.layout P d.toMemory) :
    Wp (e.stepCommitting (Device.flash executing) m.layout) (Lost m P) (Next m P e) d := by
  cases h with
  | journaling cur nxt cells₀ state requested writer admits status stage conf old new inv pend =>
    have hr : Recording m P e cells₀ cur nxt := ⟨requested, writer, admits, old, new⟩
    refine .bind ((Boot.wp_tick hm.layout conf hm.steady status stage).mono
      (fun d' h => hr.lost hP h) fun _ _ h => h) fun j d' hmv => ?_
    have habort := hr.aborting hm hP hmv
    refine .ite (fun _ => .pure ⟨rfl, habort⟩) fun _ => ?_
    refine .ite (fun hb => .pure ⟨rfl, ?_⟩) fun hb => ?_
    · exact .journaling cur nxt cells₀ state requested writer { admits with } hb
        (hmv.stage hb) hmv.2 old new (fun h => absurd (hstate.symm.trans h) (by decide)) pend
    refine .ite (fun hok => .pure ⟨rfl, ?_⟩) fun _ => .pure ⟨rfl, ?_⟩
    · obtain ⟨himage, hpend⟩ := pend hstate
      exact .installed nxt rfl requested ⟨hmv.resting hb, writer⟩ (hr.knows hP hmv hok) himage hpend
    · exact .quiet (.inr ⟨rfl, { admits with }⟩) requested ⟨hmv.resting hb, writer⟩
        (hr.lost hP (hmv.cut hm.layout))
  | _ => simp_all [resting]

theorem wp_load_known (hk : Knows m.layout P d.toMemory cur) :
    Wp (e.load (Device.flash executing) m.layout) (Lost m P)
      (fun r d' => ∃ p, r = (.ok, { e with
        journal := { e.journal with latest := p }, snapshot := cur }) ∧
        d'.toMemory = d.toMemory) d := by
  refine (wp_load hm hk.guarded).conseq ?_
  rintro r d' (⟨-, -, hp, -⟩ | ⟨cur', p, rfl, ho, hk'⟩)
  · exact absurd hk.idle hp
  · have hsame := outcome_same hk.idle hk'.idle ho
    have hsound := hk'.sound
    rw [hsame] at hsound
    obtain rfl := hsound.unique hk.sound
    exact ⟨p, rfl, hsame⟩

theorem wp_commitImage (hP : e.runningSlot < 2 → Policy m.layout e.destination P)
    (hreq : e.requested = false) (calm : e.Calm) (admits : e.Admits m.layout)
    (hk : Knows m.layout P d.toMemory cur)
    (hinc : (cur.images.get e.destination).state = .incomplete)
    (hread : ∃ bs, d.cells.bytes (m.layout.slot e.destination) e.header.imageSize.toNat = some bs ∧
      e.verifyCrc = Crc32.calculate bs) :
    Wp (e.commitImage (Device.flash executing) m.layout) (Lost m P) (Next m P e) d := by
  refine .ite (fun _ => .pure ⟨rfl, phase_fail hreq calm admits hk⟩) fun _ => ?_
  refine .bind (wp_load_known hm hk) ?_
  rintro _ d' ⟨p, rfl, hsame⟩
  refine .ite (fun h => absurd rfl h) fun _ => ?_
  have hk' := hk.same hsame
  have hrest : ({ e.journal with latest := p } : Journal).Resting := { calm.journal with }
  refine .ite (fun _ => .pure ⟨rfl, ?_⟩) fun hcounter => ?_
  · exact phase_fail hreq ⟨hrest, calm.writer⟩ { admits with } hk'
  refine .bind (wp_record hm (e := Engine.install { e with
    journal := { e.journal with latest := p }, snapshot := cur }) hrest hk') ?_
  rintro ⟨r, e'⟩ d₂ ⟨hsame₂, j, rfl, ⟨rfl, hbusy, hstage⟩ | ⟨hfail, hrest'⟩⟩
  · refine .ite (fun _ => .pure ⟨rfl, ?_⟩) fun h => absurd rfl h
    have hne : cur.counter + 1 ≠ 0 := fun h =>
      absurd (h ▸ lt_succ hcounter) (UInt64.not_lt_zero)
    obtain ⟨bs, hbs, hcrc⟩ := hread
    have hcells : d'.cells = d.cells := by rw [hsame]
    have himage : Verifies m.layout d'.cells e.destination (Engine.image { e with
        journal := { e.journal with latest := p }, snapshot := cur }) :=
      ⟨admits.header.size_ne, admits.header.fits, admits.header.product, admits.header.revision,
        hne, bs, by rw [hcells]; exact hbs, hcrc.symm⟩
    have hnew := (hP admits.slot).install hk'.fine hinc himage hcounter rfl rfl
    refine .journaling cur _ d'.cells (.inr (.inl rfl)) hreq calm.writer { admits with } hbusy hstage
      (confined_idle hk'.idle hsame₂) hk'.fine hnew (fun h => by cases h) fun _ => ⟨?_, ?_⟩
    · exact Snapshot.following_get _ _ _
    · refine (congrArg Image.state (Snapshot.following_get _ _ _)).trans ?_
      exact congrArg Image.state (Snapshot.install_get _ _ _)
  · refine .ite (fun h => absurd h hfail) fun _ => .pure ⟨rfl, ?_⟩
    exact phase_fail hreq ⟨hrest', calm.writer⟩ { admits with } (hk'.same hsame₂)

theorem wp_stepVerifying (hP : e.runningSlot < 2 → Policy m.layout e.destination P)
    (hstate : e.state = .verifying) (h : e.Phase m.layout P d.toMemory) :
    Wp (e.stepVerifying (Device.flash executing) m.layout) (Lost m P) (Next m P e) d := by
  cases h with
  | verifying cur state requested calm admits knows incomplete offset read =>
    refine .ite (fun _ => .pure ⟨rfl, ?_⟩) fun _ => ?_
    · exact .quiet (.inr ⟨rfl, { admits with }⟩) requested { calm with } knows.guarded
    refine .seq (Device.wp_read knows.guarded (fun bs d' hsame _ hbs => ?_) fun r d' hsame hr => ?_)
    · refine .ite (fun h => absurd rfl h) fun _ => ?_
      obtain ⟨old, hold, hcrc⟩ := read
      have hk := knows.same hsame
      have hcells : d'.cells = d.cells := by rw [hsame]
      have hall : d'.cells.bytes (m.layout.slot e.destination)
          (e.verifyOffset + min 256 (e.header.imageSize.toNat - e.verifyOffset)) =
          some (old ++ bs) := by
        rw [hcells]
        exact Cells.bytes_append hold hbs
      have hcrc' : Crc32.update e.verifyCrc bs = Crc32.calculate (old ++ bs) := by
        rw [hcrc, Crc32.update_calculate]
      refine .ite (fun hend => ?_) fun hend => .pure ⟨rfl, ?_⟩
      · have hend : e.verifyOffset + min 256 (e.header.imageSize.toNat - e.verifyOffset) =
            e.header.imageSize.toNat := hend
        rw [hend] at hall
        exact wp_commitImage hm hP requested { calm with } { admits with } hk incomplete
          ⟨old ++ bs, hall, hcrc'⟩
      · refine .verifying cur state requested { calm with } { admits with } hk incomplete ?_
          ⟨old ++ bs, hall, hcrc'⟩
        have hend : e.verifyOffset + min 256 (e.header.imageSize.toNat - e.verifyOffset) ≠
            e.header.imageSize.toNat := hend
        show e.verifyOffset + min 256 (e.header.imageSize.toNat - e.verifyOffset) <
            e.header.imageSize.toNat
        omega
    · exact .ite (fun _ => .pure ⟨rfl, phase_fail requested calm admits (knows.same hsame)⟩)
        fun h => absurd hr h
  | _ => simp_all [resting]

/-- What an abort ends with once neither machine is at work: a candidate that is pending is
invalidated, and otherwise there is none. -/
theorem wp_abortEnd (hP : e.runningSlot < 2 → Policy m.layout e.destination P)
    (hstate : e.state = .aborting) (hreq : e.requested = false) (calm : e.Calm)
    (admits : e.Admits m.layout) (hg : Guarded m.layout P d.toMemory) (hidle : d.pending = none) :
    Wp (do
        let (result, e) ← e.load (Device.flash executing) m.layout
        if result = .ok ∧ (e.snapshot.images.get e.destination).state = .pending then do
          let (result, e) ← (e.mark .incomplete).record (Device.flash executing) m.layout
          if result = .ok then pure e else pure (e.failed result)
        else pure (e.failed result)) (Lost m P) (Next m P e) d := by
  obtain ⟨cur, hsound, hfine⟩ := hg.sound hidle
  have hk : Knows m.layout P d.toMemory cur := ⟨hidle, hsound, hfine⟩
  refine .bind (wp_load_known hm hk) ?_
  rintro _ d' ⟨p, rfl, hsame⟩
  have hk' := hk.same hsame
  have hrest : ({ e.journal with latest := p } : Journal).Resting := { calm.journal with }
  refine .ite (fun _ => ?_) fun hclean => .pure ⟨rfl, ?_⟩
  · refine .bind (wp_record hm (e := Engine.mark { e with
      journal := { e.journal with latest := p }, snapshot := cur } .incomplete) hrest hk') ?_
    rintro ⟨r, e'⟩ d₂ ⟨hsame₂, j, rfl, ⟨rfl, hbusy, hstage⟩ | ⟨hfail, hrest'⟩⟩
    · refine .ite (fun _ => .pure ⟨rfl, ?_⟩) fun h => absurd rfl h
      exact .journaling cur _ d'.cells (.inr (.inr hstate)) hreq calm.writer { admits with } hbusy
        hstage (confined_idle hk'.idle hsame₂) hk'.fine ((hP admits.slot).invalidate hk'.fine)
        (fun h => absurd (hstate.symm.trans h) (by decide))
        (fun h => absurd (hstate.symm.trans h) (by decide))
    · refine .ite (fun h => absurd h hfail) fun _ => .pure ⟨rfl, ?_⟩
      exact .quiet (.inl rfl) hreq ⟨hrest', calm.writer⟩ (hk'.lost hsame₂)
  · exact .aborted cur rfl hreq ⟨hrest, calm.writer⟩ hk' fun h => hclean ⟨rfl, h⟩

theorem wp_stepAborting (hP : e.runningSlot < 2 → Policy m.layout e.destination P)
    (hstate : e.state = .aborting) (h : e.Phase m.layout P d.toMemory) :
    Wp (e.stepAborting (Device.flash executing) m.layout) (Lost m P) (Next m P e) d := by
  cases h with
  | quiet state requested calm guarded =>
    have admits : e.Admits m.layout := by
      rcases state with h | ⟨-, h⟩
      · simp [resting, hstate] at h
      · exact h
    refine .ite (fun h => absurd h calm.writer.status) fun _ => ?_
    refine .ite (fun h => absurd h calm.journal.status) fun _ => ?_
    refine .seq (wp_settle guarded (fun d' _ hsame => ?_) fun r d' hr hp ho => ?_)
    · refine .ite (fun _ => .pure ⟨rfl, ?_⟩) fun h => absurd rfl h
      exact .quiet state requested calm (by rw [hsame]; exact guarded)
    · refine .ite (fun h => absurd h hr) fun _ => ?_
      exact wp_abortEnd hm hP hstate requested calm admits (guarded.settle hp ho) hp
  | journaling cur nxt cells₀ state requested writer admits status stage conf old new inv pend =>
    have hr : Recording m P e cells₀ cur nxt := ⟨requested, writer, admits, old, new⟩
    refine .ite (fun h => absurd h writer.status) fun _ => ?_
    refine .ite (fun _ => ?_) fun h => absurd status h
    refine .bind ((Boot.wp_tick hm.layout conf hm.steady status stage).mono
      (fun d' h => hr.lost hP h) fun _ _ h => h) fun j d' hmv => .pure ⟨rfl, ?_⟩
    have habort := hr.aborting hm hP hmv
    rwa [← hstate] at habort
  | writing cur cells₀ state requested journal admits unread writer confined sound fine inc =>
    refine .ite (fun _ => ?_) fun h => absurd writer.status_eq h
    refine .bind (wp_writer hm (hP admits.slot) e.destination_lt writer.cancel confined sound fine
      inc) ?_
    rintro w d' ⟨hconf, hlost, hbusy | ⟨hrest, -⟩⟩
    · exact .pure ⟨rfl, .writing cur cells₀ state requested journal { admits with }
        (fun h => absurd (hstate.symm.trans h) (by decide)) hbusy hconf sound fine inc⟩
    · exact .pure ⟨rfl, .quiet (.inr ⟨hstate, { admits with }⟩) requested ⟨journal, hrest⟩ hlost⟩
  | _ => simp_all [resting]

/-- **Every tick** takes the engine from phase to phase; cut short it leaves a guarded flash. -/
theorem wp_tick (hP : e.runningSlot < 2 → Policy m.layout e.destination P)
    (h : e.Phase m.layout P d.toMemory) :
    Wp (e.tick (Device.flash executing) m.layout) (Lost m P) (Next m P e) d := by
  unfold tick step
  split
  case h_1 hs => exact wp_stepResting hm hP (by simp [resting, hs]) h
  case h_2 hs => exact wp_stepResting hm hP (by simp [resting, hs]) h
  case h_3 hs => exact wp_stepResting hm hP (by simp [resting, hs]) h
  case h_4 hs => exact wp_stepResting hm hP (by simp [resting, hs]) h
  case h_5 hs => exact wp_stepInvalidating hm hP hs h
  case h_6 hs => exact wp_stepReceiving hs h
  case h_7 hs => exact wp_stepWriting hm hP hs h
  case h_8 hs => exact wp_stepVerifying hm hP hs h
  case h_9 hs => exact wp_stepCommitting hm hP hs h
  case h_10 hs => exact wp_stepAborting hm hP hs h

/-! ## Admission -/

omit hm in
theorem Phase.reload {p : Nat} (h : e.Phase m.layout P mem) (header : Header)
    (hstate : e.resting = true) (hreq : e.requested = false) (hp : mem'.pending = none)
    (ho : Outcome m.layout mem mem'.cells) (hk : Knows m.layout P mem' cur) :
    ({ e with header, journal := { e.journal with latest := p }, snapshot := cur } : Engine).Phase
      m.layout P mem' := by
  have hsame : ∀ {s : Snapshot}, Knows m.layout P mem s → s = cur ∧ mem' = mem := by
    intro s hs
    have hmem := outcome_same hs.idle hp ho
    have hsound := hk.sound
    rw [hmem] at hsound
    exact ⟨hs.sound.unique hsound, hmem⟩
  cases h with
  | quiet state requested calm guarded =>
    refine .quiet (.inl hstate) requested ⟨{ calm.journal with }, calm.writer⟩ hk.guarded
  | installed s state requested calm knows image pending =>
    obtain ⟨rfl, rfl⟩ := hsame knows
    refine .installed s state requested ⟨{ calm.journal with }, calm.writer⟩ knows ?_ pending
    have hs := congrArg (fun s : Snapshot => s.images.get e.destination) knows.sound.stored_eq
    simp only [Snapshot.stored, Pair.get] at hs
    show s.images.get e.destination = (s.images.get e.destination).stored
    unfold Pair.get
    split at hs <;> simp_all
  | aborted s state requested calm knows clean =>
    obtain ⟨rfl, rfl⟩ := hsame knows
    exact .aborted s state requested ⟨{ calm.journal with }, calm.writer⟩ knows clean
  | journaling _ _ _ state => rcases state with h | h | h <;> simp [resting, h] at hstate
  | writing _ _ state => rcases state with h | h <;> simp [resting, h] at hstate
  | _ => simp_all [resting]

omit hm in
theorem Phase.header {header : Header} (h : e.Phase m.layout P mem) (hstate : e.resting = true)
    (hreq : e.requested = false) : ({ e with header } : Engine).Phase m.layout P mem := by
  cases h with
  | quiet state requested calm guarded =>
    exact .quiet (.inl hstate) requested { calm with } guarded
  | installed s state requested calm knows image pending =>
    exact .installed s state requested { calm with } knows image pending
  | aborted s state requested calm knows clean =>
    exact .aborted s state requested { calm with } knows clean
  | journaling _ _ _ state => rcases state with h | h | h <;> simp [resting, h] at hstate
  | writing _ _ state => rcases state with h | h <;> simp [resting, h] at hstate
  | _ => simp_all [resting]

omit hm in
theorem Phase.calm (h : e.Phase m.layout P mem) (hstate : e.resting = true) : e.Calm := by
  cases h with
  | journaling _ _ _ state => rcases state with h | h | h <;> simp [resting, h] at hstate
  | writing _ _ state => rcases state with h | h <;> simp [resting, h] at hstate
  | _ => assumption

/-- **Admission**: the package's installation is requested with the newest snapshot at hand, or
nothing is under way as before. -/
theorem wp_begin {bytes : Bytes} {owner : Option Nat} (h : e.Phase m.layout P d.toMemory)
    (hP : e.runningSlot < 2 → Policy m.layout e.destination P) :
    Wp (e.begin (Device.flash executing) m.layout bytes owner) (Lost m P)
      (fun r d' => Next m P e r.2 d') d := by
  refine .ite (fun _ => .pure ⟨rfl, h⟩) fun _ => .ite (fun _ => .pure ⟨rfl, h⟩) fun _ => ?_
  refine .ite (fun _ => .pure ⟨rfl, h⟩) fun hactive => ?_
  refine .ite (fun _ => .pure ⟨rfl, h⟩) fun hslot => ?_
  obtain ⟨hreq, hstate⟩ : e.requested = false ∧ e.resting = true := by
    simpa [active] using hactive
  cases hdec : decodeHeader bytes m.layout e.destination with
  | error r => exact .pure ⟨rfl, h⟩
  | ok header =>
    have hguard := h.guarded hm.layout hP
    refine .bind (wp_load hm (e := { e with header }) hguard) ?_
    rintro ⟨r, e'⟩ d' (⟨rfl, rfl, -, hsame⟩ | ⟨cur, p, heq, ho, hk⟩)
    · refine .ite (fun _ => .pure ⟨rfl, ?_⟩) fun h => absurd Status.noConfusion h
      rw [hsame]
      exact h.header hstate hreq
    · obtain ⟨rfl, rfl⟩ := Prod.mk.inj heq
      have hreload := h.reload header (p := p) hstate hreq hk.idle ho hk
      refine .ite (fun h => absurd rfl h) fun _ => ?_
      refine .ite (fun _ => .pure ⟨rfl, hreload⟩) fun _ => ?_
      refine .ite (fun _ => .pure ⟨rfl, hreload⟩) fun _ => ?_
      refine .seq (wp_settle hk.guarded (fun d₂ hp _ => absurd hk.idle hp)
        fun r d₂ hr hp₂ ho₂ => ?_)
      have hsame := outcome_same hk.idle hp₂ ho₂
      refine .ite (fun h => absurd h hr) fun _ => .pure ⟨rfl, ?_⟩
      have hcalm := h.calm hstate
      exact .requested hstate rfl ⟨{ hcalm.journal with }, hcalm.writer⟩
        ⟨Nat.lt_of_not_le hslot, decodeHeader_admitted hdec⟩ ⟨rfl, rfl⟩ (hk.same hsame)

end steps

end Engine

end DaveOs.Update
