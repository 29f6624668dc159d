import DaveOs.Boot.JournalStep
import DaveOs.Boot.JournalWrite

/-!
# The journal's calls

`begin` accepts an operation whose first stage is in order: the record goes into an erased slot, or
into a bank that may be erased because the other one has the newest snapshot, after a checkpoint
where that takes one (`wp_begin`). `commit` and `prepareRuntime` drive such operations to their end
(`wp_commit`, `wp_prepareRuntime`).
-/

namespace DaveOs.Boot

variable {s : Snapshot} {i j : Nat} {state : ImageState}

open Bytes Wire Crash

theorem lt_succ {c : UInt64} (h : c ≠ 0xffffffffffffffff) : c < c + 1 := by
  have hlt := c.toNat_lt
  have hne : c.toNat ≠ 18446744073709551615 := fun he => h (UInt64.toNat_inj.mp he)
  have hone : (1 : UInt64).toNat = 1 := rfl
  rw [UInt64.lt_iff_toNat_lt, UInt64.toNat_add]
  omega

/-- The snapshot that is stored when `s` is written after `cur`. -/
def Snapshot.following (s cur : Snapshot) : Snapshot :=
  ({ s with sequence := cur.sequence + 1 } : Snapshot).stored

theorem Snapshot.following_stored (s cur : Snapshot) :
    (s.following cur).stored = s.following cur := by
  simp only [following, stored, Image.stored_stored]

@[simp] theorem Snapshot.following_get (s cur : Snapshot) (i : Nat) :
    (s.following cur).images.get i = (s.images.get i).stored := by
  unfold following stored Pair.get
  split <;> rfl

@[simp] theorem Snapshot.mark_get (s : Snapshot) (i : Nat) (state : ImageState) :
    (s.mark i state).images.get i = { s.images.get i with state } := Pair.get_set_self _ _ _

@[simp] theorem Snapshot.install_get (s : Snapshot) (i : Nat) (image : Image) :
    (s.install i image).images.get i = image := Pair.get_set_self _ _ _

theorem Snapshot.mark_get_ne (hi : i < 2) (hj : j < 2) (hne : i ≠ j) :
    (s.mark i state).images.get j = s.images.get j :=
  Pair.get_set_ne _ _ hi hj hne

theorem Snapshot.mark_installation (hi : i < 2) (hj : j < 2) :
    ((s.mark i state).images.get j).installation = (s.images.get j).installation := by
  by_cases h : i = j
  · subst h
    rw [mark_get]
  · rw [mark_get_ne hi hj h]

theorem Snapshot.install_get_ne {image : Image} (hi : i < 2) (hj : j < 2) (hne : i ≠ j) :
    (s.install i image).images.get j = s.images.get j :=
  Pair.get_set_ne _ _ hi hj hne

section placing

variable {layout : Layout} {cells : Cells} {cur nxt : Snapshot} {j : Journal} {i p : Nat}
variable {k : Nat}

/-- The journal's variables are set for an operation: its first stage is to erase, or to write. -/
def Placed (layout : Layout) (cells : Cells) (cur nxt : Snapshot) (j : Journal) : Prop :=
  j.eraseNeeded = true ∧ (∃ i, Erasing layout { j with offset := 0 } cells cur nxt i) ∨
    j.eraseNeeded = false ∧ Appending layout { j with offset := 0 } cells cur nxt 0

theorem Placed.stage {mem : Memory} (h : Placed layout mem.cells cur nxt j)
    (hidle : mem.pending = none) (hstate : j.state = .idle ∨ j.state = .done ∨ j.state = .failed)
    (t : Bool) (s : Status) :
    Stage layout cur nxt { j with offset := 0, timedOut := t, requested := true, status := s }
      mem := by
  rcases h with ⟨he, i, her⟩ | ⟨he, happ⟩
  · refine .toErase i (.inr ⟨rfl, hstate, ?_⟩) hidle { her with }
    rw [he]
    rfl
  · refine .toWrite (.inr ⟨rfl, hstate, ?_⟩) hidle (show 0 < kRecordSize by decide) { happ with }
    rw [he]
    rfl

theorem Placed.append (hsound : Sound layout cells cur) (hp : layout.InBank i p)
    (hblank : Blank cells p) (htarget : j.target = p) (hneed : j.eraseNeeded = false)
    (hcheck : j.checkpoint = false) (honly : j.eraseOnly = false)
    (hfits : Fits layout j.record nxt) (hfollows : Follows layout cells cur j.record nxt) :
    Placed layout cells cur nxt j := by
  have hgoal : ({ j with offset := 0 } : Journal).goal cur nxt = nxt := by
    simp only [Journal.goal, hcheck]
    rfl
  refine .inr ⟨hneed, ?_⟩
  refine { sound := hsound, writing := ?_, eraseOnly := honly, chain := fun h => ?_ }
  · rw [hgoal]
    exact
      { place := ⟨i, by rw [htarget]; exact hp⟩, fits := hfits, follows := hfollows,
        written := fun x hx => absurd hx (Nat.not_lt_zero x),
        blank := fun x _ hx => by rw [htarget]; exact hblank x hx,
        aligned := Nat.zero_mod _, le := Nat.zero_le _ }
  · rw [hcheck] at h
    cases h

theorem Placed.erase (hsound : Sound layout cells cur) (hi : i < 2)
    (hother : HasIn layout cells (1 - i) cur) (htarget : j.target = layout.bank i)
    (hneed : j.eraseNeeded = true) (hcheck : j.checkpoint = false) (honly : j.eraseOnly = false)
    (hfits : Fits layout j.record nxt)
    (hfollows : cur.sequence < nxt.sequence ∨
      nxt = cur ∧ ∃ q, layout.InBank (1 - i) q ∧ cells.bytes q kRecordSize = some j.record) :
    Placed layout cells cur nxt j :=
  .inl ⟨hneed, i,
    { sound := hsound, lt := hi, target := htarget, other := hother, offset := rfl,
      checkpoint := hcheck, only := fun h => absurd h (by rw [honly]; decide),
      fits := fun _ => hfits, follows := fun _ => hfollows }⟩

/-- The newest record is checkpointed in bank `1 - i` before bank `i` is erased. -/
theorem Placed.checkpoint (hsound : Sound layout cells cur) (hi : i < 2)
    (hp : layout.InBank (1 - i) p) (hblank : Blank cells p) {q : Nat} (hq : layout.InBank k q)
    (hcur : cells.snapshot q = some cur) (hrecord : cells.bytes q kRecordSize = some j.record)
    (htarget : j.target = p) (hneed : j.eraseNeeded = false) (hcheck : j.checkpoint = true)
    (honly : j.eraseOnly = false) (hpending : j.pendingTarget = layout.bank i)
    (hfits : Fits layout j.pendingRecord nxt) (hlt : cur.sequence < nxt.sequence) :
    Placed layout cells cur nxt j := by
  have hgoal : ({ j with offset := 0 } : Journal).goal cur nxt = cur := by
    simp only [Journal.goal, hcheck]
    rfl
  have hdec : decode j.record = some cur := by
    rw [← Cells.snapshot_of_bytes hrecord, hcur]
  refine .inr ⟨hneed, ?_⟩
  refine
    { sound := hsound, writing := ?_, eraseOnly := honly,
      chain := fun _ => ⟨hlt, hfits, i, hi, hpending, by rw [htarget]; exact hp⟩ }
  rw [hgoal]
  exact
    { place := ⟨1 - i, by rw [htarget]; exact hp⟩,
      fits := ⟨Cells.length_bytes hrecord, hdec,
        fun hw => hsound.version hw k q cur _ hq hcur hrecord⟩,
      follows := .inr ⟨rfl, k, q, hq, hrecord⟩,
      written := fun x hx => absurd hx (Nat.not_lt_zero x),
      blank := fun x _ hx => by rw [htarget]; exact hblank x hx,
      aligned := Nat.zero_mod _, le := Nat.zero_le _ }

theorem latestBank_eq (hl : layout.Valid) (h : layout.InBank i j.latest) :
    j.latestBank layout = i := by
  have hin := h.inside hl
  have hi := h.1
  have hb := hl.banks_apart
  unfold Journal.latestBank
  obtain rfl | rfl : i = 0 ∨ i = 1 := by omega
  · rw [if_neg (by omega)]
  · rw [if_pos (by omega)]

theorem latestIn_iff (hl : layout.Valid) (h : layout.InBank i j.latest) (hk : k < 2) :
    j.latestIn layout k = true ↔ i = k := by
  have hin := h.inside hl
  unfold Journal.latestIn
  rw [decide_eq_true_eq]
  constructor
  · intro hk'
    apply Classical.byContradiction
    intro hne
    have := h.other hl hk (Ne.symm hne)
    omega
  · rintro rfl
    omega

end placing

/-- What `begin` has settled before it looks for a place: the record of `nxt`, which follows `cur`,
and where `cur` is. -/
structure Intent (layout : Layout) (cells : Cells) (cur nxt : Snapshot) (j : Journal) (i : Nat) :
    Prop where
  sound : Sound layout cells cur
  latest : layout.InBank i j.latest
  newest : cells.snapshot j.latest = some cur
  fits : Fits layout j.record nxt
  lt : cur.sequence < nxt.sequence
  checkpoint : j.checkpoint = false
  eraseOnly : j.eraseOnly = false

section calls

variable {m : Medium} {executing : Option Nat} {d : Device m} {cur nxt : Snapshot} {j : Journal}
  {i : Nat} (hl : m.layout.Valid) (hsteady : m.Steady)
  (hends : ∀ i, i < 2 → m.layout.bank i + m.layout.sector < 4294967296)
variable {s : Snapshot}

include hl hsteady hends

theorem reads_freeRecord {k : Nat} (hk : k < 2) (hidle : d.pending = none) :
    Reads (Journal.freeRecord (Device.flash executing) m.layout k)
      (fun r => match r with
        | some q => m.layout.InBank k q ∧ Blank d.cells q
        | none => ∀ q, m.layout.InBank k q → ¬Blank d.cells q) d := by
  have h : Reads (findErased (Device.flash executing) _ _) _ d :=
    reads_findErased (k := 0) hl hsteady (hends k hk) hk (Nat.zero_le _) hidle
  rw [Nat.mul_zero, Nat.add_zero] at h
  refine h.conseq fun r hr => ?_
  cases r with
  | some q => exact ⟨hr.1, hr.2.2⟩
  | none => exact fun q hq => hr q hq (hq.inside hl).1

theorem reads_placeAppend (h : Intent m.layout d.cells cur nxt j i) (hidle : d.pending = none) :
    Reads (Journal.placeAppend (Device.flash executing) m.layout true j)
      (fun j' => Placed m.layout d.cells cur nxt j' ∧
        ∃ t e, j' = { j with target := t, eraseNeeded := e }) d := by
  obtain ⟨hi, k, hk, hpos⟩ := h.latest
  have hsec := hl.record_dvd
  have hend := hends i hi
  have hbank : ({ j with eraseNeeded := true, target := m.layout.bank 0 } : Journal).latestBank
      m.layout = i := latestBank_eq hl h.latest
  have hnext : nextRecord j.latest = m.layout.bank i + kRecordSize * (k + 1) := by
    rw [hpos, nextRecord]
    simp only [kRecordSize] at hk ⊢
    omega
  simp only [Journal.placeAppend, hbank, if_true, hnext]
  refine .bind (reads_findErased hl hsteady hend hi (by omega) hidle) ?_
  intro r d' _ hr
  cases r with
  | some q =>
    obtain ⟨hq, -, hblank⟩ := hr
    refine .pure ⟨?_, q, false, rfl⟩
    exact Placed.append h.sound hq hblank rfl rfl h.checkpoint h.eraseOnly h.fits (.inl h.lt)
  | none =>
    refine .pure ⟨?_, m.layout.bank (1 - i), true, rfl⟩
    refine Placed.erase (i := 1 - i) h.sound (by omega) ?_ rfl rfl h.checkpoint h.eraseOnly h.fits
      (.inl h.lt)
    rw [show 1 - (1 - i) = i by omega]
    exact ⟨j.latest, h.latest, h.newest⟩

theorem reads_placeRuntime {e : Nat} (he : e < 2) (h : Intent m.layout d.cells cur nxt j i)
    (hidle : d.pending = none) :
    Reads (Journal.placeRuntime (Device.flash executing) m.layout e true j)
      (fun r => (r.1 = .ok → Placed m.layout d.cells cur nxt r.2) ∧ r.2.status = j.status ∧
        r.2.requested = j.requested ∧ r.2.state = j.state) d := by
  have hi := h.latest.1
  refine .bind (reads_freeRecord hl hsteady hends (k := 1 - e) (by omega) hidle) ?_
  intro r d' hm hr
  cases r with
  | some q =>
    obtain ⟨hq, hblank⟩ := hr
    refine .pure ⟨fun _ => ?_, rfl, rfl, rfl⟩
    exact Placed.append h.sound hq hblank rfl rfl h.checkpoint h.eraseOnly h.fits (.inl h.lt)
  | none =>
    refine .ite (fun hin => ?_) fun hin => .pure ⟨fun _ => ?_, rfl, rfl, rfl⟩
    · have hidle' : d'.pending = none := by rw [hm, hidle]
      refine .bind (reads_freeRecord hl hsteady hends he hidle') ?_
      intro r d₂ hm' hr
      cases r with
      | none => exact .pure ⟨Status.noConfusion, rfl, rfl, rfl⟩
      | some q =>
        rw [hm] at hr
        obtain ⟨hq, hblank⟩ := hr
        obtain ⟨bs, hbs, hdec⟩ := Cells.snapshot_eq_some.mp h.newest
        refine .bind (Reads.read (fun e' he' => hsteady e' he' _
          (h.latest.metadata hl (x := 0) (by decide))) (by rw [hm', hidle'])) ?_
        rintro _ d₃ - rfl
        rw [hm', hm]
        unfold Cells.answer
        rw [hbs]
        refine .ite (fun h => absurd rfl h) fun _ =>
          .pure ⟨fun _ => ?_, rfl, rfl, rfl⟩
        exact Placed.checkpoint (i := 1 - e) h.sound (by omega)
          (by rw [show 1 - (1 - e) = e by omega]; exact hq) hblank h.latest h.newest hbs rfl rfl rfl
          h.eraseOnly rfl h.fits h.lt
    · have hne : i ≠ 1 - e := by
        rintro rfl
        refine hin (Bool.and_eq_true_iff.mpr ⟨rfl, ?_⟩)
        exact (latestIn_iff hl (j := { j with target := _, eraseNeeded := _ }) h.latest
          (by omega)).mpr rfl
      refine Placed.erase (i := 1 - e) h.sound (by omega) ?_ rfl rfl h.checkpoint h.eraseOnly h.fits
        (.inl h.lt)
      rw [show 1 - (1 - e) = i by omega]
      exact ⟨j.latest, h.latest, h.newest⟩

theorem reads_place (h : Intent m.layout d.cells cur nxt j i) (hidle : d.pending = none) :
    Reads (Journal.place (Device.flash executing) m.layout true j)
      (fun r => (r.1 = .ok → Placed m.layout d.cells cur nxt r.2) ∧ r.2.status = j.status ∧
        r.2.requested = j.requested ∧ r.2.state = j.state) d := by
  refine .bind (reads_placeAppend hl hsteady hends h hidle) ?_
  rintro _ d' hm ⟨hplaced, t, e, rfl⟩
  have h' : Intent m.layout d'.cells cur nxt { j with target := t, eraseNeeded := e } i := by
    rw [hm]
    exact { h with }
  refine .ite (fun he => ?_) fun _ => .pure ⟨fun _ => hplaced, rfl, rfl, rfl⟩
  refine (reads_placeRuntime hl hsteady hends he h' (by rw [hm, hidle])).conseq fun r hr => ?_
  rw [hm] at hr
  exact hr

/-- An accepted request continues from `cur`, which it found in `cells`. -/
structure Based (layout : Layout) (S : Snapshot → Prop) (snapshot : Snapshot) (mem : Memory)
    (cur : Snapshot) (cells : Cells) : Prop where
  source : S cur
  sound : Sound layout cells cur
  outcome : Outcome layout mem cells
  room : cur.sequence ≠ 0xffffffffffffffff
  counter : cur.counter ≤ snapshot.counter
  storable : Snapshot.Storable { snapshot with sequence := cur.sequence + 1 }

/-- What `begin` makes of a request. -/
inductive Begun (layout : Layout) (S : Snapshot → Prop) (snapshot : Snapshot) (mem : Memory)
    (r : Status) (j : Journal) (mem' : Memory) : Prop
  | accepted (cur : Snapshot) (ok : r = .ok) (status : j.status = .busy)
      (based : Based layout S snapshot mem cur mem'.cells) (idle : mem'.pending = none)
      (stage : Stage layout cur (snapshot.following cur) j mem')
  | refused (failed : r ≠ .ok) (resting : j.Resting) (after : After layout mem mem')

omit hl hsteady hends in
theorem lt_following (h : cur.sequence ≠ 0xffffffffffffffff) :
    cur.sequence < (s.following cur).sequence := lt_succ h

omit hl hsteady hends in
theorem fits_encode {t : Snapshot} (h : decode (encode s m.layout.writeSize) = some t) :
    Fits m.layout (encode s m.layout.writeSize) s.stored where
  length := length_encode _ _
  decodes := decode_encode (storable_of_decode h) _
  version hu := by
    have hw : m.layout.writeSize = 32 := UInt32.toNat_inj.mp hu
    rw [encode_version, hw]
    rfl

/-- **`begin`** accepts an operation from the newest snapshot to the given one, or leaves the
journal at rest. -/
theorem wp_begin {S : Snapshot → Prop} {snapshot : Snapshot} {fresh : Bool}
    (hvalid : m.layout.valid = true) (hheld : Held m.layout d.toMemory S) (hrest : j.Resting) :
    Wp (Journal.begin (Device.flash executing) m.layout j snapshot fresh)
      (fun d' => After m.layout d.toMemory d'.toMemory)
      (fun r d' => Begun m.layout S snapshot d.toMemory r.1 r.2 d'.toMemory) d := by
  refine .ite (fun h => absurd h hrest.status) fun _ => ?_
  refine .bind (wp_load hl hsteady hvalid hheld) ?_
  rintro _ d' (⟨rfl, -, hm⟩ | ⟨cur, p, i, rfl, hS, hp, ho, hsound, hin, hnew⟩)
  · refine .ite (fun _ => .pure (.refused Status.noConfusion hrest (.inl hm))) fun h => ?_
    exact absurd ⟨Status.noConfusion, fun h => Status.noConfusion h.2⟩ h
  have hafter : ∀ d₂ : Device m, d₂.toMemory = d'.toMemory →
      After m.layout d.toMemory d₂.toMemory := fun d₂ h => .inr (by rw [h]; exact ⟨hp, ho⟩)
  have hrest' : ∀ j' : Journal, j'.status = j.status → j'.requested = j.requested →
      j'.state = j.state → j'.Resting := fun j' h1 h2 h3 =>
    ⟨h1 ▸ hrest.status, h2 ▸ hrest.requested, h3 ▸ hrest.state⟩
  refine .ite (fun h => absurd rfl h.1) fun _ => .seq (wp_settle (hafter d' rfl)
    (fun d₂ h => absurd hp h) fun r d₂ hr hp₂ ho₂ => ?_)
  have hm : d₂.toMemory = d'.toMemory := outcome_same hp hp₂ ho₂
  refine .ite (fun h => absurd h hr) fun _ => .ite (fun _ => ?_) fun hroom => ?_
  · exact .pure (.refused Status.noConfusion (hrest' _ rfl rfl rfl) (hafter d₂ hm))
  obtain ⟨hseq, hcnt⟩ := not_or.mp hroom
  refine .ite (fun _ => ?_) fun hdec => ?_
  · exact .pure (.refused Status.noConfusion (hrest' _ rfl rfl rfl) (hafter d₂ hm))
  obtain ⟨t, ht⟩ : ∃ t, decode (encode { snapshot with sequence := cur.sequence + 1 }
      m.layout.writeSize) = some t := by
    cases hd : decode (encode { snapshot with sequence := cur.sequence + 1 } m.layout.writeSize)
    · exact absurd (by rw [hd]; rfl) hdec
    · exact ⟨_, rfl⟩
  have hint : Intent m.layout d₂.cells cur (snapshot.following cur)
      { { j with latest := p } with
        record := encode { snapshot with sequence := cur.sequence + 1 } m.layout.writeSize
        checkpoint := false, eraseOnly := false } i := by
    rw [hm]
    exact
      { sound := hsound, latest := hin, newest := hnew, fits := fits_encode ht,
        lt := lt_following hseq, checkpoint := rfl, eraseOnly := rfl }
  have hp₂' : d₂.pending = none := by rw [hm, hp]
  refine .bind ((reads_place hl hsteady hends hint hp₂').wp
    (fun d₃ h => hafter d₃ (h.trans hm)) fun r d₃ h hr => And.intro h hr) ?_
  rintro ⟨r, j'⟩ d₃ ⟨hm₃, hplaced, h1, h2, h3⟩
  have hst : j'.state = .idle ∨ j'.state = .done ∨ j'.state = .failed := h3 ▸ hrest.state
  refine .ite (fun hne => ?_) fun hok => ?_
  · exact .pure (.refused hne (hrest' _ h1 h2 h3) (hafter d₃ (hm₃.trans hm)))
  · have hok : r = .ok := Decidable.not_not.mp hok
    have hm₃' : d₃.toMemory = d'.toMemory := hm₃.trans hm
    refine .pure (.accepted cur rfl rfl ?_ (by rw [hm₃', hp]) ?_)
    · rw [hm₃']
      exact ⟨hS, hsound, ho, hseq, UInt64.not_lt.mp hcnt, storable_of_decode ht⟩
    · have hpl := hplaced hok
      rw [show d₂.cells = d₃.cells by rw [hm₃]] at hpl
      exact hpl.stage (by rw [hm₃', hp]) hst false .busy

end calls

/-! ## Driving an operation to its end -/

/-- The journal still writes where it wrote. -/
structure Kept (j j' : Journal) : Prop where
  target : j'.target = j.target
  eraseOnly : j'.eraseOnly = j.eraseOnly
  checkpoint : j'.checkpoint = false

section kept

variable {σ : Type} {flash : Flash σ} {layout : Layout} {j : Journal} {s : σ}

theorem kept_tick (h : j.checkpoint = false) :
    Wp (Journal.tick flash layout j) (fun _ => True) (fun j' _ => Kept j j') s := by
  refine Journal.tick_spec.mono (fun _ _ => trivial) ?_
  rintro j' s' ⟨j₁, s₁, hwatch, hstep⟩
  rw [hwatch.same] at hstep
  cases hstep with
  | chain _ hc => exact absurd (h.symm.trans hc) nofun
  | _ => exact ⟨rfl, rfl, h⟩

theorem kept_drive {start timeout : Time} (h : j.checkpoint = false) :
    Wp (Journal.drive flash layout start timeout j) (fun _ => True) (fun j' _ => Kept j j') s := by
  refine Wp.loop (fun j' _ => Kept j j') (fun _ _ _ => trivial) ?_ ⟨rfl, rfl, h⟩
  intro j' s' hk
  refine .ite (fun _ => .bind Wp.trivial fun t _ _ => ?_) fun _ => .pure hk
  refine .bind (kept_tick (j := { j' with timedOut := _ }) hk.checkpoint) fun j₂ _ hk₂ =>
    .pure ⟨hk₂.target.trans hk.target, hk₂.eraseOnly.trans hk.eraseOnly, hk₂.checkpoint⟩

end kept

section drive

variable {m : Medium} {executing : Option Nat} {d : Device m} {cur nxt : Snapshot} {j : Journal}
  {cells₀ : Cells} (hl : m.layout.Valid) (hsteady : m.Steady)
variable {timeout : Time} {S : Snapshot → Prop} {b : Nat}

omit hsteady in
include hl in
theorem Moved.cut (h : Moved m cells₀ cur nxt j d) : Cut m cells₀ cur nxt d := by
  refine ⟨?_, h.2⟩
  cases h.1 with
  | busy status stage => exact stage.held hl
  | done status resting idle sound home => exact Held.of_sound idle (.inr rfl) sound
  | failed status resting held => exact held

omit hl hsteady in
theorem Moved.stage (h : Moved m cells₀ cur nxt j d) (hbusy : j.status = .busy) :
    Stage m.layout cur nxt j d.toMemory := by
  cases h.1 with
  | busy _ stage => exact stage
  | done _ resting | failed _ resting => exact absurd hbusy resting.status

omit hl hsteady in
theorem Moved.resting (h : Moved m cells₀ cur nxt j d) (hbusy : j.status ≠ .busy) : j.Resting := by
  cases h.1 with
  | busy status => exact absurd status hbusy
  | done _ resting | failed _ resting => exact resting

omit hl hsteady in
/-- An operation that has succeeded leaves its snapshot as the newest one. -/
theorem Moved.sound (h : Moved m cells₀ cur nxt j d) (hok : j.status = .ok) :
    d.pending = none ∧ Sound m.layout d.cells nxt := by
  cases h.1 with
  | busy status => exact absurd (hok.symm.trans status) (by decide)
  | done _ _ idle sound => exact ⟨idle, sound⟩
  | failed status => exact absurd hok status

include hl hsteady

/-- **Driving** an operation ends it. -/
theorem wp_drive {start : Time} (h : Moved m cells₀ cur nxt j d) :
    Wp (Journal.drive (Device.flash executing) m.layout start timeout j) (Cut m cells₀ cur nxt)
      (fun j' d' => j'.status ≠ .busy ∧ Moved m cells₀ cur nxt j' d') d := by
  refine Wp.loop (Moved m cells₀ cur nxt) (fun _ _ h => h.cut hl) ?_ h
  intro j' d' h'
  refine .ite (fun hb => .seq (Device.wp_now (h'.cut hl) fun t d₂ hm => ?_)) fun hb =>
    .pure ⟨hb, h'⟩
  have hstage := h'.stage hb
  have hconf : Confined m.layout cells₀ d₂.toMemory := by
    rw [hm]
    exact h'.2
  have hstage' : Stage m.layout cur nxt
      { j' with timedOut := decide (t - start ≥ timeout) } d₂.toMemory := by
    rw [hm]
    exact hstage.watch j'.operationStarted _
  exact .bind (wp_tick hl hconf hsteady hb hstage') fun j₂ d₃ h₂ => .pure h₂

theorem wp_runRequest (hconf : Confined m.layout cells₀ d.toMemory) (hidle : d.pending = none)
    (hstate : j.state = .idle ∨ j.state = .done ∨ j.state = .failed)
    (hplaced : Placed m.layout d.cells cur nxt { j with checkpoint := false }) :
    Wp (Journal.runRequest (Device.flash executing) m.layout j timeout) (Cut m cells₀ cur nxt)
      (fun r d' => r.1 = r.2.status ∧ r.2.status ≠ .busy ∧ Kept j r.2 ∧
        Moved m cells₀ cur nxt r.2 d') d := by
  have hstage : Stage m.layout cur nxt
      { j with
        offset := 0, timedOut := false, checkpoint := false, requested := true, status := .busy }
      d.toMemory := hplaced.stage hidle hstate false .busy
  refine .seq (Device.wp_now (hstage.cut hl hconf) fun t d' hm => ?_)
  have hmoved : Moved m cells₀ cur nxt
      { j with
        offset := 0, timedOut := false, checkpoint := false, requested := true, status := .busy }
      d' := by
    unfold Moved
    rw [hm]
    exact ⟨.busy rfl hstage, hconf⟩
  refine .bind ((wp_drive hl hsteady hmoved).adding (kept_drive rfl)) ?_
  rintro j' d₂ ⟨⟨hne, hmv⟩, hk⟩
  exact .pure ⟨rfl, hne, { hk with }, hmv⟩

/-- How far a foreground write has come: not accepted, or accepted and in progress. -/
inductive Committing (layout : Layout) (S : Snapshot → Prop) (snapshot : Snapshot)
    (mem mem' : Memory) : Prop
  | before (after : After layout mem mem')
  | during (cur : Snapshot) (cells₁ : Cells) (based : Based layout S snapshot mem cur cells₁)
      (held : Held layout mem' fun s => s = cur ∨ s = snapshot.following cur)
      (confined : Confined layout cells₁ mem')

/-- **`commit`**: when it reports ok the snapshot is the newest one, and otherwise, or when it is
cut short, the newest one is as it was or the snapshot. -/
theorem wp_commit (hends : ∀ i, i < 2 → m.layout.bank i + m.layout.sector < 4294967296)
    {snapshot : Snapshot} {fresh : Bool} (hvalid : m.layout.valid = true)
    (hheld : Held m.layout d.toMemory S) (hrest : j.Resting) :
    Wp (Journal.commit (Device.flash executing) m.layout j snapshot timeout fresh)
      (fun d' => Committing m.layout S snapshot d.toMemory d'.toMemory)
      (fun r d' => r.2.Resting ∧
        (r.1 = .ok ∧ (∃ cur cells₁, Based m.layout S snapshot d.toMemory cur cells₁ ∧
          d'.pending = none ∧ Sound m.layout d'.cells (snapshot.following cur) ∧
          Confined m.layout cells₁ d'.toMemory) ∨
        r.1 ≠ .ok ∧ Committing m.layout S snapshot d.toMemory d'.toMemory)) d := by
  refine .bind ((wp_begin hl hsteady hends hvalid hheld hrest).mono (fun _ h => .before h)
    fun _ _ h => h) ?_
  rintro ⟨r, j'⟩ d' hbegun
  cases hbegun with
  | refused failed resting after =>
    refine .ite (fun _ => .pure ⟨resting, .inr ⟨failed, .before after⟩⟩) fun h => ?_
    exact absurd failed h
  | accepted cur ok status based idle stage =>
    have hconf : Confined m.layout d'.cells d'.toMemory :=
      ⟨fun _ _ => rfl, fun op hop => by rw [idle] at hop; cases hop⟩
    have hcutC : ∀ d₂ : Device m, Cut m d'.cells cur (snapshot.following cur) d₂ →
        Committing m.layout S snapshot d.toMemory d₂.toMemory :=
      fun d₂ h => .during cur d'.cells based h.1 h.2
    refine .ite (fun h => absurd ok h) fun _ => .seq (Device.wp_now
      (hcutC d' (stage.cut hl hconf)) fun t d₂ hm => ?_)
    have hmoved : Moved m d'.cells cur (snapshot.following cur) j' d₂ := by
      unfold Moved
      rw [hm]
      exact ⟨.busy status stage, hconf⟩
    refine .bind ((wp_drive hl hsteady hmoved).mono hcutC fun _ _ h => h) ?_
    rintro j₂ d₃ ⟨hne, hmv⟩
    refine .pure ?_
    cases hmv.1 with
    | busy status' _ => exact absurd status' hne
    | done status' resting idle' sound home =>
      exact ⟨resting, .inl ⟨status', cur, d'.cells, based, idle', sound, hmv.2⟩⟩
    | failed status' resting held =>
      exact ⟨resting, .inr ⟨status', .during cur d'.cells based held hmv.2⟩⟩

/-- Maintenance keeps the newest snapshot, whatever ends it. -/
abbrev Keeping (m : Medium) (cells₀ : Cells) (cur : Snapshot) (d : Device m) : Prop :=
  Held m.layout d.toMemory (fun s => s = cur) ∧ Confined m.layout cells₀ d.toMemory

omit hl hsteady in
theorem Cut.keeping (h : Cut m cells₀ cur cur d) : Keeping m cells₀ cur d :=
  ⟨h.1.mono fun _ hs => hs.elim id id, h.2⟩

theorem wp_maintain (hconf : Confined m.layout cells₀ d.toMemory) (hidle : d.pending = none)
    (hstate : j.state = .idle ∨ j.state = .done ∨ j.state = .failed)
    (hplaced : Placed m.layout d.cells cur cur { j with checkpoint := false }) :
    Wp (Journal.runRequest (Device.flash executing) m.layout j timeout) (Keeping m cells₀ cur)
      (fun r d' => r.2.Resting ∧ Keeping m cells₀ cur d' ∧ (r.1 = .ok → d'.pending = none ∧
        Sound m.layout d'.cells cur ∧
        (j.eraseOnly = false → d'.cells.snapshot j.target = some cur))) d := by
  refine (wp_runRequest hl hsteady hconf hidle hstate hplaced).mono (fun _ h => Cut.keeping h) ?_
  rintro ⟨r, j'⟩ d' ⟨hr, hne, hk, hmv⟩
  obtain rfl : r = j'.status := hr
  have hcut := (hmv.cut hl).keeping
  cases hmv.1 with
  | busy status _ => exact absurd status hne
  | done status resting idle sound home =>
    refine ⟨resting, hcut, fun _ => ⟨idle, sound, fun ho => ?_⟩⟩
    rw [← hk.target]
    exact home (hk.eraseOnly.trans ho)
  | failed status resting held => exact ⟨resting, hcut, fun h => absurd h status⟩

/-- After the first half of `prepareRuntime` the other bank has the newest snapshot. -/
theorem wp_preserve (hends : ∀ i, i < 2 → m.layout.bank i + m.layout.sector < 4294967296) {i : Nat}
    (hb : b < 2) (hrest : j.Resting) (hidle : d.pending = none)
    (hsound : Sound m.layout d.cells cur) (hin : m.layout.InBank i j.latest)
    (hnew : d.cells.snapshot j.latest = some cur) :
    Wp (Journal.preserve (Device.flash executing) m.layout j b timeout) (Keeping m d.cells cur)
      (fun r d' => r.2.Resting ∧ Keeping m d.cells cur d' ∧ (r.1 = .ok → d'.pending = none ∧
        Sound m.layout d'.cells cur ∧ HasIn m.layout d'.cells (1 - b) cur)) d := by
  have hi := hin.1
  have hconf : Confined m.layout d.cells d.toMemory :=
    ⟨fun _ _ => rfl, fun op hop => by rw [hidle] at hop; cases hop⟩
  have hkeep : ∀ d' : Device m, d'.toMemory = d.toMemory → Keeping m d.cells cur d' := by
    intro d' hm
    unfold Keeping
    rw [hm]
    exact ⟨Held.of_sound hidle rfl hsound, hconf⟩
  refine .ite (fun hlat => ?_) fun hlat => ?_
  · obtain rfl : i = b := (latestIn_iff hl hin hb).mp hlat
    obtain ⟨bs, hbs, hdec⟩ := Cells.snapshot_eq_some.mp hnew
    have hfits : Fits m.layout bs cur := ⟨Cells.length_bytes hbs, hdec, fun hw =>
      hsound.version hw i j.latest cur bs hin hnew hbs⟩
    refine .seq (Device.wp_read_steady (fun e he => hsteady e he _
      (hin.metadata hl (x := 0) (by decide))) hidle (hkeep d rfl) fun d' hm => ?_)
    unfold Cells.answer
    rw [hbs]
    have hidle' : d'.pending = none := by rw [hm, hidle]
    have hcells : d'.cells = d.cells := by rw [hm]
    refine .ite (fun h => absurd rfl h) fun _ => .bind ((reads_freeRecord hl hsteady hends
      (k := 1 - i) (by omega) hidle').wp (fun d₂ h => hkeep d₂ (h.trans hm))
      fun r d₂ h hr => And.intro (h.trans hm) hr) ?_
    rintro r d₂ ⟨hm₂, hr⟩
    have hidle₂ : d₂.pending = none := by rw [hm₂, hidle]
    have hconf₂ : Confined m.layout d.cells d₂.toMemory := by
      rw [hm₂]
      exact hconf
    have hcells₂ : d₂.cells = d.cells := by rw [hm₂]
    rw [hcells] at hr
    cases r with
    | some q =>
      obtain ⟨hq, hblank⟩ := hr
      refine .conseq (wp_maintain hl hsteady hconf₂ hidle₂ ?_ ?_) ?_
      · exact hrest.state
      · rw [hcells₂]
        exact Placed.append hsound hq hblank rfl rfl rfl rfl hfits (.inr ⟨rfl, i, _, hin, hbs⟩)
      · rintro r d₃ ⟨h1, h2, h3⟩
        exact ⟨h1, h2, fun hok => ⟨(h3 hok).1, (h3 hok).2.1, q, hq, (h3 hok).2.2 rfl⟩⟩
    | none =>
      refine .conseq (wp_maintain hl hsteady hconf₂ hidle₂ ?_ ?_) ?_
      · exact hrest.state
      · rw [hcells₂]
        refine Placed.erase (i := 1 - i) hsound (by omega) ?_ rfl rfl rfl rfl hfits
          (.inr ⟨rfl, j.latest, ?_, hbs⟩)
        · rw [show 1 - (1 - i) = i by omega]
          exact ⟨j.latest, hin, hnew⟩
        · rw [show 1 - (1 - i) = i by omega]
          exact hin
      · rintro r d₃ ⟨h1, h2, h3⟩
        exact ⟨h1, h2, fun hok => ⟨(h3 hok).1, (h3 hok).2.1, m.layout.bank (1 - i),
          Layout.InBank.first hl (by omega), (h3 hok).2.2 rfl⟩⟩
  · have hib : i ≠ b := fun h => hlat ((latestIn_iff hl hin hb).mpr h)
    refine .pure ⟨hrest, hkeep d rfl, fun _ => ⟨hidle, hsound, j.latest, ?_, hnew⟩⟩
    rw [show 1 - b = i by omega]
    exact hin

/-- **`prepareRuntime`** keeps the newest snapshot. -/
theorem wp_prepareRuntime (hends : ∀ i, i < 2 → m.layout.bank i + m.layout.sector < 4294967296)
    (hvalid : m.layout.valid = true) (hheld : Held m.layout d.toMemory S) (hrest : j.Resting) :
    Wp (Journal.prepareRuntime (Device.flash executing) m.layout j b timeout)
      (fun d' => After m.layout d.toMemory d'.toMemory ∨ ∃ cur cells₁, S cur ∧
        Outcome m.layout d.toMemory cells₁ ∧ Sound m.layout cells₁ cur ∧
        Keeping m cells₁ cur d')
      (fun r d' => r.2.Resting ∧ (After m.layout d.toMemory d'.toMemory ∨ ∃ cur cells₁, S cur ∧
        Outcome m.layout d.toMemory cells₁ ∧ Sound m.layout cells₁ cur ∧
        Keeping m cells₁ cur d')) d := by
  refine .ite (fun _ => .pure ⟨hrest, .inl (.inl rfl)⟩) fun hbank => ?_
  have hb : b < 2 := by
    have := not_or.mp hbank
    omega
  refine .ite (fun h => absurd h hrest.status) fun _ => ?_
  refine .bind ((wp_load hl hsteady hvalid hheld).mono (fun _ h => .inl h) fun _ _ h => h) ?_
  rintro _ d' (⟨rfl, -, hm⟩ | ⟨cur, p, i, rfl, hS, hp, ho, hsound, hin, hnew⟩)
  · exact .ite (fun _ => .pure ⟨hrest, .inl (.inl hm)⟩) fun h => absurd Status.noConfusion h
  refine .ite (fun h => absurd rfl h) fun _ => ?_
  have hrest' : ({ j with latest := p } : Journal).Resting := { hrest with }
  have hC : ∀ d₂ : Device m, Keeping m d'.cells cur d₂ →
      (After m.layout d.toMemory d₂.toMemory ∨ ∃ cur cells₁, S cur ∧
        Outcome m.layout d.toMemory cells₁ ∧ Sound m.layout cells₁ cur ∧
        Keeping m cells₁ cur d₂) :=
    fun d₂ h => .inr ⟨cur, d'.cells, hS, ho, hsound, h⟩
  refine .bind ((wp_preserve hl hsteady hends hb hrest' hp hsound hin hnew).mono hC
    fun _ _ h => h) ?_
  rintro ⟨r, j'⟩ d₂ ⟨hrest₂, hkeep, hok⟩
  refine .ite (fun _ => .pure ⟨hrest₂, hC d₂ hkeep⟩) fun hr => ?_
  obtain ⟨hidle₂, hsound₂, hother⟩ := hok (Decidable.not_not.mp hr)
  have hscan : Reads (Journal.allErased (Device.flash executing) _ _) _ d₂ :=
    reads_allErased (k := 0) hl hsteady (hends b hb) hb (Nat.zero_le _) hidle₂
  rw [Nat.mul_zero, Nat.add_zero] at hscan
  have hsame : ∀ d₃ : Device m, d₃.toMemory = d₂.toMemory → Keeping m d'.cells cur d₃ := by
    intro d₃ h
    unfold Keeping
    rw [h]
    exact hkeep
  refine .bind (hscan.wp (fun d₃ h => hC d₃ (hsame d₃ h)) fun _ d₃ h _ => h) ?_
  intro e d₃ hm₃
  refine .ite (fun _ => .pure ⟨hrest₂, hC d₃ (hsame d₃ hm₃)⟩) fun _ => ?_
  refine .mono (wp_maintain hl hsteady (hsame d₃ hm₃).2 (by rw [hm₃, hidle₂]) ?_
    (.inl ⟨rfl, b, ?_⟩)) hC fun r d₄ h => ⟨h.1, hC d₄ h.2.1⟩
  · exact hrest₂.state
  rw [hm₃]
  exact
    { sound := hsound₂, lt := hb, target := rfl, other := hother, offset := rfl, checkpoint := rfl,
      only := fun _ => rfl, fits := fun h => Bool.noConfusion h,
      follows := fun h => Bool.noConfusion h }

end drive

end DaveOs.Boot
