import DaveOs.Boot.Control
import DaveOs.Boot.Guarded
import DaveOs.Boot.JournalLive

/-!
# A boot that succeeds

On a flash whose operations succeed, a boot with a confirmed image that verifies returns ok
(`select_works`): with that image, or with the other slot's, which then verifies too.
-/

namespace DaveOs.Boot

variable {layout : Layout} {cells : Cells} {i : Nat} {image : Image} {s : Snapshot}

open Bytes Crash

/-- The pieces follow each other from `offset` on and make up `total` bytes. -/
def Tiles : Nat → List (Nat × Nat) → Nat → Prop
  | _, [], total => total = 0
  | offset, (start, count) :: rest, total =>
    start = offset ∧ count ≤ total ∧ Tiles (offset + count) rest (total - count)

theorem tiles_range (size n : Nat) : ∀ k, (size - 256 * k + 255) / 256 = n →
    Tiles (256 * k) ((List.range' k n).map fun k => (256 * k, min 256 (size - 256 * k)))
      (size - 256 * k) := by
  induction n with
  | zero =>
    intro k hk
    show size - 256 * k = 0
    omega
  | succ n ih =>
    intro k hk
    rw [List.range'_succ, List.map_cons]
    refine ⟨rfl, Nat.min_le_right _ _, ?_⟩
    have hrest := ih (k + 1) (by omega)
    rcases Nat.le_total 256 (size - 256 * k) with h | h
    · rw [Nat.min_eq_left h, show 256 * k + 256 = 256 * (k + 1) by omega,
        show size - 256 * k - 256 = size - 256 * (k + 1) by omega]
      exact hrest
    · obtain rfl : n = 0 := by omega
      rw [Nat.min_eq_right h]
      exact Nat.sub_self _

theorem tiles_pieces (size : Nat) : Tiles 0 (pieces size) size := by
  have := tiles_range size ((size + 255) / 256) 0 rfl
  rwa [← List.range_eq_range', Nat.mul_zero, Nat.sub_zero] at this

/-- The most calls a verification makes. -/
def verifyCalls (layout : Layout) : Nat := (layout.room + 255) / 256

/-- The most calls a choice among `n` slots makes, besides waiting. -/
def chooseCalls (layout : Layout) (n : Nat) : Nat := n * verifyCalls layout + commitCalls layout

/-- The most calls a boot makes, besides waiting. -/
def selectCalls (layout : Layout) : Nat :=
  loadCalls layout + commitCalls layout + chooseCalls layout 2

section verify

variable {m : Medium} {executing : Option Nat} (hw : m.Works)

include hw

/-- The checksum of consecutive pieces is that of their bytes, when these can be read. -/
theorem checksum_works {base : Nat} (L : List (Nat × Nat)) : ∀ {offset total : Nat} {crc : UInt32}
    {d : Device m}, d.pending = none → Tiles offset L total →
    Wp (checksum (Device.flash executing) base L crc) (fun _ => d.life < L.length)
      (fun r d' => d'.toMemory = d.toMemory ∧
        (∀ bs, d.cells.bytes (base + offset) total = some bs → r = (.ok, Crc32.update crc bs)) ∧
        (r.1 = .ok → ∃ bs, d.cells.bytes (base + offset) total = some bs) ∧
        d.life ≤ d'.life + L.length ∧ d.Later d') d := by
  induction L with
  | nil =>
    rintro offset _ crc d hp rfl
    refine .pure ⟨rfl, fun bs hbs => ?_, fun _ => ⟨[], rfl⟩, by omega, Device.meter.refl d⟩
    obtain rfl := Option.some.inj hbs
    rw [Crc32.update_nil]
  | cons piece L ih =>
    obtain ⟨start, count⟩ := piece
    rintro offset total crc d hp ⟨rfl, hle, htiles⟩
    rw [checksum]
    refine .bind (.mono (wp_read_works hw hp) (fun _ _ => ?_) fun _ _ h => h) ?_
    · rw [List.length_cons]
      omega
    rintro _ d₁ ⟨rfl, hm, hlife, hlater⟩
    have htotal : total = count + (total - count) := by omega
    unfold Cells.answer
    cases hbs : d.cells.bytes (base + start) count with
    | none =>
      refine .ite (fun _ => .pure ⟨hm, fun bs h => ?_, Status.noConfusion, ?_, hlater⟩)
        fun h => absurd Status.noConfusion h
      · rw [htotal] at h
        rw [(Cells.bytes_split h).1] at hbs
        cases hbs
      · rw [List.length_cons]
        omega
    | some xs =>
      refine .ite (fun h => absurd rfl h) fun _ => ?_
      have hp₁ : d₁.pending = none := by rw [hm, hp]
      have hcells : d₁.cells = d.cells := by rw [hm]
      refine .mono (ih hp₁ htiles) (fun _ _ => ?_) ?_
      · rw [List.length_cons]
        omega
      rintro r d₂ ⟨hm₂, hok, hread, hlife₂, hlater₂⟩
      rw [hcells, ← Nat.add_assoc] at hok hread
      refine ⟨hm₂.trans hm, fun bs h => ?_, fun h => ?_, ?_, Device.meter.trans hlater hlater₂⟩
      · rw [htotal] at h
        obtain ⟨hx, hy⟩ := Cells.bytes_split h
        obtain rfl := Option.some.inj (hbs.symm.trans hx)
        rw [hok _ hy, Crc32.update_append, List.take_append_drop]
      · obtain ⟨ys, hys⟩ := hread h
        rw [htotal]
        exact ⟨xs ++ ys, Cells.bytes_append hbs hys⟩
      · rw [List.length_cons]
        omega

/-- **Verification** tells whether the image is there, intact and meant for this layout. -/
theorem verify_works (hvalid : m.layout.valid = true) {i : Nat} (hi : i < 2) {image : Image}
    {d : Device m} (hp : d.pending = none) :
    Wp (verify (Device.flash executing) m.layout i image) (fun _ => d.life < verifyCalls m.layout)
      (fun r d' => d'.toMemory = d.toMemory ∧ (r = .ok ↔ Verifies m.layout d.cells i image) ∧
        d.life ≤ d'.life + verifyCalls m.layout ∧ d.Later d') d := by
  unfold verify
  refine .ite (fun hbad => .pure ⟨rfl, ?_, by omega, Device.meter.refl d⟩) fun hgood => ?_
  · refine ⟨Status.noConfusion, fun h => ?_⟩
    rcases hbad with h' | h' | h' | h' | h' | h' | h'
    · exact absurd hvalid h'
    · omega
    · exact absurd h' h.size_ne
    · exact absurd h.fits (UInt32.not_le.mpr h')
    · exact absurd h.product h'
    · exact absurd h.revision h'
    · exact absurd h' h.installation
  · simp only [not_or, Decidable.not_not] at hgood
    obtain ⟨-, -, hsize, hfits, hproduct, hrevision, hinst⟩ := hgood
    have hfits : image.size ≤ m.layout.slotSize := UInt32.not_lt.mp hfits
    have hlen : (pieces image.size.toNat).length ≤ verifyCalls m.layout := by
      have : image.size.toNat ≤ m.layout.room := UInt32.le_iff_toNat_le.mp hfits
      simp only [pieces, List.length_map, List.length_range, verifyCalls]
      omega
    refine .bind (.mono (checksum_works hw _ hp (tiles_pieces _)) (fun _ _ => by omega)
      fun _ _ h => h) ?_
    rintro ⟨r, crc⟩ d₁ ⟨hm, hok, hread, hlife, hlater⟩
    rw [Nat.add_zero] at hok hread
    refine .ite (fun hr => .pure ⟨hm, ?_, by omega, hlater⟩) fun hr =>
      .pure ⟨hm, ?_, by omega, hlater⟩
    · refine ⟨fun h => absurd h hr, fun h => ?_⟩
      obtain ⟨bs, hbs, -⟩ := h.content
      exact congrArg Prod.fst (hok bs hbs)
    · obtain ⟨bs, hbs⟩ := hread (Decidable.not_not.mp hr)
      obtain rfl : crc = Crc32.calculate bs := congrArg Prod.snd (hok bs hbs)
      constructor
      · intro h
        split at h
        · next hcrc => exact ⟨hsize, hfits, hproduct, hrevision, hinst, bs, hbs, hcrc⟩
        · cases h
      · intro h
        obtain ⟨bs', hbs', hcrc⟩ := h.content
        obtain rfl := Option.some.inj (hbs.symm.trans hbs')
        exact if_pos hcrc

end verify

theorem Verifies.congr {cells' : Cells} (h : Verifies layout cells i image)
    (heq : ∀ x, layout.InSlot i x → cells' x = cells x) : Verifies layout cells' i image := by
  obtain ⟨bs, hbs, hcrc⟩ := h.content
  refine { h with content := ⟨bs, ?_, hcrc⟩ }
  rw [← hbs]
  refine Cells.bytes_congr fun x hx => heq _ ⟨Nat.le_add_right _ _, Nat.add_lt_add_left ?_ _⟩
  exact Nat.lt_of_lt_of_le hx (UInt32.le_iff_toNat_le.mp h.fits)

theorem Verifies.confined (hl : layout.Valid) {mem : Memory} (hi : i < 2)
    (hconf : Confined layout cells mem) :
    Verifies layout mem.cells i image ↔ Verifies layout cells i image :=
  ⟨fun h => h.congr fun x hx => (hconf.cells x (hx.not_metadata hl hi)).symm,
    fun h => h.congr fun x hx => hconf.cells x (hx.not_metadata hl hi)⟩

/-- All the time left is less than the timeout of an operation. -/
def Device.Early {m : Medium} (d : Device m) : Prop :=
  d.horizon < d.clock + m.layout.operationTimeout

theorem Device.Early.later {m : Medium} {d d' : Device m} (h : d.Early) (hlater : d.Later d') :
    d'.Early :=
  Nat.lt_of_le_of_lt hlater.horizon (Nat.lt_of_lt_of_le h (Nat.add_le_add_right hlater.clock _))

/-- A journal that can write a change of `s` after `cur`. -/
structure Pliable (s cur : Snapshot) : Prop where
  sequence : cur.sequence ≠ 0xffffffffffffffff
  counter : cur.counter ≤ s.counter
  counted : ∀ i, i < 2 → (s.images.get i).installation ≤ s.counter

theorem Pliable.writable {t cur : Snapshot} (h : Pliable s cur) (hcounter : t.counter = s.counter)
    (himages : ∀ i, i < 2 → (t.images.get i).installation = (s.images.get i).installation) :
    Writable t cur where
  sequence := h.sequence
  counter := hcounter ▸ h.counter
  storable := by
    refine ⟨fun h0 => ?_, ?_, ?_⟩
    · have hlt := lt_succ h.sequence
      rw [show cur.sequence + 1 = 0 from h0] at hlt
      exact UInt64.not_lt_zero hlt
    · have := h.counted 0 (by decide)
      rw [← himages 0 (by decide), ← hcounter] at this
      exact this
    · have := h.counted 1 (by decide)
      rw [← himages 1 (by decide), ← hcounter] at this
      exact this

theorem Sound.pliable (h : Sound layout cells s) (hseq : s.sequence ≠ 0xffffffffffffffff) :
    Pliable s s where
  sequence := hseq
  counter := UInt64.le_refl _
  counted := Layout.two_cases h.storable.countedA h.storable.countedB

theorem Verifies.of_rejectTrial (h : Verifies layout cells i image.rejectTrial) :
    Verifies layout cells i image := by
  unfold Image.rejectTrial at h
  split at h
  · exact { h with }
  · exact h

section select

variable {m : Medium} {executing : Option Nat} {cells₀ : Cells} {r : Nat}
variable {s : Snapshot}

/-- A good choice: the slot `r`, or the other one if its image verifies. -/
def Chosen (m : Medium) (cells₀ : Cells) (r : Nat) (s : Snapshot) (sel : Selection) : Prop :=
  sel.status = .ok ∧
    (sel.slot = r ∨ sel.slot = 1 - r ∧ Verifies m.layout cells₀ (1 - r) (s.images.get (1 - r)))

variable (hw : m.Works) (hl : m.layout.Valid) (hvalid : m.layout.valid = true)
  (hends : ∀ i, i < 2 → m.layout.bank i + m.layout.sector < 4294967296)
  (hboot : 2 ≤ executing.getD 2) (hr : r < 2)

include hw hl hvalid hends hboot hr

/-- The candidates are tried in order, and `r` is one that will do. -/
theorem choose_works {cur : Snapshot} (hconfirmed : (s.images.get r).state = .confirmed)
    (hverifies : Verifies m.layout cells₀ r (s.images.get r))
    (hpending : (s.images.get (1 - r)).state = .pending →
      Writable (s.mark (1 - r) .trial) cur) (L : List Nat) :
    ∀ {failure : Status} {j : Journal} {d : Device m}, r ∈ L → (∀ i ∈ L, i = r ∨ i = 1 - r) →
    d.pending = none → Sound m.layout d.cells cur → Confined m.layout cells₀ d.toMemory →
    j.Resting → d.Early →
    Wp (Control.choose (Device.flash executing) m.layout s L failure j)
      (fun _ => d.life < chooseCalls m.layout L.length)
      (fun a _ => Chosen m cells₀ r s a.1) d := by
  induction L with
  | nil => exact fun h => absurd h List.not_mem_nil
  | cons slot L ih =>
    intro failure j d hmem hL hp hsound hconf hrest hearly
    have hslot := hL slot List.mem_cons_self
    have hL' : ∀ i ∈ L, i = r ∨ i = 1 - r := fun i hi => hL i (List.mem_cons_of_mem _ hi)
    have hcalls : chooseCalls m.layout (slot :: L).length =
        chooseCalls m.layout L.length + verifyCalls m.layout := by
      simp only [chooseCalls, List.length_cons, Nat.succ_mul]
      omega
    have hcommit : commitCalls m.layout ≤ chooseCalls m.layout L.length := Nat.le_add_left _ _
    rw [Control.choose, hcalls]
    have hmem' : slot ≠ r → r ∈ L := fun h =>
      (List.mem_cons.mp hmem).resolve_left fun h' => h h'.symm
    refine .ite (fun hskip => ?_) fun _ => ?_
    · have hne : slot ≠ r := by
        rintro rfl
        exact hskip.2 hconfirmed
      exact (ih (hmem' hne) hL' hp hsound hconf hrest hearly).mono (fun _ h => by omega)
        fun _ _ h => h
    have hlt : slot < 2 := by omega
    refine .bind (.mono (verify_works hw hvalid hlt hp) (fun _ h => by omega) fun _ _ h => h) ?_
    rintro result d₁ ⟨hm, hiff, hlife, hlater⟩
    rw [Verifies.confined hl hlt hconf] at hiff
    have hp₁ : d₁.pending = none := by rw [hm, hp]
    have hsound₁ : Sound m.layout d₁.cells cur := by rw [hm]; exact hsound
    have hconf₁ : Confined m.layout cells₀ d₁.toMemory := by rw [hm]; exact hconf
    refine .ite (fun hbad => ?_) fun hok => ?_
    · have hne : slot ≠ r := by
        rintro rfl
        exact hbad (hiff.mpr hverifies)
      exact (ih (hmem' hne) hL' hp₁ hsound₁ hconf₁ hrest (hearly.later hlater)).mono
        (fun _ h => by omega) fun _ _ h => h
    have hv := hiff.mp (Decidable.not_not.mp hok)
    have hchosen : ∀ t image, Chosen m cells₀ r s { status := .ok, slot, trial := t, image } :=
      fun t image => ⟨rfl, hslot.imp id fun h => ⟨h, by rw [← h]; exact hv⟩⟩
    unfold Control.accept
    refine .ite (fun hpend => ?_) fun _ => .pure (hchosen _ _)
    obtain rfl : slot = 1 - r := by
      refine hslot.resolve_left ?_
      rintro rfl
      rw [hconfirmed] at hpend
      cases hpend
    refine .bind (.mono (lively_commit hl hends hboot hw hvalid hp₁ hsound₁ hrest
      (hpending hpend) (hearly.later hlater)) (fun _ h => by omega) fun _ _ h => h) ?_
    rintro ⟨result', j'⟩ d₂ ⟨hok', -⟩
    obtain rfl : result' = .ok := hok'
    exact .ite (fun h => absurd rfl h) fun _ => .pure (hchosen _ _)

/-- **A boot** with a confirmed image that verifies, on a flash that works: it returns ok with that
image, or with another that verifies. Where a trial has to be recorded the journal needs a sequence
number for it. -/
theorem select_works {j : Journal} {d : Device m} (hp : d.pending = none)
    (hsound : Sound m.layout d.cells s) (hrest : j.Resting) (hearly : d.Early)
    (hconfirmed : (s.images.get r).state = .confirmed)
    (hverifies : Verifies m.layout d.cells r (s.images.get r))
    (hroom : s.sequence ≠ 0xffffffffffffffff ∨
      (s.images.get (1 - r)).state ≠ .trial ∧ (s.images.get (1 - r)).state ≠ .pending) :
    Wp (Control.select (Device.flash executing) m.layout j)
      (fun _ => d.life < selectCalls m.layout) (fun a _ => Chosen m d.cells r s a.1) d := by
  have hcr : s.rejectTrials.images.get r = s.images.get r := by
    rw [Snapshot.rejectTrials_get, Image.rejectTrial_of_ne (by rw [hconfirmed]; decide)]
  have hinst : ∀ i, i < 2 → (s.rejectTrials.images.get i).installation =
      (s.images.get i).installation := fun i _ => by
    rw [Snapshot.rejectTrials_get, Image.rejectTrial_installation]
  have hchoose : ∀ {cur : Snapshot} {j : Journal} {d' : Device m},
      ((s.rejectTrials.images.get (1 - r)).state = .pending →
        Writable (s.rejectTrials.mark (1 - r) .trial) cur) → d'.pending = none →
      Sound m.layout d'.cells cur → Confined m.layout d.cells d'.toMemory → j.Resting → d'.Early →
      Wp (Control.choose (Device.flash executing) m.layout s.rejectTrials
        [s.rejectTrials.newest, 1 - s.rejectTrials.newest] .notFound j)
        (fun _ => d'.life < chooseCalls m.layout 2) (fun a _ => Chosen m d.cells r s a.1) d' := by
    intro cur j' d' hpend hp' hs' hconf' hrest' hearly'
    have hnew : s.rejectTrials.newest < 2 := by
      unfold Snapshot.newest
      split <;> decide
    refine (choose_works hw hl hvalid hends hboot hr (by rw [hcr]; exact hconfirmed)
      (by rw [hcr]; exact hverifies) hpend _ ?_ ?_ hp' hs' hconf' hrest' hearly').conseq ?_
    · simp only [List.mem_cons, List.not_mem_nil, or_false]
      omega
    · simp only [List.mem_cons, List.not_mem_nil, or_false]
      omega
    · rintro a - ⟨hok, hslot⟩
      refine ⟨hok, hslot.imp id fun h => ⟨h.1, ?_⟩⟩
      have := h.2
      rw [Snapshot.rejectTrials_get] at this
      exact this.of_rejectTrial
  refine .bind (.mono (lively_load hl hw.steady hvalid hp hsound) (fun _ h => ?_)
    fun _ _ h => h) ?_
  · unfold selectCalls
    omega
  rintro _ d₁ ⟨p, i, rfl, hm, -, -, hlife, hlater⟩
  refine .ite (fun h => absurd rfl h) fun _ => ?_
  have hp₁ : d₁.pending = none := by rw [hm, hp]
  have hsound₁ : Sound m.layout d₁.cells s := by rw [hm]; exact hsound
  have hconf₁ : Confined m.layout d.cells d₁.toMemory := by
    rw [hm]
    exact ⟨fun _ _ => rfl, fun op hop => by rw [hp] at hop; cases hop⟩
  have hrest₁ : ({ j with latest := p } : Journal).Resting := { hrest with }
  unfold Control.settleTrials
  refine .seq (.ite (fun htrial => ?_) fun hnone => .pure ?_)
  · obtain ⟨k, hk, hkt⟩ := Snapshot.hasTrial_iff.mp htrial
    have hother : (s.images.get (1 - r)).state = .trial := by
      obtain rfl : k = 1 - r := by
        rcases Nat.lt_or_ge k r with h | h
        · omega
        · rcases Nat.lt_or_ge r k with h' | h'
          · omega
          · obtain rfl : k = r := by omega
            rw [hconfirmed] at hkt
            cases hkt
      exact hkt
    have hseq := hroom.resolve_right fun h => h.1 hother
    have hwrite : Writable s.rejectTrials s := (hsound.pliable hseq).writable rfl hinst
    refine .mono (lively_commit hl hends hboot hw hvalid hp₁ hsound₁ hrest₁ hwrite
      (hearly.later hlater)) (fun _ h => ?_) ?_
    · unfold selectCalls
      omega
    rintro ⟨result, j₂⟩ d₂ ⟨hok, hrest₂, hp₂, hsound₂, hconf₂, hlife₂, hlater₂⟩
    obtain rfl : result = .ok := hok
    refine .ite (fun h => absurd rfl h) fun _ => ?_
    have hconf : Confined m.layout d.cells d₂.toMemory := by
      rw [show d₁.cells = d.cells by rw [hm]] at hconf₂
      exact hconf₂
    refine .mono (hchoose (fun h => ?_) hp₂ hsound₂ hconf hrest₂
      ((hearly.later hlater).later hlater₂)) (fun _ h => ?_) fun _ _ h => h
    · rw [Snapshot.rejectTrials_get, Image.rejectTrial, if_pos hother] at h
      cases h
    · unfold selectCalls
      omega
  · refine .ite (fun h => absurd rfl h) fun _ => ?_
    refine .mono (hchoose (fun h => ?_) hp₁ hsound₁ hconf₁ hrest₁ (hearly.later hlater))
      (fun _ h => ?_) fun _ _ h => h
    · have hne : (s.images.get (1 - r)).state ≠ .trial := fun h' =>
        hnone (Snapshot.hasTrial_iff.mpr ⟨1 - r, by omega, h'⟩)
      rw [Snapshot.rejectTrials_get, Image.rejectTrial_of_ne hne] at h
      have hseq := hroom.resolve_right fun h' => h'.2 h
      refine (hsound.pliable hseq).writable rfl fun i hi => ?_
      rw [Snapshot.mark_installation (by omega) hi]
      exact hinst i hi
    · unfold selectCalls
      omega

end select

end DaveOs.Boot
