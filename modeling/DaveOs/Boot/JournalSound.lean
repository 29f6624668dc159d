import DaveOs.Boot.CodecSpec
import DaveOs.Boot.Journal

/-!
# What the metadata sectors hold

`Sound layout cells cur` is the journal's invariant on the flash content: `cur` is the newest
snapshot, committed records of one sequence are one record, and records fit the programming unit.

The rest is what flash operations do to it. An erase, completed or torn, keeps it as long as the
other bank has the newest snapshot (`Sound.erase`). A record that is being programmed into an erased
slot (`Writing`) is not there before its last unit is, however a unit is torn (`Sound.program`).
-/

namespace DaveOs.Boot

open Bytes Wire

variable (layout : Layout)

/-- `pos` is a record slot of metadata sector `i`. -/
def Layout.InBank (i pos : Nat) : Prop :=
  i < 2 ∧ ∃ k, k < layout.sector / kRecordSize ∧ pos = layout.bank i + kRecordSize * k

/-- Bank `i` has a committed record of `s`. -/
def HasIn (cells : Cells) (i : Nat) (s : Snapshot) : Prop :=
  ∃ p, layout.InBank i p ∧ cells.snapshot p = some s

/-- Committed records of one sequence are one record. -/
def Agree (cells : Cells) : Prop :=
  ∀ i p s j q t, layout.InBank i p → cells.snapshot p = some s → layout.InBank j q →
    cells.snapshot q = some t → s.sequence = t.sequence →
    cells.bytes p kRecordSize = cells.bytes q kRecordSize

/-- Committed records suit the programming unit: with 32-byte units they are of version 2. -/
def Suited (cells : Cells) : Prop :=
  layout.unit = 32 → ∀ i p t bs, layout.InBank i p → cells.snapshot p = some t →
    cells.bytes p kRecordSize = some bs → read32 bs 4 = 2

/-- The metadata sectors are in order and `cur` is the newest snapshot. -/
structure Sound (cells : Cells) (cur : Snapshot) : Prop where
  present : ∃ i, HasIn layout cells i cur
  newest : ∀ i p t, layout.InBank i p → cells.snapshot p = some t → t.sequence ≤ cur.sequence
  same : Agree layout cells
  version : Suited layout cells

section basics

variable {layout} {cells cells' : Cells} {p q i j : Nat} {s t cur : Snapshot} {bs R : Bytes}

theorem Cells.snapshot_eq_some : cells.snapshot p = some s ↔
    ∃ bs, cells.bytes p kRecordSize = some bs ∧ decode bs = some s := by
  rw [Cells.snapshot, Option.bind_eq_some_iff]

theorem Cells.snapshot_of_bytes (h : cells.bytes p kRecordSize = some bs) :
    cells.snapshot p = decode bs := by
  rw [Cells.snapshot, h, Option.bind_some]

theorem Cells.snapshot_congr (h : ∀ x, x < kRecordSize → cells' (p + x) = cells (p + x)) :
    cells'.snapshot p = cells.snapshot p := by
  rw [Cells.snapshot, Cells.snapshot, Cells.bytes_congr h]

theorem Layout.InBank.apart (hl : layout.Valid) (hp : layout.InBank i p) (hq : layout.InBank j q)
    (h : p ≠ q) : p + 256 ≤ q ∨ q + 256 ≤ p := by
  obtain ⟨hi, k, hk, rfl⟩ := hp
  obtain ⟨hj, k', hk', rfl⟩ := hq
  have hsec := hl.record_dvd
  have hb := hl.banks_apart
  simp only [kRecordSize] at *
  have hlt : 256 * k + 256 ≤ layout.sector := by omega
  have hlt' : 256 * k' + 256 ≤ layout.sector := by omega
  obtain rfl | rfl : i = 0 ∨ i = 1 := by omega
  all_goals obtain rfl | rfl : j = 0 ∨ j = 1 := by omega
  all_goals omega

theorem Layout.InBank.inside (hl : layout.Valid) (hp : layout.InBank i p) :
    layout.bank i ≤ p ∧ p + 256 ≤ layout.bank i + layout.sector := by
  obtain ⟨hi, k, hk, rfl⟩ := hp
  have hsec := hl.record_dvd
  simp only [kRecordSize] at *
  omega

theorem Layout.InBank.other (hl : layout.Valid) (hp : layout.InBank i p) (hj : j < 2)
    (hne : j ≠ i) : p + 256 ≤ layout.bank j ∨ layout.bank j + layout.sector ≤ p := by
  have hin := hp.inside hl
  have hi := hp.1
  have hb := hl.banks_apart
  obtain rfl | rfl : i = 0 ∨ i = 1 := by omega
  all_goals obtain rfl | rfl : j = 0 ∨ j = 1 := by omega
  all_goals omega

theorem Layout.InBank.first (hl : layout.Valid) (hi : i < 2) :
    layout.InBank i (layout.bank i) := by
  have hsec := hl.record_dvd
  have hpos := hl.sector_pos
  refine ⟨hi, 0, ?_, by simp [kRecordSize]⟩
  simp only [kRecordSize]
  omega

theorem Sound.unique (hs : Sound layout cells s) (ht : Sound layout cells t) : s = t := by
  obtain ⟨i, p, hp, hsp⟩ := hs.present
  obtain ⟨j, q, hq, htq⟩ := ht.present
  have heq : s.sequence = t.sequence :=
    UInt64.le_antisymm (ht.newest i p s hp hsp) (hs.newest j q t hq htq)
  have := hs.same i p s j q t hp hsp hq htq heq
  rw [Cells.snapshot, this, ← Cells.snapshot, htq] at hsp
  exact (Option.some.inj hsp).symm

theorem Sound.stored_eq (h : Sound layout cells s) : s.stored = s := by
  obtain ⟨i, p, hp, hsn⟩ := h.present
  obtain ⟨bs, -, hdec⟩ := Cells.snapshot_eq_some.mp hsn
  exact decode_stored hdec

theorem Sound.storable (h : Sound layout cells s) : s.Storable := by
  obtain ⟨i, p, hp, hsn⟩ := h.present
  obtain ⟨bs, -, hdec⟩ := Cells.snapshot_eq_some.mp hsn
  have ha := decode_eq_some.mp hdec
  exact ⟨ha.sequence_ne, decodeImage_installation ha.imageA, decodeImage_installation ha.imageB⟩

/-- Records that stay whole, the newest among them: losing the others is harmless. -/
theorem Sound.shrink (h : Sound layout cells cur) (hkeep : HasIn layout cells' i cur)
    (hsub : ∀ i p t, layout.InBank i p → cells'.snapshot p = some t →
      cells'.bytes p kRecordSize = cells.bytes p kRecordSize) :
    Sound layout cells' cur := by
  have hsn : ∀ i p t, layout.InBank i p → cells'.snapshot p = some t →
      cells.snapshot p = some t := by
    intro i p t hp ht
    rw [Cells.snapshot, ← hsub i p t hp ht, ← Cells.snapshot, ht]
  refine ⟨⟨i, hkeep⟩, ?_, ?_, ?_⟩
  · intro i p t hp ht
    exact h.newest i p t hp (hsn i p t hp ht)
  · intro i p s j q t hp hs hq ht heq
    rw [hsub i p s hp hs, hsub j q t hq ht]
    exact h.same i p s j q t hp (hsn i p s hp hs) hq (hsn j q t hq ht) heq
  · intro hw i p t bs hp ht hbs
    rw [hsub i p t hp ht] at hbs
    exact h.version hw i p t bs hp (hsn i p t hp ht) hbs

theorem Sound.congr (h : Sound layout cells cur)
    (heq : ∀ i p x, layout.InBank i p → x < kRecordSize → cells' (p + x) = cells (p + x)) :
    Sound layout cells' cur := by
  obtain ⟨i, p, hp, hc⟩ := h.present
  refine h.shrink ⟨p, hp, ?_⟩ fun j q t hq _ => Cells.bytes_congr fun x hx => heq j q x hq hx
  rw [Cells.snapshot_congr fun x hx => heq i p x hp hx, hc]

end basics

/-! ## Erasing -/

section erase

variable {layout} {cells cells' : Cells} {p q i j k : Nat} {s t cur : Snapshot} {bs R : Bytes}

theorem Leaves.outside_erase (h : Leaves layout (.erase p) cells cells') {x : Nat}
    (hx : x < p ∨ p + layout.sector ≤ x) : cells' x = cells x := by
  refine h.outside x fun hc => ?_
  have : p ≤ x ∧ x < p + layout.sector := hc
  omega

theorem HasIn.erase (hl : layout.Valid) (h : HasIn layout cells j cur) (hi : i < 2) (hne : i ≠ j)
    (hleaves : Leaves layout (.erase (layout.bank i)) cells cells') :
    HasIn layout cells' j cur := by
  obtain ⟨p, hp, hc⟩ := h
  have hap := hp.other hl hi hne
  refine ⟨p, hp, ?_⟩
  rw [Cells.snapshot_congr fun x hx => hleaves.outside_erase ?_, hc]
  simp only [kRecordSize] at hx
  omega

/-- **An erase is harmless**, completed or torn, when the other bank has the newest snapshot. -/
theorem Sound.erase (hl : layout.Valid) (h : Sound layout cells cur) (hi : i < 2)
    (hother : HasIn layout cells (1 - i) cur)
    (hleaves : Leaves layout (.erase (layout.bank i)) cells cells') :
    Sound layout cells' cur := by
  refine h.shrink (hother.erase hl hi (by omega) hleaves) fun j p t hp ht => ?_
  by_cases hj : i = j
  · subst hj
    obtain ⟨-, k, hk, rfl⟩ := hp
    rcases hleaves.record i k hi hk rfl with hsame | hnone
    · exact Cells.bytes_congr hsame
    · rw [hnone] at ht
      cases ht
  · have hap := hp.other hl hi hj
    refine Cells.bytes_congr fun x hx => hleaves.outside_erase ?_
    simp only [kRecordSize] at hx
    omega

end erase

/-! ## Writing a record -/

/-- `R` is a record of `t` that the flash's programming unit suits. -/
structure Fits (R : Bytes) (t : Snapshot) : Prop where
  length : R.length = kRecordSize
  decodes : decode R = some t
  version : layout.unit = 32 → read32 R 4 = 2

/-- `R`, a record of `t`, may be added: it is newer than `cur`, or a copy of `cur`'s record. -/
def Follows (cells : Cells) (cur : Snapshot) (R : Bytes) (t : Snapshot) : Prop :=
  cur.sequence < t.sequence ∨
    t = cur ∧ ∃ i q, layout.InBank i q ∧ cells.bytes q kRecordSize = some R

/-- The first `k` bytes of `R` have been programmed into the erased slot `p`. -/
structure Writing (cells : Cells) (cur : Snapshot) (R : Bytes) (p k : Nat) (t : Snapshot) :
    Prop where
  place : ∃ i, layout.InBank i p
  fits : Fits layout R t
  follows : Follows layout cells cur R t
  written : ∀ x, x < k → cells (p + x) = R[x]?
  blank : ∀ x, k ≤ x → x < kRecordSize → cells (p + x) = some 0xff
  aligned : k % layout.unit = 0
  le : k ≤ kRecordSize

section write

variable {layout} {cells cells' : Cells} {p q i j k : Nat} {s t cur : Snapshot} {bs R : Bytes}
variable {x : Nat} {data : Bytes}

theorem decode_blank_end (hl : bs.length = 256) (h : slice bs 240 16 = List.replicate 16 0xff) :
    decode bs = none := by
  refine Option.eq_none_iff_forall_not_mem.mpr fun t ht => ?_
  rcases decode_tail hl ht with ⟨-, htail⟩ | ⟨-, htail⟩
  · rw [h] at htail
    have := congrArg List.head? htail
    exact absurd this (by simp [trailer, leBytes, kCommit])
  · have hsub : slice bs 240 16 = List.replicate 16 0 := by
      have := congrArg (List.drop 16) htail
      rw [slice, List.drop_take, List.drop_drop] at this
      rw [slice, this]
      rfl
    rw [h] at hsub
    exact absurd hsub (by decide)

theorem Fits.eq_of_take (hR : Fits layout R t) (hunit : layout.unit = 16 ∨ layout.unit = 32)
    (hl : bs.length = 256) (htake : bs.take (256 - layout.unit) = R.take (256 - layout.unit))
    (hs : decode bs = some s) : bs = R := by
  have hRl : R.length = 256 := hR.length
  have hlow : ∀ pos n, pos + n ≤ 224 → slice bs pos n = slice R pos n := by
    intro pos n hp
    rw [← slice_take (by omega : pos + n ≤ 256 - layout.unit), htake, slice_take (by omega)]
  have hv : read32 bs 4 = read32 R 4 := read32_congr (hlow 4 4 (by decide))
  have hseq : s.sequence = t.sequence := by
    rw [(decode_eq_some.mp hs).sequence, (decode_eq_some.mp hR.decodes).sequence,
      read64_congr (hlow 8 8 (by decide))]
  have hdrop : bs.drop (256 - layout.unit) = R.drop (256 - layout.unit) := by
    have hslice : ∀ (d : Bytes) (n : Nat), d.length = 256 → slice d (256 - n) n = d.drop (256 - n) :=
      fun d n hd => List.take_of_length_le (by rw [List.length_drop]; omega)
    rcases decode_tail hl hs with ⟨hv1, h1⟩ | ⟨hv2, h2⟩
    · rcases decode_tail hRl hR.decodes with ⟨-, hr1⟩ | ⟨hr2, -⟩
      · have hu : layout.unit = 16 := hunit.resolve_right fun h32 => by
          have := hR.version h32
          rw [← hv, hv1] at this
          exact absurd this (by decide)
        rw [hu, ← hslice bs 16 hl, ← hslice R 16 hRl]
        exact h1.trans (by rw [hseq]; exact hr1.symm)
      · rw [hv, hr2] at hv1
        exact absurd hv1 (by decide)
    · rcases decode_tail hRl hR.decodes with ⟨hr1, -⟩ | ⟨-, hr2⟩
      · rw [hv, hr1] at hv2
        exact absurd hv2 (by decide)
      · have h32 : slice bs 224 32 = slice R 224 32 := h2.trans (by rw [hseq]; exact hr2.symm)
        have hd : bs.drop 224 = R.drop 224 := by
          rw [← hslice bs 32 hl, ← hslice R 32 hRl]
          exact h32
        rw [show 256 - layout.unit = 224 + (32 - layout.unit) by omega, ← List.drop_drop,
          ← List.drop_drop, hd]
  rw [← List.take_append_drop (256 - layout.unit) bs, htake, hdrop, List.take_append_drop]

theorem Layout.InBank.frame (hl : layout.Valid) (hp : layout.InBank i p)
    (hout : ∀ x, x < p ∨ p + 256 ≤ x → cells' x = cells x) (hq : layout.InBank j q) (hqp : q ≠ p) :
    cells'.bytes q kRecordSize = cells.bytes q kRecordSize ∧
      cells'.snapshot q = cells.snapshot q := by
  have hsame : ∀ x, x < kRecordSize → cells' (q + x) = cells (q + x) := by
    intro x hx
    have := hq.apart hl hp hqp
    simp only [kRecordSize] at hx
    exact hout _ (by omega)
  exact ⟨Cells.bytes_congr hsame, Cells.snapshot_congr hsame⟩

theorem ne_of_snapshot_none (hnone : cells.snapshot p = none) (h : cells.snapshot q = some t) :
    q ≠ p := by
  rintro rfl
  rw [hnone] at h
  cases h

theorem Sound.change_none (hl : layout.Valid) (h : Sound layout cells cur)
    (hp : layout.InBank i p) (hbefore : cells.snapshot p = none)
    (hout : ∀ x, x < p ∨ p + 256 ≤ x → cells' x = cells x) (hafter : cells'.snapshot p = none) :
    Sound layout cells' cur := by
  obtain ⟨j, q, hq, hc⟩ := h.present
  refine h.shrink ⟨q, hq, ?_⟩ fun j q t hq ht => ?_
  · rw [(hp.frame hl hout hq (ne_of_snapshot_none hbefore hc)).2, hc]
  · exact (hp.frame hl hout hq (ne_of_snapshot_none hafter ht)).1

/-- A change in one slot without a record, which puts a record there that may be added. -/
theorem Sound.change_record (hl : layout.Valid) (h : Sound layout cells cur)
    (hp : layout.InBank i p) (hbefore : cells.snapshot p = none)
    (hout : ∀ x, x < p ∨ p + 256 ≤ x → cells' x = cells x) (hR : Fits layout R t)
    (hfollows : Follows layout cells cur R t) (hbytes : cells'.bytes p kRecordSize = some R) :
    Sound layout cells' t := by
  have hat : cells'.snapshot p = some t := by rw [Cells.snapshot_of_bytes hbytes, hR.decodes]
  have hle : cur.sequence ≤ t.sequence := by
    rcases hfollows with hlt | ⟨rfl, -⟩
    · exact UInt64.le_of_lt hlt
    · exact UInt64.le_refl _
  have hold : ∀ j q u, layout.InBank j q → q ≠ p → cells'.snapshot q = some u →
      cells.snapshot q = some u ∧ cells'.bytes q kRecordSize = cells.bytes q kRecordSize := by
    intro j q u hq hqp hu
    obtain ⟨hb, hsn⟩ := hp.frame hl hout hq hqp
    exact ⟨hsn ▸ hu, hb⟩
  -- A record of `t`'s sequence elsewhere can only be the one `R` copies.
  have hcopy : ∀ j q u, layout.InBank j q → q ≠ p → cells'.snapshot q = some u →
      t.sequence = u.sequence → cells'.bytes q kRecordSize = some R := by
    intro j q u hq hqp hu heq
    obtain ⟨hu', hb⟩ := hold j q u hq hqp hu
    rcases hfollows with hlt | ⟨rfl, i₀, q₀, hq₀, hb₀⟩
    · have hle' := h.newest j q u hq hu'
      rw [← heq] at hle'
      exact absurd hlt (UInt64.not_lt.mpr hle')
    · have ht₀ : cells.snapshot q₀ = some t := by rw [Cells.snapshot_of_bytes hb₀, hR.decodes]
      rw [hb, h.same j q u i₀ q₀ t hq hu' hq₀ ht₀ heq.symm, hb₀]
  refine ⟨⟨i, p, hp, hat⟩, ?_, ?_, ?_⟩
  · intro j q u hq hu
    by_cases hqp : q = p
    · rw [hqp, hat] at hu
      rw [Option.some.inj hu]
      exact UInt64.le_refl _
    · exact UInt64.le_trans (h.newest j q u hq (hold j q u hq hqp hu).1) hle
  · intro j q u j' q' u' hq hu hq' hu' heq
    by_cases hqp : q = p
    · subst hqp
      rw [hat] at hu
      obtain rfl := Option.some.inj hu
      by_cases hqp' : q' = q
      · rw [hqp']
      · rw [hbytes, hcopy j' q' u' hq' hqp' hu' heq]
    · by_cases hqp' : q' = p
      · subst hqp'
        rw [hat] at hu'
        obtain rfl := Option.some.inj hu'
        rw [hbytes, hcopy j q u hq hqp hu heq.symm]
      · obtain ⟨h1, hb1⟩ := hold j q u hq hqp hu
        obtain ⟨h2, hb2⟩ := hold j' q' u' hq' hqp' hu'
        rw [hb1, hb2]
        exact h.same j q u j' q' u' hq h1 hq' h2 heq
  · intro hw j q u bs hq hu hbs
    by_cases hqp : q = p
    · subst hqp
      rw [hbytes] at hbs
      rw [← Option.some.inj hbs]
      exact hR.version hw
    · obtain ⟨h1, hb1⟩ := hold j q u hq hqp hu
      rw [hb1] at hbs
      exact h.version hw j q u bs hq h1 hbs

/-! ## Programming a unit -/

theorem snapshot_blank_end (h : ∀ x, 240 ≤ x → x < 256 → cells (p + x) = some 0xff) :
    cells.snapshot p = none := by
  refine Option.eq_none_iff_forall_not_mem.mpr fun t ht => ?_
  obtain ⟨bs, hbs, hd⟩ := Cells.snapshot_eq_some.mp ht
  obtain ⟨hlen, hb⟩ := Cells.bytes_eq_some.mp hbs
  rw [decode_blank_end hlen] at hd
  · cases hd
  · apply List.ext_getElem?
    intro x
    rw [getElem?_slice, List.getElem?_replicate]
    split
    · simp only [kRecordSize] at hb
      rw [← hb (240 + x) (by omega), h (240 + x) (by omega) (by omega)]
    · rfl

theorem Writing.undecodable (hunit : layout.unit = 16 ∨ layout.unit = 32)
    (h : Writing layout cells cur R p k t) (hk : k < kRecordSize) : cells.snapshot p = none := by
  have ha := h.aligned
  simp only [kRecordSize] at hk
  refine snapshot_blank_end fun x h1 h2 => h.blank x ?_ h2
  rcases hunit with hu | hu <;> rw [hu] at ha <;> omega

theorem Writing.bytes (h : Writing layout cells cur R p kRecordSize t) :
    cells.bytes p kRecordSize = some R :=
  Cells.bytes_eq_some.mpr ⟨h.fits.length, h.written⟩

theorem Operation.apply_outside {op : Operation} (h : ¬op.Covers layout x) :
    op.apply layout cells x = cells x := if_neg h

theorem Operation.apply_erase (h : p ≤ x ∧ x < p + layout.sector) :
    (Operation.erase p).apply layout cells x = some 0xff := if_pos h

theorem Operation.apply_program (h : p ≤ x ∧ x < p + data.length) :
    (Operation.program p data).apply layout cells x =
      (cells x).map (· &&& data.getD (x - p) 0) := if_pos h

theorem Operation.apply_leaves (layout : Layout) (op : Operation) (cells : Cells) :
    Leaves layout op cells (op.apply layout cells) where
  outside x h := op.apply_outside h
  record i k _ hk hop := by
    subst hop
    simp only [kRecordSize] at hk
    refine .inr (snapshot_blank_end fun x h1 h2 => Operation.apply_erase ?_)
    simp only [kRecordSize]
    omega

theorem Leaves.outside_program (h : Leaves layout (.program p data) cells cells')
    (hx : x < p ∨ p + data.length ≤ x) : cells' x = cells x := by
  refine h.outside x fun hc => ?_
  have : p ≤ x ∧ x < p + data.length := hc
  omega

theorem Writing.room (hunit : layout.unit = 16 ∨ layout.unit = 32)
    (h : Writing layout cells cur R p k t) (hk : k < kRecordSize) :
    (slice R k layout.unit).length = layout.unit ∧ k + layout.unit ≤ kRecordSize := by
  have ha := h.aligned
  have hR := h.fits.length
  simp only [kRecordSize] at *
  have hle : k + layout.unit ≤ 256 := by
    rcases hunit with hu | hu <;> rw [hu] at ha ⊢ <;> omega
  exact ⟨length_slice (by omega), hle⟩

/-- **A torn unit commits nothing but the record**: however a unit of it is left, the newest
snapshot is the old one or the record's. -/
theorem Sound.program (hl : layout.Valid) (h : Sound layout cells cur)
    (hw : Writing layout cells cur R p k t) (hk : k < kRecordSize)
    (hleaves : Leaves layout (.program (p + k) (slice R k layout.unit)) cells cells') :
    Sound layout cells' cur ∨ Sound layout cells' t := by
  obtain ⟨i, hp⟩ := hw.place
  obtain ⟨hlen, hroom⟩ := hw.room hl.unit_eq hk
  have hunit := hl.unit_eq
  have ha := hw.aligned
  have hnone := hw.undecodable hl.unit_eq hk
  simp only [kRecordSize] at hk hroom
  have hunitOut : ∀ x, x < k ∨ k + layout.unit ≤ x → cells' (p + x) = cells (p + x) := by
    intro x hx
    exact hleaves.outside_program (by omega)
  have hout : ∀ x, x < p ∨ p + 256 ≤ x → cells' x = cells x := by
    intro x hx
    exact hleaves.outside_program (by omega)
  by_cases hlast : k + layout.unit = 256
  · -- The last unit: the slot has no record, or exactly `R`.
    cases hsn : cells'.snapshot p with
    | none => exact .inl (h.change_none hl hp hnone hout hsn)
    | some s =>
      obtain ⟨bs, hbs, hs⟩ := Cells.snapshot_eq_some.mp hsn
      obtain ⟨hbl, hb⟩ := Cells.bytes_eq_some.mp hbs
      have htake : bs.take (256 - layout.unit) = R.take (256 - layout.unit) := by
        apply List.ext_getElem?
        intro x
        rw [List.getElem?_take, List.getElem?_take]
        split
        · simp only [kRecordSize] at hb
          rw [← hb x (by omega), hunitOut x (by omega), hw.written x (by omega)]
        · rfl
      obtain rfl := hw.fits.eq_of_take hunit hbl htake hs
      exact .inr (h.change_record hl hp hnone hout hw.fits hw.follows hbs)
  · -- An earlier unit: the last one is still erased.
    have h240 : k + layout.unit ≤ 240 := by
      rcases hunit with hu | hu <;> rw [hu] at ha hroom hlast ⊢ <;> omega
    refine .inl (h.change_none hl hp hnone hout (snapshot_blank_end fun x h1 h2 => ?_))
    rw [hunitOut x (by omega), hw.blank x (by omega) h2]

/-- A copy's source is not touched by what happens in an undecodable slot. -/
theorem Follows.frame (hl : layout.Valid) (hp : layout.InBank i p)
    (hnone : cells.snapshot p = none) (hout : ∀ x, x < p ∨ p + 256 ≤ x → cells' x = cells x)
    (hR : Fits layout R t) (h : Follows layout cells cur R t) : Follows layout cells' cur R t := by
  rcases h with hlt | ⟨rfl, j, q, hq, hb⟩
  · exact .inl hlt
  · have ht : cells.snapshot q = some t := by rw [Cells.snapshot_of_bytes hb, hR.decodes]
    refine .inr ⟨rfl, j, q, hq, ?_⟩
    rw [(hp.frame hl hout hq (ne_of_snapshot_none hnone ht)).1, hb]

theorem Writing.program (hl : layout.Valid) (hw : Writing layout cells cur R p k t)
    (hk : k < kRecordSize) :
    Writing layout ((Operation.program (p + k) (slice R k layout.unit)).apply layout cells) cur R p
      (k + layout.unit) t := by
  obtain ⟨i, hp⟩ := hw.place
  obtain ⟨hlen, hroom⟩ := hw.room hl.unit_eq hk
  have hnone := hw.undecodable hl.unit_eq hk
  have hR := hw.fits.length
  have hleaves := Operation.apply_leaves layout
    (.program (p + k) (slice R k layout.unit)) cells
  refine
    { place := hw.place, fits := hw.fits, follows := ?_, written := ?_, blank := ?_,
      aligned := ?_, le := hroom }
  · refine hw.follows.frame hl hp hnone (fun x hx => ?_) hw.fits
    simp only [kRecordSize] at hroom
    exact hleaves.outside_program (by omega)
  · intro x hx
    rcases Nat.lt_or_ge x k with hxk | hxk
    · rw [hleaves.outside_program (by omega), hw.written x hxk]
    · rw [Operation.apply_program (by omega), hw.blank x hxk (by omega), Option.map_some,
        List.getD_eq_getElem?_getD, getElem?_slice, if_pos (by omega),
        show k + (p + x - (p + k)) = x by omega, List.getElem?_eq_getElem (by omega),
        Option.getD_some]
      congr 1
      exact UInt8.neg_one_and
  · intro x h1 h2
    rw [hleaves.outside_program (by omega), hw.blank x (by omega) h2]
  · rw [Nat.add_mod_right]
    exact hw.aligned

/-- The newest snapshot after a programmed unit: the record's once all its units are there. -/
theorem Sound.programmed (hl : layout.Valid) (h : Sound layout cells cur)
    (hw : Writing layout cells cur R p k t) (hk : k < kRecordSize) :
    Sound layout ((Operation.program (p + k) (slice R k layout.unit)).apply layout cells)
      (if k + layout.unit = kRecordSize then t else cur) := by
  obtain ⟨i, hp⟩ := hw.place
  have hroom := (hw.room hl.unit_eq hk)
  have hnone := hw.undecodable hl.unit_eq hk
  have hw' := hw.program hl hk
  have hout : ∀ x, x < p ∨ p + 256 ≤ x →
      (Operation.program (p + k) (slice R k layout.unit)).apply layout cells x = cells x := by
    intro x hx
    simp only [kRecordSize] at hroom
    exact (Operation.apply_leaves layout _ cells).outside_program (by omega)
  split
  · next heq =>
    rw [heq] at hw'
    exact h.change_record hl hp hnone hout hw.fits hw.follows hw'.bytes
  · exact h.change_none hl hp hnone hout (hw'.undecodable hl.unit_eq (by omega))

end write

end DaveOs.Boot
