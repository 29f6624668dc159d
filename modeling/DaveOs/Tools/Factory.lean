import DaveOs.Boot.CodecSpec
import DaveOs.Tools.Struct

/-!
# Factory metadata (`tools/factory.py`)

`metadata` builds the first journal record of a device on the host. It is the record the target
itself would have written for the factory's snapshot (`metadata_eq_encode`).
-/

namespace DaveOs.Tools.Factory

variable {commit : Bytes} {version : FactoryVersion}

open Bytes Boot

/-- The entries of the layout file that `metadata` reads. -/
structure FactoryLayout where
  writeSize : Option Int := none
  product : Int
  revision : Int
  deriving DecidableEq, Repr

structure FactoryVersion where
  major : Int
  minor : Int
  build : Int
  commit : String
  dirty : Bool
  deriving DecidableEq, Repr

/-- Whether the layout asks for records with 32-byte programming units. -/
def FactoryLayout.wide (layout : FactoryLayout) : Bool := layout.writeSize.getD 16 == 32

/-- Checksum and commit trailer, packed last. -/
def commitRecord (layout : FactoryLayout) (record : Bytes) : Bytes :=
  let crcAt := if layout.wide then 220 else 236
  let commitAt := if layout.wide then 224 else 240
  let record := packInto record crcAt [leBytes 4 (Crc32.calculate (record.take crcAt)).toNat]
  packInto record commitAt [leBytes 4 0x454e4f44, leBytes 8 1, leBytes 4 0xbab1b0bb]

/-- The first record of a device: slot A confirmed, slot B empty. -/
def metadata (application : Bytes) (layout : FactoryLayout) (version : FactoryVersion) :
    Except ToolError Bytes := do
  let size ← packI application.length
  let product ← packI layout.product
  let revision ← packI layout.revision
  let major ← packI version.major
  let minor ← packI version.minor
  let build ← packI version.build
  let commit ← encodeAscii version.commit
  if commit.length > 40 ∨ commit.contains 0 then
    throw (.valueError "invalid version commit identifier")
  else
    let record := List.replicate 256 0
    let record := packInto record 0
      [leBytes 4 0x4a534f44, leBytes 4 (if layout.wide then 2 else 1), leBytes 8 1, leBytes 8 1]
    let record := packInto record 24
      [leBytes 8 1, size, leBytes 4 (Crc32.calculate application).toNat, leBytes 4 4, product,
        revision, major, minor, build]
    let record := splice record 64 commit
    let record := splice record 105 [boolByte version.dirty]
    -- The empty slot still has the default local-build version sentinel.
    let record := packInto record 156 [leBytes 4 0xffffffff]
    pure (commitRecord layout record)

/-- A commit name in its terminated 41-byte field. -/
def commitField (commit : Bytes) : Vector UInt8 41 := Vector.ofFn fun i => commit.getD i.val 0

/-- The snapshot a factory image starts from. -/
def factorySnapshot (application : Bytes) (layout : FactoryLayout) (version : FactoryVersion) :
    Snapshot where
  sequence := 1
  counter := 1
  images :=
    ⟨{ installation := 1
       size := UInt32.ofNat application.length
       crc := Crc32.calculate application
       state := .confirmed
       product := UInt32.ofNat layout.product.toNat
       revision := UInt32.ofNat layout.revision.toNat
       version :=
        { major := UInt32.ofNat version.major.toNat
          minor := UInt32.ofNat version.minor.toNat
          build := UInt32.ofNat version.build.toNat
          commit := commitField (version.commit.toList.map fun c => UInt8.ofNat c.toNat)
          dirty := version.dirty } }, {}⟩

/-! ## The record is the target's own -/

theorem commitField_toList (h : commit.length ≤ 40) :
    (commitField commit).toList = commit ++ List.replicate (41 - commit.length) 0 := by
  apply List.ext_getElem?
  intro i
  rw [Vector.getElem?_toList]
  rcases Nat.lt_or_ge i 41 with hi | hi
  · rw [Vector.getElem?_eq_getElem hi, commitField, Vector.getElem_ofFn,
      List.getD_eq_getElem?_getD]
    rcases Nat.lt_or_ge i commit.length with hc | hc
    · rw [List.getElem?_append_left hc, List.getElem?_eq_getElem hc]
      rfl
    · rw [List.getElem?_append_right hc, List.getElem?_replicate, if_pos (by omega),
        List.getElem?_eq_none hc]
      rfl
  · rw [Vector.getElem?_eq_none hi, List.getElem?_eq_none (by simp; omega)]

/-- The write unit of the layout's records. -/
def FactoryLayout.unit (layout : FactoryLayout) : UInt32 := if layout.wide then 32 else 16

/-- The fields `metadata` packs before the checksum. -/
def bodyFields (application : Bytes) (layout : FactoryLayout) (version : FactoryVersion)
    (commit : Bytes) : List (Nat × Bytes) :=
  [(0, leBytes 4 kMagic.toNat), (4, leBytes 4 (formatVersion layout.unit).toNat),
    (8, leBytes 8 1), (16, leBytes 8 1), (24, leBytes 8 1),
    (32, leBytes 4 (UInt32.ofNat application.length).toNat),
    (36, leBytes 4 (Crc32.calculate application).toNat), (40, leBytes 4 4),
    (44, leBytes 4 (UInt32.ofNat layout.product.toNat).toNat),
    (48, leBytes 4 (UInt32.ofNat layout.revision.toNat).toNat),
    (52, leBytes 4 (UInt32.ofNat version.major.toNat).toNat),
    (56, leBytes 4 (UInt32.ofNat version.minor.toNat).toNat),
    (60, leBytes 4 (UInt32.ofNat version.build.toNat).toNat), (64, commit),
    (105, [boolByte version.dirty]), (156, leBytes 4 0xffffffff)]

theorem bodyFields_fit (application : Bytes) (layout : FactoryLayout) (version : FactoryVersion)
    (h : commit.length ≤ 40) : Fit 256 (bodyFields application layout version commit) where
  inside := by
    simp only [extents, bodyFields, List.map_cons, List.map_nil, length_leBytes, List.mem_cons,
      List.not_mem_nil, or_false, forall_eq_or_imp, forall_eq, List.length_cons, List.length_nil]
    omega
  apart := by
    simp only [extents, bodyFields, List.map_cons, List.map_nil, length_leBytes,
      List.pairwise_cons, List.mem_cons, List.not_mem_nil, or_false, forall_eq_or_imp, forall_eq,
      List.length_cons, List.length_nil, Apart, List.Pairwise.nil, false_implies, implies_true,
      and_true]
    omega

theorem field_of_getElem? {G : List (Nat × Bytes)} {f : Nat × Bytes} (i : Nat)
    (h : G[i]? = some f) : ∃ g ∈ G, g.1 = f.1 ∧ ∃ k, f.2 = g.2 ++ List.replicate k 0 :=
  ⟨f, List.mem_of_getElem? h, rfl, 0, (List.append_nil _).symm⟩

theorem body_eq (application : Bytes) (layout : FactoryLayout)
    (hcommit : commit = version.commit.toList.map fun c => UInt8.ofNat c.toNat)
    (hc : commit.length ≤ 40) :
    encodeBody (factorySnapshot application layout version) layout.unit =
      writes (List.replicate 256 0) (bodyFields application layout version commit) := by
  have hname : (factorySnapshot application layout version).images.a.version.commit.toList =
      commit ++ List.replicate (41 - commit.length) 0 := by
    rw [← commitField_toList hc, hcommit]
    rfl
  refine writes_zeros_congr (fields_fit _ _) (bodyFields_fit _ _ _ hc) ?_ ?_
  · intro f hf
    simp only [Snapshot.fields, Image.fields, List.cons_append, List.nil_append, List.mem_cons,
      List.not_mem_nil, or_false] at hf
    rcases hf with rfl | rfl | rfl | rfl | rfl | rfl | rfl | rfl | rfl | rfl | rfl | rfl | rfl |
      rfl | rfl | rfl | rfl | rfl | rfl | rfl | rfl | rfl | rfl | rfl | rfl | rfl
    · exact .inr (field_of_getElem? 0 rfl)
    · exact .inr (field_of_getElem? 1 rfl)
    · exact .inr (field_of_getElem? 2 rfl)
    · exact .inr (field_of_getElem? 3 rfl)
    · exact .inr (field_of_getElem? 4 rfl)
    · exact .inr (field_of_getElem? 5 rfl)
    · exact .inr (field_of_getElem? 6 rfl)
    · exact .inr (field_of_getElem? 7 rfl)
    · exact .inr (field_of_getElem? 8 rfl)
    · exact .inr (field_of_getElem? 9 rfl)
    · exact .inr (field_of_getElem? 10 rfl)
    · exact .inr (field_of_getElem? 11 rfl)
    · exact .inr (field_of_getElem? 12 rfl)
    · exact .inr ⟨(64, commit), List.mem_of_getElem? (i := 13) rfl, rfl, 41 - commit.length, by simp only [hname]⟩
    · exact .inr (field_of_getElem? 14 rfl)
    · exact .inl ⟨8, leBytes_zero 8⟩
    · exact .inl ⟨4, leBytes_zero 4⟩
    · exact .inl ⟨4, leBytes_zero 4⟩
    · exact .inl ⟨4, leBytes_zero 4⟩
    · exact .inl ⟨4, leBytes_zero 4⟩
    · exact .inl ⟨4, leBytes_zero 4⟩
    · exact .inl ⟨4, leBytes_zero 4⟩
    · exact .inl ⟨4, leBytes_zero 4⟩
    · exact .inr (field_of_getElem? 15 rfl)
    · exact .inl ⟨41, rfl⟩
    · exact .inl ⟨1, rfl⟩
  · intro g hg
    simp only [bodyFields, List.mem_cons, List.not_mem_nil, or_false] at hg
    rcases hg with rfl | rfl | rfl | rfl | rfl | rfl | rfl | rfl | rfl | rfl | rfl | rfl | rfl |
      rfl | rfl | rfl
    · exact ⟨_, List.mem_of_getElem? (i := 0) rfl, rfl, 0, rfl⟩
    · exact ⟨_, List.mem_of_getElem? (i := 1) rfl, rfl, 0, rfl⟩
    · exact ⟨_, List.mem_of_getElem? (i := 2) rfl, rfl, 0, rfl⟩
    · exact ⟨_, List.mem_of_getElem? (i := 3) rfl, rfl, 0, rfl⟩
    · exact ⟨_, List.mem_of_getElem? (i := 4) rfl, rfl, 0, rfl⟩
    · exact ⟨_, List.mem_of_getElem? (i := 5) rfl, rfl, 0, rfl⟩
    · exact ⟨_, List.mem_of_getElem? (i := 6) rfl, rfl, 0, rfl⟩
    · exact ⟨_, List.mem_of_getElem? (i := 7) rfl, rfl, 0, rfl⟩
    · exact ⟨_, List.mem_of_getElem? (i := 8) rfl, rfl, 0, rfl⟩
    · exact ⟨_, List.mem_of_getElem? (i := 9) rfl, rfl, 0, rfl⟩
    · exact ⟨_, List.mem_of_getElem? (i := 10) rfl, rfl, 0, rfl⟩
    · exact ⟨_, List.mem_of_getElem? (i := 11) rfl, rfl, 0, rfl⟩
    · exact ⟨_, List.mem_of_getElem? (i := 12) rfl, rfl, 0, rfl⟩
    · exact ⟨_, List.mem_of_getElem? (i := 13) rfl, rfl, 41 - commit.length, by simp only [hname]⟩
    · exact ⟨_, List.mem_of_getElem? (i := 14) rfl, rfl, 0, rfl⟩
    · exact ⟨_, List.mem_of_getElem? (i := 23) rfl, rfl, 0, rfl⟩

theorem commitRecord_eq (layout : FactoryLayout) (body : Bytes) :
    commitRecord layout body =
      sealed body (crcOffset layout.unit) (commitOffset layout.unit) 1 := by
  unfold commitRecord FactoryLayout.unit
  cases layout.wide <;> rfl

/-- **Factory metadata is the target's own record** of the factory snapshot. -/
theorem metadata_eq_encode {application : Bytes} {layout : FactoryLayout} {record : Bytes}
    (h : metadata application layout version = .ok record) :
    record = encode (factorySnapshot application layout version) layout.unit := by
  unfold metadata at h
  obtain ⟨size, hsize, h⟩ := bind_ok h
  obtain ⟨product, hproduct, h⟩ := bind_ok h
  obtain ⟨revision, hrevision, h⟩ := bind_ok h
  obtain ⟨major, hmajor, h⟩ := bind_ok h
  obtain ⟨minor, hminor, h⟩ := bind_ok h
  obtain ⟨build, hbuild, h⟩ := bind_ok h
  obtain ⟨commit, hascii, h⟩ := bind_ok h
  split at h
  · cases h
  · next hname =>
    have hc : commit.length ≤ 40 := by
      have := not_or.mp hname
      omega
    have hcommit : commit = version.commit.toList.map fun c => UInt8.ofNat c.toNat := by
      unfold encodeAscii at hascii
      split at hascii
      · exact (Except.ok.inj hascii).symm
      · cases hascii
    have hver : (if layout.wide then 2 else 1) = (formatVersion layout.unit).toNat := by
      unfold FactoryLayout.unit
      cases layout.wide <;> rfl
    have hs := packI_word hsize
    rw [Int.toNat_natCast] at hs
    obtain rfl := Except.ok.inj h
    rw [commitRecord_eq, encode_eq_sealed, body_eq application layout hcommit hc, hver, hs,
      packI_word hproduct, packI_word hrevision, packI_word hmajor, packI_word hminor,
      packI_word hbuild]
    simp only [packInto, length_leBytes]
    rfl

/-! ## The format as a whole -/

/-- A record that differs from `d` in one byte only is `d` with that byte set. -/
theorem eq_set_of_differ {r d : Bytes} {i : Nat} (hl : r.length = d.length) (hi : i < r.length)
    (h : ∀ j, j ≠ i → r[j]? = d[j]?) : r = d.set i r[i] := by
  apply List.ext_getElem?
  intro j
  rw [List.getElem?_set]
  split
  · next hj =>
    subst hj
    rw [if_pos (by omega), List.getElem?_eq_getElem hi]
  · next hj => exact h j (Ne.symm hj)

/-- **The journal's record format.** A snapshot survives its record; the trailer sits in the last
programming unit, and no record whose last unit is not the one `encode` writes is accepted; no
single changed byte is; and the factory writes the same format. -/
theorem record_format (s : Snapshot) (w : UInt32) (hw : w = 16 ∨ w = 32) (hseq : 0 < s.sequence)
    (ha : s.images.a.installation ≤ s.counter) (hb : s.images.b.installation ≤ s.counter)
    (hna : s.images.a.version.commit[40] = 0) (hnb : s.images.b.version.commit[40] = 0) :
    decode (encode s w) = some s ∧
    (256 - w.toNat ≤ commitOffset w ∧ commitOffset w + 16 ≤ 256) ∧
    (∀ r : Bytes, r.length = 256 →
      r.take (256 - w.toNat) = (encode s w).take (256 - w.toNat) →
      r.drop (256 - w.toNat) ≠ (encode s w).drop (256 - w.toNat) → decode r = none) ∧
    (∀ (r : Bytes) (t : Snapshot), r.length = 256 → Wire.read32 r 4 = formatVersion w →
      decode r = some t → r.drop (256 - w.toNat) = (encode t w).drop (256 - w.toNat)) ∧
    (∀ (r : Bytes) (i : Nat), r.length = 256 → r[i]? ≠ (encode s w)[i]? →
      (∀ j, j ≠ i → r[j]? = (encode s w)[j]?) → decode r = none) ∧
    (∀ (application : Bytes) (layout : FactoryLayout) (version : FactoryVersion) (record : Bytes),
      metadata application layout version = .ok record →
      record = encode (factorySnapshot application layout version) layout.unit) := by
  have hne : s.sequence ≠ 0 := by
    intro h
    rw [h] at hseq
    exact absurd hseq (by decide)
  have hstored : s.stored = s := by
    rw [Snapshot.stored, Image.stored_of_terminated (Vector.getElem?_eq_some_iff.mpr ⟨_, hna⟩),
      Image.stored_of_terminated (Vector.getElem?_eq_some_iff.mpr ⟨_, hnb⟩)]
  have hunit := commitOffset_unit hw
  refine ⟨?_, ⟨by omega, hunit.2⟩, fun r => decode_torn_unit hw, fun r t hl hv h =>
    decode_unit hw hl h hv, ?_, fun _ _ _ _ => metadata_eq_encode⟩
  · rw [decode_encode ⟨hne, ha, hb⟩, hstored]
  · intro r i hl hi hj
    have hlen := length_encode s w
    have hlt : i < r.length := by
      apply Classical.byContradiction
      intro hge
      exact hi (by rw [List.getElem?_eq_none (by omega), List.getElem?_eq_none (by omega)])
    rw [List.getElem?_eq_getElem hlt, List.getElem?_eq_getElem (by omega)] at hi
    rw [eq_set_of_differ (by omega) hlt hj]
    exact decode_set_encode (by omega) fun h => hi (congrArg some h.symm)

theorem record_format_factory :
    decode (encode (factorySnapshot [] { product := 1, revision := 1 } ⟨0, 1, 0, "", false⟩) 32) =
      some (factorySnapshot [] { product := 1, revision := 1 } ⟨0, 1, 0, "", false⟩) :=
  (record_format _ 32 (.inr rfl) (by decide) (by decide) (by decide) (by decide)
    (by decide)).1

end DaveOs.Tools.Factory
