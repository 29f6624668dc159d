import DaveOs.Boot.Codec

/-!
# What the record format guarantees

The two halves of the codec agree: `decode_encode` gives back the snapshot that was encoded, with
the terminator of each commit name in place (`Snapshot.stored`). In the other direction,
`decode_tail` reads off an accepted record that its last programming unit is the one `encode`
writes, so a record whose last unit is torn is refused; `decode_set_encode` refuses every record
that differs from an encoded one in one byte.
-/

namespace DaveOs.Boot

variable {s : Snapshot} {w : UInt32} {pos n : Nat} {src bytes : Bytes} {sequence : UInt64}
  {r : Bytes} {counter : UInt64} {image : Image}

open Bytes Wire

/-! ## The fields of an encoded record -/

/-- Where the fields before the checksum lie: place and length. -/
def bodyExtents : List (Nat × Nat) :=
  [(0, 4), (4, 4), (8, 8), (16, 8),
    (24, 8), (32, 4), (36, 4), (40, 4), (44, 4), (48, 4), (52, 4), (56, 4), (60, 4), (64, 41),
    (105, 1),
    (120, 8), (128, 4), (132, 4), (136, 4), (140, 4), (144, 4), (148, 4), (152, 4), (156, 4),
    (160, 41), (201, 1)]

theorem extents_fields (s : Snapshot) (w : UInt32) : extents (s.fields w) = bodyExtents := by
  simp [extents, Snapshot.fields, Image.fields, bodyExtents]

theorem bodyExtents_apart : bodyExtents.Pairwise Apart := by decide

theorem bodyExtents_end : ∀ x ∈ bodyExtents, x.1 + x.2 ≤ 202 := by decide

theorem fields_fit (s : Snapshot) (w : UInt32) : Fit 256 (s.fields w) where
  inside := by rw [extents_fields]; decide
  apart := by rw [extents_fields]; exact bodyExtents_apart

theorem fields_end {f : Nat × Bytes} (hf : f ∈ s.fields w) : f.1 + f.2.length ≤ 202 := by
  have hmem : (f.1, f.2.length) ∈ extents (s.fields w) := List.mem_map_of_mem hf
  rw [extents_fields] at hmem
  exact bodyExtents_end _ hmem

theorem length_encodeBody (s : Snapshot) (w : UInt32) : (encodeBody s w).length = 256 := by
  unfold encodeBody
  rw [length_writes]
  · exact List.length_replicate
  · intro f hf
    have := fields_end hf
    simp only [List.length_replicate, kRecordSize]
    omega

theorem slice_encodeBody (hm : (pos, src) ∈ s.fields w) (hn : src.length = n) :
    slice (encodeBody s w) pos n = src := by
  refine slice_writes_mem ?_ ?_ hm hn
  · intro x hx
    rw [extents_fields] at hx
    have := bodyExtents_end x hx
    simp only [List.length_replicate, kRecordSize]
    omega
  · rw [extents_fields]
    exact bodyExtents_apart

theorem slice_encodeBody_gap (s : Snapshot) (w : UInt32) (hp : 202 ≤ pos) (hn : pos + n ≤ 256) :
    slice (encodeBody s w) pos n = List.replicate n 0 := by
  unfold encodeBody
  rw [slice_writes_apart]
  · simp only [slice, kRecordSize, List.drop_replicate, List.take_replicate]
    congr 1
    omega
  · intro f hf
    have := fields_end hf
    simp only [List.length_replicate, kRecordSize]
    omega
  · intro f hf
    have := fields_end hf
    left
    simp only
    omega

/-- The commit trailer of a record with the given sequence. -/
def trailer (sequence : UInt64) : Bytes :=
  leBytes 4 kCommit.toNat ++ (leBytes 8 sequence.toNat ++ leBytes 4 (~~~kCommit).toNat)

/-- A record whose fields up to the checksum are `bytes`. -/
def sealed (bytes : Bytes) (crcAt commitAt : Nat) (sequence : UInt64) : Bytes :=
  writes bytes [(crcAt, leBytes 4 (Crc32.calculate (bytes.take crcAt)).toNat),
    (commitAt, leBytes 4 kCommit.toNat), (commitAt + 4, leBytes 8 sequence.toNat),
    (commitAt + 12, leBytes 4 (~~~kCommit).toNat)]

theorem encode_eq_sealed (s : Snapshot) (w : UInt32) :
    encode s w = sealed (encodeBody s w) (crcOffset w) (commitOffset w) s.sequence := rfl

theorem offsets (w : UInt32) : crcOffset w + 4 = commitOffset w ∧ 202 ≤ crcOffset w ∧
    commitOffset w + 16 ≤ 256 := by
  unfold crcOffset commitOffset kCrcOffset kCommitOffset
  split <;> decide

theorem sealed_fields {crcAt commitAt : Nat} (hl : commitAt + 16 ≤ bytes.length)
    (hc : crcAt + 4 = commitAt)
    (hm : (pos, src) ∈ [(crcAt, leBytes 4 (Crc32.calculate (bytes.take crcAt)).toNat),
      (commitAt, leBytes 4 kCommit.toNat), (commitAt + 4, leBytes 8 sequence.toNat),
      (commitAt + 12, leBytes 4 (~~~kCommit).toNat)]) (hn : src.length = n) :
    slice (sealed bytes crcAt commitAt sequence) pos n = src := by
  refine slice_writes_mem ?_ ?_ hm hn
  · simp only [extents, List.map_cons, List.map_nil, length_leBytes, List.mem_cons,
      List.not_mem_nil, or_false, forall_eq_or_imp, forall_eq]
    omega
  · simp only [extents, List.map_cons, List.map_nil, length_leBytes, List.pairwise_cons,
      List.mem_cons, List.not_mem_nil, or_false, forall_eq_or_imp, forall_eq, Apart,
      List.Pairwise.nil, false_implies, implies_true, and_true]
    omega

theorem slice_sealed_low {crcAt commitAt : Nat} (hl : commitAt + 16 ≤ bytes.length)
    (hc : crcAt + 4 = commitAt) (hp : pos + n ≤ crcAt ∨ commitAt + 16 ≤ pos) :
    slice (sealed bytes crcAt commitAt sequence) pos n = slice bytes pos n := by
  apply slice_writes_apart
  · simp only [List.mem_cons, List.not_mem_nil, or_false, forall_eq_or_imp, forall_eq,
      length_leBytes]
    omega
  · simp only [List.mem_cons, List.not_mem_nil, or_false, forall_eq_or_imp, forall_eq,
      length_leBytes, Apart]
    omega

theorem length_encode (s : Snapshot) (w : UInt32) : (encode s w).length = 256 := by
  have ho := offsets w
  rw [encode_eq_sealed, sealed, length_writes, length_encodeBody]
  simp only [List.mem_cons, List.not_mem_nil, or_false, forall_eq_or_imp, forall_eq,
    length_leBytes, length_encodeBody]
  omega

section encode

variable (s : Snapshot) (w : UInt32)
variable {p n pos : Nat}

theorem slice_encode_low (hp : p + n ≤ crcOffset w) :
    slice (encode s w) p n = slice (encodeBody s w) p n := by
  have ho := offsets w
  rw [encode_eq_sealed]
  exact slice_sealed_low (by rw [length_encodeBody]; omega) ho.1 (.inl hp)

theorem slice_encode_field {src : Bytes} (hm : (pos, src) ∈ s.fields w) (hn : src.length = n) :
    slice (encode s w) pos n = src := by
  have ho := offsets w
  have hf : pos + src.length ≤ 202 := fields_end hm
  rw [slice_encode_low s w (by omega), slice_encodeBody hm hn]

theorem read32_encode_field {v : UInt32} (hm : (pos, leBytes 4 v.toNat) ∈ s.fields w) :
    read32 (encode s w) pos = v :=
  read32_eq_of_slice (slice_encode_field s w hm (length_leBytes _ _))

theorem read64_encode_field {v : UInt64} (hm : (pos, leBytes 8 v.toNat) ∈ s.fields w) :
    read64 (encode s w) pos = v :=
  read64_eq_of_slice (slice_encode_field s w hm (length_leBytes _ _))

theorem encode_magic : read32 (encode s w) 0 = kMagic :=
  read32_encode_field s w (by simp [Snapshot.fields])

theorem encode_version : read32 (encode s w) 4 = formatVersion w :=
  read32_encode_field s w (by simp [Snapshot.fields])

theorem encode_sequence : read64 (encode s w) 8 = s.sequence :=
  read64_encode_field s w (by simp [Snapshot.fields])

theorem encode_counter : read64 (encode s w) 16 = s.counter :=
  read64_encode_field s w (by simp [Snapshot.fields])

theorem encode_crc : read32 (encode s w) (crcOffset w) =
    Crc32.calculate ((encode s w).take (crcOffset w)) := by
  have ho := offsets w
  have htake : (encode s w).take (crcOffset w) = (encodeBody s w).take (crcOffset w) := by
    simpa using slice_encode_low s w (p := 0) (n := crcOffset w) (by omega)
  rw [htake]
  refine read32_eq_of_slice ?_
  rw [encode_eq_sealed]
  exact sealed_fields (by rw [length_encodeBody]; omega) ho.1 (by simp) (length_leBytes _ _)

theorem encode_trailer : slice (encode s w) (commitOffset w) 16 = trailer s.sequence := by
  have ho := offsets w
  have hl : commitOffset w + 16 ≤ (encodeBody s w).length := by rw [length_encodeBody]; omega
  have h1 : slice (encode s w) (commitOffset w) 4 = leBytes 4 kCommit.toNat := by
    rw [encode_eq_sealed]
    exact sealed_fields hl ho.1 (by simp) (length_leBytes _ _)
  have h2 : slice (encode s w) (commitOffset w + 4) 8 = leBytes 8 s.sequence.toNat := by
    rw [encode_eq_sealed]
    exact sealed_fields hl ho.1 (by simp) (length_leBytes _ _)
  have h3 : slice (encode s w) (commitOffset w + 12) 4 = leBytes 4 (~~~kCommit).toNat := by
    rw [encode_eq_sealed]
    exact sealed_fields hl ho.1 (by simp) (length_leBytes _ _)
  rw [show (16 : Nat) = 4 + (8 + 4) from rfl, ← slice_append_slice, ← slice_append_slice, h1, h2,
    show commitOffset w + 4 + 8 = commitOffset w + 12 from rfl, h3]
  rfl

theorem encode_rest (hp : commitOffset w + 16 ≤ p) (hn : p + n ≤ 256) :
    slice (encode s w) p n = List.replicate n 0 := by
  have ho := offsets w
  rw [encode_eq_sealed, slice_sealed_low (by rw [length_encodeBody]; omega) ho.1 (.inr hp)]
  exact slice_encodeBody_gap s w (by omega) hn

end encode

/-! ## What `decode` accepts -/

/-- The checksum's place in an accepted record of version `v`. -/
def crcAt (v : UInt32) : Nat := if v = 2 then 220 else 236

/-- The trailer's place in an accepted record of version `v`. -/
def commitAt (v : UInt32) : Nat := if v = 2 then 224 else 240

/-- An accepted record passes every check of `decode` on its own bytes. -/
structure Accepted (r : Bytes) (s : Snapshot) : Prop where
  magic : read32 r 0 = kMagic
  version : read32 r 4 = 1 ∨ read32 r 4 = 2
  commit : read32 r (commitAt (read32 r 4)) = kCommit
  commitNot : read32 r (commitAt (read32 r 4) + 12) = ~~~kCommit
  repeated : read64 r (commitAt (read32 r 4) + 4) = read64 r 8
  crc : read32 r (crcAt (read32 r 4)) = Crc32.calculate (r.take (crcAt (read32 r 4)))
  zeros : read32 r 4 = 2 → (r.drop 240).all (· == 0) = true
  sequence : s.sequence = read64 r 8
  sequence_ne : s.sequence ≠ 0
  counter : s.counter = read64 r 16
  imageA : decodeImage r s.counter 24 = some s.images.a
  imageB : decodeImage r s.counter 120 = some s.images.b

theorem decode_eq_some : decode r = some s ↔ Accepted r s := by
  simp only [decode, Option.ite_none_left_eq_some, not_or, not_and, Decidable.not_not,
    kCommitOffset, kCrcOffset, ne_eq]
  constructor
  · rintro ⟨⟨hm, hv, hc, hn, hr, hcrc⟩, hz, hseq, h⟩
    split at h
    · next a b ha hb =>
      obtain rfl := Option.some.inj h
      have hv' : read32 r 4 = 1 ∨ read32 r 4 = 2 := by
        by_cases h1 : read32 r 4 = 1
        · exact .inl h1
        · exact .inr (hv h1)
      exact
        { magic := hm, version := hv', commit := hc, commitNot := hn, repeated := hr,
          crc := hcrc, zeros := hz, sequence := rfl, sequence_ne := hseq, counter := rfl,
          imageA := ha, imageB := hb }
    · cases h
  · intro h
    have hv : read32 r 4 ≠ 1 → read32 r 4 = 2 := fun h1 => h.version.resolve_left h1
    have hseq := h.sequence_ne
    have ha := h.imageA
    have hb := h.imageB
    rw [h.counter] at ha hb
    rw [h.sequence] at hseq
    refine ⟨⟨h.magic, hv, h.commit, h.commitNot, h.repeated, h.crc⟩, h.zeros, hseq, ?_⟩
    rw [ha, hb]
    cases s
    simp only [Option.some.injEq, Snapshot.mk.injEq]
    exact ⟨h.sequence.symm, h.counter.symm, trivial⟩

theorem Accepted.trailer_eq (h : Accepted r s) (hl : r.length = 256) :
    slice r (commitAt (read32 r 4)) 16 = trailer s.sequence := by
  have hle : commitAt (read32 r 4) + 16 ≤ 256 := by
    rcases h.version with hv | hv <;> rw [hv] <;> decide
  have h1 := slice_of_read32 (by omega) h.commit
  have h2 := slice_of_read64 (by omega) (h.repeated.trans h.sequence.symm)
  have h3 := slice_of_read32 (by omega) h.commitNot
  rw [show (16 : Nat) = 4 + (8 + 4) from rfl, ← slice_append_slice, ← slice_append_slice, h1, h2,
    Nat.add_assoc, h3]
  rfl

theorem Accepted.rest_eq (h : Accepted r s) (hl : r.length = 256) (hv : read32 r 4 = 2) :
    slice r 240 16 = List.replicate 16 0 := by
  have hlen : (r.drop 240).length = 16 := by simp [hl]
  have : r.drop 240 = List.replicate 16 0 := by
    refine List.eq_replicate_iff.mpr ⟨hlen, ?_⟩
    intro b hb
    simpa using List.all_eq_true.mp (h.zeros hv) b hb
  rw [slice, this]
  rfl

/-- **The last unit of an accepted record** is the trailer of its own sequence, alone in version 1
and followed by zeros in version 2. -/
theorem decode_tail (hl : r.length = 256) (h : decode r = some s) :
    (read32 r 4 = 1 ∧ slice r 240 16 = trailer s.sequence) ∨
      (read32 r 4 = 2 ∧ slice r 224 32 = trailer s.sequence ++ List.replicate 16 0) := by
  have h := decode_eq_some.mp h
  have htrail := h.trailer_eq hl
  rcases h.version with hv | hv
  · rw [hv] at htrail
    exact .inl ⟨hv, htrail⟩
  · rw [hv] at htrail
    have htrail' : slice r 224 16 = trailer s.sequence := htrail
    refine .inr ⟨hv, ?_⟩
    rw [show (32 : Nat) = 16 + 16 from rfl, ← slice_append_slice, htrail']
    exact congrArg _ (h.rest_eq hl hv)

theorem decodeImage_installation (h : decodeImage r counter pos = some image) :
    image.installation ≤ counter := by
  unfold decodeImage at h
  simp only at h
  split at h
  · cases h
  · split at h
    · cases h
    · next hle =>
      obtain rfl := Option.some.inj h
      exact UInt64.not_lt.mp hle

/-! ## The round trip -/

/-- An image as it is stored: its commit name is terminated. -/
def Image.stored (image : Image) : Image :=
  { image with version := { image.version with commit := image.version.commit.set 40 0 Version.commit_last } }

def Snapshot.stored (s : Snapshot) : Snapshot :=
  { s with images := ⟨s.images.a.stored, s.images.b.stored⟩ }

theorem Image.stored_stored (image : Image) : image.stored.stored = image.stored := by
  simp only [stored, Vector.set_set]

theorem Snapshot.image_stored (h : s.stored = s) (i : Nat) :
    (s.images.get i).stored = s.images.get i := by
  have heq := congrArg Snapshot.images h
  unfold Pair.get
  split
  · exact congrArg Pair.a heq
  · exact congrArg Pair.b heq

/-- A record keeps a snapshot whose sequence is not zero and whose installations are counted. -/
structure Snapshot.Storable (s : Snapshot) : Prop where
  sequence_ne : s.sequence ≠ 0
  countedA : s.images.a.installation ≤ s.counter
  countedB : s.images.b.installation ≤ s.counter

theorem Image.stored_of_terminated (h : image.version.commit[40]? = some 0) : image.stored = image := by
  have : image.version.commit.set 40 0 = image.version.commit := by
    apply Vector.ext
    intro i hi
    rw [Vector.getElem_set]
    split
    · next heq =>
      subst heq
      exact (Option.some.inj ((Vector.getElem?_eq_getElem hi).symm.trans h)).symm
    · rfl
  rw [Image.stored, this]

theorem decodeImage_encode (hf : ∀ f ∈ image.fields pos, f ∈ s.fields w)
    (hi : image.installation ≤ s.counter) :
    decodeImage (encode s w) s.counter pos = some image.stored := by
  have hcommit : slice (encode s w) (pos + 40) 41 = image.version.commit.toList :=
    slice_encode_field s w (hf _ (by simp [Image.fields])) (by simp)
  have hdirty : slice (encode s w) (pos + 81) 1 = [boolByte image.version.dirty] :=
    slice_encode_field s w (hf _ (by simp [Image.fields])) rfl
  have hname : (Vector.ofFn fun i : Fin 41 =>
      if i.val = 40 then 0 else (encode s w).getD (pos + 40 + i.val) 0) =
      image.version.commit.set 40 0 := by
    apply Vector.ext
    intro i hi
    rw [Vector.getElem_ofFn, Vector.getElem_set]
    split
    · next h => rw [if_pos h.symm]
    · next h =>
      rw [if_neg (Ne.symm h)]
      have := congrArg (fun l : Bytes => l[i]?) hcommit
      simp only [getElem?_slice, if_pos hi] at this
      rw [List.getD_eq_getElem?_getD, this, Vector.getElem?_toList,
        Vector.getElem?_eq_getElem hi]
      rfl
  have hflag : ((encode s w).getD (pos + 81) 0 != 0) = image.version.dirty := by
    have := congrArg (fun l : Bytes => l[0]?) hdirty
    simp only [getElem?_slice, Nat.add_zero] at this
    rw [List.getD_eq_getElem?_getD]
    rw [if_pos (by omega)] at this
    rw [this]
    cases image.version.dirty <;> rfl
  unfold decodeImage
  simp only
  rw [read64_encode_field s w (v := image.installation) (hf _ (by simp [Image.fields])),
    read32_encode_field s w (v := image.state.code) (hf _ (by simp [Image.fields])),
    ImageState.ofCode?_code]
  simp only
  rw [if_neg (UInt64.not_lt.mpr hi), hname, hflag,
    read32_encode_field s w (v := image.size) (hf _ (by simp [Image.fields])),
    read32_encode_field s w (v := image.crc) (hf _ (by simp [Image.fields])),
    read32_encode_field s w (v := image.product) (hf _ (by simp [Image.fields])),
    read32_encode_field s w (v := image.revision) (hf _ (by simp [Image.fields])),
    read32_encode_field s w (v := image.version.major) (hf _ (by simp [Image.fields])),
    read32_encode_field s w (v := image.version.minor) (hf _ (by simp [Image.fields])),
    read32_encode_field s w (v := image.version.build) (hf _ (by simp [Image.fields]))]
  rfl

theorem commitAt_formatVersion (w : UInt32) : commitAt (formatVersion w) = commitOffset w := by
  unfold commitAt formatVersion commitOffset kCommitOffset
  split <;> rfl

theorem crcAt_formatVersion (w : UInt32) : crcAt (formatVersion w) = crcOffset w := by
  unfold crcAt formatVersion crcOffset kCrcOffset
  split <;> rfl

theorem trailer_fields {q : UInt64} (h : slice r pos 16 = trailer q) :
    read32 r pos = kCommit ∧ read64 r (pos + 4) = q ∧ read32 r (pos + 12) = ~~~kCommit := by
  have hsub : ∀ k n, k + n ≤ 16 → slice r (pos + k) n = slice (trailer q) k n := by
    intro k n hk
    rw [← h]
    apply List.ext_getElem?
    intro i
    simp only [getElem?_slice]
    split
    · rw [if_pos (by omega), Nat.add_assoc]
    · rfl
  refine ⟨read32_eq_of_slice ?_, read64_eq_of_slice ?_, read32_eq_of_slice ?_⟩
  · exact hsub 0 4 (by omega)
  · rw [hsub 4 8 (by omega)]
    simp [slice, trailer]
  · rw [hsub 12 4 (by omega)]
    rfl

/-- **The round trip**: a storable snapshot decodes from its record, in either version. -/
theorem decode_encode (h : s.Storable) (w : UInt32) : decode (encode s w) = some s.stored := by
  have hver := encode_version s w
  obtain ⟨h1, h2, h3⟩ := trailer_fields (encode_trailer s w)
  refine decode_eq_some.mpr ?_
  refine
    { magic := encode_magic s w, version := ?_, commit := ?_, commitNot := ?_, repeated := ?_,
      crc := ?_, zeros := ?_, sequence := (encode_sequence s w).symm, sequence_ne := h.sequence_ne,
      counter := (encode_counter s w).symm, imageA := ?_, imageB := ?_ }
  · rw [hver]
    unfold formatVersion
    split <;> simp
  · rw [hver, commitAt_formatVersion]; exact h1
  · rw [hver, commitAt_formatVersion]; exact h3
  · rw [hver, commitAt_formatVersion, encode_sequence]; exact h2
  · rw [hver, crcAt_formatVersion]; exact encode_crc s w
  · intro hv
    have hw : w = 32 := by
      rw [hver] at hv
      unfold formatVersion at hv
      split at hv
      · assumption
      · cases hv
    subst hw
    have hrest := encode_rest s 32 (p := 240) (n := 16) (by decide) (by decide)
    have hdrop : (encode s 32).drop 240 = List.replicate 16 0 := by
      rw [← hrest, slice, List.take_of_length_le]
      simp [length_encode]
    rw [hdrop]
    rfl
  · exact decodeImage_encode (by simp only [Snapshot.fields]; grind) h.countedA
  · exact decodeImage_encode (by simp only [Snapshot.fields]; grind) h.countedB

theorem decodeImage_stored (h : decodeImage r counter pos = some image) : image.stored = image := by
  apply Image.stored_of_terminated
  unfold decodeImage at h
  simp only at h
  split at h
  · cases h
  · split at h
    · cases h
    · obtain rfl := Option.some.inj h
      rw [Vector.getElem?_eq_getElem Version.commit_last, Vector.getElem_ofFn]
      rfl

theorem decode_stored (h : decode r = some s) : s.stored = s := by
  have ha := decode_eq_some.mp h
  rw [Snapshot.stored, decodeImage_stored ha.imageA, decodeImage_stored ha.imageB]

theorem storable_of_decode {t : Snapshot} (h : decode (encode s w) = some t) : s.Storable := by
  have ha := decode_eq_some.mp h
  have hcounter : t.counter = s.counter := by rw [ha.counter, encode_counter]
  have hle : ∀ {image : Image} {pos : Nat}, decodeImage (encode s w) t.counter pos = some image →
      read64 (encode s w) pos ≤ s.counter := by
    intro image pos hi
    rw [← hcounter]
    unfold decodeImage at hi
    simp only at hi
    split at hi
    · cases hi
    · split at hi
      · cases hi
      · next hgt => exact UInt64.not_lt.mp hgt
  refine ⟨?_, ?_, ?_⟩
  · have := ha.sequence_ne
    rwa [ha.sequence, encode_sequence] at this
  · have := hle ha.imageA
    rwa [read64_encode_field s w (v := s.images.a.installation)
      (by simp [Snapshot.fields, Image.fields])] at this
  · have := hle ha.imageB
    rwa [read64_encode_field s w (v := s.images.b.installation)
      (by simp [Snapshot.fields, Image.fields])] at this

/-! ## Corruption -/

section corruption

variable {s : Snapshot} {w : UInt32} {i : Nat} {v : UInt8} {s' : Snapshot}

theorem encode_other_trailer {x : UInt32} (hx : x = 1 ∨ x = 2) (hne : x ≠ formatVersion w) :
    read32 (encode s w) (commitAt x) = 0 := by
  have hzero : slice (encode s w) (commitAt x) 4 = List.replicate 4 0 := by
    unfold formatVersion at hne
    split at hne
    · next hw =>
      subst hw
      obtain rfl := hx.resolve_right hne
      exact encode_rest s 32 (by decide) (by decide)
    · next hw =>
      obtain rfl := hx.resolve_left hne
      have hc : crcOffset w = 236 := by simp [crcOffset, hw, kCrcOffset]
      rw [slice_encode_low s w (by rw [hc]; decide)]
      exact slice_encodeBody_gap s w (by decide) (by decide)
  rw [read32, hzero]
  rfl

theorem decode_set_version (h4 : 4 ≤ i) (h8 : i < 8) (hi : i < (encode s w).length)
    (hv : (encode s w)[i] ≠ v) : ¬Accepted ((encode s w).set i v) s' := by
  intro h
  have hlen := length_encode s w
  have hne : read32 ((encode s w).set i v) 4 ≠ formatVersion w := by
    rw [← encode_version s w]
    exact read32_ne (by simp [hlen]) (by simp [hlen]) (slice_set_mem h4 (by omega) hi hv)
  have hcommit := h.commit
  have hfar : 8 ≤ commitAt (read32 ((encode s w).set i v) 4) := by
    rcases h.version with e | e <;> rw [e] <;> decide
  rw [read32_congr (slice_set_ne (.inl (by omega))), encode_other_trailer h.version hne] at hcommit
  exact absurd hcommit (by decide)

/-- **No single changed byte goes unnoticed**: every byte is checksummed, repeated or fixed. -/
theorem decode_set_encode (hi : i < (encode s w).length) (hv : (encode s w)[i] ≠ v) :
    decode ((encode s w).set i v) = none := by
  refine Option.eq_none_iff_forall_not_mem.mpr fun s' h => ?_
  have h := decode_eq_some.mp h
  have ho := offsets w
  have hlen := length_encode s w
  by_cases hver : 4 ≤ i ∧ i < 8
  · exact decode_set_version hver.1 hver.2 hi hv h
  have hversion : read32 ((encode s w).set i v) 4 = formatVersion w := by
    rw [read32_congr (slice_set_ne (by omega)), encode_version]
  have hcrc := h.crc
  have htrail := h.trailer_eq (by simp [hlen])
  rw [hversion, commitAt_formatVersion] at htrail
  rw [hversion, crcAt_formatVersion, List.take_set] at hcrc
  rcases Nat.lt_or_ge i (crcOffset w) with h1 | h1
  · -- A byte under the checksum.
    rw [read32_congr (slice_set_ne (.inl h1)), encode_crc] at hcrc
    have hi' : i < ((encode s w).take (crcOffset w)).length := by simp; omega
    exact Crc32.calculate_set_ne hi' (by simpa using hv) hcrc.symm
  rcases Nat.lt_or_ge i (commitOffset w) with h2 | h2
  · -- A byte of the checksum.
    have htake : ((encode s w).take (crcOffset w)).set i v = (encode s w).take (crcOffset w) :=
      List.set_eq_of_length_le (by simp; omega)
    rw [htake, ← encode_crc] at hcrc
    exact read32_ne (by simp [hlen]; omega) (by omega) (slice_set_mem h1 (by omega) hi hv) hcrc
  rcases Nat.lt_or_ge i (commitOffset w + 16) with h3 | h3
  · -- A byte of the trailer, which repeats the header's sequence.
    have hseq : s'.sequence = s.sequence := by
      rw [h.sequence, read64_congr (slice_set_ne (.inr (by omega))), encode_sequence]
    rw [hseq, ← encode_trailer s w] at htrail
    exact slice_set_mem h2 h3 hi hv htrail
  · -- A byte past the trailer: only version 2 has any, and they are zero.
    have hw : w = 32 := by
      apply Classical.byContradiction
      intro hw
      simp only [commitOffset, hw, if_false, kCommitOffset] at h3
      omega
    subst hw
    have hrest := h.rest_eq (by simp [hlen]) hversion
    rw [← encode_rest s 32 (p := 240) (n := 16) (by decide) (by decide)] at hrest
    exact slice_set_mem (by simpa [commitOffset] using h3) (by omega) hi hv hrest

end corruption

/-! ## The last programming unit -/

section unit

variable {s t : Snapshot} {r : Bytes} {w : UInt32}

theorem commitOffset_unit (hw : w = 16 ∨ w = 32) :
    commitOffset w = 256 - w.toNat ∧ commitOffset w + 16 ≤ 256 := by
  rcases hw with rfl | rfl <;> decide

theorem encode_unit (hw : w = 16 ∨ w = 32) :
    (encode s w).drop (256 - w.toNat) = trailer s.sequence ++ List.replicate (w.toNat - 16) 0 := by
  have hlen := length_encode s w
  have hdrop : (encode s w).drop (256 - w.toNat) =
      slice (encode s w) (commitOffset w) (16 + (w.toNat - 16)) := by
    rw [slice, (commitOffset_unit hw).1, List.take_of_length_le]
    rw [List.length_drop, hlen]
    rcases hw with rfl | rfl <;> decide
  rw [hdrop, ← slice_append_slice, encode_trailer, encode_rest s w (Nat.le_refl _)]
  rcases hw with rfl | rfl <;> decide

/-- An accepted record ends in the unit `encode` writes for its snapshot. -/
theorem decode_unit (hw : w = 16 ∨ w = 32) (hl : r.length = 256) (h : decode r = some t)
    (hv : read32 r 4 = formatVersion w) :
    r.drop (256 - w.toNat) = (encode t w).drop (256 - w.toNat) := by
  rw [encode_unit hw]
  have hslice : ∀ n, n ≤ 256 → r.drop (256 - n) = slice r (256 - n) n := by
    intro n hn
    rw [slice, List.take_of_length_le]
    rw [List.length_drop, hl]
    omega
  rcases hw with rfl | rfl
  · rcases decode_tail hl h with ⟨-, htail⟩ | ⟨hv2, -⟩
    · exact (hslice 16 (by decide)).trans (htail.trans (List.append_nil _).symm)
    · exact absurd (hv2.symm.trans hv) (by decide)
  · rcases decode_tail hl h with ⟨hv1, -⟩ | ⟨-, htail⟩
    · exact absurd (hv1.symm.trans hv) (by decide)
    · exact (hslice 32 (by decide)).trans htail

/-- **A torn last unit is refused**: of the records that agree with an encoded one before its last
unit, only the encoded one is accepted. -/
theorem decode_torn_unit (hw : w = 16 ∨ w = 32) (hl : r.length = 256)
    (htake : r.take (256 - w.toNat) = (encode s w).take (256 - w.toNat))
    (hne : r.drop (256 - w.toNat) ≠ (encode s w).drop (256 - w.toNat)) : decode r = none := by
  refine Option.eq_none_iff_forall_not_mem.mpr fun t h => hne ?_
  have hin : 224 ≤ 256 - w.toNat := by rcases hw with rfl | rfl <;> decide
  have hlow : ∀ pos n, pos + n ≤ 224 → slice r pos n = slice (encode s w) pos n := by
    intro pos n hp
    rw [← slice_take (by omega : pos + n ≤ 256 - w.toNat), htake, slice_take (by omega)]
  have hv : read32 r 4 = formatVersion w := by
    rw [read32_congr (hlow 4 4 (by decide)), encode_version]
  have hseq : t.sequence = s.sequence := by
    rw [(decode_eq_some.mp h).sequence, read64_congr (hlow 8 8 (by decide)), encode_sequence]
  rw [decode_unit hw hl h hv, encode_unit hw, encode_unit hw, hseq]

end unit

end DaveOs.Boot
