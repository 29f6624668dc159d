import DaveOs.Otp.Device

/-!
# What the contents of a region hold

`holds` is the serial number a block stores, as an inspection finds it, and `newest` the last one of
the first blocks. A block whose commit word is virgin holds nothing; one whose claim and body are
written holds, whatever its commit word was left as, nothing or exactly the value it was written for
(`holds_committing`); lock words do not matter.
-/

namespace DaveOs.Otp

open Bytes Wire

variable {c c' : Contents} {base b : Nat}
variable {w : Word} {i : Nat} {a : Bool} {value : Bytes} {n : Nat}

/-- The slot of a block, as it is read. -/
def image (c : Contents) (base b : Nat) : Image :=
  (List.range 16).map fun i => (c (wordAt base b i)).map Subtype.val

/-- The block was never programmed, or left as if. -/
def Blank (c : Contents) (base b : Nat) : Prop := ∀ i, i < 16 → c (wordAt base b i) = some Word.ones

def holds (c : Contents) (base b : Nat) : Option Bytes :=
  let block := examine true b (image c base b)
  if classify block = .valid then some block.record.payload else none

/-- The newest serial number of the first blocks, with its block. -/
def newest (c : Contents) (base : Nat) : Nat → Option (Nat × Bytes)
  | 0 => none
  | n + 1 =>
    match holds c base n with
    | some value => some (n, value)
    | none => newest c base n

/-! ## Words -/

theorem erased_iff : erased w.val = true ↔ w = Word.ones := by
  obtain ⟨bytes, hlen⟩ := w
  constructor
  · intro h
    apply Subtype.ext
    refine List.eq_replicate_iff.2 ⟨hlen, fun x hx => ?_⟩
    simpa using List.all_eq_true.1 h x hx
  · rintro h
    rw [h]
    rfl

theorem getD_image (hi : i < 16) :
    (image c base b).getD i none = (c (wordAt base b i)).map Subtype.val := by
  rw [image, List.getD_eq_getElem?_getD, List.getElem?_map, List.getElem?_range hi]
  rfl

theorem word_image (hi : i < 16) (h : c (wordAt base b i) = some w) :
    (image c base b).word i = w.val := by
  rw [Image.word, getD_image hi, h]
  rfl

theorem image_congr (h : ∀ i, i < 16 → c (wordAt base b i) = c' (wordAt base b i)) :
    image c base b = image c' base b := by
  rw [image, image]
  refine List.map_congr_left fun i hi => ?_
  rw [h i (List.mem_range.1 hi)]

theorem all_erased_iff : (image c base b).all (fun w => w.any erased) = true ↔ Blank c base b := by
  rw [image, List.all_map, List.all_eq_true]
  constructor
  · intro h i hi
    have := h i (List.mem_range.2 hi)
    rw [Function.comp_apply] at this
    cases hw : c (wordAt base b i) with
    | none => rw [hw] at this; cases this
    | some w =>
      rw [hw] at this
      rw [erased_iff.1 this]
  · intro h i hi
    rw [Function.comp_apply, h i (List.mem_range.1 hi)]
    rfl

theorem ones_tag : (read32 Word.ones.val 8).toNat = 0xffffffff := by decide

/-! ## Inspection -/

/-- An inspection of a block that was not attempted finds it unused exactly when it is blank. -/
theorem examine_unused : (examine false b (image c base b)).storage = .unused ↔ Blank c base b := by
  rw [← all_erased_iff]
  unfold examine
  dsimp only
  by_cases h : (image c base b).all (fun w => w.any erased) = true
  · rw [if_pos ⟨rfl, h⟩]
    exact iff_of_true rfl h
  · rw [if_neg (fun hc => h hc.2)]
    refine iff_of_false ?_ h
    (repeat' split) <;> exact Storage.noConfusion

theorem examine_blank (h : Blank c base b) :
    examine false b (image c base b) = { record := .blank } := by
  unfold examine
  dsimp only
  rw [if_pos ⟨rfl, all_erased_iff.2 h⟩]

theorem valid_blank : Record.blank.valid = false := by decide

theorem classify_ne_valid {block : Block} (h : block.record = .blank) :
    classify block ≠ .valid := by
  unfold classify
  rw [h, valid_blank]
  (repeat' split) <;> simp_all

theorem examine_uncommitted (h : c (wordAt base b 5) = some Word.ones) :
    (examine a b (image c base b)).record = .blank := by
  unfold examine
  dsimp only
  rw [word_image (by decide) h]
  split
  · rfl
  · split
    · rfl
    · rw [if_pos (.inr (.inl (by rw [ones_tag]; decide)))]

theorem holds_uncommitted (h : c (wordAt base b 5) = some Word.ones) : holds c base b = none :=
  if_neg (classify_ne_valid (examine_uncommitted h))

theorem holds_blank (h : Blank c base b) : holds c base b = none :=
  holds_uncommitted (h 5 (by decide))

theorem examine_attempted (h : a = true ∨ ¬ Blank c base b) :
    examine a b (image c base b) = examine true b (image c base b) := by
  rcases h with rfl | h
  · rfl
  · unfold examine
    dsimp only
    rw [if_neg (fun hc => h (all_erased_iff.1 hc.2)),
      if_neg (show ¬ ((!true) = true ∧ _) from fun hc => Bool.noConfusion hc.1)]

theorem holds_eq (a : Bool) : holds c base b =
    if classify (examine a b (image c base b)) = .valid then
      some (examine a b (image c base b)).record.payload else none := by
  by_cases h : a = true ∨ ¬ Blank c base b
  · rw [examine_attempted h]
    rfl
  · have hblank : Blank c base b := by
      by_contra hn
      exact h (.inr hn)
    rw [holds_blank hblank, if_neg (classify_ne_valid (examine_uncommitted (hblank 5 (by decide))))]

/-- An inspection finds a block that was not attempted unused exactly when it is blank. -/
theorem classify_unused : classify (examine false b (image c base b)) = .unused ↔
    Blank c base b := by
  constructor
  · intro h
    rw [← examine_unused]
    unfold classify at h
    split at h
    · cases h
    · split at h
      · next hu => exact hu.1
      · (repeat' split at h) <;> cases h
  · intro h
    rw [examine_blank h]
    rfl

/-! ## A record being written -/

/-- The body of a serial record, without its type. -/
def serialBody (value : Bytes) : Bytes := splice (serialRecord value).bytes 0 [0xff, 0xff]

def claimWord (b : Nat) : Bytes := marker kClaim (UInt32.ofNat b) 1 []

def commitWord (b : Nat) (value : Bytes) : Bytes :=
  marker kCommit (UInt32.ofNat b) (UInt32.ofNat serialNumber) (serialBody value)

/-- The claim and the body of a serial record are in place. -/
structure Written (c : Contents) (base b : Nat) (value : Bytes) : Prop where
  claim : (c (wordAt base b 0)).map Subtype.val = some (claimWord b)
  body : ∀ k, k < 4 → (c (wordAt base b (k + 1))).map Subtype.val =
    some (slice (serialBody value) (k * 16) 16)

@[simp] theorem length_marker (kind block tag : UInt32) (body : Bytes) :
    (marker kind block tag body).length = 16 := by
  simp [marker, write32, splice]

theorem serialRecord_retyped (h : validSerial value = true) :
    serialRecord value = retyped 1 0 value := serialRecord_eq h

theorem length_retyped (h : validSerial value = true) (t0 t1 : UInt8) :
    (retyped t0 t1 value).bytes.length = kRecordSize := by
  have hlen := length_padded (validSerial_iff.1 h).2.1
  simp [retyped, assembled, hlen, kPayloadSize, kRecordSize]

theorem splice_serialBody (h : validSerial value = true) (t0 t1 : UInt8) :
    (⟨splice (serialBody value) 0 [t0, t1]⟩ : Record) = retyped t0 t1 value := by
  rw [serialBody, serialRecord_retyped h]
  rfl

theorem length_serialBody (h : validSerial value = true) :
    (serialBody value).length = kRecordSize := by
  have hlen := length_retyped h 1 0
  rw [serialBody, serialRecord_retyped h, length_splice (by rw [hlen]; decide), hlen]

theorem Written.image_word (h : Written c base b value) :
    (image c base b).word 0 = claimWord b := by
  rw [Image.word, getD_image (by decide), h.claim]
  rfl

theorem image_body_eq {body : Bytes} (hlen : body.length = kRecordSize)
    (h : ∀ k, k < 4 → (c (wordAt base b (k + 1))).map Subtype.val = some (slice body (k * 16) 16)) :
    (image c base b).body = body := by
  have hword : ∀ k, k < 4 → (image c base b).word (k + 1) = slice body (k * 16) 16 := by
    intro k hk
    rw [Image.word, getD_image (by omega), h k hk]
    rfl
  have hw0 := hword 0 (by decide)
  have hw1 := hword 1 (by decide)
  have hw2 := hword 2 (by decide)
  have hw3 := hword 3 (by decide)
  simp only [Nat.zero_add, Nat.reduceAdd, Nat.zero_mul, Nat.one_mul, Nat.reduceMul] at hw0 hw1 hw2 hw3
  rw [Image.body, hw0, hw1, hw2, hw3, slice_append_slice, slice_append_slice, slice_append_slice,
    slice_zero, List.take_of_length_le (by rw [hlen]; decide)]

theorem Written.image_body (h : Written c base b value) (hv : validSerial value = true) :
    (image c base b).body = serialBody value :=
  image_body_eq (length_serialBody hv) h.body

theorem classify_retyped (hv : validSerial value = true) {t0 t1 : UInt8} {l : Bool} :
    classify { record := retyped t0 t1 value, storage := .consumed, locked := l } =
      if t0 = 1 ∧ t1 = 0 then .valid else .invalid := by
  unfold classify
  dsimp only
  rw [if_neg Storage.noConfusion, if_neg (fun h => Storage.noConfusion h.1)]
  by_cases h : t0 = 1 ∧ t1 = 0
  · have hvalid : (retyped t0 t1 value).valid = true := (valid_retyped hv).2 h
    rw [if_neg (by simp [hvalid]), if_pos h, payload_retyped hv]
    obtain ⟨rfl, rfl⟩ := h
    rw [if_neg (by exact fun hn => hn rfl), if_pos hv]
  · have hvalid : (retyped t0 t1 value).valid = false := by
      rw [← Bool.not_eq_true, valid_retyped hv]
      exact h
    rw [if_pos (by simp [hvalid]), if_neg h]

theorem holds_committing (h : Written c base b value) (hv : validSerial value = true) :
    holds c base b = none ∨ holds c base b = some value := by
  rw [holds]
  unfold examine
  dsimp only
  rw [if_neg (show ¬ ((!true) = true ∧ _) from fun hc => Bool.noConfusion hc.1), h.image_body hv]
  split
  · exact .inl (if_neg (classify_ne_valid rfl))
  · split
    · exact .inl (if_neg (classify_ne_valid rfl))
    · rw [splice_serialBody hv, classify_retyped hv]
      split
      · exact .inr (by rw [if_pos rfl, payload_retyped hv])
      · exact .inl (if_neg Kind.noConfusion)

theorem read32_marker_fields (kind block tag : UInt32) (body : Bytes) :
    read32 (marker kind block tag body) 0 = kind ∧ read32 (marker kind block tag body) 4 = block ∧
      read32 (marker kind block tag body) 8 = tag := by
  have hlen : ∀ (d : Bytes) (pos : Nat) (v : UInt32), d.length = 16 → pos + 4 ≤ 16 →
      (write32 d pos v).length = 16 := by
    intro d pos v hd hpos
    rw [write32, length_splice (by simp [hd]; omega), hd]
  have hself : ∀ (d : Bytes) (pos : Nat) (v : UInt32), d.length = 16 → pos + 4 ≤ 16 →
      read32 (write32 d pos v) pos = v := by
    intro d pos v hd hpos
    rw [read32, write32, slice_splice_self (length_leBytes 4 _) (by rw [hd]; exact hpos),
      ofNat_leNat_leBytes32]
  have hbefore : ∀ (d : Bytes) (pos p : Nat) (v : UInt32), d.length = 16 → pos + 4 ≤ 16 →
      p + 4 ≤ pos → read32 (write32 d pos v) p = read32 d p := by
    intro d pos p v hd hpos hp
    rw [read32, write32, slice_splice_before (by rw [length_leBytes, hd]; exact hpos) hp]
    rfl
  have h₁ := hlen (List.replicate 16 0) 0 kind rfl (by decide)
  have h₂ := hlen _ 4 block h₁ (by decide)
  have h₃ := hlen _ 8 tag h₂ (by decide)
  unfold marker
  dsimp only
  refine ⟨?_, ?_, ?_⟩
  · rw [hbefore _ _ _ _ h₃ (by decide) (by decide), hbefore _ _ _ _ h₂ (by decide) (by decide),
      hbefore _ _ _ _ h₁ (by decide) (by decide), hself _ _ _ rfl (by decide)]
  · rw [hbefore _ _ _ _ h₃ (by decide) (by decide), hbefore _ _ _ _ h₂ (by decide) (by decide),
      hself _ _ _ h₁ (by decide)]
  · rw [hbefore _ _ _ _ h₃ (by decide) (by decide), hself _ _ _ h₂ (by decide)]

theorem read32_marker (kind block tag : UInt32) (body : Bytes) :
    read32 (marker kind block tag body) 8 = tag := (read32_marker_fields kind block tag body).2.2

theorem any_isNone_eq_false (h : ∀ i, i < 6 → c (wordAt base b i) ≠ none) :
    ((image c base b).take 6).any Option.isNone = false := by
  rw [List.any_eq_false]
  intro w hw
  rw [image, ← List.map_take, List.take_range] at hw
  obtain ⟨i, hi, rfl⟩ := List.mem_map.1 hw
  have := h i (by simpa using hi)
  simpa using this

theorem Written.committed (h : Written c base b value) (hv : validSerial value = true)
    (hc : (c (wordAt base b 5)).map Subtype.val = some (commitWord b value)) :
    holds c base b = some value ∧ ∀ a, (examine a b (image c base b)).record = serialRecord value ∧
      (examine a b (image c base b)).storage = .consumed := by
  have hcommit : (image c base b).word 5 = commitWord b value := by
    rw [Image.word, getD_image (by decide), hc]
    rfl
  have htag : read32 (commitWord b value) 8 = 1 := read32_marker _ _ _ _
  have hnone : ∀ i, i < 6 → c (wordAt base b i) ≠ none := by
    intro i hi hnone
    rcases Nat.eq_zero_or_pos i with rfl | hpos
    · have := h.claim
      rw [hnone] at this
      cases this
    · rcases Nat.lt_or_ge i 5 with hlt | hge
      · have := h.body (i - 1) (by omega)
        rw [Nat.sub_add_cancel hpos, hnone] at this
        cases this
      · obtain rfl : i = 5 := by omega
        rw [hnone] at hc
        cases hc
  have hblank : ¬ Blank c base b := by
    intro hb
    rw [hb 5 (by decide)] at hc
    have := congrArg (fun w => (read32 w 8).toNat) (Option.some.inj hc)
    rw [htag] at this
    revert this
    decide
  have hexamine : ∀ a, ∃ l, examine a b (image c base b) =
      { record := retyped 1 0 value, storage := .consumed, locked := l } := by
    intro a
    rw [examine_attempted (.inr hblank)]
    unfold examine
    dsimp only
    rw [if_neg (show ¬ ((!true) = true ∧ _) from fun hc => Bool.noConfusion hc.1),
      if_neg (by rw [any_isNone_eq_false hnone]; decide), hcommit, htag, h.image_word,
      h.image_body hv, if_neg (by simp [claimWord, commitWord, serialNumber]), splice_serialBody hv]
    exact ⟨_, rfl⟩
  refine ⟨?_, fun a => ?_⟩
  · obtain ⟨l, hl⟩ := hexamine true
    have hkind : classify { record := retyped 1 0 value, storage := .consumed, locked := l } =
        .valid := (classify_retyped hv).trans (if_pos ⟨rfl, rfl⟩)
    rw [holds, hl, if_pos hkind, payload_retyped hv]
  · obtain ⟨l, hl⟩ := hexamine a
    rw [hl, serialRecord_retyped hv]
    exact ⟨rfl, rfl⟩

/-! ## One changed word -/

theorem wordAt_inj {b' i' : Nat} (hi : i < 16) (hi' : i' < 16)
    (h : wordAt base b i = wordAt base b' i') : b = b' ∧ i = i' := by
  unfold wordAt kSlotSize at h
  omega

theorem holds_congr (h : ∀ i, i < 6 → c (wordAt base b i) = c' (wordAt base b i)) :
    holds c base b = holds c' base b := by
  have hword : ∀ i, i < 6 → (image c base b).word i = (image c' base b).word i := by
    intro i hi
    rw [Image.word, Image.word, getD_image (by omega), getD_image (by omega), h i hi]
  have hbody : (image c base b).body = (image c' base b).body := by
    rw [Image.body, Image.body, hword 1 (by decide), hword 2 (by decide), hword 3 (by decide),
      hword 4 (by decide)]
  have htake : (image c base b).take 6 = (image c' base b).take 6 := by
    rw [image, image, ← List.map_take, ← List.map_take, List.take_range]
    refine List.map_congr_left fun i hi => ?_
    rw [h i (by simpa using hi)]
  have hlocked : ∀ (r : Record) (l l' : Bool),
      classify { record := r, storage := .consumed, locked := l } =
        classify { record := r, storage := .consumed, locked := l' } := by
    intro r l l'
    unfold classify
    dsimp only
    rw [if_neg (show ¬ (Storage.consumed = .unused ∧ _) from fun h => Storage.noConfusion h.1),
      if_neg (show ¬ (Storage.consumed = .unused ∧ _) from fun h => Storage.noConfusion h.1)]
  rw [holds, holds]
  unfold examine
  dsimp only
  rw [if_neg (show ¬ ((!true) = true ∧ _) from fun hc => Bool.noConfusion hc.1),
    if_neg (show ¬ ((!true) = true ∧ _) from fun hc => Bool.noConfusion hc.1), htake,
    hword 0 (by decide), hword 5 (by decide), hbody]
  split
  · rfl
  · split
    · rfl
    · rw [hlocked]

theorem newest_congr (h : ∀ b, b < n → holds c base b = holds c' base b) :
    newest c base n = newest c' base n := by
  induction n with
  | zero => rfl
  | succ n ih =>
    rw [newest, newest, h n (Nat.lt_succ_self n), ih fun b hb => h b (by omega)]

theorem newest_of_none {m : Nat} (hmn : m ≤ n) (h : ∀ b, m ≤ b → b < n → holds c base b = none) :
    newest c base n = newest c base m := by
  induction n with
  | zero => rw [Nat.le_zero.1 hmn]
  | succ n ih =>
    rcases Nat.lt_or_ge n m with hlt | hge
    · rw [show m = n + 1 by omega]
    · rw [newest, h n hge (Nat.lt_succ_self n)]
      exact ih hge fun b hb hlt => h b hb (by omega)

end DaveOs.Otp
