import DaveOs.Otp.FlashSpec

/-!
# One encoding for every record

A record that is accepted as a serial number is the one `serial_record` builds (`canonical`), so rows
and serial numbers correspond one to one. On a flash that is `Faithful`, though its programs may fail,
a record that was programmed is read back as it was (`examine_committed`); and since every marker names
its block, the same words are no record in another block (`examine_moved`).
-/

namespace DaveOs.Otp

open Bytes Wire Crash

/-! ## Serial records -/

theorem pair_of_leNat {a b : UInt8} {n : Nat} (h : leNat [a, b] = n) (hn : n < 256) :
    a = UInt8.ofNat n ∧ b = 0 := by
  have hsum : a.toNat + 256 * b.toNat = n := by simpa [leNat] using h
  have hb : b.toNat = 0 := by omega
  refine ⟨?_, UInt8.toNat_inj.1 hb⟩
  rw [← hsum, hb, Nat.mul_zero, Nat.add_zero, UInt8.ofNat_toNat]

theorem exists_assembled {r : Record} (h : r.bytes.length = kRecordSize) :
    ∃ t0 t1 s0 s1 crc payload, r = assembled t0 t1 s0 s1 crc payload ∧ crc.length = 4 ∧
      payload.length = kPayloadSize := by
  obtain ⟨bytes⟩ := r
  obtain ⟨t0, bytes, rfl⟩ := List.exists_cons_of_length_eq_add_one h
  obtain ⟨t1, bytes, rfl⟩ := List.exists_cons_of_length_eq_add_one (Nat.succ.inj h)
  obtain ⟨s0, bytes, rfl⟩ := List.exists_cons_of_length_eq_add_one (Nat.succ.inj (Nat.succ.inj h))
  obtain ⟨s1, bytes, rfl⟩ :=
    List.exists_cons_of_length_eq_add_one (Nat.succ.inj (Nat.succ.inj (Nat.succ.inj h)))
  have hlen : bytes.length = 60 := by simpa [kRecordSize] using h
  refine ⟨t0, t1, s0, s1, bytes.take 4, bytes.drop 4, ?_, ?_, ?_⟩
  · simp [assembled]
  · simp [hlen]
  · simp [hlen, kPayloadSize]

/-- A block content that is classified as a serial number is the record of that serial number. -/
theorem canonical {block : Block} (hlen : block.record.bytes.length = kRecordSize)
    (h : classify block = .valid) :
    validSerial block.record.payload = true ∧ block.record = serialRecord block.record.payload := by
  obtain ⟨r, storage, locked⟩ := block
  obtain ⟨t0, t1, s0, s1, crc, tail, rfl, hcrc, htail⟩ := exists_assembled hlen
  have hk : kPayloadSize = 56 := rfl
  -- what the classification checked
  have hchecks : (assembled t0 t1 s0 s1 crc tail).valid = true ∧
      (assembled t0 t1 s0 s1 crc tail).type = serialNumber ∧
      validSerial (assembled t0 t1 s0 s1 crc tail).payload = true := by
    unfold classify at h
    repeat' split at h
    all_goals first | (cases h; done) | skip
    next hvalid htype hserial => exact ⟨by simpa using hvalid, by simpa using htype, hserial⟩
  obtain ⟨hvalid, htype, hserial⟩ := hchecks
  refine ⟨hserial, ?_⟩
  dsimp only at hserial ⊢
  obtain ⟨rfl, rfl⟩ : t0 = 1 ∧ t1 = 0 := pair_of_leNat htype (by decide)
  unfold Record.valid at hvalid
  split at hvalid
  · cases hvalid
  next hfields =>
  have hsize : (assembled 1 0 s0 s1 crc tail).size ≤ kPayloadSize := Nat.not_lt.1 (not_or.1 hfields).2
  obtain ⟨hsum, hpad⟩ := of_decide_eq_true hvalid
  -- the payload is the front of the tail, and ones follow it
  have hdrop : (assembled 1 0 s0 s1 crc tail).bytes.drop 8 = tail := List.drop_left' (by simp [hcrc])
  have hpayload : (assembled 1 0 s0 s1 crc tail).payload =
      tail.take (assembled 1 0 s0 s1 crc tail).size := by
    rw [Record.payload, if_neg (by omega), slice, hdrop]
  rw [← List.drop_drop, hdrop] at hpad
  rw [read32_assembled hcrc, checksum_assembled hcrc] at hsum
  rw [hpayload] at hserial ⊢
  generalize hn : (assembled 1 0 s0 s1 crc tail).size = n at hsize hserial hpad
  obtain ⟨rfl, rfl⟩ : s0 = UInt8.ofNat n ∧ s1 = 0 := pair_of_leNat hn (by omega)
  have hvlen : (tail.take n).length = n := by
    rw [List.length_take]
    omega
  have htail' : tail = padded (tail.take n) := by
    rw [padded, hvlen]
    have : tail.drop n = List.replicate (kPayloadSize - n) 0xff := by
      refine List.eq_replicate_iff.2 ⟨by rw [List.length_drop, htail], fun x hx => ?_⟩
      simpa using List.all_eq_true.1 hpad x hx
    rw [← this, List.take_append_drop]
  have hcrc' : crc = leBytes 4 (serialCrc (tail.take n)).toNat := by
    rw [serialCrc, hvlen, ← htail', ← hsum]
    refine leNat_inj (by rw [hcrc, length_leBytes]) ?_
    have hlt := leNat_lt crc
    rw [hcrc] at hlt
    rw [UInt32.toNat_ofNat_of_lt' hlt, leNat_leBytes hlt]
  rw [serialRecord_eq hserial, hvlen, ← htail', ← hcrc']

/-! ## Committed records -/

variable {c : Contents} {base b : Nat} {record : Record}

/-- The body of a record as it is programmed: the type is left to the commit. -/
def masked (record : Record) : Bytes := splice record.bytes 0 [0xff, 0xff]

/-- Block `b` holds the words of `record` and nothing else. -/
structure Committed (c : Contents) (base b : Nat) (record : Record) : Prop where
  claim : (c (wordAt base b 0)).map Subtype.val = some (claimWord b)
  body : ∀ k, k < 4 → (c (wordAt base b (k + 1))).map Subtype.val =
    some (slice (masked record) (k * 16) 16)
  commit : (c (wordAt base b 5)).map Subtype.val =
    some (marker kCommit (UInt32.ofNat b) (UInt32.ofNat record.type) (masked record))
  virgin : ∀ i, 6 ≤ i → i < 16 → c (wordAt base b i) = some Word.ones

theorem length_masked (h : record.bytes.length = kRecordSize) :
    (masked record).length = kRecordSize := by
  rw [masked, length_splice (by rw [h]; decide), h]

theorem type_lt (record : Record) : record.type < 0x10000 := by
  have hlt := leNat_lt (slice record.bytes 0 2)
  have hlen : (slice record.bytes 0 2).length ≤ 2 := List.length_take_le ..
  have hpow : 256 ^ (slice record.bytes 0 2).length ≤ 256 ^ 2 := Nat.pow_le_pow_right (by decide) hlen
  exact Nat.lt_of_lt_of_le hlt hpow

theorem splice_masked (h : record.bytes.length = kRecordSize) :
    splice (masked record) 0 [UInt8.ofNat record.type, UInt8.ofNat (record.type / 256)] =
      record.bytes := by
  obtain ⟨t0, t1, s0, s1, crc, payload, rfl, -, -⟩ := exists_assembled h
  have h0 := t0.toNat_lt
  have h1 := t1.toNat_lt
  have htype : (assembled t0 t1 s0 s1 crc payload).type = t0.toNat + 256 * t1.toNat := by
    rw [type_assembled]
    simp [leNat]
  have hlow : UInt8.ofNat (t0.toNat + 256 * t1.toNat) = t0 := by
    apply UInt8.toNat_inj.1
    rw [UInt8.toNat_ofNat']
    omega
  have hhigh : UInt8.ofNat ((t0.toNat + 256 * t1.toNat) / 256) = t1 := by
    apply UInt8.toNat_inj.1
    rw [UInt8.toNat_ofNat']
    omega
  rw [htype, hlow, hhigh]
  simp [masked, assembled, splice]

theorem Committed.ne_none (h : Committed c base b record) {i : Nat} (hi : i < 6) :
    c (wordAt base b i) ≠ none := by
  intro hnone
  rcases Nat.eq_zero_or_pos i with rfl | hpos
  · have := h.claim
    rw [hnone] at this
    cases this
  · rcases Nat.lt_or_ge i 5 with hlt | hge
    · have := h.body (i - 1) (by omega)
      rw [Nat.sub_add_cancel hpos, hnone] at this
      cases this
    · obtain rfl : i = 5 := by omega
      have := h.commit
      rw [hnone] at this
      cases this

theorem Committed.claim_word (h : Committed c base b record) :
    (image c base b).word 0 = claimWord b := by
  rw [Image.word, getD_image (by decide), h.claim]
  rfl

theorem Committed.not_blank (h : Committed c base b record) : ¬ Blank c base b := by
  intro hb
  have hclaim := h.claim
  rw [hb 0 (by decide)] at hclaim
  have := congrArg (fun w => read32 w 0) (Option.some.inj hclaim)
  rw [show read32 (claimWord b) 0 = kClaim from (read32_marker_fields _ _ _ _).1] at this
  revert this
  decide

theorem Committed.unlocked (h : Committed c base b record) (tag : UInt32) :
    ((image c base b).drop 6).any (· == some (marker kLock (UInt32.ofNat b) tag [])) = false := by
  rw [List.any_eq_false]
  intro w hw
  rw [image, ← List.map_drop] at hw
  obtain ⟨i, hi, rfl⟩ := List.mem_map.1 hw
  obtain ⟨j, hj, rfl⟩ := List.getElem_of_mem hi
  rw [List.length_drop, List.length_range] at hj
  rw [List.getElem_drop, List.getElem_range, h.virgin _ (by omega) (by omega)]
  simp only [Option.map_some, beq_iff_eq, Option.some.injEq]
  intro heq
  have := congrArg (fun w => read32 w 0) heq
  rw [(read32_marker_fields _ _ _ _).1] at this
  revert this
  decide

theorem examine_committed (h : Committed c base b record)
    (hlen : record.bytes.length = kRecordSize) (htype : record.type ≠ unwritten) (a : Bool) :
    examine a b (image c base b) = { record := record, storage := .consumed } := by
  have hlt := type_lt record
  have hu : unwritten = 0xffff := rfl
  have hcommit : (image c base b).word 5 =
      marker kCommit (UInt32.ofNat b) (UInt32.ofNat record.type) (masked record) := by
    rw [Image.word, getD_image (by decide), h.commit]
    rfl
  have htag : (UInt32.ofNat record.type).toNat = record.type :=
    UInt32.toNat_ofNat_of_lt' (Nat.lt_trans hlt (by decide))
  rw [examine_attempted (.inr h.not_blank)]
  unfold examine
  dsimp only
  rw [if_neg (show ¬ ((!true) = true ∧ _) from fun hc => Bool.noConfusion hc.1),
    if_neg (by rw [any_isNone_eq_false fun i hi => h.ne_none hi]; decide), hcommit, read32_marker,
    h.claim_word, image_body_eq (length_masked hlen) h.body, htag,
    if_neg (by simp [claimWord]; omega), splice_masked hlen, h.unlocked]

theorem examine_moved {c' : Contents} {base' b' : Nat} (h : Committed c base b record)
    (hb : b < kBlockCount) (hb' : b' < kBlockCount) (hne : b' ≠ b)
    (hcopy : ∀ i, i < 16 → c' (wordAt base' b' i) = c (wordAt base b i)) (a : Bool) :
    examine a b' (image c' base' b') = { record := .blank, storage := .consumed } := by
  have hk : kBlockCount = 32 := rfl
  have himage : image c' base' b' = image c base b := by
    rw [image, image]
    exact List.map_congr_left fun i hi => by rw [hcopy i (List.mem_range.1 hi)]
  have hnot : ¬ (image c base b).all (fun w => w.any erased) = true :=
    fun hall => h.not_blank (all_erased_iff.1 hall)
  have hclaim : claimWord b ≠ marker kClaim (UInt32.ofNat b') 1 [] := by
    intro heq
    have hread := congrArg (fun w => read32 w 4) heq
    rw [claimWord, (read32_marker_fields _ _ _ _).2.1, (read32_marker_fields _ _ _ _).2.1] at hread
    have hnat := congrArg UInt32.toNat hread
    rw [UInt32.toNat_ofNat_of_lt' (show _ < 2 ^ 32 by omega),
      UInt32.toNat_ofNat_of_lt' (show _ < 2 ^ 32 by omega)] at hnat
    exact hne hnat.symm
  unfold examine
  dsimp only
  rw [himage, if_neg (fun hc => hnot hc.2),
    if_neg (by rw [any_isNone_eq_false fun i hi => h.ne_none hi]; decide), h.claim_word,
    if_pos (.inl hclaim)]

/-! ## A faithful flash -/

/-- What the state of a flash holds: its words and the program in progress. -/
structure Holding where
  contents : Contents
  pending : Option (Nat × Word) := none

/-- A flash that reads what it holds, and whose program of an erased word has put the word in place
when a poll reports ok. Programs may be refused or end in any error. -/
structure Faithful {σ : Type} (flash : Boot.Flash σ) (holding : σ → Holding) : Prop where
  read : ∀ pos s, Wp (flash.read pos 16) (fun _ => True) (fun r s' => holding s' = holding s ∧
    match (holding s).contents pos with
    | some word => r = (.ok, word.val)
    | none => r.1 = .ioError) s
  program : ∀ pos (word : Word) s, Wp (flash.program pos word.val) (fun _ => True)
    (fun status s' => status = .ok →
      holding s' = { contents := (holding s).contents, pending := some (pos, word) }) s
  poll : ∀ pos word s, (holding s).pending = some (pos, word) →
    (holding s).contents pos = some Word.ones →
    Wp flash.poll (fun _ => True) (fun status s' => (status = .busy → holding s' = holding s) ∧
      (status = .ok → holding s' =
        { contents := Function.update (holding s).contents pos (some word) })) s
  now : ∀ s, Wp flash.now (fun _ => True) (fun _ s' => holding s' = holding s) s

namespace Faithful

variable {σ : Type} {flash : Boot.Flash σ} {holding : σ → Holding} {s : σ} {f : FlashOtp}

theorem wp_loadWords (hflash : Faithful flash holding) (n : Nat) : ∀ {s : σ} {pos : Nat},
    Wp (FlashOtp.loadWords flash n pos) (fun _ => True) (fun r s' => holding s' = holding s ∧
      r = (.ok, (List.range n).map fun i =>
        ((holding s).contents (pos + i * 16)).map Subtype.val)) s := by
  induction n with
  | zero => exact Wp.pure ⟨rfl, rfl⟩
  | succ n ih =>
    intro s pos
    rw [FlashOtp.loadWords]
    refine (hflash.read pos s).bind ?_
    rintro r s₁ ⟨hsame, hr⟩
    have hword : ∃ w : Option Bytes, ((holding s).contents pos).map Subtype.val = w ∧
        ¬ (r.1 ≠ .ok ∧ r.1 ≠ .ioError) ∧ (if r.1 = .ok then some r.2 else none) = w := by
      cases hc : (holding s).contents pos with
      | none =>
        simp only [hc] at hr
        exact ⟨none, rfl, fun hn => hn.2 hr, by rw [hr]; rfl⟩
      | some word =>
        simp only [hc] at hr
        subst hr
        exact ⟨some word.val, rfl, by simp, rfl⟩
    obtain ⟨w, hw, hcont, hentry⟩ := hword
    dsimp only
    rw [if_neg hcont]
    refine ih.bind ?_
    rintro r₂ s₂ ⟨hsame₂, hr₂⟩
    refine Wp.pure ⟨hsame₂.trans hsame, ?_⟩
    rw [hr₂, hentry, ← hw, hsame, List.range_succ_eq_map]
    simp [Nat.add_assoc, Nat.add_comm, Nat.succ_mul]

/-- What an inspection answers on these contents. -/
def inspected (f : FlashOtp) (c : Contents) (b : Nat) : Status × Block :=
  if !f.initialized then (.notRunning, { record := .blank })
  else if f.timedOut then (.timeout, { record := .blank })
  else if b ≥ kBlockCount then (.invalidArgument, { record := .blank })
  else (.ok, examine (f.attempted b) b (image c f.base b))

theorem wp_inspect (hflash : Faithful flash holding) (b : Nat) :
    Wp (f.inspect flash b) (fun _ => True) (fun r s' => holding s' = holding s ∧
      r = inspected f (holding s).contents b) s := by
  unfold FlashOtp.inspect FlashOtp.load inspected
  by_cases hinit : (!f.initialized) = true
  · rw [if_pos hinit, if_pos hinit]
    exact (Wp.pure (Q := fun r s' => r = (Status.notRunning, []) ∧ s' = s) ⟨rfl, rfl⟩).bind
      fun r s' ⟨hr, hs⟩ => by subst hr hs; exact Wp.pure ⟨rfl, rfl⟩
  rw [if_neg hinit, if_neg hinit]
  by_cases htime : f.timedOut = true
  · rw [if_pos htime, if_pos htime]
    exact (Wp.pure (Q := fun r s' => r = (Status.timeout, []) ∧ s' = s) ⟨rfl, rfl⟩).bind
      fun r s' ⟨hr, hs⟩ => by subst hr hs; exact Wp.pure ⟨rfl, rfl⟩
  rw [if_neg htime, if_neg htime]
  by_cases hb : b ≥ kBlockCount
  · rw [if_pos hb, if_pos hb]
    exact (Wp.pure (Q := fun r s' => r = (Status.invalidArgument, []) ∧ s' = s) ⟨rfl, rfl⟩).bind
      fun r s' ⟨hr, hs⟩ => by subst hr hs; exact Wp.pure ⟨rfl, rfl⟩
  rw [if_neg hb, if_neg hb]
  refine (hflash.wp_loadWords 16).bind fun r s₁ ⟨hsame, hr⟩ => ?_
  subst hr
  exact Wp.pure ⟨hsame, rfl⟩

/-- A program is awaited; only when the last poll reports ok is the word in place. -/
theorem wp_await (hflash : Faithful flash holding) {start pos : Nat} {word : Word} (n : Nat) :
    ∀ {s : σ}, (holding s).pending = some (pos, word) →
    (holding s).contents pos = some Word.ones →
    Wp (FlashOtp.await flash start n) (fun _ => True) (fun r s' => r = some .ok → holding s' =
      { contents := Function.update (holding s).contents pos (some word) }) s := by
  induction n with
  | zero => exact fun _ _ => Wp.pure fun h => by cases h
  | succ n ih =>
    intro s hp hones
    rw [FlashOtp.await]
    refine (hflash.poll pos word s hp hones).bind ?_
    rintro status s₁ ⟨hbusy, hok⟩
    refine Wp.ite (fun _ => Wp.pure fun hr => hok (Option.some.inj hr)) fun hb => ?_
    have hsame := hbusy (by simpa using hb)
    refine (hflash.now s₁).bind fun now s₂ hnow => ?_
    refine Wp.ite (fun _ => Wp.pure fun h => by cases h) fun _ => ?_
    have hsame₂ : holding s₂ = holding s := hnow.trans hsame
    rw [← hsame₂]
    exact ih (by rw [hsame₂]; exact hp) (by rw [hsame₂]; exact hones)

/-- The driver after a write to block `b`. -/
def tried (f : FlashOtp) (b : Nat) : FlashOtp :=
  { f with attempted := Function.update f.attempted b true }

theorem wp_write (hflash : Faithful flash holding) {i : Nat} (word : Word)
    (hones : (holding s).contents (wordAt f.base b i) = some Word.ones) :
    Wp (f.write flash b (i * 16) word.val) (fun _ => True) (fun r s' => r.1.status = .ok →
      r.2 = tried f b ∧ (holding s').contents =
        Function.update (holding s).contents (wordAt f.base b i) (some word)) s := by
  unfold FlashOtp.write
  refine (hflash.program (wordAt f.base b i) word s).bind fun status s₁ hstart => ?_
  refine Wp.ite (fun hbad => Wp.pure fun hok => absurd hok hbad) fun hgood => ?_
  have hpending := hstart (by simpa using hgood)
  refine (hflash.now s₁).bind fun start s₂ hnow => ?_
  have hs₂ : holding s₂ = _ := hnow.trans hpending
  refine (hflash.wp_await kPollBudget (by rw [hs₂]) (by rw [hs₂]; exact hones)).bind
    fun r s₃ hr => ?_
  cases r with
  | none => exact Wp.pure nofun
  | some status =>
    refine Wp.pure fun hok => ⟨rfl, ?_⟩
    rw [hr (congrArg some hok), hs₂]

/-- The body loop over the words `ks` that are left. -/
theorem wp_writeBody (hflash : Faithful flash holding) {body : Bytes}
    (hbody : body.length = kRecordSize) (htried : f.attempted b = true) :
    ∀ (ks : List Nat) {s : σ}, ks.Nodup → (∀ k ∈ ks, k < 4) →
    (∀ k ∈ ks, (holding s).contents (wordAt f.base b (k + 1)) = some Word.ones) →
    Wp (FlashOtp.writeBody flash b (ks.map fun k => (k * 16, slice body (k * 16) 16)) f)
      (fun _ => True) (fun r s' => r.1 = .ok → r.2 = f ∧
        (∀ k ∈ ks, ((holding s').contents (wordAt f.base b (k + 1))).map Subtype.val =
          some (slice body (k * 16) 16)) ∧
        ∀ pos, (∀ k ∈ ks, pos ≠ wordAt f.base b (k + 1)) →
          (holding s').contents pos = (holding s).contents pos) s := by
  intro ks
  induction ks with
  | nil => exact fun _ _ _ => Wp.pure fun _ => ⟨rfl, nofun, fun _ _ => rfl⟩
  | cons k ks ih =>
    intro s hnodup hlt hones
    obtain ⟨hnotin, hnodup'⟩ := List.nodup_cons.1 hnodup
    have hk : k < 4 := hlt k List.mem_cons_self
    have hsize : kRecordSize = 64 := rfl
    have hlen : (slice body (k * 16) 16).length = 16 := length_slice (by omega)
    have hlt' : ∀ j ∈ ks, j < 4 := fun j hj => hlt j (List.mem_cons_of_mem k hj)
    -- the word of `k` is none of those still to come
    have happart : ∀ j ∈ ks, wordAt f.base b (k + 1) ≠ wordAt f.base b (j + 1) := by
      intro j hj heq
      have := hlt' j hj
      have hkj := (wordAt_inj (by omega) (by omega) heq).2
      exact hnotin (by rwa [show k = j by omega])
    rw [List.map_cons, FlashOtp.writeBody]
    refine Wp.ite (fun hblank => ?_) fun _ => ?_
    · have hword : (⟨slice body (k * 16) 16, hlen⟩ : Word) = Word.ones := erased_iff.1 hblank
      refine (ih hnodup' hlt' fun j hj => hones j (List.mem_cons_of_mem k hj)).conseq ?_
      intro r s' h hok
      obtain ⟨hr, hwords, hother⟩ := h hok
      refine ⟨hr, fun j hj => ?_, fun pos hpos => hother pos fun j hj =>
        hpos j (List.mem_cons_of_mem k hj)⟩
      rcases List.mem_cons.1 hj with rfl | hj
      · rw [hother _ happart, hones j List.mem_cons_self, ← hword]
        rfl
      · exact hwords j hj
    · rw [show kBodyOffset + k * 16 = (k + 1) * 16 by unfold kBodyOffset; omega]
      refine (hflash.wp_write ⟨slice body (k * 16) 16, hlen⟩ (hones k List.mem_cons_self)).bind ?_
      intro r s₁ hwrote
      refine Wp.ite (fun hbad => Wp.pure fun hok => absurd hok hbad) fun hgood => ?_
      obtain ⟨hr, hc⟩ := hwrote (by simpa using hgood)
      have hf' : r.2 = f := by
        rw [hr, tried, ← htried, Function.update_eq_self]
      rw [hf']
      refine (ih hnodup' hlt' fun j hj => ?_).conseq ?_
      · rw [hc, Function.update_of_ne (happart j hj).symm]
        exact hones j (List.mem_cons_of_mem k hj)
      · intro r' s' h hok
        obtain ⟨hr', hwords, hother⟩ := h hok
        refine ⟨hr', fun j hj => ?_, fun pos hpos => ?_⟩
        · rcases List.mem_cons.1 hj with rfl | hj
          · rw [hother _ happart, hc, Function.update_self]
            rfl
          · exact hwords j hj
        · rw [hother pos fun j hj => hpos j (List.mem_cons_of_mem k hj), hc,
            Function.update_of_ne (hpos k List.mem_cons_self)]

/-- A program that reports ok has committed the record and changed no other block. -/
theorem wp_program (hflash : Faithful flash holding) (hlen : record.bytes.length = kRecordSize)
    (hblank : Blank (holding s).contents f.base b) :
    Wp (f.program flash b record) (fun _ => True) (fun r s' => r.1.status = .ok →
      r.2 = tried f b ∧ b < kBlockCount ∧ f.initialized = true ∧ f.timedOut = false ∧
      Committed (holding s').contents f.base b record ∧
      ∀ pos, (∀ i, i < 16 → pos ≠ wordAt f.base b i) →
        (holding s').contents pos = (holding s).contents pos) s := by
  unfold FlashOtp.program
  refine (hflash.wp_inspect b).bind fun r s₀ ⟨hsame, hr⟩ => ?_
  refine Wp.ite (fun hbad => Wp.pure fun hok => absurd hok hbad) fun hgood => ?_
  -- an inspection that succeeded was of a block of a running driver
  have hrun : b < kBlockCount ∧ f.initialized = true ∧ f.timedOut = false := by
    rw [hr] at hgood
    unfold inspected at hgood
    (repeat' split at hgood) <;> simp_all
  refine Wp.ite (fun _ => Wp.pure nofun) fun _ => ?_
  rw [← hsame] at hblank ⊢
  have hwords : FlashOtp.bodyWords (masked record) =
      [0, 1, 2, 3].map fun k => (k * 16, slice (masked record) (k * 16) 16) := rfl
  unfold FlashOtp.commit
  rw [show (0 : Nat) = 0 * 16 from rfl]
  refine (hflash.wp_write ⟨claimWord b, length_marker ..⟩ (hblank 0 (by decide))).bind ?_
  intro r₁ s₁ hclaim
  refine Wp.ite (fun hbad => Wp.pure fun hok => absurd hok hbad) fun hgood₁ => ?_
  obtain ⟨hr₁, hc₁⟩ := hclaim (by simpa using hgood₁)
  have hne : ∀ i j, i < 16 → j < 16 → i ≠ j → wordAt f.base b i ≠ wordAt f.base b j :=
    fun i j hi hj hij heq => hij (wordAt_inj hi hj heq).2
  have hother₁ : ∀ i, i < 16 → i ≠ 0 →
      (holding s₁).contents (wordAt f.base b i) = some Word.ones := by
    intro i hi hi0
    rw [hc₁, Function.update_of_ne (hne i 0 hi (by decide) hi0)]
    exact hblank i hi
  dsimp only
  rw [hr₁, show splice record.bytes 0 [0xff, 0xff] = masked record from rfl, hwords]
  refine (hflash.wp_writeBody (f := tried f b) (length_masked hlen) (Function.update_self ..)
    [0, 1, 2, 3] (by decide) (by decide) fun k hk => hother₁ (k + 1) ?_ (by omega)).bind ?_
  · have : k < 4 := (show ∀ k ∈ [0, 1, 2, 3], k < 4 by decide) k hk
    omega
  intro r₂ s₂ hbody
  refine Wp.ite (fun hbad => Wp.pure fun hok => absurd hok hbad) fun hgood₂ => ?_
  obtain ⟨hr₂, hwords₂, hother₂⟩ := hbody (by simpa using hgood₂)
  have hkept₂ : ∀ i, i < 16 → (i = 0 ∨ 5 ≤ i) → (holding s₂).contents (wordAt f.base b i) =
      (holding s₁).contents (wordAt f.base b i) := by
    intro i hi hi'
    refine hother₂ _ fun k hk => hne i (k + 1) hi ?_ ?_
    all_goals
      have : k < 4 := (show ∀ k ∈ [0, 1, 2, 3], k < 4 by decide) k hk
      omega
  rw [hr₂, show kCommitOffset = 5 * 16 from rfl]
  have hcommit₂ : (holding s₂).contents (wordAt (tried f b).base b 5) = some Word.ones :=
    (hkept₂ 5 (by decide) (.inr (Nat.le_refl 5))).trans (hother₁ 5 (by decide) (by decide))
  refine (hflash.wp_write ⟨marker kCommit (UInt32.ofNat b) (UInt32.ofNat record.type) (masked record),
    length_marker ..⟩ hcommit₂).bind ?_
  intro r₃ s₃ hcommit
  refine Wp.pure fun hok => ?_
  obtain ⟨hr₃, hc₃⟩ := hcommit hok
  replace hc₃ : (holding s₃).contents = Function.update (holding s₂).contents (wordAt f.base b 5)
    (some ⟨marker kCommit (UInt32.ofNat b) (UInt32.ofNat record.type) (masked record),
      length_marker ..⟩) := hc₃
  have hkept₃ : ∀ i, i < 16 → i ≠ 5 → (holding s₃).contents (wordAt f.base b i) =
      (holding s₂).contents (wordAt f.base b i) := by
    intro i hi hi5
    rw [hc₃]
    exact Function.update_of_ne (hne i 5 hi (by decide) hi5) _ _
  refine ⟨?_, hrun.1, hrun.2.1, hrun.2.2, ⟨?_, fun k hk => ?_, ?_, fun i hi hi' => ?_⟩,
    fun pos hpos => ?_⟩
  · dsimp only
    rw [hr₃, tried, tried]
    dsimp only
    rw [Function.update_idem]
  · rw [hkept₃ 0 (by decide) (by decide), hkept₂ 0 (by decide) (.inl rfl), hc₁, Function.update_self]
    rfl
  · rw [hkept₃ (k + 1) (by omega) (by omega)]
    exact hwords₂ k (by simp; omega)
  · rw [hc₃, Function.update_self]
    rfl
  · rw [hkept₃ i hi' (by omega), hkept₂ i hi' (.inr (by omega)), hother₁ i hi' (by omega)]
  · rw [hc₃, Function.update_of_ne (hpos 5 (by decide)), hother₂ pos fun k hk => ?_, hc₁,
      Function.update_of_ne (hpos 0 (by decide))]
    refine hpos (k + 1) ?_
    have : k < 4 := (show ∀ k ∈ [0, 1, 2, 3], k < 4 by decide) k hk
    omega

end Faithful

/-- What the flash of `Device` holds. -/
def Device.holding (d : Device) : Holding :=
  { contents := d.contents, pending := d.pending.map fun p => (p.pos, p.word) }

theorem Device.faithful : Faithful Device.flash Device.holding where
  read pos d := by
    show Wp (Device.read pos 16) _ _ _
    unfold Device.read
    refine wp_call (fun _ => trivial) fun e rest _ => ?_
    rw [if_neg (by decide)]
    dsimp only [Device.holding]
    cases d.contents pos with
    | none | some word => exact ⟨rfl, rfl⟩
  program pos word d := by
    show Wp (Device.program pos word.val) _ _ _
    unfold Device.program
    refine wp_call (fun _ => trivial) fun e rest _ => ?_
    rw [dif_pos word.property]
    exact fun _ => rfl
  poll pos word d hp hones := by
    obtain ⟨p, hpending, hpw⟩ := Option.map_eq_some_iff.1 hp
    obtain ⟨rfl, rfl⟩ := Prod.mk.inj hpw
    show Wp Device.poll _ _ _
    unfold Device.poll
    refine wp_call (fun _ => trivial) fun e rest _ => ?_
    simp only [hpending]
    split
    · refine ⟨fun _ => ?_, nofun⟩
      rw [Device.holding, Device.holding, hpending]
      rfl
    · refine ⟨nofun, fun _ => ?_⟩
      have hones : d.contents p.pos = some Word.ones := hones
      rw [Device.holding, hones, if_pos rfl]
      rfl
  now d := by
    show Wp Device.now _ _ _
    unfold Device.now
    refine wp_call (fun _ => trivial) fun e rest _ => ?_
    rfl

/-- Serial numbers and the rows that are accepted for them correspond one to one, a record that was
programmed is read back as it was, other blocks read as before, and its words are no record anywhere
else. -/
theorem records_canonical :
    (∀ v, validSerial v = true → (serialRecord v).valid = true ∧ (serialRecord v).payload = v ∧
      ∀ l, classify { record := serialRecord v, storage := .consumed, locked := l } = .valid) ∧
    (∀ block : Block, block.record.bytes.length = kRecordSize → classify block = .valid →
      validSerial block.record.payload = true ∧
      block.record = serialRecord block.record.payload) ∧
    ∀ {σ : Type} (flash : Boot.Flash σ) (holding : σ → Holding), Faithful flash holding →
      ∀ (f f' : FlashOtp) (b : Nat) (r : Record) (s s' : σ) (result : ProgramResult),
      r.bytes.length = kRecordSize → r.type ≠ unwritten → Blank (holding s).contents f.base b →
      f.program flash b r s = (some (result, f'), s') → result.status = .ok →
      (∀ found s'', f'.inspect flash b s' = (some found, s'') →
        found = (.ok, { record := r, storage := .consumed })) ∧
      (∀ b', b' ≠ b → ∀ before after s₁ s₂, f.inspect flash b' s = (some before, s₁) →
        f'.inspect flash b' s' = (some after, s₂) → after = before) ∧
      (∀ (g : FlashOtp) (t : σ) b', b' ≠ b →
        (∀ i, i < 16 → (holding t).contents (wordAt g.base b' i) =
          (holding s').contents (wordAt f.base b i)) →
        ∀ found t', g.inspect flash b' t = (some found, t') → found.2.record = .blank) := by
  refine ⟨fun v hv => ?_, fun block => canonical, ?_⟩
  · rw [serialRecord_retyped hv]
    exact ⟨(valid_retyped hv).2 ⟨rfl, rfl⟩, payload_retyped hv, fun l =>
      (classify_retyped hv).trans (if_pos ⟨rfl, rfl⟩)⟩
  · intro σ flash holding hflash f f' b r s s' result hlen htype hblank hrun hok
    obtain ⟨rfl, hb, hinit, htime, hstored, hother⟩ :=
      (hflash.wp_program hlen hblank).of_some hrun hok
    refine ⟨fun found s'' hfound => ?_, fun b' hne before after s₁ s₂ hbefore hafter => ?_,
      fun g t b' hne hcopy found t' hfound => ?_⟩
    · rw [((hflash.wp_inspect b).of_some hfound).2, Faithful.inspected, Faithful.tried]
      dsimp only
      rw [if_neg (by simp [hinit]), if_neg (by simp [htime]), if_neg (Nat.not_le.2 hb),
        examine_committed hstored hlen htype]
    · rw [((hflash.wp_inspect b').of_some hbefore).2, ((hflash.wp_inspect b').of_some hafter).2]
      have himage : image (holding s').contents f.base b' = image (holding s).contents f.base b' :=
        image_congr fun i hi => hother _ fun j hj heq => hne (wordAt_inj hi hj heq).1
      unfold Faithful.inspected Faithful.tried
      dsimp only
      rw [Function.update_of_ne hne, himage]
    · rw [((hflash.wp_inspect b').of_some hfound).2]
      unfold Faithful.inspected
      repeat' split
      · rfl
      · rfl
      · rfl
      · next hb' => rw [examine_moved hstored hb (Nat.not_le.1 hb') hne hcopy]

/-- A running driver on an erased flash. -/
def runningOtp : FlashOtp := { base := 0, initialized := true }

def erasedDevice : Device := { contents := virgin, events := List.replicate 100 {} }

theorem records_canonical_read : ∃ f' d' d'', ∃ result : ProgramResult,
    runningOtp.program Device.flash 4 (serialRecord [0x41]) erasedDevice =
      (some (result, f'), d') ∧ result.status = .ok ∧
    f'.inspect Device.flash 4 d' =
      (some (.ok, { record := serialRecord [0x41], storage := .consumed }), d'') := by
  have hrun : (runningOtp.program Device.flash 4 (serialRecord [0x41]) erasedDevice).1.any (fun r =>
      r.1.status = .ok ∧ (r.2.inspect Device.flash 4
        (runningOtp.program Device.flash 4 (serialRecord [0x41]) erasedDevice).2).1.isSome = true) =
      true := by
    decide +kernel
  generalize hprogram : runningOtp.program Device.flash 4 (serialRecord [0x41]) erasedDevice = run
    at hrun
  obtain ⟨r, d'⟩ := run
  obtain ⟨⟨result, f'⟩, rfl, hr⟩ := (Option.any_eq_true _ _).1 hrun
  obtain ⟨hok, hsome⟩ := of_decide_eq_true hr
  obtain ⟨found, hfound⟩ := Option.isSome_iff_exists.1 hsome
  have hinspect : f'.inspect Device.flash 4 d' = (some found, _) := Prod.ext hfound rfl
  have := (records_canonical.2.2 Device.flash Device.holding Device.faithful runningOtp f' 4 _ _ d'
    result (by decide +kernel) (by decide +kernel) (fun i _ => rfl) hprogram hok).1 found _ hinspect
  exact ⟨f', d', _, result, rfl, hok, this ▸ hinspect⟩

end DaveOs.Otp
