import DaveOs.Otp.FlashSpec

/-!
# Appending a record and locking it

The log of a region is `Orderly`: nothing is erased, only erased words are programmed, and a block's
record is only written while all later blocks are blank. Programming a record into the first blank
block keeps the log orderly, and wherever power is lost the block holds nothing or the new value
(`wp_commit`); locking changes only lock words (`wp_lock`).
-/

namespace DaveOs.Otp

open Bytes Wire Crash

variable {base b n : Nat} {value : Bytes} {C : Device → Prop}
variable {log : List Command} {i : Nat}

/-! ## The log -/

/-- The command programs a word of block `b`. -/
def Command.Touches (base b : Nat) : Command → Prop
  | .erase _ => False
  | .program pos _ _ => ∃ i, i < 16 ∧ pos = wordAt base b i

/-- What may be commanded after the commands `pre`: no erase; a program of an erased word; of a record
word only while all later blocks are blank; and of a block that was used before, or is the first above
all blocks used before. -/
def Command.Fair (base : Nat) (pre : List Command) : Command → Prop
  | .erase _ => False
  | .program pos _ before => ∃ b i, b < kBlockCount ∧ i < 16 ∧ pos = wordAt base b i ∧
      before pos = some Word.ones ∧
      (i < 6 → ∀ b', b < b' → b' < kBlockCount → Blank before base b') ∧
      ((∃ c ∈ pre, c.Touches base b) ∨ ∀ c ∈ pre, ∀ b', c.Touches base b' → b' < b)

/-- Every command of the log was fair when it was given. -/
def Tidy (base : Nat) (log : List Command) : Prop :=
  ∀ pre c post, log = pre ++ c :: post → c.Fair base pre

/-- A tidy log that has used the first `n` blocks. -/
structure Orderly (base : Nat) (log : List Command) (n : Nat) : Prop where
  tidy : Tidy base log
  used : ∀ b, (∃ c ∈ log, c.Touches base b) ↔ b < n
  bound : n ≤ kBlockCount

theorem orderly_nil : Orderly base [] 0 where
  tidy pre c post h := by simp at h
  used b := by simp
  bound := Nat.zero_le _

theorem Tidy.append {c : Command} (h : Tidy base log) (hc : c.Fair base log) :
    Tidy base (log ++ [c]) := by
  intro pre c' post hsplit
  rcases List.eq_nil_or_concat post with rfl | ⟨post, last, rfl⟩
  · obtain ⟨rfl, hcons⟩ := List.append_inj' hsplit rfl
    obtain rfl := (List.cons.inj hcons).1
    exact hc
  · refine h pre c' post ?_
    have : log ++ [c] = (pre ++ c' :: post) ++ [last] := by simpa using hsplit
    exact (List.append_inj' this rfl).1

theorem Orderly.program {before : Contents} (h : Orderly base log n) (word : Bytes)
    (hb : b < kBlockCount) (hbn : b ≤ n) (hi : i < 16)
    (hones : before (wordAt base b i) = some Word.ones)
    (hblank : i < 6 → ∀ b', b < b' → b' < kBlockCount → Blank before base b') :
    Orderly base (log ++ [.program (wordAt base b i) word before]) (max n (b + 1)) where
  tidy := by
    refine h.tidy.append ⟨b, i, hb, hi, rfl, hones, hblank, ?_⟩
    rcases Nat.lt_or_ge b n with hlt | hge
    · exact .inl ((h.used b).2 hlt)
    · refine .inr fun c hc b' ht => ?_
      have := (h.used b').1 ⟨c, hc, ht⟩
      omega
  used b' := by
    have hlast : (∃ c ∈ log ++ [Command.program (wordAt base b i) word before], c.Touches base b') ↔
        (∃ c ∈ log, c.Touches base b') ∨ b' = b := by
      constructor
      · rintro ⟨c, hc, ht⟩
        rcases List.mem_append.1 hc with hc | hc
        · exact .inl ⟨c, hc, ht⟩
        · rw [List.mem_singleton.1 hc] at ht
          obtain ⟨i', hi', heq⟩ := ht
          exact .inr (wordAt_inj hi hi' heq).1.symm
      · rintro (⟨c, hc, ht⟩ | rfl)
        · exact ⟨c, List.mem_append_left _ hc, ht⟩
        · exact ⟨_, List.mem_append_right _ (List.mem_singleton.2 rfl), i, hi, rfl⟩
    rw [hlast, h.used b']
    omega
  bound := by
    have := h.bound
    omega

/-! ## Programming a record -/

/-- Words of block `b` have been commanded since `d`. -/
structure Touched (base b n : Nat) (d d' : Device) : Prop where
  longer : d.log.length < d'.log.length
  log : Orderly base d'.log (max n (b + 1))

/-- While a record is programmed into block `b`, from the flash `d`. -/
structure Filling (base b n : Nat) (d d' : Device) : Prop where
  outside : ∀ pos, (∀ i, i < 6 → pos ≠ wordAt base b i) → d'.contents pos = d.contents pos
  quiet : d'.pending = none
  log : Still d d' ∨ Touched base b n d d'

/-- What a loss of power leaves of it. -/
structure Left (base b n : Nat) (value : Bytes) (d d' : Device) : Prop where
  touched : Touched base b n d d'
  outside : ∀ torn pos, (∀ i, i < 6 → pos ≠ wordAt base b i) → d'.powerOff torn pos = d.contents pos
  holds : ∀ torn, holds (d'.powerOff torn) base b = none ∨
    holds (d'.powerOff torn) base b = some value

/-- Block `b` takes the next record: it and all later blocks are blank, and the log has used the
first `n` blocks. -/
structure Free (base b n : Nat) (d : Device) : Prop where
  log : Orderly base d.log n
  block : b < kBlockCount
  le : b ≤ n
  blank : ∀ b', b ≤ b' → b' < kBlockCount → Blank d.contents base b'
  quiet : d.pending = none

section Still

variable {d d' d'' : Device}

theorem Free.still (h : Free base b n d) (hs : Still d d') : Free base b n d' where
  log := by rw [hs.log]; exact h.log
  block := h.block
  le := h.le
  blank := by rw [hs.contents]; exact h.blank
  quiet := hs.pending.trans h.quiet

theorem Touched.still (hs : Still d d') (h : Touched base b n d' d'') : Touched base b n d d'' :=
  ⟨by rw [← hs.log]; exact h.longer, h.log⟩

theorem Filling.still (hs : Still d d') (h : Filling base b n d' d'') : Filling base b n d d'' where
  outside := by rw [← hs.contents]; exact h.outside
  quiet := h.quiet
  log := h.log.imp hs.trans (Touched.still hs)

theorem Left.still (hs : Still d d') (h : Left base b n value d' d'') : Left base b n value d d'' where
  touched := h.touched.still hs
  outside := by rw [← hs.contents]; exact h.outside
  holds := h.holds

end Still

section Programming

variable {d d' : Device} {f : FlashOtp}
variable {i : Nat}

theorem Filling.refl (hquiet : d.pending = none) : Filling base b n d d :=
  ⟨fun _ _ => rfl, hquiet, .inl (.refl d)⟩

theorem Filling.blank (h : Filling base b n d d') {b' : Nat} (hne : b' ≠ b)
    (hblank : Blank d.contents base b') : Blank d'.contents base b' := by
  intro i hi
  rw [h.outside _ fun j hj heq => hne (wordAt_inj hi (by omega) heq).1]
  exact hblank i hi

theorem Filling.orderly (h : Filling base b n d d') (hfree : Free base b n d) (hi : i < 6)
    (hones : d'.contents (wordAt base b i) = some Word.ones) (word : Bytes) :
    Orderly base (d'.log ++ [.program (wordAt base b i) word d'.contents]) (max n (b + 1)) := by
  have hlater : i < 6 → ∀ b', b < b' → b' < kBlockCount → Blank d'.contents base b' :=
    fun _ b' hlt hb' => h.blank (by omega) (hfree.blank b' (by omega) hb')
  rcases h.log with hstill | htouched
  · rw [hstill.log]
    exact hfree.log.program word hfree.block hfree.le (by omega) hones hlater
  · have := htouched.log.program word hfree.block (show b ≤ max n (b + 1) by omega) (by omega) hones
      hlater
    rwa [show max (max n (b + 1)) (b + 1) = max n (b + 1) by omega] at this

theorem wp_fill (word : Word) (hf : Running base f) (h : Filling base b n d d')
    (hfree : Free base b n d) (hi : i < 6) (hones : d'.contents (wordAt base b i) = some Word.ones)
    (hsafe : ∀ x, holds (Function.update d'.contents (wordAt base b i) x) base b = none ∨
      holds (Function.update d'.contents (wordAt base b i) x) base b = some value)
    (hstill : ∀ d'', Still d d'' → C d'') (hleft : ∀ d'', Left base b n value d d'' → C d'') :
    Wp (f.write Device.flash b (i * 16) word.val) C (fun r d'' =>
      r = (⟨.ok, true⟩, { f with attempted := Function.update f.attempted b true }) ∧
      Filling base b n d d'' ∧ Touched base b n d d'' ∧
      d''.contents = Function.update d'.contents (wordAt base b i) (some word)) d' := by
  have hord := h.orderly hfree hi hones word.val
  have hgrown : d.log.length < (d'.log ++ [Command.program (wordAt base b i) word.val
      d'.contents]).length := by
    rw [List.length_append, List.length_singleton]
    rcases h.log with hstill | htouched
    · rw [hstill.log]
      omega
    · have := htouched.longer
      omega
  have houtside : ∀ x pos, (∀ j, j < 6 → pos ≠ wordAt base b j) →
      Function.update d'.contents (wordAt base b i) x pos = d.contents pos := by
    intro x pos hpos
    rw [Function.update_of_ne (hpos i hi), h.outside pos hpos]
  have hsame : Function.update d'.contents (wordAt base b i) (some Word.ones) = d'.contents := by
    rw [← hones, Function.update_eq_self]
  refine (wp_write word hf hones fun d'' hcut => ?_).conseq ?_
  · rcases hcut with hcut | ⟨hcontents, hlog', p, hp, hpos⟩
    · rcases h.log with hst | htouched
      · exact hstill d'' (hst.trans hcut)
      · have hoff : ∀ torn, d''.powerOff torn = d'.contents := by
          intro torn
          rw [Device.powerOff, hcut.pending, h.quiet]
          exact hcut.contents
        refine hleft d'' ⟨⟨by rw [hcut.log]; exact htouched.longer, by rw [hcut.log]; exact htouched.log⟩,
          fun torn pos hpos => ?_, fun torn => ?_⟩
        · rw [hoff]
          exact h.outside pos hpos
        · rw [hoff, ← hsame]
          exact hsafe _
    · have hoff : ∀ torn, d''.powerOff torn =
          Function.update d'.contents (wordAt base b i) torn := by
        intro torn
        rw [Device.powerOff, hp, hcontents]
        dsimp only
        rw [hpos]
      refine hleft d'' ⟨⟨by rwa [hlog'], by rwa [hlog']⟩, fun torn pos hpos => ?_, fun torn => ?_⟩
      · rw [hoff]
        exact houtside torn pos hpos
      · rw [hoff]
        exact hsafe torn
  · rintro r d'' ⟨rfl, hdone⟩
    have htouched : Touched base b n d d'' := ⟨by rwa [hdone.log], by rwa [hdone.log]⟩
    refine ⟨rfl, ⟨fun pos hpos => ?_, hdone.pending, .inr htouched⟩, htouched, hdone.contents⟩
    rw [hdone.contents]
    exact houtside _ pos hpos

theorem wp_fill_uncommitted (word : Word) (hf : Running base f) (hfree : Free base b n d)
    (h : Filling base b n d d') (hi : i < 5)
    (hones : d'.contents (wordAt base b i) = some Word.ones)
    (hcommit : d'.contents (wordAt base b 5) = some Word.ones) (hstill : ∀ d'', Still d d'' → C d'')
    (hleft : ∀ d'', Left base b n value d d'' → C d'') :
    Wp (f.write Device.flash b (i * 16) word.val) C (fun r d'' =>
      r = (⟨.ok, true⟩, { f with attempted := Function.update f.attempted b true }) ∧
      Filling base b n d d'' ∧ Touched base b n d d'' ∧
      d''.contents = Function.update d'.contents (wordAt base b i) (some word)) d' := by
  refine wp_fill word hf h hfree (by omega) hones (fun x => .inl ?_) hstill hleft
  refine holds_uncommitted ?_
  rw [Function.update_of_ne fun heq => ?_, hcommit]
  have := (wordAt_inj (by decide) (by omega) heq).2
  omega

/-- The body loop, over the words `ks` that are left. -/
theorem wp_writeBody {body : Bytes} (hbody : body.length = kRecordSize) (hf : Running base f)
    (hattempted : f.attempted b = true) (hfree : Free base b n d)
    (hstill : ∀ d'', Still d d'' → C d'') (hleft : ∀ d'', Left base b n value d d'' → C d'') :
    ∀ (ks : List Nat) {d' : Device}, ks.Nodup → (∀ k ∈ ks, k < 4) → Filling base b n d d' →
    (∀ k ∈ ks, d'.contents (wordAt base b (k + 1)) = some Word.ones) →
    d'.contents (wordAt base b 5) = some Word.ones →
    Wp (FlashOtp.writeBody Device.flash b (ks.map fun k => (k * 16, slice body (k * 16) 16)) f) C
      (fun r d'' => r = (.ok, f) ∧ Filling base b n d d'' ∧
        (∀ k ∈ ks, (d''.contents (wordAt base b (k + 1))).map Subtype.val =
          some (slice body (k * 16) 16)) ∧
        ∀ i, i < 16 → (∀ k ∈ ks, i ≠ k + 1) →
          d''.contents (wordAt base b i) = d'.contents (wordAt base b i)) d' := by
  intro ks
  induction ks with
  | nil =>
    intro d' _ _ h _ _
    exact .pure ⟨rfl, h, fun k hk => by simp at hk, fun i _ _ => rfl⟩
  | cons k ks ih =>
    intro d' hnodup hlt h hones hcommit
    obtain ⟨hnotin, hnodup'⟩ := List.nodup_cons.1 hnodup
    have hk : k < 4 := hlt k List.mem_cons_self
    have hsize : kRecordSize = 64 := rfl
    have hlen : (slice body (k * 16) 16).length = 16 := length_slice (by omega)
    rw [List.map_cons, FlashOtp.writeBody]
    by_cases hblank : erased (slice body (k * 16) 16) = true
    · -- a word of ones is already in place
      rw [if_pos hblank]
      have hword : (⟨slice body (k * 16) 16, hlen⟩ : Word) = Word.ones := erased_iff.1 hblank
      refine (ih hnodup' (fun j hj => hlt j (List.mem_cons_of_mem k hj)) h
        (fun j hj => hones j (List.mem_cons_of_mem k hj)) hcommit).conseq ?_
      rintro r d'' ⟨rfl, hfill, hwords, hother⟩
      refine ⟨rfl, hfill, fun j hj => ?_, fun i hi hne => hother i hi fun j hj =>
        hne j (List.mem_cons_of_mem k hj)⟩
      rcases List.mem_cons.1 hj with rfl | hj
      · rw [hother (j + 1) (by omega) fun j' hj' heq => hnotin (by
            rwa [show j = j' by omega]), hones j List.mem_cons_self, ← hword]
        rfl
      · exact hwords j hj
    · rw [if_neg hblank, show kBodyOffset + k * 16 = (k + 1) * 16 by unfold kBodyOffset; omega]
      refine (wp_fill_uncommitted ⟨slice body (k * 16) 16, hlen⟩ hf hfree h (by omega)
        (hones k List.mem_cons_self) hcommit hstill hleft).bind ?_
      rintro r d₁ ⟨rfl, hfill₁, -, hcontents⟩
      have hsame : ∀ i, i < 16 → i ≠ k + 1 →
          d₁.contents (wordAt base b i) = d'.contents (wordAt base b i) := by
        intro i hi hne
        rw [hcontents, Function.update_of_ne fun heq => hne (wordAt_inj hi (by omega) heq).2]
      have hf' : { f with attempted := Function.update f.attempted b true } = f := by
        rw [← hattempted, Function.update_eq_self]
      dsimp only
      rw [if_neg (by simp), hf']
      refine (ih hnodup' (fun j hj => hlt j (List.mem_cons_of_mem k hj)) hfill₁ (fun j hj => ?_)
        ?_).conseq ?_
      · rw [hsame (j + 1) (by have := hlt j (List.mem_cons_of_mem k hj); omega) fun heq =>
          hnotin (by rwa [show k = j by omega])]
        exact hones j (List.mem_cons_of_mem k hj)
      · rw [hsame 5 (by decide) (by omega), hcommit]
      · rintro r d'' ⟨rfl, hfill, hwords, hother⟩
        refine ⟨rfl, hfill, fun j hj => ?_, fun i hi hne => ?_⟩
        · rcases List.mem_cons.1 hj with rfl | hj
          · rw [hother (j + 1) (by omega) fun j' hj' heq => hnotin (by
              rwa [show j = j' by omega]), hcontents, Function.update_self]
            rfl
          · exact hwords j hj
        · rw [hother i hi fun j hj => hne j (List.mem_cons_of_mem k hj),
            hsame i hi (hne k List.mem_cons_self)]

structure Stored (base b n : Nat) (value : Bytes) (d d' : Device) : Prop where
  filling : Filling base b n d d'
  written : Written d'.contents base b value
  committed : (d'.contents (wordAt base b 5)).map Subtype.val = some (commitWord b value)
  touched : Touched base b n d d'

theorem wp_commit (hv : validSerial value = true) (hf : Running base f) (hfree : Free base b n d)
    (hstill : ∀ d'', Still d d'' → C d'') (hleft : ∀ d'', Left base b n value d d'' → C d'') :
    Wp (f.commit Device.flash b (serialRecord value)) C (fun r d' =>
      r = (⟨.ok, true⟩, { f with attempted := Function.update f.attempted b true }) ∧
      Stored base b n value d d') d := by
  have hblank := hfree.blank b (Nat.le_refl b) hfree.block
  have hlen := length_serialBody hv
  have htype : UInt32.ofNat (serialRecord value).type = UInt32.ofNat serialNumber := by
    rw [serialRecord_retyped hv]
    rfl
  have hwords : FlashOtp.bodyWords (serialBody value) =
      [0, 1, 2, 3].map fun k => (k * 16, slice (serialBody value) (k * 16) 16) := rfl
  have hf' : Running base { f with attempted := Function.update f.attempted b true } :=
    ⟨hf.base, hf.initialized, hf.timedOut, hf.lockNext⟩
  have hidem : Function.update (Function.update f.attempted b true) b true =
      Function.update f.attempted b true := Function.update_idem _ _ _
  unfold FlashOtp.commit
  rw [show (0 : Nat) = 0 * 16 from rfl]
  refine (wp_fill_uncommitted ⟨claimWord b, length_marker ..⟩ hf hfree
    (.refl hfree.quiet) (by decide) (hblank 0 (by decide)) (hblank 5 (by decide)) hstill hleft).bind ?_
  rintro r d₁ ⟨rfl, hfill₁, -, hc₁⟩
  have hsame₁ : ∀ i, i < 16 → i ≠ 0 → d₁.contents (wordAt base b i) = some Word.ones := by
    intro i hi hne
    rw [hc₁, Function.update_of_ne fun heq => hne (wordAt_inj hi (by decide) heq).2]
    exact hblank i hi
  dsimp only
  rw [if_neg (by simp)]
  rw [show splice (serialRecord value).bytes 0 [0xff, 0xff] = serialBody value from rfl, hwords]
  refine (wp_writeBody hlen hf' (Function.update_self ..) hfree hstill hleft [0, 1, 2, 3] (by decide)
    (by decide) hfill₁ (fun k hk => hsame₁ (k + 1) ?_ (by omega))
    (hsame₁ 5 (by decide) (by decide))).bind ?_
  · have : k < 4 := (show ∀ k ∈ [0, 1, 2, 3], k < 4 by decide) k hk
    omega
  rintro r d₂ ⟨rfl, hfill₂, hbody₂, hother₂⟩
  have hclaim₂ : (d₂.contents (wordAt base b 0)).map Subtype.val = some (claimWord b) := by
    rw [hother₂ 0 (by decide) (fun k _ => by omega), hc₁, Function.update_self]
    rfl
  have hcommit₂ : d₂.contents (wordAt base b 5) = some Word.ones := by
    rw [hother₂ 5 (by decide) (by decide), hsame₁ 5 (by decide) (by decide)]
  have hwritten : ∀ x, Written (Function.update d₂.contents (wordAt base b 5) x) base b value := by
    intro x
    have hne : ∀ i, i < 5 → Function.update d₂.contents (wordAt base b 5) x (wordAt base b i) =
        d₂.contents (wordAt base b i) := by
      intro i hi
      rw [Function.update_of_ne fun heq => by have := (wordAt_inj (by omega) (by decide) heq).2; omega]
    refine ⟨?_, fun k hk => ?_⟩
    · rw [hne 0 (by decide), hclaim₂]
    · rw [hne (k + 1) (by omega)]
      exact hbody₂ k (by simp; omega)
  dsimp only
  rw [if_neg (by simp), htype, show kCommitOffset = 5 * 16 from rfl]
  refine (wp_fill ⟨commitWord b value, length_marker ..⟩ hf' hfill₂ hfree (by decide)
    hcommit₂ (fun x => holds_committing (hwritten x) hv) hstill hleft).bind ?_
  rintro r d₃ ⟨rfl, hfill₃, htouched, hc₃⟩
  refine .pure ⟨by rw [hidem], hfill₃, ?_, ?_, htouched⟩
  · rw [hc₃]
    exact hwritten _
  · rw [hc₃, Function.update_self]
    rfl

theorem wp_program_free (hv : validSerial value = true) (hf : Running base f)
    (hfresh : f.attempted b = false) (hfree : Free base b n d)
    (hstill : ∀ d'', Still d d'' → C d'') (hleft : ∀ d'', Left base b n value d d'' → C d'') :
    Wp (f.program Device.flash b (serialRecord value)) C (fun r d' =>
      r = (⟨.ok, true⟩, { f with attempted := Function.update f.attempted b true }) ∧
      Stored base b n value d d') d := by
  unfold FlashOtp.program
  refine (wp_inspect hf hfree.block hstill).bind ?_
  rintro r d₁ ⟨hst, rfl⟩
  have hblank := hfree.blank b (Nat.le_refl b) hfree.block
  dsimp only
  rw [hfresh, examine_blank hblank, if_neg (by simp), if_neg (by simp)]
  refine (wp_commit hv hf (hfree.still hst) (fun d'' h => hstill d'' (hst.trans h)) fun d'' h =>
    hleft d'' (h.still hst)).conseq ?_
  rintro r d' ⟨rfl, h⟩
  exact ⟨rfl, h.filling.still hst, h.written, h.committed, h.touched.still hst⟩

end Programming

/-! ## Locking -/

/-- Since `d`, at most one lock word of block `b` has changed. -/
structure Locked (base b n : Nat) (d d' : Device) : Prop where
  outside : ∀ pos, (∀ i, 6 ≤ i → i < 16 → pos ≠ wordAt base b i) → d'.contents pos = d.contents pos
  quiet : d'.pending = none
  log : Orderly base d'.log n
  longer : d.log.length ≤ d'.log.length

/-- What a loss of power leaves of a lock. -/
structure LockLeft (base b n : Nat) (d d' : Device) : Prop where
  outside : ∀ torn pos, (∀ i, 6 ≤ i → i < 16 → pos ≠ wordAt base b i) →
    d'.powerOff torn pos = d.contents pos
  log : Orderly base d'.log n
  longer : d.log.length ≤ d'.log.length

theorem lockWord_spec (image : Image) : ∀ (i next : Nat), next ≤ i →
    next ≤ FlashOtp.lockWord image i next ∧
      FlashOtp.lockWord image i next ≤ i + image.length ∧
      ∀ k, FlashOtp.lockWord image i next ≤ i + k → k < image.length →
        (image.getD k none).any erased = true := by
  induction image with
  | nil => exact fun i next h => ⟨Nat.le_refl _, h, fun k _ hk => by simp at hk⟩
  | cons w rest ih =>
    intro i next h
    rw [FlashOtp.lockWord, List.length_cons]
    by_cases hw : w.any erased = true
    · rw [if_pos hw]
      obtain ⟨hle, hub, hvirgin⟩ := ih (i + 1) next (by omega)
      refine ⟨hle, by omega, fun k hk hlen => ?_⟩
      cases k with
      | zero => exact hw
      | succ k => exact hvirgin k (by omega) (by omega)
    · rw [if_neg hw]
      obtain ⟨hle, hub, hvirgin⟩ := ih (i + 1) (i + 1) (Nat.le_refl _)
      refine ⟨by omega, by omega, fun k hk hlen => ?_⟩
      cases k with
      | zero => omega
      | succ k => exact hvirgin k (by omega) (by omega)

theorem lockWord_ones {c : Contents} (h : FlashOtp.lockWord ((image c base b).drop 6) 6 6 ≤ i)
    (hi : i < 16) : 6 ≤ i ∧ c (wordAt base b i) = some Word.ones := by
  have hlen : ((image c base b).drop 6).length = 10 := by simp [image]
  obtain ⟨hle, -, hvirgin⟩ := lockWord_spec ((image c base b).drop 6) 6 6 (Nat.le_refl 6)
  refine ⟨by omega, ?_⟩
  have herased := hvirgin (i - 6) (by omega) (by omega)
  rw [List.getD_eq_getElem?_getD, List.getElem?_drop, ← List.getD_eq_getElem?_getD,
    Nat.add_sub_cancel' (by omega), getD_image hi] at herased
  cases hw : c (wordAt base b i) with
  | none => rw [hw] at herased; cases herased
  | some w =>
    rw [hw] at herased
    rw [erased_iff.1 herased]

section Locking

variable {d d' : Device} {f : FlashOtp}

theorem Locked.refl (hquiet : d.pending = none) (hlog : Orderly base d.log n) : Locked base b n d d :=
  ⟨fun _ _ => rfl, hquiet, hlog, Nat.le_refl _⟩

theorem Locked.still (h : Locked base b n d d') {d'' : Device} (hs : Still d' d'') :
    Locked base b n d d'' where
  outside pos hpos := by rw [hs.contents]; exact h.outside pos hpos
  quiet := hs.pending.trans h.quiet
  log := by rw [hs.log]; exact h.log
  longer := by rw [hs.log]; exact h.longer

theorem Locked.left (h : Locked base b n d d') : LockLeft base b n d d' where
  outside torn pos hpos := by
    rw [Device.powerOff, h.quiet]
    exact h.outside pos hpos
  log := h.log
  longer := h.longer

/-- `Lock` writes one virgin lock word of the block. -/
theorem wp_mark (record : Record) (hf : Running base f) (hb : b < n) (h : Locked base b n d d')
    (hleft : ∀ d'', LockLeft base b n d d'' → C d'') :
    Wp (f.mark Device.flash b record (image d'.contents base b)) C (fun r d'' =>
      Running base r.2 ∧ (∀ b', r.2.attempted b' = true → b' = b ∨ f.attempted b' = true) ∧
      Locked base b n d d'') d' := by
  have hbound := h.log.bound
  unfold FlashOtp.mark
  obtain ⟨next, hnext⟩ : ∃ next, next =
      max (FlashOtp.lockWord ((image d'.contents base b).drop 6) 6 6) (f.lockNext b) := ⟨_, rfl⟩
  dsimp only
  rw [← hnext]
  refine .ite (fun _ => .pure ⟨hf, fun b' h => .inr h, h⟩) fun hfull => ?_
  have hlen : ((image d'.contents base b).drop 6).length = 10 := by simp [image]
  have hlt : next < 16 := by
    have := (lockWord_spec ((image d'.contents base b).drop 6) 6 6 (Nat.le_refl 6)).2.1
    have := hf.lockNext b
    omega
  have hle : FlashOtp.lockWord ((image d'.contents base b).drop 6) 6 6 ≤ next := by omega
  obtain ⟨hsix, hones⟩ := lockWord_ones hle hlt
  have hord : ∀ word, Orderly base
      (d'.log ++ [.program (wordAt base b next) word d'.contents]) n := by
    intro word
    have hblock : b < kBlockCount := by omega
    have hmax : max n (b + 1) = n := by omega
    rw [← hmax]
    exact h.log.program word hblock (Nat.le_of_lt hb) hlt hones fun hsmall => absurd hsmall (by omega)
  have houtside : ∀ x pos, (∀ i, 6 ≤ i → i < 16 → pos ≠ wordAt base b i) →
      Function.update d'.contents (wordAt base b next) x pos = d.contents pos := by
    intro x pos hpos
    rw [Function.update_of_ne (hpos next hsix hlt), h.outside pos hpos]
  have hlonger := h.longer
  refine (wp_write ⟨_, length_marker ..⟩ hf hones fun d'' hcut => ?_).bind ?_
  · rcases hcut with hstill | ⟨hcontents, hlog, p, hp, hpos⟩
    · exact hleft d'' (h.still hstill).left
    · refine hleft d'' ⟨fun torn pos hpos' => ?_, by rw [hlog]; exact hord _, ?_⟩
      · rw [Device.powerOff, hp, hcontents]
        dsimp only
        rw [hpos]
        exact houtside torn pos hpos'
      · rw [hlog, List.length_append]
        omega
  · rintro r d'' ⟨rfl, hdone⟩
    refine .pure ⟨⟨hf.base, hf.initialized, hf.timedOut, fun b' => ?_⟩, fun b' h' => ?_, ?_⟩
    · show Function.update f.lockNext b (next + 1) b' ≤ 16
      by_cases hb' : b' = b
      · rw [hb', Function.update_self]
        omega
      · rw [Function.update_of_ne hb']
        exact hf.lockNext b'
    · by_cases hb' : b' = b
      · exact .inl hb'
      · have : Function.update f.attempted b true b' = true := h'
        rw [Function.update_of_ne hb'] at this
        exact .inr this
    · refine ⟨fun pos hpos => ?_, hdone.pending, by rw [hdone.log]; exact hord _, ?_⟩
      · rw [hdone.contents]
        exact houtside _ pos hpos
      · rw [hdone.log, List.length_append]
        omega

theorem wp_lock (hf : Running base f) (hb : b < n) (h : Locked base b n d d')
    (hleft : ∀ d'', LockLeft base b n d d'' → C d'') :
    Wp (f.lock Device.flash b) C (fun r d'' =>
      Running base r.2 ∧ (∀ b', r.2.attempted b' = true → b' = b ∨ f.attempted b' = true) ∧
      Locked base b n d d'') d' := by
  have hblock : b < kBlockCount := Nat.lt_of_lt_of_le hb h.log.bound
  have hstill : ∀ d'', Still d' d'' → C d'' := fun d'' hs => hleft d'' (h.still hs).left
  unfold FlashOtp.lock
  refine (wp_inspect hf hblock hstill).bind ?_
  rintro r d₁ ⟨hs₁, rfl⟩
  have h₁ := h.still hs₁
  refine .ite (fun _ => .pure ⟨hf, fun b' h => .inr h, h₁⟩) fun _ => ?_
  refine .ite (fun _ => .pure ⟨hf, fun b' h => .inr h, h₁⟩) fun _ => ?_
  refine (wp_load hf hblock fun d'' hs => hleft d'' (h₁.still hs).left).bind ?_
  rintro r d₂ ⟨hs₂, rfl⟩
  refine .ite (fun _ => .pure ⟨hf, fun b' h => .inr h, h₁.still hs₂⟩) fun _ => ?_
  have := wp_mark (C := C) (examine (f.attempted b) b (image d'.contents base b)).record hf hb
    (h₁.still hs₂) hleft
  rwa [hs₂.contents] at this

end Locking

end DaveOs.Otp
