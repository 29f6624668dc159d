import DaveOs.Boot.Journal
import DaveOs.Boot.CodecSpec

/-!
# What `load` answers

The flash is idle and stands still: a read answers the bytes that are there, or fails, always in the same
way (`Contents`). `load` then answers the newest record, provided that the records of its sequence are all
the same; that none was found, or that none was found and a read failed; or a conflict. A conflict is met in
the order of the scan: two different records of one sequence, and none of a higher sequence before the
second (`Contents.Conflicts`).

So the answer depends on the place of the records only if different records of one sequence exist below the
highest one, where the records agree (`load_meets_spec`).
-/

namespace DaveOs.Boot

variable {pos : Nat} {R : Bytes} {slots : List Nat} {scan : Scan} {t : Snapshot} {poll : Status}
  {executing : Option Nat} {p : Nat} {status : Status} {snapshot : Snapshot} {latest : Nat}
  {rs : List Bytes} {s : Snapshot}

open Bytes Wire Crash

/-- What the flash holds, and how a read of `n` bytes at `pos` ends. -/
structure Contents where
  cells : Nat → UInt8
  result : Nat → Nat → Status

namespace Contents

variable (c : Contents)

def bytes (pos n : Nat) : Bytes := (List.range n).map fun k => c.cells (pos + k)

/-- The driver of a flash that stands still. -/
def flash (poll : Status) (executing : Option Nat) : Flash Unit where
  read pos n := pure (c.result pos n, c.bytes pos n)
  erase _ := pure .ok
  program _ _ := pure .ok
  poll := pure poll
  now := pure 0
  executingBank := executing
  fuel _ := 0

/-- The record at `pos`, if it can be read and is committed. -/
def record (pos : Nat) : Option Bytes :=
  if c.result pos 16 = .ok ∧ c.result (pos + 16) 240 = .ok ∧ (decode (c.bytes pos kRecordSize)).isSome then
    some (c.bytes pos kRecordSize)
  else none

/-- A read that `load` makes at `pos` fails: that of the header, or of the rest after an identifying header. -/
def Fails (pos : Nat) : Prop :=
  c.result pos 16 ≠ .ok ∨ (read32 (c.bytes pos 16) 0 = kMagic ∧
    (read32 (c.bytes pos 16) 4 = 1 ∨ read32 (c.bytes pos 16) 4 = 2) ∧ c.result (pos + 16) 240 ≠ .ok)

end Contents

/-- The sequence of a committed record. -/
def sequenceOf (R : Bytes) : UInt64 := ((decode R).getD {}).sequence

namespace Contents

variable (c : Contents)

/-- The record at `pos` differs from one of its sequence before it, and none before it has a higher one. -/
def Clash (before : List Nat) (pos : Nat) : Prop :=
  ∃ R, c.record pos = some R ∧ (∃ q ∈ before, ∃ S, c.record q = some S ∧ sequenceOf S = sequenceOf R ∧ S ≠ R) ∧
    ∀ q ∈ before, ∀ S, c.record q = some S → sequenceOf S ≤ sequenceOf R

/-- A scan of these slots meets a conflict. -/
def Conflicts (slots : List Nat) : Prop :=
  ∃ before pos after, slots = before ++ pos :: after ∧ c.Clash before pos

/-- The record at `pos` is the newest of these slots: the records of its sequence are all the same. -/
def Newest (slots : List Nat) (pos : Nat) (R : Bytes) : Prop :=
  pos ∈ slots ∧ c.record pos = some R ∧ ∀ q ∈ slots, ∀ S, c.record q = some S →
    sequenceOf S ≤ sequenceOf R ∧ (sequenceOf S = sequenceOf R → S = R)

end Contents

variable {c : Contents}

theorem Contents.bytes_append (pos n k : Nat) : c.bytes pos n ++ c.bytes (pos + n) k = c.bytes pos (n + k) := by
  simp only [Contents.bytes, List.range_add, List.map_append, List.map_map]
  congr 1
  exact List.map_congr_left fun x _ => by simp [Nat.add_assoc]

theorem Contents.record_eq_some : c.record pos = some R ↔
    c.result pos 16 = .ok ∧ c.result (pos + 16) 240 = .ok ∧ (decode R).isSome ∧ R = c.bytes pos kRecordSize := by
  unfold Contents.record
  rw [Option.ite_none_right_eq_some, Option.some_inj]
  constructor
  · rintro ⟨⟨hh, hr, hd⟩, rfl⟩
    exact ⟨hh, hr, hd, rfl⟩
  · rintro ⟨hh, hr, hd, rfl⟩
    exact ⟨⟨hh, hr, hd⟩, rfl⟩

theorem Contents.record_header (h : c.record pos = some R) : read32 (c.bytes pos 16) 0 = kMagic ∧
      (read32 (c.bytes pos 16) 4 = 1 ∨ read32 (c.bytes pos 16) 4 = 2) ∧
      read64 (c.bytes pos 16) 8 = sequenceOf R := by
  obtain ⟨-, -, hd, hR⟩ := Contents.record_eq_some.mp h
  obtain ⟨t, ht⟩ := Option.isSome_iff_exists.mp hd
  have hlen : (c.bytes pos 16).length = 16 := by simp [Contents.bytes]
  have hs : ∀ k n, k + n ≤ 16 → slice (c.bytes pos 16) k n = slice R k n := by
    intro k n hn
    rw [hR, show kRecordSize = 16 + 240 from rfl, ← Contents.bytes_append,
      ← slice_take (d := c.bytes pos 16 ++ _) hn, List.take_left' hlen]
  have ha := decode_eq_some.mp ht
  refine ⟨(read32_congr (hs 0 4 (by decide))).trans ha.magic,
    (read32_congr (hs 4 4 (by decide))).symm ▸ ha.version, ?_⟩
  rw [sequenceOf, ht, Option.getD_some, ha.sequence]
  exact read64_congr (hs 8 8 (by decide))

/-! ## The scan -/

/-- The scan has visited `slots` without a conflict. -/
structure Visited (c : Contents) (slots : List Nat) (scan : Scan) : Prop where
  none : scan.best = none → (∀ p ∈ slots, c.record p = none) ∧ (scan.readFailed = true ↔ ∃ p ∈ slots, c.Fails p)
  some : ∀ best, scan.best = some best → decode best.record = some best.snapshot ∧
    c.Newest slots best.pos best.record

theorem Visited.skip {scan' : Scan} (h : Visited c slots scan) (hbest : scan'.best = scan.best)
    (hno : c.record pos = Option.none)
    (hfail : scan'.readFailed = true ↔ scan.readFailed = true ∨ c.Fails pos) :
    Visited c (slots ++ [pos]) scan' := by
  constructor
  · intro hn
    obtain ⟨hnone, hread⟩ := h.none (hbest ▸ hn)
    refine ⟨fun p hp => ?_, ?_⟩
    · rcases List.mem_append.mp hp with hp | hp
      · exact hnone p hp
      · rw [List.mem_singleton.mp hp]
        exact hno
    · rw [hfail, hread]
      simp only [List.mem_append, List.mem_singleton, or_and_right, exists_or, exists_eq_left]
  · intro best hb
    obtain ⟨hd, hmem, hrec, hmax⟩ := h.some best (hbest ▸ hb)
    refine ⟨hd, List.mem_append_left _ hmem, hrec, fun q hq S hS => ?_⟩
    rcases List.mem_append.mp hq with hq | hq
    · exact hmax q hq S hS
    · rw [List.mem_singleton.mp hq, hno] at hS
      cases hS

theorem Visited.keep {best : Best} (h : Visited c slots scan) (hb : scan.best = Option.some best)
    (hold : ∀ R, c.record pos = Option.some R →
      sequenceOf R ≤ sequenceOf best.record ∧ (sequenceOf R = sequenceOf best.record → R = best.record)) :
    Visited c (slots ++ [pos]) scan := by
  constructor
  · intro hn
    rw [hb] at hn
    cases hn
  · intro best' hb'
    obtain rfl := Option.some.inj (hb.symm.trans hb')
    obtain ⟨hd, hmem, hrec, hmax⟩ := h.some best hb
    refine ⟨hd, List.mem_append_left _ hmem, hrec, fun q hq S hS => ?_⟩
    rcases List.mem_append.mp hq with hq | hq
    · exact hmax q hq S hS
    · rw [List.mem_singleton.mp hq] at hS
      exact hold S hS

theorem Visited.take (h : Visited c slots scan) (hrec : c.record pos = Option.some R)
    (hd : decode R = Option.some t)
    (hnew : ∀ best, scan.best = Option.some best → sequenceOf best.record < sequenceOf R) :
    Visited c (slots ++ [pos]) { scan with best := Option.some { snapshot := t, record := R, pos } } := by
  constructor
  · exact nofun
  · intro best hb
    obtain rfl := Option.some.inj hb
    refine ⟨hd, List.mem_append_right _ (List.mem_singleton.mpr rfl), hrec, fun q hq S hS => ?_⟩
    rcases List.mem_append.mp hq with hq | hq
    · cases hold : scan.best with
      | none =>
        rw [(h.none hold).1 q hq] at hS
        cases hS
      | some best =>
        have hlt := UInt64.lt_of_le_of_lt ((h.some best hold).2.2.2 q hq S hS).1 (hnew best hold)
        exact ⟨UInt64.le_of_lt hlt, fun he => absurd he (UInt64.ne_of_lt hlt)⟩
    · rw [List.mem_singleton.mp hq, hrec] at hS
      obtain rfl := Option.some.inj hS
      exact ⟨UInt64.le_refl _, fun _ => rfl⟩

/-- What the scan answers at a slot: a conflict is met, or the slot is visited without one. -/
inductive Visits (c : Contents) (slots : List Nat) (pos : Nat) : Bool × Scan → Prop
  | conflict {scan : Scan} (hbest : scan.best ≠ none) (h : c.Clash slots pos) : Visits c slots pos (true, scan)
  | onward {scan : Scan} (hno : ¬c.Clash slots pos) (h : Visited c (slots ++ [pos]) scan) :
    Visits c slots pos (false, scan)

theorem Visits.skip {failed : Bool} (h : Visited c slots scan) (hno : c.record pos = none)
    (hfail : failed = true ↔ scan.readFailed = true ∨ c.Fails pos) :
    Visits c slots pos (false, { scan with readFailed := failed }) := by
  refine .onward ?_ (h.skip rfl hno hfail)
  rintro ⟨R, hR, -⟩
  rw [hno] at hR
  cases hR

theorem sequenceOf_eq (h : decode R = some t) : sequenceOf R = t.sequence := by
  rw [sequenceOf, h, Option.getD_some]

/-- The scan at a slot whose header is that of a record, and not of one below the best. -/
theorem Visits.meet (h : Visited c slots scan) (hrec : c.record pos = some R)
    (hd : decode R = some t)
    (hlow : ∀ best, scan.best = some best → ¬sequenceOf R < sequenceOf best.record) :
    Visits c slots pos
      (match scan.best with
      | none => (false, { scan with best := some { snapshot := t, record := R, pos } })
      | some best =>
        if t.sequence = best.snapshot.sequence ∧ R ≠ best.record then (true, scan)
        else if t.sequence > best.snapshot.sequence then
          (false, { scan with best := some { snapshot := t, record := R, pos } })
        else (false, scan)) := by
  cases hb : scan.best with
  | none =>
    refine .onward ?_ (h.take hrec hd fun best hbest => by rw [hb] at hbest; cases hbest)
    rintro ⟨-, -, ⟨q, hq, S, hS, -⟩, -⟩
    rw [(h.none hb).1 q hq] at hS
    cases hS
  | some best =>
    obtain ⟨hbd, hmem, hbrec, hmax⟩ := h.some best hb
    have hlow := hlow best hb
    simp only
    rw [← sequenceOf_eq hd, ← sequenceOf_eq hbd]
    split
    · next hconf =>
      refine .conflict (by rw [hb]; exact nofun) ⟨R, hrec, ⟨best.pos, hmem, best.record, hbrec, hconf.1.symm, ?_⟩, ?_⟩
      · exact Ne.symm hconf.2
      · intro q hq S hS
        rw [hconf.1]
        exact (hmax q hq S hS).1
    · next hconf =>
      split
      · next hgt =>
        refine .onward ?_ (h.take hrec hd fun best' hb' => Option.some.inj (hb.symm.trans hb') ▸ hgt)
        rintro ⟨R', hR', ⟨q, hq, S, hS, hseq, -⟩, -⟩
        obtain rfl := Option.some.inj (hrec.symm.trans hR')
        have := UInt64.lt_of_le_of_lt (hmax q hq S hS).1 hgt
        exact absurd hseq (UInt64.ne_of_lt this)
      · next hgt =>
        have hseq : sequenceOf R = sequenceOf best.record :=
          UInt64.le_antisymm (UInt64.not_lt.mp hgt) (UInt64.not_lt.mp hlow)
        have heq : R = best.record := Decidable.not_not.mp fun hne => hconf ⟨hseq, hne⟩
        refine .onward ?_ (h.keep hb fun R' hR' => ?_)
        · rintro ⟨R', hR', ⟨q, hq, S, hS, hseq', hne⟩, -⟩
          obtain rfl := Option.some.inj (hrec.symm.trans hR')
          exact hne (((hmax q hq S hS).2 (hseq'.trans hseq)).trans heq.symm)
        · obtain rfl := Option.some.inj (hrec.symm.trans hR')
          exact ⟨hseq ▸ UInt64.le_refl _, fun _ => heq⟩

section backed

variable {σ : Type} {flash : Flash σ} {C K : σ → Prop} {d : σ}

/-- In `K`, the flash answers reads of the record at `pos` with what `c` holds and stays in `K`, or is cut
short in `C`. -/
def Contents.Backs (c : Contents) (flash : Flash σ) (C K : σ → Prop) (pos : Nat) : Prop :=
  ∀ d, K d → ∀ x n, x < kRecordSize → Wp (flash.read (pos + x) n) C
    (fun a d' => K d' ∧ a.1 = c.result (pos + x) n ∧ (a.1 = .ok → a.2 = c.bytes (pos + x) n)) d

/-- **One slot of the scan.** -/
theorem wp_visit (h : Visited c slots scan) (hback : c.Backs flash C K pos) (hd : K d) :
    Wp (scanRecord flash pos scan) C (fun a d' => K d' ∧ Visits c slots pos a) d := by
  refine .bind (hback d hd 0 16 (by decide)) ?_
  rintro ⟨_, header⟩ d ⟨hd, rfl, hheader⟩
  refine .ite (fun hh => .pure ⟨hd, .skip h ?_ ?_⟩) fun hh => ?_
  · exact Option.eq_none_iff_forall_not_mem.mpr fun R hR => hh (Contents.record_eq_some.mp hR).1
  · exact iff_of_true rfl (.inr (.inl hh))
  have hh : c.result pos 16 = .ok := Decidable.not_not.mp hh
  obtain rfl : header = c.bytes pos 16 := hheader hh
  refine .ite (fun hid => .pure ⟨hd, .skip h ?_ ?_⟩) fun hid => ?_
  · refine Option.eq_none_iff_forall_not_mem.mpr fun R hR => ?_
    obtain ⟨hm, hv, -⟩ := Contents.record_header hR
    rcases hid with hid | hid
    · exact hid hm
    · exact hv.elim hid.1 hid.2
  · refine ⟨.inl, fun hf => hf.elim id ?_⟩
    rintro (hf | ⟨hm, hv, -⟩)
    · exact absurd hh hf
    · rcases hid with hid | hid
      · exact absurd hm hid
      · exact (hv.elim hid.1 hid.2).elim
  have hid : read32 (c.bytes pos 16) 0 = kMagic ∧
      (read32 (c.bytes pos 16) 4 = 1 ∨ read32 (c.bytes pos 16) 4 = 2) := by
    simp only [not_or, not_and, Decidable.not_not] at hid
    refine ⟨hid.1, ?_⟩
    by_cases hv : read32 (c.bytes pos 16) 4 = 1
    · exact .inl hv
    · exact .inr (hid.2 hv)
  refine .ite (fun hlow => .pure ⟨hd, ?_⟩) fun hlow => ?_
  -- The record, if it is one, is below the best.
  · cases hb : scan.best with
    | none =>
      rw [hb] at hlow
      cases hlow
    | some best =>
      obtain ⟨hbd, hmem, hbrec, hmax⟩ := h.some best hb
      rw [hb, Option.any_some, decide_eq_true_eq, ← sequenceOf_eq hbd] at hlow
      have hlt {R : Bytes} (hR : c.record pos = some R) : sequenceOf R < sequenceOf best.record := by
        rw [← (Contents.record_header hR).2.2]
        exact hlow
      refine .onward ?_ (h.keep hb fun R hR => ⟨UInt64.le_of_lt (hlt hR), fun he => absurd he (UInt64.ne_of_lt (hlt hR))⟩)
      rintro ⟨R, hR, -, hmaxR⟩
      exact UInt64.not_lt.mpr (hmaxR best.pos hmem best.record hbrec) (hlt hR)
  refine .bind (hback d hd 16 240 (by decide)) ?_
  rintro ⟨_, rest⟩ d ⟨hd, rfl, hrest⟩
  refine .ite (fun hr => .pure ⟨hd, .skip h ?_ ?_⟩) fun hr => ?_
  · exact Option.eq_none_iff_forall_not_mem.mpr fun R hR => hr (Contents.record_eq_some.mp hR).2.1
  · exact iff_of_true rfl (.inr (.inr ⟨hid.1, hid.2, hr⟩))
  have hr : c.result (pos + 16) 240 = .ok := Decidable.not_not.mp hr
  obtain rfl : rest = c.bytes (pos + 16) 240 := hrest hr
  rw [Contents.bytes_append, show 16 + 240 = kRecordSize from rfl]
  cases hdec : decode (c.bytes pos kRecordSize) with
  | none =>
    refine .pure ⟨hd, Visits.skip h ?_ ?_⟩
    · refine Option.eq_none_iff_forall_not_mem.mpr fun R hR => ?_
      obtain ⟨-, -, hsome, rfl⟩ := Contents.record_eq_some.mp hR
      rw [hdec] at hsome
      cases hsome
    · refine ⟨.inl, fun hf => hf.elim id ?_⟩
      rintro (hf | hf)
      · exact absurd hh hf
      · exact absurd hr hf.2.2
  | some t =>
    have hrec : c.record pos = some (c.bytes pos kRecordSize) :=
      Contents.record_eq_some.mpr ⟨hh, hr, by rw [hdec]; rfl, rfl⟩
    have hmeet := Visits.meet h hrec hdec fun best hb hlt => hlow (by
      rw [hb, Option.any_some, decide_eq_true_eq, (Contents.record_header hrec).2.2, ← sequenceOf_eq (h.some best hb).1]
      exact hlt)
    cases hb : scan.best with
    | none =>
      rw [hb] at hmeet
      exact .pure ⟨hd, hmeet⟩
    | some best =>
      rw [hb] at hmeet
      simp only at hmeet
      refine .ite (fun hc => ?_) fun hc => .ite (fun hgt => ?_) fun hgt => ?_
      · rw [if_pos hc] at hmeet
        exact .pure ⟨hd, hmeet⟩
      · rw [if_neg hc, if_pos hgt] at hmeet
        exact .pure ⟨hd, hmeet⟩
      · rw [if_neg hc, if_neg hgt] at hmeet
        exact .pure ⟨hd, hmeet⟩

theorem conflicts_append :
    c.Conflicts (slots ++ [pos]) ↔ c.Conflicts slots ∨ c.Clash slots pos := by
  constructor
  · rintro ⟨before, p, after, heq, hclash⟩
    rcases List.eq_nil_or_concat after with rfl | ⟨after', x, rfl⟩
    · obtain ⟨rfl, hp⟩ := List.append_inj' heq rfl
      obtain rfl := List.singleton_inj.mp hp
      exact .inr hclash
    · rw [List.concat_eq_append, ← List.cons_append, ← List.append_assoc] at heq
      obtain ⟨rfl, -⟩ := List.append_inj' heq rfl
      exact .inl ⟨before, p, after', rfl, hclash⟩
  · rintro (⟨before, p, after, rfl, hclash⟩ | hclash)
    · exact ⟨before, p, after ++ [pos], by simp, hclash⟩
    · exact ⟨slots, pos, [], rfl, hclash⟩

/-- **The scan**: it meets a conflict exactly if there is one, and otherwise visits every slot. -/
theorem wp_visits (L : List Nat) : (∀ p ∈ L, c.Backs flash C K p) →
    ∀ {slots : List Nat} {scan : Scan} {d : σ}, ¬c.Conflicts slots → Visited c slots scan → K d →
    Wp (scanRecords flash L scan) C (fun a d' => K d' ∧
      (a.1 = true ∧ a.2.best ≠ none ∧ c.Conflicts (slots ++ L) ∨
        a.1 = false ∧ ¬c.Conflicts (slots ++ L) ∧ Visited c (slots ++ L) a.2)) d := by
  induction L with
  | nil =>
    intro _ slots scan d hno h hd
    rw [List.append_nil]
    exact .pure ⟨hd, .inr ⟨rfl, hno, h⟩⟩
  | cons pos L ih =>
    intro hback slots scan d hno h hd
    refine .bind (wp_visit h (hback pos List.mem_cons_self) hd) ?_
    rintro _ d ⟨hd, ⟨hbest, hclash⟩ | ⟨hclash, h'⟩⟩
    · refine .ite (fun _ => .pure ⟨hd, .inl ⟨rfl, hbest, ?_⟩⟩) fun hf => absurd rfl hf
      exact ⟨slots, pos, L, rfl, hclash⟩
    · refine .ite nofun fun _ => ?_
      have hno' : ¬c.Conflicts (slots ++ [pos]) := fun hc => (conflicts_append.mp hc).elim hno hclash
      rw [List.append_cons]
      exact ih (fun p hp => hback p (List.mem_cons_of_mem _ hp)) hno' h' hd

/-! ## The answer -/

variable {layout : Layout}

/-- The slots of both metadata sectors, in the order of the scan. -/
def Layout.slotsOf (layout : Layout) : List Nat := layout.records 0 ++ layout.records 1

/-- What `load` answers about the contents. -/
structure Answers (c : Contents) (slots : List Nat) (status : Status) (snapshot : Snapshot) (latest : Nat) : Prop where
  ok : status = .ok → ∃ R, decode R = some snapshot ∧ c.Newest slots latest R
  notFound : status = .notFound ↔ (∀ p ∈ slots, c.record p = none) ∧ ∀ p ∈ slots, ¬c.Fails p
  ioError : status = .ioError ↔ (∀ p ∈ slots, c.record p = none) ∧ ∃ p ∈ slots, c.Fails p
  checksumError : status = .checksumError ↔ c.Conflicts slots
  only : status = .ok ∨ status = .notFound ∨ status = .ioError ∨ status = .checksumError

theorem Contents.Conflicts.record (h : c.Conflicts slots) :
    ∃ p ∈ slots, ∃ R, c.record p = some R := by
  obtain ⟨before, p, after, rfl, R, hR, -⟩ := h
  exact ⟨p, by simp, R, hR⟩

/-- **`load`**, when the poll leaves an idle flash that stands still. -/
theorem wp_load_backed {j : Journal} {Q : Status × Snapshot × Journal → σ → Prop} (hvalid : layout.valid = true)
    (hpoll : Wp flash.poll C (fun r d => r = .busy ∧ Q (.busy, {}, j) d ∨ r ≠ .busy ∧ ∃ c K, K d ∧
      (∀ p ∈ layout.slotsOf, Contents.Backs c flash C K p) ∧ ∀ r s p d, K d →
        Answers c layout.slotsOf r s p → Q (r, s, { j with latest := p }) d) d) :
    Wp (j.load flash layout) C Q d := by
  refine .ite (fun h => absurd hvalid h) fun _ => .bind hpoll ?_
  rintro r d (⟨rfl, hQ⟩ | ⟨hr, c, K, hd, hback, hQ⟩)
  · exact .ite (fun _ => .pure hQ) fun h => absurd rfl h
  refine .ite (fun h => absurd h hr) fun _ => ?_
  have hvisited : Visited c [] {} := ⟨fun _ => ⟨nofun, iff_of_false nofun nofun⟩, fun best hb => by cases hb⟩
  have hfree : ¬c.Conflicts [] := by
    rintro ⟨before, pos, after, h, -⟩
    simp at h
  refine .bind (wp_visits layout.slotsOf hback hfree hvisited hd) ?_
  rintro ⟨conflict, scan⟩ d ⟨hd, h⟩
  rw [List.nil_append] at h
  simp only at h ⊢
  rcases h with ⟨rfl, hbest, hconf⟩ | ⟨rfl, hconf, hscan⟩
  · obtain ⟨best, hb⟩ := Option.ne_none_iff_exists'.mp hbest
    obtain ⟨p, hp, R, hR⟩ := hconf.record
    have hsome : ¬∀ p ∈ layout.slotsOf, c.record p = none := fun hnone => by
      rw [hnone p hp] at hR
      cases hR
    rw [hb]
    refine .ite (fun _ => .pure (hQ _ _ _ d hd ?_)) fun hf => absurd rfl hf
    exact { ok := nofun, notFound := iff_of_false nofun fun h => hsome h.1, ioError := iff_of_false nofun fun h => hsome h.1,
            checksumError := iff_of_true rfl hconf, only := .inr (.inr (.inr rfl)) }
  · cases hb : scan.best with
    | none =>
      obtain ⟨hnone, hread⟩ := hscan.none hb
      refine .pure (hQ _ _ j.latest d hd ?_)
      split
      · next hf =>
        have hfail := hread.mp hf
        exact { ok := nofun, notFound := iff_of_false nofun fun h => hfail.elim fun p hp => h.2 p hp.1 hp.2,
                ioError := iff_of_true rfl ⟨hnone, hfail⟩, checksumError := iff_of_false nofun hconf,
                only := .inr (.inr (.inl rfl)) }
      · next hf =>
        have hfail : ∀ p ∈ layout.slotsOf, ¬c.Fails p := fun p hp hpf => hf (hread.mpr ⟨p, hp, hpf⟩)
        exact { ok := nofun, notFound := iff_of_true rfl ⟨hnone, hfail⟩,
                ioError := iff_of_false nofun fun h => h.2.elim fun p hp => hfail p hp.1 hp.2,
                checksumError := iff_of_false nofun hconf, only := .inr (.inl rfl) }
    | some best =>
      obtain ⟨hdec, hnew⟩ := hscan.some best hb
      have hsome : ¬∀ p ∈ layout.slotsOf, c.record p = none := fun hnone => by
        have := hnew.2.1
        rw [hnone best.pos hnew.1] at this
        cases this
      refine .ite nofun fun _ => .pure (hQ _ _ _ d hd ?_)
      exact { ok := fun _ => ⟨best.record, hdec, hnew⟩, notFound := iff_of_false nofun fun h => hsome h.1,
              ioError := iff_of_false nofun fun h => hsome h.1, checksumError := iff_of_false nofun hconf,
              only := .inl rfl }

end backed

/-- **`load`** on a flash that is idle and stands still. -/
theorem wp_answers (hvalid : layout.valid = true) (c : Contents) (hidle : poll ≠ .busy)
    (executing : Option Nat) (j : Journal) :
    Wp (j.load (c.flash poll executing) layout) (fun _ => False)
      (fun a _ => Answers c layout.slotsOf a.1 a.2.1 a.2.2.latest) () :=
  wp_load_backed hvalid (.pure (.inr ⟨hidle, c, fun _ => True, trivial,
    fun _ _ _ _ _ _ _ => .pure ⟨trivial, rfl, fun _ => rfl⟩, fun _ _ _ _ _ h => h⟩))

/-! ## The records and their places -/

/-- The committed records of the slots. -/
def Contents.records (c : Contents) (slots : List Nat) : List Bytes := slots.filterMap c.record

def Top (rs : List Bytes) (R : Bytes) : Prop := R ∈ rs ∧ ∀ S ∈ rs, sequenceOf S ≤ sequenceOf R

/-- The records decide the answer of `load` wherever they are: those of the highest sequence differ, or
those of one sequence are always the same. -/
def Decisive (rs : List Bytes) : Prop :=
  (∃ R S, Top rs R ∧ Top rs S ∧ R ≠ S) ∨ ∀ R ∈ rs, ∀ S ∈ rs, sequenceOf R = sequenceOf S → R = S

theorem Contents.mem_records : R ∈ c.records slots ↔ ∃ p ∈ slots, c.record p = some R :=
  List.mem_filterMap

theorem Contents.records_cons (h : c.record p = some R) :
    c.records (p :: slots) = R :: c.records slots :=
  List.filterMap_cons_some h

/-- The newest record is of the highest sequence, and all of that sequence are the same. -/
theorem Contents.Newest.top (h : c.Newest slots pos R) :
    Top (c.records slots) R ∧ ∀ S, Top (c.records slots) S → S = R := by
  have hR : R ∈ c.records slots := Contents.mem_records.mpr ⟨pos, h.1, h.2.1⟩
  refine ⟨⟨hR, fun S hS => ?_⟩, fun S hS => ?_⟩
  · obtain ⟨q, hq, hrec⟩ := Contents.mem_records.mp hS
    exact (h.2.2 q hq S hrec).1
  · obtain ⟨q, hq, hrec⟩ := Contents.mem_records.mp hS.1
    obtain ⟨hle, heq⟩ := h.2.2 q hq S hrec
    exact heq (UInt64.le_antisymm hle (hS.2 R hR))

/-- Records that decide the answer: there is a conflict exactly if those of the highest sequence differ. -/
theorem Answers.decisive (h : Answers c slots status snapshot latest)
    (hdec : Decisive (c.records slots)) (hne : c.records slots ≠ []) :
    status = .checksumError ∧ (∃ R S, Top (c.records slots) R ∧ Top (c.records slots) S ∧ R ≠ S) ∨
      status = .ok ∧ ∃ R, decode R = some snapshot ∧ Top (c.records slots) R ∧
        ∀ S, Top (c.records slots) S → S = R := by
  obtain ⟨R₀, hR₀⟩ := List.exists_mem_of_ne_nil _ hne
  obtain ⟨p₀, hp₀, hrec₀⟩ := Contents.mem_records.mp hR₀
  have hsome : ¬∀ p ∈ slots, c.record p = none := fun hnone => by
    rw [hnone p₀ hp₀] at hrec₀
    cases hrec₀
  rcases h.only with hs | hs | hs | hs
  · obtain ⟨R, hd, hnew⟩ := h.ok hs
    exact .inr ⟨hs, R, hd, hnew.top⟩
  · exact absurd (h.notFound.mp hs).1 hsome
  · exact absurd (h.ioError.mp hs).1 hsome
  · refine .inl ⟨hs, hdec.resolve_right fun hsame => ?_⟩
    obtain ⟨before, p, after, rfl, R, hR, ⟨q, hq, S, hS, hseq, hdiff⟩, -⟩ := h.checksumError.mp hs
    refine hdiff (hsame S ?_ R ?_ hseq)
    · exact Contents.mem_records.mpr ⟨q, List.mem_append_left _ hq, hS⟩
    · exact Contents.mem_records.mpr ⟨p, by simp, hR⟩

theorem Top.perm {rs' : List Bytes} (h : Top rs R) (hp : rs.Perm rs') : Top rs' R :=
  ⟨hp.mem_iff.mp h.1, fun S hS => h.2 S (hp.mem_iff.mpr hS)⟩

/-- Two contents with the same records get the same answer, if the records decide it. -/
theorem Answers.unique {c' : Contents} {status' : Status} {snapshot' : Snapshot} {latest' : Nat}
    (h : Answers c slots status snapshot latest) (h' : Answers c' slots status' snapshot' latest')
    (hperm : (c.records slots).Perm (c'.records slots)) (hdec : Decisive (c.records slots))
    (hne : c.records slots ≠ []) : status = status' ∧ (status = .ok → snapshot = snapshot') := by
  have hdec' : Decisive (c'.records slots) := by
    rcases hdec with ⟨R, S, hR, hS, hdiff⟩ | hsame
    · exact .inl ⟨R, S, hR.perm hperm, hS.perm hperm, hdiff⟩
    · exact .inr fun R hR S hS => hsame R (hperm.mem_iff.mpr hR) S (hperm.mem_iff.mpr hS)
  have hne' : c'.records slots ≠ [] := fun he => hne (he ▸ hperm).eq_nil
  rcases h.decisive hdec hne with ⟨hs, R, S, hR, hS, hdiff⟩ | ⟨hs, R, hd, hR, hall⟩
  · rcases h'.decisive hdec' hne' with ⟨hs', -⟩ | ⟨-, R', -, hR', hall'⟩
    · exact ⟨hs.trans hs'.symm, fun hok => by rw [hs] at hok; cases hok⟩
    · exact absurd ((hall' R (hR.perm hperm)).trans (hall' S (hS.perm hperm)).symm) hdiff
  · rcases h'.decisive hdec' hne' with ⟨-, R', S', hR', hS', hdiff⟩ | ⟨hs', R', hd', hR', hall'⟩
    · exact absurd ((hall R' (hR'.perm hperm.symm)).trans (hall S' (hS'.perm hperm.symm)).symm) hdiff
    · obtain rfl := hall' R (hR.perm hperm)
      exact ⟨hs.trans hs'.symm, fun _ => Option.some.inj (hd.symm.trans hd')⟩

/-- **`load` meets its specification.** For every valid layout, and every contents of an idle flash with any
of its reads failing, `load` returns, with the answer that `Answers` describes; and it gives two contents
with the same records the same answer, if there is a record and the records decide it. -/
theorem load_meets_spec (layout : Layout) (hvalid : layout.valid = true) :
    ∀ (c : Contents) (poll : Status) (executing : Option Nat) (j : Journal), poll ≠ .busy →
      ∃ status snapshot j', j.load (c.flash poll executing) layout () = (some (status, snapshot, j'), ()) ∧
        Answers c layout.slotsOf status snapshot j'.latest ∧
        ∀ (c' : Contents) (poll' : Status) (executing' : Option Nat) (i : Journal), poll' ≠ .busy →
          (c.records layout.slotsOf).Perm (c'.records layout.slotsOf) → c.records layout.slotsOf ≠ [] →
          Decisive (c.records layout.slotsOf) →
          ∃ snapshot' i', i.load (c'.flash poll' executing') layout () = (some (status, snapshot', i'), ()) ∧
            (status = .ok → snapshot = snapshot') := by
  intro c poll executing j hidle
  obtain ⟨⟨status, snapshot, j'⟩, _, hrun, hans⟩ := (wp_answers hvalid c hidle executing j).returns
  refine ⟨status, snapshot, j', hrun, hans, fun c' poll' executing' i hidle' hperm hne hdec => ?_⟩
  obtain ⟨⟨status', snapshot', i'⟩, _, hrun', hans'⟩ := (wp_answers hvalid c' hidle' executing' i).returns
  obtain ⟨rfl, hok⟩ := hans.unique hans' hperm hdec hne
  exact ⟨snapshot', i', hrun', hok⟩

/-- A readable flash with these records from address 0 on. -/
def Contents.holding (rs : List Bytes) : Contents where
  cells x := (rs.getD (x / kRecordSize) []).getD (x % kRecordSize) 0xff
  result _ _ := .ok

theorem Contents.record_holding {w : UInt32} (hs : s.Storable) (k : Nat)
    (h : rs.getD k [] = encode s w) :
    (Contents.holding rs).record (256 * k) = some (encode s w) := by
  refine Contents.record_eq_some.mpr ⟨rfl, rfl, by rw [decode_encode hs]; rfl, ?_⟩
  have hlen := length_encode s w
  refine List.ext_getElem ?_ fun x hx _ => ?_
  · rw [hlen, Contents.bytes, List.length_map, List.length_range, kRecordSize]
  · simp only [Contents.bytes, Contents.holding, List.getElem_map, List.getElem_range, kRecordSize]
    rw [show (256 * k + x) / 256 = k by omega, show (256 * k + x) % 256 = x by omega, h, List.getD_eq_getElem?_getD,
      List.getElem?_eq_getElem hx, Option.getD_some]

/-- The records of four snapshots in the slots of the smallest layout. -/
theorem Contents.records_holding {s₀ s₁ s₂ s₃ : Snapshot} (h₀ : s₀.Storable) (h₁ : s₁.Storable)
    (h₂ : s₂.Storable) (h₃ : s₃.Storable) :
    (Contents.holding [encode s₀ 16, encode s₁ 16, encode s₂ 16, encode s₃ 16]).records
      (tinyLayout 512 16).slotsOf = [encode s₁ 16, encode s₀ 16, encode s₃ 16, encode s₂ 16] := by
  rw [show (tinyLayout 512 16).slotsOf = [256 * 1, 256 * 0, 256 * 3, 256 * 2] by decide,
    records_cons (record_holding h₁ 1 rfl), records_cons (record_holding h₀ 0 rfl),
    records_cons (record_holding h₃ 3 rfl), records_cons (record_holding h₂ 2 rfl)]
  rfl

theorem Contents.Newest.not_conflicts (h : c.Newest (p :: slots) p R) :
    ¬c.Conflicts (p :: slots) := by
  rintro ⟨before, q, after, heq, S, hS, ⟨q', hq', S', hS', hseq, hne⟩, hmax⟩
  obtain ⟨-, hR, hnew⟩ := h
  have hp : p ∈ before := by
    cases before with
    | nil => cases hq'
    | cons p' before =>
      obtain ⟨rfl, -⟩ := List.cons.inj heq
      exact List.mem_cons_self
  obtain ⟨hle, heqS⟩ := hnew q (by rw [heq]; simp) S hS
  have hsame : sequenceOf S = sequenceOf R := UInt64.le_antisymm hle (hmax p hp R hR)
  have hS'R := (hnew q' (by rw [heq]; exact List.mem_append_left _ hq') S' hS').2 (hseq.trans hsame)
  exact hne (hS'R.trans (heqS hsame).symm)

/-- The first record, a rival of its sequence, and a second record. -/
def early : Snapshot := { sequence := 1 }

def rival : Snapshot := { sequence := 1, counter := 1 }

def late : Snapshot := { sequence := 2 }

theorem early_storable : early.Storable := ⟨by decide, by decide, by decide⟩

theorem rival_storable : rival.Storable := ⟨by decide, by decide, by decide⟩

theorem late_storable : late.Storable := ⟨by decide, by decide, by decide⟩

/-- The scan meets the rivals before the newest record, or after it. -/
def rivalsFirst : Contents := .holding [encode early 16, encode rival 16, encode late 16, encode late 16]

def rivalsLast : Contents := .holding [encode early 16, encode late 16, encode late 16, encode rival 16]

theorem sequenceOf_encode (h : s.Storable) (w : UInt32) : sequenceOf (encode s w) = s.sequence :=
  (sequenceOf_eq (decode_encode h w)).trans rfl

theorem load_meets_spec_copies :
    let c := Contents.holding [encode early 16, encode late 16, encode late 16, encode early 16]
    let c' := Contents.holding [encode late 16, encode early 16, encode early 16, encode late 16]
    ∃ status snapshot snapshot' j i, Journal.load (c.flash .ok none) (tinyLayout 512 16) {} () =
        (some (status, snapshot, j), ()) ∧ Journal.load (c'.flash .ok (some 1)) (tinyLayout 512 16) {} () =
        (some (status, snapshot', i), ()) ∧ (status = .ok → snapshot = snapshot') := by
  intro c c'
  obtain ⟨status, snapshot, j, hrun, -, hplace⟩ :=
    load_meets_spec (tinyLayout 512 16) (by decide) c .ok none {} (by decide)
  have hrec : c.records (tinyLayout 512 16).slotsOf = [encode late 16, encode early 16] ++ [encode early 16, encode late 16] :=
    Contents.records_holding early_storable late_storable late_storable early_storable
  have hrec' : c'.records (tinyLayout 512 16).slotsOf = [encode early 16, encode late 16] ++ [encode late 16, encode early 16] :=
    Contents.records_holding late_storable early_storable early_storable late_storable
  rw [hrec] at hplace
  have hearly : sequenceOf (encode early 16) = 1 := sequenceOf_encode early_storable 16
  have hlate : sequenceOf (encode late 16) = 2 := sequenceOf_encode late_storable 16
  have hdec : Decisive ([encode late 16, encode early 16] ++ [encode early 16, encode late 16]) :=
    .inr (by simp [hearly, hlate])
  obtain ⟨snapshot', i, hrun', hok⟩ := hplace c' .ok (some 1) {} (by decide) (hrec' ▸ List.perm_append_comm)
    (by simp) hdec
  exact ⟨status, snapshot, snapshot', j, i, hrun, hrun', hok⟩

/-- The same records get different answers. And without a record the answer tells whether a read failed. -/
theorem load_misses_spec :
    ((rivalsFirst.records (tinyLayout 512 16).slotsOf).Perm (rivalsLast.records (tinyLayout 512 16).slotsOf) ∧
      ∃ r r', Journal.load (rivalsFirst.flash .ok none) (tinyLayout 512 16) {} () = (some r, ()) ∧
        Journal.load (rivalsLast.flash .ok none) (tinyLayout 512 16) {} () = (some r', ()) ∧
        r.1 = .checksumError ∧ r'.1 = .ok) ∧
    ((Journal.load ((Contents.holding []).flash .ok none) (tinyLayout 512 16) {} ()).1.map (·.1) = some .notFound ∧
      (Journal.load ({ Contents.holding [] with result := fun _ _ => .ioError }.flash .ok none) (tinyLayout 512 16) {}
        ()).1.map (·.1) = some .ioError) := by
  have hearly : sequenceOf (encode early 16) = 1 := sequenceOf_encode early_storable 16
  have hrival : sequenceOf (encode rival 16) = 1 := sequenceOf_encode rival_storable 16
  have hlate : sequenceOf (encode late 16) = 2 := sequenceOf_encode late_storable 16
  have hslots : (tinyLayout 512 16).slotsOf = [256, 0, 768, 512] := by decide
  have hvalid : (tinyLayout 512 16).valid = true := by decide
  have hfirst : rivalsFirst.records (tinyLayout 512 16).slotsOf = _ :=
    Contents.records_holding early_storable rival_storable late_storable late_storable
  have hlast : rivalsLast.records (tinyLayout 512 16).slotsOf = _ :=
    Contents.records_holding early_storable late_storable late_storable rival_storable
  obtain ⟨r, _, hrun, hans⟩ := (wp_answers hvalid rivalsFirst (show Status.ok ≠ .busy by decide) none {}).returns
  obtain ⟨r', _, hrun', hans'⟩ := (wp_answers hvalid rivalsLast (show Status.ok ≠ .busy by decide) none {}).returns
  refine ⟨⟨?_, r, r', hrun, hrun', ?_, ?_⟩, by decide +kernel⟩
  · rw [hfirst, hlast]
    exact (List.reverse_perm [encode late 16, encode early 16, encode rival 16]).append_right [encode late 16]
  · have f0 : rivalsFirst.record 0 = some (encode early 16) := Contents.record_holding early_storable 0 rfl
    have f1 : rivalsFirst.record 256 = some (encode rival 16) := Contents.record_holding rival_storable 1 rfl
    have hdiff : encode rival 16 ≠ encode early 16 := by
      intro he
      have := (decode_encode rival_storable 16).symm.trans ((congrArg decode he).trans (decode_encode early_storable 16))
      exact absurd (congrArg Snapshot.counter (Option.some.inj this)) (by decide)
    rw [hslots] at hans
    refine hans.checksumError.mpr ⟨[256], 0, [768, 512], rfl, _, f0, ⟨256, by simp, _, f1, ?_, hdiff⟩, ?_⟩
    · rw [hearly, hrival]
    · simp [f1, hearly, hrival]
  · have l1 : rivalsLast.record 256 = some (encode late 16) := Contents.record_holding late_storable 1 rfl
    have hnew : rivalsLast.Newest (tinyLayout 512 16).slotsOf 256 (encode late 16) := by
      refine ⟨by rw [hslots]; simp, l1, fun q hq S hS => ?_⟩
      have hmem := Contents.mem_records.mpr ⟨q, hq, hS⟩
      rw [hlast] at hmem
      simp only [List.mem_cons, List.not_mem_nil, or_false] at hmem
      rcases hmem with rfl | rfl | rfl | rfl <;> simp [hearly, hrival, hlate]
    rcases hans'.only with h | h | h | h
    · exact h
    · exact absurd ((hans'.notFound.mp h).1 256 hnew.1) (by rw [l1]; exact nofun)
    · exact absurd ((hans'.ioError.mp h).1 256 hnew.1) (by rw [l1]; exact nofun)
    · rw [hslots] at hans' hnew
      exact absurd (hans'.checksumError.mp h) hnew.not_conflicts

end DaveOs.Boot
