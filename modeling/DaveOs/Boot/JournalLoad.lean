import DaveOs.Boot.JournalSound
import DaveOs.Boot.LoadSpec

/-!
# What the journal reads

The flash is steady where the metadata lies: a read there fails only where a cell cannot be read.
Then `load` finds the newest snapshot and the place of one of its records (`wp_load`), and the scans
for an erased slot answer an erased slot of their range (`wp_findErased`).

Both leave the flash as it is. The poll at the start of `load` is the exception: it may end an
operation that was left in progress, completed or torn (`Outcome`).
-/

namespace DaveOs.Boot

open Bytes Wire Crash

variable (layout : Layout)
variable {cells : Cells} {P : List Nat} {scan scan' : Scan} {pos : Nat}

/-- `x` lies in a metadata sector. -/
def Layout.InMetadata (x : Nat) : Prop :=
  ∃ i, i < 2 ∧ layout.bank i ≤ x ∧ x < layout.bank i + layout.sector

/-- Reads of the metadata fail only where a cell cannot be read. -/
def Medium.Steady (m : Medium) : Prop :=
  ∀ e, m.May e → ∀ x, m.layout.InMetadata x → e.read x = .ok

/-- What the operation in progress may leave in the flash. -/
def Outcome (mem : Memory) (cells' : Cells) : Prop :=
  match mem.pending with
  | none => cells' = mem.cells
  | some op => Leaves layout op mem.cells cells'

/-- However the operation in progress ends, the newest snapshot is one of `S`. -/
def Held (mem : Memory) (S : Snapshot → Prop) : Prop :=
  ∀ cells', Outcome layout mem cells' → ∃ s, S s ∧ Sound layout cells' s

section

variable {layout} {cells : Cells} {p i : Nat} {t : Snapshot} {header rest bs : Bytes}
variable {mem : Memory} {S : Snapshot → Prop}

theorem Layout.InBank.metadata (hl : layout.Valid) (hp : layout.InBank i p) {x : Nat}
    (hx : x < 256) : layout.InMetadata (p + x) := by
  have := hp.inside hl
  exact ⟨i, hp.1, by omega, by omega⟩

theorem outcome_idle (h : mem.pending = none) : Outcome layout mem mem.cells := by
  unfold Outcome
  rw [h]

theorem outcome_same {mem' : Memory} (hp : mem.pending = none) (hp' : mem'.pending = none)
    (h : Outcome layout mem mem'.cells) : mem' = mem := by
  rw [Outcome, hp] at h
  exact Memory.ext h (hp'.trans hp.symm)

theorem Held.mono {S' : Snapshot → Prop} (h : Held layout mem S) (hS : ∀ s, S s → S' s) :
    Held layout mem S' := by
  intro cells' ho
  obtain ⟨s, hs, hsound⟩ := h cells' ho
  exact ⟨s, hS s hs, hsound⟩

theorem Held.of_sound {s : Snapshot} (hp : mem.pending = none) (hs : S s)
    (h : Sound layout mem.cells s) : Held layout mem S := by
  intro cells' ho
  unfold Outcome at ho
  rw [hp] at ho
  subst ho
  exact ⟨s, hs, h⟩

end

/-! ## Programs that only read -/

section reads

variable {m : Medium} {α β : Type} {d : Device m}
variable {x : Crash (Device m) α} {P : α → Prop}

/-- From `d`, the program answers in `P`, or is cut short, and leaves the memory as it is. -/
def Reads (x : Crash (Device m) α) (P : α → Prop) (d : Device m) : Prop :=
  Wp x (fun d' => d'.toMemory = d.toMemory) (fun a d' => d'.toMemory = d.toMemory ∧ P a) d

theorem Reads.wp {C : Device m → Prop} {Q : α → Device m → Prop} (h : Reads x P d)
    (hC : ∀ d', d'.toMemory = d.toMemory → C d')
    (hQ : ∀ a d', d'.toMemory = d.toMemory → P a → Q a d') : Wp x C Q d :=
  h.mono hC fun a d' h => hQ a d' h.1 h.2

theorem Reads.pure {a : α} (h : P a) : Reads (Pure.pure a) P d :=
  Wp.pure ⟨rfl, h⟩

theorem Reads.conseq {P' : α → Prop} (h : Reads x P d) (hP : ∀ a, P a → P' a) : Reads x P' d :=
  Wp.conseq h fun _ _ h => ⟨h.1, hP _ h.2⟩

theorem Reads.bind {f : α → Crash (Device m) β} {R : β → Prop} (h : Reads x P d)
    (hf : ∀ a d', d'.toMemory = d.toMemory → P a → Reads (f a) R d') : Reads (x >>= f) R d :=
  Wp.bind h fun a d' ha => (hf a d' ha.1 ha.2).mono (fun _ h => h.trans ha.1)
    fun _ _ h => ⟨h.1.trans ha.1, h.2⟩

theorem Reads.ite {c : Prop} [Decidable c] {y : Crash (Device m) α} (ht : c → Reads x P d)
    (hf : ¬c → Reads y P d) : Reads (if c then x else y) P d :=
  Wp.ite ht hf

theorem Reads.read {pos n : Nat} (hsteady : ∀ e, m.May e → e.read pos = .ok)
    (hp : d.pending = none) : Reads (Device.read pos n) (· = d.cells.answer pos n) d :=
  Device.wp_read_steady hsteady hp rfl fun _ hm => ⟨hm, rfl⟩

end reads

/-! ## Erased slots -/

/-- Slot `p` is erased. -/
def Blank (cells : Cells) (p : Nat) : Prop := ∀ x, x < kRecordSize → cells (p + x) = some 0xff

theorem blank_iff {p : Nat} : Blank cells p ↔
    ∃ header rest, cells.bytes p 16 = some header ∧ header.all (· == 0xff) = true ∧
      cells.bytes (p + 16) 240 = some rest ∧ rest.all (· == 0xff) = true := by
  have hall : ∀ (pos n : Nat), (∀ x, x < n → cells (pos + x) = some 0xff) ↔
      ∃ bs, cells.bytes pos n = some bs ∧ bs.all (· == 0xff) = true := by
    intro pos n
    constructor
    · intro h
      refine ⟨List.replicate n 0xff, Cells.bytes_eq_some.mpr ⟨List.length_replicate, ?_⟩, by simp⟩
      intro x hx
      rw [List.getElem?_replicate, if_pos hx, h x hx]
    · rintro ⟨bs, hbs, hff⟩ x hx
      obtain ⟨hl, hb⟩ := Cells.bytes_eq_some.mp hbs
      rw [hb x hx, List.getElem?_eq_getElem (by omega)]
      congr 1
      simpa using List.all_eq_true.mp hff _ (List.getElem_mem (by omega))
  constructor
  · intro h
    obtain ⟨header, h1, h2⟩ := (hall p 16).mp fun x hx => h x (by simp only [kRecordSize]; omega)
    obtain ⟨rest, h3, h4⟩ := (hall (p + 16) 240).mp fun x hx => by
      rw [Nat.add_assoc]
      exact h (16 + x) (by simp only [kRecordSize]; omega)
    exact ⟨header, rest, h1, h2, h3, h4⟩
  · rintro ⟨header, rest, h1, h2, h3, h4⟩ x hx
    simp only [kRecordSize] at hx
    rcases Nat.lt_or_ge x 16 with h | h
    · exact (hall p 16).mpr ⟨header, h1, h2⟩ x h
    · have := (hall (p + 16) 240).mpr ⟨rest, h3, h4⟩ (x - 16) (by omega)
      rwa [Nat.add_assoc, Nat.add_sub_cancel' h] at this

section scans

variable {m : Medium} {executing : Option Nat} {d : Device m} (hl : m.layout.Valid)
  (hsteady : m.Steady)
variable {i k : Nat}

include hl hsteady

theorem reads_erased {p : Nat} (hp : m.layout.InBank i p) (hidle : d.pending = none) :
    Reads (erased (Device.flash executing) p) (fun b => b = true ↔ Blank d.cells p) d := by
  have hst : ∀ x, x < 256 → ∀ e, m.May e → e.read (p + x) = .ok :=
    fun x hx e he => hsteady e he _ (hp.metadata hl hx)
  rw [blank_iff]
  refine Reads.bind (Reads.read (hst 0 (by decide)) hidle) ?_
  rintro _ d' hm rfl
  unfold Cells.answer
  cases hh : d.cells.bytes p 16 with
  | none => exact Reads.pure (iff_of_false (by decide) (by rintro ⟨_, _, ⟨⟩, _⟩))
  | some header =>
    refine Reads.ite (fun hff => ?_) fun hff => ?_
    · refine Reads.pure (iff_of_false (by decide) ?_)
      rintro ⟨_, _, ⟨⟩, h, _⟩
      exact hff.elim (fun h => h rfl) fun h' => h' h
    · refine Reads.bind (Reads.read (hst 16 (by decide)) (by rw [hm, hidle])) ?_
      rintro _ d'' - rfl
      rw [hm]
      unfold Cells.answer
      have hff := Decidable.not_not.mp fun h => hff (.inr h)
      cases hr : d.cells.bytes (p + 16) 240 with
      | none => exact Reads.pure (iff_of_false (by decide) (by rintro ⟨_, _, _, _, ⟨⟩, _⟩))
      | some rest =>
        refine Reads.pure ⟨fun h => ⟨header, rest, rfl, hff, rfl, by simpa using h⟩, ?_⟩
        rintro ⟨_, _, _, _, ⟨⟩, h⟩
        simpa using h

/-- **The scan for an erased slot** answers one of its range, or there is none. -/
theorem reads_findErased (hend : m.layout.bank i + m.layout.sector < 4294967296) (hi : i < 2)
    (hk : k ≤ m.layout.sector / kRecordSize) (hidle : d.pending = none) :
    Reads (findErased (Device.flash executing) (m.layout.bank i + kRecordSize * k)
        (m.layout.bank i + m.layout.sector))
      (fun r => match r with
        | some q => m.layout.InBank i q ∧ m.layout.bank i + kRecordSize * k ≤ q ∧ Blank d.cells q
        | none => ∀ q, m.layout.InBank i q → m.layout.bank i + kRecordSize * k ≤ q →
            ¬Blank d.cells q) d := by
  have hsec := hl.record_dvd
  refine Wp.loop (fun pos d' => d'.toMemory = d.toMemory ∧ ∃ k', k ≤ k' ∧
    k' ≤ m.layout.sector / kRecordSize ∧ pos = m.layout.bank i + kRecordSize * k' ∧
    ∀ q, m.layout.InBank i q → m.layout.bank i + kRecordSize * k ≤ q → q < pos →
      ¬Blank d.cells q) (fun _ _ h => h.1) ?_ ⟨rfl, k, Nat.le_refl _, hk, rfl, by omega⟩
  rintro _ d' ⟨hm, k', hkk, hk', rfl, hnone⟩
  simp only [kRecordSize] at *
  refine Wp.ite (fun hlt => ?_) fun hge => ?_
  · have hin : m.layout.InBank i (m.layout.bank i + 256 * k') := ⟨hi, k', by
      simp only [kRecordSize]; omega, rfl⟩
    have hidle' : d'.pending = none := by rw [hm, hidle]
    refine Wp.bind ((reads_erased hl hsteady hin hidle').wp (fun d'' h => h.trans hm)
      (Q := fun b d'' => d''.toMemory = d.toMemory ∧
        (b = true ↔ Blank d.cells (m.layout.bank i + 256 * k')))
      fun b d'' h hb => ⟨h.trans hm, by rw [hm] at hb; exact hb⟩) ?_
    rintro b d'' ⟨hm', hb⟩
    refine Wp.ite (fun hbt => ?_) fun hbf => ?_
    · exact Wp.pure ⟨hm', hin, by omega, hb.mp hbt⟩
    · refine Wp.pure ⟨hm', k' + 1, by omega, by omega, ?_, fun q hq h1 h2 hblank => ?_⟩
      · simp only [nextRecord, kRecordSize]
        omega
      · simp only [nextRecord, kRecordSize] at h2
        rw [Nat.mod_eq_of_lt (by omega)] at h2
        by_cases hqe : q < m.layout.bank i + 256 * k'
        · exact hnone q hq h1 hqe hblank
        · obtain ⟨-, k₂, -, rfl⟩ := hq
          simp only [kRecordSize] at *
          obtain rfl : k₂ = k' := by omega
          exact hbf (hb.mpr hblank)
  · refine Wp.pure ⟨hm, fun q hq h1 => hnone q hq h1 ?_⟩
    have := hq.inside hl
    omega

theorem reads_allErased (hend : m.layout.bank i + m.layout.sector < 4294967296) (hi : i < 2)
    (hk : k ≤ m.layout.sector / kRecordSize) (hidle : d.pending = none) :
    Reads (Journal.allErased (Device.flash executing) (m.layout.bank i + kRecordSize * k)
      (m.layout.bank i + m.layout.sector)) (fun _ => True) d := by
  have hsec := hl.record_dvd
  refine Wp.loop (fun pos d' => d'.toMemory = d.toMemory ∧ ∃ k',
    k' ≤ m.layout.sector / kRecordSize ∧ pos = m.layout.bank i + kRecordSize * k')
    (fun _ _ h => h.1) ?_ ⟨rfl, k, hk, rfl⟩
  rintro _ d' ⟨hm, k', hk', rfl⟩
  simp only [kRecordSize] at *
  refine Wp.ite (fun hlt => ?_) fun _ => Wp.pure ⟨hm, trivial⟩
  have hin : m.layout.InBank i (m.layout.bank i + 256 * k') := ⟨hi, k', by
    simp only [kRecordSize]; omega, rfl⟩
  refine Wp.bind ((reads_erased hl hsteady hin (by rw [hm, hidle])).wp (fun d'' h => h.trans hm)
    (Q := fun _ d'' => d''.toMemory = d.toMemory) fun b d'' h _ => h.trans hm) ?_
  intro b d'' hm'
  refine Wp.ite (fun _ => ?_) fun _ => Wp.pure ⟨hm', trivial⟩
  refine Wp.pure ⟨hm', k' + 1, by omega, ?_⟩
  simp only [nextRecord, kRecordSize]
  omega

end scans

/-! ## Loading -/

/-- What a readable memory holds. -/
def Cells.contents (cells : Cells) : Contents where
  cells x := (cells x).getD 0
  result pos n := (cells.answer pos n).1

theorem Cells.answer_ok {n : Nat} : (cells.answer pos n).1 = .ok ↔ ∃ bs, cells.bytes pos n = some bs := by
  unfold Cells.answer
  cases cells.bytes pos n <;> simp

theorem Cells.bytes_contents {n : Nat} {bs : Bytes} (h : cells.bytes pos n = some bs) :
    cells.contents.bytes pos n = bs := by
  obtain ⟨hl, hb⟩ := Cells.bytes_eq_some.mp h
  refine List.ext_getElem (by simp [Contents.bytes, hl]) fun x hx hx' => ?_
  simp only [Contents.bytes, List.getElem_map, List.getElem_range, Cells.contents, hb x (by omega),
    List.getElem?_eq_getElem hx', Option.getD_some]

theorem Cells.record_contents {R : Bytes} : cells.contents.record pos = some R ↔
    cells.bytes pos kRecordSize = some R ∧ ∃ t, decode R = some t := by
  rw [Contents.record_eq_some, ← Option.isSome_iff_exists]
  constructor
  · rintro ⟨hh, hr, hd, rfl⟩
    obtain ⟨header, hh⟩ := Cells.answer_ok.mp hh
    obtain ⟨rest, hr⟩ := Cells.answer_ok.mp hr
    have hbytes : cells.bytes pos kRecordSize = some (header ++ rest) := Cells.bytes_append hh hr
    exact ⟨by rw [hbytes, Cells.bytes_contents hbytes], hd⟩
  · rintro ⟨hbytes, hd⟩
    obtain ⟨hh, hr⟩ := Cells.bytes_split (n := 16) (m := 240) hbytes
    exact ⟨Cells.answer_ok.mpr ⟨_, hh⟩, Cells.answer_ok.mpr ⟨_, hr⟩, hd, (Cells.bytes_contents hbytes).symm⟩

/-- The committed records are those of the snapshots. -/
theorem Cells.record_of_snapshot {t : Snapshot} (h : cells.snapshot pos = some t) :
    ∃ R, cells.contents.record pos = some R ∧ cells.bytes pos kRecordSize = some R ∧
      sequenceOf R = t.sequence := by
  obtain ⟨R, hR, hd⟩ := Cells.snapshot_eq_some.mp h
  exact ⟨R, Cells.record_contents.mpr ⟨hR, t, hd⟩, hR, sequenceOf_eq hd⟩

section load

variable {m : Medium} {executing : Option Nat} {d : Device m} (hl : m.layout.Valid)
  (hsteady : m.Steady)
variable {P : List Nat} {scan : Scan}

include hl hsteady

omit hl hsteady in
theorem wp_settle {C : Device m → Prop} {Q : Status → Device m → Prop} (hC : C d)
    (hbusy : ∀ d', d.pending ≠ none → d'.toMemory = d.toMemory → Q .busy d')
    (hend : ∀ r d', r ≠ .busy → d'.pending = none → Outcome m.layout d.toMemory d'.cells →
      Q r d') : Wp Device.poll C Q d := by
  refine Device.wp_poll hC ?_ ?_ ?_ ?_
  · intro d' hp hm
    refine hend .ok d' (by decide) (by rw [hm, hp]) ?_
    rw [hm]
    exact outcome_idle hp
  · intro op d' hp hm
    exact hbusy d' (by rw [hp]; exact Option.some_ne_none _) hm
  · intro op d' hp hm
    refine hend .ok d' (by decide) (by rw [hm]) ?_
    rw [Outcome, hp, hm]
    exact Operation.apply_leaves m.layout op d.cells
  · intro e op d' he hp _ hb hm
    refine hend e.poll d' hb (by rw [hm]) ?_
    rw [Outcome, hp, hm]
    exact e.torn_leaves op d.cells

omit hl hsteady in
theorem mem_records {p : Nat} :
    p ∈ m.layout.records 0 ++ m.layout.records 1 ↔ ∃ i, m.layout.InBank i p := by
  have hrec : ∀ i, p ∈ m.layout.records i ↔
      ∃ k, k < m.layout.sector / kRecordSize ∧ p = m.layout.bank i + kRecordSize * k := by
    intro i
    simp only [Layout.records, List.mem_map, List.mem_reverse, List.mem_range]
    constructor <;> rintro ⟨k, hk, h⟩ <;> exact ⟨k, hk, h.symm⟩
  rw [List.mem_append, hrec, hrec]
  constructor
  · rintro (h | h)
    · exact ⟨0, by decide, h⟩
    · exact ⟨1, by decide, h⟩
  · rintro ⟨i, hi, h⟩
    obtain rfl | rfl : i = 0 ∨ i = 1 := by omega
    · exact .inl h
    · exact .inr h

/-- A memory in which the operation in progress, if any, may have ended. -/
def After (layout : Layout) (mem mem' : Memory) : Prop :=
  mem' = mem ∨ mem'.pending = none ∧ Outcome layout mem mem'.cells

theorem backs_cells {C : Device m → Prop} (hidle : d.pending = none)
    (hC : ∀ d' : Device m, d'.toMemory = d.toMemory → C d') : ∀ p ∈ m.layout.slotsOf,
    d.cells.contents.Backs (Device.flash executing) C (fun d' => d'.toMemory = d.toMemory) p := by
  intro p hp d' hd' x n hx
  obtain ⟨i, hi⟩ := mem_records.mp hp
  refine Device.wp_read_steady (fun e he => hsteady e he _ (hi.metadata hl hx)) (by rw [hd', hidle])
    (hC d' hd') fun d'' hd'' => ?_
  rw [show d'.cells = d.cells by rw [hd']]
  refine ⟨hd''.trans hd', rfl, fun h => ?_⟩
  obtain ⟨bs, hbs⟩ := Cells.answer_ok.mp h
  rw [Cells.bytes_contents hbs, Cells.answer, hbs]

/-- `load` answers what the flash holds once the operation in progress has ended. -/
theorem wp_load_answers {j : Journal} {C : Device m → Prop}
    {Q : Status × Snapshot × Journal → Device m → Prop} (hvalid : m.layout.valid = true)
    (hC : ∀ d', After m.layout d.toMemory d'.toMemory → C d')
    (hbusy : ∀ d', d.pending ≠ none → d'.toMemory = d.toMemory → Q (.busy, {}, j) d')
    (hQ : ∀ r s p d', d'.pending = none → Outcome m.layout d.toMemory d'.cells →
      Answers d'.cells.contents m.layout.slotsOf r s p → Q (r, s, { j with latest := p }) d') :
    Wp (Journal.load (Device.flash executing) m.layout j) C Q d := by
  refine wp_load_backed hvalid (wp_settle (hC d (.inl rfl)) (fun d' hp hm => .inl ⟨rfl, hbusy d' hp hm⟩)
    fun r d' hr hp ho => .inr ⟨hr, d'.cells.contents, fun d'' => d''.toMemory = d'.toMemory, rfl,
      backs_cells hl hsteady hp fun d'' hm => hC d'' (.inr (by rw [hm]; exact ⟨hp, ho⟩)), ?_⟩)
  intro r s p d'' hm ha
  exact hQ r s p d'' (by rw [hm, hp]) (by rw [hm]; exact ho) (by rw [hm]; exact ha)

omit hl hsteady in
/-- An answer of ok is the newest snapshot. -/
theorem Answers.newest {cells : Cells} {cur : Snapshot} {p : Nat}
    (h : Answers cells.contents m.layout.slotsOf .ok cur p) :
    ∃ i, m.layout.InBank i p ∧ cells.snapshot p = some cur ∧
      ∀ i q t, m.layout.InBank i q → cells.snapshot q = some t → t.sequence ≤ cur.sequence := by
  obtain ⟨R, hd, hp, hrec, hmax⟩ := h.ok rfl
  obtain ⟨i, hi⟩ := mem_records.mp hp
  refine ⟨i, hi, ?_, fun i q t hq ht => ?_⟩
  · rw [Cells.snapshot_of_bytes (Cells.record_contents.mp hrec).1, hd]
  · obtain ⟨S, hS, -, hseq⟩ := Cells.record_of_snapshot ht
    rw [← hseq, ← sequenceOf_eq hd]
    exact (hmax q (mem_records.mpr ⟨i, hq⟩) S hS).1

omit hl hsteady in
/-- On a sound flash the answer is the newest snapshot. -/
theorem Answers.sound {cells : Cells} {r : Status} {cur s : Snapshot} {p : Nat}
    (h : Answers cells.contents m.layout.slotsOf r s p) (hsound : Sound m.layout cells cur) :
    r = .ok ∧ s = cur ∧ ∃ i, m.layout.InBank i p ∧ cells.snapshot p = some cur := by
  obtain ⟨i₀, p₀, hp₀, hc₀⟩ := hsound.present
  obtain ⟨R₀, hR₀, -⟩ := Cells.record_of_snapshot hc₀
  have hsome : ¬∀ p ∈ m.layout.slotsOf, cells.contents.record p = none := fun hnone => by
    rw [hnone p₀ (mem_records.mpr ⟨i₀, hp₀⟩)] at hR₀
    cases hR₀
  rcases h.only with rfl | rfl | rfl | rfl
  · obtain ⟨i, hi, hsn, hmax⟩ := h.newest
    have hcur : s = cur :=
      Sound.unique ⟨⟨i, p, hi, hsn⟩, hmax, hsound.same, hsound.version⟩ hsound
    exact ⟨rfl, hcur, i, hi, hcur ▸ hsn⟩
  · exact absurd (h.notFound.mp rfl).1 hsome
  · exact absurd (h.ioError.mp rfl).1 hsome
  · obtain ⟨before, q, after, hslots, R, hR, ⟨q', hq', S, hS, hseq, hne⟩, -⟩ := h.checksumError.mp rfl
    have hin : ∀ x ∈ before ++ q :: after, ∃ i, m.layout.InBank i x := fun x hx =>
      mem_records.mp (show x ∈ m.layout.slotsOf from hslots ▸ hx)
    obtain ⟨i, hi⟩ := hin q (by simp)
    obtain ⟨i', hi'⟩ := hin q' (List.mem_append_left _ hq')
    obtain ⟨hR, t, ht⟩ := Cells.record_contents.mp hR
    obtain ⟨hS, t', ht'⟩ := Cells.record_contents.mp hS
    rw [sequenceOf_eq ht, sequenceOf_eq ht'] at hseq
    have := hsound.same i' q' t' i q t hi' (Cells.snapshot_eq_some.mpr ⟨S, hS, ht'⟩) hi
      (Cells.snapshot_eq_some.mpr ⟨R, hR, ht⟩) hseq
    rw [hR, hS] at this
    exact absurd (Option.some.inj this) hne

/-- **Loading**: busy while an operation is in progress, and otherwise the newest snapshot, with the
journal pointed at one of its records. -/
theorem wp_load {j : Journal} {S : Snapshot → Prop} (hvalid : m.layout.valid = true)
    (hheld : Held m.layout d.toMemory S) :
    Wp (Journal.load (Device.flash executing) m.layout j)
      (fun d' => After m.layout d.toMemory d'.toMemory)
      (fun r d' =>
        (r = (.busy, {}, j) ∧ d.pending ≠ none ∧ d'.toMemory = d.toMemory) ∨
        (∃ cur p i, r = (.ok, cur, { j with latest := p }) ∧ S cur ∧ d'.pending = none ∧
          Outcome m.layout d.toMemory d'.cells ∧ Sound m.layout d'.cells cur ∧
          m.layout.InBank i p ∧ d'.cells.snapshot p = some cur)) d := by
  refine wp_load_answers hl hsteady hvalid (fun _ h => h) (fun d' hp hm => .inl ⟨rfl, hp, hm⟩) ?_
  intro r s p d' hp ho ha
  obtain ⟨cur, hS, hsound⟩ := hheld d'.cells ho
  obtain ⟨rfl, rfl, i, hi, hsn⟩ := ha.sound hsound
  exact .inr ⟨s, p, i, rfl, hS, hp, ho, hsound, hi, hsn⟩

end load

end DaveOs.Boot
