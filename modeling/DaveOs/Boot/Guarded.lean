import DaveOs.Boot.PowerLoss

/-!
# Snapshots and slots together

What the newest snapshot says about a slot has to agree with the slot's content at every moment, also
while a flash operation is in progress. `Guarded P` is that for a property `P` of snapshots and
cells: however the operation in progress ends there is a newest snapshot with `P`, and an operation
outside the metadata is in a slot whose image is not eligible.

`Policy` lists what an updater does to snapshots and slots; a property it keeps is kept by every
updater that does only this.
-/

namespace DaveOs.Boot

variable {i x : Nat}

open Bytes Crash

/-- `x` is an address of application slot `i`. -/
def Layout.InSlot (layout : Layout) (i x : Nat) : Prop :=
  layout.slot i ≤ x ∧ x < layout.slot i + layout.room

/-- Whether a boot may still run an image of this state. -/
def ImageState.eligible (s : ImageState) : Bool := s = .pending || s = .trial || s = .confirmed

/-- What is assumed of a flash: a valid layout whose metadata ends below 2^32, and reads of the
metadata that fail only where a cell cannot be read. -/
structure Medium.Regular (m : Medium) : Prop where
  valid : m.layout.valid = true
  ends : ∀ i, i < 2 → m.layout.bank i + m.layout.sector < 4294967296
  steady : m.Steady

theorem Medium.Regular.layout {m : Medium} (h : m.Regular) : m.layout.Valid :=
  Layout.valid.spec h.valid

theorem Layout.InSlot.not_metadata {layout : Layout} (hl : layout.Valid) (hi : i < 2)
    (h : layout.InSlot i x) : ¬layout.InMetadata x := by
  rintro ⟨j, hj, h1, h2⟩
  have := hl.slot_bank_apart i j hi hj
  obtain ⟨h3, h4⟩ := h
  omega

theorem Layout.InSlot.other {layout : Layout} (hl : layout.Valid) {j : Nat} (hi : i < 2)
    (hj : j < 2) (hne : i ≠ j) (h : layout.InSlot i x) : ¬layout.InSlot j x := by
  rintro ⟨h1, h2⟩
  have := hl.slots_apart
  obtain ⟨h3, h4⟩ := h
  obtain ⟨rfl, rfl⟩ | ⟨rfl, rfl⟩ : i = 0 ∧ j = 1 ∨ i = 1 ∧ j = 0 := by omega
  · omega
  · omega

/-- The image of slot `i` is there, intact and meant for this layout. -/
structure Verifies (layout : Layout) (cells : Cells) (i : Nat) (image : Image) : Prop where
  size_ne : image.size ≠ 0
  fits : image.size ≤ layout.slotSize
  product : image.product = layout.product
  revision : image.revision = layout.revision
  installation : image.installation ≠ 0
  content : ∃ bs, cells.bytes (layout.slot i) image.size.toNat = some bs ∧
    Crc32.calculate bs = image.crc

/-- What keeps `P`: changes of the metadata alone, writing slot `i` while its image is incomplete,
invalidating that image, and installing one that is there. -/
structure Policy (layout : Layout) (i : Nat) (P : Snapshot → Cells → Prop) : Prop where
  metadata : ∀ {s cells cells'}, P s cells → (∀ x, ¬layout.InMetadata x → cells' x = cells x) →
    P s cells'
  overwrite : ∀ {s cells cells'}, P s cells → (s.images.get i).state = .incomplete →
    (∀ x, ¬layout.InSlot i x → cells' x = cells x) → P s cells'
  invalidate : ∀ {s cells}, P s cells → P ((s.mark i .incomplete).following s) cells
  install : ∀ {s cells image}, P s cells → (s.images.get i).state = .incomplete →
    Verifies layout cells i image → s.counter ≠ 0xffffffffffffffff →
    image.installation = s.counter + 1 → image.state = .pending →
    P ((s.install i image).following s) cells

/-- However the operation in progress ends there is a newest snapshot with `P`; and the operation is
in the metadata, or in a slot whose image is incomplete. -/
structure Guarded (layout : Layout) (P : Snapshot → Cells → Prop) (mem : Memory) : Prop where
  keeps : ∀ cells', Outcome layout mem cells' → ∃ s, Sound layout cells' s ∧ P s cells'
  inside : ∀ op, mem.pending = some op → (∀ x, op.Covers layout x → layout.InMetadata x) ∨
    ∃ i s, i < 2 ∧ (∀ x, op.Covers layout x → layout.InSlot i x) ∧ Sound layout mem.cells s ∧
      P s mem.cells ∧ (s.images.get i).state = .incomplete

section guarded

variable {layout : Layout} {P : Snapshot → Cells → Prop} {mem mem' : Memory} {s : Snapshot}

theorem Guarded.of_sound (hp : mem.pending = none) (h : Sound layout mem.cells s)
    (hs : P s mem.cells) : Guarded layout P mem where
  keeps cells' ho := by
    rw [Outcome, hp] at ho
    subst ho
    exact ⟨s, h, hs⟩
  inside op hop := by
    rw [hp] at hop
    cases hop

theorem Guarded.sound (h : Guarded layout P mem) (hp : mem.pending = none) :
    ∃ s, Sound layout mem.cells s ∧ P s mem.cells :=
  h.keeps mem.cells (outcome_idle hp)

theorem Guarded.held (h : Guarded layout P mem) : Held layout mem fun _ => True := by
  intro cells' ho
  obtain ⟨s, hs, -⟩ := h.keeps cells' ho
  exact ⟨s, trivial, hs⟩

theorem Guarded.settle (h : Guarded layout P mem) (hp : mem'.pending = none)
    (ho : Outcome layout mem mem'.cells) : Guarded layout P mem' := by
  obtain ⟨s, hs, hP⟩ := h.keeps mem'.cells ho
  exact .of_sound hp hs hP

theorem Guarded.after (h : Guarded layout P mem) (ha : After layout mem mem') :
    Guarded layout P mem' := by
  rcases ha with rfl | ⟨hp, ho⟩
  · exact h
  · exact h.settle hp ho

theorem Guarded.mono {Q : Snapshot → Cells → Prop} (h : Guarded layout P mem)
    (hPQ : ∀ s cells, P s cells → Q s cells) : Guarded layout Q mem where
  keeps cells' ho := by
    obtain ⟨s, hs, hP⟩ := h.keeps cells' ho
    exact ⟨s, hs, hPQ s cells' hP⟩
  inside op hop := by
    rcases h.inside op hop with hmeta | ⟨i, s, hi, hin, hs, hP, hinc⟩
    · exact .inl hmeta
    · exact .inr ⟨i, s, hi, hin, hs, hPQ s _ hP, hinc⟩

/-- An operation of the journal between two snapshots with `P`. -/
theorem Guarded.of_cut {m : Medium} {d : Device m} {cells₀ : Cells} {cur nxt : Snapshot}
    (hP : ∀ {s cells cells'}, P s cells → (∀ x, ¬m.layout.InMetadata x → cells' x = cells x) →
      P s cells') (h : Cut m cells₀ cur nxt d) (hcur : P cur cells₀) (hnxt : P nxt cells₀) :
    Guarded m.layout P d.toMemory where
  keeps cells' ho := by
    obtain ⟨s, hs, hsound⟩ := h.1 cells' ho
    have hconf : Confined m.layout cells₀ { cells := cells' } := h.2.outcome rfl ho
    have hP₀ : P s cells₀ := by
      rcases hs with rfl | rfl
      · exact hcur
      · exact hnxt
    exact ⟨s, hsound, hP hP₀ hconf.cells⟩
  inside op hop := .inl (h.2.pending op hop)

end guarded

section calls

variable {m : Medium} {executing : Option Nat} {d : Device m} {P : Snapshot → Cells → Prop}
  {j : Journal} (hm : m.Regular)
variable {cur s : Snapshot} {fresh : Bool}

include hm

/-- A load that answers ok answers the newest snapshot, which has `P`. -/
theorem wp_load_guarded (hg : Guarded m.layout P d.toMemory) :
    Wp (Journal.load (Device.flash executing) m.layout j)
      (fun d' => Guarded m.layout P d'.toMemory)
      (fun r d' => (r = (.busy, {}, j) ∧ d.pending ≠ none ∧ d'.toMemory = d.toMemory) ∨
        ∃ cur p, r = (.ok, cur, { j with latest := p }) ∧ d'.pending = none ∧
          Outcome m.layout d.toMemory d'.cells ∧ Sound m.layout d'.cells cur ∧
          P cur d'.cells) d := by
  refine (wp_load hm.layout hm.steady hm.valid hg.held).mono (fun _ ha => hg.after ha) ?_
  rintro r d' (hbusy | ⟨cur, p, i, rfl, -, hp, ho, hsound, -, -⟩)
  · exact .inl hbusy
  · obtain ⟨s, hs, hP⟩ := hg.keeps d'.cells ho
    obtain rfl := hs.unique hsound
    exact .inr ⟨s, p, rfl, hp, ho, hsound, hP⟩

theorem wp_begin_idle (hrest : j.Resting) (hp : d.pending = none)
    (hsound : Sound m.layout d.cells cur) :
    Wp (Journal.begin (Device.flash executing) m.layout j s fresh)
      (fun d' => d'.toMemory = d.toMemory)
      (fun r d' => d'.toMemory = d.toMemory ∧
        ((r.1 = .ok ∧ r.2.status = .busy ∧ Stage m.layout cur (s.following cur) r.2 d'.toMemory ∧
          cur.sequence ≠ 0xffffffffffffffff) ∨ (r.1 ≠ .ok ∧ r.2.Resting))) d := by
  have hsame : ∀ d' : Device m, After m.layout d.toMemory d'.toMemory →
      d'.toMemory = d.toMemory := by
    rintro d' (h | ⟨hp', ho⟩)
    · exact h
    · exact outcome_same hp hp' ho
  have hheld : Held m.layout d.toMemory (· = cur) := Held.of_sound hp rfl hsound
  refine (wp_begin hm.layout hm.steady hm.ends hm.valid hheld hrest).mono hsame ?_
  rintro ⟨r, j'⟩ d' hb
  cases hb with
  | accepted cur' ok status based idle stage =>
    obtain rfl : cur' = cur := based.source
    exact ⟨outcome_same hp idle based.outcome, .inl ⟨ok, status, stage, based.room⟩⟩
  | refused failed resting after => exact ⟨hsame d' after, .inr ⟨failed, resting⟩⟩

theorem wp_commit_idle {timeout : Time}
    (hP : ∀ {s cells cells'}, P s cells → (∀ x, ¬m.layout.InMetadata x → cells' x = cells x) →
      P s cells') (hrest : j.Resting) (hp : d.pending = none) (hsound : Sound m.layout d.cells cur)
    (hcur : P cur d.cells) (hnxt : P (s.following cur) d.cells) :
    Wp (Journal.commit (Device.flash executing) m.layout j s timeout fresh)
      (fun d' => Guarded m.layout P d'.toMemory)
      (fun r d' => r.2.Resting ∧ Guarded m.layout P d'.toMemory ∧ (r.1 = .ok → d'.pending = none ∧
        Sound m.layout d'.cells (s.following cur))) d := by
  have hheld : Held m.layout d.toMemory (· = cur) := Held.of_sound hp rfl hsound
  have hguard : ∀ d' : Device m, Committing m.layout (· = cur) s d.toMemory d'.toMemory →
      Guarded m.layout P d'.toMemory := by
    intro d' h
    have h₀ : Guarded m.layout P d.toMemory := .of_sound hp hsound hcur
    cases h with
    | before after => exact h₀.after after
    | during cur' cells₁ based held confined =>
      obtain rfl : cur' = cur := based.source
      have hcells : cells₁ = d.cells := by
        have := based.outcome
        rw [Outcome, hp] at this
        exact this
      rw [hcells] at confined
      exact .of_cut hP ⟨held, confined⟩ hcur hnxt
  refine (wp_commit hm.layout hm.steady hm.ends hm.valid hheld hrest).mono hguard ?_
  rintro ⟨r, j'⟩ d' ⟨hrest', ⟨hok, cur', cells₁, based, hp', hsound', hconf⟩ | ⟨hfail, hc⟩⟩
  · obtain rfl : cur' = cur := based.source
    have hcells : cells₁ = d.cells := by
      have := based.outcome
      rw [Outcome, hp] at this
      exact this
    rw [hcells] at hconf
    exact ⟨hrest', .of_sound hp' hsound' (hP hnxt hconf.cells), fun _ => ⟨hp', hsound'⟩⟩
  · exact ⟨hrest', hguard d' hc, fun h => absurd h hfail⟩

end calls

end DaveOs.Boot
