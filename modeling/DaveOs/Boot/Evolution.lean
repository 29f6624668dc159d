import DaveOs.Boot.Control
import DaveOs.Boot.JournalCalls

/-!
# How snapshots evolve

Every record the system writes makes one `Change` to the snapshot before it: a boot rejects trials
and starts them, the running image is confirmed, an installation invalidates its destination and
later puts a new image there, under the next installation number.

Looking back from a later snapshot, an installation that was already numbered is in the same slot
and no further along than it is now (`Evolves.back`): pending, then on trial, then confirmed, and
finally gone. A number that was not given out yet is above everything before (`Evolves.numbered`).
-/

namespace DaveOs.Boot

open Relation

/-- How far an image of this state has come. -/
def ImageState.grade : ImageState → Nat
  | .pending => 1
  | .trial => 2
  | .confirmed => 3
  | .empty | .incomplete | .rejected => 4

theorem ImageState.grade_le (s : ImageState) : s.grade ≤ 4 := by
  cases s <;> decide

/-- Every image is numbered by the counter. -/
def Snapshot.Counted (s : Snapshot) : Prop :=
  ∀ i, i < 2 → (s.images.get i).installation ≤ s.counter

/-- The image of slot `i` becomes `image`, the other one stays. -/
structure Becomes (s : Snapshot) (i : Nat) (image : Image) (s' : Snapshot) : Prop where
  lt : i < 2
  self : s'.images.get i = image
  other : s'.images.get (1 - i) = s.images.get (1 - i)

/-- What a boot does: trials that were not confirmed are rejected, and a pending image gets its
trial. -/
inductive BootChange (s s' : Snapshot) : Prop
  | reject (counter : s'.counter = s.counter)
      (images : ∀ i, i < 2 → s'.images.get i = (s.images.get i).rejectTrial)
  | attempt (i : Nat) (counter : s'.counter = s.counter)
      (pending : (s.images.get i).state = .pending)
      (becomes : Becomes s i { s.images.get i with state := .trial } s')

inductive Change (s s' : Snapshot) : Prop
  | boot (change : BootChange s s')
  | confirm (i : Nat) (counter : s'.counter = s.counter) (trial : (s.images.get i).state = .trial)
      (becomes : Becomes s i { s.images.get i with state := .confirmed } s')
  | invalidate (i : Nat) (counter : s'.counter = s.counter)
      (becomes : Becomes s i { s.images.get i with state := .incomplete } s')
  | install (i : Nat) (image : Image) (room : s.counter ≠ 0xffffffffffffffff)
      (counter : s'.counter = s.counter + 1) (number : image.installation = s.counter + 1)
      (pending : image.state = .pending) (becomes : Becomes s i image s')

abbrev Evolves : Snapshot → Snapshot → Prop := ReflTransGen Change

section changes

variable {s s' t : Snapshot} {i : Nat}
variable {k : Nat} {n : UInt64}

theorem Becomes.get {image : Image} (h : Becomes s i image s') (hk : k < 2) :
    k = i ∧ s'.images.get k = image ∨ k ≠ i ∧ s'.images.get k = s.images.get k := by
  have hi := h.lt
  by_cases hki : k = i
  · exact .inl ⟨hki, by rw [hki]; exact h.self⟩
  · obtain rfl : k = 1 - i := by omega
    exact .inr ⟨hki, h.other⟩

theorem Becomes.installation {state : ImageState} (h : Becomes s i { s.images.get i with state } s')
    (hk : k < 2) : (s'.images.get k).installation = (s.images.get k).installation := by
  rcases h.get hk with ⟨rfl, heq⟩ | ⟨-, heq⟩ <;> rw [heq]

theorem BootChange.counter_eq (h : BootChange s s') : s'.counter = s.counter := by
  cases h with
  | reject counter | attempt i counter => exact counter

theorem BootChange.installation (h : BootChange s s') (hi : i < 2) :
    (s'.images.get i).installation = (s.images.get i).installation := by
  cases h with
  | reject counter images => rw [images i hi, Image.rejectTrial_installation]
  | attempt k counter pending becomes => exact becomes.installation hi

/-- A boot leaves an image in its state, or takes it to its trial or to the end of it. -/
theorem BootChange.state (h : BootChange s s') (hi : i < 2) :
    s'.images.get i = s.images.get i ∨
      (s.images.get i).state = .trial ∧ (s'.images.get i).state = .rejected ∨
      (s.images.get i).state = .pending ∧ (s'.images.get i).state = .trial := by
  cases h with
  | reject counter images =>
    rw [images i hi]
    unfold Image.rejectTrial
    split
    · next htrial => exact .inr (.inl ⟨htrial, rfl⟩)
    · exact .inl rfl
  | attempt k counter pending becomes =>
    rcases becomes.get hi with ⟨rfl, heq⟩ | ⟨-, heq⟩
    · exact .inr (.inr ⟨pending, by rw [heq]⟩)
    · exact .inl heq

theorem Change.counter_le (h : Change s s') : s.counter ≤ s'.counter := by
  cases h with
  | boot change => exact UInt64.le_of_eq change.counter_eq.symm
  | confirm i counter | invalidate i counter => exact UInt64.le_of_eq counter.symm
  | install i image room counter =>
    rw [counter]
    exact UInt64.le_of_lt (lt_succ room)

theorem Change.counted (h : Change s s') (hc : s.Counted) : s'.Counted := by
  intro k hk
  have hold := hc k hk
  cases h with
  | boot change => rw [change.installation hk, change.counter_eq]; exact hold
  | confirm i counter trial becomes | invalidate i counter becomes =>
    rw [becomes.installation hk, counter]; exact hold
  | install i image room counter number pending becomes =>
    rcases becomes.get hk with ⟨-, heq⟩ | ⟨-, heq⟩
    · rw [heq, number, counter]
      exact UInt64.le_refl _
    · rw [heq, counter]
      exact UInt64.le_trans hold (UInt64.le_of_lt (lt_succ room))

/-- **Looking back over one change**: an installation that is not new was in its slot, no further
along; and it is the same image if it is pending still. -/
theorem Change.back (h : Change s s') (hi : i < 2)
    (hle : (s'.images.get i).installation ≤ s.counter) :
    (s.images.get i).installation = (s'.images.get i).installation ∧
      (s.images.get i).state.grade ≤ (s'.images.get i).state.grade ∧
      ((s'.images.get i).state = .pending → s'.images.get i = s.images.get i) := by
  cases h with
  | boot change =>
    refine ⟨(change.installation hi).symm, ?_, fun hp => ?_⟩
    · rcases change.state hi with h | ⟨h, h'⟩ | ⟨h, h'⟩
      · exact Nat.le_of_eq (by rw [h])
      · rw [h, h']; decide
      · rw [h, h']; decide
    · rcases change.state hi with h | ⟨-, h'⟩ | ⟨-, h'⟩
      · exact h
      · rw [h'] at hp; cases hp
      · rw [h'] at hp; cases hp
  | confirm k counter trial becomes =>
    refine ⟨(becomes.installation hi).symm, ?_⟩
    rcases becomes.get hi with ⟨rfl, heq⟩ | ⟨-, heq⟩
    · rw [heq, trial]
      exact ⟨(by decide : ImageState.trial.grade ≤ ImageState.confirmed.grade), fun hp => by cases hp⟩
    · rw [heq]
      exact ⟨Nat.le_refl _, fun _ => rfl⟩
  | invalidate k counter becomes =>
    refine ⟨(becomes.installation hi).symm, ?_⟩
    rcases becomes.get hi with ⟨rfl, heq⟩ | ⟨-, heq⟩
    · rw [heq]
      exact ⟨ImageState.grade_le _, fun hp => by cases hp⟩
    · rw [heq]
      exact ⟨Nat.le_refl _, fun _ => rfl⟩
  | install k image room counter number pending becomes =>
    rcases becomes.get hi with ⟨-, heq⟩ | ⟨-, heq⟩
    · rw [heq, number] at hle
      exact absurd (lt_succ room) (UInt64.not_lt.mpr hle)
    · rw [heq]
      exact ⟨rfl, Nat.le_refl _, fun _ => rfl⟩

/-- The images are not both under number `n`. -/
def Snapshot.Single (n : UInt64) (s : Snapshot) : Prop :=
  ¬((s.images.get 0).installation = n ∧ (s.images.get 1).installation = n)

theorem Snapshot.Single.slot (h : s.Single n) (hi : i < 2) (hk : k < 2)
    (h1 : (s.images.get i).installation = n) (h2 : (s.images.get k).installation = n) : k = i := by
  obtain rfl | rfl : i = 0 ∨ i = 1 := by omega
  · obtain rfl | rfl : k = 0 ∨ k = 1 := by omega
    · rfl
    · exact absurd ⟨h1, h2⟩ h
  · obtain rfl | rfl : k = 0 ∨ k = 1 := by omega
    · exact absurd ⟨h2, h1⟩ h
    · rfl

theorem Snapshot.Counted.single (h : s.Counted) (hn : s.counter < n) : s.Single n := by
  rintro ⟨rfl, -⟩
  exact UInt64.not_lt.mpr (h 0 (by decide)) hn

theorem Change.single (h : Change s s') (hc : s.Counted) (hs : s.Single n) : s'.Single n := by
  rintro ⟨h0, h1⟩
  by_cases hn : n ≤ s.counter
  · exact hs ⟨((h.back (by decide) (by rw [h0]; exact hn)).1.trans h0),
      ((h.back (by decide) (by rw [h1]; exact hn)).1.trans h1)⟩
  have hsame : ∀ k, k < 2 → (s'.images.get k).installation = (s.images.get k).installation →
      (s'.images.get k).installation ≠ n := fun k hk heq hn' =>
    hn (by rw [← hn', heq]; exact hc k hk)
  cases h with
  | boot change => exact hsame 0 (by decide) (change.installation (by decide)) h0
  | confirm i counter trial becomes | invalidate i counter becomes =>
    exact hsame 0 (by decide) (becomes.installation (by decide)) h0
  | install i image room counter number pending becomes =>
    have hi := becomes.lt
    obtain rfl | rfl : i = 0 ∨ i = 1 := by omega
    · exact hsame 1 (by decide) (congrArg Image.installation becomes.other) h1
    · exact hsame 0 (by decide) (congrArg Image.installation becomes.other) h0

/-! ## Whole histories -/

theorem Evolves.counter_le (h : Evolves s t) : s.counter ≤ t.counter := by
  induction h with
  | refl => exact UInt64.le_refl _
  | tail _ change ih => exact UInt64.le_trans ih change.counter_le

theorem Evolves.counted (h : Evolves s t) (hc : s.Counted) : t.Counted := by
  induction h with
  | refl => exact hc
  | tail _ change ih => exact change.counted ih

theorem Evolves.single (h : Evolves s t) (hc : s.Counted) (hs : s.Single n) : t.Single n := by
  induction h with
  | refl => exact hs
  | tail hst change ih => exact change.single (Evolves.counted hst hc) ih

/-- **Looking back over a history.** -/
theorem Evolves.back (h : Evolves s t) (hi : i < 2)
    (hle : (t.images.get i).installation ≤ s.counter) :
    (s.images.get i).installation = (t.images.get i).installation ∧
      (s.images.get i).state.grade ≤ (t.images.get i).state.grade ∧
      ((t.images.get i).state = .pending → t.images.get i = s.images.get i) := by
  induction h with
  | refl => exact ⟨rfl, Nat.le_refl _, fun _ => rfl⟩
  | tail hst change ih =>
    obtain ⟨h1, h2, h3⟩ := change.back hi (UInt64.le_trans hle (Evolves.counter_le hst))
    obtain ⟨g1, g2, g3⟩ := ih (by rw [h1]; exact hle)
    refine ⟨g1.trans h1, Nat.le_trans g2 h2, fun hp => ?_⟩
    have heq := h3 hp
    rw [heq]
    exact g3 (by rw [← heq]; exact hp)

/-- A number under which an image of `t` is pending was given out after `s`, above everything in
`s` and to one image only, unless that image was pending in `s` already. -/
def Numbered (s t : Snapshot) : Prop :=
  ∀ i, i < 2 → (t.images.get i).state = .pending →
    t.images.get i = s.images.get i ∨
      s.counter < (t.images.get i).installation ∧
      (∀ k, k < 2 → (s.images.get k).installation < (t.images.get i).installation) ∧
      (t.images.get (1 - i)).installation ≠ (t.images.get i).installation

theorem Evolves.numbered (h : Evolves s t) (hc : s.Counted) : Numbered s t := by
  intro i hi hp
  by_cases hle : (t.images.get i).installation ≤ s.counter
  · exact .inl ((Evolves.back h hi hle).2.2 hp)
  · have hlt := UInt64.not_le.mp hle
    refine .inr ⟨hlt, fun k hk => UInt64.lt_of_le_of_lt (hc k hk) hlt, fun heq => ?_⟩
    have := (Evolves.single h hc (hc.single hlt)).slot hi (by omega) rfl heq
    omega

/-- The image of slot `i` does not run any more under number `n`: it is on trial or gone. -/
def Snapshot.Spent (n : UInt64) (i : Nat) (s : Snapshot) : Prop :=
  (s.images.get i).installation = n →
    (s.images.get i).state ≠ .pending ∧ (s.images.get i).state ≠ .confirmed

/-- The image of slot `i` is gone, if it is of number `n`. -/
def Snapshot.Gone (n : UInt64) (i : Nat) (s : Snapshot) : Prop :=
  (s.images.get i).installation = n → (s.images.get i).state.grade = 4

theorem Snapshot.Gone.spent (h : s.Gone n i) : s.Spent n i := by
  intro heq
  have := h heq
  constructor <;> intro hst <;> rw [hst] at this <;> cases this

theorem BootChange.spent (h : BootChange s s') (hi : i < 2) (hs : s.Spent n i) : s'.Spent n i := by
  intro heq
  rw [h.installation hi] at heq
  obtain ⟨hp, hc⟩ := hs heq
  rcases h.state hi with h | ⟨-, h'⟩ | ⟨h', -⟩
  · rw [h]
    exact ⟨hp, hc⟩
  · rw [h']
    exact ⟨by decide, by decide⟩
  · exact absurd h' hp

theorem spent_of_boot (h : ReflTransGen BootChange s t) (hi : i < 2) (hs : s.Spent n i) :
    t.Spent n i := by
  induction h with
  | refl => exact hs
  | tail _ change ih => exact change.spent hi ih

theorem Evolves.of_boot (h : ReflTransGen BootChange s t) : Evolves s t :=
  ReflTransGen.mono (fun _ _ => .boot) _ _ h

theorem Evolves.gone (h : Evolves s t) (hn : n ≤ s.counter) (hi : i < 2) (hs : s.Gone n i) :
    t.Gone n i := by
  intro heq
  obtain ⟨h1, h2, -⟩ := h.back hi (by rw [heq]; exact hn)
  have := hs (h1.trans heq)
  have hle := (t.images.get i).state.grade_le
  omega

end changes

end DaveOs.Boot
