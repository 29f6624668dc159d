import DaveOs.Boot.Journal

/-!
# The boot policy (`Control` of `lib/boot/control.cpp`)

`select` chooses the image to boot: a trial that was not confirmed is rejected, then the newest
installation that is pending or confirmed and verifies is taken, a pending one as its trial.
`confirmImage` confirms the running trial.
-/

namespace DaveOs.Boot

open Bytes

/-- The answer of `select`. -/
structure Selection where
  status : Status := .notFound
  slot : Nat := 2
  trial : Bool := false
  image : Image := {}
  deriving DecidableEq, Repr

variable {σ : Type} (flash : Flash σ) (layout : Layout)

/-- The pieces in which an image is read: their offsets and lengths. -/
def pieces (size : Nat) : List (Nat × Nat) :=
  (List.range ((size + 255) / 256)).map fun k => (256 * k, min 256 (size - 256 * k))

/-- The checksum of the pieces of a slot, or the status of a read that failed. -/
def checksum (base : Nat) : List (Nat × Nat) → UInt32 → Crash σ (Status × UInt32)
  | [], crc => pure (.ok, crc)
  | (offset, count) :: rest, crc => do
    let (result, bytes) ← flash.read (base + offset) count
    if result ≠ .ok then pure (result, crc)
    else checksum base rest (Crc32.update crc bytes)

/-- Whether the image of a slot is meant for this layout and intact. -/
@[irreducible] def verify (slot : Nat) (image : Image) : Crash σ Status :=
  if ¬layout.valid ∨ slot ≥ 2 ∨ image.size = 0 ∨ image.size > layout.slotSize ∨
      image.product ≠ layout.product ∨ image.revision ≠ layout.revision ∨
      image.installation = 0 then pure .incompatible
  else do
    let (result, crc) ← checksum flash (layout.slot slot) (pieces image.size.toNat) 0
    if result ≠ .ok then pure result
    else pure (if crc = image.crc then .ok else .checksumError)

/-- An image whose trial was not confirmed is rejected. -/
def Image.rejectTrial (image : Image) : Image :=
  if image.state = .trial then { image with state := .rejected } else image

/-- The snapshot with its trials rejected. -/
def Snapshot.rejectTrials (s : Snapshot) : Snapshot :=
  { s with images := ⟨s.images.a.rejectTrial, s.images.b.rejectTrial⟩ }

def Snapshot.hasTrial (s : Snapshot) : Bool :=
  s.images.a.state = .trial || s.images.b.state = .trial

@[simp] theorem Snapshot.rejectTrials_get (s : Snapshot) (i : Nat) :
    s.rejectTrials.images.get i = (s.images.get i).rejectTrial := by
  unfold rejectTrials Pair.get
  split <;> rfl

theorem Image.rejectTrial_of_ne {image : Image} (h : image.state ≠ .trial) :
    image.rejectTrial = image := if_neg h

theorem Image.rejectTrial_installation (image : Image) :
    image.rejectTrial.installation = image.installation := by
  unfold rejectTrial
  split <;> rfl

theorem Snapshot.hasTrial_iff {s : Snapshot} :
    s.hasTrial = true ↔ ∃ i, i < 2 ∧ (s.images.get i).state = .trial := by
  simp only [hasTrial, Bool.or_eq_true, decide_eq_true_eq]
  constructor
  · rintro (h | h)
    · exact ⟨0, by decide, h⟩
    · exact ⟨1, by decide, h⟩
  · rintro ⟨i, hi, h⟩
    obtain rfl | rfl : i = 0 ∨ i = 1 := by omega
    · exact .inl h
    · exact .inr h

/-- The slot of the newest installation. -/
def Snapshot.newest (s : Snapshot) : Nat :=
  if s.images.b.installation > s.images.a.installation then 1 else 0

namespace Control

/-- Rejected trials are committed before anything is chosen. -/
def settleTrials (j : Journal) (s : Snapshot) : Crash σ (Status × Journal) :=
  if s.hasTrial then j.commit flash layout s.rejectTrials else pure (.ok, j)

/-- The image of a slot that has verified is chosen, a pending one for its trial. -/
def accept (s : Snapshot) (slot : Nat) (j : Journal) : Crash σ (Selection × Journal) :=
  let image := s.images.get slot
  if image.state = .pending then do
    let (result, j) ← j.commit flash layout (s.mark slot .trial)
    if result ≠ .ok then pure ({ status := result }, j)
    else
      pure ({ status := .ok, slot, trial := true, image := { image with state := .trial } }, j)
  else pure ({ status := .ok, slot, trial := false, image }, j)

/-- The first of the slots whose image is eligible and verifies. -/
def choose (s : Snapshot) : List Nat → Status → Journal → Crash σ (Selection × Journal)
  | [], failure, j => pure ({ status := failure }, j)
  | slot :: rest, failure, j =>
    let image := s.images.get slot
    if image.state ≠ .pending ∧ image.state ≠ .confirmed then choose s rest failure j
    else do
      let result ← verify flash layout slot image
      if result ≠ .ok then choose s rest result j else accept flash layout s slot j

def select (j : Journal) : Crash σ (Selection × Journal) := do
  let (result, s, j) ← j.load flash layout
  if result ≠ .ok then pure ({ status := result }, j)
  else do
    let (result, j) ← settleTrials flash layout j s
    if result ≠ .ok then pure ({ status := result }, j)
    else
      let s := s.rejectTrials
      choose flash layout s [s.newest, 1 - s.newest] .notFound j

/-- Confirms the image that is running, when it is on trial. -/
def confirmImage (j : Journal) (runningSlot : Nat) : Crash σ (Status × Journal) :=
  if runningSlot ≥ 2 then pure (.unsupported, j)
  else do
    let (result, s, j) ← j.load flash layout
    if result ≠ .ok then pure (result, j)
    else if (s.images.get runningSlot).state = .confirmed then pure (.ok, j)
    else if (s.images.get runningSlot).state ≠ .trial then pure (.notRunning, j)
    else j.commit flash layout (s.mark runningSlot .confirmed)

end Control

end DaveOs.Boot
