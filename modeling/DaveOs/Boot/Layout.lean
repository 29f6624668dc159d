import DaveOs.Core.Types

/-!
# Flash geometry (`lib/boot/flash.h`, `Layout::valid` of `lib/boot/journal.cpp`)

Both application slots start at the same offset in their physical bank; metadata resides before
them. `Layout.valid` is the source's check. Its consequences are gathered in `Layout.Valid`: aligned
regions inside the 32-bit address space, no two of which overlap.
-/

namespace DaveOs.Boot

def kRecordSize : Nat := 256

/-- Flash geometry, immutable for a layout revision. -/
structure Layout where
  slots : Pair UInt32
  metadata : Pair UInt32
  slotSize : UInt32
  sectorSize : UInt32 := 8192
  writeSize : UInt32 := 16
  product : UInt32
  revision : UInt32 := 1
  operationTimeout : Time := 1000000
  deriving DecidableEq, Repr

namespace Layout

/-- The address of application slot `i`. -/
def slot (l : Layout) (i : Nat) : Nat := (l.slots.get i).toNat

/-- The address of metadata sector `i`. -/
def bank (l : Layout) (i : Nat) : Nat := (l.metadata.get i).toNat

def sector (l : Layout) : Nat := l.sectorSize.toNat

def room (l : Layout) : Nat := l.slotSize.toNat

/-- The size of a programming unit in bytes. -/
def unit (l : Layout) : Nat := l.writeSize.toNat

/-- The four regions, as half-open address ranges. -/
def regions (l : Layout) : List (Nat × Nat) :=
  [(l.slot 0, l.slot 0 + l.room), (l.slot 1, l.slot 1 + l.room),
    (l.bank 0, l.bank 0 + l.sector), (l.bank 1, l.bank 1 + l.sector)]

def overlap (x y : Nat × Nat) : Bool := decide (x.1 < y.2) && decide (y.1 < x.2)

def valid (l : Layout) : Bool :=
  !(l.slotSize == 0 || l.sectorSize == 0 || l.operationTimeout == 0 ||
    l.sector % kRecordSize != 0 || (l.writeSize != 16 && l.writeSize != 32) ||
    l.room % l.sector != 0 || l.product == 0 || l.revision == 0) &&
  l.slot 0 % l.sector == 0 && l.bank 0 % l.sector == 0 &&
  l.slot 1 % l.sector == 0 && l.bank 1 % l.sector == 0 &&
  l.regions.all (fun r => decide (r.2 ≤ 0x100000000)) &&
  decide (l.regions.Pairwise fun x y => overlap x y = false)

/-- What a valid layout promises about addresses. -/
structure Valid (l : Layout) : Prop where
  room_pos : 0 < l.room
  sector_pos : 0 < l.sector
  record_dvd : l.sector % 256 = 0
  unit_eq : l.unit = 16 ∨ l.unit = 32
  room_dvd : l.room % l.sector = 0
  slot_dvd : ∀ i, i < 2 → l.slot i % l.sector = 0
  bank_dvd : ∀ i, i < 2 → l.bank i % l.sector = 0
  slot_end : ∀ i, i < 2 → l.slot i + l.room ≤ 0x100000000
  bank_end : ∀ i, i < 2 → l.bank i + l.sector ≤ 0x100000000
  slots_apart : l.slot 0 + l.room ≤ l.slot 1 ∨ l.slot 1 + l.room ≤ l.slot 0
  banks_apart : l.bank 0 + l.sector ≤ l.bank 1 ∨ l.bank 1 + l.sector ≤ l.bank 0
  slot_bank_apart : ∀ i j, i < 2 → j < 2 →
    l.slot i + l.room ≤ l.bank j ∨ l.bank j + l.sector ≤ l.slot i

theorem overlap_false {a b c d : Nat} (h : overlap (a, b) (c, d) = false) : b ≤ c ∨ d ≤ a := by
  simp only [overlap, Bool.and_eq_false_iff, decide_eq_false_iff_not] at h
  omega

theorem two_cases {P : Nat → Prop} (h0 : P 0) (h1 : P 1) : ∀ i, i < 2 → P i := by
  intro i hi
  obtain rfl | rfl : i = 0 ∨ i = 1 := by omega
  · exact h0
  · exact h1

theorem valid.spec {l : Layout} (h : l.valid = true) : Valid l := by
  simp only [valid, Bool.and_eq_true, Bool.not_eq_true', Bool.or_eq_false_iff, beq_eq_false_iff_ne,
    bne_eq_false_iff_eq, Bool.and_eq_false_iff, beq_iff_eq, List.all_eq_true, decide_eq_true_eq,
    kRecordSize] at h
  obtain ⟨⟨⟨⟨⟨⟨⟨⟨⟨⟨⟨⟨⟨hslot, hsec⟩, -⟩, hrec⟩, hunit⟩, hroom⟩, -⟩, -⟩, hs0⟩, hb0⟩, hs1⟩, hb1⟩,
    hend⟩, hpw⟩ := h
  have hroomPos : 0 < l.room := Nat.pos_of_ne_zero fun e =>
    hslot (UInt32.toNat_inj.mp (by simpa [room] using e))
  have hsecPos : 0 < l.sector := Nat.pos_of_ne_zero fun e =>
    hsec (UInt32.toNat_inj.mp (by simpa [sector] using e))
  have hends : ∀ r ∈ l.regions, r.2 ≤ 4294967296 := hend
  simp only [regions, List.pairwise_cons, List.mem_cons, List.not_mem_nil, or_false,
    forall_eq_or_imp, forall_eq, List.Pairwise.nil, and_true] at hpw hends
  obtain ⟨⟨h01, h02, h03⟩, ⟨h12, h13⟩, h23, -⟩ := hpw
  obtain ⟨e0, e1, e2, e3⟩ := hends
  refine
    { room_pos := hroomPos, sector_pos := hsecPos, record_dvd := hrec, unit_eq := ?_,
      room_dvd := hroom, slot_dvd := two_cases hs0 hs1, bank_dvd := two_cases hb0 hb1,
      slot_end := two_cases e0 e1, bank_end := two_cases e2 e3,
      slots_apart := overlap_false h01,
      banks_apart := overlap_false h23,
      slot_bank_apart := ?_ }
  · rcases hunit with h | h
    · left; rw [unit, h]; rfl
    · right; rw [unit, h]; rfl
  · intro i j hi hj
    obtain rfl | rfl : i = 0 ∨ i = 1 := by omega
    · obtain rfl | rfl : j = 0 ∨ j = 1 := by omega
      · exact overlap_false h02
      · exact overlap_false h03
    · obtain rfl | rfl : j = 0 ∨ j = 1 := by omega
      · exact overlap_false h12
      · exact overlap_false h13

end Layout

/-- Two metadata sectors and two slots, each one sector of `size` bytes. -/
def tinyLayout (size writeSize : UInt32) : Layout where
  slots := ⟨2 * size, 3 * size⟩
  metadata := ⟨0, size⟩
  slotSize := size
  sectorSize := size
  writeSize
  product := 1

end DaveOs.Boot
