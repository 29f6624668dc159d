import DaveOs.Lib.Bytes
import DaveOs.Core.Types

/-!
# Fixed-format helpers (`lib/util/wire.h`, `lib/util/version.h`)

Little-endian fields at fixed offsets. Callers validate the size of the enclosing record, so a field
past its end reads as the bytes that are there.
-/

namespace DaveOs.Wire

variable {data : Bytes} {pos : Nat} {v : UInt32} {d e : Bytes}

open Bytes

/-- The 32-bit field of `data` at `pos`. -/
def read32 (data : Bytes) (pos : Nat) : UInt32 := UInt32.ofNat (leNat (slice data pos 4))

/-- The 64-bit field of `data` at `pos`. -/
def read64 (data : Bytes) (pos : Nat) : UInt64 := UInt64.ofNat (leNat (slice data pos 8))

/-- `data` with the 32-bit field at `pos` overwritten. -/
def write32 (data : Bytes) (pos : Nat) (value : UInt32) : Bytes :=
  splice data pos (leBytes 4 value.toNat)

/-- `data` with the 64-bit field at `pos` overwritten. -/
def write64 (data : Bytes) (pos : Nat) (value : UInt64) : Bytes :=
  splice data pos (leBytes 8 value.toNat)

theorem ofNat_leNat_leBytes32 (v : UInt32) : UInt32.ofNat (leNat (leBytes 4 v.toNat)) = v := by
  rw [leNat_leBytes v.toNat_lt]
  exact UInt32.ofNat_toNat

theorem ofNat_leNat_leBytes64 (v : UInt64) : UInt64.ofNat (leNat (leBytes 8 v.toNat)) = v := by
  rw [leNat_leBytes v.toNat_lt]
  exact UInt64.ofNat_toNat

theorem slice_of_read32 (h : pos + 4 ≤ data.length) (hv : read32 data pos = v) :
    slice data pos 4 = leBytes 4 v.toNat := by
  have hl := length_slice h
  have hlt := leNat_lt (slice data pos 4)
  rw [hl] at hlt
  have : v.toNat = leNat (slice data pos 4) := by
    rw [← hv]
    exact UInt32.toNat_ofNat_of_lt' hlt
  rw [this]
  conv_lhs => rw [← leBytes_leNat (slice data pos 4), hl]

theorem slice_of_read64 (h : pos + 8 ≤ data.length) {v : UInt64} (hv : read64 data pos = v) :
    slice data pos 8 = leBytes 8 v.toNat := by
  have hl := length_slice h
  have hlt := leNat_lt (slice data pos 8)
  rw [hl] at hlt
  have : v.toNat = leNat (slice data pos 8) := by
    rw [← hv]
    exact UInt64.toNat_ofNat_of_lt' hlt
  rw [this]
  conv_lhs => rw [← leBytes_leNat (slice data pos 8), hl]

theorem read32_congr (h : slice d pos 4 = slice e pos 4) :
    read32 d pos = read32 e pos := by rw [read32, read32, h]

theorem read64_congr (h : slice d pos 8 = slice e pos 8) :
    read64 d pos = read64 e pos := by rw [read64, read64, h]

theorem read32_eq_of_slice (h : slice d pos 4 = leBytes 4 v.toNat) : read32 d pos = v := by
  rw [read32, h, ofNat_leNat_leBytes32]

theorem read64_eq_of_slice {v : UInt64} (h : slice d pos 8 = leBytes 8 v.toNat) :
    read64 d pos = v := by
  rw [read64, h, ofNat_leNat_leBytes64]

theorem read32_ne (hd : pos + 4 ≤ d.length) (he : pos + 4 ≤ e.length)
    (h : slice d pos 4 ≠ slice e pos 4) : read32 d pos ≠ read32 e pos := by
  intro heq
  exact h ((slice_of_read32 hd heq).trans (slice_of_read32 he rfl).symm)

end DaveOs.Wire

namespace DaveOs

/-- The source's reserved build number of a local build. -/
def kLocal : UInt32 := 0xffffffff

/-- Diagnostic identity of an image: `util::Version`. -/
structure Version where
  major : UInt32 := 0
  minor : UInt32 := 0
  build : UInt32 := kLocal
  commit : Vector UInt8 41 := Vector.replicate 41 0
  dirty : Bool := false
  deriving DecidableEq, Repr, Inhabited

/-- The commit name has a last char. -/
theorem Version.commit_last : 40 < 41 := by decide

end DaveOs
