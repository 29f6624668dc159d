import DaveOs.Boot.Codec

/-!
# Update packages (`lib/update/package.cpp`)

A package is a header of 128 bytes and a stream of blocks. Each block has a header of its own, a
list of relocations and up to 1024 bytes of the image linked for slot A; the reader applies the
relocations when the destination is slot B.

`PackageReader` is the source's stream parser. It is ticked with whatever bytes have arrived, takes
what its present part still needs, and keeps one block until it is released.
-/

namespace DaveOs.Update

open Bytes Wire Boot

def kHeaderSize : Nat := 128
def kBlockSize : Nat := 1024
def kMaxPatches : Nat := kBlockSize / 4

structure Header where
  product : UInt32 := 0
  revision : UInt32 := 0
  imageSize : UInt32 := 0
  addresses : Pair UInt32 := ⟨0, 0⟩
  crc : Pair UInt32 := ⟨0, 0⟩
  /-- 0: relocatable base A; 1 and 2: an image for slot A or B only. -/
  encoding : UInt32 := 0
  packageSize : UInt32 := 0
  version : Version := {}
  deriving DecidableEq, Repr

def blockCount (imageSize : Nat) : Nat := (imageSize + kBlockSize - 1) / kBlockSize

/-- The header in a package's first bytes, if it is one for this layout and destination. -/
def decodeHeader (bytes : Bytes) (layout : Layout) (destination : Nat) : Except Status Header :=
  if bytes.length ≠ kHeaderSize ∨ ¬layout.valid ∨ destination ≥ 2 then .error .invalidArgument
  else if read32 bytes 0 ≠ 0x50534f44 ∨ read32 bytes 4 ≠ 1 ∨
      (read32 bytes 8).toNat ≠ kHeaderSize ∨ (read32 bytes 44).toNat ≠ kBlockSize ∨
      read32 bytes 108 ≠ 0 then .error .incompatible
  else if read32 bytes 124 ≠ Crc32.calculate (bytes.take 124) then .error .checksumError
  else
    let imageSize := read32 bytes 20
    let addresses : Pair UInt32 := ⟨read32 bytes 24, read32 bytes 28⟩
    let encoding := read32 bytes 40
    let packageSize := read32 bytes 104
    let blocks := blockCount imageSize.toNat
    let minimum := kHeaderSize + blocks * 12 + imageSize.toNat
    if imageSize = 0 ∨ imageSize > layout.slotSize ∨ read32 bytes 12 ≠ layout.product ∨
        read32 bytes 16 ≠ layout.revision ∨ addresses ≠ layout.slots ∨ encoding > 2 ∨
        (encoding ≠ 0 ∧ encoding.toNat ≠ destination + 1) ∨ packageSize.toNat < minimum ∨
        packageSize.toNat > minimum + blocks * kMaxPatches * 2 then .error .incompatible
    else
      .ok
        { product := read32 bytes 12
          revision := read32 bytes 16
          imageSize, addresses, encoding, packageSize
          crc := ⟨read32 bytes 32, read32 bytes 36⟩
          version :=
            { major := read32 bytes 48
              minor := read32 bytes 52
              build := read32 bytes 56
              commit := Vector.ofFn fun i => if i.val = 40 then 0 else bytes.getD (60 + i.val) 0
              dirty := bytes.getD 101 0 != 0 } }

/-! ## The stream parser -/

/-- The states of the parser's machine. -/
inductive ReaderState
  | idle
  | header
  | patches
  | data
  | ready
  | done
  | failed
  deriving DecidableEq, Repr

/-- The parser: its buffers keep what earlier blocks left in them. -/
structure PackageReader where
  header : Header := {}
  blockHeader : Bytes := List.replicate 12 0
  patches : Bytes := List.replicate (kMaxPatches * 2) 0
  data : Bytes := List.replicate kBlockSize 0
  state : ReaderState := .idle
  status : Status := .ok
  destination : Nat := 0
  offset : Nat := 0
  length : Nat := 0
  patchCount : Nat := 0
  filled : Nat := 0
  startRequested : Bool := false
  releaseRequested : Bool := false
  deriving DecidableEq, Repr

/-- The relocation code at `pos`. -/
def read16 (data : Bytes) (pos : Nat) : Nat := leNat (slice data pos 2)

/-- One relocation: the word at `place` moved by the distance of the slots, modulo 2^32. -/
def relocate (header : Header) (code place : Nat) (data : Bytes) : Bytes :=
  let value := read32 data place
  let delta := header.addresses.b - header.addresses.a
  write32 data place (if code ≥ 0x8000 then value - delta else value + delta)

namespace PackageReader

/-- Requests a package from its first block on. -/
def start (r : PackageReader) (header : Header) (destination : Nat) : PackageReader :=
  { r with header, destination, startRequested := true }

def release (r : PackageReader) : PackageReader := { r with releaseRequested := true }

def block (r : PackageReader) : Bytes := r.data.take r.length

/-- How much of the input the first `size` bytes of a buffer still take. -/
def copyCount (r : PackageReader) (input : Bytes) (size : Nat) : Nat :=
  min input.length (size - r.filled)

/-- A buffer with the bytes it takes from the input. -/
def copy (r : PackageReader) (input output : Bytes) (size : Nat) : Bytes :=
  splice output r.filled (input.take (r.copyCount input size))

/-- The relocations from `codes` on; they must be sorted, inside the block and permitted. -/
def applyCodes (r : PackageReader) : List Nat → Option Nat → Bytes → Bool × Bytes
  | [], _, data => (true, data)
  | code :: codes, previous, data =>
    let place := code % 256 * 4
    if code / 256 % 128 ≠ 0 ∨ place + 4 > r.length ∨ previous.any (place ≤ ·) ∨
        r.header.encoding ≠ 0 then (false, data)
    else
      r.applyCodes codes (some place)
        (if r.destination = 1 then relocate r.header code place data else data)

def apply (r : PackageReader) : Bool × Bytes :=
  r.applyCodes ((List.range r.patchCount).map fun i => read16 r.patches (i * 2)) none r.data

/-- The end of a block's header: the block it announces has to be the next one. -/
def announce (r : PackageReader) : PackageReader :=
  let r := { r with
    length := (read32 r.blockHeader 4).toNat, patchCount := (read32 r.blockHeader 8).toNat }
  if (read32 r.blockHeader 0).toNat ≠ r.offset ∨ r.offset ≥ r.header.imageSize.toNat ∨
      r.length ≠ min kBlockSize (r.header.imageSize.toNat - r.offset) ∨
      r.patchCount > kMaxPatches then
    { r with status := .parseError, state := .failed }
  else
    { r with filled := 0, state := if r.patchCount ≠ 0 then .patches else .data }

def finish (r : PackageReader) : PackageReader :=
  match r.apply with
  | (true, data) => { r with data, state := .ready }
  | (false, data) => { r with data, status := .parseError, state := .failed }

/-- One step: how much of the input it takes, and the parser after it. -/
def step (r : PackageReader) (input : Bytes) : Nat × PackageReader :=
  if r.startRequested then
    (0, { r with
      startRequested := false, releaseRequested := false, offset := 0, length := 0,
      patchCount := 0, filled := 0, status := .ok, state := .header })
  else
    match r.state with
    | .header =>
      let count := r.copyCount input 12
      let r := { r with blockHeader := r.copy input r.blockHeader 12, filled := r.filled + count }
      (count, if r.filled = 12 then r.announce else r)
    | .patches =>
      let size := r.patchCount * 2
      let count := r.copyCount input size
      let r := { r with patches := r.copy input r.patches size, filled := r.filled + count }
      (count, if r.filled = size then { r with filled := 0, state := .data } else r)
    | .data =>
      let count := r.copyCount input r.length
      let r := { r with data := r.copy input r.data r.length, filled := r.filled + count }
      (count, if r.filled = r.length then r.finish else r)
    | .ready =>
      if r.releaseRequested then
        let offset := r.offset + r.length
        (0, { r with
          releaseRequested := false, offset, filled := 0,
          state := if offset = r.header.imageSize.toNat then .done else .header })
      else (0, r)
    | .idle | .done | .failed => (0, r)

def tick (r : PackageReader) (input : Bytes := []) : Nat × PackageReader := r.step input

end PackageReader

end DaveOs.Update
