import DaveOs.Util.Wire
import DaveOs.Util.Crc32
import DaveOs.Boot.Layout

/-!
# The journal's record format (`lib/boot/journal.h`, `encode`/`decode` of `lib/boot/journal.cpp`)

A record is 256 bytes: an identifying header, the two images, a checksum of everything before it
and a commit trailer that repeats the header's sequence. Version 1 puts the trailer in the last 16
bytes, version 2 in the last 32-byte programming unit, whose other bytes are zero.

`decode` reads every byte of a record: what is not a field is covered by the checksum or has to be
zero. What follows from that is in `DaveOs.Boot.CodecSpec`.
-/

namespace DaveOs.Boot

open Bytes Wire

/-- Persistent image eligibility, changed only through committed snapshots. -/
inductive ImageState
  | empty
  | incomplete
  | pending
  | trial
  | confirmed
  | rejected
  deriving DecidableEq, Repr, Inhabited

namespace ImageState

def code : ImageState → UInt32
  | empty => 0
  | incomplete => 1
  | pending => 2
  | trial => 3
  | confirmed => 4
  | rejected => 5

/-- The state of a stored value; values past the last state are refused. -/
def ofCode? (v : UInt32) : Option ImageState :=
  if v = 0 then some empty
  else if v = 1 then some incomplete
  else if v = 2 then some pending
  else if v = 3 then some trial
  else if v = 4 then some confirmed
  else if v = 5 then some rejected
  else none

@[simp] theorem ofCode?_code (s : ImageState) : ofCode? s.code = some s := by
  cases s <;> rfl

end ImageState

/-- What is recorded of the image in one slot. -/
structure Image where
  installation : UInt64 := 0
  size : UInt32 := 0
  crc : UInt32 := 0
  state : ImageState := .empty
  product : UInt32 := 0
  revision : UInt32 := 0
  version : Version := {}
  deriving DecidableEq, Repr, Inhabited

structure Snapshot where
  sequence : UInt64 := 0
  counter : UInt64 := 0
  images : Pair Image := ⟨{}, {}⟩
  deriving DecidableEq, Repr, Inhabited

/-- The snapshot with the state of image `i` changed. -/
def Snapshot.mark (s : Snapshot) (i : Nat) (state : ImageState) : Snapshot :=
  { s with images := s.images.set i { s.images.get i with state } }

/-- The snapshot with the next installation in slot `i`. -/
def Snapshot.install (s : Snapshot) (i : Nat) (image : Image) : Snapshot :=
  { s with counter := s.counter + 1, images := s.images.set i image }

def kMagic : UInt32 := 0x4a534f44
def kCommit : UInt32 := 0x454e4f44
def kCrcOffset : Nat := 236
def kCommitOffset : Nat := 240

/-- The checksum's place in a record written in units of `writeSize`. -/
def crcOffset (writeSize : UInt32) : Nat := if writeSize = 32 then 220 else kCrcOffset

/-- The trailer's place in a record written in units of `writeSize`. -/
def commitOffset (writeSize : UInt32) : Nat := if writeSize = 32 then 224 else kCommitOffset

/-- The format version of records written in units of `writeSize`. -/
def formatVersion (writeSize : UInt32) : UInt32 := if writeSize = 32 then 2 else 1

def boolByte (b : Bool) : UInt8 := if b then 1 else 0

/-- The fields of an image whose place in the record is `pos`. -/
def Image.fields (image : Image) (pos : Nat) : List (Nat × Bytes) :=
  [(pos, leBytes 8 image.installation.toNat),
    (pos + 8, leBytes 4 image.size.toNat),
    (pos + 12, leBytes 4 image.crc.toNat),
    (pos + 16, leBytes 4 image.state.code.toNat),
    (pos + 20, leBytes 4 image.product.toNat),
    (pos + 24, leBytes 4 image.revision.toNat),
    (pos + 28, leBytes 4 image.version.major.toNat),
    (pos + 32, leBytes 4 image.version.minor.toNat),
    (pos + 36, leBytes 4 image.version.build.toNat),
    (pos + 40, image.version.commit.toList),
    (pos + 81, [boolByte image.version.dirty])]

def Snapshot.fields (snapshot : Snapshot) (writeSize : UInt32) : List (Nat × Bytes) :=
  [(0, leBytes 4 kMagic.toNat),
    (4, leBytes 4 (formatVersion writeSize).toNat),
    (8, leBytes 8 snapshot.sequence.toNat),
    (16, leBytes 8 snapshot.counter.toNat)] ++
  snapshot.images.a.fields 24 ++ snapshot.images.b.fields 120

/-- The record before its checksum is known. -/
def encodeBody (snapshot : Snapshot) (writeSize : UInt32) : Bytes :=
  writes (List.replicate kRecordSize 0) (snapshot.fields writeSize)

def encode (snapshot : Snapshot) (writeSize : UInt32 := 16) : Bytes :=
  let crcAt := crcOffset writeSize
  let commitAt := commitOffset writeSize
  let bytes := encodeBody snapshot writeSize
  let bytes := write32 bytes crcAt (Crc32.calculate (bytes.take crcAt))
  let bytes := write32 bytes commitAt kCommit
  let bytes := write64 bytes (commitAt + 4) snapshot.sequence
  write32 bytes (commitAt + 12) (~~~kCommit)

/-- The image at `pos`, refused when its state is unknown or its installation exceeds `counter`. -/
def decodeImage (bytes : Bytes) (counter : UInt64) (pos : Nat) : Option Image :=
  let installation := read64 bytes pos
  match ImageState.ofCode? (read32 bytes (pos + 16)) with
  | none => none
  | some state =>
    if installation > counter then none
    else some
      { installation, state
        size := read32 bytes (pos + 8)
        crc := read32 bytes (pos + 12)
        product := read32 bytes (pos + 20)
        revision := read32 bytes (pos + 24)
        version :=
          { major := read32 bytes (pos + 28)
            minor := read32 bytes (pos + 32)
            build := read32 bytes (pos + 36)
            -- The last byte of the name is always its terminator.
            commit := Vector.ofFn fun i =>
              if i.val = 40 then 0 else bytes.getD (pos + 40 + i.val) 0
            dirty := bytes.getD (pos + 81) 0 != 0 } }

/-- The snapshot of a record, if it is a committed record of either version. -/
def decode (bytes : Bytes) : Option Snapshot :=
  let version := read32 bytes 4
  let crcAt := if version = 2 then 220 else kCrcOffset
  let commitAt := if version = 2 then 224 else kCommitOffset
  if read32 bytes 0 ≠ kMagic ∨ (version ≠ 1 ∧ version ≠ 2) ∨
      read32 bytes commitAt ≠ kCommit ∨
      read32 bytes (commitAt + 12) ≠ ~~~kCommit ∨
      read64 bytes (commitAt + 4) ≠ read64 bytes 8 ∨
      read32 bytes crcAt ≠ Crc32.calculate (bytes.take crcAt) then none
  else if version = 2 ∧ ¬(bytes.drop 240).all (· == 0) then none
  else
    let counter := read64 bytes 16
    if read64 bytes 8 = 0 then none
    else
      match decodeImage bytes counter 24, decodeImage bytes counter 120 with
      | some a, some b => some { sequence := read64 bytes 8, counter, images := ⟨a, b⟩ }
      | _, _ => none

end DaveOs.Boot
