import DaveOs.Boot.Flash
import DaveOs.Otp.Record

/-!
# Write-once records in flash (`lib/otp/driver.h`, `lib/otp/flash.h`, `lib/otp/flash.cpp`)

`FlashOtp` keeps each record in a 256-byte slot of sixteen flash words: a claim, four words of body, a
commit, and ten words of which any one, holding the lock marker, locks the slot. The record's type is
only in the commit, which is programmed last. Nothing is ever erased.
-/

namespace DaveOs.Otp

open Bytes Wire

inductive Storage
  | unused
  | consumed
  | unreadable
  deriving DecidableEq, Repr

structure Block where
  record : Record
  storage : Storage := .unused
  locked : Bool := false
  deriving DecidableEq, Repr

structure ProgramResult where
  status : Status
  attempted : Bool
  deriving DecidableEq, Repr

/-- `Driver`: a backend's callbacks over its context `δ`. -/
structure Driver (σ δ : Type) where
  blocks : Nat := kBlockCount
  blockSize : Nat := kRecordSize
  init : δ → Crash σ (Status × δ)
  inspect : δ → Nat → Crash σ (Status × Block)
  program : δ → Nat → Record → Crash σ (ProgramResult × δ)
  lock : δ → Nat → Crash σ (Status × δ)

def kSlotSize : Nat := 256
def kSize : Nat := kBlockCount * kSlotSize
def kWriteTimeout : Nat := 100000
def kPollBudget : Nat := 1000000
def kClaim : UInt32 := 0x3143504f
def kCommit : UInt32 := 0x3144504f
def kLock : UInt32 := 0x314c504f
def kBodyOffset : Nat := 16
def kCommitOffset : Nat := 80
def kLockOffset : Nat := 96

def erased (bytes : Bytes) : Bool := bytes.all (· == 0xff)

def marker (kind block tag : UInt32) (body : Bytes) : Bytes :=
  let word := List.replicate 16 0
  let word := write32 word 0 kind
  let word := write32 word 4 block
  let word := write32 word 8 tag
  let crc := Crc32.calculate (word.take 12)
  write32 word 12 (Crc32.update crc body)

/-- A slot as it was read, word by word; `none` is a word the flash reported bad. -/
abbrev Image := List (Option Bytes)

/-- The bytes of a word; a bad word keeps the ones the image was filled with. -/
def Image.word (image : Image) (i : Nat) : Bytes :=
  (image.getD i none).getD (List.replicate 16 0xff)

def Image.body (image : Image) : Bytes :=
  image.word 1 ++ image.word 2 ++ image.word 3 ++ image.word 4

/-- `Inspect`, once the slot has been read. -/
def examine (attempted : Bool) (block : Nat) (image : Image) : Block :=
  let tag := read32 (image.word 5) 8
  if !attempted ∧ image.all (fun w => w.any erased) then { record := .blank }
  else if (image.take 6).any Option.isNone then { record := .blank, storage := .unreadable }
  else if image.word 0 ≠ marker kClaim (UInt32.ofNat block) 1 [] ∨ tag.toNat ≥ 0xffff ∨
      image.word 5 ≠ marker kCommit (UInt32.ofNat block) tag image.body then
    { record := .blank, storage := .consumed }
  else
    let record : Record := ⟨splice image.body 0 [UInt8.ofNat tag.toNat, UInt8.ofNat (tag.toNat / 256)]⟩
    let lock := marker kLock (UInt32.ofNat block) (read32 record.bytes 4) []
    { record := record, storage := .consumed, locked := (image.drop 6).any (· == some lock) }

structure FlashOtp where
  base : Nat
  attempted : Nat → Bool := fun _ => false
  lockNext : Nat → Nat := fun _ => 0
  initialized : Bool := false
  timedOut : Bool := false

namespace FlashOtp

variable {σ : Type} (flash : Boot.Flash σ)

def init (f : FlashOtp) : Crash σ (Status × FlashOtp) :=
  if f.initialized then pure (.alreadyInitialized, f)
  else if f.base % kSize ≠ 0 ∨ f.base > 0xffffffff - kSize then pure (.incompatible, f)
  else pure (.ok, { f with initialized := true })

/-- The loop of `Load` over the `n` words from `pos`. -/
def loadWords : Nat → Nat → Crash σ (Status × Image)
  | 0, _ => pure (.ok, [])
  | n + 1, pos => do
    let (status, bytes) ← flash.read pos 16
    if status ≠ .ok ∧ status ≠ .ioError then pure (status, [])
    else do
      let (rest, image) ← loadWords n (pos + 16)
      pure (rest, (if status = .ok then some bytes else none) :: image)

def load (f : FlashOtp) (block : Nat) : Crash σ (Status × Image) :=
  if !f.initialized then pure (.notRunning, [])
  else if f.timedOut then pure (.timeout, [])
  else if block ≥ kBlockCount then pure (.invalidArgument, [])
  else loadWords flash 16 (f.base + block * kSlotSize)

def inspect (f : FlashOtp) (block : Nat) : Crash σ (Status × Block) := do
  let (status, image) ← f.load flash block
  if status ≠ .ok then pure (status, { record := .blank })
  else pure (.ok, examine (f.attempted block) block image)

/-- The poll loop of `Write`: the status that ended it, or none when it gave up. -/
def await (start : Nat) : Nat → Crash σ (Option Status)
  | 0 => pure none
  | n + 1 => do
    let status ← flash.poll
    if status ≠ .busy then pure (some status)
    else do
      let now ← flash.now
      if (now : Nat) - start ≥ kWriteTimeout then pure none else await start n

def write (f : FlashOtp) (block offset : Nat) (word : Bytes) :
    Crash σ (ProgramResult × FlashOtp) := do
  let status ← flash.program (f.base + block * kSlotSize + offset) word
  if status ≠ .ok then pure (⟨status, false⟩, f)
  else do
    let f := { f with attempted := Function.update f.attempted block true }
    let start ← flash.now
    match ← await flash start kPollBudget with
    | some status => pure (⟨status, true⟩, f)
    | none => pure (⟨.timeout, true⟩, { f with timedOut := true })

/-- The body loop of `Program` over the words that are left, with their offsets. A word of ones is
left virgin. -/
def writeBody (block : Nat) : List (Nat × Bytes) → FlashOtp → Crash σ (Status × FlashOtp)
  | [], f => pure (.ok, f)
  | (offset, bytes) :: rest, f =>
    if erased bytes then writeBody block rest f
    else do
      let (result, f) ← f.write flash block (kBodyOffset + offset) bytes
      if result.status ≠ .ok then pure (result.status, f) else writeBody block rest f

/-- The words of a body, with their offsets in it. -/
def bodyWords (body : Bytes) : List (Nat × Bytes) :=
  [0, 16, 32, 48].map fun offset => (offset, slice body offset 16)

/-- `Program` of an unused block. -/
def commit (f : FlashOtp) (block : Nat) (record : Record) : Crash σ (ProgramResult × FlashOtp) := do
  let (result, f) ← f.write flash block 0 (marker kClaim (UInt32.ofNat block) 1 [])
  if result.status ≠ .ok then pure (result, f)
  else do
    let body := splice record.bytes 0 [0xff, 0xff]
    let (status, f) ← writeBody flash block (bodyWords body) f
    if status ≠ .ok then pure (⟨status, true⟩, f)
    else do
      let (result, f) ← f.write flash block kCommitOffset
        (marker kCommit (UInt32.ofNat block) (UInt32.ofNat record.type) body)
      pure (⟨result.status, true⟩, f)

def program (f : FlashOtp) (block : Nat) (record : Record) :
    Crash σ (ProgramResult × FlashOtp) := do
  let (status, before) ← f.inspect flash block
  if status ≠ .ok then pure (⟨status, false⟩, f)
  else if before.storage ≠ .unused ∨ before.locked then pure (⟨.rejected, false⟩, f)
  else f.commit flash block record

/-- The scan of `Lock`: the word after the last used one, from word `i` on. -/
def lockWord : Image → Nat → Nat → Nat
  | [], _, next => next
  | w :: rest, i, next => lockWord rest (i + 1) (if w.any erased then next else i + 1)

/-- `Lock` of a consumed, valid and unlocked block that has been read. -/
def mark (f : FlashOtp) (block : Nat) (record : Record) (image : Image) :
    Crash σ (Status × FlashOtp) :=
  let next := max (lockWord (image.drop 6) 6 6) (f.lockNext block)
  if next = 16 then pure (.ioError, f)
  else do
    let (result, f) ← f.write flash block (next * 16)
      (marker kLock (UInt32.ofNat block) (read32 record.bytes 4) [])
    pure (result.status, if result.attempted then
      { f with lockNext := Function.update f.lockNext block (next + 1) } else f)

def lock (f : FlashOtp) (block : Nat) : Crash σ (Status × FlashOtp) := do
  let (status, current) ← f.inspect flash block
  if status ≠ .ok ∨ current.locked then pure (status, f)
  else if current.storage ≠ .consumed ∨ !current.record.valid then pure (.rejected, f)
  else do
    let (status, image) ← f.load flash block
    if status ≠ .ok then pure (status, f) else f.mark flash block current.record image

def driver : Driver σ FlashOtp where
  init := init
  inspect f := f.inspect flash
  program f := f.program flash
  lock f := f.lock flash

end FlashOtp

end DaveOs.Otp
