import DaveOs.Otp.Flash

/-!
# The OTP store (`lib/otp/store.h`, `lib/otp/store.cpp`)

`Store` scans all blocks once, keeps the newest valid serial number in memory, and appends a new record
for every changed value.
-/

namespace DaveOs.Otp

open Bytes

/-- The phases an error is recorded with. -/
inductive Phase
  | none
  | scan
  | program
  | verify
  | lock
  deriving DecidableEq, Repr

inductive Kind
  | unused
  | valid
  | invalid
  | unknown
  | unreadable
  deriving DecidableEq, Repr

/-- The error fields of `Snapshot` that the store keeps. -/
structure Diagnostics where
  errors : UInt32 := 0
  phase : Phase := .none
  errorBlock : Option Nat := none
  error : Status := .ok
  deriving DecidableEq, Repr

def classify (block : Block) : Kind :=
  if block.storage = .unreadable then .unreadable
  else if block.storage = .unused ∧ !block.locked then .unused
  else if !block.record.valid then .invalid
  else if block.record.type ≠ serialNumber then .unknown
  else if validSerial block.record.payload then .valid
  else .invalid

/-- The object's fields; `context` is the driver's. -/
structure Store (δ : Type) where
  context : δ
  kinds : Nat → Kind := fun _ => .unused
  serialData : Record := ⟨List.replicate kRecordSize 0⟩
  serialBlock : Option Nat := none
  next : Nat := 0
  initialized : Bool := false
  ready : Bool := false
  locked : Bool := false
  diagnostics : Diagnostics := {}

structure Snapshot where
  ready : Bool
  consumed : Nat
  remaining : Nat
  gaps : Nat
  invalid : Nat
  unknown : Nat
  unreadable : Nat
  serialBlock : Option Nat
  serialLocked : Bool
  diagnostics : Diagnostics
  deriving DecidableEq, Repr

namespace Store

variable {σ δ : Type} (driver : Driver σ δ)

/-- `Error`, without the status it returns. -/
def error (s : Store δ) (status : Status) (phase : Phase) (block : Option Nat) : Store δ :=
  { s with diagnostics := {
      errors := if s.diagnostics.errors ≠ 0xffffffff then s.diagnostics.errors + 1
        else s.diagnostics.errors
      phase := phase, errorBlock := block, error := status } }

/-- One block of the scan of `init`. -/
def scanned (s : Store δ) (i : Nat) (block : Block) : Store δ :=
  let kind := classify block
  let s := { s with kinds := Function.update s.kinds i kind }
  let s := if kind ≠ .unused then { s with next := i + 1 } else s
  let s := if kind = .unreadable then s.error .ioError .scan (some i) else s
  if kind = .valid then
    { s with serialData := block.record, serialBlock := some i, locked := block.locked }
  else s

/-- The scan of `init`, over the `n` blocks from `i`. -/
def scan : Nat → Nat → Store δ → Crash σ (Status × Store δ)
  | 0, _, s => pure (.ok, { s with ready := true })
  | n + 1, i, s => do
    let (status, block) ← driver.inspect s.context i
    if status ≠ .ok then pure (status, s.error status .scan (some i))
    else scan n (i + 1) (s.scanned i block)

def init (s : Store δ) : Crash σ (Status × Store δ) :=
  if s.initialized then
    pure (if s.ready then .alreadyInitialized else .initializationFailed, s)
  else
    let s := { s with initialized := true }
    if driver.blocks ≠ kBlockCount ∨ driver.blockSize ≠ kRecordSize then
      pure (.incompatible, s.error .incompatible .scan none)
    else do
      let (status, context) ← driver.init s.context
      let s := { s with context := context }
      if status ≠ .ok then pure (status, s.error status .scan none)
      else scan driver kBlockCount 0 s

def serial (s : Store δ) : Option Bytes :=
  if !s.ready ∨ s.serialBlock = none then none else some s.serialData.payload

def lock (s : Store δ) (index : Nat) : Crash σ (Status × Store δ) := do
  let (status, context) ← driver.lock s.context index
  let s := { s with context := context }
  let (inspected, block) ← driver.inspect s.context index
  let s := { s with locked := inspected = .ok ∧ block.locked }
  if status ≠ .ok then pure (status, s.error status .lock (some index))
  else if !s.locked then
    let status := if inspected = .ok then .ioError else inspected
    pure (status, s.error status .lock (some index))
  else pure (.ok, s)

/-- `set_serial` of a record that has been programmed: verification and lock. -/
def verify (s : Store δ) (index : Nat) (proposed : Record) : Crash σ (Status × Store δ) := do
  let (status, block) ← driver.inspect s.context index
  if status ≠ .ok ∨ block.storage = .unreadable then
    let status := if status = .ok then .ioError else status
    let s := { s with kinds := Function.update s.kinds index .unreadable }
    pure (status, s.error status .verify (some index))
  else if classify block ≠ .valid ∨ block.record.bytes ≠ proposed.bytes then
    pure (.checksumError, s.error .checksumError .verify (some index))
  else
    ({ s with
      kinds := Function.update s.kinds index .valid, serialData := block.record,
      serialBlock := some index, locked := block.locked }).lock driver index

/-- `set_serial` of a value that needs a new record. -/
def append (s : Store δ) (value : Bytes) : Crash σ (Status × Store δ) := do
  let proposed := serialRecord value
  let index := s.next
  let (result, context) ← driver.program s.context index proposed
  let s := { s with context := context }
  let s := if result.attempted ∨ result.status = .ok then
    { s with next := s.next + 1, kinds := Function.update s.kinds index .invalid } else s
  if result.status ≠ .ok then
    pure (result.status, s.error result.status .program (some index))
  else s.verify driver index proposed

def setSerial (s : Store δ) (value : Bytes) : Crash σ (Status × Store δ) :=
  if !s.ready then pure (.notRunning, s)
  else if !validSerial value then pure (.invalidArgument, s)
  else
    match s.serialBlock with
    | some block =>
      if s.serialData.payload = value then
        if s.locked then pure (.ok, s) else s.lock driver block
      else if s.next = kBlockCount then pure (.full, s)
      else s.append driver value
    | none => if s.next = kBlockCount then pure (.full, s) else s.append driver value

def snapshot (s : Store δ) : Snapshot :=
  let count (kind : Kind) := (List.range kBlockCount).countP fun i => s.kinds i = kind
  let consumed := (List.range kBlockCount).countP fun i => s.kinds i ≠ .unused
  { ready := s.ready
    consumed := consumed
    remaining := if s.ready then kBlockCount - s.next else 0
    gaps := s.next - consumed
    invalid := count .invalid
    unknown := count .unknown
    unreadable := count .unreadable
    serialBlock := if s.ready then s.serialBlock else none
    serialLocked := s.ready && s.locked
    diagnostics := s.diagnostics }

end Store

end DaveOs.Otp
