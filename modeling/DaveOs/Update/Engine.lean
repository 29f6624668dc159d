import DaveOs.Boot.Journal
import DaveOs.Update.Package
import DaveOs.Update.Writer

/-!
# The update engine (`Engine` of `lib/update/engine.cpp`)

The transport-independent owner of an installation. `begin` admits a package for the slot that is
not running, `chunk` hands over its bytes, and `tick` does the work: invalidate the destination in
the journal, receive and write blocks, read the slot back, commit it as pending. An abort at any
point ends in `failed`, with a candidate that had been committed already invalidated again.
-/

namespace DaveOs.Update

open Boot Bytes

/-- The states of the engine's machine. -/
inductive EngineState
  | disabled
  | idle
  | invalidating
  | receiving
  | writing
  | verifying
  | committing
  | done
  | aborting
  | failed
  deriving DecidableEq, Repr

/-- The engine. An owner is a local source's identity; the network's is none. -/
structure Engine where
  owner : Option Nat := none
  runningSlot : Nat
  journal : Journal := {}
  writer : Writer := {}
  reader : PackageReader := {}
  header : Header := {}
  snapshot : Snapshot := {}
  /-- The bytes of the chunk in the receive buffer. -/
  rx : Bytes := []
  state : EngineState := .disabled
  status : Status := .notRunning
  abortReason : Status := .rejected
  received : Nat := 0
  verifyOffset : Nat := 0
  verifyCrc : UInt32 := 0
  rxAt : Nat := 0
  waitingSince : Time := 0
  inactivity : Time := 30000000
  enabled : Bool := false
  requested : Bool := false
  abortRequested : Bool := false
  deriving DecidableEq, Repr

namespace Engine

/-! ## What the engine shows and the requests it takes at once -/

def destination (e : Engine) : Nat := 1 - e.runningSlot

def authorized (e : Engine) : Bool := e.enabled || e.owner.isSome

/-- The size of the package after its header. -/
def total (e : Engine) : Nat := e.header.packageSize.toNat - kHeaderSize

/-- Nothing to do unless a request comes. -/
def resting (e : Engine) : Bool :=
  e.state = .disabled || e.state = .idle || e.state = .done || e.state = .failed

def active (e : Engine) : Bool := e.requested || !e.resting

def ready (e : Engine) : Bool :=
  e.authorized && !e.abortRequested && e.state = .receiving && e.rx.isEmpty &&
    decide (e.received < e.total) && e.reader.state ≠ .ready

def reserved (e : Engine) : Bool := e.owner.isSome

def enable (e : Engine) (value : Bool) : Engine := { e with enabled := value }

/-- Binds the running slot, as the platform does before anything else. -/
def bindRunningSlot (e : Engine) (slot : Nat) : Status × Engine :=
  if e.enabled ∨ e.state ≠ .disabled then (.busy, e)
  else if slot ≥ 2 then (.invalidArgument, e)
  else (.ok, { e with runningSlot := slot })

def reserve (e : Engine) (owner : Option Nat) : Status × Engine :=
  if owner.isNone then (.invalidArgument, e)
  else if e.owner.isSome ∨ e.active then (.busy, e)
  else (.ok, { e with owner })

def release (e : Engine) (owner : Option Nat) : Engine :=
  if e.owner = owner ∧ ¬e.active then { e with owner := none } else e

/-- A chunk is taken only when the engine is ready, in order, within the package and intact. -/
def chunk (e : Engine) (offset : Nat) (data : Bytes) (crc : UInt32) : Status × Engine :=
  if ¬e.ready then (.busy, e)
  else if data.isEmpty ∨ data.length > kBlockSize ∨ offset ≠ e.received ∨
      data.length > e.total - e.received then (.invalidArgument, e)
  else if Crc32.calculate data ≠ crc then (.checksumError, e)
  else (.ok, { e with rx := data, rxAt := 0, received := e.received + data.length })

def abort (e : Engine) (reason : Status := .rejected) : Engine :=
  if e.active then { e with abortRequested := true, abortReason := reason } else e

/-- The engine's own failures end it as an abort does. -/
def fail (e : Engine) (status : Status) : Engine :=
  { e with abortReason := status, abortRequested := true, state := .aborting }

/-! ## Requests and steps that use the flash -/

section flash

variable {σ : Type} (flash : Flash σ) (layout : Layout)

/-- Loads the newest snapshot; the one at hand stays when that fails. -/
def load (e : Engine) : Crash σ (Status × Engine) := do
  let (result, snapshot, journal) ← e.journal.load flash layout
  pure (result, { e with
    journal, snapshot := if result = .ok then snapshot else e.snapshot })

/-- Asks the journal to write the snapshot at hand. -/
def record (e : Engine) : Crash σ (Status × Engine) := do
  let (result, journal) ← e.journal.begin flash layout e.snapshot
  pure (result, { e with journal })

def begin (e : Engine) (bytes : Bytes) (owner : Option Nat := none) : Crash σ (Status × Engine) :=
  if e.owner ≠ owner then pure (.busy, e)
  else if ¬e.authorized then pure (.notRunning, e)
  else if e.active then pure (.busy, e)
  else if e.runningSlot ≥ 2 then pure (.unsupported, e)
  else
    match decodeHeader bytes layout e.destination with
    | .error result => pure (result, e)
    | .ok header => do
      let (result, e) ← { e with header }.load flash layout
      if result ≠ .ok then pure (result, e)
      else if (e.snapshot.images.get e.runningSlot).state ≠ .confirmed then
        pure (.notConfirmed, e)
      else if e.snapshot.counter = 0xffffffffffffffff then pure (.counterExhausted, e)
      else if (← flash.poll) = .busy then pure (.busy, e)
      else
        pure (.ok, { e with
          requested := true, abortRequested := false, received := 0, verifyOffset := 0,
          verifyCrc := 0, rx := [], rxAt := 0, status := .busy })

/-- The snapshot at hand with the destination's state changed. -/
def mark (e : Engine) (state : ImageState) : Engine :=
  { e with snapshot := e.snapshot.mark e.destination state }

/-- The verified image, under the next installation number. -/
def image (e : Engine) : Image where
  installation := e.snapshot.counter + 1
  size := e.header.imageSize
  crc := e.verifyCrc
  state := .pending
  product := e.header.product
  revision := e.header.revision
  version := e.header.version

/-- The snapshot at hand with the verified image in the destination. -/
def install (e : Engine) : Engine :=
  { e with snapshot := e.snapshot.install e.destination e.image }

def stepResting (e : Engine) : Crash σ Engine :=
  if e.requested then do
    let (result, e) ← ({ e with requested := false }.mark .incomplete).record flash layout
    if result = .ok then pure { e with state := .invalidating }
    else pure { e with status := result, state := .failed }
  else if ¬e.authorized then pure { e with state := .disabled }
  else if e.state = .disabled then pure { e with status := .ok, state := .idle }
  else pure e

def stepInvalidating (e : Engine) : Crash σ Engine := do
  let journal ← e.journal.tick flash layout
  let e := { e with journal }
  if ¬e.authorized ∨ e.abortRequested then pure { e with state := .aborting }
  else if e.journal.status = .busy then pure e
  else if e.journal.status ≠ .ok then
    pure { e with status := e.journal.status, state := .failed }
  else do
    let reader := ((e.reader.start e.header e.destination).tick).2
    let now ← flash.now
    pure { e with reader, waitingSince := now, state := .receiving }

/-- The parser takes what it can of the chunk at hand. -/
def feed (e : Engine) : Engine :=
  let (count, reader) := e.reader.tick (e.rx.drop e.rxAt)
  { e with reader, rxAt := e.rxAt + count }

/-- A chunk that is used up makes room for the next one. -/
def used (e : Engine) : Crash σ Engine :=
  if ¬e.rx.isEmpty ∧ e.rxAt = e.rx.length then do
    let now ← flash.now
    pure { e with rx := [], rxAt := 0, waitingSince := now }
  else pure e

def stepReceiving (e : Engine) : Crash σ Engine :=
  if ¬e.authorized ∨ e.abortRequested then pure { e with state := .aborting }
  else do
    let e ← e.feed.used flash
    if e.reader.state = .failed then pure (e.fail e.reader.status)
    else if e.reader.state = .ready then do
      let (result, writer) ← e.writer.begin flash layout e.destination e.reader.offset e.reader.block
      let e := { e with writer }
      if result = .ok then pure { e with state := .writing } else pure (e.fail result)
    else if e.reader.state = .done then
      if ¬e.rx.isEmpty ∨ e.received ≠ e.total then pure (e.fail .parseError)
      else pure { e with state := .verifying }
    else if e.rx.isEmpty ∧ e.received = e.total then pure (e.fail .parseError)
    else if e.rx.isEmpty then do
      let now ← flash.now
      if now - e.waitingSince ≥ e.inactivity then pure (e.fail .timeout) else pure e
    else pure e

def stepWriting (e : Engine) : Crash σ Engine :=
  if ¬e.authorized ∨ e.abortRequested then
    pure { e with writer := e.writer.cancel, state := .aborting }
  else do
    let writer ← e.writer.tick flash layout
    let e := { e with writer }
    if e.writer.status = .busy then pure e
    else if e.writer.status ≠ .ok then pure (e.fail e.writer.status)
    else do
      let now ← flash.now
      pure { e with reader := e.reader.release, waitingSince := now, state := .receiving }

/-- The verified image is committed as pending, unless it is not the announced one. -/
def commitImage (e : Engine) : Crash σ Engine :=
  if e.verifyCrc ≠ e.header.crc.get e.destination then pure (e.fail .checksumError)
  else do
    let (result, e) ← e.load flash layout
    if result ≠ .ok then pure (e.fail result)
    else if e.snapshot.counter = 0xffffffffffffffff then pure (e.fail .counterExhausted)
    else do
      let (result, e) ← e.install.record flash layout
      if result = .ok then pure { e with state := .committing } else pure (e.fail result)

def stepVerifying (e : Engine) : Crash σ Engine :=
  if ¬e.authorized ∨ e.abortRequested then pure { e with state := .aborting }
  else do
    let count := min 256 (e.header.imageSize.toNat - e.verifyOffset)
    let (result, bytes) ← flash.read (layout.slot e.destination + e.verifyOffset) count
    if result ≠ .ok then pure (e.fail result)
    else do
      let e := { e with
        verifyCrc := Crc32.update e.verifyCrc bytes, verifyOffset := e.verifyOffset + count }
      if e.verifyOffset = e.header.imageSize.toNat then e.commitImage flash layout else pure e

def stepCommitting (e : Engine) : Crash σ Engine := do
  let journal ← e.journal.tick flash layout
  let e := { e with journal }
  if ¬e.authorized ∨ e.abortRequested then pure { e with state := .aborting }
  else if e.journal.status = .busy then pure e
  else
    let e := { e with status := e.journal.status }
    if e.status = .ok then pure { e with state := .done } else pure (e.fail e.status)

def failed (e : Engine) (result : Status) : Engine :=
  { e with
    status := if result = .ok then e.abortReason else result, abortRequested := false, rx := [],
    rxAt := 0, state := .failed }

def stepAborting (e : Engine) : Crash σ Engine :=
  if e.writer.status = .busy then do
    let writer ← e.writer.cancel.tick flash layout
    pure { e with writer }
  else if e.journal.status = .busy then do
    let journal ← e.journal.tick flash layout
    pure { e with journal }
  else do
    if (← flash.poll) = .busy then pure e
    else do
      -- The final commit marker may have been in flight when the abort came: its candidate is
      -- invalidated again.
      let (result, e) ← e.load flash layout
      if result = .ok ∧ (e.snapshot.images.get e.destination).state = .pending then do
        let (result, e) ← (e.mark .incomplete).record flash layout
        if result = .ok then pure e else pure (e.failed result)
      else pure (e.failed result)

def step (e : Engine) : Crash σ Engine :=
  match e.state with
  | .disabled | .idle | .done | .failed => e.stepResting flash layout
  | .invalidating => e.stepInvalidating flash layout
  | .receiving => e.stepReceiving flash layout
  | .writing => e.stepWriting flash layout
  | .verifying => e.stepVerifying flash layout
  | .committing => e.stepCommitting flash layout
  | .aborting => e.stepAborting flash layout

def tick (e : Engine) : Crash σ Engine := e.step flash layout

end flash

end Engine

end DaveOs.Update
