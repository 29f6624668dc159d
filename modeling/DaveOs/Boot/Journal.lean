import DaveOs.Boot.Flash

/-!
# The boot journal (`Journal` of `lib/boot/journal.cpp`)

Two independently erasable metadata sectors hold records. `load` finds the newest one, `begin`
chooses where the next record goes, and `tick` writes it one flash operation at a time: erase if
needed, program unit by unit, read back. A runtime caller that executes from one bank appends to the
other; before it erases that bank it checkpoints the newest record in its own.

Addresses are the source's 32-bit numbers; a scan's `at += kRecordSize` wraps as it does there.
-/

namespace DaveOs.Boot

open Bytes Wire

/-- The states of the journal's machine. -/
inductive JournalState
  | idle
  | erase
  | eraseWait
  | write
  | writeWait
  | verify
  | done
  | failed
  deriving DecidableEq, Repr

/-- The journal's own variables, all lost with power. -/
structure Journal where
  record : Bytes := List.replicate kRecordSize 0
  pendingRecord : Bytes := List.replicate kRecordSize 0
  pendingTarget : Nat := 0
  checkpoint : Bool := false
  eraseOnly : Bool := false
  state : JournalState := .idle
  status : Status := .ok
  target : Nat := 0
  latest : Nat := 0
  offset : Nat := 0
  operationStarted : Time := 0
  requested : Bool := false
  eraseNeeded : Bool := false
  timedOut : Bool := false
  deriving DecidableEq, Repr

variable {σ : Type} (flash : Flash σ) (layout : Layout)

/-- Whether a slot reads as erased; its identifying header is tried first. -/
def erased (pos : Nat) : Crash σ Bool := do
  let (result, header) ← flash.read pos 16
  if result ≠ .ok ∨ ¬header.all (· == 0xff) then pure false
  else do
    let (result, rest) ← flash.read (pos + 16) 240
    pure (result == .ok && rest.all (· == 0xff))

/-- The next 32-bit address of a scan. -/
def nextRecord (pos : Nat) : Nat := (pos + kRecordSize) % 4294967296

/-- The first erased slot from `pos` up to `limit`. -/
def findErased (pos limit : Nat) : Crash σ (Option Nat) :=
  Crash.loop (fun s => flash.fuel s + 1) (fun pos =>
    if pos < limit then do
      if ← erased flash pos then pure (.inr (some pos))
      else pure (.inl (nextRecord pos))
    else pure (.inr none)) pos

structure Best where
  snapshot : Snapshot
  record : Bytes
  pos : Nat
  deriving DecidableEq, Repr

structure Scan where
  best : Option Best := none
  readFailed : Bool := false
  deriving DecidableEq, Repr

/-- The scan at one slot; the flag says that it met two different records of one sequence. -/
def scanRecord (pos : Nat) (scan : Scan) : Crash σ (Bool × Scan) := do
  let (result, header) ← flash.read pos 16
  if result ≠ .ok then pure (false, { scan with readFailed := true })
  else if read32 header 0 ≠ kMagic ∨ (read32 header 4 ≠ 1 ∧ read32 header 4 ≠ 2) then
    pure (false, scan)
  else if scan.best.any (fun best => read64 header 8 < best.snapshot.sequence) then
    pure (false, scan)
  else do
    let (result, rest) ← flash.read (pos + 16) 240
    if result ≠ .ok then pure (false, { scan with readFailed := true })
    else
      match decode (header ++ rest) with
      | none => pure (false, scan)
      | some candidate =>
        let found : Best := { snapshot := candidate, record := header ++ rest, pos }
        match scan.best with
        | none => pure (false, { scan with best := some found })
        | some best =>
          if candidate.sequence = best.snapshot.sequence ∧ found.record ≠ best.record then
            pure (true, scan)
          else if candidate.sequence > best.snapshot.sequence then
            pure (false, { scan with best := some found })
          else pure (false, scan)

/-- The scan over a list of slots, stopped by a conflict. -/
def scanRecords : List Nat → Scan → Crash σ (Bool × Scan)
  | [], scan => pure (false, scan)
  | pos :: rest, scan => do
    let (conflict, scan) ← scanRecord flash pos scan
    if conflict then pure (true, scan) else scanRecords rest scan

/-- The slots of metadata sector `i`, the last one first. -/
def Layout.records (i : Nat) : List Nat :=
  (List.range (layout.sector / kRecordSize)).reverse.map fun k => layout.bank i + kRecordSize * k

namespace Journal

/-- The newest committed snapshot, and the journal with `latest` at its place. -/
def load (j : Journal) : Crash σ (Status × Snapshot × Journal) :=
  if ¬layout.valid then pure (.invalidArgument, {}, j)
  else do
    if (← flash.poll) = .busy then pure (.busy, {}, j)
    else do
      let (conflict, scan) ← scanRecords flash (layout.records 0 ++ layout.records 1) {}
      match scan.best with
      | none => pure (if scan.readFailed then .ioError else .notFound, {}, j)
      | some best =>
        let j := { j with latest := best.pos }
        if conflict then pure (.checksumError, {}, j)
        else pure (.ok, best.snapshot, j)

def latestBank (j : Journal) : Nat :=
  if layout.bank 1 ≤ j.latest ∧ j.latest - layout.bank 1 < layout.sector then 1 else 0

/-- Whether the newest record is in bank `i`. -/
def latestIn (j : Journal) (i : Nat) : Bool :=
  decide (layout.bank i ≤ j.latest ∧ j.latest < layout.bank i + layout.sector)

/-- Where the next record goes at boot: after the newest one, or into the other bank. -/
def placeAppend (loaded : Bool) (j : Journal) : Crash σ Journal :=
  let j := { j with eraseNeeded := true, target := layout.bank 0 }
  if loaded then do
    let bank := j.latestBank layout
    match ← findErased flash (nextRecord j.latest) (layout.bank bank + layout.sector) with
    | some pos => pure { j with target := pos, eraseNeeded := false }
    | none => pure { j with target := layout.bank (1 - bank) }
  else pure j

/-- The first erased slot of bank `i`. -/
def freeRecord (i : Nat) : Crash σ (Option Nat) :=
  findErased flash (layout.bank i) (layout.bank i + layout.sector)

/-- Where the next record goes when bank `executing` is executing: into the other bank. The bank it
executes from is never erased; it receives a checkpoint of the newest record before the other bank
is. -/
def placeRuntime (executing : Nat) (loaded : Bool) (j : Journal) : Crash σ (Status × Journal) := do
  let inactive := 1 - executing
  match ← freeRecord flash layout inactive with
  | some pos => pure (.ok, { j with target := pos, eraseNeeded := false })
  | none =>
    let j := { j with target := layout.bank inactive, eraseNeeded := true }
    if loaded && j.latestIn layout inactive then do
      match ← freeRecord flash layout executing with
      | none => pure (.full, j)
      | some checkpoint =>
        let j := { j with pendingRecord := j.record, pendingTarget := j.target }
        -- Preserve the exact encoding for duplicate-sequence validation.
        let (result, record) ← flash.read j.latest kRecordSize
        if result ≠ .ok then pure (.ioError, j)
        else
          pure (.ok, { j with
            record, target := checkpoint, checkpoint := true, eraseNeeded := false })
    else pure (.ok, j)

def place (loaded : Bool) (j : Journal) : Crash σ (Status × Journal) := do
  let j ← placeAppend flash layout loaded j
  let executing := flash.executingBank.getD 2
  if executing < 2 then placeRuntime flash layout executing loaded j
  else pure (.ok, j)

/-- Accepts a snapshot to be written after the newest one; `fresh` is the source's `initialize`,
which also accepts a first record. -/
def begin (j : Journal) (snapshot : Snapshot) (fresh : Bool := false) :
    Crash σ (Status × Journal) :=
  if j.status = .busy then pure (.busy, j)
  else do
    let (loaded, current, j) ← load flash layout j
    if loaded ≠ .ok ∧ ¬(fresh ∧ loaded = .notFound) then pure (loaded, j)
    else if (← flash.poll) = .busy then pure (.busy, j)
    else if current.sequence = 0xffffffffffffffff ∨ snapshot.counter < current.counter then
      pure (.counterExhausted, j)
    else
      let next := { snapshot with sequence := current.sequence + 1 }
      let j := { j with
        record := encode next layout.writeSize, checkpoint := false, eraseOnly := false }
      if (decode j.record).isNone then pure (.invalidArgument, j)
      else do
        let (result, j) ← place flash layout (loaded == .ok) j
        if result ≠ .ok then pure (result, j)
        else
          pure (.ok, { j with
            offset := 0, timedOut := false, requested := true, status := .busy })

def step (j : Journal) : Crash σ Journal :=
  match j.state with
  | .idle | .done | .failed =>
    if j.requested then
      pure { j with requested := false, state := if j.eraseNeeded then .erase else .write }
    else pure j
  | .erase =>
    if j.timedOut then pure { j with status := .timeout, state := .failed }
    else do
      let result ← flash.erase j.target
      if result ≠ .ok then
        pure { j with status := if result = .busy then .ioError else result, state := .failed }
      else pure { j with state := .eraseWait }
  | .eraseWait => do
    let result ← flash.poll
    if result = .busy ∧ ¬j.timedOut then pure j
    else if result ≠ .ok ∨ j.timedOut then
      pure { j with status := if j.timedOut then .timeout else result, state := .failed }
    else if j.eraseOnly then pure { j with status := .ok, state := .done }
    else pure { j with state := .write }
  | .writeWait => do
    let result ← flash.poll
    if result = .busy ∧ ¬j.timedOut then pure j
    else if result ≠ .ok ∨ j.timedOut then
      pure { j with status := if j.timedOut then .timeout else result, state := .failed }
    else
      let offset := j.offset + layout.unit
      pure { j with offset, state := if offset = j.record.length then .verify else .write }
  | .write =>
    if j.timedOut then pure { j with status := .timeout, state := .failed }
    else do
      let result ← flash.program (j.target + j.offset) (slice j.record j.offset layout.unit)
      if result ≠ .ok then
        pure { j with status := if result = .busy then .ioError else result, state := .failed }
      else pure { j with state := .writeWait }
  | .verify => do
    let (result, readback) ← flash.read j.target kRecordSize
    if result ≠ .ok then pure { j with status := result, state := .failed }
    else if readback ≠ j.record then pure { j with status := .checksumError, state := .failed }
    else if j.checkpoint then
      pure { j with
        record := j.pendingRecord, target := j.pendingTarget, offset := 0, checkpoint := false,
        status := .busy, state := .erase }
    else pure { j with status := .ok, state := .done }

/-- Watches the deadline of the operation. -/
def watch (j : Journal) : Crash σ Journal :=
  if j.requested then do
    let now ← flash.now
    pure { j with operationStarted := now }
  else if j.status = .busy then do
    let now ← flash.now
    pure (if now - j.operationStarted ≥ layout.operationTimeout then { j with timedOut := true }
      else j)
  else pure j

def tick (j : Journal) : Crash σ Journal := do
  let j ← watch flash layout j
  step flash layout j

/-- Ticks until the operation ends, with a deadline of its own. -/
def drive (start timeout : Time) (j : Journal) : Crash σ Journal :=
  Crash.loop (fun s => flash.fuel s + 1) (fun j =>
    if j.status = .busy then do
      let now ← flash.now
      let j ← tick flash layout { j with timedOut := decide (now - start ≥ timeout) }
      pure (.inl j)
    else pure (.inr j)) j

/-- Bounded foreground write of a snapshot. -/
def commit (j : Journal) (snapshot : Snapshot) (timeout : Time := 0) (fresh : Bool := false) :
    Crash σ (Status × Journal) := do
  let timeout := if timeout = 0 then layout.operationTimeout else timeout
  let (result, j) ← begin flash layout j snapshot fresh
  if result ≠ .ok then pure (result, j)
  else do
    let start ← flash.now
    let j ← drive flash layout start timeout j
    pure (j.status, j)

/-- The `run` of `prepare_runtime`: an operation set up by hand, driven to its end. -/
def runRequest (j : Journal) (timeout : Time) : Crash σ (Status × Journal) := do
  let j := { j with
    offset := 0, timedOut := false, checkpoint := false, requested := true, status := .busy }
  let start ← flash.now
  let j ← drive flash layout start timeout j
  pure (j.status, j)

/-- Whether every slot from `pos` up to `limit` reads as erased. -/
def allErased (pos limit : Nat) : Crash σ Bool :=
  Crash.loop (fun s => flash.fuel s + 1) (fun pos =>
    if pos < limit then do
      if ← erased flash pos then pure (.inl (nextRecord pos))
      else pure (.inr false)
    else pure (.inr true)) pos

/-- The first half of `prepare_runtime`: the newest record, when it is in `bank`, is copied to the
other bank. -/
def preserve (j : Journal) (bank : Nat) (timeout : Time) : Crash σ (Status × Journal) :=
  if j.latestIn layout bank then do
    let (result, record) ← flash.read j.latest kRecordSize
    if result ≠ .ok then pure (.ioError, j)
    else do
      let other := layout.bank (1 - bank)
      let j := { j with record, eraseOnly := false }
      match ← findErased flash other (other + layout.sector) with
      | some pos =>
        runRequest flash layout { j with target := pos, eraseNeeded := false } timeout
      | none => runRequest flash layout { j with target := other, eraseNeeded := true } timeout
  else pure (.ok, j)

/-- Boot-only maintenance: preserve the newest record in the other bank, then erase this bank's
checkpoint area before handing off to its application. -/
def prepareRuntime (j : Journal) (bank : Nat) (timeout : Time := 5000000) :
    Crash σ (Status × Journal) :=
  if bank ≥ 2 ∨ flash.executingBank.any (· < 2) then pure (.unsupported, j)
  else if j.status = .busy then pure (.busy, j)
  else do
    let (result, _, j) ← load flash layout j
    if result ≠ .ok then pure (result, j)
    else do
      let (result, j) ← preserve flash layout j bank timeout
      if result ≠ .ok then pure (result, j)
      else if ← allErased flash (layout.bank bank) (layout.bank bank + layout.sector) then
        pure (.ok, j)
      else
        runRequest flash layout
          { j with target := layout.bank bank, eraseNeeded := true, eraseOnly := true } timeout

end Journal

end DaveOs.Boot
