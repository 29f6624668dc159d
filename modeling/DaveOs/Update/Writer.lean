import DaveOs.Boot.Flash

/-!
# The slot writer (`Writer` of `lib/update/writer.cpp`)

One block of an image at a time goes into a slot: a sector is erased when the first byte of it comes
up, then the block is programmed unit by unit, the last unit filled up with ones. The block is
borrowed from the parser, which keeps it until the writer has ended.
-/

namespace DaveOs.Update

open Boot

/-- The states of the writer's machine. -/
inductive WriterState
  | idle
  | prepare
  | eraseWait
  | programWait
  | done
  | failed
  deriving DecidableEq, Repr

structure Writer where
  state : WriterState := .idle
  status : Status := .ok
  data : Bytes := []
  base : Nat := 0
  offset : Nat := 0
  erasedUntil : Nat := 0
  written : Nat := 0
  operationStarted : Time := 0
  requested : Bool := false
  cancelled : Bool := false
  deriving DecidableEq, Repr

namespace Writer

variable {σ : Type} (flash : Flash σ) (layout : Layout)

/-- Accepts a block for `offset` of a slot. -/
def begin (w : Writer) (slot offset : Nat) (data : Bytes) : Crash σ (Status × Writer) :=
  if w.status = .busy then pure (.busy, w)
  else if ¬layout.valid ∨ slot ≥ 2 ∨ data.isEmpty ∨ offset % layout.unit ≠ 0 ∨
      offset ≥ layout.room ∨ data.length > layout.room - offset then
    pure (.invalidArgument, w)
  else do
    if (← flash.poll) = .busy then pure (.busy, w)
    else
      pure (.ok, { w with
        base := layout.slot slot, offset, erasedUntil := if offset = 0 then 0 else w.erasedUntil,
        written := 0, data, requested := true, cancelled := false, status := .busy })

def cancel (w : Writer) : Writer := { w with cancelled := true }

def position (w : Writer) : Nat := w.offset + w.written

/-- How many bytes the next unit takes from the block. -/
def count (w : Writer) : Nat := min layout.unit (w.data.length - w.written)

def word (w : Writer) : Bytes :=
  (w.data.drop w.written).take (w.count layout) ++
    List.replicate (layout.unit - w.count layout) 0xff

/-- The end of starting an operation: its time is taken, and a refused one has failed. -/
def started (w : Writer) (result : Status) : Crash σ Writer := do
  let now ← flash.now
  let w := { w with operationStarted := now }
  if result ≠ .ok then
    pure { w with status := if result = .busy then .ioError else result, state := .failed }
  else pure w

/-- The result of waiting for an operation: busy for as long as its deadline allows. -/
def await (w : Writer) : Crash σ Status := do
  let result ← flash.poll
  if result = .busy then do
    let now ← flash.now
    pure (if now - w.operationStarted ≥ layout.operationTimeout then .timeout else .busy)
  else pure result

/-- The writer after it has waited with this result. -/
def waited (w : Writer) (result : Status) : Writer :=
  if result = .busy then w
  else if result ≠ .ok then { w with status := result, state := .failed }
  else if w.cancelled then { w with status := .rejected, state := .done }
  else
    { w with
      written := if w.state = .programWait then w.written + w.count layout else w.written
      state := .prepare }

def step (w : Writer) : Crash σ Writer :=
  match w.state with
  | .idle | .done | .failed =>
    if w.requested then pure { w with requested := false, state := .prepare } else pure w
  | .prepare =>
    if w.cancelled then pure { w with status := .rejected, state := .done }
    else if w.written = w.data.length then pure { w with status := .ok, state := .done }
    else if w.position ≥ w.erasedUntil then do
      let sector := w.position - w.position % layout.sector
      let result ← flash.erase (w.base + sector)
      started flash
        { w with erasedUntil := sector + layout.sector, state := .eraseWait } result
    else do
      let result ← flash.program (w.base + w.position) (w.word layout)
      started flash { w with state := .programWait } result
  | .eraseWait | .programWait => do
    let result ← w.await flash layout
    pure (w.waited layout result)

def tick (w : Writer) : Crash σ Writer := w.step flash layout

end Writer

end DaveOs.Update
