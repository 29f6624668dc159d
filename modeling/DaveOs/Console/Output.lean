import DaveOs.Core.Types
import DaveOs.Lib.Bytes

/-!
# Buffered console output (`BufferedOutput` of `lib/console/output.hpp`)

The task side collects a frame with `write` and hands it over with `flush`, which copies it into the filling
half of the storage. The other half belongs to the driver while a transfer is active. Every function here is
one guarded section; the driver's answer to a start is an argument, and an accepted start is part of the
result.
-/

namespace DaveOs.Console

open Bytes

structure TxCounters where
  droppedFrames : UInt32 := 0
  errors : UInt32 := 0
  sentBytes : UInt64 := 0
  transfers : UInt32 := 0
  deriving DecidableEq, Repr

/-- A transfer the driver has accepted: where its bytes are, and what they were then. -/
structure Transfer where
  pos : Nat
  bytes : Bytes
  deriving DecidableEq, Repr

/-- The output. Of the frame buffer the part in use is kept. -/
structure BufferedOutput where
  storage : Bytes
  frame : Bytes := []
  overflow : Bool := false
  filling : Nat := 0
  pending : Nat := 0
  active : Nat := 0
  counters : TxCounters := {}
  deriving DecidableEq, Repr

namespace BufferedOutput

variable (capacity frameCapacity : Nat)

def write (o : BufferedOutput) (text : Bytes) : BufferedOutput :=
  if o.overflow then o
  else if text.length > frameCapacity - o.frame.length then { o with overflow := true }
  else { o with frame := o.frame ++ text }

/-- A failed transfer: what is queued is given up. -/
def error (o : BufferedOutput) : BufferedOutput :=
  { o with
    pending := 0, active := 0, counters := { o.counters with errors := o.counters.errors + 1 } }

/-- Hands the filling half to the driver, unless a transfer is active or nothing is pending. -/
def start (o : BufferedOutput) (accepts : Bool) : Bool × Option Transfer × BufferedOutput :=
  if o.active ≠ 0 ∨ o.pending = 0 then (true, none, o)
  else if accepts then
    (true, some ⟨o.filling * capacity, slice o.storage (o.filling * capacity) o.pending⟩,
      { o with active := o.pending, pending := 0, filling := o.filling ^^^ 1 })
  else (false, none, o.error)

/-- Copies the frame behind what is pending. -/
def fill (o : BufferedOutput) (frame : Bytes) : BufferedOutput :=
  { o with
    storage := splice o.storage (o.filling * capacity + o.pending) frame
    pending := o.pending + frame.length }

/-- Ends the frame and queues it, or drops it. -/
def flush (o : BufferedOutput) (accepts : Bool) : Status × Option Transfer × BufferedOutput :=
  let rest := { o with frame := [], overflow := false }
  if o.overflow ∨ o.frame.length > capacity - o.pending then
    (.full, none, { rest with counters := { o.counters with droppedFrames := o.counters.droppedFrames + 1 } })
  else
    let (started, transfer, o) := (rest.fill capacity o.frame).start capacity accepts
    (if started then .ok else .initializationFailed, transfer, o)

/-- The transfer has completed; what is pending follows. -/
def complete (o : BufferedOutput) (accepts : Bool) : Option Transfer × BufferedOutput :=
  if o.active = 0 then (none, o)
  else
    let (_, transfer, o) := start capacity
      { o with
        active := 0
        counters := { o.counters with
          sentBytes := o.counters.sentBytes + .ofNat o.active, transfers := o.counters.transfers + 1 } } accepts
    (transfer, o)

def discard (o : BufferedOutput) : BufferedOutput :=
  { o with frame := [], pending := 0, active := 0, overflow := false }

def queued (o : BufferedOutput) : Nat := o.pending + o.active

/-! ## How the calls can go -/

/-- The output after the frame was copied. -/
def filled (o : BufferedOutput) : BufferedOutput := { o with frame := [], overflow := false }.fill capacity o.frame

/-- The output after its filling half was handed over. -/
def handed (o : BufferedOutput) : BufferedOutput :=
  { o with active := o.pending, pending := 0, filling := o.filling ^^^ 1 }

def front (o : BufferedOutput) : Transfer :=
  ⟨o.filling * capacity, slice o.storage (o.filling * capacity) o.pending⟩

/-- How `start` can go. -/
inductive Starts (capacity : Nat) (o : BufferedOutput) : Bool × Option Transfer × BufferedOutput → Prop
  | nothing (wait : o.active ≠ 0 ∨ o.pending = 0) : Starts capacity o (true, none, o)
  | accepted (idle : o.active = 0) (more : o.pending ≠ 0) : Starts capacity o (true, some (o.front capacity), o.handed)
  | refused (idle : o.active = 0) : Starts capacity o (false, none, o.error)

theorem start_starts (o : BufferedOutput) (accepts : Bool) : Starts capacity o (o.start capacity accepts) := by
  unfold start
  split
  · next hwait => exact .nothing hwait
  next hnow =>
  simp only [not_or, ne_eq, Decidable.not_not] at hnow
  split
  · exact .accepted hnow.1 hnow.2
  · exact .refused hnow.1

/-- How `flush` can go. -/
inductive Flushes (capacity : Nat) (o : BufferedOutput) : Status × Option Transfer × BufferedOutput → Prop
  | dropped (counters : TxCounters) (errors : counters.errors = o.counters.errors)
      (sent : counters.sentBytes = o.counters.sentBytes) :
      Flushes capacity o (.full, none, { o with frame := [], overflow := false, counters })
  | queued (sound : o.overflow = false) (fits : o.frame.length ≤ capacity - o.pending)
      (wait : o.active ≠ 0 ∨ o.pending + o.frame.length = 0) : Flushes capacity o (.ok, none, o.filled capacity)
  | started (sound : o.overflow = false) (fits : o.frame.length ≤ capacity - o.pending) (idle : o.active = 0)
      (more : o.pending + o.frame.length ≠ 0) :
      Flushes capacity o (.ok, some ((o.filled capacity).front capacity), (o.filled capacity).handed)
  | refused (sound : o.overflow = false) (fits : o.frame.length ≤ capacity - o.pending) (idle : o.active = 0) :
      Flushes capacity o (.initializationFailed, none, (o.filled capacity).error)

theorem flush_flushes (o : BufferedOutput) (accepts : Bool) : Flushes capacity o (o.flush capacity accepts) := by
  unfold flush
  split
  · exact .dropped _ rfl rfl
  next h =>
  simp only [not_or, Bool.not_eq_true, Nat.not_lt, gt_iff_lt] at h
  have hstart := start_starts capacity (o.filled capacity) accepts
  change Flushes capacity o (let (started, transfer, o) := (o.filled capacity).start capacity accepts
    (if started then .ok else .initializationFailed, transfer, o))
  generalize (o.filled capacity).start capacity accepts = result at hstart ⊢
  cases hstart with
  | nothing wait => exact .queued h.1 h.2 wait
  | accepted idle more => exact .started h.1 h.2 idle more
  | refused idle => exact .refused h.1 h.2 idle

/-- The output after a transfer has completed. -/
def released (o : BufferedOutput) : BufferedOutput :=
  { o with
    active := 0
    counters := { o.counters with
      sentBytes := o.counters.sentBytes + .ofNat o.active, transfers := o.counters.transfers + 1 } }

/-- How `complete` can go. -/
inductive Completes (capacity : Nat) (o : BufferedOutput) : Option Transfer × BufferedOutput → Prop
  | stale (idle : o.active = 0) : Completes capacity o (none, o)
  | last (busy : o.active ≠ 0) (nothing : o.pending = 0) : Completes capacity o (none, o.released)
  | next (busy : o.active ≠ 0) (more : o.pending ≠ 0) :
      Completes capacity o (some (o.released.front capacity), o.released.handed)
  | refused (busy : o.active ≠ 0) : Completes capacity o (none, o.released.error)

theorem complete_completes (o : BufferedOutput) (accepts : Bool) : Completes capacity o (o.complete capacity accepts) := by
  unfold complete
  split
  · next hidle => exact .stale hidle
  next hbusy =>
  have hstart := start_starts capacity o.released accepts
  change Completes capacity o (let (_, transfer, o) := o.released.start capacity accepts; (transfer, o))
  generalize o.released.start capacity accepts = result at hstart ⊢
  cases hstart with
  | nothing wait => exact .last hbusy (wait.resolve_left fun h => h rfl)
  | accepted _ more => exact .next hbusy more
  | refused => exact .refused hbusy

end BufferedOutput

end DaveOs.Console
