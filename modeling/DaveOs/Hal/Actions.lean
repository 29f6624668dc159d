import DaveOs.Core.Deadline

/-!
# Bus actions

`lib/hal/status.h`, `lib/hal/transaction.hpp`, `lib/hal/spi/action.hpp`, `lib/hal/i2c/action.hpp` and
`lib/hal/detail/actions.hpp`: the entries of a transaction's action list, what the controller asks of one,
and the whole-transaction timeout. The controller is generic in the bus; `BusAction` is what it uses of an
action, with one instance for SPI and one for I2C.
-/

namespace DaveOs.Hal

inductive Status where
  | ok
  | busy
  | invalidArgument
  | unsupportedBuffer
  | notInitialized
  | initializationFailed
  | timeout
  | timerError
  | nack
  | arbitrationLost
  | hardwareError
  | responseMismatch
  | faulted
  | aborted
deriving DecidableEq, Repr, Inhabited

/-- `hal::Duration`: microseconds, and whether the conversion was exact and positive. -/
structure Duration where
  microseconds : Nat
  valid : Bool
deriving DecidableEq, Repr

/-! ## Checked arithmetic -/

def kTimeoutMinimumUs : Nat := 10000
def kTimeoutMarginUs : Nat := 1000
def kTimeoutFactor : Nat := 4
def kResetTimeoutUs : Nat := 100000
def kMaximumTime : Nat := kForever - 1

/-- `Add`, `none` where it returns false. -/
def add (value amount : Nat) : Option Nat :=
  if kMaximumTime < value ∨ kMaximumTime - value < amount then none else some (value + amount)

/-- `Multiply`, `none` where it returns false. -/
def multiply (value amount : Nat) : Option Nat :=
  if amount ≠ 0 ∧ kMaximumTime / amount < value then none else some (value * amount)

theorem add_eq_some {value amount sum : Nat} (h : add value amount = some sum) :
    sum = value + amount ∧ sum ≤ kMaximumTime := by
  unfold add at h
  split at h
  · exact nomatch h
  · have hsum : value + amount = sum := Option.some.inj h
    omega

/-! ## Borrowed buffers -/

/-- The bytes of the buffers that actions borrow. -/
abbrev Memory := Nat → UInt8

structure Span where
  data : Nat := 0
  size : Nat := 0
deriving DecidableEq, Repr

namespace Span

def bytes (memory : Memory) (s : Span) : List UInt8 :=
  (List.range s.size).map fun i => memory (s.data + i)

/-- Hardware stores what it received; bytes that do not come stay as they are. -/
def store (s : Span) (received : List UInt8) (memory : Memory) : Memory := fun address =>
  if s.data ≤ address ∧ address < s.data + s.size then
    received[address - s.data]?.getD (memory address)
  else memory address

def overlap (tx rx : Span) : Bool :=
  if tx.data ≤ rx.data then rx.data - tx.data < tx.size else tx.data - rx.data < rx.size

end Span

/-- What the controller and the timeout use of an action. -/
class BusAction (α : Type) where
  reads : α → Bool
  writes : α → Bool
  polls : α → Bool
  pollMatched : Memory → α → Bool
  pollLimit : α → Nat
  transferAction : α → α
  checks : α → Bool
  isMatch : Memory → α → Bool
  pause : α → Nat
  /-- Where a completed action leaves what it received. -/
  rx : α → Span
  /-- The action's bits and pauses, added to the sums so far; `count` is the length of its list. -/
  measure : α → (count : Nat) → Nat × Nat → Except Status (Nat × Nat)
  /-- The address-only action, on the bus that has one. -/
  probe : Option α

/-- `none` of a checked sum is an invalid argument. -/
def checked {τ : Type} : Option τ → Except Status τ
  | none => .error .invalidArgument
  | some value => .ok value

/-! ## SPI -/

namespace Spi

inductive Operation where
  | write
  | read
  | exchange
  | pause
  | idleClocks
  | checkResponse
  | pollResponse
  | readUntil
deriving DecidableEq, Repr

structure Action where
  operation : Operation
  tx : Span := {}
  rx : Span := {}
  amount : UInt64 := 0
  fill : UInt8 := 0xff
  valid : Bool := true
deriving DecidableEq, Repr

def read (bytes : Span) (fill : UInt8) : Action :=
  { operation := .read, rx := bytes, fill }

namespace Action

variable (a : Action)

/-- The expected byte of a response check. -/
def expected : UInt8 := a.amount.toUInt8

def mask : UInt8 := (a.amount >>> 8).toUInt8

/-- The mask is there and covers the expected byte. -/
def maskOk : Bool :=
  a.amount ≤ 0xffff && a.amount >>> 8 != 0 && a.expected.toUInt64 &&& ~~~(a.amount >>> 8) == 0

def reads : Bool :=
  a.operation = .readUntil || a.operation = .pollResponse || a.operation = .read ||
    a.operation = .exchange

def writes : Bool := a.operation = .write || a.operation = .exchange

def polls : Bool := a.operation = .pollResponse || a.operation = .readUntil

def pollMatched (memory : Memory) : Bool :=
  if a.operation = .readUntil then (a.rx.bytes memory).headD 0 != a.fill
  else (a.rx.bytes memory).getLastD 0 &&& a.mask == a.expected

def pollLimit : Nat := if a.operation = .readUntil then a.amount.toNat else 0

def transferAction : Action := if a.polls then read a.rx a.fill else a

def checks : Bool := a.operation = .checkResponse

/-- `Matches`: the first byte that is not idle is the one compared. -/
def isMatch (memory : Memory) : Bool :=
  match (a.tx.bytes memory).find? (· != a.fill) with
  | none => false
  | some byte => byte &&& a.mask == a.expected

def pause : Nat := if a.operation = .pause then a.amount.toNat else 0

def measureBytes (n : Nat) (sums : Nat × Nat) : Except Status (Nat × Nat) :=
  checked do
    let n ← multiply n 8
    let bits ← add sums.1 n
    return (bits, sums.2)

def measure (count : Nat) (sums : Nat × Nat) : Except Status (Nat × Nat) :=
  if !a.valid then .error .invalidArgument
  else match a.operation with
  | .write =>
    if a.tx.size = 0 ∨ a.rx.size ≠ 0 then .error .invalidArgument
    else measureBytes a.tx.size sums
  | .read =>
    if a.rx.size = 0 ∨ a.tx.size ≠ 0 then .error .invalidArgument
    else measureBytes a.rx.size sums
  | .exchange =>
    if a.tx.size = 0 ∨ a.tx.size ≠ a.rx.size ∨ a.tx.overlap a.rx then .error .invalidArgument
    else measureBytes a.tx.size sums
  | .readUntil =>
    if a.rx.size ≠ 1 ∨ a.tx.size ≠ 0 ∨ 0xffffffff < a.amount then .error .invalidArgument
    else measureBytes 1 sums
  | .pollResponse =>
    if a.rx.size = 0 ∨ 32 < a.rx.size ∨ a.tx.size ≠ 0 ∨ !a.maskOk then .error .invalidArgument
    else measureBytes a.rx.size sums
  | .checkResponse =>
    if a.tx.size ≠ 0 ∧ a.tx.size ≤ 32 ∧ a.rx.size = 0 ∧ a.maskOk then .ok sums
    else .error .invalidArgument
  | .pause =>
    if a.amount ≠ 0 ∧ a.tx.size = 0 ∧ a.rx.size = 0 then
      checked ((add sums.2 a.amount.toNat).map fun pauses => (sums.1, pauses))
    else .error .invalidArgument
  | .idleClocks =>
    if count = 1 ∧ a.amount ≠ 0 ∧ a.amount % 8 = 0 ∧ a.tx.size = 0 ∧ a.rx.size = 0 ∧ a.fill = 0xff then
      checked ((add sums.1 a.amount.toNat).map fun bits => (bits, sums.2))
    else .error .invalidArgument

end Action

instance : BusAction Action where
  reads := Action.reads
  writes := Action.writes
  polls := Action.polls
  pollMatched memory a := a.pollMatched memory
  pollLimit := Action.pollLimit
  transferAction := Action.transferAction
  checks := Action.checks
  isMatch memory a := a.isMatch memory
  pause := Action.pause
  rx := Action.rx
  measure := Action.measure
  probe := none

end Spi

/-! ## I2C -/

namespace I2c

inductive Operation where
  | write
  | read
  | probe
deriving DecidableEq, Repr

structure Action where
  operation : Operation
  tx : Span := {}
  rx : Span := {}
deriving DecidableEq, Repr

/-- `Address::valid`: an unshifted seven-bit address, the reserved ones excluded. -/
def addressValid (address : UInt8) : Bool := 0x08 ≤ address && address ≤ 0x77

namespace Action

variable (a : Action)

def reads : Bool := a.operation = .read

def writes : Bool := a.operation = .write

/-- One address byte and the data bytes, nine bits each, and START/STOP. -/
def measure (count : Nat) (sums : Nat × Nat) : Except Status (Nat × Nat) :=
  if a.operation = .probe then
    if count = 1 ∧ a.tx.size = 0 ∧ a.rx.size = 0 then
      checked ((add sums.1 11).map fun bits => (bits, sums.2))
    else .error .invalidArgument
  else if (!a.reads ∧ !a.writes) ∨ (a.reads ∧ (a.rx.size = 0 ∨ a.tx.size ≠ 0)) ∨
      (a.writes ∧ (a.tx.size = 0 ∨ a.rx.size ≠ 0)) then
    .error .invalidArgument
  else checked do
    let n ← add (if a.reads then a.rx.size else a.tx.size) 1
    let n ← multiply n 9
    let n ← add n 2
    let bits ← add sums.1 n
    return (bits, sums.2)

end Action

instance : BusAction Action where
  reads := Action.reads
  writes := Action.writes
  polls _ := false
  pollMatched _ _ := false
  pollLimit _ := 0
  transferAction a := a
  checks _ := false
  isMatch _ _ := false
  pause _ := 0
  rx := Action.rx
  measure := Action.measure
  probe := some { operation := .probe }

end I2c

/-! ## The whole-transaction timeout -/

section

variable {α : Type} [BusAction α]

open BusAction

/-- The loop of `Timeout`: a polling action needs an explicit timeout, and every action has to measure. -/
def measureAll (requested : Bool) (count : Nat) : List α → Nat × Nat → Except Status (Nat × Nat)
  | [], sums => .ok sums
  | action :: rest, sums =>
    if polls action && !requested then .error .invalidArgument
    else match measure action count sums with
      | .error _ => .error .invalidArgument
      | .ok sums => measureAll requested count rest sums

/-- Four times the wire time and a margin. The division comes before the multiplication, so that large
but representable transfers work. -/
def wireTime (bits rate : Nat) : Option Nat := do
  let wire ← multiply (bits / rate) 1000000
  let wire ← add wire ((bits % rate * 1000000 + rate - 1) / rate)
  let wire ← multiply wire kTimeoutFactor
  add wire kTimeoutMarginUs

def timeout (actions : List α) (rate : Nat) (requested : Option Duration) : Except Status Nat :=
  if actions.isEmpty ∨ rate = 0 ∨ requested.any (!·.valid) then .error .invalidArgument
  else match measureAll requested.isSome actions.length actions (0, 0) with
    | .error status => .error status
    | .ok (bits, pauses) =>
      match requested with
      | some duration => .ok duration.microseconds
      | none => checked do
        let wire ← wireTime bits rate
        add (max kTimeoutMinimumUs wire) pauses

end

end DaveOs.Hal
