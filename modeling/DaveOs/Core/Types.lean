import Mathlib

/-!
# Value types shared by the kernel, the services and the drivers

`Status` is the shared operation result of `lib/core/foundation/types.hpp`; `Pair` is the source's
`std::array<T, 2>`, whose two entries are the A and B slots or banks.
-/

namespace DaveOs

/-- Shared operation results, in the source's order. -/
inductive Status
  | ok
  | notRunning
  | alreadyInitialized
  | alreadyRun
  | initializationFailed
  | invalidArgument
  | notFound
  | full
  | empty
  | busy
  | duplicateName
  | truncated
  | parseError
  | ambiguousMatch
  | lineTooLong
  | tooManyArguments
  | unsupported
  | healthFailed
  | ioError
  | timeout
  | checksumError
  | incompatible
  | notConfirmed
  | rejected
  | counterExhausted
  | invalidContext
  | depthLimit
  deriving DecidableEq, Repr, Inhabited

/-- Monotonic microseconds: timestamps, delays and measured durations. -/
abbrev Time := Nat

structure Pair (α : Type) where
  a : α
  b : α
  deriving DecidableEq, Repr, Inhabited

namespace Pair

variable {α : Type}

/-- Entry `i`. -/
def get (p : Pair α) (i : Nat) : α := if i = 0 then p.a else p.b

/-- `p` with entry `i` replaced. -/
def set (p : Pair α) (i : Nat) (x : α) : Pair α :=
  if i = 0 then { p with a := x } else { p with b := x }

@[simp] theorem get_zero (p : Pair α) : p.get 0 = p.a := rfl

@[simp] theorem get_one (p : Pair α) : p.get 1 = p.b := rfl

@[simp] theorem get_set_self (p : Pair α) (i : Nat) (x : α) : (p.set i x).get i = x := by
  unfold get set
  split <;> rfl

theorem get_set_ne (p : Pair α) {i j : Nat} (x : α) (hi : i < 2) (hj : j < 2) (h : i ≠ j) :
    (p.set i x).get j = p.get j := by
  unfold get set
  split <;> split <;> first | rfl | omega

end Pair

end DaveOs
