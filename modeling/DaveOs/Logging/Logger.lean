import DaveOs.Core.Types

/-!
# The log buffer

The bounded record queue of `lib/core/logging/logger.hpp` as the scheduler sees it: the guarded section
of `write` that stores a formatted record, and the one of `dispatch` that takes the oldest out. A record
is what the call site formatted; the level filter only decides whether a writer gets to `store`.
-/

namespace DaveOs.Logging

/-- The queued records, oldest first, and the counts of rejected and of shortened records. -/
structure Logger (ρ : Type) where
  records : List ρ := []
  dropped : Nat := 0
  truncated : Nat := 0
  deriving DecidableEq

namespace Logger

variable {ρ : Type}
variable {l : Logger ρ}

/-- Whether the queue is full: a write is then dropped, and no consumer is notified. -/
def full (capacity : Nat) (l : Logger ρ) : Bool := l.records.length == capacity

/-- `Logger::write` after formatting: the status, and the queue with the record at its tail. -/
def store (capacity : Nat) (record : ρ) (truncated : Bool) (l : Logger ρ) : Status × Logger ρ :=
  if l.full capacity then
    (.full, { l with dropped := l.dropped + 1 })
  else
    (if truncated then .truncated else .ok,
      { l with records := l.records ++ [record]
               truncated := if truncated then l.truncated + 1 else l.truncated })

/-- `Logger::dispatch` up to the delivery: the oldest record, or nothing. -/
def take (l : Logger ρ) : Option (ρ × Logger ρ) :=
  match l.records with
  | [] => none
  | record :: rest => some (record, { l with records := rest })

def empty (l : Logger ρ) : Bool := l.records.isEmpty

theorem take_eq_none : l.take = none ↔ l.records = [] := by
  unfold take
  split <;> simp_all

theorem empty_iff : l.empty = true ↔ l.records = [] := by
  unfold empty
  rw [List.isEmpty_iff]

end Logger

end DaveOs.Logging
