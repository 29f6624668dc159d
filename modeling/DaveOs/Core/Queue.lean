import DaveOs.Core.Types

/-!
# The bounded queue (`lib/core/queue/queue.hpp`)

`Queue` keeps the log records and the console's lines in a ring of places. Whatever calls are made of it, it answers
as a bounded list would (`queue_answers`).
-/

namespace DaveOs

/-- A ring of `n + 1` places, the source's positive `Capacity`. Places outside the queue keep what they held. -/
structure Queue (α : Type) (n : Nat) where
  items : Fin (n + 1) → α
  head : Fin (n + 1) := 0
  count : Nat := 0
  count_le : count ≤ n + 1 := by omega

inductive QueueCall (α : Type)
  | push (item : α)
  | pop (item : α)
  | peek (item : α)
  | clear

namespace Queue

variable {α : Type} {n : Nat} (q : Queue α n)

def empty : Bool := q.count = 0

def full : Bool := q.count = n + 1

/-- The place with `i` queued items before it. -/
def place (i : Nat) : Fin (n + 1) := Fin.ofNat (n + 1) (q.head + i)

def push (item : α) : Status × Queue α n :=
  if h : q.full then (.full, q)
  else (.ok, { q with
    items := Function.update q.items (q.place q.count) item, count := q.count + 1
    count_le := Nat.lt_of_le_of_ne q.count_le (by simpa [full] using h) })

def pop (item : α) : Status × α × Queue α n :=
  if q.empty then (.empty, item, q)
  else (.ok, q.items q.head, { q with
    head := q.head + 1, count := q.count - 1, count_le := Nat.le_trans (Nat.sub_le _ _) q.count_le })

def peek (item : α) : Status × α := if q.empty then (.empty, item) else (.ok, q.items q.head)

def clear : Queue α n := { q with head := 0, count := 0, count_le := Nat.zero_le _ }

/-- One call: its status, the caller's variable after it, and the queue. -/
def call : QueueCall α → (Status × Option α) × Queue α n
  | .push item => (((q.push item).1, none), (q.push item).2)
  | .pop item => (((q.pop item).1, some (q.pop item).2.1), (q.pop item).2.2)
  | .peek item => (((q.peek item).1, some (q.peek item).2), q)
  | .clear => ((.ok, none), q.clear)

/-- The queued items, oldest first. -/
def contents : List α := (List.range q.count).map fun i => q.items (q.place i)

end Queue

/-- The same calls of a list of at most `capacity` items. -/
def fifo {α : Type} (capacity : Nat) (l : List α) : QueueCall α → (Status × Option α) × List α
  | .push item => if l.length = capacity then ((.full, none), l) else ((.ok, none), l ++ [item])
  | .pop item =>
    match l with
    | [] => ((.empty, some item), [])
    | x :: rest => ((.ok, some x), rest)
  | .peek item => ((if l.isEmpty then .empty else .ok, some (l.headD item)), l)
  | .clear => ((.ok, none), [])

/-- What calls of a queue answer, each with `size` afterwards. -/
def answers {α τ : Type} (call : τ → QueueCall α → (Status × Option α) × τ) (size : τ → Nat) :
    τ → List (QueueCall α) → List ((Status × Option α) × Nat)
  | _, [] => []
  | q, c :: rest => ((call q c).1, size (call q c).2) :: answers call size (call q c).2 rest

namespace Queue

variable {α : Type} {n : Nat} {q : Queue α n}

theorem length_contents : q.contents.length = q.count := by simp [contents]

theorem contents_nil (h : q.empty = true) : q.contents = [] := by
  simp_all [contents, empty]

theorem place_ne {i j : Nat} (hij : i < j) (hj : j < n + 1) : q.place i ≠ q.place j := by
  intro h
  have hmod : q.head + i ≡ q.head + j [MOD n + 1] := Fin.ext_iff.mp h
  have := Nat.ModEq.add_left_cancel' _ hmod
  rw [Nat.ModEq, Nat.mod_eq_of_lt (hij.trans hj), Nat.mod_eq_of_lt hj] at this
  omega

theorem push_contents (item : α) (h : q.full = false) : (q.push item).2.contents = q.contents ++ [item] := by
  have hlt : q.count < n + 1 := Nat.lt_of_le_of_ne q.count_le (by simpa [full] using h)
  rw [push, dif_neg (by simp [h])]
  simp only [contents, List.range_succ, List.map_append, List.map_cons, List.map_nil]
  congr 1
  · refine List.map_congr_left fun i hi => ?_
    exact Function.update_of_ne (place_ne (List.mem_range.mp hi) hlt) _ _
  · exact congrArg ([·]) (Function.update_self _ _ _)

/-- The items behind the head are the queue once it has moved on. -/
theorem contents_cons (item : α) (h : q.empty = false) :
    q.contents = q.items q.head :: (q.pop item).2.2.contents := by
  obtain ⟨k, hk⟩ : ∃ k, q.count = k + 1 := Nat.exists_eq_succ_of_ne_zero (by simpa [empty] using h)
  rw [pop, if_neg (by simp [h])]
  simp only [contents, hk, List.range_succ_eq_map, List.map_cons, List.map_map, Nat.add_sub_cancel]
  refine congrArg₂ List.cons (congrArg q.items ?_) (List.map_congr_left fun i _ => congrArg q.items ?_)
  · exact Fin.ext (Nat.mod_eq_of_lt q.head.isLt)
  · refine Fin.ext ?_
    simp [place, Fin.val_add, Fin.ofNat, Nat.add_assoc, Nat.add_comm 1]

/-- **One call** answers as the list, and leaves the list's items. -/
theorem call_fifo (c : QueueCall α) :
    fifo (n + 1) q.contents c = ((q.call c).1, (q.call c).2.contents) := by
  cases c with
  | push item =>
    rw [fifo, call, length_contents]
    cases h : q.full with
    | true => simp_all [push, full]
    | false =>
      rw [if_neg (by simpa [full] using h), push_contents item h]
      simp [push, h]
  | pop item =>
    rw [call]
    cases h : q.empty with
    | true => simp [pop, h, contents_nil h, fifo]
    | false =>
      rw [contents_cons item h]
      simp [pop, h, fifo]
  | peek item =>
    rw [call, peek]
    cases h : q.empty with
    | true => simp [contents_nil h, fifo]
    | false => simp [contents_cons item h, fifo]
  | clear => rfl

end Queue

/-- **The ring is a bounded queue.** From a new queue, whatever its places held, any calls are answered as those of
an empty list that takes at most `Capacity` items: with the same statuses, items and sizes. -/
theorem queue_answers {α : Type} {n : Nat} (items : Fin (n + 1) → α) (calls : List (QueueCall α)) :
    answers Queue.call Queue.count { items } calls = answers (fifo (n + 1)) List.length [] calls := by
  have hrun : ∀ q : Queue α n, answers Queue.call Queue.count q calls =
      answers (fifo (n + 1)) List.length q.contents calls := by
    induction calls with
    | nil => exact fun _ => rfl
    | cons c rest ih =>
      intro q
      rw [answers, answers, Queue.call_fifo, ih, Queue.length_contents]
  exact hrun { items }

end DaveOs
