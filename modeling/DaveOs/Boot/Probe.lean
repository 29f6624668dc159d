import DaveOs.Boot.JournalStep

/-!
# A flash that may answer anything

`Probe.flash` answers every call with the next of an endless sequence of replies, whatever they are, and
logs what it was asked. It has no memory of its own, so what is proved of all its runs depends on no
behaviour of the flash. Conditions on the hardware are conditions on the replies or on the log.
-/

namespace DaveOs.Boot

open Crash

/-- The answer to one call: each call takes from it what it returns. -/
structure Reply where
  status : Status := .ok
  bytes : Bytes := []
  time : Nat := 0

inductive Access
  | read (pos n : Nat) (status : Status) (bytes : Bytes)
  | erase (pos : Nat) (status : Status)
  | program (pos : Nat) (data : Bytes) (status : Status)
  | poll (status : Status)
  | now (time : Nat)
  deriving DecidableEq, Repr

/-- How many calls have been answered, and the calls, the newest first. -/
structure Probe where
  next : Nat := 0
  log : List Access := []

/-- The clock of the replies does not go back, and passes every time. -/
structure Ticking (replies : Nat → Reply) : Prop where
  mono : ∀ i k, i ≤ k → (replies i).time ≤ (replies k).time
  passes : ∀ t, ∃ i, t ≤ (replies i).time

/-- A buffer of `n` bytes after a read that delivers these. -/
def fit (n : Nat) (bytes : Bytes) : Bytes := bytes.take n ++ List.replicate (n - bytes.length) 0

theorem length_fit (n : Nat) (bytes : Bytes) : (fit n bytes).length = n := by
  rw [fit, List.length_append, List.length_take, List.length_replicate]
  omega

namespace Probe

variable (replies : Nat → Reply)

def after (p : Probe) (x : Access) : Probe := { next := p.next + 1, log := x :: p.log }

def ask {α : Type} (f : Reply → α × Access) : Crash Probe α := fun p =>
  (some (f (replies p.next)).1, p.after (f (replies p.next)).2)

/-- The driver that answers from the replies. Loops over it are given this much fuel. -/
def flash (fuel : Nat) (executing : Option Nat) : Flash Probe where
  read pos n := ask replies fun r => ((r.status, fit n r.bytes), .read pos n r.status (fit n r.bytes))
  erase pos := ask replies fun r => (r.status, .erase pos r.status)
  program pos data := ask replies fun r => (r.status, .program pos data r.status)
  poll := ask replies fun r => (r.status, .poll r.status)
  now := ask replies fun r => (r.time, .now r.time)
  executingBank := executing
  fuel _ := fuel

/-! Every call returns, with the next reply. -/

section rules

variable {replies} {fuel : Nat} {executing : Option Nat} {C : Probe → Prop} {p : Probe}
variable {pos : Nat} {Q : Status → Probe → Prop}

theorem wp_read {n : Nat} {Q : Status × Bytes → Probe → Prop}
    (h : Q ((replies p.next).status, fit n (replies p.next).bytes)
      (p.after (.read pos n (replies p.next).status (fit n (replies p.next).bytes)))) :
    Wp ((flash replies fuel executing).read pos n) C Q p := by
  unfold Wp
  exact h

theorem wp_erase (h : Q (replies p.next).status (p.after (.erase pos (replies p.next).status))) :
    Wp ((flash replies fuel executing).erase pos) C Q p := by
  unfold Wp
  exact h

theorem wp_program {data : Bytes}
    (h : Q (replies p.next).status (p.after (.program pos data (replies p.next).status))) :
    Wp ((flash replies fuel executing).program pos data) C Q p := by
  unfold Wp
  exact h

theorem wp_poll (h : Q (replies p.next).status (p.after (.poll (replies p.next).status))) :
    Wp (flash replies fuel executing).poll C Q p := by
  unfold Wp
  exact h

theorem wp_now {Q : Time → Probe → Prop}
    (h : Q (replies p.next).time (p.after (.now (replies p.next).time))) :
    Wp (flash replies fuel executing).now C Q p := by
  unfold Wp
  exact h

theorem answers : (flash replies fuel executing).Answers :=
  ⟨fun _ _ _ => nofun, fun _ _ => nofun, fun _ _ _ => nofun, fun _ => nofun, fun _ => nofun⟩

end rules

end Probe

end DaveOs.Boot
