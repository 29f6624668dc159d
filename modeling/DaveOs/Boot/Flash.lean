import DaveOs.Lib.Crash
import DaveOs.Boot.Codec

/-!
# The flash device (`lib/boot/flash.h`)

`Flash σ` is the source's driver: callbacks over a borrowed context. The journal, the boot control
and the update engine are written against it.

`Device` is the memory the theorems are about. A cell is readable or not; one operation at a time is
pending and takes effect when `poll` reports its end. Everything the hardware decides is drawn from
a list of events, one for every call: whether a read fails for the moment, whether a start is
refused, when a poll ends the operation and how, how far the clock moves. Power is lost when the
list is exhausted, so the runs over all lists are the runs with power lost at every possible call.
An operation that ends in an error, or that power cuts short, is torn: a torn program leaves
anything in its unit, a torn erase leaves each record of a metadata sector whole or unacceptable
(`Leaves`).
-/

namespace DaveOs.Boot

variable {cells : Cells} {n : Nat} {bs : Bytes} {m : Nat}

open Bytes

/-- The driver's callbacks. A read answers its status and, when it succeeded, the bytes; `fuel`
bounds the calls that are still answered. -/
structure Flash (σ : Type) where
  read : Nat → Nat → Crash σ (Status × Bytes)
  erase : Nat → Crash σ Status
  program : Nat → Bytes → Crash σ Status
  poll : Crash σ Status
  now : Crash σ Time
  /-- Optional runtime bank constraint: 0 and 1 identify the executing bank, 2 permits boot-time
  maintenance. -/
  executingBank : Option Nat
  fuel : σ → Nat

/-! ## Memory -/

/-- The content of the flash; `none` is a cell that cannot be read. -/
abbrev Cells := Nat → Option UInt8

/-- The `n` bytes at `pos`, if all can be read. -/
def Cells.bytes (cells : Cells) (pos : Nat) : Nat → Option Bytes
  | 0 => some []
  | n + 1 =>
    match cells pos, Cells.bytes cells (pos + 1) n with
    | some b, some rest => some (b :: rest)
    | _, _ => none

theorem Cells.bytes_eq_some : ∀ {pos : Nat},
    cells.bytes pos n = some bs ↔ bs.length = n ∧ ∀ i, i < n → cells (pos + i) = bs[i]? := by
  induction n generalizing bs with
  | zero =>
    intro pos
    rw [Cells.bytes, Option.some.injEq]
    constructor
    · rintro rfl
      exact ⟨rfl, fun i hi => by omega⟩
    · intro h
      exact (List.eq_nil_of_length_eq_zero h.1).symm
  | succ n ih =>
    intro pos
    rw [Cells.bytes]
    constructor
    · intro h
      split at h
      · next b rest hb hrest =>
        obtain rfl := Option.some.inj h
        obtain ⟨hlen, hcells⟩ := ih.mp hrest
        refine ⟨by rw [List.length_cons, hlen], fun i hi => ?_⟩
        cases i with
        | zero => exact hb
        | succ i =>
          rw [List.getElem?_cons_succ, ← hcells i (by omega)]
          congr 1
          omega
      · cases h
    · rintro ⟨hlen, hcells⟩
      cases bs with
      | nil => cases hlen
      | cons b rest =>
        have hb : cells pos = some b := hcells 0 (by omega)
        have hrest : cells.bytes (pos + 1) n = some rest := by
          refine ih.mpr ⟨by simpa using hlen, fun i hi => ?_⟩
          have := hcells (i + 1) (by omega)
          rw [List.getElem?_cons_succ] at this
          rw [← this]
          congr 1
          omega
        rw [hb, hrest]

theorem Cells.length_bytes {pos : Nat} (h : cells.bytes pos n = some bs) : bs.length = n :=
  (Cells.bytes_eq_some.mp h).1

theorem Cells.bytes_congr {cells' : Cells} {pos : Nat}
    (h : ∀ i, i < n → cells' (pos + i) = cells (pos + i)) :
    cells'.bytes pos n = cells.bytes pos n := by
  apply Option.ext
  intro bs
  rw [Cells.bytes_eq_some, Cells.bytes_eq_some]
  constructor <;> rintro ⟨hl, hb⟩ <;> refine ⟨hl, fun i hi => ?_⟩
  · rw [← h i hi, hb i hi]
  · rw [h i hi, hb i hi]

theorem Cells.bytes_append {pos : Nat} {xs ys : Bytes} (hx : cells.bytes pos n = some xs)
    (hy : cells.bytes (pos + n) m = some ys) : cells.bytes pos (n + m) = some (xs ++ ys) := by
  obtain ⟨hxl, hxs⟩ := Cells.bytes_eq_some.mp hx
  obtain ⟨hyl, hys⟩ := Cells.bytes_eq_some.mp hy
  refine Cells.bytes_eq_some.mpr ⟨by rw [List.length_append, hxl, hyl], fun i hi => ?_⟩
  rcases Nat.lt_or_ge i n with h | h
  · rw [List.getElem?_append_left (by omega), hxs i h]
  · rw [List.getElem?_append_right (by omega), hxl, ← hys (i - n) (by omega)]
    congr 1
    omega

theorem Cells.bytes_split {pos : Nat} (h : cells.bytes pos (n + m) = some bs) :
    cells.bytes pos n = some (bs.take n) ∧ cells.bytes (pos + n) m = some (bs.drop n) := by
  obtain ⟨hl, hb⟩ := Cells.bytes_eq_some.mp h
  constructor <;> refine Cells.bytes_eq_some.mpr ⟨by simp [hl], fun i hi => ?_⟩
  · rw [List.getElem?_take, if_pos hi, hb i (by omega)]
  · rw [List.getElem?_drop, Nat.add_assoc, hb (n + i) (by omega)]

/-- What a read of `n` bytes at `pos` answers. -/
def Cells.answer (cells : Cells) (pos n : Nat) : Status × Bytes :=
  match cells.bytes pos n with
  | some bs => (.ok, bs)
  | none => (.ioError, [])

/-- The snapshot of the record at `pos`, if it is readable and committed. -/
def Cells.snapshot (cells : Cells) (pos : Nat) : Option Snapshot :=
  (cells.bytes pos kRecordSize).bind decode

/-! ## Operations -/

inductive Operation
  | erase (pos : Nat)
  | program (pos : Nat) (data : Bytes)
  deriving DecidableEq, Repr

namespace Operation

variable (layout : Layout)

/-- The first address of an operation. -/
def pos : Operation → Nat
  | erase p => p
  | program p _ => p

/-- How many cells an operation changes. -/
def size : Operation → Nat
  | erase _ => layout.sector
  | program _ data => data.length

def Covers (op : Operation) (x : Nat) : Prop := op.pos ≤ x ∧ x < op.pos + op.size layout

instance (op : Operation) (x : Nat) : Decidable (op.Covers layout x) :=
  inferInstanceAs (Decidable (_ ∧ _))

/-- The effect of a completed operation: programming can only clear bits. -/
def apply (op : Operation) (cells : Cells) : Cells := fun x =>
  if op.Covers layout x then
    match op with
    | erase _ => some 0xff
    | program p data => (cells x).map (· &&& data.getD (x - p) 0)
  else cells x

end Operation

/-- What is left of `cells` by an operation that ended badly or was cut short. -/
structure Leaves (layout : Layout) (op : Operation) (cells cells' : Cells) : Prop where
  outside : ∀ x, ¬op.Covers layout x → cells' x = cells x
  record : ∀ i k, i < 2 → k < layout.sector / kRecordSize → op = .erase (layout.bank i) →
    (∀ x, x < kRecordSize →
      cells' (layout.bank i + kRecordSize * k + x) = cells (layout.bank i + kRecordSize * k + x)) ∨
    cells'.snapshot (layout.bank i + kRecordSize * k) = none

/-! ## The device -/

/-- What the hardware does at one call. -/
structure Event (layout : Layout) where
  /-- The result of a read that starts at this address, when its cells can be read. -/
  read : Nat → Status := fun _ => .ok
  start : Status := .ok
  poll : Status := .ok
  advance : Time := 0
  /-- What is left by an operation that ends here, other than completed. -/
  torn : Operation → Cells → Cells := fun _ cells => cells
  torn_leaves : ∀ op cells, Leaves layout op cells (torn op cells) := by
    exact fun _ _ => ⟨fun _ _ => rfl, fun _ _ _ _ _ => .inl fun _ _ => rfl⟩

/-- A flash of the given geometry, with the behaviours it may show. -/
structure Medium where
  layout : Layout
  May : Event layout → Prop := fun _ => True

/-- The flash's content and the operation in progress. -/
@[ext] structure Memory where
  cells : Cells
  pending : Option Operation := none

/-- The device: its memory, its clock and the events still to come. -/
structure Device (m : Medium) extends Memory where
  clock : Time := 0
  events : List {e : Event m.layout // m.May e}

namespace Device

variable {m : Medium} {α : Type}

/-- One call: the next event decides it, and without one power is lost. -/
def call (f : Event m.layout → Device m → α × Device m) : Crash (Device m) α := fun d =>
  match d.events with
  | [] => (none, d)
  | e :: rest =>
    let (a, d') := f e.1 { d with events := rest }
    (some a, d')

/-- The result of reading `n` bytes at `pos`. -/
def readAs (e : Event m.layout) (pos n : Nat) (mem : Memory) : Status × Bytes :=
  if mem.pending.isSome then (.busy, [])
  else if e.read pos ≠ .ok then (e.read pos, [])
  else mem.cells.answer pos n

/-- The result of starting an operation: a rejected start leaves nothing in progress. -/
def startAs (e : Event m.layout) (op : Operation) (mem : Memory) : Status × Memory :=
  if e.start ≠ .ok then (e.start, mem)
  else if mem.pending.isSome then (.busy, mem)
  else (.ok, { mem with pending := some op })

/-- The result of a poll: busy until the operation ends, completed or torn. -/
def pollAs (e : Event m.layout) (mem : Memory) : Status × Memory :=
  match mem.pending with
  | none => (.ok, mem)
  | some op =>
    if e.poll = .busy then (.busy, mem)
    else if e.poll = .ok then (.ok, { cells := op.apply m.layout mem.cells })
    else (e.poll, { cells := e.torn op mem.cells })

def read (pos n : Nat) : Crash (Device m) (Status × Bytes) :=
  call fun e d => (readAs e pos n d.toMemory, d)

def start (op : Operation) : Crash (Device m) Status :=
  call fun e d =>
    let (result, mem) := startAs e op d.toMemory
    (result, { d with toMemory := mem })

def poll : Crash (Device m) Status :=
  call fun e d =>
    let (result, mem) := pollAs e d.toMemory
    (result, { d with toMemory := mem })

def now : Crash (Device m) Time :=
  call fun e d => (d.clock + e.advance, { d with clock := d.clock + e.advance })

def flash (executing : Option Nat) : Flash (Device m) where
  read := read
  erase pos := start (.erase pos)
  program pos data := start (.program pos data)
  poll := poll
  now := now
  executingBank := executing
  fuel d := d.events.length

/-- The memory after power is lost: the operation in progress is torn. -/
def powerOff (e : Event m.layout) (d : Device m) : Cells :=
  match d.pending with
  | none => d.cells
  | some op => e.torn op d.cells

/-! ## Rules for the device's calls

Each call is cut short in the device's present state, or answers what the event says. -/

section rules

open Crash

variable {C : Device m → Prop} {d : Device m}
variable {Q : Status × Bytes → Device m → Prop} {n : Nat}

theorem wp_call {f : Event m.layout → Device m → α × Device m} {Q : α → Device m → Prop} (hC : C d)
    (hQ : ∀ e rest, m.May e →
      Q (f e { d with events := rest }).1 (f e { d with events := rest }).2) :
    Wp (call f) C Q d := by
  unfold Wp call
  cases d.events with
  | nil => exact hC
  | cons e rest => exact hQ e.1 rest e.2

/-- A read answers bytes only when nothing is pending and all can be read. -/
theorem wp_read {pos : Nat} (hC : C d)
    (hok : ∀ bs d', d'.toMemory = d.toMemory → d.pending = none → d.cells.bytes pos n = some bs →
      Q (.ok, bs) d') (hfail : ∀ r d', d'.toMemory = d.toMemory → r ≠ .ok → Q (r, []) d') :
    Wp (read pos n) C Q d := by
  refine wp_call hC fun e rest _ => ?_
  simp only [readAs]
  split
  · exact hfail .busy { d with events := rest } rfl (by decide)
  · next hp =>
    split
    · next hr => exact hfail _ { d with events := rest } rfl hr
    · unfold Cells.answer
      split
      · next bs hbs =>
        exact hok bs { d with events := rest } rfl (Option.not_isSome_iff_eq_none.mp hp) hbs
      · exact hfail .ioError { d with events := rest } rfl (by decide)

theorem wp_read_steady {pos : Nat} (hsteady : ∀ e, m.May e → e.read pos = .ok)
    (hp : d.pending = none) (hC : C d)
    (hQ : ∀ d', d'.toMemory = d.toMemory → Q (d.cells.answer pos n) d') :
    Wp (read pos n) C Q d := by
  refine wp_call hC fun e rest he => ?_
  simp only [readAs, hp, hsteady e he, Option.isSome_none, Bool.false_eq_true, if_false, ne_eq,
    not_true_eq_false]
  exact hQ { d with events := rest } rfl

theorem wp_start {op : Operation} {Q : Status → Device m → Prop} (hC : C d)
    (hok : ∀ d', d.pending = none → d'.toMemory = { d.toMemory with pending := some op } →
      Q .ok d')
    (hbusy : ∀ d', d.pending ≠ none → d'.toMemory = d.toMemory → Q .busy d')
    (hfail : ∀ e d', m.May e → e.start ≠ .ok → d'.toMemory = d.toMemory → Q e.start d') :
    Wp (start op) C Q d := by
  refine wp_call hC fun e rest he => ?_
  simp only [startAs]
  split
  · next hs => exact hfail e { d with events := rest } he hs rfl
  · split
    · next hp =>
      refine hbusy { d with events := rest } (fun h => ?_) rfl
      rw [h] at hp
      cases hp
    · next hp => exact hok _ (Option.not_isSome_iff_eq_none.mp hp) rfl

theorem wp_poll {Q : Status → Device m → Prop} (hC : C d)
    (hidle : ∀ d', d.pending = none → d'.toMemory = d.toMemory → Q .ok d')
    (hbusy : ∀ op d', d.pending = some op → d'.toMemory = d.toMemory → Q .busy d')
    (hdone : ∀ op d', d.pending = some op →
      d'.toMemory = { cells := op.apply m.layout d.cells } → Q .ok d')
    (hfail : ∀ e op d', m.May e → d.pending = some op → e.poll ≠ .ok → e.poll ≠ .busy →
      d'.toMemory = { cells := e.torn op d.cells } → Q e.poll d') :
    Wp poll C Q d := by
  refine wp_call hC fun e rest he => ?_
  simp only [pollAs]
  split
  · next hp => exact hidle _ hp rfl
  · next op hp =>
    split
    · exact hbusy op _ hp rfl
    · next hb =>
      split
      · exact hdone op _ hp rfl
      · next ho => exact hfail e op _ he hp ho hb rfl

theorem wp_now {Q : Time → Device m → Prop} (hC : C d)
    (hQ : ∀ t d', d'.toMemory = d.toMemory → Q t d') : Wp now C Q d :=
  wp_call hC fun _ _ _ => hQ _ _ rfl

end rules

end Device

end DaveOs.Boot
