import DaveOs.Otp.Store

/-!
# The flash under the OTP store

Flash words of sixteen bytes, readable or not. A program takes effect when a poll reports its end,
which it does within the driver's budget and timeout; power can be lost at any call, and then the word
that is being programmed is left with any content at all, or unreadable. Every command that changes
the flash is logged with the contents it found.
-/

namespace DaveOs.Otp

open Bytes

abbrev Word := { bytes : Bytes // bytes.length = 16 }

def Word.ones : Word := ⟨List.replicate 16 0xff, rfl⟩

/-- The words by address; `none` is a word that cannot be read. -/
abbrev Contents := Nat → Option Word

/-- A command that changes the flash, with the contents it found. -/
inductive Command
  | erase (pos : Nat)
  | program (pos : Nat) (word : Bytes) (before : Contents)

/-- What the hardware decides at one call: whether a program is still busy, how far the clock moves. -/
structure Event where
  busy : Bool := false
  advance : Nat := 0
  deriving DecidableEq, Repr

/-- A program in progress: since when, and how often it was polled. -/
structure Pending where
  pos : Nat
  word : Word
  since : Nat
  polls : Nat := 0

/-- The flash: its contents, the program in progress, the clock, the commands so far and the events
still to come. -/
structure Device where
  contents : Contents
  pending : Option Pending := none
  clock : Nat := 0
  log : List Command := []
  events : List Event

namespace Device

variable {α : Type}

/-- One call: the next event decides it, and without one power is lost. -/
def call (f : Event → Device → α × Device) : Crash Device α := fun d =>
  match d.events with
  | [] => (none, d)
  | e :: rest =>
    let r := f e { d with events := rest }
    (some r.1, r.2)

def read (pos size : Nat) : Crash Device (Status × Bytes) :=
  call fun _ d =>
    if size ≠ 16 then ((.invalidArgument, []), d)
    else
      match d.contents pos with
      | some word => ((.ok, word.val), d)
      | none => ((.ioError, []), d)

def erase (pos : Nat) : Crash Device Status :=
  call fun _ d => (.ok, { d with
    contents := fun x => if pos ≤ x ∧ x < pos + kSize then some Word.ones else d.contents x
    log := d.log ++ [.erase pos] })

def program (pos : Nat) (word : Bytes) : Crash Device Status :=
  call fun _ d =>
    if h : word.length = 16 then
      (.ok, { d with
        pending := some { pos := pos, word := ⟨word, h⟩, since := d.clock }
        log := d.log ++ [.program pos word d.contents] })
    else (.invalidArgument, d)

/-- `poll`. A program ends before the driver's last poll of it. Only an erased word takes its data. -/
def poll : Crash Device Status :=
  call fun e d =>
    match d.pending with
    | none => (.ok, d)
    | some p =>
      if e.busy ∧ p.polls + 1 < kPollBudget then
        (.busy, { d with pending := some { p with polls := p.polls + 1 } })
      else
        (.ok, { d with
          pending := none
          contents := Function.update d.contents p.pos
            (if d.contents p.pos = some Word.ones then some p.word else none) })

/-- `now`. While a program is in progress the clock stays within the driver's timeout. -/
def now : Crash Device Time :=
  call fun e d =>
    let clock := match d.pending with
      | none => d.clock + e.advance
      | some p => max d.clock (min (d.clock + e.advance) (p.since + kWriteTimeout - 1))
    (clock, { d with clock := clock })

def flash : Boot.Flash Device where
  read := read
  erase := erase
  program := program
  poll := poll
  now := now
  executingBank := none
  fuel d := d.events.length

/-- What a loss of power leaves; the word in progress is left as `torn`. -/
def powerOff (d : Device) (torn : Option Word) : Contents :=
  match d.pending with
  | none => d.contents
  | some p => Function.update d.contents p.pos torn

end Device

/-! ## Histories -/

/-- The store over flash records in a region. -/
abbrev OtpStore := Store FlashOtp

abbrev otpDriver : Driver Device FlashOtp := FlashOtp.driver Device.flash

/-- A store just constructed over the region at `base`. -/
def OtpStore.new (base : Nat) : OtpStore := { context := { base := base } }

/-- What the requests of a history allow: the value last reported as set, and the values requested
since whose programming was started. -/
structure Ledger where
  established : Option Bytes := none
  started : List Bytes := []
  deriving DecidableEq, Repr

namespace Ledger

/-- The serial numbers that may be found. -/
def Allows (l : Ledger) (serial : Option Bytes) : Prop :=
  serial = l.established ∨ ∃ value ∈ l.started, serial = some value

/-- The ledger after a request that was cut short or failed. -/
def attempt (l : Ledger) (value : Bytes) (touched : Bool) : Ledger :=
  if touched then { l with started := value :: l.started } else l

/-- The ledger after a request that returned. It set the value when it reported ok, or when it failed
with the value in the store and an error in the lock phase. -/
def record (l : Ledger) (value : Bytes) (status : Status) (store : OtpStore) (touched : Bool) :
    Ledger :=
  if status = .ok ∨ (store.serial = some value ∧ store.diagnostics.phase = .lock) then
    { established := some value }
  else l.attempt value touched

end Ledger

/-- One session: what the hardware does, the values requested, and what a loss of power at its end
leaves in the word in progress. -/
structure Session where
  events : List Event
  calls : List Bytes
  torn : Option Word

structure Surviving where
  contents : Contents
  log : List Command := []
  ledger : Ledger := {}

/-- Requests until they end or power is lost. -/
def serve : List Bytes → OtpStore → Ledger → Device → Ledger × Device
  | [], _, l, d => (l, d)
  | value :: rest, store, l, d =>
    match store.setSerial otpDriver value d with
    | (some (status, store'), d') =>
      serve rest store' (l.record value status store' (d.log.length < d'.log.length)) d'
    | (none, d') => (l.attempt value (d.log.length < d'.log.length), d')

/-- The flash at the start of a session. -/
def Surviving.device (s : Surviving) (events : List Event) : Device :=
  { contents := s.contents, log := s.log, events := events }

/-- A session: `init`, the requests, and the loss of power. -/
def Session.run (base : Nat) (s : Session) (before : Surviving) : Surviving :=
  let r := match (OtpStore.new base).init otpDriver (before.device s.events) with
    | (some (_, store), d) => serve s.calls store before.ledger d
    | (none, d) => (before.ledger, d)
  { contents := r.2.powerOff s.torn, log := r.2.log, ledger := r.1 }

/-- The address of word `i` of block `b`. -/
def wordAt (base b i : Nat) : Nat := base + b * kSlotSize + i * 16

def virgin : Contents := fun _ => some Word.ones

/-- What a history of sessions on an erased region leaves. -/
def history (base : Nat) (sessions : List Session) : Surviving :=
  sessions.foldl (fun before s => s.run base before) { contents := virgin }

/-- The stores a session goes through, with the ledger and the flash at that time. -/
inductive Live (base : Nat) : OtpStore → Ledger → Device → Prop
  | init {sessions : List Session} {events : List Event} {status : Status} {store : OtpStore}
      {d : Device}
      (h : (OtpStore.new base).init otpDriver ((history base sessions).device events) =
        (some (status, store), d)) :
      Live base store (history base sessions).ledger d
  | call {store store' : OtpStore} {l : Ledger} {d d' : Device} {value : Bytes} {status : Status}
      (hlive : Live base store l d)
      (h : store.setSerial otpDriver value d = (some (status, store'), d')) :
      Live base store' (l.record value status store' (d.log.length < d'.log.length)) d'

end DaveOs.Otp
