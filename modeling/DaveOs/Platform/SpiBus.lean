import DaveOs.Hal.Actions

/-!
# The STM32 SPI driver

`platform/stm32/bus/driver.h`, class `SpiBus`: an action is cut into chunks that the peripheral counts
down, moved byte by byte in the interrupt or, from 32 bytes on and where there is an engine, by DMA from
and to staging buffers of its own. The counters of the driver are the members of `SpiBus`; what it writes
to and reads from the registers that move data is logged, newest first.

The peripheral is any answer to the readings of its status register that depends on what it was given so
far. An access outside the borrowed buffers ends the model: `none`.
-/

namespace DaveOs.Platform

open Hal

/-! ## The registers -/

/-- What the driver reads of `SR`. -/
structure SpiFlags where
  /-- `OVR`, `UDR`, `MODF` or `TIFRE`. -/
  error : Bool := false
  rxp : Bool := false
  txp : Bool := false
  eot : Bool := false

/-- What passes between the driver, the peripheral and the DMA engine. -/
inductive SpiEvent where
  /-- `CR2`, the byte count of a chunk. -/
  | program (count : Nat)
  /-- `TXDR`. -/
  | transmit (byte : UInt8)
  /-- `RXDR`. -/
  | receive (byte : UInt8)
  /-- The engine has copied these bytes to be sent. -/
  | stage (bytes : List UInt8)
  /-- The engine was stopped when it had sent this many of them. -/
  | stop (clocked : Nat)
  /-- The engine has copied out these bytes, which it had received. -/
  | unstage (bytes : List UInt8)
deriving DecidableEq

/-- What the peripheral, the DMA engine and the wire answer during a poll. -/
structure SpiAnswers where
  /-- The `i`th reading of the status register, by the log. -/
  sr : Nat → List SpiEvent → SpiFlags := fun _ _ => {}
  /-- What is in `RXDR` at the `i`th reading. -/
  rxdr : Nat → UInt8 := fun _ => 0
  dmaPoll : Option Hal.Status := none
  dmaStop : Bool := true
  /-- The bytes of the chunk that are out when the engine is stopped. -/
  clocked : Nat := 0
  /-- What the engine has received. -/
  staged : Nat → UInt8 := fun _ => 0
  dmaStart : Hal.Status := .ok

/-! ## The driver -/

structure SpiBus where
  action : Spi.Action := { operation := .write }
  total : Nat := 0
  chunkEnd : Nat := 0
  sent : Nat := 0
  received : Nat := 0
  active : Bool := false
  dmaActive : Bool := false
  memory : Memory := fun _ => 0
  log : List SpiEvent := []

namespace SpiBus

def observe (e : SpiEvent) (s : SpiBus) : SpiBus := { s with log := e :: s.log }

/-- The bytes that the engine is to send: of the write buffer, or as many fill bytes. -/
def staging (s : SpiBus) (count : Nat) : List UInt8 :=
  if s.action.tx.size = 0 then List.replicate count s.action.fill
  else Span.bytes s.memory ⟨s.action.tx.data + s.sent, count⟩

/-- `dma_.start()` on a part of the write buffer. -/
def dmaStart (answer : Hal.Status) (count : Nat) (s : SpiBus) : Option (Hal.Status × SpiBus) :=
  if s.action.tx.size ≠ 0 ∧ s.action.tx.size < s.sent + count then none
  else if answer = .ok then some (.ok, s.observe (.stage (s.staging count)))
  else some (answer, s)

/-- `Chunk`. Without a capacity there is no engine. -/
def chunk (capacity : Nat) (answer : Hal.Status) (s : SpiBus) : Option (Hal.Status × SpiBus) :=
  let remaining := s.total - s.received
  let dmaActive := decide (capacity ≠ 0 ∧ 32 ≤ remaining)
  let count := min remaining (if dmaActive then capacity else 65535)
  let s := { s with dmaActive, chunkEnd := s.received + count }.observe (.program (count % 2 ^ 32))
  if dmaActive then s.dmaStart answer count else some (.ok, s)

def nextChunk (capacity : Nat) (answer : Hal.Status) (s : SpiBus) : Option (Option Hal.Status × SpiBus) :=
  if s.received < s.total then
    (s.chunk capacity answer).map fun r => (if r.1 = .ok then none else some r.1, r.2)
  else some (some .ok, { s with active := false })

def length (action : Spi.Action) : Nat :=
  if action.operation = .idleClocks then action.amount.toNat / 8 else max action.tx.size action.rx.size

def start (capacity : Nat) (answer : Hal.Status) (action : Spi.Action) (s : SpiBus) : Option (Hal.Status × SpiBus) :=
  { s with action, total := length action, sent := 0, received := 0, active := true }.chunk capacity answer

/-- A received byte is taken and, if there is a buffer for it, stored. -/
def receiveByte (byte : UInt8) (s : SpiBus) : Option SpiBus :=
  if s.action.rx.size = 0 then some ({ s with received := s.received + 1 }.observe (.receive byte))
  else if s.received < s.action.rx.size then
    some ({ s with
      memory := Span.store ⟨s.action.rx.data + s.received, 1⟩ [byte] s.memory
      received := s.received + 1 }.observe (.receive byte))
  else none

def sendByte (s : SpiBus) : Option SpiBus :=
  if s.action.tx.size = 0 then some ({ s with sent := s.sent + 1 }.observe (.transmit s.action.fill))
  else if s.sent < s.action.tx.size then
    some ({ s with sent := s.sent + 1 }.observe (.transmit (s.memory (s.action.tx.data + s.sent))))
  else none

def takes (flags : SpiFlags) (s : SpiBus) : Bool := flags.rxp && decide (s.received < s.chunkEnd)

def gives (flags : SpiFlags) (s : SpiBus) : Bool := flags.txp && decide (s.sent < s.chunkEnd)

def takeReady (flags : SpiFlags) (byte : UInt8) (s : SpiBus) : Option SpiBus :=
  if s.takes flags then s.receiveByte byte else some s

def giveReady (flags : SpiFlags) (s : SpiBus) : Option SpiBus :=
  if s.gives flags then s.sendByte else some s

/-- The body of the FIFO loop, and whether there was progress. -/
def fifoStep (flags : SpiFlags) (byte : UInt8) (s : SpiBus) : Option (Bool × SpiBus) := do
  let t ← s.takeReady flags byte
  let u ← t.giveReady flags
  return (s.takes flags || t.gives flags, u)

/-- The FIFO loop, with the iterations it may still make. -/
def fifo (a : SpiAnswers) : Nat → Nat → SpiBus → Option (Option Hal.Status × SpiBus)
  | 0, _, s => some (none, s)
  | n + 1, i, s =>
    if (a.sr i s.log).error then some (some .hardwareError, { s with active := false })
    else do
      let (progress, s) ← s.fifoStep (a.sr i s.log) (a.rxdr i)
      if progress then fifo a n (i + 1) s else some (none, s)

/-- The engine is done with its chunk, and is stopped. -/
def dmaDone (a : SpiAnswers) (s : SpiBus) : Option SpiBus :=
  if s.action.rx.size = 0 then
    some { s.observe (.stop a.clocked) with sent := s.chunkEnd, received := s.chunkEnd, dmaActive := false }
  else if s.chunkEnd ≤ s.action.rx.size then
    let bytes := (List.range (s.chunkEnd - s.received)).map a.staged
    some { (s.observe (.stop a.clocked)).observe (.unstage bytes) with
      memory := Span.store ⟨s.action.rx.data + s.received, s.chunkEnd - s.received⟩ bytes s.memory
      sent := s.chunkEnd
      received := s.chunkEnd
      dmaActive := false }
  else none

/-- `poll` during a chunk of the engine. -/
def pollDma (capacity : Nat) (a : SpiAnswers) (s : SpiBus) : Option (Option Hal.Status × SpiBus) :=
  if (a.sr 0 s.log).error then some (some .hardwareError, s)
  else match a.dmaPoll with
    | none => some (none, s)
    | some status =>
      if status ≠ .ok then some (some status, s)
      else if !(a.sr 1 s.log).eot then some (none, s)
      else if !a.dmaStop then some (some .hardwareError, s)
      else do (← s.dmaDone a).nextChunk capacity a.dmaStart

def poll (capacity : Nat) (a : SpiAnswers) (s : SpiBus) : Option (Option Hal.Status × SpiBus) :=
  if !s.active then some (none, s)
  else if s.dmaActive then s.pollDma capacity a
  else do
    let (result, s) ← s.fifo a 32 0
    match result with
    | some status => some (some status, s)
    | none =>
      if (a.sr 32 s.log).eot ∧ s.received = s.chunkEnd then s.nextChunk capacity a.dmaStart
      else some (none, s)

def polls (capacity : Nat) : List SpiAnswers → SpiBus → Option (Option Hal.Status × SpiBus)
  | [], s => some (none, s)
  | a :: rest, s => do
    let (result, s) ← s.poll capacity a
    match result with
    | some status => some (some status, s)
    | none => polls capacity rest s

/-- A whole action: `start`, and polls if it went well. -/
def run (capacity : Nat) (answer : Hal.Status) (action : Spi.Action) (answers : List SpiAnswers) (s : SpiBus) :
    Option (Option Hal.Status × SpiBus) := do
  let (status, s) ← s.start capacity answer action
  if status = .ok then s.polls capacity answers else some (some status, s)

end SpiBus

/-! ## What the wire sees -/

def newestStage : List SpiEvent → List UInt8
  | [] => []
  | .stage bytes :: _ => bytes
  | _ :: log => newestStage log

def sentBytes : List SpiEvent → List UInt8
  | [] => []
  | .transmit byte :: log => sentBytes log ++ [byte]
  | .stop clocked :: log => sentBytes log ++ (newestStage log).take clocked
  | _ :: log => sentBytes log

def receivedBytes : List SpiEvent → List UInt8
  | [] => []
  | .receive byte :: log => receivedBytes log ++ [byte]
  | .unstage bytes :: log => receivedBytes log ++ bytes
  | _ :: log => receivedBytes log

/-- The counts programmed, newest first. -/
def counts : List SpiEvent → List Nat
  | [] => []
  | .program count :: log => count :: counts log
  | _ :: log => counts log

/-- The bytes given to `TXDR` in this chunk. -/
def chunkSent : List SpiEvent → Nat
  | [] | .program _ :: _ => 0
  | .transmit _ :: log => chunkSent log + 1
  | _ :: log => chunkSent log

/-- The bytes taken from `RXDR` in this chunk. -/
def chunkReceived : List SpiEvent → Nat
  | [] | .program _ :: _ => 0
  | .receive _ :: log => chunkReceived log + 1
  | _ :: log => chunkReceived log

/-- A peripheral without errors: it has a received byte only for one that it was given in this chunk, and
ends a transfer when all the bytes it was to count are out. -/
def SpiAnswers.Consistent (a : SpiAnswers) : Prop :=
  ∀ i log, (a.sr i log).error = false ∧
    ((a.sr i log).rxp = true → chunkReceived log < chunkSent log) ∧
    ((a.sr i log).eot = true → (counts log).head? = some a.clocked)

structure SpiAnswers.Fine (a : SpiAnswers) : Prop where
  poll : a.dmaPoll = none ∨ a.dmaPoll = some .ok
  stop : a.dmaStop = true
  start : a.dmaStart = .ok

/-! ## Actions -/

namespace SpiBus

variable {i : Nat} {l : List UInt8} {s : SpiBus} {count capacity : Nat} {flags : SpiFlags}
  {a : SpiAnswers} {answers : List SpiAnswers} {x : Spi.Action}

/-- What an action has to be for the driver, by the checks of the controller. -/
structure Valid (action : Spi.Action) : Prop where
  pos : 0 < length action
  tx : action.tx.size = 0 ∨ action.tx.size = length action
  rx : action.rx.size = 0 ∨ action.rx.size = length action
  apart : action.tx.size ≠ 0 → action.rx.size ≠ 0 → action.tx.overlap action.rx = false

def outgoing (action : Spi.Action) (memory : Memory) : List UInt8 :=
  if action.tx.size = 0 then List.replicate (length action) action.fill else action.tx.bytes memory

variable {action : Spi.Action} {m : Memory}

theorem outgoing_length (hv : Valid action) : (outgoing action m).length = length action := by
  unfold outgoing
  split
  · exact List.length_replicate
  · rename_i h
    simpa [Span.bytes] using hv.tx.resolve_left h

theorem store_apart (hv : Valid action) (ht : action.tx.size ≠ 0) (l : List UInt8)
    (hi : i < action.tx.size) :
    action.rx.store l m (action.tx.data + i) = m (action.tx.data + i) := by
  refine if_neg fun hin => ?_
  have hr : action.rx.size ≠ 0 := by omega
  have hapart := hv.apart ht hr
  unfold Span.overlap at hapart
  split at hapart <;> simp at hapart <;> omega

theorem store_append {span : Span} {bytes : List UInt8} {n : Nat} (hn : bytes.length = n)
    (h : l.length + n ≤ span.size) :
    Span.store ⟨span.data + l.length, n⟩ bytes (span.store l m) = span.store (l ++ bytes) m := by
  subst hn
  funext address
  unfold Span.store
  dsimp only
  by_cases hlo : span.data + l.length ≤ address
  · have hsub : address - (span.data + l.length) = address - span.data - l.length := Nat.sub_add_eq _ _ _
    rw [List.getElem?_append_right (by omega), List.getElem?_eq_none (by omega : l.length ≤ address - span.data),
      hsub]
    by_cases hhi : address < span.data + l.length + bytes.length
    · have hin : span.data ≤ address ∧ address < span.data + span.size := by omega
      rw [if_pos ⟨hlo, hhi⟩, if_pos hin, List.getElem?_eq_getElem (by omega)]
      exact (if_pos hin).symm
    · rw [if_neg (by omega), List.getElem?_eq_none (by omega)]
  · rw [if_neg (by omega)]
    split
    · rw [List.getElem?_append_left (by omega)]
    · rfl

theorem outgoing_getElem (hv : Valid action) (hi : i < length action) (l : List UInt8) :
    (outgoing action m)[i]? = some (if action.tx.size = 0 then action.fill
      else action.rx.store l m (action.tx.data + i)) := by
  unfold outgoing
  split
  · simp [hi]
  · rename_i ht
    have hsize := hv.tx.resolve_left ht
    rw [store_apart hv ht l (by omega)]
    simp [Span.bytes, hsize, hi]

theorem staging_eq (hv : Valid action) (ha : s.action = action)
    (hm : s.memory = action.rx.store l m) (hc : s.sent + count ≤ length action) :
    s.staging count = ((outgoing action m).drop s.sent).take count := by
  have hlen := outgoing_length (m := m) hv
  refine List.ext_getElem? fun i => ?_
  rw [List.getElem?_take]
  split
  · rename_i hi
    rw [List.getElem?_drop, outgoing_getElem hv (by omega) l]
    unfold staging
    rw [ha, hm]
    split
    · simp [hi]
    · simp [Span.bytes, hi, Nat.add_assoc]
  · rename_i hi
    refine List.getElem?_eq_none ?_
    unfold staging
    split
    · simpa using hi
    · simpa [Span.bytes] using hi

/-! ## Chunks -/

/-- The log and the buffers are as far as the counters. -/
structure Kept (a : Spi.Action) (m : Memory) (s : SpiBus) : Prop where
  owns : s.action = a
  total : s.total = length a
  sent : sentBytes s.log = (outgoing a m).take s.sent
  received : a.rx.size ≠ 0 → (receivedBytes s.log).length = s.received
  memory : s.memory = a.rx.store (receivedBytes s.log) m
  counts : ∀ n ∈ counts s.log, 1 ≤ n ∧ n ≤ 65535
  active : s.active = true

structure Moved (a : Spi.Action) (m : Memory) (s : SpiBus) : Prop extends Kept a m s where
  same : s.sent = s.received
  le : s.received ≤ s.total
  sum : (Platform.counts s.log).sum = s.received

structure Moving (a : Spi.Action) (m : Memory) (s : SpiBus) : Prop extends Kept a m s where
  received_le : s.received ≤ s.sent
  sent_le : s.sent ≤ s.chunkEnd
  chunkEnd_le : s.chunkEnd ≤ s.total
  sum : (Platform.counts s.log).sum = s.chunkEnd
  programmed : ∃ count, (Platform.counts s.log).head? = some count
  /-- In the interrupt: how far the chunk is. -/
  fifo : s.dmaActive = false → ∃ base, s.sent = base + chunkSent s.log ∧
    s.received = base + chunkReceived s.log
  /-- With the engine: what it was given. -/
  dma : s.dmaActive = true → s.sent = s.received ∧
    newestStage s.log = ((outgoing a m).drop s.sent).take (s.chunkEnd - s.sent) ∧
    (Platform.counts s.log).head? = some (s.chunkEnd - s.sent)

structure Renewed (s t : SpiBus) : Prop where
  total : t.total = s.total
  sent : t.sent = s.sent
  received : t.received = s.received
  lt : s.received < t.chunkEnd

theorem dmaStart_spec {answer : Hal.Status} (hv : Valid action) (h : Kept action m s)
    (hc : s.sent + count ≤ length action) : s.dmaStart answer count =
      some (if answer = .ok then
        (.ok, s.observe (.stage (((outgoing action m).drop s.sent).take count)))
      else (answer, s)) := by
  have hin : ¬ (s.action.tx.size ≠ 0 ∧ s.action.tx.size < s.sent + count) := by
    rintro ⟨h0, hlt⟩
    rw [h.owns] at h0 hlt
    have := hv.tx.resolve_left h0
    omega
  unfold dmaStart
  rw [if_neg hin, staging_eq hv h.owns h.memory hc]
  split <;> rfl

theorem chunk_spec (answer : Hal.Status) (hv : Valid action) (hcap : capacity ≤ 65535)
    (h : Moved action m s) (hlt : s.received < s.total) :
    ∃ r, s.chunk capacity answer = some r ∧ (r.1 = .ok → Moving action m r.2) ∧
      (answer = .ok → r.1 = .ok) ∧ Renewed s r.2 := by
  unfold chunk
  dsimp only
  generalize hd : decide (capacity ≠ 0 ∧ 32 ≤ s.total - s.received) = d
  generalize hcount : min (s.total - s.received) (if d = true then capacity else 65535) = count
  have hbounds : 1 ≤ count ∧ count ≤ 65535 ∧ s.received + count ≤ s.total := by
    cases d with
    | true =>
      have hcap' := of_decide_eq_true hd
      rw [if_pos rfl] at hcount
      omega
    | false =>
      rw [if_neg nofun] at hcount
      omega
  have hmod : count % 2 ^ 32 = count := Nat.mod_eq_of_lt (by omega)
  rw [hmod]
  have hcounts : ∀ n ∈ Platform.counts (.program count :: s.log), 1 ≤ n ∧ n ≤ 65535 := by
    intro n hn
    rcases List.mem_cons.1 hn with rfl | hn
    · exact ⟨hbounds.1, hbounds.2.1⟩
    · exact h.counts n hn
  have hsum : (Platform.counts (.program count :: s.log)).sum = s.received + count := by
    rw [Platform.counts, List.sum_cons, h.sum, Nat.add_comm]
  have hkept : Kept action m ({ s with dmaActive := d, chunkEnd := s.received + count }.observe
      (.program count)) :=
    { h.toKept with counts := hcounts }
  have hsame := h.same
  have hend : s.sent ≤ s.received + count := by omega
  have hlt' : s.received < s.received + count := by omega
  cases d with
  | false =>
    exact ⟨_, rfl, fun _ => { hkept with
      received_le := Nat.le_of_eq hsame.symm
      sent_le := hend
      chunkEnd_le := hbounds.2.2
      sum := hsum
      programmed := ⟨count, rfl⟩
      fifo := fun _ => ⟨s.sent, rfl, hsame.symm⟩
      dma := nofun }, fun _ => rfl, rfl, rfl, rfl, hlt'⟩
  | true =>
    have htotal := h.total
    have hcnt : s.received + count - s.sent = count := by omega
    rw [if_pos rfl, dmaStart_spec hv hkept (show s.sent + count ≤ length action by omega)]
    refine ⟨_, rfl, fun hok => ?_, fun hok => by rw [if_pos hok], ?_⟩
    all_goals split
    · exact { hkept with
        received_le := Nat.le_of_eq hsame.symm
        sent_le := hend
        chunkEnd_le := hbounds.2.2
        sum := hsum
        programmed := ⟨count, rfl⟩
        fifo := nofun
        dma := fun _ => ⟨hsame, congrArg (((outgoing action m).drop s.sent).take ·) hcnt.symm,
          congrArg some hcnt.symm⟩ }
    · rename_i hne
      rw [if_neg hne] at hok
      exact absurd hok hne
    all_goals exact ⟨rfl, rfl, rfl, hlt'⟩

/-! ## Bytes -/

/-- A byte is given, or taken, or both. -/
structure Shifted (s t : SpiBus) (given taken : Bool) : Prop where
  total : t.total = s.total
  chunkEnd : t.chunkEnd = s.chunkEnd
  counts : counts t.log = counts s.log
  sent : t.sent = s.sent + given.toNat
  received : t.received = s.received + taken.toNat

theorem receiveByte_spec {byte : UInt8} (hv : Valid action) (h : Moving action m s)
    (hd : s.dmaActive = false) (hlt : s.received < s.sent) :
    ∃ s', s.receiveByte byte = some s' ∧ Moving action m s' ∧ s'.dmaActive = false ∧
      Shifted s s' false true := by
  obtain rfl := h.owns
  obtain ⟨base, hs, hr⟩ := h.fifo hd
  have hend := h.sent_le
  have htotal := h.chunkEnd_le
  have hmoving (memory : Memory) (hm : memory = s.action.rx.store (receivedBytes s.log ++ [byte]) m) :
      Moving s.action m ({ s with memory, received := s.received + 1 }.observe (.receive byte)) :=
    { h with
      received := fun h0 => by
        show (receivedBytes s.log ++ [byte]).length = s.received + 1
        rw [List.length_append, h.received h0]
        rfl
      memory := hm
      received_le := hlt
      fifo := fun _ => ⟨base, hs, congrArg (· + 1) hr⟩
      dma := fun hd' => absurd (hd.symm.trans hd') nofun }
  unfold receiveByte
  split
  · rename_i h0
    have hid (l : List UInt8) : s.action.rx.store l m = m := by
      funext address
      exact if_neg (by omega)
    exact ⟨_, rfl, hmoving s.memory (h.memory.trans ((hid _).trans (hid _).symm)), hd, rfl, rfl, rfl, rfl, rfl⟩
  · rename_i h0
    have hlen := h.received h0
    have hlt' : s.received < s.action.rx.size := by rw [hv.rx.resolve_left h0, ← h.total]; omega
    rw [if_pos hlt']
    refine ⟨_, rfl, hmoving _ ?_, hd, rfl, rfl, rfl, rfl, rfl⟩
    rw [h.memory, ← hlen]
    exact store_append rfl (by rwa [hlen])

theorem sendByte_spec (hv : Valid action) (h : Moving action m s) (hd : s.dmaActive = false)
    (hlt : s.sent < s.chunkEnd) :
    ∃ s', s.sendByte = some s' ∧ Moving action m s' ∧ s'.dmaActive = false ∧ Shifted s s' true false := by
  obtain rfl := h.owns
  obtain ⟨base, hs, hr⟩ := h.fifo hd
  have hle := h.received_le
  have htotal := h.chunkEnd_le
  have hlen : s.sent < length s.action := by rw [← h.total]; omega
  have hbyte := outgoing_getElem (m := m) hv hlen (receivedBytes s.log)
  have hmoving (byte : UInt8) (hb : (outgoing s.action m)[s.sent]? = some byte) :
      Moving s.action m ({ s with sent := s.sent + 1 }.observe (.transmit byte)) :=
    { h with
      sent := by
        show sentBytes s.log ++ [byte] = (outgoing s.action m).take (s.sent + 1)
        rw [List.take_add_one, hb, h.sent]
        rfl
      received_le := Nat.le_succ_of_le hle
      sent_le := hlt
      fifo := fun _ => ⟨base, congrArg (· + 1) hs, hr⟩
      dma := fun hd' => absurd (hd.symm.trans hd') nofun }
  unfold sendByte
  split
  · rename_i h0
    rw [if_pos h0] at hbyte
    exact ⟨_, rfl, hmoving _ hbyte, hd, rfl, rfl, rfl, rfl, rfl⟩
  · rename_i h0
    rw [if_neg h0, ← h.memory] at hbyte
    rw [if_pos (by rw [hv.tx.resolve_left h0]; exact hlen)]
    exact ⟨_, rfl, hmoving _ hbyte, hd, rfl, rfl, rfl, rfl, rfl⟩

theorem takeReady_spec (byte : UInt8) (hv : Valid action) (h : Moving action m s)
    (hd : s.dmaActive = false) (hrxp : flags.rxp = true → chunkReceived s.log < chunkSent s.log) :
    ∃ s', s.takeReady flags byte = some s' ∧ Moving action m s' ∧ s'.dmaActive = false ∧
      Shifted s s' false (s.takes flags) := by
  obtain ⟨base, hs, hr⟩ := h.fifo hd
  unfold takeReady
  cases ht : s.takes flags with
  | true =>
    have hlt := hrxp (Bool.and_eq_true_iff.1 ht).1
    exact receiveByte_spec hv h hd (by omega)
  | false => exact ⟨s, rfl, h, hd, rfl, rfl, rfl, rfl, rfl⟩

theorem giveReady_spec (flags : SpiFlags) (hv : Valid action) (h : Moving action m s)
    (hd : s.dmaActive = false) : ∃ s', s.giveReady flags = some s' ∧ Moving action m s' ∧
      s'.dmaActive = false ∧ Shifted s s' (s.gives flags) false := by
  unfold giveReady
  cases hg : s.gives flags with
  | true => exact sendByte_spec hv h hd (of_decide_eq_true (Bool.and_eq_true_iff.1 hg).2)
  | false => exact ⟨s, rfl, h, hd, rfl, rfl, rfl, rfl, rfl⟩

theorem fifoStep_spec (byte : UInt8) (hv : Valid action) (h : Moving action m s)
    (hd : s.dmaActive = false) (hrxp : flags.rxp = true → chunkReceived s.log < chunkSent s.log) :
    ∃ s', s.fifoStep flags byte = some (s.takes flags || s.gives flags, s') ∧ Moving action m s' ∧
      s'.dmaActive = false ∧ Shifted s s' (s.gives flags) (s.takes flags) := by
  obtain ⟨t, htake, ht, hdt, hst⟩ := takeReady_spec byte hv h hd hrxp
  obtain ⟨u, hgive, hu, hdu, htu⟩ := giveReady_spec flags hv ht hdt
  have hgives : t.gives flags = s.gives flags := by
    unfold gives
    rw [hst.sent, hst.chunkEnd]
    rfl
  unfold fifoStep
  rw [htake, Option.bind_eq_bind, Option.bind_some, hgive]
  rw [hgives] at htu ⊢
  refine ⟨u, rfl, hu, hdu, htu.total.trans hst.total, htu.chunkEnd.trans hst.chunkEnd,
    htu.counts.trans hst.counts, ?_, htu.received.trans hst.received⟩
  rw [htu.sent, hst.sent]
  rfl

/-- What the FIFO loop does to a chunk. -/
structure SameChunk (s t : SpiBus) : Prop where
  total : t.total = s.total
  chunkEnd : t.chunkEnd = s.chunkEnd
  counts : counts t.log = counts s.log
  sent : s.sent ≤ t.sent
  received : s.received ≤ t.received

theorem fifo_spec (hv : Valid action) (ha : a.Consistent) (n i : Nat) (h : Moving action m s)
    (hd : s.dmaActive = false) :
    ∃ s', s.fifo a n i = some (none, s') ∧ Moving action m s' ∧ SameChunk s s' := by
  induction n generalizing i s with
  | zero => exact ⟨s, rfl, h, rfl, rfl, rfl, Nat.le_refl _, Nat.le_refl _⟩
  | succ n ih =>
    obtain ⟨herror, hrxp, -⟩ := ha i s.log
    obtain ⟨t, hstep, ht, hdt, hst⟩ := fifoStep_spec (a.rxdr i) hv h hd hrxp
    have hsent := hst.sent
    have hreceived := hst.received
    unfold fifo
    rw [herror, if_neg nofun, hstep, Option.bind_eq_bind, Option.bind_some]
    dsimp only
    split
    · obtain ⟨u, hfifo, hu, htu⟩ := ih (i + 1) ht hdt
      have hsent' := htu.sent
      have hreceived' := htu.received
      exact ⟨u, hfifo, hu, htu.total.trans hst.total, htu.chunkEnd.trans hst.chunkEnd,
        htu.counts.trans hst.counts, by omega, by omega⟩
    · exact ⟨t, rfl, ht, hst.total, hst.chunkEnd, hst.counts, by omega, by omega⟩

/-! ## Polls -/

structure Done (a : Spi.Action) (m : Memory) (s : SpiBus) : Prop where
  sent : sentBytes s.log = outgoing a m
  received : a.rx.size ≠ 0 → (receivedBytes s.log).length = a.rx.size
  memory : s.memory = a.rx.store (receivedBytes s.log) m
  counts : ∀ n ∈ counts s.log, 1 ≤ n ∧ n ≤ 65535
  sum : (Platform.counts s.log).sum = length a

inductive Polled (action : Spi.Action) (m : Memory) (fine : Prop) : Option Hal.Status × SpiBus → Prop where
  | going {s : SpiBus} (h : Moving action m s) : Polled action m fine (none, s)
  | done {s : SpiBus} (h : Done action m s) : Polled action m fine (some .ok, s)
  | failed {s : SpiBus} {status : Hal.Status} (hs : status ≠ .ok) (hf : ¬ fine) :
      Polled action m fine (some status, s)

theorem Polled.mono {p q : Prop} {r : Option Hal.Status × SpiBus} (h : Polled action m p r) (hpq : q → p) :
    Polled action m q r := by
  cases h with
  | going h => exact .going h
  | done h => exact .done h
  | failed hs hf => exact .failed hs fun h => hf (hpq h)

theorem nextChunk_spec (hv : Valid action) (hcap : capacity ≤ 65535) (h : Moved action m s) :
    ∃ r, s.nextChunk capacity a.dmaStart = some r ∧ Polled action m a.Fine r ∧
      (r.1 = none → Renewed s r.2) := by
  unfold nextChunk
  split
  · rename_i hlt
    obtain ⟨r, hr, hmoving, hok, hnew⟩ := chunk_spec a.dmaStart hv hcap h hlt
    rw [hr]
    refine ⟨_, rfl, ?_, fun _ => hnew⟩
    dsimp only
    split
    · rename_i hs
      exact .going (hmoving hs)
    · rename_i hs
      exact .failed hs fun hf => hs (hok hf.start)
  · rename_i hge
    have hle := h.le
    have htotal := h.total
    have hend : s.received = length action := by omega
    refine ⟨_, rfl, .done ⟨?_, fun h0 => ?_, h.memory, h.counts, h.sum.trans hend⟩, nofun⟩
    · show sentBytes s.log = _
      rw [h.sent, h.same, hend, ← outgoing_length (m := m) hv, List.take_length]
    · show (receivedBytes s.log).length = _
      rw [h.received h0, hend, hv.rx.resolve_left h0]

theorem Moving.moved (h : Moving action m s) (he : s.received = s.chunkEnd) : Moved action m s := by
  have hr := h.received_le
  have hs := h.sent_le
  exact { h.toKept with
    same := by omega
    le := he ▸ h.chunkEnd_le
    sum := h.sum.trans he.symm }

theorem dmaDone_spec (hv : Valid action) (h : Moving action m s) (hd : s.dmaActive = true)
    (hc : (Platform.counts s.log).head? = some a.clocked) :
    ∃ s', s.dmaDone a = some s' ∧ Moved action m s' ∧ s'.total = s.total ∧ s'.received = s.chunkEnd := by
  obtain rfl := h.owns
  obtain ⟨hsame, hstage, hhead⟩ := h.dma hd
  have hend := h.sent_le
  have htotal := h.chunkEnd_le
  have hclocked : a.clocked = s.chunkEnd - s.sent := Option.some.inj (hc.symm.trans hhead)
  -- All that was staged is out.
  have hsent : sentBytes s.log ++ (newestStage s.log).take a.clocked = (outgoing s.action m).take s.chunkEnd := by
    rw [h.sent, hstage, hclocked, List.take_take, Nat.min_self, ← List.take_add]
    congr 1
    omega
  unfold dmaDone
  split
  · rename_i h0
    exact ⟨_, rfl, { h.toKept with
      sent := hsent
      received := fun h => absurd h0 h
      same := rfl
      le := htotal
      sum := h.sum }, rfl, rfl⟩
  · rename_i h0
    have hlen := h.received h0
    have hsize := hv.rx.resolve_left h0
    rw [if_pos (by rw [hsize, ← h.total]; exact htotal)]
    refine ⟨_, rfl, { h.toKept with
      sent := hsent
      received := fun _ => ?_
      memory := ?_
      same := rfl
      le := htotal
      sum := h.sum }, rfl, rfl⟩
    · show (receivedBytes s.log ++ _).length = s.chunkEnd
      rw [List.length_append, hlen, List.length_map, List.length_range]
      omega
    · show Span.store ⟨_, _⟩ _ s.memory = s.action.rx.store (receivedBytes s.log ++ _) m
      rw [h.memory, ← hlen]
      refine store_append (by simp) ?_
      rw [hlen, hsize, ← h.total]
      omega

theorem pollDma_spec (hv : Valid action) (hcap : capacity ≤ 65535) (ha : a.Consistent)
    (h : Moving action m s) (hd : s.dmaActive = true) :
    ∃ r, s.pollDma capacity a = some r ∧ Polled action m a.Fine r := by
  unfold pollDma
  rw [(ha 0 s.log).1, if_neg nofun]
  split
  · exact ⟨_, rfl, .going h⟩
  rename_i status hpoll
  split
  · rename_i hne
    refine ⟨_, rfl, .failed hne fun hf => hne ?_⟩
    rcases hf.poll with hp | hp
    · exact absurd (hpoll.symm.trans hp) nofun
    · exact Option.some.inj (hpoll.symm.trans hp)
  split
  · exact ⟨_, rfl, .going h⟩
  rename_i heot
  split
  · rename_i hstop
    exact ⟨_, rfl, .failed nofun fun hf => by simp [hf.stop] at hstop⟩
  rw [Bool.not_eq_true, Bool.not_eq_false'] at heot
  obtain ⟨t, ht, hmoved, -⟩ := dmaDone_spec hv h hd ((ha 1 s.log).2.2 heot)
  obtain ⟨r, hr, hpolled, -⟩ := nextChunk_spec hv hcap hmoved
  rw [ht, Option.bind_eq_bind, Option.bind_some]
  exact ⟨r, hr, hpolled⟩

theorem poll_spec (hv : Valid action) (hcap : capacity ≤ 65535) (ha : a.Consistent)
    (h : Moving action m s) : ∃ r, s.poll capacity a = some r ∧ Polled action m a.Fine r := by
  unfold poll
  rw [h.active, if_neg nofun]
  split
  · rename_i hd
    exact pollDma_spec hv hcap ha h hd
  · rename_i hd
    rw [Bool.not_eq_true] at hd
    obtain ⟨t, hfifo, ht, -⟩ := fifo_spec hv ha 32 0 h hd
    rw [hfifo, Option.bind_eq_bind, Option.bind_some]
    dsimp only
    split
    · rename_i hdone
      obtain ⟨r, hr, hpolled, -⟩ := nextChunk_spec hv hcap (ht.moved hdone.2)
      exact ⟨r, hr, hpolled⟩
    · exact ⟨_, rfl, .going ht⟩

theorem polls_spec (hv : Valid action) (hcap : capacity ≤ 65535) (ha : ∀ a ∈ answers, a.Consistent)
    (h : Moving action m s) :
    ∃ r, s.polls capacity answers = some r ∧ Polled action m (∀ a ∈ answers, a.Fine) r := by
  induction answers generalizing s with
  | nil => exact ⟨_, rfl, .going h⟩
  | cons a answers ih =>
    obtain ⟨⟨result, t⟩, hpoll, hpolled⟩ := poll_spec hv hcap (ha a (List.mem_cons_self ..)) h
    unfold polls
    rw [hpoll, Option.bind_eq_bind, Option.bind_some]
    cases hpolled with
    | going ht =>
      obtain ⟨r, hr, hpolled⟩ := ih (fun a ha' => ha a (List.mem_cons_of_mem _ ha')) ht
      exact ⟨r, hr, hpolled.mono fun h a ha' => h a (List.mem_cons_of_mem _ ha')⟩
    | done h => exact ⟨_, rfl, .done h⟩
    | failed hs hf => exact ⟨_, rfl, .failed hs fun h => hf (h a (List.mem_cons_self ..))⟩

theorem start_spec (answer : Hal.Status) (hv : Valid action) (hcap : capacity ≤ 65535)
    (hlog : s.log = []) (hm : s.memory = m) :
    ∃ r, s.start capacity answer action = some r ∧ (r.1 = .ok → Moving action m r.2) ∧
      (answer = .ok → r.1 = .ok) := by
  have hmoved : Moved action m { s with action, total := length action, sent := 0, received := 0, active := true } := by
    refine { owns := rfl, total := rfl, sent := ?_, received := fun _ => ?_, memory := ?_, counts := ?_,
             active := rfl, same := rfl, le := Nat.zero_le _, sum := ?_ }
    all_goals dsimp only
    all_goals rw [hlog]
    · rfl
    · rfl
    · rw [hm]
      funext address
      simp [receivedBytes, Span.store]
    · exact nofun
    · rfl
  obtain ⟨r, hr, hmoving, hok, -⟩ := chunk_spec answer hv hcap hmoved hv.pos
  exact ⟨r, hr, hmoving, hok⟩

/-- A whole action never leaves its buffers and, when it ends well, has moved each byte once. -/
theorem run_spec (answer : Hal.Status) (hv : Valid action) (hcap : capacity ≤ 65535)
    (ha : ∀ a ∈ answers, a.Consistent) (hlog : s.log = []) (hm : s.memory = m) :
    ∃ r, s.run capacity answer action answers = some r ∧
      Polled action m (answer = .ok ∧ ∀ a ∈ answers, a.Fine) r := by
  obtain ⟨⟨status, t⟩, hstart, hmoving, hok⟩ := start_spec answer hv hcap hlog hm
  unfold run
  rw [hstart, Option.bind_eq_bind, Option.bind_some]
  dsimp only
  split
  · rename_i hs
    obtain ⟨r, hr, hpolled⟩ := polls_spec hv hcap ha (hmoving hs)
    exact ⟨r, hr, hpolled.mono And.right⟩
  · rename_i hs
    exact ⟨_, rfl, .failed hs fun h => hs (hok h.1)⟩

/-! ## Progress -/

/-- A peripheral that is ready for one more byte each way, and an engine that is done. -/
def eager (s : SpiBus) : SpiAnswers where
  sr i log :=
    { rxp := decide (i = 0 ∧ chunkReceived log < chunkSent log)
      txp := decide (i = 0)
      eot := decide ((counts log).head? = some ((counts s.log).headD 0)) }
  dmaPoll := some .ok
  clocked := (counts s.log).headD 0

theorem eager_consistent (s : SpiBus) : s.eager.Consistent := by
  intro i log
  refine ⟨rfl, fun h => (of_decide_eq_true h).2, fun h => ?_⟩
  exact of_decide_eq_true h

theorem eager_fine (s : SpiBus) : s.eager.Fine := ⟨.inr rfl, rfl, rfl⟩

def left (s : SpiBus) : Nat := 3 * s.total - s.sent - s.received - s.chunkEnd

theorem eager_eot {t : SpiBus} (h : Moving action m s) (hc : counts t.log = counts s.log) (i : Nat) :
    (s.eager.sr i t.log).eot = true := by
  obtain ⟨count, hcount⟩ := h.programmed
  refine decide_eq_true ?_
  rw [hc, List.headD_eq_head?_getD, hcount]
  rfl

theorem fifo_eager (hv : Valid action) (h : Moving action m s) (hd : s.dmaActive = false) :
    ∃ t, s.fifo s.eager 32 0 = some (none, t) ∧ Moving action m t ∧ SameChunk s t ∧
      (s.sent + s.received < t.sent + t.received ∨ t.received = t.chunkEnd) := by
  obtain ⟨t, hfifo, ht, hst⟩ := fifo_spec hv (eager_consistent s) 32 0 h hd
  refine ⟨t, hfifo, ht, hst, ?_⟩
  obtain ⟨base, hs, hr⟩ := h.fifo hd
  obtain ⟨u, hstep, hu, hdu, hsu⟩ := fifoStep_spec (s.eager.rxdr 0) hv h hd (eager_consistent s 0 s.log).2.1
  rw [show 32 = 31 + 1 from rfl, fifo, (eager_consistent s 0 s.log).1, if_neg nofun, hstep,
    Option.bind_eq_bind, Option.bind_some] at hfifo
  have hle := h.received_le
  have hsent := hsu.sent
  have hreceived := hsu.received
  cases hmoves : s.takes (s.eager.sr 0 s.log) || s.gives (s.eager.sr 0 s.log) with
  | true =>
    obtain ⟨v, hfifo', -, huv⟩ := fifo_spec hv (eager_consistent s) 31 1 hu hdu
    rw [hmoves] at hfifo
    obtain rfl : t = v := (Prod.mk.inj (Option.some.inj (hfifo.symm.trans hfifo'))).2
    have h₁ := huv.sent
    have h₂ := huv.received
    rcases Bool.or_eq_true_iff.1 hmoves with hg | hg
    · rw [hg, Bool.toNat_true] at hreceived
      exact .inl (by omega)
    · rw [hg, Bool.toNat_true] at hsent
      exact .inl (by omega)
  | false =>
    have hall : s.received = s.chunkEnd := by
      have hend := h.sent_le
      simp [takes, gives, eager] at hmoves
      omega
    have h₁ := hst.received
    have h₂ := hst.chunkEnd
    have h₃ := ht.received_le
    have h₄ := ht.sent_le
    exact .inr (by omega)

theorem poll_eager (hv : Valid action) (hcap : capacity ≤ 65535) (h : Moving action m s) :
    ∃ r, s.poll capacity s.eager = some r ∧ Polled action m s.eager.Fine r ∧
      (r.1 = none → r.2.left < s.left) := by
  have hs := h.sent_le
  have hr := h.received_le
  have hc := h.chunkEnd_le
  -- A new chunk is one more, whatever was left of the last one.
  have hnext {t u : SpiBus} (hnew : Renewed t u) (hu : Moving action m u) (htotal : t.total = s.total)
      (ht : t.received = s.chunkEnd) : u.left < s.left := by
    have h₁ := hnew.total
    have h₂ := hnew.received
    have h₃ := hnew.lt
    have h₄ := hu.received_le
    have h₅ := hu.chunkEnd_le
    unfold left
    omega
  unfold poll
  rw [h.active, if_neg nofun]
  split
  · rename_i hd
    have heot := eager_eot h rfl 1
    obtain ⟨t, ht, hmoved, htotal, hend⟩ := dmaDone_spec hv h hd ((eager_consistent s 1 s.log).2.2 heot)
    obtain ⟨r, hr, hpolled, hnew⟩ := nextChunk_spec (a := s.eager) hv hcap hmoved
    refine ⟨r, ?_, hpolled, fun hnone => ?_⟩
    · unfold pollDma
      rw [(eager_consistent s 0 s.log).1, if_neg nofun]
      show (if _ then _ else if _ then _ else _) = _
      rw [if_neg (fun hne => hne rfl), heot, if_neg nofun, if_neg nofun, ht]
      exact hr
    · cases hpolled with
      | going hu => exact hnext (hnew rfl) hu htotal hend
      | _ => cases hnone
  · rename_i hd
    rw [Bool.not_eq_true] at hd
    obtain ⟨t, hfifo, ht, hst, hmoves⟩ := fifo_eager hv h hd
    have htotal := hst.total
    have hend := hst.chunkEnd
    rw [hfifo, Option.bind_eq_bind, Option.bind_some]
    dsimp only
    split
    · rename_i hdone
      obtain ⟨r, hr, hpolled, hnew⟩ := nextChunk_spec (a := s.eager) hv hcap (ht.moved hdone.2)
      refine ⟨r, hr, hpolled, fun hnone => ?_⟩
      cases hpolled with
      | going hu => exact hnext (hnew rfl) hu htotal (hdone.2.trans hend)
      | _ => cases hnone
    · rename_i hdone
      refine ⟨_, rfl, .going ht, fun _ => ?_⟩
      rcases hmoves with hlt | hall
      · have h₁ := ht.sent_le
        have h₂ := ht.received_le
        unfold left
        dsimp only
        omega
      · exact absurd ⟨eager_eot h hst.counts 32, hall⟩ hdone

theorem polls_finish (hv : Valid action) (hcap : capacity ≤ 65535) (h : Moving action m s) :
    ∃ answers t, (∀ a ∈ answers, a.Consistent ∧ a.Fine) ∧
      s.polls capacity answers = some (some .ok, t) := by
  induction hleft : s.left using Nat.strongRecOn generalizing s with
  | ind n ih =>
    obtain ⟨⟨result, t⟩, hpoll, hpolled, hlt⟩ := poll_eager hv hcap h
    have hone : s.eager.Consistent ∧ s.eager.Fine := ⟨eager_consistent s, eager_fine s⟩
    cases hpolled with
    | failed _ hf => exact absurd hone.2 hf
    | done =>
      refine ⟨[s.eager], t, fun a ha => List.mem_singleton.1 ha ▸ hone, ?_⟩
      unfold polls
      rw [hpoll]
      rfl
    | going ht =>
      obtain ⟨answers, u, ha, hpolls⟩ := ih _ (hleft ▸ hlt rfl) ht rfl
      refine ⟨s.eager :: answers, u, fun a ha' => ?_, ?_⟩
      · rcases List.mem_cons.1 ha' with rfl | ha'
        · exact hone
        · exact ha a ha'
      · unfold polls
        rw [hpoll]
        exact hpolls

theorem run_finish (hv : Valid action) (hcap : capacity ≤ 65535) (hlog : s.log = []) :
    ∃ answers t, (∀ a ∈ answers, a.Consistent ∧ a.Fine) ∧
      s.run capacity .ok action answers = some (some .ok, t) := by
  obtain ⟨⟨status, t⟩, hstart, hmoving, hok⟩ := start_spec .ok hv hcap hlog rfl
  obtain ⟨answers, u, ha, hpolls⟩ := polls_finish hv hcap (hmoving (hok rfl))
  refine ⟨answers, u, ha, ?_⟩
  unfold run
  rw [hstart, Option.bind_eq_bind, Option.bind_some]
  exact (if_pos (hok rfl)).trans hpolls

/-! ## Actions of the controller -/

theorem valid_of_spans (hop : x.operation ≠ .idleClocks)
    (hs : x.tx.size ≠ 0 ∧ x.rx.size = 0 ∨ x.tx.size = 0 ∧ x.rx.size ≠ 0 ∨
      x.tx.size ≠ 0 ∧ x.tx.size = x.rx.size ∧ x.tx.overlap x.rx = false) : Valid x := by
  have hlen : length x = max x.tx.size x.rx.size := if_neg hop
  refine ⟨?_, ?_, ?_, fun ht hr => ?_⟩
  · omega
  · omega
  · omega
  · rcases hs with ⟨-, h⟩ | ⟨h, -⟩ | ⟨-, -, h⟩
    · exact absurd h hr
    · exact absurd h ht
    · exact h

theorem valid_of_measure {sums out : Nat × Nat} (h : x.measure count sums = .ok out)
    (hc : x.operation ≠ .checkResponse) (hp : x.operation ≠ .pause) : Valid x.transferAction := by
  unfold Spi.Action.measure at h
  split at h
  · cases h
  obtain ⟨operation, tx, rx, amount, fill, valid⟩ := x
  cases operation with
  | pause => exact absurd rfl hp
  | checkResponse => exact absurd rfl hc
  | write =>
    dsimp only at h
    split at h
    · cases h
    · rename_i hs
      exact valid_of_spans nofun (.inl (show tx.size ≠ 0 ∧ rx.size = 0 by omega))
  | read =>
    dsimp only at h
    split at h
    · cases h
    · rename_i hs
      exact valid_of_spans nofun (.inr (.inl (show tx.size = 0 ∧ rx.size ≠ 0 by omega)))
  | exchange =>
    dsimp only at h
    split at h
    · cases h
    · rename_i hs
      rw [not_or, not_or, not_not, Bool.not_eq_true] at hs
      exact valid_of_spans nofun (.inr (.inr hs))
  | readUntil | pollResponse =>
    dsimp only at h
    split at h
    · cases h
    · rename_i hs
      exact valid_of_spans nofun (.inr (.inl ⟨rfl, show rx.size ≠ 0 by omega⟩))
  | idleClocks =>
    dsimp only at h
    split at h
    · rename_i hs
      obtain ⟨-, h0, h8, ht, hr, -⟩ := hs
      have hmod : amount.toNat % 8 = 0 := by
        have := congrArg UInt64.toNat h8
        simpa using this
      have hne : amount.toNat ≠ 0 := fun h => h0 (UInt64.toNat_inj.1 h)
      refine ⟨?_, .inl ht, .inl hr, fun h => absurd ht h⟩
      show 0 < amount.toNat / 8
      omega
    · cases h

end SpiBus

end DaveOs.Platform
