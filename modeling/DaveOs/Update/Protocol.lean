import DaveOs.Update.Engine

/-!
# The update protocol (`Protocol` of `lib/update/protocol.cpp`)

One framed byte stream, independent of its transport. A request is a header of four little-endian words
(magic, version, opcode, payload length) and its payload; the reply has 88 bytes. `Protocol.tick` takes what it
can of the bytes at hand: none while a reply waits to be sent, and none after a malformed header.
-/

namespace DaveOs

/-- The names of the results, in the order of their values. -/
def Status.names : List String :=
  ["ok", "not_running", "already_initialized", "already_run", "initialization_failed", "invalid_argument",
    "not_found", "full", "empty", "busy", "duplicate_name", "truncated", "parse_error", "ambiguous_match",
    "line_too_long", "too_many_arguments", "unsupported", "health_failed", "io_error", "timeout",
    "checksum_error", "incompatible", "not_confirmed", "rejected", "counter_exhausted", "invalid_context",
    "depth_limit"]

/-- The value of a result on the wire. -/
def Status.code (s : Status) : UInt32 := .ofNat s.ctorIdx

/-- `enum_name` of a result. -/
def Status.name (s : Status) : String := Status.names.getD s.ctorIdx "unknown"

end DaveOs

namespace DaveOs.Update

open Boot Bytes Wire

def kProtocolMagic : UInt32 := 0x54534f44

/-- The operations a client can ask for. -/
inductive ProtocolOperation
  | begin
  | status
  | data
  | abort
  | reboot
  deriving DecidableEq, Repr

def ProtocolOperation.ofCode (code : UInt32) : Option ProtocolOperation :=
  if code = 1 then some .begin
  else if code = 2 then some .status
  else if code = 3 then some .data
  else if code = 4 then some .abort
  else if code = 5 then some .reboot
  else none

/-- `state_name`. -/
def EngineState.name (s : EngineState) : String :=
  ["disabled", "idle", "invalidating", "receiving", "writing", "verifying", "committing", "done", "aborting",
    "failed"].getD s.ctorIdx "unknown"

/-- The states of the protocol's machine. -/
inductive ProtocolState
  | header
  | payload
  | reply
  | failed
  deriving DecidableEq, Repr

/-- The protocol. Of the header and of the payload the bytes that have arrived are kept. -/
structure Protocol where
  state : ProtocolState := .header
  header : Bytes := []
  payload : Bytes := []
  answer : Bytes := []
  opcode : UInt32 := 0
  length : UInt32 := 0
  sent : Bool := false
  reset : Bool := false
  deriving DecidableEq, Repr

namespace Protocol

def kPayloadSize : Nat := kBlockSize + 8

/-- The bytes of a label that fits `n`. -/
def label (text : String) (n : Nat) : Bytes := (text.toList.map fun c => UInt8.ofNat c.toNat).take n

def reply (p : Protocol) : Bytes := if p.state = .reply then p.answer else []

def failed (p : Protocol) : Bool := p.state = .failed

def markSent (p : Protocol) : Protocol := { p with sent := true }

def markReset (p : Protocol) : Protocol := { p with reset := true }

/-- The reply to a request that ended with this status. -/
def encodeReply (opcode : UInt32) (status : Status) (e : Engine) : Bytes :=
  writes (List.replicate 88 0)
    [(0, leBytes 4 kProtocolMagic.toNat), (4, leBytes 4 1), (8, leBytes 4 (opcode ||| 0x80000000).toNat),
      (12, leBytes 4 72), (16, leBytes 4 status.code.toNat), (20, leBytes 4 e.state.ctorIdx),
      (24, leBytes 4 (!e.reserved && e.ready).toNat), (28, leBytes 4 e.received), (32, leBytes 4 e.total),
      (36, leBytes 4 kBlockSize), (40, label status.name 31), (72, label e.state.name 15)]

/-- The header is one of a request that fits. -/
def accepts (header : Bytes) : Bool :=
  read32 header 0 = kProtocolMagic && read32 header 4 = 1 && decide ((read32 header 12).toNat ≤ kPayloadSize)

section flash

variable {σ : Type} (flash : Flash σ) (layout : Layout) (reboot : Option (Crash σ Status))

def dispatch (opcode : UInt32) (data : Bytes) (e : Engine) : Crash σ (Status × Engine) :=
  if e.reserved then pure (.busy, e)
  else
    match ProtocolOperation.ofCode opcode with
    | some .begin => e.begin flash layout data
    | some .data =>
      if data.length ≤ 8 then pure (.invalidArgument, e)
      else pure (e.chunk (read32 data 0).toNat (data.drop 8) (read32 data 4))
    | some .status => pure (if data.length ≠ 0 then .invalidArgument else e.status, e)
    | some .abort =>
      if data.length ≠ 0 then pure (.invalidArgument, e) else pure (.ok, e.abort)
    | some .reboot =>
      if data.length ≠ 0 then pure (.invalidArgument, e)
      else if e.state ≠ .done then pure (.notRunning, e)
      else
        match reboot with
        | some request => do
          let result ← request
          pure (result, e)
        | none => pure (.unsupported, e)
    | none => pure (.unsupported, e)

/-- One step: how many bytes it takes, and what it leaves. -/
def step (p : Protocol) (e : Engine) (input : Bytes) : Crash σ (Nat × Protocol × Engine) :=
  if p.reset then
    pure (0, { p with reset := false, sent := false, header := [], payload := [], state := .header }, e)
  else
    match p.state with
    | .header =>
      let count := min input.length (16 - p.header.length)
      let p := { p with header := p.header ++ input.take count }
      if p.header.length = 16 then
        let p := { p with opcode := read32 p.header 8, length := read32 p.header 12 }
        if accepts p.header then pure (count, { p with payload := [], state := .payload }, e)
        else pure (count, { p with state := .failed }, e.abort .parseError)
      else pure (count, p, e)
    | .payload =>
      let count := min input.length (p.length.toNat - p.payload.length)
      let p := { p with payload := p.payload ++ input.take count }
      if p.payload.length = p.length.toNat then do
        let (status, e) ← dispatch flash layout reboot p.opcode p.payload e
        pure (count, { p with answer := encodeReply p.opcode status e, state := .reply }, e)
      else pure (count, p, e)
    | .reply =>
      if p.sent then pure (0, { p with sent := false, header := [], state := .header }, e) else pure (0, p, e)
    | .failed => pure (0, p, e)

def tick (p : Protocol) (e : Engine) (input : Bytes) : Crash σ (Nat × Protocol × Engine) :=
  p.step flash layout reboot e input

end flash

end Protocol

end DaveOs.Update
