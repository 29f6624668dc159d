import DaveOs.Tools.Struct
import DaveOs.Util.Wire
import DaveOs.Util.Crc32

/-!
# The file client (`tools/files.py`)

The host side of the file service. A `Client` is the tool seen from its socket: it sends bytes, waits
for a number of bytes, and ends with a result or an exception. `request` is one exchange, `upload` and
`download` are the tool's transfers; the host file is a byte string, read in chunks.
-/

namespace DaveOs.Tools

open Bytes Wire

/-- A client on a socket. `recv got count next` has `got` so far of the `count` bytes it waits for. -/
inductive Client (α : Type)
  | done (a : α)
  | raised (e : ToolError)
  | send (bytes : Bytes) (next : Client α)
  | recv (got : Bytes) (count : Nat) (next : Bytes → Client α)

namespace Client

variable {α β : Type}

/-- Runs `f` with the client's result. -/
def bind (f : α → Client β) : Client α → Client β
  | .done a => f a
  | .raised e => .raised e
  | .send bytes next => .send bytes (next.bind f)
  | .recv got count next => .recv got count fun data => (next data).bind f

instance : Monad Client where
  pure := .done
  bind c f := c.bind f

/-- `receive(sock, count)`: nothing is awaited when `count` is zero. -/
def receive (count : Nat) (next : Bytes → Client α) : Client α :=
  if count = 0 then next [] else .recv [] count next

/-- The client after bytes have arrived; it takes at most what it waits for. -/
def arrive (chunk : Bytes) : Client α → Client α
  | .recv got count next =>
    if (got ++ chunk).length = count then next (got ++ chunk) else .recv (got ++ chunk) count next
  | c => c

def attempt (x : Except ToolError β) (next : β → Client α) : Client α :=
  match x with
  | .error e => .raised e
  | .ok b => next b

/-- How many bytes the client still waits for. -/
def wanted : Client α → Nat
  | .recv got count _ => count - got.length
  | _ => 0

end Client

namespace Files

def magic : UInt32 := 0x46534f44

def version : UInt32 := 1

def chunk : Nat := 1024

/-- `HEADER.pack(MAGIC, VERSION, op, length, arg0, arg1)`. -/
def header (op length arg0 arg1 : Nat) : Except ToolError Bytes := do
  let op ← packI op
  let length ← packI length
  let arg0 ← packI arg0
  let arg1 ← packI arg1
  return leBytes 4 magic.toNat ++ leBytes 4 version.toNat ++ op ++ length ++ arg0 ++ arg1

def statuses : List String :=
  ["ok", "invalid", "busy", "not_ready", "read_only", "exists", "not_found", "io_error",
    "checksum_error", "timeout", "cleanup_failed", "denied"]

/-- The client once it has the header of a reply. -/
def reply (head : Bytes) : Client (Bytes × Nat × UInt32) :=
  let status := read32 head 8
  let length := read32 head 12
  if read32 head 0 ≠ magic ∨ read32 head 4 ≠ version ∨ length.toNat > chunk then
    .raised (.valueError "Invalid file-service response")
  else
    .receive length.toNat fun data =>
      if status ≠ 0 then
        .raised (.osError ("File service: " ++
          statuses.getD status.toNat ("unknown status " ++ toString status.toNat)))
      else .done (data, (read32 head 16).toNat, read32 head 20)

def request (op : Nat) (payload : Bytes) (arg0 arg1 : Nat) : Client (Bytes × Nat × UInt32) :=
  .attempt (header op payload.length arg0 arg1) fun head =>
    .send (head ++ payload) (.receive 24 reply)

def remotePath (path : String) : Except ToolError Bytes :=
  let encoded := path.toUTF8.toList
  if encoded = [] ∨ encoded.length > 255 ∨ encoded.contains 0 then
    .error (.valueError "Remote path must be 1..255 UTF-8 bytes without NUL")
  else .ok encoded

/-- The first loop of `upload`: the size and the CRC of the rest of the source. -/
def measure : Nat → Bytes → Nat → UInt32 → Nat × UInt32
  | 0, _, size, crc => (size, crc)
  | fuel + 1, source, size, crc =>
    let part := source.take chunk
    if part = [] then (size, crc)
    else measure fuel (source.drop chunk) (size + part.length) (Crc32.update crc part)

/-- The second loop of `upload`: one request for each chunk of the rest of the source. -/
def sendChunks : Nat → Bytes → Nat → UInt32 → Client Unit
  | 0, _, _, _ => .raised (.runtimeError "unreachable")
  | fuel + 1, source, offset, running =>
    let part := source.take chunk
    if part = [] then .done ()
    else do
      let (data, nextOffset, reportedCrc) ← request 2 part offset 0
      let offset := offset + part.length
      let running := Crc32.update running part
      if data ≠ [] ∨ nextOffset ≠ offset ∨ reportedCrc ≠ running then
        .raised (.valueError "Invalid upload acknowledgment")
      else sendChunks fuel (source.drop chunk) offset running

/-- `upload`: the size and the CRC of what was stored. -/
def upload (source : Bytes) (destination : String) : Client (Nat × UInt32) :=
  let (size, crc) := measure (source.length + 1) source 0 0
  if size > 0xffffffff then .raised (.valueError "Files must fit in 32 bits")
  else .attempt (remotePath destination) fun path => do
    let (data, total, initialCrc) ← request 1 path size crc.toNat
    if data ≠ [] ∨ total ≠ size ∨ initialCrc ≠ 0 then
      .raised (.valueError "Invalid upload size acknowledgment")
    else
      sendChunks (source.length + 1) source 0 0
      let (data, stored, reportedCrc) ← request 3 [] 0 0
      if data ≠ [] ∨ stored ≠ size ∨ reportedCrc ≠ crc then
        .raised (.valueError "Upload size/CRC mismatch")
      else .done (size, crc)

/-- The loop of `download`; `written` is what has been written to the destination. Every round but
the last brings at least one byte, and no more than `size` are accepted. -/
def receiveChunks (size : Nat) : Nat → Bytes → Nat → UInt32 → Client (Bytes × Nat × UInt32)
  | 0, _, _, _ => .raised (.runtimeError "unreachable")
  | fuel + 1, written, offset, crc => do
    let (data, reportedOffset, reportedCrc) ← request 5 [] 0 0
    let offset := offset + data.length
    let crc := Crc32.update crc data
    if reportedOffset ≠ offset ∨ reportedCrc ≠ crc ∨ offset > size then
      .raised (.valueError "Download size/CRC mismatch")
    else if data = [] then
      if offset ≠ size then .raised (.valueError "Truncated download")
      else .done (written, size, crc)
    else receiveChunks size fuel (written ++ data) offset crc

/-- `download`: what was written to the destination, its size and its CRC. -/
def download (source : String) : Client (Bytes × Nat × UInt32) :=
  .attempt (remotePath source) fun path => do
    let (data, size, initialCrc) ← request 4 path 0 0
    if data ≠ [] ∨ initialCrc ≠ 0 then .raised (.valueError "Invalid download header")
    else receiveChunks size (size + 2) [] 0 0

end Files

end DaveOs.Tools
