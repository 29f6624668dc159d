import DaveOs.Lib.Monitor
import DaveOs.Util.Wire
import DaveOs.Util.Crc32

/-!
# File transfer (`lib/storage/transfer.h`, `lib/storage/transfer.cpp`)

`FileTransfer` serves one client at a time over a byte stream: it collects a request, executes it on
the volume, and prepares one reply. The lease and the volume are callbacks (`FileAccess`) over a
hidden state, and may answer anything; every call of them is logged.
-/

namespace DaveOs.Storage

open Bytes Wire

inductive FResult
  | ok
  | diskErr
  | intErr
  | notReady
  | noFile
  | noPath
  | invalidName
  | denied
  | exist
  | invalidObject
  | writeProtected
  | invalidDrive
  | notEnabled
  | noFilesystem
  | mkfsAborted
  | timeout
  | locked
  | notEnoughCore
  | tooManyOpenFiles
  | invalidParameter
  deriving DecidableEq, Repr, Inhabited

/-- Reply statuses, in the order of their wire values. -/
inductive TransferStatus
  | ok
  | invalid
  | busy
  | notReady
  | readOnly
  | exist
  | notFound
  | ioError
  | checksumError
  | timeout
  | cleanupFailed
  | denied
  deriving DecidableEq, Repr, Inhabited

def TransferStatus.word : TransferStatus → UInt32
  | .ok => 0
  | .invalid => 1
  | .busy => 2
  | .notReady => 3
  | .readOnly => 4
  | .exist => 5
  | .notFound => 6
  | .ioError => 7
  | .checksumError => 8
  | .timeout => 9
  | .cleanupFailed => 10
  | .denied => 11

def map : FResult → TransferStatus
  | .ok => .ok
  | .denied => .denied
  | .locked => .busy
  | .notReady => .notReady
  | .writeProtected => .readOnly
  | .exist => .exist
  | .noFile | .noPath => .notFound
  | .invalidName | .invalidParameter => .invalid
  | _ => .ioError

theorem map_eq_ok {r : FResult} : map r = .ok ↔ r = .ok := by
  cases r <;> simp [map]

/-- The entry of a directory that `Volume::next` fills in; an empty name marks the end. -/
structure Entry where
  name : Bytes
  directory : Bool
  size : UInt64
  deriving DecidableEq, Repr, Inhabited

/-- `FileAccess`: the lease callbacks and the volume. `read` answers the bytes it put into the span
it was given, and the count it reported. -/
structure FileAccess (σ : Type) where
  present : Bool
  reserve : Bool → σ → FResult × σ
  release : σ → σ
  create : Bytes → σ → FResult × σ
  openFile : Bytes → σ → FResult × σ
  openDirectory : Bytes → σ → FResult × σ
  remove : Bytes → σ → FResult × σ
  mkdir : Bytes → σ → FResult × σ
  rmdir : Bytes → σ → FResult × σ
  write : Bytes → σ → (FResult × UInt32) × σ
  sync : σ → FResult × σ
  next : σ → (FResult × Entry) × σ
  read : Nat → σ → (FResult × UInt32 × Bytes) × σ
  close : σ → FResult × σ
  size : σ → UInt32

/-- What is logged: every call of the lease and of the volume with its result, every reply prepared,
and every failure counted. A `create` carries the size and the CRC the request announced; `remove`
says whether it serves a remove request. -/
inductive Call
  | reserve (write : Bool) (result : FResult)
  | release
  | create (path : Bytes) (size crc : UInt32) (result : FResult)
  | openFile (path : Bytes) (result : FResult)
  | openDirectory (path : Bytes) (result : FResult)
  | remove (requested : Bool) (path : Bytes) (result : FResult)
  | mkdir (path : Bytes) (result : FResult)
  | rmdir (path : Bytes) (result : FResult)
  | write (bytes : Bytes) (result : FResult) (count : UInt32)
  | sync (result : FResult)
  | next (result : FResult)
  | read (result : FResult) (count : UInt32)
  | close (result : FResult)
  | size
  | reply (status : TransferStatus)
  | failure (status : TransferStatus)
  deriving DecidableEq, Repr

inductive Op
  | upload
  | write
  | finish
  | download
  | read
  | list
  | next
  | remove
  | mkdir
  | rmdir
  deriving DecidableEq, Repr

def Op.ofWord (w : UInt32) : Option Op :=
  match w.toNat with
  | 1 => some .upload
  | 2 => some .write
  | 3 => some .finish
  | 4 => some .download
  | 5 => some .read
  | 6 => some .list
  | 7 => some .next
  | 8 => some .remove
  | 9 => some .mkdir
  | 10 => some .rmdir
  | _ => none

/-- The operations that change metadata only. -/
def Op.mutation (op : Op) : Bool := op = .remove ∨ op = .mkdir ∨ op = .rmdir

/-- The operations that start with a path and take the lease. -/
def Op.starts (op : Op) : Bool := op = .upload ∨ op = .download ∨ op = .list ∨ op.mutation

inductive State
  | receiving
  | executing
  | cleanup
  deriving DecidableEq, Repr

def kMagic : UInt32 := 0x46534f44
def kVersion : UInt32 := 1
def kHeaderBytes : Nat := 24
def kChunkBytes : Nat := 1024
def kIdleTimeout : Time := 30000000
def kPathCapacity : Nat := 255

/-- The object's fields; `path` is the C string in `path_`. -/
structure FileTransfer where
  state : State := .receiving
  request : Bytes := List.replicate (kHeaderBytes + kChunkBytes) 0
  reply : Bytes := List.replicate (kHeaderBytes + kChunkBytes) 0
  path : Bytes := []
  received : Nat := 0
  needed : Nat := kHeaderBytes
  replySize : Nat := 0
  activity : Time := 0
  size : UInt32 := 0
  offset : UInt32 := 0
  crc : UInt32 := 0
  expectedCrc : UInt32 := 0
  failures : UInt32 := 0
  status : TransferStatus := .ok
  leased : Bool := false
  opened : Bool := false
  uploading : Bool := false
  created : Bool := false
  listing : Bool := false
  disconnected : Bool := false
  malformed : Bool := false
  operated : Bool := false
  deriving DecidableEq, Repr

namespace FileTransfer

/-- The check `feed` makes once the header is complete. -/
def checkHeader (t : FileTransfer) : FileTransfer :=
  if t.received = kHeaderBytes then
    let length := read32 t.request 12
    if read32 t.request 0 ≠ kMagic ∨ read32 t.request 4 ≠ kVersion ∨ length.toNat > kChunkBytes then
      { t with malformed := true }
    else { t with malformed := false, needed := kHeaderBytes + length.toNat }
  else t

/-- `feed`: how many of the offered bytes were taken. -/
def feed (t : FileTransfer) (bytes : Bytes) (now : Time) : Nat × FileTransfer :=
  if t.replySize ≠ 0 ∨ t.disconnected ∨ t.malformed ∨ t.state ≠ .receiving then (0, t)
  else
    let count := min bytes.length (t.needed - t.received)
    (count, ({ t with
      request := splice t.request t.received (bytes.take count)
      received := t.received + count
      activity := if count ≠ 0 then now else t.activity }).checkHeader)

def sent (t : FileTransfer) (now : Time) : FileTransfer :=
  { t with replySize := 0, received := 0, needed := kHeaderBytes, malformed := false,
           activity := now }

def disconnect (t : FileTransfer) : FileTransfer := { t with disconnected := true }

def completedAt (t : FileTransfer) (now : Time) : FileTransfer :=
  if t.operated then { t with activity := now } else t

/-- `reply`: the bytes to send. -/
def output (t : FileTransfer) : Bytes := t.reply.take (if t.disconnected then 0 else t.replySize)

/-- `Reply`, the header over a payload that is already in place. -/
def prepare (t : FileTransfer) (payload : Nat) : FileTransfer :=
  let reply := write32 t.reply 0 kMagic
  let reply := write32 reply 4 kVersion
  let reply := write32 reply 8 t.status.word
  let reply := write32 reply 12 (UInt32.ofNat payload)
  let reply := write32 reply 16 t.offset
  let reply := write32 reply 20 t.crc
  { t with reply := reply, replySize := kHeaderBytes + payload }

variable {σ : Type} (access : FileAccess σ)

/-- `Reply`, logged. -/
def respond (t : FileTransfer) (payload : Nat) : Logged σ Call FileTransfer := do
  Logged.emit (.reply t.status)
  pure (t.prepare payload)

/-- `size_ = volume.size()`, unless the request announced the size. -/
def measure (t : FileTransfer) : Logged σ Call FileTransfer :=
  if t.uploading then pure t
  else do
    let size ← Logged.call (fun w => (access.size w, w)) fun _ => .size
    pure { t with size := size }

/-- The metadata change of a mutation. -/
def mutate (op : Op) (t : FileTransfer) : Logged σ Call FResult :=
  if op = .remove then Logged.call (access.remove t.path) (.remove true t.path)
  else if op = .mkdir then Logged.call (access.mkdir t.path) (.mkdir t.path)
  else Logged.call (access.rmdir t.path) (.rmdir t.path)

/-- The file or directory a transfer works on. -/
def openTarget (t : FileTransfer) : Logged σ Call FResult :=
  if t.uploading then
    Logged.call (access.create t.path) (.create t.path t.size t.expectedCrc)
  else if t.listing then Logged.call (access.openDirectory t.path) (.openDirectory t.path)
  else Logged.call (access.openFile t.path) (.openFile t.path)

/-- `Execute` once the target is open: the begin reply, which carries the total size. -/
def opening (t : FileTransfer) : Logged σ Call (Bool × FileTransfer) := do
  let t ← t.measure access
  let t ← t.respond 0
  pure (true, { t with reply := write32 t.reply 16 t.size })

/-- `Execute` with the lease held, for an operation that starts with a path. -/
def leasing (op : Op) (t : FileTransfer) : Logged σ Call (Bool × FileTransfer) :=
  if op.mutation then do
    let result ← t.mutate access op
    -- the lease is released before a metadata change is acknowledged
    pure (false, { t with status := map result })
  else do
    let result ← t.openTarget access
    let t := { t with status := map result }
    if t.status ≠ .ok then pure (false, t)
    else ({ t with opened := true, created := t.uploading }).opening access

/-- `Execute` of an operation that starts with a path. -/
def start (op : Op) (arg0 arg1 : UInt32) (payload : Bytes) (t : FileTransfer) :
    Logged σ Call (Bool × FileTransfer) :=
  if t.leased then pure (false, { t with status := .invalid })
  else if payload = [] ∨ payload.length > kPathCapacity ∨ payload.contains 0 ∨
      (op ≠ .upload ∧ (arg0 ≠ 0 ∨ arg1 ≠ 0)) then
    pure (false, { t with status := .invalid })
  else do
    let t := { t with
      path := payload, uploading := op == Op.upload, listing := op == Op.list, offset := 0, crc := 0,
      size := arg0, expectedCrc := arg1 }
    let result ← Logged.call (access.reserve (t.uploading || op.mutation))
      (.reserve (t.uploading || op.mutation))
    let t := { t with status := map result }
    if t.status ≠ .ok then pure (false, t)
    else ({ t with leased := true }).leasing access op

/-- `Execute` of an accepted write. -/
def store (payload : Bytes) (t : FileTransfer) : Logged σ Call (Bool × FileTransfer) := do
  let result ← Logged.call (access.write payload) fun r => .write payload r.1 r.2
  let status := map result.1
  let status := if status = .ok ∧ result.2.toNat ≠ payload.length then .ioError else status
  if status ≠ .ok then pure (false, { t with status := status })
  else do
    let t ← ({ t with
      status := status, crc := Crc32.update t.crc payload,
      offset := t.offset + result.2 }).respond 0
    pure (true, t)

/-- `Execute` of a finish request for a complete upload. -/
def finish (t : FileTransfer) : Logged σ Call (Bool × FileTransfer) :=
  if t.crc ≠ t.expectedCrc then pure (false, { t with status := .checksumError })
  else do
    let result ← Logged.call access.sync .sync
    -- cleanup closes before success is published
    pure (false, { t with status := map result })

/-- `Execute` of a request for the next directory entry. -/
def nextEntry (t : FileTransfer) : Logged σ Call (Bool × FileTransfer) := do
  let result ← Logged.call access.next fun r => .next r.1
  let t := { t with status := map result.1 }
  let name := result.2.name
  if t.status ≠ .ok ∨ name = [] then pure (false, t)
  else if name.length > kChunkBytes - 8 then pure (false, { t with status := .ioError })
  else do
    let reply := write32 t.reply kHeaderBytes (if result.2.directory then 1 else 0)
    let reply := write32 reply (kHeaderBytes + 4) result.2.size.toUInt32
    let t ← ({ t with reply := splice reply (kHeaderBytes + 8) name }).respond (8 + name.length)
    pure (true, t)

/-- The volume read of a read request; no call is made for an empty span. -/
def fetch (count : Nat) : Logged σ Call (FResult × UInt32 × Bytes) :=
  if count = 0 then pure (.ok, 0, [])
  else Logged.call (access.read count) fun r => .read r.1 r.2.1

/-- `Execute` of a read request. -/
def load (t : FileTransfer) : Logged σ Call (Bool × FileTransfer) := do
  let count := min kChunkBytes (t.size - t.offset).toNat
  let result ← fetch access count
  let t := { t with reply := splice t.reply kHeaderBytes (result.2.2.take count) }
  let status := map result.1
  let status := if status = .ok ∧ result.2.1.toNat ≠ count then .ioError else status
  let t := { t with status := status }
  if t.status ≠ .ok then pure (false, t)
  else do
    let t := { t with
      crc := Crc32.update t.crc (slice t.reply kHeaderBytes count), offset := t.offset + result.2.1 }
    -- the client's last read, after all bytes, closes the file
    if result.2.1 = 0 then pure (false, t)
    else do
      let t ← t.respond result.2.1.toNat
      pure (true, t)

/-- `Execute` of an operation on the transfer in progress. -/
def proceed (op : Option Op) (arg0 arg1 : UInt32) (payload : Bytes) (t : FileTransfer) :
    Logged σ Call (Bool × FileTransfer) :=
  if !t.leased ∨ (payload ≠ [] ∧ op ≠ some .write) then
    pure (false, { t with status := .invalid })
  else if op = some .write ∧ t.uploading ∧ payload ≠ [] ∧ arg0 = t.offset ∧ arg1 = 0 ∧
      payload.length ≤ (t.size - t.offset).toNat then
    t.store access payload
  else if arg0 ≠ 0 ∨ arg1 ≠ 0 ∨ payload ≠ [] then pure (false, { t with status := .invalid })
  else if op = some .finish ∧ t.uploading ∧ t.offset = t.size then t.finish access
  else if op = some .next ∧ t.listing then t.nextEntry access
  else if op = some .read ∧ !t.uploading ∧ !t.listing then t.load access
  else pure (false, { t with status := .invalid })

def execute (t : FileTransfer) : Logged σ Call (Bool × FileTransfer) :=
  let arg0 := read32 t.request 16
  let arg1 := read32 t.request 20
  let payload := slice t.request kHeaderBytes (t.needed - kHeaderBytes)
  let t := { t with operated := true, status := .ok }
  match Op.ofWord (read32 t.request 8) with
  | some op =>
    if op.starts then t.start access op arg0 arg1 payload
    else t.proceed access (some op) arg0 arg1 payload
  | none => t.proceed access none arg0 arg1 payload

/-- The close of a cleanup: whether it failed. -/
def shut (t : FileTransfer) : Logged σ Call Bool :=
  if t.opened then do
    let result ← Logged.call access.close .close
    pure (result ≠ .ok)
  else pure false

/-- The removal of a partial file by a cleanup: whether it, or the close before, failed. -/
def discard (failed : Bool) (t : FileTransfer) : Logged σ Call Bool :=
  if t.created ∧ (t.status ≠ .ok ∨ t.disconnected ∨ failed) then do
    let result ← Logged.call (access.remove t.path) (.remove false t.path)
    pure (failed || result ≠ .ok)
  else pure failed

def unlease (t : FileTransfer) : Logged σ Call Unit :=
  if t.leased then Logged.call (fun w => ((), access.release w)) fun _ => .release else pure ()

def record (t : FileTransfer) : Logged σ Call FileTransfer :=
  if t.status ≠ .ok then do
    Logged.emit (.failure t.status)
    pure { t with failures := t.failures + 1 }
  else pure t

def cleanup (t : FileTransfer) : Logged σ Call FileTransfer := do
  let t := { t with operated := true }
  let failed ← t.shut access
  let t := { t with opened := false }
  let failed ← t.discard access failed
  let t := { t with created := false }
  t.unlease access
  let t := { t with leased := false }
  let t := { t with status := if failed then .cleanupFailed else t.status }
  let t ← t.record
  if t.disconnected then pure { t.sent t.activity with disconnected := false }
  else t.respond 0

/-- Whether the inactivity timeout has expired; times are 64-bit. -/
def expired (t : FileTransfer) (now : Time) : Bool :=
  (t.leased ∨ t.received ≠ 0 ∨ t.replySize ≠ 0) ∧
    (now + 2 ^ 64 - t.activity) % 2 ^ 64 ≥ kIdleTimeout

/-- The step in `receiving`. -/
def receivingStep (t : FileTransfer) (expired : Bool) : FileTransfer :=
  if t.disconnected ∨ expired ∨ t.malformed then
    { t with
      status := if expired then .timeout else .invalid, replySize := 0, state := .cleanup }
  else if t.replySize = 0 ∧ t.received = t.needed then { t with state := .executing }
  else t

/-- The step in `executing`. -/
def executingStep (t : FileTransfer) : Logged σ Call FileTransfer :=
  if t.disconnected ∨ !access.present then
    pure { t with status := .notReady, state := .cleanup }
  else do
    let (more, t) ← t.execute access
    pure { t with state := if more then .receiving else .cleanup }

/-- The step in `cleanup`. -/
def cleanupStep (t : FileTransfer) : Logged σ Call FileTransfer := do
  let t ← t.cleanup access
  pure { t with state := .receiving }

def tick (t : FileTransfer) (now : Time) : Logged σ Call FileTransfer :=
  let expired := t.expired now
  let t := { t with operated := false }
  match t.state with
  | .receiving => pure (t.receivingStep expired)
  | .executing => t.executingStep access
  | .cleanup => t.cleanupStep access

end FileTransfer

/-- What a transfer knows of the file it works on. -/
structure Service where
  path : Bytes
  size : UInt32
  offset : UInt32
  crc : UInt32
  expectedCrc : UInt32
  leased : Bool
  opened : Bool
  uploading : Bool
  created : Bool
  listing : Bool
  deriving DecidableEq, Repr

/-- The part of a transfer that requests read and change. -/
def FileTransfer.service (t : FileTransfer) : Service :=
  ⟨t.path, t.size, t.offset, t.crc, t.expectedCrc, t.leased, t.opened, t.uploading, t.created,
    t.listing⟩

/-- What the owner of a transfer does with it. -/
inductive Input
  | feed (bytes : Bytes) (now : Time)
  | tick (now : Time)
  | completedAt (now : Time)
  | sent (now : Time)
  | disconnect
  deriving DecidableEq, Repr

variable {σ : Type} (access : FileAccess σ)

/-- One call of the transfer's interface. -/
def FileTransfer.input (t : FileTransfer) : Input → Logged σ Call FileTransfer
  | .feed bytes now => pure (t.feed bytes now).2
  | .tick now => t.tick access now
  | .completedAt now => pure (t.completedAt now)
  | .sent now => pure (t.sent now)
  | .disconnect => pure t.disconnect

end DaveOs.Storage
