import DaveOs.Lib.Bytes
import DaveOs.Core.Types

/-!
# The command line parser (`lib/core/command/command.hpp`)

`CommandDispatcher::Parse` splits one line into arguments. The unescaped texts are compacted into a
buffer of `LineCapacity` bytes, and each argument is a view into that buffer. Every write is checked
here: `none` stands for an access outside the buffer or the argument array, which the source does not
check for.
-/

namespace DaveOs.Command

/-- The `"` character. -/
def quote : UInt8 := 34

/-- The `\` character. -/
def backslash : UInt8 := 92

def space (c : UInt8) : Bool := c = 32 ∨ c = 9 ∨ c = 13 ∨ c = 10 ∨ c = 11 ∨ c = 12

/-- `buffer_`, `arguments_` and `argc_`; a view is the offset and the length of a text. -/
structure Storage (lineCapacity argumentCapacity : Nat) where
  buffer : Vector UInt8 lineCapacity
  arguments : Vector (Nat × Nat) argumentCapacity
  argc : Nat
  deriving DecidableEq, Repr

variable {lineCapacity argumentCapacity : Nat}

namespace Storage

/-- `buffer_[write] = c`. -/
def put (s : Storage lineCapacity argumentCapacity) (write : Nat) (c : UInt8) :
    Option (Storage lineCapacity argumentCapacity) :=
  if h : write < lineCapacity then some { s with buffer := s.buffer.set write c } else none

/-- `arguments_[argc_++] = view`. -/
def push (s : Storage lineCapacity argumentCapacity) (view : Nat × Nat) :
    Option (Storage lineCapacity argumentCapacity) :=
  if h : s.argc < argumentCapacity then
    some { s with arguments := s.arguments.set s.argc view, argc := s.argc + 1 }
  else none

def texts (s : Storage lineCapacity argumentCapacity) : List Bytes :=
  (s.arguments.toList.take s.argc).map fun view => Bytes.slice s.buffer.toList view.1 view.2

end Storage

/-- How the loop over the characters of one token ends: its status, the unread rest of the line, and
the next free buffer position. -/
structure Scanned (lineCapacity argumentCapacity : Nat) where
  status : Status
  rest : Bytes
  write : Nat
  storage : Storage lineCapacity argumentCapacity
  deriving DecidableEq, Repr

/-- One character that does not start an escape; `more` is the rest of the loop. -/
def unescaped (quoted : Bool) (c : UInt8) (rest : Bytes) (write : Nat)
    (s : Storage lineCapacity argumentCapacity)
    (more : Nat → Storage lineCapacity argumentCapacity →
      Option (Scanned lineCapacity argumentCapacity)) :
    Option (Scanned lineCapacity argumentCapacity) :=
  if c = quote then
    if !quoted then some ⟨.parseError, c :: rest, write, s⟩
    else if rest.head?.any (fun d => !space d) then some ⟨.parseError, rest, write, s⟩
    else some ⟨.ok, rest, write, s⟩
  else if !quoted ∧ space c then some ⟨.ok, c :: rest, write, s⟩
  else (s.put write c).bind (more (write + 1))

/-- The loop over the characters of one token, from the first unread one. -/
def token (quoted : Bool) : Bytes → Nat → Storage lineCapacity argumentCapacity →
    Option (Scanned lineCapacity argumentCapacity)
  -- the line ends inside the token: only a quoted one is then not closed
  | [], write, s => some ⟨if quoted then .parseError else .ok, [], write, s⟩
  | [c], write, s => unescaped quoted c [] write s (token quoted [])
  | c :: d :: rest, write, s =>
    if c = backslash ∧ (d = quote ∨ d = backslash) then
      (s.put write d).bind (token quoted rest (write + 1))
    else unescaped quoted c (d :: rest) write s (token quoted (d :: rest))

/-- The loop over the tokens of a line; `fuel` bounds its iterations. -/
def tokens : Nat → Bytes → Nat → Storage lineCapacity argumentCapacity →
    Option (Status × Storage lineCapacity argumentCapacity)
  | 0, _, _, _ => none
  | _ + 1, [], _, s => some (.ok, s)
  | fuel + 1, c :: line, write, s =>
    if space c then tokens fuel line write s
    else if s.argc = argumentCapacity then some (.tooManyArguments, s)
    else
      let quoted := c == quote
      (token quoted (if quoted then line else c :: line) write s).bind fun r =>
        if r.status ≠ .ok then some (r.status, r.storage)
        else (r.storage.push (write, r.write - write)).bind (tokens fuel r.rest r.write)

def parse (line : Bytes) (s : Storage lineCapacity argumentCapacity) :
    Option (Status × Storage lineCapacity argumentCapacity) :=
  if line.length > lineCapacity then some (.lineTooLong, s)
  else if line.contains 0 then some (.parseError, s)
  else tokens (line.length + 1) line 0 { s with argc := 0 }

end DaveOs.Command
