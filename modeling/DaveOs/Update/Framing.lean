import DaveOs.Update.Protocol

/-!
# Framing is independent of fragmentation

A client's stream is offered to the protocol in pieces of any size, each reply is acknowledged at any later
time. `parse` reads the requests off the whole stream and `serve` answers them one after the other. Whatever
the pieces, the protocol has dispatched the first of these requests and given these replies, and all of them
once it has come to rest (`framing_exact`).
-/

namespace DaveOs.Update

variable {header : Bytes} {p : Protocol}

open Boot Bytes Wire Crash

structure Request where
  opcode : UInt32
  payload : Bytes
  deriving DecidableEq, Repr

/-- The requests of a stream: headers of 16 bytes, each with its payload. The flag says whether a malformed
header ends them. -/
def parse (stream : Bytes) : List Request × Bool :=
  if stream.length < 16 then ([], false)
  else if ¬Protocol.accepts (stream.take 16) then ([], true)
  else if stream.length < 16 + (read32 (stream.take 16) 12).toNat then ([], false)
  else
    let rest := parse (stream.drop (16 + (read32 (stream.take 16) 12).toNat))
    (⟨read32 (stream.take 16) 8, slice stream 16 (read32 (stream.take 16) 12).toNat⟩ :: rest.1, rest.2)
termination_by stream.length
decreasing_by
  rw [List.length_drop]
  omega

/-- A header with the payload it announces. -/
structure Frame where
  header : Bytes
  payload : Bytes

namespace Frame

/-- The header is in order and the payload is the announced one. -/
structure Ok (f : Frame) : Prop where
  size : f.header.length = 16
  accepted : Protocol.accepts f.header = true
  length : f.payload.length = (read32 f.header 12).toNat

def bytes (f : Frame) : Bytes := f.header ++ f.payload

def request (f : Frame) : Request := ⟨read32 f.header 8, f.payload⟩

end Frame

theorem parse_frame {f : Frame} (h : f.Ok) (tail : Bytes) :
    parse (f.bytes ++ tail) = (f.request :: (parse tail).1, (parse tail).2) := by
  have htake : (f.bytes ++ tail).take 16 = f.header := by
    rw [Frame.bytes, List.append_assoc, List.take_append_of_le_length (Nat.le_of_eq h.size.symm), ← h.size,
      List.take_length]
  have hlen : (f.bytes ++ tail).length = 16 + (read32 f.header 12).toNat + tail.length := by
    rw [List.length_append, Frame.bytes, List.length_append, h.size, h.length]
  have hbytes : f.bytes.length = 16 + (read32 f.header 12).toNat := by
    rw [Frame.bytes, List.length_append, h.size, h.length]
  have hdrop : (f.bytes ++ tail).drop (16 + (read32 f.header 12).toNat) = tail := by
    rw [← hbytes, List.drop_left]
  have hslice : slice (f.bytes ++ tail) 16 (read32 f.header 12).toNat = f.payload := by
    rw [slice, Frame.bytes, List.append_assoc, ← h.size, List.drop_left, ← h.length, List.take_left]
  rw [parse, htake, if_neg (by omega), if_neg (by simp [h.accepted]), if_neg (by omega), hdrop, hslice]
  rfl

theorem parse_frames {frames : List Frame} (h : ∀ f ∈ frames, f.Ok) (tail : Bytes) :
    parse (frames.flatMap Frame.bytes ++ tail) = (frames.map Frame.request ++ (parse tail).1, (parse tail).2) := by
  induction frames with
  | nil => rfl
  | cons f frames ih =>
    rw [List.flatMap_cons, List.append_assoc, parse_frame (h f List.mem_cons_self),
      ih fun g hg => h g (List.mem_cons_of_mem _ hg)]
    rfl

theorem parse_short {stream : Bytes} (h : stream.length < 16) : parse stream = ([], false) := by
  rw [parse, if_pos h]

theorem parse_malformed {tail : Bytes} (hsize : header.length = 16)
    (h : Protocol.accepts header = false) : parse (header ++ tail) = ([], true) := by
  have htake : (header ++ tail).take 16 = header := by
    rw [List.take_append_of_le_length (Nat.le_of_eq hsize.symm), ← hsize, List.take_length]
  rw [parse, if_neg (by rw [List.length_append]; omega), htake, if_pos (by simp [h])]

theorem parse_unfinished {payload : Bytes} (hsize : header.length = 16)
    (hlen : payload.length < (read32 header 12).toNat) (h : Protocol.accepts header = true) :
    parse (header ++ payload) = ([], false) := by
  have htake : (header ++ payload).take 16 = header := by
    rw [List.take_append_of_le_length (Nat.le_of_eq hsize.symm), ← hsize, List.take_length]
  rw [parse, if_neg (by rw [List.length_append]; omega), htake, if_neg (by simp [h]),
    if_pos (by rw [List.length_append]; omega)]

/-! ## The protocol and its peer -/

section flash

variable {σ : Type} (flash : Flash σ) (layout : Layout) (reboot : Option (Crash σ Status))

/-- Requests answered one after the other, with their replies. -/
def serve : List Request → Engine → Crash σ (List (Request × Bytes) × Engine)
  | [], e => pure ([], e)
  | r :: requests, e => do
    let (status, e) ← Protocol.dispatch flash layout reboot r.opcode r.payload e
    let (answers, last) ← serve requests e
    pure ((r, Protocol.encodeReply r.opcode status e) :: answers, last)

/-- A tick of the protocol: how many of the bytes that are left are offered, and whether a reply that waits is
acknowledged afterwards. -/
structure Turn where
  offer : Nat
  ack : Bool

/-- The protocol, its engine, the stream that is left, and the requests dispatched so far with their replies. -/
structure Link where
  protocol : Protocol := {}
  engine : Engine
  rest : Bytes
  transcript : List (Request × Bytes) := []

namespace Link

/-- The protocol has just dispatched a request. -/
def dispatched (before after : Protocol) : List (Request × Bytes) :=
  if before.state ≠ .reply ∧ after.state = .reply then [(⟨after.opcode, after.payload⟩, after.answer)] else []

def turn (t : Turn) (l : Link) : Crash σ Link := do
  let (count, protocol, engine) ← l.protocol.tick flash layout reboot l.engine (l.rest.take t.offer)
  pure
    { protocol := if t.ack ∧ protocol.state = .reply then protocol.markSent else protocol
      engine, rest := l.rest.drop count, transcript := l.transcript ++ dispatched l.protocol protocol }

def run : List Turn → Link → Crash σ Link
  | [], l => pure l
  | t :: turns, l => do
    let l ← l.turn flash layout reboot t
    run turns l

end Link

end flash

/-- The bytes of a request that is not complete yet, or of the header that is malformed. -/
def Protocol.held (p : Protocol) : Bytes :=
  match p.state with
  | .header => p.header
  | .payload => p.header ++ p.payload
  | .reply => []
  | .failed => p.header

/-- The header of the payload that is being received. -/
structure Protocol.Announced (p : Protocol) : Prop where
  size : p.header.length = 16
  accepted : Protocol.accepts p.header = true
  opcode : p.opcode = read32 p.header 8
  length : p.length = read32 p.header 12
  room : p.payload.length ≤ p.length.toNat
  unsent : p.sent = false

/-- The buffers fit the state of the machine. -/
inductive Protocol.Shape (p : Protocol) : Prop
  | header (state : p.state = .header) (size : p.header.length < 16) (unsent : p.sent = false)
  | payload (state : p.state = .payload) (announced : p.Announced)
  | reply (state : p.state = .reply)
  | failed (state : p.state = .failed) (size : p.header.length = 16) (refused : Protocol.accepts p.header = false)

theorem Protocol.Shape.of_header (h : p.Shape) (hs : p.state = .header) :
    p.header.length < 16 ∧ p.sent = false := by
  cases h with
  | header _ size unsent => exact ⟨size, unsent⟩
  | payload state | reply state | failed state => rw [hs] at state; cases state

theorem Protocol.Shape.of_payload (h : p.Shape) (hs : p.state = .payload) : p.Announced := by
  cases h with
  | header state | reply state | failed state => rw [hs] at state; cases state
  | payload _ announced => exact announced

section steps

variable {σ : Type} {flash : Flash σ} {layout : Layout} {reboot : Option (Crash σ Status)}

/-- How a tick can go where no reset is asked for. -/
inductive Protocol.Steps (flash : Flash σ) (layout : Layout) (reboot : Option (Crash σ Status)) (p : Protocol)
    (e : Engine) (input : Bytes) (s : σ) : Nat × Protocol × Engine → σ → Prop
  | collect (state : p.state = .header) (short : p.header.length + input.length < 16) :
      Steps flash layout reboot p e input s (input.length, { p with header := p.header ++ input }, e) s
  | accept (state : p.state = .header) (count : Nat) (le : count ≤ input.length)
      (size : (p.header ++ input.take count).length = 16)
      (accepted : Protocol.accepts (p.header ++ input.take count) = true) :
      Steps flash layout reboot p e input s
        (count, { p with
          header := p.header ++ input.take count, opcode := read32 (p.header ++ input.take count) 8,
          length := read32 (p.header ++ input.take count) 12, payload := [], state := .payload }, e) s
  | refuse (state : p.state = .header) (count : Nat) (le : count ≤ input.length)
      (size : (p.header ++ input.take count).length = 16)
      (refused : Protocol.accepts (p.header ++ input.take count) = false) :
      Steps flash layout reboot p e input s
        (count, { p with
          header := p.header ++ input.take count, opcode := read32 (p.header ++ input.take count) 8,
          length := read32 (p.header ++ input.take count) 12, state := .failed }, e.abort .parseError) s
  | load (state : p.state = .payload) (short : p.payload.length + input.length < p.length.toNat) :
      Steps flash layout reboot p e input s (input.length, { p with payload := p.payload ++ input }, e) s
  | dispatch (state : p.state = .payload) (count : Nat) (le : count ≤ input.length)
      (size : (p.payload ++ input.take count).length = p.length.toNat) (status : Status) (e' : Engine) (s' : σ)
      (run : Protocol.dispatch flash layout reboot p.opcode (p.payload ++ input.take count) e s =
        (some (status, e'), s')) :
      Steps flash layout reboot p e input s
        (count, { p with
          payload := p.payload ++ input.take count, answer := Protocol.encodeReply p.opcode status e',
          state := .reply }, e') s'
  | acknowledged (state : p.state = .reply) (sent : p.sent = true) :
      Steps flash layout reboot p e input s (0, { p with sent := false, header := [], state := .header }, e) s
  | waiting (state : p.state = .reply) (unsent : p.sent = false) : Steps flash layout reboot p e input s (0, p, e) s
  | ended (state : p.state = .failed) : Steps flash layout reboot p e input s (0, p, e) s

theorem Protocol.tick_steps {p : Protocol} {e : Engine} {input : Bytes} {s : σ} (hreset : p.reset = false)
    (hshape : p.Shape) :
    Wp (p.tick flash layout reboot e input)
      (fun s' => p.state = .payload ∧ ∃ count, count ≤ input.length ∧
        (p.payload ++ input.take count).length = p.length.toNat ∧
        Protocol.dispatch flash layout reboot p.opcode (p.payload ++ input.take count) e s = (none, s'))
      (fun a s' => p.Steps flash layout reboot e input s a s') s := by
  refine .ite (fun h => absurd h (by simp [hreset])) fun _ => ?_
  split
  · next hs =>
    have hlt : p.header.length < 16 := (hshape.of_header hs).1
    simp only
    refine .ite (fun hfull => .ite (fun hacc => .pure ?_) fun hacc => .pure ?_) fun hshort => .pure ?_
    · exact .accept hs _ (Nat.min_le_left _ _) hfull hacc
    · exact .refuse hs _ (Nat.min_le_left _ _) hfull (Bool.eq_false_iff.mpr hacc)
    · have hcount : min input.length (16 - p.header.length) = input.length := by
        rw [List.length_append, List.length_take] at hshort
        omega
      have hsum : p.header.length + input.length < 16 := by
        rw [hcount, List.take_length, List.length_append] at hshort
        omega
      rw [hcount, List.take_length]
      exact .collect hs hsum
  · next hs =>
    have hroom : p.payload.length ≤ p.length.toNat := (hshape.of_payload hs).room
    simp only
    refine .ite (fun hfull => ?_) fun hshort => .pure ?_
    · refine .bind (Wp.run.mono (fun s' hcut => ⟨hs, _, Nat.min_le_left _ _, hfull, hcut⟩) fun _ _ h => h) ?_
      rintro ⟨status, e'⟩ s' hrun
      exact .pure (.dispatch hs _ (Nat.min_le_left _ _) hfull status e' s' hrun)
    · have hcount : min input.length (p.length.toNat - p.payload.length) = input.length := by
        rw [List.length_append, List.length_take] at hshort
        omega
      have hsum : p.payload.length + input.length < p.length.toNat := by
        rw [hcount, List.take_length, List.length_append] at hshort
        omega
      rw [hcount, List.take_length]
      exact .load hs hsum
  · next hs =>
    exact .ite (fun hsent => .pure (.acknowledged hs hsent)) fun hsent =>
      .pure (.waiting hs (Bool.eq_false_iff.mpr hsent))
  · next hs => exact .pure (.ended hs)

theorem serve_append {e₁ : Engine} {r : Request} {s₁ : σ} : ∀ {requests : List Request} {e : Engine} {s : σ}
    {answers : List (Request × Bytes)},
    serve flash layout reboot requests e s = (some (answers, e₁), s₁) →
    serve flash layout reboot (requests ++ [r]) e s =
      (do
        let (status, e₂) ← Protocol.dispatch flash layout reboot r.opcode r.payload e₁
        pure (answers ++ [(r, Protocol.encodeReply r.opcode status e₂)], e₂)) s₁ := by
  intro requests
  induction requests with
  | nil =>
    intro e s answers hserve
    cases hserve
    rw [List.nil_append, serve]
    rfl
  | cons q requests ih =>
    intro e s answers hserve
    rw [serve] at hserve
    rcases hd : Protocol.dispatch flash layout reboot q.opcode q.payload e s with ⟨_ | ⟨st, e'⟩, s'⟩
    · rw [bind_of_none hd] at hserve
      cases hserve
    · rw [bind_of_some hd] at hserve
      simp only at hserve
      rcases hr : serve flash layout reboot requests e' s' with ⟨_ | ⟨as, last⟩, s''⟩
      · rw [bind_of_none hr] at hserve
        cases hserve
      · rw [bind_of_some hr] at hserve
        cases hserve
        rw [List.cons_append, serve, bind_of_some hd]
        simp only
        rw [bind_apply, ih hr]
        rcases hn : Protocol.dispatch flash layout reboot r.opcode r.payload last s₁ with ⟨_ | ⟨st', e₂⟩, s₂⟩
        · rw [bind_of_none hn, bind_of_none hn]
        · rw [bind_of_some hn, bind_of_some hn]
          rfl

theorem serve_requests {e' : Engine} {s' : σ} : ∀ {requests : List Request} {e : Engine} {s : σ}
    {answers : List (Request × Bytes)},
    serve flash layout reboot requests e s = (some (answers, e'), s') → answers.map Prod.fst = requests := by
  intro requests
  induction requests with
  | nil =>
    intro e s answers hserve
    cases hserve
    rfl
  | cons q requests ih =>
    intro e s answers hserve
    rw [serve] at hserve
    rcases hd : Protocol.dispatch flash layout reboot q.opcode q.payload e s with ⟨_ | ⟨st, e₁⟩, s₁⟩
    · rw [bind_of_none hd] at hserve
      cases hserve
    · rw [bind_of_some hd] at hserve
      simp only at hserve
      rcases hr : serve flash layout reboot requests e₁ s₁ with ⟨_ | ⟨as, last⟩, s₂⟩
      · rw [bind_of_none hr] at hserve
        cases hserve
      · rw [bind_of_some hr] at hserve
        cases hserve
        rw [List.map_cons, ih hr]

end steps

/-! ## In step with the stream -/

section synced

variable {σ : Type} {flash : Flash σ} {layout : Layout} {reboot : Option (Crash σ Status)} {stream : Bytes}
  {e₀ : Engine} {s₀ s : σ} {l : Link}
variable {p : Protocol} {frames : List Frame} {e : Engine}

/-- What has been taken of the stream are whole frames, whose requests have been answered, and the bytes that
are held. -/
structure Link.Synced (flash : Flash σ) (layout : Layout) (reboot : Option (Crash σ Status)) (stream : Bytes)
    (e₀ : Engine) (s₀ : σ) (l : Link) (s : σ) (frames : List Frame) (e : Engine) : Prop where
  ok : ∀ f ∈ frames, f.Ok
  stream : stream = frames.flatMap Frame.bytes ++ (l.protocol.held ++ l.rest)
  served : serve flash layout reboot (frames.map Frame.request) e₀ s₀ = (some (l.transcript, e), s)
  engine : l.engine = if l.protocol.state = .failed then e.abort .parseError else e
  shape : l.protocol.Shape
  reset : l.protocol.reset = false

theorem synced_new (flash : Flash σ) (layout : Layout) (reboot : Option (Crash σ Status)) (stream : Bytes)
    (e₀ : Engine) (s₀ : σ) :
    Link.Synced flash layout reboot stream e₀ s₀ { engine := e₀, rest := stream } s₀ [] e₀ where
  ok := nofun
  stream := rfl
  served := rfl
  engine := rfl
  shape := .header rfl (Nat.zero_lt_succ 15) rfl
  reset := rfl

theorem take_offer {rest : Bytes} {offer count : Nat} (h : count ≤ (rest.take offer).length) :
    (rest.take offer).take count ++ rest.drop count = rest := by
  rw [List.length_take] at h
  rw [List.take_take, Nat.min_eq_left (by omega), List.take_append_drop]

theorem shape_ack (h : p.Shape) (ack : Bool) :
    (if ack ∧ p.state = .reply then p.markSent else p).Shape ∧
    (if ack ∧ p.state = .reply then p.markSent else p).held = p.held ∧
    (if ack ∧ p.state = .reply then p.markSent else p).state = p.state ∧
    (if ack ∧ p.state = .reply then p.markSent else p).reset = p.reset := by
  split
  · next hr => exact ⟨.reply hr.2, rfl, rfl, rfl⟩
  · exact ⟨h, rfl, rfl, rfl⟩

/-- The requests whose service is cut short are the first ones of the stream. -/
def Lost (flash : Flash σ) (layout : Layout) (reboot : Option (Crash σ Status)) (stream : Bytes) (e₀ : Engine)
    (s₀ s : σ) : Prop :=
  ∃ requests, requests <+: (parse stream).1 ∧ serve flash layout reboot requests e₀ s₀ = (none, s)

theorem parse_within {tail : Bytes} (h : ∀ f ∈ frames, f.Ok)
    (hstream : stream = frames.flatMap Frame.bytes ++ tail) :
    frames.map Frame.request <+: (parse stream).1 := by
  rw [hstream, parse_frames h]
  exact List.prefix_append _ _

section frames

variable {frames : List Frame} {e : Engine} {count : Nat}

theorem Link.Synced.take (h : l.Synced flash layout reboot stream e₀ s₀ s frames e) {held : Bytes} (offer : Nat)
    (hle : count ≤ (l.rest.take offer).length) (hheld : held = l.protocol.held ++ (l.rest.take offer).take count) :
    stream = frames.flatMap Frame.bytes ++ (held ++ l.rest.drop count) := by
  rw [hheld, List.append_assoc, take_offer hle]
  exact h.stream

theorem Link.Synced.completes {offer : Nat} (h : l.Synced flash layout reboot stream e₀ s₀ s frames e)
    (hstate : l.protocol.state = .payload) (hle : count ≤ (l.rest.take offer).length)
    (hfull : (l.protocol.payload ++ (l.rest.take offer).take count).length = l.protocol.length.toNat) :
    ∃ f : Frame, f.request = ⟨l.protocol.opcode, l.protocol.payload ++ (l.rest.take offer).take count⟩ ∧
      (∀ g ∈ frames ++ [f], g.Ok) ∧ stream = (frames ++ [f]).flatMap Frame.bytes ++ l.rest.drop count := by
  obtain ⟨size, accepted, opcode, length, -, -⟩ := h.shape.of_payload hstate
  refine ⟨⟨l.protocol.header, l.protocol.payload ++ (l.rest.take offer).take count⟩, by rw [Frame.request, opcode],
    ?_, ?_⟩
  · intro g hg
    rcases List.mem_append.mp hg with hg | hg
    · exact h.ok g hg
    · rw [List.mem_singleton.mp hg]
      exact ⟨size, accepted, hfull.trans (by rw [length])⟩
  · have hall := h.take offer hle (rfl : l.protocol.held ++ (l.rest.take offer).take count = _)
    rw [hall, List.flatMap_append, List.flatMap_singleton, List.append_assoc]
    simp only [Protocol.held, hstate, Frame.bytes, List.append_assoc]

/-- **A turn** keeps the protocol in step. -/
theorem Link.turn_synced (h : l.Synced flash layout reboot stream e₀ s₀ s frames e) (t : Turn) :
    Wp (l.turn flash layout reboot t) (Lost flash layout reboot stream e₀ s₀)
      (fun l' s' => ∃ frames' e', l'.Synced flash layout reboot stream e₀ s₀ s' frames' e') s := by
  have hengine (hne : l.protocol.state ≠ .failed) : l.engine = e := by
    rw [h.engine, if_neg hne]
  refine .bind ((Protocol.tick_steps h.reset h.shape).mono ?_ fun _ _ h => h) ?_
  · rintro s' ⟨hstate, count, hle, hfull, hcut⟩
    obtain ⟨f, hreq, hok, hstream⟩ := h.completes hstate hle hfull
    refine ⟨_, parse_within hok hstream, ?_⟩
    rw [hengine (by simp [hstate])] at hcut
    rw [List.map_append, List.map_singleton, serve_append h.served, hreq, bind_of_none hcut]
  rintro ⟨count, p, e'⟩ s' hstep
  -- It is enough to look at the protocol before the acknowledgement.
  suffices hsuff : ∃ frames' e₁, Link.Synced flash layout reboot stream e₀ s₀
      { protocol := p, engine := e', rest := l.rest.drop count
        transcript := l.transcript ++ Link.dispatched l.protocol p } s' frames' e₁ by
    obtain ⟨frames', e₁, hs⟩ := hsuff
    obtain ⟨hshape, hheld, hstate, hreset⟩ := shape_ack hs.shape t.ack
    refine .pure ⟨frames', e₁, hs.ok, ?_, hs.served, ?_, hshape, hreset.trans hs.reset⟩
    · rw [hheld]
      exact hs.stream
    · rw [hstate]
      exact hs.engine
  have hsame {b : Protocol} (hno : l.protocol.state = .reply ∨ b.state ≠ .reply) :
      l.transcript ++ Link.dispatched l.protocol b = l.transcript := by
    rw [Link.dispatched, if_neg, List.append_nil]
    rintro ⟨hne, heq⟩
    exact hno.elim hne fun h => h heq
  cases hstep with
  | collect state short =>
    have hsize : (l.protocol.header ++ l.rest.take t.offer).length < 16 := by
      rw [List.length_append]
      exact short
    refine ⟨frames, e, h.ok, h.take t.offer (Nat.le_refl _) ?_, ?_, ?_, .header state hsize (h.shape.of_header state).2, h.reset⟩
    · simp only [Protocol.held, state, List.take_length]
    · rw [hsame (.inr (by simp [state]))]
      exact h.served
    · simp only [state, reduceCtorEq, if_false]
      exact hengine (by simp [state])
  | accept state count le size accepted =>
    refine ⟨frames, e, h.ok, h.take t.offer le ?_, ?_, ?_, .payload rfl ⟨size, accepted, rfl, rfl, Nat.zero_le _,
      (h.shape.of_header state).2⟩, h.reset⟩
    · simp only [Protocol.held, state, List.append_nil]
    · rw [hsame (.inr (by simp))]
      exact h.served
    · simp only [reduceCtorEq, if_false]
      exact hengine (by simp [state])
  | refuse state count le size refused =>
    refine ⟨frames, e, h.ok, h.take t.offer le ?_, ?_, ?_, .failed rfl size refused, h.reset⟩
    · simp only [Protocol.held, state]
    · rw [hsame (.inr (by simp))]
      exact h.served
    · simp only [if_true]
      rw [hengine (by simp [state])]
  | load state short =>
    obtain ⟨size, accepted, opcode, length, room, unsent⟩ := h.shape.of_payload state
    have hroom : (l.protocol.payload ++ l.rest.take t.offer).length ≤ l.protocol.length.toNat := by
      rw [List.length_append]
      exact Nat.le_of_lt short
    refine ⟨frames, e, h.ok, h.take t.offer (Nat.le_refl _) ?_, ?_, ?_, .payload state ⟨size, accepted, opcode, length, hroom,
      unsent⟩, h.reset⟩
    · simp only [Protocol.held, state, List.take_length, List.append_assoc]
    · rw [hsame (.inr (by simp [state]))]
      exact h.served
    · simp only [state, reduceCtorEq, if_false]
      exact hengine (by simp [state])
  | dispatch state count le hfull status e' s' hrun =>
    obtain ⟨f, hreq, hok, hstream⟩ := h.completes state le hfull
    rw [hengine (by simp [state])] at hrun
    refine ⟨frames ++ [f], e', hok, hstream, ?_, ?_, .reply rfl, h.reset⟩
    · rw [List.map_append, List.map_singleton, serve_append h.served, hreq, bind_of_some hrun, Link.dispatched,
        if_pos ⟨by simp [state], rfl⟩]
      rfl
    · simp only [reduceCtorEq, if_false]
  | acknowledged state sent =>
    refine ⟨frames, e, h.ok, h.take t.offer (Nat.zero_le _) ?_, ?_, ?_, .header rfl (Nat.zero_lt_succ 15) rfl, h.reset⟩
    · simp only [Protocol.held, state, List.take_zero, List.append_nil]
    · rw [hsame (.inl state)]
      exact h.served
    · simp only [reduceCtorEq, if_false]
      exact hengine (by simp [state])
  | waiting state unsent =>
    refine ⟨frames, e, h.ok, h.take t.offer (Nat.zero_le _) ?_, ?_, h.engine, h.shape, h.reset⟩
    · rw [List.take_zero, List.append_nil]
    · rw [hsame (.inl state)]
      exact h.served
  | ended state =>
    refine ⟨frames, e, h.ok, h.take t.offer (Nat.zero_le _) ?_, ?_, h.engine, h.shape, h.reset⟩
    · rw [List.take_zero, List.append_nil]
    · rw [hsame (.inr (by simp [state]))]
      exact h.served

end frames

/-! ## Coming to rest -/

/-- A turn that offers a byte and acknowledges. -/
def Turn.effective (t : Turn) : Bool := decide (0 < t.offer) && t.ack

/-- Nothing is left to do: the stream has been taken and no request is complete, or a header was malformed. -/
inductive Link.Quiet (l : Link) : Prop
  | failed (state : l.protocol.state = .failed)
  | header (state : l.protocol.state = .header) (taken : l.rest = [])
  | payload (state : l.protocol.state = .payload) (taken : l.rest = [])
      (short : l.protocol.payload.length < l.protocol.length.toNat)

/-- The steps a state is away from the next header. -/
def Protocol.pending (p : Protocol) : Nat :=
  match p.state with
  | .header => 0
  | .payload => 3
  | .reply => if p.sent then 1 else 2
  | .failed => 0

/-- A bound on the effective turns that are left. -/
def Link.work (l : Link) : Nat := 4 * l.rest.length + l.protocol.pending

/-- In rest, every request of the stream has been served, and the protocol has failed where a header is
malformed. -/
theorem Link.Synced.parsed (h : l.Synced flash layout reboot stream e₀ s₀ s frames e)
    (hquiet : l.Quiet) : parse stream = (frames.map Frame.request, l.protocol.failed) := by
  have htail : parse (l.protocol.held ++ l.rest) = ([], l.protocol.failed) := by
    cases hquiet with
    | failed state =>
      cases h.shape with
      | failed _ size refused =>
        simp only [Protocol.held, state, Protocol.failed]
        exact parse_malformed size refused
      | header state' | payload state' | reply state' => rw [state] at state'; cases state'
    | header state taken =>
      simp only [Protocol.held, state, taken, List.append_nil, Protocol.failed]
      exact parse_short (h.shape.of_header state).1
    | payload state taken short =>
      obtain ⟨size, accepted, -, length, -, -⟩ := h.shape.of_payload state
      simp only [Protocol.held, state, taken, List.append_nil, Protocol.failed]
      exact parse_unfinished size (length ▸ short) accepted
  rw [h.stream, parse_frames h.ok, htail, List.append_nil]

theorem Link.Quiet.not_reply (h : l.Quiet) : l.protocol.state ≠ .reply := by
  cases h with
  | failed state | header state | payload state => simp [state]

theorem ack_eq (h : p.state ≠ .reply) (ack : Bool) :
    (if ack ∧ p.state = .reply then p.markSent else p) = p :=
  if_neg fun hack => h hack.2

theorem pending_reply (h : p.state = .reply) (ack : Bool) :
    (if ack ∧ p.state = .reply then p.markSent else p).pending = if ack || p.sent then 1 else 2 := by
  cases ack with
  | false =>
    rw [if_neg (by simp)]
    simp [Protocol.pending, h]
  | true =>
    rw [if_pos ⟨rfl, h⟩]
    simp [Protocol.pending, Protocol.markSent, h]

/-- Work that is left gets less with every effective turn, until the protocol is at rest. -/
theorem Link.turn_work (h : l.Synced flash layout reboot stream e₀ s₀ s frames e) (t : Turn) :
    Wp (l.turn flash layout reboot t) (fun _ => True)
      (fun l' _ => l'.work ≤ l.work ∧ (l.Quiet → l'.Quiet) ∧ (t.effective → l'.Quiet ∨ l'.work < l.work)) s := by
  refine .bind ((Protocol.tick_steps h.reset h.shape).mono (fun _ _ => trivial) fun _ _ h => h) ?_
  rintro ⟨count, p, e'⟩ s' hstep
  refine .pure ?_
  -- Where all of the offer is taken, a byte is taken or the stream is at its end.
  have hall (hoffer : t.effective = true) (hne : l.rest.drop (l.rest.take t.offer).length ≠ []) :
      (l.rest.drop (l.rest.take t.offer).length).length < l.rest.length := by
    have hpos : 0 < t.offer := by
      simp only [Turn.effective, Bool.and_eq_true, decide_eq_true_eq] at hoffer
      exact hoffer.1
    have hrest := List.length_pos_iff.mpr hne
    rw [List.length_drop] at hrest ⊢
    rw [List.length_take] at hrest ⊢
    omega
  have hdrop (n : Nat) : (l.rest.drop n).length ≤ l.rest.length := by
    rw [List.length_drop]
    exact Nat.sub_le _ _
  cases hstep with
  | collect state short =>
    rw [ack_eq (by simp [state])]
    simp only [Link.work, Protocol.pending, state]
    have hle := hdrop (l.rest.take t.offer).length
    refine ⟨by omega, fun hq => ?_, fun hoffer => ?_⟩
    · cases hq with
      | header _ taken => exact .header rfl (by simp [taken])
      | failed state' | payload state' => rw [state] at state'; cases state'
    · by_cases hne : l.rest.drop (l.rest.take t.offer).length = []
      · exact .inl (.header rfl hne)
      · have hlt := hall hoffer hne
        exact .inr (by omega)
  | accept state count le size accepted =>
    rw [ack_eq (by simp)]
    have hshort := (h.shape.of_header state).1
    rw [List.length_append, List.length_take] at size
    rw [List.length_take] at le
    have hlt : (l.rest.drop count).length < l.rest.length := by
      rw [List.length_drop]
      omega
    simp only [Link.work, Protocol.pending, state]
    refine ⟨by omega, fun hq => ?_, fun _ => .inr (by omega)⟩
    cases hq with
    | header _ taken =>
      rw [taken] at hlt
      exact absurd hlt (Nat.not_lt_zero _)
    | failed state' | payload state' => rw [state] at state'; cases state'
  | refuse state count le size refused =>
    rw [ack_eq (by simp)]
    have hle := hdrop count
    refine ⟨?_, fun _ => .failed rfl, fun _ => .inl (.failed rfl)⟩
    simp only [Link.work, Protocol.pending, state]
    omega
  | load state short =>
    rw [ack_eq (by simp [state])]
    simp only [Link.work, Protocol.pending, state]
    have hle := hdrop (l.rest.take t.offer).length
    have hshort : (l.protocol.payload ++ l.rest.take t.offer).length < l.protocol.length.toNat := by
      rw [List.length_append]
      exact short
    refine ⟨by omega, fun hq => ?_, fun hoffer => ?_⟩
    · cases hq with
      | payload _ taken => exact .payload rfl (by simp [taken]) hshort
      | failed state' | header state' => rw [state] at state'; cases state'
    · by_cases hne : l.rest.drop (l.rest.take t.offer).length = []
      · exact .inl (.payload rfl hne hshort)
      · have hlt := hall hoffer hne
        exact .inr (by omega)
  | dispatch state count le hfull status e' s' hrun =>
    have hle := hdrop count
    have hbefore : l.work = 4 * l.rest.length + 3 := by simp [Link.work, Protocol.pending, state]
    have hless {p : Protocol} (hp : p.state = .reply) :
        4 * (l.rest.drop count).length + (if t.ack ∧ p.state = .reply then p.markSent else p).pending < l.work := by
      rw [pending_reply hp, hbefore]
      split <;> omega
    refine ⟨Nat.le_of_lt (hless rfl), fun hq => ?_, fun _ => .inr (hless rfl)⟩
    cases hq with
    | payload _ taken short =>
      rw [taken, List.take_nil, List.take_nil, List.append_nil] at hfull
      omega
    | failed state' | header state' => rw [state] at state'; cases state'
  | acknowledged state sent =>
    rw [ack_eq (by simp)]
    simp only [Link.work, Protocol.pending, state, sent, if_true, List.drop_zero]
    exact ⟨by omega, fun hq => absurd state hq.not_reply, fun _ => .inr (by omega)⟩
  | waiting state unsent =>
    have hbefore : l.protocol.pending = 2 := by simp [Protocol.pending, state, unsent]
    simp only [Link.work, List.drop_zero]
    rw [pending_reply state, hbefore, unsent, Bool.or_false]
    refine ⟨?_, fun hq => absurd state hq.not_reply, fun hoffer => .inr ?_⟩
    · split <;> omega
    · simp only [Turn.effective, Bool.and_eq_true] at hoffer
      rw [if_pos hoffer.2]
      omega
  | ended state =>
    rw [ack_eq (by simp [state])]
    exact ⟨Nat.le_refl _, fun _ => .failed state, fun _ => .inl (.failed state)⟩

/-- **A run** keeps the protocol in step and lowers the work, until it is at rest. -/
theorem Link.run_synced : ∀ (turns : List Turn) {l : Link} {s : σ} {frames : List Frame} {e : Engine},
    l.Synced flash layout reboot stream e₀ s₀ s frames e →
    Wp (Link.run flash layout reboot turns l) (Lost flash layout reboot stream e₀ s₀)
      (fun l' s' => (∃ frames' e', l'.Synced flash layout reboot stream e₀ s₀ s' frames' e') ∧
        (l.Quiet → l'.Quiet) ∧ (l'.Quiet ∨ l'.work + turns.countP Turn.effective ≤ l.work)) s := by
  intro turns
  induction turns with
  | nil => exact fun {l s frames e} h => .pure ⟨⟨frames, e, h⟩, fun hq => hq, .inr (Nat.le_refl _)⟩
  | cons t turns ih =>
    intro l s frames e h
    refine .bind ((Link.turn_synced h t).adding (Link.turn_work h t)) ?_
    rintro l₁ s₁ ⟨⟨frames₁, e₁, h₁⟩, hle, hquiet, heff⟩
    refine (ih h₁).conseq ?_
    rintro l₂ s₂ ⟨hsync, hquiet₂, hwork⟩
    refine ⟨hsync, fun hq => hquiet₂ (hquiet hq), ?_⟩
    rcases hwork with hq | hwork
    · exact .inl hq
    rw [List.countP_cons]
    cases ht : t.effective with
    | false => exact .inr (by simp only [Bool.false_eq_true, if_false]; omega)
    | true =>
      rcases heff ht with hq | hlt
      · exact .inl (hquiet₂ hq)
      · exact .inr (by simp only [if_true]; omega)

end synced

/-- While a reply waits, and after a malformed header, no byte is taken; a protocol that has failed stays as it
is. -/
theorem Protocol.tick_idle {σ : Type} (flash : Flash σ) (layout : Layout)
    (reboot : Option (Crash σ Status)) (hreset : p.reset = false)
    (h : p.state = .reply ∨ p.state = .failed) (e : Engine) (input : Bytes) (s : σ) :
    ∃ p', p.tick flash layout reboot e input s = (some (0, p', e), s) ∧ (p.failed = true → p' = p) := by
  simp only [Protocol.tick, Protocol.step, hreset, Bool.false_eq_true, if_false]
  rcases h with hs | hs
  · simp only [hs, Protocol.failed, reduceCtorEq, decide_false]
    split
    · exact ⟨_, rfl, nofun⟩
    · exact ⟨_, rfl, nofun⟩
  · simp only [hs]
    exact ⟨p, rfl, fun _ => rfl⟩

/-- **Framing is independent of fragmentation.** The stream is offered in pieces of any size, empty ones
included, and every reply is acknowledged at some turn. At any time the bytes taken are those of whole frames,
with requests that are the first ones of the stream and with the transcript that serving these gives, and the
bytes that are held; a reply that waits and a malformed header stop the stream. After enough turns that offer
a byte and acknowledge, all requests have been served, and the protocol has failed exactly if a header is
malformed. A run that is cut short is cut in serving the first requests of the stream. -/
theorem framing_exact {σ : Type} (flash : Flash σ) (layout : Layout) (reboot : Option (Crash σ Status))
    (stream : Bytes) (e : Engine) (s : σ) (turns : List Turn) :
    match Link.run flash layout reboot turns { engine := e, rest := stream } s with
    | (some l, s') =>
      (∃ frames : List Frame, (∀ f ∈ frames, f.Ok) ∧
        stream = frames.flatMap Frame.bytes ++ (l.protocol.held ++ l.rest) ∧
        l.transcript.map Prod.fst = frames.map Frame.request ∧
        frames.map Frame.request <+: (parse stream).1 ∧
        ∃ e', serve flash layout reboot (frames.map Frame.request) e s = (some (l.transcript, e'), s') ∧
          l.engine = if l.protocol.failed then e'.abort .parseError else e') ∧
      (l.protocol.state = .reply ∨ l.protocol.state = .failed → ∀ e' input s'',
        ∃ p', l.protocol.tick flash layout reboot e' input s'' = (some (0, p', e'), s'') ∧
          (l.protocol.failed = true → p' = l.protocol)) ∧
      (4 * stream.length < turns.countP Turn.effective →
        (∃ e', serve flash layout reboot (parse stream).1 e s = (some (l.transcript, e'), s')) ∧
          l.protocol.failed = (parse stream).2)
    | (none, s') => ∃ requests, requests <+: (parse stream).1 ∧
        serve flash layout reboot requests e s = (none, s') := by
  have hrun := Link.run_synced turns (synced_new flash layout reboot stream e s)
  rcases heq : Link.run flash layout reboot turns { engine := e, rest := stream } s with ⟨_ | l, s'⟩
  · exact hrun.of_none heq
  obtain ⟨⟨frames, e', h⟩, -, hwork⟩ := hrun.of_some heq
  refine ⟨⟨frames, h.ok, h.stream, serve_requests h.served, parse_within h.ok h.stream, e', h.served, ?_⟩,
    fun hidle e' input s'' => Protocol.tick_idle flash layout reboot h.reset hidle e' input s'', fun hmany => ?_⟩
  · simp only [Protocol.failed, decide_eq_true_eq]
    exact h.engine
  rcases hwork with hquiet | hwork
  · rw [h.parsed hquiet]
    exact ⟨⟨e', h.served⟩, rfl⟩
  · -- The work of the fresh protocol is four for each byte.
    simp only [Link.work, Protocol.pending] at hwork
    omega

end DaveOs.Update
