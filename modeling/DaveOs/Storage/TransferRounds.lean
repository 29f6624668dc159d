import DaveOs.Storage.TransferFair

/-!
# The exchanges of an upload and of a download

`ByteStore` says what a volume has to do to be a faithful store of byte strings. Over such a volume
every request the host tool sends is answered as the tool expects (`round_upload`, `round_write`,
`round_finish`, `round_download`, `round_read`, `round_end`).
-/

namespace DaveOs.Storage

open Bytes Wire Tools

variable {σ α : Type}
variable {ws : List UInt32} {d₀ d payload : Bytes}

/-! ## Headers -/

/-- Little-endian words, one after another. -/
def words (ws : List UInt32) : Bytes := ws.flatMap fun v => leBytes 4 v.toNat

@[simp] theorem length_words (ws : List UInt32) : (words ws).length = 4 * ws.length := by
  induction ws with
  | nil => rfl
  | cons v ws ih =>
    rw [words, List.flatMap_cons, List.length_append, length_leBytes, List.length_cons, ← words, ih]
    omega

theorem words_append (x y : List UInt32) : words (x ++ y) = words x ++ words y := by
  simp [words]

theorem read32_words (rest : Bytes) {i : Nat} {v : UInt32} (h : ws[i]? = some v) :
    read32 (words ws ++ rest) (4 * i) = v := by
  induction ws generalizing i with
  | nil => simp at h
  | cons u ws ih =>
    rw [words, List.flatMap_cons, ← words, List.append_assoc]
    cases i with
    | zero =>
      obtain rfl := Option.some.inj h
      rw [read32, slice, Nat.mul_zero, List.drop_zero, List.take_left' (length_leBytes 4 _)]
      exact ofNat_leNat_leBytes32 u
    | succ i =>
      rw [← ih (i := i) (by simpa using h), read32, read32, slice, slice, Nat.mul_succ, Nat.add_comm,
        ← List.drop_drop, List.drop_left' (length_leBytes 4 _)]

/-- `d` starts with the words `ws` and is `d₀` behind a whole header. -/
structure Framed (d₀ d : Bytes) (ws : List UInt32) : Prop where
  length : d.length = d₀.length
  header : d.take (4 * ws.length) = words ws
  payload : d.drop kHeaderBytes = d₀.drop kHeaderBytes

theorem Framed.write (h : Framed d₀ d ws) (v : UInt32) (hd : kHeaderBytes ≤ d₀.length)
    (hws : ws.length < 6) : Framed d₀ (write32 d (4 * ws.length) v) (ws ++ [v]) := by
  have hhead : kHeaderBytes = 24 := rfl
  have hl := h.length
  have hlen : (d.take (4 * ws.length) ++ leBytes 4 v.toNat).length = 4 * ws.length + 4 := by
    rw [List.length_append, length_leBytes, List.length_take]
    omega
  refine ⟨?_, ?_, ?_⟩
  · rw [← hl, write32]
    exact length_splice (by rw [length_leBytes]; omega)
  · rw [write32, splice, List.length_append, List.length_singleton, Nat.mul_add_one,
      List.take_left' hlen, h.header]
    simp [words]
  · rw [write32, splice, List.drop_append, List.drop_of_length_le (by omega), hlen, List.nil_append,
      List.drop_drop, length_leBytes, ← h.payload]
    congr 1
    omega

theorem Framed.take (h : Framed d₀ d ws) (hws : ws.length = 6) (n : Nat) :
    d.take (kHeaderBytes + n) = words ws ++ slice d₀ kHeaderBytes n := by
  have hheader := h.header
  rw [hws] at hheader
  rw [List.take_add, h.payload]
  exact congrArg (· ++ slice d₀ kHeaderBytes n) hheader

theorem framed_reply (hd : d.length = kHeaderBytes + kChunkBytes) (a b c e f g : UInt32) :
    Framed d (write32 (write32 (write32 (write32 (write32 (write32 d 0 a) 4 b) 8 c) 12 e) 16 f) 20 g)
      [a, b, c, e, f, g] := by
  have hle : kHeaderBytes ≤ d.length := by omega
  have h₀ : Framed d d [] := ⟨rfl, rfl, rfl⟩
  exact (((((h₀.write a hle (by simp)).write b hle (by simp)).write c hle (by simp)).write e hle
    (by simp)).write f hle (by simp)).write g hle (by simp)

theorem Framed.set {x y : List UInt32} {u : UInt32} (h : Framed d₀ d (x ++ u :: y))
    (hd : kHeaderBytes ≤ d₀.length) (hxy : (x ++ u :: y).length ≤ 6) (v : UInt32) :
    Framed d₀ (write32 d (4 * x.length) v) (x ++ v :: y) := by
  have hhead : kHeaderBytes = 24 := rfl
  have hl := h.length
  have hcount : (x ++ u :: y).length = x.length + 1 + y.length := by simp; omega
  have hsplit : d = words x ++ (words [u] ++ (words y ++ d.drop (4 * (x ++ u :: y).length))) := by
    rw [← List.append_assoc, ← List.append_assoc, ← words_append, ← words_append, List.append_assoc,
      List.singleton_append, ← h.header, List.take_append_drop]
  have hset : write32 d (4 * x.length) v =
      words x ++ (words [v] ++ (words y ++ d.drop (4 * (x ++ u :: y).length))) := by
    conv_lhs => rw [hsplit]
    rw [write32, splice, length_leBytes, ← length_words, List.take_left, List.append_assoc,
      ← List.drop_drop, List.drop_left, List.drop_left' (by simp)]
    simp [words]
  have hfront : (words x ++ (words [v] ++ words y)).length = 4 * (x ++ v :: y).length := by
    simp only [List.length_append, length_words, List.length_cons, List.length_nil]
    omega
  have hrest : write32 d (4 * x.length) v =
      (words x ++ (words [v] ++ words y)) ++ d.drop (4 * (x ++ u :: y).length) := by
    rw [hset, List.append_assoc, List.append_assoc]
  have hsame : (x ++ v :: y).length = (x ++ u :: y).length := by simp
  refine ⟨?_, ?_, ?_⟩
  · rw [← hl, write32]
    exact length_splice (by rw [length_leBytes]; omega)
  · rw [hrest, List.take_left' hfront, ← words_append, ← words_append, List.singleton_append]
  · rw [hrest, List.drop_append, List.drop_of_length_le (by omega), hfront, List.nil_append,
      List.drop_drop, hsame, ← h.payload]
    congr 1
    omega

/-! ## Requests and replies -/

def message (op : UInt32) (arg0 arg1 : UInt32) (payload : Bytes) : Bytes :=
  words [kMagic, kVersion, op, UInt32.ofNat payload.length, arg0, arg1] ++ payload

def okReply (offset crc : UInt32) (payload : Bytes) : Bytes :=
  words [kMagic, kVersion, 0, UInt32.ofNat payload.length, offset, crc] ++ payload

theorem okReply_ne_nil (offset crc : UInt32) (payload : Bytes) : okReply offset crc payload ≠ [] := by
  intro h
  have := congrArg List.length h
  simp [okReply] at this

theorem toNat_ofNat_length (h : payload.length ≤ kChunkBytes) :
    (UInt32.ofNat payload.length).toNat = payload.length := by
  have hk : kChunkBytes = 1024 := rfl
  exact UInt32.toNat_ofNat_of_lt' (show _ < 2 ^ 32 by omega)

theorem toNat_left {n pos : Nat} (hn : n < 2 ^ 32) (hpos : pos ≤ n) :
    (UInt32.ofNat n - UInt32.ofNat pos).toNat = n - pos := by
  have h₁ : (UInt32.ofNat n).toNat = n := UInt32.toNat_ofNat_of_lt' hn
  have h₂ : (UInt32.ofNat pos).toNat = pos := UInt32.toNat_ofNat_of_lt' (show _ < 2 ^ 32 by omega)
  rw [UInt32.toNat_sub_of_le _ _ (UInt32.le_iff_toNat_le.2 (by omega)), h₁, h₂]

theorem message_message (op arg0 arg1 : UInt32) (h : payload.length ≤ kChunkBytes) :
    Message (message op arg0 arg1 payload) := by
  have hlen : (message op arg0 arg1 payload).length = kHeaderBytes + payload.length := by
    simp [message, kHeaderBytes]
  refine ⟨by omega, by omega, read32_words (i := 0) _ rfl, read32_words (i := 1) _ rfl, ?_⟩
  rw [show read32 (message op arg0 arg1 payload) 12 = UInt32.ofNat payload.length from
    read32_words (i := 3) _ rfl, toNat_ofNat_length h, hlen]
  omega

theorem request_eq (op : Nat) (payload : Bytes) (arg0 arg1 : Nat) (hop : op < 2 ^ 32)
    (hlen : payload.length ≤ kChunkBytes) (h0 : arg0 < 2 ^ 32) (h1 : arg1 < 2 ^ 32) :
    Files.request op payload arg0 arg1 = .send (message (UInt32.ofNat op) (UInt32.ofNat arg0)
      (UInt32.ofNat arg1) payload) (.receive 24 Files.reply) := by
  have hk : kChunkBytes = 1024 := rfl
  have hpack : ∀ v : Nat, v < 2 ^ 32 → packI v = .ok (leBytes 4 (UInt32.ofNat v).toNat) := by
    intro v hv
    have hword : (UInt32.ofNat v).toNat = v := UInt32.toNat_ofNat_of_lt' hv
    rw [hword, packI, if_pos ⟨by omega, by omega⟩, Int.toNat_natCast]
  have hheader : Files.header op payload.length arg0 arg1 = .ok (words [kMagic, kVersion,
      UInt32.ofNat op, UInt32.ofNat payload.length, UInt32.ofNat arg0, UInt32.ofNat arg1]) := by
    unfold Files.header
    rw [hpack op hop, hpack payload.length (by omega), hpack arg0 h0, hpack arg1 h1]
    simp only [words, List.flatMap_cons, List.flatMap_nil, List.append_nil]
    simp only [bind, Except.bind, pure, Except.pure, List.append_assoc]
    rfl
  rw [Files.request, hheader]
  rfl

/-- The tool reads exactly a reply with status ok and goes on with its fields. -/
theorem consumes_reply (offset crc : UInt32) (hlen : payload.length ≤ kChunkBytes)
    (f : Bytes × Nat × UInt32 → Client α) :
    Consumes ((Client.receive 24 Files.reply).bind f) (okReply offset crc payload)
      (f (payload, offset.toNat, crc)) := by
  have hread : ∀ i v, [kMagic, kVersion, 0, UInt32.ofNat payload.length, offset, crc][i]? = some v →
      read32 (words [kMagic, kVersion, 0, UInt32.ofNat payload.length, offset, crc]) (4 * i) = v := by
    intro i v h
    rw [← List.append_nil (words _)]
    exact read32_words [] h
  have hreply : Files.reply (words [kMagic, kVersion, 0, UInt32.ofNat payload.length, offset, crc]) =
      .receive payload.length fun data => .done (data, offset.toNat, crc) := by
    have hgood : ¬ (kMagic ≠ Files.magic ∨ kVersion ≠ Files.version ∨
        payload.length > Files.chunk) := by
      rintro (h | h | h)
      · exact h rfl
      · exact h rfl
      · exact absurd hlen (Nat.not_le.2 h)
    have h0 := hread 0 _ rfl
    have h1 := hread 1 _ rfl
    have h2 := hread 2 _ rfl
    have h3 := hread 3 _ rfl
    have h4 := hread 4 _ rfl
    have h5 := hread 5 _ rfl
    simp only [Nat.mul_zero, Nat.reduceMul] at h0 h1 h2 h3 h4 h5
    simp only [Files.reply, h0, h1, h2, h3, h4, h5, toNat_ofNat_length hlen, if_neg hgood, ne_eq,
      not_true_eq_false, if_false]
  refine @Consumes.recv _ [] _ _ _ _ _ ?_ (by simp) ?_
  · intro h
    have := congrArg List.length h
    simp at this
  · rw [List.nil_append, hreply]
    by_cases hnil : payload = []
    · subst hnil
      exact .nil _
    · have : payload.length ≠ 0 := fun h => hnil (List.length_eq_zero_iff.1 h)
      rw [Client.receive, if_neg this]
      have hall : Consumes (Client.bind f (.recv [] payload.length fun data =>
          .done (data, offset.toNat, crc))) (payload ++ []) (f (payload, offset.toNat, crc)) :=
        .recv hnil (by simp) (.nil _)
      rwa [List.append_nil] at hall

/-! ## A faithful volume -/

/-- The contents of a volume: its files, the open file with the position in it, and whether it is
leased. -/
structure Disk where
  files : Bytes → Option Bytes
  handle : Option (Bytes × Nat) := none
  leased : Bool := false

/-- The volume behind `access`, mounted read-write, is a faithful byte store: `view` gives its
contents, and `accepts` says which paths it takes. -/
structure ByteStore (access : FileAccess σ) (view : σ → Disk) (accepts : Bytes → Prop) : Prop where
  present : access.present = true
  reserve : ∀ write w, (view w).leased = false →
    ∃ w', access.reserve write w = (.ok, w') ∧ view w' = { view w with leased := true }
  release : ∀ w, view (access.release w) = { view w with leased := false }
  create : ∀ path w, accepts path → (view w).files path = none → (view w).handle = none →
    ∃ w', access.create path w = (.ok, w') ∧
      view w' = { view w with
        files := Function.update (view w).files path (some []), handle := some (path, 0) }
  write : ∀ bytes path b w, (view w).handle = some (path, b.length) →
    (view w).files path = some b → b.length + bytes.length < 2 ^ 32 →
    ∃ w', access.write bytes w = ((.ok, UInt32.ofNat bytes.length), w') ∧
      view w' = { view w with
        files := Function.update (view w).files path (some (b ++ bytes))
        handle := some (path, (b ++ bytes).length) }
  sync : ∀ w, (view w).handle ≠ none → ∃ w', access.sync w = (.ok, w') ∧ view w' = view w
  close : ∀ w, (view w).handle ≠ none →
    ∃ w', access.close w = (.ok, w') ∧ view w' = { view w with handle := none }
  openFile : ∀ path b w, (view w).files path = some b → (view w).handle = none →
    ∃ w', access.openFile path w = (.ok, w') ∧ view w' = { view w with handle := some (path, 0) }
  size : ∀ path pos b w, (view w).handle = some (path, pos) → (view w).files path = some b →
    access.size w = UInt32.ofNat b.length
  read : ∀ n path pos b w, (view w).handle = some (path, pos) → (view w).files path = some b →
    pos + n ≤ b.length → n < 2 ^ 32 →
    ∃ w', access.read n w = ((.ok, UInt32.ofNat n, slice b pos n), w') ∧
      view w' = { view w with handle := some (path, pos + n) }

/-- Nothing is leased or open, and the volume holds `files`. -/
def Idle (view : σ → Disk) (files : Bytes → Option Bytes) : Condition σ := fun s w =>
  (s.leased = false ∧ s.opened = false ∧ s.created = false) ∧ view w = { files := files }

/-- `sent` has been written to the new file `path`. -/
def Uploading (view : σ → Disk) (files : Bytes → Option Bytes) (path : Bytes) (size crc : UInt32)
    (sent : Bytes) : Condition σ := fun s w =>
  s = ⟨path, size, UInt32.ofNat sent.length, Crc32.calculate sent, crc, true, true, true, true,
    false⟩ ∧
  view w = ⟨Function.update files path (some sent), some (path, sent.length), true⟩

/-- The first `pos` bytes of the file `path` with the contents `data` have been read. -/
def Downloading (view : σ → Disk) (files : Bytes → Option Bytes) (path data : Bytes) (pos : Nat) :
    Condition σ := fun s w =>
  s = ⟨path, UInt32.ofNat data.length, UInt32.ofNat pos, Crc32.calculate (data.take pos), 0, true,
    true, false, false, false⟩ ∧
  view w = ⟨files, some (path, pos), true⟩

namespace FileTransfer

variable {t : FileTransfer}
variable {op arg0 arg1 : UInt32} {payload : Bytes} {o : Op} {n : Nat} {r : FResult}

theorem Loaded.fields (h : Loaded t (message op arg0 arg1 payload)) :
    read32 t.request 8 = op ∧ read32 t.request 16 = arg0 ∧ read32 t.request 20 = arg1 ∧
      slice t.request kHeaderBytes (t.needed - kHeaderBytes) = payload := by
  have hk : kHeaderBytes = 24 := rfl
  have hlen : (message op arg0 arg1 payload).length = kHeaderBytes + payload.length := by
    simp [message, kHeaderBytes]
  have hfull : t.request.take (message op arg0 arg1 payload).length =
      (message op arg0 arg1 payload).take (message op arg0 arg1 payload).length := by
    rw [List.take_length, h.bytes]
  have hfield : ∀ pos, pos + 4 ≤ 24 →
      read32 t.request pos = read32 (message op arg0 arg1 payload) pos :=
    fun pos hpos => read32_of_take hfull (by omega)
  refine ⟨?_, ?_, ?_, ?_⟩
  · rw [hfield 8 (by omega)]
    exact read32_words (i := 2) payload rfl
  · rw [hfield 16 (by omega)]
    exact read32_words (i := 4) payload rfl
  · rw [hfield 20 (by omega)]
    exact read32_words (i := 5) payload rfl
  · rw [h.needed, hlen, Nat.add_sub_cancel_left, ← slice_take (Nat.le_of_eq hlen.symm), h.bytes,
      slice, message, List.drop_left' (by simp [kHeaderBytes]), List.take_length]

/-- `Execute` of a complete request that starts with a path. -/
theorem execute_start (h : Loaded t (message op arg0 arg1 payload)) (ho : Op.ofWord op = some o)
    (hs : o.starts = true) (access : FileAccess σ) : t.execute access =
      ({ t with operated := true, status := .ok }).start access o arg0 arg1 payload := by
  obtain ⟨hop, h0, h1, hp⟩ := h.fields
  simp only [execute, hop, h0, h1, hp, ho, hs, if_true]

/-- `Execute` of a complete request of a transfer in progress. -/
theorem execute_proceed (h : Loaded t (message op arg0 arg1 payload)) (ho : Op.ofWord op = some o)
    (hs : o.starts = false) (access : FileAccess σ) : t.execute access =
      ({ t with operated := true, status := .ok }).proceed access (some o) arg0 arg1 payload := by
  obtain ⟨hop, h0, h1, hp⟩ := h.fields
  simp only [execute, hop, h0, h1, hp, ho, hs, Bool.false_eq_true, if_false]

theorem Sane.prepare (h : Sane t) (hs : t.status = .ok) (hn : n ≤ kChunkBytes) :
    Ready (t.prepare n) (okReply t.offset t.crc (slice t.reply kHeaderBytes n)) := by
  have hframe := framed_reply h.reply kMagic kVersion t.status.word (UInt32.ofNat n) t.offset t.crc
  have hlen : (slice t.reply kHeaderBytes n).length = n :=
    length_slice (by rw [h.reply]; omega)
  refine ⟨⟨h.request, hframe.length.trans h.reply, h.disconnected, h.malformed⟩, ?_, ?_⟩
  · show kHeaderBytes + n ≠ 0
    have : kHeaderBytes = 24 := rfl
    omega
  · rw [output]
    show (write32 _ 20 t.crc).take (if t.disconnected = true then 0 else kHeaderBytes + n) = _
    rw [h.disconnected, if_neg (by decide), hframe.take rfl, okReply, hlen, hs]
    rfl

theorem Sane.begin (h : Sane t) (hs : t.status = .ok) (hcrc : t.crc = 0) :
    Ready { t.prepare 0 with reply := write32 (t.prepare 0).reply 16 t.size } (okReply t.size 0 []) := by
  have hle : kHeaderBytes ≤ t.reply.length := by rw [h.reply]; exact Nat.le_add_right _ _
  have hframe := (framed_reply h.reply kMagic kVersion t.status.word (UInt32.ofNat 0) t.offset
    t.crc).set (x := [kMagic, kVersion, t.status.word, UInt32.ofNat 0]) hle (by simp) t.size
  refine ⟨⟨h.request, hframe.length.trans h.reply, h.disconnected, h.malformed⟩, ?_, ?_⟩
  · show kHeaderBytes + 0 ≠ 0
    decide
  · rw [output]
    show (write32 _ 16 t.size).take (if t.disconnected = true then 0 else kHeaderBytes + 0) = _
    rw [h.disconnected, if_neg (by decide)]
    refine (hframe.take rfl 0).trans ?_
    rw [okReply, hs, hcrc]
    simp [slice]
    rfl

/-! ## The branches of `Execute` that a transfer takes -/

/-- A sane transfer with status ok and no reply, in the service state `s`. -/
structure At (t : FileTransfer) (s : Service) : Prop extends Sane t where
  service : t.service = s
  status : t.status = .ok
  replySize : t.replySize = 0

theorem Loaded.cleared {m : Bytes} (h : Loaded t m) :
    At { t with operated := true, status := .ok } t.service :=
  ⟨⟨h.request, h.reply, h.disconnected, h.malformed⟩, rfl, rfl, h.replySize⟩

variable {access : FileAccess σ} {w : σ × List Call} {w' : σ} {s : Service}

theorem start_run (h : At t s) (hl : s.leased = false)
    (hgood : ¬ (payload = [] ∨ payload.length > kPathCapacity ∨ payload.contains 0 = true ∨
      (o ≠ .upload ∧ (arg0 ≠ 0 ∨ arg1 ≠ 0))))
    (hres : access.reserve (o == .upload || o.mutation) w.1 = (.ok, w')) :
    ∃ t' log, t.start access o arg0 arg1 payload w = t'.leasing access o (w', log) ∧
      At t' ⟨payload, arg0, 0, 0, arg1, true, s.opened, o == .upload, s.created, o == .list⟩ := by
  have hleased : t.leased = false := by rw [← h.service] at hl; exact hl
  have hopened : t.opened = s.opened := by rw [← h.service]; rfl
  have hcreated : t.created = s.created := by rw [← h.service]; rfl
  unfold start
  rw [if_neg (by simp [hleased]), if_neg hgood]
  simp only [Logged.bind_apply, Logged.call, hres]
  rw [if_neg (by decide)]
  refine ⟨_, _, rfl, ⟨⟨h.request, h.reply, h.disconnected, h.malformed⟩, ?_, rfl, h.replySize⟩⟩
  simp only [service, hopened, hcreated]

theorem leasing_run (h : At t s) (hm : o.mutation = false) {w₁ : σ × List Call}
    (hopen : t.openTarget access w = (.ok, w₁)) :
    ∃ t', t.leasing access o w = t'.opening access w₁ ∧
      At t' { s with opened := true, created := s.uploading } := by
  obtain rfl := h.service
  unfold leasing
  rw [if_neg (by simp [hm])]
  simp only [Logged.bind_apply, hopen]
  rw [if_neg (by decide)]
  exact ⟨_, rfl, ⟨⟨h.request, h.reply, h.disconnected, h.malformed⟩, rfl, rfl, h.replySize⟩⟩

theorem openTarget_create (h : At t s) (hup : s.uploading = true)
    (hc : access.create s.path w.1 = (r, w')) : ∃ log, t.openTarget access w = (r, (w', log)) := by
  obtain rfl := h.service
  have hup : t.uploading = true := hup
  have hc : access.create t.path w.1 = (r, w') := hc
  unfold openTarget
  rw [if_pos hup]
  exact ⟨_, by simp only [Logged.call, hc]; rfl⟩

theorem openTarget_open (h : At t s) (hup : s.uploading = false) (hlist : s.listing = false)
    (hc : access.openFile s.path w.1 = (r, w')) :
    ∃ log, t.openTarget access w = (r, (w', log)) := by
  obtain rfl := h.service
  have hup : t.uploading = false := hup
  have hlist : t.listing = false := hlist
  have hc : access.openFile t.path w.1 = (r, w') := hc
  unfold openTarget
  rw [if_neg (by simp [hup]), if_neg (by simp [hlist])]
  exact ⟨_, by simp only [Logged.call, hc]; rfl⟩

/-- The begin reply, with the announced size of an upload and the measured size of a download. -/
theorem opening_run (h : At t s) (hcrc : s.crc = 0) {size : UInt32}
    (hsize : size = if s.uploading then s.size else access.size w.1) :
    ∃ t' log, t.opening access w = ((true, t'), (w.1, log)) ∧ Ready t' (okReply size 0 []) ∧
      t'.service = { s with size := size } := by
  obtain rfl := h.service
  have hmeasure : ∃ t₁ log, t.measure access w = (t₁, (w.1, log)) ∧ t₁.Sane ∧ t₁.status = .ok ∧
      t₁.service = { t.service with size := size } := by
    unfold measure
    by_cases hup : t.uploading = true
    · rw [if_pos hup]
      have hsize : size = t.size := by rw [hsize, if_pos]; exacts [rfl, hup]
      exact ⟨t, w.2, rfl, h.toSane, h.status, by rw [hsize]; rfl⟩
    · rw [if_neg hup]
      have hsize : size = access.size w.1 := by rw [hsize, if_neg]; exact hup
      exact ⟨_, _, rfl, ⟨h.request, h.reply, h.disconnected, h.malformed⟩, h.status, by rw [hsize]; rfl⟩
  obtain ⟨t₁, log, hm, hsane, hstatus, hs₁⟩ := hmeasure
  have hsize₁ : t₁.size = size := congrArg Service.size hs₁
  have hcrc₁ : t₁.crc = 0 := (congrArg Service.crc hs₁).trans hcrc
  unfold opening
  simp only [Logged.bind_apply, hm]
  refine ⟨_, _, rfl, ?_, ?_⟩
  · rw [← hsize₁]
    exact hsane.begin hstatus hcrc₁
  · exact hs₁

theorem proceed_write (hs : t.service = s) (hleased : s.leased = true) (hup : s.uploading = true)
    (hne : payload ≠ []) (hlen : payload.length ≤ (s.size - s.offset).toNat) :
    t.proceed access (some .write) s.offset 0 payload = t.store access payload := by
  subst hs
  have hleased : t.leased = true := hleased
  have hup : t.uploading = true := hup
  unfold proceed
  rw [if_neg (by simp [hleased]), if_pos ⟨rfl, hup, hne, rfl, rfl, hlen⟩]

theorem proceed_finish (hs : t.service = s) (hleased : s.leased = true) (hup : s.uploading = true)
    (hall : s.offset = s.size) :
    t.proceed access (some .finish) 0 0 [] = t.finish access := by
  subst hs
  have hleased : t.leased = true := hleased
  unfold proceed
  rw [if_neg (by simp [hleased]), if_neg (by simp), if_neg (by simp), if_pos ⟨rfl, hup, hall⟩]

theorem proceed_read (hs : t.service = s) (hleased : s.leased = true) (hup : s.uploading = false)
    (hlist : s.listing = false) :
    t.proceed access (some .read) 0 0 [] = t.load access := by
  subst hs
  have hleased : t.leased = true := hleased
  have hup : t.uploading = false := hup
  have hlist : t.listing = false := hlist
  unfold proceed
  rw [if_neg (by simp [hleased]), if_neg (by simp), if_neg (by simp), if_neg (by simp),
    if_neg (by simp), if_pos (by simp [hup, hlist])]

theorem store_run (h : At t s) (hlen : payload.length ≤ kChunkBytes)
    (hw : access.write payload w.1 = ((.ok, UInt32.ofNat payload.length), w')) :
    ∃ t' log, t.store access payload w = ((true, t'), (w', log)) ∧
      Ready t' (okReply (s.offset + UInt32.ofNat payload.length) (Crc32.update s.crc payload) []) ∧
      t'.service = { s with
        offset := s.offset + UInt32.ofNat payload.length, crc := Crc32.update s.crc payload } := by
  obtain rfl := h.service
  have hcount := toNat_ofNat_length hlen
  unfold store
  simp only [Logged.bind_apply, Logged.call, hw, hcount]
  rw [if_neg (by simp [map])]
  refine ⟨_, _, rfl, ?_, rfl⟩
  have hsane : Sane { t with
      status := if map .ok = .ok ∧ payload.length ≠ payload.length then .ioError else map .ok,
      crc := Crc32.update t.crc payload, offset := t.offset + UInt32.ofNat payload.length } :=
    ⟨h.request, h.reply, h.disconnected, h.malformed⟩
  have hready := hsane.prepare (n := 0) (by simp [map]) (Nat.zero_le _)
  rw [slice, List.take_zero] at hready
  exact hready

theorem finish_run (h : At t s) (hcrc : s.crc = s.expectedCrc) (hw : access.sync w.1 = (.ok, w')) :
    ∃ t' log, t.finish access w = ((false, t'), (w', log)) ∧ At t' s := by
  obtain rfl := h.service
  have hcrc : t.crc = t.expectedCrc := hcrc
  unfold finish
  rw [if_neg (not_not.2 hcrc)]
  simp only [Logged.bind_apply, Logged.call, hw]
  exact ⟨_, _, rfl, ⟨⟨h.request, h.reply, h.disconnected, h.malformed⟩, rfl, rfl, h.replySize⟩⟩

theorem load_run (h : At t s) (hn : n = min kChunkBytes (s.size - s.offset).toNat) (hpos : 0 < n)
    {data : Bytes} (hdata : data.length = n)
    (hw : access.read n w.1 = ((.ok, UInt32.ofNat n, data), w')) :
    ∃ t' log, t.load access w = ((true, t'), (w', log)) ∧
      Ready t' (okReply (s.offset + UInt32.ofNat n) (Crc32.update s.crc data) data) ∧
      t'.service = { s with
        offset := s.offset + UInt32.ofNat n, crc := Crc32.update s.crc data } := by
  obtain rfl := h.service
  have hn : n = min kChunkBytes (t.size - t.offset).toNat := hn
  have hchunk : n ≤ kChunkBytes := by omega
  have hcount : (UInt32.ofNat n).toNat = n := by
    rw [← hdata]
    exact toNat_ofNat_length (by omega)
  have hne : UInt32.ofNat n ≠ 0 := fun h0 => by
    rw [h0] at hcount
    simp at hcount
    omega
  have hslice : slice (splice t.reply kHeaderBytes data) kHeaderBytes n = data :=
    slice_splice_self hdata (by rw [h.reply]; omega)
  have hlength : (splice t.reply kHeaderBytes data).length = kHeaderBytes + kChunkBytes := by
    rw [length_splice (by rw [h.reply]; omega), h.reply]
  have hfetch : fetch access n w = ((.ok, UInt32.ofNat n, data), (w', w.2 ++ [.read .ok (UInt32.ofNat n)])) := by
    unfold fetch
    rw [if_neg (by omega)]
    simp only [Logged.call, hw]
  unfold load
  simp only [Logged.bind_apply, ← hn, hfetch, hcount]
  rw [if_neg (by simp [map]), if_neg hne]
  have htake : data.take n = data := by rw [← hdata, List.take_length]
  simp only [htake, hslice]
  refine ⟨_, _, rfl, ?_, rfl⟩
  have hsane : Sane { t with
      reply := splice t.reply kHeaderBytes data,
      status := if map .ok = .ok ∧ n ≠ n then .ioError else map .ok,
      crc := Crc32.update t.crc data, offset := t.offset + UInt32.ofNat n } :=
    ⟨h.request, hlength, h.disconnected, h.malformed⟩
  have hready := hsane.prepare (n := n) (by simp [map]) hchunk
  rw [hslice] at hready
  exact hready

theorem load_end (h : At t s) (hend : (s.size - s.offset).toNat = 0) :
    ∃ t' log, t.load access w = ((false, t'), (w.1, log)) ∧ At t' s := by
  obtain rfl := h.service
  have hend : (t.size - t.offset).toNat = 0 := hend
  have hfetch : fetch access 0 w = ((.ok, 0, []), w) := rfl
  unfold load
  simp only [Logged.bind_apply, hend, Nat.min_zero, hfetch]
  rw [if_neg (by simp [map]), if_pos trivial]
  refine ⟨_, _, rfl, ⟨⟨h.request, ?_, h.disconnected, h.malformed⟩, ?_, by simp [map], h.replySize⟩⟩
  · show (splice t.reply kHeaderBytes []).length = _
    rw [length_splice (by rw [h.reply]; simp), h.reply]
  · show (⟨t.path, t.size, t.offset + 0, Crc32.update t.crc (slice _ kHeaderBytes 0), _, _, _, _, _,
      _⟩ : Service) = _
    simp [slice, service]

theorem cleanup_run (h : Sane t) (hs : t.status = .ok) (hservice : t.service = s)
    (hopen : s.opened = true) (hleased : s.leased = true) (hw : access.close w.1 = (.ok, w')) :
    ∃ t' log, t.cleanup access w = (t', (access.release w', log)) ∧
      Ready t' (okReply s.offset s.crc []) ∧
      t'.service = { s with leased := false, opened := false, created := false } := by
  subst hservice
  have hopen : t.opened = true := hopen
  have hleased : t.leased = true := hleased
  have hshut : shut access { t with operated := true } w = (false, (w', w.2 ++ [.close .ok])) := by
    unfold shut
    rw [if_pos hopen]
    simp only [Logged.bind_apply, Logged.call, hw]
    rfl
  have hdiscard : ∀ u : σ × List Call,
      discard access false { t with operated := true, opened := false } u = (false, u) := by
    intro u
    unfold discard
    rw [if_neg (by simp [hs, h.disconnected])]
    rfl
  have hunlease : ∀ u : σ × List Call,
      unlease access { t with operated := true, opened := false, created := false } u =
        ((), (access.release u.1, u.2 ++ [.release])) := by
    intro u
    unfold unlease
    rw [if_pos hleased]
    rfl
  have hrecord : ∀ u : σ × List Call, record { t with
      operated := true, opened := false, created := false, leased := false,
      status := if false = true then .cleanupFailed else t.status } u =
      ({ t with operated := true, opened := false, created := false, leased := false }, u) := by
    intro u
    unfold record
    rw [if_neg (by simp [hs])]
    rfl
  have hsane : Sane { t with
      operated := true, opened := false, created := false, leased := false } :=
    ⟨h.request, h.reply, h.disconnected, h.malformed⟩
  unfold cleanup
  simp only [Logged.bind_apply, hshut, hdiscard, hunlease, hrecord]
  rw [if_neg (by simp [h.disconnected])]
  refine ⟨_, _, rfl, ?_, rfl⟩
  have hready := hsane.prepare (n := 0) hs (Nat.zero_le _)
  rw [slice, List.take_zero] at hready
  exact hready

end FileTransfer

section Rounds

open FileTransfer

variable {access : FileAccess σ} {view : σ → Disk} {accepts : Bytes → Prop}
  (hstore : ByteStore access view accepts)
variable {files : Bytes → Option Bytes} {path : Bytes} {size crc : UInt32} {pos : Nat}
  {data : Bytes}

include hstore

theorem round_upload (hpath : accepts path) (hne : path ≠ []) (hlen : path.length ≤ kPathCapacity)
    (hzero : (0 : UInt8) ∉ path) (hnew : files path = none) (size crc : UInt32) :
    Round access (Idle view files) (message 1 size crc path) (okReply size 0 [])
      (Uploading view files path size crc []) := by
  refine ⟨hstore.present, fun _ _ => False, ?_, fun _ _ _ _ h => h.elim⟩
  rintro t w hl ⟨⟨hleased, hopened, hcreated⟩, hview⟩
  have hgood : ¬ (path = [] ∨ path.length > kPathCapacity ∨ path.contains 0 = true ∨
      (Op.upload ≠ .upload ∧ (size ≠ 0 ∨ crc ≠ 0))) := by
    simp [hne, hzero]
    omega
  obtain ⟨w₁, hres, hv₁⟩ := hstore.reserve true w.1 (by rw [hview])
  obtain ⟨w₂, hcre, hv₂⟩ := hstore.create path w₁ hpath (by rw [hv₁, hview]; exact hnew)
    (by rw [hv₁, hview])
  obtain ⟨t₁, log₁, h₁, hat₁⟩ :=
    start_run (o := .upload) hl.cleared hleased hgood hres
  obtain ⟨log₂, h₂⟩ := openTarget_create (w := (w₁, log₁)) hat₁ rfl hcre
  obtain ⟨t₂, h₃, hat₂⟩ := leasing_run (o := .upload) hat₁ rfl h₂
  obtain ⟨t₃, log₃, h₄, hready, hservice⟩ := opening_run (w := (w₂, log₂)) hat₂ rfl
    (if_pos rfl).symm
  refine ⟨true, t₃, (w₂, log₃), ?_, hready, ?_⟩
  · rw [execute_start hl rfl rfl, h₁, h₃, h₄]
  · exact ⟨hservice, by simp [hv₂, hv₁, hview]⟩

theorem round_write {sent part : Bytes} (hne : part ≠ []) (hlen : part.length ≤ kChunkBytes)
    (hsize : sent.length + part.length ≤ size.toNat) :
    Round access (Uploading view files path size crc sent)
      (message 2 (UInt32.ofNat sent.length) 0 part)
      (okReply (UInt32.ofNat (sent ++ part).length) (Crc32.calculate (sent ++ part)) [])
      (Uploading view files path size crc (sent ++ part)) := by
  refine ⟨hstore.present, fun _ _ => False, ?_, fun _ _ _ _ h => h.elim⟩
  rintro t w hl ⟨hservice, hview⟩
  have hlt := size.toNat_lt
  have hleft : part.length ≤ (size - UInt32.ofNat sent.length).toNat := by
    rw [← UInt32.ofNat_toNat (x := size), toNat_left hlt (by omega)]
    omega
  obtain ⟨w₁, hw, hv₁⟩ := hstore.write part path sent w.1 (by rw [hview]) (by rw [hview]; simp)
    (by omega)
  have hat := hl.cleared
  rw [hservice] at hat
  obtain ⟨t₁, log, h₁, hready, hs₁⟩ := store_run (w := w) hat hlen hw
  have hoffset : UInt32.ofNat sent.length + UInt32.ofNat part.length =
      UInt32.ofNat (sent ++ part).length := by
    rw [List.length_append, UInt32.ofNat_add]
  dsimp only at hready hs₁
  rw [hoffset, Crc32.update_calculate] at hready hs₁
  refine ⟨true, t₁, (w₁, log), ?_, hready, hs₁, ?_⟩
  · rw [execute_proceed hl rfl rfl,
      proceed_write hat.service rfl rfl hne hleft, h₁]
  · rw [hv₁, hview, Function.update_idem]

theorem cleanup_idle {expected : UInt32} {up made : Bool} {offset : UInt32} (t : FileTransfer)
    (w : σ × List Call) (h : t.Sane) (hs : t.status = .ok)
    (hservice : t.service = ⟨path, size, offset, crc, expected, true, true, up, made, false⟩)
    (hview : view w.1 = ⟨files, some (path, pos), true⟩) :
    ∃ (t' : FileTransfer) (w' : σ × List Call), t.cleanup access w = (t', w') ∧
      t'.Ready (okReply offset crc []) ∧ Idle view files t'.service w'.1 := by
  obtain ⟨w₁, hw, hv₁⟩ := hstore.close w.1 (by rw [hview]; simp)
  obtain ⟨t₁, log, h₁, hready, hs₁⟩ := cleanup_run h hs hservice rfl rfl hw
  refine ⟨t₁, (access.release w₁, log), h₁, hready, ?_, ?_⟩
  · rw [hs₁]
    exact ⟨rfl, rfl, rfl⟩
  · rw [hstore.release, hv₁, hview]

theorem round_finish :
    Round access (Uploading view files path (UInt32.ofNat data.length) (Crc32.calculate data) data)
      (message 3 0 0 []) (okReply (UInt32.ofNat data.length) (Crc32.calculate data) [])
      (Idle view (Function.update files path (some data))) := by
  refine ⟨hstore.present, Uploading view files path (UInt32.ofNat data.length)
    (Crc32.calculate data) data, ?_, ?_⟩
  · rintro t w hl ⟨hservice, hview⟩
    obtain ⟨w₁, hw, hv₁⟩ := hstore.sync w.1 (by rw [hview]; simp)
    have hat := hl.cleared
    rw [hservice] at hat
    obtain ⟨t₁, log, h₁, hat₁⟩ := finish_run (w := w) hat rfl hw
    refine ⟨false, t₁, (w₁, log), ?_, hat₁.toSane, hat₁.replySize, hat₁.status, hat₁.service, ?_⟩
    · rw [execute_proceed hl rfl rfl, proceed_finish hat.service rfl rfl rfl,
        h₁]
    · rw [hv₁, hview]
  · rintro t w h hs ⟨hservice, hview⟩
    exact cleanup_idle hstore t w h hs hservice hview

theorem round_download (hne : path ≠ []) (hlen : path.length ≤ kPathCapacity)
    (hzero : (0 : UInt8) ∉ path) (hdata : files path = some data) :
    Round access (Idle view files) (message 4 0 0 path) (okReply (UInt32.ofNat data.length) 0 [])
      (Downloading view files path data 0) := by
  refine ⟨hstore.present, fun _ _ => False, ?_, fun _ _ _ _ h => h.elim⟩
  rintro t w hl ⟨⟨hleased, hopened, hcreated⟩, hview⟩
  have hgood : ¬ (path = [] ∨ path.length > kPathCapacity ∨ path.contains 0 = true ∨
      (Op.download ≠ .upload ∧ ((0 : UInt32) ≠ 0 ∨ (0 : UInt32) ≠ 0))) := by
    simp [hne, hzero]
    omega
  obtain ⟨w₁, hres, hv₁⟩ := hstore.reserve false w.1 (by rw [hview])
  obtain ⟨w₂, hopen, hv₂⟩ := hstore.openFile path data w₁ (by rw [hv₁, hview]; exact hdata)
    (by rw [hv₁, hview])
  have hv₃ : view w₂ = ⟨files, some (path, 0), true⟩ := by rw [hv₂, hv₁, hview]
  have hsize : UInt32.ofNat data.length =
      if false = true then (0 : UInt32) else access.size w₂ :=
    (hstore.size path 0 data w₂ (by rw [hv₃]) (by rw [hv₃]; exact hdata)).symm
  obtain ⟨t₁, log₁, h₁, hat₁⟩ :=
    start_run (o := .download) hl.cleared hleased hgood hres
  obtain ⟨log₂, h₂⟩ := openTarget_open (w := (w₁, log₁)) hat₁ rfl rfl hopen
  obtain ⟨t₂, h₃, hat₂⟩ := leasing_run (o := .download) hat₁ rfl h₂
  obtain ⟨t₃, log₃, h₄, hready, hservice⟩ :=
    opening_run (w := (w₂, log₂)) hat₂ rfl hsize
  refine ⟨true, t₃, (w₂, log₃), ?_, hready, ?_, hv₃⟩
  · rw [execute_start hl rfl rfl, h₁, h₃, h₄]
  · rw [List.take_zero, Crc32.calculate, Crc32.update_nil]
    exact hservice

theorem round_read {n : Nat} (hdata : files path = some data) (hsize : data.length < 2 ^ 32)
    (hpos : pos < data.length) (hn : n = min kChunkBytes (data.length - pos)) :
    Round access (Downloading view files path data pos) (message 5 0 0 [])
      (okReply (UInt32.ofNat (pos + n)) (Crc32.calculate (data.take (pos + n))) (slice data pos n))
      (Downloading view files path data (pos + n)) := by
  refine ⟨hstore.present, fun _ _ => False, ?_, fun _ _ _ _ h => h.elim⟩
  rintro t w hl ⟨hservice, hview⟩
  have hk : kChunkBytes = 1024 := rfl
  obtain ⟨w₁, hw, hv₁⟩ := hstore.read n path pos data w.1 (by rw [hview]) (by rw [hview]; exact hdata)
    (by omega) (by omega)
  have hat := hl.cleared
  rw [hservice] at hat
  have hslice : (slice data pos n).length = n := length_slice (by omega)
  obtain ⟨t₁, log, h₁, hready, hs₁⟩ := load_run (w := w) hat
    (n := n) (by rw [toNat_left hsize (Nat.le_of_lt hpos)]; exact hn) (by omega) hslice hw
  dsimp only at hready hs₁
  rw [← UInt32.ofNat_add, Crc32.update_calculate, slice, ← List.take_add] at hready hs₁
  refine ⟨true, t₁, (w₁, log), ?_, hready, hs₁, ?_⟩
  · rw [execute_proceed hl rfl rfl,
      proceed_read hat.service rfl rfl rfl, h₁]
  · rw [hv₁, hview]

theorem round_end (hsize : data.length < 2 ^ 32) :
    Round access (Downloading view files path data data.length) (message 5 0 0 [])
      (okReply (UInt32.ofNat data.length) (Crc32.calculate data) []) (Idle view files) := by
  refine ⟨hstore.present, Downloading view files path data data.length, ?_, ?_⟩
  · rintro t w hl ⟨hservice, hview⟩
    have hat := hl.cleared
    rw [hservice] at hat
    obtain ⟨t₁, log, h₁, hat₁⟩ := @load_end _ _ access w _ hat
      (by rw [toNat_left hsize (Nat.le_refl _), Nat.sub_self])
    refine ⟨false, t₁, (w.1, log), ?_, hat₁.toSane, hat₁.replySize, hat₁.status, hat₁.service, hview⟩
    rw [execute_proceed hl rfl rfl, proceed_read hat.service rfl rfl rfl, h₁]
  · rintro t w h hs ⟨hservice, hview⟩
    rw [List.take_length] at hservice
    exact cleanup_idle hstore t w h hs hservice hview

end Rounds

end DaveOs.Storage
