import DaveOs.Storage.Transfer

/-!
# What a file transfer leaves behind

`Session` follows the log of a transfer: whether the lease is held, whether a file or directory is
open, and the file the service has created and not yet answered for. `protocol` says which calls are
allowed in which session; every run of a transfer obeys it, whatever the lease and the volume answer
(`transfer_cleanup`).
-/

namespace DaveOs.Storage

open Bytes Wire

/-- A file the service has created: what was announced for it, and what became of it so far.
`written` is `none` once a write failed. -/
structure Upload where
  path : Bytes
  size : UInt32
  crc : UInt32
  written : Option Bytes := some []
  synced : Bool := false
  closed : Bool := false
  deriving DecidableEq, Repr

/-- All announced bytes with the announced CRC were written and then synced. -/
def Upload.Stored (u : Upload) : Prop :=
  u.synced = true ∧ ∃ b, u.written = some b ∧ b.length = u.size.toNat ∧ Crc32.calculate b = u.crc

instance (u : Upload) : Decidable u.Stored :=
  match h : u.written with
  | none => isFalse fun hs => by obtain ⟨-, b, hb, -⟩ := hs; simp [h] at hb
  | some b =>
    decidable_of_iff (u.synced = true ∧ b.length = u.size.toNat ∧ Crc32.calculate b = u.crc)
      (by simp [Upload.Stored, h])

/-- What an observer of the log knows. `file` is the created file whose fate is still open. -/
structure Session where
  leased : Bool := false
  handle : Bool := false
  file : Option Upload := none
  deriving DecidableEq, Repr

namespace Session

/-- The session after a call. A created file is settled when it was removed, when its failure was
recorded, or when a reply with status ok is prepared after it was stored and closed. -/
def next (s : Session) : Call → Session
  | .reserve _ r => if r = .ok then { s with leased := true } else s
  | .release => { s with leased := false }
  | .create path size crc r =>
    if r = .ok then { s with handle := true, file := some { path := path, size := size, crc := crc } }
    else s
  | .openFile _ r | .openDirectory _ r => if r = .ok then { s with handle := true } else s
  | .write bytes r count =>
    { s with file := s.file.map fun u =>
        { u with
          written := if r = .ok ∧ count.toNat = bytes.length then u.written.map (· ++ bytes) else none
          synced := false } }
  | .sync r => { s with file := s.file.map fun u => { u with synced := r = .ok } }
  | .close r =>
    { s with handle := false, file := s.file.map fun u => { u with closed := r = .ok } }
  | .remove requested path r =>
    if requested = false ∧ r = .ok ∧ s.file.map Upload.path = some path then { s with file := none }
    else s
  | .failure status => if status = .cleanupFailed then { s with file := none } else s
  | .reply status =>
    { s with file := s.file.filter fun u => ¬ (status = .ok ∧ u.Stored ∧ u.closed = true) }
  | .mkdir _ _ | .rmdir _ _ | .next _ | .read _ _ | .size => s

/-- The calls allowed in a session: successful reserves and releases alternate, every volume call is
made under the lease, what is opened is closed once and before the release, and only a file of the
current lease whose fate is open is removed without a request. -/
def Allowed (s : Session) : Call → Prop
  | .reserve _ r => r = .ok → s.leased = false ∧ s.handle = false ∧ s.file = none
  | .release => s.leased = true ∧ s.handle = false
  | .create _ _ _ r => s.leased = true ∧ (r = .ok → s.handle = false ∧ s.file = none)
  | .openFile _ r | .openDirectory _ r => s.leased = true ∧ (r = .ok → s.handle = false)
  | .close _ => s.leased = true ∧ s.handle = true
  | .remove requested path _ =>
    s.leased = true ∧ (requested = false → ∃ u, s.file = some u ∧ u.path = path)
  | .write _ _ _ | .sync _ | .mkdir _ _ | .rmdir _ _ | .next _ | .read _ _ | .size => s.leased = true
  | .reply _ | .failure _ => True

end Session

def protocol : Monitor Call Session where
  start := {}
  next := Session.next
  Allowed := Session.Allowed

@[simp] theorem protocol_next (s : Session) (call : Call) : protocol.next s call = s.next call := rfl

namespace FileTransfer

variable {failed : Bool}

/-! ## How the object's flags follow the session -/

/-- The object's flags say what the session says. -/
structure Linked (t : FileTransfer) (s : Session) : Prop where
  leased : s.leased = t.leased
  handle : s.handle = t.opened
  opened : t.opened = true → t.leased = true ∧ t.created = t.uploading
  created : t.created = true → t.opened = true
  absent : t.created = false → s.file = none
  present : t.created = true → ∃ u, s.file = some u ∧ u.path = t.path ∧ u.size = t.size ∧
    u.crc = t.expectedCrc ∧ u.closed = false
  listing : t.listing = true → t.uploading = false
  offset : t.offset ≤ t.size

/-- Before a request: the lease is held exactly while something is open, and what was written is
what the running offset and CRC say. -/
structure Serving (t : FileTransfer) (s : Session) : Prop extends Linked t s where
  idle : t.leased = true → t.opened = true
  written : ∀ u, s.file = some u →
    ∃ b, u.written = some b ∧ b.length = t.offset.toNat ∧ Crc32.calculate b = t.crc

/-- Before a cleanup: a created file that is to be reported as ok has been stored. -/
structure Ending (t : FileTransfer) (s : Session) : Prop extends Linked t s where
  stored : t.status = .ok → ∀ u, s.file = some u → u.Stored

/-- The invariant between the owner's calls. -/
def Inv (t : FileTransfer) (s : Session) : Prop :=
  if t.state = .cleanup then Ending t s else Serving t s

/-- What `Execute` leaves: another request may follow, or a cleanup has to. -/
def Executed (r : Bool × FileTransfer) (s : Session) : Prop :=
  if r.1 then Serving r.2 s else Ending r.2 s

variable {σ : Type} {access : FileAccess σ} {t : FileTransfer} {s : Session}

theorem Linked.next_reply (h : Linked t s) (status : TransferStatus) :
    s.next (.reply status) = s := by
  obtain ⟨leased, handle, file⟩ := s
  cases file with
  | none => rfl
  | some u =>
    cases hc : t.created with
    | false => exact absurd (h.absent hc) (by simp)
    | true =>
      obtain ⟨u', hu, -, -, -, hclosed⟩ := h.present hc
      obtain rfl := Option.some.inj hu
      simp [Session.next, hclosed]

theorem Linked.touch (h : Linked t s) {f : Upload → Upload}
    (hf : ∀ u, (f u).path = u.path ∧ (f u).size = u.size ∧ (f u).crc = u.crc ∧
      (f u).closed = u.closed) : Linked t { s with file := s.file.map f } := by
  refine ⟨h.leased, h.handle, h.opened, h.created, fun hc => by simp [h.absent hc], fun hc => ?_,
    h.listing, h.offset⟩
  obtain ⟨u, hu, hpath, hsize, hcrc, hclosed⟩ := h.present hc
  obtain ⟨h₁, h₂, h₃, h₄⟩ := hf u
  exact ⟨f u, by simp [hu], h₁.trans hpath, h₂.trans hsize, h₃.trans hcrc, h₄.trans hclosed⟩

theorem Serving.respond (h : Serving t s) (payload : Nat) :
    protocol.Obeys (t.respond payload : Logged σ Call _) s fun t' s' =>
      Serving t' s' ∧ t' = t.prepare payload := by
  refine .emit_bind trivial (.pure ⟨?_, rfl⟩)
  rw [protocol_next, h.next_reply]
  exact { h with }

theorem Linked.executed (h : Linked t s) {status : TransferStatus} (hs : status ≠ .ok) :
    Executed (false, { t with status := status }) s :=
  ⟨{ h with }, fun hok => absurd hok hs⟩

/-! ## Requests that start with a path -/

/-- A transfer with the lease and nothing open yet. -/
structure Fresh (t : FileTransfer) (s : Session) : Prop where
  leased : s.leased = true
  handle : s.handle = false
  file : s.file = none
  held : t.leased = true
  opened : t.opened = false
  created : t.created = false
  listing : t.listing = true → t.uploading = false
  offset : t.offset = 0
  crc : t.crc = 0

theorem Fresh.linked (h : Fresh t s) : Linked t s where
  leased := by rw [h.leased, h.held]
  handle := by rw [h.handle, h.opened]
  opened := fun ho => by simp [h.opened] at ho
  created := fun hc => by simp [h.created] at hc
  absent := fun _ => h.file
  present := fun hc => by simp [h.created] at hc
  listing := h.listing
  offset := by rw [h.offset]; exact UInt32.zero_le

theorem Fresh.executed (h : Fresh t s) (status : TransferStatus) :
    Executed (false, { t with status := status }) s :=
  ⟨{ h.linked with }, fun _ u hu => by simp [h.file] at hu⟩

theorem mutate_obeys (h : Fresh t s) (op : Op) :
    protocol.Obeys (t.mutate access op) s fun _ s' => s' = s := by
  unfold mutate
  refine .ite (fun _ => .call fun r => ⟨⟨h.leased, fun hr => Bool.noConfusion hr⟩, ?_⟩)
    fun _ => .ite (fun _ => .call fun r => ⟨h.leased, rfl⟩) fun _ => .call fun r => ⟨h.leased, rfl⟩
  simp [Session.next]

theorem opening_obeys (h : Serving t s) (hopen : t.opened = true) (hzero : t.offset = 0) :
    protocol.Obeys (t.opening access) s Executed := by
  unfold opening
  refine .bind (R := fun t' s' => Serving t' s' ∧ s' = s) ?_ fun t' s' ht => ?_
  · refine .ite (fun _ => .pure ⟨h, rfl⟩) fun hup => ?_
    have hleased : s.leased = true := by rw [h.leased, (h.opened hopen).1]
    have hcreated : t.created = false := by rw [(h.opened hopen).2]; simpa using hup
    refine .call_bind (fun _ => hleased) fun n => .pure ⟨?_, rfl⟩
    refine { h with present := fun hc => by simp [hcreated] at hc, offset := ?_ }
    show t.offset ≤ n
    rw [hzero]
    exact UInt32.zero_le
  · refine (ht.1.respond 0).bind fun t'' s'' ht' => .pure ?_
    exact { ht'.1 with }

theorem openTarget_obeys (h : Fresh t s) :
    protocol.Obeys (t.openTarget access) s fun r s' =>
      (r ≠ .ok → s' = s) ∧ (r = .ok → Serving { t with opened := true, created := t.uploading } s') := by
  have hl := h.linked
  unfold openTarget
  refine .ite (fun hup => .call fun r => ⟨⟨h.leased, fun _ => ⟨h.handle, h.file⟩⟩, ?_, ?_⟩)
    fun hup => .ite (fun _ => .call fun r => ⟨⟨h.leased, fun _ => h.handle⟩, ?_, ?_⟩)
      fun _ => .call fun r => ⟨⟨h.leased, fun _ => h.handle⟩, ?_, ?_⟩
  all_goals
    intro hr
    simp only [protocol_next, Session.next, hr, if_true, if_false]
  · refine ⟨⟨hl.leased, rfl, fun _ => ⟨h.held, rfl⟩, fun _ => rfl, fun hc => ?_, fun _ => ?_,
      hl.listing, hl.offset⟩,
      fun _ => rfl, fun u hu => ?_⟩
    · exact absurd hup (by simpa using hc)
    · exact ⟨_, rfl, rfl, rfl, rfl, rfl⟩
    · obtain rfl := Option.some.inj hu
      exact ⟨[], rfl, by simp [h.offset], by simp [h.crc, Crc32.calculate]⟩
  all_goals
    refine ⟨⟨hl.leased, rfl, fun _ => ⟨h.held, rfl⟩, fun _ => rfl, fun _ => h.file, fun hc => ?_,
      hl.listing, hl.offset⟩, fun _ => rfl, fun u hu => ?_⟩
    · exact absurd hc hup
    · simp [h.file] at hu

theorem leasing_obeys (h : Fresh t s) (op : Op) :
    protocol.Obeys (t.leasing access op) s Executed := by
  unfold leasing
  refine .ite (fun _ => ?_) fun _ => ?_
  · exact (mutate_obeys h op).bind fun r s' hs => .pure (hs ▸ h.executed _)
  · refine (openTarget_obeys h).bind fun r s' hs => ?_
    refine .ite (fun hne => .pure ?_) fun hok => ?_
    · rw [hs.1 (fun hr => hne (map_eq_ok.2 hr))]
      exact h.executed _
    · have hserving := hs.2 (map_eq_ok.1 (not_not.1 hok))
      exact opening_obeys { hserving with } rfl h.offset

theorem start_obeys (h : Serving t s) (op : Op) (arg0 arg1 : UInt32) (payload : Bytes) :
    protocol.Obeys (t.start access op arg0 arg1 payload) s Executed := by
  unfold start
  refine .ite (fun _ => .pure (h.executed (by decide))) fun hl => ?_
  refine .ite (fun _ => .pure (h.executed (by decide))) fun _ => ?_
  have hfree : t.leased = false := by simpa using hl
  have hopen : t.opened = false := by
    by_contra ho
    exact hl (h.opened (by simpa using ho)).1
  have hcreated : t.created = false := by
    by_contra hc
    simp [h.created (by simpa using hc)] at hopen
  have hkind : (op == Op.list) = true → (op == Op.upload) = false := by cases op <;> decide
  refine .call_bind (fun r _ => ⟨by rw [h.leased, hfree], by rw [h.handle, hopen], h.absent hcreated⟩)
    fun r => .ite (fun hne => .pure ?_) fun hok => ?_
  · have hr : r ≠ .ok := fun hr => hne (map_eq_ok.2 hr)
    simp only [protocol_next, Session.next, if_neg hr]
    refine ⟨⟨h.leased, h.handle, fun ho => ?_, h.created, h.absent, fun hc => ?_, hkind,
      UInt32.zero_le⟩, fun hok => absurd hok hne⟩
    · simp [hopen] at ho
    · simp [hcreated] at hc
  · have hr : r = .ok := map_eq_ok.1 (not_not.1 hok)
    simp only [protocol_next, Session.next, if_pos hr]
    refine leasing_obeys ?_ op
    exact ⟨rfl, by rw [h.handle, hopen], h.absent hcreated, rfl, hopen, hcreated, hkind, rfl, rfl⟩

/-! ## Requests of a transfer in progress -/

theorem store_obeys (h : Serving t s) (hl : t.leased = true) {payload : Bytes}
    (hfit : payload.length ≤ (t.size - t.offset).toNat) :
    protocol.Obeys (t.store access payload) s Executed := by
  have hle : t.offset.toNat + payload.length ≤ t.size.toNat := by
    rw [UInt32.toNat_sub_of_le _ _ h.offset] at hfit
    have := UInt32.le_iff_toNat_le.1 h.offset
    omega
  unfold store
  refine .call_bind (fun _ => h.leased.trans hl) fun r => ?_
  have hlinked : Linked t (s.next (.write payload r.1 r.2)) :=
    h.toLinked.touch fun u => ⟨rfl, rfl, rfl, rfl⟩
  refine .ite (fun hne => .pure (hlinked.executed hne)) fun hok => ?_
  have hst : map r.1 = .ok ∧ r.2.toNat = payload.length := by
    by_cases hc : map r.1 = .ok ∧ r.2.toNat ≠ payload.length
    · rw [if_pos hc] at hok
      exact absurd hok (by decide)
    · rw [if_neg hc] at hok
      have := not_not.1 hok
      exact ⟨this, by_contra fun hn => hc ⟨this, hn⟩⟩
  have hoff : (t.offset + r.2).toNat = t.offset.toNat + payload.length := by
    rw [UInt32.toNat_add, hst.2, Nat.mod_eq_of_lt]
    have := t.size.toNat_lt
    omega
  refine Monitor.Obeys.bind (Serving.respond ?_ 0) fun t' s' ht => .pure ht.1
  refine { hlinked with offset := ?_, idle := h.idle, written := fun u hu => ?_ }
  · exact UInt32.le_iff_toNat_le.2 (by rw [hoff]; exact hle)
  · obtain ⟨u₀, hu₀, rfl⟩ := Option.map_eq_some_iff.1 hu
    obtain ⟨b, hb, hlen, hsum⟩ := h.written u₀ hu₀
    refine ⟨b ++ payload, ?_, ?_, ?_⟩
    · simp [map_eq_ok.1 hst.1, hst.2, hb]
    · rw [List.length_append, hlen, hoff]
    · rw [← Crc32.update_calculate, hsum]

theorem finish_obeys (h : Serving t s) (hl : t.leased = true) (hsize : t.offset = t.size) :
    protocol.Obeys (t.finish access) s Executed := by
  unfold finish
  refine .ite (fun _ => .pure (h.executed (by decide))) fun hcrc => ?_
  refine .call_bind (fun _ => h.leased.trans hl) fun r => .pure ?_
  have hlinked : Linked t (s.next (.sync r)) := h.toLinked.touch fun u => ⟨rfl, rfl, rfl, rfl⟩
  refine ⟨{ hlinked with }, fun hok u hu => ?_⟩
  obtain ⟨u₀, hu₀, rfl⟩ := Option.map_eq_some_iff.1 hu
  obtain ⟨b, hb, hlen, hsum⟩ := h.written u₀ hu₀
  have hcreated : t.created = true := by
    by_contra hc
    simp [h.absent (by simpa using hc)] at hu₀
  obtain ⟨u₁, hu₁, -, hs, hc, -⟩ := h.present hcreated
  obtain rfl := Option.some.inj (hu₀.symm.trans hu₁)
  refine ⟨by simpa using map_eq_ok.1 hok, b, hb, ?_, ?_⟩
  · rw [hlen, hsize, hs]
  · rw [hsum, hc]
    exact not_not.1 hcrc

theorem Serving.file_none (h : Serving t s) (hl : t.leased = true) (hup : t.uploading = false) :
    s.file = none := h.absent (by rw [(h.opened (h.idle hl)).2, hup])

theorem nextEntry_obeys (h : Serving t s) (hl : t.leased = true) (hfile : s.file = none) :
    protocol.Obeys (t.nextEntry access) s Executed := by
  unfold nextEntry
  refine .call_bind (fun _ => h.leased.trans hl) fun r => ?_
  have hnone : ∀ u, s.file = some u → u.Stored := fun u hu => by simp [hfile] at hu
  refine .ite (fun _ => .pure ⟨{ h.toLinked with }, fun _ => hnone⟩) fun _ =>
    .ite (fun _ => .pure ⟨{ h.toLinked with }, fun _ => hnone⟩) fun _ => ?_
  refine Monitor.Obeys.bind (Serving.respond ?_ _) fun t' s' ht => .pure ht.1
  exact { h with }

theorem fetch_obeys (h : Serving t s) (hl : t.leased = true) (count : Nat) :
    protocol.Obeys (fetch access count) s fun _ s' => s' = s :=
  .ite (fun _ => .pure rfl) fun _ => .call fun _ => ⟨h.leased.trans hl, rfl⟩

theorem load_obeys (h : Serving t s) (hl : t.leased = true) (hfile : s.file = none) :
    protocol.Obeys (t.load access) s Executed := by
  unfold load
  refine (fetch_obeys h hl _).bind fun r s' hs => ?_
  subst hs
  have hnone : ∀ u, s'.file = some u → False := fun u hu => by simp [hfile] at hu
  refine .ite (fun _ => .pure ⟨{ h.toLinked with }, fun _ u hu => (hnone u hu).elim⟩) fun hok => ?_
  have hcount : r.2.1.toNat = min kChunkBytes (t.size - t.offset).toNat := by
    by_contra hn
    refine hok ?_
    by_cases hm : map r.1 = .ok <;> simp [hm, hn]
  have hoff : t.offset + r.2.1 ≤ t.size := by
    have hsub := UInt32.toNat_sub_of_le _ _ h.offset
    have hle := UInt32.le_iff_toNat_le.1 h.offset
    have := t.size.toNat_lt
    rw [UInt32.le_iff_toNat_le, UInt32.toNat_add]
    exact Nat.le_trans (Nat.mod_le _ _) (by omega)
  refine .ite (fun _ => .pure ⟨{ h.toLinked with offset := hoff }, fun _ u hu => (hnone u hu).elim⟩) fun _ => ?_
  refine Monitor.Obeys.bind (Serving.respond ?_ _) fun t' s' ht => .pure ht.1
  exact { h with offset := hoff, written := fun u hu => (hnone u hu).elim }

theorem proceed_obeys (h : Serving t s) (op : Option Op) (arg0 arg1 : UInt32) (payload : Bytes) :
    protocol.Obeys (t.proceed access op arg0 arg1 payload) s Executed := by
  unfold proceed
  refine .ite (fun _ => .pure (h.executed (by decide))) fun hl => ?_
  have hl : t.leased = true := by
    by_contra hn
    exact hl (.inl (by simpa using hn))
  refine .ite (fun hw => store_obeys h hl hw.2.2.2.2.2) fun _ => ?_
  refine .ite (fun _ => .pure (h.executed (by decide))) fun _ => ?_
  refine .ite (fun hf => finish_obeys h hl hf.2.2) fun _ => ?_
  refine .ite (fun hn => ?_) fun _ => .ite (fun hr => ?_) fun _ => .pure (h.executed (by decide))
  · exact nextEntry_obeys h hl (h.file_none hl (h.listing hn.2))
  · exact load_obeys h hl (h.file_none hl (by simpa using hr.2.1))

theorem execute_obeys (h : Serving t s) : protocol.Obeys (t.execute access) s Executed := by
  have h' : Serving { t with operated := true, status := .ok } s := { h with }
  unfold execute
  dsimp only
  split
  · exact .ite (fun _ => start_obeys h' _ _ _ _) fun _ => proceed_obeys h' _ _ _ _
  · exact proceed_obeys h' none _ _ _

/-! ## Cleanup -/

/-- What is known between the close and the end of a cleanup: `failed` says whether the close or
the removal failed, and a file that is still there was stored and closed, unless its failure is
about to be recorded. -/
structure Closed (t : FileTransfer) (failed : Bool) (s : Session) : Prop where
  leased : s.leased = t.leased
  handle : s.handle = false
  offset : t.offset ≤ t.size
  file : ∀ u, s.file = some u → failed = true ∨
    (t.status = .ok ∧ t.disconnected = false ∧ u.Stored ∧ u.closed = true)

theorem shut_obeys (h : Ending t s) :
    protocol.Obeys (t.shut access) s fun failed s' =>
      s'.leased = t.leased ∧ s'.handle = false ∧
      (t.created = false → s'.file = none) ∧
      (t.created = true → ∃ u, s'.file = some u ∧ u.path = t.path ∧
        (t.status = .ok → failed = false → u.Stored ∧ u.closed = true)) := by
  unfold shut
  refine .ite (fun ho => ?_) fun ho => .pure ⟨h.leased, ?_, h.absent, fun hc => ?_⟩
  · refine .call_bind (fun _ => ⟨h.leased.trans (h.opened ho).1, h.handle.trans ho⟩) fun r =>
      .pure ⟨h.leased, rfl, fun hc => ?_, fun hc => ?_⟩
    · simp [Session.next, h.absent hc]
    · obtain ⟨u, hu, hpath, -⟩ := h.present hc
      refine ⟨{ u with closed := r = .ok }, by simp [Session.next, hu], hpath, fun hok hf => ?_⟩
      exact ⟨h.stored hok u hu, by simpa using hf⟩
  · rw [h.handle]
    simpa using ho
  · exact absurd (h.created hc) ho

theorem discard_obeys (hleased : s.leased = t.leased) (hhandle : s.handle = false)
    (hoffset : t.offset ≤ t.size) (hheld : t.created = true → t.leased = true)
    (habsent : t.created = false → s.file = none)
    (hfile : t.created = true → ∃ u, s.file = some u ∧ u.path = t.path ∧
      (t.status = .ok → failed = false → u.Stored ∧ u.closed = true)) :
    protocol.Obeys (t.discard access failed) s (Closed t) := by
  unfold discard
  refine .ite (fun hc => ?_) fun hc => .pure ⟨hleased, hhandle, hoffset, fun u hu => ?_⟩
  · obtain ⟨u, hu, hpath, -⟩ := hfile hc.1
    refine .call_bind (fun _ => ⟨hleased.trans (hheld hc.1), fun _ => ⟨u, hu, hpath⟩⟩) fun r =>
      .pure ?_
    by_cases hr : r = .ok
    · have hnext : s.next (.remove false t.path r) = { s with file := none } := by
        simp [Session.next, hr, hu, hpath]
      rw [protocol_next, hnext]
      exact ⟨hleased, hhandle, hoffset, fun u hu => by simp at hu⟩
    · have hnext : s.next (.remove false t.path r) = s := by simp [Session.next, hr]
      rw [protocol_next, hnext]
      exact ⟨hleased, hhandle, hoffset, fun _ _ => .inl (by simp [hr])⟩
  · cases hcr : t.created with
    | false => simp [habsent hcr] at hu
    | true =>
      obtain ⟨u', hu', -, hstored⟩ := hfile hcr
      obtain rfl := Option.some.inj (hu.symm.trans hu')
      cases hf : failed with
      | true => exact .inl rfl
      | false =>
        have hst : t.status = .ok ∧ t.disconnected = false := by
          simpa [hcr, hf] using hc
        exact .inr ⟨hst.1, hst.2, hstored hst.1 hf⟩

theorem unlease_obeys (h : Closed t failed s) : protocol.Obeys (t.unlease access) s fun _ s' =>
      Closed { t with leased := false } failed s' := by
  unfold unlease
  refine .ite (fun hl => .call fun _ => ⟨⟨h.leased.trans hl, h.handle⟩, ?_⟩) fun hl => .pure ?_
  · exact ⟨rfl, h.handle, h.offset, h.file⟩
  · exact ⟨h.leased.trans (by simpa using hl), h.handle, h.offset, h.file⟩

/-- The failure count of a cleanup settles a file that could not be removed. -/
theorem record_obeys (h : Closed t failed s) (hs : failed = true → t.status = .cleanupFailed) :
    protocol.Obeys (t.record : Logged σ Call _) s fun t' s' =>
      Closed t' false s' ∧ ∃ n, t' = { t with failures := n } := by
  unfold record
  refine .ite (fun hne => .emit_bind trivial (.pure ⟨?_, _, rfl⟩)) fun hok => .pure ⟨?_, _, rfl⟩
  · rw [protocol_next]
    by_cases hc : t.status = .cleanupFailed
    · refine ⟨?_, ?_, h.offset, fun u hu => ?_⟩ <;> simp_all [Session.next, h.leased, h.handle]
    · have hnext : s.next (.failure t.status) = s := by simp [Session.next, hc]
      rw [hnext]
      refine ⟨h.leased, h.handle, h.offset, fun u hu => ?_⟩
      rcases h.file u hu with hf | hf
      · exact absurd (hs hf) hc
      · exact absurd hf.1 hne
  · refine ⟨h.leased, h.handle, h.offset, fun u hu => (h.file u hu).imp ?_ id⟩
    intro hf
    simp [hs hf] at hok

/-- A transfer with nothing held and nothing left open. -/
structure Free (t : FileTransfer) (s : Session) : Prop where
  leased : s.leased = false
  handle : s.handle = false
  file : s.file = none
  unleased : t.leased = false
  opened : t.opened = false
  created : t.created = false
  listing : t.listing = true → t.uploading = false
  offset : t.offset ≤ t.size

theorem Free.serving (h : Free t s) : Serving t s where
  leased := h.leased.trans h.unleased.symm
  handle := h.handle.trans h.opened.symm
  opened := fun ho => by simp [h.opened] at ho
  created := fun hc => by simp [h.created] at hc
  absent := fun _ => h.file
  present := fun hc => by simp [h.created] at hc
  listing := h.listing
  offset := h.offset
  idle := fun hl => by simp [h.unleased] at hl
  written := fun u hu => by simp [h.file] at hu

theorem closing_obeys (h : Closed t false s) (hl : t.leased = false) (ho : t.opened = false)
    (hc : t.created = false) (hkind : t.listing = true → t.uploading = false) :
    protocol.Obeys (if t.disconnected then pure { t.sent t.activity with disconnected := false }
      else t.respond 0 : Logged σ Call _) s Free := by
  refine .ite (fun hd => .pure ?_) fun _ => .emit_bind trivial (.pure ?_)
  · refine ⟨h.leased.trans hl, h.handle, ?_, hl, ho, hc, hkind, h.offset⟩
    refine Option.eq_none_iff_forall_not_mem.2 fun u hu => ?_
    rcases h.file u hu with hf | hf
    · exact Bool.noConfusion hf
    · simp [hd] at hf
  · refine ⟨h.leased.trans hl, h.handle, ?_, hl, ho, hc, hkind, h.offset⟩
    refine Option.eq_none_iff_forall_not_mem.2 fun u hu => ?_
    obtain ⟨hu, hkept⟩ := Option.mem_filter_iff.1 hu
    rcases h.file u hu with hf | ⟨hs, -, hstored, hclosed⟩
    · exact Bool.noConfusion hf
    · simp [hs, hstored, hclosed] at hkept

theorem cleanup_obeys (h : Ending t s) : protocol.Obeys (t.cleanup access) s Free := by
  have h₀ : Ending { t with operated := true } s := { h with }
  unfold cleanup
  refine (shut_obeys h₀).bind fun failed s₁ h₁ => ?_
  refine (discard_obeys h₁.1 h₁.2.1 h.offset (fun hc => (h.opened (h.created hc)).1) h₁.2.2.1
    h₁.2.2.2).bind fun failed s₂ h₂ => ?_
  refine (unlease_obeys (t := { t with operated := true, opened := false, created := false })
    ⟨h₂.leased, h₂.handle, h₂.offset, h₂.file⟩).bind fun _ s₃ h₃ => ?_
  refine Monitor.Obeys.bind (record_obeys (show Closed _ failed _ from ?_) fun hf => ?_) fun t' s₄ h₄ => ?_
  · refine ⟨h₃.leased, h₃.handle, h₃.offset, fun u hu => ?_⟩
    cases failed with
    | true => exact .inl rfl
    | false => exact h₃.file u hu
  · simp [hf]
  · obtain ⟨hclosed, n, rfl⟩ := h₄
    exact closing_obeys hclosed rfl rfl rfl h.listing

/-! ## The owner's calls -/

theorem Serving.inv (h : Serving t s) (hs : t.state ≠ .cleanup) : Inv t s := by
  rwa [Inv, if_neg hs]

theorem Ending.inv (h : Ending t s) (hs : t.state = .cleanup) : Inv t s := by
  rwa [Inv, if_pos hs]

theorem Inv.serving (h : Inv t s) (hs : t.state ≠ .cleanup) : Serving t s := by
  rwa [Inv, if_neg hs] at h

/-- A change of the object that neither the session nor the machine's state sees. -/
theorem Inv.alike {t' : FileTransfer} (h : Inv t s) (ha : t'.service = t.service) (hs : t'.state = t.state)
    (hst : t'.status = t.status) : Inv t' s := by
  simp only [service, Service.mk.injEq] at ha
  obtain ⟨h₁, h₂, h₃, h₄, h₅, h₆, h₇, h₈, h₉, h₁₀⟩ := ha
  have hlinked (h : Linked t s) : Linked t' s := by
    constructor <;> simp only [h₁, h₂, h₃, h₅, h₆, h₇, h₈, h₉, h₁₀]
    exacts [h.leased, h.handle, h.opened, h.created, h.absent, h.present, h.listing, h.offset]
  unfold Inv at h ⊢
  rw [hs]
  split at h
  · next hcl =>
    rw [if_pos hcl]
    exact ⟨hlinked h.toLinked, by rw [hst]; exact h.stored⟩
  · next hcl =>
    rw [if_neg hcl]
    exact ⟨hlinked h.toLinked, by rw [h₆, h₇]; exact h.idle, by rw [h₃, h₄]; exact h.written⟩

theorem receivingStep_inv (h : Serving t s) (hs : t.state = .receiving) (expired : Bool) :
    Inv (t.receivingStep expired) s := by
  unfold receivingStep
  split
  · refine ⟨{ h.toLinked with }, fun hok => ?_⟩
    split at hok <;> exact TransferStatus.noConfusion hok
  · split
    · exact Serving.inv { h with } nofun
    · exact h.inv (by simp [hs])

theorem executingStep_obeys (h : Serving t s) : protocol.Obeys (t.executingStep access) s Inv := by
  unfold executingStep
  refine .ite (fun _ => .pure ?_) fun _ => ?_
  · exact ⟨{ h.toLinked with }, fun hok => TransferStatus.noConfusion hok⟩
  · refine (execute_obeys h).bind fun r s' hr => .pure ?_
    obtain ⟨more, t'⟩ := r
    cases more with
    | true =>
      have hr : Serving t' s' := hr
      exact Serving.inv { hr with } nofun
    | false =>
      have hr : Ending t' s' := hr
      exact Ending.inv { hr with } rfl

theorem tick_obeys (h : Inv t s) (now : Time) : protocol.Obeys (t.tick access now) s Inv := by
  have h' : Inv { t with operated := false } s := h.alike rfl rfl rfl
  unfold tick
  dsimp only
  split
  · next hs => exact .pure (receivingStep_inv (h'.serving (by simp [hs])) hs _)
  · next hs => exact executingStep_obeys (h'.serving (by simp [hs]))
  · next hs =>
    rw [Inv, if_pos hs] at h'
    refine (cleanup_obeys h').bind fun t' s' hr => .pure ?_
    exact Serving.inv { hr.serving with } nofun

theorem checkHeader_alike (t : FileTransfer) : t.checkHeader.service = t.service ∧
    t.checkHeader.state = t.state ∧ t.checkHeader.status = t.status := by
  unfold checkHeader
  dsimp only
  split
  · split <;> exact ⟨rfl, rfl, rfl⟩
  · exact ⟨rfl, rfl, rfl⟩

theorem feed_alike (t : FileTransfer) (bytes : Bytes) (now : Time) :
    (t.feed bytes now).2.service = t.service ∧ (t.feed bytes now).2.state = t.state ∧
      (t.feed bytes now).2.status = t.status := by
  unfold feed
  split
  · exact ⟨rfl, rfl, rfl⟩
  · exact checkHeader_alike _

theorem input_obeys (h : Inv t s) (i : Input) : protocol.Obeys (t.input access i) s Inv := by
  cases i with
  | feed bytes now =>
    obtain ⟨ha, hs, hst⟩ := feed_alike t bytes now
    exact .pure (h.alike ha hs hst)
  | tick now => exact tick_obeys h now
  | completedAt now =>
    refine .pure ?_
    unfold completedAt
    split
    · exact h.alike rfl rfl rfl
    · exact h
  | sent now | disconnect => exact .pure (h.alike rfl rfl rfl)

theorem Inv.linked (h : Inv t s) : Linked t s := by
  unfold Inv at h
  split at h
  · exact h.toLinked
  · exact h.toLinked

end FileTransfer

end DaveOs.Storage
