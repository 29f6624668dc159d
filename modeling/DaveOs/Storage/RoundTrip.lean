import DaveOs.Storage.TransferRounds

/-!
# Upload and download round trip

`tools/files.py` against `FileTransfer` over a faithful volume: the exchanges of `TransferRounds`
compose along the loops of the tool (`talks_upload`, `talks_download`), so whatever a schedule does
with the two byte streams, an upload stores exactly the given bytes and a download of the same path
writes them back.
-/

namespace DaveOs.Storage

open Bytes Wire Tools

variable {σ α β γ : Type}

theorem Client.bind_assoc (c : Client α) (f : α → Client β) (g : β → Client γ) :
    (c.bind f).bind g = c.bind fun a => (f a).bind g := by
  induction c with
  | done a | raised e => rfl
  | send bytes next ih => rw [Client.bind, Client.bind, Client.bind, ih]
  | recv got count next ih =>
    rw [Client.bind, Client.bind, Client.bind]
    exact congrArg _ (funext ih)

theorem measure_eq (fuel : Nat) : ∀ (source : Bytes) (size : Nat) (crc : UInt32),
    source.length < fuel →
    Files.measure fuel source size crc = (size + source.length, Crc32.update crc source) := by
  induction fuel with
  | zero => intro source size crc h; omega
  | succ fuel ih =>
    intro source size crc h
    have hchunk : Files.chunk = 1024 := rfl
    rw [Files.measure]
    by_cases hnil : source.take Files.chunk = []
    · have : source = [] := (List.take_eq_nil_iff.1 hnil).resolve_left (by omega)
      subst this
      rw [if_pos hnil, Crc32.update_nil]
      rfl
    · have hne : source ≠ [] := fun h => hnil (by rw [h, List.take_nil])
      have hpos := List.length_pos_iff.2 hne
      rw [if_neg hnil, ih _ _ _ (by rw [List.length_drop]; omega), Nat.add_assoc,
        ← List.length_append, List.take_append_drop, Crc32.update_append, List.take_append_drop]

theorem remotePath_ok {name : String} {path : Bytes} (h : Files.remotePath name = .ok path) :
    path ≠ [] ∧ path.length ≤ kPathCapacity ∧ (0 : UInt8) ∉ path := by
  unfold Files.remotePath at h
  dsimp only at h
  split at h
  · cases h
  · next hgood =>
    obtain rfl := Except.ok.inj h
    simp only [not_or, List.contains_iff_mem] at hgood
    exact ⟨hgood.1, Nat.le_of_not_lt hgood.2.1, hgood.2.2⟩

section Converses

variable {access : FileAccess σ} {view : σ → Disk} {accepts : Bytes → Prop}
  {Q : α → Condition σ}
variable {P : Condition σ}

/-- The client talks, in some number of actions. -/
def Converses (access : FileAccess σ) (Q : α → Condition σ) (P : Condition σ) (c : Client α) : Prop :=
  ∃ n, Talks access Q n P c

theorem Converses.request {P' : Condition σ} {op arg0 arg1 : Nat} {payload : Bytes}
    {offset crc : UInt32} {f : Bytes × Nat × UInt32 → Client α}
    (hr : Round access P (message (UInt32.ofNat op) (UInt32.ofNat arg0) (UInt32.ofNat arg1) payload)
      (okReply offset crc data) P') (hop : op < 2 ^ 32) (h0 : arg0 < 2 ^ 32) (h1 : arg1 < 2 ^ 32)
    (hpayload : payload.length ≤ kChunkBytes) (hdata : data.length ≤ kChunkBytes)
    (ht : Converses access Q P' (f (data, offset.toNat, crc))) :
    Converses access Q P ((Files.request op payload arg0 arg1).bind f) := by
  obtain ⟨n, ht⟩ := ht
  rw [request_eq op payload arg0 arg1 hop hpayload h0 h1]
  exact ⟨_, .ask (message_message _ _ _ hpayload) hr (okReply_ne_nil _ _ _)
    (consumes_reply offset crc hdata f) ht⟩

theorem Converses.assoc {c : Client β} {f : β → Client γ} {g : γ → Client α}
    (h : Converses access Q P (c.bind fun a => (f a).bind g)) :
    Converses access Q P ((c.bind f).bind g) := by
  rwa [Client.bind_assoc]

variable (hstore : ByteStore access view accepts) {files : Bytes → Option Bytes} {path data : Bytes}

include hstore

theorem converses_sendChunks (hsize : data.length < 2 ^ 32) {k : Unit → Client α}
    (hk : Converses access Q
      (Uploading view files path (UInt32.ofNat data.length) (Crc32.calculate data) data) (k ()))
    (fuel : Nat) : ∀ (sent rest : Bytes), data = sent ++ rest → rest.length < fuel →
    Converses access Q
      (Uploading view files path (UInt32.ofNat data.length) (Crc32.calculate data) sent)
      ((Files.sendChunks fuel rest sent.length (Crc32.calculate sent)).bind k) := by
  induction fuel with
  | zero => intro sent rest _ h; omega
  | succ fuel ih =>
    intro sent rest hdata hfuel
    have hchunk : Files.chunk = 1024 := rfl
    have hk' : kChunkBytes = 1024 := rfl
    have htotal := congrArg List.length hdata
    rw [List.length_append] at htotal
    have hnat : (UInt32.ofNat data.length).toNat = data.length := UInt32.toNat_ofNat_of_lt' hsize
    rw [Files.sendChunks]
    by_cases hnil : rest.take Files.chunk = []
    · have : rest = [] := (List.take_eq_nil_iff.1 hnil).resolve_left (by omega)
      subst this
      rw [List.append_nil] at hdata
      subst hdata
      rw [if_pos hnil]
      exact hk
    · rw [if_neg hnil]
      have hpos := List.length_pos_iff.2 hnil
      have hpart : (rest.take Files.chunk).length ≤ kChunkBytes := by
        rw [List.length_take]
        omega
      have hfit : sent.length + (rest.take Files.chunk).length ≤ data.length := by
        rw [List.length_take]
        omega
      have hnext : (UInt32.ofNat (sent ++ rest.take Files.chunk).length).toNat =
          sent.length + (rest.take Files.chunk).length := by
        rw [List.length_append]
        exact UInt32.toNat_ofNat_of_lt' (show _ < 2 ^ 32 by omega)
      refine Converses.assoc (Converses.request (round_write hstore hnil hpart
        (by rw [hnat]; exact hfit)) (by decide) (by omega) (by decide) hpart (by simp) ?_)
      dsimp only
      rw [hnext, Crc32.update_calculate, if_neg (by simp), ← List.length_append]
      refine ih _ _ ?_ ?_
      · rw [List.append_assoc, List.take_append_drop]
        exact hdata
      · rw [List.length_take] at hpos
        rw [List.length_drop]
        omega

theorem converses_upload {destination : String} (hpath : Files.remotePath destination = .ok path)
    (haccepts : accepts path) (hnew : files path = none) (hsize : data.length < 2 ^ 32) :
    Converses access
      (fun a s w => a = (data.length, Crc32.calculate data) ∧
        Idle view (Function.update files path (some data)) s w)
      (Idle view files) (Files.upload data destination) := by
  obtain ⟨hne, hlen, hzero⟩ := remotePath_ok hpath
  have hk : kChunkBytes = 1024 := rfl
  have hcap : kPathCapacity = 255 := rfl
  have hnat : (UInt32.ofNat data.length).toNat = data.length := UInt32.toNat_ofNat_of_lt' hsize
  have hcrc := (Crc32.calculate data).toNat_lt
  rw [Files.upload, measure_eq _ _ _ _ (Nat.lt_succ_self _), Nat.zero_add]
  dsimp only
  rw [if_neg (by omega), hpath]
  rw [Client.attempt]
  show Converses _ _ _ ((Files.request 1 path data.length (Crc32.calculate data).toNat).bind _)
  have hfirst := round_upload hstore haccepts hne hlen hzero hnew (UInt32.ofNat data.length)
    (Crc32.calculate data)
  nth_rewrite 1 [← UInt32.ofNat_toNat (x := Crc32.calculate data)] at hfirst
  refine Converses.request hfirst (by decide) hsize hcrc (by omega) (by simp) ?_
  dsimp only
  rw [hnat, if_neg (by simp)]
  refine converses_sendChunks hstore hsize ?_ _ [] data rfl (Nat.lt_succ_self _)
  refine Converses.request (round_finish hstore) (by decide) (by decide) (by decide) (by simp)
    (by simp) ?_
  dsimp only
  rw [hnat, if_neg (by simp [Crc32.calculate])]
  exact ⟨0, .done fun s w h => ⟨rfl, h⟩⟩

theorem converses_receiveChunks (hsize : data.length < 2 ^ 32) (hdata : files path = some data)
    (fuel : Nat) : ∀ pos, pos ≤ data.length → data.length - pos + 1 < fuel →
    Converses access
      (fun a s w => a = (data, data.length, Crc32.calculate data) ∧ Idle view files s w)
      (Downloading view files path data pos)
      (Files.receiveChunks data.length fuel (data.take pos) pos (Crc32.calculate (data.take pos))) := by
  induction fuel with
  | zero => intro pos _ h; omega
  | succ fuel ih =>
    intro pos hpos hfuel
    have hk : kChunkBytes = 1024 := rfl
    rw [Files.receiveChunks]
    rcases Nat.lt_or_eq_of_le hpos with hlt | heq
    · obtain ⟨n, hn⟩ : ∃ n, n = min kChunkBytes (data.length - pos) := ⟨_, rfl⟩
      have hslice : (slice data pos n).length = n := length_slice (by omega)
      have hne : slice data pos n ≠ [] := List.length_pos_iff.1 (by omega)
      have htake : data.take pos ++ slice data pos n = data.take (pos + n) := by
        rw [slice, ← List.take_add]
      have hnat : (UInt32.ofNat (pos + n)).toNat = pos + n :=
        UInt32.toNat_ofNat_of_lt' (show _ < 2 ^ 32 by omega)
      refine Converses.request (round_read hstore hdata hsize hlt hn) (by decide) (by decide)
        (by decide) (by simp) (by omega) ?_
      dsimp only
      rw [hnat, hslice, Crc32.update_calculate, htake, if_neg (by simp; omega), if_neg hne]
      exact ih (pos + n) (by omega) (by omega)
    · subst heq
      have hnat : (UInt32.ofNat data.length).toNat = data.length := UInt32.toNat_ofNat_of_lt' hsize
      refine Converses.request (round_end hstore hsize) (by decide) (by decide) (by decide) (by simp)
        (by simp) ?_
      dsimp only
      rw [hnat, List.take_length, List.length_nil, Nat.add_zero, Crc32.update_nil,
        if_neg (by simp), if_pos rfl, if_neg (by simp)]
      exact ⟨0, .done fun s w h => ⟨rfl, h⟩⟩

theorem converses_download {source : String} (hpath : Files.remotePath source = .ok path)
    (hdata : files path = some data) (hsize : data.length < 2 ^ 32) :
    Converses access
      (fun a s w => a = (data, data.length, Crc32.calculate data) ∧ Idle view files s w)
      (Idle view files) (Files.download source) := by
  obtain ⟨hne, hlen, hzero⟩ := remotePath_ok hpath
  have hk : kChunkBytes = 1024 := rfl
  have hcap : kPathCapacity = 255 := rfl
  have hnat : (UInt32.ofNat data.length).toNat = data.length := UInt32.toNat_ofNat_of_lt' hsize
  rw [Files.download, hpath, Client.attempt]
  refine Converses.request (round_download hstore hne hlen hzero hdata) (by decide) (by decide)
    (by decide) (by omega) (by simp) ?_
  dsimp only
  rw [hnat, if_neg (by simp)]
  have hloop := converses_receiveChunks hstore hsize hdata (data.length + 2) 0 (Nat.zero_le _)
    (by omega)
  rwa [List.take_zero, show Crc32.calculate [] = 0 from rfl] at hloop

end Converses

/-! ## Completion -/

/-- No exchange is under way, and the volume holds `files`. -/
structure Quiet (view : σ → Disk) (files : Bytes → Option Bytes) (l : Link σ α) : Prop where
  quiet : l.transfer.Collecting [] 0
  idle : Idle view files l.transfer.service l.world.1
  toServer : l.toServer = []
  toClient : l.toClient = []
  requests : l.requests = l.replies

/-- The client never raises, whatever the schedule, and every request is answered before the next
one is sent; under a fair schedule it ends with `a` and leaves `files`. -/
def Completes (access : FileAccess σ) (view : σ → Disk) (l : Link σ α) (schedule : Nat → Action)
    (a : α) (files : Bytes → Option Bytes) : Prop :=
  (∀ i, let l' := Fair.run (Link.step access) schedule l i
    (∀ e, l'.client ≠ .raised e) ∧ l'.replies ≤ l'.requests ∧ l'.requests ≤ l'.replies + 1) ∧
  (Fair.Serves Action.Serves schedule → ∃ i, let l' := Fair.run (Link.step access) schedule l i
    l'.client = .done a ∧ Quiet view files l')

theorem Consumes.not_raised {c last : Client α} {bytes : Bytes} (h : Consumes c bytes last)
    (hne : bytes ≠ []) (e : ToolError) : c ≠ .raised e := by
  rintro rfl
  exact absurd (h.wanted hne).1 (Nat.lt_irrefl 0)

section Trip

variable {access : FileAccess σ} {view : σ → Disk} {l : Link σ α}

theorem Pending.steady {r : Bytes} {last : Client α} (h : Pending l r last) (hne : r ≠ []) :
    (∀ e, l.client ≠ .raised e) ∧ l.replies ≤ l.requests ∧ l.requests ≤ l.replies + 1 := by
  have hn := h.requests
  exact ⟨h.consumes.not_raised hne, by omega, by omega⟩

/-- A client that talks never raises, and has at most one unanswered request. -/
theorem Stage.steady {Q : α → Condition σ} {k : Kind} {n : Nat} (h : Stage access Q k n l) :
    (∀ e, l.client ≠ .raised e) ∧ l.replies ≤ l.requests ∧ l.requests ≤ l.replies + 1 := by
  cases h with
  | asking _ _ hclient _ _ _ _ hn => exact ⟨fun e => by simp [hclient], by omega, by omega⟩
  | sending he hpend | received he hpend | executing he hpend => exact hpend.steady he.reply
  | closing _ hne hpend | replying _ hne hpend => exact hpend.steady hne
  | reading _ hc hne _ _ _ hn => exact ⟨hc.not_raised hne, by omega, by omega⟩

theorem Converses.completes {files files' : Bytes → Option Bytes} {a : α}
    (h : Converses access (fun b s w => b = a ∧ Idle view files' s w) (Idle view files) l.client)
    (hl : Quiet view files l) {schedule : Nat → Action}
    (htime : ∀ i, (Fair.run (Link.step access) schedule l i).Timely (schedule i)) :
    Completes access view l schedule a files' := by
  obtain ⟨n, ht⟩ := h
  obtain ⟨hall, hend⟩ := ht.reaches hl.quiet hl.idle hl.toServer hl.toClient hl.requests htime
  refine ⟨fun i => ?_, fun hfair => ?_⟩
  · rcases hall i with hfin | ⟨k, n, hst⟩
    · obtain ⟨b, hb, -⟩ := hfin.client
      have hn := hfin.requests
      exact ⟨fun e => by simp [hb], by omega, by omega⟩
    · exact hst.steady
  · obtain ⟨i, hfin⟩ := hend hfair
    obtain ⟨b, hb, rfl, hidle⟩ := hfin.client
    exact ⟨i, hb, hfin.quiet, hidle, hfin.toServer, hfin.toClient, hfin.requests⟩

end Trip

/-! ## A volume in memory -/

/-- A volume that keeps its files in memory. -/
def memory : FileAccess Disk where
  present := true
  reserve _ d := if d.leased then (.locked, d) else (.ok, { d with leased := true })
  release d := { d with leased := false }
  create path d :=
    if d.handle ≠ none then (.locked, d)
    else if d.files path ≠ none then (.exist, d)
    else (.ok, { d with
      files := Function.update d.files path (some []), handle := some (path, 0) })
  openFile path d :=
    if d.handle ≠ none then (.locked, d)
    else if d.files path = none then (.noFile, d)
    else (.ok, { d with handle := some (path, 0) })
  openDirectory _ d := (.noPath, d)
  remove path d := (.ok, { d with files := Function.update d.files path none })
  mkdir _ d := (.denied, d)
  rmdir _ d := (.denied, d)
  write bytes d :=
    match d.handle with
    | none => ((.invalidObject, 0), d)
    | some (path, pos) =>
      let data := ((d.files path).getD []).take pos ++ bytes
      ((.ok, UInt32.ofNat bytes.length), { d with
        files := Function.update d.files path (some data), handle := some (path, data.length) })
  sync d := (.ok, d)
  next d := ((.invalidObject, ⟨[], false, 0⟩), d)
  read n d :=
    match d.handle with
    | none => ((.invalidObject, 0, []), d)
    | some (path, pos) =>
      let data := slice ((d.files path).getD []) pos n
      ((.ok, UInt32.ofNat data.length, data), { d with handle := some (path, pos + data.length) })
  close d := (.ok, { d with handle := none })
  size d :=
    match d.handle with
    | none => 0
    | some (path, _) => UInt32.ofNat ((d.files path).getD []).length

theorem memory_byteStore : ByteStore memory id fun _ => True where
  present := rfl
  reserve write w h := ⟨_, by simp only [memory, show w.leased = false from h]; rfl, rfl⟩
  release w := rfl
  create path w _ hnew hh := by
    have hnew : w.files path = none := hnew
    have hh : w.handle = none := hh
    exact ⟨_, by simp only [memory, hnew, hh]; rfl, rfl⟩
  write bytes path b w hh hf _ := by
    have hh : w.handle = some (path, b.length) := hh
    have hf : w.files path = some b := hf
    exact ⟨_, by simp only [memory, hh, hf, Option.getD_some, List.take_length]; rfl, rfl⟩
  sync w _ := ⟨_, rfl, rfl⟩
  close w _ := ⟨_, rfl, rfl⟩
  openFile path b w hf hh := by
    have hh : w.handle = none := hh
    have hf : w.files path = some b := hf
    exact ⟨_, by simp only [memory, hf, hh]; rfl, rfl⟩
  size path pos b w hh hf := by
    have hh : w.handle = some (path, pos) := hh
    have hf : w.files path = some b := hf
    simp only [memory, hh, hf, Option.getD_some]
  read n path pos b w hh hf hn _ := by
    have hh : w.handle = some (path, pos) := hh
    have hf : w.files path = some b := hf
    exact ⟨_, by simp only [memory, hh, hf, Option.getD_some, length_slice hn]; rfl, rfl⟩

/-! ## Schedules at one instant -/

namespace FileTransfer

variable {t : FileTransfer} {access : FileAccess σ} {w : σ × List Call}
variable {op : Op} {arg0 arg1 : UInt32} {payload : Bytes}

theorem activity_opening : (t.opening access w).1.2.activity = t.activity := by
  have hm : (t.measure access w).1.activity = t.activity := by
    unfold measure
    split <;> rfl
  exact hm

theorem activity_leasing : (t.leasing access op w).1.2.activity = t.activity := by
  unfold leasing
  split
  · rfl
  · rw [Logged.bind_apply]
    dsimp only
    split
    · rfl
    · exact activity_opening

theorem activity_start : (t.start access op arg0 arg1 payload w).1.2.activity = t.activity := by
  unfold start
  split
  · rfl
  split
  · rfl
  rw [Logged.bind_apply]
  dsimp only
  split
  · rfl
  · exact activity_leasing

theorem activity_proceed {op : Option Op} :
    (t.proceed access op arg0 arg1 payload w).1.2.activity = t.activity := by
  unfold proceed store finish nextEntry load
  (repeat' split) <;> first | rfl | skip
  all_goals (simp only [Logged.bind_apply]; (repeat' split) <;> rfl)

theorem activity_execute : (t.execute access w).1.2.activity = t.activity := by
  unfold execute
  cases Op.ofWord (read32 t.request 8) with
  | none => exact activity_proceed
  | some op =>
    dsimp only
    split
    · exact activity_start
    · exact activity_proceed

theorem activity_cleanup : (t.cleanup access w).1.activity = t.activity := by
  unfold cleanup record
  simp only [Logged.bind_apply]
  (repeat' split) <;> rfl

theorem activity_feed {now : Time} (ht : t.activity = now) (bytes : Bytes) :
    (t.feed bytes now).2.activity = now := by
  unfold feed
  split
  · exact ht
  · unfold checkHeader
    dsimp only
    (repeat' split) <;> first | rfl | exact ht

theorem activity_tick (now : Time) : (t.tick access now w).1.activity = t.activity := by
  cases hs : t.state with
  | receiving =>
    rw [tick_of_receiving hs]
    unfold receivingStep
    rw [Logged.pure_apply]
    dsimp only
    (repeat' split) <;> rfl
  | executing =>
    rw [tick_executing hs]
    unfold executingStep
    split
    · rfl
    · exact activity_execute
  | cleanup =>
    rw [tick_cleanup hs]
    exact activity_cleanup

end FileTransfer

/-- The clock reads `now` at the action. -/
def Action.Instant (now : Time) : Action → Prop
  | .client _ => True
  | .feed _ time | .tick time | .completedAt time | .sent time => time = now

theorem timely_of_instant {access : FileAccess σ} {l : Link σ α} {schedule : Nat → Action}
    {now : Time} (hl : l.transfer.activity = now) (hs : ∀ i, (schedule i).Instant now) (i : Nat) :
    (Fair.run (Link.step access) schedule l i).Timely (schedule i) := by
  have hstep : ∀ (l : Link σ α) (a : Action), l.transfer.activity = now → a.Instant now →
      (l.step access a).transfer.activity = now := by
    intro l a hl ha
    cases a with
    | client n =>
      show (l.clientStep n).transfer.activity = now
      unfold Link.clientStep
      dsimp only
      (repeat' split) <;> exact hl
    | feed n time =>
      obtain rfl : time = now := ha
      exact FileTransfer.activity_feed hl _
    | tick time => exact (FileTransfer.activity_tick time).trans hl
    | completedAt time =>
      obtain rfl : time = now := ha
      show (l.transfer.completedAt time).activity = time
      unfold FileTransfer.completedAt
      split
      · rfl
      · exact hl
    | sent time =>
      obtain rfl : time = now := ha
      show (if l.transfer.output = [] then l else _).transfer.activity = time
      split
      · exact hl
      · rfl
  have hrun : ∀ i, (Fair.run (Link.step access) schedule l i).transfer.activity = now := by
    intro i
    induction i with
    | zero => exact hl
    | succ i ih => exact hstep _ _ ih (hs i)
  unfold Link.Timely
  split
  · next time ha =>
    have htime : time = now := by
      have := hs i
      rw [ha] at this
      exact this
    unfold FileTransfer.expired
    rw [hrun i, htime, Nat.add_sub_cancel_left]
    simp [kIdleTimeout]
  · trivial

def rounds (i : Nat) : Action :=
  match i % 4 with
  | 0 => .client 1024
  | 1 => .feed 1048 0
  | 2 => .tick 0
  | _ => .sent 0

theorem rounds_serves : Fair.Serves Action.Serves rounds := by
  intro k i
  have hturn : ∀ c, c < 4 → (4 * i + c) % 4 = c := by omega
  cases k with
  | client => exact ⟨4 * i + 0, by omega, by simp [rounds, Action.Serves]⟩
  | feed => exact ⟨4 * i + 1, by omega, by simp [rounds, hturn 1, Action.Serves]⟩
  | tick => exact ⟨4 * i + 2, by omega, by simp [rounds, hturn 2, Action.Serves]⟩
  | sent => exact ⟨4 * i + 3, by omega, by simp [rounds, hturn 3, Action.Serves]⟩

theorem rounds_instant (i : Nat) : (rounds i).Instant 0 := by
  unfold rounds
  split <;> trivial

/-- A client that connects to an idle transfer over a volume in memory. -/
def connect (files : Bytes → Option Bytes) (client : Client α) : Link Disk α :=
  { client := client, transfer := {}, world := ({ files := files }, []) }

theorem quiet_connect (files : Bytes → Option Bytes) (client : Client α) :
    Quiet id files (connect files client) where
  quiet := ⟨⟨List.length_replicate, List.length_replicate, rfl, rfl⟩, rfl, rfl, rfl, rfl,
    List.take_zero⟩
  idle := ⟨⟨rfl, rfl, rfl⟩, rfl⟩
  toServer := rfl
  toClient := rfl
  requests := rfl

/-! ## The round trip -/

/-- Upload and download against a faithful volume. For every byte string below 4 GiB, every path that
the tool and the volume take and that does not exist yet, and every schedule without timeouts: the
upload completes with the string's size and CRC and the volume then holds the string, and a download
that follows completes with the same bytes, size and CRC. -/
theorem upload_download {access : FileAccess σ} {view : σ → Disk} {accepts : Bytes → Prop}
    (hstore : ByteStore access view accepts) {files : Bytes → Option Bytes} {name : String}
    {path data : Bytes} (hpath : Files.remotePath name = .ok path) (haccepts : accepts path)
    (hnew : files path = none) (hsize : data.length < 2 ^ 32) (schedule : Nat → Action) :
    (∀ l : Link σ (Nat × UInt32), l.client = Files.upload data name → Quiet view files l →
      (∀ i, (Fair.run (Link.step access) schedule l i).Timely (schedule i)) →
      Completes access view l schedule (data.length, Crc32.calculate data)
        (Function.update files path (some data))) ∧
    (∀ l : Link σ (Bytes × Nat × UInt32), l.client = Files.download name →
      Quiet view (Function.update files path (some data)) l →
      (∀ i, (Fair.run (Link.step access) schedule l i).Timely (schedule i)) →
      Completes access view l schedule (data, data.length, Crc32.calculate data)
        (Function.update files path (some data))) := by
  refine ⟨fun l hclient hl htime => ?_, fun l hclient hl htime => ?_⟩
  · refine Converses.completes ?_ hl htime
    rw [hclient]
    exact converses_upload hstore hpath haccepts hnew hsize
  · refine Converses.completes ?_ hl htime
    rw [hclient]
    exact converses_download hstore hpath (Function.update_self ..) hsize

theorem upload_download_memory :
    Fair.Serves Action.Serves rounds ∧
    Completes memory id (connect (fun _ => none) (Files.upload [1, 2, 3] "a")) rounds
      (3, Crc32.calculate [1, 2, 3]) (Function.update (fun _ => none) [97] (some [1, 2, 3])) ∧
    Completes memory id
      (connect (Function.update (fun _ => none) [97] (some [1, 2, 3])) (Files.download "a")) rounds
      ([1, 2, 3], 3, Crc32.calculate [1, 2, 3])
      (Function.update (fun _ => none) [97] (some [1, 2, 3])) := by
  have hbytes : "a".toUTF8.toList = [97] := by decide +kernel
  have hpath : Files.remotePath "a" = .ok [97] := by
    rw [Files.remotePath, hbytes]
    rfl
  have h := @upload_download _ memory id (fun _ => True) memory_byteStore (fun _ => none) "a" [97]
    [1, 2, 3] hpath trivial rfl (by decide) rounds
  exact ⟨rounds_serves,
    h.1 _ rfl (quiet_connect _ _) (timely_of_instant rfl rounds_instant),
    h.2 _ rfl (quiet_connect _ _) (timely_of_instant rfl rounds_instant)⟩

end DaveOs.Storage
