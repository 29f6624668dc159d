import DaveOs.Storage.Transfer

/-!
# One reply for each request

From the feed that completes a request up to `sent`, with no timeout and no disconnect, a transfer prepares one
reply and keeps it. A header that was rejected is the exception: `malformed_` is only cleared by `sent`, so that
a tick while its reply waits withdraws the reply and cleans up again (`request_answered_once`).
-/

namespace DaveOs.Storage

/-- The replies and failures of a log. -/
structure Tally where
  replies : Nat := 0
  failures : Nat := 0
  deriving DecidableEq

/-- One reply, and before it one failure. -/
def tally : Monitor Call Tally where
  start := {}
  next s
    | .reply _ => { s with replies := s.replies + 1 }
    | .failure _ => { s with failures := s.failures + 1 }
    | _ => s
  Allowed s
    | .reply _ => s.replies = 0
    | .failure _ => s.replies = 0 ∧ s.failures = 0
    | _ => True

namespace FileTransfer

variable {σ : Type} (access : FileAccess σ)
variable {now : Time} {i : Input}

/-- What happens between a complete request and `sent`, with no timeout and no disconnect. -/
def Awaits (t : FileTransfer) : Input → Prop
  | .feed _ _ | .completedAt _ => True
  | .tick now => t.expired now = false
  | .sent _ | .disconnect => False

instance (t : FileTransfer) (i : Input) : Decidable (t.Awaits i) := by
  cases i <;> unfold Awaits <;> infer_instance

/-- The inputs of a run, each with the transfer before it. -/
def steps : List Input → FileTransfer → σ × List Call → List (FileTransfer × Input)
  | [], _, _ => []
  | i :: inputs, t, w => (t, i) :: steps inputs (t.input access i w).1 (t.input access i w).2

def Cleans (x : FileTransfer × Input) : Bool := x.1.state = .cleanup ∧ x.2 matches .tick _

/-- A reply of `t` is that of `t'` too. -/
def Keeps (t t' : FileTransfer) : Prop :=
  t.replySize ≠ 0 → t'.replySize = t.replySize ∧ t'.output = t.output

/-- One request has been served as it should be. -/
structure AnsweredOnce (inputs : List Input) (t : FileTransfer) (world : σ) : Prop where
  accepts : tally.Accepts (Logged.iterate (input access) inputs t (world, [])).2.2
  served : 3 ≤ inputs.countP (· matches .tick _) →
    (tally.after (Logged.iterate (input access) inputs t (world, [])).2.2).replies = 1
  cleanups : (steps access inputs t (world, [])).countP Cleans ≤ 1
  kept : ((steps access inputs t (world, [])).map Prod.fst ++
    [(Logged.iterate (input access) inputs t (world, [])).1]).Pairwise Keeps

/-- No tick while the reply to a rejected header waits. -/
def Undisturbed (x : FileTransfer × Input) : Prop :=
  x.1.replySize ≠ 0 → x.1.malformed = true → ¬(x.2 matches .tick _)

instance (x : FileTransfer × Input) : Decidable (Undisturbed x) :=
  inferInstanceAs (Decidable (_ → _ → ¬_))

/-! ## What a step does -/

variable {access} {t : FileTransfer} {s : Tally}

/-- What `Execute` leaves: a reply if there is more to come, and otherwise none. -/
structure Answers (t : FileTransfer) (r : Bool × FileTransfer) (s : Tally) : Prop where
  disconnected : r.2.disconnected = t.disconnected
  tally : s = { replies := if r.1 then 1 else 0 }
  waits : r.2.replySize ≠ 0 ↔ r.1 = true

theorem respond_tally {n : Nat} (hs : s.replies = 0) : tally.Obeys (t.respond n : Logged σ Call _) s fun t' s' =>
    s' = { s with replies := 1 } ∧ t' = t.prepare n :=
  .emit_bind hs (.pure ⟨by simp [tally, hs], rfl⟩)

theorem prepare_waits (t : FileTransfer) (n : Nat) : (t.prepare n).replySize ≠ 0 := by
  simp [prepare, kHeaderBytes]

section execute

variable (h : t.replySize = 0)

include h

theorem answers_none {t' : FileTransfer} (hd : t'.disconnected = t.disconnected) (hr : t'.replySize = t.replySize) :
    Answers t (false, t') {} :=
  ⟨hd, rfl, by simp [hr, h]⟩

theorem start_answers (op : Op) (arg0 arg1 : UInt32) (payload : Bytes) :
    tally.Obeys (t.start access op arg0 arg1 payload) {} (Answers t) := by
  refine .ite (fun _ => .pure (answers_none h rfl rfl)) fun _ => ?_
  refine .ite (fun _ => .pure (answers_none h rfl rfl)) fun _ => .call_bind (fun _ => trivial) fun r => ?_
  refine .ite (fun _ => .pure (answers_none h rfl rfl)) fun _ => .ite (fun _ => ?_) fun _ => ?_
  · have hmutate (t : FileTransfer) : tally.Obeys (t.mutate access op) {} fun _ s => s = {} :=
      .ite (fun _ => .call fun _ => ⟨trivial, rfl⟩) fun _ =>
        .ite (fun _ => .call fun _ => ⟨trivial, rfl⟩) fun _ => .call fun _ => ⟨trivial, rfl⟩
    refine (hmutate _).bind ?_
    rintro r _ rfl
    exact .pure (answers_none h rfl rfl)
  · have hopen (t : FileTransfer) : tally.Obeys (t.openTarget access) {} fun _ s => s = {} :=
      .ite (fun _ => .call fun _ => ⟨trivial, rfl⟩) fun _ =>
        .ite (fun _ => .call fun _ => ⟨trivial, rfl⟩) fun _ => .call fun _ => ⟨trivial, rfl⟩
    have hmeasure (t : FileTransfer) : tally.Obeys (t.measure access) {} fun t' s =>
        s = {} ∧ t'.disconnected = t.disconnected :=
      .ite (fun _ => .pure ⟨rfl, rfl⟩) fun _ => .call_bind (fun _ => trivial) fun _ => .pure ⟨rfl, rfl⟩
    refine (hopen _).bind ?_
    rintro r _ rfl
    refine .ite (fun _ => .pure (answers_none h rfl rfl)) fun _ => (hmeasure _).bind ?_
    rintro t' _ ⟨rfl, hd⟩
    refine (respond_tally rfl).bind ?_
    rintro _ _ ⟨rfl, rfl⟩
    exact .pure ⟨hd, rfl, iff_of_true (prepare_waits t' 0) rfl⟩

theorem proceed_answers (op : Option Op) (arg0 arg1 : UInt32) (payload : Bytes) :
    tally.Obeys (t.proceed access op arg0 arg1 payload) {} (Answers t) := by
  have hnone {status : TransferStatus} : Answers t (false, { t with status }) {} := answers_none h rfl rfl
  have hreply {t' : FileTransfer} {n : Nat} (hd : t'.disconnected = t.disconnected) :
      tally.Obeys (do
        let t ← t'.respond n
        pure (true, t) : Logged σ Call _) {} (Answers t) := by
    refine (respond_tally rfl).bind ?_
    rintro _ _ ⟨rfl, rfl⟩
    exact .pure ⟨hd, rfl, iff_of_true (prepare_waits t' n) rfl⟩
  refine .ite (fun _ => .pure hnone) fun _ => .ite (fun _ => .call_bind (fun _ => trivial) fun r => ?_) fun _ => ?_
  · exact .ite (fun _ => .pure hnone) fun _ => hreply rfl
  refine .ite (fun _ => .pure hnone) fun _ => .ite (fun _ => ?_) fun _ => .ite (fun _ => ?_) fun _ =>
    .ite (fun _ => ?_) fun _ => .pure hnone
  · exact .ite (fun _ => .pure hnone) fun _ => .call_bind (fun _ => trivial) fun r => .pure hnone
  · refine .call_bind (fun _ => trivial) fun r => .ite (fun _ => .pure hnone) fun _ => ?_
    exact .ite (fun _ => .pure hnone) fun _ => hreply rfl
  · have hfetch (n : Nat) : tally.Obeys (fetch access n) {} fun _ s => s = {} :=
      .ite (fun _ => .pure rfl) fun _ => .call fun _ => ⟨trivial, rfl⟩
    refine (hfetch _).bind ?_
    rintro r _ rfl
    refine .ite (fun _ => .pure (answers_none h rfl rfl)) fun _ => ?_
    exact .ite (fun _ => .pure (answers_none h rfl rfl)) fun _ => hreply rfl

theorem execute_answers : tally.Obeys (t.execute access) {} (Answers t) := by
  unfold execute
  dsimp only
  split
  · refine .ite (fun _ => ?_) fun _ => ?_
    · exact (start_answers (t := { t with operated := true, status := .ok }) h _ _ _ _).mono fun _ _ h => { h with }
    · exact (proceed_answers (t := { t with operated := true, status := .ok }) h _ _ _ _).mono fun _ _ h => { h with }
  · exact (proceed_answers (t := { t with operated := true, status := .ok }) h _ _ _ _).mono fun _ _ h => { h with }

end execute

/-- A cleanup counts a failure if there is one, and prepares a reply. -/
theorem cleanup_answers (hd : t.disconnected = false) :
    tally.Obeys (t.cleanup access) {} fun t' s =>
      s.replies = 1 ∧ t'.disconnected = false ∧ t'.replySize ≠ 0 ∧ t'.malformed = t.malformed := by
  have hshut : tally.Obeys (shut access { t with operated := true }) {} fun _ s => s = {} :=
    .ite (fun _ => .call_bind (fun _ => trivial) fun _ => .pure rfl) fun _ => .pure rfl
  have hdiscard (failed : Bool) (t : FileTransfer) : tally.Obeys (t.discard access failed) {} fun _ s => s = {} :=
    .ite (fun _ => .call_bind (fun _ => trivial) fun _ => .pure rfl) fun _ => .pure rfl
  have hunlease (t : FileTransfer) : tally.Obeys (t.unlease access) {} fun _ s => s = {} :=
    .ite (fun _ => .call fun _ => ⟨trivial, rfl⟩) fun _ => .pure rfl
  have hrecord (t : FileTransfer) : tally.Obeys (t.record : Logged σ Call _) {} fun t' s =>
      s.replies = 0 ∧ ∃ n, t' = { t with failures := n } :=
    .ite (fun _ => .emit_bind ⟨rfl, rfl⟩ (.pure ⟨rfl, _, rfl⟩)) fun _ => .pure ⟨rfl, _, rfl⟩
  refine hshut.bind ?_
  rintro failed _ rfl
  refine (hdiscard _ _).bind ?_
  rintro failed _ rfl
  refine (hunlease _).bind ?_
  rintro _ _ rfl
  refine (hrecord _).bind ?_
  rintro _ s ⟨hs, n, rfl⟩
  refine .ite (fun h => absurd (hd.symm.trans h) nofun) fun _ => (respond_tally hs).mono ?_
  rintro _ _ ⟨rfl, rfl⟩
  exact ⟨rfl, hd, prepare_waits _ 0, rfl⟩

/-! ## The request's way -/

/-- A request waits to be served. -/
structure Due (t : FileTransfer) : Prop where
  connected : t.disconnected = false
  replySize : t.replySize = 0
  complete : t.state = .receiving → (t.malformed = true ∨ t.received = t.needed ∧ t.checkHeader = t)

/-- Its reply waits to be sent. -/
structure Done (t : FileTransfer) : Prop where
  connected : t.disconnected = false
  replySize : t.replySize ≠ 0
  state : t.state = .receiving

/-- The ticks up to the reply. -/
def rank (t : FileTransfer) : Nat :=
  match t.state with
  | .receiving => 3
  | .executing => 2
  | .cleanup => 1

theorem checkHeader_idem (t : FileTransfer) : t.checkHeader.checkHeader = t.checkHeader := by
  unfold checkHeader
  dsimp only
  by_cases h : t.received = kHeaderBytes
  · rw [if_pos h]
    split
    · simp [h]
    · simp [h]
  · simp [h]

theorem checkHeader_frame : t.checkHeader.disconnected = t.disconnected ∧ t.checkHeader.replySize = t.replySize := by
  unfold checkHeader
  dsimp only
  split
  · split <;> exact ⟨rfl, rfl⟩
  · exact ⟨rfl, rfl⟩

theorem checkHeader_activity (a : Time) : checkHeader { t with activity := a } = { t.checkHeader with activity := a } := by
  unfold checkHeader
  dsimp only
  split
  · split <;> rfl
  · rfl

theorem feed_refused {bytes : Bytes} (h : t.Due ∨ t.Done) : (t.feed bytes now).2 = t := by
  unfold feed
  split
  · rfl
  · next hopen =>
    simp only [not_or, Decidable.not_not] at hopen
    rcases h with h | h
    · obtain hm | ⟨hall, hchecked⟩ := h.complete hopen.2.2.2
      · exact absurd hm hopen.2.2.1
      · have hsame : { t with
            request := Bytes.splice t.request t.received (bytes.take 0), received := t.received + 0 } = t := by
          simp [Bytes.splice]
        have hcount : min bytes.length (t.needed - t.received) = 0 := by omega
        simp only [hcount, ne_eq, not_true_eq_false, if_false, hsame, hchecked]
    · exact absurd hopen.1 h.replySize

theorem Due.tick (h : t.Due) (hexp : t.expired now = false) :
    tally.Obeys (t.tick access now) {} fun t' s =>
      t'.Due ∧ s = {} ∧ t'.rank < t.rank ∧ t.state ≠ .cleanup ∨ t'.Done ∧ s.replies = 1 := by
  unfold FileTransfer.tick
  dsimp only
  rw [hexp]
  split
  · next hs =>
    refine .pure (.inl ?_)
    unfold receivingStep
    split
    · exact ⟨⟨h.connected, rfl, nofun⟩, rfl, by simp [rank, hs], by rw [hs]; nofun⟩
    · next hgood =>
      simp only [not_or] at hgood
      obtain hm | hall := h.complete hs
      · exact absurd hm hgood.2.2
      · rw [if_pos ⟨h.replySize, hall.1⟩]
        exact ⟨⟨h.connected, h.replySize, nofun⟩, rfl, by simp [rank, hs], by rw [hs]; nofun⟩
  · next hs =>
    have hlt : 1 < t.rank := by simp [rank, hs]
    have hne : t.state ≠ .cleanup := by rw [hs]; nofun
    refine .ite (fun _ => .pure (.inl ⟨⟨h.connected, h.replySize, nofun⟩, rfl, hlt, hne⟩)) fun _ => ?_
    refine Monitor.Obeys.bind (execute_answers h.replySize) ?_
    rintro ⟨more, t'⟩ s ⟨hd, rfl, hw⟩
    refine .pure ?_
    cases more with
    | true => exact .inr ⟨⟨hd.trans h.connected, hw.mpr rfl, rfl⟩, rfl⟩
    | false =>
      have hw : t'.replySize = 0 := by simpa using hw
      exact .inl ⟨⟨hd.trans h.connected, hw, nofun⟩, rfl, hlt, hne⟩
  · refine (cleanup_answers h.connected).bind fun t' s hc => .pure (.inr ⟨⟨hc.2.1, hc.2.2.1, rfl⟩, hc.1⟩)

/-- A reply that waits is left alone, unless a rejected header comes up again. -/
theorem Done.tick (h : t.Done) (hexp : t.expired now = false) : t.tick access now =
    pure (if t.malformed then { t with operated := false, status := .invalid, replySize := 0, state := .cleanup }
      else { t with operated := false }) := by
  simp [FileTransfer.tick, h.state, receivingStep, hexp, h.connected, h.replySize]

theorem completedAt_same (now : Time) : ∃ a, t.completedAt now = { t with activity := a } := by
  unfold completedAt
  split
  · exact ⟨_, rfl⟩
  · exact ⟨_, rfl⟩

theorem Done.input (h : t.Done) (hi : t.Awaits i) (hquiet : Undisturbed (t, i)) :
    ∃ t', t.input access i = pure t' ∧ t'.Done ∧ t'.replySize = t.replySize ∧ t'.output = t.output := by
  cases i with
  | feed bytes now => exact ⟨t, congrArg pure (feed_refused (.inr h)), h, rfl, rfl⟩
  | tick now =>
    have hm : t.malformed = false := by
      by_contra hm
      exact hquiet h.replySize (by simpa using hm) rfl
    exact ⟨{ t with operated := false }, (h.tick hi).trans (by rw [hm]; rfl), { h with }, rfl, rfl⟩
  | completedAt now =>
    obtain ⟨a, ha⟩ := completedAt_same (t := t) now
    exact ⟨_, congrArg pure ha, { h with }, rfl, rfl⟩
  | sent now | disconnect => exact hi.elim

theorem Due.input (h : t.Due) (hi : t.Awaits i) :
    tally.Obeys (t.input access i) {} fun t' s => t'.Due ∧ s = {} ∧ t'.rank + [i].countP (· matches .tick _) ≤ t.rank ∧
      Cleans (t, i) = false ∨ t'.Done ∧ s.replies = 1 := by
  cases i with
  | feed bytes now =>
    refine .pure (.inl ?_)
    rw [feed_refused (.inl h)]
    exact ⟨h, rfl, Nat.le_refl _, by simp [Cleans]⟩
  | tick now =>
    refine (h.tick hi).mono fun t' s => Or.imp_left ?_
    rintro ⟨hdue, hs, hlt, hne⟩
    exact ⟨hdue, hs, hlt, by simp [Cleans, hne]⟩
  | completedAt now =>
    refine .pure (.inl ?_)
    obtain ⟨a, ha⟩ := completedAt_same (t := t) now
    rw [ha]
    refine ⟨⟨h.connected, h.replySize, fun hs => (h.complete hs).imp id fun hc => ⟨hc.1, ?_⟩⟩, rfl,
      Nat.le_refl _, by simp [Cleans]⟩
    rw [checkHeader_activity, hc.2]
  | sent now | disconnect => exact hi.elim

/-! ## Runs -/

variable {inputs : List Input} {w : σ × List Call}

theorem Done.run (h : t.Done) (hin : ∀ x ∈ steps access inputs t w, x.1.Awaits x.2 ∧ Undisturbed x) :
    (Logged.iterate (FileTransfer.input access) inputs t w).2 = w ∧ (steps access inputs t w).countP Cleans = 0 ∧
      ∀ t' ∈ (steps access inputs t w).map Prod.fst ++ [(Logged.iterate (FileTransfer.input access) inputs t w).1],
        t'.replySize = t.replySize ∧ t'.output = t.output := by
  induction inputs generalizing t with
  | nil => exact ⟨rfl, rfl, by simp [steps, Logged.iterate, Logged.pure_apply]⟩
  | cons i inputs ih =>
    obtain ⟨hi, hin⟩ := List.forall_mem_cons.mp hin
    obtain ⟨t', ht', hdone, hsize, hout⟩ := h.input hi.1 hi.2
    rw [ht'] at hin
    obtain ⟨hw, hclean, hkept⟩ := ih hdone hin
    simp only [steps, Logged.iterate, Logged.bind_apply, ht', Logged.pure_apply]
    refine ⟨hw, ?_, ?_⟩
    · rw [List.countP_cons, hclean]
      simp [Cleans, h.state]
    · refine List.forall_mem_cons.mpr ⟨⟨rfl, rfl⟩, fun x hx => ?_⟩
      rw [← hsize, ← hout]
      exact hkept x hx

theorem Due.run (h : t.Due) (hacc : tally.Accepts w.2) (hs : tally.after w.2 = {})
    (hin : ∀ x ∈ steps access inputs t w, x.1.Awaits x.2 ∧ Undisturbed x) :
    tally.Accepts (Logged.iterate (FileTransfer.input access) inputs t w).2.2 ∧
      (t.rank ≤ inputs.countP (· matches .tick _) →
        (tally.after (Logged.iterate (FileTransfer.input access) inputs t w).2.2).replies = 1) ∧
      (steps access inputs t w).countP Cleans ≤ 1 ∧
      ((steps access inputs t w).map Prod.fst ++
        [(Logged.iterate (FileTransfer.input access) inputs t w).1]).Pairwise Keeps := by
  induction inputs generalizing t w with
  | nil =>
    refine ⟨hacc, fun hle => absurd hle ?_, Nat.zero_le _, List.pairwise_singleton _ _⟩
    unfold rank
    split <;> simp
  | cons i inputs ih =>
    obtain ⟨hi, hin⟩ := List.forall_mem_cons.mp hin
    obtain ⟨hacc', hnext⟩ := h.input hi.1 w hacc hs
    have hkeeps (t' : FileTransfer) : Keeps t t' := fun hne => absurd h.replySize hne
    simp only [steps, Logged.iterate, Logged.bind_apply, List.countP_cons, List.map_cons, List.cons_append,
      List.pairwise_cons]
    rcases hnext with ⟨hdue, hs', hrank, hclean⟩ | ⟨hdone, hone⟩
    · obtain ⟨h₁, h₂, h₃, h₄⟩ := ih hdue hacc' hs' hin
      refine ⟨h₁, fun hle => h₂ ?_, by simpa [hclean] using h₃, fun t' _ => hkeeps t', h₄⟩
      simp only [List.countP_singleton] at hrank
      dsimp only
      omega
    · obtain ⟨hw, hclean, hkept⟩ := hdone.run hin
      rw [hw, hclean]
      refine ⟨hacc', fun _ => hone, by split <;> simp, fun t' _ => hkeeps t', ?_⟩
      refine List.pairwise_of_forall_mem_list fun x hx y hy _ => ?_
      rw [(hkept x hx).1, (hkept x hx).2]
      exact hkept y hy

theorem undisturbed_of_kept (h : t.Due ∧ tally.Accepts w.2 ∧ tally.after w.2 = {} ∨ t.Done)
    (hin : ∀ x ∈ steps access inputs t w, x.1.Awaits x.2)
    (hkept : ((steps access inputs t w).map Prod.fst ++
      [(Logged.iterate (FileTransfer.input access) inputs t w).1]).Pairwise Keeps) :
    ∀ x ∈ steps access inputs t w, Undisturbed x := by
  induction inputs generalizing t w with
  | nil => simp [steps]
  | cons i inputs ih =>
    rw [steps, List.forall_mem_cons] at hin ⊢
    obtain ⟨hi, hin⟩ := hin
    simp only [steps, Logged.iterate, Logged.bind_apply, List.map_cons, List.cons_append, List.pairwise_cons] at hkept
    obtain ⟨hnext, hkept⟩ := hkept
    have hquiet : Undisturbed (t, i) := by
      rintro hsize hm htick
      obtain ⟨h, -⟩ | h := h
      · exact hsize h.replySize
      cases i with
      | tick now =>
        have hk := hnext (t.input access (.tick now) w).1 (by cases inputs <;> simp [steps, Logged.iterate, Logged.pure_apply])
        have htick : t.input access (.tick now) = _ := h.tick hi
        rw [htick, hm] at hk
        exact hsize (hk hsize).1.symm
      | _ => cases htick
    refine ⟨hquiet, ih ?_ hin hkept⟩
    rcases h with ⟨h, hacc, hs⟩ | h
    · obtain ⟨hacc', ⟨hdue, hs', -⟩ | ⟨hdone, -⟩⟩ := h.input hi w hacc hs
      · exact .inl ⟨hdue, hacc', hs'⟩
      · exact .inr hdone
    · obtain ⟨t', ht' : t.input access i = _, hdone, -⟩ := h.input hi hquiet
      rw [ht']
      exact .inr hdone

end FileTransfer

open FileTransfer

/-- **One reply for each request.** A feed completes a request, or has its header rejected. From then on, with no
timeout, no disconnect and not yet `sent`, and whatever the lease and the volume answer: one reply is prepared,
after three ticks at the latest, and stays; one failure is counted at most, and one cleanup runs at most; exactly
if no tick comes while the reply to a rejected header waits. -/
theorem request_answered_once {σ : Type} (access : FileAccess σ) (world : σ) (t₀ : FileTransfer) (bytes : Bytes)
    (now : Time) (inputs : List Input)
    (hopen : t₀.state = .receiving ∧ t₀.replySize = 0 ∧ t₀.disconnected = false ∧ t₀.malformed = false)
    (hrequest : (t₀.feed bytes now).2.malformed = true ∨ (t₀.feed bytes now).2.received = (t₀.feed bytes now).2.needed)
    (hin : ∀ x ∈ steps access inputs (t₀.feed bytes now).2 (world, []), x.1.Awaits x.2) :
    AnsweredOnce access inputs (t₀.feed bytes now).2 world ↔
      ∀ x ∈ steps access inputs (t₀.feed bytes now).2 (world, []), Undisturbed x := by
  have hdue : (t₀.feed bytes now).2.Due := by
    revert hrequest
    unfold feed
    rw [if_neg (by simp [hopen])]
    exact fun hrequest => ⟨by simp [checkHeader_frame, hopen], by simp [checkHeader_frame, hopen], fun _ =>
      hrequest.imp id fun h => ⟨h, checkHeader_idem _⟩⟩
  refine ⟨fun h => undisturbed_of_kept (.inl ⟨hdue, tally.accepts_nil, rfl⟩) hin h.kept, fun h => ?_⟩
  obtain ⟨h₁, h₂, h₃, h₄⟩ := hdue.run tally.accepts_nil rfl fun x hx => ⟨hin x hx, h x hx⟩
  refine ⟨h₁, fun hle => h₂ (Nat.le_trans ?_ hle), h₃, h₄⟩
  unfold rank
  split <;> decide

/-- The lease and the volume, if all goes well. -/
def smooth : FileAccess Unit where
  present := true
  reserve _ _ := (.ok, ())
  release _ := ()
  create _ _ := (.ok, ())
  openFile _ _ := (.ok, ())
  openDirectory _ _ := (.ok, ())
  remove _ _ := (.ok, ())
  mkdir _ _ := (.ok, ())
  rmdir _ _ := (.ok, ())
  write bytes _ := ((.ok, UInt32.ofNat bytes.length), ())
  sync _ := (.ok, ())
  next _ := ((.ok, default), ())
  read n _ := ((.ok, UInt32.ofNat n, List.replicate n 0), ())
  close _ := (.ok, ())
  size _ := 0

/-- A new transfer that has been fed a header of zeros. -/
def rejectedHeader : FileTransfer := (({} : FileTransfer).feed (List.replicate kHeaderBytes 0) 0).2

theorem request_answered_once_rejected : AnsweredOnce smooth [.tick 0, .tick 0] rejectedHeader () :=
  (request_answered_once smooth () {} (List.replicate kHeaderBytes 0) 0 [.tick 0, .tick 0] (by decide)
    (by decide +kernel) (by decide +kernel)).mpr (by decide +kernel)

/-- With two more ticks before the reply is sent the rejected header fails twice. -/
theorem rejected_header_fails_twice : rejectedHeader.malformed = true ∧
    (∀ x ∈ steps smooth [.tick 0, .tick 0, .tick 0, .tick 0] rejectedHeader ((), []), x.1.Awaits x.2) ∧
    (Logged.iterate (input smooth) [.tick 0, .tick 0, .tick 0, .tick 0] rejectedHeader ((), [])).2.2 =
      [.failure .invalid, .reply .invalid, .failure .invalid, .reply .invalid] ∧
    ¬AnsweredOnce smooth [.tick 0, .tick 0, .tick 0, .tick 0] rejectedHeader () := by
  have hlog : (Logged.iterate (input smooth) [.tick 0, .tick 0, .tick 0, .tick 0] rejectedHeader ((), [])).2.2 =
      [.failure .invalid, .reply .invalid, .failure .invalid, .reply .invalid] := by decide +kernel
  refine ⟨by decide +kernel, by decide +kernel, hlog, fun h => ?_⟩
  have haccepts := h.accepts
  rw [hlog] at haccepts
  exact absurd (haccepts [.failure .invalid, .reply .invalid] _ _ rfl).1 (by decide)

end DaveOs.Storage
