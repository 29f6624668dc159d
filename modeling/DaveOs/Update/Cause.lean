import DaveOs.Update.Identity

/-!
# What a failed installation reports

An installation can end in `failed` by an answer of the journal, by an abort, by a failure of the engine's
own or by the loss of its authorization. `Account` keeps account of these from outside, and
`failure_reports_cause` compares it with what the engine reports. The engine keeps the reason in a field
that `begin` does not reset, and the loss of the authorization does not set it. So that cause is reported
by whatever reason an earlier installation has left there.
-/

namespace DaveOs.Update

open Boot Bytes Crash

/-- A reason that has been given for the end of an installation. -/
inductive Reason
  | abort (status : Status)
  | failure (status : Status)
  deriving DecidableEq, Repr

def Reason.status : Reason → Status
  | abort status => status
  | failure status => status

/-- The account of one installation: the reasons given for its end, the newest first, whether it was
aborted for lack of authorization, and the reason that was left from before it. -/
structure Account where
  reasons : List Reason := []
  withdrawn : Bool := false
  stale : Status := .rejected
  deriving DecidableEq, Repr

namespace Account

/-- The account after a call that took `e` to `e'` with this answer. -/
def after (L : Account) (e : Engine) (call : EngineCall) (answer : Option Status) (e' : Engine) : Account :=
  match call with
  | .begin _ _ => if answer = some .ok then { stale := e.abortReason } else L
  | .abort reason => if e.active then { L with reasons := .abort reason :: L.reasons } else L
  | .tick =>
    if e'.state = .aborting ∧ e.state ≠ .aborting then
      { L with
        reasons := if e.authorized ∧ ¬e.abortRequested then .failure e'.abortReason :: L.reasons
          else L.reasons
        withdrawn := L.withdrawn || !e.authorized }
    else L
  | _ => L

/-- The status is a cause of this installation's end; `journal` are the answers by which the journal has
ended it. -/
def Own (L : Account) (journal : Status → Prop) (status : Status) : Prop :=
  status ≠ .ok ∧
    (status ∈ L.reasons.map Reason.status ∨ journal status ∨ L.withdrawn = true ∧ status = .rejected)

/-- The last reason is one to report; without any, what is left from before says what it should. -/
def Named (L : Account) : Prop :=
  match L.reasons with
  | [] => L.stale = .rejected
  | reason :: _ => reason ≠ .abort .ok

instance (L : Account) : Decidable L.Named := by
  unfold Named
  split <;> infer_instance

/-- The account agrees with the engine. -/
structure Books (L : Account) (e : Engine) : Prop where
  honest : e.reader.Honest
  requested : e.resting = false → e.requested = false
  asked : e.active = true → e.abortRequested = !L.reasons.isEmpty
  last : e.active = true → ∀ r rest, L.reasons = r :: rest → e.abortReason = r.status
  stale : e.active = true → L.reasons = [] → e.abortReason = L.stale
  lost : e.state = .aborting → L.reasons = [] → L.withdrawn = true
  failure : ∀ r, .failure r ∈ L.reasons → r ≠ .ok

end Account

namespace Engine

variable {e' : Engine} {σ : Type} {flash : Flash σ} {layout : Layout} {s : σ} {call : EngineCall}

section flash

variable {σ : Type} (flash : Flash σ) (layout : Layout)

/-- Calls, with the account of the installation they are about. -/
def narrate : List EngineCall → Account × Engine → Crash σ (Account × Engine)
  | [], x => pure x
  | call :: calls, x => do
    let (a, e) ← x.2.answer flash layout call
    narrate calls (x.1.after x.2 call a e, e)

end flash

/-- The call takes the engine into `failed`, from another state or at the end of another installation. -/
def EntersFailed (e : Engine) (call : EngineCall) (e' : Engine) : Prop :=
  e'.state = .failed ∧ (e.state ≠ .failed ∨ call = .tick ∧ e.active = true)

/-- Nothing the account looks at has changed. -/
structure Unmoved (e e' : Engine) : Prop where
  reader : e'.reader = e.reader
  state : e'.state = e.state
  requested : e'.requested = e.requested
  abortReason : e'.abortReason = e.abortReason
  abortRequested : e'.abortRequested = e.abortRequested

theorem Unmoved.refl (e : Engine) : e.Unmoved e := ⟨rfl, rfl, rfl, rfl, rfl⟩

theorem Unmoved.active {e : Engine} (h : e.Unmoved e') : e'.active = e.active := by
  simp only [Engine.active, resting, h.requested, h.state]

theorem Unmoved.books {e : Engine} {L : Account} (h : e.Unmoved e') (hb : L.Books e) :
    L.Books e' where
  honest := by
    rw [h.reader]
    exact hb.honest
  requested hr := by
    rw [h.requested]
    refine hb.requested ?_
    simpa only [resting, h.state] using hr
  asked ha := by
    rw [h.abortRequested]
    exact hb.asked (h.active ▸ ha)
  last ha := by
    rw [h.abortReason]
    exact hb.last (h.active ▸ ha)
  stale ha := by
    rw [h.abortReason]
    exact hb.stale (h.active ▸ ha)
  lost hs := hb.lost (h.state ▸ hs)
  failure := hb.failure

variable {e : Engine}

theorem unmoved_chunk (offset : Nat) (data : Bytes) (crc : UInt32) :
    e.Unmoved (e.chunk offset data crc).2 := by
  unfold chunk
  split
  · exact .refl e
  split
  · exact .refl e
  split
  · exact .refl e
  · exact { Unmoved.refl e with }

theorem unmoved_reserve (owner : Option Nat) : e.Unmoved (e.reserve owner).2 := by
  unfold reserve
  split
  · exact .refl e
  split
  · exact .refl e
  · exact { Unmoved.refl e with }

theorem unmoved_release (owner : Option Nat) : e.Unmoved (e.release owner) := by
  unfold release
  split
  · exact { Unmoved.refl e with }
  · exact .refl e

theorem unmoved_bindRunningSlot (slot : Nat) : e.Unmoved (e.bindRunningSlot slot).2 := by
  unfold bindRunningSlot
  split
  · exact .refl e
  split
  · exact .refl e
  · exact { Unmoved.refl e with }

theorem answer_state (hcall : call ≠ .tick) :
    Wp (e.answer flash layout call) (fun _ => True) (fun a _ => a.2.state = e.state) s := by
  cases call with
  | begin header owner => exact .bind begun fun a s' hb => .pure hb.state
  | chunk offset data crc => exact .pure (unmoved_chunk offset data crc).state
  | abort reason => exact .pure (e.alike_abort reason).state
  | enable value => exact .pure rfl
  | reserve owner => exact .pure (unmoved_reserve owner).state
  | release owner => exact .pure (unmoved_release owner).state
  | runningSlot slot => exact .pure (unmoved_bindRunningSlot slot).state
  | tick => exact absurd rfl hcall

theorem EntersFailed.tick {a : Option Status} {s' : σ} (h : e.EntersFailed call e')
    (hrun : e.answer flash layout call s = (some (a, e'), s')) :
    call = .tick ∧ e.tick flash layout s = (some e', s') := by
  obtain ⟨hfailed, hbefore⟩ := h
  by_cases hcall : call = .tick
  · subst hcall
    refine ⟨rfl, ?_⟩
    rcases htick : e.tick flash layout s with ⟨_ | e₁, s₁⟩
    · rw [answer, bind_of_none htick] at hrun
      cases hrun
    · rw [answer, bind_of_some htick] at hrun
      cases hrun
      rfl
  · have hstate := (answer_state hcall).of_some hrun
    rcases hbefore with hne | ⟨htick, -⟩
    · exact absurd (hstate.symm.trans hfailed) hne
    · exact absurd htick hcall

end Engine

namespace Account.Books

variable {L : Account} {e e' : Engine} {lost : Bool}

theorem fresh (slot : Nat) (inactivity : Time) :
    Books {} { runningSlot := slot, inactivity } where
  honest := nofun
  requested := nofun
  asked := nofun
  last := nofun
  stale := nofun
  lost := nofun
  failure := nofun

theorem accepted (h : L.Books e) (hb : e.Begun .ok e') : Books { stale := e.abortReason } e' := by
  obtain ⟨hidle, -, hasked⟩ := hb.accepted rfl
  have hrest : e'.resting = true := by
    rw [Engine.resting, hb.state]
    exact (Engine.active_eq_false.mp hidle).2
  exact
    { honest := hb.reader ▸ h.honest
      requested := fun hr => by rw [hrest] at hr; cases hr
      asked := fun _ => hasked
      last := by simp
      stale := fun _ _ => hb.abortReason
      lost := fun hs => by simp [Engine.resting, hs] at hrest
      failure := by simp }

theorem given (h : L.Books e) {r : Reason} (hne : ∀ status, r = .failure status → status ≠ .ok)
    (hreader : e'.reader.Honest) (hreq : e'.resting = false → e'.requested = false)
    (hreason : e'.abortReason = r.status) (hasked : e'.abortRequested = true) :
    Books { L with reasons := r :: L.reasons, withdrawn := lost } e' where
  honest := hreader
  requested := hreq
  asked _ := hasked
  last _ r' rest heq := by
    obtain ⟨rfl, -⟩ := List.cons.inj heq
    exact hreason
  stale _ := nofun
  lost _ := nofun
  failure status hmem := by
    rcases List.mem_cons.mp hmem with heq | hmem
    · exact hne status heq.symm
    · exact h.failure status hmem

theorem onward (h : L.Books e) (hreader : e'.reader.Honest) (hreq : e'.requested = false)
    (hactive : e'.active = true → e.active = true ∧ e'.abortReason = e.abortReason ∧
      e'.abortRequested = e.abortRequested)
    (hlost : e'.state = .aborting → L.reasons = [] → lost = true) :
    Books { L with withdrawn := lost } e' where
  honest := hreader
  requested _ := hreq
  asked ha := (hactive ha).2.2.trans (h.asked (hactive ha).1)
  last ha r rest heq := (hactive ha).2.1.trans (h.last (hactive ha).1 r rest heq)
  stale ha hnone := (hactive ha).2.1.trans (h.stale (hactive ha).1 hnone)
  lost := hlost
  failure := h.failure

variable {σ : Type} {flash : Flash σ} {layout : Layout} {s : σ}

/-- **One tick** keeps the books. -/
theorem tick (h : L.Books e) :
    Wp (e.tick flash layout) (fun _ => True) (fun e' _ => (L.after e .tick none e').Books e') s := by
  have hidle : Wp (e.tick flash layout) (fun _ => True)
      (fun e' _ => e'.active = true → e.active = true) s := by
    cases ha : e.active with
    | true => exact Wp.trivial.conseq fun _ _ _ _ => rfl
    | false => exact (Engine.tick_idle ha).conseq fun e' _ hi ha' => by rw [hi] at ha'; cases ha'
  refine ((Engine.told_tick.adding (Engine.tick_unrequested h.requested)).adding hidle).conseq ?_
  rintro e' s' ⟨⟨⟨hk, hturn⟩, hreq⟩, hact⟩
  have hreader := hk.reader h.honest
  have hover (hs : e'.state = .failed) : ¬e'.active = true := by
    simp [Engine.active, hreq, Engine.resting, hs]
  simp only [Account.after]
  cases hturn with
  | onward reason asked going aborting =>
    split
    · next hst =>
      -- The abort was asked for before, or the authorization is lost.
      have hcause := aborting hst.1 hst.2
      rw [if_neg (by rintro ⟨h1, h2⟩; rcases hcause with hc | hc <;> simp_all)]
      refine h.onward hreader hreq (fun ha => ⟨hact ha, reason, asked⟩) fun _ hnone => ?_
      have hactive : e.active = true := hact (by simp [Engine.active, Engine.resting, hst.1])
      have hasked := h.asked hactive
      rw [hnone] at hasked
      rcases hcause with hc | hc
      · simp [hc]
      · rw [hc] at hasked
        cases hasked
    · next hst =>
      refine h.onward hreader hreq (fun ha => ⟨hact ha, reason, asked⟩) fun hs hnone => ?_
      exact h.lost (Decidable.not_not.mp fun hne => hst ⟨hs, hne⟩) hnone
  | failing authorized fresh working state asked reason =>
    rw [if_pos ⟨state, working⟩, if_pos ⟨authorized, by simp [fresh]⟩]
    refine h.given ?_ hreader (fun _ => hreq) rfl asked
    rintro status ⟨⟩
    exact reason h.honest
  | refused fails state | ended working clean state status =>
    rw [if_neg fun hst => by rw [state] at hst; cases hst.1]
    exact h.onward hreader hreq (fun ha => absurd ha (hover state)) fun hs => by rw [state] at hs; cases hs

/-- **One call** keeps the books. -/
theorem answer (h : L.Books e) (call : EngineCall) :
    Wp (e.answer flash layout call) (fun _ => True) (fun a _ => (L.after e call a.1 a.2).Books a.2) s := by
  cases call with
  | begin header owner =>
    refine .bind Engine.begun ?_
    rintro ⟨result, e'⟩ s' hb
    refine .pure ?_
    simp only [Account.after, Option.some.injEq]
    split
    · next hr => exact h.accepted (hr ▸ hb)
    · next hr =>
      obtain ⟨hreq, hasked⟩ := hb.refused hr
      exact Engine.Unmoved.books ⟨hb.reader, hb.state, hreq, hb.abortReason, hasked⟩ h
  | chunk offset data crc => exact .pure ((Engine.unmoved_chunk offset data crc).books h)
  | abort reason =>
    refine .pure ?_
    simp only [Account.after, Engine.abort]
    split
    · exact h.given nofun h.honest h.requested rfl rfl
    · exact h
  | enable value => exact .pure (Engine.Unmoved.books { Engine.Unmoved.refl e with } h)
  | reserve owner => exact .pure ((Engine.unmoved_reserve owner).books h)
  | release owner => exact .pure ((Engine.unmoved_release owner).books h)
  | runningSlot slot => exact .pure ((Engine.unmoved_bindRunningSlot slot).books h)
  | tick => exact .bind h.tick fun e' s' h' => .pure h'

/-- **Any calls** keep the books. -/
theorem narrate : ∀ {calls : List EngineCall} {x : Account × Engine} {s : σ}, x.1.Books x.2 →
    Wp (Engine.narrate flash layout calls x) (fun _ => True) (fun y _ => y.1.Books y.2) s := by
  intro calls
  induction calls with
  | nil => exact fun h => .pure h
  | cons call calls ih => exact fun h => .bind (h.answer call) fun a s' h' => ih h'

end Account.Books

/-- **A failed installation reports its own cause**, unless it has ended for lack of authorization alone
while the reason of an earlier installation is still there, or its last abort gave `ok` as the reason. The
run is one of any calls from a fresh engine on, over any number of installations. -/
theorem failure_reports_cause {σ : Type} (flash : Flash σ) (layout : Layout) (slot : Nat)
    (inactivity : Time) (calls : List EngineCall) (call : EngineCall) (s s₁ s₂ : σ) (L : Account)
    (e e' : Engine) (a : Option Status)
    (hrun : Engine.narrate flash layout calls ({}, { runningSlot := slot, inactivity }) s =
      (some (L, e), s₁))
    (hcall : e.answer flash layout call s₁ = (some (a, e'), s₂)) (hfailed : e.EntersFailed call e') :
    L.Own (e.JournalFails flash layout s₁) e'.status ↔
      (∃ r, e.JournalFails flash layout s₁ r) ∨ L.Named := by
  have hb : L.Books e := (Account.Books.narrate (Account.Books.fresh slot inactivity)).of_some hrun
  obtain ⟨rfl, htick⟩ := hfailed.tick hcall
  obtain ⟨hfailed, hbefore⟩ := hfailed
  obtain ⟨-, hturn⟩ := Engine.told_tick.of_some htick
  cases hturn with
  | onward reason asked going aborting =>
    obtain ⟨hstate, hidle⟩ := going hfailed
    rcases hbefore with hne | ⟨-, hactive⟩
    · exact absurd hstate hne
    · rw [hidle] at hactive
      cases hactive
  | failing authorized fresh working state =>
    rw [hfailed] at state
    cases state
  | refused fails state => exact iff_of_true ⟨fails.1, .inr (.inl fails)⟩ (.inl ⟨_, fails⟩)
  | ended working clean state status =>
    have hactive : e.active = true := by simp [Engine.active, Engine.resting, working]
    rw [status]
    have hnot : ¬∃ r, e.JournalFails flash layout s₁ r := not_exists.mpr clean
    rw [or_iff_right hnot]
    unfold Account.Own Account.Named
    cases hreasons : L.reasons with
    | nil =>
      rw [hb.stale hactive hreasons]
      constructor
      · rintro ⟨-, hmem | hj | ⟨-, hr⟩⟩
        · cases hmem
        · exact absurd hj (clean _)
        · exact hr
      · intro hr
        simp only at hr
        rw [hr]
        exact ⟨by decide, .inr (.inr ⟨hb.lost working hreasons, rfl⟩)⟩
    | cons reason rest =>
      rw [hb.last hactive reason rest hreasons]
      constructor
      · rintro ⟨hok, -⟩ rfl
        exact hok rfl
      · intro hne
        refine ⟨?_, .inl List.mem_cons_self⟩
        cases reason with
        | abort status =>
          rintro rfl
          exact hne rfl
        | failure status =>
          refine hb.failure status ?_
          rw [hreasons]
          exact List.mem_cons_self

def newEngine : Engine := { runningSlot := 0 }

/-- An installation that is aborted with `timeout`, up to its last tick. -/
def timedOutCalls : List EngineCall :=
  [.enable true, .begin tinyHeader none, .abort .timeout, .tick, .tick, .tick]

/-- After it an installation that loses its authorization, up to its last tick. -/
def withdrawnCalls : List EngineCall :=
  timedOutCalls ++ [.tick, .begin tinyHeader none, .enable false, .tick, .tick, .tick]

/-- The end of an installation on the flash that cannot be written: the account, what the journal loads,
and what the engine reports. -/
def lastTick (calls : List EngineCall) :
    Option (Account × EngineState × Option (Status × ImageState) × EngineState × Status) :=
  (Engine.narrate (wornFlash newSnapshot) (tinyLayout 256 16) calls ({}, newEngine) ()).1.bind fun x =>
    (x.2.tick (wornFlash newSnapshot) (tinyLayout 256 16) ()).1.map fun e' =>
      (x.1, x.2.state, (x.2.load (wornFlash newSnapshot) (tinyLayout 256 16) ()).1.map
        (fun a => (a.1, (a.2.snapshot.images.get a.2.destination).state)), e'.state, e'.status)

theorem lastTick_eq_some {calls : List EngineCall} {L : Account} {st st' : EngineState}
    {loaded : Option (Status × ImageState)} {status : Status}
    (h : lastTick calls = some (L, st, loaded, st', status)) :
    ∃ e e', Engine.narrate (wornFlash newSnapshot) (tinyLayout 256 16) calls ({}, newEngine) () =
        (some (L, e), ()) ∧
      e.answer (wornFlash newSnapshot) (tinyLayout 256 16) .tick () = (some (none, e'), ()) ∧
      e.state = st ∧ e'.state = st' ∧ e'.status = status ∧
      (e.load (wornFlash newSnapshot) (tinyLayout 256 16) ()).1.map
        (fun a => (a.1, (a.2.snapshot.images.get a.2.destination).state)) = loaded := by
  unfold lastTick at h
  obtain ⟨⟨L', e⟩, hrun, hlast⟩ := Option.bind_eq_some_iff.mp h
  obtain ⟨e', htick, heq⟩ := Option.map_eq_some_iff.mp hlast
  obtain ⟨rfl, rfl, rfl, rfl, rfl⟩ : L' = L ∧ e.state = st ∧ _ = loaded ∧ e'.state = st' ∧
      e'.status = status := by
    simpa only [Prod.mk.injEq] using heq
  have htick' : e.tick (wornFlash newSnapshot) (tinyLayout 256 16) () = (some e', ()) :=
    Prod.ext htick rfl
  refine ⟨e, e', Prod.ext hrun rfl, ?_, rfl, rfl, rfl, rfl⟩
  rw [Engine.answer, bind_of_some htick']
  rfl

theorem failure_reports_cause_timedOut :
    ∃ L e e', Engine.narrate (wornFlash newSnapshot) (tinyLayout 256 16) timedOutCalls ({}, newEngine) () =
        (some (L, e), ()) ∧
      e.answer (wornFlash newSnapshot) (tinyLayout 256 16) .tick () = (some (none, e'), ()) ∧
      e'.status = .timeout ∧
      L.Own (e.JournalFails (wornFlash newSnapshot) (tinyLayout 256 16) ()) e'.status := by
  have hlast : lastTick timedOutCalls = some ({ reasons := [.abort .timeout] }, .aborting,
      some (.ok, .incomplete), .failed, .timeout) := by
    decide +kernel
  obtain ⟨e, e', hrun, htick, hstate, hstate', hstatus, -⟩ := lastTick_eq_some hlast
  refine ⟨_, e, e', hrun, htick, hstatus, ?_⟩
  refine (failure_reports_cause _ _ 0 _ timedOutCalls .tick () () () _ e e' none hrun htick
    ⟨hstate', .inl ?_⟩).mpr (.inr ?_)
  · rw [hstate]
    decide
  · exact (by decide : Reason.abort .timeout ≠ .abort .ok)

/-- The second installation has lost its authorization and no reason was given, but it reports the
`timeout` of the first. -/
theorem cause_misreported :
    ∃ L e e', Engine.narrate (wornFlash newSnapshot) (tinyLayout 256 16) withdrawnCalls ({}, newEngine) () =
        (some (L, e), ()) ∧
      e.answer (wornFlash newSnapshot) (tinyLayout 256 16) .tick () = (some (none, e'), ()) ∧
      e.EntersFailed .tick e' ∧ L = { withdrawn := true, stale := .timeout } ∧ e'.status = .timeout ∧
      ¬L.Own (e.JournalFails (wornFlash newSnapshot) (tinyLayout 256 16) ()) e'.status := by
  have hlast : lastTick withdrawnCalls = some ({ withdrawn := true, stale := .timeout }, .aborting,
      some (.ok, .incomplete), .failed, .timeout) := by
    decide +kernel
  obtain ⟨e, e', hrun, htick, hstate, hstate', hstatus, hload⟩ := lastTick_eq_some hlast
  refine ⟨_, e, e', hrun, htick, ⟨hstate', .inl ?_⟩, rfl, hstatus, ?_⟩
  · rw [hstate]
    decide
  rw [hstatus]
  rintro ⟨-, hmem | ⟨-, hfails⟩ | ⟨-, hr⟩⟩
  · cases hmem
  · rw [hstate] at hfails
    obtain ⟨p, u₁, r₁, e₁, u₂, hpoll, hload', hor⟩ := hfails
    rw [hload'] at hload
    obtain ⟨rfl, hdest⟩ : r₁ = .ok ∧ (e₁.snapshot.images.get e₁.destination).state = .incomplete := by
      simpa only [Option.map_some, Option.some.injEq, Prod.mk.injEq] using hload
    rcases hor with hr | ⟨-, hp, -⟩
    · cases hr
    · rw [hdest] at hp
      cases hp
  · cases hr

end DaveOs.Update
