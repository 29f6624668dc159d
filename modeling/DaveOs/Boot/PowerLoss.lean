import DaveOs.Boot.Budget
import DaveOs.Boot.JournalCalls

/-!
# The journal under power loss

A history is a list of power cycles. In each a fresh journal receives any calls, until they are done
or power is lost inside one of them; the flash operation in progress is then torn. The ledger says
what a caller knows: the last snapshot that was reported as written, and the snapshots whose writing
was accepted since.

After every history a fresh journal loads a snapshot of the ledger, sequences never go back, and
records of one sequence are one record (`history_safe`).
-/

namespace DaveOs.Boot

open Bytes Wire Crash

/-! ## Loading after a restart -/

/-- A flash of this geometry that works as it should. -/
def Medium.quiet (layout : Layout) : Medium where
  layout
  May e := ∀ x, e.read x = .ok

theorem Medium.quiet_steady (layout : Layout) : (Medium.quiet layout).Steady :=
  fun _ he x _ => he x

/-- A call at which all goes well. -/
def quietEvent (layout : Layout) : {e : Event (Medium.quiet layout).layout // (Medium.quiet layout).May e} :=
  ⟨{}, fun _ => rfl⟩

/-- A device with nothing in progress, powered for `n` calls. -/
def quietDevice (layout : Layout) (cells : Cells) (n : Nat) : Device (Medium.quiet layout) where
  cells
  events := List.replicate n (quietEvent layout)

/-- What a fresh journal's load answers. -/
def freshLoad (layout : Layout) (cells : Cells) : Option (Status × Snapshot) :=
  (Journal.load (Device.flash none) layout {}
    (quietDevice layout cells (loadCalls layout))).1.map fun r => (r.1, r.2.1)

section load

variable {m : Medium} {executing : Option Nat} {d : Device m} {layout : Layout} {cells : Cells}
  {cur : Snapshot}

theorem freshLoad_of_sound (hvalid : layout.valid = true) (h : Sound layout cells cur) :
    freshLoad layout cells = some (.ok, cur) := by
  let d := quietDevice layout cells (loadCalls layout)
  have hwp : Wp (Journal.load (Device.flash none) layout {}) _ _ d :=
    wp_load (m := Medium.quiet layout) (S := fun s => s = cur) (Layout.valid.spec hvalid)
      (Medium.quiet_steady layout) hvalid (Held.of_sound rfl rfl h)
  have hcosts : Costs Device.meter _ (Journal.load (Device.flash none) layout {}) d :=
    costs_load (m := Medium.quiet layout)
  obtain ⟨r, d', hr⟩ := hcosts.returns (Int.le_of_eq (life_replicate rfl Status.noConfusion).symm)
  rcases hwp.of_some hr with ⟨-, hp, -⟩ | ⟨_, p, i, rfl, rfl, -⟩
  · exact absurd rfl hp
  · have hr' : (Journal.load (Device.flash none) layout {}
        (quietDevice layout cells (loadCalls layout))).1 = _ := congrArg Prod.fst hr
    rw [freshLoad, hr']
    rfl

/-- A flash that loads is sound, if its records of one sequence agree and suit its unit. -/
theorem sound_of_freshLoad (hvalid : layout.valid = true)
    (hload : freshLoad layout cells = some (.ok, cur)) (hagree : Agree layout cells)
    (hsuited : Suited layout cells) : Sound layout cells cur := by
  obtain ⟨⟨r, s, j⟩, hr, heq⟩ := Option.map_eq_some_iff.mp hload
  obtain ⟨rfl, rfl⟩ := Prod.mk.inj heq
  have hwp : Wp (Journal.load (Device.flash none) layout {}) (fun _ => True)
      (fun r _ => r.1 = .ok → Sound layout cells r.2.1)
      (quietDevice layout cells (loadCalls layout)) := by
    refine wp_load_answers (m := Medium.quiet layout) (Layout.valid.spec hvalid)
      (Medium.quiet_steady layout) hvalid (fun _ _ => trivial) (fun _ hp => absurd rfl hp) ?_
    rintro _ s p d' hp ho ha rfl
    obtain rfl : d'.cells = cells := congrArg Memory.cells (outcome_same rfl hp ho)
    obtain ⟨i, hi, hsn, hmax⟩ := ha.newest (m := Medium.quiet layout)
    exact ⟨⟨i, p, hi, hsn⟩, hmax, hagree, hsuited⟩
  exact hwp.of_some (Prod.ext hr rfl) rfl

end load

/-! ## Histories -/

inductive JournalCall
  | begin (snapshot : Snapshot) (fresh : Bool)
  | tick
  | commit (snapshot : Snapshot) (timeout : Time) (fresh : Bool)
  | prepareRuntime (bank : Nat) (timeout : Time)

/-- What the callers know: the snapshot last reported as written, and those accepted since, the
last one first. -/
structure Ledger where
  reported : Snapshot
  accepted : List Snapshot := []

namespace Ledger

def accept (l : Ledger) (s : Snapshot) : Ledger := { l with accepted := s :: l.accepted }

/-- The operation in progress, the one accepted last, is reported as done. -/
def report (l : Ledger) : Ledger :=
  match l.accepted with
  | [] => l
  | s :: _ => { reported := s }

end Ledger

variable {m : Medium}

/-- One call by a caller who keeps the ledger; without a journal, power was lost. -/
def perform (executing : Option Nat) (l : Ledger) (j : Journal) (d : Device m) :
    JournalCall → Ledger × Option Journal × Device m
  | .begin s fresh =>
    match Journal.begin (Device.flash executing) m.layout j s fresh d with
    | (none, d') => (l, none, d')
    | (some (r, j'), d') => (if r = .ok then l.accept s else l, some j', d')
  | .tick =>
    match Journal.tick (Device.flash executing) m.layout j d with
    | (none, d') => (l, none, d')
    | (some j', d') => (if j.status = .busy ∧ j'.status = .ok then l.report else l, some j', d')
  | .commit s timeout fresh =>
    -- Whether the snapshot was accepted is what its `begin` answers on this device.
    let accepted : Bool :=
      match Journal.begin (Device.flash executing) m.layout j s fresh d with
      | (some (r, _), _) => r == .ok
      | (none, _) => false
    match Journal.commit (Device.flash executing) m.layout j s timeout fresh d with
    | (none, d') => (if accepted then l.accept s else l, none, d')
    | (some (r, j'), d') =>
      (if r = .ok then { reported := s } else if accepted then l.accept s else l, some j', d')
  | .prepareRuntime bank timeout =>
    match Journal.prepareRuntime (Device.flash executing) m.layout j bank timeout d with
    | (none, d') => (l, none, d')
    | (some (_, j'), d') => (l, some j', d')

/-- Calls until they are done or power is lost. -/
def performAll (executing : Option Nat) : List JournalCall → Ledger → Journal → Device m →
    Ledger × Device m
  | [], l, _, d => (l, d)
  | c :: rest, l, j, d =>
    match perform executing l j d c with
    | (l', some j', d') => performAll executing rest l' j' d'
    | (l', none, d') => (l', d')

/-- A power cycle: the bank it executes from, its calls, what the flash does, and how the operation
in progress is torn when power goes. -/
structure Cycle (m : Medium) where
  executing : Option Nat
  calls : List JournalCall
  clock : Time
  events : List {e : Event m.layout // m.May e}
  lost : Event m.layout

def Cycle.run (x : Ledger × Cells) (c : Cycle m) : Ledger × Cells :=
  let (l, d) := performAll c.executing c.calls x.1 {}
    { cells := x.2, clock := c.clock, events := c.events }
  (l, d.powerOff c.lost)

def history (cycles : List (Cycle m)) (x : Ledger × Cells) : Ledger × Cells :=
  cycles.foldl Cycle.run x

/-! ## What a history keeps -/

/-- `s` is `t` as the journal stores it, under the sequence the journal gave it. -/
def Snapshot.Stores (s t : Snapshot) : Prop := s = { t.stored with sequence := s.sequence }

/-- The snapshots a ledger allows to be found, from the sequence `lo` on. -/
def Ledger.Allows (l : Ledger) (lo : UInt64) (s : Snapshot) : Prop :=
  lo ≤ s.sequence ∧ (s.Stores l.reported ∨ ∃ t ∈ l.accepted, s.Stores t)

/-- A session in order: the journal rests, or writes the snapshot accepted last. -/
inductive InSession (layout : Layout) (lo : UInt64) (l : Ledger) (j : Journal) (mem : Memory) :
    Prop
  | rest (resting : j.Resting) (held : Held layout mem (l.Allows lo))
  | busy (cur s : Snapshot) (rest : List Snapshot) (status : j.status = .busy)
      (stage : Stage layout cur (s.following cur) j mem) (allows : l.Allows lo cur)
      (room : cur.sequence ≠ 0xffffffffffffffff) (accepted : l.accepted = s :: rest)

section session

variable {layout : Layout} {lo : UInt64} {l : Ledger} {j : Journal} {cur s : Snapshot}
  {mem mem' : Memory}

theorem Snapshot.stores_following : (s.following cur).Stores s := rfl

theorem Ledger.Allows.accept (h : l.Allows lo cur) : (l.accept s).Allows lo cur := by
  refine ⟨h.1, h.2.imp id fun ⟨t, ht, hs⟩ => ⟨t, List.mem_cons_of_mem _ ht, hs⟩⟩

theorem Ledger.allows_following (h : lo ≤ cur.sequence)
    (hroom : cur.sequence ≠ 0xffffffffffffffff) (hs : s ∈ l.accepted) :
    l.Allows lo (s.following cur) :=
  ⟨UInt64.le_trans h (UInt64.le_of_lt (lt_following hroom)),
    .inr ⟨s, hs, Snapshot.stores_following⟩⟩

theorem Ledger.allows_reported (h : lo ≤ cur.sequence)
    (hroom : cur.sequence ≠ 0xffffffffffffffff) :
    Ledger.Allows { reported := s } lo (s.following cur) :=
  ⟨UInt64.le_trans h (UInt64.le_of_lt (lt_following hroom)), .inl Snapshot.stores_following⟩

theorem Held.after {S : Snapshot → Prop} (h : Held layout mem S) (ha : After layout mem mem') :
    Held layout mem' S := by
  rcases ha with rfl | ⟨hp, ho⟩
  · exact h
  · exact h.settle hp ho

/-- The old and the new snapshot of an accepted operation are both allowed. -/
theorem Held.either_allowed (h : Held layout mem fun t => t = cur ∨ t = s.following cur)
    (hcur : l.Allows lo cur) (hroom : cur.sequence ≠ 0xffffffffffffffff) (hs : s ∈ l.accepted) :
    Held layout mem (l.Allows lo) :=
  h.mono fun t ht => by
    rcases ht with rfl | rfl
    · exact hcur
    · exact Ledger.allows_following hcur.1 hroom hs

theorem Stage.confined (hl : layout.Valid) {nxt : Snapshot} (h : Stage layout cur nxt j mem) :
    Confined layout mem.cells mem where
  cells _ _ := rfl
  pending op hop := by
    cases h with
    | eraseWait i entering pending erasing =>
      rw [pending] at hop
      obtain rfl := Option.some.inj hop
      rw [erasing.target]
      exact covers_erase erasing.lt
    | writeWait entering pending room appending =>
      rw [pending] at hop
      obtain rfl := Option.some.inj hop
      exact covers_program hl appending room
    | toErase i entering idle erasing | erased entering idle only appending
    | toWrite entering idle room appending | written entering idle room appending
    | toVerify entering idle appending => rw [idle] at hop; cases hop

theorem InSession.held (hl : layout.Valid) (h : InSession layout lo l j mem) :
    Held layout mem (l.Allows lo) := by
  cases h with
  | rest resting held => exact held
  | busy cur s rest status stage allows room accepted =>
    exact (stage.held hl).either_allowed allows room (by rw [accepted]; exact List.mem_cons_self)

end session

section runs

variable {executing : Option Nat} {lo : UInt64} {l : Ledger} {j : Journal} {d : Device m}
  (hvalid : m.layout.valid = true) (hsteady : m.Steady)
  (hends : ∀ i, i < 2 → m.layout.bank i + m.layout.sector < 4294967296)
variable {σ : Type} {s : Snapshot} {fresh : Bool} {timeout : Time}

/-- The state after a call: in session, or cut short with an allowed snapshot as the newest. -/
def Performed (m : Medium) (lo : UInt64) (x : Ledger × Option Journal × Device m) : Prop :=
  match x with
  | (l, some j, d) => InSession m.layout lo l j d.toMemory
  | (l, none, d) => Held m.layout d.toMemory (l.Allows lo)

include hvalid hsteady hends

omit hvalid hsteady hends in
theorem begin_busy {flash : Flash σ} {layout : Layout} (h : j.status = .busy) :
    Journal.begin flash layout j s fresh = pure (.busy, j) := by
  unfold Journal.begin
  rw [if_pos h]

omit hvalid hsteady hends in
theorem prepareRuntime_busy (flash : Flash σ) (layout : Layout) (bank : Nat) (timeout : Time)
    (h : j.status = .busy) :
    ∃ r, Journal.prepareRuntime flash layout j bank timeout = pure (r, j) := by
  unfold Journal.prepareRuntime
  by_cases hb : bank ≥ 2 ∨ flash.executingBank.any (· < 2) = true
  · exact ⟨_, if_pos hb⟩
  · exact ⟨_, (if_neg hb).trans (if_pos h)⟩

theorem performed_begin (h : InSession m.layout lo l j d.toMemory) :
    Performed m lo (perform executing l j d (.begin s fresh)) := by
  have hl := Layout.valid.spec hvalid
  cases h with
  | busy cur s' rest status stage allows room accepted =>
    simp only [perform, begin_busy status, pure_apply]
    exact .busy cur s' rest status stage allows room accepted
  | rest resting held =>
    have hwp : Wp (Journal.begin (Device.flash executing) m.layout j s fresh) _ _ d :=
      wp_begin hl hsteady hends hvalid held resting
    rcases hb : Journal.begin (Device.flash executing) m.layout j s fresh d with ⟨_ | ⟨r, j'⟩, d'⟩
    · simp only [perform, hb]
      exact held.after (hwp.of_none hb)
    · simp only [perform, hb]
      cases hwp.of_some hb with
      | refused failed resting' after =>
        rw [if_neg failed]
        exact .rest resting' (held.after after)
      | accepted cur ok status based idle stage =>
        rw [if_pos ok]
        exact .busy cur s l.accepted status stage based.source.accept based.room rfl

omit hends in
theorem performed_tick (h : InSession m.layout lo l j d.toMemory) :
    Performed m lo (perform executing l j d .tick) := by
  have hl := Layout.valid.spec hvalid
  cases h with
  | rest resting held =>
    simp only [perform, resting.tick, pure_apply]
    rw [if_neg fun h => resting.status h.1]
    exact .rest resting held
  | busy cur s rest status stage allows room accepted =>
    have hmem : s ∈ l.accepted := by
      rw [accepted]
      exact List.mem_cons_self
    have hwp : Wp (Journal.tick (Device.flash executing) m.layout j) _ _ d :=
      wp_tick hl (stage.confined hl) hsteady status stage
    rcases ht : Journal.tick (Device.flash executing) m.layout j d with ⟨_ | j', d'⟩
    · simp only [perform, ht]
      exact (hwp.of_none ht).1.either_allowed allows room hmem
    · simp only [perform, ht]
      cases (hwp.of_some ht).1 with
      | busy status' stage' =>
        rw [if_neg fun h => by rw [status'] at h; cases h.2]
        exact .busy cur s rest status' stage' allows room accepted
      | done status' resting idle sound home =>
        rw [if_pos ⟨status, status'⟩, Ledger.report, accepted]
        exact .rest resting (Held.of_sound idle (Ledger.allows_reported allows.1 room) sound)
      | failed status' resting held =>
        rw [if_neg fun h => status' h.2]
        exact .rest resting (held.either_allowed allows room hmem)

theorem performed_commit (h : InSession m.layout lo l j d.toMemory) :
    Performed m lo (perform executing l j d (.commit s timeout fresh)) := by
  have hl := Layout.valid.spec hvalid
  cases h with
  | busy cur s' rest status stage allows room accepted =>
    simp only [perform, Journal.commit, begin_busy status]
    exact .busy cur s' rest status stage allows room accepted
  | rest resting held =>
    have hwp : Wp (Journal.begin (Device.flash executing) m.layout j s fresh) _ _ d :=
      wp_begin hl hsteady hends hvalid held resting
    have hcommit : Wp (Journal.commit (Device.flash executing) m.layout j s timeout fresh) _ _ d :=
      wp_commit hl hsteady hends hvalid held resting
    -- The commit is its `begin` and what follows an accepted one.
    rcases hb : Journal.begin (Device.flash executing) m.layout j s fresh d with ⟨_ | ⟨r, j'⟩, d'⟩
    · have hc : Journal.commit (Device.flash executing) m.layout j s timeout fresh d = (none, d') :=
        bind_of_none hb
      simp only [perform, hb, hc]
      exact held.after (hwp.of_none hb)
    · cases hwp.of_some hb with
      | refused failed resting' after =>
        have hc : Journal.commit (Device.flash executing) m.layout j s timeout fresh d =
            (some (r, j'), d') := by
          refine (bind_of_some hb).trans ?_
          simp only [if_pos failed]
          rfl
        simp only [perform, hb, hc]
        have hne : (r == .ok) = false := beq_eq_false_iff_ne.mpr failed
        rw [if_neg failed, hne]
        exact .rest resting' (held.after after)
      | accepted cur ok status based idle stage =>
        have hallow : ∀ t, (∃ cur, l.Allows lo cur ∧ cur.sequence ≠ 0xffffffffffffffff ∧
            (t = cur ∨ t = s.following cur)) → (l.accept s).Allows lo t := by
          rintro t ⟨cur, hcur, hroom, rfl | rfl⟩
          · exact hcur.accept
          · exact Ledger.allows_following hcur.1 hroom List.mem_cons_self
        have hcut : ∀ d₂ : Device m, Committing m.layout (l.Allows lo) s d.toMemory d₂.toMemory →
            Held m.layout d₂.toMemory ((l.accept s).Allows lo) := by
          intro d₂ hc
          cases hc with
          | before after => exact (held.after after).mono fun t ht => ht.accept
          | during cur cells₁ based held' _ =>
            exact held'.mono fun t ht => hallow t ⟨cur, based.source, based.room, ht⟩
        have hok : (r == .ok) = true := beq_iff_eq.mpr ok
        rcases hc : Journal.commit (Device.flash executing) m.layout j s timeout fresh d with
          ⟨_ | ⟨r₂, j₂⟩, d₂⟩
        · simp only [perform, hb, hc, hok, if_true]
          exact hcut d₂ (hcommit.of_none hc)
        · simp only [perform, hb, hc, hok, if_true]
          obtain ⟨resting₂, ⟨ok₂, cur₂, cells₂, based₂, idle₂, sound₂, -⟩ | ⟨bad₂, hc₂⟩⟩ :=
            hcommit.of_some hc
          · rw [if_pos ok₂]
            refine .rest resting₂ (Held.of_sound idle₂ ?_ sound₂)
            exact Ledger.allows_reported based₂.source.1 based₂.room
          · rw [if_neg bad₂]
            exact .rest resting₂ (hcut d₂ hc₂)

theorem performed_prepareRuntime {bank : Nat} (h : InSession m.layout lo l j d.toMemory) :
    Performed m lo (perform executing l j d (.prepareRuntime bank timeout)) := by
  have hl := Layout.valid.spec hvalid
  cases h with
  | busy cur s rest status stage allows room accepted =>
    obtain ⟨r, hr⟩ := prepareRuntime_busy (Device.flash executing) m.layout bank timeout status
    have hp : Journal.prepareRuntime (Device.flash executing) m.layout j bank timeout d =
        (some (r, j), d) := congrFun hr d
    simp only [perform, hp]
    exact .busy cur s rest status stage allows room accepted
  | rest resting held =>
    have hwp : Wp (Journal.prepareRuntime (Device.flash executing) m.layout j bank timeout) _ _ d :=
      wp_prepareRuntime hl hsteady hends hvalid held resting
    have hkeep : ∀ d₂ : Device m, (After m.layout d.toMemory d₂.toMemory ∨ ∃ cur cells₁,
        l.Allows lo cur ∧ Outcome m.layout d.toMemory cells₁ ∧ Sound m.layout cells₁ cur ∧
        Keeping m cells₁ cur d₂) → Held m.layout d₂.toMemory (l.Allows lo) := by
      rintro d₂ (ha | ⟨cur, cells₁, hcur, -, -, hk⟩)
      · exact held.after ha
      · exact hk.1.mono fun t ht => by rw [ht]; exact hcur
    rcases hp : Journal.prepareRuntime (Device.flash executing) m.layout j bank timeout d with
      ⟨_ | ⟨r, j'⟩, d'⟩
    · simp only [perform, hp]
      exact hkeep d' (hwp.of_none hp)
    · simp only [perform, hp]
      obtain ⟨resting', hk⟩ := hwp.of_some hp
      exact .rest resting' (hkeep d' hk)

theorem performed (h : InSession m.layout lo l j d.toMemory) (call : JournalCall) :
    Performed m lo (perform executing l j d call) := by
  cases call with
  | begin s fresh => exact performed_begin hvalid hsteady hends h
  | tick => exact performed_tick hvalid hsteady h
  | commit s timeout fresh => exact performed_commit hvalid hsteady hends h
  | prepareRuntime bank timeout => exact performed_prepareRuntime hvalid hsteady hends h

theorem held_performAll (executing : Option Nat) (calls : List JournalCall) : ∀ {l : Ledger} {j : Journal} {d : Device m},
    InSession m.layout lo l j d.toMemory →
    Held m.layout (performAll executing calls l j d).2.toMemory
      ((performAll executing calls l j d).1.Allows lo) := by
  induction calls with
  | nil => exact fun h => h.held (Layout.valid.spec hvalid)
  | cons c calls ih =>
    intro l j d h
    have hp : Performed m lo (perform executing l j d c) := performed hvalid hsteady hends h c
    rcases hx : perform executing l j d c with ⟨l', _ | j', d'⟩
    · rw [hx] at hp
      simp only [performAll, hx]
      exact hp
    · rw [hx] at hp
      simp only [performAll, hx]
      exact ih hp

/-- **A power cycle** keeps a sound flash whose newest snapshot the ledger allows. -/
theorem Cycle.run_sound {cells : Cells} {cur : Snapshot} (c : Cycle m)
    (hsound : Sound m.layout cells cur) (hallow : l.Allows lo cur) :
    ∃ s, Sound m.layout (c.run (l, cells)).2 s ∧ (c.run (l, cells)).1.Allows lo s := by
  have hrest : InSession m.layout lo l {} ({ cells, clock := c.clock, events := c.events } :
      Device m).toMemory :=
    .rest ⟨by decide, rfl, .inl rfl⟩ (Held.of_sound rfl hallow hsound)
  have hheld := held_performAll hvalid hsteady hends c.executing c.calls hrest
  unfold Cycle.run
  rcases hx : performAll c.executing c.calls l {} { cells, clock := c.clock, events := c.events }
    with ⟨l', d'⟩
  rw [hx] at hheld
  have ho : Outcome m.layout d'.toMemory (d'.powerOff c.lost) := by
    unfold Outcome Device.powerOff
    cases d'.pending with
    | none => rfl
    | some op => exact c.lost.torn_leaves op d'.cells
  obtain ⟨s, hs, hsound'⟩ := hheld _ ho
  exact ⟨s, hsound', hs⟩

theorem history_sound (cycles : List (Cycle m)) :
    ∀ {l : Ledger} {cells : Cells} {cur : Snapshot}, Sound m.layout cells cur →
    l.Allows lo cur → ∃ s, Sound m.layout (history cycles (l, cells)).2 s ∧
      (history cycles (l, cells)).1.Allows lo s := by
  induction cycles with
  | nil => exact fun hs ha => ⟨_, hs, ha⟩
  | cons c cycles ih =>
    intro l cells cur hs ha
    obtain ⟨s, hs', ha'⟩ := c.run_sound hvalid hsteady hends hs ha
    exact ih hs' ha'

end runs

/-- **The journal survives every history.** Take a flash whose journal loads, whose records of one
sequence agree and suit the programming unit. After any history a fresh journal loads: what was last
reported as written, or a snapshot accepted after that. From one cycle to a later one the sequence
does not decrease, and records of one sequence still agree. -/
theorem history_safe (m : Medium) (hvalid : m.layout.valid = true)
    (hends : ∀ i, i < 2 → m.layout.bank i + m.layout.sector < 4294967296) (hsteady : m.Steady)
    (cells : Cells) (first : Snapshot) (hload : freshLoad m.layout cells = some (.ok, first))
    (hagree : Agree m.layout cells) (hsuited : Suited m.layout cells)
    (before after : List (Cycle m)) :
    ∃ s t, freshLoad m.layout (history before ({ reported := first }, cells)).2 = some (.ok, s) ∧
      freshLoad m.layout (history (before ++ after) ({ reported := first }, cells)).2 =
        some (.ok, t) ∧
      first.sequence ≤ s.sequence ∧ s.sequence ≤ t.sequence ∧
      (t.Stores (history (before ++ after) ({ reported := first }, cells)).1.reported ∨
        ∃ u ∈ (history (before ++ after) ({ reported := first }, cells)).1.accepted,
          t.Stores u) ∧
      Agree m.layout (history (before ++ after) ({ reported := first }, cells)).2 := by
  have hsound := sound_of_freshLoad hvalid hload hagree hsuited
  have hstored : first.Stores first := by
    rw [Snapshot.Stores, hsound.stored_eq]
  have hfirst : Ledger.Allows { reported := first } first.sequence first :=
    ⟨UInt64.le_refl _, .inl hstored⟩
  obtain ⟨s, hs, hlo, hallow⟩ := history_sound hvalid hsteady hends before hsound hfirst
  have hallow₁ : (history before ({ reported := first }, cells)).1.Allows s.sequence s :=
    ⟨UInt64.le_refl _, hallow⟩
  obtain ⟨t, ht, hlo', hallow'⟩ := history_sound hvalid hsteady hends after hs hallow₁
  have happ : history (before ++ after) ({ reported := first }, cells) =
      history after (history before ({ reported := first }, cells)) := List.foldl_append
  rw [happ]
  exact ⟨s, t, freshLoad_of_sound hvalid hs, freshLoad_of_sound hvalid ht, hlo, hlo', hallow',
    ht.same⟩

/-! ## Concrete flashes -/

/-- A flash that holds these byte strings, the first one on top, and is blank elsewhere. -/
def Cells.holding : List (Nat × Bytes) → Cells
  | [], _ => some 0xff
  | (pos, data) :: rest, x =>
    if pos ≤ x then (data[x - pos]?).or (Cells.holding rest x) else Cells.holding rest x

section holding

variable {p q : Nat} {data : Bytes} {parts : List (Nat × Bytes)} {s : Snapshot} {w : UInt32}
variable {x : Nat}

theorem Cells.holding_inside (h : x < data.length) :
    Cells.holding ((p, data) :: parts) (p + x) = data[x]? := by
  rw [Cells.holding, if_pos (Nat.le_add_right p x), Nat.add_sub_cancel_left,
    List.getElem?_eq_getElem h]
  rfl

theorem Cells.holding_outside (h : x < p ∨ p + data.length ≤ x) :
    Cells.holding ((p, data) :: parts) x = Cells.holding parts x := by
  rw [Cells.holding]
  split
  · rw [List.getElem?_eq_none (by omega)]
    rfl
  · rfl

theorem Cells.snapshot_holding (hs : s.Storable) :
    (Cells.holding ((p, encode s w) :: parts)).snapshot p = some s.stored := by
  refine Cells.snapshot_eq_some.mpr ⟨encode s w, ?_, decode_encode hs w⟩
  refine Cells.bytes_eq_some.mpr ⟨length_encode s w, fun i hi => ?_⟩
  exact Cells.holding_inside (by rw [length_encode]; exact hi)

theorem Cells.snapshot_holding_other (h : q + 256 ≤ p ∨ p + 256 ≤ q) :
    (Cells.holding ((p, encode s w) :: parts)).snapshot q = (Cells.holding parts).snapshot q := by
  unfold Cells.snapshot
  rw [Cells.bytes_congr fun i hi => Cells.holding_outside ?_]
  rw [length_encode]
  have : i < 256 := hi
  omega

theorem Cells.snapshot_holding_nil : (Cells.holding []).snapshot q = none :=
  snapshot_blank_end fun _ _ _ => rfl

end holding

theorem tinyLayout_inBank {w : UInt32} {i p : Nat} (h : (tinyLayout 256 w).InBank i p) :
    p = 0 ∨ p = 256 := by
  obtain ⟨hi, k, hk, rfl⟩ := h
  have hs : (tinyLayout 256 w).sector / kRecordSize = 1 := by
    simp [tinyLayout, Layout.sector, kRecordSize]
  have hb : (tinyLayout 256 w).bank 0 = 0 ∧ (tinyLayout 256 w).bank 1 = 256 := by
    simp [tinyLayout, Layout.bank, Pair.get]
  obtain rfl : k = 0 := by omega
  rcases (by omega : i = 0 ∨ i = 1) with rfl | rfl
  · exact .inl (by omega)
  · exact .inr (by omega)

/-- The flash with a single record, that of `s`. -/
def oneRecord (p : Nat) (s : Snapshot) : Cells := .holding [(p, encode s 16)]

section oneRecord

variable {p q i : Nat} {s t : Snapshot} {w : UInt32}

/-- With one record in sectors of one record, there is nothing to disagree. -/
theorem oneRecord_eq (hp : p = 0 ∨ p = 256) (hs : s.Storable)
    (hq : (tinyLayout 256 w).InBank i q) (ht : (oneRecord p s).snapshot q = some t) :
    q = p ∧ t = s.stored := by
  by_cases h : q = p
  · rw [h, oneRecord, Cells.snapshot_holding hs] at ht
    exact ⟨h, (Option.some.inj ht).symm⟩
  · have hq := tinyLayout_inBank hq
    rw [oneRecord, Cells.snapshot_holding_other (by omega), Cells.snapshot_holding_nil] at ht
    cases ht

theorem oneRecord_agree (hp : p = 0 ∨ p = 256) (hs : s.Storable) :
    Agree (tinyLayout 256 w) (oneRecord p s) := by
  intro i q t j r u hq ht hr hu _
  rw [(oneRecord_eq hp hs hq ht).1, (oneRecord_eq hp hs hr hu).1]

theorem oneRecord_sound (hs : s.Storable) :
    Sound (tinyLayout 256 16) (oneRecord 0 s) s.stored where
  present := ⟨0, 0, ⟨by decide, 0, by decide, rfl⟩, Cells.snapshot_holding hs⟩
  newest i q t hq ht := by rw [(oneRecord_eq (.inl rfl) hs hq ht).2]; exact UInt64.le_refl _
  same := oneRecord_agree (.inl rfl) hs
  version h := absurd h (by decide)

end oneRecord

theorem tinyLayout_sound {cells : Cells} {a b : Snapshot} (ha : cells.snapshot 0 = some a)
    (hb : cells.snapshot 256 = some b) (hlt : a.sequence < b.sequence) :
    Sound (tinyLayout 256 16) cells b := by
  have hat : ∀ {i q t}, (tinyLayout 256 16).InBank i q → cells.snapshot q = some t →
      q = 0 ∧ t = a ∨ q = 256 ∧ t = b := by
    intro i q t hq ht
    rcases tinyLayout_inBank hq with rfl | rfl
    · exact .inl ⟨rfl, Option.some.inj (ht.symm.trans ha)⟩
    · exact .inr ⟨rfl, Option.some.inj (ht.symm.trans hb)⟩
  refine ⟨⟨1, 256, ⟨by decide, 0, by decide, rfl⟩, hb⟩, fun i q t hq ht => ?_,
    fun i q t j r u hq ht hr hu heq => ?_, fun h => absurd h (by decide)⟩
  · rcases hat hq ht with ⟨-, rfl⟩ | ⟨-, rfl⟩
    · exact UInt64.le_of_lt hlt
    · exact UInt64.le_refl _
  · rcases hat hq ht with ⟨rfl, rfl⟩ | ⟨rfl, rfl⟩ <;> rcases hat hr hu with ⟨rfl, rfl⟩ | ⟨rfl, rfl⟩
    · rfl
    · exact absurd (heq ▸ hlt) (UInt64.lt_irrefl _)
    · exact absurd (heq ▸ hlt) (UInt64.lt_irrefl _)
    · rfl

/-- An event that ends a program with some bits of the unit, those of the mask, not cleared yet. -/
def Event.tearing (layout : Layout) (mask : Bytes) : Event layout where
  torn
    | .erase _, cells => cells
    | .program pos data, cells => fun x =>
      if Operation.Covers layout (.program pos data) x then
        (cells x).map (· &&& (data.getD (x - pos) 0 ||| mask.getD (x - pos) 0))
      else cells x
  torn_leaves op cells := by
    cases op with
    | erase pos => exact ⟨fun _ _ => rfl, fun _ _ _ _ _ => .inl fun _ _ => rfl⟩
    | program pos data => exact ⟨fun x hx => if_neg hx, fun _ _ _ _ h => by cases h⟩

/-- A write of a second snapshot, of which power is lost in the sixteenth tick. -/
def cutWrite : Cycle (Medium.quiet (tinyLayout 256 16)) where
  executing := none
  calls := .begin { counter := 1 } false :: .replicate 30 .tick
  clock := 0
  events := .replicate 40 (quietEvent _)
  lost := .tearing _ [0xff]

theorem history_safe_cutWrite :
    ∃ s, freshLoad (tinyLayout 256 16) (history [cutWrite, cutWrite]
      ({ reported := { sequence := 1 } }, oneRecord 0 { sequence := 1 })).2 = some (.ok, s) ∧
      1 ≤ s.sequence := by
  have hs : Snapshot.Storable { sequence := 1 } := ⟨by decide, by decide, by decide⟩
  have hload : freshLoad (tinyLayout 256 16) (oneRecord 0 { sequence := 1 }) =
      some (.ok, { sequence := 1 }) := freshLoad_of_sound (by decide) (oneRecord_sound hs)
  obtain ⟨s, t, -, ht, h1, h2, -⟩ := history_safe (Medium.quiet (tinyLayout 256 16)) (by decide)
    (by decide) (Medium.quiet_steady _) (oneRecord 0 { sequence := 1 }) _ hload
    (oneRecord_agree (.inl rfl) hs) (fun h => absurd h (by decide)) [cutWrite] [cutWrite]
  exact ⟨t, ht, UInt64.le_trans h1 h2⟩

/-- Two records of sequence 1, hidden behind one of sequence 2. -/
def hiddenRecords : Cells := .holding [(256, encode { sequence := 2 } 16),
  (0, encode { sequence := 1 } 16), (512, encode { sequence := 1, counter := 1 } 16)]

/-- While the first bank executes, a write starts with a copy of the newest record into it. Power is
lost in the copy's last unit, which for version 1 holds checked bytes as well as the trailer. -/
def cutCopy : Cycle (Medium.quiet (tinyLayout 256 32)) where
  executing := some 0
  calls := .begin {} false :: .replicate 17 .tick
  clock := 0
  events := .replicate 40 (quietEvent _)
  lost := .tearing _ [0x41, 0x06, 0x71, 0xdb, 0x01]

/-- Without agreement to start with there is none after the empty history; and a record of version 1
on a flash with 32-byte units can be torn into a second record of its sequence, with the same
checksum, after which nothing loads. -/
theorem history_unsafe :
    ((tinyLayout 512 16).valid = true ∧ Suited (tinyLayout 512 16) hiddenRecords ∧
      freshLoad (tinyLayout 512 16) hiddenRecords = some (.ok, { sequence := 2 }) ∧
      ¬Agree (tinyLayout 512 16) (history (m := Medium.quiet (tinyLayout 512 16)) []
        ({ reported := { sequence := 2 } }, hiddenRecords)).2) ∧
    ((tinyLayout 256 32).valid = true ∧
      Agree (tinyLayout 256 32) (oneRecord 256 { sequence := 1 }) ∧
      freshLoad (tinyLayout 256 32) (oneRecord 256 { sequence := 1 }) =
        some (.ok, { sequence := 1 }) ∧
      (freshLoad (tinyLayout 256 32) (history [cutCopy] ({ reported := { sequence := 1 } },
        oneRecord 256 { sequence := 1 })).2).map (·.1) = some .checksumError) := by
  have h₁ : Snapshot.Storable { sequence := 1 } := ⟨by decide, by decide, by decide⟩
  have h₂ : Snapshot.Storable { sequence := 1, counter := 1 } := ⟨by decide, by decide, by decide⟩
  refine ⟨⟨by decide, fun h => absurd h (by decide), by decide +kernel, fun hagree => ?_⟩,
    by decide, oneRecord_agree (.inr rfl) h₁, by decide +kernel, by decide +kernel⟩
  have hfirst : hiddenRecords.snapshot 0 = some { sequence := 1 } := by
    rw [hiddenRecords, Cells.snapshot_holding_other (by decide), Cells.snapshot_holding h₁]
    rfl
  have hsecond : hiddenRecords.snapshot 512 = some { sequence := 1, counter := 1 } := by
    rw [hiddenRecords, Cells.snapshot_holding_other (by decide),
      Cells.snapshot_holding_other (by decide), Cells.snapshot_holding h₂]
    rfl
  have hbytes := hagree 0 0 _ 1 512 _ ⟨by decide, 0, by decide, rfl⟩ hfirst
    ⟨by decide, 0, by decide, rfl⟩ hsecond rfl
  have hequal := congrArg (Option.bind · decode) hbytes
  have hequal : hiddenRecords.snapshot 0 = hiddenRecords.snapshot 512 := hequal
  rw [hfirst, hsecond] at hequal
  exact absurd hequal (by decide)

end DaveOs.Boot
