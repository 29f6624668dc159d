import DaveOs.Boot.Journal

/-!
# How long the flash has to stay powered

Every call of the device takes one event. `Device.life` counts them, with three of a busy poll's own
iteration set off against it, so that waiting is free: a program that needs `n` calls besides waiting
is not cut short by a device with that much life.
-/

namespace DaveOs.Boot

open Bytes Wire Crash

variable {m : Medium}

/-- What an event is worth. A poll that is busy is tried again after two looks at the clock. -/
def Event.worth {layout : Layout} (e : Event layout) : Int := if e.poll = .busy then -2 else 1

namespace Device

/-- The calls the device still answers, beyond those spent on waiting. -/
def life (d : Device m) : Int := (d.events.map (·.1.worth)).sum

/-- The latest time the clock can still show. -/
def horizon (d : Device m) : Time := d.clock + (d.events.map (·.1.advance)).sum

/-- Time passes and events are used up. -/
structure Later (d d' : Device m) : Prop where
  clock : d.clock ≤ d'.clock
  horizon : d'.horizon ≤ d.horizon
  events : d'.events.length ≤ d.events.length

def meter : Meter (Device m) where
  life := life
  later := Later
  refl _ := ⟨Nat.le_refl _, Nat.le_refl _, Nat.le_refl _⟩
  trans h h' := ⟨Nat.le_trans h.clock h'.clock, Nat.le_trans h'.horizon h.horizon,
    Nat.le_trans h'.events h.events⟩

end Device

section costs

variable {executing : Option Nat} {d : Device m} {layout : Layout} {cells : Cells} {cur : Snapshot}
variable {α : Type} {f : Event m.layout → Device m → α × Device m} {pos : Nat} {j : Journal}

theorem Event.worth_le (e : Event layout) : e.worth ≤ 1 := by
  unfold worth
  split <;> decide

theorem life_replicate {n : Nat} {e : {e : Event m.layout // m.May e}}
    (h : d.events = List.replicate n e) (he : e.1.poll ≠ .busy) :
    d.life = n := by
  have hw : e.1.worth = 1 := if_neg he
  rw [Device.life, h, List.map_replicate, hw]
  induction n generalizing d with
  | zero => rfl
  | succ n ih =>
    rw [List.replicate_succ, List.sum_cons]
    have := ih (d := { d with events := List.replicate n e }) rfl
    omega

theorem costs_call (hevents : ∀ e d, (f e d).2.events = d.events)
    (hclock : ∀ e d, d.clock ≤ (f e d).2.clock ∧ (f e d).2.clock ≤ d.clock + e.advance) :
    Costs Device.meter 1 (Device.call f) d := by
  unfold Costs Wp Device.call
  cases he : d.events with
  | nil =>
    show d.life < 1
    rw [Device.life, he]
    exact Int.zero_lt_one
  | cons e rest =>
    obtain ⟨h1, h2⟩ := hclock e.1 { d with events := rest }
    have hev : (f e.1 { d with events := rest }).2.events = rest := hevents _ _
    have hw := e.1.worth_le
    refine ⟨?_, h1, ?_, ?_⟩
    · show d.life ≤ (f e.1 { d with events := rest }).2.life + 1
      rw [Device.life, Device.life, hev, he, List.map_cons, List.sum_cons]
      omega
    · show (f e.1 { d with events := rest }).2.horizon ≤ d.horizon
      rw [Device.horizon, Device.horizon, hev, he, List.map_cons, List.sum_cons]
      exact Nat.le_trans (Nat.add_le_add_right h2 _) (Nat.le_of_eq (Nat.add_assoc _ _ _))
    · show (f e.1 { d with events := rest }).2.events.length ≤ d.events.length
      rw [hev, he, List.length_cons]
      exact Nat.le_succ _

theorem costs_read (pos n : Nat) : Costs Device.meter 1 (Device.read pos n) d :=
  costs_call (fun _ _ => rfl) fun _ _ => ⟨Nat.le_refl _, Nat.le_add_right _ _⟩

theorem costs_poll : Costs Device.meter 1 Device.poll d :=
  costs_call (fun _ _ => rfl) fun _ _ => ⟨Nat.le_refl _, Nat.le_add_right _ _⟩

theorem costs_start (op : Operation) : Costs Device.meter 1 (Device.start op) d :=
  costs_call (fun _ _ => rfl) fun _ _ => ⟨Nat.le_refl _, Nat.le_add_right _ _⟩

theorem costs_now : Costs Device.meter 1 Device.now d :=
  costs_call (fun _ _ => rfl) fun _ _ => ⟨Nat.le_add_right _ _, Nat.le_refl _⟩

theorem spends_call (hevents : ∀ e d, (f e d).2.events = d.events) :
    Wp (Device.call f) (fun _ => True) (fun _ d' => d'.events.length < d.events.length) d := by
  unfold Wp Device.call
  cases he : d.events with
  | nil => trivial
  | cons e rest =>
    show (f e.1 { d with events := rest }).2.events.length < (e :: rest).length
    rw [hevents, List.length_cons]
    exact Nat.lt_succ_self _

theorem spends_read (pos n : Nat) : Wp (Device.read pos n) (fun _ => True)
    (fun _ d' => d'.events.length < d.events.length) d :=
  spends_call fun _ _ => rfl

theorem spends_now : Wp Device.now (fun _ => True)
    (fun _ d' => d'.events.length < d.events.length) d :=
  spends_call fun _ _ => rfl

theorem costs_erased : Costs Device.meter 2 (erased (Device.flash executing) pos) d := by
  refine .bind (n := 1) (k := 1) (costs_read pos 16) fun ⟨r, header⟩ d' =>
    .ite (fun _ => .pure) fun _ => ?_
  exact .bind (n := 1) (k := 0) (costs_read (pos + 16) 240) fun _ _ => .pure

theorem spends_erased : Wp (erased (Device.flash executing) pos) (fun _ => True)
    (fun _ d' => d'.events.length < d.events.length) d := by
  refine .bind (spends_read pos 16) fun ⟨r, header⟩ d' hlt =>
    .ite (fun _ => .pure hlt) fun _ => .bind (spends_read (pos + 16) 240) ?_
  exact fun _ _ hlt' => .pure (Nat.lt_trans hlt' hlt)

/-- Looking for an erased slot ends at the limit, which the addresses do not pass. -/
theorem costs_findErased {limit : Nat} (hlimit : limit + 256 ≤ 4294967296) :
    Costs Device.meter (2 * ((limit - pos + 255) / 256 + 1))
      (findErased (Device.flash executing) pos limit) d := by
  refine Costs.loop (fun _ => True) (fun pos => (limit - pos + 255) / 256) ?_ trivial
  intro pos d _
  refine .ite (fun hpos => ?_) fun _ => .pure ⟨by omega, Device.meter.refl d, ?_⟩
  · refine .bind (costs_erased.adding spends_erased) ?_
    rintro b d' ⟨⟨hlife, hlater⟩, hlt⟩
    refine .ite (fun _ => .pure ⟨hlife, hlater, ?_⟩) fun _ => .pure ⟨hlife, hlater, ?_⟩
    · rintro b' ⟨⟩
    · rintro _ ⟨⟩
      refine ⟨trivial, ?_, hlt⟩
      simp only [nextRecord, kRecordSize]
      omega
  · rintro b' ⟨⟩

def loadCalls (layout : Layout) : Nat := 1 + 2 * (layout.records 0 ++ layout.records 1).length

theorem costs_scanRecord {scan : Scan} :
    Costs Device.meter 2 (scanRecord (Device.flash executing) pos scan) d := by
  refine .bind (n := 1) (k := 1) (costs_read pos 16) fun ⟨r, header⟩ d' =>
    .ite (fun _ => .pure) fun _ => .ite (fun _ => .pure) fun _ =>
    .ite (fun _ => .pure) fun _ => ?_
  refine .bind (n := 1) (k := 0) (costs_read (pos + 16) 240) fun ⟨r', rest⟩ d₂ =>
    .ite (fun _ => .pure) fun _ => ?_
  cases decode (header ++ rest) with
  | none => exact .pure
  | some candidate =>
    cases scan.best with
    | none => exact .pure
    | some best =>
      exact .ite (fun _ => .pure) fun _ => .ite (fun _ => .pure) fun _ =>
        .pure

theorem costs_scanRecords (L : List Nat) : ∀ {scan : Scan} {d : Device m},
    Costs Device.meter (2 * L.length) (scanRecords (Device.flash executing) L scan) d := by
  induction L with
  | nil => exact .pure
  | cons pos L ih =>
    intro scan d
    rw [scanRecords]
    refine .mono (n := 2 + 2 * L.length) (.bind costs_scanRecord fun ⟨c, scan'⟩ d' => ?_)
      (by rw [List.length_cons]; omega)
    exact .ite (fun _ => .pure) fun _ => ih

theorem costs_load :
    Costs Device.meter (loadCalls m.layout) (Journal.load (Device.flash executing) m.layout j) d := by
  refine .ite (fun _ => .pure) fun _ => .bind costs_poll fun r d' =>
    .ite (fun _ => .pure) fun _ => ?_
  refine .bind (k := 0) (costs_scanRecords _) fun ⟨c, scan⟩ d₂ => ?_
  simp only
  cases scan.best with
  | none => exact .pure
  | some best => exact .ite (fun _ => .pure) fun _ => .pure

theorem costs_step : Costs Device.meter 1 (Journal.step (Device.flash executing) m.layout j) d := by
  unfold Journal.step
  split
  · exact .ite (fun _ => .pure) fun _ => .pure
  · exact .ite (fun _ => .pure) fun _ => .pure
  · exact .ite (fun _ => .pure) fun _ => .pure
  · refine .ite (fun _ => .pure) fun _ => .bind (k := 0) (costs_start _) fun r d' => ?_
    exact .ite (fun _ => .pure) fun _ => .pure
  · refine .bind (k := 0) costs_poll fun r d' => .ite (fun _ => .pure) fun _ => ?_
    exact .ite (fun _ => .pure) fun _ => .ite (fun _ => .pure) fun _ => .pure
  · refine .bind (k := 0) costs_poll fun r d' => .ite (fun _ => .pure) fun _ => ?_
    exact .ite (fun _ => .pure) fun _ => .pure
  · refine .ite (fun _ => .pure) fun _ => .bind (k := 0) (costs_start _) fun r d' => ?_
    exact .ite (fun _ => .pure) fun _ => .pure
  · refine .bind (k := 0) (costs_read _ _) fun r d' => .ite (fun _ => .pure) fun _ => ?_
    exact .ite (fun _ => .pure) fun _ => .ite (fun _ => .pure) fun _ => .pure

end costs

end DaveOs.Boot
