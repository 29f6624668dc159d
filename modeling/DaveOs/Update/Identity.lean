import DaveOs.Update.EngineStep

/-!
# What an installation is for

`begin` fixes an installation by the slot that runs and the header of the package: from these come the
destination and the size of what is received. While the engine is active no call changes them, but for one
gap (`Engine.Exposed`). The guard of `running_slot` looks at the machine's state, which is still `disabled`
between the acceptance of a package and the next tick. An engine that is disabled in between lets the
running slot be bound again.
-/

namespace DaveOs.Update

open Boot Bytes Crash Relation

/-- The call asks for another running slot or another package. -/
def EngineCall.Rebinds (e : Engine) : EngineCall → Prop
  | .begin _ _ => True
  | .runningSlot slot => slot ≠ e.runningSlot
  | _ => False

namespace Engine

/-- The running slot is about to be bound again, and the guard does not see the installation. -/
def Exposed (e : Engine) (call : EngineCall) : Prop :=
  e.enabled = false ∧ e.state = .disabled ∧
    ∃ slot, slot < 2 ∧ slot ≠ e.runningSlot ∧ call = .runningSlot slot

/-- The two engines are for the same installation. -/
structure Identical (e e' : Engine) : Prop where
  runningSlot : e'.runningSlot = e.runningSlot
  header : e'.header = e.header

theorem Identical.refl (e : Engine) : e.Identical e := ⟨rfl, rfl⟩

theorem Identical.trans {e e₁ e₂ : Engine} (h : e.Identical e₁) (h' : e₁.Identical e₂) :
    e.Identical e₂ :=
  ⟨h'.runningSlot.trans h.runningSlot, h'.header.trans h.header⟩

theorem Alike.identical {e e' : Engine} (h : e.Alike e') : e.Identical e' :=
  ⟨h.runningSlot, h.header⟩

section calls

variable {σ : Type} {flash : Flash σ} {layout : Layout} {e : Engine} {s : σ}

variable (flash layout) in
theorem begin_active (ha : e.active = true) (header : Bytes) (owner : Option Nat) :
    ∃ r, r ≠ .ok ∧ e.begin flash layout header owner = pure (r, e) := by
  unfold begin
  split
  · exact ⟨.busy, by decide, rfl⟩
  split
  · exact ⟨.notRunning, by decide, rfl⟩
  · exact ⟨.busy, by decide, rfl⟩

theorem bindRunningSlot_spec (slot : Nat) :
    (e.bindRunningSlot slot).2.header = e.header ∧
    ((e.bindRunningSlot slot).2 = e ∧ (e.bindRunningSlot slot).1 ≠ .ok ∨
      e.enabled = false ∧ e.state = .disabled ∧ slot < 2 ∧
        (e.bindRunningSlot slot).2.runningSlot = slot) := by
  unfold bindRunningSlot
  split
  · exact ⟨rfl, .inl ⟨rfl, Status.noConfusion⟩⟩
  next hg =>
  split
  · exact ⟨rfl, .inl ⟨rfl, Status.noConfusion⟩⟩
  next hslot =>
  simp only [not_or, Bool.not_eq_true, Decidable.not_not] at hg
  exact ⟨rfl, .inr ⟨hg.1, hg.2, Nat.lt_of_not_le hslot, rfl⟩⟩

/-- The running slot of an installation stays bound, but for the gap in its guard. -/
theorem bindRunningSlot_identical_iff (slot : Nat) :
    (e.Identical (e.bindRunningSlot slot).2 ∧ (slot ≠ e.runningSlot → (e.bindRunningSlot slot).1 ≠ .ok)) ↔
      ¬e.Exposed (.runningSlot slot) := by
  obtain ⟨hheader, ⟨hsame, herr⟩ | ⟨henabled, hstate, hlt, hbound⟩⟩ := e.bindRunningSlot_spec slot
  · refine iff_of_true ⟨?_, fun _ => herr⟩ ?_
    · rw [hsame]
      exact .refl e
    · rintro ⟨henabled, hstate, slot', hlt, -, ⟨⟩⟩
      refine herr ?_
      unfold bindRunningSlot
      rw [if_neg (by simp [henabled, hstate]), if_neg (by omega)]
  · constructor
    · rintro ⟨hid, -⟩ ⟨-, -, slot', -, hne, ⟨⟩⟩
      exact hne (hbound.symm.trans hid.runningSlot)
    · intro hexposed
      have heq : slot = e.runningSlot := Classical.byContradiction fun hne =>
        hexposed ⟨henabled, hstate, slot, hlt, hne, rfl⟩
      exact ⟨⟨hbound.trans heq, hheader⟩, fun hne => absurd heq hne⟩

theorem tick_identical : Wp (e.tick flash layout) (fun _ => True) (fun e' _ => e.Identical e') s := by
  exact told_tick.conseq fun e' _ h => ⟨h.1.runningSlot, h.1.header⟩

/-- **One call** during an installation: its identity stays, and a call for another one is refused, but
for the gap in the guard of the running slot. -/
theorem answer_identical_iff (ha : e.active = true) {call : EngineCall} :
    Wp (e.answer flash layout call) (fun _ => True)
      (fun a _ => (e.Identical a.2 ∧ (call.Rebinds e → ∃ r, a.1 = some r ∧ r ≠ .ok)) ↔
        ¬e.Exposed call) s := by
  have hsafe : ∀ {e' : Engine} {r : Option Status}, e.Identical e' → ¬call.Rebinds e →
      ((e.Identical e' ∧ (call.Rebinds e → ∃ r', r = some r' ∧ r' ≠ .ok)) ↔ ¬e.Exposed call) := by
    intro e' r hid hno
    refine iff_of_true ⟨hid, fun h => absurd h hno⟩ ?_
    rintro ⟨-, -, slot, -, hne, rfl⟩
    exact hno hne
  cases call with
  | begin header owner =>
    obtain ⟨r, hr, hrun⟩ := begin_active flash layout ha header owner
    rw [answer, hrun]
    refine .bind (Q := fun a _ => a = (r, e)) (.pure rfl) ?_
    rintro - s' rfl
    refine .pure (iff_of_true ⟨.refl e, fun _ => ⟨r, rfl, hr⟩⟩ ?_)
    rintro ⟨-, -, slot, -, -, ⟨⟩⟩
  | chunk offset data crc => exact .pure (hsafe (e.alike_chunk offset data crc).identical id)
  | abort reason => exact .pure (hsafe (e.alike_abort reason).identical id)
  | enable value => exact .pure (hsafe ⟨rfl, rfl⟩ id)
  | reserve owner => exact .pure (hsafe (e.alike_reserve owner).identical id)
  | release owner => exact .pure (hsafe (e.alike_release owner).identical id)
  | runningSlot slot =>
    refine .pure ((and_congr_right fun _ => ?_).trans (e.bindRunningSlot_identical_iff slot))
    exact imp_congr_right fun _ => ⟨fun ⟨r, hr, hne⟩ => Option.some.inj hr ▸ hne, fun h => ⟨_, rfl, h⟩⟩
  | tick => exact .bind tick_identical fun e' s' hid => .pure (hsafe hid id)

omit flash in
theorem decodeHeader_ne_ok {bytes : Bytes} {i : Nat} {r : Status}
    (h : decodeHeader bytes layout i = .error r) : r ≠ .ok := by
  rintro rfl
  unfold decodeHeader at h
  split at h
  · cases h
  split at h
  · cases h
  split at h
  · cases h
  simp only at h
  split at h <;> cases h

/-- What `begin` does to an engine, apart from what it has read. -/
structure Begun (e : Engine) (result : Status) (e' : Engine) : Prop where
  owner : e'.owner = e.owner
  reader : e'.reader = e.reader
  state : e'.state = e.state
  abortReason : e'.abortReason = e.abortReason
  accepted : result = .ok → e.active = false ∧ e'.requested = true ∧ e'.abortRequested = false
  refused : result ≠ .ok → e'.requested = e.requested ∧ e'.abortRequested = e.abortRequested

theorem begun {header : Bytes} {owner : Option Nat} :
    Wp (e.begin flash layout header owner) (fun _ => True) (fun a _ => e.Begun a.1 a.2) s := by
  have hrefused : ∀ {r : Status}, r ≠ .ok → e.Begun r e := fun hr =>
    ⟨rfl, rfl, rfl, rfl, fun h => absurd h hr, fun _ => ⟨rfl, rfl⟩⟩
  refine .ite (fun _ => .pure (hrefused Status.noConfusion)) fun _ =>
    .ite (fun _ => .pure (hrefused Status.noConfusion)) fun _ => ?_
  refine .ite (fun _ => .pure (hrefused Status.noConfusion)) fun hidle =>
    .ite (fun _ => .pure (hrefused Status.noConfusion)) fun _ => ?_
  cases hd : decodeHeader header layout e.destination with
  | error r => exact .pure (hrefused (decodeHeader_ne_ok hd))
  | ok header =>
    refine .bind wp_load_same ?_
    rintro ⟨result, e₁⟩ s₁ ⟨-, hsame⟩
    simp only at hsame
    have hrefused₁ : ∀ {r : Status}, r ≠ .ok → e.Begun r e₁ := fun hr => by
      rw [hsame]
      exact ⟨rfl, rfl, rfl, rfl, fun h => absurd h hr, fun _ => ⟨rfl, rfl⟩⟩
    refine .ite (fun hr => .pure (hrefused₁ hr)) fun _ =>
      .ite (fun _ => .pure (hrefused₁ Status.noConfusion)) fun _ => ?_
    refine .ite (fun _ => .pure (hrefused₁ Status.noConfusion)) fun _ => .bind Wp.trivial fun p s₂ _ => ?_
    refine .ite (fun _ => .pure (hrefused₁ Status.noConfusion)) fun _ => .pure ?_
    rw [hsame]
    exact ⟨rfl, rfl, rfl, rfl, fun _ => ⟨Bool.eq_false_iff.mpr hidle, rfl, rfl⟩, fun h => absurd rfl h⟩

/-- A successful `begin` leaves an installation that waits for its first tick. -/
theorem Begun.active {e e' : Engine} {r : Status} (h : e.Begun r e') (hr : r = .ok) : e'.active = true := by
  rw [Engine.active, (h.accepted hr).2.1]
  rfl

variable (flash layout) in
/-- A call during an installation, other than through the gap. -/
def Works (x y : Engine × σ) : Prop :=
  x.1.active = true ∧ ∃ call a, ¬x.1.Exposed call ∧
    x.1.answer flash layout call x.2 = (some (a, y.1), y.2)

theorem Works.identical {x y : Engine × σ} (h : ReflTransGen (Works flash layout) x y) :
    x.1.Identical y.1 := by
  induction h with
  | refl => exact .refl _
  | tail _ hstep ih =>
    obtain ⟨ha, call, a, hexposed, hrun⟩ := hstep
    exact ih.trans ((answer_identical_iff ha).of_some hrun |>.mpr hexposed).1

end calls

end Engine

/-- **An installation's identity is fixed** while the engine is active, but for the gap in the guard of the
running slot: a call changes the running slot or the header, or is not refused although it asks for others,
exactly if it goes through the gap. So from a successful `begin` on, for as long as the engine is active and
no call goes through the gap, the running slot and the header are those of the `begin`. -/
theorem identity_fixed {σ : Type} (flash : Flash σ) (layout : Layout) :
    (∀ (e e' : Engine) (call : EngineCall) (a : Option Status) (s s' : σ), e.active = true →
      e.answer flash layout call s = (some (a, e'), s') →
      ((e.Identical e' ∧ (call.Rebinds e → ∃ r, a = some r ∧ r ≠ .ok)) ↔ ¬e.Exposed call)) ∧
    ∀ (e : Engine) (header : Bytes) (owner : Option Nat) (s : σ) (x y : Engine × σ),
      e.begin flash layout header owner s = (some (.ok, x.1), x.2) →
      ReflTransGen (Engine.Works flash layout) x y →
      x.1.active = true ∧ x.1.Identical y.1 := by
  constructor
  · intro e e' call a s s' ha hrun
    exact (Engine.answer_identical_iff ha).of_some hrun
  · intro e header owner s x y hbegin hruns
    exact ⟨(Engine.begun.of_some hbegin).active rfl, Engine.Works.identical hruns⟩

/-- An engine that has been enabled and not ticked yet. -/
def openEngine : Engine := { runningSlot := 0, enabled := true }

/-- A flash that can be read and not be written: one record, and nothing else. -/
def wornFlash (s : Snapshot) : Flash Unit where
  read pos n := pure (.ok, if pos < kRecordSize then slice (encode s 16) pos n else List.replicate n 0xff)
  erase _ := pure .ioError
  program _ _ := pure .ioError
  poll := pure .ok
  now := pure 0
  executingBank := none
  fuel _ := 0

/-- The package is accepted, the engine disabled before its first tick, and the running slot bound again:
the installation that is under way has changed its destination. -/
theorem identity_lost :
    (openEngine.begin (wornFlash newSnapshot) (tinyLayout 256 16) tinyHeader none ()).1.map
      (fun a => (a.1, a.2.active, a.2.destination, ((a.2.enable false).bindRunningSlot 1).1,
        ((a.2.enable false).bindRunningSlot 1).2.active,
        ((a.2.enable false).bindRunningSlot 1).2.destination)) =
      some (.ok, true, 1, .ok, true, 0) := by
  decide +kernel

theorem openEngine_begin :
    (openEngine.begin (wornFlash newSnapshot) (tinyLayout 256 16) tinyHeader none ()).1.map (·.1) =
      some .ok := by
  decide +kernel

theorem identity_fixed_openEngine :
    ∃ e, openEngine.begin (wornFlash newSnapshot) (tinyLayout 256 16) tinyHeader none () =
        (some (.ok, e), ()) ∧
      e.active = true ∧ e.Identical (e.abort .timeout) ∧
      ((e.Identical (e.bindRunningSlot 1).2 ∧ (EngineCall.Rebinds e (.runningSlot 1) →
        ∃ r, some (e.bindRunningSlot 1).1 = some r ∧ r ≠ .ok)) ↔ ¬e.Exposed (.runningSlot 1)) := by
  obtain ⟨hone, hall⟩ := identity_fixed (wornFlash newSnapshot) (tinyLayout 256 16)
  have hok := openEngine_begin
  rcases hbegin : openEngine.begin (wornFlash newSnapshot) (tinyLayout 256 16) tinyHeader none () with
    ⟨_ | ⟨r, e⟩, u⟩
  · rw [hbegin] at hok
    cases hok
  · rw [hbegin] at hok
    obtain rfl : r = .ok := Option.some.inj hok
    have hactive : e.active = true := (Engine.begun.of_some hbegin).active rfl
    have hstep : Engine.Works (wornFlash newSnapshot) (tinyLayout 256 16) (e, ()) (e.abort .timeout, ()) := by
      refine ⟨hactive, .abort .timeout, none, ?_, rfl⟩
      rintro ⟨-, -, slot, -, -, ⟨⟩⟩
    obtain ⟨ha, hid⟩ := hall openEngine tinyHeader none () (e, ()) _ hbegin (.single hstep)
    exact ⟨e, rfl, ha, hid, hone e _ (.runningSlot 1) _ () () hactive rfl⟩

end DaveOs.Update
