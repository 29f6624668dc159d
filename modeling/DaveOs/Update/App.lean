import DaveOs.Boot.ControlSpec
import DaveOs.Update.EngineStep

/-!
# The running image: confirmation and updates side by side

The image that runs in slot `r` confirms itself through a `Control` and installs updates through an
engine. Each has a journal of its own on the same flash, and nothing locks one against the other. What
keeps them apart is that the engine takes a package only from a confirmed image, and that the
confirmation of a confirmed image writes nothing. `AppOrder` is that as an invariant: the engine is idle,
or the newest snapshot has the image of slot `r` confirmed.
-/

namespace DaveOs.Update

open Boot Bytes Crash

/-- The journal of the image's `Control`, and its engine. -/
structure App where
  control : Journal := {}
  engine : Engine

inductive AppCall
  | confirm
  | engine (call : EngineCall)

namespace App

section perform

variable {σ : Type} (flash : Flash σ) (layout : Layout) (r : Nat)

/-- One call, its answer left to the caller. -/
def perform (a : App) : AppCall → Crash σ App
  | .confirm => do
    let (_, control) ← Control.confirmImage flash layout a.control r
    pure { a with control }
  | .engine call => do
    let engine ← a.engine.perform flash layout call
    pure { a with engine }

def performAll : List AppCall → App → Crash σ App
  | [], a => pure a
  | call :: calls, a => do
    let a ← a.perform flash layout r call
    performAll calls a

end perform

end App

/-- The call binds the engine to no other slot than `r`. -/
def AppCall.Within (r : Nat) : AppCall → Prop
  | .confirm => True
  | .engine call => call.Within (· = 1 - r)

/-- What the engine of slot `r` and the confirmation of that slot keep. -/
structure AppPolicy (layout : Layout) (r : Nat) (P : Snapshot → Cells → Prop) : Prop where
  engine : Policy layout (1 - r) P
  confirm : ∀ {s cells}, P s cells → (s.images.get r).state = .trial →
    P ((s.mark r .confirmed).following s) cells

/-- The image of slot `r` is confirmed. -/
def Assured (r : Nat) (P : Snapshot → Cells → Prop) (s : Snapshot) (cells : Cells) : Prop :=
  P s cells ∧ (s.images.get r).state = .confirmed

section policy

variable {layout : Layout} {r : Nat} {P : Snapshot → Cells → Prop}

theorem assured_policy (h : Policy layout (1 - r) P) (hr : r < 2) :
    Policy layout (1 - r) (Assured r P) where
  metadata hs heq := ⟨h.metadata hs.1 heq, hs.2⟩
  overwrite hs hinc heq := ⟨h.overwrite hs.1 hinc heq, hs.2⟩
  invalidate hs := by
    refine ⟨h.invalidate hs.1, ?_⟩
    rw [Snapshot.following_get, Snapshot.mark_get_ne (by omega) hr (by omega)]
    exact hs.2
  install hs hinc hv hroom hnumber hpending := by
    refine ⟨h.install hs.1 hinc hv hroom hnumber hpending, ?_⟩
    rw [Snapshot.following_get, Snapshot.install_get_ne (by omega) hr (by omega)]
    exact hs.2

end policy

/-! ## An engine that is not active -/

namespace Engine

variable {e : Engine}

theorem chunk_idle (h : e.active = false) (offset : Nat) (data : Bytes) (crc : UInt32) :
    (e.chunk offset data crc).2 = e := by
  have hready : e.ready = false := by
    obtain ⟨-, hrest⟩ := active_eq_false.mp h
    cases hs : e.state <;> simp [resting, hs] at hrest <;> simp [ready, hs]
  unfold chunk
  rw [if_pos (by simp [hready])]

theorem abort_idle (h : e.active = false) (reason : Status) : e.abort reason = e := by
  unfold abort
  rw [if_neg (by simp [h])]

variable {m : Medium} {executing : Option Nat} {d : Device m}

theorem begin_admits (h : e.active = false) (header : Bytes) (owner : Option Nat) :
    Wp (e.begin (Device.flash executing) m.layout header owner) (fun _ => True)
      (fun a _ => a.2.active = false ∨
        a.2.requested = true ∧ (a.2.snapshot.images.get a.2.runningSlot).state = .confirmed) d := by
  obtain ⟨hreq, hrest⟩ := active_eq_false.mp h
  refine .ite (fun _ => .pure (.inl h)) fun _ => .ite (fun _ => .pure (.inl h)) fun _ => ?_
  refine .ite (fun _ => .pure (.inl h)) fun _ => .ite (fun _ => .pure (.inl h)) fun _ => ?_
  cases decodeHeader header m.layout e.destination with
  | error r => exact .pure (.inl h)
  | ok header =>
    refine .bind (Q := fun a _ => a.2.active = false) ?_ ?_
    · refine .bind Wp.trivial ?_
      rintro ⟨result, snapshot, journal⟩ d' -
      exact .pure (active_eq_false.mpr ⟨hreq, hrest⟩)
    rintro ⟨result, e'⟩ d' hidle
    refine .ite (fun _ => .pure (.inl hidle)) fun _ => ?_
    refine .ite (fun _ => .pure (.inl hidle)) fun hconf => ?_
    refine .ite (fun _ => .pure (.inl hidle)) fun _ => .bind Wp.trivial fun r d'' _ => ?_
    refine .ite (fun _ => .pure (.inl hidle)) fun _ => .pure (.inr ⟨rfl, ?_⟩)
    exact Decidable.not_not.mp hconf

end Engine

/-! ## Confirmation and engine together -/

/-- The engine of slot `r` is in a phase. -/
abbrev EngineOrder (m : Medium) (P : Snapshot → Cells → Prop) (r : Nat) (e : Engine) (d : Device m) :
    Prop :=
  InOrder m P (· = 1 - r) e d

/-- The engine is idle, or the image of slot `r` is confirmed. -/
structure AppOrder (m : Medium) (P : Snapshot → Cells → Prop) (r : Nat) (a : App) (d : Device m) :
    Prop where
  control : a.control.Resting
  mode : a.engine.active = false ∧ EngineOrder m P r a.engine d ∨
    EngineOrder m (Assured r P) r a.engine d

section order

variable {m : Medium} {executing : Option Nat} {d d' : Device m} {P : Snapshot → Cells → Prop} {r : Nat}
  {a : App} {e : Engine}
variable {D : Nat → Prop}

theorem InOrder.calm (h : InOrder m P D e d) (hidle : e.active = false) : e.Calm :=
  h.phase.calm (Engine.active_eq_false.mp hidle).2

/-- A newest snapshot that keeps `P` is all that an idle engine needs. -/
theorem InOrder.idle (h : InOrder m P D e d) (hidle : e.active = false)
    (hg : Guarded m.layout P d'.toMemory) : InOrder m P D e d' := by
  obtain ⟨hreq, hrest⟩ := Engine.active_eq_false.mp hidle
  exact ⟨.quiet (.inl hrest) hreq (h.calm hidle) hg, h.destination⟩

/-- An engine that has just been asked for an installation knows the newest snapshot. -/
theorem InOrder.assured (h : EngineOrder m P r e d) (hr : r < 2) (hreq : e.requested = true)
    (hconf : (e.snapshot.images.get e.runningSlot).state = .confirmed) :
    EngineOrder m (Assured r P) r e d := by
  refine ⟨?_, h.destination⟩
  cases h.phase with
  | requested state requested calm admits unread knows =>
    have hslot : e.runningSlot = r := by
      have hdest : 1 - e.runningSlot = 1 - r := h.destination admits.slot
      have := admits.slot
      omega
    rw [hslot] at hconf
    exact .requested state requested calm admits unread ⟨knows.idle, knows.sound, knows.fine, hconf⟩
  | _ => simp_all

theorem AppOrder.guarded (hl : m.layout.Valid) (hP : AppPolicy m.layout r P) (hr : r < 2)
    (h : AppOrder m P r a d) : Guarded m.layout P d.toMemory := by
  rcases h.mode with ⟨-, ho⟩ | ho
  · exact ho.phase.guarded hl fun hs => ho.destination hs ▸ hP.engine
  · exact (ho.phase.guarded hl fun hs => ho.destination hs ▸ assured_policy hP.engine hr).mono fun _ _ h => h.1

variable (hm : m.Regular) (hw : m.Smooth) (hP : AppPolicy m.layout r P) (hr : r < 2)

include hm hP hr

/-- A call of an idle engine leaves it idle, or takes it into an installation from a confirmed image. -/
theorem wp_perform_idle (h : EngineOrder m P r e d) (hidle : e.active = false) {call : EngineCall}
    (hcall : call.Within (· = 1 - r)) :
    Wp (e.perform (Device.flash executing) m.layout call) (Engine.Lost m P)
      (fun e' d' => e'.active = false ∧ EngineOrder m P r e' d' ∨
        EngineOrder m (Assured r P) r e' d') d := by
  have horder : Wp (e.perform (Device.flash executing) m.layout call) (Engine.Lost m P)
      (EngineOrder m P r) d :=
    wp_perform hm (fun i (hi : i = 1 - r) => hi ▸ hP.engine) h hcall
  -- Only an admission leaves the engine active.
  have hadmit : Wp (e.perform (Device.flash executing) m.layout call) (fun _ => True)
      (fun e' _ => e'.active = false ∨ e'.requested = true ∧
        (e'.snapshot.images.get e'.runningSlot).state = .confirmed) d := by
    cases call with
    | begin header owner =>
      exact .bind (Engine.begin_admits hidle header owner) fun a d' hadm => .pure hadm
    | chunk offset data crc =>
      refine .pure (.inl ?_)
      rw [Engine.chunk_idle hidle]
      exact hidle
    | abort reason =>
      refine .pure (.inl ?_)
      rw [Engine.abort_idle hidle]
      exact hidle
    | enable value => exact .pure (.inl hidle)
    | reserve owner =>
      refine .pure (.inl ?_)
      unfold Engine.reserve
      split
      · exact hidle
      split
      · exact hidle
      · exact hidle
    | release owner =>
      refine .pure (.inl ?_)
      unfold Engine.release
      split
      · exact hidle
      · exact hidle
    | runningSlot slot =>
      refine .pure (.inl ?_)
      unfold Engine.bindRunningSlot
      split
      · exact hidle
      split
      · exact hidle
      · exact hidle
    | tick => exact (Engine.tick_idle hidle).conseq fun _ _ h => .inl h
  refine (horder.adding hadmit).conseq fun e' d' ⟨ho, hadm⟩ => ?_
  rcases hadm with hidle' | ⟨hreq, hconf⟩
  · exact .inl ⟨hidle', ho⟩
  · exact .inr (ho.assured hr hreq hconf)

include hw

theorem wp_confirm_assured (h : EngineOrder m (Assured r P) r e d) {j : Journal} (hj : j.Resting) :
    Wp (Control.confirmImage (Device.flash executing) m.layout j r)
      (fun d' => Settles d d' ∧ EngineOrder m (Assured r P) r e d')
      (fun b d' => b.2.Resting ∧ Settles d d' ∧ EngineOrder m (Assured r P) r e d') d := by
  have hg := h.phase.guarded hm.layout fun hs => h.destination hs ▸ assured_policy hP.engine hr
  have hsettle : ∀ d' : Device m, Settles d d' → EngineOrder m (Assured r P) r e d' := by
    rintro d' (hsame | ⟨op, hop, hdone⟩)
    · exact ⟨by rw [hsame]; exact h.phase, h.destination⟩
    · exact ⟨by rw [hdone]; exact h.phase.completed hm.layout hop, h.destination⟩
  exact (confirmImage_settles hm hw hg (fun h => h.2) hj).mono (fun d' hs => ⟨hs, hsettle d' hs⟩)
    fun b d' hs => ⟨hs.1, hs.2, hsettle d' hs.2⟩

/-- **One call** of the running image. -/
theorem wp_app_perform (h : AppOrder m P r a d) {call : AppCall} (hcall : call.Within r) :
    Wp (a.perform (Device.flash executing) m.layout r call) (Engine.Lost m P)
      (AppOrder m P r) d := by
  have hassured : ∀ i, i = 1 - r → Policy m.layout i (Assured r P) := fun i hi =>
    hi ▸ assured_policy hP.engine hr
  cases call with
  | confirm =>
    rcases h.mode with ⟨hidle, ho⟩ | ho
    · have hg := ho.phase.guarded hm.layout fun hs => ho.destination hs ▸ hP.engine
      refine .bind (wp_confirmImage hm hP.engine.metadata hP.confirm h.control hg) ?_
      rintro ⟨status, control⟩ d' ⟨hrest, hg'⟩
      exact .pure ⟨hrest, .inl ⟨hidle, ho.idle hidle hg'⟩⟩
    · refine .bind ((wp_confirm_assured hm hw hP hr ho h.control).mono (fun d' hs => ?_)
        fun _ _ hs => hs) ?_
      · have hg := hs.2.phase.guarded hm.layout fun hslot => hassured _ (ho.destination hslot)
        exact hg.mono fun _ _ h => h.1
      · rintro ⟨status, control⟩ d' ⟨hrest, -, ho'⟩
        exact .pure ⟨hrest, .inr ho'⟩
  | engine call =>
    rcases h.mode with ⟨hidle, ho⟩ | ho
    · refine .bind (wp_perform_idle hm hP hr ho hidle hcall) fun e' d' hmode => ?_
      exact .pure ⟨h.control, hmode⟩
    · refine .bind ((wp_perform hm hassured ho hcall).mono (fun d' hg => ?_) fun _ _ ho' => ho') ?_
      · exact Guarded.mono hg fun _ _ h => h.1
      · exact fun e' d' ho' => .pure ⟨h.control, .inr ho'⟩

/-- **Any calls** of the running image. -/
theorem wp_app_performAll : ∀ {calls : List AppCall} {a : App} {d : Device m},
    (∀ call ∈ calls, call.Within r) → AppOrder m P r a d →
    Wp (App.performAll (Device.flash executing) m.layout r calls a) (Engine.Lost m P)
      (AppOrder m P r) d := by
  intro calls
  induction calls with
  | nil => exact fun _ h => .pure h
  | cons call calls ih =>
    intro a d hcalls h
    exact .bind (wp_app_perform hm hw hP hr h (hcalls call List.mem_cons_self)) fun a' d' h' =>
      ih (fun c hc => hcalls c (List.mem_cons_of_mem _ hc)) h'

end order

end DaveOs.Update
