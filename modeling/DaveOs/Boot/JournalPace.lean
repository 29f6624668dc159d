import DaveOs.Boot.JournalBounds
import DaveOs.Boot.JournalLive

/-!
# How many ticks an operation of the journal takes

On a flash that may answer anything, a tick of a busy journal brings its operation a step closer to the end
(`Journal.rank`) or is answered with `busy` by the poll (`tick_pace`). The operation's steps are bounded, so
where the busy polls in a row are bounded the ticks are too.
-/

namespace DaveOs.Boot

open Crash

/-- The busy polls since the last other answer, or since an operation was started. -/
def streak : List Access → Nat
  | [] => 0
  | .poll r :: log => if r = .busy then streak log + 1 else 0
  | .erase _ r :: log => if r = .ok then 0 else streak log
  | .program _ _ r :: log => if r = .ok then 0 else streak log
  | .read _ _ _ _ :: log => streak log
  | .now _ :: log => streak log

variable {layout : Layout} {executing : Option Nat}

/-- A journal's run, whatever is programmed. -/
def Watch.blind (layout : Layout) (executing : Option Nat) : Watch where
  layout := layout
  executing := executing
  programmed _ _ := False
  kept _ := True
  wear := ⟨fun _ _ _ => .inl, fun _ _ _ _ _ _ h => h, fun _ _ _ _ _ _ h => h⟩
  admits _ _ _ _ := trivial

namespace Journal

variable {j : Journal} {p : Probe} {replies : Nat → Reply} {fuel : Nat}
variable {σ : Type} {flash : Flash σ} {s : σ}

/-- The machine fits its records, whatever the flash has done. -/
def Fit (layout : Layout) (executing : Option Nat) (j : Journal) : Prop :=
  ∀ log, (Watch.blind layout executing).Ready log j

theorem Fit.of_ready {log : List Access} (h : (Watch.blind layout executing).Ready log j) :
    j.Fit layout executing := by
  intro log'
  refine { h with aimed := ?_ }
  have haim := h.aimed
  generalize j.stage = s at haim
  cases s with
  | eraseWait => exact ⟨haim.1, .inr fun _ _ _ => id⟩
  | write | writeWait => exact { haim with vacant := fun _ _ _ => id }
  | _ => exact haim

theorem fit_new : ({} : Journal).Fit layout executing := .of_ready (Watch.ready_new trivial)

section calls

variable (hl : layout.Valid) (h : j.Fit layout executing)

include hl h

theorem tick_fit : Wp (j.tick (Probe.flash replies fuel executing) layout) (fun _ => False)
    (fun j' _ => j'.Fit layout executing) p :=
  (Watch.wp_tick (w := .blind layout executing) hl (h p.log)).conseq fun _ _ h' => .of_ready h'

theorem load_fit : Wp (j.load (Probe.flash replies fuel executing) layout) (fun _ => False)
    (fun a _ => a.2.2.Fit layout executing) p := by
  refine (Watch.wp_load (w := .blind layout executing) hl).conseq ?_
  rintro ⟨r, snapshot, j'⟩ p' ⟨-, hsame, -⟩
  simp only at hsame ⊢
  rw [hsame]
  exact fun log => (h log).unseen

variable (hends : ∀ i, i < 2 → layout.bank i + layout.sector < 4294967296)
  (hfuel : layout.sector / kRecordSize ≤ fuel)

include hends hfuel

theorem begin_fit (snapshot : Snapshot) (fresh : Bool) :
    Wp (j.begin (Probe.flash replies fuel executing) layout snapshot fresh) (fun _ => False)
      (fun a _ => a.2.Fit layout executing) p :=
  (Watch.wp_begin (w := .blind layout executing) hl hends (fun hf _ _ => absurd hfuel (Nat.not_le.mpr hf)) (h p.log)
    snapshot fresh).conseq fun _ _ h' => .of_ready h'

end calls

theorem Stuck.tick (h : j.Stuck) :
    Wp (j.tick flash layout) (fun _ => True) (fun j' _ => j'.Stuck) s :=
  show Wp (j.round flash layout none) _ _ s from h.round

theorem begin_refused {snapshot : Snapshot} {fresh : Bool} (hfree : j.status ≠ .busy) :
    Wp (j.begin flash layout snapshot fresh) (fun _ => True) (fun a _ => a.1 ≠ .ok → a.2.status ≠ .busy) s := by
  refine .ite (fun hb => absurd hb hfree) fun _ => .bind load_idem ?_
  rintro ⟨loaded, current, j₁⟩ s₁ h₁
  have hj₁ : j₁.status ≠ .busy := by rw [h₁.status]; exact hfree
  refine .ite (fun _ => .pure fun _ => hj₁) fun _ => .bind Wp.trivial fun r s₂ _ => ?_
  refine .ite (fun _ => .pure fun _ => hj₁) fun _ => .ite (fun _ => .pure fun _ => hj₁) fun _ => ?_
  refine .ite (fun _ => .pure fun _ => hj₁) fun _ => .bind place_idem ?_
  rintro ⟨result, j₂⟩ s₃ h₂
  refine .ite (fun _ => .pure fun _ => ?_) fun _ => .pure fun hne => absurd rfl hne
  rw [h₂.status]
  exact hj₁

/-- A step of a busy journal: the operation has ended, is a step closer to its end, or was polled as busy. -/
def Paced (layout : Layout) (j : Journal) (log : List Access) (j' : Journal) (log' : List Access) : Prop :=
  j'.status = .busy → j'.Stuck ∨ j'.rank layout < j.rank layout ∨
    j'.rank layout = j.rank layout ∧ streak log' = streak log + 1

theorem Fit.fitting (hl : layout.Valid) (h : j.Fit layout executing) : j.Fitting layout := by
  have hwork {s : JournalState} (hs : s ∈ working) (hj : j.state = s) :
      (Watch.blind layout executing).Aimed [] j s := hj ▸ ((h []).at_work (hj ▸ hs)).2.2
  refine ⟨fun hs => ((h []).at_work hs).1, fun hs _ => (hwork (by decide) hs).1.2, fun hs => ?_⟩
  exact Watch.Writes.room (w := .blind layout executing) hl (hwork (by decide) hs)

/-- **A tick of a busy journal.** -/
theorem tick_pace (hl : layout.Valid) (h : j.Fit layout executing) (ho : j.Orderly) (hbusy : j.status = .busy) :
    Wp (j.tick (Probe.flash replies fuel executing) layout) (fun _ => False)
      (fun j' p' => j'.Fit layout executing ∧ (j'.Orderly ∨ j'.Stuck) ∧ j.Paced layout p.log j' p'.log) p := by
  have hpace : Wp (j.tick (Probe.flash replies fuel executing) layout) (fun _ => False)
      (fun j' p' => j.Paced layout p.log j' p'.log) p := by
    refine tick_spec.mono (fun _ hcut => absurd Probe.answers hcut) ?_
    rintro j' p' ⟨j₁, p₁, hwatch, hstep⟩ hb
    have hsame := hwatch.same
    have hlog : streak p₁.log = streak p.log := by
      cases hwatch with
      | idle => rfl
      | starts _ run | looks _ _ run => rw [← (Prod.mk.inj run).2]; rfl
    have hf : j₁.Fitting layout := by rw [hsame]; exact { h.fitting hl with }
    have hrank : j₁.rank layout = j.rank layout := by rw [hsame]; rfl
    rw [← hrank, ← hlog]
    rcases hstep.rank_lt hl hf with hlt | ⟨hj, hpoll⟩
    · exact .inr (.inl hlt)
    · have hwork : j₁.requested = true ∨ j₁.state ∈ working := by rw [hsame]; exact ho.truthful.mp hbusy
      obtain ⟨hr, rfl⟩ := Prod.mk.inj (hpoll hwork)
      refine .inr (.inr ⟨congrArg _ hj, ?_⟩)
      change streak (.poll (replies p₁.next).status :: p₁.log) = _
      rw [streak, if_pos (Option.some.inj hr)]
  refine ((tick_fit hl h).and (hpace.and (tick_orderly ho))).mono (fun _ hc => hc.1) fun j' p' hall => ?_
  exact ⟨hall.1, hall.2.2.imp And.right And.right, hall.2.1⟩

end Journal

end DaveOs.Boot
