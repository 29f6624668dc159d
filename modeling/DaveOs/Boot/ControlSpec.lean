import DaveOs.Boot.ControlLive
import DaveOs.Boot.Evolution

/-!
# What a boot does to the snapshot

`select` rejects old trials and records new ones, one change after the other; wherever it is cut,
the newest snapshot has come from the first one by such changes (`wp_select`). When it returns ok
the image was pending or confirmed before, a pending one is on trial now, and no other trial is
left. `confirmImage` confirms the trial of its slot (`wp_confirmImage`).
-/

namespace DaveOs.Boot

open Bytes Crash Relation

/-- The snapshots a boot can have made of `s`. -/
def BootFrom (s t : Snapshot) (_ : Cells) : Prop := ReflTransGen BootChange s t ∧ t.stored = t

/-- What a boot that returned `sel` has found in `s` and left in `t`. -/
structure Booted (s : Snapshot) (sel : Selection) (t : Snapshot) : Prop where
  slot : sel.slot < 2
  eligible : (s.images.get sel.slot).state = .pending ∨ (s.images.get sel.slot).state = .confirmed
  image : sel.image.installation = (s.images.get sel.slot).installation
  trial : sel.trial = true ↔ (s.images.get sel.slot).state = .pending
  marked : sel.trial = true → (t.images.get sel.slot).state = .trial
  only : ∀ i, i < 2 → (t.images.get i).state = .trial → i = sel.slot ∧ sel.trial = true
  change : ReflTransGen BootChange s t

section stored

variable {s cur : Snapshot}
variable {i : Nat}

theorem becomes_mark {t : Snapshot} (h : cur.stored = cur) (hi : i < 2)
    (himages : ∀ k, k < 2 → s.images.get k = cur.images.get k) (state : ImageState)
    (ht : t = (s.mark i state).following cur) :
    Becomes cur i { cur.images.get i with state } t where
  lt := hi
  self := by
    rw [ht, Snapshot.following_get, Snapshot.mark_get, himages i hi]
    exact congrArg (fun image : Image => { image with state }) (Snapshot.image_stored h i)
  other := by
    rw [ht, Snapshot.following_get, Snapshot.mark_get_ne hi (by omega) (by omega),
      himages _ (by omega), Snapshot.image_stored h]

/-- The snapshot of a boot once its old trials are rejected. -/
structure Settled (s cur : Snapshot) : Prop where
  counter : cur.counter = s.counter
  images : ∀ i, i < 2 → cur.images.get i = (s.images.get i).rejectTrial
  change : ReflTransGen BootChange s cur
  stored : cur.stored = cur

theorem Settled.of_none (h : s.stored = s) (hnone : ¬s.hasTrial = true) : Settled s s where
  counter := rfl
  images i hi := (Image.rejectTrial_of_ne fun ht =>
    hnone (Snapshot.hasTrial_iff.mpr ⟨i, hi, ht⟩)).symm
  change := .refl
  stored := h

theorem Settled.reject (h : s.stored = s) : Settled s (s.rejectTrials.following s) := by
  have himages : ∀ i, i < 2 →
      (s.rejectTrials.following s).images.get i = (s.images.get i).rejectTrial := fun i _ => by
    rw [Snapshot.following_get, Snapshot.rejectTrials_get]
    unfold Image.rejectTrial
    split
    · exact congrArg (fun image : Image => { image with state := .rejected })
        (Snapshot.image_stored h i)
    · exact Snapshot.image_stored h i
  exact ⟨rfl, himages, .single (.reject rfl himages), Snapshot.following_stored _ _⟩

theorem Settled.state_ne (h : Settled s cur) (hi : i < 2) : (cur.images.get i).state ≠ .trial := by
  rw [h.images i hi]
  unfold Image.rejectTrial
  split
  · exact ImageState.noConfusion
  · assumption

theorem Settled.same (h : Settled s cur) (i : Nat) (hi : i < 2) :
    s.rejectTrials.images.get i = cur.images.get i := by
  rw [Snapshot.rejectTrials_get, h.images i hi]

theorem Settled.attempt (h : Settled s cur) (hi : i < 2)
    (hp : (s.rejectTrials.images.get i).state = .pending) :
    BootChange cur ((s.rejectTrials.mark i .trial).following cur) :=
  .attempt i h.counter.symm (by rw [← h.same i hi]; exact hp)
    (becomes_mark h.stored hi h.same .trial rfl)

theorem eligible_of_rejectTrial {image : Image} {state : ImageState}
    (h : image.rejectTrial.state = state) (hne : state ≠ .rejected) :
    image.state = state ∧ image.rejectTrial = image := by
  unfold Image.rejectTrial at h ⊢
  split
  · next htrial =>
    rw [if_pos htrial] at h
    exact absurd h.symm hne
  · next htrial =>
    rw [if_neg htrial] at h
    exact ⟨h, rfl⟩

end stored

section select

variable {m : Medium} {executing : Option Nat}
variable {i : Nat} {d : Device m} {s cur : Snapshot} {j : Journal}

theorem checksum_same {base : Nat} (L : List (Nat × Nat)) : ∀ {crc : UInt32} {d : Device m},
    Wp (checksum (Device.flash executing) base L crc) (fun d' => d'.toMemory = d.toMemory)
      (fun _ d' => d'.toMemory = d.toMemory) d := by
  induction L with
  | nil => exact .pure rfl
  | cons piece L ih =>
    intro crc d
    rw [checksum]
    refine .seq (Device.wp_read rfl (fun bs d' hm _ _ => ?_) fun r d' hm hr => ?_)
    · refine .ite (fun h => absurd rfl h) fun _ => ?_
      exact ih.mono (fun _ h => h.trans hm) fun _ _ h => h.trans hm
    · exact .ite (fun _ => .pure hm) fun h => absurd hr h

theorem verify_same {image : Image} :
    Wp (verify (Device.flash executing) m.layout i image) (fun d' => d'.toMemory = d.toMemory)
      (fun _ d' => d'.toMemory = d.toMemory) d := by
  unfold verify
  refine .ite (fun _ => .pure rfl) fun _ => .bind (checksum_same _) fun r d' hm => ?_
  exact .ite (fun _ => .pure hm) fun _ => .pure hm

variable (hm : m.Regular)

include hm

/-- What a boot leaves, in the end or where it is cut. -/
abbrev Boots (m : Medium) (s : Snapshot) (d : Device m) : Prop :=
  Guarded m.layout (BootFrom s) d.toMemory

def Selects (m : Medium) (s : Snapshot) (a : Selection × Journal) (d : Device m) : Prop :=
  Boots m s d ∧ a.2.Resting ∧ (a.1.status = .ok → ∃ t, d.pending = none ∧
    Sound m.layout d.cells t ∧ Booted s a.1 t)

theorem wp_accept (hs : Settled s cur) (hi : i < 2)
    (heligible : (s.rejectTrials.images.get i).state = .pending ∨
      (s.rejectTrials.images.get i).state = .confirmed) (hp : d.pending = none)
    (hsound : Sound m.layout d.cells cur) (hrest : j.Resting) :
    Wp (Control.accept (Device.flash executing) m.layout s.rejectTrials i j) (Boots m s)
      (Selects m s) d := by
  have hcur : BootFrom s cur d.cells := ⟨hs.change, hs.stored⟩
  have hget : s.rejectTrials.images.get i = (s.images.get i).rejectTrial :=
    Snapshot.rejectTrials_get s i
  unfold Control.accept
  refine .ite (fun hpend => ?_) fun hpend => .pure ?_
  · have hchange := hs.attempt hi hpend
    have hnxt : BootFrom s ((s.rejectTrials.mark i .trial).following cur) d.cells :=
      ⟨hs.change.tail hchange, Snapshot.following_stored _ _⟩
    refine .bind (wp_commit_idle hm (fun h _ => h) hrest hp hsound hcur hnxt) ?_
    rintro ⟨r, j'⟩ d' ⟨hrest', hguard, hok⟩
    refine .ite (fun hr => .pure ⟨hguard, hrest', fun h => absurd h hr⟩) fun hr => .pure ?_
    obtain ⟨hp', hsound'⟩ := hok (Decidable.not_not.mp hr)
    have hb := becomes_mark (t := (s.rejectTrials.mark i .trial).following cur) hs.stored hi hs.same
      .trial rfl
    rw [hget] at hpend
    obtain ⟨hstate, heq⟩ := eligible_of_rejectTrial hpend (by decide)
    refine ⟨hguard, hrest', fun _ => ⟨_, hp', hsound', ?_⟩⟩
    refine
      { slot := hi, eligible := .inl hstate, image := ?_, trial := ⟨fun _ => hstate, fun _ => rfl⟩,
        marked := fun _ => ?_, only := fun k hk ht => ?_, change := hs.change.tail hchange }
    · exact (congrArg Image.installation hget).trans (Image.rejectTrial_installation _)
    · rw [hb.self]
    · rcases hb.get hk with ⟨rfl, -⟩ | ⟨-, heq⟩
      · exact ⟨rfl, rfl⟩
      · rw [heq] at ht
        exact absurd ht (hs.state_ne hk)
  · have hconf := heligible.resolve_left hpend
    rw [hget] at hconf
    obtain ⟨hstate, heq⟩ := eligible_of_rejectTrial hconf (by decide)
    refine ⟨.of_sound hp hsound hcur, hrest, fun _ => ⟨cur, hp, hsound, ?_⟩⟩
    refine
      { slot := hi, eligible := .inr hstate, image := ?_, trial := ?_, marked := Bool.noConfusion,
        only := fun k hk ht => absurd ht (hs.state_ne hk), change := hs.change }
    · exact (congrArg Image.installation hget).trans (Image.rejectTrial_installation _)
    · refine ⟨Bool.noConfusion, fun h => ?_⟩
      rw [hstate] at h
      cases h

theorem wp_choose (hs : Settled s cur) (L : List Nat) :
    ∀ {failure : Status} {j : Journal} {d : Device m}, (∀ i ∈ L, i < 2) → failure ≠ .ok →
    d.pending = none → Sound m.layout d.cells cur → j.Resting →
    Wp (Control.choose (Device.flash executing) m.layout s.rejectTrials L failure j) (Boots m s)
      (Selects m s) d := by
  induction L with
  | nil =>
    intro failure j d _ hfail hp hsound hrest
    exact .pure ⟨.of_sound hp hsound ⟨hs.change, hs.stored⟩, hrest, fun h => absurd h hfail⟩
  | cons slot L ih =>
    intro failure j d hL hfail hp hsound hrest
    have hL' : ∀ i ∈ L, i < 2 := fun i hi => hL i (List.mem_cons_of_mem _ hi)
    have hguard : ∀ d' : Device m, d'.toMemory = d.toMemory → Boots m s d' := fun d' h => by
      unfold Boots
      rw [h]
      exact .of_sound hp hsound ⟨hs.change, hs.stored⟩
    rw [Control.choose]
    refine .ite (fun _ => ih hL' hfail hp hsound hrest) fun helig => ?_
    refine .bind (verify_same.mono hguard fun _ _ h => h) fun r d' hsame => ?_
    have hp' : d'.pending = none := by rw [hsame, hp]
    have hsound' : Sound m.layout d'.cells cur := by rw [hsame]; exact hsound
    refine .ite (fun hr => ih hL' hr hp' hsound' hrest) fun _ => ?_
    refine wp_accept hm hs (hL slot List.mem_cons_self) ?_ hp' hsound' hrest
    exact Classical.byContradiction fun h => helig (not_or.mp h)

/-- **A boot**, on any flash with nothing in progress. -/
theorem wp_select (hp : d.pending = none) (hsound : Sound m.layout d.cells s) (hrest : j.Resting) :
    Wp (Control.select (Device.flash executing) m.layout j) (Boots m s) (Selects m s) d := by
  have hself : BootFrom s s d.cells := ⟨.refl, hsound.stored_eq⟩
  have hguard₀ : Boots m s d := .of_sound hp hsound hself
  have hchoose : ∀ {cur : Snapshot} {j : Journal} {d' : Device m}, Settled s cur →
      d'.pending = none → Sound m.layout d'.cells cur → j.Resting →
      Wp (Control.choose (Device.flash executing) m.layout s.rejectTrials
        [s.rejectTrials.newest, 1 - s.rejectTrials.newest] .notFound j) (Boots m s)
        (Selects m s) d' := by
    intro cur j' d' hs hp' hsound' hrest'
    refine wp_choose hm hs _ (fun i hi => ?_) (by decide) hp' hsound' hrest'
    have hnew : s.rejectTrials.newest < 2 := by
      unfold Snapshot.newest
      split <;> decide
    simp only [List.mem_cons, List.not_mem_nil, or_false] at hi
    omega
  refine .bind (wp_load_guarded hm hguard₀) ?_
  rintro _ d₁ (⟨-, hne, -⟩ | ⟨cur, p, rfl, hp₁, ho, hsound₁, -⟩)
  · exact absurd hp hne
  have hsame : d₁.toMemory = d.toMemory := outcome_same hp hp₁ ho
  obtain rfl : cur = s := hsound₁.unique (by rw [hsame]; exact hsound)
  have hrest₁ : ({ j with latest := p } : Journal).Resting := { hrest with }
  refine .ite (fun h => absurd rfl h) fun _ => ?_
  unfold Control.settleTrials
  refine .seq (.ite (fun htrial => ?_) fun hnone => .pure ?_)
  · have hs := Settled.reject (s := cur) hsound.stored_eq
    refine .conseq (wp_commit_idle hm (fun h _ => h) hrest₁ hp₁ hsound₁ hself
      ⟨hs.change, hs.stored⟩) ?_
    rintro ⟨r, j'⟩ d₂ ⟨hrest₂, hguard₂, hok⟩
    refine .ite (fun hr => .pure ⟨hguard₂, hrest₂, fun h => absurd h hr⟩) fun hr => ?_
    obtain ⟨hp₂, hsound₂⟩ := hok (Decidable.not_not.mp hr)
    exact hchoose hs hp₂ hsound₂ hrest₂
  · refine .ite (fun h => absurd rfl h) fun _ => ?_
    exact hchoose (.of_none hsound.stored_eq hnone) hp₁ hsound₁ hrest₁

end select

/-! ## Confirmation -/

section confirm

variable {m : Medium} {executing : Option Nat} {P : Snapshot → Cells → Prop} {j : Journal}
  {d : Device m} {r : Nat} (hm : m.Regular)

include hm

theorem wp_confirmImage
    (hP : ∀ {s cells cells'}, P s cells → (∀ x, ¬m.layout.InMetadata x → cells' x = cells x) →
      P s cells')
    (hconfirm : ∀ {s cells}, P s cells → (s.images.get r).state = .trial →
      P ((s.mark r .confirmed).following s) cells)
    (hrest : j.Resting) (hg : Guarded m.layout P d.toMemory) :
    Wp (Control.confirmImage (Device.flash executing) m.layout j r)
      (fun d' => Guarded m.layout P d'.toMemory)
      (fun a d' => a.2.Resting ∧ Guarded m.layout P d'.toMemory) d := by
  refine .ite (fun _ => .pure ⟨hrest, hg⟩) fun _ => .bind (wp_load_guarded hm hg) ?_
  rintro _ d₁ (⟨rfl, -, hsame⟩ | ⟨cur, p, rfl, hp, -, hsound, hcur⟩)
  · refine .ite (fun _ => .pure ⟨hrest, ?_⟩) fun h => absurd Status.noConfusion h
    rw [hsame]
    exact hg
  have hg₁ : Guarded m.layout P d₁.toMemory := .of_sound hp hsound hcur
  have hrest₁ : ({ j with latest := p } : Journal).Resting := { hrest with }
  refine .ite (fun h => absurd rfl h) fun _ => .ite (fun _ => .pure ⟨hrest₁, hg₁⟩) fun _ => ?_
  refine .ite (fun _ => .pure ⟨hrest₁, hg₁⟩) fun htrial => ?_
  have htrial := Decidable.not_not.mp htrial
  exact (wp_commit_idle (P := P) hm hP hrest₁ hp hsound hcur (hconfirm hcur htrial)).conseq
    fun _ _ h => ⟨h.1, h.2.1⟩

/-- The memory is as it was, or the operation in progress has been completed. -/
def Settles (d d' : Device m) : Prop :=
  d'.toMemory = d.toMemory ∨
    ∃ op, d.pending = some op ∧ d'.toMemory = { cells := op.apply m.layout d.cells }

/-- Operations that have started do not end in an error. -/
def Medium.Smooth (m : Medium) : Prop := ∀ e, m.May e → e.poll = .ok ∨ e.poll = .busy

theorem load_settles (hw : m.Smooth) :
    Wp (Journal.load (Device.flash executing) m.layout j) (Settles d) (fun _ d' => Settles d d')
      d := by
  have hstill : ∀ {d₁ d₂ : Device m}, Settles d d₁ → d₂.toMemory = d₁.toMemory → Settles d d₂ := by
    intro d₁ d₂ hs h
    unfold Settles
    rw [h]
    exact hs
  have hscan : ∀ d₁, Settles d d₁ → d₁.pending = none → ∃ c K, K d₁ ∧
      (∀ p ∈ m.layout.slotsOf, Contents.Backs c (Device.flash executing) (Settles d) K p) ∧
      ∀ r s p d₂, K d₂ → Answers c m.layout.slotsOf r s p → Settles d d₂ := fun d₁ hs hidle =>
    ⟨_, fun d₂ => d₂.toMemory = d₁.toMemory, rfl,
      backs_cells hm.layout hm.steady hidle fun _ => hstill hs, fun _ _ _ _ h _ => hstill hs h⟩
  refine wp_load_backed hm.valid (Device.wp_poll (.inl rfl) ?_ ?_ ?_ ?_)
  · exact fun d₁ hp h => .inr ⟨by decide, hscan d₁ (.inl h) (by rw [h, hp])⟩
  · exact fun op d₁ _ h => .inl ⟨rfl, .inl h⟩
  · exact fun op d₁ hp h => .inr ⟨by decide, hscan d₁ (.inr ⟨op, hp, h⟩) (by rw [h])⟩
  · intro e op d₁ he _ hne hne' _
    exact absurd (hw e he) (by simp [hne, hne'])

theorem confirmImage_settles (hw : m.Smooth) (hg : Guarded m.layout P d.toMemory)
    (hP : ∀ {s cells}, P s cells → (s.images.get r).state = .confirmed) (hrest : j.Resting) :
    Wp (Control.confirmImage (Device.flash executing) m.layout j r) (Settles d)
      (fun a d' => a.2.Resting ∧ Settles d d') d := by
  refine .ite (fun _ => .pure ⟨hrest, .inl rfl⟩) fun _ => ?_
  refine .bind (((load_settles hm hw).and (wp_load_guarded hm hg)).mono (fun _ h => h.1)
    fun _ _ h => h) ?_
  rintro _ d₁ ⟨hs, ⟨rfl, -, -⟩ | ⟨cur, p, rfl, -, -, -, hcur⟩⟩
  · exact .ite (fun _ => .pure ⟨hrest, hs⟩) fun h => absurd Status.noConfusion h
  · refine .ite (fun h => absurd rfl h) fun _ => .ite (fun _ => .pure ⟨{ hrest with }, hs⟩) ?_
    exact fun h => absurd (hP hcur) h

end confirm

end DaveOs.Boot
