import DaveOs.Otp.Contents

/-!
# What the flash driver does to the flash

Reads change nothing (`Still`). A write programs one erased word: it ends with the word written, or
power is lost before or during it (`Cutting`).
-/

namespace DaveOs.Otp

open Bytes Wire Crash

variable {d : Device} {C : Device → Prop} {base : Nat}
variable {d' : Device} {f : FlashOtp} {pos b : Nat} {word : Word} {polls : Nat}

/-- The contents, the program in progress and the log are the same. -/
structure Still (d d' : Device) : Prop where
  contents : d'.contents = d.contents
  pending : d'.pending = d.pending
  log : d'.log = d.log

theorem Still.refl (d : Device) : Still d d := ⟨rfl, rfl, rfl⟩

theorem Still.trans {d'' : Device} (h : Still d d') (h' : Still d' d'') : Still d d'' :=
  ⟨h'.contents.trans h.contents, h'.pending.trans h.pending, h'.log.trans h.log⟩

theorem wp_call {α : Type} {f : Event → Device → α × Device} {Q : α → Device → Prop}
    (hC : d.events = [] → C d) (h : ∀ e rest, d.events = e :: rest →
      Q (f e { d with events := rest }).1 (f e { d with events := rest }).2) :
    Wp (Device.call f) C Q d := by
  unfold Wp Device.call
  cases hevents : d.events with
  | nil => exact hC hevents
  | cons e rest => exact h e rest hevents

/-- The meter of the events that are left. -/
def eventMeter : Meter Device where
  life d := d.events.length
  later _ _ := True
  refl _ := trivial
  trans _ _ := trivial

theorem costs_read (pos size : Nat) (d : Device) :
    Costs eventMeter 1 (Device.flash.read pos size) d := by
  unfold Costs
  show Wp (Device.read pos size) _ _ _
  unfold Device.read
  refine wp_call (fun hnil => by simp [eventMeter, hnil]) fun e rest hcons => ?_
  simp only [eventMeter, hcons]
  (repeat' split) <;> simp

theorem costs_loadWords (n : Nat) : ∀ (pos : Nat) (d : Device),
    Costs eventMeter n (FlashOtp.loadWords Device.flash n pos) d := by
  induction n with
  | zero => exact fun pos d => .pure
  | succ n ih =>
    intro pos d
    rw [FlashOtp.loadWords, Nat.add_comm]
    refine (costs_read pos 16 d).bind fun r d' => ?_
    refine .ite (fun _ => .pure) fun _ => ?_
    exact .bind (k := 0) (ih (pos + 16) d') fun r d' => .pure

theorem costs_inspect (f : FlashOtp) (b : Nat) (d : Device) :
    Costs eventMeter 16 (f.inspect Device.flash b) d := by
  unfold FlashOtp.inspect
  refine .bind (n := 16) (k := 0) ?_ fun r d' => ?_
  · unfold FlashOtp.load
    refine .ite (fun _ => .pure) fun _ => ?_
    refine .ite (fun _ => .pure) fun _ => ?_
    exact .ite (fun _ => .pure) fun _ => costs_loadWords 16 _ d
  · exact .ite (fun _ => .pure) fun _ => .pure

/-! ## Reading -/

theorem wp_read (hC : ∀ d', Still d d' → C d') :
    Wp (Device.flash.read pos 16) C (fun r d' => Still d d' ∧
      r = match d.contents pos with
        | some word => (.ok, word.val)
        | none => (.ioError, [])) d := by
  show Wp (Device.read pos 16) _ _ _
  unfold Device.read
  refine wp_call (fun _ => hC d (.refl d)) fun e rest _ => ?_
  rw [if_neg (by decide)]
  dsimp only
  cases d.contents pos with
  | none | some word => exact ⟨⟨rfl, rfl, rfl⟩, rfl⟩

theorem wp_loadWords (n : Nat) : ∀ {d : Device} {pos : Nat}, (∀ d', Still d d' → C d') →
    Wp (FlashOtp.loadWords Device.flash n pos) C (fun r d' => Still d d' ∧ r = (.ok,
      (List.range n).map fun i => (d.contents (pos + i * 16)).map Subtype.val)) d := by
  induction n with
  | zero => exact fun _ => .pure ⟨.refl _, rfl⟩
  | succ n ih =>
    intro d pos hC
    rw [FlashOtp.loadWords]
    refine (wp_read hC).bind fun r d₁ ⟨hstill, hr⟩ => ?_
    have hword : ∃ w : Option Bytes, (d.contents pos).map Subtype.val = w ∧
        ¬ (r.1 ≠ .ok ∧ r.1 ≠ .ioError) ∧ (if r.1 = .ok then some r.2 else none) = w := by
      subst hr
      cases d.contents pos with
      | none => exact ⟨none, rfl, by decide, rfl⟩
      | some word => exact ⟨some word.val, rfl, by simp, rfl⟩
    obtain ⟨w, hw, hcont, hentry⟩ := hword
    dsimp only
    rw [if_neg hcont]
    refine (ih fun d' hd' => hC d' (hstill.trans hd')).bind fun r₂ d₂ ⟨hstill₂, hr₂⟩ => ?_
    refine .pure ⟨hstill.trans hstill₂, ?_⟩
    rw [hr₂, hentry, ← hw, hstill.contents, List.range_succ_eq_map]
    simp [Nat.add_assoc, Nat.add_comm, Nat.succ_mul]

/-- The driver is running on its region. -/
structure Running (base : Nat) (f : FlashOtp) : Prop where
  base : f.base = base
  initialized : f.initialized = true
  timedOut : f.timedOut = false
  lockNext : ∀ b, f.lockNext b ≤ 16

theorem wp_load (hf : Running base f) (hb : b < kBlockCount) (hC : ∀ d', Still d d' → C d') :
    Wp (f.load Device.flash b) C (fun r d' => Still d d' ∧ r = (.ok, image d.contents base b)) d := by
  unfold FlashOtp.load
  rw [if_neg (by simp [hf.initialized]), if_neg (by simp [hf.timedOut]),
    if_neg (Nat.not_le.2 hb), hf.base]
  exact wp_loadWords 16 hC

theorem wp_inspect (hf : Running base f) (hb : b < kBlockCount) (hC : ∀ d', Still d d' → C d') :
    Wp (f.inspect Device.flash b) C (fun r d' => Still d d' ∧
      r = (.ok, examine (f.attempted b) b (image d.contents base b))) d := by
  unfold FlashOtp.inspect
  refine (wp_load hf hb hC).bind fun r d₁ ⟨hstill, hr⟩ => ?_
  subst hr
  exact .pure ⟨hstill, rfl⟩

/-! ## Writing -/

/-- Power was lost before or during a program of `word` at `pos`. -/
def Cutting (d : Device) (pos : Nat) (word : Bytes) (d' : Device) : Prop :=
  Still d d' ∨ (d'.contents = d.contents ∧ d'.log = d.log ++ [.program pos word d.contents] ∧
    ∃ p, d'.pending = some p ∧ p.pos = pos)

/-- When the program in progress was started. -/
def Device.since (d : Device) : Nat := (d.pending.map Pending.since).getD 0

/-- A program in progress since at most its time limit. -/
structure InProgress (d : Device) (pos : Nat) (word : Word) (polls : Nat) (d' : Device) :
    Prop where
  contents : d'.contents = d.contents
  log : d'.log = d.log ++ [.program pos word.val d.contents]
  pending : ∃ since : Nat,
    d'.pending = some { pos := pos, word := word, since := since, polls := polls } ∧
    since ≤ d'.clock ∧ (d'.clock : Nat) < since + kWriteTimeout

theorem InProgress.cutting (h : InProgress d pos word polls d') : Cutting d pos word.val d' := by
  obtain ⟨since, hp, -⟩ := h.pending
  exact .inr ⟨h.contents, h.log, _, hp, rfl⟩

structure Done (d : Device) (pos : Nat) (word : Word) (d' : Device) : Prop where
  contents : d'.contents = Function.update d.contents pos (some word)
  log : d'.log = d.log ++ [.program pos word.val d.contents]
  pending : d'.pending = none

theorem wp_program (hC : ∀ d', Cutting d pos word.val d' → C d') :
    Wp (Device.flash.program pos word.val) C
      (fun status d' => status = .ok ∧ InProgress d pos word 0 d') d := by
  show Wp (Device.program pos word.val) _ _ _
  unfold Device.program
  refine wp_call (fun _ => hC d (.inl (.refl d))) fun e rest _ => ?_
  rw [dif_pos word.property]
  exact ⟨rfl, rfl, rfl, d.clock, rfl, Nat.le_refl _, Nat.lt_add_of_pos_right (by decide)⟩

theorem wp_poll (hones : d.contents pos = some Word.ones)
    (hC : ∀ d', Cutting d pos word.val d' → C d') (h : InProgress d pos word polls d') :
    Wp Device.flash.poll C (fun status d'' =>
      (status = .busy ∧ polls + 1 < kPollBudget ∧ InProgress d pos word (polls + 1) d'' ∧
        d''.since = d'.since) ∨
      (status = .ok ∧ Done d pos word d'')) d' := by
  obtain ⟨since, hp, hle, hlt⟩ := h.pending
  show Wp Device.poll _ _ _
  unfold Device.poll
  refine wp_call (fun _ => hC d' h.cutting) fun e rest _ => ?_
  simp only [hp]
  split
  · next hbusy =>
    exact .inl ⟨rfl, hbusy.2, ⟨h.contents, h.log, since, rfl, hle, hlt⟩, by simp [Device.since, hp]⟩
  · refine .inr ⟨rfl, ⟨?_, h.log, rfl⟩⟩
    simp only [h.contents, hones, if_true]

theorem wp_now (hC : ∀ d', Cutting d pos word.val d' → C d') (h : InProgress d pos word polls d') :
    Wp Device.flash.now C (fun now d'' => InProgress d pos word polls d'' ∧
      d''.since = d'.since ∧ d'.since ≤ now ∧ (now : Nat) < d'.since + kWriteTimeout) d' := by
  obtain ⟨since, hp, hle, hlt⟩ := h.pending
  have hk : kWriteTimeout = 100000 := rfl
  show Wp Device.now _ _ _
  unfold Device.now
  refine wp_call (fun _ => hC d' h.cutting) fun e rest _ => ?_
  simp only [hp, Device.since]
  have hclock : since ≤ max (d'.clock : Nat) (min (d'.clock + e.advance) (since + kWriteTimeout - 1)) ∧
      max (d'.clock : Nat) (min (d'.clock + e.advance) (since + kWriteTimeout - 1)) <
        since + kWriteTimeout := by
    omega
  exact ⟨⟨h.contents, h.log, since, rfl, hclock.1, hclock.2⟩, trivial, hclock.1, hclock.2⟩

/-- A program is awaited to its end: the last poll of the budget is not busy, and the clock does not
reach the timeout. -/
theorem wp_await (hones : d.contents pos = some Word.ones)
    (hC : ∀ d', Cutting d pos word.val d' → C d') {start : Nat} (n : Nat) :
    ∀ {polls : Nat} {d' : Device}, polls + n + 1 = kPollBudget → InProgress d pos word polls d' →
    d'.since ≤ start →
    Wp (FlashOtp.await Device.flash start (n + 1)) C
      (fun r d'' => r = some .ok ∧ Done d pos word d'') d' := by
  induction n with
  | zero =>
    intro polls d' hn h hstart
    rw [FlashOtp.await]
    refine (wp_poll hones hC h).bind ?_
    rintro status d₁ (⟨-, hlt, -⟩ | ⟨rfl, hdone⟩)
    · omega
    · exact .pure ⟨rfl, hdone⟩
  | succ n ih =>
    intro polls d' hn h hstart
    rw [FlashOtp.await]
    refine (wp_poll hones hC h).bind ?_
    rintro status d₁ (⟨rfl, -, hbusy, hsince⟩ | ⟨rfl, hdone⟩)
    · rw [if_neg (by decide)]
      refine (wp_now hC hbusy).bind ?_
      rintro now d₂ ⟨hbusy₂, hsince₂, -, hnow⟩
      have hearly : ¬ @GE.ge Nat _ (now - start) kWriteTimeout := by
        have hk : kWriteTimeout = 100000 := rfl
        have hnow : @LT.lt Nat _ now (d₁.since + kWriteTimeout) := hnow
        omega
      rw [if_neg hearly]
      exact ih (by omega) hbusy₂ (by omega)
    · exact .pure ⟨rfl, hdone⟩

theorem wp_write {i : Nat} (word : Word) (hf : Running base f)
    (hones : d.contents (wordAt base b i) = some Word.ones)
    (hC : ∀ d', Cutting d (wordAt base b i) word.val d' → C d') :
    Wp (f.write Device.flash b (i * 16) word.val) C (fun r d' =>
      r = (⟨.ok, true⟩, { f with attempted := Function.update f.attempted b true }) ∧
      Done d (wordAt base b i) word d') d := by
  unfold FlashOtp.write
  rw [hf.base]
  refine (wp_program hC).bind ?_
  rintro status d₁ ⟨rfl, hprog⟩
  rw [if_neg (by decide)]
  refine (wp_now hC hprog).bind ?_
  rintro start d₂ ⟨hprog₂, hsince, hstart, -⟩
  refine (wp_await hones hC (kPollBudget - 1) (by decide) hprog₂ (by omega)).bind ?_
  rintro r d₃ ⟨rfl, hdone⟩
  exact .pure ⟨rfl, hdone⟩

end DaveOs.Otp
