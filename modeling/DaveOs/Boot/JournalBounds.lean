import DaveOs.Boot.JournalBusy
import DaveOs.Boot.JournalCalls

/-!
# Where the journal reads, erases and programs

The journal runs on a flash that may answer anything. Which cells are programmed is an account kept beside
the run (`Wear`): only a program adds to it, a completed erase empties a sector, and the flash never shows
a programmed unit as erased. Every call then stays in the two metadata sectors, programs only erased units
and never erases the bank that executes (`Bounded`).

The scans step a 32-bit address against a 64-bit end. A sector that ends at `2^32` is a valid layout, and
there the address wraps around below the end: the scan leaves the sector, and need not end. And the poll at
the start of `load` takes the answer of an erase that the machine waits for; an error is lost there, and the
machine goes on to program what was not erased (`Journal.Loses`). Apart from the two every call is in bounds
(`journal_bounded`).
-/

namespace DaveOs.Boot

variable {i pos n : Nat} {r : Status}

open Crash Relation

/-! ## The account of a run -/

/-- The erase in progress: accepted, and no poll has ended it. -/
def erasing : List Access → Option Nat
  | [] => none
  | .erase pos r :: log => if r = .ok then some pos else erasing log
  | .poll r :: log => if r = .busy then erasing log else none
  | _ :: log => erasing log

/-- Cell `x` was shown as erased by a read since the last other call. -/
def ShownBlank : List Access → Nat → Prop
  | .read pos _ r bytes :: log, x => (r = .ok ∧ pos ≤ x ∧ bytes[x - pos]? = some 0xff) ∨ ShownBlank log x
  | _, _ => False

variable (layout : Layout)

/-- An account of the programmed cells. -/
structure Wear (programmed : List Access → Nat → Prop) : Prop where
  /-- Only a program adds to it. -/
  grows : ∀ a log x, programmed (a :: log) x →
    programmed log x ∨ ∃ pos data r, a = .program pos data r ∧ pos ≤ x ∧ x < pos + data.length
  /-- A completed erase empties its sector. -/
  cleared : ∀ log pos x, erasing log = some pos → pos ≤ x → x < pos + layout.sector →
    ¬programmed (.poll .ok :: log) x
  /-- A programmed unit is never shown as erased. -/
  honest : ∀ log u, u % layout.unit = 0 → (∀ k, k < layout.unit → ShownBlank log (u + k)) →
    ∀ k, k < layout.unit → ¬programmed log (u + k)

variable (executing : Option Nat)

/-- An erase may be aimed at `pos`: a metadata sector, but not that of the executing bank. -/
def Erasable (pos : Nat) : Prop := ∃ i, i < 2 ∧ pos = layout.bank i ∧ executing ≠ some i

/-- The `n` cells at `pos` lie in one metadata sector. -/
def Layout.Holds (pos n : Nat) : Prop :=
  ∃ i, i < 2 ∧ layout.bank i ≤ pos ∧ pos + n ≤ layout.bank i + layout.sector

/-- What a call of the flash has to keep to, with these cells programmed. -/
def Allowed (programmed : Nat → Prop) : Access → Prop
  | .read pos n _ _ => layout.Holds pos n
  | .erase pos _ => Erasable layout executing pos
  | .program pos data _ => layout.Holds pos data.length ∧ pos % layout.unit = 0 ∧
      data.length = layout.unit ∧ ∀ k, k < layout.unit → ¬programmed (pos + k)
  | .poll _ | .now _ => True

/-- Every call of the log was allowed when it was made. -/
def Bounded (programmed : List Access → Nat → Prop) : List Access → Prop
  | [] => True
  | a :: log => Allowed layout executing (programmed log) a ∧ Bounded programmed log

/-! ## Calls that only look -/

/-- A journal's run with an account of the programmed cells, and a property of its log that every allowed call
keeps. -/
structure Watch where
  layout : Layout
  executing : Option Nat
  programmed : List Access → Nat → Prop
  kept : List Access → Prop
  wear : Wear layout programmed
  admits : ∀ a log, Allowed layout executing (programmed log) a → kept log → kept (a :: log)

theorem Layout.InBank.aligned {layout : Layout} (hl : layout.Valid) (hp : layout.InBank i pos) :
    pos % layout.unit = 0 := by
  obtain ⟨hi, k, -, rfl⟩ := hp
  have hbank : layout.bank i % 256 = 0 := Nat.mod_eq_zero_of_dvd
    (Nat.dvd_trans (Nat.dvd_of_mod_eq_zero hl.record_dvd) (Nat.dvd_of_mod_eq_zero (hl.bank_dvd i hi)))
  simp only [kRecordSize]
  rcases hl.unit_eq with hu | hu <;> rw [hu] <;> omega

theorem Layout.InBank.holds {layout : Layout} (hl : layout.Valid) {m : Nat}
    (h : layout.InBank i pos) (hn : n + m ≤ 256) : layout.Holds (pos + n) m := by
  have := h.inside hl
  exact ⟨i, h.1, by omega, by omega⟩

namespace Watch

variable (w : Watch)

abbrev Erasable (pos : Nat) : Prop := Boot.Erasable w.layout w.executing pos

/-- What was called since keeps the property and programs nothing. -/
structure Calm (log log' : List Access) : Prop where
  kept : w.kept log → w.kept log'
  same : ∀ x, w.programmed log' x → w.programmed log x

/-- What was called since are allowed reads and looks at the clock. -/
structure Still (log log' : List Access) : Prop extends w.Calm log log' where
  erasing : erasing log' = erasing log

/-- The cells of the record at `pos` are not programmed, from the one at `k` on. -/
def Vacant (log : List Access) (pos k : Nat) : Prop :=
  ∀ x, k ≤ x → x < kRecordSize → ¬w.programmed log (pos + x)

variable {w} {log log' log₂ : List Access} {i pos n k : Nat}

theorem Calm.refl (log : List Access) : w.Calm log log := ⟨id, fun _ h => h⟩

theorem Calm.trans (h : w.Calm log log') (h' : w.Calm log' log₂) : w.Calm log log₂ :=
  ⟨fun hb => h'.kept (h.kept hb), fun x hx => h.same x (h'.same x hx)⟩

theorem Still.refl (log : List Access) : w.Still log log := ⟨.refl log, rfl⟩

theorem Still.trans (h : w.Still log log') (h' : w.Still log' log₂) : w.Still log log₂ :=
  ⟨h.toCalm.trans h'.toCalm, h'.erasing.trans h.erasing⟩

theorem Vacant.calm (h : w.Vacant log pos k) (hc : w.Calm log log') : w.Vacant log' pos k :=
  fun x hk hx hp => h x hk hx (hc.same _ hp)

theorem calm {a : Access} (ha : Allowed w.layout w.executing (w.programmed log) a)
    (hno : ∀ pos data r, a ≠ .program pos data r) : w.Calm log (a :: log) := by
  refine ⟨w.admits a log ha, fun x hx => ?_⟩
  rcases w.wear.grows a log x hx with h | ⟨pos, data, r, h, -⟩
  · exact h
  · exact absurd h (hno pos data r)

theorem calm_erase (r : Status) (h : w.Erasable pos) : w.Calm log (.erase pos r :: log) := calm h nofun

theorem calm_poll (r : Status) : w.Calm log (.poll r :: log) := calm trivial nofun

theorem still_now (t : Time) : w.Still log (.now t :: log) := ⟨calm trivial nofun, rfl⟩

theorem still_read (r : Status) (bytes : Bytes) (h : w.layout.Holds pos n) :
    w.Still log (.read pos n r bytes :: log) :=
  ⟨calm h nofun, rfl⟩

theorem vacant_shown (hl : w.layout.Valid) (hp : w.layout.InBank i pos)
    (h : ∀ x, x < kRecordSize → ShownBlank log (pos + x)) : w.Vacant log pos 0 := by
  intro x _ hx
  have hpos := hp.aligned hl
  have hx' : x / w.layout.unit * w.layout.unit + x % w.layout.unit = x := Nat.div_add_mod' x w.layout.unit
  simp only [kRecordSize] at *
  rcases hl.unit_eq with hu | hu
  all_goals
    rw [hu] at hx' hpos
    have := w.wear.honest log (pos + x / w.layout.unit * w.layout.unit) (by rw [hu]; omega) (fun m hm => by
      rw [Nat.add_assoc]
      exact h _ (by rw [hu] at hm ⊢; omega)) (x % w.layout.unit) (by rw [hu]; omega)
    rw [hu, Nat.add_assoc, hx'] at this
    exact this

/-- The poll that completes an erase leaves the sector's first slot vacant, and so does one after it. -/
theorem vacant_erased (hl : w.layout.Valid) (hpos : w.Erasable pos)
    (h : erasing log = some pos ∨ w.Vacant log pos 0) : w.Vacant (.poll .ok :: log) pos 0 := by
  rcases h with he | hv
  · intro x _ hx
    obtain ⟨i, hi, rfl, -⟩ := hpos
    have := (Layout.InBank.first hl hi).inside hl
    simp only [kRecordSize] at hx
    exact w.wear.cleared log _ _ he (Nat.le_add_right _ _) (by omega)
  · exact hv.calm (calm_poll .ok)

/-! ## The scans -/

section scans

variable {replies : Nat → Reply} {fuel : Nat} {p : Probe} {C : Probe → Prop}
variable {α : Type} {Q : α → Probe → Prop}

theorem all_getElem {bytes : Bytes} {x : Nat} (h : bytes.all (· == 0xff) = true) (hx : x < bytes.length) :
    bytes[x]? = some 0xff := by
  rw [List.getElem?_eq_getElem hx, Option.some_inj]
  exact beq_iff_eq.mp (List.all_eq_true.mp h _ (List.getElem_mem hx))

theorem wp_read {f : Status × Bytes → Crash Probe α} (hpos : w.layout.Holds pos n)
    (h : ∀ r bytes p', bytes.length = n → p'.log = .read pos n r bytes :: p.log →
      w.Still p.log p'.log → Wp (f (r, bytes)) C Q p') :
    Wp ((Probe.flash replies fuel w.executing).read pos n >>= f) C Q p :=
  .seq (Probe.wp_read (h _ _ _ (length_fit _ _) rfl (still_read _ _ hpos)))

theorem wp_now {f : Time → Crash Probe α} (h : ∀ t p', w.Still p.log p'.log → Wp (f t) C Q p') :
    Wp ((Probe.flash replies fuel w.executing).now >>= f) C Q p :=
  .seq (Probe.wp_now (h _ _ (still_now _)))

variable (hl : w.layout.Valid)

include hl

theorem wp_erased (hp : w.layout.InBank i pos) :
    Wp (erased (Probe.flash replies fuel w.executing) pos) C (fun b p' =>
      w.Still p.log p'.log ∧ (b = true → w.Vacant p'.log pos 0)) p := by
  refine wp_read (hp.holds (n := 0) hl (by decide)) fun r header p₁ hheader hp₁ h₁ => ?_
  refine .ite (fun _ => .pure ⟨h₁, nofun⟩) fun hblank => ?_
  simp only [not_or, Decidable.not_not] at hblank
  obtain ⟨rfl, hblank⟩ := hblank
  refine wp_read (hp.holds hl (by decide)) fun r rest p₂ hrest hp₂ h₂ => ?_
  refine .pure ⟨h₁.trans h₂, fun hb => vacant_shown hl hp fun x hx => ?_⟩
  simp only [Bool.and_eq_true, beq_iff_eq] at hb
  rw [hp₂, hp₁, ShownBlank, ShownBlank]
  simp only [kRecordSize] at hx
  rcases Nat.lt_or_ge x 16 with h | h
  · refine .inr (.inl ⟨rfl, Nat.le_add_right _ _, ?_⟩)
    rw [Nat.add_sub_cancel_left]
    exact all_getElem hblank (by omega)
  · refine .inl ⟨hb.1, by omega, ?_⟩
    rw [Nat.add_sub_add_left]
    exact all_getElem hb.2 (by omega)

section loops

variable (hi : i < 2) (hend : w.layout.bank i + w.layout.sector < 4294967296)
  (hk : k ≤ w.layout.sector / kRecordSize)
  (hC : fuel < w.layout.sector / kRecordSize → ∀ p', w.Still p.log p'.log → C p')

include hi hend hk hC

/-- A loop over the slots of a sector stays in it and ends, if it goes on with the next slot or stops. -/
theorem wp_scan {α : Type} {body : Nat → Crash Probe (Nat ⊕ α)} {Q : α → Probe → Prop}
    (hslot : ∀ pos p', pos < w.layout.bank i + w.layout.sector → w.layout.InBank i pos → w.Still p.log p'.log →
      Wp (body pos) C (fun r p'' => w.Still p.log p''.log ∧ match r with
        | .inl pos' => pos' = nextRecord pos
        | .inr a => Q a p'') p')
    (hend' : ∀ pos p', ¬pos < w.layout.bank i + w.layout.sector → w.Still p.log p'.log →
      Wp (body pos) C (fun r p'' => match r with
        | .inl _ => False
        | .inr a => Q a p'') p') :
    Wp (Crash.loop (fun s => (Probe.flash replies fuel w.executing).fuel s + 1) body
      (w.layout.bank i + kRecordSize * k)) C Q p := by
  have hsec := hl.record_dvd
  refine Wp.loop_counted (fun pos p' => w.Still p.log p'.log ∧
      ∃ k', k' ≤ w.layout.sector / kRecordSize ∧ pos = w.layout.bank i + kRecordSize * k')
    (fun pos => (w.layout.bank i + w.layout.sector - pos) / kRecordSize) ?_ (fun hle pos p' h => hC ?_ p' h.1)
    ⟨.refl _, k, hk, rfl⟩
  · rintro _ p' ⟨hp', k', hk', rfl⟩
    simp only [kRecordSize] at *
    by_cases hlt : w.layout.bank i + 256 * k' < w.layout.bank i + w.layout.sector
    · have hin : w.layout.InBank i (w.layout.bank i + 256 * k') :=
        ⟨hi, k', by simp only [kRecordSize]; omega, rfl⟩
      refine (hslot _ p' hlt hin hp').conseq ?_
      rintro r p'' ⟨hp'', hr⟩
      cases r with
      | inr a => exact hr
      | inl pos' =>
        simp only [nextRecord, kRecordSize] at hr
        exact ⟨⟨hp'', k' + 1, by omega, by omega⟩, by omega⟩
    · refine (hend' _ p' hlt hp').conseq fun r p'' hr => ?_
      cases r with
      | inr a => exact hr
      | inl pos' => exact hr.elim
  · simp only [kRecordSize, Probe.flash] at hle ⊢
    omega

/-- **The scan for an erased slot** stays in its sector, and ends. -/
theorem wp_findErased :
    Wp (findErased (Probe.flash replies fuel w.executing) (w.layout.bank i + kRecordSize * k)
        (w.layout.bank i + w.layout.sector)) C (fun found p' => w.Still p.log p'.log ∧
      ∀ pos, found = some pos → w.layout.InBank i pos ∧ w.Vacant p'.log pos 0) p := by
  refine wp_scan hl hi hend hk hC (fun pos p' hlt hin hp' => ?_) fun pos p' hge hp' => ?_
  · refine .ite (fun _ => ?_) fun h => absurd hlt h
    refine .bind (wp_erased hl hin) fun b p'' ⟨hp'', hb⟩ => ?_
    have hstill := hp'.trans hp''
    refine .ite (fun hbt => .pure ⟨hstill, hstill, ?_⟩) fun _ => .pure ⟨hstill, rfl⟩
    rintro _ ⟨⟩
    exact ⟨hin, hb hbt⟩
  · exact .ite (fun h => absurd h hge) fun _ => .pure ⟨hp', nofun⟩

/-- **The scan of a sector that should be erased** stays in it, and ends. -/
theorem wp_allErased :
    Wp (Journal.allErased (Probe.flash replies fuel w.executing) (w.layout.bank i + kRecordSize * k)
        (w.layout.bank i + w.layout.sector)) C (fun _ p' => w.Still p.log p'.log) p := by
  refine wp_scan hl hi hend hk hC (fun pos p' hlt hin hp' => ?_) fun pos p' hge hp' => ?_
  · refine .ite (fun _ => ?_) fun h => absurd hlt h
    refine .bind (wp_erased hl hin) fun b p'' ⟨hp'', _⟩ => ?_
    have hstill := hp'.trans hp''
    exact .ite (fun _ => .pure ⟨hstill, rfl⟩) fun _ => .pure ⟨hstill, hstill⟩
  · exact .ite (fun h => absurd h hge) fun _ => .pure hp'

end loops

theorem wp_scanRecord (hp : w.layout.InBank i pos) {scan : Scan}
    (hbest : ∀ best, scan.best = some best → ∃ i, w.layout.InBank i best.pos) :
    Wp (scanRecord (Probe.flash replies fuel w.executing) pos scan) C (fun a p' => w.Still p.log p'.log ∧
      ∀ best, a.2.best = some best → ∃ i, w.layout.InBank i best.pos) p := by
  refine wp_read (hp.holds (n := 0) hl (by decide)) fun r header p₁ _ _ h₁ => ?_
  refine .ite (fun _ => .pure ⟨h₁, hbest⟩) fun _ => .ite (fun _ => .pure ⟨h₁, hbest⟩) fun _ =>
    .ite (fun _ => .pure ⟨h₁, hbest⟩) fun _ => ?_
  refine wp_read (hp.holds hl (by decide)) fun r rest p₂ _ _ h₂ => ?_
  have h₂ := h₁.trans h₂
  refine .ite (fun _ => .pure ⟨h₂, hbest⟩) fun _ => ?_
  have hfound {candidate : Snapshot} {record : Bytes} (best : Best)
      (h : some { snapshot := candidate, record, pos := pos } = some best) : ∃ i, w.layout.InBank i best.pos := by
    obtain rfl := Option.some.inj h
    exact ⟨i, hp⟩
  cases decode (header ++ rest) with
  | none => exact .pure ⟨h₂, hbest⟩
  | some candidate =>
    simp only
    cases hb : scan.best with
    | none => exact .pure ⟨h₂, hfound⟩
    | some best =>
      refine .ite (fun _ => .pure ⟨h₂, hbest⟩) fun _ => .ite (fun _ => ?_) fun _ => .pure ⟨h₂, hbest⟩
      exact .pure ⟨h₂, hfound⟩

theorem wp_scanRecords (L : List Nat) : (∀ pos ∈ L, ∃ i, w.layout.InBank i pos) →
    ∀ {p : Probe} {scan : Scan}, (∀ best, scan.best = some best → ∃ i, w.layout.InBank i best.pos) →
    Wp (scanRecords (Probe.flash replies fuel w.executing) L scan) C (fun a p' => w.Still p.log p'.log ∧
      ∀ best, a.2.best = some best → ∃ i, w.layout.InBank i best.pos) p := by
  induction L with
  | nil => exact fun _ p scan hbest => .pure ⟨.refl _, hbest⟩
  | cons pos L ih =>
    intro hL p scan hbest
    obtain ⟨i, hp⟩ := hL pos List.mem_cons_self
    refine .bind (wp_scanRecord hl hp hbest) ?_
    rintro ⟨conflict, scan'⟩ p₁ ⟨h₁, hbest₁⟩
    refine .ite (fun _ => .pure ⟨h₁, hbest₁⟩) fun _ => ?_
    exact (ih (fun q hq => hL q (List.mem_cons_of_mem pos hq)) hbest₁).conseq fun a p' h => ⟨h₁.trans h.1, h.2⟩

/-- **`load`** polls once and then reads. -/
theorem wp_load {j : Journal} :
    Wp (j.load (Probe.flash replies fuel w.executing) w.layout) C (fun a p' =>
      (p'.log = p.log ∨ w.Still (.poll (replies p.next).status :: p.log) p'.log) ∧
        a.2.2 = { j with latest := a.2.2.latest } ∧ (a.1 = .ok → ∃ i, w.layout.InBank i a.2.2.latest)) p := by
  refine .ite (fun _ => .pure ⟨.inl rfl, rfl, nofun⟩) fun _ => .seq (Probe.wp_poll ?_)
  refine .ite (fun _ => .pure ⟨.inr (.refl _), rfl, nofun⟩) fun _ => ?_
  refine .bind (wp_scanRecords hl _ (fun pos => (mem_records (m := { layout := w.layout })).mp) fun _ h => by cases h) ?_
  rintro ⟨conflict, scan⟩ p₂ ⟨h₂, hbest⟩
  simp only
  cases hb : scan.best with
  | none =>
    refine .pure ⟨.inr h₂, rfl, fun hok => ?_⟩
    simp only at hok
    split at hok <;> cases hok
  | some best =>
    refine .ite (fun _ => .pure ⟨.inr h₂, rfl, nofun⟩) fun _ => .pure ⟨.inr h₂, rfl, fun _ => ?_⟩
    exact hbest best hb

end scans

end Watch

/-! ## The machine -/

/-- The state that the machine is in, or enters with the next step. -/
def Journal.stage (j : Journal) : JournalState :=
  if j.requested then if j.eraseNeeded then .erase else .write else j.state

namespace Watch

section machine

variable (w : Watch)
variable {s : JournalState}

/-- The records to be written are whole, and the one after a checkpoint has its place. -/
structure Stocked (j : Journal) : Prop where
  record : j.record.length = kRecordSize
  pending : j.checkpoint = true → j.pendingRecord.length = kRecordSize ∧ w.Erasable j.pendingTarget

/-- The next record has a place: a sector to erase, or a vacant slot. -/
structure Sited (log : List Access) (j : Journal) : Prop extends w.Stocked j where
  erase : j.eraseNeeded = true → w.Erasable j.target
  write : j.eraseNeeded = false → (∃ i, w.layout.InBank i j.target) ∧ w.Vacant log j.target 0

/-- A record is being written; its slot is vacant from the byte at `k` on. -/
structure Writes (log : List Access) (j : Journal) (k : Nat) : Prop where
  place : ∃ i, w.layout.InBank i j.target
  lt : j.offset < kRecordSize
  aligned : j.offset % w.layout.unit = 0
  vacant : w.Vacant log j.target k

/-- What the machine relies on in a state. -/
def Aimed (log : List Access) (j : Journal) : JournalState → Prop
  | .erase => w.Erasable j.target ∧ j.offset = 0
  | .eraseWait => (w.Erasable j.target ∧ j.offset = 0) ∧
      (erasing log = some j.target ∨ w.Vacant log j.target 0)
  | .write => w.Writes log j j.offset
  | .writeWait => w.Writes log j (j.offset + w.layout.unit)
  | .verify => ∃ i, w.layout.InBank i j.target
  | .idle | .done | .failed => True

/-- The machine fits the account of the flash. -/
structure Ready (log : List Access) (j : Journal) : Prop extends w.Stocked j where
  kept : w.kept log
  busy : j.stage ∈ working → j.status = .busy
  requested : j.requested = true → j.state ∉ working
  aimed : w.Aimed log j j.stage

variable {w} {log log' : List Access} {j j' : Journal} {k : Nat}

theorem Writes.calm (h : w.Writes log j k) (hc : w.Calm log log') : w.Writes log' j k :=
  { h with vacant := h.vacant.calm hc }

theorem Writes.room (hl : w.layout.Valid) (h : w.Writes log j k) : j.offset + w.layout.unit ≤ kRecordSize := by
  have hlt := h.lt
  have hmod := h.aligned
  simp only [kRecordSize] at hlt ⊢
  rcases hl.unit_eq with hu | hu <;> rw [hu] at hmod ⊢ <;> omega

/-- A call that programs nothing keeps what the machine relies on; that of an erase in progress is apart. -/
theorem Aimed.calm (h : w.Aimed log j s) (hc : w.Calm log log')
    (he : s = .eraseWait → erasing log = some j.target →
      erasing log' = some j.target ∨ w.Vacant log' j.target 0) : w.Aimed log' j s := by
  cases s with
  | eraseWait => exact ⟨h.1, h.2.elim (he rfl) fun hv => .inr (hv.calm hc)⟩
  | write | writeWait => exact Writes.calm h hc
  | _ => exact h

theorem Ready.still (h : w.Ready log j) (hs : w.Still log log') : w.Ready log' j :=
  { h with
    kept := hs.kept h.kept
    aimed := h.aimed.calm hs.toCalm fun _ he => .inl (hs.erasing.trans he) }

/-- The machine's place does not depend on what it has loaded, or on the time. -/
theorem Ready.unseen {latest : Nat} {t : Time} {b : Bool} (h : w.Ready log j) :
    w.Ready log { j with latest, operationStarted := t, timedOut := b } := by
  refine { h with aimed := ?_ }
  have haim := h.aimed
  change w.Aimed log { j with latest, operationStarted := t, timedOut := b } j.stage
  generalize j.stage = s at haim
  cases s with
  | write | writeWait => exact { haim with }
  | _ => exact haim

theorem stage_eq (h : j.requested = false) : j.stage = j.state := by simp [Journal.stage, h]

theorem ready_rest (hb : w.kept log) (h : w.Stocked j) (hreq : j.requested = false)
    (hstate : j.state ∉ working) : w.Ready log j := by
  refine { h with
    kept := hb
    busy := fun hm => absurd (stage_eq hreq ▸ hm) hstate
    requested := fun _ => hstate
    aimed := ?_ }
  rw [stage_eq hreq]
  cases hs : j.state <;> simp [hs, working] at hstate <;> trivial

theorem Ready.ended {r : Status} (h : w.Ready log j) (hb : w.kept log') (hreq : j.requested = false)
    (hs : s ∉ working) : w.Ready log' { j with status := r, state := s } :=
  ready_rest hb { h.toStocked with } hreq hs

theorem ready_work (hb : w.kept log) (h : w.Stocked j) (hreq : j.requested = false)
    (hs : j.state = s) (hbusy : j.status = .busy) (haim : w.Aimed log j s) : w.Ready log j :=
  { h with
    kept := hb
    busy := fun _ => hbusy
    requested := fun hr => absurd (hreq.symm.trans hr) nofun
    aimed := by rw [stage_eq hreq, hs]; exact haim }

theorem Ready.at_work (h : w.Ready log j) (hs : j.state ∈ working) :
    j.requested = false ∧ j.status = .busy ∧ w.Aimed log j j.state := by
  have hreq : j.requested = false := by
    by_contra hr
    exact h.requested (by simpa using hr) hs
  have hstage := stage_eq hreq
  exact ⟨hreq, h.busy (hstage ▸ hs), hstage ▸ h.aimed⟩

theorem Ready.resting (h : w.Ready log j) (hfree : j.status ≠ .busy) :
    j.requested = false ∧ j.state ∉ working := by
  have hstage : j.stage ∉ working := fun hm => hfree (h.busy hm)
  unfold Journal.stage at hstage
  cases hreq : j.requested with
  | true =>
    rw [hreq, if_pos rfl] at hstage
    split at hstage <;> exact absurd (by decide) hstage
  | false =>
    rw [hreq, if_neg Bool.false_ne_true] at hstage
    exact ⟨rfl, hstage⟩

theorem Sited.ready (h : w.Sited log j) (hb : w.kept log) (hstate : j.state ∉ working) :
    w.Ready log { j with offset := 0, timedOut := false, requested := true, status := .busy } where
  record := h.record
  pending := h.pending
  kept := hb
  busy _ := rfl
  requested _ := hstate
  aimed := by
    unfold Journal.stage
    simp only [if_true]
    split
    · next he => exact ⟨h.erase he, rfl⟩
    · next he =>
      obtain ⟨hin, hv⟩ := h.write (Bool.not_eq_true _ ▸ he)
      exact ⟨hin, Nat.zero_lt_succ _, Nat.zero_mod _, hv⟩

theorem erasable_boot (h : ¬w.executing.getD 2 < 2) {i : Nat} (hi : i < 2) : w.Erasable (w.layout.bank i) := by
  refine ⟨i, hi, rfl, fun he => h ?_⟩
  rw [he]
  exact hi

end machine

/-! ## Where the next record goes -/

variable {w : Watch} {replies : Nat → Reply} {fuel : Nat} {p : Probe} {C : Probe → Prop} {j : Journal} {i : Nat}

section places

variable (hl : w.layout.Valid) (hends : ∀ i, i < 2 → w.layout.bank i + w.layout.sector < 4294967296)
  (hC : fuel < w.layout.sector / kRecordSize → ∀ p', w.Calm p.log p'.log → C p')

include hl hends hC

theorem wp_freeRecord (hi : i < 2) :
    Wp (Journal.freeRecord (Probe.flash replies fuel w.executing) w.layout i) C (fun found p' =>
      w.Still p.log p'.log ∧ ∀ pos, found = some pos → w.layout.InBank i pos ∧ w.Vacant p'.log pos 0) p :=
  wp_findErased hl hi (hends i hi) (k := 0) (Nat.zero_le _) fun hf p' h => hC hf p' h.toCalm

theorem wp_placeAppend (h : w.Stocked j) (loaded : Bool)
    (hloaded : loaded = true → ∃ i, w.layout.InBank i j.latest) :
    Wp (j.placeAppend (Probe.flash replies fuel w.executing) w.layout loaded) C (fun j' p' =>
      w.Still p.log p'.log ∧ j' = { j with target := j'.target, eraseNeeded := j'.eraseNeeded } ∧
        (¬w.executing.getD 2 < 2 → w.Sited p'.log j')) p := by
  refine .ite (fun hld => ?_) fun _ => .pure ⟨.refl _, rfl, fun hboot => ?_⟩
  · obtain ⟨i, hin⟩ := hloaded hld
    have hi := hin.1
    obtain ⟨-, k, hk, hlatest⟩ := id hin
    simp only
    rw [latestBank_eq (j := { j with eraseNeeded := true, target := w.layout.bank 0 }) hl hin]
    have hnext : nextRecord j.latest = w.layout.bank i + kRecordSize * (k + 1) := by
      have := hends i hi
      have := hin.inside hl
      simp only [nextRecord, kRecordSize] at *
      omega
    rw [hnext]
    refine .bind (wp_findErased hl hi (hends i hi) hk fun hf p' h => hC hf p' h.toCalm) ?_
    rintro found p₁ ⟨h₁, hfound⟩
    cases found with
    | some pos =>
      obtain ⟨hpos, hv⟩ := hfound pos rfl
      exact .pure ⟨h₁, rfl, fun _ => { h with erase := by simp, write := fun _ => ⟨⟨i, hpos⟩, hv⟩ }⟩
    | none =>
      exact .pure ⟨h₁, rfl, fun hboot => { h with erase := fun _ => erasable_boot hboot (by omega), write := by simp }⟩
  · exact { h with erase := fun _ => erasable_boot hboot (by decide), write := by simp }

theorem wp_placeRuntime (h : w.Stocked j) (hno : j.checkpoint = false) {e : Nat} (he : e < 2)
    (hexec : w.executing = some e) (loaded : Bool)
    (hloaded : loaded = true → ∃ i, w.layout.InBank i j.latest) :
    Wp (j.placeRuntime (Probe.flash replies fuel w.executing) w.layout e loaded) C (fun a p' =>
      w.Still p.log p'.log ∧ w.Stocked a.2 ∧ (a.1 = .ok → w.Sited p'.log a.2)) p := by
  have herase : w.Erasable (w.layout.bank (1 - e)) := by
    refine ⟨1 - e, by omega, rfl, ?_⟩
    rw [hexec, ne_eq, Option.some_inj]
    omega
  refine .bind (wp_freeRecord hl hends hC (i := 1 - e) (by omega)) ?_
  rintro found p₁ ⟨h₁, hfound⟩
  cases found with
  | some pos =>
    obtain ⟨hpos, hv⟩ := hfound pos rfl
    exact .pure ⟨h₁, { h with }, fun _ => { h with erase := nofun, write := fun _ => ⟨⟨_, hpos⟩, hv⟩ }⟩
  | none =>
    refine .ite (fun hin => ?_) fun _ =>
      .pure ⟨h₁, { h with }, fun _ => { h with erase := fun _ => herase, write := nofun }⟩
    obtain ⟨i, hlatest⟩ := hloaded (Bool.and_eq_true_iff.mp hin).1
    refine .bind (wp_freeRecord hl hends (fun hf p' h => hC hf p' (h₁.toCalm.trans h)) he) ?_
    rintro free p₂ ⟨h₂, hfree⟩
    have h₂ := h₁.trans h₂
    cases free with
    | none => exact .pure ⟨h₂, { h with }, nofun⟩
    | some checkpoint =>
      obtain ⟨hpos, hv⟩ := hfree checkpoint rfl
      refine wp_read (hlatest.holds (n := 0) hl (by decide)) fun r bytes p₃ hbytes _ h₃ => ?_
      refine .ite (fun _ => .pure ⟨h₂.trans h₃, ?_, nofun⟩) fun _ => .pure ⟨h₂.trans h₃, ?_, fun _ => ?_⟩
      · exact ⟨h.record, fun hc => by rw [hno] at hc; cases hc⟩
      · exact ⟨hbytes, fun _ => ⟨h.record, herase⟩⟩
      · exact { record := hbytes, pending := fun _ => ⟨h.record, herase⟩, erase := nofun,
                write := fun _ => ⟨⟨_, hpos⟩, hv.calm h₃.toCalm⟩ }

theorem wp_place (h : w.Stocked j) (hno : j.checkpoint = false) (loaded : Bool)
    (hloaded : loaded = true → ∃ i, w.layout.InBank i j.latest) :
    Wp (j.place (Probe.flash replies fuel w.executing) w.layout loaded) C (fun a p' =>
      w.Still p.log p'.log ∧ w.Stocked a.2 ∧ (a.1 = .ok → w.Sited p'.log a.2)) p := by
  refine .bind (wp_placeAppend hl hends hC h loaded hloaded) ?_
  rintro j₁ p₁ ⟨h₁, hsame, hboot⟩
  have hstocked : w.Stocked j₁ := by
    rw [hsame]
    exact { h with }
  refine .ite (fun he => ?_) fun he => .pure ⟨h₁, hstocked, fun _ => hboot he⟩
  have hexec : w.executing = some (w.executing.getD 2) := by
    cases hex : w.executing with
    | none =>
      have he : w.executing.getD 2 < 2 := he
      rw [hex] at he
      exact absurd he (Nat.lt_irrefl 2)
    | some e => rfl
  refine (wp_placeRuntime hl hends (fun hf p' h => hC hf p' (h₁.toCalm.trans h)) hstocked
    (by rw [hsame]; exact hno) he hexec loaded (by rw [hsame]; exact hloaded)).conseq ?_
  rintro a p₂ ⟨h₂, hs, hok⟩
  exact ⟨h₁.trans h₂, hs, hok⟩

/-- **`begin`** refuses, or leaves a request with a place. -/
theorem wp_begin (h : w.Ready p.log j) (snapshot : Snapshot) (fresh : Bool) :
    Wp (j.begin (Probe.flash replies fuel w.executing) w.layout snapshot fresh) C
      (fun a p' => w.Ready p'.log a.2) p := by
  refine .ite (fun _ => .pure h) fun hfree => ?_
  obtain ⟨hreq, hstate⟩ := h.resting hfree
  refine .bind (wp_load hl) ?_
  rintro ⟨loaded, current, j₁⟩ p₁ ⟨hlog, hsame, hlatest⟩
  have h₁ : w.Calm p.log p₁.log := by
    rcases hlog with hlog | hlog
    · rw [hlog]
      exact .refl _
    · exact (calm_poll _).trans hlog.toCalm
  simp only at hsame hlatest
  have hs₁ : w.Stocked j₁ := by
    rw [hsame]
    exact { h.toStocked with }
  have hreq₁ : j₁.requested = false := by rw [hsame]; exact hreq
  have hstate₁ : j₁.state ∉ working := by rw [hsame]; exact hstate
  refine .ite (fun _ => .pure (ready_rest (h₁.kept h.kept) hs₁ hreq₁ hstate₁)) fun _ =>
    .seq (Probe.wp_poll ?_)
  have h₂ := h₁.trans (calm_poll (replies p₁.next).status)
  have hb₂ := h₂.kept h.kept
  refine .ite (fun _ => .pure (ready_rest hb₂ hs₁ hreq₁ hstate₁)) fun _ =>
    .ite (fun _ => .pure (ready_rest hb₂ hs₁ hreq₁ hstate₁)) fun _ => ?_
  have hs₂ {s : Snapshot} : w.Stocked
      { j₁ with record := encode s w.layout.writeSize, checkpoint := false, eraseOnly := false } :=
    ⟨length_encode s w.layout.writeSize, nofun⟩
  refine .ite (fun _ => .pure (ready_rest hb₂ hs₂ hreq₁ hstate₁)) fun _ => ?_
  refine .bind ((wp_place hl hends (fun hf p' h => hC hf p' (h₂.trans h)) hs₂ rfl (loaded == .ok)
    fun hok => hlatest (beq_iff_eq.mp hok)).adding Journal.place_idem) ?_
  rintro ⟨result, j₂⟩ p₃ ⟨⟨h₃, hs₃, hsite⟩, hidem⟩
  have hb₃ := h₃.kept hb₂
  have hstate₃ : j₂.state ∉ working := by rw [hidem.state]; exact hstate₁
  refine .ite (fun _ => .pure ?_) fun hok => .pure ?_
  · exact ready_rest hb₃ hs₃ (by rw [hidem.requested]; exact hreq₁) hstate₃
  · exact (hsite (Decidable.not_not.mp hok)).ready hb₃ hstate₃

end places

/-! ## The steps of the machine -/

section steps

variable (hl : w.layout.Valid)

include hl

theorem kept_program {r : Status} (h : w.Ready p.log j) (hw : w.Writes p.log j j.offset) :
    w.kept (.program (j.target + j.offset) (Bytes.slice j.record j.offset w.layout.unit) r :: p.log) ∧
      w.Writes (.program (j.target + j.offset) (Bytes.slice j.record j.offset w.layout.unit) r :: p.log) j
        (j.offset + w.layout.unit) := by
  obtain ⟨⟨i, hin⟩, hlt, hmod, hv⟩ := id hw
  have hroom := hw.room hl
  have hslice : (Bytes.slice j.record j.offset w.layout.unit).length = w.layout.unit :=
    Bytes.length_slice (by rw [h.record]; exact hroom)
  refine ⟨w.admits _ _ ⟨?_, ?_, hslice, fun k hk => ?_⟩ h.kept, ⟨i, hin⟩, hlt, hmod, fun x hx hx' hp => ?_⟩
  · rw [hslice]
    exact hin.holds hl hroom
  · rw [Nat.add_mod, hmod, Nat.add_zero, Nat.mod_mod]
    exact hin.aligned hl
  · rw [Nat.add_assoc]
    exact hv _ (Nat.le_add_right _ _) (by omega)
  · rcases w.wear.grows _ _ _ hp with hp | ⟨pos, data, r', heq, -, hpos⟩
    · exact hv x (by omega) hx' hp
    · obtain ⟨rfl, rfl, -⟩ := Access.program.inj heq
      rw [hslice] at hpos
      omega

/-- **One step** of the machine. -/
theorem Ready.step {j' : Journal} {p' : Probe} (h : w.Ready p.log j)
    (hstep : Journal.Stepped (Probe.flash replies fuel w.executing) w.layout j p j' p') : w.Ready p'.log j' := by
  by_cases hs : j.state ∈ working
  · obtain ⟨hreq, hbusy, haim⟩ := h.at_work hs
    have hpoll (r : Status) : w.kept (.poll r :: p.log) := (calm_poll r).kept h.kept
    cases hstep with
    | rest hrest | request hrest => exact absurd hs hrest
    | late => exact h.ended h.kept hreq (by decide)
    | notErased hv _ _ run =>
      cases run
      rw [hv] at haim
      exact h.ended ((calm_erase _ haim.1).kept h.kept) hreq (by decide)
    | erase hv _ run =>
      obtain ⟨hr, rfl⟩ := Prod.mk.inj run
      rw [hv] at haim
      refine ready_work ((calm_erase _ haim.1).kept h.kept) { h.toStocked with } hreq rfl hbusy ⟨haim, .inl ?_⟩
      show erasing (.erase j.target (replies p.next).status :: p.log) = some j.target
      rw [erasing, if_pos (Option.some.inj hr)]
    | notProgrammed hv _ _ run =>
      cases run
      rw [hv] at haim
      exact h.ended (kept_program hl h haim).1 hreq (by decide)
    | program hv _ run =>
      obtain ⟨-, rfl⟩ := Prod.mk.inj run
      rw [hv] at haim
      obtain ⟨hb, hwrites⟩ := kept_program (r := (replies p.next).status) hl h haim
      exact ready_work hb { h.toStocked with } hreq rfl hbusy { hwrites with }
    | wait _ _ run =>
      obtain ⟨hr, rfl⟩ := Prod.mk.inj run
      refine { h with kept := hpoll _, aimed := ?_ }
      rw [stage_eq hreq]
      refine haim.calm (calm_poll _) fun _ he => .inl ?_
      show erasing (.poll (replies p.next).status :: p.log) = some j.target
      rw [erasing, if_pos (Option.some.inj hr), he]
    | lapsed _ _ run =>
      cases run
      exact h.ended (hpoll _) hreq (by decide)
    | erasedOnly _ _ _ run =>
      obtain ⟨-, rfl⟩ := Prod.mk.inj run
      exact h.ended (hpoll _) hreq (by decide)
    | erased hv _ _ run =>
      obtain ⟨hr, rfl⟩ := Prod.mk.inj run
      rw [hv] at haim
      -- The erase has been completed by this poll, or by that of a `load` before it.
      have hvacant := vacant_erased hl haim.1.1 haim.2
      rw [← Option.some.inj hr] at hvacant
      obtain ⟨i, hi, htarget, -⟩ := haim.1.1
      refine ready_work (hpoll _) { h.toStocked with } hreq rfl hbusy ⟨⟨i, ?_⟩, ?_, ?_, ?_⟩
      · exact htarget ▸ Layout.InBank.first hl hi
      · exact haim.1.2 ▸ Nat.zero_lt_succ _
      · simp only [haim.1.2, Nat.zero_mod]
      · exact fun x _ => hvacant x (Nat.zero_le x)
    | written hv _ run =>
      obtain ⟨-, rfl⟩ := Prod.mk.inj run
      rw [hv] at haim
      have hwrites : w.Writes _ j _ := Writes.calm haim (calm_poll (replies p.next).status)
      refine ready_work (hpoll _) { h.toStocked with } hreq rfl hbusy ?_
      have hroom := hwrites.room hl
      have hlen := h.record
      split
      · exact hwrites.place
      · next hne =>
        refine ⟨hwrites.place, Nat.lt_of_le_of_ne hroom (hlen ▸ hne), ?_, hwrites.vacant⟩
        rw [Nat.add_mod_right, hwrites.aligned]
    | misread hv _ run | mismatch hv _ run | verified hv _ run | chain hv hc run =>
      obtain ⟨-, rfl⟩ := Prod.mk.inj run
      rw [hv] at haim
      obtain ⟨i, hin⟩ := haim
      have hb := (still_read (replies p.next).status (fit kRecordSize (replies p.next).bytes)
        (hin.holds (n := 0) hl (by decide : 0 + kRecordSize ≤ 256))).kept h.kept
      first
      | exact h.ended hb hreq (by decide)
      | obtain ⟨hlen, herase⟩ := h.pending hc
        exact ready_work hb ⟨hlen, nofun⟩ hreq rfl rfl ⟨herase, rfl⟩
  · -- A machine at rest takes up the request.
    rcases hstep.resting hs with ⟨-, rfl, rfl⟩ | ⟨hreq, rfl, rfl⟩
    · exact h
    have hstage : j.stage = if j.eraseNeeded then .erase else .write := by simp [Journal.stage, hreq]
    refine ready_work h.kept { h.toStocked with } rfl rfl (h.busy ?_) ?_
    · rw [hstage]
      split <;> decide
    · have haim := h.aimed
      rw [hstage] at haim
      split at haim <;> simp_all [Aimed]
      exact { haim with }

theorem wp_tick (h : w.Ready p.log j) :
    Wp (j.tick (Probe.flash replies fuel w.executing) w.layout) C (fun j' p' => w.Ready p'.log j') p := by
  refine Journal.tick_spec.mono (fun _ hcut => absurd Probe.answers hcut) ?_
  rintro j' p' ⟨j₁, p₁, hwatch, hstep⟩
  refine Ready.step hl ?_ hstep
  cases hwatch with
  | idle => exact h
  | starts _ run | looks _ _ run =>
    obtain ⟨-, rfl⟩ := Prod.mk.inj run
    exact (h.still (still_now (replies p.next).time)).unseen

section waiting

variable (hC : ∀ p', w.kept p'.log → C p')

include hC

theorem wp_drive (h : w.Ready p.log j) (start timeout : Time) :
    Wp (j.drive (Probe.flash replies fuel w.executing) w.layout start timeout) C
      (fun j' p' => w.Ready p'.log j' ∧ j'.status ≠ .busy) p := by
  refine Wp.loop (fun j' p' => w.Ready p'.log j') (fun j' p' h' => hC p' h'.kept) ?_ h
  intro j' p' h'
  refine .ite (fun _ => wp_now fun t p₁ h₁ => ?_) fun hne => .pure ⟨h', hne⟩
  exact .bind (wp_tick hl (h'.still h₁).unseen) fun j₂ p₂ h₂ => .pure h₂

theorem wp_runRequest (h : w.Sited p.log { j with checkpoint := false }) (hb : w.kept p.log)
    (hstate : j.state ∉ working) (timeout : Time) :
    Wp (j.runRequest (Probe.flash replies fuel w.executing) w.layout timeout) C
      (fun a p' => w.Ready p'.log a.2 ∧ (a.1 = .ok → a.2.status ≠ .busy)) p := by
  refine wp_now fun t p₁ h₁ => ?_
  exact .bind (wp_drive hl hC ((h.ready hb hstate).still h₁) t timeout) fun j' p' h' =>
    .pure ⟨h'.1, fun _ => h'.2⟩

variable (hends : ∀ i, i < 2 → w.layout.bank i + w.layout.sector < 4294967296)

include hends

theorem wp_commit (h : w.Ready p.log j) (snapshot : Snapshot) (timeout : Time) (fresh : Bool) :
    Wp (j.commit (Probe.flash replies fuel w.executing) w.layout snapshot timeout fresh) C
      (fun a p' => w.Ready p'.log a.2) p := by
  refine .bind (wp_begin hl hends (fun _ p' hp' => hC p' (hp'.kept h.kept)) h snapshot fresh) ?_
  rintro ⟨result, j₁⟩ p₁ h₁
  refine .ite (fun _ => .pure h₁) fun _ => wp_now fun t p₂ h₂ => ?_
  exact .bind (wp_drive hl hC (h₁.still h₂) t _) fun j' p' h' => .pure h'.1

theorem wp_preserve (h : w.Ready p.log j) (hfree : j.status ≠ .busy) (hboot : ¬w.executing.getD 2 < 2)
    {bank : Nat} (hbank : bank < 2) (hin : w.layout.InBank i j.latest) (timeout : Time) :
    Wp (j.preserve (Probe.flash replies fuel w.executing) w.layout bank timeout) C
      (fun a p' => w.Ready p'.log a.2 ∧ (a.1 = .ok → a.2.status ≠ .busy)) p := by
  obtain ⟨hreq, hstate⟩ := h.resting hfree
  refine .ite (fun _ => ?_) fun _ => .pure ⟨h, fun _ => hfree⟩
  refine wp_read (hin.holds (n := 0) hl (by decide)) fun r bytes p₁ hbytes _ h₁ => ?_
  refine .ite (fun _ => .pure ⟨h.still h₁, nofun⟩) fun _ => ?_
  refine .bind (wp_findErased hl (i := 1 - bank) (by omega) (hends _ (by omega)) (k := 0)
    (Nat.zero_le _) fun _ p' h' => hC p' ((h₁.trans h').kept h.kept)) ?_
  rintro found p₂ ⟨h₂, hfound⟩
  have hb₂ := (h₁.trans h₂).kept h.kept
  cases found with
  | some pos =>
    obtain ⟨hpos, hv⟩ := hfound pos rfl
    refine wp_runRequest hl hC ?_ hb₂ (by exact hstate) timeout
    exact { record := hbytes, pending := nofun, erase := nofun, write := fun _ => ⟨⟨_, hpos⟩, hv⟩ }
  | none =>
    refine wp_runRequest hl hC ?_ hb₂ (by exact hstate) timeout
    exact { record := hbytes, pending := nofun, erase := fun _ => erasable_boot hboot (by omega), write := nofun }

theorem wp_prepareRuntime (h : w.Ready p.log j) (bank : Nat) (timeout : Time) :
    Wp (j.prepareRuntime (Probe.flash replies fuel w.executing) w.layout bank timeout) C
      (fun a p' => w.Ready p'.log a.2) p := by
  refine .ite (fun _ => .pure h) fun hmode => .ite (fun _ => .pure h) fun hfree => ?_
  have hbank : bank < 2 := by omega
  have hboot : ¬w.executing.getD 2 < 2 := by
    intro he
    refine hmode (.inr ?_)
    cases hex : w.executing with
    | none =>
      rw [hex] at he
      exact absurd he (Nat.lt_irrefl 2)
    | some e => simpa [Probe.flash, hex] using he
  obtain ⟨hreq, hstate⟩ := h.resting hfree
  refine .bind (wp_load hl) ?_
  rintro ⟨result, current, j₁⟩ p₁ ⟨hlog, hsame, hlatest⟩
  simp only at hsame hlatest
  have h₁ : w.Ready p₁.log j₁ := by
    rw [hsame]
    refine ready_rest ?_ { h.toStocked with } hreq hstate
    rcases hlog with hlog | hlog
    · exact hlog ▸ h.kept
    · exact hlog.kept ((calm_poll _).kept h.kept)
  have hfree₁ : j₁.status ≠ .busy := by rw [hsame]; exact hfree
  refine .ite (fun _ => .pure h₁) fun hok => ?_
  obtain ⟨i, hin⟩ := hlatest (Decidable.not_not.mp hok)
  refine .bind (wp_preserve hl hC hends h₁ hfree₁ hboot hbank hin timeout) ?_
  rintro ⟨result, j₂⟩ p₂ ⟨h₂, hfree₂⟩
  refine .ite (fun _ => .pure h₂) fun hok => ?_
  obtain ⟨hreq₂, hstate₂⟩ := h₂.resting (hfree₂ (Decidable.not_not.mp hok))
  refine .bind (wp_allErased hl hbank (hends bank hbank) (k := 0) (Nat.zero_le _)
    fun _ p' h' => hC p' (h'.kept h₂.kept)) fun blank p₃ h₃ => ?_
  refine .ite (fun _ => .pure (h₂.still h₃)) fun _ => ?_
  refine (wp_runRequest hl hC ?_ (h₃.kept h₂.kept) (by exact hstate₂) timeout).conseq fun a p' h' => h'.1
  exact { record := h₂.record, pending := nofun, erase := fun _ => erasable_boot hboot hbank, write := nofun }

end waiting

end steps

end Watch

/-! ## Calls -/

namespace Journal

/-- A call of the journal, the queries apart. -/
inductive Call
  | load
  | begin (snapshot : Snapshot) (fresh : Bool)
  | tick
  | commit (snapshot : Snapshot) (timeout : Time) (fresh : Bool)
  | prepareRuntime (bank : Nat) (timeout : Time)

def Call.run {σ : Type} (flash : Flash σ) (layout : Layout) (j : Journal) : Call → Crash σ Journal
  | .load => do
    let (_, _, j) ← j.load flash layout
    pure j
  | .begin snapshot fresh => do
    let (_, j) ← j.begin flash layout snapshot fresh
    pure j
  | .tick => j.tick flash layout
  | .commit snapshot timeout fresh => do
    let (_, j) ← j.commit flash layout snapshot timeout fresh
    pure j
  | .prepareRuntime bank timeout => do
    let (_, j) ← j.prepareRuntime flash layout bank timeout
    pure j

/-- The call waits for an operation to end. -/
def Call.waits : Call → Bool
  | .commit _ _ _ | .prepareRuntime _ _ => true
  | _ => false

/-- A `load` takes the error of the erase that the machine waits for. -/
def Call.Loses (replies : Nat → Reply) (j : Journal) (p : Probe) (c : Call) : Prop :=
  c = .load ∧ j.state = .eraseWait ∧ erasing p.log = some j.target ∧
    (replies p.next).status ≠ .ok ∧ (replies p.next).status ≠ .busy

/-- A call that returned and lost no error. -/
def Called (replies : Nat → Reply) (fuel : Nat) (executing : Option Nat) (layout : Layout)
    (x y : Journal × Probe) : Prop :=
  ∃ c : Call, ¬c.Loses replies x.1 x.2 ∧
    c.run (Probe.flash replies fuel executing) layout x.1 x.2 = (some y.1, y.2)

end Journal

namespace Watch

section calls

variable {w : Watch} {log : List Access} {replies : Nat → Reply} {fuel : Nat} {p : Probe} {j : Journal}

theorem ready_new (hb : w.kept []) : w.Ready [] {} :=
  ready_rest hb ⟨List.length_replicate, nofun⟩ rfl (by decide)

/-- A poll keeps what the machine relies on, unless it takes the error of an erase of programmed cells. -/
theorem Ready.poll (hl : w.layout.Valid) (h : w.Ready log j) {r : Status}
    (hr : j.state = .eraseWait → erasing log = some j.target → r = .ok ∨ r = .busy) :
    w.Ready (.poll r :: log) j := by
  refine { h with kept := (calm_poll r).kept h.kept, aimed := h.aimed.calm (calm_poll r) fun hs he => ?_ }
  have haim := h.aimed
  rw [hs] at haim
  have hstate : j.state = .eraseWait := by
    unfold Journal.stage at hs
    split at hs
    · split at hs <;> cases hs
    · exact hs
  rcases hr hstate he with rfl | rfl
  · exact .inr (vacant_erased hl haim.1.1 haim.2)
  · exact .inl he

variable (hl : w.layout.Valid) (hends : ∀ i, i < 2 → w.layout.bank i + w.layout.sector < 4294967296)

include hl hends

/-- **Every call** that loses no error stays in bounds; without fuel for its scans it may be cut short. -/
theorem wp_run (h : w.Ready p.log j) {c : Journal.Call} (hc : ¬c.Loses replies j p) :
    Wp (c.run (Probe.flash replies fuel w.executing) w.layout j)
      (fun p' => w.kept p'.log ∧ (c.waits = false → fuel < w.layout.sector / kRecordSize))
      (fun j' p' => w.Ready p'.log j') p := by
  cases c with
  | load =>
    refine .bind (wp_load hl) ?_
    rintro ⟨r, snapshot, j'⟩ p' ⟨hlog, hsame, -⟩
    refine .pure ?_
    simp only at hsame ⊢
    have h' : w.Ready p'.log j := by
      rcases hlog with hlog | hlog
      · exact hlog ▸ h
      · refine (h.poll hl fun hs he => ?_).still hlog
        by_contra hr
        rw [not_or] at hr
        exact hc ⟨rfl, hs, he, hr.1, hr.2⟩
    rw [hsame]
    exact h'.unseen
  | begin snapshot fresh =>
    exact .bind (wp_begin hl hends (fun hf p' hp' => ⟨hp'.kept h.kept, fun _ => hf⟩) h snapshot fresh)
      fun a p' h' => .pure h'
  | tick => exact wp_tick hl h
  | commit snapshot timeout fresh =>
    exact .bind (wp_commit hl (fun p' hp' => ⟨hp', nofun⟩) hends h snapshot timeout fresh)
      fun a p' h' => .pure h'
  | prepareRuntime bank timeout =>
    exact .bind (wp_prepareRuntime hl (fun p' hp' => ⟨hp', nofun⟩) hends h bank timeout)
      fun a p' h' => .pure h'

theorem ready_of_called (hb : w.kept []) {x : Journal × Probe}
    (hx : ReflTransGen (Journal.Called replies fuel w.executing w.layout) ({}, {}) x) : w.Ready x.2.log x.1 := by
  induction hx with
  | refl => exact ready_new hb
  | tail _ hcall ih =>
    obtain ⟨c, hc, hrun⟩ := hcall
    exact (wp_run hl hends ih hc).of_some hrun

end calls

end Watch

/-- Over a flash without an erased cell the scan of a sector that ends at `2^32` never ends. -/
theorem findErased_endless {executing : Option Nat} {fuel : Nat} {p : Probe}
    (hpos : pos < 4294967296) :
    Wp (findErased (Probe.flash (fun _ => {}) fuel executing) pos 4294967296) (fun _ => True)
      (fun _ _ => False) p := by
  refine Wp.loop (fun pos _ => pos < 4294967296) (fun _ _ _ => trivial) ?_ hpos
  intro pos p' hpos
  refine .ite (fun _ => ?_) fun hge => absurd hpos hge
  have herased : Wp (erased (Probe.flash (fun _ => {}) fuel executing) pos) (fun _ => True)
      (fun b _ => b = false) p' :=
    .seq (Probe.wp_read (.ite (fun _ => .pure rfl) fun h => absurd (.inr (by decide)) h))
  refine .bind herased ?_
  rintro _ p'' rfl
  exact .ite nofun fun _ => .pure (Nat.mod_lt _ (by decide))

/-- **Bounds.** For every valid layout: on every flash, after any calls of a new journal, every further call
stays in the metadata sectors, programs only erased units and does not erase the executing bank, and every
scan ends, exactly if both sectors end below `2^32`. No `load` among the calls takes the error of an erase
that the machine waits for. -/
theorem journal_bounded (layout : Layout) (hvalid : layout.valid = true) :
    (∃ n, ∀ (replies : Nat → Reply) (fuel : Nat) (executing : Option Nat) (programmed : List Access → Nat → Prop),
      Wear layout programmed → ∀ x, ReflTransGen (Journal.Called replies fuel executing layout) ({}, {}) x →
      (∀ c : Journal.Call, ¬c.Loses replies x.1 x.2 →
        Bounded layout executing programmed
          (c.run (Probe.flash replies fuel executing) layout x.1 x.2).2.log ∧
        (n ≤ fuel → c.waits = false →
          ∃ j' p', c.run (Probe.flash replies fuel executing) layout x.1 x.2 = (some j', p'))) ∧
      (n ≤ fuel → ∀ i k, i < 2 → k ≤ layout.sector / kRecordSize →
        (∃ found p', findErased (Probe.flash replies fuel executing) (layout.bank i + kRecordSize * k)
          (layout.bank i + layout.sector) x.2 = (some found, p')) ∧
        ∃ blank p', Journal.allErased (Probe.flash replies fuel executing) (layout.bank i + kRecordSize * k)
          (layout.bank i + layout.sector) x.2 = (some blank, p'))) ↔
    ∀ i, i < 2 → layout.bank i + layout.sector < 4294967296 := by
  have hl := Layout.valid.spec hvalid
  constructor
  · rintro ⟨n, h⟩ i hi
    by_contra hge
    have hend : layout.bank i + layout.sector = 4294967296 := by
      have := hl.bank_end i hi
      omega
    have hwear : Wear layout fun _ _ => False := ⟨fun _ _ _ h => h.elim, fun _ _ _ _ _ _ h => h, fun _ _ _ _ _ _ h => h⟩
    obtain ⟨⟨found, p', hscan⟩, -⟩ := (h (fun _ => {}) n none _ hwear _ .refl).2 (Nat.le_refl n) i 0 hi (Nat.zero_le _)
    rw [hend] at hscan
    exact (findErased_endless (by have := hl.sector_pos; simp only [kRecordSize]; omega)).of_some hscan
  · intro hends
    refine ⟨layout.sector / kRecordSize, fun replies fuel executing programmed hw x hx => ?_⟩
    let w : Watch := ⟨layout, executing, programmed, Bounded layout executing programmed, hw, fun _ _ => .intro⟩
    have hl : w.layout.Valid := hl
    refine ⟨fun c hc => ?_, fun hfuel i k hi hk => ?_⟩
    · have hcall : Wp (c.run (Probe.flash replies fuel executing) layout x.1) _ _ x.2 :=
        Watch.wp_run hl hends (Watch.ready_of_called hl hends trivial hx) hc
      refine ⟨(hcall.mono (fun _ h => h.1) fun _ _ h => h.kept).final, fun hfuel hwaits => ?_⟩
      obtain ⟨j', p', hrun, -⟩ := (hcall.mono (fun _ h => absurd hfuel (Nat.not_le.mpr (h.2 hwaits))) fun _ _ h => h).returns
      exact ⟨j', p', hrun⟩
    · have hcut : fuel < layout.sector / kRecordSize → ∀ p' : Probe,
          w.Still x.2.log p'.log → False := fun hf _ _ => by omega
      have hfind : Wp (findErased (Probe.flash replies fuel executing) _ _) _ _ x.2 :=
        Watch.wp_findErased hl hi (hends i hi) hk hcut
      have hall : Wp (Journal.allErased (Probe.flash replies fuel executing) _ _) _ _ x.2 :=
        Watch.wp_allErased hl hi (hends i hi) hk hcut
      obtain ⟨found, p', hfound, -⟩ := hfind.returns
      obtain ⟨blank, p'', hblank, -⟩ := hall.returns
      exact ⟨⟨found, p', hfound⟩, blank, p'', hblank⟩

/-- The account of a flash whose cells are all programmed at first, apart from those it shows as erased. -/
def written (layout : Layout) : List Access → Nat → Prop
  | [], _ => True
  | .program pos data _ :: log, x => written layout log x ∨ (pos ≤ x ∧ x < pos + data.length)
  | .poll r :: log, x => written layout log x ∧
      ¬(r = .ok ∧ (erasing log).any fun pos => pos ≤ x ∧ x < pos + layout.sector)
  | .read pos _ r bytes :: log, x => written layout log x ∧
      ¬(r = .ok ∧ pos ≤ x ∧ bytes[x - pos]? = some 0xff)
  | .erase _ _ :: log, x => written layout log x
  | .now _ :: log, x => written layout log x

variable {layout : Layout} {executing : Option Nat} {programmed : List Access → Nat → Prop} {log : List Access}

theorem written_shownBlank {x : Nat} (h : ShownBlank log x) : ¬written layout log x := by
  induction log with
  | nil => exact h.elim
  | cons a log ih =>
    cases a with
    | read pos n r bytes =>
      intro hw
      rcases h with h | h
      · exact hw.2 h
      · exact ih h hw.1
    | _ => exact h.elim

theorem written_wear : Wear layout (written layout) where
  grows a log x h := by
    cases a with
    | read | poll => exact .inl h.1
    | erase | now => exact .inl h
    | program pos data r => exact h.imp id fun h => ⟨pos, data, r, rfl, h⟩
  cleared log pos x he hle hlt h := h.2 ⟨rfl, by simp [he, hle, hlt]⟩
  honest log u _ h k hk := written_shownBlank (h k hk)

instance written.decidable (layout : Layout) : ∀ log x, Decidable (written layout log x)
  | [], _ => .isTrue trivial
  | .program _ _ _ :: log, x => @instDecidableOr _ _ (written.decidable layout log x) _
  | .poll _ :: log, x => @instDecidableAnd _ _ (written.decidable layout log x) _
  | .read _ _ _ _ :: log, x => @instDecidableAnd _ _ (written.decidable layout log x) _
  | .erase _ _ :: log, x => written.decidable layout log x
  | .now _ :: log, x => written.decidable layout log x

/-- A new journal's `begin`, on a flash full of zeros that works. -/
@[irreducible] def firstBegin (layout : Layout) (executing : Option Nat) : Option Journal × Probe :=
  (Journal.Call.begin {} true).run (Probe.flash (fun _ => {}) 1 executing) layout {} {}

theorem journal_bounded_tinyLayout : (tinyLayout 256 16).valid = true ∧
    Bounded (tinyLayout 256 16) (some 0) (written (tinyLayout 256 16))
      (firstBegin (tinyLayout 256 16) (some 0)).2.log := by
  have hbegin (layout : Layout) (hvalid : layout.valid = true)
      (hends : ∀ i, i < 2 → layout.bank i + layout.sector < 4294967296) :
      Bounded layout (some 0) (written layout) (firstBegin layout (some 0)).2.log := by
    obtain ⟨n, h⟩ := (journal_bounded layout hvalid).mpr hends
    unfold firstBegin
    exact ((h (fun _ => {}) 1 (some 0) _ written_wear _ .refl).1 (.begin {} true) nofun).1
  exact ⟨by decide, hbegin (tinyLayout 256 16) (by decide) (by decide)⟩

/-- The first metadata sector is the last of the address space. -/
def wrapLayout : Layout :=
  { tinyLayout 256 16 with metadata := ⟨0xffffff00, 256⟩ }

/-- The first record is written to a flash full of zeros, whose first sector cannot be erased. A `load` is
called while the erase is waited for. -/
@[irreducible] def lossyWrite : Option Journal × Probe :=
  ([.begin {} true, .tick, .tick, .load, .tick, .tick] : List Journal.Call).foldlM (fun j c =>
    c.run (Probe.flash (fun n => if n = 7 then { status := .ioError } else {}) 0 none) (tinyLayout 256 16) j)
    {} {}

theorem not_bounded_of_read {bytes : Bytes} (hm : .read pos n r bytes ∈ log)
    (hout : ¬layout.Holds pos n) : ¬Bounded layout executing programmed log := by
  induction log with
  | nil => cases hm
  | cons a log ih =>
    rintro ⟨ha, hb⟩
    rcases List.mem_cons.mp hm with rfl | hm
    · exact hout ha
    · exact ih hm hb

theorem not_bounded_of_program {data : Bytes} (hu : 0 < layout.unit)
    (hlast : log.head? = some (.program pos data r)) (hold : programmed log.tail pos) :
    ¬Bounded layout executing programmed log := by
  obtain ⟨older, rfl⟩ := List.head?_eq_some_iff.mp hlast
  exact fun h => h.1.2.2.2 0 hu hold

/-- The scan for a free record of the last sector goes on at address 0, which is not metadata. And the `load`
takes the error of the erase, so that the next ticks program a unit that was not erased. -/
theorem journal_unbounded :
    (wrapLayout.valid = true ∧ Wear wrapLayout (written wrapLayout) ∧
      ¬Bounded wrapLayout (some 1) (written wrapLayout) (firstBegin wrapLayout (some 1)).2.log) ∧
    (tinyLayout 256 16).valid = true ∧ Wear (tinyLayout 256 16) (written (tinyLayout 256 16)) ∧
      ¬Bounded (tinyLayout 256 16) none (written (tinyLayout 256 16)) lossyWrite.2.log := by
  refine ⟨⟨by decide, written_wear, ?_⟩, by decide, written_wear, ?_⟩
  · have hread : Access.read 0 16 .ok (List.replicate 16 0) ∈ (firstBegin wrapLayout (some 1)).2.log := by
      decide +kernel
    refine not_bounded_of_read hread ?_
    rintro ⟨i, hi, hle, -⟩
    revert hle
    obtain rfl | rfl : i = 0 ∨ i = 1 := by omega
    · decide
    · decide
  · have hlast : lossyWrite.2.log.head? = some (.program 0 ((encode { sequence := 1 } 16).take 16) .ok) ∧
        written (tinyLayout 256 16) lossyWrite.2.log.tail 0 := by
      decide +kernel
    exact not_bounded_of_program (by decide) hlast.1 hlast.2

end DaveOs.Boot
