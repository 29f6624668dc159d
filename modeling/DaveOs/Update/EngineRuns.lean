import DaveOs.Update.EnginePhase

/-!
# The engine over power cycles

In each power cycle a fresh engine receives any calls until they are done or power is lost; the
flash operation in progress is then torn. A property that the engine's policy keeps holds of the
newest snapshot after every such history (`engineHistory_guarded`).

The first such property is that every image a boot may run is intact in its slot
(`images_stay_intact`).
-/

namespace DaveOs.Update

variable {m : Medium} {P : Snapshot → Cells → Prop}

open Boot Bytes Crash

inductive EngineCall
  | begin (header : Bytes) (owner : Option Nat)
  | chunk (offset : Nat) (data : Bytes) (crc : UInt32)
  | abort (reason : Status)
  | enable (value : Bool)
  | reserve (owner : Option Nat)
  | release (owner : Option Nat)
  | runningSlot (slot : Nat)
  | tick

namespace Engine

variable {layout : Layout} {P : Snapshot → Cells → Prop} {e : Engine} {mem : Memory}

section perform

variable {σ : Type} (flash : Flash σ) (layout : Layout)

/-- One call, its answer left to the caller. -/
def perform (e : Engine) : EngineCall → Crash σ Engine
  | .begin header owner => do
    let (_, e) ← e.begin flash layout header owner
    pure e
  | .chunk offset data crc => pure (e.chunk offset data crc).2
  | .abort reason => pure (e.abort reason)
  | .enable value => pure (e.enable value)
  | .reserve owner => pure (e.reserve owner).2
  | .release owner => pure (e.release owner)
  | .runningSlot slot => pure (e.bindRunningSlot slot).2
  | .tick => e.tick flash layout

def performAll : List EngineCall → Engine → Crash σ Engine
  | [], e => pure e
  | call :: calls, e => do
    let e ← e.perform flash layout call
    performAll calls e

end perform

structure Alike (e e' : Engine) : Prop where
  runningSlot : e'.runningSlot = e.runningSlot
  journal : e'.journal = e.journal
  writer : e'.writer = e.writer
  header : e'.header = e.header
  snapshot : e'.snapshot = e.snapshot
  state : e'.state = e.state
  verifyOffset : e'.verifyOffset = e.verifyOffset
  verifyCrc : e'.verifyCrc = e.verifyCrc
  requested : e'.requested = e.requested

theorem Alike.refl (e : Engine) : e.Alike e := ⟨rfl, rfl, rfl, rfl, rfl, rfl, rfl, rfl, rfl⟩

theorem Alike.phase {e' : Engine} (h : e.Alike e') (hp : e.Phase layout P mem) :
    e'.Phase layout P mem := by
  obtain ⟨owner, slot, j, w, reader, header, s, rx, st, status, reason, received, vo, vc, rxAt, since,
    inactivity, enabled, req, abort⟩ := e'
  obtain ⟨rfl, rfl, rfl, rfl, rfl, rfl, rfl, rfl, rfl⟩ := h
  cases hp with
  | quiet state requested calm guarded =>
    exact .quiet (state.imp id fun ⟨h, ha⟩ => ⟨h, { ha with }⟩) requested { calm with } guarded
  | requested state requested calm admits unread knows =>
    exact .requested state requested { calm with } { admits with } { unread with } knows
  | journaling cur nxt cells₀ state requested writer admits status stage conf old new inv pend =>
    exact .journaling cur nxt cells₀ state requested writer { admits with } status stage conf old new
      (fun h => ⟨{ (inv h).1 with }, (inv h).2⟩) pend
  | receiving cur state requested calm admits unread knows incomplete =>
    exact .receiving cur state requested { calm with } { admits with } { unread with } knows
      incomplete
  | writing cur cells₀ state requested journal admits unread writer confined sound fine inc =>
    exact .writing cur cells₀ state requested journal { admits with }
      (fun h => { unread h with }) writer confined sound fine inc
  | verifying cur state requested calm admits knows incomplete offset read =>
    exact .verifying cur state requested { calm with } { admits with } knows incomplete offset read
  | installed cur state requested calm knows image pending =>
    exact .installed cur state requested { calm with } knows image pending
  | aborted cur state requested calm knows clean =>
    exact .aborted cur state requested { calm with } knows clean

section alike

variable (e : Engine)

theorem alike_chunk (offset : Nat) (data : Bytes) (crc : UInt32) :
    e.Alike (e.chunk offset data crc).2 := by
  unfold chunk
  split
  · exact .refl e
  split
  · exact .refl e
  split
  · exact .refl e
  · exact { Alike.refl e with }

theorem alike_abort (reason : Status) : e.Alike (e.abort reason) := by
  unfold abort
  split
  · exact { Alike.refl e with }
  · exact .refl e

theorem alike_reserve (owner : Option Nat) : e.Alike (e.reserve owner).2 := by
  unfold reserve
  split
  · exact .refl e
  split
  · exact .refl e
  · exact { Alike.refl e with }

theorem alike_release (owner : Option Nat) : e.Alike (e.release owner) := by
  unfold release
  split
  · exact { Alike.refl e with }
  · exact .refl e

end alike

theorem bindRunningSlot_slot (e : Engine) (slot : Nat) :
    (e.bindRunningSlot slot).2.runningSlot = e.runningSlot ∨
      (e.bindRunningSlot slot).2.runningSlot = slot := by
  unfold bindRunningSlot
  split
  · exact .inl rfl
  split
  · exact .inl rfl
  · exact .inr rfl

theorem phase_bindRunningSlot (h : e.Phase layout P mem) (slot : Nat) :
    (e.bindRunningSlot slot).2.Phase layout P mem := by
  unfold bindRunningSlot
  split
  · exact h
  next hstate =>
  have hstate : e.state = .disabled := Decidable.not_not.mp (not_or.mp hstate).2
  split
  · exact h
  next hslot =>
  cases h with
  | quiet state requested calm guarded =>
    exact .quiet (.inl (by simp [resting, hstate])) requested { calm with } guarded
  | requested state requested calm admits unread knows =>
    exact .requested state requested { calm with } ⟨Nat.lt_of_not_le hslot, admits.header⟩
      { unread with } knows
  | journaling _ _ _ state => rcases state with h | h | h <;> simp [hstate] at h
  | writing _ _ state => rcases state with h | h <;> simp [hstate] at h
  | _ => simp_all

end Engine

/-- The call does not make the engine write other slots than `D`. -/
def EngineCall.Within (D : Nat → Prop) (call : EngineCall) : Prop :=
  ∀ slot, call = .runningSlot slot → slot < 2 → D (1 - slot)

/-- The engine is in a phase, and its destination is one of `D`. -/
structure InOrder (m : Medium) (P : Snapshot → Cells → Prop) (D : Nat → Prop) (e : Engine)
    (d : Device m) : Prop where
  phase : e.Phase m.layout P d.toMemory
  destination : e.runningSlot < 2 → D e.destination

section sessions

variable {m : Medium} {executing : Option Nat} {d : Device m} {P : Snapshot → Cells → Prop}
  {D : Nat → Prop} {e : Engine} (hm : m.Regular) (hP : ∀ i, D i → Policy m.layout i P)
variable {e' : Engine}

theorem InOrder.next {d' : Device m} (h : InOrder m P D e d) (hn : Engine.Next m P e e' d') :
    InOrder m P D e' d' := by
  refine ⟨hn.2, fun hslot => ?_⟩
  rw [hn.1] at hslot
  rw [Engine.destination, hn.1]
  exact h.destination hslot

theorem InOrder.alike (h : InOrder m P D e d) (ha : e.Alike e') : InOrder m P D e' d :=
  h.next ⟨ha.runningSlot, ha.phase h.phase⟩

include hm hP

/-- **One call** keeps the engine in order. -/
theorem wp_perform (h : InOrder m P D e d) {call : EngineCall} (hcall : call.Within D) :
    Wp (e.perform (Device.flash executing) m.layout call) (Engine.Lost m P)
      (InOrder m P D) d := by
  have hpol : e.runningSlot < 2 → Policy m.layout e.destination P := fun hs =>
    hP _ (h.destination hs)
  cases call with
  | begin header owner =>
    exact .bind (Engine.wp_begin hm h.phase hpol) fun r d' hn => .pure (h.next hn)
  | chunk offset data crc => exact .pure (h.alike (e.alike_chunk offset data crc))
  | abort reason => exact .pure (h.alike (e.alike_abort reason))
  | enable value => exact .pure (h.alike { Engine.Alike.refl e with })
  | reserve owner => exact .pure (h.alike (e.alike_reserve owner))
  | release owner => exact .pure (h.alike (e.alike_release owner))
  | runningSlot slot =>
    refine .pure ⟨Engine.phase_bindRunningSlot h.phase slot, fun hs => ?_⟩
    rw [Engine.destination]
    rcases e.bindRunningSlot_slot slot with heq | heq <;> rw [heq] at hs ⊢
    · exact h.destination hs
    · exact hcall slot rfl hs
  | tick => exact (Engine.wp_tick hm hpol h.phase).conseq fun e' d' hn => h.next hn

theorem wp_performAll : ∀ {calls : List EngineCall} {e : Engine} {d : Device m},
    (∀ call ∈ calls, call.Within D) → InOrder m P D e d →
    Wp (Engine.performAll (Device.flash executing) m.layout calls e) (Engine.Lost m P)
      (InOrder m P D) d := by
  intro calls
  induction calls with
  | nil => exact fun _ h => .pure h
  | cons call calls ih =>
    intro e d hcalls h
    exact .bind (wp_perform hm hP h (hcalls call List.mem_cons_self)) fun e' d' h' =>
      ih (fun c hc => hcalls c (List.mem_cons_of_mem _ hc)) h'

end sessions

/-! ## Power cycles -/

/-- A power cycle with a fresh engine: its slot, its calls, and what the flash does. -/
structure EngineCycle (m : Medium) where
  executing : Option Nat
  runningSlot : Nat
  inactivity : Time
  calls : List EngineCall
  clock : Time
  events : List {e : Event m.layout // m.May e}
  lost : Event m.layout

namespace EngineCycle

variable {m : Medium} {P : Snapshot → Cells → Prop} {D : Nat → Prop}

/-- The device when the calls are done or power is lost. -/
def device (c : EngineCycle m) (cells : Cells) : Device m :=
  (Engine.performAll (Device.flash c.executing) m.layout c.calls
    { runningSlot := c.runningSlot, inactivity := c.inactivity }
    { cells, clock := c.clock, events := c.events }).2

def run (cells : Cells) (c : EngineCycle m) : Cells := (c.device cells).powerOff c.lost

/-- The engine of this cycle writes no other slots than `D`. -/
structure Within (D : Nat → Prop) (c : EngineCycle m) : Prop where
  slot : c.runningSlot < 2 → D (1 - c.runningSlot)
  calls : ∀ call ∈ c.calls, call.Within D

/-- **At the end of a power cycle**, wherever it was cut, the flash is guarded. -/
theorem guarded_device (hm : m.Regular) (hP : ∀ i, D i → Policy m.layout i P)
    (c : EngineCycle m) (hc : c.Within D) {cells : Cells} {cur : Snapshot}
    (hsound : Sound m.layout cells cur) (hcur : P cur cells) :
    Guarded m.layout P (c.device cells).toMemory := by
  have hguard : Guarded m.layout P { cells } := .of_sound rfl hsound hcur
  have hstart : InOrder m P D { runningSlot := c.runningSlot, inactivity := c.inactivity }
      { cells, clock := c.clock, events := c.events } := by
    refine ⟨.quiet (.inl rfl) rfl ⟨?_, ?_⟩ hguard, hc.slot⟩
    · exact ⟨Status.noConfusion, rfl, .inl rfl⟩
    · exact ⟨Status.noConfusion, rfl, .inl rfl⟩
  refine Wp.final ((wp_performAll hm hP hc.calls hstart).conseq fun e d h => ?_)
  exact h.phase.guarded hm.layout fun hs => hP _ (h.destination hs)

end EngineCycle

def engineHistory {m : Medium} (cycles : List (EngineCycle m)) (cells : Cells) : Cells :=
  cycles.foldl EngineCycle.run cells

theorem Guarded.powerOff {d : Device m} (h : Guarded m.layout P d.toMemory) (lost : Event m.layout) :
    ∃ s, Sound m.layout (d.powerOff lost) s ∧ P s (d.powerOff lost) := by
  refine h.keeps _ ?_
  unfold Outcome Device.powerOff
  cases d.pending with
  | none => rfl
  | some op => exact lost.torn_leaves op d.cells

/-- **A history of the engine** keeps what its policy keeps. -/
theorem engineHistory_guarded {D : Nat → Prop} (hm : m.Regular)
    (hP : ∀ i, D i → Policy m.layout i P) (cycles : List (EngineCycle m)) :
    ∀ {cells : Cells} {cur : Snapshot}, (∀ c ∈ cycles, c.Within D) → Sound m.layout cells cur →
    P cur cells → ∃ s, Sound m.layout (engineHistory cycles cells) s ∧
      P s (engineHistory cycles cells) := by
  induction cycles with
  | nil => exact fun _ hs hp => ⟨_, hs, hp⟩
  | cons c cycles ih =>
    intro cells cur hc hs hp
    have hguard := c.guarded_device hm hP (hc c List.mem_cons_self) hs hp
    obtain ⟨s, hs', hp'⟩ := Guarded.powerOff hguard c.lost
    exact ih (fun c hc' => hc c (List.mem_cons_of_mem _ hc')) hs' hp'

/-! ## Images that a boot may run -/

/-- The image of slot `i` fits the slot and its bytes have the recorded checksum. -/
def Intact (layout : Layout) (cells : Cells) (i : Nat) (image : Image) : Prop :=
  image.size ≤ layout.slotSize ∧
    ∃ bs, cells.bytes (layout.slot i) image.size.toNat = some bs ∧ Crc32.calculate bs = image.crc

def Good (layout : Layout) (s : Snapshot) (cells : Cells) : Prop :=
  ∀ i, i < 2 → (s.images.get i).state.eligible = true → Intact layout cells i (s.images.get i)

section good

variable {layout : Layout} {cells cells' : Cells} {s : Snapshot} {i : Nat}

theorem Intact.congr {image : Image} (h : Intact layout cells i image)
    (heq : ∀ x, layout.InSlot i x → cells' x = cells x) : Intact layout cells' i image := by
  obtain ⟨hsize, bs, hbs, hcrc⟩ := h
  refine ⟨hsize, bs, ?_, hcrc⟩
  rw [Cells.bytes_congr fun k hk => heq _ ⟨Nat.le_add_right _ _, ?_⟩, hbs]
  have : image.size.toNat ≤ layout.room := UInt32.le_iff_toNat_le.mp hsize
  omega

theorem good_policy (hl : layout.Valid) (hi : i < 2) : Policy layout i (Good layout) where
  metadata h heq j hj he :=
    (h j hj he).congr fun x hx => heq x (hx.not_metadata hl hj)
  overwrite h hinc heq j hj he := by
    by_cases hij : i = j
    · subst hij
      rw [hinc] at he
      cases he
    · exact (h j hj he).congr fun x hx => heq x (hx.other hl hj hi (Ne.symm hij))
  invalidate h j hj he := by
    rw [Snapshot.following_get] at he ⊢
    by_cases hij : i = j
    · subst hij
      rw [Snapshot.mark_get] at he
      cases he
    · rw [Snapshot.mark_get_ne hi hj hij] at he ⊢
      exact h j hj he
  install h hinc hv _ _ _ j hj he := by
    rw [Snapshot.following_get] at he ⊢
    by_cases hij : i = j
    · subst hij
      rw [Snapshot.install_get]
      exact ⟨hv.fits, hv.content⟩
    · rw [Snapshot.install_get_ne hi hj hij] at he ⊢
      exact h j hj he

end good

/-- **The engine never leaves an eligible image damaged.** Take a flash in order whose eligible
images are intact, and any history of the engine. At the end of every power cycle, wherever it was
cut, a fresh journal loads a snapshot whose eligible images are intact; and an erase or program in
progress in a slot finds that slot's image not eligible in the newest snapshot. -/
theorem images_stay_intact (m : Medium) (hm : m.Regular) (cells : Cells) (first : Snapshot)
    (hload : freshLoad m.layout cells = some (.ok, first)) (hagree : Agree m.layout cells)
    (hsuited : Suited m.layout cells) (hgood : Good m.layout first cells)
    (past : List (EngineCycle m)) (now : EngineCycle m) :
    (∃ s, freshLoad m.layout (engineHistory (past ++ [now]) cells) = some (.ok, s) ∧
      Good m.layout s (engineHistory (past ++ [now]) cells)) ∧
    ∀ op i x, (now.device (engineHistory past cells)).pending = some op → i < 2 →
      op.Covers m.layout x → m.layout.InSlot i x →
      ∃ s, freshLoad m.layout (now.device (engineHistory past cells)).cells = some (.ok, s) ∧
        (s.images.get i).state.eligible = false := by
  have hl := hm.layout
  have hpol : ∀ i, i < 2 → Policy m.layout i (Good m.layout) := fun i hi => good_policy hl hi
  have hwithin : ∀ c : EngineCycle m, c.Within (· < 2) := fun c =>
    ⟨fun _ => by omega, fun _ _ _ _ _ => by omega⟩
  obtain ⟨s, hs, hgood'⟩ := engineHistory_guarded hm hpol past (fun c _ => hwithin c)
    (sound_of_freshLoad hm.valid hload hagree hsuited) hgood
  have hguard := now.guarded_device hm hpol (hwithin now) hs hgood'
  refine ⟨?_, fun op i x hop hi hx hin => ?_⟩
  · obtain ⟨t, ht, hgt⟩ := Guarded.powerOff hguard now.lost
    rw [engineHistory, List.foldl_append]
    exact ⟨t, freshLoad_of_sound hm.valid ht, hgt⟩
  · rcases hguard.inside op hop with hmeta | ⟨j, t, hj, hslot, ht, -, hinc⟩
    · exact absurd (hmeta x hx) (hin.not_metadata hl hi)
    · obtain rfl : i = j := Classical.byContradiction fun hne => hin.other hl hi hj hne (hslot x hx)
      refine ⟨t, freshLoad_of_sound hm.valid ht, ?_⟩
      rw [hinc]
      rfl

/-- The header of a package with an image of one byte, for the layout of 256-byte sectors. -/
def tinyHeader : Bytes :=
  let body := writes (List.replicate 124 0)
    [(0, leBytes 4 0x50534f44), (4, [1]), (8, [128]), (12, [1]), (16, [1]), (20, [1]),
      (24, leBytes 4 512), (28, leBytes 4 768), (44, leBytes 4 1024), (104, [141])]
  body ++ leBytes 4 (Crc32.calculate body).toNat

def tinyImage (installation : UInt64) (state : ImageState) : Image where
  installation
  size := 1
  crc := Crc32.calculate [0x55]
  state
  product := 1
  revision := 1

def tinySnapshot (sequence : UInt64) (a b : ImageState) : Snapshot where
  sequence
  counter := 2
  images := ⟨tinyImage 1 a, tinyImage 2 b⟩

def oldSnapshot : Snapshot := tinySnapshot 1 .trial .pending

/-- The first image is confirmed, the second one incomplete. -/
def newSnapshot : Snapshot := tinySnapshot 2 .confirmed .incomplete

/-- Both records; only the first slot has its byte. -/
def tinyFlash : Cells :=
  .holding [(0, encode oldSnapshot 16), (256, encode newSnapshot 16), (512, [0x55])]

theorem tinySnapshot_storable {n : UInt64} {a b : ImageState} (h : n ≠ 0) :
    (tinySnapshot n a b).Storable :=
  ⟨h, (by decide : (1 : UInt64) ≤ 2), (by decide : (2 : UInt64) ≤ 2)⟩

theorem tinyFlash_sound : Sound (tinyLayout 256 16) tinyFlash newSnapshot := by
  refine tinyLayout_sound (a := oldSnapshot) ?_ ?_ (by decide)
  · exact Cells.snapshot_holding (tinySnapshot_storable (by decide))
  · exact (Cells.snapshot_holding_other (.inr (by decide))).trans
      (Cells.snapshot_holding (tinySnapshot_storable (by decide)))

theorem tinyFlash_byte : tinyFlash.bytes 512 1 = some [0x55] := by
  have hat : tinyFlash 512 = some 0x55 := by
    rw [tinyFlash, Cells.holding_outside (by rw [length_encode]; decide),
      Cells.holding_outside (by rw [length_encode]; decide)]
    rfl
  refine Cells.bytes_eq_some.mpr ⟨rfl, fun k hk => ?_⟩
  obtain rfl : k = 0 := Nat.lt_one_iff.mp hk
  exact hat

theorem tinyFlash_good : Good (tinyLayout 256 16) newSnapshot tinyFlash := by
  intro i hi he
  obtain rfl | rfl : i = 0 ∨ i = 1 := by omega
  · exact ⟨by decide, [0x55], tinyFlash_byte, rfl⟩
  · cases he

/-- A package is begun, and power is lost in the invalidation of its destination. -/
def cutBegin : EngineCycle (Medium.quiet (tinyLayout 256 16)) where
  executing := none
  runningSlot := 0
  inactivity := 30000000
  calls := [.enable true, .begin tinyHeader none, .tick, .tick, .tick, .tick]
  clock := 0
  events := .replicate 15 (quietEvent _)
  lost := .tearing _ []

theorem images_stay_intact_cutBegin :
    ∃ s, freshLoad (tinyLayout 256 16) (engineHistory [cutBegin, cutBegin] tinyFlash) =
      some (.ok, s) ∧ Good (tinyLayout 256 16) s (engineHistory [cutBegin, cutBegin] tinyFlash) :=
  (images_stay_intact (Medium.quiet (tinyLayout 256 16))
    ⟨by decide, by decide, Medium.quiet_steady _⟩ tinyFlash _
    (freshLoad_of_sound (by decide) tinyFlash_sound) tinyFlash_sound.same tinyFlash_sound.version
    tinyFlash_good [cutBegin] cutBegin).1

/-- The same calls, on a flash that fails to read the newest record while the invalidation looks for
its place. -/
def blindBegin : EngineCycle { layout := tinyLayout 256 16 } where
  executing := none
  runningSlot := 0
  inactivity := 30000000
  calls := [.enable true, .begin tinyHeader none, .tick, .tick, .tick, .tick]
  clock := 0
  events := .replicate 9 ⟨{}, trivial⟩ ++ ⟨{ read := fun _ => .ioError }, trivial⟩ ::
    .replicate 10 ⟨{}, trivial⟩
  lost := {}

/-- With a metadata read that fails once, the invalidation erases the newest record. -/
theorem blindBegin_leaves :
    freshLoad (tinyLayout 256 16) (engineHistory [blindBegin] tinyFlash) =
      some (.ok, oldSnapshot) ∧
    (engineHistory [blindBegin] tinyFlash).bytes 768 1 = some [0xff] := by
  decide +kernel

theorem images_damaged :
    freshLoad (tinyLayout 256 16) tinyFlash = some (.ok, newSnapshot) ∧
    Good (tinyLayout 256 16) newSnapshot tinyFlash ∧
    freshLoad (tinyLayout 256 16) (engineHistory [blindBegin] tinyFlash) =
      some (.ok, oldSnapshot) ∧
    ¬Good (tinyLayout 256 16) oldSnapshot (engineHistory [blindBegin] tinyFlash) := by
  refine ⟨freshLoad_of_sound (by decide) tinyFlash_sound, tinyFlash_good, blindBegin_leaves.1,
    fun h => ?_⟩
  obtain ⟨-, bs, hbs, hcrc⟩ := h 1 (by decide) rfl
  obtain rfl := Option.some.inj (blindBegin_leaves.2.symm.trans hbs)
  exact absurd hcrc (by decide +kernel)

end DaveOs.Update
