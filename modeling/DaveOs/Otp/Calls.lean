import DaveOs.Otp.Store

/-!
# The OTP store's calls of its driver

A driver is any set of callbacks; `Driver.traced` is the same driver with every call and its answer
recorded. One lemma says what a call of `set_serial` asks of the driver and changes in the store
(`wp_setSerial`), and what a reachable store keeps follows from it (`Reach.good`).
-/

namespace DaveOs.Otp

open Bytes Crash

variable {σ δ α : Type}
variable {calls : List Access}

/-! ## Recorded calls -/

/-- A call of a driver's callback, with the answer. -/
inductive Access
  | init (status : Status)
  | inspect (index : Nat) (status : Status) (block : Block)
  | program (index : Nat) (record : Record) (result : ProgramResult)
  | lock (index : Nat) (status : Status)
  deriving DecidableEq, Repr

def Access.index : Access → Option Nat
  | .init _ => none
  | .inspect index _ _ => some index
  | .program index _ _ => some index
  | .lock index _ => some index

def Access.isProgram : Access → Bool
  | .program _ _ _ => true
  | _ => false

/-- The driver's state with the calls so far, the latest first. -/
structure Traced (σ : Type) where
  device : σ
  calls : List Access := []

/-- A callback whose call is recorded when it returns. -/
def traced (x : Crash σ α) (f : α → Access) : Crash (Traced σ) α := fun t =>
  match x t.device with
  | (some a, device) => (some a, ⟨device, f a :: t.calls⟩)
  | (none, device) => (none, ⟨device, t.calls⟩)

/-- The driver with its calls recorded. -/
def Driver.traced (driver : Driver σ δ) : Driver (Traced σ) δ where
  blocks := driver.blocks
  blockSize := driver.blockSize
  init context := Otp.traced (driver.init context) fun r => .init r.1
  inspect context index := Otp.traced (driver.inspect context index) fun r => .inspect index r.1 r.2
  program context index record :=
    Otp.traced (driver.program context index record) fun r => .program index record r.1
  lock context index := Otp.traced (driver.lock context index) fun r => .lock index r.1

theorem wp_traced {x : Crash σ α} {f : α → Access} {t : Traced σ} {Q : α → Traced σ → Prop}
    (h : ∀ a device, Q a ⟨device, f a :: t.calls⟩) : Wp (traced x f) (fun _ => True) Q t := by
  unfold Wp traced
  cases x t.device with
  | mk r device =>
    cases r with
    | none => trivial
    | some a => exact h a device

/-- The last call about a block inspected it and found it locked. -/
def ReadLocked (calls : List Access) (index : Nat) : Prop :=
  ∃ block, calls.find? (fun a => a.index = some index) = some (.inspect index .ok block) ∧
    block.locked = true

theorem ReadLocked.cons {index : Nat} {a : Access} (h : ReadLocked calls index)
    (ha : a.index ≠ some index) : ReadLocked (a :: calls) index := by
  obtain ⟨block, hfind, hlocked⟩ := h
  exact ⟨block, by rw [List.find?_cons_of_neg (by simpa using ha), hfind], hlocked⟩

theorem ReadLocked.inspect {index : Nat} {block : Block} (h : block.locked = true) :
    ReadLocked (.inspect index .ok block :: calls) index :=
  ⟨block, List.find?_cons_of_pos (by simp [Access.index]), h⟩

namespace Calls

variable {blocks : Nat → Block} {n : Nat}

/-! ## The scan -/

/-- The store after the first `n` blocks were found to be `blocks`. -/
structure Scanned (blocks : Nat → Block) (n : Nat) (s : Store δ) : Prop where
  kinds : ∀ i, s.kinds i = if i < n then classify (blocks i) else .unused
  le : s.next ≤ n
  above : ∀ i, s.next ≤ i → s.kinds i = .unused
  last : 0 < s.next → s.kinds (s.next - 1) ≠ .unused
  serial : match s.serialBlock with
    | none => s.locked = false ∧ ∀ i, i < n → classify (blocks i) ≠ .valid
    | some b => b < n ∧ classify (blocks b) = .valid ∧ s.serialData = (blocks b).record ∧
        s.locked = (blocks b).locked ∧ ∀ i, b < i → i < n → classify (blocks i) ≠ .valid

def scans (blocks : Nat → Block) : Nat → List Access
  | 0 => []
  | n + 1 => .inspect n .ok (blocks n) :: scans blocks n

theorem scans_congr {blocks' : Nat → Block} (h : ∀ i, i < n → blocks i = blocks' i) :
    scans blocks n = scans blocks' n := by
  induction n with
  | zero => rfl
  | succ n ih => rw [scans, scans, h n (Nat.lt_succ_self n), ih fun i hi => h i (by omega)]

theorem find_scans {i : Nat} (hi : i < n) (rest : List Access) :
    (scans blocks n ++ rest).find? (fun a => a.index = some i) =
      some (.inspect i .ok (blocks i)) := by
  induction n with
  | zero => omega
  | succ n ih =>
    rw [scans, List.cons_append]
    by_cases h : i = n
    · subst h
      exact List.find?_cons_of_pos (by simp [Access.index])
    · rw [List.find?_cons_of_neg (by simpa [Access.index] using fun hn => h hn.symm)]
      exact ih (by omega)

section Scanned

variable {blocks : Nat → Block} {n : Nat} {s : Store δ} {block : Block}

theorem scanned_fields (s : Store δ) (i : Nat) (block : Block) :
    (s.scanned i block).kinds = Function.update s.kinds i (classify block) ∧
    (s.scanned i block).next = (if classify block = .unused then s.next else i + 1) ∧
    (s.scanned i block).serialBlock = (if classify block = .valid then some i else s.serialBlock) ∧
    (s.scanned i block).serialData =
      (if classify block = .valid then block.record else s.serialData) ∧
    (s.scanned i block).locked = (if classify block = .valid then block.locked else s.locked) := by
  unfold Store.scanned Store.error
  cases classify block <;> simp

theorem scanned_frame (s : Store δ) (i : Nat) (block : Block) :
    (s.scanned i block).context = s.context ∧ (s.scanned i block).initialized = s.initialized ∧
    (s.scanned i block).ready = s.ready := by
  unfold Store.scanned Store.error
  cases classify block <;> simp

theorem Scanned.step (h : Scanned blocks n s) :
    Scanned (Function.update blocks n block) (n + 1) (s.scanned n block) := by
  obtain ⟨hkinds, hnext, hserial, hdata, hlocked⟩ := scanned_fields s n block
  have hself : Function.update blocks n block n = block := Function.update_self _ _ _
  have hother : ∀ i, i < n → Function.update blocks n block i = blocks i :=
    fun i hi => Function.update_of_ne (by omega) _ _
  have hle := h.le
  refine ⟨fun i => ?_, ?_, fun i hi => ?_, fun hpos => ?_, ?_⟩
  · rw [hkinds]
    rcases Nat.lt_trichotomy i n with hlt | rfl | hgt
    · rw [Function.update_of_ne (by omega), h.kinds, if_pos hlt, if_pos (by omega), hother i hlt]
    · rw [Function.update_self, if_pos (by omega), hself]
    · rw [Function.update_of_ne (by omega), h.kinds, if_neg (by omega), if_neg (by omega)]
  · rw [hnext]
    split <;> omega
  · rw [hkinds]
    rw [hnext] at hi
    split at hi
    · next hunused =>
      by_cases hin : i = n
      · rw [hin, Function.update_self, hunused]
      · rw [Function.update_of_ne hin, h.above i hi]
    · rw [Function.update_of_ne (by omega), h.above i (by omega)]
  · rw [hkinds, hnext]
    rw [hnext] at hpos
    split at hpos
    · next hunused =>
      rw [if_pos hunused, Function.update_of_ne (by omega)]
      exact h.last hpos
    · next hused =>
      rw [if_neg hused, Nat.add_sub_cancel, Function.update_self]
      exact hused
  · rw [hserial, hdata, hlocked]
    by_cases hvalid : classify block = .valid
    · simp only [hvalid, if_true]
      exact ⟨Nat.lt_succ_self n, by rw [hself, hvalid], by rw [hself], by rw [hself],
        fun i hi hlt => by omega⟩
    · simp only [hvalid, if_false]
      have hnew : ∀ i, i < n + 1 → (i < n → classify (blocks i) ≠ .valid) →
          classify (Function.update blocks n block i) ≠ .valid := by
        intro i hi hold
        rcases Nat.lt_or_ge i n with hlt | hge
        · rw [hother i hlt]
          exact hold hlt
        · rw [show i = n by omega, hself]
          exact hvalid
      have hserial' := h.serial
      revert hserial'
      cases s.serialBlock with
      | none => exact fun ⟨hl, hnone⟩ => ⟨hl, fun i hi => hnew i hi (hnone i)⟩
      | some b =>
        rintro ⟨hb, hbv, hrecord, hl, hlater⟩
        exact ⟨by omega, by rw [hother b hb, hbv], by rw [hother b hb, hrecord],
          by rw [hother b hb, hl], fun i hgt hi => hnew i hi (hlater i hgt)⟩

end Scanned

section Requests

variable {driver : Driver σ δ} {s : Store δ} {t : Traced σ}
variable {value : Bytes} {status : Status} {calls : List Access} {s' : Store δ}
  {blocks : Nat → Block}

theorem wp_scan (k : Nat) : ∀ {blocks : Nat → Block} {n : Nat} {s : Store δ} {t : Traced σ}
    {before : List Access}, Scanned blocks n s → t.calls = scans blocks n ++ before →
    Wp (Store.scan driver.traced k n s) (fun _ => True) (fun r t' =>
      r.2.initialized = s.initialized ∧
      (r.1 = .ok → ∃ blocks, Scanned blocks (n + k) r.2 ∧ r.2.ready = true ∧
        t'.calls = scans blocks (n + k) ++ before) ∧
      (r.1 ≠ .ok → r.2.ready = s.ready)) t := by
  induction k with
  | zero =>
    intro blocks n s t before h hcalls
    exact .pure ⟨rfl, fun _ => ⟨blocks, ⟨h.kinds, h.le, h.above, h.last, h.serial⟩, rfl, hcalls⟩,
      fun hne => absurd rfl hne⟩
  | succ k ih =>
    intro blocks n s t before h hcalls
    rw [Store.scan]
    refine (wp_traced (Q := fun r t' => t'.calls = .inspect n r.1 r.2 :: t.calls)
      fun _ _ => rfl).bind ?_
    rintro ⟨status, block⟩ t₁ ht₁
    refine .ite (fun hbad => .pure ⟨rfl, fun hok => absurd hok hbad, fun _ => rfl⟩) fun hok => ?_
    obtain rfl : status = .ok := by simpa using hok
    obtain ⟨-, hinit, hready⟩ := scanned_frame s n block
    have hcalls₁ : t₁.calls = scans (Function.update blocks n block) (n + 1) ++ before := by
      rw [ht₁, hcalls, scans, Function.update_self,
        scans_congr fun i (hi : i < n) =>
          (Function.update_of_ne (Nat.ne_of_lt hi) block blocks).symm]
      rfl
    refine (ih h.step hcalls₁).conseq ?_
    rintro r t₂ ⟨hinit₂, hok₂, hbad₂⟩
    rw [show n + 1 + k = n + (k + 1) by omega] at hok₂
    exact ⟨hinit₂.trans hinit, hok₂, fun hne => (hbad₂ hne).trans hready⟩

theorem wp_init {context : δ} :
    Wp (Store.init driver.traced { context := context }) (fun _ => True) (fun r t' =>
      r.2.initialized = true ∧
      (r.1 = .ok → ∃ blocks, Scanned blocks kBlockCount r.2 ∧ r.2.ready = true ∧
        t'.calls = scans blocks kBlockCount ++ .init .ok :: t.calls) ∧
      (r.1 ≠ .ok → r.2.ready = false)) t := by
  unfold Store.init
  rw [if_neg Bool.false_ne_true]
  refine .ite (fun _ => .pure ⟨rfl, nofun, fun _ => rfl⟩) fun _ => ?_
  refine (wp_traced (Q := fun r t' => t'.calls = .init r.1 :: t.calls) fun _ _ => rfl).bind ?_
  rintro ⟨status, context⟩ t₁ ht₁
  refine .ite (fun hbad => .pure ⟨rfl, fun hok => absurd hok hbad, fun _ => rfl⟩) fun hok => ?_
  obtain rfl : status = .ok := by simpa using hok
  have hstart : Scanned (fun _ => { record := .blank }) 0
      ({ context := context, initialized := true } : Store δ) := by
    refine ⟨fun i => ?_, Nat.le_refl _, fun _ _ => rfl, fun h => absurd h (Nat.lt_irrefl _), ?_⟩
    · rw [if_neg (Nat.not_lt_zero i)]
    · exact ⟨rfl, fun i hi => absurd hi (Nat.not_lt_zero i)⟩
  refine (wp_scan kBlockCount hstart ht₁).conseq ?_
  rintro r t₂ ⟨hinit, hok₂, hbad⟩
  rw [Nat.zero_add] at hok₂
  exact ⟨hinit, hok₂, hbad⟩

/-! ## One request -/

/-- What the store remembers of the blocks and of the serial number. -/
structure SameCache (s s' : Store δ) : Prop where
  kinds : s'.kinds = s.kinds
  next : s'.next = s.next
  data : s'.serialData = s.serialData
  block : s'.serialBlock = s.serialBlock
  ready : s'.ready = s.ready
  initialized : s'.initialized = s.initialized

theorem SameCache.refl (s : Store δ) : SameCache s s := ⟨rfl, rfl, rfl, rfl, rfl, rfl⟩

/-- A call of `Lock`: one lock and one inspection, which decides whether the block is known to be
locked. -/
theorem wp_storeLock {index : Nat} :
    Wp (s.lock driver.traced index) (fun _ => True) (fun r t' => SameCache s r.2 ∧
      (∃ status inspected block,
        t'.calls = .inspect index inspected block :: .lock index status :: t.calls) ∧
      (r.2.locked = true → ReadLocked t'.calls index) ∧ (r.1 = .ok → r.2.locked = true)) t := by
  unfold Store.lock
  refine (wp_traced (Q := fun r t' => t'.calls = .lock index r.1 :: t.calls) fun _ _ => rfl).bind ?_
  rintro ⟨status, context⟩ t₁ ht₁
  refine (wp_traced (Q := fun r t' => t'.calls = .inspect index r.1 r.2 :: t₁.calls)
    fun _ _ => rfl).bind ?_
  rintro ⟨inspected, block⟩ t₂ ht₂
  have hcalls : ∃ status inspected block,
      t₂.calls = .inspect index inspected block :: .lock index status :: t.calls :=
    ⟨status, inspected, block, by rw [ht₂, ht₁]⟩
  have hlocked : decide (inspected = .ok ∧ block.locked = true) = true →
      ReadLocked t₂.calls index := by
    intro h
    obtain ⟨rfl, hb⟩ := of_decide_eq_true h
    rw [ht₂]
    exact ReadLocked.inspect hb
  refine .ite (fun hbad => .pure ⟨⟨rfl, rfl, rfl, rfl, rfl, rfl⟩, hcalls, hlocked,
    fun hok => absurd hok hbad⟩) fun _ => ?_
  refine .ite (fun _ => .pure ⟨⟨rfl, rfl, rfl, rfl, rfl, rfl⟩, hcalls, hlocked, ?_⟩) fun hl =>
    .pure ⟨⟨rfl, rfl, rfl, rfl, rfl, rfl⟩, hcalls, hlocked, fun _ => by simpa using hl⟩
  intro hok
  dsimp only at hok
  split at hok
  · cases hok
  · next hne => exact absurd hok hne

/-- What a call of `set_serial` with `value` asks of the driver, newest first, and leaves of the
store `s`. -/
structure Request (s : Store δ) (value : Bytes) (status : Status) (s' : Store δ)
    (new calls : List Access) : Prop where
  ready : s'.ready = s.ready
  initialized : s'.initialized = s.initialized
  once : new.countP Access.isProgram ≤ 1
  target : ∀ i record result, .program i record result ∈ new →
    i = s.next ∧ i < kBlockCount ∧ record = serialRecord value ∧ validSerial value = true ∧
      s.ready = true ∧ s.serial ≠ some value
  untouched : (∀ i record result, .program i record result ∈ new →
      result.attempted = false ∧ result.status ≠ .ok) →
    s'.kinds = s.kinds ∧ s'.next = s.next ∧ s'.serialData = s.serialData ∧
      s'.serialBlock = s.serialBlock
  consumed : ∀ i record result, .program i record result ∈ new →
    (result.attempted = true ∨ result.status = .ok) → s'.next = s.next + 1 ∧
      ∃ kind, kind ≠ .unused ∧ s'.kinds = Function.update s.kinds s.next kind
  cache : (s'.serialData = s.serialData ∧ s'.serialBlock = s.serialBlock) ∨
    s'.serialBlock = some s.next ∧ ∃ block, .inspect s.next .ok block ∈ new ∧
      block.record.bytes = (serialRecord value).bytes ∧ s'.serialData = block.record
  identical : s.serial = some value → (∀ i record result, .program i record result ∉ new) ∧
    ∀ i status, .lock i status ∈ new → s.serialBlock = some i ∧ s.locked = false
  ok : status = .ok → ∃ i, s'.serialBlock = some i ∧ ReadLocked calls i

theorem Request.refused (hok : status = .ok → ∃ i, s.serialBlock = some i ∧ ReadLocked calls i) :
    Request s value status s [] calls where
  ready := rfl
  initialized := rfl
  once := Nat.zero_le _
  target := nofun
  untouched _ := ⟨rfl, rfl, rfl, rfl⟩
  consumed := nofun
  cache := .inl ⟨rfl, rfl⟩
  identical _ := ⟨nofun, nofun⟩
  ok := hok

/-- A request whose value is in the store already, not known to be locked. -/
theorem Request.relocked {st inspected : Status} {index : Nat} {block : Block}
    (hindex : s.serialBlock = some index) (hlocked : s.locked = false) (h : SameCache s s')
    (hok : status = .ok → ReadLocked calls index) :
    Request s value status s' [.inspect index inspected block, .lock index st] calls where
  ready := h.ready
  initialized := h.initialized
  once := Nat.zero_le _
  target i record result hmem := by simp at hmem
  untouched _ := ⟨h.kinds, h.next, h.data, h.block⟩
  consumed i record result hmem := by simp at hmem
  cache := .inl ⟨h.data, h.block⟩
  identical _ := by
    refine ⟨fun i record result hmem => by simp at hmem, fun i status hmem => ?_⟩
    obtain ⟨rfl, -⟩ : i = index ∧ status = st := by simpa using hmem
    exact ⟨hindex, hlocked⟩
  ok hstatus := ⟨index, h.block.trans hindex, hok hstatus⟩

theorem Request.appended {result : ProgramResult} (new : List Access) (hready : s'.ready = s.ready)
    (hinit : s'.initialized = s.initialized)
    (htarget : s.next < kBlockCount ∧ validSerial value = true ∧ s.ready = true ∧
      s.serial ≠ some value) (hnew : ∀ a ∈ new, a.isProgram = false)
    (hsame : ¬ (result.attempted = true ∨ result.status = .ok) →
      s'.kinds = s.kinds ∧ s'.next = s.next ∧ s'.serialData = s.serialData ∧
        s'.serialBlock = s.serialBlock)
    (hused : result.attempted = true ∨ result.status = .ok → s'.next = s.next + 1 ∧
      ∃ kind, kind ≠ .unused ∧ s'.kinds = Function.update s.kinds s.next kind)
    (hcache : (s'.serialData = s.serialData ∧ s'.serialBlock = s.serialBlock) ∨
      s'.serialBlock = some s.next ∧ ∃ block, .inspect s.next .ok block ∈ new ∧
        block.record.bytes = (serialRecord value).bytes ∧ s'.serialData = block.record)
    (hok : status = .ok → ∃ i, s'.serialBlock = some i ∧ ReadLocked calls i) :
    Request s value status s' (new ++ [.program s.next (serialRecord value) result]) calls := by
  have honly : ∀ i record r, Access.program i record r ∈
      new ++ [.program s.next (serialRecord value) result] →
      i = s.next ∧ record = serialRecord value ∧ r = result := by
    intro i record r hmem
    rcases List.mem_append.1 hmem with hmem | hmem
    · exact absurd (hnew _ hmem) Bool.noConfusion
    · simpa using hmem
  refine ⟨hready, hinit, ?_, fun i record r hmem => ?_, fun hnone => ?_, fun i record r hmem hc => ?_,
    ?_, fun hsame' => absurd hsame' htarget.2.2.2, hok⟩
  · rw [List.countP_append, List.countP_eq_zero.2 fun a ha => by simp [hnew a ha]]
    exact Nat.le_refl 1
  · obtain ⟨rfl, rfl, -⟩ := honly i record r hmem
    exact ⟨rfl, htarget.1, rfl, htarget.2⟩
  · refine hsame ?_
    obtain ⟨hattempted, hstatus⟩ := hnone _ _ _ (List.mem_append_right _ (List.mem_singleton.2 rfl))
    simp [hattempted, hstatus]
  · obtain ⟨-, -, rfl⟩ := honly i record r hmem
    exact hused hc
  · refine hcache.imp_right fun ⟨hblock, block, hmem, hrest⟩ => ?_
    exact ⟨hblock, block, List.mem_append_left _ hmem, hrest⟩

/-- What a ready store keeps: the blocks from the next one on are unused and the one before is not,
and a block known to be locked was found locked the last time it was touched. -/
structure Sound (s : Store δ) (calls : List Access) : Prop where
  le : s.next ≤ kBlockCount
  above : ∀ i, s.next ≤ i → s.kinds i = .unused
  last : 0 < s.next → s.kinds (s.next - 1) ≠ .unused
  below : ∀ i, s.serialBlock = some i → i < s.next
  locked : s.locked = true → ∃ i, s.serialBlock = some i ∧ ReadLocked calls i

theorem Scanned.sound (h : Scanned blocks kBlockCount s) {rest : List Access} :
    Sound s (scans blocks kBlockCount ++ rest) := by
  have hserial := h.serial
  refine ⟨h.le, h.above, h.last, fun i hi => ?_, fun hl => ?_⟩
  · simp only [hi] at hserial
    by_contra hge
    have := h.above i (by omega)
    rw [h.kinds, if_pos hserial.1, hserial.2.1] at this
    cases this
  · split at hserial
    · rw [hserial.1] at hl
      cases hl
    · next b hb =>
      exact ⟨b, hb, blocks b, find_scans hserial.1 rest, hserial.2.2.2.1 ▸ hl⟩

/-- Calls about the next block or a later one do not touch the current one. -/
theorem Sound.frame {new : List Access} (h : Sound s calls) (hs : SameCache s s')
    (hlocked : s'.locked = s.locked) (hnew : ∀ a ∈ new, a.index = some s.next) :
    Sound s' (new ++ calls) where
  le := hs.next ▸ h.le
  above := by rw [hs.next, hs.kinds]; exact h.above
  last := by rw [hs.next, hs.kinds]; exact h.last
  below := by rw [hs.next, hs.block]; exact h.below
  locked := by
    rw [hlocked, hs.block]
    intro hl
    obtain ⟨i, hi, hread⟩ := h.locked hl
    refine ⟨i, hi, ?_⟩
    have hlt := h.below i hi
    clear hl
    induction new with
    | nil => exact hread
    | cons a new ih =>
      refine (ih fun b hb => hnew b (List.mem_cons_of_mem _ hb)).cons ?_
      rw [hnew a List.mem_cons_self]
      intro heq
      have := Option.some.inj heq
      omega

theorem Sound.consume {kind : Kind} (h : Sound s calls) (hfull : s.next < kBlockCount)
    (hnext : s'.next = s.next + 1) (hkind : kind ≠ .unused)
    (hkinds : s'.kinds = Function.update s.kinds s.next kind)
    (hblock : s'.serialBlock = s.serialBlock ∨ s'.serialBlock = some s.next) {calls' : List Access}
    (hlocked : s'.locked = true → ∃ i, s'.serialBlock = some i ∧ ReadLocked calls' i) :
    Sound s' calls' where
  le := by omega
  above i hi := by
    rw [hkinds, Function.update_of_ne (by omega)]
    exact h.above i (by omega)
  last _ := by
    rw [hkinds, hnext, Nat.add_sub_cancel, Function.update_self]
    exact hkind
  below i hi := by
    rcases hblock with hb | hb
    · have := h.below i (hb ▸ hi)
      omega
    · obtain rfl : s.next = i := Option.some.inj (hb.symm.trans hi)
      omega
  locked := hlocked

/-- What the verification of a record programmed into block `index` leaves of the store `s`. -/
structure Verified (s : Store δ) (index : Nat) (proposed : Record) (status : Status)
    (s' : Store δ) (new calls : List Access) : Prop where
  ready : s'.ready = s.ready
  initialized : s'.initialized = s.initialized
  next : s'.next = s.next
  only : ∀ a ∈ new, a.isProgram = false ∧ a.index = some index
  kinds : s'.kinds = s.kinds ∨ ∃ kind, kind ≠ .unused ∧
    s'.kinds = Function.update s.kinds index kind
  cache : (status ≠ .ok ∧ s'.serialData = s.serialData ∧ s'.serialBlock = s.serialBlock ∧
      s'.locked = s.locked) ∨
    (s'.serialBlock = some index ∧ (∃ block, .inspect index .ok block ∈ new ∧
      block.record.bytes = proposed.bytes ∧ s'.serialData = block.record) ∧
      (s'.locked = true → ReadLocked calls index) ∧ (status = .ok → s'.locked = true))

theorem wp_verify {index : Nat} {proposed : Record} :
    Wp (s.verify driver.traced index proposed) (fun _ => True) (fun r t' =>
      ∃ new, t'.calls = new ++ t.calls ∧ Verified s index proposed r.1 r.2 new t'.calls) t := by
  unfold Store.verify
  refine (wp_traced (Q := fun r t' => t'.calls = .inspect index r.1 r.2 :: t.calls)
    fun _ _ => rfl).bind ?_
  rintro ⟨status, block⟩ t₁ ht₁
  have hone : ∀ a ∈ [Access.inspect index status block], a.isProgram = false ∧ a.index = some index := by
    intro a ha
    rw [List.mem_singleton.1 ha]
    exact ⟨rfl, rfl⟩
  refine .ite (fun hbad => .pure ⟨[.inspect index status block], ht₁, ?_⟩) fun hread => ?_
  · refine ⟨rfl, rfl, rfl, hone, .inr ⟨.unreadable, nofun, rfl⟩, .inl ⟨?_, rfl, rfl, rfl⟩⟩
    dsimp only
    split
    · nofun
    · next hne => exact hne
  obtain ⟨hstatus, -⟩ := not_or.1 hread
  obtain rfl : status = .ok := by simpa using hstatus
  refine .ite (fun _ => .pure ⟨_, ht₁, rfl, rfl, rfl, hone, .inl rfl,
    .inl ⟨nofun, rfl, rfl, rfl⟩⟩) fun hsame => ?_
  have hbytes : block.record.bytes = proposed.bytes := by
    by_contra hne
    exact hsame (.inr hne)
  refine wp_storeLock.conseq ?_
  rintro r t₂ ⟨hs, ⟨st, inspected, block', hcalls⟩, hlocked, hok⟩
  refine ⟨[.inspect index inspected block', .lock index st, .inspect index .ok block], ?_,
    hs.ready, hs.initialized, hs.next, ?_, .inr ⟨.valid, nofun, hs.kinds⟩,
    .inr ⟨hs.block, ⟨block, by simp, hbytes, hs.data⟩, hlocked, hok⟩⟩
  · rw [hcalls, ht₁]
    rfl
  · intro a ha
    simp only [List.mem_cons, List.not_mem_nil, or_false] at ha
    rcases ha with rfl | rfl | rfl <;> exact ⟨rfl, rfl⟩

theorem wp_append (h : Sound s t.calls) (hvalid : validSerial value = true)
    (hready : s.ready = true) (hother : s.serial ≠ some value) (hfull : s.next ≠ kBlockCount) :
    Wp (s.append driver.traced value) (fun _ => True) (fun r t' =>
      ∃ new, t'.calls = new ++ t.calls ∧ Request s value r.1 r.2 new t'.calls ∧
        Sound r.2 t'.calls) t := by
  have hlt : s.next < kBlockCount := Nat.lt_of_le_of_ne h.le hfull
  have htarget : s.next < kBlockCount ∧ validSerial value = true ∧ s.ready = true ∧
      s.serial ≠ some value := ⟨hlt, hvalid, hready, hother⟩
  unfold Store.append
  refine (wp_traced (Q := fun r t' =>
    t'.calls = .program s.next (serialRecord value) r.1 :: t.calls) fun _ _ => rfl).bind ?_
  rintro ⟨result, context⟩ t₁ ht₁
  have hcur : ∀ a ∈ [Access.program s.next (serialRecord value) result], a.index = some s.next := by
    intro a ha
    rw [List.mem_singleton.1 ha]
    rfl
  -- the current block is not the one that is programmed
  have hkept : Sound s t₁.calls := by
    rw [ht₁]
    exact h.frame (.refl s) rfl hcur
  by_cases hused : result.attempted = true ∨ result.status = .ok
  · simp only [hused, if_true]
    refine .ite (fun hbad => .pure
      ⟨[.program s.next (serialRecord value) result], ht₁, ?_, ?_⟩) fun hok => ?_
    · exact Request.appended [] rfl rfl htarget nofun (fun hn => absurd hused hn)
        (fun _ => ⟨rfl, .invalid, nofun, rfl⟩) (.inl ⟨rfl, rfl⟩) fun hstatus => absurd hstatus hbad
    · exact h.consume hlt (by rfl) (show Kind.invalid ≠ .unused from nofun) (by rfl) (.inl (by rfl))
        hkept.locked
    · refine wp_verify.conseq ?_
      rintro r t₂ ⟨new, hcalls, hv⟩
      have hkinds : ∃ kind, kind ≠ .unused ∧ r.2.kinds = Function.update s.kinds s.next kind := by
        rcases hv.kinds with hk | ⟨kind, hne, hk⟩
        · exact ⟨.invalid, nofun, hk⟩
        · refine ⟨kind, hne, hk.trans ?_⟩
          exact Function.update_idem ..
      have hlast : Sound s t₂.calls := by
        rw [hcalls]
        exact hkept.frame (.refl s) rfl fun a ha => (hv.only a ha).2
      have hlocked : r.2.locked = true → ∃ i, r.2.serialBlock = some i ∧ ReadLocked t₂.calls i := by
        intro hl
        rcases hv.cache with ⟨-, -, hblock, hsame⟩ | ⟨hblock, -, hread, -⟩
        · rw [hblock]
          exact hlast.locked (hsame ▸ hl)
        · exact ⟨s.next, hblock, hread hl⟩
      refine ⟨new ++ [.program s.next (serialRecord value) result], ?_, ?_, ?_⟩
      · rw [hcalls, ht₁, List.append_assoc]
        rfl
      · refine Request.appended new hv.ready hv.initialized htarget (fun a ha => (hv.only a ha).1)
          (fun hn => absurd hused hn) (fun _ => ⟨hv.next, hkinds⟩) ?_ ?_
        · exact hv.cache.imp (fun hc => ⟨hc.2.1, hc.2.2.1⟩) fun hc => ⟨hc.1, hc.2.1⟩
        · intro hstatus
          rcases hv.cache with ⟨hne, -⟩ | ⟨-, -, -, hl⟩
          · exact absurd hstatus hne
          · exact hlocked (hl hstatus)
      · obtain ⟨kind, hne, hk⟩ := hkinds
        exact h.consume hlt hv.next hne hk (hv.cache.imp (fun hc => hc.2.2.1) fun hc => hc.1) hlocked
  · simp only [hused, if_false]
    have hbad : result.status ≠ .ok := fun hok => hused (.inr hok)
    rw [if_pos hbad]
    refine .pure ⟨[.program s.next (serialRecord value) result], ht₁, ?_, ?_⟩
    · exact Request.appended [] rfl rfl htarget nofun (fun _ => ⟨rfl, rfl, rfl, rfl⟩)
        (fun hc => absurd hc hused) (.inl ⟨rfl, rfl⟩) fun hstatus => absurd hstatus hbad
    · exact ⟨hkept.le, hkept.above, hkept.last, hkept.below, hkept.locked⟩

/-- A call of `set_serial` on a store that is sound once it is ready. -/
theorem wp_setSerial (h : s.ready = true → Sound s t.calls) :
    Wp (s.setSerial driver.traced value) (fun _ => True) (fun r t' =>
      ∃ new, t'.calls = new ++ t.calls ∧ Request s value r.1 r.2 new t'.calls ∧
        (r.2.ready = true → Sound r.2 t'.calls)) t := by
  unfold Store.setSerial
  refine .ite (fun _ => .pure ⟨[], rfl, .refused nofun, h⟩) fun hr => ?_
  have hready : s.ready = true := by simpa using hr
  have hs := h hready
  refine .ite (fun _ => .pure ⟨[], rfl, .refused nofun, h⟩) fun hv => ?_
  have hvalid : validSerial value = true := by simpa using hv
  cases hblock : s.serialBlock with
  | some block =>
    dsimp only
    refine .ite (fun hsame => ?_) fun hother => ?_
    · refine .ite (fun hl => .pure ⟨[], rfl, .refused fun _ => hs.locked hl, h⟩) fun hl => ?_
      refine wp_storeLock.conseq ?_
      rintro r t₁ ⟨hframe, ⟨st, inspected, b, hcalls⟩, hlocked, hok⟩
      refine ⟨_, hcalls, .relocked hblock (by simpa using hl) hframe fun hstatus =>
        hlocked (hok hstatus), fun _ => ⟨?_, ?_, ?_, ?_, fun hl' => ⟨block, ?_, hlocked hl'⟩⟩⟩
      · exact hframe.next ▸ hs.le
      · rw [hframe.next, hframe.kinds]
        exact hs.above
      · rw [hframe.next, hframe.kinds]
        exact hs.last
      · rw [hframe.next, hframe.block]
        exact hs.below
      · exact hframe.block.trans hblock
    · refine .ite (fun _ => .pure ⟨[], rfl, .refused nofun, h⟩) fun hfull => ?_
      have hne : s.serial ≠ some value := by
        rw [Store.serial, if_neg (by simp [hready, hblock])]
        exact fun hc => hother (Option.some.inj hc)
      exact (wp_append hs hvalid hready hne hfull).conseq fun r t₁ ⟨new, hcalls, hreq, hsound⟩ =>
        ⟨new, hcalls, hreq, fun _ => hsound⟩
  | none =>
    dsimp only
    refine .ite (fun _ => .pure ⟨[], rfl, .refused nofun, h⟩) fun hfull => ?_
    have hne : s.serial ≠ some value := by
      rw [Store.serial, if_pos (.inr hblock)]
      nofun
    exact (wp_append hs hvalid hready hne hfull).conseq fun r t₁ ⟨new, hcalls, hreq, hsound⟩ =>
      ⟨new, hcalls, hreq, fun _ => hsound⟩

/-! ## Whole runs -/

/-- The stores a run of calls goes through, with the driver's state and the calls made of it.
`snapshot` and `serial` only read the store. -/
inductive Reach (driver : Driver σ δ) : Store δ → Traced σ → Prop
  | new (context : δ) (device : σ) : Reach driver { context := context } ⟨device, []⟩
  | init {s s' : Store δ} {t t' : Traced σ} {status : Status} (h : Reach driver s t)
      (hcall : s.init driver.traced t = (some (status, s'), t')) : Reach driver s' t'
  | setSerial {s s' : Store δ} {t t' : Traced σ} {value : Bytes} {status : Status}
      (h : Reach driver s t)
      (hcall : s.setSerial driver.traced value t = (some (status, s'), t')) : Reach driver s' t'

/-- A store of a run: before `init` it is as constructed, and once ready it is sound. -/
structure Good (s : Store δ) (calls : List Access) : Prop where
  fresh : s.initialized = false → ∃ context, s = { context := context }
  sound : s.ready = true → Sound s calls

theorem init_again (hinit : s.initialized = true) :
    Wp (s.init driver.traced) (fun _ => True) (fun r t' => r.1 ≠ .ok ∧ r.2 = s ∧ t' = t) t := by
  unfold Store.init
  rw [if_pos hinit]
  refine .pure ⟨?_, rfl, rfl⟩
  dsimp only
  split <;> nofun

theorem Reach.good (h : Reach driver s t) : Good s t.calls := by
  induction h with
  | new context device => exact ⟨fun _ => ⟨context, rfl⟩, nofun⟩
  | @init s s' t t' status h hcall ih =>
    cases hinit : s.initialized with
    | true =>
      obtain ⟨-, rfl, rfl⟩ := (init_again hinit).of_some hcall
      exact ih
    | false =>
      obtain ⟨context, rfl⟩ := ih.fresh hinit
      obtain ⟨hdone, hok, hbad⟩ := wp_init.of_some hcall
      refine ⟨fun hno => absurd (hdone.symm.trans hno) Bool.noConfusion, fun hready => ?_⟩
      by_cases hstatus : status = .ok
      · obtain ⟨blocks, hscanned, -, hcalls⟩ := hok hstatus
        rw [hcalls]
        exact hscanned.sound
      · exact absurd ((hbad hstatus).symm.trans hready) Bool.noConfusion
  | @setSerial s s' t t' value status h hcall ih =>
    obtain ⟨new, -, hreq, hsound⟩ := (wp_setSerial ih.sound).of_some hcall
    refine ⟨fun hno => ?_, hsound⟩
    obtain ⟨context, rfl⟩ := ih.fresh (hreq.initialized ▸ hno)
    refine ⟨context, ?_⟩
    -- a store that is not ready refuses the request
    have : Store.setSerial driver.traced ({ context := context } : Store δ) value t =
        (some (.notRunning, { context := context }), t) := rfl
    rw [this] at hcall
    exact (Prod.ext_iff.1 (Option.some.inj (Prod.ext_iff.1 hcall).1)).2.symm

theorem Sound.gaps (h : Sound s calls) :
    s.snapshot.gaps = (List.range s.next).countP fun i => s.kinds i = .unused := by
  have hsplit : List.range kBlockCount =
      List.range s.next ++ (List.range (kBlockCount - s.next)).map (s.next + ·) := by
    rw [← List.range_add, Nat.add_sub_cancel' h.le]
  have hnone : ((List.range (kBlockCount - s.next)).map (s.next + ·)).countP
      (fun i => decide (s.kinds i ≠ .unused)) = 0 := by
    rw [List.countP_eq_zero]
    intro i hi
    obtain ⟨j, -, rfl⟩ := List.mem_map.1 hi
    simpa using h.above (s.next + j) (by omega)
  have hall := List.length_eq_countP_add_countP (fun i => decide (s.kinds i = .unused))
    (l := List.range s.next)
  rw [List.length_range] at hall
  show s.next - (List.range kBlockCount).countP (fun i => decide (s.kinds i ≠ .unused)) = _
  rw [hsplit, List.countP_append, hnone]
  have hneg : (List.range s.next).countP (fun i => decide (s.kinds i ≠ .unused)) =
      (List.range s.next).countP (fun i => decide (¬ decide (s.kinds i = .unused) = true)) :=
    List.countP_congr fun i _ => by simp
  omega

/-- The store after an `init` that found `blocks`. -/
structure Opened (blocks : Nat → Block) (s : Store δ) : Prop where
  ready : s.ready = true
  kinds : ∀ i, i < kBlockCount → s.kinds i = classify (blocks i)
  serial : ∀ b, b < kBlockCount → classify (blocks b) = .valid →
    (∀ i, b < i → i < kBlockCount → classify (blocks i) ≠ .valid) →
    s.serial = some (blocks b).record.payload
  noSerial : (∀ i, i < kBlockCount → classify (blocks i) ≠ .valid) → s.serial = none
  next : ∀ i, i < kBlockCount → classify (blocks i) ≠ .unused → i < s.next
  last : s.next = 0 ∨
    ∃ i, i < kBlockCount ∧ classify (blocks i) ≠ .unused ∧ s.next = i + 1

theorem Scanned.opened (h : Scanned blocks kBlockCount s) (hready : s.ready = true) :
    Opened blocks s := by
  have hkinds : ∀ i, i < kBlockCount → s.kinds i = classify (blocks i) :=
    fun i hi => by rw [h.kinds, if_pos hi]
  have hserial := h.serial
  refine ⟨hready, hkinds, fun b hb hvalid hlater => ?_, fun hnone => ?_, fun i hi hused => ?_, ?_⟩
  · cases hblock : s.serialBlock with
    | none =>
      simp only [hblock] at hserial
      exact absurd hvalid (hserial.2 b hb)
    | some b' =>
      simp only [hblock] at hserial
      obtain ⟨hb', hvalid', hdata, -, hlater'⟩ := hserial
      obtain rfl : b = b' := by
        rcases Nat.lt_trichotomy b b' with hlt | heq | hgt
        · exact absurd hvalid' (hlater b' hlt hb')
        · exact heq
        · exact absurd hvalid (hlater' b hgt hb)
      rw [Store.serial, if_neg (by simp [hready, hblock]), hdata]
  · cases hblock : s.serialBlock with
    | none => rw [Store.serial, if_pos (.inr hblock)]
    | some b =>
      simp only [hblock] at hserial
      exact absurd hserial.2.1 (hnone b hserial.1)
  · by_contra hge
    exact hused ((hkinds i hi).symm.trans (h.above i (by omega)))
  · rcases Nat.eq_zero_or_pos s.next with hzero | hpos
    · exact .inl hzero
    · have hlt : s.next - 1 < kBlockCount := by
        have := h.le
        omega
      exact .inr ⟨s.next - 1, hlt, hkinds _ hlt ▸ h.last hpos, by omega⟩

/-- Over any driver and any calls: a successful `init` inspects every block once and takes the newest
valid serial number; `set_serial` is a `Request`; and the gaps are the unused blocks below the next
one, which is one past the last that is not unused. -/
theorem store_calls (h : Reach driver s t) :
    (∀ s' t', s.init driver.traced t = (some (.ok, s'), t') →
      ∃ blocks, Opened blocks s' ∧ t'.calls = scans blocks kBlockCount ++ .init .ok :: t.calls) ∧
    (∀ value status s' t', s.setSerial driver.traced value t = (some (status, s'), t') →
      ∃ new, t'.calls = new ++ t.calls ∧ Request s value status s' new t'.calls) ∧
    (s.ready = true →
      s.snapshot.gaps = (List.range s.next).countP (fun i => s.kinds i = .unused) ∧
      s.next ≤ kBlockCount ∧ (∀ i, s.next ≤ i → s.kinds i = .unused) ∧
      (0 < s.next → s.kinds (s.next - 1) ≠ .unused)) := by
  refine ⟨fun s' t' hcall => ?_, fun value status s' t' hcall => ?_, fun hready => ?_⟩
  · cases hinit : s.initialized with
    | true => exact absurd rfl ((init_again hinit).of_some hcall).1
    | false =>
      obtain ⟨context, rfl⟩ := h.good.fresh hinit
      obtain ⟨blocks, hscanned, hready, hcalls⟩ := (wp_init.of_some hcall).2.1 rfl
      exact ⟨blocks, hscanned.opened hready, hcalls⟩
  · obtain ⟨new, hcalls, hreq, -⟩ := (wp_setSerial h.good.sound).of_some hcall
    exact ⟨new, hcalls, hreq⟩
  · have hs := h.good.sound hready
    exact ⟨hs.gaps, hs.le, hs.above, hs.last⟩

/-- A driver whose block 3 holds a serial number. -/
def oneSerial : Driver Unit Unit where
  init _ := pure (.ok, ())
  inspect _ i := pure (.ok, if i = 3 then
    { record := serialRecord [0x41], storage := .consumed, locked := true }
    else { record := .blank })
  program _ _ _ := pure (⟨.rejected, false⟩, ())
  lock _ _ := pure (.ok, ())

theorem store_calls_gaps : ∃ (s : Store Unit) (t : Traced Unit), Reach oneSerial s t ∧
    s.serial = some [0x41] ∧ s.snapshot.gaps = 3 ∧
    s.snapshot.gaps = (List.range s.next).countP (fun i => s.kinds i = .unused) := by
  have hrun : (Store.init oneSerial.traced { context := () } ⟨(), []⟩).1.any (fun r =>
      r.1 = .ok ∧ r.2.serial = some [0x41] ∧ r.2.ready = true ∧ r.2.snapshot.gaps = 3) = true := by
    decide +kernel
  generalize hinit : Store.init oneSerial.traced { context := () } ⟨(), []⟩ = run at hrun
  obtain ⟨result, t⟩ := run
  obtain ⟨⟨status, s⟩, rfl, hr⟩ := (Option.any_eq_true _ _).1 hrun
  obtain ⟨-, hserial, hready, hgaps⟩ := of_decide_eq_true hr
  have h : Reach oneSerial s t := .init (.new () ()) hinit
  exact ⟨s, t, h, hserial, hgaps, ((store_calls h).2.2 hready).1⟩

end Requests

end Calls

end DaveOs.Otp
