import DaveOs.Otp.Append

/-!
# Power-cut atomicity of the OTP store

A running store caches the newest value of the region (`Ready`). A request ends with its value cached
and stored, or leaves everything as it was; cut short anywhere, it leaves a region whose newest value
is the old one or, once something has been programmed, the requested one (`Aftermath`). Over every
history of sessions the serial number is therefore one the requests allow (`otp_power_cuts`).
-/

namespace DaveOs.Otp

open Bytes Wire Crash

variable {base b n : Nat} {value : Bytes} {C : Device → Prop} {c c' : Contents} {d d' : Device}

def serialIn (c : Contents) (base : Nat) : Option Bytes :=
  (newest c base kBlockCount).map Prod.snd

/-! ## The scan -/

/-- The store after the first `i` blocks have been scanned. -/
structure Scanned (base : Nat) (c : Contents) (i : Nat) (s : OtpStore) : Prop where
  context : s.context = { base := base, initialized := true }
  next : s.next ≤ i
  blank : ∀ b, s.next ≤ b → b < i → Blank c base b
  last : ∀ b, s.next = b + 1 → ¬ Blank c base b
  cached : s.serialBlock.map (fun b => (b, s.serialData.payload)) = newest c base i

theorem Scanned.step {i : Nat} {s : OtpStore} (h : Scanned base c i s) :
    Scanned base c (i + 1) (s.scanned i (examine false i (image c base i))) := by
  obtain ⟨block, hblock⟩ : ∃ block, block = examine false i (image c base i) := ⟨_, rfl⟩
  have hunused : classify block = .unused ↔ Blank c base i := hblock ▸ classify_unused
  have hholds : holds c base i = if classify block = .valid then some block.record.payload else none :=
    hblock ▸ holds_eq false
  rw [← hblock]
  have hnext : (s.scanned i block).next = if classify block = .unused then s.next else i + 1 := by
    unfold Store.scanned Store.error
    dsimp only
    cases classify block <;> rfl
  have hcached : (s.scanned i block).serialBlock.map
      (fun b => (b, (s.scanned i block).serialData.payload)) =
      if classify block = .valid then some (i, block.record.payload)
      else s.serialBlock.map fun b => (b, s.serialData.payload) := by
    unfold Store.scanned Store.error
    dsimp only
    cases classify block <;> rfl
  refine ⟨?_, ?_, ?_, ?_, ?_⟩
  · rw [← h.context]
    unfold Store.scanned Store.error
    dsimp only
    cases classify block <;> rfl
  · have := h.next
    rw [hnext]
    split <;> omega
  · intro b hb hlt
    rw [hnext] at hb
    by_cases hu : classify block = .unused
    · rw [if_pos hu] at hb
      rcases Nat.lt_or_ge b i with hbi | hbi
      · exact h.blank b hb hbi
      · rw [show b = i by omega]
        exact hunused.1 hu
    · rw [if_neg hu] at hb
      omega
  · intro b hb
    rw [hnext] at hb
    by_cases hu : classify block = .unused
    · rw [if_pos hu] at hb
      exact h.last b hb
    · rw [if_neg hu] at hb
      rw [show b = i by omega, ← hunused]
      exact hu
  · rw [hcached, newest, hholds]
    by_cases hvalid : classify block = .valid
    · rw [if_pos hvalid, if_pos hvalid]
    · rw [if_neg hvalid, if_neg hvalid, h.cached]

theorem wp_scan (m : Nat) : ∀ {i : Nat} {s : OtpStore} {d' : Device}, i + m = kBlockCount →
    Scanned base d.contents i s → Still d d' →
    Wp (Store.scan otpDriver m i s) (Still d) (fun r d'' => Still d d'' ∧ r.1 = .ok ∧
      r.2.ready = true ∧ Scanned base d.contents kBlockCount r.2) d' := by
  induction m with
  | zero =>
    intro i s d' hi h hs
    rw [Nat.add_zero] at hi
    subst hi
    exact .pure ⟨hs, rfl, rfl, ⟨h.context, h.next, h.blank, h.last, h.cached⟩⟩
  | succ m ih =>
    intro i s d' hi h hs
    have hf : Running base s.context := by
      rw [h.context]
      exact ⟨rfl, rfl, rfl, fun _ => Nat.zero_le _⟩
    rw [Store.scan]
    refine (wp_inspect hf (show i < kBlockCount by omega) fun d'' hs' => hs.trans hs').bind ?_
    rintro r d₁ ⟨hs₁, rfl⟩
    dsimp only
    rw [if_neg (by simp), h.context, hs.contents]
    exact ih (by omega) h.step (hs.trans hs₁)

theorem newest_lt {m : Nat} {x : Nat × Bytes} (h : newest c base m = some x) : x.1 < m := by
  induction m with
  | zero => cases h
  | succ m ih =>
    rw [newest] at h
    split at h
    · obtain rfl := Option.some.inj h
      exact Nat.lt_succ_self m
    · exact Nat.lt_succ_of_lt (ih h)

/-! ## A running store -/

/-- The store runs on its region, of which the first `n` blocks have been used, and caches its newest
value. -/
structure Ready (base n : Nat) (s : OtpStore) (d : Device) : Prop where
  running : Running base s.context
  ready : s.ready = true
  quiet : d.pending = none
  log : Orderly base d.log n
  next : s.next ≤ n
  blank : ∀ b, s.next ≤ b → b < kBlockCount → Blank d.contents base b
  attempted : ∀ b, s.context.attempted b = true → b < s.next
  cached : s.serialBlock.map (fun b => (b, s.serialData.payload)) = newest d.contents base kBlockCount

theorem Ready.serial {s : OtpStore} (h : Ready base n s d) : s.serial = serialIn d.contents base := by
  rw [serialIn, ← h.cached, Store.serial, h.ready]
  cases s.serialBlock <;> rfl

/-- What survives a history: the log has used the first blocks, the others are blank, and the newest
value is allowed. -/
structure Kept (base : Nat) (s : Surviving) : Prop where
  log : ∃ n, Orderly base s.log n ∧ ∀ b, n ≤ b → b < kBlockCount → Blank s.contents base b
  allowed : s.ledger.Allows (serialIn s.contents base)

/-- The region the store is constructed over. -/
structure Placed (base : Nat) : Prop where
  aligned : base % kSize = 0
  bound : base ≤ 0xffffffff - kSize

theorem wp_init (hbase : Placed base) {s : Surviving} (hs : Kept base s) (events : List Event) :
    Wp ((OtpStore.new base).init otpDriver) (Still (s.device events)) (fun r d' =>
      Still (s.device events) d' ∧ r.1 = .ok ∧ ∃ n, Ready base n r.2 d') (s.device events) := by
  obtain ⟨n, hlog, hblank⟩ := hs.log
  have hscan : Scanned base s.contents 0
      { (OtpStore.new base) with initialized := true, context := { base := base, initialized := true } } :=
    ⟨rfl, Nat.le_refl _, fun b _ h => absurd h (Nat.not_lt_zero b), fun b h => (by cases h), rfl⟩
  unfold Store.init
  rw [if_neg (by simp [OtpStore.new]), if_neg (by simp [FlashOtp.driver])]
  have hinit : otpDriver.init { base := base } =
      (pure (.ok, { base := base, initialized := true }) : Crash Device _) := by
    show (FlashOtp.init { base := base } : Crash Device (Status × FlashOtp)) = _
    unfold FlashOtp.init
    rw [if_neg (by simp), if_neg (by have := hbase.aligned; have := hbase.bound; simp; omega)]
  show Wp (otpDriver.init { base := base } >>= _) _ _ _
  rw [hinit]
  refine .bind (Q := fun r d' => r = (.ok, { base := base, initialized := true }) ∧
    d' = s.device events) (.pure ⟨rfl, rfl⟩) ?_
  rintro r d' ⟨rfl, rfl⟩
  dsimp only
  rw [if_neg (by simp)]
  refine (wp_scan kBlockCount (d := s.device events) (Nat.zero_add _) hscan (.refl _)).conseq ?_
  rintro r d' ⟨hstill, hok, hready, h⟩
  refine ⟨hstill, hok, n, ?_, hready, hstill.pending, ?_, ?_, ?_, ?_, ?_⟩
  · rw [h.context]
    exact ⟨rfl, rfl, rfl, fun _ => Nat.zero_le _⟩
  · rw [hstill.log]
    exact hlog
  · by_contra hn
    obtain ⟨b, hb⟩ : ∃ b, r.2.next = b + 1 := ⟨r.2.next - 1, by omega⟩
    have := h.next
    exact h.last b hb (hblank b (by omega) (by omega))
  · rw [hstill.contents]
    exact h.blank
  · rw [h.context]
    intro b hb
    cases hb
  · rw [hstill.contents]
    exact h.cached

/-! ## One request -/

/-- What a request for `value` that was cut short leaves: the newest value is the old one or, once
something was commanded, the requested one. -/
structure Aftermath (base : Nat) (value : Bytes) (d d' : Device) : Prop where
  log : ∃ n, Orderly base d'.log n ∧
    ∀ torn b, n ≤ b → b < kBlockCount → Blank (d'.powerOff torn) base b
  serial : ∀ torn, serialIn (d'.powerOff torn) base = serialIn d.contents base ∨
    (serialIn (d'.powerOff torn) base = some value ∧ d.log.length < d'.log.length)

/-- The newest value once a blank block, with only blank blocks above it, may hold another. -/
theorem serialIn_filled (hb : b < kBlockCount) (hblank : ∀ b', b ≤ b' → b' < kBlockCount →
      Blank c base b') (hout : ∀ pos, (∀ i, i < 6 → pos ≠ wordAt base b i) → c' pos = c pos) :
    newest c' base kBlockCount =
      match holds c' base b with
      | some value => some (b, value)
      | none => newest c base kBlockCount := by
  have hother : ∀ b', b' ≠ b → holds c' base b' = holds c base b' := by
    intro b' hne
    refine holds_congr fun i hi => hout _ fun j hj heq => hne ?_
    exact (wordAt_inj (by omega) (by omega) heq).1
  have hnone : ∀ b', b ≤ b' → b' < kBlockCount → holds c base b' = none :=
    fun b' hle hlt => holds_blank (hblank b' hle hlt)
  rw [newest_of_none (show b + 1 ≤ kBlockCount from hb) fun b' hle hlt => by
    rw [hother b' (by omega)]
    exact hnone b' (by omega) hlt, newest]
  cases holds c' base b with
  | some value => rfl
  | none =>
    have hsame : newest c' base b = newest c base b := newest_congr fun b' hlt => hother b' (by omega)
    exact hsame.trans (newest_of_none (Nat.le_of_lt hb) hnone).symm

theorem Left.aftermath (hfree : Free base b n d) (h : Left base b n value d d') :
    Aftermath base value d d' where
  log := by
    refine ⟨max n (b + 1), h.touched.log, fun torn b' hle hlt i hi => ?_⟩
    rw [h.outside torn _ fun j hj heq => by
      have := (wordAt_inj hi (by omega) heq).1
      omega]
    exact hfree.blank b' (by omega) hlt i hi
  serial torn := by
    rw [serialIn, serialIn, serialIn_filled hfree.block hfree.blank (h.outside torn)]
    rcases h.holds torn with hnone | hsome
    · rw [hnone]
      exact .inl rfl
    · rw [hsome]
      exact .inr ⟨rfl, h.touched.longer⟩

theorem serialIn_locked (hout : ∀ pos, (∀ i, 6 ≤ i → i < 16 → pos ≠ wordAt base b i) →
    c' pos = c pos) : newest c' base kBlockCount = newest c base kBlockCount := by
  refine newest_congr fun b' _ => holds_congr fun i hi => hout _ fun j hj hlt heq => ?_
  have := (wordAt_inj (by omega) hlt heq).2
  omega

theorem Ready.free {s : OtpStore} (h : Ready base n s d) (hroom : s.next ≠ kBlockCount) :
    Free base s.next n d := by
  have := h.next
  have := h.log.bound
  exact ⟨h.log, by omega, h.next, h.blank, h.quiet⟩

theorem powerOff_quiet (h : d.pending = none) (torn : Option Word) : d.powerOff torn = d.contents := by
  rw [Device.powerOff, h]

theorem aftermath_of_serial {d₁ : Device} (hlog : Orderly base d₁.log n)
    (hblank : ∀ b, n ≤ b → b < kBlockCount → Blank d₁.contents base b) (hquiet : d₁.pending = none)
    (hserial : serialIn d₁.contents base = serialIn d.contents base ∨
      (serialIn d₁.contents base = some value ∧ d.log.length < d₁.log.length))
    (hs : Still d₁ d') : Aftermath base value d d' := by
  have hoff : ∀ torn, d'.powerOff torn = d₁.contents := by
    intro torn
    rw [powerOff_quiet (hs.pending.trans hquiet), hs.contents]
  refine ⟨⟨n, by rw [hs.log]; exact hlog, fun torn => ?_⟩, fun torn => ?_⟩
  · rw [hoff]
    exact hblank
  · rw [hoff, hs.log]
    exact hserial

theorem Ready.aftermath {s : OtpStore} (h : Ready base n s d) (hs : Still d d') :
    Aftermath base value d d' :=
  aftermath_of_serial h.log (fun b hb => h.blank b (Nat.le_trans h.next hb)) h.quiet (.inl rfl) hs

theorem LockLeft.aftermath {s : OtpStore} {d₀ : Device} (h : Ready base n s d) (hb : b < s.next)
    (hserial : serialIn d.contents base = serialIn d₀.contents base ∨
      (serialIn d.contents base = some value ∧ d₀.log.length < d.log.length))
    (hl : LockLeft base b n d d') : Aftermath base value d₀ d' where
  log := by
    refine ⟨n, hl.log, fun torn b' hle hlt i hi => ?_⟩
    have := h.next
    rw [hl.outside torn _ fun j _ hj heq => by
      have := (wordAt_inj hi hj heq).1
      omega]
    exact h.blank b' (by omega) hlt i hi
  serial torn := by
    have hlonger := hl.longer
    rw [show serialIn (d'.powerOff torn) base = serialIn d.contents base by
      rw [serialIn, serialIn, serialIn_locked (hl.outside torn)]]
    exact hserial.imp_right fun ⟨hv, hlt⟩ => ⟨hv, by omega⟩

theorem Ready.locked {s s' : OtpStore} (h : Ready base n s d) (hb : b < s.next)
    (hl : Locked base b n d d') (hrun : Running base s'.context)
    (hattempted : ∀ b', s'.context.attempted b' = true → b' = b ∨ s.context.attempted b' = true)
    (hready : s'.ready = s.ready) (hnext : s'.next = s.next)
    (hblock : s'.serialBlock = s.serialBlock) (hdata : s'.serialData = s.serialData) :
    Ready base n s' d' where
  running := hrun
  ready := hready.trans h.ready
  quiet := hl.quiet
  log := hl.log
  next := by rw [hnext]; exact h.next
  blank b' hle hlt i hi := by
    rw [hnext] at hle
    rw [hl.outside _ fun j _ hj heq => by
      have := (wordAt_inj hi hj heq).1
      omega]
    exact h.blank b' hle hlt i hi
  attempted b' hb' := by
    rw [hnext]
    rcases hattempted b' hb' with rfl | hold
    · exact hb
    · exact h.attempted b' hold
  cached := by
    rw [hblock, hdata, h.cached, serialIn_locked hl.outside]

/-- A request that ends with its value cached: it reports ok, or an error of the lock phase. -/
def Settled (value : Bytes) (r : Status × OtpStore) : Prop :=
  r.2.serial = some value ∧ (r.1 = .ok ∨ r.2.diagnostics.phase = .lock)

theorem wp_storeLock {s : OtpStore} (h : Ready base n s d) (hb : b < s.next)
    (hvalue : s.serial = some value) (hleft : ∀ d'', LockLeft base b n d d'' → C d'') :
    Wp (s.lock otpDriver b) C (fun r d' => Ready base n r.2 d' ∧ Settled value r ∧
      d.log.length ≤ d'.log.length) d := by
  have hblock : b < kBlockCount := by
    have := h.next
    have := h.log.bound
    omega
  have hserial : ∀ s' : OtpStore, s'.ready = s.ready → s'.serialBlock = s.serialBlock →
      s'.serialData = s.serialData → s'.serial = some value := by
    intro s' hr hbl hda
    rw [← hvalue, Store.serial, Store.serial, hr, hbl, hda]
  unfold Store.lock
  refine (wp_lock h.running (Nat.lt_of_lt_of_le hb h.next) (.refl h.quiet h.log) hleft).bind ?_
  rintro r d₁ ⟨hrun, hattempted, hl⟩
  refine (wp_inspect hrun hblock fun d'' hs => hleft d'' (hl.still hs).left).bind ?_
  rintro r₂ d₂ ⟨hs₂, rfl⟩
  have hl₂ := hl.still hs₂
  refine .ite (fun _ => .pure ⟨h.locked hb hl₂ hrun hattempted rfl rfl rfl rfl,
    ⟨hserial _ rfl rfl rfl, .inr rfl⟩, hl₂.longer⟩) fun hok => ?_
  refine .ite (fun _ => .pure ⟨h.locked hb hl₂ hrun hattempted rfl rfl rfl rfl,
    ⟨hserial _ rfl rfl rfl, .inr rfl⟩, hl₂.longer⟩) fun _ => ?_
  exact .pure ⟨h.locked hb hl₂ hrun hattempted rfl rfl rfl rfl,
    ⟨hserial _ rfl rfl rfl, .inl rfl⟩, hl₂.longer⟩

theorem wp_append {s : OtpStore} (h : Ready base n s d) (hv : validSerial value = true)
    (hroom : s.next ≠ kBlockCount) :
    Wp (s.append otpDriver value) (Aftermath base value d) (fun r d' =>
      (∃ n', Ready base n' r.2 d') ∧ Settled value r) d := by
  have hfree := h.free hroom
  have hfresh : s.context.attempted s.next = false := by
    rw [← Bool.not_eq_true]
    exact fun ha => absurd (h.attempted _ ha) (Nat.lt_irrefl _)
  unfold Store.append
  refine (wp_program_free hv h.running hfresh hfree (fun d'' hs => h.aftermath hs) fun d'' hl =>
    hl.aftermath hfree).bind ?_
  rintro r d₁ ⟨rfl, hst⟩
  obtain ⟨hholds, hrecord⟩ := hst.written.committed hv hst.committed
  have hnewest : newest d₁.contents base kBlockCount = some (s.next, value) := by
    rw [serialIn_filled hfree.block hfree.blank hst.filling.outside, hholds]
  have hblank₁ : ∀ b, s.next + 1 ≤ b → b < kBlockCount → Blank d₁.contents base b :=
    fun b hle hlt => hst.filling.blank (by omega) (h.blank b (by omega) hlt)
  have hserial₁ : serialIn d₁.contents base = some value ∧ d.log.length < d₁.log.length :=
    ⟨by rw [serialIn, hnewest]; rfl, hst.touched.longer⟩
  have hrun₁ : Running base
      { s.context with attempted := Function.update s.context.attempted s.next true } :=
    ⟨h.running.base, h.running.initialized, h.running.timedOut, h.running.lockNext⟩
  dsimp only
  rw [if_neg (show ¬ (Status.ok ≠ .ok) by simp), if_pos (show true = true ∨ _ from .inl rfl)]
  unfold Store.verify
  refine (wp_inspect hrun₁ hfree.block fun d'' hs => aftermath_of_serial hst.touched.log
    (fun b hle => hblank₁ b (by omega)) hst.filling.quiet (.inr hserial₁) hs).bind ?_
  rintro r d₂ ⟨hs₂, rfl⟩
  obtain ⟨block, hblock⟩ : ∃ block, block = examine (Function.update s.context.attempted s.next true
      s.next) s.next (image d₁.contents base s.next) := ⟨_, rfl⟩
  obtain ⟨hrec, hstorage⟩ := hrecord (Function.update s.context.attempted s.next true s.next)
  have hkind : classify block = .valid := by
    by_contra hn
    rw [holds_eq (Function.update s.context.attempted s.next true s.next), ← hblock, if_neg hn] at hholds
    cases hholds
  rw [← hblock] at hrec hstorage
  have hpayload : block.record.payload = value := by
    rw [hrec, serialRecord_retyped hv, payload_retyped hv]
  dsimp only
  rw [← hblock, if_neg (by simp [hstorage]), if_neg (by simp [hkind, hrec])]
  -- the new value is cached; what follows is a lock of its block
  have hready : Ready base (max n (s.next + 1)) { s with
      context := { s.context with attempted := Function.update s.context.attempted s.next true },
      next := s.next + 1,
      kinds := Function.update (Function.update s.kinds s.next .invalid) s.next .valid,
      serialData := block.record, serialBlock := some s.next, locked := block.locked } d₂ := by
    refine ⟨hrun₁, h.ready, hs₂.pending.trans hst.filling.quiet, by rw [hs₂.log]; exact hst.touched.log,
      Nat.le_max_right _ _, by rw [hs₂.contents]; exact hblank₁, fun b' hb' => ?_, ?_⟩
    · by_cases hne : b' = s.next
      · rw [hne]
        exact Nat.lt_succ_self _
      · have hold : Function.update s.context.attempted s.next true b' = true := hb'
        rw [Function.update_of_ne hne] at hold
        exact Nat.lt_succ_of_lt (h.attempted b' hold)
    · rw [hs₂.contents, hnewest, ← hpayload]
      rfl
  have hserial₂ := hready.serial
  rw [hs₂.contents, hserial₁.1] at hserial₂
  refine (wp_storeLock hready (Nat.lt_succ_self _) hserial₂ fun d'' hl => ?_).conseq ?_
  · refine hl.aftermath hready (Nat.lt_succ_self _) (.inr ?_)
    rw [hs₂.contents, hs₂.log]
    exact hserial₁
  · rintro r d' ⟨hr, hsettled, -⟩
    exact ⟨⟨_, hr⟩, hsettled⟩

theorem wp_setSerial {s : OtpStore} (h : Ready base n s d) (value : Bytes) :
    Wp (s.setSerial otpDriver value) (Aftermath base value d) (fun r d' =>
      (∃ n', Ready base n' r.2 d') ∧
        (Settled value r ∨ (r.1 ≠ .ok ∧ r.2.serial = s.serial ∧ Still d d'))) d := by
  have hnext : ∀ block, s.serialBlock = some block → block < s.next := by
    intro block hblock
    by_contra hn
    have hnew := h.cached
    rw [hblock, newest_of_none (show s.next ≤ kBlockCount from Nat.le_trans h.next h.log.bound)
      fun b hle hlt => holds_blank (h.blank b hle hlt)] at hnew
    exact absurd (newest_lt hnew.symm) (by omega)
  unfold Store.setSerial
  rw [if_neg (by simp [h.ready])]
  refine .ite (fun _ => .pure ⟨⟨n, h⟩, .inr ⟨by simp, rfl, .refl d⟩⟩) fun hvalid => ?_
  have hv : validSerial value = true := by simpa using hvalid
  have hplace : Wp (if s.next = kBlockCount then pure (.full, s) else s.append otpDriver value)
      (Aftermath base value d) (fun r d' => (∃ n', Ready base n' r.2 d') ∧
        (Settled value r ∨ (r.1 ≠ .ok ∧ r.2.serial = s.serial ∧ Still d d'))) d := by
    refine .ite (fun _ => .pure ⟨⟨n, h⟩, .inr ⟨by simp, rfl, .refl d⟩⟩) fun hroom => ?_
    exact (wp_append h hv hroom).conseq fun r d' hr => ⟨hr.1, .inl hr.2⟩
  cases hblock : s.serialBlock with
  | none => exact hplace
  | some block =>
    dsimp only
    refine .ite (fun hsame => ?_) fun _ => hplace
    have hserial : s.serial = some value := by
      rw [Store.serial, h.ready, hblock, ← hsame]
      rfl
    refine .ite (fun _ => .pure ⟨⟨n, h⟩, .inl ⟨hserial, .inl rfl⟩⟩) fun _ => ?_
    refine (wp_storeLock h (hnext block hblock) hserial fun d'' hl =>
      hl.aftermath h (hnext block hblock) (.inl rfl)).conseq ?_
    rintro r d' ⟨hr, hsettled, -⟩
    exact ⟨⟨n, hr⟩, .inl hsettled⟩

/-! ## Histories -/

namespace Ledger

variable {l : Ledger} {serial : Option Bytes} {touched : Bool}

theorem Allows.attempt (h : l.Allows serial) : (l.attempt value touched).Allows serial := by
  unfold Ledger.attempt
  split
  · exact h.imp_right fun ⟨v, hv, heq⟩ => ⟨v, List.mem_cons_of_mem _ hv, heq⟩
  · exact h

theorem allows_attempt (h : touched = true) : (l.attempt value touched).Allows (some value) := by
  rw [Ledger.attempt, if_pos h]
  exact .inr ⟨value, List.mem_cons_self, rfl⟩

end Ledger

structure Serving (base : Nat) (s : OtpStore) (l : Ledger) (d : Device) : Prop where
  ready : ∃ n, Ready base n s d
  allowed : l.Allows (serialIn d.contents base)

theorem Serving.serial {s : OtpStore} {l : Ledger} (h : Serving base s l d) :
    s.serial = serialIn d.contents base := by
  obtain ⟨n, hn⟩ := h.ready
  exact hn.serial

theorem Serving.call {s s' : OtpStore} {l : Ledger} {status : Status} (h : Serving base s l d)
    (hrun : s.setSerial otpDriver value d = (some (status, s'), d')) (touched : Bool) :
    Serving base s' (l.record value status s' touched) d' ∧ (status = .ok → s'.serial = some value) := by
  obtain ⟨n, hn⟩ := h.ready
  obtain ⟨⟨n', hr⟩, hout⟩ := (wp_setSerial hn value).of_some hrun
  have hserial : s'.serial = serialIn d'.contents base := hr.serial
  rcases hout with ⟨hvalue, hstatus⟩ | ⟨hne, hsame, hstill⟩
  · refine ⟨⟨⟨n', hr⟩, ?_⟩, fun _ => hvalue⟩
    rw [Ledger.record, if_pos (hstatus.imp_right fun hp => ⟨hvalue, hp⟩), ← hserial, hvalue]
    exact .inl rfl
  · refine ⟨⟨⟨n', hr⟩, ?_⟩, fun hok => absurd hok hne⟩
    unfold Ledger.record
    split
    · next hset =>
      rw [← hserial, (hset.resolve_left hne).1]
      exact .inl rfl
    · rw [hstill.contents]
      exact h.allowed.attempt

theorem Serving.cut {s : OtpStore} {l : Ledger} (h : Serving base s l d)
    (hrun : s.setSerial otpDriver value d = (none, d')) (torn : Option Word) :
    Kept base { contents := d'.powerOff torn, log := d'.log,
                ledger := l.attempt value (d.log.length < d'.log.length) } := by
  obtain ⟨n, hn⟩ := h.ready
  have hafter := (wp_setSerial hn value).of_none hrun
  obtain ⟨n', hlog, hblank⟩ := hafter.log
  refine ⟨⟨n', hlog, hblank torn⟩, ?_⟩
  rcases hafter.serial torn with hold | ⟨hnew, hlt⟩
  · show (l.attempt value _).Allows (serialIn (d'.powerOff torn) base)
    rw [hold]
    exact h.allowed.attempt
  · show (l.attempt value _).Allows (serialIn (d'.powerOff torn) base)
    rw [hnew]
    exact Ledger.allows_attempt (decide_eq_true hlt)

theorem Serving.kept {s : OtpStore} {l : Ledger} (h : Serving base s l d) (torn : Option Word) :
    Kept base { contents := d.powerOff torn, log := d.log, ledger := l } := by
  obtain ⟨n, hn⟩ := h.ready
  rw [powerOff_quiet hn.quiet]
  exact ⟨⟨n, hn.log, fun b hb => hn.blank b (Nat.le_trans hn.next hb)⟩, h.allowed⟩

theorem serve_kept (calls : List Bytes) : ∀ {s : OtpStore} {l : Ledger} {d : Device},
    Serving base s l d → ∀ torn, Kept base
      { contents := (serve calls s l d).2.powerOff torn, log := (serve calls s l d).2.log,
        ledger := (serve calls s l d).1 } := by
  induction calls with
  | nil => exact fun h torn => h.kept torn
  | cons value rest ih =>
    intro s l d h torn
    rw [serve]
    rcases hrun : s.setSerial otpDriver value d with ⟨_ | ⟨status, s'⟩, d'⟩
    · exact h.cut hrun torn
    · exact ih (h.call hrun _).1 torn

theorem serving_init (hbase : Placed base) {s : Surviving} (hs : Kept base s) {events : List Event}
    {status : Status} {store : OtpStore}
    (hrun : (OtpStore.new base).init otpDriver (s.device events) = (some (status, store), d)) :
    status = .ok ∧ Serving base store s.ledger d ∧ d.contents = s.contents := by
  obtain ⟨hstill, hok, hready⟩ := (wp_init hbase hs events).of_some hrun
  have hcontents : d.contents = s.contents := hstill.contents
  exact ⟨hok, ⟨hready, by rw [hcontents]; exact hs.allowed⟩, hcontents⟩

theorem Kept.run (hbase : Placed base) {before : Surviving} (h : Kept base before) (s : Session) :
    Kept base (s.run base before) := by
  unfold Session.run
  rcases hrun : (OtpStore.new base).init otpDriver (before.device s.events) with
    ⟨_ | ⟨status, store⟩, d⟩
  · have hstill := (wp_init hbase h s.events).of_none hrun
    obtain ⟨n, hlog, hblank⟩ := h.log
    show Kept base { contents := d.powerOff s.torn, log := d.log, ledger := before.ledger }
    rw [powerOff_quiet hstill.pending, hstill.contents, hstill.log]
    exact ⟨⟨n, hlog, hblank⟩, h.allowed⟩
  · exact serve_kept s.calls (serving_init hbase h hrun).2.1 s.torn

theorem kept_virgin : Kept base { contents := virgin } where
  log := ⟨0, orderly_nil, fun b _ _ i _ => rfl⟩
  allowed := by
    refine .inl ?_
    show (newest virgin base kBlockCount).map Prod.snd = none
    rw [newest_of_none (Nat.zero_le kBlockCount) fun b _ _ => holds_blank fun i _ => rfl]
    rfl

theorem kept_history (hbase : Placed base) (sessions : List Session) :
    Kept base (history base sessions) := by
  have hrun : ∀ (sessions : List Session) (s : Surviving), Kept base s →
      Kept base (sessions.foldl (fun before s => s.run base before) s) := by
    intro sessions
    induction sessions with
    | nil => exact fun s h => h
    | cons session rest ih => exact fun s h => ih _ (h.run hbase session)
  exact hrun sessions _ kept_virgin

theorem Live.serving (hbase : Placed base) {s : OtpStore} {l : Ledger} (h : Live base s l d) :
    Serving base s l d := by
  induction h with
  | init hrun => exact (serving_init hbase (kept_history hbase _) hrun).2.1
  | call _ hrun ih => exact (ih.call hrun _).1

/-! ## Power-cut atomicity -/

theorem costs_scan (m : Nat) : ∀ (i : Nat) (s : OtpStore) (d : Device),
    Costs eventMeter (16 * m) (Store.scan otpDriver m i s) d := by
  induction m with
  | zero => exact fun i s d => .pure
  | succ m ih =>
    intro i s d
    rw [Store.scan, Nat.mul_succ, Nat.add_comm]
    refine (costs_inspect s.context i d).bind fun r d' => ?_
    exact .ite (fun _ => .pure) fun _ => ih (i + 1) _ d'

theorem costs_otpInit (f : FlashOtp) (d : Device) : Costs eventMeter 0 (otpDriver.init f) d := by
  show Costs eventMeter 0 (FlashOtp.init f : Crash Device (Status × FlashOtp)) d
  unfold FlashOtp.init
  exact .ite (fun _ => .pure) fun _ => .ite (fun _ => .pure) fun _ => .pure

theorem init_returns (hbase : Placed base) {s : Surviving} (hs : Kept base s) {events : List Event}
    (hevents : 512 ≤ events.length) :
    ∃ store d, (OtpStore.new base).init otpDriver (s.device events) = (some (.ok, store), d) ∧
      store.serial = serialIn s.contents base := by
  have hcosts : Costs eventMeter 512 ((OtpStore.new base).init otpDriver) (s.device events) := by
    unfold Store.init
    refine .ite (fun _ => .pure) fun _ => .ite (fun _ => .pure) fun _ => ?_
    refine .bind (n := 0) (k := 512) ?_ fun r d => ?_
    · exact costs_otpInit _ _
    · exact .ite (fun _ => .pure) fun _ => costs_scan kBlockCount 0 _ d
  have hlife : ((512 : Nat) : Int) ≤ eventMeter.life (s.device events) := Int.ofNat_le.2 hevents
  obtain ⟨⟨status, store⟩, d, hrun⟩ := hcosts.returns hlife
  obtain ⟨rfl, hserving, hcontents⟩ := serving_init hbase hs hrun
  exact ⟨store, d, hrun, by rw [hserving.serial, hcontents]⟩

/-- **Power cuts do not corrupt the OTP store.** On a region that starts erased, over every history of
sessions with power lost anywhere: `init` returns ok and finds a serial number the requests allow, and
so does every later read of a session; a value reported as set is found by a fresh store; and the
commands to the flash are in order. -/
theorem otp_power_cuts (hbase : Placed base) :
    (∀ sessions events, 512 ≤ events.length → ∃ store d,
      (OtpStore.new base).init otpDriver ((history base sessions).device events) =
        (some (.ok, store), d) ∧
      (history base sessions).ledger.Allows store.serial) ∧
    (∀ store l d, Live base store l d → l.Allows store.serial) ∧
    (∀ store l d value store' d', Live base store l d →
      store.setSerial otpDriver value d = (some (.ok, store'), d') →
      store'.serial = some value ∧ ∀ events, 512 ≤ events.length → ∃ fresh d'',
        (OtpStore.new base).init otpDriver { d' with pending := none, clock := 0, events := events } =
          (some (.ok, fresh), d'') ∧ fresh.serial = some value) ∧
    ∀ sessions, Tidy base (history base sessions).log := by
  refine ⟨fun sessions events hevents => ?_, fun store l d h => ?_, ?_, fun sessions => ?_⟩
  · obtain ⟨store, d, hrun, hserial⟩ := init_returns hbase (kept_history hbase sessions) hevents
    exact ⟨store, d, hrun, hserial ▸ (kept_history hbase sessions).allowed⟩
  · rw [(h.serving hbase).serial]
    exact (h.serving hbase).allowed
  · intro store l d value store' d' hlive hrun
    obtain ⟨hserving, hset⟩ := (hlive.serving hbase).call hrun false
    have hvalue := hset rfl
    refine ⟨hvalue, fun events hevents => ?_⟩
    obtain ⟨n, hready⟩ := hserving.ready
    have hkept := hserving.kept none
    rw [powerOff_quiet hready.quiet] at hkept
    obtain ⟨fresh, d'', hinit, hserial⟩ := init_returns hbase hkept hevents
    exact ⟨fresh, d'', hinit, by rw [hserial, ← hvalue, hserving.serial]⟩
  · obtain ⟨n, hlog, -⟩ := (kept_history hbase sessions).log
    exact hlog.tidy

theorem otp_power_cuts_request : ∃ store d,
    (OtpStore.new 8192).init otpDriver
      ((history 8192 [⟨List.replicate 530 {}, [[65, 49]], none⟩]).device (List.replicate 512 {})) =
        (some (.ok, store), d) ∧
    (history 8192 [⟨List.replicate 530 {}, [[65, 49]], none⟩]).ledger.Allows store.serial :=
  (otp_power_cuts ⟨by decide, by decide⟩).1 _ _ (Nat.le_of_eq List.length_replicate.symm)

end DaveOs.Otp
