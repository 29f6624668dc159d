import DaveOs.Platform.SpiBus

/-!
# The STM32 I2C driver

`platform/stm32/bus/driver.h`, class `I2cBus`: an action is one addressed phase, cut into chunks of up to
255 bytes that the peripheral counts down. All but the last ask for a reload; the last one ends with a STOP
if it is that of the last action.
-/

namespace DaveOs.Platform

variable {total stop : Nat} {last : Bool} {cs : List Cr2}

open Hal

/-! ## The registers -/

/-- What the driver reads of `ISR`. -/
structure I2cFlags where
  nackf : Bool := false
  arlo : Bool := false
  berr : Bool := false
  ovr : Bool := false
  txis : Bool := false
  rxne : Bool := false
  tcr : Bool := false
  stopf : Bool := false
  tc : Bool := false

structure Cr2 where
  address : Nat
  read : Bool
  nbytes : Nat
  reload : Bool
  autoend : Bool
  start : Bool
deriving DecidableEq

/-- What passes between the driver and the peripheral. -/
inductive I2cEvent where
  | program (cr2 : Cr2)
  | transmit (byte : UInt8)
  | receive (byte : UInt8)
deriving DecidableEq

/-- What the peripheral answers during a poll: its status, by the log, and what is in `RXDR`. -/
structure I2cAnswers where
  isr : List I2cEvent → I2cFlags := fun _ => {}
  rxdr : UInt8 := 0

/-! ## The driver -/

structure I2cBus where
  action : I2c.Action := { operation := .write }
  offset : Nat := 0
  total : Nat := 0
  chunkEnd : Nat := 0
  address : Nat := 0
  last : Bool := false
  active : Bool := false
  memory : Memory := fun _ => 0
  log : List I2cEvent := []

namespace I2cBus

def observe (e : I2cEvent) (s : I2cBus) : I2cBus := { s with log := e :: s.log }

def chunk (start : Bool) (s : I2cBus) : I2cBus :=
  let count := min (s.total - s.offset) 255
  let chunkEnd := s.offset + count
  { s with chunkEnd }.observe (.program {
    address := s.address
    read := s.action.reads
    nbytes := count
    reload := chunkEnd < s.total
    autoend := ¬ chunkEnd < s.total ∧ s.last
    start })

def length (action : I2c.Action) : Nat := max action.tx.size action.rx.size

def start (action : I2c.Action) (last : Bool) (s : I2cBus) : I2cBus :=
  { s with action, offset := 0, total := length action, last, active := true }.chunk true

/-- The next byte is written, if the peripheral asks for one. -/
def sendReady (flags : I2cFlags) (s : I2cBus) : Option I2cBus :=
  if flags.txis ∧ s.offset < s.chunkEnd ∧ s.action.tx.size ≠ 0 then
    if s.offset < s.action.tx.size then
      some ({ s with offset := s.offset + 1 }.observe (.transmit (s.memory (s.action.tx.data + s.offset))))
    else none
  else some s

/-- The next byte is stored, if the peripheral has one. -/
def receiveReady (flags : I2cFlags) (byte : UInt8) (s : I2cBus) : Option I2cBus :=
  if flags.rxne ∧ s.offset < s.chunkEnd ∧ s.action.rx.size ≠ 0 then
    if s.offset < s.action.rx.size then
      some ({ s with
        memory := Span.store ⟨s.action.rx.data + s.offset, 1⟩ [byte] s.memory
        offset := s.offset + 1 }.observe (.receive byte))
    else none
  else some s

/-- The peripheral is through with a chunk that is not the last. -/
def reload (flags : I2cFlags) (s : I2cBus) : I2cBus :=
  if flags.tcr ∧ s.offset = s.chunkEnd then s.chunk false else s

def conclude (flags : I2cFlags) (s : I2cBus) : Option Hal.Status × I2cBus :=
  if flags.stopf ∨ flags.tc ∧ ¬ s.last then
    (some (if s.offset = s.total then .ok else .hardwareError), { s with active := false })
  else (none, s)

def poll (a : I2cAnswers) (s : I2cBus) : Option (Option Hal.Status × I2cBus) :=
  if !s.active then some (none, s)
  else
    let flags := a.isr s.log
    if flags.nackf ∨ flags.arlo ∨ flags.berr ∨ flags.ovr then
      some (some (if flags.arlo then .arbitrationLost else if flags.nackf then .nack else .hardwareError),
        { s with active := false })
    else do
      let s ← s.sendReady flags
      let s ← s.receiveReady flags a.rxdr
      return (s.reload flags).conclude flags

def polls : List I2cAnswers → I2cBus → Option (Option Hal.Status × I2cBus)
  | [], s => some (none, s)
  | a :: rest, s => do
    let (result, s) ← s.poll a
    match result with
    | some status => some (some status, s)
    | none => polls rest s

def run (action : I2c.Action) (last : Bool) (answers : List I2cAnswers) (s : I2cBus) :
    Option (Option Hal.Status × I2cBus) :=
  (s.start action last).polls answers

end I2cBus

/-! ## What the wire sees -/

/-- The chunks programmed, newest first. -/
def programs : List I2cEvent → List Cr2
  | [] => []
  | .program cr2 :: log => cr2 :: programs log
  | _ :: log => programs log

def written : List I2cEvent → List UInt8
  | [] => []
  | .transmit byte :: log => written log ++ [byte]
  | _ :: log => written log

def taken : List I2cEvent → List UInt8
  | [] => []
  | .receive byte :: log => taken log ++ [byte]
  | _ :: log => taken log

/-- A peripheral without errors, which asks to be reloaded only where it was told that it would be. -/
def I2cAnswers.Consistent (a : I2cAnswers) : Prop :=
  ∀ log, (a.isr log).nackf = false ∧ (a.isr log).arlo = false ∧ (a.isr log).berr = false ∧
    (a.isr log).ovr = false ∧
    ((a.isr log).tcr = true → (programs log).head?.map Cr2.reload = some true)

/-- The chunks, newest first, that an action of `total` bytes is cut into, up to `stop`. -/
inductive Chunks (total : Nat) (last : Bool) : List Cr2 → (stop : Nat) → Prop where
  | first {c : Cr2} (hn : c.nbytes = min total 255) (hr : c.reload = decide (c.nbytes < total))
      (ha : c.autoend = (!c.reload && last)) (hs : c.start = true) : Chunks total last [c] c.nbytes
  | next {c : Cr2} {cs : List Cr2} {stop : Nat} (h : Chunks total last cs stop) (hlt : stop < total)
      (hn : c.nbytes = min (total - stop) 255) (hr : c.reload = decide (stop + c.nbytes < total))
      (ha : c.autoend = (!c.reload && last)) (hs : c.start = false) :
      Chunks total last (c :: cs) (stop + c.nbytes)

/-- What the chunks of an action are like. -/
structure Chunked (total : Nat) (last : Bool) (cs : List Cr2) (stop : Nat) : Prop where
  le : stop ≤ total
  sum : (cs.map Cr2.nbytes).sum = stop
  small : ∀ c ∈ cs, c.nbytes ≤ 255
  /-- The newest one is the final one or asks for a reload, as do all before. -/
  reload : cs.map Cr2.reload = decide (stop < total) :: List.replicate (cs.length - 1) true
  autoend : cs.map Cr2.autoend = (!decide (stop < total) && last) :: List.replicate (cs.length - 1) false
  start : cs.map Cr2.start = List.replicate (cs.length - 1) false ++ [true]

theorem Chunks.chunked (h : Chunks total last cs stop) : Chunked total last cs stop := by
  induction h with
  | @first c hn hr ha hs =>
    refine ⟨by omega, by simp, by simp; omega, by simp [hr], by simp [ha, hr], by simp [hs]⟩
  | @next c cs stop h hlt hn hr ha hs ih =>
    obtain ⟨hle, hsum, hsmall, hreload, hautoend, hstart⟩ := ih
    have hne : cs.length = cs.length - 1 + 1 := by
      cases cs with
      | nil => cases h
      | cons => rfl
    refine ⟨by omega, ?_, ?_, ?_, ?_, ?_⟩
    · simp [hsum, Nat.add_comm]
    · intro d hd
      rcases List.mem_cons.1 hd with rfl | hd
      · omega
      · exact hsmall d hd
    · rw [List.map_cons, hr, hreload, decide_eq_true hlt, List.length_cons, Nat.add_sub_cancel, hne]
      simp [List.replicate_succ]
    · rw [List.map_cons, ha, hr, hautoend, decide_eq_true hlt, List.length_cons, Nat.add_sub_cancel, hne]
      simp [List.replicate_succ]
    · rw [List.map_cons, hs, hstart, List.length_cons, Nat.add_sub_cancel, hne]
      simp [List.replicate_succ]

theorem Chunks.head (h : Chunks total last cs stop) :
    cs.head?.map Cr2.reload = some (decide (stop < total)) := by
  cases h with
  | first hn hr | next _ _ hn hr => exact congrArg some hr

namespace I2cBus

variable {answers : List I2cAnswers}

/-! ## The invariant -/

structure Moving (a : I2c.Action) (last : Bool) (m : Memory) (s : I2cBus) : Prop where
  owns : s.action = a
  total : s.total = length a
  ends : s.last = last
  active : s.active = true
  offset_le : s.offset ≤ s.chunkEnd
  chunks : Chunks (length a) last (programs s.log) s.chunkEnd
  sent : written s.log = (a.tx.bytes m).take s.offset
  received : a.rx.size ≠ 0 → (taken s.log).length = s.offset
  memory : s.memory = a.rx.store (taken s.log) m

structure Done (a : I2c.Action) (last : Bool) (m : Memory) (s : I2cBus) : Prop where
  chunks : Chunked (length a) last (programs s.log) (length a)
  sent : written s.log = a.tx.bytes m
  received : a.rx.size ≠ 0 → (taken s.log).length = a.rx.size
  memory : s.memory = a.rx.store (taken s.log) m

variable {action : I2c.Action} {last : Bool} {m : Memory} {s : I2cBus}

theorem Moving.chunkEnd_le (h : Moving action last m s) : s.chunkEnd ≤ length action := h.chunks.chunked.le

/-- The bytes of a chunk leave the chunk as it is. -/
structure SameChunk (s t : I2cBus) : Prop where
  programs : programs t.log = programs s.log
  chunkEnd : t.chunkEnd = s.chunkEnd
  le : s.offset ≤ t.offset

theorem store_empty {span : Span} (h0 : span.size = 0) (l : List UInt8) : span.store l m = m := by
  funext address
  exact if_neg (by omega)

theorem sendReady_spec (flags : I2cFlags) (hv : action.tx.size = 0 ∨ action.rx.size = 0)
    (h : Moving action last m s) : ∃ t, s.sendReady flags = some t ∧ Moving action last m t ∧
      SameChunk s t ∧ (flags.txis = true → s.offset < s.chunkEnd → action.tx.size ≠ 0 → s.offset < t.offset) := by
  obtain rfl := h.owns
  have hend := h.chunkEnd_le
  unfold sendReady
  split
  · rename_i hsend
    obtain ⟨-, hlt, h0⟩ := hsend
    have hr := hv.resolve_left h0
    have hsize : s.offset < s.action.tx.size := by
      unfold length at hend
      omega
    have hmem : s.memory = m := h.memory.trans (store_empty hr _)
    rw [if_pos hsize]
    refine ⟨_, rfl, { h with offset_le := hlt, sent := ?_, received := fun h => absurd hr h },
      ⟨rfl, rfl, Nat.le_succ _⟩, fun _ _ _ => Nat.lt_succ_self _⟩
    show written s.log ++ [_] = (s.action.tx.bytes m).take (s.offset + 1)
    rw [List.take_add_one, h.sent, hmem]
    simp [Span.bytes, hsize]
  · rename_i hno
    exact ⟨s, rfl, h, ⟨rfl, rfl, Nat.le_refl _⟩, fun h₁ h₂ h₃ => absurd ⟨h₁, h₂, h₃⟩ hno⟩

theorem receiveReady_spec (flags : I2cFlags) (byte : UInt8) (hv : action.tx.size = 0 ∨ action.rx.size = 0)
    (h : Moving action last m s) : ∃ t, s.receiveReady flags byte = some t ∧ Moving action last m t ∧
      SameChunk s t ∧ (flags.rxne = true → s.offset < s.chunkEnd → action.rx.size ≠ 0 → s.offset < t.offset) := by
  obtain rfl := h.owns
  have hend := h.chunkEnd_le
  unfold receiveReady
  split
  · rename_i hreceive
    obtain ⟨-, hlt, h0⟩ := hreceive
    have ht := hv.resolve_right h0
    have hsize : s.offset < s.action.rx.size := by
      unfold length at hend
      omega
    have hlen := h.received h0
    rw [if_pos hsize]
    refine ⟨_, rfl, { h with offset_le := hlt, sent := ?_, received := fun _ => ?_, memory := ?_ },
      ⟨rfl, rfl, Nat.le_succ _⟩, fun _ _ _ => Nat.lt_succ_self _⟩
    · show written s.log = (s.action.tx.bytes m).take (s.offset + 1)
      rw [h.sent]
      simp [Span.bytes, ht]
    · show (taken s.log ++ [byte]).length = s.offset + 1
      rw [List.length_append, hlen]
      rfl
    · show Span.store ⟨_, 1⟩ [byte] s.memory = s.action.rx.store (taken s.log ++ [byte]) m
      rw [h.memory, ← hlen]
      exact SpiBus.store_append rfl (by rwa [hlen])
  · rename_i hno
    exact ⟨s, rfl, h, ⟨rfl, rfl, Nat.le_refl _⟩, fun h₁ h₂ h₃ => absurd ⟨h₁, h₂, h₃⟩ hno⟩

theorem reload_spec {flags : I2cFlags} (h : Moving action last m s)
    (htcr : flags.tcr = true → (programs s.log).head?.map Cr2.reload = some true) :
    Moving action last m (s.reload flags) := by
  obtain rfl := h.owns
  unfold reload
  split
  · rename_i hr
    have hlt : s.chunkEnd < length s.action := by
      have := h.chunks.head.symm.trans (htcr hr.1)
      exact of_decide_eq_true (Option.some.inj this)
    refine { h with
      offset_le := Nat.le_add_right _ _
      chunks := ?_ }
    have htotal := h.total
    show Chunks (length s.action) last (_ :: programs s.log) (s.offset + min (s.total - s.offset) 255)
    rw [hr.2]
    refine .next h.chunks hlt ?_ ?_ ?_ rfl
    · dsimp only
      rw [htotal]
    · dsimp only
      rw [htotal]
    · dsimp only
      rw [h.ends, Bool.decide_and, decide_not, Bool.decide_eq_true]
  · exact h

theorem conclude_spec (flags : I2cFlags) (hv : action.tx.size = 0 ∨ action.rx.size = 0) (h : Moving action last m s) :
    (∃ t, s.conclude flags = (none, t) ∧ Moving action last m t) ∨
    ∃ status t, s.conclude flags = (some status, t) ∧
      Chunked (length action) last (programs t.log) t.chunkEnd ∧ (status = .ok → Done action last m t) := by
  unfold conclude
  split
  · refine .inr ⟨_, _, rfl, h.chunks.chunked, fun hok => ?_⟩
    have hoffset : s.offset = s.total := by
      by_contra hne
      rw [if_neg hne] at hok
      cases hok
    have hle := h.offset_le
    have hend := h.chunkEnd_le
    have htotal := h.total
    have hall : s.chunkEnd = length action := by omega
    refine ⟨hall ▸ h.chunks.chunked, ?_, fun h0 => ?_, h.memory⟩
    · show written s.log = _
      rw [h.sent, hoffset, htotal]
      refine List.take_of_length_le ?_
      simp [Span.bytes, length, Nat.le_max_left]
    · show (taken s.log).length = _
      rw [h.received h0, hoffset, htotal, length, hv.resolve_right h0, Nat.zero_max]
  · exact .inl ⟨s, rfl, h⟩

/-! ## Polls -/

inductive Polled (action : I2c.Action) (last : Bool) (m : Memory) : Option Hal.Status × I2cBus → Prop where
  | going {s : I2cBus} (h : Moving action last m s) : Polled action last m (none, s)
  | ended {s : I2cBus} {status : Hal.Status}
      (h : Chunked (length action) last (programs s.log) s.chunkEnd)
      (hd : status = .ok → Done action last m s) : Polled action last m (some status, s)

theorem poll_spec {a : I2cAnswers} (hv : action.tx.size = 0 ∨ action.rx.size = 0) (ha : a.Consistent)
    (h : Moving action last m s) : ∃ r, s.poll a = some r ∧ Polled action last m r := by
  obtain ⟨hnackf, harlo, hberr, hovr, htcr⟩ := ha s.log
  have hfine : ¬ ((a.isr s.log).nackf = true ∨ (a.isr s.log).arlo = true ∨ (a.isr s.log).berr = true ∨
      (a.isr s.log).ovr = true) := by
    simp [hnackf, harlo, hberr, hovr]
  obtain ⟨t, ht, hmt, hst, -⟩ := sendReady_spec (a.isr s.log) hv h
  obtain ⟨u, hu, hmu, hsu, -⟩ := receiveReady_spec (a.isr s.log) a.rxdr hv hmt
  have hmr := reload_spec hmu fun h => by rw [hsu.programs, hst.programs]; exact htcr h
  unfold poll
  rw [h.active, if_neg nofun]
  dsimp only
  rw [if_neg hfine, ht, Option.bind_eq_bind, Option.bind_some, hu]
  refine ⟨_, rfl, ?_⟩
  rcases conclude_spec (a.isr s.log) hv hmr with ⟨t, hc, hmoving⟩ | ⟨status, t, hc, hchunked, hdone⟩
  · rw [hc]
    exact .going hmoving
  · rw [hc]
    exact .ended hchunked hdone

theorem polls_spec (hv : action.tx.size = 0 ∨ action.rx.size = 0) (ha : ∀ a ∈ answers, a.Consistent)
    (h : Moving action last m s) : ∃ r, s.polls answers = some r ∧ Polled action last m r := by
  induction answers generalizing s with
  | nil => exact ⟨_, rfl, .going h⟩
  | cons a answers ih =>
    obtain ⟨⟨result, t⟩, hpoll, hpolled⟩ := poll_spec hv (ha a (List.mem_cons_self ..)) h
    unfold polls
    rw [hpoll, Option.bind_eq_bind, Option.bind_some]
    cases hpolled with
    | going ht => exact ih (fun a ha' => ha a (List.mem_cons_of_mem _ ha')) ht
    | ended hc hd => exact ⟨_, rfl, .ended hc hd⟩

theorem start_spec (hlog : s.log = []) (hm : s.memory = m) :
    Moving action last m (s.start action last) := by
  refine { owns := rfl, total := rfl, ends := rfl, active := rfl, offset_le := Nat.zero_le _, chunks := ?_,
           sent := ?_, received := fun _ => ?_, memory := ?_ }
  · show Chunks (length action) last (_ :: programs s.log) _
    rw [hlog]
    have hfirst : Chunks (length action) last [⟨s.address, action.reads, min (length action) 255,
        decide (min (length action) 255 < length action),
        decide (¬ min (length action) 255 < length action ∧ last = true), true⟩] (min (length action) 255) :=
      .first rfl rfl (by rw [Bool.decide_and, decide_not, Bool.decide_eq_true]) rfl
    simpa [start, chunk, observe, programs] using hfirst
  · show written s.log = _
    rw [hlog]
    rfl
  · show (taken s.log).length = _
    rw [hlog]
    rfl
  · show s.memory = action.rx.store (taken s.log) m
    rw [hlog, hm]
    funext address
    simp [taken, Span.store]

theorem run_spec (hv : action.tx.size = 0 ∨ action.rx.size = 0) (ha : ∀ a ∈ answers, a.Consistent)
    (hlog : s.log = []) : ∃ r, s.run action last answers = some r ∧ Polled action last s.memory r :=
  polls_spec hv ha (start_spec hlog rfl)

/-! ## Progress -/

/-- A peripheral that is ready for one more byte, for a reload or for the end. -/
def eager (s : I2cBus) : I2cAnswers where
  isr log :=
    { txis := true
      rxne := true
      tcr := (programs log).head?.map Cr2.reload = some true
      stopf := s.total ≤ s.offset + 1 ∧ s.chunkEnd = s.total }

theorem eager_consistent (s : I2cBus) : s.eager.Consistent :=
  fun _ => ⟨rfl, rfl, rfl, rfl, fun h => of_decide_eq_true h⟩

def left (s : I2cBus) : Nat := 2 * s.total - s.offset - s.chunkEnd

theorem reload_counters (flags : I2cFlags) (s : I2cBus) : (s.reload flags).offset = s.offset ∧
    (s.offset ≤ s.chunkEnd → s.chunkEnd ≤ (s.reload flags).chunkEnd) ∧
    (flags.tcr = true → s.offset = s.chunkEnd → s.chunkEnd < s.total →
      s.chunkEnd < (s.reload flags).chunkEnd) := by
  unfold reload
  split
  · rename_i hr
    have hend : (s.chunk false).chunkEnd = s.offset + min (s.total - s.offset) 255 := rfl
    exact ⟨rfl, by omega, by omega⟩
  · rename_i hr
    exact ⟨rfl, fun _ => Nat.le_refl _, fun h₁ h₂ _ => absurd ⟨h₁, h₂⟩ hr⟩

theorem poll_eager (hv : action.tx.size = 0 ∨ action.rx.size = 0) (h : Moving action last m s) :
    ∃ r, s.poll s.eager = some r ∧
      (r.1 = some .ok ∨ Moving action last m r.2 ∧ r.1 = none ∧ r.2.left < s.left) := by
  obtain ⟨-, -, -, -, htcr⟩ := eager_consistent s s.log
  obtain ⟨t, ht, hmt, hst, hsend⟩ := sendReady_spec (s.eager.isr s.log) hv h
  obtain ⟨u, hu, hmu, hsu, hreceive⟩ := receiveReady_spec (s.eager.isr s.log) s.eager.rxdr hv hmt
  have hmr := reload_spec hmu fun h => by rw [hsu.programs, hst.programs]; exact htcr h
  obtain ⟨hoffset, hend, hnew⟩ := reload_counters (s.eager.isr s.log) u
  -- A byte moves if the chunk has one left.
  have hmoves : s.offset < s.chunkEnd → s.offset < u.offset := by
    intro hlt
    have hchunk := h.chunkEnd_le
    have hle := hsu.le
    by_cases h0 : action.tx.size = 0
    · rcases Nat.lt_or_ge s.offset t.offset with hlt' | hge
      · exact Nat.lt_of_lt_of_le hlt' hle
      · have hr : action.rx.size ≠ 0 := by
          unfold length at hchunk
          omega
        have hend' := hst.chunkEnd
        exact Nat.lt_of_le_of_lt hst.le (hreceive rfl (by omega) hr)
    · exact Nat.lt_of_lt_of_le (hsend rfl hlt h0) hle
  have hpoll : s.poll s.eager = some ((u.reload (s.eager.isr s.log)).conclude (s.eager.isr s.log)) := by
    unfold poll
    rw [h.active, if_neg nofun]
    dsimp only
    rw [if_neg (by simp [eager]), ht, Option.bind_eq_bind, Option.bind_some, hu]
    rfl
  refine ⟨_, hpoll, ?_⟩
  have h₁ := h.total
  have h₂ := h.offset_le
  have h₃ := h.chunkEnd_le
  have h₄ := hmr.total
  have h₅ := hmr.offset_le
  have h₆ := hmr.chunkEnd_le
  have h₇ := hst.le
  have h₈ := hsu.le
  have h₉ := hst.chunkEnd
  have h₁₀ := hsu.chunkEnd
  have h₁₁ := hmu.offset_le
  unfold conclude
  by_cases hdone : s.total ≤ s.offset + 1 ∧ s.chunkEnd = s.total
  · rw [if_pos (.inl (decide_eq_true hdone))]
    exact .inl (congrArg some (if_pos (by omega)))
  · rw [if_neg (by simp [eager, hdone])]
    refine .inr ⟨hmr, rfl, ?_⟩
    unfold left
    dsimp only
    by_cases hlt : s.offset < s.chunkEnd
    · have := hmoves hlt
      omega
    · -- The chunk is through, and not the last one.
      have hmore : s.chunkEnd < length action := by omega
      have hreload : (s.eager.isr s.log).tcr = true := by
        refine decide_eq_true ?_
        rw [h.chunks.head, decide_eq_true hmore]
      have := hnew hreload (by omega) (by rw [hmu.total]; omega)
      omega

theorem polls_finish (hv : action.tx.size = 0 ∨ action.rx.size = 0) (h : Moving action last m s) :
    ∃ answers t, (∀ a ∈ answers, a.Consistent) ∧ s.polls answers = some (some .ok, t) := by
  induction hleft : s.left using Nat.strongRecOn generalizing s with
  | ind n ih =>
    obtain ⟨⟨result, t⟩, hpoll, hnext⟩ := poll_eager hv h
    rcases hnext with hok | ⟨ht, hnone, hlt⟩
    · dsimp only at hok
      subst hok
      refine ⟨[s.eager], t, fun a ha => List.mem_singleton.1 ha ▸ eager_consistent s, ?_⟩
      unfold polls
      rw [hpoll]
      rfl
    · dsimp only at hnone
      subst hnone
      obtain ⟨answers, u, ha, hpolls⟩ := ih _ (hleft ▸ hlt) ht rfl
      refine ⟨s.eager :: answers, u, fun a ha' => ?_, ?_⟩
      · rcases List.mem_cons.1 ha' with rfl | ha'
        · exact eager_consistent s
        · exact ha a ha'
      · unfold polls
        rw [hpoll]
        exact hpolls

theorem one_buffer {x : I2c.Action} {count : Nat} {sums out : Nat × Nat}
    (h : x.measure count sums = .ok out) : x.tx.size = 0 ∨ x.rx.size = 0 := by
  unfold I2c.Action.measure at h
  split at h
  · split at h
    · rename_i hs
      exact .inl hs.2.1
    · cases h
  split at h
  · cases h
  · rename_i hs
    rw [not_or, not_or] at hs
    obtain ⟨hone, hreads, hwrites⟩ := hs
    cases hr : x.reads with
    | true =>
      rw [hr] at hreads
      exact .inl (not_not.1 fun h0 => hreads ⟨rfl, .inr h0⟩)
    | false =>
      have hw : x.writes = true := by
        rw [hr] at hone
        simpa using hone
      exact .inr (not_not.1 fun h0 => hwrites ⟨hw, .inr h0⟩)

end I2cBus

/-! ## Both drivers -/

/-- Both drivers move the bytes of an action that passed the checks of the controller, and no others. -/
theorem bytes_moved_once :
    (∀ (capacity : Nat) (x : Spi.Action) (count : Nat) (sums out : Nat × Nat) (s : SpiBus),
      capacity ≤ 65535 → x.measure count sums = .ok out → x.operation ≠ .checkResponse →
      x.operation ≠ .pause →
      (∀ (answer : Hal.Status) (answers : List SpiAnswers), (∀ a ∈ answers, a.Consistent) →
        ∃ r, { s with log := [] }.run capacity answer x.transferAction answers = some r ∧
          SpiBus.Polled x.transferAction s.memory (answer = .ok ∧ ∀ a ∈ answers, a.Fine) r) ∧
      ∃ answers t, (∀ a ∈ answers, a.Consistent ∧ a.Fine) ∧
        { s with log := [] }.run capacity .ok x.transferAction answers = some (some .ok, t)) ∧
    (∀ (x : I2c.Action) (last : Bool) (count : Nat) (sums out : Nat × Nat) (s : I2cBus),
      x.measure count sums = .ok out →
      (∀ answers : List I2cAnswers, (∀ a ∈ answers, a.Consistent) →
        ∃ r, { s with log := [] }.run x last answers = some r ∧ I2cBus.Polled x last s.memory r) ∧
      ∃ answers t, (∀ a ∈ answers, a.Consistent) ∧
        { s with log := [] }.run x last answers = some (some .ok, t)) := by
  refine ⟨fun capacity x count sums out s hcap hx hc hp => ?_, fun x last count sums out s hx => ?_⟩
  · have hv := SpiBus.valid_of_measure hx hc hp
    exact ⟨fun answer answers ha => SpiBus.run_spec answer hv hcap ha rfl rfl, SpiBus.run_finish hv hcap rfl⟩
  · have hv := I2cBus.one_buffer hx
    exact ⟨fun answers ha => I2cBus.run_spec hv ha rfl, I2cBus.polls_finish hv (I2cBus.start_spec rfl rfl)⟩

/-- Forty bytes with an engine that takes sixteen, and a write of three hundred. -/
theorem bytes_moved_once_forty :
    (∃ answers t, ({} : SpiBus).run 16 .ok { operation := .write, tx := ⟨0, 40⟩ } answers =
        some (some .ok, t) ∧ (counts t.log).sum = 40 ∧ (sentBytes t.log).length = 40) ∧
    ∃ answers t, ({} : I2cBus).run { operation := .write, tx := ⟨0, 300⟩ } true answers =
      some (some .ok, t) ∧ ((programs t.log).map Cr2.nbytes).sum = 300 := by
  refine ⟨?_, ?_⟩
  · obtain ⟨hright, answers, t, ha, hrun⟩ := bytes_moved_once.1 16
      { operation := .write, tx := ⟨0, 40⟩ } 1 (0, 0) (320, 0) {} (by decide) (by decide) nofun nofun
    obtain ⟨r, hr, hpolled⟩ := hright .ok answers fun a h => (ha a h).1
    obtain rfl := Option.some.inj (hrun.symm.trans hr)
    cases hpolled with
    | done hd => exact ⟨answers, t, hrun, hd.sum, by rw [hd.sent]; rfl⟩
    | failed hs => exact absurd rfl hs
  · obtain ⟨hright, answers, t, ha, hrun⟩ := bytes_moved_once.2
      { operation := .write, tx := ⟨0, 300⟩ } true 1 (0, 0) (2711, 0) {} (by decide)
    obtain ⟨r, hr, hpolled⟩ := hright answers ha
    obtain rfl := Option.some.inj (hrun.symm.trans hr)
    cases hpolled with
    | ended _ hd => exact ⟨answers, t, hrun, (hd rfl).chunks.sum⟩

end DaveOs.Platform
