import DaveOs.Console.Output
import DaveOs.Lib.Delivery

/-!
# Frames and transfers

The output together with its driver, over any sequence of calls from both sides: what has been written since
the last frame, the history of accepted frames and losses, the transfer in flight, those that were started and
those that completed. A half that is in flight is not written, the transfers are whole frames in order
(`output_whole`).
-/

namespace DaveOs.Console

open Bytes Delivery

/-- A call from the task or from the driver. The driver calls back after it has released the buffer. -/
inductive Call
  | write (text : Bytes)
  | flush (accepts : Bool)
  | complete (accepts : Bool)
  | error
  | discard
  deriving DecidableEq

/-- The output and what has happened to it. -/
structure Session where
  output : BufferedOutput
  /-- What was written since the last `flush` or `discard`. -/
  texts : List Bytes := []
  /-- The frames that `flush` has accepted with `ok`, and the errors and discards. -/
  marks : List (Mark Bytes) := []
  /-- The transfer between its start and its end. -/
  inFlight : Option Transfer := none
  started : List Transfer := []
  completed : List Transfer := []

namespace Session

variable (capacity frameCapacity : Nat)
variable {n : Nat} {t : Transfer} {frame : Bytes}

/-- The mark of an error, if one was counted. -/
def losses (before after : UInt32) : List (Mark Bytes) := if after = before then [] else [.loss]

def step (s : Session) : Call → Session
  | .write text =>
    { s with output := s.output.write frameCapacity text, texts := s.texts ++ [text] }
  | .flush accepts =>
    let (status, transfer, output) := s.output.flush capacity accepts
    { s with
      output, texts := []
      marks := s.marks ++ (if status = .ok then [.accepted s.texts.flatten] else []) ++
        losses s.output.counters.errors output.counters.errors
      inFlight := transfer.or s.inFlight
      started := s.started ++ transfer.toList }
  | .complete accepts =>
    let (transfer, output) := s.output.complete capacity accepts
    { s with
      output, marks := s.marks ++ losses s.output.counters.errors output.counters.errors
      inFlight := transfer, started := s.started ++ transfer.toList
      completed := s.completed ++ s.inFlight.toList }
  | .error => { s with output := s.output.error, marks := s.marks ++ [.loss], inFlight := none }
  | .discard =>
    { s with output := s.output.discard, texts := [], marks := s.marks ++ [.loss], inFlight := none }

def run (s : Session) (calls : List Call) : Session := calls.foldl (step capacity frameCapacity) s

/-! ## What every call keeps -/

/-- The transfer in flight is the half that is not being filled, as it was when it was started. -/
structure Flying (o : BufferedOutput) (t : Transfer) : Prop where
  pos : t.pos = (o.filling ^^^ 1) * capacity
  size : t.bytes.length = o.active
  some : 0 < o.active
  fits : o.active ≤ capacity
  bytes : slice o.storage t.pos t.bytes.length = t.bytes

/-- The started transfers are groups of frames, and the frames behind them are pending. -/
def Whole (s : Session) : Prop :=
  ∃ (groups : List (List Bytes)) (queued : List Bytes), s.started.map (·.bytes) = groups.map List.flatten ∧
    Delivers s.marks (groups.flatten ++ queued) ∧
    slice s.output.storage (s.output.filling * capacity) s.output.pending = queued.flatten

structure Good (s : Session) : Prop where
  storage : s.output.storage.length = 2 * capacity
  filling : s.output.filling < 2
  frame : s.output.overflow = false → s.output.frame = s.texts.flatten
  room : s.output.frame.length ≤ frameCapacity
  pending : s.output.pending ≤ capacity
  idle : s.output.active = 0 → s.output.pending = 0
  grounded : s.inFlight = none → s.output.active = 0
  flying : ∀ t, s.inFlight = some t → Flying capacity s.output t
  whole : s.Whole capacity
  sent : s.output.counters.sentBytes = .ofNat (s.completed.map (·.bytes.length)).sum

variable {capacity frameCapacity} {s : Session} {o : BufferedOutput}

theorem flip_lt (h : n < 2) : n ^^^ 1 < 2 := by
  obtain rfl | rfl : n = 0 ∨ n = 1 := by omega
  · decide
  · decide

theorem flip_flip (h : n < 2) : n ^^^ 1 ^^^ 1 = n := by
  obtain rfl | rfl : n = 0 ∨ n = 1 := by omega
  · decide
  · decide

theorem halves (h : n < 2) (capacity : Nat) :
    n * capacity + capacity ≤ (n ^^^ 1) * capacity ∨ (n ^^^ 1) * capacity + capacity ≤ n * capacity := by
  obtain rfl | rfl : n = 0 ∨ n = 1 := by omega
  · left
    rw [show 0 ^^^ 1 = 1 by decide]
    omega
  · right
    rw [show 1 ^^^ 1 = 0 by decide]
    omega

theorem half_le (h : n < 2) (capacity : Nat) : n * capacity + capacity ≤ 2 * capacity := by
  have := Nat.mul_le_mul_right capacity (show n + 1 ≤ 2 by omega)
  rw [Nat.succ_mul] at this
  exact this

theorem losses_same (n : UInt32) : losses n n = [] := if_pos rfl

theorem losses_error (n : UInt32) : losses n (n + 1) = [.loss] := by
  refine if_neg fun heq => ?_
  have hnat := congrArg UInt32.toNat heq
  rw [UInt32.toNat_add, UInt32.toNat_one] at hnat
  have := n.toNat_lt
  omega

/-- Nothing of a half that is in flight changes while the other one is filled. -/
theorem Flying.fill (h : Flying capacity o t) (hfill : o.filling < 2)
    (hlen : o.storage.length = 2 * capacity) (hroom : o.pending + frame.length ≤ capacity) :
    slice (o.fill capacity frame).storage t.pos capacity = slice o.storage t.pos capacity := by
  have hle := half_le hfill capacity
  have hin : o.filling * capacity + o.pending + frame.length ≤ o.storage.length := by omega
  unfold BufferedOutput.fill
  rw [h.pos]
  rcases halves hfill capacity with hdis | hdis
  · exact slice_splice_after hin (by omega)
  · exact slice_splice_before hin (by omega)

theorem slice_fill (hfill : o.filling < 2) (hlen : o.storage.length = 2 * capacity)
    (hroom : o.pending + frame.length ≤ capacity) :
    slice (o.fill capacity frame).storage (o.filling * capacity) (o.pending + frame.length) =
      slice o.storage (o.filling * capacity) o.pending ++ frame := by
  have hle := half_le hfill capacity
  have hin : o.filling * capacity + o.pending + frame.length ≤ o.storage.length := by omega
  unfold BufferedOutput.fill
  rw [← slice_append_slice]
  congr 1
  · exact slice_splice_before hin (Nat.le_refl _)
  · exact slice_splice_self rfl hin

theorem slice_none (d : Bytes) (pos : Nat) : slice d pos 0 = [] := List.take_zero

theorem slice_shorter {d e : Bytes} {pos m : Nat} (h : slice d pos m = slice e pos m) (hle : n ≤ m) :
    slice d pos n = slice e pos n :=
  slice_congr fun i hl hr => getElem?_of_slice_eq h hl (by omega)

theorem filled_slice (h : s.Good capacity frameCapacity) (hfits : s.output.frame.length ≤ capacity - s.output.pending)
    (hsound : s.output.overflow = false) {queued : List Bytes}
    (hslice : slice s.output.storage (s.output.filling * capacity) s.output.pending = queued.flatten) :
    slice (s.output.filled capacity).storage (s.output.filling * capacity) (s.output.filled capacity).pending =
      (queued ++ [s.texts.flatten]).flatten := by
  have hroom : s.output.pending + s.output.frame.length ≤ capacity := by
    have := h.pending
    omega
  have hfill := slice_fill (o := { s.output with frame := [], overflow := false }) h.filling h.storage hroom
  rw [List.flatten_append, List.flatten_singleton, ← hslice, ← h.frame hsound]
  exact hfill

theorem filled_length (h : s.Good capacity frameCapacity)
    (hfits : s.output.frame.length ≤ capacity - s.output.pending) :
    (s.output.filled capacity).storage.length = 2 * capacity := by
  have hle := half_le h.filling capacity
  have hpend := h.pending
  have hlen := h.storage
  rw [BufferedOutput.filled, BufferedOutput.fill, length_splice]
  · exact hlen
  · simp only
    omega

theorem good_flush (h : s.Good capacity frameCapacity) (accepts : Bool) :
    (s.step capacity frameCapacity (.flush accepts)).Good capacity frameCapacity := by
  obtain ⟨groups, queued, hstarted, hdel, hslice⟩ := h.whole
  have hpend := h.pending
  have hflush := s.output.flush_flushes capacity accepts
  simp only [step]
  generalize s.output.flush capacity accepts = result at hflush ⊢
  cases hflush with
  | dropped counters errors sent =>
    simp only [reduceCtorEq, if_false, errors, losses_same, List.append_nil, Option.none_or, Option.toList_none]
    exact { h with
      frame := fun _ => rfl, room := Nat.zero_le _, flying := fun t ht => { h.flying t ht with }
      whole := ⟨groups, queued, hstarted, hdel, hslice⟩, sent := sent.trans h.sent }
  | queued sound fits wait =>
    have hloss : losses s.output.counters.errors (s.output.filled capacity).counters.errors = [] := losses_same _
    simp only [if_true, hloss, List.append_nil, Option.none_or, Option.toList_none]
    refine
      { storage := filled_length h fits, filling := h.filling, frame := fun _ => rfl, room := Nat.zero_le _
        pending := ?_, idle := fun hidle => ?_, grounded := h.grounded, flying := fun t ht => ?_
        whole := ⟨groups, queued ++ [s.texts.flatten], hstarted, ?_, filled_slice h fits sound hslice⟩, sent := h.sent }
    · show s.output.pending + s.output.frame.length ≤ capacity
      omega
    · exact wait.resolve_left fun hne => hne hidle
    · have hfly := h.flying t ht
      have hsame : slice (s.output.filled capacity).storage t.pos capacity = slice s.output.storage t.pos capacity :=
        Flying.fill (o := { s.output with frame := [], overflow := false }) { hfly with } h.filling h.storage
          (by simp only; omega)
      refine { hfly with bytes := (slice_shorter hsame ?_).trans hfly.bytes }
      rw [hfly.size]
      exact hfly.fits
    · rw [← List.append_assoc]
      exact hdel.accept _
  | started sound fits idle more =>
    have hloss : losses s.output.counters.errors (s.output.filled capacity).handed.counters.errors = [] := losses_same _
    have hbytes : ((s.output.filled capacity).front capacity).bytes = (queued ++ [s.texts.flatten]).flatten :=
      filled_slice h fits sound hslice
    simp only [if_true, hloss, List.append_nil, Option.some_or, Option.toList_some]
    refine
      { storage := filled_length h fits, filling := flip_lt h.filling, frame := fun _ => rfl, room := Nat.zero_le _
        pending := Nat.zero_le _, idle := fun _ => rfl, grounded := nofun, flying := ?_
        whole := ⟨groups ++ [queued ++ [s.texts.flatten]], [], ?_, ?_, slice_none _ _⟩, sent := h.sent }
    · rintro t ⟨⟩
      have hlen := filled_length h fits
      have hle := half_le h.filling capacity
      have hsize : (s.output.filled capacity).pending = s.output.pending + s.output.frame.length := rfl
      have hlength : ((s.output.filled capacity).front capacity).bytes.length = (s.output.filled capacity).pending := by
        refine length_slice ?_
        show s.output.filling * capacity + _ ≤ _
        omega
      refine ⟨?_, hlength, ?_, ?_, ?_⟩
      · show s.output.filling * capacity = (s.output.filling ^^^ 1 ^^^ 1) * capacity
        rw [flip_flip h.filling]
      · show 0 < s.output.pending + s.output.frame.length
        omega
      · show s.output.pending + s.output.frame.length ≤ capacity
        omega
      · rw [hlength]
        rfl
    · rw [List.map_append, List.map_append, hstarted, List.map_singleton, List.map_singleton, hbytes]
    · rw [List.flatten_append, List.flatten_singleton, List.append_nil, ← List.append_assoc]
      exact hdel.accept _
  | refused sound fits idle =>
    have hloss : losses s.output.counters.errors (s.output.filled capacity).error.counters.errors = [.loss] :=
      losses_error _
    simp only [reduceCtorEq, if_false, hloss, List.append_nil, Option.none_or, Option.toList_none]
    refine
      { storage := filled_length h fits, filling := h.filling, frame := fun _ => rfl, room := Nat.zero_le _
        pending := Nat.zero_le _, idle := fun _ => rfl, grounded := fun _ => rfl, flying := fun t ht => ?_
        whole := ⟨groups, [], hstarted, ?_, slice_none _ _⟩, sent := h.sent }
    · have := (h.flying t ht).some
      omega
    · rw [List.append_nil]
      exact hdel.lose

theorem good_complete (h : s.Good capacity frameCapacity) (accepts : Bool) :
    (s.step capacity frameCapacity (.complete accepts)).Good capacity frameCapacity := by
  obtain ⟨groups, queued, hstarted, hdel, hslice⟩ := h.whole
  have hcomplete := s.output.complete_completes capacity accepts
  -- A transfer that completes is counted.
  have hsent (hbusy : s.output.active ≠ 0) : s.output.counters.sentBytes + .ofNat s.output.active =
      .ofNat ((s.completed ++ s.inFlight.toList).map (·.bytes.length)).sum := by
    cases hfly : s.inFlight with
    | none => exact absurd (h.grounded hfly) hbusy
    | some t =>
      rw [h.sent, Option.toList_some, List.map_append, List.sum_append, UInt64.ofNat_add, List.map_singleton,
        List.sum_singleton, (h.flying t hfly).size]
  simp only [step]
  generalize s.output.complete capacity accepts = result at hcomplete ⊢
  cases hcomplete with
  | stale idle =>
    have hnone : s.inFlight = none := by
      cases hfly : s.inFlight with
      | none => rfl
      | some t =>
        have := (h.flying t hfly).some
        omega
    simp only [losses_same, List.append_nil, Option.toList_none, hnone]
    exact { h with grounded := fun _ => idle, flying := nofun, whole := ⟨groups, queued, hstarted, hdel, hslice⟩ }
  | last busy nothing =>
    have hloss : losses s.output.counters.errors s.output.released.counters.errors = [] := losses_same _
    simp only [hloss, List.append_nil, Option.toList_none]
    exact { h with
      idle := fun _ => nothing, grounded := fun _ => rfl, flying := nofun
      whole := ⟨groups, queued, hstarted, hdel, hslice⟩, sent := hsent busy }
  | next busy more =>
    have hloss : losses s.output.counters.errors s.output.released.handed.counters.errors = [] := losses_same _
    simp only [hloss, List.append_nil, Option.toList_some]
    refine { h with
      filling := flip_lt h.filling, pending := Nat.zero_le _, idle := fun _ => rfl, grounded := nofun, flying := ?_
      whole := ⟨groups ++ [queued], [], ?_, ?_, slice_none _ _⟩, sent := hsent busy }
    · rintro t ⟨⟩
      have hlen := h.storage
      have hpend := h.pending
      have hle := half_le h.filling capacity
      have hlength : (s.output.released.front capacity).bytes.length = s.output.pending := by
        refine length_slice ?_
        show s.output.filling * capacity + s.output.pending ≤ s.output.storage.length
        omega
      refine ⟨?_, hlength, Nat.pos_of_ne_zero more, hpend, ?_⟩
      · show s.output.filling * capacity = (s.output.filling ^^^ 1 ^^^ 1) * capacity
        rw [flip_flip h.filling]
      · rw [hlength]
        rfl
    · rw [List.map_append, List.map_append, hstarted, List.map_singleton, List.map_singleton]
      exact congrArg (fun b => groups.map List.flatten ++ [b]) hslice
    · rw [List.flatten_append, List.flatten_singleton, List.append_nil]
      exact hdel
  | refused busy =>
    have hloss : losses s.output.counters.errors s.output.released.error.counters.errors = [.loss] := losses_error _
    simp only [hloss, List.append_nil, Option.toList_none]
    refine { h with
      pending := Nat.zero_le _, idle := fun _ => rfl, grounded := fun _ => rfl, flying := nofun
      whole := ⟨groups, [], hstarted, ?_, slice_none _ _⟩, sent := hsent busy }
    rw [List.append_nil]
    exact hdel.lose

theorem good_write (h : s.Good capacity frameCapacity) (text : Bytes) :
    (s.step capacity frameCapacity (.write text)).Good capacity frameCapacity := by
  simp only [step, BufferedOutput.write]
  split
  · next hover => exact { h with frame := fun hno => by rw [hover] at hno; cases hno }
  split
  · exact { h with frame := nofun, flying := fun t ht => { h.flying t ht with } }
  · next hno hfits =>
    refine { h with frame := fun _ => ?_, room := ?_, flying := fun t ht => { h.flying t ht with } }
    · rw [List.flatten_append, List.flatten_singleton, ← h.frame (Bool.eq_false_iff.mpr hno)]
    · have := h.room
      rw [List.length_append]
      omega

theorem Whole.lost (h : s.Whole capacity) (output : BufferedOutput) (hpend : output.pending = 0) {s' : Session}
    (hs : s' = { s' with output, marks := s.marks ++ [.loss], started := s.started }) :
    s'.Whole capacity := by
  obtain ⟨groups, queued, hstarted, hdel, -⟩ := h
  rw [hs]
  refine ⟨groups, [], hstarted, ?_, ?_⟩
  · rw [List.append_nil]
    exact hdel.lose
  · simp only [hpend]
    exact slice_none _ _

/-- **Every call** keeps the session in order. -/
theorem good_step (h : s.Good capacity frameCapacity) (call : Call) :
    (s.step capacity frameCapacity call).Good capacity frameCapacity := by
  cases call with
  | write text => exact good_write h text
  | flush accepts => exact good_flush h accepts
  | complete accepts => exact good_complete h accepts
  | error =>
    exact { h with
      pending := Nat.zero_le _, idle := fun _ => rfl, grounded := fun _ => rfl, flying := nofun
      whole := h.whole.lost s.output.error rfl rfl }
  | discard =>
    exact { h with
      frame := fun _ => rfl, room := Nat.zero_le _, pending := Nat.zero_le _, idle := fun _ => rfl
      grounded := fun _ => rfl, flying := nofun, whole := h.whole.lost s.output.discard rfl rfl }

theorem good_run : ∀ (calls : List Call) {s : Session}, s.Good capacity frameCapacity →
    (s.run capacity frameCapacity calls).Good capacity frameCapacity := by
  intro calls
  induction calls with
  | nil => exact fun h => h
  | cons call calls ih => exact fun h => ih (good_step h call)

theorem good_new {storage : Bytes} (h : storage.length = 2 * capacity) :
    Good capacity frameCapacity { output := { storage } } where
  storage := h
  filling := Nat.zero_lt_two
  frame := fun _ => rfl
  room := Nat.zero_le _
  pending := Nat.zero_le _
  idle := fun _ => rfl
  grounded := fun _ => rfl
  flying := nofun
  whole := ⟨[], [], rfl, .nil, slice_none _ _⟩
  sent := rfl

theorem step_half (h : s.Good capacity frameCapacity) (ht : s.inFlight = some t) (call : Call) :
    slice (s.step capacity frameCapacity call).output.storage t.pos capacity =
      slice s.output.storage t.pos capacity := by
  have hpend := h.pending
  have hfill (hfits : s.output.frame.length ≤ capacity - s.output.pending) :
      slice (s.output.filled capacity).storage t.pos capacity = slice s.output.storage t.pos capacity :=
    Flying.fill (o := { s.output with frame := [], overflow := false }) { h.flying t ht with } h.filling h.storage
      (by simp only; omega)
  cases call with
  | write text =>
    simp only [step, BufferedOutput.write]
    split
    · rfl
    · split <;> rfl
  | flush accepts =>
    have hflush := s.output.flush_flushes capacity accepts
    simp only [step]
    generalize s.output.flush capacity accepts = result at hflush ⊢
    cases hflush with
    | dropped => rfl
    | queued _ fits | started _ fits | refused _ fits => exact hfill fits
  | complete accepts =>
    have hcomplete := s.output.complete_completes capacity accepts
    simp only [step]
    generalize s.output.complete capacity accepts = result at hcomplete ⊢
    cases hcomplete with
    | stale | last | next | refused => rfl
  | error | discard => rfl

end Session

/-- **Buffered output.** After any calls from the task and from the driver: no call writes to the half of the
transfer in flight, which still holds what it held when it was started; the started transfers are groups of
frames, and what they and the queue hold are the accepted frames, in order and each once, apart from those
that an error or a discard came after; nothing is pending unless a transfer is active; and the sent bytes are
those of the completed transfers, modulo 2^64. -/
theorem output_whole (capacity frameCapacity : Nat) (storage : Bytes) (hstorage : storage.length = 2 * capacity)
    (calls : List Call) :
    let s := Session.run capacity frameCapacity { output := { storage } } calls
    (∀ t, s.inFlight = some t → (t.pos = 0 ∨ t.pos = capacity) ∧
      slice s.output.storage t.pos t.bytes.length = t.bytes ∧
      ∀ call, slice (s.step capacity frameCapacity call).output.storage t.pos capacity =
        slice s.output.storage t.pos capacity) ∧
    (∃ (groups : List (List Bytes)) (queued : List Bytes), s.started.map (·.bytes) = groups.map List.flatten ∧
      Delivers s.marks (groups.flatten ++ queued) ∧
      slice s.output.storage (s.output.filling * capacity) s.output.pending = queued.flatten) ∧
    (s.output.pending = 0 → ∃ frames, Delivers s.marks frames ∧
      (s.started.map (·.bytes)).flatten = frames.flatten) ∧
    (s.output.active = 0 → s.output.pending = 0) ∧
    s.output.counters.sentBytes.toNat = (s.completed.map (·.bytes.length)).sum % 2 ^ 64 := by
  intro s
  have h : s.Good capacity frameCapacity := Session.good_run calls (Session.good_new hstorage)
  refine ⟨fun t ht => ⟨?_, (h.flying t ht).bytes, Session.step_half h ht⟩, h.whole, fun hpend => ?_, h.idle, ?_⟩
  · have hpos := (h.flying t ht).pos
    obtain hf | hf : s.output.filling = 0 ∨ s.output.filling = 1 := by
      have := h.filling
      omega
    · right
      rw [hpos, hf, show 0 ^^^ 1 = 1 by decide, Nat.one_mul]
    · left
      rw [hpos, hf, show 1 ^^^ 1 = 0 by decide, Nat.zero_mul]
  · obtain ⟨groups, queued, hstarted, hdel, hslice⟩ := h.whole
    rw [hpend, Session.slice_none] at hslice
    refine ⟨groups.flatten ++ queued, hdel, ?_⟩
    rw [hstarted, List.flatten_append, ← hslice, List.append_nil, List.flatten_flatten]
  · rw [h.sent, UInt64.toNat_ofNat']

theorem output_whole_two :
    let s := Session.run 2 4 { output := { storage := [0, 0, 0, 0] } }
      [.write [1], .flush true, .write [2], .flush true]
    s.inFlight = some ⟨0, [1]⟩ ∧ slice s.output.storage 0 1 = [1] ∧ s.output.pending = 1 ∧
      s.output.counters.sentBytes.toNat = 0 := by
  intro s
  have h := output_whole 2 4 [0, 0, 0, 0] rfl [.write [1], .flush true, .write [2], .flush true]
  have hfly : s.inFlight = some ⟨0, [1]⟩ := by decide
  exact ⟨hfly, (h.1 _ hfly).2.1, by decide, h.2.2.2.2⟩

end DaveOs.Console
