import DaveOs.Update.WriterPace
import DaveOs.Update.WriterPlan
import DaveOs.Update.WriterSpec

/-!
# The slot writer follows its plan

The blocks of an image are handed to the writer one after the other, over a flash that may answer anything.
At every moment the operations it has asked for are a beginning of the image's `plan`, and when the writer has
ended well they are all of it, the last one answered with `ok`; never is an operation asked for while another
one is outstanding, and none once the writer is cancelled (`writer_exact`).
-/

namespace DaveOs.Update

variable {r : Status}

open Boot Bytes Crash Relation

/-! ## What the log tells -/

/-- The operations that have been asked for, in order. -/
def starts : List Access → List Operation
  | [] => []
  | .erase pos _ :: log => starts log ++ [.erase pos]
  | .program pos data _ :: log => starts log ++ [.program pos data]
  | .read _ _ _ _ :: log => starts log
  | .poll _ :: log => starts log
  | .now _ :: log => starts log

/-- The answer that ended the newest operation; none while it is outstanding. -/
def outcome : List Access → Option Status
  | [] => some .ok
  | .poll r :: log => (outcome log).or (if r = .busy then none else some r)
  | .erase _ r :: log => if r = .ok then none else outcome log
  | .program _ _ r :: log => if r = .ok then none else outcome log
  | .read _ _ _ _ :: log => outcome log
  | .now _ :: log => outcome log

/-- No operation was asked for while another one was outstanding. -/
def InTurn : List Access → Prop
  | [] => True
  | .erase _ _ :: log => outcome log ≠ none ∧ InTurn log
  | .program _ _ _ :: log => outcome log ≠ none ∧ InTurn log
  | .read _ _ _ _ :: log => InTurn log
  | .poll _ :: log => InTurn log
  | .now _ :: log => InTurn log

theorem outcome_busy (log : List Access) : outcome (.poll .busy :: log) = outcome log := by
  rw [outcome, if_pos rfl, Option.or_none]

theorem outcome_ended (hr : r ≠ .busy) (log : List Access) : outcome (.poll r :: log) ≠ none := by
  rw [outcome, if_neg hr]
  cases outcome log <;> simp

theorem outcome_first (hr : r ≠ .busy) {log : List Access} (h : outcome log = none) :
    outcome (.poll r :: log) = some r := by
  rw [outcome, if_neg hr, h, Option.none_or]

namespace Writer

variable {replies : Nat → Reply} {fuel : Nat} {executing : Option Nat} {layout : Layout} {w w' : Writer} {p : Probe}
  {log log' : List Access}
variable {r : Status} {slot offset : Nat} {data : Bytes}

/-! ## One operation at a time -/

/-- The writer waits for the operation that is outstanding, and starts one when none is. -/
structure Tidy (w : Writer) (log : List Access) : Prop where
  turn : InTurn log
  free : w.status = .busy → w.state ∉ [.eraseWait, .programWait] → outcome log ≠ none
  waiting : w.state ∈ [.eraseWait, .programWait] → outcome log = none

theorem tidy_new : Tidy {} [] := ⟨trivial, nofun, nofun⟩

theorem tidy_begun {t : Time} {wait : WriterState} (hturn : InTurn log)
    (hwait : wait ∈ [.eraseWait, .programWait])
    (hout : outcome log = if r = .ok then none else outcome log') :
    (w.begun r t wait).Tidy (.now t :: log) := by
  unfold begun
  split
  · next hr => exact ⟨hturn, fun _ hs => absurd hwait hs, fun _ => by rw [outcome, hout, if_pos hr]⟩
  · exact ⟨hturn, fun hb => absurd hb (Journal.refused_ne_busy r), nofun⟩

theorem Turn.tidy (ht : w.Turn layout log w' log') (ho : w.Orderly) (h : w.Tidy log) : w'.Tidy log' := by
  have hfree (hs : w.state = .prepare) : outcome log ≠ none :=
    h.free (ho.at_work (by rw [hs]; decide)).2 (by rw [hs]; decide)
  cases ht with
  | rest => exact h
  | enter state asked =>
    refine ⟨h.turn, fun hb _ => h.free hb fun hs => ?_, nofun⟩
    exact working_not_resting _ (List.mem_cons_of_mem _ hs) state
  | reject | complete | timeout => exact ⟨h.turn, nofun, nofun⟩
  | erase state _ _ _ r t | program state _ _ _ r t => exact tidy_begun ⟨hfree state, h.turn⟩ (by decide) rfl
  | wait state t =>
    exact ⟨h.turn, fun _ hs => absurd state hs, fun _ => (outcome_busy log).trans (h.waiting state)⟩
  | polled state r ended =>
    refine ⟨h.turn, fun _ _ => outcome_ended ended log, fun hs => ?_⟩
    rw [waited, if_neg ended] at hs
    split at hs
    · exact absurd hs (by simp)
    split at hs
    · exact absurd hs (by simp)
    · exact absurd hs (by simp)

theorem Begins.tidy (hb : Begins layout w slot offset data log r w' log') (ho : w.Orderly)
    (h : w.Tidy log) : w'.Tidy log' := by
  cases hb with
  | early => exact h
  | busy => exact ⟨h.turn, fun hb hs => by rw [outcome_busy]; exact h.free hb hs,
      fun hs => (outcome_busy log).trans (h.waiting hs)⟩
  | accepted free _ _ _ _ r ended =>
    refine ⟨h.turn, fun _ _ => outcome_ended ended log, fun hs => ?_⟩
    exact absurd (ho.rest free).2 (working_not_resting _ (List.mem_cons_of_mem _ hs))

structure Sane (layout : Layout) (w : Writer) (log : List Access) : Prop where
  orderly : w.Orderly
  inside : w.Inside layout
  tidy : w.Tidy log

theorem sane_new : Sane layout {} [] := ⟨orderly_new, inside_new, tidy_new⟩

theorem Turn.sane (hl : layout.Valid) (ht : w.Turn layout log w' log') (h : w.Sane layout log) : w'.Sane layout log' :=
  ⟨ht.orderly h.orderly, ht.inside hl h.inside, ht.tidy h.orderly h.tidy⟩

theorem Begins.sane (hb : Begins layout w slot offset data log r w' log') (h : w.Sane layout log) :
    w'.Sane layout log' :=
  ⟨hb.orderly h.orderly, hb.inside h.orderly h.inside, hb.tidy h.orderly h.tidy⟩

theorem Sane.cancel (h : w.Sane layout log) : w.cancel.Sane layout log :=
  ⟨{ h.orderly with }, { h.inside with }, { h.tidy with }⟩

/-! ## Calls -/

inductive Call
  | begin (slot offset : Nat) (data : Bytes)
  | tick
  | cancel

/-- One call, its answer left to the caller. -/
def perform {σ : Type} (flash : Flash σ) (layout : Layout) (w : Writer) : Call → Crash σ Writer
  | .begin slot offset data => do
    let (_, w) ← w.begin flash layout slot offset data
    pure w
  | .tick => w.tick flash layout
  | .cancel => pure w.cancel

/-- One call on a flash that may answer anything. -/
def Called (replies : Nat → Reply) (fuel : Nat) (executing : Option Nat) (layout : Layout) (x y : Writer × Probe) :
    Prop :=
  ∃ call, x.1.perform (Probe.flash replies fuel executing) layout call x.2 = (some y.1, y.2)

theorem sane_perform (hl : layout.Valid) (h : w.Sane layout p.log) (call : Call) :
    Wp (w.perform (Probe.flash replies fuel executing) layout call) (fun _ => False)
      (fun w' p' => w'.Sane layout p'.log) p := by
  cases call with
  | begin slot offset data =>
    refine .bind begin_begins ?_
    rintro ⟨r, w'⟩ p' hb
    exact .pure (hb.sane h)
  | tick => exact tick_turn.conseq fun _ _ ht => ht.sane hl h
  | cancel => exact .pure h.cancel

theorem sane_of_called (hl : layout.Valid) {x : Writer × Probe}
    (h : ReflTransGen (Called replies fuel executing layout) ({}, {}) x) : x.1.Sane layout x.2.log := by
  induction h with
  | refl => exact sane_new
  | tail _ hcall ih =>
    obtain ⟨call, hrun⟩ := hcall
    exact (sane_perform hl ih call).of_some hrun

/-! ## Following the plan -/

variable {i : Nat} {image : Bytes} {issued : List Operation}

/-- The block at hand is the last part of the image. -/
structure Last (layout : Layout) (i : Nat) (image : Bytes) (w : Writer) : Prop extends w.Block layout i where
  some : w.data ≠ []
  tail : image.drop w.offset = w.data
  length : image.length = w.offset + w.data.length

/-- Sectors have been erased just far enough for the first `n` bytes. -/
structure Reaches (layout : Layout) (erasedUntil n : Nat) : Prop where
  aligned : erasedUntil % layout.sector = 0
  le : n ≤ erasedUntil
  lt : erasedUntil < n + layout.sector

/-- How far the writer has come with an image, and what it has asked for. -/
inductive Track (layout : Layout) (i : Nat) (image : Bytes) (issued : List Operation) (w : Writer)
    (log : List Access) : Prop
  | ended (status : w.status ≠ .busy) (failed : w.status ≠ .ok) (beginning : issued <+: plan layout i image)
  | complete (status : w.status = .ok) (all : issued = plan layout i image)
      (erased : Reaches layout w.erasedUntil image.length) (answer : outcome log = some .ok)
  | preparing (status : w.status = .busy) (last : w.Last layout i image)
      (state : w.requested = true ∧ w.state ∈ resting ∨ w.requested = false ∧ w.state = .prepare)
      (answer : 0 < w.written → outcome log = some .ok)
      (units : issued = planTo layout i image (cover w.position layout.unit))
      (erased : Reaches layout w.erasedUntil w.position)
  | erasing (status : w.status = .busy) (last : w.Last layout i image) (state : w.state = .eraseWait ∨ w.state = .prepare)
      (more : w.written < w.data.length) (first : w.position % layout.sector = 0)
      (units : issued = planTo layout i image (cover w.position layout.unit) ++ [.erase (layout.slot i + w.position)])
      (erased : w.erasedUntil = w.position + layout.sector)
  | programming (status : w.status = .busy) (last : w.Last layout i image) (state : w.state = .programWait)
      (more : w.written < w.data.length)
      (units : issued = planTo layout i image (cover w.position layout.unit + 1))
      (erased : Reaches layout w.erasedUntil (w.position + w.count layout))

theorem Last.index (hl : layout.Valid) (h : w.Last layout i image) (hlt : w.written < w.data.length) :
    ∃ k, w.position = k * layout.unit ∧ cover w.position layout.unit = k ∧ k + 1 ≤ cover image.length layout.unit := by
  have hpos := unit_pos hl
  have hmod : w.position % layout.unit = 0 := by
    have h1 := h.aligned
    have h2 := h.units hlt
    unfold position
    rcases hl.unit_eq with hu | hu <;> rw [hu] at h1 h2 ⊢ <;> omega
  obtain ⟨k, hk⟩ := Nat.dvd_of_mod_eq_zero hmod
  rw [Nat.mul_comm] at hk
  refine ⟨k, hk, cover_eq (by omega) (by omega), ?_⟩
  have hlen := h.length
  have hcover := (cover_spec (n := image.length) hpos).1
  have hgt : k * layout.unit < cover image.length layout.unit * layout.unit := by
    rw [← hk]
    unfold position
    omega
  exact Nat.lt_of_mul_lt_mul_right hgt

theorem Last.word (h : w.Last layout i image) {k : Nat} (hk : w.position = k * layout.unit) :
    w.word layout = unitAt layout image k := by
  have hdrop : image.drop (k * layout.unit) = w.data.drop w.written := by
    rw [← hk, position, ← List.drop_drop, h.tail]
  have hpart : (w.data.drop w.written).take (w.count layout) = (w.data.drop w.written).take layout.unit := by
    rw [List.take_eq_take_iff, List.length_drop, count]
    omega
  have hlen : ((w.data.drop w.written).take layout.unit).length = w.count layout := by
    rw [List.length_take, List.length_drop, count]
  simp only [Writer.word, unitAt]
  rw [hdrop, hlen, hpart]

theorem prefix_of_le {n m : Nat} (h : n ≤ m) : planTo layout i image n <+: planTo layout i image m := by
  obtain ⟨d, rfl⟩ := Nat.exists_eq_add_of_le h
  exact planTo_prefix n d

theorem Track.beginning (hl : layout.Valid) (h : w.Track layout i image issued log) : issued <+: plan layout i image := by
  cases h with
  | ended _ _ beginning => exact beginning
  | complete _ all => exact all ▸ List.prefix_refl _
  | preparing _ last _ _ units _ =>
    rw [units]
    refine prefix_of_le (Nat.div_le_div_right ?_)
    have := last.length
    have := last.written
    unfold position
    omega
  | erasing _ last _ more first units _ =>
    obtain ⟨k, hk, hcover, hle⟩ := last.index hl more
    rw [units, hcover]
    refine List.IsPrefix.trans ?_ (prefix_of_le hle)
    rw [planTo, erasePlan, ← hk, if_pos first]
    exact List.prefix_append _ _
  | programming _ last _ more units _ =>
    obtain ⟨k, hk, hcover, hle⟩ := last.index hl more
    rw [units, hcover]
    exact prefix_of_le hle

theorem Turn.of_idle (ht : w.Turn layout log w' log') (ho : w.Orderly) (hs : w.status ≠ .busy) :
    w' = w ∧ log' = log := by
  obtain ⟨hreq, hrest⟩ := ho.rest hs
  have hno (h : w.state ∈ working) : False := working_not_resting _ h hrest
  cases ht with
  | rest => exact ⟨rfl, rfl⟩
  | enter _ asked => rw [hreq] at asked; cases asked
  | reject state | complete state | erase state | program state => exact (hno (by rw [state]; decide)).elim
  | wait state | timeout state | polled state => exact (hno (List.mem_cons_of_mem _ state)).elim

theorem refused_ne_ok (hr : r ≠ .ok) : (if r = .busy then Status.ioError else r) ≠ .ok := by
  split
  · decide
  · exact hr

theorem Reaches.next (hl : layout.Valid) (h : w.Last layout i image) (hlt : w.written < w.data.length)
    (hr : Reaches layout w.erasedUntil w.position) (herased : w.position < w.erasedUntil) :
    Reaches layout w.erasedUntil (w.position + w.count layout) := by
  obtain ⟨k, hk, -, -⟩ := h.index hl hlt
  have hcount : w.count layout ≤ layout.unit := Nat.min_le_left _ _
  refine ⟨hr.aligned, ?_, by have := hr.lt; omega⟩
  by_contra hgt
  obtain ⟨q, hq⟩ := Nat.dvd_of_mod_eq_zero hr.aligned
  rw [Nat.mul_comm] at hq
  have heq := eq_of_multiples (Nat.mul_mod_left k layout.unit) (mul_sector_unit hl q) (by omega) (by omega)
  omega

theorem count_pos (hl : layout.Valid) (hlt : w.written < w.data.length) : 0 < w.count layout := by
  have := unit_pos hl
  unfold count
  omega

theorem reaches_erased (hl : layout.Valid) (hlt : w.written < w.data.length) (hfirst : w.position % layout.sector = 0)
    (he : w.erasedUntil = w.position + layout.sector) : Reaches layout w.erasedUntil (w.position + w.count layout) := by
  have hpos := count_pos hl hlt
  have hcount : w.count layout ≤ layout.unit := Nat.min_le_left _ _
  have hunit : layout.unit ≤ layout.sector := Nat.le_of_dvd hl.sector_pos (Nat.dvd_of_mod_eq_zero (sector_unit hl))
  refine ⟨?_, by omega, by omega⟩
  rw [he, Nat.add_mod_right]
  exact hfirst

theorem Last.same (h : w.Last layout i image) (hbase : w'.base = w.base) (hoffset : w'.offset = w.offset)
    (hdata : w'.data = w.data) (hwritten : w'.written = w.written) : w'.Last layout i image := by
  obtain ⟨state, status, data, base, offset, erasedUntil, written, started, requested, cancelled⟩ := w'
  obtain rfl : base = w.base := hbase
  obtain rfl : offset = w.offset := hoffset
  obtain rfl : data = w.data := hdata
  obtain rfl : written = w.written := hwritten
  exact { h with }

theorem Last.next (hl : layout.Valid) (h : w.Last layout i image) (hlt : w.written < w.data.length) :
    { w with written := w.written + w.count layout, state := .prepare }.Last layout i image := by
  refine { h with written := ?_, units := fun hmore => ?_ }
  · simp only [count]
    omega
  · have hu := h.units hlt
    simp only [count] at hmore ⊢
    rcases hl.unit_eq with hunit | hunit <;> rw [hunit] at hu hmore ⊢ <;> omega

/-- What the writer has asked for since the log was `old`, and how far it has come. -/
def Follows (layout : Layout) (i : Nat) (image : Bytes) (old : List Operation) (w : Writer) (log : List Access) : Prop :=
  ∃ issued, starts log = old ++ issued ∧ w.Track layout i image issued log

section follows

variable {old : List Operation}

theorem follows_erase (hl : layout.Valid) (hstatus : w.status = .busy) (hlast : w.Last layout i image)
    (hmore : w.written < w.data.length) (hdue : w.erasedUntil ≤ w.position)
    (hreach : Reaches layout w.erasedUntil w.position)
    (hold : starts log = old ++ planTo layout i image (cover w.position layout.unit)) (r : Status) (t : Time) :
    Follows layout i image old ({ w with erasedUntil := w.sectorAt layout + layout.sector }.begun r t .eraseWait)
      (.now t :: .erase (w.base + w.sectorAt layout) r :: log) := by
  have heq : w.erasedUntil = w.position := Nat.le_antisymm hdue hreach.le
  have hfirst : w.position % layout.sector = 0 := heq ▸ hreach.aligned
  have hsector : w.sectorAt layout = w.position := by rw [sectorAt, hfirst, Nat.sub_zero]
  have hlog : starts (.now t :: .erase (w.base + w.sectorAt layout) r :: log) =
      old ++ (planTo layout i image (cover w.position layout.unit) ++ [.erase (layout.slot i + w.position)]) := by
    rw [starts, starts, hold, hsector, hlast.base, List.append_assoc]
  have htrack : ({ w with
      erasedUntil := w.sectorAt layout + layout.sector, operationStarted := t, state := .eraseWait } : Writer).Track
      layout i image (planTo layout i image (cover w.position layout.unit) ++ [.erase (layout.slot i + w.position)])
      (.now t :: .erase (w.base + w.sectorAt layout) r :: log) :=
    .erasing hstatus (hlast.same rfl rfl rfl rfl) (.inl rfl) hmore hfirst rfl (congrArg (· + layout.sector) hsector)
  refine ⟨_, hlog, ?_⟩
  unfold begun
  split
  · exact htrack
  · next hr => exact .ended (Journal.refused_ne_busy r) (refused_ne_ok hr) (htrack.beginning hl)

theorem follows_program (hl : layout.Valid) (hstatus : w.status = .busy) (hlast : w.Last layout i image)
    (hmore : w.written < w.data.length)
    (hold : starts log = old ++ (planTo layout i image (cover w.position layout.unit) ++
      erasePlan layout i (cover w.position layout.unit)))
    (hreach : Reaches layout w.erasedUntil (w.position + w.count layout)) (r : Status) (t : Time) :
    Follows layout i image old (w.begun r t .programWait)
      (.now t :: .program (w.base + w.position) (w.word layout) r :: log) := by
  obtain ⟨k, hk, hcover, -⟩ := hlast.index hl hmore
  have hlog : starts (.now t :: .program (w.base + w.position) (w.word layout) r :: log) =
      old ++ planTo layout i image (cover w.position layout.unit + 1) := by
    rw [starts, starts, hold, hlast.base, hcover, planTo, hlast.word hk, hk, List.append_assoc]
  have htrack : ({ w with operationStarted := t, state := .programWait } : Writer).Track layout i image
      (planTo layout i image (cover w.position layout.unit + 1))
      (.now t :: .program (w.base + w.position) (w.word layout) r :: log) :=
    .programming hstatus (hlast.same rfl rfl rfl rfl) rfl hmore rfl hreach
  refine ⟨_, hlog, ?_⟩
  unfold begun
  split
  · exact htrack
  · next hr => exact .ended (Journal.refused_ne_busy r) (refused_ne_ok hr) (htrack.beginning hl)

/-- **A tick** follows the plan. -/
theorem Turn.follows (hl : layout.Valid) (ht : w.Turn layout log w' log') (h : w.Sane layout log)
    (hf : w.Follows layout i image old log) : w'.Follows layout i image old log' := by
  obtain ⟨issued, hlog, htrack⟩ := hf
  have hidle (hs : w.status ≠ .busy) : w'.Follows layout i image old log' := by
    obtain ⟨rfl, rfl⟩ := ht.of_idle h.orderly hs
    exact ⟨issued, hlog, htrack⟩
  have hbeg := htrack.beginning hl
  cases htrack with
  | ended status => exact hidle status
  | complete status => exact hidle (by rw [status]; decide)
  | preparing status last state answer units erased =>
    subst units
    have hnot : w.state ∉ [.eraseWait, .programWait] := by
      rcases state with ⟨-, hr⟩ | ⟨-, hp⟩
      · exact fun hw => working_not_resting _ (List.mem_cons_of_mem _ hw) hr
      · rw [hp]
        decide
    cases ht with
    | rest hs hreq =>
      rcases state with ⟨hr, -⟩ | ⟨-, hp⟩
      · rw [hreq] at hr
        cases hr
      · rw [hp] at hs
        exact absurd hs (by decide)
    | enter => exact ⟨_, hlog, .preparing status (last.same rfl rfl rfl rfl) (.inr ⟨rfl, rfl⟩) answer rfl erased⟩
    | reject => exact ⟨_, hlog, .ended (by simp) (by simp) hbeg⟩
    | complete _ _ all =>
      have hpos : w.position = image.length := by rw [position, all, last.length]
      refine ⟨_, hlog, .complete rfl ?_ (hpos ▸ erased) (answer ?_)⟩
      · rw [hpos]
        rfl
      · rw [all]
        exact List.length_pos_iff.mpr last.some
    | erase _ _ some due r t =>
      exact follows_erase hl status last (Nat.lt_of_le_of_ne last.written some) due erased hlog r t
    | program _ _ some reached r t =>
      have hmore := Nat.lt_of_le_of_ne last.written some
      refine follows_program hl status last hmore ?_ (erased.next hl last hmore reached) r t
      -- The unit is not the first of its sector.
      obtain ⟨k, hk, hcover, -⟩ := last.index hl hmore
      have hnot : ¬k * layout.unit % layout.sector = 0 := by
        intro hmod
        rw [← hk] at hmod
        have heq := eq_of_multiples hmod erased.aligned erased.le erased.lt
        omega
      rw [hlog, erasePlan, hcover, if_neg hnot, List.append_nil]
    | wait hs | timeout hs | polled hs => exact absurd hs hnot
  | erasing status last state more first units erased =>
    subst units
    have hrest : w.state ∉ resting := by
      rcases state with hs | hs <;> rw [hs] <;> decide
    cases ht with
    | rest hs | enter hs => exact absurd hs hrest
    | reject | timeout => exact ⟨_, hlog, .ended (by simp) (by simp) hbeg⟩
    | complete _ _ all => exact absurd all (Nat.ne_of_lt more)
    | erase _ _ _ due =>
      have := hl.sector_pos
      omega
    | program _ _ _ _ r t =>
      refine follows_program hl status last more ?_ (reaches_erased hl more first erased) r t
      obtain ⟨k, hk, hcover, -⟩ := last.index hl more
      rw [hlog, erasePlan, hcover, ← hk, if_pos first]
    | wait hs => exact ⟨_, hlog, .erasing status last state more first rfl erased⟩
    | polled hs r ended =>
      have hw : w.state = .eraseWait := state.resolve_right fun hp => by
        rw [hp] at hs
        exact absurd hs (by decide)
      refine ⟨_, hlog, ?_⟩
      rw [waited, if_neg ended]
      split
      · next hr => exact .ended ended hr hbeg
      split
      · exact .ended (by simp) (by simp) hbeg
      · have hsame : (if w.state = .programWait then w.written + w.count layout else w.written) = w.written :=
          if_neg (by rw [hw]; decide)
        rw [hsame]
        exact .erasing status (last.same rfl rfl rfl rfl) (.inr rfl) more first rfl erased
  | programming status last state more units erased =>
    subst units
    have hrest : w.state ∉ resting := by
      rw [state]
      decide
    have hprep : w.state ≠ .prepare := by
      rw [state]
      decide
    cases ht with
    | rest hs | enter hs => exact absurd hs hrest
    | reject hs | complete hs | erase hs | program hs => exact absurd hs hprep
    | wait => exact ⟨_, hlog, .programming status last state more rfl erased⟩
    | timeout => exact ⟨_, hlog, .ended (by simp) (by simp) hbeg⟩
    | polled hs r ended =>
      refine ⟨_, hlog, ?_⟩
      rw [waited, if_neg ended]
      split
      · next hr => exact .ended ended hr hbeg
      split
      · exact .ended (by simp) (by simp) hbeg
      next hok _ =>
      have hanswer : outcome (.poll r :: log) = some .ok := by
        rw [outcome_first ended (h.tidy.waiting hs), Decidable.not_not.mp hok]
      refine .preparing status (last.next hl more) (.inr ⟨(h.orderly.at_work (by rw [state]; decide)).1, rfl⟩)
        (fun _ => hanswer) ?_ ?_
      · -- One more unit.
        obtain ⟨k, hk, hcover, -⟩ := last.index hl more
        have hcount := count_pos hl more
        have hle : w.count layout ≤ layout.unit := Nat.min_le_left _ _
        congr 1
        rw [hcover]
        refine (cover_eq ?_ ?_).symm
        · rw [Nat.succ_mul, ← hk]
          simp only [position]
          omega
        · rw [Nat.succ_mul, ← hk]
          simp only [position]
          omega
      · simp only [position] at erased ⊢
        rw [← Nat.add_assoc]
        exact erased

theorem follows_accepted {bs data : Bytes} (hbs : bs = [] ∧ starts log = old ∧ w.status ≠ .busy ∨
      w.status = .ok ∧ w.Follows layout i bs old log) (hl : layout.Valid) (hrest : w.state ∈ resting)
    (hsome : data ≠ []) (haligned : bs.length % layout.unit = 0) (hfits : bs.length + data.length ≤ layout.room)
    (r : Status) :
    (w.accepted layout i bs.length data).Follows layout i (bs ++ data) old (.poll r :: log) := by
  have hlast : (w.accepted layout i bs.length data).Last layout i (bs ++ data) := by
    refine { base := rfl, aligned := haligned, fits := hfits, written := Nat.zero_le _, units := fun _ => Nat.zero_mod _,
             some := hsome, tail := ?_, length := List.length_append }
    exact List.drop_left
  have hpos : (w.accepted layout i bs.length data).position = bs.length := Nat.add_zero _
  have hunits : (cover bs.length layout.unit) * layout.unit = bs.length := by
    obtain ⟨k, hk⟩ := Nat.dvd_of_mod_eq_zero haligned
    rw [Nat.mul_comm] at hk
    have hunit := unit_pos hl
    rw [cover_eq (c := k) (by omega) (by omega), hk]
  refine ⟨planTo layout i (bs ++ data) (cover bs.length layout.unit), ?_, .preparing rfl hlast (.inl ⟨rfl, hrest⟩)
    (fun h => absurd h (Nat.lt_irrefl 0)) (by rw [hpos]) ?_⟩
  · rw [planTo_append (Nat.le_of_eq hunits)]
    rcases hbs with ⟨rfl, hold, -⟩ | ⟨hok, issued, hlog, htrack⟩
    · have hzero : cover 0 layout.unit = 0 := cover_eq (by omega) (by have := unit_pos hl; omega)
      rw [starts, hold, List.length_nil, hzero]
      exact (List.append_nil _).symm
    · cases htrack with
      | ended _ failed => exact absurd hok failed
      | complete _ all => rw [starts, hlog, all]; rfl
      | preparing status | erasing status | programming status => rw [hok] at status; cases status
  · rw [hpos]
    show Reaches layout (if bs.length = 0 then 0 else w.erasedUntil) bs.length
    split
    · next hzero =>
      rw [hzero]
      exact ⟨Nat.zero_mod _, Nat.le_refl _, by have := hl.sector_pos; omega⟩
    · next hne =>
      rcases hbs with ⟨rfl, -, -⟩ | ⟨hok, issued, hlog, htrack⟩
      · exact absurd rfl hne
      · cases htrack with
        | ended _ failed => exact absurd hok failed
        | complete _ _ erased => exact erased
        | preparing status | erasing status | programming status => rw [hok] at status; cases status

end follows

/-! ## Whole images -/

section runs

variable (replies : Nat → Reply) (fuel : Nat) (executing : Option Nat) (layout : Layout) (i : Nat)
variable {blocks : List Bytes}

/-- The blocks of an image are handed over one after the other, each when the one before has ended well. In
between the writer is ticked, cancelled or asked for what it refuses. -/
inductive Along (x₀ : Writer × Probe) : List Bytes → Writer × Probe → Prop
  | start : Along x₀ [] x₀
  | block {blocks : List Bytes} {x y : Writer × Probe} {data : Bytes} (before : Along x₀ blocks x)
      (ok : blocks ≠ [] → x.1.status = .ok)
      (begin : x.1.begin (Probe.flash replies fuel executing) layout i blocks.flatten.length data x.2 =
        (some (.ok, y.1), y.2)) : Along x₀ (blocks ++ [data]) y
  | refused {blocks : List Bytes} {x y : Writer × Probe} {slot offset : Nat} {data : Bytes} {r : Status}
      (before : Along x₀ blocks x) (refused : r ≠ .ok)
      (begin : x.1.begin (Probe.flash replies fuel executing) layout slot offset data x.2 = (some (r, y.1), y.2)) :
      Along x₀ blocks y
  | tick {blocks : List Bytes} {x y : Writer × Probe} (before : Along x₀ blocks x)
      (tick : x.1.tick (Probe.flash replies fuel executing) layout x.2 = (some y.1, y.2)) : Along x₀ blocks y
  | cancel {blocks : List Bytes} {x : Writer × Probe} (before : Along x₀ blocks x) :
      Along x₀ blocks (x.1.cancel, x.2)

def ticks {σ : Type} (flash : Flash σ) (layout : Layout) : Nat → Writer → Crash σ Writer
  | 0, w => pure w
  | n + 1, w => do
    let w ← w.tick flash layout
    ticks flash layout n w

variable {replies fuel executing layout i} {x₀ x : Writer × Probe}

/-- Nothing has been handed over yet, or the writer follows the plan of what has. -/
def Going (layout : Layout) (i : Nat) (x₀ : Writer × Probe) (blocks : List Bytes) (x : Writer × Probe) : Prop :=
  blocks = [] ∧ starts x.2.log = starts x₀.2.log ∧ x.1.status ≠ .busy ∨
    blocks ≠ [] ∧ blocks.flatten.length ≤ layout.room ∧
      x.1.Follows layout i blocks.flatten (starts x₀.2.log) x.2.log

theorem Track.of_log (h : w.Track layout i image issued log) (hlog : outcome log' = outcome log) :
    w.Track layout i image issued log' := by
  cases h with
  | ended status failed beginning => exact .ended status failed beginning
  | complete status all erased answer => exact .complete status all erased (hlog.trans answer)
  | preparing status last state answer units erased =>
    exact .preparing status last state (fun h => hlog.trans (answer h)) units erased
  | erasing status last state more first units erased => exact .erasing status last state more first units erased
  | programming status last state more units erased => exact .programming status last state more units erased

theorem Track.cancel (h : w.Track layout i image issued log) :
    w.cancel.Track layout i image issued log := by
  cases h with
  | ended status failed beginning => exact .ended status failed beginning
  | complete status all erased answer => exact .complete status all erased answer
  | preparing status last state answer units erased =>
    exact .preparing status (last.same rfl rfl rfl rfl) state answer units erased
  | erasing status last state more first units erased =>
    exact .erasing status (last.same rfl rfl rfl rfl) state more first units erased
  | programming status last state more units erased =>
    exact .programming status (last.same rfl rfl rfl rfl) state more units erased

/-- **A run** of blocks: the writer is in order and follows the plan. -/
theorem Along.going (hl : layout.Valid) (h₀ : x₀.1.Sane layout x₀.2.log)
    (hfree : x₀.1.status ≠ .busy) (h : Along replies fuel executing layout i x₀ blocks x) :
    x.1.Sane layout x.2.log ∧ Going layout i x₀ blocks x := by
  induction h with
  | start => exact ⟨h₀, .inl ⟨rfl, rfl, hfree⟩⟩
  | @block blocks x y data before ok begin ih =>
    obtain ⟨hsane, hgoing⟩ := ih
    have hb := begin_begins.of_some begin
    refine ⟨hb.sane hsane, .inr ⟨by simp, ?_⟩⟩
    rw [List.flatten_append, List.flatten_singleton]
    obtain ⟨⟨w', p'⟩, hy⟩ : ∃ z, z = y := ⟨y, rfl⟩
    subst hy
    simp only at hb ⊢
    generalize hlog' : p'.log = log' at hb
    cases hb with
    | early _ refused => exact absurd rfl refused
    | accepted free _ some aligned fits r _ =>
      refine ⟨by rw [List.length_append]; exact fits, follows_accepted ?_ hl (hsane.orderly.rest free).2 some aligned
        fits r⟩
      rcases hgoing with ⟨rfl, hold, hfree⟩ | ⟨hne, -, hf⟩
      · exact .inl ⟨rfl, hold, hfree⟩
      · exact .inr ⟨ok hne, hf⟩
  | @refused blocks x y slot offset data r before refused begin ih =>
    obtain ⟨hsane, hgoing⟩ := ih
    have hb := begin_begins.of_some begin
    refine ⟨hb.sane hsane, ?_⟩
    obtain ⟨⟨w', p'⟩, hy⟩ : ∃ z, z = y := ⟨y, rfl⟩
    subst hy
    simp only at hb
    unfold Going at hgoing ⊢
    simp only at hgoing ⊢
    generalize hlog' : p'.log = log' at hb
    cases hb with
    | early => exact hgoing
    | busy =>
      refine hgoing.imp id fun ⟨hne, hroom, issued, hstarts, htrack⟩ => ⟨hne, hroom, issued, hstarts, ?_⟩
      exact htrack.of_log (outcome_busy _)
    | accepted => exact absurd rfl refused
  | @tick blocks x y before tick ih =>
    obtain ⟨hsane, hgoing⟩ := ih
    have ht := tick_turn.of_some tick
    refine ⟨ht.sane hl hsane, ?_⟩
    rcases hgoing with ⟨hnil, hold, hs⟩ | ⟨hne, hroom, hf⟩
    · obtain ⟨hw, hlog⟩ := ht.of_idle hsane.orderly hs
      exact .inl ⟨hnil, by rw [hlog]; exact hold, by rw [hw]; exact hs⟩
    · exact .inr ⟨hne, hroom, ht.follows hl hsane hf⟩
  | @cancel blocks x before ih =>
    obtain ⟨hsane, hgoing⟩ := ih
    exact ⟨hsane.cancel, hgoing.imp id fun ⟨hne, hroom, issued, hstarts, htrack⟩ =>
      ⟨hne, hroom, issued, hstarts, htrack.cancel⟩⟩

theorem Turn.starts_cancelled (ht : w.Turn layout log w' log') (hc : w.cancelled = true) :
    starts log' = starts log ∧ w'.cancelled = true := by
  cases ht with
  | rest | enter | reject | complete | wait | timeout => exact ⟨rfl, hc⟩
  | erase _ going | program _ going => rw [hc] at going; cases going
  | polled _ r ended =>
    refine ⟨rfl, ?_⟩
    rw [waited, if_neg ended]
    split
    · exact hc
    · exact hc

theorem ticks_cancelled : ∀ (n : Nat) {w : Writer} {p : Probe}, w.cancelled = true →
    Wp (ticks (Probe.flash replies fuel executing) layout n w) (fun _ => False)
      (fun _ p' => starts p'.log = starts p.log) p := by
  intro n
  induction n with
  | zero => exact fun _ => .pure rfl
  | succ n ih =>
    intro w p hc
    refine .bind tick_turn fun w' p' ht => ?_
    obtain ⟨hstarts, hc'⟩ := ht.starts_cancelled hc
    exact (ih hc').conseq fun _ _ h => h.trans hstarts

/-- **The writer ends.** Its steps are bounded by the units that are left, and each is polled a bounded number
of times. -/
theorem ticks_end {K : Nat} (hl : layout.Valid) : ∀ (M : Nat) {w : Writer} {p : Probe}, w.Sane layout p.log →
    (∀ n, n ≤ M → ∀ w' p', ticks (Probe.flash replies fuel executing) layout n w p = (some w', p') →
      streak p'.log ≤ K) →
    w.steps layout * (K + 1) + (K - streak p.log) < M →
    ∃ n, n ≤ M ∧ ∃ w' p', ticks (Probe.flash replies fuel executing) layout n w p = (some w', p') ∧
      w'.status ≠ .busy := by
  intro M
  induction M with
  | zero => exact fun _ _ hlt => absurd hlt (Nat.not_lt_zero _)
  | succ M ih =>
    intro w p h hpolls hlt
    by_cases hbusy : w.status = .busy
    swap
    · exact ⟨0, Nat.zero_le _, w, p, rfl, hbusy⟩
    obtain ⟨w₁, p₁, hrun, ht⟩ : ∃ w₁ p₁, w.tick (Probe.flash replies fuel executing) layout p = (some w₁, p₁) ∧
        w.Turn layout p.log w₁ p₁.log := tick_turn.returns
    have hsucc (n : Nat) : ticks (Probe.flash replies fuel executing) layout (n + 1) w p =
        ticks (Probe.flash replies fuel executing) layout n w₁ p₁ := bind_of_some hrun
    by_cases hbusy₁ : w₁.status = .busy
    swap
    · exact ⟨1, by omega, w₁, p₁, (hsucc 0).trans rfl, hbusy₁⟩
    have hnow : streak p.log ≤ K := hpolls 0 (Nat.zero_le _) w p rfl
    have hnext : streak p₁.log ≤ K := hpolls 1 (by omega) w₁ p₁ ((hsucc 0).trans rfl)
    obtain ⟨n, hn, w', p', hr, hs⟩ := ih (ht.sane hl h)
      (fun n hn w' p' hr => hpolls (n + 1) (by omega) w' p' ((hsucc n).trans hr)) (by
        rcases ht.pace hl h.orderly h.inside hbusy hbusy₁ with hless | ⟨hsame, hstreak⟩
        · have hmul := Nat.mul_le_mul_right (K + 1) (Nat.succ_le_of_lt hless)
          rw [Nat.succ_mul] at hmul
          omega
        · rw [hsame]
          omega)
    exact ⟨n + 1, by omega, w', p', (hsucc n).trans hr, hs⟩

theorem Along.ticks : ∀ (n : Nat) {x y : Writer × Probe},
    Along replies fuel executing layout i x₀ blocks x →
    Writer.ticks (Probe.flash replies fuel executing) layout n x.1 x.2 = (some y.1, y.2) →
    Along replies fuel executing layout i x₀ blocks y := by
  intro n
  induction n with
  | zero =>
    intro x y h hr
    obtain ⟨hw, hp⟩ := Prod.mk.inj hr
    rwa [show y = x from Prod.ext (Option.some.inj hw).symm hp.symm]
  | succ n ih =>
    intro x y h hr
    rcases ht : x.1.tick (Probe.flash replies fuel executing) layout x.2 with ⟨_ | w₁, p₁⟩
    · rw [Writer.ticks, bind_of_none ht] at hr
      cases hr
    · rw [Writer.ticks, bind_of_some ht] at hr
      exact ih (x := (w₁, p₁)) (.tick h ht) hr

end runs

theorem begin_fitting (hvalid : layout.valid = true) (hi : i < 2) (hfree : w.status ≠ .busy)
    (hsome : data ≠ []) (haligned : offset % layout.unit = 0)
    (hfits : offset + data.length ≤ layout.room) :
    Wp (w.begin (Probe.flash replies fuel executing) layout i offset data) (fun _ => False) (fun a p' =>
      a.1 = .ok ∨ a.1 = .busy ∧ p'.log = .poll .busy :: p.log) p := by
  have hpos : 0 < data.length := List.length_pos_iff.mpr hsome
  refine .ite (fun h => absurd h hfree) fun _ => .ite (fun hno => ?_) fun _ => ?_
  · simp only [hvalid, hsome, haligned, List.isEmpty_iff, not_true_eq_false, ne_eq, false_or] at hno
    omega
  refine .bind (Probe.wp_poll (Q := fun r p' => p'.log = .poll r :: p.log) rfl) fun r p₁ hlog => ?_
  exact .ite (fun hr => .pure (.inr ⟨rfl, by rw [hlog, hr]⟩)) fun _ => .pure (.inl rfl)

end Writer

end DaveOs.Update
