import DaveOs.Hal.Controller

/-!
# What a transfer may do

`Script` says in which order a transfer with a given action list may go: an action is started when all
before it have finished, a polling action again until what it received matches, a check compares, a pause
is armed and waited for; anything that goes wrong is the last that happens. It is a relation on the log of
the transfer, newest first, where every entry has the memory at its time. The rest of the module says what
every log of a script is like.
-/

namespace DaveOs.Hal

open BusAction

/-- An observation and the memory after the step that made it. -/
abbrev Entry (α κ : Type) := Observation α κ × Memory

inductive Phase where
  | ready
  | busy
  | resting (due : Nat)
  | failed (status : Status)
deriving DecidableEq, Repr

variable {α κ : Type} [BusAction α]

/-- The log of a transfer that has finished `k` of its actions and read `r` times without a match for the
next one. -/
inductive Script (actions : List α) : List (Entry α κ) → Nat → Nat → Phase → Prop where
  | began (m : Memory) : Script actions [(.began .ok, m)] 0 0 .ready
  | refused (m : Memory) {status : Status} (hs : status ≠ .ok) :
      Script actions [(.began status, m)] 0 0 (.failed status)
  | started {h : List (Entry α κ)} {k r : Nat} {a : α} (m : Memory) (hh : Script actions h k r .ready)
      (ha : actions[k]? = some a) (hc : checks a = false) (hp : pause a = 0) :
      Script actions ((.started (transferAction a) (k = 0 ∧ r = 0)
        (k + 1 = actions.length ∧ polls a = false) .ok, m) :: h) k r .busy
  | notStarted {h : List (Entry α κ)} {k r : Nat} {a : α} (m : Memory) {status : Status}
      (hs : status ≠ .ok) (hh : Script actions h k r .ready) (ha : actions[k]? = some a)
      (hc : checks a = false) (hp : pause a = 0) :
      Script actions ((.started (transferAction a) (k = 0 ∧ r = 0)
        (k + 1 = actions.length ∧ polls a = false) status, m) :: h) k r (.failed status)
  /-- An action has finished, a polling one with a match. -/
  | done {h : List (Entry α κ)} {k r : Nat} {a : α} (m : Memory) (hh : Script actions h k r .busy)
      (ha : actions[k]? = some a) (hm : polls a = true → pollMatched m a = true) :
      Script actions ((.polled .ok, m) :: h) (k + 1) 0 .ready
  | retry {h : List (Entry α κ)} {k r : Nat} {a : α} (m : Memory) (hh : Script actions h k r .busy)
      (ha : actions[k]? = some a) (hp : polls a = true) (hm : pollMatched m a = false)
      (hl : pollLimit a = 0 ∨ r + 1 < pollLimit a) :
      Script actions ((.polled .ok, m) :: h) k (r + 1) .ready
  /-- The last allowed reading did not match. -/
  | exhausted {h : List (Entry α κ)} {k r : Nat} {a : α} (m : Memory)
      (hh : Script actions h k r .busy) (ha : actions[k]? = some a) (hp : polls a = true)
      (hm : pollMatched m a = false) (hl : pollLimit a ≠ 0 ∧ pollLimit a ≤ r + 1) :
      Script actions ((.mismatched, m) :: (.polled .ok, m) :: h) k r (.failed .responseMismatch)
  | pollFailed {h : List (Entry α κ)} {k r : Nat} (m : Memory) {status : Status} (hs : status ≠ .ok)
      (hh : Script actions h k r .busy) : Script actions ((.polled status, m) :: h) k r (.failed status)
  | matched {h : List (Entry α κ)} {k : Nat} {a : α} (m : Memory) (hh : Script actions h k 0 .ready)
      (ha : actions[k]? = some a) (hc : checks a = true) (hm : isMatch m a = true) :
      Script actions ((.matched, m) :: h) (k + 1) 0 .ready
  | mismatched {h : List (Entry α κ)} {k : Nat} {a : α} (m : Memory)
      (hh : Script actions h k 0 .ready) (ha : actions[k]? = some a) (hc : checks a = true)
      (hm : isMatch m a = false) :
      Script actions ((.mismatched, m) :: h) k 0 (.failed .responseMismatch)
  | paused {h : List (Entry α κ)} {k : Nat} {a : α} (m : Memory) (now : Nat)
      (hh : Script actions h k 0 .ready) (ha : actions[k]? = some a) (hc : checks a = false)
      (hp : pause a ≠ 0) :
      Script actions ((.paused now (now + pause a), m) :: h) k 0 (.resting (now + pause a))
  | timerFailed {h : List (Entry α κ)} {k : Nat} {a : α} (m : Memory)
      (hh : Script actions h k 0 .ready) (ha : actions[k]? = some a) (hc : checks a = false)
      (hp : pause a ≠ 0) : Script actions ((.timerFailed, m) :: h) k 0 (.failed .timerError)
  | resumed {h : List (Entry α κ)} {k due : Nat} (m : Memory) {now : Nat} (hd : due ≤ now)
      (hh : Script actions h k 0 (.resting due)) :
      Script actions ((.resumed now, m) :: h) (k + 1) 0 .ready
  | expired {h : List (Entry α κ)} {k r : Nat} {phase : Phase} (m : Memory)
      (hh : Script actions h k r phase) (hp : ∀ status, phase ≠ .failed status) :
      Script actions ((.expired, m) :: h) k r (.failed .timeout)

/-- What is reported of a transfer that has come to this phase, by the answer of `finish`. -/
def Phase.verdict (answer : Status) : Phase → Status
  | .failed status => if answer ≠ .ok ∧ status = .ok then .hardwareError else status
  | _ => if answer ≠ .ok then .hardwareError else .ok

/-- The log of a transfer from its beginning, up to its result if it has one. -/
inductive Course (actions : List α) : List (Entry α κ) → Prop where
  | under {h : List (Entry α κ)} {k r : Nat} {phase : Phase} (hh : Script actions h k r phase) :
      Course actions h
  | ended {h : List (Entry α κ)} {k r : Nat} {phase : Phase} (m : Memory) (answer : Status)
      (ticket : Ticket κ) (hh : Script actions h k r phase)
      (hp : (∃ status, phase = .failed status) ∨ phase = .ready ∧ k = actions.length) :
      Course actions ((.finished ticket (.transfer ⟨phase.verdict answer, k, actions⟩), m) ::
        (.cleaned answer, m) :: h)

/-! ## Starts -/

def starts : List (Entry α κ) → List α
  | [] => []
  | (.started a _ _ _, _) :: h => starts h ++ [a]
  | _ :: h => starts h

/-- The starts of an action list that has finished: one for each action, any number up to the limit for
each that polls, none for a check or a pause. -/
inductive Expansion : List α → List α → Prop where
  | nil : Expansion [] []
  | skip {l xs : List α} {a : α} (h : Expansion l xs) (ha : checks a = true ∨ pause a ≠ 0) :
      Expansion (l ++ [a]) xs
  | once {l xs : List α} {a : α} (h : Expansion l xs) (hc : checks a = false) (hp : pause a = 0)
      (hn : polls a = false) : Expansion (l ++ [a]) (xs ++ [transferAction a])
  | poll {l xs : List α} {a : α} (n : Nat) (h : Expansion l xs) (hc : checks a = false)
      (hp : pause a = 0) (hn : polls a = true) (hpos : 0 < n)
      (hl : pollLimit a ≠ 0 → n ≤ pollLimit a) :
      Expansion (l ++ [a]) (xs ++ List.replicate n (transferAction a))

/-- The starts so far: those of the `k` actions that have finished and `n` of the next one. -/
structure Started (actions : List α) (k n : Nat) (xs : List α) : Prop where
  le : k ≤ actions.length
  starts : ∃ ys, Expansion (actions.take k) ys ∧
    xs = ys ++ (actions[k]?.map fun a => List.replicate n (transferAction a)).getD []
  /-- Only an action that is to be started is, only a polling one twice, and none beyond its limit. -/
  next : n ≠ 0 → ∃ a, actions[k]? = some a ∧ checks a = false ∧ pause a = 0 ∧
    (polls a = false → n = 1) ∧ (polls a = true → pollLimit a ≠ 0 → n ≤ pollLimit a)

/-- How often the next action has been started, by the phase. -/
def Phase.Started (n r : Nat) : Phase → Prop
  | .ready => n = r
  | .busy => n = r + 1
  | .resting _ => n = 0 ∧ r = 0
  | .failed _ => n = r ∨ n = r + 1

section

variable {actions : List α} {k n r : Nat} {xs : List α} {a : α}
variable {x : α} {first last : Bool} {status : Status} {m : Memory} {log : List (Entry α κ)}
  {ticket : Ticket κ}

omit [BusAction α] in
theorem take_succ_eq (ha : actions[k]? = some a) : actions.take (k + 1) = actions.take k ++ [a] := by
  rw [List.take_add_one, ha]
  rfl

omit [BusAction α] in
theorem lt_of_getElem? (ha : actions[k]? = some a) : k < actions.length :=
  (List.getElem?_eq_some_iff.1 ha).1

theorem Started.of_expansion (hk : k ≤ actions.length) (h : Expansion (actions.take k) xs) :
    Started actions k 0 xs := by
  refine ⟨hk, ⟨xs, h, ?_⟩, fun hn => absurd rfl hn⟩
  cases actions[k]? <;> simp

theorem Started.expansion (h : Started actions k 0 xs) : Expansion (actions.take k) xs := by
  obtain ⟨ys, hys, rfl⟩ := h.starts
  cases hk : actions[k]? <;> simpa [hk] using hys

theorem Started.again (h : Started actions k n xs) (ha : actions[k]? = some a)
    (hc : checks a = false) (hp : pause a = 0) (hone : polls a = false → n = 0)
    (hl : polls a = true → pollLimit a ≠ 0 → n < pollLimit a) :
    Started actions k (n + 1) (xs ++ [transferAction a]) := by
  obtain ⟨ys, hys, rfl⟩ := h.starts
  refine ⟨h.le, ⟨ys, hys, ?_⟩, fun _ => ⟨a, ha, hc, hp, fun hn => by rw [hone hn], fun hn h0 => hl hn h0⟩⟩
  rw [ha]
  simp [List.replicate_succ']

theorem Started.finish (h : Started actions k (n + 1) xs) (ha : actions[k]? = some a) :
    Started actions (k + 1) 0 xs := by
  obtain ⟨ys, hys, rfl⟩ := h.starts
  obtain ⟨a', ha', hc, hp, hone, hl⟩ := h.next (Nat.succ_ne_zero n)
  obtain rfl : a = a' := Option.some.inj (ha.symm.trans ha')
  refine .of_expansion (lt_of_getElem? ha) ?_
  rw [take_succ_eq ha, ha]
  cases hn : polls a with
  | true => exact hys.poll (n + 1) hc hp hn (Nat.succ_pos n) (hl hn)
  | false =>
    obtain rfl : n = 0 := Nat.succ.inj (hone hn)
    exact hys.once hc hp hn

theorem Started.skip (h : Started actions k 0 xs) (ha : actions[k]? = some a)
    (hs : checks a = true ∨ pause a ≠ 0) : Started actions (k + 1) 0 xs := by
  refine .of_expansion (lt_of_getElem? ha) ?_
  rw [take_succ_eq ha]
  exact h.expansion.skip hs

/-- Readings without a match were made for a polling action, and there may be another one. -/
def Polling (actions : List α) (k r : Nat) : Prop :=
  r ≠ 0 → ∃ a, actions[k]? = some a ∧ polls a = true ∧ (pollLimit a = 0 ∨ r < pollLimit a)

theorem Polling.zero : Polling actions k 0 := fun h => absurd rfl h

theorem Polling.eq_zero (h : Polling actions k r) (ha : actions[k]? = some a) (hn : polls a = false) :
    r = 0 := by
  by_contra hne
  obtain ⟨a', ha', hp, -⟩ := h hne
  obtain rfl : a = a' := Option.some.inj (ha.symm.trans ha')
  rw [hn] at hp
  cases hp

theorem Polling.lt (h : Polling actions k r) (ha : actions[k]? = some a) (h0 : pollLimit a ≠ 0) :
    r < pollLimit a := by
  rcases Nat.eq_zero_or_pos r with rfl | hpos
  · exact Nat.pos_of_ne_zero h0
  · obtain ⟨a', ha', -, hl⟩ := h (Nat.pos_iff_ne_zero.1 hpos)
    obtain rfl : a = a' := Option.some.inj (ha.symm.trans ha')
    exact hl.resolve_left h0

variable {h older : List (Entry α κ)} {phase : Phase} {e : Entry α κ}

theorem Script.polling (hh : Script actions h k r phase) : Polling actions k r := by
  induction hh with
  | retry m _ ha hp _ hl => exact fun _ => ⟨_, ha, hp, hl⟩
  | started _ _ _ _ _ ih | notStarted _ _ _ _ _ _ ih | exhausted _ _ _ _ _ _ ih | pollFailed _ _ _ ih
  | expired _ _ _ ih => exact ih
  | _ => exact .zero

theorem Script.resting {due : Nat} (hh : Script actions h k r (.resting due)) : r = 0 ∧ ∃ m a now rest,
    h = (.paused now due, m) :: rest ∧ actions[k]? = some a ∧ pause a ≠ 0 ∧ due = now + pause a := by
  cases hh with
  | paused m now _ ha _ hp => exact ⟨rfl, m, _, now, _, rfl, ha, hp, rfl⟩

theorem Script.started_spec (hh : Script actions h k r phase) :
    ∃ n, phase.Started n r ∧ Started actions k n (starts h) := by
  induction hh with
  | began m => exact ⟨0, rfl, .of_expansion (Nat.zero_le _) .nil⟩
  | refused m => exact ⟨0, .inl rfl, .of_expansion (Nat.zero_le _) .nil⟩
  | started m hh ha hc hp ih =>
    obtain ⟨n, rfl, hs⟩ := ih
    exact ⟨_, rfl, hs.again ha hc hp (hh.polling.eq_zero ha) fun _ => hh.polling.lt ha⟩
  | notStarted m _ hh ha hc hp ih =>
    obtain ⟨n, rfl, hs⟩ := ih
    exact ⟨_, .inr rfl, hs.again ha hc hp (hh.polling.eq_zero ha) fun _ => hh.polling.lt ha⟩
  | done m _ ha _ ih =>
    obtain ⟨n, rfl, hs⟩ := ih
    exact ⟨0, rfl, hs.finish ha⟩
  | retry m _ _ _ _ _ ih =>
    obtain ⟨n, rfl, hs⟩ := ih
    exact ⟨_, rfl, hs⟩
  | exhausted m _ _ _ _ _ ih | pollFailed m _ _ ih =>
    obtain ⟨n, rfl, hs⟩ := ih
    exact ⟨_, .inr rfl, hs⟩
  | matched m _ ha hc _ ih =>
    obtain ⟨n, rfl, hs⟩ := ih
    exact ⟨0, rfl, hs.skip ha (.inl hc)⟩
  | mismatched m _ _ _ _ ih | timerFailed m _ _ _ _ ih =>
    obtain ⟨n, hn, hs⟩ := ih
    exact ⟨n, .inl hn, hs⟩
  | paused m now _ _ _ _ ih =>
    obtain ⟨n, hn, hs⟩ := ih
    exact ⟨n, ⟨hn, rfl⟩, hs⟩
  | resumed m _ hh ih =>
    obtain ⟨n, ⟨rfl, -⟩, hs⟩ := ih
    obtain ⟨-, _, a, _, _, _, ha, hp, _⟩ := hh.resting
    exact ⟨0, rfl, hs.skip ha (.inr hp)⟩
  | @expired h k r phase m _ hp ih =>
    obtain ⟨n, hn, hs⟩ := ih
    cases phase with
    | ready => exact ⟨n, .inl hn, hs⟩
    | busy => exact ⟨n, .inr hn, hs⟩
    | resting due => exact ⟨n, .inl (hn.1.trans hn.2.symm), hs⟩
    | failed status => exact absurd rfl (hp status)

/-! ## What goes before an entry -/

/-- The log up to an entry is a log of the script, where an entry is not half of a step. -/
theorem Script.of_suffix (hh : Script actions h k r phase) (hs : e :: older <:+ h)
    (he : e.1 ≠ .polled .ok) : ∃ k r phase, Script actions (e :: older) k r phase := by
  have hstep : ∀ {x : Entry α κ} {h : List (Entry α κ)} {k r : Nat} {phase : Phase},
      Script actions (x :: h) k r phase →
      (e :: older <:+ h → ∃ k r phase, Script actions (e :: older) k r phase) →
      e :: older <:+ x :: h → ∃ k r phase, Script actions (e :: older) k r phase := by
    intro x h k r phase hx ih hs
    rcases List.suffix_cons_iff.1 hs with heq | hs
    · rw [heq]
      exact ⟨_, _, _, hx⟩
    · exact ih hs
  induction hh with
  | began m => exact hstep (.began m) (fun h => absurd (List.suffix_nil.1 h) (List.cons_ne_nil _ _)) hs
  | refused m hne => exact hstep (.refused m hne) (fun h => absurd (List.suffix_nil.1 h) (List.cons_ne_nil _ _)) hs
  | started m hh ha hc hp ih => exact hstep (.started m hh ha hc hp) ih hs
  | notStarted m hne hh ha hc hp ih => exact hstep (.notStarted m hne hh ha hc hp) ih hs
  | done m hh ha hm ih => exact hstep (.done m hh ha hm) ih hs
  | retry m hh ha hp hm hl ih => exact hstep (.retry m hh ha hp hm hl) ih hs
  | exhausted m hh ha hp hm hl ih =>
    refine hstep (.exhausted m hh ha hp hm hl) (fun hs => ?_) hs
    rcases List.suffix_cons_iff.1 hs with heq | hs
    · cases heq
      exact absurd rfl he
    · exact ih hs
  | pollFailed m hne hh ih => exact hstep (.pollFailed m hne hh) ih hs
  | matched m hh ha hc hm ih => exact hstep (.matched m hh ha hc hm) ih hs
  | mismatched m hh ha hc hm ih => exact hstep (.mismatched m hh ha hc hm) ih hs
  | paused m now hh ha hc hp ih => exact hstep (.paused m now hh ha hc hp) ih hs
  | timerFailed m hh ha hc hp ih => exact hstep (.timerFailed m hh ha hc hp) ih hs
  | resumed m hd hh ih => exact hstep (.resumed m hd hh) ih hs
  | expired m hh hp ih => exact hstep (.expired m hh hp) ih hs

def Observation.failed : Observation α κ → Bool
  | .began status | .started _ _ _ status | .polled status => status ≠ .ok
  | .mismatched | .timerFailed | .expired => true
  | _ => false

/-- The newest start has not been polled to its end. -/
def underway : List (Entry α κ) → Bool
  | [] => false
  | (.started .., _) :: _ => true
  | (.polled status, _) :: _ => status ≠ .ok
  | _ :: h => underway h

theorem Script.clear (hh : Script actions h k r phase) (hp : ∀ status, phase ≠ .failed status) :
    (∀ e ∈ h, e.1.failed = false) ∧ underway h = decide (phase = .busy) := by
  have hcons : ∀ {o : Observation α κ} {m : Memory} {h : List (Entry α κ)}, o.failed = false →
      (∀ e ∈ h, e.1.failed = false) → ∀ e ∈ (o, m) :: h, e.1.failed = false := by
    intro o m h ho hh e he
    rcases List.mem_cons.1 he with rfl | he
    · exact ho
    · exact hh e he
  induction hh with
  | began m => exact ⟨hcons rfl nofun, rfl⟩
  | started m _ _ _ _ ih => exact ⟨hcons rfl (ih nofun).1, rfl⟩
  | done m _ _ _ ih | retry m _ _ _ _ _ ih => exact ⟨hcons rfl (ih nofun).1, rfl⟩
  | matched m _ _ _ _ ih | paused m _ _ _ _ _ ih | resumed m _ _ ih =>
    exact ⟨hcons rfl (ih nofun).1, (ih nofun).2⟩
  | _ => exact absurd rfl (hp _)

/-- Each start was made while nothing had failed and no action was under way. -/
theorem Script.start_clear (hh : Script actions h k r phase)
    (hs : (.started x first last status, m) :: older <:+ h) :
    (∀ e ∈ older, e.1.failed = false) ∧ underway older = false := by
  obtain ⟨k, r, phase, hh⟩ := hh.of_suffix hs nofun
  cases hh with
  | started _ hh | notStarted _ _ hh => exact hh.clear nofun

theorem Script.resumed_due {now : Nat} (hh : Script actions h k r phase)
    (hs : (.resumed now, m) :: older <:+ h) : ∃ m' a paused rest,
      older = (.paused paused (paused + pause a), m') :: rest ∧ a ∈ actions ∧ pause a ≠ 0 ∧
      paused + pause a ≤ now := by
  obtain ⟨k, r, phase, hh⟩ := hh.of_suffix hs nofun
  cases hh with
  | resumed _ hd hh =>
    obtain ⟨-, m', a, paused, rest, rfl, ha, hp, rfl⟩ := hh.resting
    exact ⟨m', a, paused, rest, rfl, List.mem_of_getElem? ha, hp, hd⟩

/-! ## Lists of plain actions -/

def Plain (a : α) : Prop := polls a = false ∧ checks a = false ∧ pause a = 0

theorem Expansion.plain {l : List α} (h : Expansion l xs) (hl : ∀ a ∈ l, Plain a) :
    xs = l.map transferAction := by
  induction h with
  | nil => rfl
  | @skip l xs a _ hs _ =>
    obtain ⟨-, hc, hp⟩ := hl a (by simp)
    rcases hs with hs | hs
    · rw [hc] at hs
      cases hs
    · exact absurd hp hs
  | once _ _ _ _ ih => simp [ih fun a ha => hl a (List.mem_append_left _ ha)]
  | @poll l xs a _ _ _ _ hn =>
    rw [(hl a (by simp)).1] at hn
    cases hn

/-- In a list of plain actions the first start and no other is marked first, the last and no other
last. -/
theorem Script.ends_marked (hl : ∀ a ∈ actions, Plain a) (hh : Script actions h k r phase)
    (hs : (.started x first last status, m) :: older <:+ h) : (first = true ↔ starts older = []) ∧
    (last = true ↔ (starts older).length + 1 = actions.length) := by
  have hready : ∀ {k r : Nat} {a : α}, Script actions older k r .ready → actions[k]? = some a →
      r = 0 ∧ k = (starts older).length := by
    intro k r a hh ha
    have hr : r = 0 := hh.polling.eq_zero ha (hl a (List.mem_of_getElem? ha)).1
    obtain ⟨n, rfl, hst⟩ := hh.started_spec
    subst hr
    refine ⟨rfl, ?_⟩
    rw [hst.expansion.plain fun a ha => hl a (List.mem_of_mem_take ha)]
    simp [hst.le]
  obtain ⟨k, r, phase, hh⟩ := hh.of_suffix hs nofun
  cases hh with
  | started _ hh ha | notStarted _ _ hh ha =>
    obtain ⟨rfl, rfl⟩ := hready hh ha
    simp [(hl _ (List.mem_of_getElem? ha)).1]

/-! ## Whole transfers -/

theorem Script.failed_ne (hh : Script actions h k r (.failed status)) : status ≠ .ok := by
  cases hh <;> first | assumption | exact nofun

structure Sequenced (actions : List α) (log : List (Entry α κ)) : Prop where
  course : Course actions log
  starts : ∃ k n, Started actions k n (starts log)
  /-- An action is started when the one before has been polled to its end and nothing has failed. -/
  clear : ∀ x first last status m older, (.started x first last status, m) :: older <:+ log →
    (∀ e ∈ older, e.1.failed = false) ∧ underway older = false
  /-- A pause lasts as long as it should. -/
  pauses : ∀ now m older, (.resumed now, m) :: older <:+ log → ∃ m' a paused rest,
    older = (.paused paused (paused + pause a), m') :: rest ∧ a ∈ actions ∧ pause a ≠ 0 ∧
    paused + pause a ≤ now
  /-- The result has the number of the actions that have finished, and is ok if these are all and the
  cleanup went well. -/
  result : ∀ ticket result m older, (.finished ticket (.transfer result), m) :: older <:+ log →
    ∃ answer h r phase, older = (.cleaned answer, m) :: h ∧ result.actions = actions ∧
      Script actions h result.completedActions r phase ∧
      (result.status = .ok ↔ result.completedActions = actions.length ∧ answer = .ok ∧ phase = .ready)
  ends : (∀ a ∈ actions, Plain a) → ∀ x first last status m older,
    (.started x first last status, m) :: older <:+ log →
    (first = true ↔ DaveOs.Hal.starts older = []) ∧
    (last = true ↔ (DaveOs.Hal.starts older).length + 1 = actions.length)

omit [BusAction α] in
theorem suffix_of_over {rest : List (Entry α κ)} {result : Result α} {answer : Status}
    (hs : e :: rest <:+ (.finished ticket (.transfer result), m) :: (.cleaned answer, m) :: log)
    (hf : ∀ ticket outcome, e.1 ≠ .finished ticket outcome) (hc : ∀ answer, e.1 ≠ .cleaned answer) :
    e :: rest <:+ log := by
  rcases List.suffix_cons_iff.1 hs with heq | hs
  · cases heq
    exact absurd rfl (hf _ _)
  rcases List.suffix_cons_iff.1 hs with heq | hs
  · cases heq
    exact absurd rfl (hc _)
  · exact hs

theorem Script.no_finished {outcome : Outcome α} (hh : Script actions h k r phase)
    (hs : (.finished ticket outcome, m) :: older <:+ h) : False := by
  obtain ⟨k, r, phase, hh⟩ := hh.of_suffix hs nofun
  cases hh

theorem Course.sequenced (hc : Course actions log) : Sequenced actions log := by
  cases hc with
  | @under _ k r phase hh =>
    obtain ⟨n, -, hst⟩ := hh.started_spec
    exact ⟨.under hh, ⟨k, n, hst⟩, fun _ _ _ _ _ _ => hh.start_clear, fun _ _ _ => hh.resumed_due,
      fun _ _ _ _ hs => (hh.no_finished hs).elim, fun hl _ _ _ _ _ _ => hh.ends_marked hl⟩
  | @ended h k r phase m answer ticket hh hp =>
    obtain ⟨n, -, hst⟩ := hh.started_spec
    refine ⟨.ended m answer ticket hh hp, ⟨k, n, hst⟩,
      fun _ _ _ _ _ _ hs => hh.start_clear (suffix_of_over hs nofun nofun),
      fun _ _ _ hs => hh.resumed_due (suffix_of_over hs nofun nofun), fun ticket' result m' older hs => ?_,
      fun hl _ _ _ _ _ _ hs => hh.ends_marked hl (suffix_of_over hs nofun nofun)⟩
    rcases List.suffix_cons_iff.1 hs with heq | hs
    · cases heq
      refine ⟨answer, h, r, phase, rfl, rfl, hh, ?_⟩
      rcases hp with ⟨status, rfl⟩ | ⟨rfl, rfl⟩
      · have hne := hh.failed_ne
        simp [Phase.verdict, hne]
      · simp [Phase.verdict]
    · rcases List.suffix_cons_iff.1 hs with heq | hs
      · cases heq
      · exact (hh.no_finished hs).elim

end

end DaveOs.Hal
