import DaveOs.Hal.Step

/-!
# Transactions complete exactly once

`State.Sound` ties the controller to its history: the accepted transactions are the one in progress and
the finished ones, in order, and the counters count them. `World.Good` adds the callbacks: every finished
transaction has had its callback made or has it owed, once. It also says that the controller cannot be
left waiting: the deadline alarm of an active transaction is armed, or the deadline has passed and an
interrupt entry is coming, which then ends the transaction.
-/

namespace DaveOs.Hal

variable {α κ : Type} {c : Setup}

/-! ## The history -/

/-- What the history says of each finished transfer: it was the one accepted last, `backend.finish()` had
just returned, and its status is the one that had come about since it was accepted. -/
def Settled (h : List (Observation α κ)) : Prop :=
  ∀ ticket result older, (.finished ticket (.transfer result) :: older) <:+ h →
    (accepted older).head? = some ticket ∧ (∃ answer, older.head? = some (.cleaned answer)) ∧
      result.status = verdict older

/-- A callback comes after the end of its transaction, and with its outcome. -/
def Preceded (h : List (Observation α κ)) : Prop :=
  ∀ ticket outcome older, (.called ticket outcome :: older) <:+ h → (ticket, outcome) ∈ finished older

section

variable {added h older : List (Observation α κ)} {o : Observation α κ}

theorem suffix_of_inner (hi : ∀ o ∈ added, o.Inner) (ho : ¬ o.Inner)
    (hs : (o :: older) <:+ added ++ h) : (o :: older) <:+ h := by
  induction added with
  | nil => exact hs
  | cons first rest ih =>
    rcases List.suffix_cons_iff.mp hs with heq | hs
    · have hfirst : o = first := (List.cons.inj heq).1
      exact absurd (hfirst ▸ hi first List.mem_cons_self) ho
    · exact ih (fun o ho => hi o (List.mem_cons_of_mem _ ho)) hs

theorem Settled.inner (hs : Settled h) (hi : ∀ o ∈ added, o.Inner) : Settled (added ++ h) :=
  fun ticket result older hsuf => hs ticket result older (suffix_of_inner hi id hsuf)

theorem Preceded.inner (hs : Preceded h) (hi : ∀ o ∈ added, o.Inner) : Preceded (added ++ h) :=
  fun ticket outcome older hsuf => hs ticket outcome older (suffix_of_inner hi id hsuf)

theorem Settled.cons (hs : Settled h) (ho : ∀ ticket result, o ≠ .finished ticket (.transfer result)) :
    Settled (o :: h) := by
  intro ticket result older hsuf
  rcases List.suffix_cons_iff.mp hsuf with heq | hsuf
  · exact absurd (List.cons.inj heq).1.symm (ho ticket result)
  · exact hs ticket result older hsuf

theorem Preceded.cons (hs : Preceded h) (ho : ∀ ticket outcome, o ≠ .called ticket outcome) :
    Preceded (o :: h) := by
  intro ticket outcome older hsuf
  rcases List.suffix_cons_iff.mp hsuf with heq | hsuf
  · exact absurd (List.cons.inj heq).1.symm (ho ticket outcome)
  · exact hs ticket outcome older hsuf

end

/-! ## The controller and its history -/

namespace State

variable {device : Nat} {actions : List α} {callback : Option κ} {deadline : Nat}
  {requested : Option Duration} {a : Admission}

/-- Both counters are what the history gives, up to their largest value. -/
def Counted (s : State α κ) (d : Option Nat) : Prop :=
  s.cells d .accepted = min ((accepted s.history).countP (Counts d ·.kind)) kCounterMax ∧
    s.cells d .completed = min ((finished s.history).countP (Counts d ·.1.kind)) kCounterMax

/-- The controller agrees with its history; `t` is the transaction in progress. -/
structure Sound (c : Setup) (s : State α κ) (t : Option (Ticket κ)) : Prop where
  doing : Doing s t
  order : accepted s.history = t.toList ++ (finished s.history).map Prod.fst
  numbers : ((accepted s.history).map Ticket.number).Nodup
  fresh : ∀ ticket ∈ accepted s.history, ticket.number < s.serial
  settled : Settled s.history
  tracks : s.active = true → s.resetting = false → s.Tracks
  counted : ∀ d, (∀ i, d = some i → i < c.devices) → .cleared d ∉ s.history → s.Counted d

variable {s s' : State α κ} {t : Option (Ticket κ)} {ticket : Ticket κ} {outcome : Outcome α}

theorem sound_initial : Sound c ({} : State α κ) none where
  doing := .free rfl rfl (.inl rfl) rfl rfl
  order := rfl
  numbers := List.nodup_nil
  fresh := nofun
  settled _ _ _ h := by simpa using List.eq_nil_of_suffix_nil h
  tracks := nofun
  counted d _ _ := by cases d <;> exact ⟨rfl, rfl⟩

theorem Sound.quiet (h : Sound c s t) (hq : Quiet s s') (hd : Doing s' t) : Sound c s' t := by
  obtain ⟨added, hi, hh⟩ := hq.history
  have hacc : accepted s'.history = accepted s.history := by rw [hh, accepted_inner hi]
  have hfin : finished s'.history = finished s.history := by rw [hh, finished_inner hi]
  refine ⟨hd, ?_, ?_, ?_, hh ▸ h.settled.inner hi, ?_, ?_⟩
  · rw [hacc, hfin]
    exact h.order
  · rw [hacc]
    exact h.numbers
  · rw [hacc, hq.serial]
    exact h.fresh
  · rw [hq.active, hq.resetting]
    exact fun ha hr => hq.tracks (h.tracks ha hr)
  · intro d hdev hclear
    rw [hh, List.mem_append, not_or] at hclear
    unfold Counted
    rw [hq.accepted, hq.completed, hacc, hfin]
    exact h.counted d hdev hclear.2

theorem bumped_min (n : Nat) (p : Bool) :
    bumped (min n kCounterMax) p = min (n + p.toNat) kCounterMax := by
  unfold bumped
  cases p with
  | false => simp
  | true =>
    simp only [true_and, Bool.toNat_true]
    split <;> omega

theorem countP_cons_toNat {τ : Type} (p : τ → Bool) (x : τ) (l : List τ) :
    (x :: l).countP p = l.countP p + (p x).toNat := by
  cases hp : p x <;> simp [hp]

theorem Sound.completed (h : Sound c s (some ticket)) (hc : Completed c s s' ticket outcome) :
    Sound c s' none := by
  obtain ⟨added, hi, hh, hr⟩ := hc.history
  have hacc : accepted s'.history = accepted s.history := by
    rw [hh]
    exact accepted_inner hi
  have hfin : finished s'.history = (ticket, outcome) :: finished s.history := by
    rw [hh]
    exact congrArg _ (finished_inner hi)
  refine ⟨hc.free, ?_, ?_, ?_, ?_, ?_, ?_⟩
  · rw [hacc, hfin]
    exact h.order
  · rw [hacc]
    exact h.numbers
  · rw [hacc, hc.serial]
    exact h.fresh
  · rw [hh]
    intro ticket' result older hsuf
    rcases List.suffix_cons_iff.mp hsuf with heq | hsuf
    · obtain ⟨hfirst, hrest⟩ := List.cons.inj heq
      obtain ⟨ht, ho⟩ := Observation.finished.inj hfirst
      obtain ⟨⟨answer, ha⟩, hv⟩ := hr result ho.symm
      subst hrest ht
      refine ⟨?_, ⟨answer, by rw [List.head?_append, ha]; rfl⟩, ?_⟩
      · rw [accepted_inner hi, h.order]
        rfl
      · exact hv (h.tracks h.doing.active (hc.resetting result ho.symm))
    · exact h.settled.inner hi ticket' result older hsuf
  · intro ha
    exact absurd (hc.free.active.symm.trans ha) nofun
  · intro d hdev hclear
    have hclear' : .cleared d ∉ s.history := by
      rw [hh] at hclear
      simp only [List.mem_cons, List.mem_append, not_or] at hclear
      exact hclear.2.2
    obtain ⟨hca, hcc⟩ := h.counted d hdev hclear'
    refine ⟨?_, ?_⟩
    · rw [hc.accepted, hacc]
      exact hca
    · rw [hc.completed d hdev, hcc, bumped_min, hfin, countP_cons_toNat]

/-! ## Admission -/

/-- A start, probe or reset was accepted. -/
structure Accepted (c : Setup) (s s' : State α κ) (ticket : Ticket κ) : Prop where
  free : s.active = false
  doing : Doing s none → Doing s' (some ticket)
  alarm : s'.alarm = some s'.deadline
  taken : s'.taken = s.taken
  number : ticket.number = s.serial
  serial : s'.serial = s.serial + 1
  history : ∃ added, (∀ o ∈ added, o.Inner) ∧ s'.history = added ++ .accepted ticket :: s.history
  tracks : s'.resetting = false → s'.Tracks
  accepted : ∀ d, (∀ i, d = some i → i < c.devices) →
    s'.cells d .accepted = bumped (s.cells d .accepted) (Counts d ticket.kind)
  completed : ∀ d, s'.cells d .completed = s.cells d .completed

/-- A start, probe or reset has returned. -/
inductive Answered (c : Setup) (s s' : State α κ) : Prop where
  | rejected (h : Quiet s s') (machine : s'.machine = s.machine)
  | accepted (ticket : Ticket κ) (h : Accepted c s s' ticket)

theorem Doing.quiet (h : Doing s t) (hq : Quiet s s') (hm : s'.machine = s.machine) : Doing s' t := by
  cases h with
  | free ha hr hm' hc hn =>
    exact .free (hq.active.trans ha) (hq.resetting.trans hr) (hm ▸ hm') (hq.callback.trans hc)
      (hq.resetCallback.trans hn)
  | transfer t ha hr hm' hc hn hk =>
    exact .transfer t (hq.active.trans ha) (hq.resetting.trans hr) (hm ▸ hm') (hq.callback.trans hc)
      (hq.resetCallback.trans hn) (hq.device ▸ hk)
  | reset t ha hr hm' hc hn hk =>
    exact .reset t (hq.active.trans ha) (hq.resetting.trans hr) (hm ▸ hm') (hq.callback.trans hc)
      (hq.resetCallback.trans hn) hk

theorem Accepted.of_elapse (wait : Nat) (h : Accepted c (s.elapse wait) s' ticket) :
    Accepted c s s' ticket where
  free := h.free
  doing hd := h.doing (hd.quiet (Quiet.elapse wait) rfl)
  alarm := h.alarm
  taken := h.taken
  number := h.number
  serial := h.serial
  history := h.history
  tracks := h.tracks
  accepted := by
    intro d hd
    cases d <;> exact h.accepted _ hd
  completed := by
    intro d
    cases d <;> exact h.completed _

theorem accept_accepted {callback : κ} {begin : Status} (ha : s.active = false) :
    Accepted c s (s.accept c device actions callback deadline begin)
      ⟨s.serial, callback, .transfer device⟩ where
  free := ha
  doing hd := by
    cases hd with
    | free _ _ hm _ hn =>
      refine .transfer _ rfl rfl ?_ rfl hn rfl
      rcases hm with hm | hm
      · exact fun h => absurd (hm.symm.trans h) nofun
      · exact fun h => absurd (hm.symm.trans h) nofun
  alarm := rfl
  taken := rfl
  number := rfl
  serial := rfl
  history := ⟨[.began begin], by simp [Observation.Inner], rfl⟩
  tracks _ := rfl
  accepted d hd := by
    unfold accept record
    rw [count_cells hd]
    cases d <;> rfl
  completed d := by
    unfold accept record
    rw [count_cells_of_ne (by decide)]
    cases d <;> rfl

theorem acceptReset_accepted {callback : κ} (ha : s.active = false) :
    Accepted c s (s.acceptReset callback deadline) ⟨s.serial, callback, .reset⟩ where
  free := ha
  doing hd := by
    cases hd with
    | free _ _ hm hc _ => exact .reset _ rfl rfl (hm.imp_right .inl) hc rfl rfl
  alarm := rfl
  taken := rfl
  number := rfl
  serial := rfl
  history := ⟨[], by simp, rfl⟩
  tracks := nofun
  accepted d _ := by
    cases d with
    | none => exact Counters.increment_of_ne (i := .resets) (j := .accepted) (by decide)
    | some d => rfl
  completed d := by
    cases d with
    | none => exact Counters.increment_of_ne (i := .resets) (j := .completed) (by decide)
    | some d => rfl

theorem Sound.accepted (h : Sound c s t) (ha : Accepted c s s' ticket) : Sound c s' (some ticket) := by
  obtain ⟨added, hi, hh⟩ := ha.history
  have ht : t = none := by
    have hactive := h.doing.active
    rw [ha.free] at hactive
    exact Option.isSome_eq_false_iff.mp hactive.symm |> Option.isNone_iff_eq_none.mp
  subst ht
  have hacc : Hal.accepted s'.history = ticket :: Hal.accepted s.history := by
    rw [hh, accepted_inner hi]
    rfl
  have hfin : finished s'.history = finished s.history := by
    rw [hh, finished_inner hi]
    rfl
  refine ⟨ha.doing h.doing, ?_, ?_, ?_, ?_, fun _ hr => ha.tracks hr, ?_⟩
  · rw [hacc, hfin, h.order]
    rfl
  · rw [hacc, List.map_cons, List.nodup_cons]
    refine ⟨fun hmem => ?_, h.numbers⟩
    obtain ⟨other, hother, hnumber⟩ := List.mem_map.mp hmem
    have hlt := h.fresh other hother
    rw [hnumber, ha.number] at hlt
    exact Nat.lt_irrefl _ hlt
  · rw [hacc, ha.serial]
    intro other hother
    rcases List.mem_cons.mp hother with rfl | hother
    · rw [ha.number]
      exact Nat.lt_succ_self _
    · exact Nat.lt_succ_of_lt (h.fresh other hother)
  · rw [hh]
    exact (h.settled.cons (o := .accepted ticket) fun _ _ => nofun).inner hi
  · intro d hdev hclear
    have hclear' : .cleared d ∉ s.history := by
      rw [hh] at hclear
      simp only [List.mem_cons, List.mem_append, not_or] at hclear
      exact hclear.2.2
    obtain ⟨hca, hcc⟩ := h.counted d hdev hclear'
    refine ⟨?_, ?_⟩
    · rw [ha.accepted d hdev, hca, bumped_min, hacc, countP_cons_toNat]
    · rw [ha.completed, hfin]
      exact hcc

/-- The interrupt entry takes the callbacks out, or the clock takes the alarm. -/
theorem Sound.taking {notification resetNotification : Option (Ticket κ)} {alarm : Option Nat}
    (h : Sound c s t) : Sound c { s with notification, resetNotification, alarm } t where
  doing := by
    cases h.doing with
    | free ha hr hm hc hn => exact .free ha hr hm hc hn
    | transfer t ha hr hm hc hn hk => exact .transfer t ha hr hm hc hn hk
    | reset t ha hr hm hc hn hk => exact .reset t ha hr hm hc hn hk
  order := h.order
  numbers := h.numbers
  fresh := h.fresh
  settled := h.settled
  tracks := h.tracks
  counted d hd hclear := by
    cases d <;> exact h.counted _ hd hclear

/-- Observations outside of any transaction, which may come with cleared counters. -/
theorem Sound.outside {counters : Counters} {deviceCounters : Nat → Counters} {o : Observation α κ}
    (h : Sound c s t) (ha : Hal.accepted (o :: s.history) = Hal.accepted s.history)
    (hf : finished (o :: s.history) = finished s.history)
    (hv : verdict (o :: s.history) = verdict s.history)
    (hcells : ∀ d, o ≠ .cleared d → { s with counters, deviceCounters }.cells d = s.cells d) :
    Sound c ({ s with counters, deviceCounters }.observe o) t where
  doing := by
    cases h.doing with
    | free ha hr hm hc hn => exact .free ha hr hm hc hn
    | transfer t ha hr hm hc hn hk => exact .transfer t ha hr hm hc hn hk
    | reset t ha hr hm hc hn hk => exact .reset t ha hr hm hc hn hk
  order := by
    show Hal.accepted (o :: s.history) = t.toList ++ (finished (o :: s.history)).map Prod.fst
    rw [ha, hf]
    exact h.order
  numbers := by
    show ((Hal.accepted (o :: s.history)).map Ticket.number).Nodup
    rw [ha]
    exact h.numbers
  fresh := by
    show ∀ ticket ∈ Hal.accepted (o :: s.history), ticket.number < s.serial
    rw [ha]
    exact h.fresh
  settled := by
    refine h.settled.cons fun ticket result ho => ?_
    have hlen := congrArg List.length hf
    rw [ho] at hlen
    exact absurd hlen (Nat.succ_ne_self _)
  tracks hactive hr := by
    show s.status = verdict (o :: s.history)
    rw [hv]
    exact h.tracks hactive hr
  counted d hd hclear := by
    have hclear : .cleared d ∉ o :: s.history := hclear
    rw [List.mem_cons, not_or] at hclear
    have hcell := hcells d (Ne.symm hclear.1)
    obtain ⟨hca, hcc⟩ := h.counted d hd hclear.2
    refine ⟨?_, ?_⟩
    · show { s with counters, deviceCounters }.cells d .accepted =
        min ((Hal.accepted (o :: s.history)).countP _) _
      rw [hcell, ha]
      exact hca
    · show { s with counters, deviceCounters }.cells d .completed =
        min ((finished (o :: s.history)).countP _) _
      rw [hcell, hf]
      exact hcc

theorem Quiet.reject {status : Status} : Quiet s (s.reject c device status).2 :=
  (Quiet.count (by decide) (by decide)).trans (Quiet.observe (.rejected device status) trivial fun ht => ht)

variable [BusAction α]

theorem start_answered : Answered c s (s.start c device actions callback requested a).2 := by
  unfold start
  split
  · exact .rejected Quiet.reject rfl
  split
  · exact .rejected Quiet.reject rfl
  split
  · exact .rejected Quiet.reject rfl
  rename_i hfree _
  have hactive : s.active = false := by
    cases ha : s.active with
    | false => rfl
    | true => exact absurd (.inr ha) hfree
  dsimp only
  split
  · exact .rejected ((Quiet.elapse a.wait).trans Quiet.reject) rfl
  · exact .accepted _ (Accepted.of_elapse a.wait (accept_accepted hactive))

theorem probe_answered {address : UInt8} :
    Answered c s (s.probe c address callback requested a).2 := by
  unfold probe
  split
  · exact .rejected (Quiet.refl s) rfl
  split
  · exact start_answered
  · exact .rejected Quiet.reject rfl

omit [BusAction α] in
theorem reset_answered : Answered c s (s.reset callback requested a).2 := by
  have hrefuse {s : State α κ} (status : Status) : Quiet s (s.observe (.refused status)) :=
    Quiet.observe (.refused status) trivial fun ht => ht
  unfold reset
  dsimp only
  split
  · exact .rejected (hrefuse _) rfl
  split
  · exact .rejected (hrefuse _) rfl
  split
  · exact .rejected (hrefuse _) rfl
  split
  · exact .rejected (hrefuse _) rfl
  rename_i hfree
  have hactive : s.active = false := by
    cases ha : s.active with
    | false => rfl
    | true => exact absurd (.inr ha) hfree
  split
  · exact .rejected ((Quiet.elapse a.wait).trans (hrefuse _)) rfl
  split
  · exact .accepted _ (Accepted.of_elapse a.wait (acceptReset_accepted hactive))
  · exact .rejected ((Quiet.elapse a.wait).trans (hrefuse _)) rfl

end State

/-! ## Whole runs -/

namespace World

variable {t : Option (Ticket κ)} {s : State α κ}

open State

/-- The books balance, and an active transaction cannot be left waiting. -/
structure Good (c : Setup) (w : World α κ) : Prop where
  sound : ∃ t, Sound c w.state t
  taken : w.state.taken = []
  books : (finished w.state.history).Perm (called w.state.history ++ w.owed)
  preceded : Preceded w.state.history
  armed : w.state.active = true → w.state.alarm = some w.state.deadline ∨
    w.state.deadline ≤ w.state.now ∧ (0 < w.fired ∨ w.pended = true)

variable {w v : World α κ}

theorem good_initial : Good c ({} : World α κ) where
  sound := ⟨none, sound_initial⟩
  taken := rfl
  books := List.Perm.nil
  preceded _ _ _ h := by simpa using List.eq_nil_of_suffix_nil h
  armed := nofun

theorem Good.quiet (h : Good c w) (hq : Quiet w.state v.state)
    (hm : v.state.machine = w.state.machine) (ho : v.owed = w.owed)
    (hw : 0 < w.fired ∨ w.pended = true → 0 < v.fired ∨ v.pended = true) : Good c v := by
  obtain ⟨t, hs⟩ := h.sound
  obtain ⟨added, hi, hh⟩ := hq.history
  refine ⟨⟨t, hs.quiet hq (hs.doing.quiet hq hm)⟩, hq.taken.trans h.taken, ?_, hh ▸ h.preceded.inner hi, ?_⟩
  · rw [hh, finished_inner hi, called_inner hi, ho]
    exact h.books
  · rw [hq.active, hq.alarm, hq.deadline]
    intro ha
    rcases h.armed ha with hal | ⟨hd, he⟩
    · exact .inl hal
    · exact .inr ⟨Nat.le_trans hd hq.now, hw he⟩

theorem Good.returned (h : Good c w) {r : Status × State α κ} (hr : Answered c w.state r.2) :
    Good c (w.returned r) := by
  cases hr with
  | rejected hq hm => exact h.quiet (v := w.returned r) hq hm rfl id
  | accepted ticket ha =>
    obtain ⟨t, hs⟩ := h.sound
    obtain ⟨added, hi, hh⟩ := ha.history
    refine ⟨⟨some ticket, hs.accepted ha⟩, ha.taken.trans h.taken, ?_, ?_, fun _ => .inl ha.alarm⟩
    · show (finished r.2.history).Perm (called r.2.history ++ w.owed)
      rw [hh, finished_inner hi, called_inner hi]
      exact h.books
    · show Preceded r.2.history
      rw [hh]
      exact (h.preceded.cons (o := .accepted ticket) fun _ _ => nofun).inner hi

variable [BusAction α]

/-- The ticks of an interrupt entry keep the books, with the callbacks to be made counted as owed. -/
theorem serve_books (answers : Nat → Answers) (hs : Sound c w.state t) (ht : w.state.taken = [])
    (hb : (finished w.state.history).Perm (called w.state.history ++ w.owed))
    (hp : Preceded w.state.history)
    (ha : w.state.active = true → w.state.alarm = some w.state.deadline ∨
      w.state.deadline ≤ w.state.now) (hserve : w.state.serve c 8 answers = s) :
    (∃ t, Sound c s t) ∧ (finished s.history).Perm (called s.history ++ (s.taken ++ w.owed)) ∧
      Preceded s.history ∧ (s.active = true → s.alarm = some s.deadline) := by
  cases t with
  | none =>
    have hfree : w.state.active = false := hs.doing.active
    rw [serve_free _ _ hfree] at hserve
    subst hserve
    refine ⟨⟨none, hs⟩, by rw [ht]; exact hb, hp, fun hactive => ?_⟩
    exact absurd (hfree.symm.trans hactive) nofun
  | some ticket =>
    have hprogress : Progress c w.state s ticket := hserve ▸ serve_progress 8 answers hs.doing
    cases hprogress with
    | quiet hq hd =>
      obtain ⟨added, hi, hh⟩ := hq.history
      refine ⟨⟨some ticket, hs.quiet hq hd⟩, ?_, hh ▸ hp.inner hi, fun hactive => ?_⟩
      · rw [hh, finished_inner hi, called_inner hi, hq.taken, ht]
        exact hb
      · rcases ha hs.doing.active with hal | hd
        · rw [hq.alarm, hq.deadline]
          exact hal
        · -- Past the deadline the entry would have ended the transaction.
          have hdone : s.active = false := by
            rw [← hserve]
            refine serve_expired hs.doing hd ?_
            cases w.state.machine <;> decide
          exact absurd (hdone.symm.trans hactive) nofun
    | completed outcome hc =>
      obtain ⟨added, hi, hh, -⟩ := hc.history
      refine ⟨⟨none, hs.completed hc⟩, ?_, ?_, fun hactive => ?_⟩
      · have hfin : finished s.history = (ticket, outcome) :: finished w.state.history := by
          rw [hh]
          exact congrArg _ (finished_inner hi)
        have hcall : called s.history = called w.state.history := by
          rw [hh]
          exact called_inner hi
        rw [hfin, hcall, hc.taken ht]
        exact (hb.cons _).trans List.perm_middle.symm
      · rw [hh]
        exact (hp.inner hi).cons fun _ _ => nofun
      · exact absurd (hc.free.active.symm.trans hactive) nofun

/-- What an interrupt entry needs: the deadline alarm is armed, or the deadline has passed. -/
theorem Good.interrupt {contended : Bool} {answers : Nat → Answers} (hs : ∃ t, Sound c w.state t)
    (ht : w.state.taken = []) (hb : (finished w.state.history).Perm (called w.state.history ++ w.owed))
    (hp : Preceded w.state.history)
    (ha : w.state.active = true → w.state.alarm = some w.state.deadline ∨
      w.state.deadline ≤ w.state.now) :
    Good c (w.interrupt c contended answers) := by
  unfold World.interrupt
  split
  · exact ⟨hs, ht, hb, hp, fun hactive => (ha hactive).imp_right fun hd => ⟨hd, .inr rfl⟩⟩
  · obtain ⟨t, hs⟩ := hs
    obtain ⟨⟨t', hs'⟩, hb', hp', ha'⟩ := serve_books answers hs ht hb hp ha rfl
    exact ⟨⟨t', hs'.taking⟩, rfl, hb', hp', fun hactive => .inl (ha' hactive)⟩

omit [BusAction α] in
theorem Good.expire {due : Nat} (h : Good c w) (ha : w.state.alarm = some due) (hd : due ≤ w.state.now) :
    Good c { w with state := { w.state with alarm := none }, fired := w.fired + 1 } := by
  obtain ⟨t, hs⟩ := h.sound
  refine ⟨⟨t, hs.taking⟩, h.taken, h.books, h.preceded, fun hactive => .inr ⟨?_, .inl (Nat.succ_pos _)⟩⟩
  rcases h.armed hactive with hal | hpast
  · have hdue : due = w.state.deadline := Option.some.inj (ha.symm.trans hal)
    exact hdue ▸ hd
  · exact hpast.1

omit [BusAction α] in
theorem Good.call {i : Nat} {ticket : Ticket κ} {outcome : Outcome α} (h : Good c w)
    (hi : w.owed[i]? = some (ticket, outcome)) :
    Good c { w with state := w.state.observe (.called ticket outcome), owed := w.owed.eraseIdx i } := by
  obtain ⟨t, hs⟩ := h.sound
  obtain ⟨hlt, hget⟩ := List.getElem?_eq_some_iff.mp hi
  have hperm : w.owed.Perm ((ticket, outcome) :: w.owed.eraseIdx i) := by
    rw [← hget]
    exact (List.getElem_cons_eraseIdx_perm hlt).symm
  refine ⟨⟨t, hs.outside rfl rfl rfl fun _ _ => rfl⟩, h.taken, ?_, ?_, h.armed⟩
  · show (finished w.state.history).Perm ((ticket, outcome) :: called w.state.history ++ w.owed.eraseIdx i)
    refine h.books.trans ((hperm.append_left _).trans ?_)
    exact List.perm_middle
  · intro ticket' outcome' older hsuf
    rcases List.suffix_cons_iff.mp hsuf with heq | hsuf
    · obtain ⟨hfirst, hrest⟩ := List.cons.inj heq
      obtain ⟨ht, ho⟩ := Observation.called.inj hfirst
      rw [hrest, ht, ho]
      exact h.books.mem_iff.mpr (List.mem_append_right _ (hperm.mem_iff.mpr List.mem_cons_self))
    · exact h.preceded ticket' outcome' older hsuf

omit [BusAction α] in
theorem Good.clear (h : Good c w) (device : Option Nat) :
    Good c { w with state := w.state.clearStatistics device } := by
  obtain ⟨t, hs⟩ := h.sound
  cases device with
  | none =>
    refine ⟨⟨t, hs.outside rfl rfl rfl fun d hd => ?_⟩, h.taken, h.books,
      h.preceded.cons (o := .cleared none) fun _ _ => nofun, h.armed⟩
    cases d with
    | none => exact absurd rfl hd
    | some d => rfl
  | some device =>
    refine ⟨⟨t, hs.outside rfl rfl rfl fun d hd => ?_⟩, h.taken, h.books,
      h.preceded.cons (o := .cleared (some device)) fun _ _ => nofun, h.armed⟩
    cases d with
    | none => rfl
    | some d => exact if_neg fun he => hd (by rw [he])

theorem Good.act (h : Good c w) (a : Action α κ) : Good c (w.act c a) := by
  cases a with
  | advance time => exact h.quiet (v := w.act c (.advance time)) (Quiet.elapse time) rfl rfl id
  | poke memory => exact h.quiet (v := w.act c (.poke memory)) Quiet.fields rfl rfl id
  | init answer needsReset =>
    show Good c { w with state := w.state.init answer needsReset }
    unfold State.init
    split
    · exact h
    split
    · exact h.quiet Quiet.fields rfl rfl id
    · exact h
  | deinit => exact h.quiet (v := w.act c .deinit) Quiet.fields rfl rfl id
  | start device actions callback requested a =>
    show Good c (if device < c.devices then _ else w)
    split
    · exact h.returned start_answered
    · exact h
  | probe address callback requested a => exact h.returned probe_answered
  | reset callback requested a => exact h.returned reset_answered
  | clear device => exact h.clear device
  | pend =>
    show Good c (if 0 < w.pends then _ else w)
    split
    · exact h.quiet (Quiet.refl _) rfl rfl fun _ => .inr rfl
    · exact h
  | irq contended answers =>
    exact Good.interrupt h.sound h.taken h.books h.preceded fun ha => (h.armed ha).imp_right And.left
  | expire =>
    unfold World.act
    dsimp only
    split
    · exact h
    · rename_i due hal
      split
      · exact h.expire hal (by assumption)
      · exact h
  | expirePause =>
    unfold World.act
    dsimp only
    split
    · exact h
    split
    · exact h.quiet Quiet.fields rfl rfl fun _ => .inl (Nat.succ_pos _)
    · exact h
  | alarm contended answers =>
    show Good c (if 0 < w.fired then _ else w)
    split
    · exact Good.interrupt h.sound h.taken h.books h.preceded fun ha => (h.armed ha).imp_right And.left
    · exact h
  | call i =>
    unfold World.act
    dsimp only
    split
    · exact h
    · rename_i ticket outcome hi
      exact h.call hi

theorem Good.runs (h : Good c w) (actions : List (Action α κ)) : Good c (w.runs c actions) := by
  induction actions generalizing w with
  | nil => exact h
  | cons a actions ih => exact ih (h.act a)

/-- Transactions complete exactly once; `t` is the one in progress. -/
structure CompletesOnce (c : Setup) (w : World α κ) (t : Option (Ticket κ)) : Prop where
  /-- Callbacks are made for accepted transactions only, and for each of them once. -/
  once : ((called w.state.history).map Prod.fst).Subperm (accepted w.state.history) ∧
    ((accepted w.state.history).map Ticket.number).Nodup
  /-- A callback comes after the end of its transaction, and with its outcome. -/
  after : Preceded w.state.history
  /-- A transfer ends after `backend.finish()`, with the status it has come to. -/
  settled : Settled w.state.history
  /-- One transaction at most is in progress; all those accepted before it have ended. -/
  single : w.state.active = t.isSome ∧
    accepted w.state.history = t.toList ++ (finished w.state.history).map Prod.fst
  /-- An active transaction has its deadline alarm armed, or an interrupt entry is coming. -/
  awake : w.state.active = true →
    w.state.alarm = some w.state.deadline ∨ 0 < w.fired ∨ w.pended = true
  /-- An interrupt entry that gets the lock past the deadline ends the transaction. -/
  prompt : ∀ answers, w.state.active = true → w.state.deadline ≤ w.state.now →
    (w.interrupt c false answers).state.active = false ∧
    ∃ ticket outcome, t = some ticket ∧ (ticket, outcome) ∈ (w.interrupt c false answers).owed ∧
      finished (w.interrupt c false answers).state.history =
        (ticket, outcome) :: finished w.state.history
  /-- The counters of the controller and of each device, where they have not been cleared, count the
  accepted and the finished transfers up to their largest value. -/
  counted : ∀ d, (∀ i, d = some i → i < c.devices) → .cleared d ∉ w.state.history → w.state.Counted d
  /-- The accepted transfers are the completed ones and the one in progress. -/
  balanced : ∀ d, (∀ i, d = some i → i < c.devices) → .cleared d ∉ w.state.history →
    w.state.cells d .accepted < kCounterMax →
    w.state.cells d .accepted = w.state.cells d .completed + (t.any (Counts d ·.kind)).toNat

theorem Good.prompt (h : Good c w) (hs : Sound c w.state t) (answers : Nat → Answers)
    (ha : w.state.active = true) (hd : w.state.deadline ≤ w.state.now) :
    (w.interrupt c false answers).state.active = false ∧
    ∃ ticket outcome, t = some ticket ∧ (ticket, outcome) ∈ (w.interrupt c false answers).owed ∧
      finished (w.interrupt c false answers).state.history =
        (ticket, outcome) :: finished w.state.history := by
  have hsome := hs.doing.active
  rw [ha] at hsome
  obtain ⟨ticket, rfl⟩ := Option.isSome_iff_exists.mp hsome.symm
  have hfree : (w.state.serve c 8 answers).active = false := by
    refine serve_expired hs.doing hd ?_
    cases w.state.machine <;> decide
  refine ⟨hfree, ticket, ?_⟩
  have hprogress : Progress c w.state (w.state.serve c 8 answers) ticket := serve_progress 8 answers hs.doing
  cases hprogress with
  | quiet _ hdoing => exact absurd (hfree.symm.trans hdoing.active) nofun
  | completed outcome hc =>
    obtain ⟨added, hi, hh, -⟩ := hc.history
    refine ⟨outcome, rfl, ?_, ?_⟩
    · show (ticket, outcome) ∈ (w.state.serve c 8 answers).taken ++ w.owed
      rw [hc.taken h.taken]
      exact List.mem_cons_self
    · show finished (w.state.serve c 8 answers).history = _
      rw [hh]
      exact congrArg _ (finished_inner hi)

omit [BusAction α] in
theorem balanced_of_counted {d : Option Nat} (hs : Sound c s t) (hc : s.Counted d)
    (hlt : s.cells d .accepted < kCounterMax) :
    s.cells d .accepted = s.cells d .completed + (t.any (Counts d ·.kind)).toNat := by
  obtain ⟨ha, hf⟩ := hc
  have hsplit : (accepted s.history).countP (Counts d ·.kind) =
      (t.any (Counts d ·.kind)).toNat + (finished s.history).countP (Counts d ·.1.kind) := by
    rw [hs.order, List.countP_append, List.countP_map]
    congr 1
    cases t with
    | none => rfl
    | some ticket => cases hk : Counts d ticket.kind <;> simp [hk]
  rw [ha] at hlt ⊢
  rw [hf]
  omega

/-- A one-byte SPI write, polled by the second interrupt entry, and its callback. -/
example :
    (called (({} : World Spi.Action Nat).runs ⟨1, false⟩
      [.init .ok false, .start 0 [{ operation := .write, tx := ⟨0, 1⟩ }] (some 7) none {}, .pend,
        .irq false fun _ => {}, .irq false fun _ => { poll := some .ok }, .call 0]).state.history).map
      (fun p => (p.1.callback, p.2)) =
    [(7, .transfer ⟨.ok, 1, [{ operation := .write, tx := ⟨0, 1⟩ }]⟩)] := by
  rfl

end World

end DaveOs.Hal
