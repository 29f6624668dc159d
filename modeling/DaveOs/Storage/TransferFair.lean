import DaveOs.Storage.TransferLink

/-!
# A client that talks to the service comes to its end

The stages of one exchange (`Stage`): the client is about to send, the service collects the request,
executes it, cleans up if the transfer ends, and has a reply; the client reads it. Each stage waits
for one kind of action, every other action leaves it, and each exchange lowers the rank.
-/

namespace DaveOs.Storage

open Bytes Wire Tools

variable {σ α : Type}

namespace FileTransfer

variable {t : FileTransfer} {m : Bytes} {r : Nat}
variable {reply : Bytes} {now : Time}

/-- A transfer with other time stamps. -/
def stamped (t : FileTransfer) (activity : Time) (operated : Bool) : FileTransfer :=
  { t with activity := activity, operated := operated }

theorem Sane.stamped (h : Sane t) (a : Time) (o : Bool) : Sane (t.stamped a o) :=
  ⟨h.request, h.reply, h.disconnected, h.malformed⟩

theorem Collecting.stamped (h : Collecting t m r) (a : Time) (o : Bool) :
    Collecting (t.stamped a o) m r :=
  ⟨h.toSane.stamped a o, h.state, h.replySize, h.received, h.needed, h.bytes⟩

theorem Loaded.stamped (h : Loaded t m) (a : Time) (o : Bool) : Loaded (t.stamped a o) m :=
  ⟨h.toSane.stamped a o, h.replySize, h.needed, h.bytes⟩

theorem Ready.stamped (h : Ready t reply) (a : Time) (o : Bool) : Ready (t.stamped a o) reply :=
  ⟨h.toSane.stamped a o, h.replySize, h.output⟩

theorem completedAt_eq (t : FileTransfer) (now : Time) :
    ∃ a, t.completedAt now = t.stamped a t.operated := by
  unfold completedAt
  split
  · exact ⟨now, rfl⟩
  · exact ⟨t.activity, rfl⟩

theorem Collecting.any (h : Collecting t [] 0) (m : Bytes) : Collecting t m 0 :=
  ⟨h.toSane, h.state, h.replySize, h.received, h.needed, rfl⟩

theorem Collecting.loaded (h : Collecting t m m.length) (hm : Message m) : Loaded t m := by
  refine ⟨h.toSane, h.replySize, ?_, by rw [h.bytes, List.take_length]⟩
  rw [h.needed, if_neg (Nat.not_lt.2 hm.header)]

theorem Collecting.feed_nil (h : Collecting t m r) (hm : r = kHeaderBytes → Message m)
    (now : Time) :
    t.feed [] now = (0, t) := by
  have hopen : ¬ (t.replySize ≠ 0 ∨ t.disconnected = true ∨ t.malformed = true ∨
      t.state ≠ .receiving) := by
    simp [h.replySize, h.disconnected, h.malformed, h.state]
  have hcheck : t.checkHeader = t := by
    rw [checkHeader_eq hm h.received h.bytes]
    split
    · next hr =>
      have hneeded := h.needed
      rw [if_neg (by omega)] at hneeded
      rw [← hneeded, ← h.malformed]
    · rfl
  unfold FileTransfer.feed
  rw [if_neg hopen]
  simpa [splice] using hcheck

theorem tick_of_receiving (hs : t.state = .receiving) (now : Time) (access : FileAccess σ) :
    t.tick access now = pure ((t.stamped t.activity false).receivingStep (t.expired now)) := by
  unfold tick
  dsimp only
  split
  · rfl
  · next hs' => simp [hs] at hs'
  · next hs' => simp [hs] at hs'

theorem tick_receiving (h : Sane t) (hs : t.state = .receiving) (hnow : t.expired now = false)
    (access : FileAccess σ) (w : σ × List Call) :
    t.tick access now w = (if t.replySize = 0 ∧ t.received = t.needed then
      { t.stamped t.activity false with state := .executing } else t.stamped t.activity false, w) := by
  have hopen : ¬ ((t.stamped t.activity false).disconnected = true ∨ t.expired now = true ∨
      (t.stamped t.activity false).malformed = true) := by
    have h := h.stamped t.activity false
    simp [h.disconnected, hnow, h.malformed]
  rw [tick_of_receiving hs, receivingStep, if_neg hopen]
  rfl

theorem Collecting.tick (h : Collecting t m r) (hr : t.received ≠ t.needed)
    (hnow : t.expired now = false) (access : FileAccess σ) (w : σ × List Call) :
    t.tick access now w = (t.stamped t.activity false, w) := by
  rw [tick_receiving h.toSane h.state hnow, if_neg (fun hc => hr hc.2)]

theorem Collecting.tick_full (h : Collecting t m r) (hr : t.received = t.needed)
    (hnow : t.expired now = false) (access : FileAccess σ) (w : σ × List Call) :
    t.tick access now w = ({ t.stamped t.activity false with state := .executing }, w) := by
  rw [tick_receiving h.toSane h.state hnow, if_pos ⟨h.replySize, hr⟩]

theorem Ready.tick (h : Ready t reply) (hs : t.state = .receiving) (hnow : t.expired now = false)
    (access : FileAccess σ) (w : σ × List Call) :
    t.tick access now w = (t.stamped t.activity false, w) := by
  rw [tick_receiving h.toSane hs hnow, if_neg (fun hc => h.replySize hc.1)]

theorem tick_executing (hs : t.state = .executing) (now : Time) (access : FileAccess σ) :
    t.tick access now = (t.stamped t.activity false).executingStep access := by
  unfold tick
  dsimp only
  split
  · next hs' => simp [hs] at hs'
  · rfl
  · next hs' => simp [hs] at hs'

theorem tick_cleanup (hs : t.state = .cleanup) (now : Time) (access : FileAccess σ) :
    t.tick access now = (t.stamped t.activity false).cleanupStep access := by
  unfold tick
  dsimp only
  split
  · next hs' => simp [hs] at hs'
  · next hs' => simp [hs] at hs'
  · rfl

/-- Outside `receiving`, or with a reply prepared, no byte is taken. -/
theorem feed_busy (h : t.replySize ≠ 0 ∨ t.state ≠ .receiving) (bytes : Bytes) (now : Time) :
    t.feed bytes now = (0, t) := by
  unfold feed
  rw [if_pos (h.imp_right fun hs => .inr (.inr hs))]

theorem output_nil (h : t.replySize = 0) : t.output = [] := by
  unfold output
  split <;> simp [h]

end FileTransfer

/-! ## Stages -/

/-- One exchange of a client that talks: the reply `r` to the request `m` takes the service from `P`
to `P'`, and the client that reads it goes on as `last`. -/
structure Exchange (access : FileAccess σ) (Q : α → Condition σ) (n : Nat) (P : Condition σ)
    (m r : Bytes) (P' : Condition σ) (last : Client α) : Prop where
  message : Message m
  round : Round access P m r P'
  reply : r ≠ []
  talks : Talks access Q n P' last

/-- The client waits for `r`; nothing is under way to it, and one request is unanswered. -/
structure Pending (l : Link σ α) (r : Bytes) (last : Client α) : Prop where
  consumes : Consumes l.client r last
  toClient : l.toClient = []
  requests : l.requests = l.replies + 1

/-- Where a link is in its exchange, what it waits for, and a bound on the actions to come. -/
inductive Stage (access : FileAccess σ) (Q : α → Condition σ) : Kind → Nat → Link σ α → Prop
  | asking {l : Link σ α} {n : Nat} {P P' : Condition σ} {m r : Bytes} {next last : Client α}
      (he : Exchange access Q n P m r P' last) (hc : Consumes next r last)
      (hclient : l.client = .send m next) (hq : l.transfer.Collecting [] 0)
      (hp : P l.transfer.service l.world.1) (hs : l.toServer = []) (htc : l.toClient = [])
      (hn : l.requests = l.replies) : Stage access Q .client (n + r.length + m.length + 6) l
  | sending {l : Link σ α} {n i : Nat} {P P' : Condition σ} {m r : Bytes} {last : Client α}
      (he : Exchange access Q n P m r P' last) (hpend : Pending l r last)
      (hq : l.transfer.Collecting m i) (hp : P l.transfer.service l.world.1)
      (hs : l.toServer = m.drop i) (hi : i < m.length) :
      Stage access Q .feed (n + r.length + (m.length - i) + 5) l
  | received {l : Link σ α} {n : Nat} {P P' : Condition σ} {m r : Bytes} {last : Client α}
      (he : Exchange access Q n P m r P' last) (hpend : Pending l r last)
      (hq : l.transfer.Collecting m m.length) (hp : P l.transfer.service l.world.1)
      (hs : l.toServer = []) : Stage access Q .tick (n + r.length + 4) l
  | executing {l : Link σ α} {n : Nat} {P P' : Condition σ} {m r : Bytes} {last : Client α}
      (he : Exchange access Q n P m r P' last) (hpend : Pending l r last)
      (hq : l.transfer.Loaded m) (hstate : l.transfer.state = .executing)
      (hp : P l.transfer.service l.world.1) (hs : l.toServer = []) :
      Stage access Q .tick (n + r.length + 3) l
  | closing {l : Link σ α} {n : Nat} {P' C : Condition σ} {r : Bytes} {last : Client α}
      (ht : Talks access Q n P' last) (hne : r ≠ []) (hpend : Pending l r last)
      (hq : l.transfer.Sane) (hzero : l.transfer.replySize = 0) (hstate : l.transfer.state = .cleanup)
      (hstatus : l.transfer.status = .ok) (hp : C l.transfer.service l.world.1)
      (hclean : ∀ (t : FileTransfer) (w : σ × List Call), t.Sane → t.status = .ok →
        C t.service w.1 → ∃ (t' : FileTransfer) (w' : σ × List Call),
          t.cleanup access w = (t', w') ∧ t'.Ready r ∧ P' t'.service w'.1)
      (hs : l.toServer = []) : Stage access Q .tick (n + r.length + 2) l
  | replying {l : Link σ α} {n : Nat} {P' : Condition σ} {r : Bytes} {last : Client α}
      (ht : Talks access Q n P' last) (hne : r ≠ []) (hpend : Pending l r last)
      (hq : l.transfer.Ready r) (hstate : l.transfer.state = .receiving)
      (hp : P' l.transfer.service l.world.1) (hs : l.toServer = []) :
      Stage access Q .sent (n + r.length + 1) l
  | reading {l : Link σ α} {n : Nat} {P' : Condition σ} {last : Client α}
      (ht : Talks access Q n P' last) (hc : Consumes l.client l.toClient last)
      (hne : l.toClient ≠ []) (hq : l.transfer.Collecting [] 0)
      (hp : P' l.transfer.service l.world.1) (hs : l.toServer = [])
      (hn : l.requests = l.replies) : Stage access Q .client (n + l.toClient.length) l

/-- The client is done, its result satisfies `Q`, and every request has its reply. -/
structure Finished (Q : α → Condition σ) (l : Link σ α) : Prop where
  client : ∃ a, l.client = .done a ∧ Q a l.transfer.service l.world.1
  quiet : l.transfer.Collecting [] 0
  toServer : l.toServer = []
  toClient : l.toClient = []
  requests : l.requests = l.replies

/-! ## One action -/

section Step

variable {access : FileAccess σ} {Q : α → Condition σ}
variable {l : Link σ α} {r : Bytes} {last : Client α} {k : Kind} {n : Nat} {a : Action} {now : Time}
  {P P' : Condition σ} {m : Bytes}

def Link.stamped (l : Link σ α) (activity : Time) (operated : Bool) : Link σ α :=
  { l with transfer := l.transfer.stamped activity operated }

theorem Pending.stamped (h : Pending l r last) (a : Time) (o : Bool) :
    Pending (l.stamped a o) r last := ⟨h.consumes, h.toClient, h.requests⟩

theorem Stage.stamped (h : Stage access Q k n l) (a : Time) (o : Bool) :
    Stage access Q k n (l.stamped a o) := by
  cases h with
  | asking he hc hclient hq hp hs htc hn =>
    exact .asking he hc hclient (hq.stamped a o) hp hs htc hn
  | sending he hpend hq hp hs hi => exact .sending he (hpend.stamped a o) (hq.stamped a o) hp hs hi
  | received he hpend hq hp hs => exact .received he (hpend.stamped a o) (hq.stamped a o) hp hs
  | executing he hpend hq hstate hp hs =>
    exact .executing he (hpend.stamped a o) (hq.stamped a o) hstate hp hs
  | closing ht hne hpend hq hzero hstate hstatus hp hclean hs =>
    exact .closing ht hne (hpend.stamped a o) (hq.stamped a o) hzero hstate hstatus hp hclean hs
  | replying ht hne hpend hq hstate hp hs =>
    exact .replying ht hne (hpend.stamped a o) (hq.stamped a o) hstate hp hs
  | reading ht hc hne hq hp hs hn =>
    exact .reading (l := l.stamped a o) ht hc hne (hq.stamped a o) hp hs hn

/-- The action leaves everything but time stamps. -/
def Idles (access : FileAccess σ) (l : Link σ α) (a : Action) : Prop :=
  ∃ activity operated, l.step access a = l.stamped activity operated

theorem idles_completedAt (l : Link σ α) (now : Time) : Idles access l (.completedAt now) := by
  obtain ⟨a, ha⟩ := l.transfer.completedAt_eq now
  exact ⟨a, _, by rw [Link.step, ha]; rfl⟩

theorem idles_of_eq (h : l.step access a = l) : Idles access l a :=
  ⟨l.transfer.activity, l.transfer.operated, h⟩

theorem idles_sent (h : l.transfer.replySize = 0) (now : Time) : Idles access l (.sent now) :=
  idles_of_eq (by rw [Link.step, if_pos (FileTransfer.output_nil h)])

/-- A client that waits for a reply with nothing under way stays as it is. -/
theorem Pending.idles_client (h : Pending l r last) (hne : r ≠ []) (n : Nat) :
    Idles access l (.client n) := by
  refine idles_of_eq ?_
  have hw := h.consumes.wanted hne
  simp only [Link.step, Link.clientStep]
  split
  · next hc => simp [hc, Client.wanted] at hw
  · simp [h.toClient]

theorem idles_feed (h : l.transfer.feed (l.toServer.take n) now = (0, l.transfer)) :
    Idles access l (.feed n now) :=
  idles_of_eq (by simp only [Link.step, h, List.drop_zero])

theorem idles_tick
    (h : l.transfer.tick access now l.world = (l.transfer.stamped l.transfer.activity false, l.world)) :
    Idles access l (.tick now) := by
  refine ⟨l.transfer.activity, false, ?_⟩
  simp only [Link.step, h]
  rfl

theorem idles_quiet (hq : l.transfer.Collecting [] 0) (hs : l.toServer = []) (ha : l.Timely a)
    (hclient : ∀ n, a ≠ .client n) : Idles access l a := by
  cases a with
  | client n => exact absurd rfl (hclient n)
  | feed n now =>
    refine idles_feed ?_
    rw [hs, List.take_nil]
    exact hq.feed_nil (fun h => absurd h (by decide)) now
  | tick now =>
    refine idles_tick (hq.tick ?_ ha access l.world)
    rw [hq.received, hq.needed]
    decide
  | completedAt now => exact idles_completedAt l now
  | sent now => exact idles_sent hq.replySize now

theorem Talks.next (h : Talks access Q n P l.client) (hq : l.transfer.Collecting [] 0)
    (hp : P l.transfer.service l.world.1) (hs : l.toServer = []) (hc : l.toClient = [])
    (hn : l.requests = l.replies) : Finished Q l ∨ Stage access Q .client n l := by
  generalize hclient : l.client = c at h
  cases h with
  | done h => exact .inl ⟨⟨_, hclient, h _ _ hp⟩, hq, hs, hc, hn⟩
  | ask hm hr hne hcons ht => exact .inr (.asking ⟨hm, hr, hne, ht⟩ hcons hclient hq hp hs hc hn)

/-- An action either makes progress, or leaves the stage and does not serve it. -/
def Advances (access : FileAccess σ) (Q : α → Condition σ) (k : Kind) (n : Nat) (l : Link σ α)
    (a : Action) : Prop :=
  Fair.Progress (Stage access Q) (Finished Q) n (l.step access a) ∨
    (Stage access Q k n (l.step access a) ∧ ¬ a.Serves k)

def Action.kind? : Action → Option Kind
  | .client _ => some .client
  | .feed .. => some .feed
  | .tick _ => some .tick
  | .sent _ => some .sent
  | .completedAt _ => none

/-- Every action of another kind than the one waited for leaves the stage. -/
theorem Stage.idles (h : Stage access Q k n l) (ha : l.Timely a) (hk : a.kind? ≠ some k) :
    Idles access l a := by
  cases a with
  | completedAt now => exact idles_completedAt l now
  | client i =>
    cases h with
    | asking | reading => exact absurd rfl hk
    | sending he hpend | received he hpend | executing he hpend => exact hpend.idles_client he.reply i
    | closing ht hne hpend | replying ht hne hpend => exact hpend.idles_client hne i
  | sent now =>
    cases h with
    | replying => exact absurd rfl hk
    | closing ht hne hpend hq hzero => exact idles_sent hzero now
    | asking he hc hclient hq | sending he hpend hq | received he hpend hq | executing he hpend hq
    | reading ht hc hne hq => exact idles_sent hq.replySize now
  | feed i now =>
    refine idles_feed ?_
    cases h with
    | sending => exact absurd rfl hk
    | asking he hc hclient hq hp hs | reading ht hc hne hq hp hs =>
      rw [hs, List.take_nil]
      exact hq.feed_nil (fun h => absurd h (by decide)) now
    | received he hpend hq hp hs =>
      rw [hs, List.take_nil]
      exact hq.feed_nil (fun _ => he.message) now
    | executing he hpend hq hstate | closing ht hne hpend hq hzero hstate =>
      exact FileTransfer.feed_busy (.inr (by simp [hstate])) _ now
    | replying ht hne hpend hq => exact FileTransfer.feed_busy (.inl hq.replySize) _ now
  | tick now =>
    refine idles_tick ?_
    cases h with
    | received | executing | closing => exact absurd rfl hk
    | replying ht hne hpend hq hstate => exact hq.tick hstate ha access l.world
    | asking he hc hclient hq | reading ht hc hne hq =>
      exact hq.tick (by rw [hq.received, hq.needed]; decide) ha access l.world
    | sending he hpend hq hp hs hi =>
      refine hq.tick ?_ ha access l.world
      rw [hq.received, hq.needed]
      split <;> omega

theorem Stage.unserved (h : Stage access Q k n l) (ha : Idles access l a) (hk : ¬ a.Serves k) :
    Advances access Q k n l a := by
  obtain ⟨activity, operated, heq⟩ := ha
  refine .inr ⟨?_, hk⟩
  rw [heq]
  exact h.stamped activity operated

theorem Pending.keep {transfer : FileTransfer} {toServer : Bytes} {world : σ × List Call} (h : Pending l r last) :
    Pending { l with transfer, toServer, world } r last :=
  ⟨h.consumes, h.toClient, h.requests⟩

theorem advances_sending {i : Nat} (he : Exchange access Q n P m r P' last)
    (hpend : Pending l r last) (hq : l.transfer.Collecting m i)
    (hp : P l.transfer.service l.world.1) (hs : l.toServer = m.drop i) (hi : i < m.length) (count : Nat) :
    Advances access Q .feed (n + r.length + (m.length - i) + 5) l (.feed count now) := by
  obtain ⟨taken, t', hfeed, hq', hle, hservice, hpos⟩ := hq.feed he.message (Nat.le_of_lt hi) count now
  have hstep : l.step access (.feed count now) = { l with transfer := t', toServer := m.drop (i + taken) } := by
    simp only [Link.step, hs, hfeed, List.drop_drop]
  have hp' : P t'.service l.world.1 := by rw [hservice]; exact hp
  unfold Advances Fair.Progress
  rw [hstep]
  by_cases hfull : i + taken = m.length
  · rw [hfull] at hq' ⊢
    exact .inl (.inr ⟨.tick, n + r.length + 4, by omega, .received he hpend.keep hq' hp' List.drop_length⟩)
  · have hlt : i + taken < m.length := by omega
    by_cases hzero : taken = 0
    · subst hzero
      refine .inr ⟨.sending he hpend.keep hq' hp' rfl hlt, fun hk => ?_⟩
      exact absurd (hpos hi hk) (by omega)
    · exact .inl (.inr ⟨.feed, _, by omega, .sending he hpend.keep hq' hp' rfl hlt⟩)

theorem advances_executing (he : Exchange access Q n P m r P' last) (hpend : Pending l r last)
    (hq : l.transfer.Loaded m) (hstate : l.transfer.state = .executing)
    (hp : P l.transfer.service l.world.1) (hs : l.toServer = []) :
    Fair.Progress (Stage access Q) (Finished Q) (n + r.length + 3) (l.step access (.tick now)) := by
  have hl := hq.stamped l.transfer.activity false
  obtain ⟨C, hexec, hclean⟩ := he.round.execute
  obtain ⟨more, t', w', heq, hcase⟩ := hexec _ l.world hl hp
  have hopen : ¬ ((l.transfer.stamped l.transfer.activity false).disconnected = true ∨
      (!access.present) = true) := by
    simp [hl.disconnected, he.round.present]
  have hstep : l.transfer.tick access now l.world =
      ({ t' with state := if more then .receiving else .cleanup }, w') := by
    rw [FileTransfer.tick_executing hstate, FileTransfer.executingStep, if_neg hopen]
    simp only [Logged.bind_apply, heq, Logged.pure_apply]
  simp only [Link.step, hstep]
  cases more with
  | true =>
    obtain ⟨hready, hp'⟩ := hcase
    refine .inr ⟨.sent, n + r.length + 1, by omega, ?_⟩
    exact .replying he.talks he.reply hpend.keep { hready with } rfl hp' hs
  | false =>
    obtain ⟨hsane, hzero, hstatus, hC⟩ := hcase
    refine .inr ⟨.tick, n + r.length + 2, by omega, ?_⟩
    exact .closing he.talks he.reply hpend.keep { hsane with } hzero rfl hstatus hC hclean hs

theorem advances_reading (ht : Talks access Q n P' last) (hc : Consumes l.client l.toClient last)
    (hne : l.toClient ≠ []) (hq : l.transfer.Collecting [] 0) (hp : P' l.transfer.service l.world.1)
    (hs : l.toServer = []) (hn : l.requests = l.replies) (count : Nat) :
    Advances access Q .client (n + l.toClient.length) l (.client count) := by
  obtain ⟨hpos, hle⟩ := hc.wanted hne
  by_cases hk : count = 0
  · refine (Stage.reading ht hc hne hq hp hs hn).unserved (idles_of_eq ?_) (by simp [Action.Serves, hk])
    simp only [Link.step, Link.clientStep, hk]
    split
    · next hsend => simp [hsend, Client.wanted] at hpos
    · simp
  generalize htaken : min count l.client.wanted = taken
  have hlen : (l.toClient.take taken).length = taken := by
    rw [List.length_take]
    omega
  have hstep : l.step access (.client count) =
      { l with client := l.client.arrive (l.toClient.take taken), toClient := l.toClient.drop taken } := by
    simp only [Link.step, Link.clientStep]
    split
    · next hsend => simp [hsend, Client.wanted] at hpos
    · rw [htaken, hlen, if_neg]
      intro hnil
      rw [hnil, List.length_nil] at hlen
      omega
  have hc' := hc.arrive (show 0 < taken by omega) (by omega) (by omega)
  rw [Advances, hstep]
  refine .inl ?_
  by_cases hrest : l.toClient.drop taken = []
  · rw [hrest] at hc' ⊢
    rw [hc'.eq_of_nil]
    rcases Talks.next (l := { l with client := last, toClient := [] }) ht hq hp hs rfl hn with hfin | hst
    · exact .inl hfin
    · exact .inr ⟨.client, n, by omega, hst⟩
  · refine .inr ⟨.client, n + (l.toClient.drop taken).length, ?_, ?_⟩
    · rw [List.length_drop]
      omega
    · exact Stage.reading (l := { l with
        client := l.client.arrive (l.toClient.take taken), toClient := l.toClient.drop taken }) ht hc' hrest hq hp
        hs hn

/-- The action waited for makes progress. -/
theorem Stage.advances (h : Stage access Q k n l) (ha : l.Timely a) : Advances access Q k n l a := by
  by_cases hkind : a.kind? = some k
  · cases h with
    | @asking _ n _ _ m r next _ he hc hclient hq hp hs htc hn =>
      cases a with
      | client i =>
        have hm := he.message.header
        have hstep : l.step access (.client i) =
            { l with client := next, toServer := m, requests := l.requests + 1 } := by
          simp only [Link.step, Link.clientStep, hclient, hs, List.nil_append]
        rw [Advances, hstep]
        refine .inl (.inr ⟨.feed, n + r.length + (m.length - 0) + 5, by omega, ?_⟩)
        exact .sending he ⟨hc, htc, by rw [hn]⟩ (hq.any m) hp rfl (Nat.lt_of_lt_of_le (by decide) hm)
      | _ => cases hkind
    | sending he hpend hq hp hs hi =>
      cases a with
      | feed i now => exact advances_sending he hpend hq hp hs hi i
      | _ => cases hkind
    | received he hpend hq hp hs =>
      cases a with
      | tick now =>
        have hl := hq.loaded he.message
        refine .inl (.inr ⟨.tick, _, Nat.lt_succ_self _, ?_⟩)
        simp only [Link.step, hq.tick_full (hq.received.trans hl.needed.symm) ha access l.world]
        exact .executing he hpend.keep { hl with } rfl hp hs
      | _ => cases hkind
    | executing he hpend hq hstate hp hs =>
      cases a with
      | tick now => exact .inl (advances_executing he hpend hq hstate hp hs)
      | _ => cases hkind
    | closing ht hne hpend hq hzero hstate hstatus hp hclean hs =>
      cases a with
      | tick now =>
        obtain ⟨t', w', heq, hready, hp'⟩ :=
          hclean _ l.world (hq.stamped l.transfer.activity false) hstatus hp
        have hstep : l.transfer.tick access now l.world = ({ t' with state := .receiving }, w') := by
          rw [FileTransfer.tick_cleanup hstate, FileTransfer.cleanupStep]
          simp only [Logged.bind_apply, heq, Logged.pure_apply]
        refine .inl (.inr ⟨.sent, _, Nat.lt_succ_self _, ?_⟩)
        simp only [Link.step, hstep]
        exact .replying ht hne hpend.keep { hready with } rfl hp' hs
      | _ => cases hkind
    | replying ht hne hpend hq hstate hp hs =>
      cases a with
      | sent now =>
        refine .inl (.inr ⟨.client, _, Nat.lt_succ_self _, ?_⟩)
        simp only [Link.step, hq.output, if_neg hne, hpend.toClient, List.nil_append]
        exact Stage.reading (l := { l with
          transfer := l.transfer.sent now, toClient := _, replies := l.replies + 1 }) ht hpend.consumes hne
          ⟨{ hq with malformed := rfl }, hstate, rfl, rfl, rfl, rfl⟩ hp hs hpend.requests
      | _ => cases hkind
    | reading ht hc hne hq hp hs hn =>
      cases a with
      | client i => exact advances_reading ht hc hne hq hp hs hn i
      | _ => cases hkind
  · refine h.unserved (h.idles ha hkind) ?_
    cases a <;> cases k <;> first | exact id | exact absurd rfl hkind

theorem Finished.step (h : Finished Q l) (ha : l.Timely a) : Finished Q (l.step access a) := by
  obtain ⟨⟨result, hclient, hresult⟩, hq, hs, hc, hn⟩ := h
  by_cases hturn : ∃ k, a = .client k
  · obtain ⟨k, rfl⟩ := hturn
    have hstep : l.step access (.client k) = l := by
      simp [Link.step, Link.clientStep, hclient, Client.wanted]
    rw [hstep]
    exact ⟨⟨result, hclient, hresult⟩, hq, hs, hc, hn⟩
  · obtain ⟨activity, operated, heq⟩ :=
      idles_quiet hq hs ha fun k hk => hturn ⟨k, hk⟩
    rw [heq]
    exact ⟨⟨result, hclient, hresult⟩, hq.stamped activity operated, hs, hc, hn⟩

/-- **A talking client comes to its end.** Under every fair schedule without a timeout it is done
at some time, with a result that satisfies `Q` and one reply for each request, and until then and
ever after it is in a stage of an exchange or finished. -/
theorem Talks.reaches (h : Talks access Q n P l.client) (hq : l.transfer.Collecting [] 0)
    (hp : P l.transfer.service l.world.1) (hs : l.toServer = []) (hc : l.toClient = [])
    (hn : l.requests = l.replies) {schedule : Nat → Action}
    (htime : ∀ i, (Fair.run (Link.step access) schedule l i).Timely (schedule i)) :
    (∀ i, Finished Q (Fair.run (Link.step access) schedule l i) ∨
      ∃ k n, Stage access Q k n (Fair.run (Link.step access) schedule l i)) ∧
    (Fair.Serves Action.Serves schedule →
      ∃ i, Finished Q (Fair.run (Link.step access) schedule l i)) := by
  have hstart := h.next hq hp hs hc hn
  refine ⟨fun i => ?_, fun hfair => ?_⟩
  · induction i with
    | zero => exact hstart.imp_right fun hst => ⟨_, _, hst⟩
    | succ i ih =>
      rcases ih with hfin | ⟨k, n, hst⟩
      · exact .inl (hfin.step (htime i))
      · rcases hst.advances (htime i) with hprog | ⟨hst', -⟩
        · exact hprog.imp_right fun ⟨k', n', _, hst'⟩ => ⟨k', n', hst'⟩
        · exact .inr ⟨_, _, hst'⟩
  · rcases hstart with hfin | hst
    · exact ⟨0, hfin⟩
    · obtain ⟨i, -, hfin⟩ := Fair.reaches hfair
        (fun i k n hst => Stage.advances hst (htime i)) n (i := 0) hst
      exact ⟨i, hfin⟩

end Step

end DaveOs.Storage
