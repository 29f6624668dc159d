import DaveOs.Command.Parse

/-!
# The grammar of a command line

`Line line ts` says that `line` is a whitespace-separated sequence of tokens with the unescaped texts
`ts`. The parser accepts exactly the lines of this grammar that fit its storage and returns their
texts (`parse_grammar`); quoting and joining any list of texts gives such a line (`line_encode`).
-/

namespace DaveOs.Command

open Bytes

variable {lineCapacity argumentCapacity : Nat}
variable {quoted : Bool} {line text rest : Bytes} {s : Storage lineCapacity argumentCapacity}
  {write : Nat} {c : UInt8} {tail : Bytes} {ts us : List Bytes}

/-- `c`, followed by `rest`, starts one of the escapes `\"` and `\\`. -/
def Escapes (c : UInt8) (rest : Bytes) : Prop :=
  c = backslash ∧ (rest.head? = some quote ∨ rest.head? = some backslash)

/-- `Chars quoted line text rest`: `line` starts with characters and escapes that stand for `text`,
and `rest` follows them. A backslash that starts no escape is an ordinary character. -/
inductive Chars (quoted : Bool) : Bytes → Bytes → Bytes → Prop
  | stop (rest : Bytes) : Chars quoted rest [] rest
  | escape {d : UInt8} {line text rest : Bytes} (hd : d = quote ∨ d = backslash)
      (h : Chars quoted line text rest) : Chars quoted (backslash :: d :: line) (d :: text) rest
  | plain {c : UInt8} {line text rest : Bytes} (hq : c ≠ quote) (he : ¬ Escapes c line)
      (hs : quoted = false → space c = false) (h : Chars quoted line text rest) :
      Chars quoted (c :: line) (c :: text) rest

/-- What follows a token: whitespace or the end of the line. -/
def Gap (rest : Bytes) : Prop := ∀ c, rest.head? = some c → space c = true

/-- `Token line text rest`: `line` starts with a token whose unescaped text is `text`, and `rest`
follows it. -/
inductive Token : Bytes → Bytes → Bytes → Prop
  | quoted {line text rest : Bytes} (h : Chars true line text (quote :: rest)) (hg : Gap rest) :
      Token (quote :: line) text rest
  | bare {line text rest : Bytes} (h : Chars false line text rest) (hne : line ≠ rest)
      (hg : Gap rest) : Token line text rest

/-- A whitespace-separated sequence of tokens. -/
inductive Line : Bytes → List Bytes → Prop
  | done : Line [] []
  | space {c : UInt8} {line : Bytes} {ts : List Bytes} (hc : space c = true) (h : Line line ts) :
      Line (c :: line) ts
  | token {line text rest : Bytes} {ts : List Bytes} (ht : Token line text rest)
      (h : Line rest ts) : Line line (text :: ts)

/-! ## Tokens -/

/-- How the characters of a token end: at its closing quote, or at a gap. -/
def Ends (quoted : Bool) (tail rest : Bytes) : Prop :=
  tail = (if quoted then quote :: rest else rest) ∧ Gap rest

theorem Chars.length_le (h : Chars quoted line text rest) :
    text.length + rest.length ≤ line.length := by
  induction h with
  | stop => simp
  | escape _ _ ih | plain _ _ _ _ ih => simp only [List.length_cons]; omega

theorem Chars.rest_lt (h : Chars quoted line text rest) (hne : line ≠ rest) :
    rest.length < line.length := by
  cases h with
  | stop => exact absurd rfl hne
  | escape _ h | plain _ _ _ h => have := h.length_le; simp only [List.length_cons]; omega

/-- Storing `c` and then `text` behind it stores `c :: text`. -/
theorem splice_set {d : Bytes} {i : Nat} (hi : i < d.length) (c : UInt8) (text : Bytes) :
    splice (d.set i c) (i + 1) text = splice d i (c :: text) := by
  have htake : (d.set i c).take (i + 1) = d.take i ++ [c] := by
    rw [List.take_add_one, List.take_set_of_le (Nat.le_refl i), List.getElem?_set_self hi]
    rfl
  unfold splice
  rw [htake, List.drop_set_of_lt (by omega), List.length_cons, Nat.add_right_comm i 1,
    Nat.add_assoc i]
  simp

theorem Storage.put_eq (h : write < lineCapacity) :
    s.put write c = some { s with buffer := s.buffer.set write c } := by
  simp [put, h]

theorem any_not_space_iff (rest : Bytes) :
    (rest.head?.any fun d => !space d) = false ↔ Gap rest := by
  cases rest <;> simp [Gap]

/-- A character that starts no escape is read as `unescaped` does. -/
theorem token_cons (he : ¬ Escapes c line) (write : Nat) (s : Storage lineCapacity argumentCapacity) :
    token quoted (c :: line) write s = unescaped quoted c line write s (token quoted line) := by
  cases line with
  | nil => rfl
  | cons d line =>
    have : ¬ (c = backslash ∧ (d = quote ∨ d = backslash)) := by
      simpa [Escapes] using he
    simp only [token, if_neg this]

theorem token_escape {d : UInt8} (hd : d = quote ∨ d = backslash) (write : Nat)
    (s : Storage lineCapacity argumentCapacity) : token quoted (backslash :: d :: line) write s =
      (s.put write d).bind (token quoted line (write + 1)) := by
  rw [token, if_pos ⟨rfl, hd⟩]

theorem token_of_chars (h : Chars quoted line text tail) :
    ∀ {rest : Bytes}, Ends quoted tail rest → ∀ (write : Nat)
      (s : Storage lineCapacity argumentCapacity), write + line.length ≤ lineCapacity →
    ∃ b : Vector UInt8 lineCapacity, b.toList = splice s.buffer.toList write text ∧
      token quoted line write s = some ⟨.ok, rest, write + text.length, { s with buffer := b }⟩ := by
  induction h with
  | stop tail =>
    rintro rest ⟨htail, hg⟩ write s _
    refine ⟨s.buffer, by simp [splice], ?_⟩
    cases quoted with
    | true =>
      have he : ¬ Escapes quote rest := fun h => absurd h.1 (by decide)
      rw [htail, if_pos rfl, token_cons he]
      simp [unescaped, (any_not_space_iff rest).2 hg]
    | false =>
      rw [htail]
      simp only [Bool.false_eq_true, if_false]
      cases rest with
      | nil => rfl
      | cons c rest =>
        have hc : space c = true := hg c rfl
        have he : ¬ Escapes c rest := by
          rintro ⟨rfl, -⟩
          exact absurd hc (by decide)
        have hq : c ≠ quote := by
          rintro rfl
          exact absurd hc (by decide)
        rw [token_cons he]
        simp [unescaped, hq, hc]
  | @escape d line text tail hd _ ih =>
    intro rest hends write s hfit
    simp only [List.length_cons] at hfit
    obtain ⟨b, hb, ht⟩ := ih hends (write + 1) { s with buffer := s.buffer.set write d } (by omega)
    refine ⟨b, ?_, ?_⟩
    · rw [hb, Vector.toList_set, splice_set (by simpa using by omega)]
    · rw [token_escape hd, Storage.put_eq (by omega), Option.bind_some, ht]
      simp [Nat.add_assoc, Nat.add_comm 1]
  | @plain c line text tail hq he hs _ ih =>
    intro rest hends write s hfit
    simp only [List.length_cons] at hfit
    obtain ⟨b, hb, ht⟩ := ih hends (write + 1) { s with buffer := s.buffer.set write c } (by omega)
    refine ⟨b, ?_, ?_⟩
    · rw [hb, Vector.toList_set, splice_set (by simpa using by omega)]
    · have hc : ¬ ((!quoted) = true ∧ space c = true) := by
        rintro ⟨h₁, h₂⟩
        simp [hs (by simpa using h₁)] at h₂
      rw [token_cons he, unescaped, if_neg hq, if_neg hc, Storage.put_eq (by omega),
        Option.bind_some, ht]
      simp [Nat.add_assoc, Nat.add_comm 1]

/-- The token loop stays inside the buffer, and what it accepts is a token's characters. -/
theorem token_sound (quoted : Bool) : ∀ (line : Bytes) (write : Nat)
    (s : Storage lineCapacity argumentCapacity), write + line.length ≤ lineCapacity →
    ∃ r, token quoted line write s = some r ∧
      (r.status = .ok → ∃ text tail, Chars quoted line text tail ∧ Ends quoted tail r.rest)
  | [], write, s, _ => by
    refine ⟨_, rfl, fun hok => ⟨[], [], .stop [], ?_⟩⟩
    cases quoted with
    | true => exact absurd hok (by simp)
    | false => exact ⟨rfl, fun c hc => absurd hc (by simp)⟩
  | c :: line, write, s, hfit => by
    simp only [List.length_cons] at hfit
    by_cases he : Escapes c line
    · obtain ⟨rfl, hhead⟩ := he
      obtain ⟨d, line, rfl, hd⟩ : ∃ d rest, line = d :: rest ∧ (d = quote ∨ d = backslash) := by
        cases line with
        | nil => simp at hhead
        | cons d rest => exact ⟨d, rest, rfl, by simpa using hhead⟩
      simp only [List.length_cons] at hfit
      obtain ⟨r, hr, hok⟩ := token_sound quoted line (write + 1)
        { s with buffer := s.buffer.set write d } (by omega)
      refine ⟨r, by rw [token_escape hd, Storage.put_eq (by omega), Option.bind_some, hr], ?_⟩
      intro h
      obtain ⟨text, tail, hc, hends⟩ := hok h
      exact ⟨d :: text, tail, .escape hd hc, hends⟩
    · rw [token_cons he, unescaped]
      by_cases hq : c = quote
      · subst hq
        rw [if_pos rfl]
        cases quoted with
        | false => exact ⟨_, rfl, fun h => absurd h (by simp)⟩
        | true =>
          by_cases hg : Gap line
          · have := (any_not_space_iff line).2 hg
            exact ⟨_, by simp [this]; rfl, fun _ => ⟨[], _, .stop _, rfl, hg⟩⟩
          · have : (line.head?.any fun d => !space d) = true := by
              simpa using mt (any_not_space_iff line).1 hg
            exact ⟨_, by simp [this]; rfl, fun h => absurd h (by simp)⟩
      · rw [if_neg hq]
        by_cases hs : (!quoted) = true ∧ space c = true
        · rw [if_pos hs]
          refine ⟨_, rfl, fun _ => ⟨[], _, .stop _, ?_, ?_⟩⟩
          · simp [show quoted = false by simpa using hs.1]
          · intro d hd
            rw [← Option.some.inj hd]
            exact hs.2
        · obtain ⟨r, hr, hok⟩ := token_sound quoted line (write + 1)
            { s with buffer := s.buffer.set write c } (by omega)
          rw [if_neg hs, Storage.put_eq (by omega), Option.bind_some]
          refine ⟨r, hr, fun h => ?_⟩
          obtain ⟨text, tail, hc, hends⟩ := hok h
          exact ⟨c :: text, tail, .plain hq he (fun h' => by simpa [h'] using hs) hc, hends⟩
termination_by line => line.length

/-! ## Lines -/

/-- The arguments stored so far are `ts`, in the first `write` bytes of the buffer. -/
structure Stored (s : Storage lineCapacity argumentCapacity) (write : Nat) (ts : List Bytes) :
    Prop where
  texts : s.texts = ts
  argc : s.argc = ts.length
  views : ∀ view ∈ s.arguments.toList.take s.argc, view.1 + view.2 ≤ write

theorem Stored.push (h : Stored s write ts) {b : Vector UInt8 lineCapacity}
    (hb : b.toList = splice s.buffer.toList write text) (hfit : write + text.length ≤ lineCapacity)
    (hargc : s.argc < argumentCapacity) :
    ∃ s', ({ s with buffer := b } : Storage lineCapacity argumentCapacity).push
        (write, text.length) = some s' ∧ Stored s' (write + text.length) (ts ++ [text]) := by
  have hold : (s.arguments.toList.take s.argc).map
      (fun view => slice b.toList view.1 view.2) = ts := by
    rw [← h.texts, Storage.texts]
    refine List.map_congr_left fun view hv => ?_
    rw [hb, slice_splice_before (by simpa using hfit) (h.views view hv)]
  have hnew : slice b.toList write text.length = text := by
    rw [hb, slice_splice_self rfl (by simpa using hfit)]
  have htake : ((s.arguments.set s.argc (write, text.length)).toList.take (s.argc + 1)) =
      s.arguments.toList.take s.argc ++ [(write, text.length)] := by
    rw [Vector.toList_set, List.take_add_one, List.take_set_of_le (Nat.le_refl _),
      List.getElem?_set_self (by simpa using hargc)]
    rfl
  refine ⟨⟨b, s.arguments.set s.argc (write, text.length), s.argc + 1⟩,
    by simp [Storage.push, hargc], ?_, by simp [h.argc], ?_⟩
  · rw [Storage.texts, htake, List.map_append, hold]
    simp [hnew]
  · intro view hv
    rw [htake, List.mem_append, List.mem_singleton] at hv
    rcases hv with hv | rfl
    · have := h.views view hv
      omega
    · exact Nat.le_refl _

theorem Token.length_le (h : Token line text rest) :
    text.length + rest.length ≤ line.length ∧ rest.length < line.length := by
  cases h with
  | quoted h _ =>
    have := h.length_le
    simp only [List.length_cons] at this ⊢
    omega
  | bare h hne _ => exact ⟨h.length_le, h.rest_lt hne⟩

/-- A token and what the loop over its characters is given: a quoted one without its quote. -/
theorem Token.chars (h : Token line text rest) : ∃ c l, line = c :: l ∧ space c = false ∧
      ∃ tail, Chars (c == quote) (if c == quote then l else c :: l) text tail ∧
        Ends (c == quote) tail rest := by
  cases h with
  | @quoted l _ _ h hg => exact ⟨quote, l, rfl, by decide, _, h, rfl, hg⟩
  | bare h hne hg =>
    cases h with
    | stop => exact absurd rfl hne
    | @escape d l text _ hd h =>
      exact ⟨backslash, d :: l, rfl, by decide, rest, .escape hd h, rfl, hg⟩
    | @plain c l text _ hq he hs h =>
      have hq' : (c == quote) = false := by simpa using hq
      refine ⟨c, l, rfl, hs rfl, rest, ?_⟩
      rw [hq']
      exact ⟨.plain hq he hs h, rfl, hg⟩

/-- What the token loop accepts, from a first character that is not whitespace, is a token. -/
theorem Token.of_chars (hc : space c = false)
    (h : Chars (c == quote) (if c == quote then line else c :: line) text tail)
    (hends : Ends (c == quote) tail rest) : Token (c :: line) text rest := by
  obtain ⟨rfl, hg⟩ := hends
  by_cases hq : c = quote
  · subst hq
    exact .quoted h hg
  · have hq' : (c == quote) = false := by simpa using hq
    rw [hq'] at h
    refine .bare h ?_ hg
    rintro rfl
    exact absurd (hg c rfl) (by simp [hc])

/-- One iteration of the line loop on a token that fits: its text is appended to the arguments. -/
theorem tokens_token (ht : Token line text rest) (fuel : Nat) (hs : Stored s write us)
    (hfit : write + line.length ≤ lineCapacity) (hargc : s.argc < argumentCapacity) :
    ∃ s', tokens (fuel + 1) line write s = tokens fuel rest (write + text.length) s' ∧
      Stored s' (write + text.length) (us ++ [text]) := by
  have hlen := ht.length_le
  obtain ⟨c, l, rfl, hc, tail, hchars, hends⟩ := ht.chars
  have hinner : (if c == quote then l else c :: l).length ≤ l.length + 1 := by split <;> simp
  simp only [List.length_cons] at hfit hlen
  obtain ⟨b, hb, htoken⟩ := token_of_chars hchars hends write s (by omega)
  obtain ⟨s', hpush, hs'⟩ := hs.push hb (by omega) hargc
  refine ⟨s', ?_, hs'⟩
  simp only [tokens, hc, Bool.false_eq_true, if_false, if_neg (Nat.ne_of_lt hargc), htoken,
    Option.bind_some, ne_eq, not_true_eq_false, Nat.add_sub_cancel_left, hpush]

/-- The line loop accepts every line of the grammar that fits, and stores its texts. -/
theorem tokens_of_line (h : Line line ts) :
    ∀ {fuel write : Nat} {s : Storage lineCapacity argumentCapacity} {us : List Bytes},
      line.length < fuel → write + line.length ≤ lineCapacity →
      us.length + ts.length ≤ argumentCapacity → Stored s write us →
    ∃ s', tokens fuel line write s = some (.ok, s') ∧ s'.texts = us ++ ts := by
  induction h with
  | done =>
    intro fuel write s us hfuel _ _ hs
    obtain ⟨fuel, rfl⟩ := Nat.exists_eq_add_one.2 hfuel
    exact ⟨s, rfl, by simp [hs.texts]⟩
  | @space c line ts hc _ ih =>
    intro fuel write s us hfuel hfit hargc hs
    simp only [List.length_cons] at hfuel hfit
    obtain ⟨fuel, rfl⟩ := Nat.exists_eq_add_one.2 (Nat.zero_lt_of_lt hfuel)
    rw [tokens, if_pos hc]
    exact ih (by omega) (by omega) hargc hs
  | @token line text rest ts ht _ ih =>
    intro fuel write s us hfuel hfit hargc hs
    obtain ⟨fuel, rfl⟩ := Nat.exists_eq_add_one.2 (Nat.zero_lt_of_lt hfuel)
    have hlen := ht.length_le
    rw [List.length_cons] at hargc
    obtain ⟨s', hstep, hs'⟩ := tokens_token ht fuel hs hfit (by rw [hs.argc]; omega)
    obtain ⟨s'', hrest, htexts⟩ := ih (show rest.length < fuel by omega) (by omega)
      (by simp only [List.length_append, List.length_singleton]; omega) hs'
    exact ⟨s'', hstep.trans hrest, by rw [htexts, List.append_assoc]; rfl⟩

/-- The line loop stays inside its storage and ends, and what it accepts is a line of the grammar
with no more tokens than the argument array has entries. -/
theorem tokens_sound : ∀ {fuel : Nat} {line : Bytes} {write : Nat}
    {s : Storage lineCapacity argumentCapacity} {us : List Bytes}, line.length < fuel →
    write + line.length ≤ lineCapacity → us.length ≤ argumentCapacity → Stored s write us →
    ∃ status s', tokens fuel line write s = some (status, s') ∧
      (status = .ok → ∃ ts, Line line ts ∧ us.length + ts.length ≤ argumentCapacity) := by
  intro fuel
  induction fuel with
  | zero => intro line _ _ _ h; omega
  | succ fuel ih =>
    intro line write s us hfuel hfit hargc hs
    cases line with
    | nil => exact ⟨_, s, rfl, fun _ => ⟨[], .done, hargc⟩⟩
    | cons c line =>
      simp only [List.length_cons] at hfuel hfit
      by_cases hc : space c = true
      · obtain ⟨status, s', hr, hok⟩ := ih (show line.length < fuel by omega) (by omega) hargc hs
        refine ⟨status, s', by rw [tokens, if_pos hc, hr], fun h => ?_⟩
        obtain ⟨ts, hl, hn⟩ := hok h
        exact ⟨ts, .space hc hl, hn⟩
      by_cases hfull : s.argc = argumentCapacity
      · refine ⟨.tooManyArguments, s, ?_, fun h => absurd h (by simp)⟩
        rw [tokens, if_neg hc, if_pos hfull]
      have hinner : (if c == quote then line else c :: line).length ≤ line.length + 1 := by
        split <;> simp
      obtain ⟨r, hr, hok⟩ := token_sound (c == quote)
        (if c == quote then line else c :: line) write s (by omega)
      by_cases hst : r.status = .ok
      · obtain ⟨text, tail, hchars, hends⟩ := hok hst
        have ht := Token.of_chars (by simpa using hc) hchars hends
        have hlen := ht.length_le
        simp only [List.length_cons] at hlen
        have hroom : us.length < argumentCapacity := by
          have := hs.argc
          omega
        obtain ⟨s', hstep, hs'⟩ := tokens_token ht fuel hs hfit (by rw [hs.argc]; omega)
        obtain ⟨status, s'', hrest, hline⟩ := ih (show r.rest.length < fuel by omega)
          (by omega)
          (by simp only [List.length_append, List.length_singleton]; omega) hs'
        refine ⟨status, s'', hstep.trans hrest, fun h => ?_⟩
        obtain ⟨ts, hl, hn⟩ := hline h
        refine ⟨text :: ts, .token ht hl, ?_⟩
        simp only [List.length_append, List.length_cons, List.length_nil] at hn ⊢
        omega
      · refine ⟨r.status, r.storage, ?_, fun h => absurd h hst⟩
        simp only [tokens, if_neg hc, if_neg hfull, hr, Option.bind_some, ne_eq, hst,
          not_false_eq_true, if_true]

/-! ## Quoting -/

/-- `text` with its quotes and backslashes escaped. -/
def escape (text : Bytes) : Bytes :=
  text.flatMap fun c => if c = quote ∨ c = backslash then [backslash, c] else [c]

/-- Each text quoted and escaped, joined with spaces. -/
def encode (ts : List Bytes) : Bytes :=
  List.intercalate [32] (ts.map fun text => quote :: escape text ++ [quote])

theorem encode_singleton (text : Bytes) : encode [text] = quote :: (escape text ++ [quote]) := by
  simp [encode]

theorem encode_cons_cons (text next : Bytes) (ts : List Bytes) :
    encode (text :: next :: ts) = quote :: (escape text ++ quote :: 32 :: encode (next :: ts)) := by
  simp only [encode, List.map_cons, List.intercalate_cons_cons]
  simp

theorem chars_escape (text rest : Bytes) :
    Chars true (escape text ++ quote :: rest) text (quote :: rest) := by
  induction text with
  | nil => exact .stop _
  | cons c text ih =>
    by_cases hc : c = quote ∨ c = backslash
    · have : escape (c :: text) = backslash :: c :: escape text := by simp [escape, hc]
      rw [this]
      exact .escape hc ih
    · have : escape (c :: text) = c :: escape text := by simp [escape, hc]
      rw [this]
      have hne : ¬ (c = quote) ∧ ¬ (c = backslash) := not_or.1 hc
      exact .plain hne.1 (fun h => hne.2 h.1) (fun h => Bool.noConfusion h) ih

theorem line_encode (ts : List Bytes) : Line (encode ts) ts := by
  induction ts with
  | nil => exact .done
  | cons text ts ih =>
    cases ts with
    | nil =>
      rw [encode_singleton]
      exact .token (.quoted (chars_escape text []) fun c hc => absurd hc (by simp)) .done
    | cons next ts =>
      rw [encode_cons_cons]
      have hgap : Gap (32 :: encode (next :: ts)) := fun c hc => by
        rw [← Option.some.inj hc]
        decide
      exact .token (.quoted (chars_escape text _) hgap) (.space (by decide) ih)

theorem zero_notMem_escape (h : (0 : UInt8) ∉ text) : (0 : UInt8) ∉ escape text := by
  intro hmem
  obtain ⟨c, hc, h0⟩ := List.mem_flatMap.1 hmem
  have hne : (0 : UInt8) ≠ c := fun h' => h (h' ▸ hc)
  split at h0 <;> simp [hne, backslash] at h0

theorem zero_notMem_encode (h : ∀ text ∈ ts, (0 : UInt8) ∉ text) : (0 : UInt8) ∉ encode ts := by
  have hquote : (0 : UInt8) ≠ quote := by decide
  induction ts with
  | nil => exact List.not_mem_nil
  | cons text ts ih =>
    have htext := zero_notMem_escape (h text (by simp))
    have ih := ih fun t ht => h t (by simp [ht])
    cases ts with
    | nil => simp [encode_singleton, htext, hquote]
    | cons next ts => simp [encode_cons_cons, htext, ih, hquote]

/-! ## The parser and the grammar -/

theorem stored_nil (s : Storage lineCapacity argumentCapacity) (h : s.argc = 0) : Stored s 0 [] :=
  ⟨by simp [Storage.texts, h], h, fun view hv => absurd hv (by simp [h])⟩

/-- A line has one sequence of texts: the one the loop stores when it has room for both. -/
theorem Line.unique (ht : Line line ts) (hu : Line line us) : ts = us := by
  let s : Storage line.length (ts.length + us.length) :=
    ⟨Vector.replicate _ 0, Vector.replicate _ (0, 0), 0⟩
  obtain ⟨s₁, h₁, ht₁⟩ := tokens_of_line ht (Nat.lt_succ_self _) (by omega) (by simp)
    (stored_nil s rfl)
  obtain ⟨s₂, h₂, hu₂⟩ := tokens_of_line hu (Nat.lt_succ_self _) (by omega) (by simp)
    (stored_nil s rfl)
  obtain ⟨-, rfl⟩ := Prod.mk.inj (Option.some.inj (h₁.symm.trans h₂))
  exact ht₁.symm.trans hu₂

/-- The parser never leaves its storage. It accepts exactly the NUL-free lines of the grammar that
fit the two capacities and returns their texts; in particular it returns any list of NUL-free texts
whose quoted form fits. -/
theorem parse_grammar (line : Bytes) (s : Storage lineCapacity argumentCapacity) :
    ∃ status s', parse line s = some (status, s') ∧
      (status = .ok ↔ (0 : UInt8) ∉ line ∧ line.length ≤ lineCapacity ∧
        ∃ ts, Line line ts ∧ ts.length ≤ argumentCapacity) ∧
      (status = .ok → ∀ ts, Line line ts ↔ s'.texts = ts) ∧
      (∀ ts, line = encode ts → (∀ text ∈ ts, (0 : UInt8) ∉ text) →
        line.length ≤ lineCapacity → ts.length ≤ argumentCapacity →
        status = .ok ∧ s'.texts = ts) := by
  by_cases hlong : line.length > lineCapacity
  · refine ⟨.lineTooLong, s, by rw [parse, if_pos hlong], ?_, fun h => absurd h (by simp), ?_⟩
    · exact ⟨fun h => absurd h (by simp), fun h => absurd h.2.1 (by omega)⟩
    · intro ts _ _ hfit
      omega
  by_cases hzero : (0 : UInt8) ∈ line
  · refine ⟨.parseError, s, ?_, ?_, fun h => absurd h (by simp), ?_⟩
    · rw [parse, if_neg hlong, if_pos (List.contains_iff_mem.2 hzero)]
    · exact ⟨fun h => absurd h (by simp), fun h => absurd hzero h.1⟩
    · rintro ts rfl hts
      exact absurd hzero (zero_notMem_encode hts)
  have hrun : parse line s = tokens (line.length + 1) line 0 { s with argc := 0 } := by
    rw [parse, if_neg hlong, if_neg (mt List.contains_iff_mem.1 hzero)]
  have hstored := stored_nil { s with argc := 0 } rfl
  obtain ⟨status, s', hr, hsound⟩ := tokens_sound (Nat.lt_succ_self line.length)
    (by omega) (Nat.zero_le _) hstored
  -- a line of the grammar with few enough tokens is accepted with its texts
  have hcomplete : ∀ ts, Line line ts → ts.length ≤ argumentCapacity →
      status = .ok ∧ s'.texts = ts := by
    intro ts hl hn
    obtain ⟨s'', hr', htexts⟩ := tokens_of_line hl (Nat.lt_succ_self _) (by omega)
      (by simpa using hn) hstored
    obtain ⟨rfl, rfl⟩ := Prod.mk.inj (Option.some.inj (hr.symm.trans hr'))
    exact ⟨rfl, by simpa using htexts⟩
  have hline : status = .ok → Line line s'.texts ∧ s'.texts.length ≤ argumentCapacity := by
    intro h
    obtain ⟨ts, hl, hn⟩ := hsound h
    have hn : ts.length ≤ argumentCapacity := by simpa using hn
    rw [(hcomplete ts hl hn).2]
    exact ⟨hl, hn⟩
  refine ⟨status, s', hrun.trans hr, ⟨fun h => ?_, ?_⟩, fun h ts => ⟨?_, ?_⟩, ?_⟩
  · exact ⟨hzero, by omega, s'.texts, hline h⟩
  · rintro ⟨-, -, ts, hl, hn⟩
    exact (hcomplete ts hl hn).1
  · exact (hline h).1.unique
  · rintro rfl
    exact (hline h).1
  · rintro ts rfl - - hn
    exact hcomplete ts (line_encode ts) hn

-- `a "b \"" \` has the texts `a`, `b "` and `\`
example : (parse [97, 32, 34, 98, 32, 92, 34, 34, 32, 92]
      (⟨Vector.replicate 10 0, Vector.replicate 3 (0, 0), 0⟩ : Storage 10 3)).map
      (fun r => (r.1, r.2.texts)) =
    some (.ok, [[97], [98, 32, 34], [92]]) := by
  decide

end DaveOs.Command
