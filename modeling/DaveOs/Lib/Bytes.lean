import Mathlib

/-!
# Byte strings

Fixed-format records are byte strings with fields at fixed places: `slice` reads a field, `splice`
overwrites one, and `leNat`/`leBytes` give a field its little-endian value. A field reads back what
was last written over it and is not changed by a write elsewhere (`slice_splice_self`,
`slice_splice_before`, `slice_splice_after`).
-/

abbrev Bytes := List UInt8

namespace Bytes

variable {n : Nat} {v : UInt8} {d : Bytes} {pos : Nat} {e : Bytes} {i m : Nat} {src : Bytes}
  {p : Nat}

/-- The `n` bytes of `d` from `pos`. -/
def slice (d : Bytes) (pos n : Nat) : Bytes := (d.drop pos).take n

/-- `d` with `src` written over it from `pos`. -/
def splice (d : Bytes) (pos : Nat) (src : Bytes) : Bytes :=
  d.take pos ++ src ++ d.drop (pos + src.length)

/-- The little-endian value of a byte string. -/
def leNat : Bytes → Nat
  | [] => 0
  | b :: bs => b.toNat + 256 * leNat bs

/-- The `n` little-endian bytes of `v`. -/
def leBytes : Nat → Nat → Bytes
  | 0, _ => []
  | n + 1, v => UInt8.ofNat v :: leBytes n (v / 256)

/-! ## Little-endian values -/

theorem leBytes_zero (n : Nat) : leBytes n 0 = List.replicate n 0 := by
  induction n with
  | zero => rfl
  | succ n ih => rw [leBytes, Nat.zero_div, ih, List.replicate_succ]; rfl

@[simp] theorem length_leBytes (n v : Nat) : (leBytes n v).length = n := by
  induction n generalizing v with
  | zero => rfl
  | succ n ih => simp [leBytes, ih]

theorem leNat_lt (bs : Bytes) : leNat bs < 256 ^ bs.length := by
  induction bs with
  | nil => simp [leNat]
  | cons b bs ih =>
    have hb : b.toNat < 256 := b.toNat_lt
    simp only [leNat, List.length_cons, Nat.pow_succ]
    omega

theorem leNat_leBytes {v : Nat} (h : v < 256 ^ n) : leNat (leBytes n v) = v := by
  induction n generalizing v with
  | zero =>
    have : v = 0 := by simpa using h
    simp [leBytes, leNat, this]
  | succ n ih =>
    have hv : v / 256 < 256 ^ n := by
      rw [Nat.pow_succ] at h
      exact Nat.div_lt_of_lt_mul (by omega)
    simp only [leBytes, leNat, ih hv, UInt8.toNat_ofNat']
    omega

theorem leBytes_leNat (bs : Bytes) : leBytes bs.length (leNat bs) = bs := by
  induction bs with
  | nil => rfl
  | cons b bs ih =>
    have hb : b.toNat < 256 := b.toNat_lt
    have h1 : (b.toNat + 256 * leNat bs) / 256 = leNat bs := by omega
    have h2 : UInt8.ofNat (b.toNat + 256 * leNat bs) = b := by
      apply UInt8.toNat_inj.mp
      rw [UInt8.toNat_ofNat']
      omega
    simp only [List.length_cons, leBytes, leNat, h1, h2, ih]

theorem leNat_inj {a b : Bytes} (hl : a.length = b.length) (h : leNat a = leNat b) : a = b := by
  rw [← leBytes_leNat a, ← leBytes_leNat b, hl, h]

/-! ## Slices -/

theorem length_slice (h : pos + n ≤ d.length) : (slice d pos n).length = n := by
  simp only [slice, List.length_take, List.length_drop]
  omega

theorem getElem?_slice (d : Bytes) (pos n i : Nat) :
    (slice d pos n)[i]? = if i < n then d[pos + i]? else none := by
  simp only [slice, List.getElem?_take, List.getElem?_drop]

theorem slice_congr (h : ∀ i, pos ≤ i → i < pos + n → d[i]? = e[i]?) :
    slice d pos n = slice e pos n := by
  apply List.ext_getElem?
  intro i
  simp only [getElem?_slice]
  split
  · exact h _ (by omega) (by omega)
  · rfl

theorem getElem?_of_slice_eq (h : slice d pos n = slice e pos n) (hl : pos ≤ i) (hr : i < pos + n) :
    d[i]? = e[i]? := by
  have := congrArg (fun l : Bytes => l[i - pos]?) h
  simp only [getElem?_slice] at this
  rwa [if_pos (by omega), if_pos (by omega), show pos + (i - pos) = i by omega] at this

@[simp] theorem slice_zero (d : Bytes) (n : Nat) : slice d 0 n = d.take n := by
  simp [slice]

theorem slice_append_slice (d : Bytes) (pos m n : Nat) :
    slice d pos m ++ slice d (pos + m) n = slice d pos (m + n) := by
  simp only [slice, ← List.drop_drop, ← List.take_add]

theorem slice_take (h : pos + n ≤ m) : slice (d.take m) pos n = slice d pos n := by
  apply slice_congr
  intro i _ hi
  rw [List.getElem?_take, if_pos (by omega)]

theorem slice_set_ne (h : i < pos ∨ pos + n ≤ i) : slice (d.set i v) pos n = slice d pos n := by
  apply slice_congr
  intro j _ _
  rw [List.getElem?_set_ne (by omega)]

theorem slice_set_mem (h1 : pos ≤ i) (h2 : i < pos + n) (hi : i < d.length) (hv : d[i] ≠ v) :
    slice (d.set i v) pos n ≠ slice d pos n := by
  intro heq
  have := getElem?_of_slice_eq heq h1 h2
  rw [List.getElem?_set_self hi, List.getElem?_eq_getElem hi] at this
  exact hv (Option.some.inj this).symm

/-! ## Splices -/

theorem length_splice (h : pos + src.length ≤ d.length) : (splice d pos src).length = d.length := by
  simp only [splice, List.length_append, List.length_take, List.length_drop]
  omega

theorem getElem?_splice (h : pos + src.length ≤ d.length) (i : Nat) : (splice d pos src)[i]? =
      if pos ≤ i ∧ i < pos + src.length then src[i - pos]? else d[i]? := by
  unfold splice
  rcases Nat.lt_or_ge i pos with h1 | h1
  · rw [List.append_assoc, List.getElem?_append_left (by simp; omega), List.getElem?_take,
      if_pos h1, if_neg (by omega)]
  · rcases Nat.lt_or_ge i (pos + src.length) with h2 | h2
    · rw [List.append_assoc, List.getElem?_append_right (by simp; omega),
        List.getElem?_append_left (by simp; omega), if_pos ⟨h1, h2⟩]
      congr 1
      simp
      omega
    · rw [List.getElem?_append_right (by simp; omega), List.getElem?_drop, if_neg (by omega)]
      congr 1
      simp
      omega

theorem slice_splice_self (hn : src.length = n) (h : pos + n ≤ d.length) :
    slice (splice d pos src) pos n = src := by
  subst hn
  apply List.ext_getElem?
  intro i
  rw [getElem?_slice, getElem?_splice h]
  by_cases hi : i < src.length
  · rw [if_pos hi, if_pos ⟨by omega, by omega⟩, Nat.add_sub_cancel_left]
  · rw [if_neg hi, List.getElem?_eq_none (by omega)]

theorem slice_splice_before (h : pos + src.length ≤ d.length) (hp : p + n ≤ pos) :
    slice (splice d pos src) p n = slice d p n := by
  apply slice_congr
  intro i _ _
  rw [getElem?_splice h, if_neg (by omega)]

theorem slice_splice_after (h : pos + src.length ≤ d.length) (hp : pos + src.length ≤ p) :
    slice (splice d pos src) p n = slice d p n := by
  apply slice_congr
  intro i _ _
  rw [getElem?_splice h, if_neg (by omega)]

theorem slice_splice_inside (h : pos + src.length ≤ d.length) (hp : pos ≤ p)
    (hn : p + n ≤ pos + src.length) : slice (splice d pos src) p n = slice src (p - pos) n := by
  apply List.ext_getElem?
  intro i
  simp only [getElem?_slice]
  split
  · rw [getElem?_splice h, if_pos ⟨by omega, by omega⟩]
    congr 1
    omega
  · rfl

theorem take_splice_inside (h : pos + src.length ≤ m) (hm : m ≤ d.length) :
    (splice d pos src).take m = splice (d.take m) pos src := by
  have hlen : (d.take pos ++ src).length = pos + src.length := by
    rw [List.length_append, List.length_take, Nat.min_eq_left (by omega)]
  rw [splice, splice, List.take_append, hlen, List.take_of_length_le (by omega), List.take_take,
    Nat.min_eq_left (by omega), List.drop_take]

theorem take_splice (h : pos + src.length ≤ d.length) (hm : m ≤ pos) :
    (splice d pos src).take m = d.take m := by
  simpa using slice_splice_before (p := 0) (n := m) h (by omega)

end Bytes

namespace Bytes

variable {d : Bytes} {fields : List (Nat × Bytes)} {pos n : Nat}

/-! ## Records of fields -/

/-- `d` with each field written over it in turn; a field is a place and its bytes. -/
def writes (d : Bytes) (fields : List (Nat × Bytes)) : Bytes :=
  fields.foldl (fun d f => splice d f.1 f.2) d

/-- The extent `[pos, pos + len)` of each field. -/
def extents (fields : List (Nat × Bytes)) : List (Nat × Nat) :=
  fields.map fun f => (f.1, f.2.length)

def Apart (x y : Nat × Nat) : Prop := x.1 + x.2 ≤ y.1 ∨ y.1 + y.2 ≤ x.1

instance (x y : Nat × Nat) : Decidable (Apart x y) := inferInstanceAs (Decidable (_ ∨ _))

theorem length_writes (h : ∀ f ∈ fields, f.1 + f.2.length ≤ d.length) :
    (writes d fields).length = d.length := by
  induction fields generalizing d with
  | nil => rfl
  | cons f fs ih =>
    have hl := length_splice (h f List.mem_cons_self)
    simp only [writes, List.foldl_cons] at ih ⊢
    rw [ih (fun g hg => by rw [hl]; exact h g (List.mem_cons_of_mem _ hg)), hl]

theorem slice_writes_apart (h : ∀ f ∈ fields, f.1 + f.2.length ≤ d.length)
    (ha : ∀ f ∈ fields, Apart (f.1, f.2.length) (pos, n)) :
    slice (writes d fields) pos n = slice d pos n := by
  induction fields generalizing d with
  | nil => rfl
  | cons f fs ih =>
    have hf := h f List.mem_cons_self
    have hl := length_splice hf
    simp only [writes, List.foldl_cons] at ih ⊢
    rw [ih (fun g hg => by rw [hl]; exact h g (List.mem_cons_of_mem _ hg))
      (fun g hg => ha g (List.mem_cons_of_mem _ hg))]
    rcases ha f List.mem_cons_self with h1 | h1
    · exact slice_splice_after hf h1
    · exact slice_splice_before hf h1

/-- **A field reads back** when the fields lie inside the record and do not overlap. -/
theorem slice_writes_mem {src : Bytes} (h : ∀ x ∈ extents fields, x.1 + x.2 ≤ d.length)
    (hp : (extents fields).Pairwise Apart) (hm : (pos, src) ∈ fields) (hn : src.length = n) :
    slice (writes d fields) pos n = src := by
  subst hn
  induction fields generalizing d with
  | nil => simp at hm
  | cons f fs ih =>
    have hin : ∀ g ∈ f :: fs, g.1 + g.2.length ≤ d.length :=
      fun g hg => h _ (List.mem_map_of_mem hg)
    have hf := hin f List.mem_cons_self
    have hl := length_splice hf
    simp only [extents, List.map_cons, List.pairwise_cons] at hp
    rcases List.mem_cons.1 hm with rfl | hm
    · have hrest : slice (writes (splice d pos src) fs) pos src.length =
          slice (splice d pos src) pos src.length := by
        apply slice_writes_apart
        · intro g hg
          rw [hl]
          exact hin g (List.mem_cons_of_mem _ hg)
        · intro g hg
          exact (hp.1 _ (List.mem_map_of_mem hg)).symm
      exact hrest.trans (slice_splice_self rfl hf)
    · refine ih ?_ hp.2 hm
      intro x hx
      rw [hl]
      exact h x (List.mem_cons_of_mem _ hx)

end Bytes

namespace Bytes

variable {n : Nat} {fields : List (Nat × Bytes)} {d : Bytes} {i : Nat}

/-- Fields that lie inside a record of `n` bytes and do not overlap. -/
structure Fit (n : Nat) (fields : List (Nat × Bytes)) : Prop where
  inside : ∀ x ∈ extents fields, x.1 + x.2 ≤ n
  apart : (extents fields).Pairwise Apart

theorem Fit.inside_mem (h : Fit n fields) : ∀ f ∈ fields, f.1 + f.2.length ≤ n :=
  fun _ hf => h.inside _ (List.mem_map_of_mem hf)

theorem getElem?_writes_mem (h : Fit d.length fields) {f : Nat × Bytes} (hf : f ∈ fields)
    (h1 : f.1 ≤ i) (h2 : i < f.1 + f.2.length) : (writes d fields)[i]? = f.2[i - f.1]? := by
  have := congrArg (fun l : Bytes => l[i - f.1]?) (slice_writes_mem h.inside h.apart hf rfl)
  simp only [getElem?_slice] at this
  rwa [if_pos (by omega), show f.1 + (i - f.1) = i by omega] at this

theorem getElem?_writes_apart (h : Fit d.length fields)
    (ha : ∀ f ∈ fields, ¬(f.1 ≤ i ∧ i < f.1 + f.2.length)) : (writes d fields)[i]? = d[i]? := by
  have : slice (writes d fields) i 1 = slice d i 1 := slice_writes_apart h.inside_mem
    (fun f hf => by have := ha f hf; unfold Apart; simp only; omega)
  exact getElem?_of_slice_eq this (Nat.le_refl i) (by omega)

/-- Writing a field that ends in zeros over a zero record is writing the part before them: two
field lists give one record when they agree up to trailing zeros and zero fields. -/
theorem writes_zeros_congr {F G : List (Nat × Bytes)} (hF : Fit n F) (hG : Fit n G)
    (hFG : ∀ f ∈ F, (∃ k, f.2 = List.replicate k 0) ∨
      ∃ g ∈ G, g.1 = f.1 ∧ ∃ k, f.2 = g.2 ++ List.replicate k 0)
    (hGF : ∀ g ∈ G, ∃ f ∈ F, g.1 = f.1 ∧ ∃ k, f.2 = g.2 ++ List.replicate k 0) :
    writes (List.replicate n 0) F = writes (List.replicate n 0) G := by
  have hF' : Fit (List.replicate n (0 : UInt8)).length F := by rwa [List.length_replicate]
  have hG' : Fit (List.replicate n (0 : UInt8)).length G := by rwa [List.length_replicate]
  apply List.ext_getElem?
  intro i
  by_cases hg : ∃ g ∈ G, g.1 ≤ i ∧ i < g.1 + g.2.length
  · obtain ⟨g, hgG, h1, h2⟩ := hg
    obtain ⟨f, hfF, hpos, k, hf⟩ := hGF g hgG
    have hlen : g.2.length ≤ f.2.length := by rw [hf, List.length_append]; omega
    rw [getElem?_writes_mem hG' hgG h1 h2, getElem?_writes_mem hF' hfF (by omega) (by omega), hf,
      hpos, List.getElem?_append_left (by omega)]
  · have hnone : ∀ g ∈ G, ¬(g.1 ≤ i ∧ i < g.1 + g.2.length) := fun g hgG h => hg ⟨g, hgG, h⟩
    rw [getElem?_writes_apart hG' hnone]
    by_cases hf : ∃ f ∈ F, f.1 ≤ i ∧ i < f.1 + f.2.length
    · obtain ⟨f, hfF, h1, h2⟩ := hf
      have hin : i < n := by have := hF.inside_mem f hfF; omega
      rw [getElem?_writes_mem hF' hfF h1 h2, List.getElem?_replicate, if_pos hin]
      rcases hFG f hfF with ⟨k, hk⟩ | ⟨g, hgG, hpos, k, hk⟩
      · rw [hk, List.length_replicate] at h2
        rw [hk, List.getElem?_replicate, if_pos (by omega)]
      · have hpast : g.2.length ≤ i - f.1 := by have := hnone g hgG; omega
        rw [hk, List.length_append, List.length_replicate] at h2
        rw [hk, List.getElem?_append_right hpast, List.getElem?_replicate, if_pos (by omega)]
    · rw [getElem?_writes_apart hF' (fun f hfF h => hf ⟨f, hfF, h⟩)]

end Bytes
