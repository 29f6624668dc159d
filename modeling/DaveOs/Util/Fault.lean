import DaveOs.Util.Wire
import DaveOs.Util.Crc32

/-!
# The retained fault record (`lib/util/fault.h`, `lib/util/fault.cpp`)

A fault is kept over a reset in 256 bytes of RAM that nothing clears. `save` builds the record aside,
invalidates the retained one, copies everything but the magic and publishes the magic last: four stores, 252
in whatever order `memcpy` makes them, and four more. Between the first store and the last a byte of the magic
is zero (`read_torn`), so a reset in between leaves nothing to be read; a complete record is told from every
record that differs from it in one byte (`read_set`).
-/

namespace DaveOs.Fault

variable {pos n : Nat} {v : Vector UInt8 (n + 1)}

open Bytes Wire

/-! ## The record -/

inductive Kind
  | hardFault
  | memoryFault
  | busFault
  | usageFault
  | watchdog
  | initialization
  | boot
  deriving DecidableEq, Repr, Inhabited

namespace Kind

def code : Kind → UInt32
  | hardFault => 0
  | memoryFault => 1
  | busFault => 2
  | usageFault => 3
  | watchdog => 4
  | initialization => 5
  | boot => 6

/-- The kind of a stored value; values past the last kind are refused. -/
def ofCode? (v : UInt32) : Option Kind :=
  if v = 0 then some hardFault
  else if v = 1 then some memoryFault
  else if v = 2 then some busFault
  else if v = 3 then some usageFault
  else if v = 4 then some watchdog
  else if v = 5 then some initialization
  else if v = 6 then some boot
  else none

@[simp] theorem ofCode?_code (k : Kind) : ofCode? k.code = some k := by
  cases k <;> rfl

end Kind

structure Data where
  kind : Kind := .hardFault
  version : Version := {}
  installation : UInt64 := 0
  status : UInt32 := 0
  /-- r0-r3, r12, lr, pc, xpsr; populated only when the frame is readable. -/
  frame : Vector UInt32 8 := Vector.replicate 8 0
  cfsr : UInt32 := 0
  hfsr : UInt32 := 0
  mmfar : UInt32 := 0
  bfar : UInt32 := 0
  excReturn : UInt32 := 0
  stack : UInt32 := 0
  frameValid : Bool := false
  check : Vector UInt8 32 := Vector.replicate 32 0
  moduleName : Vector UInt8 32 := Vector.replicate 32 0
  task : Vector UInt8 32 := Vector.replicate 32 0
  expected : UInt64 := 0
  completed : UInt64 := 0
  deriving DecidableEq, Repr

structure Record where
  bytes : Bytes
  size : bytes.length = 256

def kMagic : UInt32 := 0x46534f44

def Data.fields (data : Data) : List (Nat × Bytes) :=
  [(0, leBytes 4 kMagic.toNat),
    (4, leBytes 4 1),
    (8, leBytes 4 256),
    (12, leBytes 4 data.kind.code.toNat),
    (16, leBytes 4 data.version.major.toNat),
    (20, leBytes 4 data.version.minor.toNat),
    (24, leBytes 4 data.version.build.toNat),
    (28, data.version.commit.toList),
    (69, [data.version.dirty.toUInt8]),
    (70, [data.frameValid.toUInt8]),
    (72, leBytes 8 data.installation.toNat),
    (80, leBytes 4 data.status.toNat)] ++
  (List.finRange 8).map (fun i => (84 + i.val * 4, leBytes 4 data.frame[i].toNat)) ++
  [(116, leBytes 4 data.cfsr.toNat),
    (120, leBytes 4 data.hfsr.toNat),
    (124, leBytes 4 data.mmfar.toNat),
    (128, leBytes 4 data.bfar.toNat),
    (132, leBytes 4 data.excReturn.toNat),
    (136, leBytes 4 data.stack.toNat),
    (140, data.check.toList),
    (172, data.moduleName.toList),
    (204, data.task.toList),
    (236, leBytes 8 data.expected.toNat),
    (244, leBytes 8 data.completed.toNat)]

/-- The new record before its checksum is known. -/
def Data.body (data : Data) : Bytes := writes (List.replicate 256 0) data.fields

def Data.image (data : Data) : Bytes :=
  write32 data.body 252 (Crc32.calculate (data.body.take 252))

/-- A string array of `n` chars at `pos`; its last char is always a terminator. -/
def chars (n : Nat) (bytes : Bytes) (pos : Nat) : Vector UInt8 n :=
  Vector.ofFn fun i => if i.val = n - 1 then 0 else bytes.getD (pos + i.val) 0

def read (record : Record) : Option Data :=
  let bytes := record.bytes
  match Kind.ofCode? (read32 bytes 12) with
  | none => none
  | some kind =>
    if read32 bytes 0 ≠ kMagic ∨ read32 bytes 4 ≠ 1 ∨ read32 bytes 8 ≠ 256 ∨
        read32 bytes 252 ≠ Crc32.calculate (bytes.take 252) then none
    else some
      { kind
        version :=
          { major := read32 bytes 16
            minor := read32 bytes 20
            build := read32 bytes 24
            commit := chars 41 bytes 28
            dirty := bytes.getD 69 0 != 0 }
        frameValid := bytes.getD 70 0 != 0
        installation := read64 bytes 72
        status := read32 bytes 80
        frame := Vector.ofFn fun i => read32 bytes (84 + i.val * 4)
        cfsr := read32 bytes 116
        hfsr := read32 bytes 120
        mmfar := read32 bytes 124
        bfar := read32 bytes 128
        excReturn := read32 bytes 132
        stack := read32 bytes 136
        check := chars 32 bytes 140
        moduleName := chars 32 bytes 172
        task := chars 32 bytes 204
        expected := read64 bytes 236
        completed := read64 bytes 244 }

/-! ## The stores of `save` -/

/-- The byte stores of writing `src` at `pos`, in ascending order. -/
def storesAt (pos : Nat) (src : Bytes) : List (Nat × UInt8) :=
  (List.range src.length).map fun i => (pos + i, src.getD i 0)

def Record.store (record : Record) (s : Nat × UInt8) : Record :=
  ⟨record.bytes.set s.1 s.2, by rw [List.length_set, record.size]⟩

/-- The record after a sequence of byte stores. -/
def Record.after (record : Record) (stores : List (Nat × UInt8)) : Record := stores.foldl Record.store record

/-- The stores of `clear`. -/
def clearStores : List (Nat × UInt8) := storesAt 0 (leBytes 4 0)

def clear (record : Record) : Record := record.after clearStores

/-- The stores of `save`: the record is invalidated, everything but the magic is copied, in some order, and the
magic is published. -/
def Saves (data : Data) (stores : List (Nat × UInt8)) : Prop :=
  ∃ copy, copy.Perm (storesAt 4 (data.image.drop 4)) ∧
    stores = clearStores ++ copy ++ storesAt 0 (leBytes 4 kMagic.toNat)

/-- `save` with a copy in ascending order. -/
def save (record : Record) (data : Data) : Record :=
  record.after (clearStores ++ storesAt 4 (data.image.drop 4) ++ storesAt 0 (leBytes 4 kMagic.toNat))

theorem saves_ascending (data : Data) :
    Saves data (clearStores ++ storesAt 4 (data.image.drop 4) ++ storesAt 0 (leBytes 4 kMagic.toNat)) :=
  ⟨_, .refl _, rfl⟩

/-! ## The fields of a record -/

/-- Where the fields before the checksum lie: place and length. -/
def bodyExtents : List (Nat × Nat) :=
  [(0, 4), (4, 4), (8, 4), (12, 4), (16, 4), (20, 4), (24, 4), (28, 41), (69, 1), (70, 1), (72, 8), (80, 4),
    (84, 4), (88, 4), (92, 4), (96, 4), (100, 4), (104, 4), (108, 4), (112, 4), (116, 4), (120, 4), (124, 4),
    (128, 4), (132, 4), (136, 4), (140, 32), (172, 32), (204, 32), (236, 8), (244, 8)]

variable (data : Data)

theorem extents_fields : extents data.fields = bodyExtents := by
  simp only [extents, Data.fields, List.map_append, List.map_cons, List.map_nil, List.map_map, Function.comp_def,
    length_leBytes, Vector.length_toList, List.length_cons, List.length_nil]
  rfl

theorem fields_end {f : Nat × Bytes} (hf : f ∈ data.fields) : f.1 + f.2.length ≤ 252 := by
  have hmem : (f.1, f.2.length) ∈ extents data.fields := List.mem_map_of_mem hf
  rw [extents_fields] at hmem
  have hall : ∀ x ∈ bodyExtents, x.1 + x.2 ≤ 252 := by decide
  exact hall _ hmem

theorem length_body : data.body.length = 256 := by
  unfold Data.body
  rw [length_writes]
  · exact List.length_replicate
  · intro f hf
    have := fields_end data hf
    rw [List.length_replicate]
    omega

theorem length_image : data.image.length = 256 := by
  rw [Data.image, write32, length_splice, length_body]
  exact Nat.le_of_eq (by rw [length_body, length_leBytes])

theorem slice_image_low (h : pos + n ≤ 252) : slice data.image pos n = slice data.body pos n :=
  slice_splice_before (Nat.le_of_eq (by rw [length_body, length_leBytes])) h

theorem take_image : data.image.take 252 = data.body.take 252 := by
  have h : slice data.image 0 252 = slice data.body 0 252 := slice_image_low data (Nat.le_refl _)
  simpa using h

theorem slice_image_field {src : Bytes} (hm : (pos, src) ∈ data.fields) (hn : src.length = n) :
    slice data.image pos n = src := by
  have hend : pos + src.length ≤ 252 := fields_end data hm
  rw [slice_image_low data (by omega)]
  refine slice_writes_mem ?_ ?_ hm hn
  · rw [extents_fields, List.length_replicate]
    decide
  · rw [extents_fields]
    decide

theorem read32_image {v : UInt32} (hm : (pos, leBytes 4 v.toNat) ∈ data.fields) :
    read32 data.image pos = v :=
  read32_eq_of_slice (slice_image_field data hm (length_leBytes _ _))

theorem read64_image {v : UInt64} (hm : (pos, leBytes 8 v.toNat) ∈ data.fields) :
    read64 data.image pos = v :=
  read64_eq_of_slice (slice_image_field data hm (length_leBytes _ _))

theorem crc_image : read32 data.image 252 = Crc32.calculate (data.image.take 252) := by
  rw [take_image]
  exact read32_eq_of_slice (slice_splice_self (length_leBytes _ _) (Nat.le_of_eq (by rw [length_body])))

theorem flag_image {b : Bool} (hm : (pos, [b.toUInt8]) ∈ data.fields) :
    (data.image.getD pos 0 != 0) = b := by
  have hget := congrArg (fun l : Bytes => l[0]?) (slice_image_field data hm rfl)
  simp only [getElem?_slice, Nat.add_zero] at hget
  rw [List.getD_eq_getElem?_getD, (if_pos Nat.zero_lt_one).symm.trans hget]
  cases b <;> rfl

theorem chars_image (hm : (pos, v.toList) ∈ data.fields) :
    chars (n + 1) data.image pos = v.set n 0 := by
  have hslice : slice data.image pos (n + 1) = v.toList := slice_image_field data hm (by simp)
  apply Vector.ext
  intro i hi
  rw [chars, Vector.getElem_ofFn, Vector.getElem_set, Nat.add_sub_cancel]
  split
  · next h => rw [if_pos h.symm]
  · next h =>
    rw [if_neg (Ne.symm h)]
    have hget := congrArg (fun l : Bytes => l[i]?) hslice
    simp only [getElem?_slice, if_pos hi] at hget
    rw [List.getD_eq_getElem?_getD, hget, Vector.getElem?_toList, Vector.getElem?_eq_getElem hi]
    rfl

/-- A fault as it is read back: the last char of each string array is a terminator. -/
def Data.stored : Data :=
  { data with
    version := { data.version with commit := data.version.commit.set 40 0 Version.commit_last }
    check := data.check.set 31 0
    moduleName := data.moduleName.set 31 0
    task := data.task.set 31 0 }

theorem frame_image : (Vector.ofFn fun i : Fin 8 => read32 data.image (84 + i.val * 4)) = data.frame := by
  apply Vector.ext
  intro i hi
  rw [Vector.getElem_ofFn]
  refine read32_image data ?_
  simp only [Data.fields, List.mem_append, List.mem_map]
  exact .inl (.inr ⟨⟨i, hi⟩, List.mem_finRange _, rfl⟩)

/-- **A complete record** is read back. -/
theorem read_image (h : record.bytes = data.image) : read record = some data.stored := by
  have hfix : (read32 data.image 0 = kMagic ∧ read32 data.image 4 = 1) ∧ read32 data.image 8 = 256 := by
    refine ⟨⟨read32_image data ?_, read32_image data ?_⟩, read32_image data ?_⟩ <;> simp [Data.fields]
  simp only [read, h]
  rw [read32_image data (v := data.kind.code) (by simp [Data.fields]), Kind.ofCode?_code]
  simp only
  rw [if_neg (by simp [hfix, crc_image]), frame_image,
    read32_image data (v := data.version.major) (by simp [Data.fields]),
    read32_image data (v := data.version.minor) (by simp [Data.fields]),
    read32_image data (v := data.version.build) (by simp [Data.fields]),
    chars_image data (v := data.version.commit) (by simp [Data.fields]),
    flag_image data (b := data.version.dirty) (by simp [Data.fields]),
    flag_image data (b := data.frameValid) (by simp [Data.fields]),
    read64_image data (v := data.installation) (by simp [Data.fields]),
    read32_image data (v := data.status) (by simp [Data.fields]),
    read32_image data (v := data.cfsr) (by simp [Data.fields]),
    read32_image data (v := data.hfsr) (by simp [Data.fields]),
    read32_image data (v := data.mmfar) (by simp [Data.fields]),
    read32_image data (v := data.bfar) (by simp [Data.fields]),
    read32_image data (v := data.excReturn) (by simp [Data.fields]),
    read32_image data (v := data.stack) (by simp [Data.fields]),
    chars_image data (v := data.check) (by simp [Data.fields]),
    chars_image data (v := data.moduleName) (by simp [Data.fields]),
    chars_image data (v := data.task) (by simp [Data.fields]),
    read64_image data (v := data.expected) (by simp [Data.fields]),
    read64_image data (v := data.completed) (by simp [Data.fields])]
  rfl

/-! ## Byte stores -/

section stores

variable {record : Record} {stores : List (Nat × UInt8)} {i : Nat} {v : UInt8}

theorem Record.after_append (record : Record) (a b : List (Nat × UInt8)) :
    record.after (a ++ b) = (record.after a).after b := List.foldl_append

theorem getElem?_after_of_ne (h : ∀ s ∈ stores, s.1 ≠ i) : (record.after stores).bytes[i]? = record.bytes[i]? := by
  induction stores generalizing record with
  | nil => rfl
  | cons s rest ih =>
    have hs : (record.store s).bytes[i]? = record.bytes[i]? := List.getElem?_set_ne (h s List.mem_cons_self)
    rw [← hs]
    exact ih fun t ht => h t (List.mem_cons_of_mem _ ht)

/-- A byte that is stored to has the value of the stores, when they agree. -/
theorem getElem?_after_of_mem (hi : i < 256) (hmem : ∃ s ∈ stores, s.1 = i) (h : ∀ s ∈ stores, s.1 = i → s.2 = v) :
    (record.after stores).bytes[i]? = some v := by
  induction stores generalizing record with
  | nil => simp at hmem
  | cons s rest ih =>
    have hrest : ∀ t ∈ rest, t.1 = i → t.2 = v := fun t ht => h t (List.mem_cons_of_mem _ ht)
    by_cases hlater : ∃ t ∈ rest, t.1 = i
    · have hlast : ((record.store s).after rest).bytes[i]? = some v := ih hlater hrest
      exact hlast
    · obtain ⟨t, ht, hti⟩ := hmem
      obtain rfl : t = s := (List.mem_cons.mp ht).resolve_right fun hm => hlater ⟨t, hm, hti⟩
      have hkeep : ((record.store t).after rest).bytes[i]? = (record.store t).bytes[i]? :=
        getElem?_after_of_ne fun u hu hui => hlater ⟨u, hu, hui⟩
      refine hkeep.trans ?_
      rw [← h t List.mem_cons_self hti, ← hti]
      exact List.getElem?_set_self (by rw [record.size, hti]; exact hi)

theorem mem_storesAt {pos : Nat} {src : Bytes} {s : Nat × UInt8} :
    s ∈ storesAt pos src ↔ ∃ k, k < src.length ∧ s = (pos + k, src.getD k 0) := by
  simp only [storesAt, List.mem_map, List.mem_range, eq_comm]

theorem length_storesAt (pos : Nat) (src : Bytes) : (storesAt pos src).length = src.length := by
  rw [storesAt, List.length_map, List.length_range]

end stores

variable {data : Data} {record : Record} {stores : List (Nat × UInt8)}

theorem magic_bytes {bytes : Bytes} (hlen : bytes.length = 256) (h : read32 bytes 0 = kMagic) :
    bytes[0]? = some 0x44 ∧ bytes[3]? = some 0x46 := by
  have hslice := slice_of_read32 (by omega) h
  have hget (i : Nat) (hi : i < 4) : bytes[i]? = (leBytes 4 kMagic.toNat)[i]? := by
    have := congrArg (fun l : Bytes => l[i]?) hslice
    simpa only [getElem?_slice, if_pos hi, Nat.zero_add] using this
  exact ⟨(hget 0 (by decide)).trans (by decide), (hget 3 (by decide)).trans (by decide)⟩

theorem read_none (h : read32 record.bytes 0 ≠ kMagic ∨
    read32 record.bytes 252 ≠ Crc32.calculate (record.bytes.take 252)) : read record = none := by
  simp only [read]
  split
  · rfl
  · exact if_pos (h.imp_right fun hcrc => .inr (.inr hcrc))

theorem read_none_of_zero (h : record.bytes[0]? = some 0 ∨ record.bytes[3]? = some 0) : read record = none := by
  refine read_none (.inl fun hm => ?_)
  obtain ⟨h0, h3⟩ := magic_bytes record.size hm
  rcases h with h | h
  · rw [h0] at h
    exact absurd h (by decide)
  · rw [h3] at h
    exact absurd h (by decide)

theorem zero_of_replacing {copy : List (Nat × UInt8)} (hcopy : copy.Perm (storesAt 4 (data.image.drop 4)))
    {s : Nat × UInt8} (hs : s ∈ clearStores ++ copy) (hlt : s.1 < 4) : s.2 = 0 := by
  rcases List.mem_append.mp hs with h | h
  · have hall : ∀ s ∈ clearStores, s.2 = 0 := by decide
    exact hall s h
  · obtain ⟨k, -, rfl⟩ := mem_storesAt.mp (hcopy.mem_iff.mp h)
    simp only at hlt
    omega

theorem length_saves (h : Saves data stores) : stores.length = 260 := by
  obtain ⟨copy, hcopy, rfl⟩ := h
  rw [List.length_append, List.length_append, hcopy.length_eq, length_storesAt, List.length_drop, length_image]
  rfl

/-- **A torn record**: between the first store and the last there is nothing to be read. -/
theorem read_torn (h : Saves data stores) {k : Nat} (hpos : 0 < k) (hlt : k < 260) :
    read (record.after (stores.take k)) = none := by
  have hlength := length_saves h
  obtain ⟨copy, hcopy, rfl⟩ := h
  have hreplacing : (clearStores ++ copy).length = 256 := by
    rw [List.length_append, storesAt, List.length_map, List.length_range, length_leBytes] at hlength
    omega
  refine read_none_of_zero ?_
  by_cases hk : k ≤ 256
  · -- The first byte is cleared and not yet published.
    left
    rw [List.take_append_of_le_length (by omega)]
    refine getElem?_after_of_mem (by decide) ⟨(0, 0), ?_, rfl⟩ fun s hs h0 => ?_
    · obtain ⟨k, rfl⟩ := Nat.exists_eq_succ_of_ne_zero (Nat.pos_iff_ne_zero.mp hpos)
      exact List.mem_cons_self
    · exact zero_of_replacing hcopy (List.mem_of_mem_take hs) (by rw [h0]; decide)
  · -- All but the last bytes of the magic are published.
    right
    obtain ⟨j, rfl⟩ : ∃ j, k = (clearStores ++ copy).length + j := ⟨k - 256, by omega⟩
    rw [List.take_length_add_append]
    refine getElem?_after_of_mem (by decide) ⟨(3, 0), ?_, rfl⟩ fun s hs h3 => ?_
    · exact List.mem_append_left _ (List.mem_append_left _ (by decide))
    · rcases List.mem_append.mp hs with hs | hs
      · exact zero_of_replacing hcopy hs (by rw [h3]; decide)
      · have hnone : ∀ j < 4, ∀ s ∈ (storesAt 0 (leBytes 4 kMagic.toNat)).take j, s.1 ≠ 3 := by decide
        exact absurd h3 (hnone j (by omega) s hs)

/-- **All stores** leave the new record, whatever was there. -/
theorem bytes_after (h : Saves data stores) : (record.after stores).bytes = data.image := by
  obtain ⟨copy, hcopy, rfl⟩ := h
  have hlen := length_image data
  apply List.ext_getElem?
  intro i
  by_cases hi : i < 256
  · have himage : data.image[i]? = some (data.image.getD i 0) := by
      rw [List.getD_eq_getElem?_getD, List.getElem?_eq_getElem (by omega)]
      rfl
    rw [himage, Record.after_append]
    by_cases h4 : i < 4
    · refine getElem?_after_of_mem hi ⟨_, mem_storesAt.mpr ⟨i, h4, rfl⟩, Nat.zero_add i⟩ ?_
      rintro _ hs rfl
      obtain ⟨k, hk, rfl⟩ := mem_storesAt.mp hs
      have hslice : slice data.image 0 4 = leBytes 4 kMagic.toNat :=
        slice_image_field data (by simp [Data.fields]) (length_leBytes _ _)
      have hget := congrArg (fun l : Bytes => l[k]?) hslice
      simp only [getElem?_slice] at hget
      rw [if_pos (by simpa using hk), Nat.zero_add] at hget
      simp only [Nat.zero_add, List.getD_eq_getElem?_getD, hget]
    · rw [getElem?_after_of_ne]
      · refine getElem?_after_of_mem hi ⟨(i, data.image.getD i 0), ?_, rfl⟩ ?_
        · refine List.mem_append_right _ (hcopy.mem_iff.mpr (mem_storesAt.mpr ⟨i - 4, ?_, ?_⟩))
          · rw [List.length_drop, hlen]
            omega
          · rw [List.getD_eq_getElem?_getD, List.getD_eq_getElem?_getD, List.getElem?_drop,
              show 4 + (i - 4) = i by omega]
        · rintro s hs rfl
          rcases List.mem_append.mp hs with hs | hs
          · have hall : ∀ s ∈ clearStores, s.1 < 4 := by decide
            exact absurd (hall s hs) h4
          · obtain ⟨k, -, rfl⟩ := mem_storesAt.mp (hcopy.mem_iff.mp hs)
            simp only [List.getD_eq_getElem?_getD, List.getElem?_drop]
      · rintro s hs rfl
        obtain ⟨k, hk, rfl⟩ := mem_storesAt.mp hs
        rw [length_leBytes] at hk
        simp only at h4
        omega
  · rw [List.getElem?_eq_none (by rw [Record.size]; omega), List.getElem?_eq_none (by omega)]

/-- **A complete record with one byte changed** is not read. -/
theorem read_set (h : record.bytes = data.image) {i : Nat} {v : UInt8} (hi : i < 256)
    (hv : record.bytes[i]? ≠ some v) : read (record.store (i, v)) = none := by
  have hlen := length_image data
  have hi' : i < data.image.length := by omega
  have hne : data.image[i] ≠ v := fun he => hv (by rw [h, List.getElem?_eq_getElem hi', he])
  have hbytes : (record.store (i, v)).bytes = data.image.set i v := by rw [← h]; rfl
  -- The checksum is of the other bytes, or the other bytes are of another checksum.
  have hcrc : read32 (data.image.set i v) 252 ≠ Crc32.calculate ((data.image.set i v).take 252) := by
    by_cases hlow : i < 252
    · rw [read32_congr (slice_set_ne (.inl hlow)), crc_image, List.take_set]
      refine (Crc32.calculate_set_ne (by rw [List.length_take]; omega) ?_).symm
      rwa [List.getElem_take]
    · rw [List.take_set_of_le (by omega), ← crc_image]
      refine read32_ne (by rw [List.length_set]; omega) (by omega) ?_
      exact slice_set_mem (by omega) (by omega) hi' hne
  exact read_none (.inr (by rw [hbytes]; exact hcrc))

/-! ## Strings -/

/-- The string in an array: its chars before the first terminator. -/
def cString {n : Nat} (v : Vector UInt8 n) : Bytes := v.toList.takeWhile (· != 0)

def Data.strings (data : Data) : List Bytes :=
  [cString data.version.commit, cString data.check, cString data.moduleName, cString data.task]

/-- Every string is terminated within its array. -/
structure Data.Terminated (data : Data) : Prop where
  commit : 0 ∈ data.version.commit.toList
  check : 0 ∈ data.check.toList
  moduleName : 0 ∈ data.moduleName.toList
  task : 0 ∈ data.task.toList

theorem takeWhile_set_of_mem {l : Bytes} (h : 0 ∈ l) (hn : l.length = n + 1) :
    (l.set n 0).takeWhile (· != 0) = l.takeWhile (· != 0) := by
  induction l generalizing n with
  | nil => simp at h
  | cons b rest ih =>
    by_cases hb : b = 0
    · subst hb
      cases n <;> rfl
    · have hrest : 0 ∈ rest := (List.mem_cons.mp h).resolve_left (Ne.symm hb)
      cases n with
      | zero =>
        have : rest = [] := List.length_eq_zero_iff.mp (by simpa using hn)
        rw [this] at hrest
        cases hrest
      | succ n =>
        have hgo : (b != 0) = true := by simpa using hb
        simp only [List.set_cons_succ, List.takeWhile_cons, hgo, if_true]
        rw [ih hrest (by simpa using hn)]

theorem cString_set (h : 0 ∈ v.toList) : cString (v.set n 0) = cString v := by
  rw [cString, cString, Vector.toList_set]
  exact takeWhile_set_of_mem h Vector.length_toList

theorem Data.Terminated.strings (h : data.Terminated) : data.stored.strings = data.strings := by
  simp only [Data.strings, Data.stored, cString_set h.commit, cString_set h.check, cString_set h.moduleName,
    cString_set h.task]

/-- **The retained fault record.** Whatever was there, `save` leaves a record that is read as the fault with its
strings, the last char of each array read as a terminator; cut short anywhere it leaves what was there, untouched,
or nothing to be read; and a saved record with one byte changed is not read. -/
theorem fault_record_exact (data : Data) (hterm : data.Terminated) (record : Record) {stores : List (Nat × UInt8)}
    (hstores : Saves data stores) :
    (read (record.after stores) = some data.stored ∧ data.stored.strings = data.strings) ∧
      (∀ k, read (record.after (stores.take k)) = if k = 0 then read record
        else if k < stores.length then none else some data.stored) ∧
      ∀ i v, i < 256 → (record.after stores).bytes[i]? ≠ some v →
        read ((record.after stores).store (i, v)) = none := by
  have hbytes : (record.after stores).bytes = data.image := bytes_after hstores
  have hwhole : read (record.after stores) = some data.stored := read_image data hbytes
  refine ⟨⟨hwhole, hterm.strings⟩, fun k => ?_, fun i v hi hv => read_set hbytes hi hv⟩
  split
  · next h0 =>
    rw [h0]
    rfl
  · next h0 =>
    rw [length_saves hstores]
    split
    · next hk => exact read_torn hstores (Nat.pos_iff_ne_zero.mpr h0) hk
    · next hk => rw [List.take_of_length_le (by rw [length_saves hstores]; omega), hwhole]

def zeros : Record := ⟨List.replicate 256 0, List.length_replicate⟩

theorem fault_record_exact_default : ({} : Data).Terminated ∧ read (save zeros {}) = some {} := by
  have hterm : ({} : Data).Terminated := ⟨by decide, by decide, by decide, by decide⟩
  exact ⟨hterm, (fault_record_exact {} hterm zeros (saves_ascending {})).1.1.trans (by decide)⟩

/-- A string that ends early, with something in the last char of its array. -/
def trailing : Data := { check := (Vector.replicate 32 0).set 31 0x78 }

/-- The last char of an array is not read back, even where the string ends before it. -/
theorem trailing_not_returned : trailing.Terminated ∧
    ∀ record : Record, read (save record trailing) ≠ some trailing := by
  refine ⟨⟨by decide, by decide, by decide, by decide⟩, fun record h => ?_⟩
  have hread : read (save record trailing) = some trailing.stored :=
    read_image trailing (bytes_after (saves_ascending trailing))
  rw [hread] at h
  exact absurd (Option.some.inj h) (by decide)

end DaveOs.Fault
