import DaveOs.Util.Crc32
import DaveOs.Util.Wire

/-!
# OTP records (`lib/otp/record.h`, `lib/otp/record.cpp`)

A record is 64 bytes: a type, the payload's size, a checksum and 56 payload bytes, padded with ones.
The checksum covers everything but itself, and tells a record from every record that differs from it
in the type alone (`checksum_type`), so a torn type cannot turn one valid record into another.
-/

namespace DaveOs.Otp

variable {value : Bytes}

open Bytes Wire

def kBlockCount : Nat := 32
def kRecordSize : Nat := 64
def kPayloadSize : Nat := 56

def serialNumber : Nat := 1

def unwritten : Nat := 0xffff

/-- A record: its bytes in stored order. -/
structure Record where
  bytes : Bytes
  deriving DecidableEq, Repr

def read16 (d : Bytes) (pos : Nat) : Nat := leNat (slice d pos 2)

namespace Record

def type (r : Record) : Nat := read16 r.bytes 0

def size (r : Record) : Nat := read16 r.bytes 2

def checksum (r : Record) : UInt32 :=
  Crc32.update (Crc32.update 0 (r.bytes.take 4)) (r.bytes.drop 8)

def valid (r : Record) : Bool :=
  if r.type = unwritten ∨ r.size > kPayloadSize then false
  else read32 r.bytes 4 = r.checksum ∧ (r.bytes.drop (8 + r.size)).all (· == 0xff)

def payload (r : Record) : Bytes := if r.size > kPayloadSize then [] else slice r.bytes 8 r.size

def blank : Record := ⟨List.replicate kRecordSize 0xff⟩

end Record

def validSerial (value : Bytes) : Bool :=
  value ≠ [] ∧ value.length ≤ kPayloadSize ∧ value.all fun c => 0x20 ≤ c ∧ c ≤ 0x7e

def serialRecord (value : Bytes) : Record :=
  if !validSerial value then .blank
  else
    let bytes := splice Record.blank.bytes 0 [1, 0, UInt8.ofNat value.length, 0]
    let bytes := splice bytes 8 value
    ⟨write32 bytes 4 (Record.checksum ⟨bytes⟩)⟩

/-! ## Serial records -/

theorem validSerial_iff : validSerial value = true ↔
    value ≠ [] ∧ value.length ≤ kPayloadSize ∧ ∀ c ∈ value, 0x20 ≤ c ∧ c ≤ 0x7e := by
  simp [validSerial]

/-- A record with the bytes of its fields. -/
def assembled (t0 t1 s0 s1 : UInt8) (crc payload : Bytes) : Record :=
  ⟨[t0, t1, s0, s1] ++ crc ++ payload⟩

section Fields

variable {t0 t1 s0 s1 : UInt8} {crc crc' payload : Bytes}

theorem checksum_assembled (h : crc.length = 4) :
    (assembled t0 t1 s0 s1 crc payload).checksum =
      Crc32.calculate ([t0, t1, s0, s1] ++ payload) := by
  have hdrop : ([t0, t1, s0, s1] ++ crc ++ payload).drop 8 = payload :=
    List.drop_left' (by simp [h])
  have htake : ([t0, t1, s0, s1] ++ crc ++ payload).take 4 = [t0, t1, s0, s1] := rfl
  rw [Record.checksum, assembled, hdrop, htake, Crc32.update_append]
  rfl

theorem type_assembled : (assembled t0 t1 s0 s1 crc payload).type = leNat [t0, t1] := rfl

theorem read32_assembled (h : crc.length = 4) :
    read32 (assembled t0 t1 s0 s1 crc payload).bytes 4 = UInt32.ofNat (leNat crc) := by
  rw [read32, slice, assembled, List.append_assoc]
  rw [show ([t0, t1, s0, s1] ++ (crc ++ payload)).drop 4 = crc ++ payload from rfl,
    List.take_left' h]

end Fields

/-- The payload of a serial record, padded. -/
def padded (value : Bytes) : Bytes := value ++ List.replicate (kPayloadSize - value.length) 0xff

def serialCrc (value : Bytes) : UInt32 :=
  Crc32.calculate ([1, 0, UInt8.ofNat value.length, 0] ++ padded value)

theorem length_padded (h : value.length ≤ kPayloadSize) : (padded value).length = kPayloadSize := by
  simp [padded]
  omega

theorem serialRecord_eq (h : validSerial value = true) :
    serialRecord value = assembled 1 0 (UInt8.ofNat value.length) 0
      (leBytes 4 (serialCrc value).toNat) (padded value) := by
  have hk : kPayloadSize = 56 := rfl
  have hlen := (validSerial_iff.1 h).2.1
  have hbytes : splice (splice Record.blank.bytes 0 [1, 0, UInt8.ofNat value.length, 0]) 8 value =
      (assembled 1 0 (UInt8.ofNat value.length) 0 [0xff, 0xff, 0xff, 0xff] (padded value)).bytes := by
    have hfront : splice Record.blank.bytes 0 [1, 0, UInt8.ofNat value.length, 0] =
        [1, 0, UInt8.ofNat value.length, 0, 0xff, 0xff, 0xff, 0xff] ++ List.replicate 56 0xff := rfl
    have htake : ∀ front : Bytes, front.length = 8 →
        splice (front ++ List.replicate 56 0xff) 8 value =
          front ++ value ++ List.replicate (56 - value.length) 0xff := by
      intro front hf
      rw [splice, List.take_left' hf, ← List.drop_drop, List.drop_left' hf, List.drop_replicate]
    rw [hfront, htake _ rfl, assembled, padded, hk]
    simp
  have hsum : Record.checksum ⟨(assembled 1 0 (UInt8.ofNat value.length) 0 [0xff, 0xff, 0xff, 0xff]
      (padded value)).bytes⟩ = serialCrc value := checksum_assembled rfl
  rw [serialRecord, h, if_neg (by decide)]
  dsimp only
  rw [hbytes, hsum, write32, splice, length_leBytes, assembled, assembled]
  simp

/-- A serial record with another type in its place. -/
def retyped (t0 t1 : UInt8) (value : Bytes) : Record :=
  assembled t0 t1 (UInt8.ofNat value.length) 0 (leBytes 4 (serialCrc value).toNat) (padded value)

section Retyped

variable {value : Bytes} {t0 t1 : UInt8}

theorem size_retyped (h : validSerial value = true) : (retyped t0 t1 value).size = value.length := by
  have hk : kPayloadSize = 56 := rfl
  have hlen := (validSerial_iff.1 h).2.1
  show (UInt8.ofNat value.length).toNat + 256 * (0 + 256 * 0) = value.length
  rw [UInt8.toNat_ofNat_of_lt' (show _ < 2 ^ 8 by omega)]
  omega

theorem payload_retyped (h : validSerial value = true) : (retyped t0 t1 value).payload = value := by
  have hlen := (validSerial_iff.1 h).2.1
  have hdrop : (retyped t0 t1 value).bytes.drop 8 = padded value :=
    List.drop_left' (by simp)
  rw [Record.payload, size_retyped h, if_neg (by omega), slice, hdrop, padded, List.take_left]

theorem valid_retyped (h : validSerial value = true) :
    (retyped t0 t1 value).valid = true ↔ t0 = 1 ∧ t1 = 0 := by
  have hlen := (validSerial_iff.1 h).2.1
  have hcrc : read32 (retyped t0 t1 value).bytes 4 = serialCrc value := by
    rw [retyped, read32_assembled (by simp), ofNat_leNat_leBytes32]
  have hpad : ((retyped t0 t1 value).bytes.drop (8 + value.length)).all (· == 0xff) = true := by
    have hdrop : (retyped t0 t1 value).bytes.drop 8 = padded value :=
      List.drop_left' (by simp)
    rw [← List.drop_drop, hdrop, padded, List.drop_left]
    simp
  have hsum : (retyped t0 t1 value).checksum =
      Crc32.calculate ([t0, t1, UInt8.ofNat value.length, 0] ++ padded value) :=
    checksum_assembled (by simp)
  rw [Record.valid, size_retyped h, hcrc, hsum, hpad]
  constructor
  · intro hv
    split at hv
    · cases hv
    · simp only [and_true, decide_eq_true_eq] at hv
      have := Crc32.calculate_pair_inj hv
      exact ⟨this.1.symm, this.2.symm⟩
  · rintro ⟨rfl, rfl⟩
    have htype : (retyped 1 0 value).type ≠ unwritten := by
      show leNat [1, 0] ≠ unwritten
      decide
    rw [if_neg (by omega)]
    simp [serialCrc]

end Retyped

end DaveOs.Otp
