import Mathlib.Data.Nat.Bitwise
import Clove.Lib.Lists
import Clove.Bencode

/-!
# Piece bitfields

The model of `bitfield.rs`.  A bitfield is its bytes, most significant bit first, and the
number of pieces it spans.  The two fields of proof say that the byte count fits and that
no bit past the last piece is set, so a value with spare bits cannot be built.

Every operation is characterised by what `has` says afterwards; later modules use those
lemmas and never look at the bytes.
-/

namespace Clove

/-- Bytes needed to hold `len` bits. -/
def byteLen (len : Nat) : Nat := (len + 7) / 8

/-- The bit of piece `i` within its byte. -/
def bitMask (i : Nat) : UInt8 := 1 <<< UInt8.ofNat (7 - i % 8)

/-- Bit `i` of a byte string, most significant first. -/
def bitAt (bits : Bytes) (i : Nat) : Bool := bits.getD (i / 8) 0 &&& bitMask i != 0

/-- A fixed-length bit set over piece indices below `len`. -/
structure Bitfield where
  bits : Bytes
  len : Nat
  length_bits : bits.length = byteLen len
  spare : ∀ i, len ≤ i → bitAt bits i = false
deriving DecidableEq

/-- Why raw bytes were rejected as a bitfield. -/
inductive BadBitfield where
  | wrongLength
  | spareBitsSet
deriving Repr, DecidableEq

/-! ## Bits of a byte string -/

theorem toNat_bitMask (i : Nat) : (bitMask i).toNat = 2 ^ (7 - i % 8) := by
  have h : i % 8 < 8 := Nat.mod_lt _ (by decide)
  unfold bitMask
  generalize i % 8 = k at h
  interval_cases k <;> rfl

theorem bitAt_eq (bits : Bytes) (i : Nat) :
    bitAt bits i = (bits.getD (i / 8) 0).toNat.testBit (7 - i % 8) := by
  have hand : ((bits.getD (i / 8) 0) &&& bitMask i).toNat =
      ((bits.getD (i / 8) 0).toNat.testBit (7 - i % 8)).toNat * 2 ^ (7 - i % 8) := by
    rw [UInt8.toNat_and, toNat_bitMask, Nat.and_two_pow]
  unfold bitAt
  cases hbit : (bits.getD (i / 8) 0).toNat.testBit (7 - i % 8) with
  | false =>
      rw [hbit] at hand
      simp only [bne_eq_false_iff_eq]
      apply UInt8.toNat_inj.1
      simpa using hand
  | true =>
      rw [hbit] at hand
      simp only [bne_iff_ne]
      intro hzero
      have hpos : 0 < 2 ^ (7 - i % 8) := Nat.two_pow_pos _
      rw [hzero, Bool.toNat_true, Nat.one_mul, UInt8.toNat_zero] at hand
      omega

/-- Two pieces with the same byte and the same bit in it are the same. -/
theorem eq_of_bit_eq {i j : Nat} (hbyte : i / 8 = j / 8) (hbit : 7 - i % 8 = 7 - j % 8) :
    i = j := by
  omega

/-- Setting one bit. -/
theorem bitAt_modify_or {bits : Bytes} {i : Nat} (hi : i / 8 < bits.length) (j : Nat) :
    bitAt (bits.modify (i / 8) (· ||| bitMask i)) j = (j == i || bitAt bits j) := by
  rw [bitAt_eq, Lists.getD_modify hi, bitAt_eq]
  by_cases hbyte : j / 8 = i / 8
  · rw [if_pos hbyte, UInt8.toNat_or, Nat.testBit_or, toNat_bitMask, Nat.testBit_two_pow]
    by_cases hji : j = i
    · simp [hji]
    · have : 7 - i % 8 ≠ 7 - j % 8 := fun h => hji (eq_of_bit_eq hbyte h.symm)
      simp [hji, this]
  · have hji : j ≠ i := fun h => hbyte (by rw [h])
    simp [hbyte, hji]

/-- Clearing one bit. -/
theorem bitAt_modify_andNot {bits : Bytes} {i : Nat} (hi : i / 8 < bits.length) (j : Nat) :
    bitAt (bits.modify (i / 8) (· &&& ~~~ bitMask i)) j = (j != i && bitAt bits j) := by
  rw [bitAt_eq, Lists.getD_modify hi, bitAt_eq]
  by_cases hbyte : j / 8 = i / 8
  · have hlt : 7 - j % 8 < 8 := by omega
    have hnot : (~~~ bitMask i).toNat.testBit (7 - j % 8) =
        !(decide (7 - i % 8 = 7 - j % 8)) := by
      have hsub : UInt8.size - 1 - (bitMask i).toNat = 2 ^ 8 - ((bitMask i).toNat + 1) := by
        simp only [UInt8.size]
        omega
      rw [UInt8.toNat_not, hsub, Nat.testBit_two_pow_sub_succ (bitMask i).toNat_lt, toNat_bitMask,
        Nat.testBit_two_pow]
      simp [hlt]
    rw [if_pos hbyte, UInt8.toNat_and, Nat.testBit_and, hnot]
    by_cases hji : j = i
    · simp [hji]
    · have : 7 - i % 8 ≠ 7 - j % 8 := fun h => hji (eq_of_bit_eq hbyte h.symm)
      simp [hji, this]
  · have hji : j ≠ i := fun h => hbyte (by rw [h])
    simp [hbyte, hji]

/-- The low bits the final byte leaves unused when it holds `used` pieces. -/
def spareMask (used : Nat) : UInt8 := 255 >>> UInt8.ofNat used

theorem toNat_spareMask {used : Nat} (h : used < 8) : (spareMask used).toNat = 2 ^ (8 - used) - 1 := by
  unfold spareMask
  interval_cases used <;> rfl

theorem bitAt_of_byteLen_le {bits : Bytes} {i : Nat} (h : bits.length ≤ i / 8) :
    bitAt bits i = false := by
  rw [bitAt_eq, List.getD_eq_default _ _ h]
  simp

/-- A byte string of the right length has no bit past `len` exactly when its last byte
avoids the spare mask. -/
theorem spare_iff {bits : Bytes} {len : Nat} (hlen : bits.length = byteLen len) :
    (∀ i, len ≤ i → bitAt bits i = false) ↔
      (len % 8 ≠ 0 → bits.getD (bits.length - 1) 0 &&& spareMask (len % 8) = 0) := by
  unfold byteLen at hlen
  have hused : len % 8 < 8 := Nat.mod_lt _ (by decide)
  constructor
  · intro hspare hne
    apply UInt8.toNat_inj.1
    rw [UInt8.toNat_and, toNat_spareMask hused]
    apply Nat.eq_of_testBit_eq
    intro k
    rw [Nat.testBit_and, Nat.testBit_two_pow_sub_one]
    by_cases hk : k < 8 - len % 8
    · -- bit `k` of the last byte is the bit of a piece past the end
      have hbit := hspare (8 * (bits.length - 1) + (7 - k)) (by omega)
      rw [bitAt_eq] at hbit
      have hdiv : (8 * (bits.length - 1) + (7 - k)) / 8 = bits.length - 1 := by omega
      have hmod : 7 - (8 * (bits.length - 1) + (7 - k)) % 8 = k := by omega
      rw [hdiv, hmod] at hbit
      rw [hbit, Bool.false_and, UInt8.toNat_zero, Nat.zero_testBit]
    · simp [hk]
  · intro hlast i hi
    by_cases hin : bits.length ≤ i / 8
    · exact bitAt_of_byteLen_le hin
    · have hne : len % 8 ≠ 0 := by omega
      have hdiv : i / 8 = bits.length - 1 := by omega
      have hzero := congrArg UInt8.toNat (hlast hne)
      rw [UInt8.toNat_and, toNat_spareMask hused] at hzero
      have hbit := congrArg (fun n => n.testBit (7 - i % 8)) hzero
      simp only [Nat.testBit_and, Nat.testBit_two_pow_sub_one, UInt8.toNat_zero,
        Nat.zero_testBit] at hbit
      have hk : 7 - i % 8 < 8 - len % 8 := by omega
      rw [bitAt_eq, hdiv]
      simpa [hk] using hbit

namespace Bitfield

/-! ## The operations -/

/-- A bitfield of `len` pieces, all absent. -/
def empty (len : Nat) : Bitfield where
  bits := List.replicate (byteLen len) 0
  len := len
  length_bits := List.length_replicate
  spare := by
    intro i _
    rw [bitAt_eq]
    rw [Lists.getD_replicate]
    split <;> simp

/-- Wrap raw bytes as a bitfield of `len` pieces. -/
def fromBytes (bytes : Bytes) (len : Nat) : Except BadBitfield Bitfield :=
  if hlen : bytes.length = byteLen len then
    if hspare : len % 8 ≠ 0 → bytes.getD (bytes.length - 1) 0 &&& spareMask (len % 8) = 0 then
      .ok ⟨bytes, len, hlen, (spare_iff hlen).2 hspare⟩
    else .error .spareBitsSet
  else .error .wrongLength

/-- Whether piece `index` is present.  Out-of-range indices are absent. -/
def has (b : Bitfield) (index : Nat) : Bool := index < b.len && bitAt b.bits index

theorem byte_lt {b : Bitfield} {i : Nat} (h : i < b.len) : i / 8 < b.bits.length := by
  rw [b.length_bits, byteLen]
  omega

/-- Mark piece `index` present.  Out-of-range indices are ignored. -/
def set (b : Bitfield) (index : Nat) : Bitfield :=
  if h : index < b.len then
    { b with
      bits := b.bits.modify (index / 8) (· ||| bitMask index)
      length_bits := by rw [List.length_modify, b.length_bits]
      spare := by
        intro i hi
        have hne : i ≠ index := by omega
        rw [bitAt_modify_or (byte_lt h), b.spare i hi]
        simpa using hne }
  else b

/-- Mark piece `index` absent.  Out-of-range indices are ignored. -/
def clear (b : Bitfield) (index : Nat) : Bitfield :=
  if h : index < b.len then
    { b with
      bits := b.bits.modify (index / 8) (· &&& ~~~ bitMask index)
      length_bits := by rw [List.length_modify, b.length_bits]
      spare := by
        intro i hi
        rw [bitAt_modify_andNot (byte_lt h), b.spare i hi, Bool.and_false] }
  else b

/-- The indices of present pieces, ascending. -/
def iterPresent (b : Bitfield) : List Nat := (List.range b.len).filter b.has

/-- A bitfield of `len` pieces, all present: every byte full, the spare bits cleared. -/
def full (len : Nat) : Bitfield where
  bits := if len % 8 = 0 then List.replicate (byteLen len) 255
    else (List.replicate (byteLen len) 255).modify (byteLen len - 1) (· &&& ~~~ spareMask (len % 8))
  len := len
  length_bits := by split <;> simp
  spare := by
    have hused : len % 8 < 8 := Nat.mod_lt _ (by decide)
    split
    · rename_i hzero
      exact (spare_iff (by simp)).2 fun hne => absurd hzero hne
    · rename_i hne
      refine (spare_iff (by simp)).2 fun _ => ?_
      have hpos : byteLen len - 1 < (List.replicate (byteLen len) (255 : UInt8)).length := by
        rw [List.length_replicate, byteLen]
        omega
      rw [List.length_modify, List.length_replicate, Lists.getD_modify hpos, if_pos rfl,
        UInt8.and_assoc, UInt8.and_comm (~~~ _), UInt8.and_not_self, UInt8.and_zero]

/-! ## What `has` says -/

@[simp] theorem len_empty (n : Nat) : (empty n).len = n := rfl

@[simp] theorem len_full (n : Nat) : (full n).len = n := rfl

@[simp] theorem len_set (b : Bitfield) (i : Nat) : (b.set i).len = b.len := by
  unfold set
  split <;> rfl

@[simp] theorem len_clear (b : Bitfield) (i : Nat) : (b.clear i).len = b.len := by
  unfold clear
  split <;> rfl

theorem lt_of_has {b : Bitfield} {i : Nat} (h : b.has i = true) : i < b.len := by
  simp only [has, Bool.and_eq_true, decide_eq_true_eq] at h
  exact h.1

@[simp] theorem has_empty (n i : Nat) : (empty n).has i = false := by
  unfold has
  rw [bitAt_eq]
  simp only [empty, Lists.getD_replicate]
  split <;> simp

theorem has_set (b : Bitfield) (i j : Nat) :
    (b.set i).has j = (decide (j = i ∧ i < b.len) || b.has j) := by
  unfold set
  split
  · rename_i h
    simp only [has, bitAt_modify_or (byte_lt h)]
    by_cases hji : j = i
    · simp [hji, h]
    · have hbeq : (j == i) = false := beq_eq_false_iff_ne.2 hji
      simp [hji, hbeq]
  · rename_i h
    simp [h]

theorem has_clear (b : Bitfield) (i j : Nat) : (b.clear i).has j = (decide (j ≠ i) && b.has j) := by
  unfold clear
  split
  · rename_i h
    simp only [has, bitAt_modify_andNot (byte_lt h)]
    by_cases hji : j = i
    · simp [hji]
    · have hbne : (j != i) = true := bne_iff_ne.2 hji
      simp [hji, hbne]
  · rename_i h
    by_cases hji : j = i
    · simp [hji, has, h]
    · simp [hji]

theorem mem_iterPresent {b : Bitfield} {i : Nat} : i ∈ b.iterPresent ↔ b.has i = true := by
  rw [iterPresent, List.mem_filter, List.mem_range]
  exact ⟨fun h => h.2, fun h => ⟨lt_of_has h, h⟩⟩

/-- A bitfield's own bytes are accepted back. -/
theorem fromBytes_bits (b : Bitfield) : fromBytes b.bits b.len = .ok b := by
  have hspare := (spare_iff b.length_bits).1 b.spare
  unfold fromBytes
  rw [dif_pos b.length_bits, dif_pos hspare]

/-- What `fromBytes` accepts keeps its bytes. -/
theorem fromBytes_ok {bytes : Bytes} {n : Nat} {b : Bitfield} (h : fromBytes bytes n = .ok b) :
    b.bits = bytes ∧ b.len = n := by
  unfold fromBytes at h
  split at h
  · split at h
    · cases h
      exact ⟨rfl, rfl⟩
    · cases h
  · cases h

end Bitfield

end Clove
