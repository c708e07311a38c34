import Mathlib.Algebra.Order.Floor.Div
import Mathlib.Data.Set.Card
import Clove.Bitfield

/-!
# Bitfields as sets of indices

`Built len S f` says that calls of `bitfield.rs` have made `f` for `len` pieces, and that a
reader who only follows the calls expects it to hold the indices in `S`.  `has` answers for
`S` (`Built.has_iff`), two bitfields that `has` does not tell apart have the same bytes
(`ext_has`), and `count`, which adds up the ones of all bytes, counts `S`, since no byte has a
one past the last piece (`count_eq`).  `built_canonical` puts them together.
-/

namespace Clove

/-- `u8::count_ones`. -/
def countOnes (byte : UInt8) : Nat := byte.toBitVec.cpop.toNat

/-- The ones of a byte are its set bits. -/
theorem countOnes_eq (byte : UInt8) :
    countOnes byte = (List.range 8).countP fun k => byte.toNat.testBit (7 - k) := by
  cases byte with
  | ofBitVec byte =>
    cases byte with
    | ofFin byte =>
      revert byte
      decide +kernel

/-- In all bytes together there are as many ones as set positions. -/
theorem sum_countOnes (bits : Bytes) :
    (bits.map countOnes).sum = (List.range (8 * bits.length)).countP (bitAt bits) := by
  induction bits with
  | nil => rfl
  | cons byte bits ih =>
      have hfirst : ∀ k ∈ List.range 8,
          bitAt (byte :: bits) k = true ↔ byte.toNat.testBit (7 - k) = true := by
        intro k hk
        have hk' : k < 8 := List.mem_range.1 hk
        rw [bitAt_eq, Nat.div_eq_of_lt hk', Nat.mod_eq_of_lt hk', List.getD_cons_zero]
      have hrest : bitAt (byte :: bits) ∘ (8 + ·) = bitAt bits := by
        funext k
        have hdiv : (8 + k) / 8 = k / 8 + 1 := by omega
        have hmod : (8 + k) % 8 = k % 8 := by omega
        rw [Function.comp_apply, bitAt_eq, hdiv, hmod, List.getD_cons_succ, bitAt_eq]
      rw [List.map_cons, List.sum_cons, List.length_cons, Nat.mul_succ, Nat.add_comm _ 8,
        List.range_add, List.countP_append, List.countP_congr hfirst, ← countOnes_eq,
        List.countP_map, hrest, ih]

namespace Bitfield

/-! ## The operations that count -/

/-- How many pieces are present: the ones of all bytes. -/
def count (b : Bitfield) : Nat := (b.bits.map countOnes).sum

theorem has_eq_bitAt (b : Bitfield) (i : Nat) : b.has i = bitAt b.bits i := by
  unfold has
  by_cases h : i < b.len
  · simp [h]
  · simp [h, b.spare i (Nat.le_of_not_lt h)]

theorem len_le (b : Bitfield) : b.len ≤ 8 * b.bits.length := by
  rw [b.length_bits, byteLen]
  omega

/-- The spare bits are zero, so the ones of the bytes are the pieces present. -/
theorem count_eq (b : Bitfield) : b.count = b.iterPresent.length := by
  obtain ⟨spare, hspare⟩ := Nat.exists_eq_add_of_le b.len_le
  have hzero : ((List.range spare).map (b.len + ·)).countP (bitAt b.bits) = 0 := by
    rw [List.countP_eq_zero]
    intro i hi
    obtain ⟨k, _, rfl⟩ := List.mem_map.1 hi
    simp [b.spare (b.len + k) (Nat.le_add_right _ _)]
  have hhas : bitAt b.bits = b.has := by
    funext i
    exact (b.has_eq_bitAt i).symm
  rw [count, sum_countOnes, hspare, List.range_add, List.countP_append, hzero, Nat.add_zero,
    hhas, List.countP_eq_length_filter, iterPresent]

/-- So the sum of the ones never leaves the integers `len` is of. -/
theorem count_le_len (b : Bitfield) : b.count ≤ b.len := by
  rw [count_eq, iterPresent]
  exact (List.length_filter_le _ _).trans (List.length_range).le

/-- The indices present come in ascending order. -/
theorem iterPresent_ascending (b : Bitfield) : b.iterPresent.Pairwise (· < ·) :=
  List.pairwise_lt_range.filter _

/-! ## Two bitfields with the same members -/

/-- The byte of a position is decided by its eight bits. -/
theorem byte_ext {x y : UInt8} (h : ∀ k < 8, x.toNat.testBit (7 - k) = y.toNat.testBit (7 - k)) :
    x = y := by
  apply UInt8.toNat_inj.1
  apply Nat.eq_of_testBit_eq
  intro k
  by_cases hk : k < 8
  · have hbit := h (7 - k) (by omega)
    rwa [show 7 - (7 - k) = k by omega] at hbit
  · have hpow : 2 ^ 8 ≤ 2 ^ k := Nat.pow_le_pow_right (by decide) (by omega)
    rw [Nat.testBit_lt_two_pow (x.toNat_lt.trans_le hpow),
      Nat.testBit_lt_two_pow (y.toNat_lt.trans_le hpow)]

/-- The bytes of a bitfield are canonical: `has` decides them. -/
theorem ext_has {f g : Bitfield} (hlen : f.len = g.len) (hhas : ∀ i, f.has i = g.has i) : f = g := by
  have hbits : f.bits = g.bits := by
    apply List.ext_getElem (by rw [f.length_bits, g.length_bits, hlen])
    intro n hf hg
    apply byte_ext
    intro k hk
    have hbit := hhas (8 * n + k)
    have hdiv : (8 * n + k) / 8 = n := by omega
    have hmod : (8 * n + k) % 8 = k := by omega
    rw [has_eq_bitAt, has_eq_bitAt, bitAt_eq, bitAt_eq, hdiv, hmod] at hbit
    rwa [List.getD_eq_getElem _ _ hf, List.getD_eq_getElem _ _ hg] at hbit
  cases f
  cases g
  cases hlen
  cases hbits
  rfl

/-! ## What is built -/

theorem has_full (n i : Nat) : (full n).has i = decide (i < n) := by
  have hlast : ∀ used < 8, ∀ k < used,
      ((255 : UInt8) &&& ~~~ spareMask used).toNat.testBit (7 - k) = true := by
    decide
  have hones : ∀ k < 8, (255 : UInt8).toNat.testBit (7 - k) = true := by
    decide
  by_cases h : i < n
  · have hbyte : i / 8 < byteLen n := by
      rw [byteLen]
      omega
    have hmod : i % 8 < 8 := Nat.mod_lt _ (by decide)
    have hreplicate : (List.replicate (byteLen n) (255 : UInt8)).getD (i / 8) 0 = 255 := by
      rw [Lists.getD_replicate, if_pos hbyte]
    rw [has_eq_bitAt, bitAt_eq, decide_eq_true h]
    simp only [full]
    split
    · rw [hreplicate]
      exact hones _ hmod
    · have hpos : byteLen n - 1 < (List.replicate (byteLen n) (255 : UInt8)).length := by
        rw [List.length_replicate]
        omega
      rw [Lists.getD_modify hpos, hreplicate]
      split
      · rename_i heq
        rw [byteLen] at heq
        exact hlast _ (Nat.mod_lt _ (by decide)) _ (by omega)
      · exact hones _ hmod
  · simp [has, h]

/-- `f` has been made for `len` pieces, and who follows the calls expects it to hold `S`. -/
inductive Built (len : Nat) : Set Nat → Bitfield → Prop
  | empty : Built len ∅ (empty len)
  | full : Built len {i | i < len} (full len)
  | fromBytes {bytes : Bytes} {f : Bitfield} (h : fromBytes bytes len = .ok f) :
      Built len {i | i < len ∧ bitAt bytes i = true} f
  | set {S : Set Nat} {f : Bitfield} (i : Nat) (h : Built len S f) :
      Built len {j | j ∈ S ∨ j = i ∧ i < len} (f.set i)
  | clear {S : Set Nat} {f : Bitfield} (i : Nat) (h : Built len S f) :
      Built len (S \ {i}) (f.clear i)

theorem Built.len_eq {n : Nat} {S : Set Nat} {f : Bitfield} (h : Built n S f) : f.len = n := by
  induction h with
  | empty => rfl
  | full => rfl
  | fromBytes h => exact (fromBytes_ok h).2
  | set i _ ih => rw [len_set, ih]
  | clear i _ ih => rw [len_clear, ih]

theorem Built.has_iff {n : Nat} {S : Set Nat} {f : Bitfield} (h : Built n S f) (i : Nat) :
    f.has i = true ↔ i ∈ S := by
  induction h with
  | empty => simp
  | full => simp [has_full]
  | fromBytes h =>
      obtain ⟨hbits, hlen⟩ := fromBytes_ok h
      simp [has, hbits, hlen]
  | set j h ih => simp [has_set, h.len_eq, ih, or_comm]
  | clear j _ ih => simp [has_clear, ih, and_comm]

/-- The calls that end at equal bitfields expect the same of them, and the other way round. -/
theorem Built.eq_iff {n : Nat} {S S' : Set Nat} {f g : Bitfield} (hf : Built n S f)
    (hg : Built n S' g) : f = g ↔ S = S' := by
  constructor
  · intro h
    cases h
    ext i
    rw [← hf.has_iff, hg.has_iff]
  · intro h
    cases h
    exact ext_has (hf.len_eq.trans hg.len_eq.symm) fun i =>
      Bool.eq_iff_iff.2 ((hf.has_iff i).trans (hg.has_iff i).symm)

theorem Built.count_eq {n : Nat} {S : Set Nat} {f : Bitfield} (h : Built n S f) :
    f.count = S.ncard := by
  have hmem : S = (f.iterPresent.toFinset : Set Nat) := by
    ext i
    rw [Finset.mem_coe, List.mem_toFinset, mem_iterPresent, h.has_iff]
  have hnodup : f.iterPresent.Nodup := f.iterPresent_ascending.imp Nat.ne_of_lt
  rw [hmem, Set.ncard_coe_finset, List.toFinset_card_of_nodup hnodup, Bitfield.count_eq]

/-- Bytes are accepted exactly when they are as many as `n` pieces need and have no bit past
the last one. -/
theorem fromBytes_isOk_iff (bytes : Bytes) (n : Nat) :
    (∃ f, fromBytes bytes n = .ok f) ↔
      bytes.length = byteLen n ∧ ∀ i, n ≤ i → bitAt bytes i = false := by
  constructor
  · rintro ⟨f, h⟩
    obtain ⟨hbits, hlen⟩ := fromBytes_ok h
    exact ⟨by rw [← hbits, ← hlen, f.length_bits], by rw [← hbits, ← hlen]; exact f.spare⟩
  · rintro ⟨hlen, hspare⟩
    exact ⟨⟨bytes, n, hlen, hspare⟩, fromBytes_bits ⟨bytes, n, hlen, hspare⟩⟩

theorem byteLen_eq (n : Nat) : byteLen n = n ⌈/⌉ 8 := (Nat.ceilDiv_eq_add_pred_div n 8).symm

/-- Whatever has been built is a set of indices in its one byte form. -/
theorem built_canonical {n : Nat} {S : Set Nat} {f : Bitfield} (h : Built n S f) :
    f.len = n ∧ f.bits.length = n ⌈/⌉ 8 ∧ (∀ i, n ≤ i → bitAt f.bits i = false) ∧
    (∀ i, f.has i = true ↔ i ∈ S) ∧
    f.count = S.ncard ∧ f.count ≤ n ∧
    f.iterPresent.Pairwise (· < ·) ∧ (∀ i, i ∈ f.iterPresent ↔ i ∈ S) ∧
    (∀ S' g, Built n S' g → (f = g ↔ S = S')) ∧
    fromBytes f.bits n = .ok f ∧
    ∀ bytes m,
      ((∃ g, fromBytes bytes m = .ok g) ↔
        bytes.length = m ⌈/⌉ 8 ∧ ∀ i, m ≤ i → bitAt bytes i = false) ∧
      ∀ g, fromBytes bytes m = .ok g → g.bits = bytes ∧ g.len = m := by
  have hlen := h.len_eq
  refine ⟨hlen, ?_, ?_, h.has_iff, h.count_eq, ?_, f.iterPresent_ascending, ?_, ?_, ?_, ?_⟩
  · rw [f.length_bits, hlen, byteLen_eq]
  · exact hlen ▸ f.spare
  · exact hlen ▸ f.count_le_len
  · exact fun i => mem_iterPresent.trans (h.has_iff i)
  · exact fun S' g hg => h.eq_iff hg
  · exact hlen ▸ fromBytes_bits f
  · intro bytes m
    rw [← byteLen_eq]
    exact ⟨fromBytes_isOk_iff bytes m, fun g hg => fromBytes_ok hg⟩

theorem built_canonical_ten :
    (((empty 10).set 9).set 12).bits = [0, 64] ∧
    (((empty 10).set 9).set 12).count =
      Set.ncard {j | j ∈ {j | j ∈ (∅ : Set Nat) ∨ j = 9 ∧ 9 < 10} ∨ j = 12 ∧ 12 < 10} := by
  obtain ⟨_, _, _, _, hcount, _⟩ := built_canonical ((Built.empty.set 9).set 12)
  exact ⟨by decide, hcount⟩

end Bitfield

end Clove
