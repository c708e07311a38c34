import Mathlib.Tactic
import Mathlib.Data.Nat.Digits.Lemmas

/-!
# Regrouping bits

A text of digits of `k` bits each is put out again as digits of `m` bits each.  A digit is taken in
at the low end of a buffer (`push`) and put out from above the bits that are held (`emit`).  What is
held at the end is put out with zero bits after it (`Holds.spells`).  Going back gives the first
text and leaves these zero bits (`Spells.read`), and no other text of its length spells it
(`Spells.unique`).
-/

namespace Regroup

/-- The number that digits of `k` bits stand for, most significant first. -/
def number (k : Nat) (ds : List Nat) : Nat := Nat.ofDigits (2 ^ k) ds.reverse

theorem number_snoc (k : Nat) (ds : List Nat) (d : Nat) :
    number k (ds ++ [d]) = number k ds * 2 ^ k + d := by
  rw [number, List.reverse_append, List.reverse_singleton, List.singleton_append,
    Nat.ofDigits_cons, number, Nat.mul_comm, Nat.add_comm]

theorem number_eq_foldl (k : Nat) (ds : List Nat) :
    number k ds = ds.foldl (fun n d => n * 2 ^ k + d) 0 := by
  induction ds using List.reverseRecOn with
  | nil => rfl
  | append_singleton ds d ih => rw [number_snoc, ih, List.foldl_append, List.foldl_cons, List.foldl_nil]

theorem number_one (k a : Nat) : number k [a] = a := by simp [number_eq_foldl]

theorem number_two (k a b : Nat) : number k [a, b] = a * 2 ^ k + b := by simp [number_eq_foldl]

theorem number_three (k a b c : Nat) : number k [a, b, c] = (a * 2 ^ k + b) * 2 ^ k + c := by
  simp [number_eq_foldl]

theorem number_four (k a b c d : Nat) :
    number k [a, b, c, d] = ((a * 2 ^ k + b) * 2 ^ k + c) * 2 ^ k + d := by
  simp [number_eq_foldl]

theorem number_append (k : Nat) (xs ys : List Nat) :
    number k (xs ++ ys) = number k xs * 2 ^ (k * ys.length) + number k ys := by
  rw [number, List.reverse_append, Nat.ofDigits_append, List.length_reverse, ← Nat.pow_mul, number,
    number]
  ring

/-- Digits are told apart by their number. -/
theorem number_inj {k : Nat} (hk : 0 < k) {xs ys : List Nat} (hlength : xs.length = ys.length)
    (hxs : ∀ d ∈ xs, d < 2 ^ k) (hys : ∀ d ∈ ys, d < 2 ^ k) (h : number k xs = number k ys) :
    xs = ys := by
  refine List.reverse_injective (Nat.ofDigits_inj_of_len_eq (Nat.one_lt_two_pow hk.ne') ?_ ?_ ?_ h)
  · rw [List.length_reverse, List.length_reverse, hlength]
  · exact fun d hd => hxs d (List.mem_reverse.1 hd)
  · exact fun d hd => hys d (List.mem_reverse.1 hd)

/-- What was taken in is what was put out, with the bits held after it. -/
structure Holds (k m : Nat) (ins outs : List Nat) (buffer bits : Nat) : Prop where
  value : number k ins = number m outs * 2 ^ bits + buffer % 2 ^ bits
  length : k * ins.length = m * outs.length + bits
  digits : ∀ d ∈ outs, d < 2 ^ m

theorem holds_nil (k m buffer : Nat) : Holds k m [] [] buffer 0 :=
  ⟨by simp [number, Nat.mod_one], by simp, by simp⟩

variable {k m bits buffer d : Nat} {ins outs : List Nat}

/-- A digit is taken in at the low end of a buffer that is wide enough. -/
theorem Holds.push (h : Holds k m ins outs buffer bits) (hd : d < 2 ^ k) {width : Nat}
    (hwidth : bits + k ≤ width) :
    Holds k m (ins ++ [d]) outs ((buffer * 2 ^ k + d) % 2 ^ width) (bits + k) := by
  have hlow : (buffer * 2 ^ k + d) % 2 ^ width % 2 ^ (bits + k) = buffer % 2 ^ bits * 2 ^ k + d := by
    rw [Nat.mod_mod_of_dvd _ (Nat.pow_dvd_pow 2 hwidth)]
    have hsmall : buffer % 2 ^ bits * 2 ^ k + d < 2 ^ (bits + k) := by
      have hlt : buffer % 2 ^ bits + 1 ≤ 2 ^ bits := Nat.mod_lt _ (Nat.two_pow_pos bits)
      calc buffer % 2 ^ bits * 2 ^ k + d < buffer % 2 ^ bits * 2 ^ k + 2 ^ k := by omega
        _ = (buffer % 2 ^ bits + 1) * 2 ^ k := by rw [Nat.add_mul, Nat.one_mul]
        _ ≤ 2 ^ bits * 2 ^ k := Nat.mul_le_mul_right _ hlt
        _ = 2 ^ (bits + k) := (Nat.pow_add 2 bits k).symm
    have hsplit : buffer * 2 ^ k + d =
        buffer % 2 ^ bits * 2 ^ k + d + 2 ^ (bits + k) * (buffer / 2 ^ bits) := by
      have hdiv := Nat.mod_add_div buffer (2 ^ bits)
      calc buffer * 2 ^ k + d
          = (buffer % 2 ^ bits + 2 ^ bits * (buffer / 2 ^ bits)) * 2 ^ k + d := by rw [hdiv]
        _ = buffer % 2 ^ bits * 2 ^ k + d + 2 ^ (bits + k) * (buffer / 2 ^ bits) := by
            rw [Nat.pow_add]
            ring
    rw [hsplit, Nat.add_mul_mod_self_left, Nat.mod_eq_of_lt hsmall]
  refine ⟨?_, ?_, h.digits⟩
  · rw [number_snoc, hlow, h.value, Nat.pow_add]
    ring
  · have hlength := h.length
    rw [List.length_append, List.length_singleton, Nat.mul_add, hlength]
    omega

/-- A digit is put out from above the bits that stay. -/
theorem Holds.emit (h : Holds k m ins outs buffer (bits + m)) :
    Holds k m ins (outs ++ [buffer / 2 ^ bits % 2 ^ m]) buffer bits := by
  refine ⟨?_, ?_, ?_⟩
  · have hmod : buffer % 2 ^ (bits + m) = buffer % 2 ^ bits + 2 ^ bits * (buffer / 2 ^ bits % 2 ^ m) := by
      rw [Nat.pow_add, Nat.mod_mul]
    rw [number_snoc, h.value, hmod, Nat.pow_add]
    ring
  · have hlength := h.length
    rw [List.length_append, List.length_singleton, Nat.mul_add, hlength]
    omega
  · intro d hd
    rcases List.mem_append.1 hd with hd | hd
    · exact h.digits d hd
    · rw [List.mem_singleton.1 hd]
      exact Nat.mod_lt _ (Nat.two_pow_pos m)

/-! ## Padding -/

/-- The digits of `m` bits say what those of `k` bits do, and `pad` zero bits after it. -/
structure Spells (k m : Nat) (ins outs : List Nat) (pad : Nat) : Prop where
  value : number m outs = number k ins * 2 ^ pad
  length : m * outs.length = k * ins.length + pad
  digits : ∀ d ∈ outs, d < 2 ^ m

/-- What spells without padding may stand before any other text. -/
theorem Spells.append {ins' outs' : List Nat} {pad : Nat} (h : Spells k m ins outs 0)
    (h' : Spells k m ins' outs' pad) : Spells k m (ins ++ ins') (outs ++ outs') pad := by
  have hlength := h.length
  have hlength' := h'.length
  refine ⟨?_, ?_, ?_⟩
  · rw [number_append, number_append, h.value, h'.value, hlength', Nat.pow_add, Nat.pow_zero]
    ring
  · rw [List.length_append, List.length_append, Nat.mul_add, Nat.mul_add]
    omega
  · exact fun d hd => (List.mem_append.1 hd).elim (h.digits d) (h'.digits d)

/-- What is still held is put out as a last digit, its low bits zero. -/
theorem Holds.spells (h : Holds k m ins outs buffer bits) (hfew : bits < m) :
    Spells k m ins
      (if 0 < bits then outs ++ [buffer * 2 ^ (m - bits) % 2 ^ m] else outs)
      (if 0 < bits then m - bits else 0) := by
  by_cases hbits : 0 < bits
  · rw [if_pos hbits, if_pos hbits]
    obtain ⟨pad, rfl⟩ := Nat.exists_eq_add_of_le hfew.le
    rw [Nat.add_sub_cancel_left]
    have hlast : buffer * 2 ^ pad % 2 ^ (bits + pad) = buffer % 2 ^ bits * 2 ^ pad := by
      rw [Nat.pow_add, Nat.mul_mod_mul_right]
    refine ⟨?_, ?_, ?_⟩
    · rw [number_snoc, hlast, h.value, Nat.pow_add]
      ring
    · have hlength := h.length
      rw [List.length_append, List.length_singleton, Nat.mul_add, hlength]
      omega
    · intro d hd
      cases List.mem_append.1 hd with
      | inl hold => exact h.digits d hold
      | inr hnew =>
          rw [List.mem_singleton.1 hnew]
          exact Nat.mod_lt _ (Nat.two_pow_pos _)
  · obtain rfl : bits = 0 := Nat.eq_zero_of_not_pos hbits
    rw [if_neg hbits, if_neg hbits]
    refine ⟨?_, h.length.symm, h.digits⟩
    have hvalue := h.value
    rw [Nat.pow_zero, Nat.mod_one, Nat.add_zero, Nat.mul_one] at hvalue
    rw [Nat.pow_zero, Nat.mul_one, hvalue]

/-- What is less than a digit is told by how far it is from one. -/
theorem rest_unique {a b base rest rest' : Nat} (h : m * a = base + rest)
    (h' : m * b = base + rest') (hfew : rest < m) (hfew' : rest' < m) : rest = rest' := by
  have hzero : base + rest ≡ base + rest' [MOD m] := by
    rw [← h, ← h']
    exact (Nat.modEq_zero_iff_dvd.2 (Nat.dvd_mul_right m a)).trans
      (Nat.modEq_zero_iff_dvd.2 (Nat.dvd_mul_right m b)).symm
  exact (Nat.ModEq.add_left_cancel' base hzero).eq_of_lt_of_lt hfew hfew'

/-- Less than a digit of zero bits is added in one way. -/
theorem Spells.unique {outs' : List Nat} {pad pad' : Nat} (h : Spells k m ins outs pad)
    (h' : Spells k m ins outs' pad') (hfew : pad < m) (hfew' : pad' < m) : outs = outs' := by
  obtain rfl := rest_unique h.length h'.length hfew hfew'
  have hm : 0 < m := Nat.zero_lt_of_lt hfew
  exact number_inj hm (Nat.eq_of_mul_eq_mul_left hm (h.length.trans h'.length.symm)) h.digits
    h'.digits (h.value.trans h'.value.symm)

/-- A text is what is put out from any text that spells it, and the bits then held are zero. -/
theorem Spells.read {backs : List Nat} {pad : Nat} (h : Spells k m ins outs pad)
    (hback : Holds m k outs backs buffer bits) (hins : ∀ d ∈ ins, d < 2 ^ k) (hpad : pad < k)
    (hfew : bits < k) : backs = ins ∧ buffer % 2 ^ bits = 0 := by
  have hlength : k * ins.length + pad = k * backs.length + bits := h.length.symm.trans hback.length
  have hdigits : ins.length = backs.length := by
    have hdiv := congrArg (· / k) hlength
    simpa [Nat.mul_add_div (Nat.zero_lt_of_lt hpad), Nat.div_eq_of_lt hpad,
      Nat.div_eq_of_lt hfew] using hdiv
  obtain rfl : pad = bits := by
    rw [hdigits] at hlength
    exact Nat.add_left_cancel hlength
  have hvalue : number k ins * 2 ^ pad = number k backs * 2 ^ pad + buffer % 2 ^ pad :=
    h.value.symm.trans hback.value
  have hzero : buffer % 2 ^ pad = 0 := by
    have hmod := congrArg (· % 2 ^ pad) hvalue
    simpa [Nat.mul_mod_left, Nat.mul_add_mod_self_right] using hmod.symm
  rw [hzero, Nat.add_zero] at hvalue
  exact ⟨number_inj (Nat.zero_lt_of_lt hpad) hdigits.symm hback.digits hins
    (Nat.eq_of_mul_eq_mul_right (Nat.two_pow_pos pad) hvalue).symm, hzero⟩

/-- What is put out when the bits then held are zero is spelled by what was taken in. -/
theorem Holds.spelled (h : Holds k m ins outs buffer bits) (hins : ∀ d ∈ ins, d < 2 ^ k)
    (hzero : buffer % 2 ^ bits = 0) : Spells m k outs ins bits :=
  ⟨by rw [h.value, hzero, Nat.add_zero], h.length, hins⟩

end Regroup
