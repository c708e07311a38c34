import Mathlib.Tactic

/-!
# Decimal numerals

Numbers written in ASCII decimal without a leading zero.  `digits` writes one and
`ofDigits` reads one; `ofDigits_digits` and `digits_ofDigits` say they are inverse, the
second for the texts a strict reader accepts: nonempty, all digits, and starting with `0`
only when that is the whole numeral.
-/

namespace Decimal

/-- The text of a number, most significant digit first. -/
def digits (n : Nat) : List UInt8 := (Nat.toDigits 10 n).map fun c => UInt8.ofNat c.toNat

def isDigit (b : UInt8) : Bool := 48 ≤ b && b ≤ 57

/-- The value of a digit. -/
def digitVal (b : UInt8) : Nat := b.toNat - 48

/-- The number a run of digits stands for after `acc`. -/
def ofDigits (acc : Nat) (t : List UInt8) : Nat :=
  t.foldl (fun a b => a * 10 + digitVal b) acc

@[simp] theorem ofDigits_nil (acc : Nat) : ofDigits acc [] = acc := rfl

@[simp] theorem ofDigits_cons (acc : Nat) (b : UInt8) (t : List UInt8) :
    ofDigits acc (b :: t) = ofDigits (acc * 10 + digitVal b) t := by
  simp only [ofDigits, List.foldl_cons]

/-- A number no larger than this, as the standard library reads an unsigned one: a plus sign may
lead. -/
def parse (max : Nat) (s : List UInt8) : Option Nat :=
  let t := if s.head? = some 43 then s.tail else s
  if t = [] || !t.all isDigit then none
  else if ofDigits 0 t ≤ max then some (ofDigits 0 t) else none

theorem ofDigits_append (acc : Nat) (s t : List UInt8) :
    ofDigits acc (s ++ t) = ofDigits (ofDigits acc s) t := by
  simp [ofDigits]

theorem isDigit_iff {b : UInt8} : isDigit b = true ↔ 48 ≤ b.toNat ∧ b.toNat ≤ 57 := by
  simp [isDigit, UInt8.le_iff_toNat_le]

theorem digitVal_lt {b : UInt8} (h : isDigit b = true) : digitVal b < 10 := by
  have := isDigit_iff.1 h
  unfold digitVal
  omega

/-- The digit of a number below ten. -/
theorem digits_of_lt {n : Nat} (h : n < 10) : digits n = [UInt8.ofNat (48 + n)] := by
  rw [digits, Nat.toDigits_of_lt_base h, List.map_singleton, Nat.toNat_digitChar_of_lt_ten h]

theorem digits_of_ge {n : Nat} (h : 10 ≤ n) :
    digits n = digits (n / 10) ++ [UInt8.ofNat (48 + n % 10)] := by
  have hmod : n % 10 < 10 := Nat.mod_lt _ (by decide)
  rw [digits, Nat.toDigits_of_base_le (by decide) h, List.map_append, List.map_singleton,
    Nat.toNat_digitChar_of_lt_ten hmod]
  rfl

/-- A number below a power of ten has no more digits than the exponent. -/
theorem length_digits_le {n k : Nat} (h : n < 10 ^ (k + 1)) : (digits n).length ≤ k + 1 := by
  induction k generalizing n with
  | zero => rw [digits_of_lt (by simpa using h), List.length_singleton]
  | succ k ih =>
      by_cases hlt : n < 10
      · rw [digits_of_lt hlt, List.length_singleton]
        omega
      · have hdiv : n / 10 < 10 ^ (k + 1) := by
          rw [Nat.pow_succ] at h
          omega
        rw [digits_of_ge (Nat.not_lt.1 hlt), List.length_append, List.length_singleton]
        have := ih hdiv
        omega

theorem digitVal_ofNat {d : Nat} (h : d < 10) : digitVal (UInt8.ofNat (48 + d)) = d := by
  have : (UInt8.ofNat (48 + d)).toNat = 48 + d := by
    rw [UInt8.toNat_ofNat']
    omega
  rw [digitVal, this]
  omega

theorem isDigit_ofNat {d : Nat} (h : d < 10) : isDigit (UInt8.ofNat (48 + d)) = true := by
  rw [isDigit_iff, UInt8.toNat_ofNat']
  omega

theorem ofNat_digitVal {b : UInt8} (h : isDigit b = true) :
    UInt8.ofNat (48 + digitVal b) = b := by
  have := isDigit_iff.1 h
  have hsum : 48 + digitVal b = b.toNat := by
    unfold digitVal
    omega
  rw [hsum, UInt8.ofNat_toNat]

theorem isDigit_of_mem_digits (n : Nat) : ∀ b ∈ digits n, isDigit b = true := by
  induction n using Nat.strong_induction_on with
  | _ n ih =>
      by_cases h : n < 10
      · rw [digits_of_lt h]
        intro b hb
        rw [List.mem_singleton.1 hb]
        exact isDigit_ofNat h
      · rw [digits_of_ge (Nat.le_of_not_lt h)]
        intro b hb
        rcases List.mem_append.1 hb with hb | hb
        · exact ih (n / 10) (by omega) b hb
        · rw [List.mem_singleton.1 hb]
          exact isDigit_ofNat (Nat.mod_lt _ (by decide))

/-- Reading back what was written. -/
theorem ofDigits_digits (n : Nat) : ofDigits 0 (digits n) = n := by
  induction n using Nat.strong_induction_on with
  | _ n ih =>
      by_cases h : n < 10
      · rw [digits_of_lt h]
        rw [ofDigits_cons, ofDigits_nil, digitVal_ofNat h, Nat.zero_mul, Nat.zero_add]
      · have hmod : n % 10 < 10 := Nat.mod_lt _ (by decide)
        rw [digits_of_ge (Nat.le_of_not_lt h), ofDigits_append, ih (n / 10) (by omega)]
        simp only [ofDigits_cons, ofDigits_nil, digitVal_ofNat hmod]
        omega

theorem digits_ne_nil (n : Nat) : digits n ≠ [] := by
  simp [digits, Nat.toDigits_ne_nil]

theorem digits_zero : digits 0 = [48] := by decide

/-- Digits after a positive number extend its numeral. -/
theorem digits_ofDigits_pos {acc : Nat} (hacc : 0 < acc) {t : List UInt8}
    (ht : ∀ b ∈ t, isDigit b = true) : digits (ofDigits acc t) = digits acc ++ t := by
  induction t generalizing acc with
  | nil => simp
  | cons b t ih =>
      have hb : isDigit b = true := ht b List.mem_cons_self
      have hval := digitVal_lt hb
      have hdiv : (acc * 10 + digitVal b) / 10 = acc := by omega
      have hmod : (acc * 10 + digitVal b) % 10 = digitVal b := by omega
      rw [ofDigits_cons, ih (by omega) fun c hc => ht c (List.mem_cons_of_mem _ hc),
        digits_of_ge (by omega), hdiv, hmod, ofNat_digitVal hb]
      simp

/-- A strict numeral is the text of the number it stands for. -/
theorem digits_ofDigits {t : List UInt8} (hne : t ≠ []) (ht : ∀ b ∈ t, isDigit b = true)
    (hlead : ¬ (t.length > 1 ∧ t.head? = some 48)) : digits (ofDigits 0 t) = t := by
  cases t with
  | nil => exact absurd rfl hne
  | cons b t =>
      have hb : isDigit b = true := ht b List.mem_cons_self
      have hval := digitVal_lt hb
      rw [ofDigits_cons, Nat.zero_mul, Nat.zero_add]
      by_cases hzero : digitVal b = 0
      · -- a leading zero is the whole numeral
        have hb48 : b = 48 := by
          rw [← ofNat_digitVal hb, hzero]
          decide
        have htnil : t = [] := by
          by_contra hcons
          apply hlead
          refine ⟨?_, by simp [hb48]⟩
          have := List.length_pos_of_ne_nil hcons
          simp
          omega
        rw [htnil, hzero, hb48]
        exact digits_zero
      · rw [digits_ofDigits_pos (Nat.pos_of_ne_zero hzero)
          fun c hc => ht c (List.mem_cons_of_mem _ hc), digits_of_lt hval, ofNat_digitVal hb]
        simp

/-- The first digit of a numeral is zero only for zero. -/
theorem head_digits (n : Nat) : ¬ ((digits n).length > 1 ∧ (digits n).head? = some 48) := by
  induction n using Nat.strong_induction_on with
  | _ n ih =>
      by_cases h : n < 10
      · rw [digits_of_lt h]
        simp
      · rw [digits_of_ge (Nat.le_of_not_lt h)]
        rintro ⟨-, hhead⟩
        have hne := digits_ne_nil (n / 10)
        rw [List.head?_append_of_ne_nil _ hne] at hhead
        by_cases hsmall : n / 10 < 10
        · rw [digits_of_lt hsmall, List.head?_cons, Option.some.injEq] at hhead
          have hval := congrArg digitVal hhead
          rw [digitVal_ofNat hsmall] at hval
          have : digitVal 48 = 0 := by decide
          omega
        · refine ih (n / 10) (by omega) ⟨?_, hhead⟩
          rw [digits_of_ge (Nat.le_of_not_lt hsmall), List.length_append]
          have := List.length_pos_of_ne_nil (digits_ne_nil (n / 10 / 10))
          simp
          omega

theorem le_ofDigits (acc : Nat) (t : List UInt8) : acc ≤ ofDigits acc t := by
  induction t generalizing acc with
  | nil => simp
  | cons b t ih =>
      rw [ofDigits_cons]
      exact le_trans (by omega) (ih _)

theorem parse_le {max n : Nat} {s : List UInt8} (h : parse max s = some n) : n ≤ max := by
  simp only [parse] at h
  generalize (if s.head? = some 43 then s.tail else s) = t at h
  split at h
  · cases h
  · split at h
    · rename_i hle
      exact Option.some.inj h ▸ hle
    · cases h

theorem parse_digits {max : Nat} {s : List UInt8} (hne : s ≠ []) (hs : s.all isDigit = true) :
    parse max s = if ofDigits 0 s ≤ max then some (ofDigits 0 s) else none := by
  have hsign : s.head? ≠ some 43 := by
    intro hhead
    have hdigit := List.all_eq_true.1 hs 43 (List.mem_of_mem_head? hhead)
    exact absurd hdigit (by decide)
  simp [parse, hsign, hne, hs]

theorem of_parse {max n : Nat} {s : List UInt8} (hsign : s.head? ≠ some 43)
    (h : parse max s = some n) :
    s ≠ [] ∧ (∀ b ∈ s, isDigit b = true) ∧ n = ofDigits 0 s ∧ n ≤ max := by
  have hle := parse_le h
  rw [parse, if_neg hsign] at h
  split at h
  · cases h
  · rename_i hdigits
    simp only [Bool.or_eq_true, decide_eq_true_eq, Bool.not_eq_true', not_or,
      Bool.not_eq_false] at hdigits
    split at h
    · exact ⟨hdigits.1, List.all_eq_true.1 hdigits.2, (Option.some.inj h).symm, hle⟩
    · cases h

end Decimal
