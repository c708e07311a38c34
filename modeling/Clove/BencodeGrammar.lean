import Clove.Bencode

/-!
# What the decoder accepts

`Derives n x v` says that the bytes `x` are a strict bencoding of the value `v` of nesting
height at most `n`.  Integers and byte strings have exactly one text each; a dictionary may
list its distinct keys in any order.

The decoder reads exactly this grammar.  `value_of_derives` says it accepts every
derivation in front of any further input, and `derives_of_value` that whatever it consumed
was one.  The node budget never matters: a value costs at least two bytes a node
(`Derives.two_mul_nodeCount_le`).
-/

namespace Clove.Bencode

open Decimal (digits isDigit digitVal ofDigits)

/-! ## The grammar -/

/-- Strict bencodings of height at most `n`. -/
inductive Derives : Nat → Bytes → Value → Prop where
  | bytes {n : Nat} {b : Bytes} : inUsize b.length = true → Derives (n + 1) (putBytes b) (.bytes b)
  | int {n : Nat} {i : Int} : inI64 i = true →
      Derives (n + 1) (105 :: (intText i ++ [101])) (.int i)
  | list {n : Nat} {xs : List (Bytes × Value)} : (∀ p ∈ xs, Derives n p.1 p.2) →
      Derives (n + 1) (108 :: (xs.flatMap Prod.fst ++ [101])) (.list (xs.map Prod.snd))
  | dict {n : Nat} {xs : List (Bytes × Bytes × Value)} :
      (∀ p ∈ xs, inUsize p.1.length = true) → (∀ p ∈ xs, Derives n p.2.1 p.2.2) →
      (xs.map Prod.fst).Nodup →
      Derives (n + 1) (100 :: (xs.flatMap (fun p => putBytes p.1 ++ p.2.1) ++ [101]))
        (.dict (OrdMap.ofEntries (xs.map fun p => (p.1, p.2.2))))

mutual

/-- The nodes of a value. -/
def nodeCount : Value → Nat
  | .bytes _ => 1
  | .int _ => 1
  | .list items => 1 + itemsCount items
  | .dict m => 1 + entriesCount m

def itemsCount : List Value → Nat
  | [] => 0
  | v :: vs => nodeCount v + itemsCount vs

def entriesCount : List (Bytes × Value) → Nat
  | [] => 0
  | (_, v) :: m => nodeCount v + entriesCount m

end

/-! ## Numerals -/

/-- A length read from its digits. -/
theorem lenDigits_append (start : Nat) {t : Bytes} (ht : ∀ b ∈ t, isDigit b = true)
    (rest : Bytes) (pos len count : Nat) (hfit : inUsize (ofDigits len t) = true) :
    lenDigits start (t ++ 58 :: rest) pos len count =
      .ok (ofDigits len t, count + t.length, 58 :: rest) := by
  induction t generalizing pos len count with
  | nil => simp [lenDigits]
  | cons b t ih =>
      have hb : isDigit b = true := ht b List.mem_cons_self
      have hcolon : b ≠ 58 := by
        rintro rfl
        exact absurd hb (by decide)
      rw [Decimal.ofDigits_cons] at hfit
      have hle := Decimal.le_ofDigits (len * 10 + digitVal b) t
      have hfit' : inUsize (len * 10 + digitVal b) = true := by
        simp only [inUsize, decide_eq_true_eq] at hfit ⊢
        omega
      have hmul : inUsize (len * 10) = true := by
        simp only [inUsize, decide_eq_true_eq] at hfit' ⊢
        omega
      simp only [List.cons_append, lenDigits, hcolon, hb, hmul, hfit', if_false, Bool.not_true,
        Bool.false_eq_true]
      rw [ih (fun c hc => ht c (List.mem_cons_of_mem _ hc)) _ _ _ hfit, Decimal.ofDigits_cons,
        List.length_cons, Nat.add_right_comm]
      rfl

/-- What a successful read of a length saw. -/
theorem lenDigits_ok {start : Nat} {bs : Bytes} {pos len count n c : Nat} {r : Bytes}
    (h : lenDigits start bs pos len count = .ok (n, c, r)) :
    ∃ t rest, bs = t ++ 58 :: rest ∧ (∀ b ∈ t, isDigit b = true) ∧ n = ofDigits len t ∧
      c = count + t.length ∧ (t ≠ [] → inUsize n = true) := by
  induction bs generalizing pos len count with
  | nil => simp [lenDigits] at h
  | cons b bs ih =>
      simp only [lenDigits] at h
      split at h
      · rename_i hcolon
        obtain ⟨rfl, rfl, -⟩ : len = n ∧ count = c ∧ b :: bs = r := by simpa using h
        exact ⟨[], bs, by simp [hcolon], by simp, rfl, by simp, by simp⟩
      · split at h
        · cases h
        · split at h
          · cases h
          · split at h
            · cases h
            · rename_i hdigit _ hfit
              obtain ⟨t, rest, rfl, ht, hn, hc, hbound⟩ := ih h
              refine ⟨b :: t, rest, rfl, ?_, hn, ?_, ?_⟩
              · intro b' hb'
                rcases List.mem_cons.1 hb' with rfl | hb'
                · simpa using hdigit
                · exact ht b' hb'
              · rw [hc, List.length_cons, Nat.add_right_comm, Nat.add_assoc]
              · intro _
                by_cases htnil : t = []
                · subst htnil
                  rw [hn, Decimal.ofDigits_nil]
                  simpa using hfit
                · exact hbound htnil

/-- An integer's digits, read negatively. -/
theorem intDigits_append (start : Nat) {t : Bytes} (ht : ∀ b ∈ t, isDigit b = true)
    (rest : Bytes) (pos m count : Nat) (hfit : ofDigits m t ≤ 9223372036854775808) :
    intDigits start (t ++ 101 :: rest) pos (-(m : Int)) count =
      .ok (-(ofDigits m t : Int), count + t.length, 101 :: rest) := by
  induction t generalizing pos m count with
  | nil => simp [intDigits]
  | cons b t ih =>
      have hb : isDigit b = true := ht b List.mem_cons_self
      have he : b ≠ 101 := by
        rintro rfl
        exact absurd hb (by decide)
      rw [Decimal.ofDigits_cons] at hfit
      have hle := Decimal.le_ofDigits (m * 10 + digitVal b) t
      have hmul : inI64 (-(m : Int) * 10) = true := by
        simp only [inI64, Bool.and_eq_true, decide_eq_true_eq]
        omega
      have hstep : -(m : Int) * 10 - digitVal b = -((m * 10 + digitVal b : Nat) : Int) := by
        push_cast
        ring
      have hsub : inI64 (-(m : Int) * 10 - digitVal b) = true := by
        rw [hstep]
        simp only [inI64, Bool.and_eq_true, decide_eq_true_eq]
        omega
      simp only [List.cons_append, intDigits, he, hb, hmul, hsub, if_false, Bool.not_true,
        Bool.false_eq_true]
      rw [hstep, ih (fun c hc => ht c (List.mem_cons_of_mem _ hc)) _ _ _ hfit,
        Decimal.ofDigits_cons, List.length_cons, Nat.add_right_comm]
      rfl

/-- What a successful read of an integer's digits saw. -/
theorem intDigits_ok {start : Nat} {bs : Bytes} {pos m count c : Nat} {n : Int} {r : Bytes}
    (h : intDigits start bs pos (-(m : Int)) count = .ok (n, c, r)) :
    ∃ t rest, bs = t ++ 101 :: rest ∧ (∀ b ∈ t, isDigit b = true) ∧ n = -(ofDigits m t : Int) ∧
      c = count + t.length ∧ (t ≠ [] → inI64 n = true) := by
  induction bs generalizing pos m count with
  | nil => simp [intDigits] at h
  | cons b bs ih =>
      simp only [intDigits] at h
      split at h
      · rename_i he
        obtain ⟨rfl, rfl, -⟩ : -(m : Int) = n ∧ count = c ∧ b :: bs = r := by simpa using h
        exact ⟨[], bs, by simp [he], by simp, rfl, by simp, by simp⟩
      · split at h
        · cases h
        · split at h
          · cases h
          · split at h
            · cases h
            · rename_i hdigit _ hfit
              have hstep : -(m : Int) * 10 - digitVal b = -((m * 10 + digitVal b : Nat) : Int) := by
                push_cast
                ring
              rw [hstep] at h hfit
              obtain ⟨t, rest, rfl, ht, hn, hc, hbound⟩ := ih h
              refine ⟨b :: t, rest, rfl, ?_, hn, ?_, ?_⟩
              · intro b' hb'
                rcases List.mem_cons.1 hb' with rfl | hb'
                · simpa using hdigit
                · exact ht b' hb'
              · rw [hc, List.length_cons, Nat.add_right_comm, Nat.add_assoc]
              · intro _
                by_cases htnil : t = []
                · subst htnil
                  rw [hn, Decimal.ofDigits_nil]
                  simpa using hfit
                · exact hbound htnil

/-! ## Leaves -/

/-- The cursor after `x` has been read off its input. -/
def Decoder.past (d : Decoder) (x rest : Bytes) : Decoder :=
  { d with rest := rest, pos := d.pos + x.length }

theorem drop_length_succ (t : Bytes) (b : UInt8) (rest : Bytes) :
    (t ++ b :: rest).drop (t.length + 1) = rest := by
  rw [List.drop_append, List.drop_eq_nil_of_le (by omega)]
  simp

theorem head?_append_digits (n : Nat) (rest : Bytes) :
    (digits n ++ rest).head? = (digits n).head? :=
  List.head?_append_of_ne_nil _ (Decimal.digits_ne_nil n)

/-- A strict, nonempty run of digits is the numeral of what it reads as. -/
theorem digits_of_strict {t rest : Bytes} {b : UInt8} {count : Nat}
    (ht : ∀ c ∈ t, isDigit c = true) (hcount : count = t.length) (hsome : ¬ count = 0)
    (hlead : ¬ (count > 1 ∧ (t ++ b :: rest).head? = some 48)) : digits (ofDigits 0 t) = t := by
  have htne : t ≠ [] := by
    rintro rfl
    exact hsome hcount
  rw [List.head?_append_of_ne_nil _ htne, hcount] at hlead
  exact Decimal.digits_ofDigits htne ht hlead

/-- A byte string is read from its text. -/
theorem bytes_putBytes (d : Decoder) {b rest : Bytes} (hfit : inUsize b.length = true)
    (hd : d.rest = putBytes b ++ rest) : bytes d = .ok (b, d.past (putBytes b) rest) := by
  have hrest : d.rest = digits b.length ++ 58 :: (b ++ rest) := by simp [hd, putBytes]
  have hread := lenDigits_append d.pos (Decimal.isDigit_of_mem_digits b.length) (b ++ rest)
    d.pos 0 0 (by rw [Decimal.ofDigits_digits]; exact hfit)
  rw [← hrest, Decimal.ofDigits_digits, Nat.zero_add] at hread
  have hstrict : ¬ ((digits b.length).length = 0 ∨
      ((digits b.length).length > 1 ∧ d.rest.head? = some 48)) := by
    rw [hrest, head?_append_digits]
    rintro (hzero | hlead)
    · exact Decimal.digits_ne_nil _ (List.length_eq_zero_iff.1 hzero)
    · exact Decimal.head_digits _ hlead
  have hadv : (d.advance ((digits b.length).length + 1)).rest = b ++ rest := by
    simp only [Decoder.advance, hrest]
    exact drop_length_succ _ _ _
  simp only [bytes, hread, Except.ok_bind, hstrict, if_false, hadv]
  simp [Decoder.advance, Decoder.past, putBytes, hrest, Nat.add_assoc]
  omega

/-- A successful read of a byte string saw its text. -/
theorem bytes_ok {d d' : Decoder} {b : Bytes} (h : bytes d = .ok (b, d')) :
    inUsize b.length = true ∧ d.rest = putBytes b ++ d'.rest ∧
      d' = d.past (putBytes b) d'.rest := by
  unfold bytes at h
  obtain ⟨⟨len, count, r⟩, hread, h⟩ := Except.ok_of_bind h
  obtain ⟨t, rest, hrest, ht, hlen, hcount, hfit⟩ := lenDigits_ok hread
  simp only [Nat.zero_add] at hcount
  simp only at h
  split at h
  · cases h
  · rename_i hstrict
    split at h
    · rename_i hle
      obtain ⟨hsome, hlead⟩ := not_or.1 hstrict
      have htne : t ≠ [] := by
        intro hnil
        exact hsome (by rw [hcount, hnil]; rfl)
      have hhead : d.rest.head? = t.head? := by
        rw [hrest]
        exact List.head?_append_of_ne_nil _ htne
      have ht' : digits len = t := by
        rw [hlen]
        refine Decimal.digits_ofDigits htne ht ?_
        rw [← hhead, ← hcount]
        exact hlead
      have hadv : (d.advance (count + 1)).rest = rest := by
        simp only [Decoder.advance, hrest, hcount]
        exact drop_length_succ _ _ _
      rw [hadv] at hle h
      obtain ⟨rfl, rfl⟩ : rest.take len = b ∧ (d.advance (count + 1)).advance len = d' := by
        simpa using h
      have hblen : (rest.take len).length = len := List.length_take_of_le hle
      have hd' : ((d.advance (count + 1)).advance len).rest = rest.drop len := by
        rw [← hadv]
        rfl
      refine ⟨by rw [hblen]; exact hfit htne, ?_, ?_⟩
      · rw [hd', hrest, putBytes, hblen, ht', List.append_assoc, List.cons_append,
          List.take_append_drop]
      · rw [hd']
        simp only [Decoder.past, Decoder.advance, putBytes, hblen, ht', hcount, hrest,
          List.length_append, List.length_cons, drop_length_succ]
        congr 1
        omega
    · cases h

/-- An integer is read from its digits. -/
theorem intTail_digits (start m : Nat) (negative : Bool) (d : Decoder) {rest : Bytes}
    (hd : d.rest = digits m ++ 101 :: rest) (hneg : negative = true → 0 < m)
    (hfit : inI64 (if negative = true then -(m : Int) else m) = true) :
    intTail start negative d =
      .ok (if negative = true then -(m : Int) else m, d.past (digits m ++ [101]) rest) := by
  have hbound : m ≤ 9223372036854775808 := by
    simp only [inI64, Bool.and_eq_true, decide_eq_true_eq] at hfit
    split at hfit <;> omega
  have hread := intDigits_append start (Decimal.isDigit_of_mem_digits m) rest d.pos 0 0
    (by rw [Decimal.ofDigits_digits]; exact hbound)
  rw [← hd, Decimal.ofDigits_digits, Nat.zero_add] at hread
  have hstrict : ¬ ((digits m).length = 0 ∨ ((digits m).length > 1 ∧ d.rest.head? = some 48) ∨
      (negative = true ∧ -(m : Int) = 0)) := by
    rw [hd, head?_append_digits]
    rintro (h | h | ⟨h, hzero⟩)
    · exact Decimal.digits_ne_nil _ (List.length_eq_zero_iff.1 h)
    · exact Decimal.head_digits _ h
    · have := hneg h
      omega
  have hadv : d.advance ((digits m).length + 1) = d.past (digits m ++ [101]) rest := by
    simp only [Decoder.advance, Decoder.past, hd, drop_length_succ, List.length_append,
      List.length_cons, List.length_nil]
  unfold intTail
  rw [Int.natCast_zero, neg_zero] at hread
  rw [hread]
  simp only [Except.ok_bind]
  rw [if_neg hstrict, hadv]
  cases negative with
  | true => simp
  | false =>
      simp only [Bool.false_eq_true, if_false] at hfit ⊢
      rw [neg_neg, if_pos hfit]

/-- A successful read from the first digit on saw a numeral. -/
theorem intTail_ok {start : Nat} {negative : Bool} {d d' : Decoder} {i : Int}
    (h : intTail start negative d = .ok (i, d')) :
    ∃ m : Nat, i = (if negative = true then -(m : Int) else m) ∧ (negative = true → 0 < m) ∧
      inI64 i = true ∧ d.rest = digits m ++ 101 :: d'.rest ∧
      d' = d.past (digits m ++ [101]) d'.rest := by
  unfold intTail at h
  obtain ⟨⟨n, count, r⟩, hread, h⟩ := Except.ok_of_bind h
  obtain ⟨t, rest, hrest, ht, hn, hcount, hfit⟩ := intDigits_ok (m := 0) (by simpa using hread)
  rw [Nat.zero_add] at hcount
  simp only at h
  split at h
  · cases h
  · rename_i hbad
    obtain ⟨hsome, hbad⟩ := not_or.1 hbad
    obtain ⟨hlead, hzero⟩ := not_or.1 hbad
    rw [hrest] at hlead
    have hdig := digits_of_strict ht hcount hsome hlead
    have htne : t ≠ [] := by
      rintro rfl
      exact hsome hcount
    have hadv : d.advance (count + 1) = d.past (t ++ [101]) rest := by
      simp only [Decoder.advance, Decoder.past, hrest, hcount, drop_length_succ,
        List.length_append, List.length_cons, List.length_nil]
    rw [hadv] at h
    refine ⟨ofDigits 0 t, ?_⟩
    rw [hdig]
    cases negative with
    | true =>
        obtain ⟨rfl, rfl⟩ : n = i ∧ d.past (t ++ [101]) rest = d' := by simpa using h
        refine ⟨by simpa using hn, ?_, hfit htne, hrest, rfl⟩
        intro _
        have : n ≠ 0 := fun hz => hzero ⟨rfl, hz⟩
        omega
    | false =>
        simp only [Bool.false_eq_true, if_false] at h
        split at h
        · rename_i hneg
          obtain ⟨rfl, rfl⟩ : -n = i ∧ d.past (t ++ [101]) rest = d' := by simpa using h
          exact ⟨by simp [hn], by simp, hneg, hrest, rfl⟩
        · cases h

/-- The first byte of an integer's text is a minus sign when it is negative, and only
then. -/
theorem intText_cases (i : Int) (rest : Bytes) :
    (i < 0 ∧ intText i = 45 :: digits i.natAbs) ∨
      (0 ≤ i ∧ intText i = digits i.natAbs ∧
        ∃ b r, digits i.natAbs ++ rest = b :: r ∧ b ≠ 45) := by
  by_cases h : i < 0
  · exact Or.inl ⟨h, by simp [intText, h]⟩
  · refine Or.inr ⟨by omega, by simp [intText, h], ?_⟩
    obtain ⟨b, r, hbr⟩ := List.exists_cons_of_ne_nil (Decimal.digits_ne_nil i.natAbs)
    refine ⟨b, r ++ rest, by rw [hbr]; rfl, ?_⟩
    rintro rfl
    have := Decimal.isDigit_of_mem_digits i.natAbs 45 (by rw [hbr]; exact List.mem_cons_self)
    exact absurd this (by decide)

/-- An integer is read from its text. -/
theorem int_intText (d : Decoder) {i : Int} {rest : Bytes} (hfit : inI64 i = true)
    (hd : d.rest = 105 :: (intText i ++ [101]) ++ rest) :
    int d = .ok (i, d.past (105 :: (intText i ++ [101])) rest) := by
  rcases intText_cases i (101 :: rest) with ⟨hneg, htext⟩ | ⟨hnonneg, htext, b, r, hbr, hb⟩
  · have h1 : (d.advance 1).rest = 45 :: (digits i.natAbs ++ 101 :: rest) := by
      simp [Decoder.advance, hd, htext]
    have h2 : ((d.advance 1).advance 1).rest = digits i.natAbs ++ 101 :: rest := by
      rw [Decoder.advance, h1]
      rfl
    have hi : (if true = true then -(i.natAbs : Int) else i.natAbs) = i := by
      rw [if_pos rfl]
      omega
    have htail := intTail_digits d.pos i.natAbs true ((d.advance 1).advance 1) h2
      (by intro _; omega) (by rw [hi]; exact hfit)
    rw [hi] at htail
    have hpeek : (d.advance 1).peek = .ok 45 := by simp [Decoder.peek, h1]
    simp only [int, hpeek, Except.ok_bind, beq_self_eq_true, if_true, htail]
    simp [Decoder.advance, Decoder.past, htext]
    omega
  · have h1 : (d.advance 1).rest = digits i.natAbs ++ 101 :: rest := by
      simp [Decoder.advance, hd, htext]
    have hi : (if false = true then -(i.natAbs : Int) else i.natAbs) = i := by
      rw [if_neg Bool.false_ne_true]
      omega
    have htail := intTail_digits d.pos i.natAbs false (d.advance 1) h1
      (by intro h; cases h) (by rw [hi]; exact hfit)
    rw [hi] at htail
    have hpeek : (d.advance 1).peek = .ok b := by simp [Decoder.peek, h1, hbr]
    have hminus : (b == 45) = false := beq_eq_false_iff_ne.2 hb
    simp only [int, hpeek, Except.ok_bind, hminus, Bool.false_eq_true, if_false, htail]
    simp [Decoder.advance, Decoder.past, htext]
    omega

/-- A successful read of an integer saw its text. -/
theorem int_ok {d d' : Decoder} {i : Int} {r : Bytes} (hd : d.rest = 105 :: r)
    (h : int d = .ok (i, d')) :
    inI64 i = true ∧ d.rest = 105 :: (intText i ++ [101]) ++ d'.rest ∧
      d' = d.past (105 :: (intText i ++ [101])) d'.rest := by
  unfold int at h
  obtain ⟨b, hpeek, h⟩ := Except.ok_of_bind h
  obtain ⟨m, hi, hpos, hfit, hrest, hd'⟩ := intTail_ok h
  have h1 : (d.advance 1).rest = r := by simp [Decoder.advance, hd]
  by_cases hminus : (b == 45) = true
  · simp only [hminus, if_true] at hi hrest hd' hpos
    have hneg : i < 0 := by
      have := hpos trivial
      omega
    have htext : intText i = 45 :: digits m := by
      rw [intText, if_pos hneg]
      congr 2
      omega
    have hr : r = 45 :: (digits m ++ 101 :: d'.rest) := by
      have h2 : ((d.advance 1).advance 1).rest = r.drop 1 := by rw [← h1]; rfl
      rw [h2] at hrest
      unfold Decoder.peek at hpeek
      rw [h1] at hpeek
      cases r with
      | nil => cases hpeek
      | cons c r =>
          obtain rfl : c = b := by simpa using hpeek
          obtain rfl : c = 45 := by simpa using hminus
          simpa using hrest
    refine ⟨hfit, by simp [hd, hr, htext], ?_⟩
    rw [hd', htext]
    simp [Decoder.past, Decoder.advance]
    omega
  · have hmf : (b == 45) = false := by simpa using hminus
    simp only [hmf, Bool.false_eq_true, if_false] at hi hrest hd'
    have htext : intText i = digits m := by
      rw [intText, if_neg (by omega)]
      congr 1
      omega
    refine ⟨hfit, ?_, ?_⟩
    · rw [hd, ← h1, hrest, htext]
      simp
    · rw [hd', htext]
      simp [Decoder.past, Decoder.advance]
      omega

/-! ## The two loops -/

/-- The cursor after `x`, which held `c` nodes, has been read off its input. -/
def Decoder.after (d : Decoder) (x rest : Bytes) (c : Nat) : Decoder :=
  { d with rest := rest, pos := d.pos + x.length, nodes := d.nodes + c }

/-- `inner` reads `x` as `v` in front of any further input. -/
def Reads (budget : Nat) (inner : Decoder → Except Error (Value × Decoder)) (x : Bytes)
    (v : Value) : Prop :=
  ∀ (d : Decoder) (rest : Bytes), d.rest = x ++ rest → d.nodes + nodeCount v ≤ budget →
    inner d = .ok (v, d.after x rest (nodeCount v))

/-- A text that is not taken for the end of a list or a dictionary. -/
def Opens (x : Bytes) : Prop := ∃ b r, x = b :: r ∧ b ≠ 101

theorem opens_putBytes (k x : Bytes) :
    ∃ b r, putBytes k ++ x = b :: r ∧ b ≠ 101 ∧ isDigit b = true := by
  obtain ⟨b, r, hbr⟩ := List.exists_cons_of_ne_nil (Decimal.digits_ne_nil k.length)
  have hb := Decimal.isDigit_of_mem_digits k.length b (by rw [hbr]; exact List.mem_cons_self)
  refine ⟨b, r ++ 58 :: k ++ x, by simp [putBytes, hbr], ?_, hb⟩
  rintro rfl
  exact absurd hb (by decide)

/-- A derived text opens a value. -/
theorem Derives.opens {n : Nat} {x : Bytes} {v : Value} (h : Derives n x v) : Opens x := by
  cases h with
  | bytes hfit =>
      obtain ⟨b, r, hbr, hb, -⟩ := opens_putBytes _ []
      exact ⟨b, r, by simpa using hbr, hb⟩
  | int _ => exact ⟨_, _, rfl, by decide⟩
  | list _ => exact ⟨_, _, rfl, by decide⟩
  | dict _ _ _ => exact ⟨_, _, rfl, by decide⟩

theorem Decoder.peek_cons {d : Decoder} {b : UInt8} {r : Bytes} (h : d.rest = b :: r) :
    d.peek = .ok b := by
  simp [peek, h]

theorem Decoder.peek_ok {d : Decoder} {b : UInt8} (h : d.peek = .ok b) :
    ∃ r, d.rest = b :: r := by
  unfold peek at h
  cases hrest : d.rest with
  | nil => simp [hrest] at h
  | cons c r =>
      simp only [hrest, Except.ok.injEq] at h
      exact ⟨r, by rw [h]⟩

/-- The item loop reads a run of items up to its end mark. -/
theorem items_of_reads {budget : Nat} {inner : Decoder → Except Error (Value × Decoder)}
    {xs : List (Bytes × Value)} (hxs : ∀ p ∈ xs, Reads budget inner p.1 p.2 ∧ Opens p.1)
    {fuel : Nat} (hfuel : xs.length < fuel) (acc : List Value) {d : Decoder} {rest : Bytes}
    (hd : d.rest = xs.flatMap Prod.fst ++ 101 :: rest)
    (hnodes : d.nodes + itemsCount (xs.map Prod.snd) ≤ budget) :
    items inner fuel acc d =
      .ok (acc ++ xs.map Prod.snd,
        d.after (xs.flatMap Prod.fst ++ [101]) rest (itemsCount (xs.map Prod.snd))) := by
  induction xs generalizing fuel acc d with
  | nil =>
      obtain ⟨fuel, rfl⟩ : ∃ f, fuel = f + 1 := ⟨fuel - 1, by simp at hfuel; omega⟩
      have hpeek := Decoder.peek_cons (d := d) (by simpa using hd)
      simp [items, hpeek, Decoder.advance, Decoder.after, hd, itemsCount]
  | cons p xs ih =>
      obtain ⟨x, v⟩ := p
      obtain ⟨fuel, rfl⟩ : ∃ f, fuel = f + 1 := ⟨fuel - 1, by simp at hfuel; omega⟩
      obtain ⟨hread, b, r, hx, hb⟩ := hxs (x, v) List.mem_cons_self
      simp only at hread hx
      simp only [List.map_cons, itemsCount] at hnodes
      have hd' : d.rest = x ++ (xs.flatMap Prod.fst ++ 101 :: rest) := by simpa using hd
      have hpeek : d.peek = .ok b := Decoder.peek_cons (by rw [hd', hx]; rfl)
      simp only [items, hpeek, Except.ok_bind, hb, if_false]
      rw [hread d _ hd' (by omega)]
      simp only [Except.ok_bind]
      rw [ih (fun q hq => hxs q (List.mem_cons_of_mem _ hq)) (by simp at hfuel; omega) _
        (d := d.after x _ _) rfl (by simp only [Decoder.after]; omega)]
      simp [Decoder.after, itemsCount, Nat.add_assoc]

/-- Where the entry loop saw the wanted key, for entries that start at `pos`. -/
def entrySpan (want : Option Bytes) : Nat → List (Bytes × Bytes × Value) →
    Option (Nat × Nat) → Option (Nat × Nat)
  | _, [], s => s
  | pos, (k, x, _) :: xs, s =>
      let start := pos + (putBytes k).length
      entrySpan want (start + x.length) xs
        (if want = some k then some (start, start + x.length) else s)

theorem entrySpan_none (pos : Nat) (xs : List (Bytes × Bytes × Value))
    (s : Option (Nat × Nat)) : entrySpan none pos xs s = s := by
  induction xs generalizing pos s with
  | nil => rfl
  | cons p xs ih => simp [entrySpan, ih]

/-- The text of a dictionary's entries. -/
def entriesText (xs : List (Bytes × Bytes × Value)) : Bytes :=
  xs.flatMap fun p => putBytes p.1 ++ p.2.1

theorem entriesCount_insert {k : Bytes} (v : Value) {m : List (Bytes × Value)}
    (h : k ∉ m.map Prod.fst) :
    entriesCount (OrdMap.insert k v m) = nodeCount v + entriesCount m := by
  induction m with
  | nil => rfl
  | cons e m ih =>
      obtain ⟨k', v'⟩ := e
      simp only [List.map_cons, List.mem_cons, not_or] at h
      simp only [OrdMap.insert, h.1, if_false]
      split
      · rfl
      · rw [entriesCount, ih h.2, entriesCount]
        omega

/-- The entry loop reads a run of entries with distinct new keys up to its end mark. -/
theorem entries_of_reads {budget : Nat} {inner : Decoder → Except Error (Value × Decoder)}
    {want : Option Bytes} {xs : List (Bytes × Bytes × Value)}
    (hxs : ∀ p ∈ xs, Reads budget inner p.2.1 p.2.2)
    (hkeys : ∀ p ∈ xs, inUsize p.1.length = true) {fuel : Nat} (hfuel : xs.length < fuel)
    {acc : List (Bytes × Value)} (hnew : ∀ p ∈ xs, p.1 ∉ acc.map Prod.fst)
    (hnodup : (xs.map Prod.fst).Nodup) {d : Decoder} {rest : Bytes}
    (hd : d.rest = entriesText xs ++ 101 :: rest)
    (hnodes : d.nodes + entriesCount (xs.map Prod.snd) ≤ budget) :
    entries inner want fuel acc d =
      .ok ((xs.map fun p => (p.1, p.2.2)).foldl (fun m e => OrdMap.insert e.1 e.2 m) acc,
        { d.after (entriesText xs ++ [101]) rest (entriesCount (xs.map Prod.snd)) with
          span := entrySpan want d.pos xs d.span }) := by
  induction xs generalizing fuel acc d with
  | nil =>
      obtain ⟨fuel, rfl⟩ : ∃ f, fuel = f + 1 := ⟨fuel - 1, by simp at hfuel; omega⟩
      have hpeek := Decoder.peek_cons (d := d) (by simpa [entriesText] using hd)
      simp [entries, hpeek, Decoder.advance, Decoder.after, hd, entriesCount, entriesText,
        entrySpan]
  | cons p xs ih =>
      obtain ⟨k, x, v⟩ := p
      obtain ⟨fuel, rfl⟩ : ∃ f, fuel = f + 1 := ⟨fuel - 1, by simp at hfuel; omega⟩
      have hread : Reads budget inner x v := hxs (k, x, v) List.mem_cons_self
      have hk : inUsize k.length = true := hkeys (k, x, v) List.mem_cons_self
      have hkacc : k ∉ acc.map Prod.fst := hnew (k, x, v) List.mem_cons_self
      obtain ⟨hkxs, hnodup'⟩ := List.nodup_cons.1 hnodup
      simp only [List.map_cons, entriesCount] at hnodes
      have hd' : d.rest = putBytes k ++ (x ++ (entriesText xs ++ 101 :: rest)) := by
        simpa [entriesText] using hd
      obtain ⟨b, r, hbr, hb, hdigit⟩ := opens_putBytes k (x ++ (entriesText xs ++ 101 :: rest))
      have hpeek : d.peek = .ok b := Decoder.peek_cons (hd'.trans hbr)
      have hlook : (acc.lookup k).isSome = false := by
        rw [OrdMap.lookup_eq_none_iff.2 hkacc]
        rfl
      simp only [entries, hpeek, Except.ok_bind, hb, if_false, hdigit, Bool.not_true,
        Bool.false_eq_true]
      rw [bytes_putBytes d hk hd']
      simp only [Except.ok_bind]
      rw [hread (d.past (putBytes k) _) _ rfl (by simp only [Decoder.past]; omega)]
      simp only [Except.ok_bind, hlook, Bool.false_eq_true, if_false]
      have hnew' : ∀ p ∈ xs, p.1 ∉ (OrdMap.insert k v acc).map Prod.fst := by
        intro q hq hmem
        obtain ⟨e, he, heq⟩ := List.mem_map.1 hmem
        rcases OrdMap.mem_insert he with he | he
        · subst he
          exact hkxs (List.mem_map.2 ⟨q, hq, heq.symm⟩)
        · exact hnew q (List.mem_cons_of_mem _ hq) (List.mem_map.2 ⟨e, he, heq⟩)
      rw [ih (fun q hq => hxs q (List.mem_cons_of_mem _ hq))
        (fun q hq => hkeys q (List.mem_cons_of_mem _ hq)) (by simp at hfuel; omega) hnew' hnodup'
        ?_ ?_]
      · simp only [List.map_cons, List.foldl_cons, entrySpan]
        split <;> simp [Decoder.after, Decoder.past, entriesText, entriesCount, Nat.add_assoc]
      · split <;> rfl
      · split <;> simp only [Decoder.after, Decoder.past] <;> omega

/-! ## Every derivation is read -/

/-- A node that is read and fits the budget is a value. -/
theorem value_of_node {budget n : Nat} {want : Option Bytes} {d d' : Decoder} {v : Value}
    (h : node (value budget n none) want d = .ok (v, d')) (hfit : d'.nodes + 1 ≤ budget) :
    value budget (n + 1) want d = .ok (v, { d' with nodes := d'.nodes + 1 }) := by
  have hbudget : ¬ d'.nodes + 1 > budget := by omega
  simp only [value, h, Except.ok_bind, hbudget, if_false]

theorem length_le_flatMap {α : Type} {f : α → Bytes} {xs : List α}
    (h : ∀ p ∈ xs, 0 < (f p).length) : xs.length ≤ (xs.flatMap f).length := by
  induction xs with
  | nil => simp
  | cons p xs ih =>
      have hp := h p List.mem_cons_self
      have := ih fun q hq => h q (List.mem_cons_of_mem _ hq)
      simp only [List.flatMap_cons, List.length_append, List.length_cons]
      omega

theorem putBytes_length (b : Bytes) :
    (putBytes b).length = (digits b.length).length + 1 + b.length := by
  simp [putBytes]
  omega

theorem digits_length_pos (n : Nat) : 0 < (digits n).length :=
  List.length_pos_of_ne_nil (Decimal.digits_ne_nil n)

theorem entriesCount_foldl {xs : List (Bytes × Bytes × Value)} {acc : List (Bytes × Value)}
    (hnew : ∀ p ∈ xs, p.1 ∉ acc.map Prod.fst) (hnodup : (xs.map Prod.fst).Nodup) :
    entriesCount ((xs.map fun p => (p.1, p.2.2)).foldl (fun m e => OrdMap.insert e.1 e.2 m) acc) =
      entriesCount acc + entriesCount (xs.map Prod.snd) := by
  induction xs generalizing acc with
  | nil => simp [entriesCount]
  | cons p xs ih =>
      obtain ⟨k, x, v⟩ := p
      obtain ⟨hkxs, hnodup'⟩ := List.nodup_cons.1 hnodup
      have hk : k ∉ acc.map Prod.fst := hnew (k, x, v) List.mem_cons_self
      simp only [List.map_cons, List.foldl_cons]
      rw [ih ?_ hnodup', entriesCount_insert v hk, entriesCount]
      · omega
      · intro q hq hmem
        obtain ⟨e, he, heq⟩ := List.mem_map.1 hmem
        rcases OrdMap.mem_insert he with he | he
        · subst he
          exact hkxs (List.mem_map.2 ⟨q, hq, heq.symm⟩)
        · exact hnew q (List.mem_cons_of_mem _ hq) (List.mem_map.2 ⟨e, he, heq⟩)

/-- A dictionary is read from its entries, and the span of the wanted key noted. -/
theorem value_dict {budget n : Nat} {want : Option Bytes} {xs : List (Bytes × Bytes × Value)}
    (hxs : ∀ p ∈ xs, Reads budget (value budget n none) p.2.1 p.2.2)
    (hkeys : ∀ p ∈ xs, inUsize p.1.length = true) (hnodup : (xs.map Prod.fst).Nodup)
    {d : Decoder} {rest : Bytes} (hd : d.rest = 100 :: (entriesText xs ++ [101]) ++ rest)
    (hnodes : d.nodes + nodeCount (.dict (OrdMap.ofEntries (xs.map fun p => (p.1, p.2.2))))
      ≤ budget) :
    value budget (n + 1) want d =
      .ok (.dict (OrdMap.ofEntries (xs.map fun p => (p.1, p.2.2))),
        { d.after (100 :: (entriesText xs ++ [101])) rest
            (nodeCount (.dict (OrdMap.ofEntries (xs.map fun p => (p.1, p.2.2))))) with
          span := entrySpan want (d.pos + 1) xs d.span }) := by
  have hcount : entriesCount (OrdMap.ofEntries (xs.map fun p => (p.1, p.2.2))) =
      entriesCount (xs.map Prod.snd) := by
    rw [OrdMap.ofEntries, entriesCount_foldl (by simp) hnodup]
    simp [entriesCount]
  rw [nodeCount, hcount] at hnodes ⊢
  have hpeek : d.peek = .ok 100 := Decoder.peek_cons hd
  have hlen : xs.length ≤ (entriesText xs).length := by
    refine length_le_flatMap fun p _ => ?_
    rw [List.length_append, putBytes_length]
    omega
  have hfuel : xs.length < d.rest.length := by
    simp only [hd, List.cons_append, List.length_cons, List.length_append]
    omega
  have hadv : (d.advance 1).rest = entriesText xs ++ 101 :: rest := by
    simp [Decoder.advance, hd]
  have hloop : entries (value budget n none) want d.rest.length [] (d.advance 1) = _ :=
    entries_of_reads hxs hkeys hfuel (by simp) hnodup hadv
      (by simp only [Decoder.advance]; omega)
  have hnode : node (value budget n none) want d = .ok
      (.dict (OrdMap.ofEntries (xs.map fun p => (p.1, p.2.2))),
        { (d.advance 1).after (entriesText xs ++ [101]) rest (entriesCount (xs.map Prod.snd)) with
          span := entrySpan want (d.advance 1).pos xs (d.advance 1).span }) := by
    simp only [node, hpeek, Except.ok_bind, show ¬ (100 : UInt8) = 105 by decide,
      show isDigit 100 = false by decide, show ¬ (100 : UInt8) = 108 by decide, if_false, if_true,
      Bool.false_eq_true, hloop]
    rfl
  rw [value_of_node hnode (by simp only [Decoder.after, Decoder.advance]; omega)]
  simp [Decoder.after, Decoder.advance]
  omega

/-- The decoder reads every derivation in front of any further input. -/
theorem value_of_derives {n : Nat} {x : Bytes} {v : Value} (h : Derives n x v) {budget : Nat}
    (want : Option Bytes) (d : Decoder) {rest : Bytes} (hd : d.rest = x ++ rest)
    (hnodes : d.nodes + nodeCount v ≤ budget) :
    ∃ s, value budget n want d = .ok (v, { d.after x rest (nodeCount v) with span := s }) ∧
      (want = none ∨ v.asDict = none → s = d.span) := by
  induction h generalizing want d rest with
  | @bytes n b hfit =>
      obtain ⟨c, r, hcr, -, hdigit⟩ := opens_putBytes b rest
      have hpeek : d.peek = .ok c := Decoder.peek_cons (hd.trans hcr)
      have hint : c ≠ 105 := by
        rintro rfl
        exact absurd hdigit (by decide)
      have hnode : node (value budget n none) want d =
          .ok (.bytes b, d.past (putBytes b) rest) := by
        simp only [node, hpeek, Except.ok_bind, hint, hdigit, if_false, if_true,
          bytes_putBytes d hfit hd]
      exact ⟨d.span, value_of_node hnode hnodes, fun _ => rfl⟩
  | @int n i hfit =>
      have hpeek : d.peek = .ok 105 := Decoder.peek_cons hd
      have hnode : node (value budget n none) want d =
          .ok (.int i, d.past (105 :: (intText i ++ [101])) rest) := by
        simp only [node, hpeek, Except.ok_bind, if_true, int_intText d hfit hd]
      exact ⟨d.span, value_of_node hnode hnodes, fun _ => rfl⟩
  | @list n xs hxs ih =>
      have hpeek : d.peek = .ok 108 := Decoder.peek_cons hd
      have hreads : ∀ p ∈ xs, Reads budget (value budget n none) p.1 p.2 ∧ Opens p.1 := by
        intro p hp
        refine ⟨fun d' rest' hd' hfit => ?_, (hxs p hp).opens⟩
        obtain ⟨s, hval, hs⟩ := ih p hp none d' hd' hfit
        rw [hval, hs (.inl rfl)]
        rfl
      have hlen : xs.length ≤ (xs.flatMap Prod.fst).length := by
        refine length_le_flatMap fun p hp => ?_
        obtain ⟨b, r, hbr, -⟩ := (hxs p hp).opens
        simp [hbr]
      rw [nodeCount] at hnodes
      have hfuel : xs.length < d.rest.length := by
        simp only [hd, List.cons_append, List.length_cons, List.length_append]
        omega
      have hadv : (d.advance 1).rest = xs.flatMap Prod.fst ++ 101 :: rest := by
        simp [Decoder.advance, hd]
      have hloop := items_of_reads hreads hfuel [] hadv (by simp only [Decoder.advance]; omega)
      have hnode : node (value budget n none) want d = .ok (.list (xs.map Prod.snd),
          (d.advance 1).after (xs.flatMap Prod.fst ++ [101]) rest
            (itemsCount (xs.map Prod.snd))) := by
        simp only [node, hpeek, Except.ok_bind, show ¬ (108 : UInt8) = 105 by decide,
          show isDigit 108 = false by decide, if_false, if_true, Bool.false_eq_true, hloop]
        rfl
      refine ⟨d.span, ?_, fun _ => rfl⟩
      rw [value_of_node hnode (by simp only [Decoder.after, Decoder.advance]; omega)]
      simp [Decoder.after, Decoder.advance, nodeCount]
      omega
  | @dict n xs hkeys hxs hnodup ih =>
      have hreads : ∀ p ∈ xs, Reads budget (value budget n none) p.2.1 p.2.2 := by
        intro p hp d' rest' hd' hfit
        obtain ⟨s, hval, hs⟩ := ih p hp none d' hd' hfit
        rw [hval, hs (.inl rfl)]
        rfl
      refine ⟨_, value_dict hreads hkeys hnodup hd hnodes, ?_⟩
      rintro (rfl | hdict)
      · exact entrySpan_none _ _ _
      · cases hdict

/-! ## Whatever is read was a derivation -/

/-- What the item loop consumed. -/
theorem items_ok {n : Nat} {inner : Decoder → Except Error (Value × Decoder)}
    (hinner : ∀ d v d', inner d = .ok (v, d') → ∃ x, Derives n x v ∧ d.rest = x ++ d'.rest)
    {fuel : Nat} {acc vs : List Value} {d d' : Decoder}
    (h : items inner fuel acc d = .ok (vs, d')) :
    ∃ xs : List (Bytes × Value), (∀ p ∈ xs, Derives n p.1 p.2) ∧ vs = acc ++ xs.map Prod.snd ∧
      d.rest = xs.flatMap Prod.fst ++ 101 :: d'.rest := by
  induction fuel generalizing acc d with
  | zero => cases h
  | succ fuel ih =>
      obtain ⟨b, hpeek, h⟩ := Except.ok_of_bind h
      obtain ⟨r, hd⟩ := Decoder.peek_ok hpeek
      split at h
      · rename_i hb
        obtain ⟨rfl, rfl⟩ : acc = vs ∧ d.advance 1 = d' := by simpa using h
        exact ⟨[], by simp, by simp, by simp [Decoder.advance, hd, hb]⟩
      · obtain ⟨⟨v, d₁⟩, hv, h⟩ := Except.ok_of_bind h
        obtain ⟨x, hx, hdx⟩ := hinner _ _ _ hv
        obtain ⟨xs, hxs, hvs, hd₁⟩ := ih h
        refine ⟨(x, v) :: xs, ?_, by simp [hvs], by simp [hdx, hd₁]⟩
        intro p hp
        rcases List.mem_cons.1 hp with rfl | hp
        · exact hx
        · exact hxs p hp

/-- What the entry loop consumed. -/
theorem entries_ok {n : Nat} {inner : Decoder → Except Error (Value × Decoder)}
    (hinner : ∀ d v d', inner d = .ok (v, d') → ∃ x, Derives n x v ∧ d.rest = x ++ d'.rest)
    {want : Option Bytes} {fuel : Nat} {acc m : List (Bytes × Value)} {d d' : Decoder}
    (h : entries inner want fuel acc d = .ok (m, d')) :
    ∃ xs : List (Bytes × Bytes × Value), (∀ p ∈ xs, inUsize p.1.length = true) ∧
      (∀ p ∈ xs, Derives n p.2.1 p.2.2) ∧ (xs.map Prod.fst).Nodup ∧
      (∀ p ∈ xs, p.1 ∉ acc.map Prod.fst) ∧
      m = (xs.map fun p => (p.1, p.2.2)).foldl (fun m e => OrdMap.insert e.1 e.2 m) acc ∧
      d.rest = entriesText xs ++ 101 :: d'.rest := by
  induction fuel generalizing acc d with
  | zero => cases h
  | succ fuel ih =>
      obtain ⟨b, hpeek, h⟩ := Except.ok_of_bind h
      obtain ⟨r, hd⟩ := Decoder.peek_ok hpeek
      split at h
      · rename_i hb
        obtain ⟨rfl, rfl⟩ : acc = m ∧ d.advance 1 = d' := by simpa using h
        exact ⟨[], by simp, by simp, by simp, by simp, rfl,
          by simp [Decoder.advance, hd, hb, entriesText]⟩
      · obtain ⟨_, -, h⟩ := Except.ok_of_bind h
        split at h
        · cases h
        · obtain ⟨⟨k, d₁⟩, hk, h⟩ := Except.ok_of_bind h
          obtain ⟨⟨v, d₂⟩, hv, h⟩ := Except.ok_of_bind h
          obtain ⟨hkfit, hkrest, -⟩ := bytes_ok hk
          obtain ⟨x, hx, hdx⟩ := hinner _ _ _ hv
          simp only at h
          split at h
          · cases h
          · rename_i hdup
            obtain ⟨xs, hkeys, hxs, hnodup, hnew, hm, hd₂⟩ := ih h
            have hkacc : k ∉ acc.map Prod.fst := by
              intro hmem
              exact hdup (OrdMap.lookup_isSome_of_mem hmem)
            have hnew' : ∀ p ∈ xs, p.1 ≠ k ∧ p.1 ∉ acc.map Prod.fst := by
              intro p hp
              have hnone := OrdMap.lookup_eq_none_iff.2 (hnew p hp)
              have hne : p.1 ≠ k := by
                intro heq
                rw [heq, OrdMap.lookup_insert_self] at hnone
                cases hnone
              rw [OrdMap.lookup_insert_ne hne] at hnone
              exact ⟨hne, OrdMap.lookup_eq_none_iff.1 hnone⟩
            have hd₂' : d₂.rest = entriesText xs ++ 101 :: d'.rest := by
              rw [← hd₂]
              split <;> rfl
            refine ⟨(k, x, v) :: xs, ?_, ?_, ?_, ?_, by simp [hm], ?_⟩
            · intro p hp
              rcases List.mem_cons.1 hp with rfl | hp
              · exact hkfit
              · exact hkeys p hp
            · intro p hp
              rcases List.mem_cons.1 hp with rfl | hp
              · exact hx
              · exact hxs p hp
            · rw [List.map_cons, List.nodup_cons]
              refine ⟨?_, hnodup⟩
              intro hmem
              obtain ⟨p, hp, heq⟩ := List.mem_map.1 hmem
              exact (hnew' p hp).1 heq
            · intro p hp
              rcases List.mem_cons.1 hp with rfl | hp
              · exact hkacc
              · exact (hnew' p hp).2
            · rw [hkrest, hdx, hd₂']
              simp [entriesText]

/-- A node read with children that are derivations is a derivation. -/
theorem node_ok {n : Nat} {inner : Decoder → Except Error (Value × Decoder)}
    (hinner : ∀ d v d', inner d = .ok (v, d') → ∃ x, Derives n x v ∧ d.rest = x ++ d'.rest)
    {want : Option Bytes} {d d' : Decoder} {v : Value} (h : node inner want d = .ok (v, d')) :
    ∃ x, Derives (n + 1) x v ∧ d.rest = x ++ d'.rest := by
  unfold node at h
  obtain ⟨b, hpeek, h⟩ := Except.ok_of_bind h
  obtain ⟨r, hd⟩ := Decoder.peek_ok hpeek
  split at h
  · rename_i hb
    obtain ⟨⟨i, d₁⟩, hi, h⟩ := Except.ok_of_bind h
    obtain ⟨rfl, rfl⟩ : Value.int i = v ∧ d₁ = d' := by simpa using h
    obtain ⟨hfit, hrest, -⟩ := int_ok (by rw [hd, hb]) hi
    exact ⟨_, Derives.int hfit, hrest⟩
  · split at h
    · obtain ⟨⟨s, d₁⟩, hs, h⟩ := Except.ok_of_bind h
      obtain ⟨rfl, rfl⟩ : Value.bytes s = v ∧ d₁ = d' := by simpa using h
      obtain ⟨hfit, hrest, -⟩ := bytes_ok hs
      exact ⟨_, Derives.bytes hfit, hrest⟩
    · split at h
      · rename_i hb
        obtain ⟨⟨vs, d₁⟩, hvs, h⟩ := Except.ok_of_bind h
        obtain ⟨rfl, rfl⟩ : Value.list vs = v ∧ d₁ = d' := by simpa using h
        obtain ⟨xs, hxs, rfl, hrest⟩ := items_ok hinner hvs
        refine ⟨_, Derives.list hxs, ?_⟩
        have : r = xs.flatMap Prod.fst ++ 101 :: d₁.rest := by
          simpa [Decoder.advance, hd] using hrest
        simp [hd, hb, this]
      · split at h
        · rename_i hb
          obtain ⟨⟨m, d₁⟩, hm, h⟩ := Except.ok_of_bind h
          obtain ⟨rfl, rfl⟩ : Value.dict m = v ∧ d₁ = d' := by simpa using h
          obtain ⟨xs, hkeys, hxs, hnodup, -, rfl, hrest⟩ := entries_ok hinner hm
          refine ⟨_, Derives.dict hkeys hxs hnodup, ?_⟩
          have : r = entriesText xs ++ 101 :: d₁.rest := by
            simpa [Decoder.advance, hd] using hrest
          simp [hd, hb, this, entriesText]
        · cases h

/-- Whatever the decoder consumed was a derivation of what it returned. -/
theorem derives_of_value {budget n : Nat} {want : Option Bytes} {d d' : Decoder} {v : Value}
    (h : value budget n want d = .ok (v, d')) :
    ∃ x, Derives n x v ∧ d.rest = x ++ d'.rest := by
  induction n generalizing want d d' v with
  | zero => cases h
  | succ n ih =>
      obtain ⟨⟨v₁, d₁⟩, hnode, h⟩ := Except.ok_of_bind h
      simp only at h
      split at h
      · cases h
      · obtain ⟨rfl, rfl⟩ : v₁ = v ∧ { d₁ with nodes := d₁.nodes + 1 } = d' := by simpa using h
        have hinner : ∀ d v d', value budget n none d = .ok (v, d') →
            ∃ x, Derives n x v ∧ d.rest = x ++ d'.rest := fun _ _ _ hv => ih hv
        obtain ⟨x, hx, hrest⟩ := node_ok hinner hnode
        exact ⟨x, hx, hrest⟩

/-! ## The entry points -/

theorem Derives.mono {n m : Nat} (hle : n ≤ m) {x : Bytes} {v : Value} (h : Derives n x v) :
    Derives m x v := by
  induction h generalizing m with
  | bytes hfit =>
      obtain ⟨m, rfl⟩ : ∃ k, m = k + 1 := ⟨m - 1, by omega⟩
      exact Derives.bytes hfit
  | int hfit =>
      obtain ⟨m, rfl⟩ : ∃ k, m = k + 1 := ⟨m - 1, by omega⟩
      exact Derives.int hfit
  | list _ ih =>
      obtain ⟨m, rfl⟩ : ∃ k, m = k + 1 := ⟨m - 1, by omega⟩
      exact Derives.list fun p hp => ih p hp (by omega)
  | dict hkeys _ hnodup ih =>
      obtain ⟨m, rfl⟩ : ∃ k, m = k + 1 := ⟨m - 1, by omega⟩
      exact Derives.dict hkeys (fun p hp => ih p hp (by omega)) hnodup

/-- Every node costs at least two bytes. -/
theorem Derives.two_mul_nodeCount_le {n : Nat} {x : Bytes} {v : Value} (h : Derives n x v) :
    2 * nodeCount v ≤ x.length := by
  induction h with
  | @bytes n b _ =>
      have := digits_length_pos b.length
      rw [nodeCount, putBytes_length]
      omega
  | int _ =>
      simp only [nodeCount, List.length_cons, List.length_append]
      omega
  | @list n xs _ ih =>
      have hsum : 2 * itemsCount (xs.map Prod.snd) ≤ (xs.flatMap Prod.fst).length := by
        clear * - ih
        induction xs with
        | nil => simp [itemsCount]
        | cons p xs ihxs =>
            have hp := ih p List.mem_cons_self
            have hrest := ihxs fun q hq => ih q (List.mem_cons_of_mem _ hq)
            simp only [List.map_cons, itemsCount, List.flatMap_cons, List.length_append]
            omega
      simp only [nodeCount, List.length_cons, List.length_append]
      omega
  | @dict n xs _ _ hnodup ih =>
      have hcount : entriesCount ((xs.map fun p => (p.1, p.2.2)).foldl
          (fun m e => OrdMap.insert e.1 e.2 m) []) = _ := entriesCount_foldl (by simp) hnodup
      have hsum : 2 * entriesCount (xs.map Prod.snd) ≤ (entriesText xs).length := by
        clear * - ih
        induction xs with
        | nil => simp [entriesCount]
        | cons p xs ihxs =>
            obtain ⟨k, x, v⟩ := p
            have hp : 2 * nodeCount v ≤ x.length := ih (k, x, v) List.mem_cons_self
            have hrest := ihxs fun q hq => ih q (List.mem_cons_of_mem _ hq)
            simp only [entriesText] at hrest
            simp only [List.map_cons, entriesCount, entriesText, List.flatMap_cons,
              List.length_append]
            omega
      simp only [entriesText] at hsum
      simp only [nodeCount, OrdMap.ofEntries, hcount, List.length_cons, List.length_append,
        entriesCount]
      omega

/-- A text in a dictionary is no longer than the dictionary. -/
theorem Derives.length_le_of_get {n : Nat} {x b key : Bytes} {v : Value} (h : Derives n x v)
    (hget : v.get key = some (.bytes b)) : b.length ≤ x.length := by
  cases h with
  | bytes _ => cases hget
  | int _ => cases hget
  | list _ => cases hget
  | @dict _ xs _ hxs hnodup =>
      have hkeys : ((xs.map fun p => (p.1, p.2.2)).map Prod.fst).Nodup := by
        rw [List.map_map]
        exact hnodup
      have hlookup : (xs.map fun p => (p.1, p.2.2)).lookup key = some (.bytes b) :=
        (OrdMap.lookup_ofEntries hkeys key).symm.trans hget
      obtain ⟨p, hp, heq⟩ := List.mem_map.1 (OrdMap.mem_of_lookup hlookup)
      have htext : p.2.1 = putBytes b := by
        have hderives := hxs p hp
        rw [(Prod.mk.inj heq).2] at hderives
        generalize p.2.1 = y at hderives
        cases hderives with
        | bytes _ => rfl
      obtain ⟨pre, post, rfl⟩ := List.append_of_mem hp
      simp only [List.flatMap_append, List.flatMap_cons, htext, putBytes, List.length_cons,
        List.length_append]
      omega

/-- The decoder on a whole input that starts with a derivation. -/
theorem value_new_of_derives {x : Bytes} {v : Value} (h : Derives MAX_DEPTH x v)
    (want : Option Bytes) (rest : Bytes) :
    ∃ s, value (nodeBudget (x ++ rest).length) MAX_DEPTH want (.new (x ++ rest)) =
      .ok (v, ⟨rest, x.length, nodeCount v, s⟩) ∧ (v.asDict = none → s = none) := by
  have hcount := h.two_mul_nodeCount_le
  have hfit : (Decoder.new (x ++ rest)).nodes + nodeCount v ≤ nodeBudget (x ++ rest).length := by
    simp only [Decoder.new, nodeBudget, MIN_NODE_BYTES, List.length_append]
    omega
  obtain ⟨s, hval, hs⟩ := value_of_derives h want (.new (x ++ rest)) rfl hfit
  exact ⟨s, by simpa [Decoder.after, Decoder.new] using hval, fun hdict => hs (.inr hdict)⟩

/-- What `decodeWithEntry` accepts is a derivation. -/
theorem derives_of_decodeWithEntry {x key : Bytes} {v : Value} {s : Option (Nat × Nat)}
    (h : decodeWithEntry x key = .ok (v, s)) : Derives MAX_DEPTH x v := by
  obtain ⟨⟨w, d⟩, hval, h⟩ := Except.ok_of_bind h
  simp only at h
  split at h
  · rename_i hrest
    obtain ⟨rfl, -⟩ : w = v ∧ d.span = s := by simpa using h
    obtain ⟨y, hy, hxy⟩ := derives_of_value hval
    rw [hrest, List.append_nil] at hxy
    obtain rfl : x = y := hxy
    exact hy
  · cases h

/-- `decode` accepts exactly the derivations. -/
theorem decode_eq_ok_iff {x : Bytes} {v : Value} : decode x = .ok v ↔ Derives MAX_DEPTH x v := by
  constructor
  · intro h
    obtain ⟨⟨v₁, s⟩, hentry, h⟩ := Except.ok_of_bind h
    obtain rfl : v₁ = v := by simpa using h
    exact derives_of_decodeWithEntry hentry
  · intro h
    obtain ⟨s, hval, -⟩ := value_new_of_derives h (some []) []
    rw [List.append_nil] at hval
    simp [decode, decodeWithEntry, hval]

/-- The entry of a dictionary is found where its text stands. -/
theorem decodeWithEntry_dict {xs : List (Bytes × Bytes × Value)}
    (hkeys : ∀ p ∈ xs, inUsize p.1.length = true)
    (hxs : ∀ p ∈ xs, Derives (MAX_DEPTH - 1) p.2.1 p.2.2) (hnodup : (xs.map Prod.fst).Nodup)
    (key : Bytes) : decodeWithEntry (100 :: (entriesText xs ++ [101])) key =
      .ok (.dict (OrdMap.ofEntries (xs.map fun p => (p.1, p.2.2))),
        entrySpan (some key) 1 xs none) := by
  have hderives : Derives MAX_DEPTH (100 :: (entriesText xs ++ [101])) _ :=
    Derives.dict hkeys hxs hnodup
  have hcount := hderives.two_mul_nodeCount_le
  have hreads : ∀ p ∈ xs, Reads (nodeBudget (100 :: (entriesText xs ++ [101])).length)
      (value (nodeBudget (100 :: (entriesText xs ++ [101])).length) (MAX_DEPTH - 1) none)
      p.2.1 p.2.2 := by
    intro p hp d rest hd hfit
    obtain ⟨s, hval, hs⟩ := value_of_derives (hxs p hp) none d hd hfit
    rw [hval, hs (.inl rfl)]
    rfl
  have hrest : (Decoder.new (100 :: (entriesText xs ++ [101]))).rest =
      100 :: (entriesText xs ++ [101]) ++ [] := by simp [Decoder.new]
  have hval := @value_dict _ _ (some key) xs hreads hkeys hnodup _ [] hrest
    (by simp only [Decoder.new, nodeBudget, MIN_NODE_BYTES]; omega)
  unfold decodeWithEntry
  rw [show MAX_DEPTH = MAX_DEPTH - 1 + 1 from rfl, hval]
  rfl

theorem entrySpan_of_notMem {key : Bytes} {xs : List (Bytes × Bytes × Value)}
    (h : key ∉ xs.map Prod.fst) (pos : Nat) (s : Option (Nat × Nat)) :
    entrySpan (some key) pos xs s = s := by
  induction xs generalizing pos s with
  | nil => rfl
  | cons p xs ih =>
      rw [List.map_cons, List.mem_cons, not_or] at h
      rw [entrySpan, if_neg (by simpa using h.1)]
      exact ih h.2 _ _

/-- What is noted over two runs of entries. -/
theorem entrySpan_append (want : Option Bytes) (pos : Nat) (xs ys : List (Bytes × Bytes × Value))
    (s : Option (Nat × Nat)) : entrySpan want pos (xs ++ ys) s =
      entrySpan want (pos + (entriesText xs).length) ys (entrySpan want pos xs s) := by
  induction xs generalizing pos s with
  | nil => rfl
  | cons p xs ih =>
      obtain ⟨k, x, v⟩ := p
      have hlength : (entriesText ((k, x, v) :: xs)).length =
          (putBytes k).length + x.length + (entriesText xs).length := by
        simp [entriesText, Nat.add_assoc]
      rw [List.cons_append, entrySpan, entrySpan, ih, hlength]
      simp only [Nat.add_assoc]

/-- The span noted for a key is where the text of its value stands. -/
theorem entrySpan_of_mem {key x : Bytes} {v : Value} {xs : List (Bytes × Bytes × Value)}
    (hnodup : (xs.map Prod.fst).Nodup) (hmem : (key, x, v) ∈ xs) :
    ∃ pre post, entriesText xs = pre ++ x ++ post ∧ ∀ pos s, entrySpan (some key) pos xs s =
      some (pos + pre.length, pos + pre.length + x.length) := by
  obtain ⟨as, bs, rfl⟩ := List.append_of_mem hmem
  rw [List.map_append, List.map_cons, List.nodup_append, List.nodup_cons] at hnodup
  refine ⟨entriesText as ++ putBytes key, entriesText bs, ?_, fun pos s => ?_⟩
  · simp [entriesText]
  · rw [entrySpan_append, entrySpan, if_pos rfl, entrySpan_of_notMem hnodup.2.1.1,
      List.length_append, Nat.add_assoc]

theorem decodeWithEntry_of_not_dict {x key : Bytes} {v : Value} {s : Option (Nat × Nat)}
    (h : decodeWithEntry x key = .ok (v, s)) (hdict : v.asDict = none) : s = none := by
  obtain ⟨s', hval, hs⟩ := value_new_of_derives (derives_of_decodeWithEntry h) (some key) []
  rw [List.append_nil] at hval
  rw [decodeWithEntry, hval] at h
  obtain rfl : s' = s := by simpa using h
  exact hs hdict

/-- The text in a span that was reported is that of the value the top-level dictionary has under the
key. -/
theorem derives_of_span {input key : Bytes} {root : Value} {start stop : Nat}
    (h : decodeWithEntry input key = .ok (root, some (start, stop))) :
    start ≤ stop ∧ stop ≤ input.length ∧ ∃ v, root.get key = some v ∧
      Derives (MAX_DEPTH - 1) ((input.take stop).drop start) v := by
  have hderives := derives_of_decodeWithEntry h
  cases hderives with
  | bytes _ => cases decodeWithEntry_of_not_dict h rfl
  | int _ => cases decodeWithEntry_of_not_dict h rfl
  | list _ => cases decodeWithEntry_of_not_dict h rfl
  | @dict _ xs hkeys hxs hnodup =>
      have hspan : entrySpan (some key) 1 xs none = some (start, stop) :=
        (Prod.mk.inj (Except.ok.inj ((decodeWithEntry_dict hkeys hxs hnodup key).symm.trans h))).2
      have hmem : key ∈ xs.map Prod.fst := by
        by_contra hnot
        rw [entrySpan_of_notMem hnot] at hspan
        cases hspan
      obtain ⟨⟨_, x, v⟩, hp, rfl⟩ := List.mem_map.1 hmem
      obtain ⟨pre, post, htext, hfound⟩ := entrySpan_of_mem hnodup hp
      rw [hfound] at hspan
      obtain ⟨rfl, rfl⟩ := Prod.mk.inj (Option.some.inj hspan)
      have hkeys' : ((xs.map fun p => (p.1, p.2.2)).map Prod.fst).Nodup := by
        rw [List.map_map]
        exact hnodup
      have hinput : 100 :: (entriesText xs ++ [101]) = (100 :: pre) ++ x ++ (post ++ [101]) := by
        simp [htext]
      have hstart : 1 + pre.length = (100 :: pre).length := Nat.add_comm _ _
      have hstop : 1 + pre.length + x.length = ((100 :: pre) ++ x).length := by
        rw [hstart, List.length_append]
      refine ⟨Nat.le_add_right _ _, ?_, v, ?_, ?_⟩
      · change _ ≤ (100 :: (entriesText xs ++ [101])).length
        rw [hinput, hstop]
        exact (List.sublist_append_left _ _).length_le
      · exact (OrdMap.lookup_ofEntries hkeys' _).trans
          (OrdMap.lookup_of_mem hkeys' (List.mem_map_of_mem hp))
      · change Derives _ (((100 :: (entriesText xs ++ [101])).take _).drop _) _
        rw [hinput, hstop, List.take_left, hstart, List.drop_left]
        exact hxs _ hp

/-- The span reported for a key is that of the value the top-level dictionary has under it, and
there is none exactly when there is no such value.  The text in the span decodes to the value. -/
theorem span_of_decodeWithEntry {input key : Bytes} {root : Value} {span : Option (Nat × Nat)}
    (h : decodeWithEntry input key = .ok (root, span)) :
    (span.isSome = true ↔ ∃ m v, root = .dict m ∧ m.lookup key = some v) ∧
    ∀ start stop, span = some (start, stop) → start ≤ stop ∧ stop ≤ input.length ∧
      ∃ v, root.get key = some v ∧ decode ((input.take stop).drop start) = .ok v := by
  refine ⟨?_, ?_⟩
  · have hderives := derives_of_decodeWithEntry h
    cases hroot : root.asDict with
    | none =>
        obtain rfl := decodeWithEntry_of_not_dict h hroot
        refine ⟨fun hnone => Bool.noConfusion hnone, ?_⟩
        rintro ⟨m, v, rfl, -⟩
        cases hroot
    | some m =>
        cases hderives with
        | bytes _ => cases hroot
        | int _ => cases hroot
        | list _ => cases hroot
        | @dict _ xs hkeys hxs hnodup =>
            have hkeys' : ((xs.map fun p => (p.1, p.2.2)).map Prod.fst).Nodup := by
              rw [List.map_map]
              exact hnodup
            have hlookup := OrdMap.lookup_ofEntries hkeys' key
            obtain rfl : entrySpan (some key) 1 xs none = span :=
              (Prod.mk.inj (Except.ok.inj
                ((decodeWithEntry_dict hkeys hxs hnodup key).symm.trans h))).2
            by_cases hmem : key ∈ xs.map Prod.fst
            · obtain ⟨⟨_, x, v⟩, hp, rfl⟩ := List.mem_map.1 hmem
              obtain ⟨pre, post, -, hspan⟩ := entrySpan_of_mem hnodup hp
              rw [OrdMap.lookup_of_mem hkeys' (List.mem_map_of_mem hp)] at hlookup
              rw [hspan]
              exact ⟨fun _ => ⟨_, v, rfl, hlookup⟩, fun _ => rfl⟩
            · rw [entrySpan_of_notMem hmem]
              refine ⟨fun hnone => Bool.noConfusion hnone, ?_⟩
              rintro ⟨m, v, heq, hfound⟩
              obtain rfl := Value.dict.inj heq
              rw [hlookup, OrdMap.lookup_eq_none_iff.2 (by rwa [List.map_map])] at hfound
              cases hfound
  · rintro start stop rfl
    obtain ⟨hle, hin, v, hget, hderives⟩ := derives_of_span h
    exact ⟨hle, hin, v, hget, decode_eq_ok_iff.2 (hderives.mono (by decide))⟩

/-- A dictionary with the key twice, once in a dictionary inside it. -/
theorem span_of_decodeWithEntry_nested :
    let input : Bytes := [100, 49, 58, 97, 100, 49, 58, 107, 105, 49, 101, 101, 49, 58, 107, 105, 50,
      101, 101]
    let root : Value := .dict [([97], .dict [([107], .int 1)]), ([107], .int 2)]
    ((some (15, 18)).isSome = true ↔ ∃ m v, root = .dict m ∧ m.lookup [107] = some v) ∧
    ∀ start stop, some (15, 18) = some (start, stop) → start ≤ stop ∧ stop ≤ input.length ∧
      ∃ v, root.get [107] = some v ∧ decode ((input.take stop).drop start) = .ok v :=
  span_of_decodeWithEntry rfl

/-- `decodePrefix` reads a derivation off the front of its input. -/
theorem decodePrefix_of_derives {x : Bytes} {v : Value} (h : Derives MAX_DEPTH x v)
    (rest : Bytes) : decodePrefix (x ++ rest) = .ok (v, x.length) := by
  obtain ⟨s, hval, -⟩ := value_new_of_derives h (some []) rest
  rw [decodePrefix, hval]
  rfl

/-- Derivations are self-delimiting. -/
theorem Derives.append_inj {n : Nat} {x y r r' : Bytes} {v w : Value} (hx : Derives n x v)
    (hy : Derives n y w) (h : x ++ r = y ++ r') : x = y ∧ v = w ∧ r = r' := by
  have hv₀ : (Decoder.new (x ++ r)).nodes + nodeCount v ≤ nodeCount v + nodeCount w := by
    simp [Decoder.new]
  have hw₀ : (Decoder.new (x ++ r)).nodes + nodeCount w ≤ nodeCount v + nodeCount w := by
    simp [Decoder.new]
  obtain ⟨s, hv, -⟩ := value_of_derives hx none (.new (x ++ r)) rfl hv₀
  obtain ⟨s', hw, -⟩ := value_of_derives hy none (.new (x ++ r)) h hw₀
  rw [hv] at hw
  simp only [Except.ok.injEq, Prod.mk.injEq, Decoder.after, Decoder.new, Decoder.mk.injEq] at hw
  obtain ⟨hvw, hr, hlen, -⟩ := hw
  refine ⟨?_, hvw, hr⟩
  rw [hr] at h
  exact List.append_cancel_right h

/-! ## Round trip -/

mutual

/-- What an encodable value satisfies: integers in range, strings of a representable
length, dictionaries in order, at most `n` levels. -/
def WellFormed : Nat → Value → Prop
  | 0, _ => False
  | _ + 1, .bytes b => inUsize b.length = true
  | _ + 1, .int i => inI64 i = true
  | n + 1, .list items => ItemsWellFormed n items
  | n + 1, .dict m => OrdMap.Sorted m ∧ EntriesWellFormed n m

def ItemsWellFormed : Nat → List Value → Prop
  | _, [] => True
  | n, v :: vs => WellFormed n v ∧ ItemsWellFormed n vs

def EntriesWellFormed : Nat → List (Bytes × Value) → Prop
  | _, [] => True
  | n, (k, v) :: m => inUsize k.length = true ∧ WellFormed n v ∧ EntriesWellFormed n m

end

theorem ItemsWellFormed.forall {n : Nat} {vs : List Value} (h : ItemsWellFormed n vs) :
    ∀ v ∈ vs, WellFormed n v := by
  induction vs with
  | nil => simp
  | cons v vs ih =>
      intro w hw
      rcases List.mem_cons.1 hw with rfl | hw
      · exact h.1
      · exact ih h.2 w hw

theorem EntriesWellFormed.forall {n : Nat} {m : List (Bytes × Value)}
    (h : EntriesWellFormed n m) :
    ∀ e ∈ m, inUsize e.1.length = true ∧ WellFormed n e.2 := by
  induction m with
  | nil => simp
  | cons e m ih =>
      obtain ⟨k, v⟩ := e
      intro e' he'
      rcases List.mem_cons.1 he' with rfl | he'
      · exact ⟨h.1, h.2.1⟩
      · exact ih h.2.2 e' he'

theorem EntriesWellFormed.of_forall {n : Nat} {m : List (Bytes × Value)}
    (h : ∀ e ∈ m, inUsize e.1.length = true ∧ WellFormed n e.2) : EntriesWellFormed n m := by
  induction m with
  | nil => exact trivial
  | cons e m ih =>
      have he := h e List.mem_cons_self
      exact ⟨he.1, he.2, ih fun e' he' => h e' (List.mem_cons_of_mem e he')⟩

theorem wellFormed_dict (n : Nat) {m : List (Bytes × Value)} :
    WellFormed (n + 1) (.dict m) ↔ OrdMap.Sorted m ∧ EntriesWellFormed n m := by
  rw [WellFormed]

theorem WellFormed.dict {n : Nat} {m : List (Bytes × Value)} (hsorted : OrdMap.Sorted m)
    (h : ∀ e ∈ m, inUsize e.1.length = true ∧ WellFormed n e.2) : WellFormed (n + 1) (.dict m) :=
  (wellFormed_dict n).2 ⟨hsorted, EntriesWellFormed.of_forall h⟩

/-- What is in a dictionary is well formed. -/
theorem WellFormed.get {n : Nat} {root v : Value} {key : Bytes} (h : WellFormed (n + 1) root)
    (hget : root.get key = some v) : WellFormed n v := by
  cases root with
  | dict m => exact (h.2.forall _ (OrdMap.mem_of_lookup hget)).2
  | bytes b => cases hget
  | int i => cases hget
  | list vs => cases hget

theorem encodeItems_eq (vs : List Value) : encodeItems vs = vs.flatMap encode := by
  induction vs with
  | nil => rfl
  | cons v vs ih => rw [encodeItems, ih, List.flatMap_cons]

theorem encodeEntries_eq (m : List (Bytes × Value)) :
    encodeEntries m = entriesText (m.map fun e => (e.1, encode e.2, e.2)) := by
  induction m with
  | nil => rfl
  | cons e m ih =>
      obtain ⟨k, v⟩ := e
      rw [encodeEntries, ih]
      simp [entriesText]

/-- Strict bencodings of height at most `n` whose dictionaries all have their keys in ascending
order.  A text has one derivation only (`Derives.append_inj`). -/
inductive InOrder : Nat → Bytes → Value → Prop where
  | bytes {n : Nat} {b : Bytes} : inUsize b.length = true → InOrder (n + 1) (putBytes b) (.bytes b)
  | int {n : Nat} {i : Int} : inI64 i = true →
      InOrder (n + 1) (105 :: (intText i ++ [101])) (.int i)
  | list {n : Nat} {xs : List (Bytes × Value)} : (∀ p ∈ xs, InOrder n p.1 p.2) →
      InOrder (n + 1) (108 :: (xs.flatMap Prod.fst ++ [101])) (.list (xs.map Prod.snd))
  | dict {n : Nat} {xs : List (Bytes × Bytes × Value)} :
      (∀ p ∈ xs, inUsize p.1.length = true) → (∀ p ∈ xs, InOrder n p.2.1 p.2.2) →
      OrdMap.Sorted (xs.map fun p => (p.1, p.2.2)) →
      InOrder (n + 1) (100 :: (xs.flatMap (fun p => putBytes p.1 ++ p.2.1) ++ [101]))
        (.dict (OrdMap.ofEntries (xs.map fun p => (p.1, p.2.2))))

/-- The encoding of a value is in order. -/
theorem inOrder_encode {n : Nat} {v : Value} (h : WellFormed n v) : InOrder n (encode v) v := by
  induction n generalizing v with
  | zero => exact absurd h (by simp [WellFormed])
  | succ n ih =>
      cases v with
      | bytes b => exact .bytes h
      | int i => exact .int h
      | list vs =>
          have hxs : ∀ p ∈ vs.map fun v => (encode v, v), InOrder n p.1 p.2 := by
            intro p hp
            obtain ⟨v, hv, rfl⟩ := List.mem_map.1 hp
            exact ih (ItemsWellFormed.forall h v hv)
          have hlist := InOrder.list hxs
          simp only [List.map_map, List.flatMap_map] at hlist
          rw [encode, encodeItems_eq]
          simpa [Function.comp_def] using hlist
      | dict m =>
          obtain ⟨hsorted, hm⟩ := h
          have hall := EntriesWellFormed.forall hm
          have hkeys : ∀ p ∈ m.map fun e => (e.1, encode e.2, e.2), inUsize p.1.length = true := by
            intro p hp
            obtain ⟨e, he, rfl⟩ := List.mem_map.1 hp
            exact (hall e he).1
          have hvals : ∀ p ∈ m.map fun e => (e.1, encode e.2, e.2), InOrder n p.2.1 p.2.2 := by
            intro p hp
            obtain ⟨e, he, rfl⟩ := List.mem_map.1 hp
            exact ih (hall e he).2
          have hdict := InOrder.dict hkeys hvals (by simpa [Function.comp_def] using hsorted)
          simp only [List.map_map, Function.comp_def, Prod.mk.eta, List.map_id',
            OrdMap.ofEntries_eq_self hsorted] at hdict
          rw [encode, encodeEntries_eq]
          exact hdict

theorem InOrder.derives {n : Nat} {x : Bytes} {v : Value} (h : InOrder n x v) : Derives n x v := by
  induction h with
  | bytes hlen => exact .bytes hlen
  | int hint => exact .int hint
  | list _ ih => exact .list ih
  | dict hkeys _ hsorted ih =>
      exact .dict hkeys ih (by simpa [Function.comp_def] using hsorted.nodup_keys)

/-- The canonical encoding is a derivation. -/
theorem derives_encode {n : Nat} {v : Value} (h : WellFormed n v) : Derives n (encode v) v :=
  (inOrder_encode h).derives

/-- Decoding what was encoded. -/
theorem decode_encode {v : Value} (h : WellFormed MAX_DEPTH v) : decode (encode v) = .ok v :=
  decode_eq_ok_iff.2 (derives_encode h)

/-- A value in front of other bytes decodes, and the length it took is that of its
encoding. -/
theorem decodePrefix_encode {v : Value} (h : WellFormed MAX_DEPTH v) (rest : Bytes) :
    decodePrefix (encode v ++ rest) = .ok (v, (encode v).length) :=
  decodePrefix_of_derives (derives_encode h) rest

end Clove.Bencode
