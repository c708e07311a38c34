import Clove.Json
import Clove.Lib.Lists
import Clove.Lib.Words

/-!
# What is encoded is parsed again

Every value without floating-point numbers that is not nested too deeply is parsed from its
encoding, with its unsigned integers read as signed where they fit (`readAs`).  A reader is
described by the text it takes in front of any other (`Reads`), and leaves the depth as it was.
-/

namespace Clove.Json

open Decimal (digits isDigit)
open Utf8 (ascii IsChar)

variable {F α : Type}

/-- A reader takes a text in front of a rest, and is as deep as before. -/
def Reads (f : Parser → Except ParseError (α × Parser)) (text : Bytes) (a : α) (rest : Bytes)
    (depth : Nat) : Prop :=
  ∀ pos, ∃ pos', f ⟨text ++ rest, pos, depth⟩ = .ok (a, ⟨rest, pos', depth⟩)

theorem advance_append (a b : Bytes) (pos depth : Nat) :
    (⟨a ++ b, pos, depth⟩ : Parser).advance a.length = ⟨b, pos + a.length, depth⟩ := by
  rw [Parser.advance, List.drop_left]

theorem advance_cons (b : UInt8) (s : Bytes) (pos depth : Nat) :
    (⟨b :: s, pos, depth⟩ : Parser).advance 1 = ⟨s, pos + 1, depth⟩ := rfl

theorem peek_cons (b : UInt8) (s : Bytes) (pos depth : Nat) :
    (⟨b :: s, pos, depth⟩ : Parser).peek = some b := rfl

/-! ## Escapes -/

theorem value_hexDigit (n : Nat) : Hex.value (hexDigit n) = some (UInt8.ofNat (n % 16)) := by
  have hall : ∀ m < 16, Hex.value (Hex.digit (UInt8.ofNat m)) = some (UInt8.ofNat m) := by decide
  exact hall (n % 16) (Nat.mod_lt n (by decide))

/-- Digits that are written are read. -/
theorem hexDigits_cons (k n value : Nat) (s : Bytes) (pos depth : Nat) :
    hexDigits (k + 1) value ⟨hexDigit n :: s, pos, depth⟩ =
      hexDigits k (value * 16 + n % 16) ⟨s, pos + 1, depth⟩ := by
  have hlt : n % 16 < 256 := by omega
  rw [hexDigits, Parser.peek, List.head?_cons, Option.bind_some, value_hexDigit]
  simp only [UInt8.toNat_ofNat_of_lt' hlt, advance_cons]

theorem hex4_reads {n : Nat} (hn : n < 65536) (rest : Bytes) (depth : Nat) :
    Reads hex4 [hexDigit (n / 4096), hexDigit (n / 256), hexDigit (n / 16), hexDigit n] n rest
      depth := by
  intro pos
  refine ⟨pos + 4, ?_⟩
  have hvalue : (((0 * 16 + n / 4096 % 16) * 16 + n / 256 % 16) * 16 + n / 16 % 16) * 16 + n % 16 =
      n := by omega
  rw [hex4, List.cons_append, List.cons_append, List.cons_append, List.cons_append,
    List.nil_append, hexDigits_cons, hexDigits_cons, hexDigits_cons, hexDigits_cons, hvalue]
  rfl

/-- A code point that is written is read. -/
theorem unicodeEscaped_reads {n : Nat} (hn : n < 0xd800) (rest : Bytes) (depth : Nat) :
    Reads unicodeEscaped (unicodeEscape n).tail (Utf8.encode n) rest depth := by
  intro pos
  obtain ⟨pos', hhex⟩ := hex4_reads (n := n) (by omega) rest depth (pos + 1)
  refine ⟨pos', ?_⟩
  have hadvance : (⟨(unicodeEscape n).tail ++ rest, pos, depth⟩ : Parser).advance 1 =
      ⟨[hexDigit (n / 4096), hexDigit (n / 256), hexDigit (n / 16), hexDigit n] ++ rest, pos + 1,
        depth⟩ := rfl
  have hpair : ∀ p, pairUp n p = .ok (n, p) := fun p => by
    rw [pairUp, if_neg (by omega), if_neg (by omega)]
  rw [unicodeEscaped, hadvance, hhex, Except.ok_bind]
  dsimp only
  rw [hpair, Except.ok_bind]
  exact if_pos (by simp [isScalar, hn])

/-- The code points that are not written as they are. -/
def isEscaped (n : Nat) : Bool :=
  n = 34 || n = 92 || n < 32 || (127 ≤ n && n ≤ 159) || n = 0x2028 || n = 0x2029

theorem writeChar_plain {c : Bytes} (h : isEscaped (Utf8.codePoint c) = false) :
    writeChar c = c := by
  simp only [isEscaped, Bool.or_eq_false_iff, decide_eq_false_iff_not, Bool.and_eq_false_iff] at h
  unfold writeChar
  simp only
  rw [if_neg (by omega), if_neg (by omega), if_neg (by omega), if_neg (by omega),
    if_neg (by omega), if_neg (by omega), if_neg (by omega), if_neg (by omega), if_neg (by omega)]

theorem escape_reads_short {b c : UInt8} (hb : b ≠ 117) (h : shortEscape b = some c) (rest : Bytes)
    (depth : Nat) : Reads escape [b] [c] rest depth := by
  intro pos
  refine ⟨pos + 1, ?_⟩
  rw [escape, List.singleton_append, Parser.peek, List.head?_cons]
  simp only [if_neg hb, h, advance_cons]

/-- A character that is escaped is read from its escape. -/
theorem escape_reads {c : Bytes} (hc : IsChar c) (h : isEscaped (Utf8.codePoint c) = true) :
    ∃ e, writeChar c = 92 :: e ∧ ∀ rest depth, Reads escape e c rest depth := by
  have hback := Utf8.encode_codePoint hc
  -- those with an escape of one character
  have hshort : ∀ {n : Nat} {b d : UInt8}, Utf8.codePoint c = n → Utf8.encode n = [d] →
      b ≠ 117 → shortEscape b = some d → writeChar c = [92, b] →
      ∃ e, writeChar c = 92 :: e ∧ ∀ rest depth, Reads escape e c rest depth := by
    intro n b d hn hd hb hescape hwrite
    refine ⟨[b], hwrite, fun rest depth => ?_⟩
    rw [← hback, hn, hd]
    exact escape_reads_short hb hescape rest depth
  by_cases hmany : Utf8.codePoint c = 34 ∨ Utf8.codePoint c = 92 ∨ Utf8.codePoint c = 8 ∨
      Utf8.codePoint c = 9 ∨ Utf8.codePoint c = 10 ∨ Utf8.codePoint c = 12 ∨ Utf8.codePoint c = 13
  · have hwrite : writeChar c = (let n := Utf8.codePoint c; writeChar (Utf8.encode n)) := by
      simp only [hback]
    rcases hmany with hn | hn | hn | hn | hn | hn | hn <;> simp only [hn] at hwrite
    · exact hshort hn rfl (b := 34) (by decide) rfl (hwrite.trans (by decide))
    · exact hshort hn rfl (b := 92) (by decide) rfl (hwrite.trans (by decide))
    · exact hshort hn rfl (b := 98) (by decide) rfl (hwrite.trans (by decide))
    · exact hshort hn rfl (b := 116) (by decide) rfl (hwrite.trans (by decide))
    · exact hshort hn rfl (b := 110) (by decide) rfl (hwrite.trans (by decide))
    · exact hshort hn rfl (b := 102) (by decide) rfl (hwrite.trans (by decide))
    · exact hshort hn rfl (b := 114) (by decide) rfl (hwrite.trans (by decide))
  · simp only [isEscaped, Bool.or_eq_true, Bool.and_eq_true, decide_eq_true_eq] at h
    have hwrite : writeChar c = unicodeEscape (Utf8.codePoint c) := by
      unfold writeChar
      simp only
      rw [if_neg (by omega), if_neg (by omega), if_neg (by omega), if_neg (by omega),
        if_neg (by omega), if_neg (by omega), if_neg (by omega)]
      split
      · rfl
      · exact if_pos (by omega)
    refine ⟨(unicodeEscape (Utf8.codePoint c)).tail, hwrite, fun rest depth pos => ?_⟩
    have hread := unicodeEscaped_reads (n := Utf8.codePoint c) (by omega) rest depth pos
    rw [hback] at hread
    exact hread

/-! ## Strings -/

theorem codePoint_ascii {b : UInt8} (hb : b < 128) : Utf8.codePoint [b] = b.toNat := by
  rw [Utf8.codePoint, if_pos hb]
  rfl

theorem isOrdinary_of_plain {c : Bytes} (hc : IsChar c)
    (h : isEscaped (Utf8.codePoint c) = false) : ∀ b ∈ c, isOrdinary b = true := by
  rcases hc.ascii_or with ⟨b, rfl, hb⟩ | hhigh
  · rw [codePoint_ascii hb] at h
    intro d hd
    rw [List.mem_singleton.1 hd]
    have h34 : b = 34 ↔ b.toNat = 34 := UInt8.toNat_inj.symm
    have h92 : b = 92 ↔ b.toNat = 92 := UInt8.toNat_inj.symm
    have h32 : 32 ≤ b ↔ 32 ≤ b.toNat := UInt8.le_iff_toNat_le
    simp only [isEscaped, Bool.or_eq_false_iff, decide_eq_false_iff_not] at h
    simp only [isOrdinary, Bool.and_eq_true, decide_eq_true_eq, ne_eq, h34, h92, h32]
    omega
  · intro b hb
    have hbyte : 128 ≤ b := hhigh b hb
    grind [isOrdinary]

theorem takeWhile_plain {cs : List Bytes} (hcs : ∀ c ∈ cs, IsChar c)
    (hplain : ∀ c ∈ cs, isEscaped (Utf8.codePoint c) = false) {b : UInt8}
    (hb : isOrdinary b = false) (rest : Bytes) :
    (cs.flatten ++ b :: rest).takeWhile isOrdinary = cs.flatten := by
  have hall : ∀ b ∈ cs.flatten, isOrdinary b = true := by
    intro d hd
    obtain ⟨c, hc, hdc⟩ := List.mem_flatten.1 hd
    exact isOrdinary_of_plain (hcs c hc) (hplain c hc) d hdc
  rw [List.takeWhile_append_of_pos hall, List.takeWhile_cons_of_neg (by simp [hb]), List.append_nil]

theorem flatMap_plain {cs : List Bytes} (hplain : ∀ c ∈ cs, isEscaped (Utf8.codePoint c) = false) :
    cs.flatMap writeChar = cs.flatten := by
  rw [← List.flatMap_id]
  exact List.flatMap_congr fun c hc => writeChar_plain (hplain c hc)

/-- A run of characters that are written as they are, and the byte that ends it. -/
theorem stringBody_run {cs : List Bytes} (hcs : ∀ c ∈ cs, IsChar c)
    (hplain : ∀ c ∈ cs, isEscaped (Utf8.codePoint c) = false) {b : UInt8}
    (hb : isOrdinary b = false) (fuel : Nat) (out rest : Bytes) (pos depth : Nat) :
    ∃ pos', stringBody (fuel + 1) out ⟨cs.flatten ++ b :: rest, pos, depth⟩ =
      if b = 34 then .ok (out ++ cs.flatten, ⟨rest, pos', depth⟩)
      else if b = 92 then (do
        let (c, p) ← escape ⟨rest, pos', depth⟩
        stringBody fuel (out ++ cs.flatten ++ c) p)
      else .error (Parser.err ⟨b :: rest, pos + cs.flatten.length, depth⟩
        "control character in string") := by
  refine ⟨pos + cs.flatten.length + 1, ?_⟩
  rw [stringBody, takeWhile_plain hcs hplain hb, advance_append, (Utf8.chars_flatten hcs).1]
  rfl

/-- The loop reads what was written of characters. -/
theorem stringBody_reads {cs : List Bytes} (hcs : ∀ c ∈ cs, IsChar c) {fuel : Nat}
    (hfuel : cs.length < fuel) (out rest : Bytes) (depth : Nat) :
    Reads (stringBody fuel out) (cs.flatMap writeChar ++ [34]) (out ++ cs.flatten) rest depth := by
  induction hn : cs.length using Nat.strong_induction_on generalizing cs fuel out with
  | _ n ih =>
      intro pos
      obtain ⟨fuel, rfl⟩ : ∃ k, fuel = k + 1 := ⟨fuel - 1, by omega⟩
      rcases Words.cut (fun c => isEscaped (Utf8.codePoint c)) cs with
        hplain | ⟨w, c, cs', rfl, hw, hc⟩
      · -- no escape is left
        obtain ⟨pos', hrun⟩ :=
          stringBody_run hcs hplain (b := 34) (by decide) fuel out rest pos depth
        refine ⟨pos', ?_⟩
        rw [flatMap_plain hplain, List.append_assoc, List.singleton_append, hrun]
        rfl
      · have hwc : ∀ d ∈ w, IsChar d := fun d hd => hcs d (List.mem_append_left _ hd)
        have hcc : IsChar c := hcs c (List.mem_append_right _ List.mem_cons_self)
        have hcs' : ∀ d ∈ cs', IsChar d :=
          fun d hd => hcs d (List.mem_append_right _ (List.mem_cons_of_mem _ hd))
        rw [List.length_append, List.length_cons] at hn hfuel
        obtain ⟨e, hwrite, hescape⟩ := escape_reads hcc hc
        obtain ⟨pos₁, hrun⟩ := stringBody_run hwc hw (b := 92) (by decide) fuel out
          (e ++ (cs'.flatMap writeChar ++ [34] ++ rest)) pos depth
        obtain ⟨pos₂, he⟩ := hescape (cs'.flatMap writeChar ++ [34] ++ rest) depth pos₁
        have hless : cs'.length < fuel := by omega
        obtain ⟨pos', hrest⟩ := ih cs'.length (by omega) hcs' hless (out ++ w.flatten ++ c) rfl pos₂
        refine ⟨pos', ?_⟩
        have htext : (w ++ c :: cs').flatMap writeChar ++ [34] ++ rest =
            w.flatten ++ 92 :: (e ++ (cs'.flatMap writeChar ++ [34] ++ rest)) := by
          rw [List.flatMap_append, List.flatMap_cons, flatMap_plain hw, hwrite]
          simp
        rw [htext, hrun, if_neg (by decide), if_pos rfl, he, Except.ok_bind]
        dsimp only
        rw [hrest, List.flatten_append, List.flatten_cons, ← List.append_assoc,
          ← List.append_assoc]

theorem writeChar_ne_nil {c : Bytes} (hc : IsChar c) : writeChar c ≠ [] := by
  cases hesc : isEscaped (Utf8.codePoint c) with
  | true =>
      obtain ⟨e, hwrite, -⟩ := escape_reads hc hesc
      rw [hwrite]
      exact List.cons_ne_nil _ _
  | false =>
      rw [writeChar_plain hesc]
      cases hc
      exact List.cons_ne_nil _ _

/-- A string is read as it was. -/
theorem string_reads {s : Bytes} (hs : Utf8.valid s = true) (rest : Bytes) (depth : Nat) :
    Reads string (writeString s) s rest depth := by
  intro pos
  have hchars := Utf8.isChar_of_mem_chars hs
  have hlong : (Utf8.chars s).length ≤ ((Utf8.chars s).flatMap writeChar).length := by
    exact Lists.length_le_flatMap fun c hc => writeChar_ne_nil (hchars c hc)
  have hfuel : (Utf8.chars s).length < (writeString s ++ rest).length := by
    rw [writeString, List.length_append, List.length_append, List.length_cons]
    omega
  obtain ⟨pos', hbody⟩ := stringBody_reads hchars hfuel [] rest depth (pos + 1)
  refine ⟨pos', ?_⟩
  rw [List.nil_append, Utf8.flatten_chars] at hbody
  exact hbody

/-! ## Numbers -/

/-- What may come after a number that is read to its end. -/
def Stops (rest : Bytes) : Prop :=
  ∀ b ∈ rest.head?, isDigit b = false ∧ b ≠ 46 ∧ b ≠ 101 ∧ b ≠ 69

theorem takeWhile_digits {t rest : Bytes} (ht : ∀ b ∈ t, isDigit b = true) (hrest : Stops rest) :
    (t ++ rest).takeWhile isDigit = t := by
  rw [List.takeWhile_append_of_pos ht]
  cases rest with
  | nil => rw [List.takeWhile_nil, List.append_nil]
  | cons b rest =>
      rw [List.takeWhile_cons_of_neg (by simp [(hrest b rfl).1]), List.append_nil]

theorem fraction_stops {rest : Bytes} (h : Stops rest) : fraction rest = [] := by
  cases rest with
  | nil => rfl
  | cons b rest => exact if_neg (h b rfl).2.1

theorem exponent_stops {rest : Bytes} (h : Stops rest) : exponent rest = [] := by
  cases rest with
  | nil => rfl
  | cons b rest =>
      obtain ⟨-, -, he, hE⟩ := h b rfl
      exact if_neg (by simp [he, hE])

/-- An integer is read to its end, and has no fraction. -/
theorem scan_int {sign t rest : Bytes} (hsign : sign = [] ∨ sign = [45])
    (ht : ∀ b ∈ t, isDigit b = true) (hne : t ≠ []) (hrest : Stops rest) :
    scan (sign ++ t ++ rest) = (sign ++ t, false) := by
  have hhead : (if (sign ++ t ++ rest).head? = some 45 then [45] else []) = sign := by
    rcases hsign with rfl | rfl
    · obtain ⟨b, u, rfl⟩ := List.exists_cons_of_ne_nil hne
      refine if_neg fun h => ?_
      have hb := ht b List.mem_cons_self
      rw [Option.some.inj h] at hb
      exact absurd hb (by decide)
    · rfl
  have hwhole : ((sign ++ t ++ rest).drop sign.length).takeWhile isDigit = t := by
    rw [List.append_assoc, List.drop_left]
    exact takeWhile_digits ht hrest
  have hafter : (sign ++ t ++ rest).drop (sign.length + t.length) = rest := by
    rw [← List.length_append, List.drop_left]
  unfold scan
  simp only [hhead, hwhole, hafter, fraction_stops hrest, List.length_nil, Nat.add_zero,
    exponent_stops hrest, List.append_nil]
  rfl

theorem head_ne_sign {t : Bytes} (ht : ∀ b ∈ t, isDigit b = true) {b : UInt8}
    (hb : isDigit b = false) : t.head? ≠ some b := by
  intro h
  rw [ht b (List.mem_of_head? h)] at hb
  cases hb

theorem all_digits (n : Nat) : (digits n).all isDigit = true :=
  List.all_eq_true.2 (Decimal.isDigit_of_mem_digits n)

theorem parseI64_digits (n : Nat) :
    parseI64 (digits n) = if Bencode.inI64 n then some (n : Int) else none := by
  have hdigit := Decimal.isDigit_of_mem_digits n
  have hplus : (digits n).head? ≠ some 43 := head_ne_sign hdigit (by decide)
  have hminus : (digits n).head? ≠ some 45 := head_ne_sign hdigit (by decide)
  unfold parseI64
  simp only [hplus, hminus, or_self, if_false, Decimal.ofDigits_digits, all_digits,
    Decimal.digits_ne_nil, ne_eq, not_false_eq_true, true_and]

theorem parseI64_neg {n : Nat} (h : Bencode.inI64 (-n) = true) :
    parseI64 (45 :: digits n) = some (-n : Int) := by
  unfold parseI64
  simp only [List.head?_cons, or_true, if_true, List.tail_cons, Decimal.ofDigits_digits, all_digits,
    Decimal.digits_ne_nil, ne_eq, not_false_eq_true, true_and, h]

theorem parseU64_digits (n : Nat) :
    parseU64 (digits n) = if Bencode.inUsize n then some n else none := by
  have hplus : (digits n).head? ≠ some 43 :=
    head_ne_sign (Decimal.isDigit_of_mem_digits n) (by decide)
  unfold parseU64
  simp only [if_neg hplus, Decimal.ofDigits_digits, all_digits, Decimal.digits_ne_nil, ne_eq,
    not_false_eq_true, true_and]

/-- An unsigned integer as it is read. -/
def readUInt (n : Nat) : Value F := if Bencode.inI64 n then .int n else .uint n

theorem number_uint (fl : Floats F) {n : Nat} (hn : Bencode.inUsize n = true) {rest : Bytes}
    (hrest : Stops rest) (depth : Nat) :
    Reads (number fl) (digits n) (readUInt n) rest depth := by
  intro pos
  have hscan : scan (digits n ++ rest) = (digits n, false) :=
    scan_int (.inl rfl) (Decimal.isDigit_of_mem_digits n) (Decimal.digits_ne_nil n) hrest
  refine ⟨pos + (digits n).length, ?_⟩
  unfold number readUInt
  simp only [hscan, advance_append, parseI64_digits, parseU64_digits, hn, if_true]
  by_cases hfits : Bencode.inI64 n = true
  · simp only [hfits, if_true, Bool.false_eq_true, if_false]
  · simp only [hfits, if_false, Bool.false_eq_true]

theorem number_int (fl : Floats F) {n : Int} (hn : Bencode.inI64 n = true) {rest : Bytes}
    (hrest : Stops rest) (depth : Nat) :
    Reads (number fl) (Bencode.intText n) (.int n) rest depth := by
  intro pos
  refine ⟨pos + (Bencode.intText n).length, ?_⟩
  have hdigit := Decimal.isDigit_of_mem_digits n.natAbs
  have hne := Decimal.digits_ne_nil n.natAbs
  unfold Bencode.intText
  by_cases hneg : n < 0
  · have hscan : scan (45 :: digits n.natAbs ++ rest) = (45 :: digits n.natAbs, false) :=
      scan_int (.inr rfl) hdigit hne hrest
    have hback : (-(n.natAbs : Int)) = n := by omega
    have hparse := parseI64_neg (n := n.natAbs) (by rwa [hback])
    rw [if_pos hneg, number, hscan]
    simp only [advance_append, hparse, hback, Bool.false_eq_true, if_false]
  · have hscan : scan (digits n.natAbs ++ rest) = (digits n.natAbs, false) :=
      scan_int (.inl rfl) hdigit hne hrest
    have hback : (n.natAbs : Int) = n := by omega
    have hparse := parseI64_digits n.natAbs
    rw [hback, if_pos hn] at hparse
    rw [if_neg hneg, number, hscan]
    simp only [advance_append, hparse, Bool.false_eq_true, if_false]

/-! ## Values -/

mutual

/-- What the types of the source promise, and no floating-point numbers. -/
def Plain : Value F → Prop
  | .null => True
  | .bool _ => True
  | .int n => Bencode.inI64 n = true
  | .uint n => Bencode.inUsize n = true
  | .float _ => False
  | .str s => Utf8.valid s = true
  | .array vs => ItemsPlain vs
  | .object fs => FieldsPlain fs

def ItemsPlain : List (Value F) → Prop
  | [] => True
  | v :: vs => Plain v ∧ ItemsPlain vs

def FieldsPlain : List (Bytes × Value F) → Prop
  | [] => True
  | (key, v) :: fs => Utf8.valid key = true ∧ Plain v ∧ FieldsPlain fs

end

mutual

/-- How many arrays and objects stand in one another. -/
def nesting : Value F → Nat
  | .null => 0
  | .bool _ => 0
  | .int _ => 0
  | .uint _ => 0
  | .float _ => 0
  | .str _ => 0
  | .array vs => itemsNesting vs + 1
  | .object fs => fieldsNesting fs + 1

def itemsNesting : List (Value F) → Nat
  | [] => 0
  | v :: vs => max (nesting v) (itemsNesting vs)

def fieldsNesting : List (Bytes × Value F) → Nat
  | [] => 0
  | (_, v) :: fs => max (nesting v) (fieldsNesting fs)

end

mutual

/-- A value as it is read. -/
def readAs : Value F → Value F
  | .null => .null
  | .bool b => .bool b
  | .int n => .int n
  | .uint n => readUInt n
  | .float f => .float f
  | .str s => .str s
  | .array vs => .array (readItems vs)
  | .object fs => .object (readFields fs)

def readItems : List (Value F) → List (Value F)
  | [] => []
  | v :: vs => readAs v :: readItems vs

def readFields : List (Bytes × Value F) → List (Bytes × Value F)
  | [] => []
  | (key, v) :: fs => (key, readAs v) :: readFields fs

end

/-! ## What is passed over -/

theorem skipWs_cons {b : UInt8} (hb : Parser.isWs b = false) (s : Bytes) (pos depth : Nat) :
    (⟨b :: s, pos, depth⟩ : Parser).skipWs = ⟨b :: s, pos, depth⟩ := by
  rw [Parser.skipWs, List.takeWhile_cons_of_neg (by simp [hb])]
  rfl

/-- The first byte of a value. -/
theorem encode_head (fl : Floats F) {v : Value F} (h : Plain v) :
    ∃ b t, encode fl v = b :: t ∧ Parser.isWs b = false ∧ b ≠ 93 := by
  have hdigits : ∀ n, ∃ b t, digits n = b :: t ∧ Parser.isWs b = false ∧ b ≠ 93 := by
    intro n
    obtain ⟨b, t, ht⟩ := List.exists_cons_of_ne_nil (Decimal.digits_ne_nil n)
    have hb := Decimal.isDigit_of_mem_digits n b (by rw [ht]; exact List.mem_cons_self)
    have hother : Parser.isWs b = false ∧ b ≠ 93 := by grind [isDigit, Parser.isWs]
    exact ⟨b, t, ht, hother⟩
  cases v with
  | null => exact ⟨110, ascii "ull", rfl, by decide, by decide⟩
  | bool b =>
      cases b with
      | true => exact ⟨116, ascii "rue", rfl, by decide, by decide⟩
      | false => exact ⟨102, ascii "alse", rfl, by decide, by decide⟩
  | int n =>
      rw [encode, Bencode.intText]
      split
      · exact ⟨45, _, rfl, by decide, by decide⟩
      · exact hdigits n.natAbs
  | uint n =>
      rw [encode]
      exact hdigits n
  | float f => exact absurd h id
  | str s =>
      rw [encode]
      exact ⟨34, _, rfl, by decide, by decide⟩
  | array vs =>
      rw [encode]
      exact ⟨91, _, rfl, by decide, by decide⟩
  | object fs =>
      rw [encode]
      exact ⟨123, _, rfl, by decide, by decide⟩

theorem skipWs_encode (fl : Floats F) {v : Value F} (h : Plain v) (s : Bytes) (pos depth : Nat) :
    (⟨encode fl v ++ s, pos, depth⟩ : Parser).skipWs = ⟨encode fl v ++ s, pos, depth⟩ := by
  obtain ⟨b, t, htext, hb, -⟩ := encode_head fl h
  rw [htext, List.cons_append, skipWs_cons hb]

theorem stops_cons {b : UInt8} {rest : Bytes} (hb : b = 44 ∨ b = 93 ∨ b = 125) :
    Stops (b :: rest) := by
  intro c hc
  obtain rfl := Option.some.inj hc
  rcases hb with rfl | rfl | rfl <;> decide

/-! ## Arrays and objects -/

/-- Every item after the first has its comma. -/
theorem length_encodeItems (fl : Floats F) (vs : List (Value F)) :
    vs.length ≤ (encodeItems fl false vs).length := by
  induction vs with
  | nil => exact le_rfl
  | cons v vs ih =>
      simp only [encodeItems, Bool.false_eq_true, if_false, List.length_append, List.length_cons,
        List.length_nil]
      omega

theorem length_encodeFields (fl : Floats F) (fs : List (Bytes × Value F)) :
    fs.length ≤ (encodeFields fl false fs).length := by
  induction fs with
  | nil => exact le_rfl
  | cons f fs ih =>
      simp only [encodeFields, Bool.false_eq_true, if_false, List.length_append, List.length_cons,
        List.length_nil]
      omega

/-- The loop reads items, each read by the inner reader. -/
theorem items_reads (fl : Floats F) {inner : Parser → Except ParseError (Value F × Parser)}
    {v : Value F} {vs : List (Value F)} {depth fuel : Nat} (hplain : ItemsPlain (v :: vs))
    (hinner : ∀ u ∈ v :: vs, ∀ rest, Stops rest → Reads inner (encode fl u) (readAs u) rest depth)
    (hfuel : vs.length < fuel) (acc : List (Value F)) (rest : Bytes) :
    Reads (items inner fuel acc) (encode fl v ++ encodeItems fl false vs ++ [93])
      (acc ++ readItems (v :: vs)) rest depth := by
  induction vs generalizing v fuel acc with
  | nil =>
      intro pos
      obtain ⟨fuel, rfl⟩ : ∃ k, fuel = k + 1 := ⟨fuel - 1, by omega⟩
      obtain ⟨pos₁, hv⟩ :=
        hinner v List.mem_cons_self (93 :: rest) (stops_cons (.inr (.inl rfl))) pos
      refine ⟨pos₁ + 1, ?_⟩
      rw [encodeItems, List.append_nil, List.append_assoc, List.singleton_append, items,
        skipWs_encode fl hplain.1, hv, Except.ok_bind]
      dsimp only
      rw [skipWs_cons (by decide), peek_cons, if_neg (by decide), if_pos rfl]
      rfl
  | cons u us ih =>
      intro pos
      obtain ⟨fuel, rfl⟩ : ∃ k, fuel = k + 1 := ⟨fuel - 1, by omega⟩
      obtain ⟨pos₁, hv⟩ := hinner v List.mem_cons_self
        (44 :: (encode fl u ++ encodeItems fl false us ++ [93] ++ rest)) (stops_cons (.inl rfl)) pos
      obtain ⟨pos₂, hrest⟩ := ih hplain.2 (fun w hw => hinner w (List.mem_cons_of_mem v hw))
        (Nat.lt_of_succ_lt_succ hfuel) (acc ++ [readAs v]) (pos₁ + 1)
      refine ⟨pos₂, ?_⟩
      have htext : encode fl v ++ encodeItems fl false (u :: us) ++ [93] ++ rest =
          encode fl v ++ 44 :: (encode fl u ++ encodeItems fl false us ++ [93] ++ rest) := by
        simp [encodeItems]
      rw [htext, items, skipWs_encode fl hplain.1, hv, Except.ok_bind]
      dsimp only
      rw [skipWs_cons (by decide), peek_cons, if_pos rfl, advance_cons, hrest, List.append_assoc]
      rfl

/-- One field: its name is read, and then its value by the inner reader. -/
theorem field_reads (fl : Floats F) {inner : Parser → Except ParseError (Value F × Parser)}
    {key : Bytes} {v : Value F} {depth : Nat} {rest : Bytes} (hkey : Utf8.valid key = true)
    (hv : Plain v) (hinner : Reads inner (encode fl v) (readAs v) rest depth) (fuel : Nat)
    (acc : List (Bytes × Value F)) {b : UInt8} (hb : b = 44 ∨ b = 125) {after : Bytes}
    (hrest : rest = b :: after) (pos : Nat) :
    ∃ pos', fields inner (fuel + 1) acc
        ⟨writeString key ++ 58 :: encode fl v ++ rest, pos, depth⟩ =
      if b = 44 then fields inner fuel (acc ++ [(key, readAs v)]) ⟨after, pos', depth⟩
      else .ok (acc ++ [(key, readAs v)], ⟨after, pos', depth⟩) := by
  obtain ⟨pos₁, hstring⟩ := string_reads hkey (58 :: encode fl v ++ rest) depth pos
  obtain ⟨pos₂, hvalue⟩ := hinner (pos₁ + 1)
  refine ⟨pos₂ + 1, ?_⟩
  have hquote : (⟨writeString key ++ (58 :: encode fl v ++ rest), pos, depth⟩ : Parser).skipWs =
      ⟨writeString key ++ (58 :: encode fl v ++ rest), pos, depth⟩ := skipWs_cons (by decide) _ _ _
  have hpeek : (⟨writeString key ++ (58 :: encode fl v ++ rest), pos, depth⟩ : Parser).peek =
      some 34 := rfl
  rw [List.append_assoc, fields, hquote]
  dsimp only
  rw [hpeek, if_neg (by decide), hstring, Except.ok_bind]
  dsimp only
  rw [List.cons_append, skipWs_cons (by decide), peek_cons, if_neg (by decide), advance_cons,
    skipWs_encode fl hv, hvalue, Except.ok_bind]
  dsimp only
  subst hrest
  rcases hb with rfl | rfl
  · rw [skipWs_cons (by decide), peek_cons, if_pos rfl, if_pos rfl, advance_cons]
  · rw [skipWs_cons (by decide), peek_cons, if_neg (by decide), if_pos rfl, if_neg (by decide),
      advance_cons]

theorem fields_reads (fl : Floats F) {inner : Parser → Except ParseError (Value F × Parser)}
    {key : Bytes} {v : Value F} {fs : List (Bytes × Value F)} {depth fuel : Nat}
    (hplain : FieldsPlain ((key, v) :: fs))
    (hinner : ∀ f ∈ (key, v) :: fs, ∀ rest, Stops rest →
      Reads inner (encode fl f.2) (readAs f.2) rest depth)
    (hfuel : fs.length < fuel) (acc : List (Bytes × Value F)) (rest : Bytes) :
    Reads (fields inner fuel acc)
      (writeString key ++ 58 :: encode fl v ++ encodeFields fl false fs ++ [125])
      (acc ++ readFields ((key, v) :: fs)) rest depth := by
  induction fs generalizing key v fuel acc with
  | nil =>
      intro pos
      obtain ⟨fuel, rfl⟩ : ∃ k, fuel = k + 1 := ⟨fuel - 1, by omega⟩
      obtain ⟨pos', hfield⟩ := field_reads fl hplain.1 hplain.2.1
        (hinner (key, v) List.mem_cons_self (125 :: rest) (stops_cons (.inr (.inr rfl)))) fuel acc
        (.inr rfl) rfl pos
      refine ⟨pos', ?_⟩
      rw [encodeFields, List.append_nil, List.append_assoc (writeString key ++ _),
        List.singleton_append, hfield, if_neg (by decide)]
      rfl
  | cons f fs ih =>
      obtain ⟨key', v'⟩ := f
      intro pos
      obtain ⟨fuel, rfl⟩ : ∃ k, fuel = k + 1 := ⟨fuel - 1, by omega⟩
      obtain ⟨pos₁, hfield⟩ := field_reads fl hplain.1 hplain.2.1
        (hinner (key, v) List.mem_cons_self
          (44 :: (writeString key' ++ 58 :: encode fl v' ++ encodeFields fl false fs ++ [125] ++
            rest)) (stops_cons (.inl rfl))) fuel acc (.inl rfl) rfl pos
      obtain ⟨pos₂, hrest⟩ := ih hplain.2.2 (fun g hg => hinner g (List.mem_cons_of_mem _ hg))
        (Nat.lt_of_succ_lt_succ hfuel) (acc ++ [(key, readAs v)]) pos₁
      refine ⟨pos₂, ?_⟩
      have htext : writeString key ++ 58 :: encode fl v ++
          encodeFields fl false ((key', v') :: fs) ++ [125] ++ rest = writeString key ++ 58 :: encode fl v ++
            44 :: (writeString key' ++ 58 :: encode fl v' ++ encodeFields fl false fs ++ [125] ++
              rest) := by
        simp [encodeFields]
      rw [htext, hfield, if_pos rfl, hrest, List.append_assoc]
      rfl

/-! ## One value -/

theorem node_number (fl : Floats F) (inner : Parser → Except ParseError (Value F × Parser))
    {b : UInt8} (hb : b = 45 ∨ isDigit b = true) (s : Bytes) (pos depth : Nat) :
    node fl inner ⟨b :: s, pos, depth⟩ = number fl ⟨b :: s, pos, depth⟩ := by
  have hother : b ≠ 123 ∧ b ≠ 91 ∧ b ≠ 34 ∧ b ≠ 116 ∧ b ≠ 102 ∧ b ≠ 110 := by grind [isDigit]
  obtain ⟨h₁, h₂, h₃, h₄, h₅, h₆⟩ := hother
  rw [node, peek_cons]
  simp only
  rw [if_neg h₁, if_neg h₂, if_neg h₃, if_neg h₄, if_neg h₅, if_neg h₆, if_pos hb]

theorem intText_head (n : Int) :
    ∃ b t, Bencode.intText n = b :: t ∧ (b = 45 ∨ isDigit b = true) := by
  unfold Bencode.intText
  split
  · exact ⟨45, _, rfl, .inl rfl⟩
  · obtain ⟨b, t, htext⟩ := List.exists_cons_of_ne_nil (Decimal.digits_ne_nil n.natAbs)
    refine ⟨b, t, htext, .inr (Decimal.isDigit_of_mem_digits n.natAbs b ?_)⟩
    rw [htext]
    exact List.mem_cons_self

theorem literal_reads {word : Bytes} {v : Value F} (rest : Bytes) (depth : Nat) :
    Reads (literal word v) word v rest depth := by
  intro pos
  refine ⟨pos + word.length, ?_⟩
  rw [literal, if_pos (List.prefix_append word rest), advance_append]

theorem plain_of_mem_items {vs : List (Value F)} (h : ItemsPlain vs) : ∀ v ∈ vs, Plain v := by
  induction vs with
  | nil => exact fun v hv => absurd hv List.not_mem_nil
  | cons v vs ih => exact List.forall_mem_cons.2 ⟨h.1, ih h.2⟩

theorem plain_of_mem_fields {fs : List (Bytes × Value F)} (h : FieldsPlain fs) :
    ∀ f ∈ fs, Plain f.2 := by
  induction fs with
  | nil => exact fun f hf => absurd hf List.not_mem_nil
  | cons f fs ih => exact List.forall_mem_cons.2 ⟨h.2.1, ih h.2.2⟩

theorem nesting_le_items {vs : List (Value F)} : ∀ v ∈ vs, nesting v ≤ itemsNesting vs := by
  induction vs with
  | nil => exact fun v hv => absurd hv List.not_mem_nil
  | cons v vs ih =>
      refine List.forall_mem_cons.2 ⟨Nat.le_max_left _ _, fun u hu => ?_⟩
      exact (ih u hu).trans (Nat.le_max_right _ _)

theorem nesting_le_fields {fs : List (Bytes × Value F)} :
    ∀ f ∈ fs, nesting f.2 ≤ fieldsNesting fs := by
  induction fs with
  | nil => exact fun f hf => absurd hf List.not_mem_nil
  | cons f fs ih =>
      refine List.forall_mem_cons.2 ⟨Nat.le_max_left _ _, fun g hg => ?_⟩
      exact (ih g hg).trans (Nat.le_max_right _ _)

theorem enter_eq {p : Parser} (h : p.depth < MAX_DEPTH) :
    enter p = .ok { p with depth := p.depth + 1 } := if_neg (Nat.not_le.2 h)

theorem array_reads (fl : Floats F) {inner : Parser → Except ParseError (Value F × Parser)}
    {vs : List (Value F)} {depth : Nat} (hplain : ItemsPlain vs)
    (hinner : ∀ u ∈ vs, ∀ rest, Stops rest →
      Reads inner (encode fl u) (readAs u) rest (depth + 1))
    (hdepth : depth < MAX_DEPTH) (rest : Bytes) :
    Reads (array inner) (91 :: encodeItems fl true vs ++ [93]) (.array (readItems vs)) rest
      depth := by
  intro pos
  cases vs with
  | nil =>
      refine ⟨pos + 2, ?_⟩
      rw [array, enter_eq hdepth, Except.ok_bind]
      rfl
  | cons v vs =>
      have htext : 91 :: encodeItems fl true (v :: vs) ++ [93] ++ rest =
          91 :: (encode fl v ++ encodeItems fl false vs ++ [93] ++ rest) := by
        simp [encodeItems]
      obtain ⟨b, t, hhead, -, hb⟩ := encode_head fl hplain.1
      have hpeek : (⟨encode fl v ++ encodeItems fl false vs ++ [93] ++ rest, pos + 1, depth + 1⟩ :
          Parser).peek ≠ some 93 := by
        rw [hhead]
        exact fun h => hb (Option.some.inj h)
      have hfuel : vs.length < (encode fl v ++ encodeItems fl false vs ++ [93] ++ rest).length := by
        have hlong := length_encodeItems fl vs
        simp only [List.length_append, List.length_singleton]
        omega
      obtain ⟨pos', hitems⟩ := items_reads fl hplain hinner hfuel [] rest (pos + 1)
      have hskip : (⟨encode fl v ++ encodeItems fl false vs ++ [93] ++ rest, pos + 1, depth + 1⟩ :
          Parser).skipWs = ⟨encode fl v ++ encodeItems fl false vs ++ [93] ++ rest, pos + 1,
            depth + 1⟩ := by
        rw [List.append_assoc, List.append_assoc]
        exact skipWs_encode fl hplain.1 _ _ _
      refine ⟨pos', ?_⟩
      rw [htext, array, enter_eq hdepth, Except.ok_bind]
      dsimp only
      rw [advance_cons, hskip, if_neg hpeek, hitems, Except.ok_bind]
      rfl

theorem object_reads (fl : Floats F) {inner : Parser → Except ParseError (Value F × Parser)}
    {fs : List (Bytes × Value F)} {depth : Nat} (hplain : FieldsPlain fs)
    (hinner : ∀ f ∈ fs, ∀ rest, Stops rest →
      Reads inner (encode fl f.2) (readAs f.2) rest (depth + 1))
    (hdepth : depth < MAX_DEPTH) (rest : Bytes) :
    Reads (object inner) (123 :: encodeFields fl true fs ++ [125]) (.object (readFields fs)) rest
      depth := by
  intro pos
  cases fs with
  | nil =>
      refine ⟨pos + 2, ?_⟩
      rw [object, enter_eq hdepth, Except.ok_bind]
      rfl
  | cons f fs =>
      obtain ⟨key, v⟩ := f
      have htext : 123 :: encodeFields fl true ((key, v) :: fs) ++ [125] ++ rest =
          123 :: (writeString key ++ 58 :: encode fl v ++ encodeFields fl false fs ++ [125] ++
            rest) := by
        simp [encodeFields]
      have hfuel : fs.length < (writeString key ++ 58 :: encode fl v ++ encodeFields fl false fs ++
          [125] ++ rest).length := by
        have hlong := length_encodeFields fl fs
        simp only [List.length_append, List.length_singleton]
        omega
      obtain ⟨pos', hfields⟩ := fields_reads fl hplain hinner hfuel [] rest (pos + 1)
      refine ⟨pos', ?_⟩
      rw [htext, object, enter_eq hdepth, Except.ok_bind]
      dsimp only
      have hskip : (⟨writeString key ++ 58 :: encode fl v ++ encodeFields fl false fs ++ [125] ++
          rest, pos + 1, depth + 1⟩ : Parser).skipWs =
          ⟨writeString key ++ 58 :: encode fl v ++ encodeFields fl false fs ++ [125] ++ rest,
            pos + 1, depth + 1⟩ := skipWs_cons (by decide) _ _ _
      have hpeek : (⟨writeString key ++ 58 :: encode fl v ++ encodeFields fl false fs ++ [125] ++
          rest, pos + 1, depth + 1⟩ : Parser).peek ≠ some 125 := by
        intro h
        exact absurd (Option.some.inj h) (by decide)
      rw [advance_cons, hskip, if_neg hpeek, hfields, Except.ok_bind]
      rfl

/-- A value is read in front of what a number stops at, as deep as it is nested. -/
theorem value_reads (fl : Floats F) {levels : Nat} {v : Value F} (hv : Plain v)
    (hlevels : nesting v < levels) {depth : Nat} (hdepth : nesting v + depth ≤ MAX_DEPTH)
    {rest : Bytes} (hrest : Stops rest) :
    Reads (value fl levels) (encode fl v) (readAs v) rest depth := by
  induction levels generalizing v depth rest with
  | zero => omega
  | succ levels ih =>
      intro pos
      cases v with
      | null => exact @literal_reads F (ascii "null") .null rest depth pos
      | bool b =>
          cases b with
          | true => exact @literal_reads F (ascii "true") (.bool true) rest depth pos
          | false => exact @literal_reads F (ascii "false") (.bool false) rest depth pos
      | int n =>
          have hnumber := number_int fl hv hrest depth pos
          obtain ⟨b, t, htext, hb⟩ := intText_head n
          rw [encode, readAs, value]
          rw [htext, List.cons_append] at hnumber ⊢
          rwa [node_number fl _ hb]
      | uint n =>
          have hnumber := number_uint fl hv hrest depth pos
          obtain ⟨b, t, htext⟩ := List.exists_cons_of_ne_nil (Decimal.digits_ne_nil n)
          have hb := Decimal.isDigit_of_mem_digits n b (by rw [htext]; exact List.mem_cons_self)
          rw [encode, readAs, value]
          rw [htext, List.cons_append] at hnumber ⊢
          rwa [node_number fl _ (.inr hb)]
      | float f => exact absurd hv id
      | str s =>
          obtain ⟨pos', hstring⟩ := string_reads hv rest depth pos
          refine ⟨pos', ?_⟩
          have hnode : value fl (levels + 1) ⟨writeString s ++ rest, pos, depth⟩ =
              (do
                let (s, p) ← string ⟨writeString s ++ rest, pos, depth⟩
                .ok (.str s, p)) := rfl
          rw [encode, readAs, hnode, hstring]
          rfl
      | array vs =>
          rw [nesting] at hlevels hdepth
          rw [encode, readAs]
          refine array_reads fl hv (fun u hu rest hrest => ?_) (by omega) rest pos
          have hless := nesting_le_items u hu
          exact ih (plain_of_mem_items hv u hu) (by omega) (by omega) hrest
      | object fs =>
          rw [nesting] at hlevels hdepth
          rw [encode, readAs]
          refine object_reads fl hv (fun f hf rest hrest => ?_) (by omega) rest pos
          have hless := nesting_le_fields f hf
          exact ih (plain_of_mem_fields hv f hf) (by omega) (by omega) hrest

/-- What is encoded is parsed again. -/
theorem parse_encode (fl : Floats F) {v : Value F} (hv : Plain v) (hnest : nesting v ≤ MAX_DEPTH) :
    parse fl (encode fl v) = .ok (readAs v) := by
  have hstops : Stops [] := fun b hb => absurd hb (by simp)
  have hdepth : nesting v + 0 ≤ MAX_DEPTH := hnest
  obtain ⟨pos, hvalue⟩ := value_reads fl hv (Nat.lt_succ_of_le hnest) hdepth hstops 0
  have hskip := skipWs_encode fl hv [] 0 0
  rw [List.append_nil] at hvalue hskip
  rw [parse, hskip, hvalue, Except.ok_bind]
  rfl

/-! ## What is shown -/

/-- A code point a terminal draws, and no separator of lines or paragraphs. -/
def isShown (n : Nat) : Bool :=
  32 ≤ n && !(127 ≤ n && n ≤ 159) && n != 0x2028 && n != 0x2029

/-- A text that is made of characters that are shown. -/
def Shown (s : Bytes) : Prop :=
  ∃ cs : List Bytes, s = cs.flatten ∧ ∀ c ∈ cs, IsChar c ∧ isShown (Utf8.codePoint c) = true

theorem Shown.append {s t : Bytes} (hs : Shown s) (ht : Shown t) : Shown (s ++ t) := by
  obtain ⟨cs, rfl, hcs⟩ := hs
  obtain ⟨ds, rfl, hds⟩ := ht
  refine ⟨cs ++ ds, List.flatten_append.symm, fun c hc => ?_⟩
  exact (List.mem_append.1 hc).elim (hcs c) (hds c)

theorem shown_of_ascii {s : Bytes} (h : (s.all fun b => decide (32 ≤ b ∧ b < 127)) = true) :
    Shown s := by
  refine ⟨s.map fun b => [b], ?_, fun c hc => ?_⟩
  · rw [← List.flatMap_def]
    exact (List.flatMap_singleton' s).symm
  · obtain ⟨b, hb, rfl⟩ := List.mem_map.1 hc
    have hrange : 32 ≤ b ∧ b < 127 := of_decide_eq_true (List.all_eq_true.1 h b hb)
    have hsmall : b < 128 := by grind
    have hlow : 32 ≤ b.toNat := UInt8.le_iff_toNat_le.1 hrange.1
    have hhigh : b.toNat < 127 := UInt8.lt_iff_toNat_lt.1 hrange.2
    refine ⟨Utf8.isChar_of_ascii hsmall, ?_⟩
    simp only [codePoint_ascii hsmall, isShown, Bool.and_eq_true, decide_eq_true_eq,
      Bool.not_eq_true', Bool.and_eq_false_iff, decide_eq_false_iff_not, bne_iff_ne]
    omega

theorem shown_flatMap {β : Type} {f : β → Bytes} {l : List β} (h : ∀ a ∈ l, Shown (f a)) :
    Shown (l.flatMap f) := by
  induction l with
  | nil => exact ⟨[], rfl, fun c hc => absurd hc List.not_mem_nil⟩
  | cons a l ih =>
      rw [List.flatMap_cons]
      exact (h a List.mem_cons_self).append (ih fun b hb => h b (List.mem_cons_of_mem a hb))

theorem shown_unicodeEscape (n : Nat) : Shown (unicodeEscape n) := by
  have hdigit : ∀ n, 32 ≤ hexDigit n ∧ hexDigit n < 127 := by
    intro n
    have hall : ∀ m < 16, 32 ≤ Hex.digit (UInt8.ofNat m) ∧ Hex.digit (UInt8.ofNat m) < 127 := by
      decide
    exact hall (n % 16) (Nat.mod_lt n (by decide))
  refine shown_of_ascii (List.all_eq_true.2 fun b hb => ?_)
  simp only [unicodeEscape, List.mem_cons, List.not_mem_nil, or_false] at hb
  rcases hb with rfl | rfl | rfl | rfl | rfl | rfl
  · decide
  · decide
  · exact decide_eq_true (hdigit _)
  · exact decide_eq_true (hdigit _)
  · exact decide_eq_true (hdigit _)
  · exact decide_eq_true (hdigit _)

theorem writeChar_cases {c : Bytes} (h : isEscaped (Utf8.codePoint c) = true) :
    (∃ b, writeChar c = [92, b] ∧ b ∈ ([34, 92, 98, 116, 110, 102, 114] : Bytes)) ∨
      writeChar c = unicodeEscape (Utf8.codePoint c) := by
  simp only [isEscaped, Bool.or_eq_true, Bool.and_eq_true, decide_eq_true_eq] at h
  unfold writeChar
  simp only
  repeat' split
  all_goals first
    | exact .inl ⟨_, rfl, by decide⟩
    | exact .inr rfl
    | omega

/-- What a character is written as is shown. -/
theorem shown_writeChar {c : Bytes} (hc : IsChar c) : Shown (writeChar c) := by
  cases hesc : isEscaped (Utf8.codePoint c) with
  | false =>
      rw [writeChar_plain hesc]
      refine ⟨[c], List.flatten_singleton.symm, fun d hd => ?_⟩
      rw [List.mem_singleton.1 hd]
      refine ⟨hc, ?_⟩
      simp only [isEscaped, Bool.or_eq_false_iff, decide_eq_false_iff_not] at hesc
      simp only [isShown, hesc, bne_iff_ne, ne_eq, Bool.and_eq_true, decide_eq_true_eq,
        Bool.not_false, not_false_eq_true, and_true]
      omega
  | true =>
      rcases writeChar_cases hesc with ⟨b, hwrite, hb⟩ | hwrite
      · rw [hwrite]
        refine shown_of_ascii ?_
        have hall : (([34, 92, 98, 116, 110, 102, 114] : Bytes).all fun b =>
            [92, b].all fun b => decide (32 ≤ b ∧ b < 127)) = true := by decide
        exact List.all_eq_true.1 hall b hb
      · rw [hwrite]
        exact shown_unicodeEscape _

theorem shown_writeString {s : Bytes} (hs : Utf8.valid s = true) : Shown (writeString s) := by
  have hchars := Utf8.isChar_of_mem_chars hs
  have hquote : Shown [34] := shown_of_ascii (by decide)
  exact (hquote.append (shown_flatMap fun c hc => shown_writeChar (hchars c hc))).append hquote

theorem shown_digits (n : Nat) : Shown (digits n) := by
  refine shown_of_ascii (List.all_eq_true.2 fun b hb => decide_eq_true ?_)
  have hdigit := Decimal.isDigit_of_mem_digits n b hb
  grind [isDigit]

mutual

theorem shown_encode (fl : Floats F) : ∀ v : Value F, Plain v → Shown (encode fl v)
  | .null, _ => shown_of_ascii rfl
  | .bool true, _ => shown_of_ascii rfl
  | .bool false, _ => shown_of_ascii rfl
  | .int n, _ => by
      rw [encode, Bencode.intText]
      have hsign : Shown [45] := shown_of_ascii (by decide)
      split
      · exact hsign.append (shown_digits n.natAbs)
      · exact shown_digits n.natAbs
  | .uint n, _ => shown_digits n
  | .float _, h => absurd h id
  | .str _, h => shown_writeString h
  | .array vs, h => by
      have hopen : Shown [91] := shown_of_ascii (by decide)
      have hclose : Shown [93] := shown_of_ascii (by decide)
      exact (hopen.append (shown_encodeItems fl true vs h)).append hclose
  | .object fs, h => by
      have hopen : Shown [123] := shown_of_ascii (by decide)
      have hclose : Shown [125] := shown_of_ascii (by decide)
      exact (hopen.append (shown_encodeFields fl true fs h)).append hclose

theorem shown_encodeItems (fl : Floats F) :
    ∀ (first : Bool) (vs : List (Value F)), ItemsPlain vs → Shown (encodeItems fl first vs)
  | _, [], _ => shown_of_ascii rfl
  | first, v :: vs, h => by
      have hcomma : Shown (if first then [] else [44]) := by
        cases first <;> exact shown_of_ascii (by decide)
      exact (hcomma.append (shown_encode fl v h.1)).append (shown_encodeItems fl false vs h.2)

theorem shown_encodeFields (fl : Floats F) :
    ∀ (first : Bool) (fs : List (Bytes × Value F)), FieldsPlain fs →
      Shown (encodeFields fl first fs)
  | _, [], _ => shown_of_ascii rfl
  | first, (key, v) :: fs, h => by
      have hcomma : Shown (if first then [] else [44]) := by
        cases first <;> exact shown_of_ascii (by decide)
      have hcolon : Shown [58] := shown_of_ascii (by decide)
      have hfield := (hcomma.append (shown_writeString h.1)).append
        (hcolon.append (shown_encode fl v h.2.1))
      exact hfield.append (shown_encodeFields fl false fs h.2.2)

end

/-- A value without floating-point numbers is parsed from its encoding as it was, its unsigned
integers as signed where they fit, and its encoding has no character a terminal acts on. -/
theorem codec_round_trip (fl : Floats F) (v : Value F) (hv : Plain v) :
    (nesting v ≤ MAX_DEPTH → parse fl (encode fl v) = .ok (readAs v)) ∧
      Utf8.valid (encode fl v) = true ∧
      ∀ c ∈ Utf8.chars (encode fl v), isShown (Utf8.codePoint c) = true := by
  obtain ⟨cs, htext, hcs⟩ := shown_encode fl v hv
  obtain ⟨hvalid, hchars⟩ := Utf8.chars_flatten fun c hc => (hcs c hc).1
  refine ⟨parse_encode fl hv, ?_, ?_⟩
  · rw [htext]
    exact hvalid
  · rw [htext, hchars]
    exact fun c hc => (hcs c hc).2

/-- No floating-point numbers. -/
def noFloats : Floats Unit where
  isFinite := fun _ => false
  isWhole := fun _ => false
  fixed := fun _ => []
  plain := fun _ => []
  parse := fun _ => none

/-- Two fields of one name: integers on both sides of the largest signed one, and a string with
characters that are escaped. -/
def doc : Value Unit :=
  .object [(ascii "a", .array [.uint 9223372036854775807, .uint 9223372036854775808]),
    (ascii "a", .str [34, 10, 194, 155, 226, 128, 168, 195, 169])]

theorem codec_round_trip_doc :
    parse noFloats (encode noFloats doc) = .ok (readAs doc) ∧
      ∀ c ∈ Utf8.chars (encode noFloats doc), isShown (Utf8.codePoint c) = true := by
  have hdoc : Plain doc :=
    ⟨rfl, ⟨rfl, rfl, trivial⟩, rfl, rfl, trivial⟩
  obtain ⟨hparse, -, hshown⟩ := codec_round_trip noFloats doc hdoc
  exact ⟨hparse (by decide), hshown⟩

end Clove.Json
