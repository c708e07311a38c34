import Clove.Text

/-!
# Requests

The model of the client's half of `http.rs`: a request as text, and bytes as the value of a query
parameter.  A request whose parts have no line ends is the lines it is meant to be
(`lines_encode`), and what is percent-encoded is read back (`percentDecode_percentEncode`).
-/

namespace Clove.Http

open Utf8 (ascii)

/-- The end of a line. -/
def CRLF : Bytes := [13, 10]

/-- A request to a server. -/
structure Request where
  method : Bytes
  target : Bytes
  host : Bytes
  headers : List (Bytes × Bytes)
  body : Bytes
deriving Repr, DecidableEq

/-- Whether a text has no line end and no zero in it. -/
def clean (s : Bytes) : Bool := !s.any fun b => b = 13 || b = 10 || b = 0

/-- A header line. -/
def headerLine (header : Bytes × Bytes) : Bytes := header.1 ++ ascii ": " ++ header.2 ++ CRLF

/-- The text of a request, unless a part of it would make lines of its own. -/
def Request.encode (r : Request) : Option Bytes :=
  if !clean r.method || !clean r.target || !clean r.host then none
  else if r.headers.any fun h => !clean h.1 || !clean h.2 then none
  else some
    (r.method ++ ascii " " ++ r.target ++ ascii " HTTP/1.1" ++ CRLF ++
      ascii "Host: " ++ r.host ++ CRLF ++ r.headers.flatMap headerLine ++
      (if r.method = ascii "GET" && r.body = [] then []
        else ascii "Content-Length: " ++ Decimal.digits r.body.length ++ CRLF) ++
      ascii "Connection: close" ++ CRLF ++ CRLF ++ r.body)

/-- A `GET` has no body and does not say how long it is. -/
theorem Request.encode_get {target host : Bytes} {headers : List (Bytes × Bytes)}
    (htarget : clean target = true) (hhost : clean host = true)
    (hheaders : (headers.any fun h => !clean h.1 || !clean h.2) = false) :
    ({ method := ascii "GET", target, host, headers, body := [] } : Request).encode =
      some (ascii "GET" ++ ascii " " ++ target ++ ascii " HTTP/1.1" ++ CRLF ++
        ascii "Host: " ++ host ++ CRLF ++ headers.flatMap headerLine ++
        ascii "Connection: close" ++ CRLF ++ CRLF) := by
  have hget : clean (ascii "GET") = true := by decide
  have hfine : (!clean (ascii "GET") || !clean target || !clean host) = false := by
    rw [hget, htarget, hhost]
    rfl
  unfold Request.encode
  simp only [hfine, hheaders, Bool.false_eq_true, if_false, decide_true, Bool.and_self, if_true,
    List.append_nil]

/-! ## Lines -/

/-- The lines of a text: `split("\r\n")`. -/
def lines : Bytes → List Bytes
  | [] => [[]]
  | [b] => [[b]]
  | b :: c :: s =>
      if b = 13 ∧ c = 10 then [] :: lines s
      else
        match lines (c :: s) with
        | [] => [[b]]
        | l :: ls => (b :: l) :: ls

theorem lines_append {l : Bytes} (hl : 13 ∉ l) (s : Bytes) :
    lines (l ++ CRLF ++ s) = l :: lines s := by
  induction l with
  | nil => simp [CRLF, lines]
  | cons b l ih =>
      rw [List.mem_cons, not_or] at hl
      obtain ⟨hb, hl⟩ := hl
      have hb : b ≠ 13 := fun h => hb h.symm
      have hnext := ih hl
      cases hrest : l ++ CRLF ++ s with
      | nil => simp [CRLF] at hrest
      | cons c rest =>
          rw [hrest] at hnext
          have hcons : b :: l ++ CRLF ++ s = b :: c :: rest := by
            rw [← hrest]
            simp
          rw [hcons, lines, if_neg (fun h => hb h.1), hnext]

theorem clean_iff {s : Bytes} : clean s = true ↔ 13 ∉ s ∧ 10 ∉ s ∧ 0 ∉ s := by
  unfold clean
  rw [Bool.not_eq_true', ← Bool.not_eq_true, List.any_eq_true]
  constructor
  · intro h
    exact ⟨fun hin => h ⟨13, hin, rfl⟩, fun hin => h ⟨10, hin, rfl⟩, fun hin => h ⟨0, hin, rfl⟩⟩
  · rintro ⟨hcr, hlf, hzero⟩ ⟨b, hb, hbad⟩
    simp only [Bool.or_eq_true, decide_eq_true_eq] at hbad
    rcases hbad with (rfl | rfl) | rfl
    · exact hcr hb
    · exact hlf hb
    · exact hzero hb

/-! ## Percent escapes -/

/-- A byte that stands for itself in a query. -/
def isUnreserved (b : UInt8) : Bool :=
  Decimal.isDigit b || (65 ≤ b && b ≤ 90) || (97 ≤ b && b ≤ 122) || b = 45 || b = 95 || b = 46 ||
    b = 126

/-- An upper-case digit. -/
def upperDigit (n : UInt8) : UInt8 := if n < 10 then 48 + n else 55 + n

/-- The text that stands for some bytes in a query. -/
def percentEncode (bs : Bytes) : Bytes :=
  bs.flatMap fun b : UInt8 =>
    if isUnreserved b then [b] else [37, upperDigit (b >>> 4), upperDigit (b &&& 15)]

/-- A byte that shapes neither a query nor a line. -/
def Inert (b : UInt8) : Prop := 32 < b ∧ b < 128 ∧ b ≠ 38 ∧ b ≠ 61 ∧ b ≠ 63

instance (b : UInt8) : Decidable (Inert b) := inferInstanceAs (Decidable (_ ∧ _))

theorem inert_of_isUnreserved : ∀ b : UInt8, isUnreserved b = true → b ≠ 37 ∧ Inert b := by
  have hall : ∀ k : Fin 256, isUnreserved (UInt8.ofFin k) = true →
      UInt8.ofFin k ≠ 37 ∧ Inert (UInt8.ofFin k) := by
    decide +kernel
  exact fun b => hall b.toFin

/-- The two digits of a byte are inert, and are read back as the byte. -/
theorem upperDigit_spec : ∀ b : UInt8,
    Inert (upperDigit (b >>> 4)) ∧ Inert (upperDigit (b &&& 15)) ∧
      Hex.value (upperDigit (b >>> 4)) = some (b >>> 4) ∧
      Hex.value (upperDigit (b &&& 15)) = some (b &&& 15) ∧ b >>> 4 <<< 4 ||| b &&& 15 = b := by
  have hall : ∀ k : Fin 256, Inert (upperDigit (UInt8.ofFin k >>> 4)) ∧
      Inert (upperDigit (UInt8.ofFin k &&& 15)) ∧
      Hex.value (upperDigit (UInt8.ofFin k >>> 4)) = some (UInt8.ofFin k >>> 4) ∧
      Hex.value (upperDigit (UInt8.ofFin k &&& 15)) = some (UInt8.ofFin k &&& 15) ∧
      UInt8.ofFin k >>> 4 <<< 4 ||| UInt8.ofFin k &&& 15 = UInt8.ofFin k := by
    decide +kernel
  exact fun b => hall b.toFin

theorem percentEncode_cons (b : UInt8) (bs : Bytes) : percentEncode (b :: bs) =
    (if isUnreserved b then [b] else [37, upperDigit (b >>> 4), upperDigit (b &&& 15)]) ++
      percentEncode bs := rfl

theorem inert_percentEncode {bs : Bytes} : ∀ b ∈ percentEncode bs, Inert b := by
  intro c hc
  obtain ⟨b, -, hb⟩ := List.mem_flatMap.1 hc
  split at hb
  · rename_i hplain
    obtain rfl := List.mem_singleton.1 hb
    exact (inert_of_isUnreserved c hplain).2
  · obtain ⟨hhi, hlo, -⟩ := upperDigit_spec b
    simp only [List.mem_cons, List.not_mem_nil, or_false] at hb
    rcases hb with rfl | rfl | rfl
    · decide
    · exact hhi
    · exact hlo

theorem percentDecode_plain {b : UInt8} (hb : b ≠ 37) (s : Bytes) :
    Text.percentDecode (b :: s) = b :: Text.percentDecode s := by
  cases s with
  | nil => simp [Text.percentDecode]
  | cons c s =>
      cases s with
      | nil => simp [Text.percentDecode]
      | cons d s => rw [Text.percentDecode, if_neg hb]

/-- What is percent-encoded is read back. -/
theorem percentDecode_percentEncode (bs : Bytes) : Text.percentDecode (percentEncode bs) = bs := by
  induction bs with
  | nil => rfl
  | cons b bs ih =>
      rw [percentEncode_cons]
      split
      · rename_i hplain
        rw [List.singleton_append, percentDecode_plain (inert_of_isUnreserved b hplain).1, ih]
      · obtain ⟨-, -, hhi, hlo, hbyte⟩ := upperDigit_spec b
        have hcons : [37, upperDigit (b >>> 4), upperDigit (b &&& 15)] ++ percentEncode bs =
            37 :: upperDigit (b >>> 4) :: upperDigit (b &&& 15) :: percentEncode bs := rfl
        rw [hcons, Text.percentDecode, if_pos rfl]
        simp only [hhi, hlo, hbyte, ih]

end Clove.Http
