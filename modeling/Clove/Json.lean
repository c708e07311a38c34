import Clove.Bencode
import Clove.Lib.Hex
import Clove.Lib.Utf8

/-!
# JSON

The model of `json.rs`: the encoder and the parser.  A parser is a cursor over the input: the bytes
still to be read, their offset, and the depth it is at, which every array and object it enters adds
to and takes off again when it is read.  `value` descends with a number of levels that the depth
never lets run out, and the loops with a counter that the length of the input never lets run out.

What the standard library makes of floating-point numbers is a parameter (`Floats`).
-/

namespace Clove.Json

open Decimal (digits isDigit)
open Utf8 (ascii)

/-- Deepest nesting the parser accepts. -/
def MAX_DEPTH : Nat := 128

/-- Floating-point numbers, and how they are told as text. -/
structure Floats (F : Type) where
  isFinite : F → Bool
  /-- Whether there is no fraction. -/
  isWhole : F → Bool
  /-- With one digit after the point. -/
  fixed : F → Bytes
  plain : F → Bytes
  parse : Bytes → Option F

/-- A JSON value. -/
inductive Value (F : Type) where
  | null
  | bool (b : Bool)
  | int (n : Int)
  | uint (n : Nat)
  | float (f : F)
  | str (s : Bytes)
  | array (items : List (Value F))
  | object (fields : List (Bytes × Value F))
deriving Repr

variable {F : Type}

/-! ## Encoding -/

/-- A hexadecimal digit of a number. -/
def hexDigit (n : Nat) : UInt8 := Hex.digit (UInt8.ofNat (n % 16))

/-- The escape of a code point of at most four digits. -/
def unicodeEscape (n : Nat) : Bytes :=
  [92, 117, hexDigit (n / 4096), hexDigit (n / 256), hexDigit (n / 16), hexDigit n]

/-- A character of a string. -/
def writeChar (c : Bytes) : Bytes :=
  let n := Utf8.codePoint c
  if n = 34 then [92, 34]
  else if n = 92 then [92, 92]
  else if n = 8 then [92, 98]
  else if n = 9 then [92, 116]
  else if n = 10 then [92, 110]
  else if n = 12 then [92, 102]
  else if n = 13 then [92, 114]
  else if n < 32 ∨ 127 ≤ n ∧ n ≤ 159 then unicodeEscape n
  else if n = 0x2028 ∨ n = 0x2029 then unicodeEscape n
  else c

def writeString (s : Bytes) : Bytes := 34 :: (Utf8.chars s).flatMap writeChar ++ [34]

mutual

def encode (fl : Floats F) : Value F → Bytes
  | .null => ascii "null"
  | .bool true => ascii "true"
  | .bool false => ascii "false"
  | .int n => Bencode.intText n
  | .uint n => digits n
  | .float f =>
      if fl.isFinite f then
        if fl.isWhole f then fl.fixed f else fl.plain f
      else ascii "null"
  | .str s => writeString s
  | .array items => 91 :: encodeItems fl true items ++ [93]
  | .object fields => 123 :: encodeFields fl true fields ++ [125]

/-- The items, with commas between them. -/
def encodeItems (fl : Floats F) : Bool → List (Value F) → Bytes
  | _, [] => []
  | first, v :: vs => (if first then [] else [44]) ++ encode fl v ++ encodeItems fl false vs

def encodeFields (fl : Floats F) : Bool → List (Bytes × Value F) → Bytes
  | _, [] => []
  | first, (key, v) :: fs =>
      (if first then [] else [44]) ++ writeString key ++ 58 :: encode fl v ++
        encodeFields fl false fs

end

/-! ## The cursor -/

/-- Where parsing failed, and why. -/
structure ParseError where
  offset : Nat
  what : String
deriving Repr, DecidableEq

/-- `rest` is `bytes[pos..]`. -/
structure Parser where
  rest : Bytes
  pos : Nat
  depth : Nat
deriving Repr, DecidableEq

namespace Parser

def err (p : Parser) (what : String) : ParseError := ⟨p.pos, what⟩

def peek (p : Parser) : Option UInt8 := p.rest.head?

/-- Step over `n` bytes. -/
def advance (p : Parser) (n : Nat) : Parser :=
  { p with rest := p.rest.drop n, pos := p.pos + n }

def isWs (b : UInt8) : Bool := b = 32 || b = 9 || b = 10 || b = 13

def skipWs (p : Parser) : Parser := p.advance (p.rest.takeWhile isWs).length

end Parser

/-! ## Strings -/

/-- Four hexadecimal digits after a value. -/
def hexDigits : Nat → Nat → Parser → Except ParseError (Nat × Parser)
  | 0, value, p => .ok (value, p)
  | n + 1, value, p =>
      match p.peek.bind Hex.value with
      | some digit => hexDigits n (value * 16 + digit.toNat) (p.advance 1)
      | none => .error (p.err "expected 4 hex digits")

def hex4 (p : Parser) : Except ParseError (Nat × Parser) := hexDigits 4 0 p

/-- The second half of a surrogate pair. -/
def lowSurrogate (hi : Nat) (p : Parser) : Except ParseError (Nat × Parser) :=
  if p.peek ≠ some 92 then .error (p.err "lone high surrogate")
  else if (p.advance 1).peek ≠ some 117 then .error ((p.advance 1).err "lone high surrogate")
  else do
    let (lo, p) ← hex4 (p.advance 2)
    if 0xdc00 ≤ lo ∧ lo ≤ 0xdfff then
      .ok (0x10000 + (hi - 0xd800) * 1024 + (lo - 0xdc00), p)
    else .error (p.err "invalid low surrogate")

/-- Whether a number is the code point of a character. -/
def isScalar (n : Nat) : Bool := n < 0xd800 || (0xe000 ≤ n && n < 0x110000)

/-- The code point of an escape that begins with these four digits. -/
def pairUp (hi : Nat) (p : Parser) : Except ParseError (Nat × Parser) :=
  if 0xd800 ≤ hi ∧ hi ≤ 0xdbff then lowSurrogate hi p
  else if 0xdc00 ≤ hi ∧ hi ≤ 0xdfff then .error (p.err "lone low surrogate")
  else .ok (hi, p)

/-- An escape from its `u` on. -/
def unicodeEscaped (p : Parser) : Except ParseError (Bytes × Parser) := do
  let (hi, p) ← hex4 (p.advance 1)
  let (code, p) ← pairUp hi p
  if isScalar code then .ok (Utf8.encode code, p) else .error (p.err "invalid unicode escape")

/-- What an escape of one character stands for. -/
def shortEscape (b : UInt8) : Option UInt8 :=
  if b = 34 then some 34
  else if b = 92 then some 92
  else if b = 47 then some 47
  else if b = 98 then some 8
  else if b = 102 then some 12
  else if b = 110 then some 10
  else if b = 114 then some 13
  else if b = 116 then some 9
  else none

/-- An escape after its backslash. -/
def escape (p : Parser) : Except ParseError (Bytes × Parser) :=
  match p.peek with
  | some b =>
      if b = 117 then unicodeEscaped p
      else
        match shortEscape b with
        | some c => .ok ([c], p.advance 1)
        | none => .error (p.err "invalid string escape")
  | none => .error (p.err "invalid string escape")

/-- A byte a string may have as it is. -/
def isOrdinary (b : UInt8) : Bool := b ≠ 34 && b ≠ 92 && 32 ≤ b

/-- A string after its opening quote: a run of ordinary bytes, and what ends it. -/
def stringBody : Nat → Bytes → Parser → Except ParseError (Bytes × Parser)
  | 0, _, p => .error (p.err "unterminated string")
  | fuel + 1, out, p =>
      let run := p.rest.takeWhile isOrdinary
      let p := p.advance run.length
      if !Utf8.valid run then .error (p.err "invalid UTF-8 in string")
      else
        match p.peek with
        | none => .error (p.err "unterminated string")
        | some b =>
            if b = 34 then .ok (out ++ run, p.advance 1)
            else if b = 92 then do
              let (c, p) ← escape (p.advance 1)
              stringBody fuel (out ++ run ++ c) p
            else .error (p.err "control character in string")

def string (p : Parser) : Except ParseError (Bytes × Parser) :=
  stringBody p.rest.length [] (p.advance 1)

/-! ## Numbers -/

/-- The exponent at the front of a text, if there is one. -/
def exponent : Bytes → Bytes
  | [] => []
  | e :: s =>
      if e = 101 ∨ e = 69 then
        match s with
        | sign :: t =>
            if sign = 43 ∨ sign = 45 then e :: sign :: t.takeWhile isDigit
            else e :: s.takeWhile isDigit
        | [] => [e]
      else []

/-- The fraction at the front of a text, if there is one. -/
def fraction : Bytes → Bytes
  | [] => []
  | b :: s => if b = 46 then b :: s.takeWhile isDigit else []

/-- The number at the front of a text, and whether it has a fraction or an exponent. -/
def scan (s : Bytes) : Bytes × Bool :=
  let sign := if s.head? = some 45 then [45] else []
  let whole := (s.drop sign.length).takeWhile isDigit
  let frac := fraction (s.drop (sign.length + whole.length))
  let exp := exponent (s.drop (sign.length + whole.length + frac.length))
  (sign ++ whole ++ frac ++ exp, !frac.isEmpty || !exp.isEmpty)

/-- `str::parse::<u64>`. -/
def parseU64 (s : Bytes) : Option Nat :=
  let t := if s.head? = some 43 then s.tail else s
  if t ≠ [] ∧ t.all isDigit ∧ Bencode.inUsize (Decimal.ofDigits 0 t) then
    some (Decimal.ofDigits 0 t)
  else none

/-- `str::parse::<i64>`. -/
def parseI64 (s : Bytes) : Option Int :=
  let t := if s.head? = some 43 ∨ s.head? = some 45 then s.tail else s
  let n : Int := if s.head? = some 45 then -Decimal.ofDigits 0 t else Decimal.ofDigits 0 t
  if t ≠ [] ∧ t.all isDigit ∧ Bencode.inI64 n then some n else none

def number (fl : Floats F) (p : Parser) : Except ParseError (Value F × Parser) :=
  let (text, isFloat) := scan p.rest
  let p := p.advance text.length
  let wide : Except ParseError (Value F × Parser) :=
    match fl.parse text with
    | none => .error (p.err "invalid number")
    | some f => if fl.isFinite f then .ok (.float f, p) else .error (p.err "number out of range")
  if isFloat then wide
  else
    match parseI64 text with
    | some n => .ok (.int n, p)
    | none =>
        match parseU64 text with
        | some n => .ok (.uint n, p)
        | none => wide

/-! ## Values -/

def literal (word : Bytes) (v : Value F) (p : Parser) : Except ParseError (Value F × Parser) :=
  if word <+: p.rest then .ok (v, p.advance word.length) else .error (p.err "invalid literal")

def enter (p : Parser) : Except ParseError Parser :=
  if MAX_DEPTH ≤ p.depth then .error (p.err "nesting too deep")
  else .ok { p with depth := p.depth + 1 }

/-- The loop over an array's items, up to and including its bracket. -/
def items (inner : Parser → Except ParseError (Value F × Parser)) :
    Nat → List (Value F) → Parser → Except ParseError (List (Value F) × Parser)
  | 0, _, p => .error (p.err "expected ',' or ']'")
  | fuel + 1, acc, p => do
      let (v, p) ← inner p.skipWs
      let p := p.skipWs
      if p.peek = some 44 then items inner fuel (acc ++ [v]) (p.advance 1)
      else if p.peek = some 93 then .ok (acc ++ [v], p.advance 1)
      else .error (p.err "expected ',' or ']'")

def array (inner : Parser → Except ParseError (Value F × Parser)) (p : Parser) :
    Except ParseError (Value F × Parser) := do
  let p ← enter p
  let p := (p.advance 1).skipWs
  if p.peek = some 93 then .ok (.array [], { p.advance 1 with depth := p.depth - 1 })
  else
    let (vs, p) ← items inner p.rest.length [] p
    .ok (.array vs, { p with depth := p.depth - 1 })

/-- The loop over an object's fields, up to and including its brace. -/
def fields (inner : Parser → Except ParseError (Value F × Parser)) :
    Nat → List (Bytes × Value F) → Parser → Except ParseError (List (Bytes × Value F) × Parser)
  | 0, _, p => .error (p.err "expected ',' or '\x7d'")
  | fuel + 1, acc, p => do
      let p := p.skipWs
      if p.peek ≠ some 34 then .error (p.err "expected a string key")
      else
        let (key, p) ← string p
        let p := p.skipWs
        if p.peek ≠ some 58 then .error (p.err "expected ':' after key")
        else
          let (v, p) ← inner (p.advance 1).skipWs
          let p := p.skipWs
          if p.peek = some 44 then fields inner fuel (acc ++ [(key, v)]) (p.advance 1)
          else if p.peek = some 125 then .ok (acc ++ [(key, v)], p.advance 1)
          else .error (p.err "expected ',' or '\x7d'")

def object (inner : Parser → Except ParseError (Value F × Parser)) (p : Parser) :
    Except ParseError (Value F × Parser) := do
  let p ← enter p
  let p := (p.advance 1).skipWs
  if p.peek = some 125 then .ok (.object [], { p.advance 1 with depth := p.depth - 1 })
  else
    let (fs, p) ← fields inner p.rest.length [] p
    .ok (.object fs, { p with depth := p.depth - 1 })

/-- One value, those inside it read by `inner`. -/
def node (fl : Floats F) (inner : Parser → Except ParseError (Value F × Parser)) (p : Parser) :
    Except ParseError (Value F × Parser) :=
  match p.peek with
  | none => .error (p.err "expected a JSON value")
  | some b =>
      if b = 123 then object inner p
      else if b = 91 then array inner p
      else if b = 34 then do
        let (s, p) ← string p
        .ok (.str s, p)
      else if b = 116 then literal (ascii "true") (.bool true) p
      else if b = 102 then literal (ascii "false") (.bool false) p
      else if b = 110 then literal (ascii "null") .null p
      else if b = 45 ∨ isDigit b then number fl p
      else .error (p.err "expected a JSON value")

/-- One value with so many levels of nesting left, its own among them. -/
def value (fl : Floats F) : Nat → Parser → Except ParseError (Value F × Parser)
  | 0, p => .error (p.err "nesting too deep")
  | levels + 1, p => node fl (value fl levels) p

/-- One value and nothing after it. -/
def parse (fl : Floats F) (input : Bytes) : Except ParseError (Value F) := do
  let (v, p) ← value fl (MAX_DEPTH + 1) (Parser.skipWs ⟨input, 0, 0⟩)
  if p.skipWs.rest = [] then .ok v else .error (p.skipWs.err "trailing data after JSON value")

end Clove.Json
