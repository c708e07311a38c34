import Clove.Lib.Outcome
import Clove.Lib.OrdMap
import Clove.Lib.Decimal

/-!
# The bencode codec

The model of `bencode.rs`.  A decoder is a cursor over the input: the bytes still to be
read, their offset, the number of values completed so far, and the byte range of the one
top-level entry the caller asked about.  `value` and `node` descend with the depth limit
as their recursion argument; `items` and `entries` are the two loops, with a counter that
the length of the input never lets run out.

A dictionary is an `OrdMap`: its entries in ascending order of key.  Integers are `Int`,
bounded to `i64` by the decoder as the source bounds them.
-/

namespace Clove

/-- Byte strings. -/
abbrev Bytes := List UInt8

instance : LawfulBEq Bytes := inferInstance

instance : Std.LawfulOrderLT Bytes := inferInstance

namespace Bencode

open Decimal (digits isDigit digitVal)

/-- Maximum nesting depth the decoder accepts. -/
def MAX_DEPTH : Nat := 32

/-- Fewest input bytes any one node costs. -/
def MIN_NODE_BYTES : Nat := 2

/-- Most values the decoder will build for an input of this length. -/
def nodeBudget (inputLen : Nat) : Nat := inputLen / MIN_NODE_BYTES

/-- A bencode value. -/
inductive Value where
  | bytes (b : Bytes)
  | int (i : Int)
  | list (items : List Value)
  | dict (entries : List (Bytes × Value))
deriving Repr

namespace Value

def asBytes : Value → Option Bytes
  | .bytes b => some b
  | _ => none

def asInt : Value → Option Int
  | .int i => some i
  | _ => none

def asList : Value → Option (List Value)
  | .list items => some items
  | _ => none

def asDict : Value → Option (List (Bytes × Value))
  | .dict m => some m
  | _ => none

/-- Dictionary look-up. -/
def get (v : Value) (key : Bytes) : Option Value := v.asDict.bind (·.lookup key)

end Value

/-- The kinds of malformed input the decoder rejects. -/
inductive ErrorKind where
  | truncated
  | trailingData
  | badInt
  | badLength
  | badKey
  | tooDeep
  | badValueStart
  | tooManyNodes
deriving Repr, DecidableEq

/-- What went wrong and the input offset where it did. -/
structure Error where
  offset : Nat
  kind : ErrorKind
deriving Repr, DecidableEq

/-! ## Encoding -/

/-- `i64::to_string`. -/
def intText (i : Int) : Bytes :=
  if i < 0 then 45 :: digits i.natAbs else digits i.natAbs

/-- A byte string: its length in decimal, a colon, the bytes. -/
def putBytes (b : Bytes) : Bytes := digits b.length ++ 58 :: b

mutual

/-- The canonical encoding. -/
def encode : Value → Bytes
  | .bytes b => putBytes b
  | .int i => 105 :: intText i ++ [101]
  | .list items => 108 :: encodeItems items ++ [101]
  | .dict m => 100 :: encodeEntries m ++ [101]

def encodeItems : List Value → Bytes
  | [] => []
  | v :: vs => encode v ++ encodeItems vs

def encodeEntries : List (Bytes × Value) → Bytes
  | [] => []
  | (k, v) :: m => putBytes k ++ encode v ++ encodeEntries m

end

/-! ## The cursor -/

/-- The decoder's mutable half: `rest` is `input[pos..]`. -/
structure Decoder where
  rest : Bytes
  pos : Nat
  /-- Values completed so far. -/
  nodes : Nat
  /-- Where the value under the wanted top-level key was found. -/
  span : Option (Nat × Nat)
deriving Repr, DecidableEq

namespace Decoder

def new (input : Bytes) : Decoder := ⟨input, 0, 0, none⟩

def err (d : Decoder) (kind : ErrorKind) : Error := ⟨d.pos, kind⟩

def peek (d : Decoder) : Except Error UInt8 :=
  match d.rest with
  | [] => .error (d.err .truncated)
  | b :: _ => .ok b

/-- Step over `n` bytes. -/
def advance (d : Decoder) (n : Nat) : Decoder :=
  { d with rest := d.rest.drop n, pos := d.pos + n }

end Decoder

/-! ## Integers and byte strings -/

/-- The range of `i64`. -/
def inI64 (i : Int) : Bool := -9223372036854775808 ≤ i && i ≤ 9223372036854775807

/-- The range of a 64-bit `usize`. -/
def inUsize (n : Nat) : Bool := n < 18446744073709551616

/-- The digits of an integer up to its `e`, accumulated negatively.  Gives the
accumulator, the number of digits, and the bytes from the `e` on. -/
def intDigits (start : Nat) : Bytes → Nat → Int → Nat → Except Error (Int × Nat × Bytes)
  | [], pos, _, _ => .error ⟨pos, .truncated⟩
  | b :: bs, pos, n, count =>
      if b = 101 then .ok (n, count, b :: bs)
      else if !isDigit b then .error ⟨start, .badInt⟩
      else if !inI64 (n * 10) then .error ⟨start, .badInt⟩
      else if !inI64 (n * 10 - digitVal b) then .error ⟨start, .badInt⟩
      else intDigits start bs (pos + 1) (n * 10 - digitVal b) (count + 1)

/-- An integer from its first digit on. -/
def intTail (start : Nat) (negative : Bool) (d : Decoder) : Except Error (Int × Decoder) := do
  let (n, count, _) ← intDigits start d.rest d.pos 0 0
  if count = 0 ∨ (count > 1 ∧ d.rest.head? = some 48) ∨ (negative = true ∧ n = 0) then
    .error ⟨start, .badInt⟩
  else
    let d := d.advance (count + 1)
    if negative then .ok (n, d)
    else if inI64 (-n) then .ok (-n, d)
    else .error ⟨start, .badInt⟩

/-- Parse `i<digits>e`. -/
def int (d : Decoder) : Except Error (Int × Decoder) := do
  let start := d.pos
  let d := d.advance 1
  let negative := (← d.peek) == 45
  intTail start negative (if negative then d.advance 1 else d)

/-- The digits of a length up to its colon: the length, the number of digits, and the
bytes from the colon on. -/
def lenDigits (start : Nat) : Bytes → Nat → Nat → Nat → Except Error (Nat × Nat × Bytes)
  | [], pos, _, _ => .error ⟨pos, .truncated⟩
  | b :: bs, pos, len, count =>
      if b = 58 then .ok (len, count, b :: bs)
      else if !isDigit b then .error ⟨start, .badLength⟩
      else if !inUsize (len * 10) then .error ⟨start, .badLength⟩
      else if !inUsize (len * 10 + digitVal b) then .error ⟨start, .badLength⟩
      else lenDigits start bs (pos + 1) (len * 10 + digitVal b) (count + 1)

/-- Parse `<digits>:<bytes>`.  The declared length is checked against what is left before
the payload is taken. -/
def bytes (d : Decoder) : Except Error (Bytes × Decoder) := do
  let start := d.pos
  let (len, count, _) ← lenDigits start d.rest d.pos 0 0
  if count = 0 ∨ (count > 1 ∧ d.rest.head? = some 48) then .error ⟨start, .badLength⟩
  else
    let d := d.advance (count + 1)
    if len ≤ d.rest.length then .ok (d.rest.take len, d.advance len)
    else .error (d.err .truncated)

/-! ## Values -/

/-- The loop over a list's items, up to and including its `e`. -/
def items (inner : Decoder → Except Error (Value × Decoder)) :
    Nat → List Value → Decoder → Except Error (List Value × Decoder)
  | 0, _, d => .error (d.err .truncated)
  | fuel + 1, acc, d => do
      if (← d.peek) = 101 then .ok (acc, d.advance 1)
      else
        let (v, d) ← inner d
        items inner fuel (acc ++ [v]) d

/-- The loop over a dictionary's entries, up to and including its `e`.  `want` is the key
to note the span of, at the top level only. -/
def entries (inner : Decoder → Except Error (Value × Decoder)) (want : Option Bytes) :
    Nat → List (Bytes × Value) → Decoder → Except Error (List (Bytes × Value) × Decoder)
  | 0, _, d => .error (d.err .truncated)
  | fuel + 1, acc, d => do
      if (← d.peek) = 101 then .ok (acc, d.advance 1)
      else if !isDigit (← d.peek) then .error (d.err .badKey)
      else
        let keyOffset := d.pos
        let (key, d) ← bytes d
        let start := d.pos
        let (val, d) ← inner d
        let d := if want = some key then { d with span := some (start, d.pos) } else d
        if (acc.lookup key).isSome then .error ⟨keyOffset, .badKey⟩
        else entries inner want fuel (OrdMap.insert key val acc) d

/-- One node, its children read by `inner`. -/
def node (inner : Decoder → Except Error (Value × Decoder)) (want : Option Bytes)
    (d : Decoder) : Except Error (Value × Decoder) := do
  let b ← d.peek
  if b = 105 then
    let (i, d) ← int d
    .ok (.int i, d)
  else if isDigit b then
    let (s, d) ← bytes d
    .ok (.bytes s, d)
  else if b = 108 then
    let (vs, d) ← items inner d.rest.length [] (d.advance 1)
    .ok (.list vs, d)
  else if b = 100 then
    let (m, d) ← entries inner want d.rest.length [] (d.advance 1)
    .ok (.dict m, d)
  else .error (d.err .badValueStart)

/-- One value with `levels` levels of nesting left.  `want` is looked for only in the
value this is first called on. -/
def value (budget : Nat) : Nat → Option Bytes → Decoder → Except Error (Value × Decoder)
  | 0, _, d => .error (d.err .tooDeep)
  | levels + 1, want, d => do
      let (v, d) ← node (value budget levels none) want d
      let d := { d with nodes := d.nodes + 1 }
      if d.nodes > budget then .error (d.err .tooManyNodes) else .ok (v, d)

/-! ## Entry points -/

/-- Decode one complete value and report where the value under `key` of the top-level
dictionary sits.  `decode` asks for the empty key and drops the answer. -/
def decodeWithEntry (input key : Bytes) : Except Error (Value × Option (Nat × Nat)) := do
  let (v, d) ← value (nodeBudget input.length) MAX_DEPTH (some key) (.new input)
  if d.rest = [] then .ok (v, d.span) else .error (d.err .trailingData)

/-- Decode one complete value; the whole input must be consumed. -/
def decode (input : Bytes) : Except Error Value := do
  let (v, _) ← decodeWithEntry input []
  .ok v

/-- Decode one value from the start of the input, with the number of bytes it took. -/
def decodePrefix (input : Bytes) : Except Error (Value × Nat) := do
  let (v, d) ← value (nodeBudget input.length) MAX_DEPTH (some []) (.new input)
  .ok (v, d.pos)

end Bencode

end Clove
