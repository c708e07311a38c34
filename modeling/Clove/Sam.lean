import Clove.Base32
import Clove.Text
import Clove.Lib.Words

/-!
# What the router answers

The model of the replies `sam.rs` reads: the checks of `sam_hello`, `expect_stream_ok`,
`parse_session_status` and `parse_naming_reply`, what they say when they refuse, and the lines a
session keeps.  A line is a list of characters, as it has been read.

Which characters the standard library prints as they are when it quotes a text is a parameter
(`shown`).
-/

namespace Clove.Sam

abbrev Str := List Char

/-! ## Texts -/

/-- Unicode white space. -/
def isWhitespace (c : Char) : Bool :=
  let n := c.toNat
  (9 ≤ n && n ≤ 13) || n = 32 || n = 0x85 || n = 0xa0 || n = 0x1680 ||
    (0x2000 ≤ n && n ≤ 0x200a) || n = 0x2028 || n = 0x2029 || n = 0x202f || n = 0x205f || n = 0x3000

def splitWhitespace (s : Str) : List Str := Words.words isWhitespace s

/-- What stands before and after the first place where a pattern stands. -/
def splitOnce (pat : Str) : Str → Option (Str × Str)
  | [] => (pat.isPrefixOf? []).map fun rest => ([], rest)
  | c :: cs =>
      match pat.isPrefixOf? (c :: cs) with
      | some rest => some ([], rest)
      | none => (splitOnce pat cs).map fun parts => (c :: parts.1, parts.2)

def trimMatches (d : Char) (s : Str) : Str := (s.dropWhile (· == d)).rdropWhile (· == d)

/-- A character of a quoted text. -/
def escapeDebug (shown : Char → Bool) (c : Char) : Str :=
  if c = '\x00' then "\\0".toList
  else if c = '\t' then "\\t".toList
  else if c = '\r' then "\\r".toList
  else if c = '\n' then "\\n".toList
  else if c = '"' then "\\\"".toList
  else if c = '\\' then "\\\\".toList
  else if shown c then [c]
  else "\\u\x7b".toList ++ Nat.toDigits 16 c.toNat ++ "\x7d".toList

/-- A text in quotes. -/
def debug (shown : Char → Bool) (s : Str) : Str := '"' :: s.flatMap (escapeDebug shown) ++ ['"']

/-! ## Making a line safe to repeat -/

def scrubChar (c : Char) : Char := if Text.isActedOn c.toNat then '.' else c

/-- A character of I2P base64. -/
def isKeyChar (c : Char) : Bool := c.isAlphanum || c = '-' || c = '~' || c = '='

def looksLikeKeyMaterial (field : Str) (min : Nat) : Bool :=
  Words.hasRunFrom isKeyChar min 0 field

def SECRET_FIELDS : List Str :=
  ["DESTINATION".toList, "PRIVKEY".toList, "PRIVATEKEY".toList, "KEY".toList]

def BLOB : Nat := 64

/-- A field whose name tells nothing. -/
def scrubPlain (field : Str) : Str :=
  if looksLikeKeyMaterial field BLOB then "<redacted>".toList else field.map scrubChar

def scrubField (field : Str) : Str :=
  match splitOnce ['='] field with
  | some (key, _) =>
      if key.map Char.toUpper ∈ SECRET_FIELDS then key.map scrubChar ++ "=<redacted>".toList
      else scrubPlain field
  | none => scrubPlain field

def scrubControlLine (line : Str) : Str :=
  [' '].intercalate ((line.splitOn ' ').map scrubField)

/-! ## Replies -/

inductive ErrorKind where
  | invalidData | connectionRefused | notFound | other
deriving Repr, DecidableEq

structure IoError where
  kind : ErrorKind
  text : Str
deriving Repr, DecidableEq

/-- Whose fault it is that there is no stream. -/
inductive DialFailed where
  | sessionGone (error : IoError)
  | peer (error : IoError)
deriving Repr, DecidableEq

def DialFailed.error : DialFailed → IoError
  | .sessionGone error => error
  | .peer error => error

/-- The first word that begins with a field's name and what follows the name there. -/
def find (key line : Str) : Option Str := (splitWhitespace line).findSome? key.isPrefixOf?

def RESULT : Str := "RESULT=".toList

def DESTINATION : Str := "DESTINATION=".toList

def VALUE : Str := "VALUE=".toList

def OK : Str := "OK".toList

def INVALID_ID : Str := "INVALID_ID".toList

def result (line : Str) : Str := (find RESULT line).getD "MISSING".toList

/-- What the router says in a refusal. -/
def message (line : Str) : Str :=
  match splitOnce "MESSAGE=".toList line with
  | some (_, m) => " (".toList ++ scrubControlLine (trimMatches '"' m) ++ ")".toList
  | none => []

/-- The check of `sam_hello`. -/
def samHello (port : UInt16) (reply : Str) : Except IoError Str :=
  if ¬ "HELLO REPLY".toList <+: reply ∨ result reply ≠ OK then
    .error ⟨.invalidData, "SAM bridge on 127.0.0.1:".toList ++ Nat.toDigits 10 port.toNat ++
      " refused HELLO: ".toList ++ scrubControlLine reply⟩
  else .ok reply

def expectStreamOk (shown : Char → Bool) (status what : Str) : Except DialFailed Unit :=
  if ¬ "STREAM STATUS".toList <+: status then
    .error (.peer ⟨.invalidData, "SAM bridge answered with ".toList ++
      debug shown (scrubControlLine status) ++ " where a STREAM STATUS belongs".toList⟩)
  else if result status ≠ OK then
    let error : IoError := ⟨.connectionRefused, "router refused ".toList ++ what ++ ": ".toList ++
      (result status).map scrubChar ++ message status⟩
    .error (if result status = INVALID_ID then .sessionGone error else .peer error)
  else .ok ()

def parseSessionStatus (shown : Char → Bool) (status : Str) : Except IoError Str :=
  if ¬ "SESSION STATUS".toList <+: status then
    .error ⟨.invalidData, "SAM bridge answered SESSION CREATE with ".toList ++
      debug shown (scrubControlLine status)⟩
  else if result status ≠ OK then
    .error ⟨.other, "router refused the session: ".toList ++ (result status).map scrubChar ++
      message status⟩
  else
    match find DESTINATION status with
    | some blob => .ok blob
    | none => .error ⟨.invalidData,
        "SESSION STATUS said OK but carried no DESTINATION".toList⟩

def parseNamingReply (shown : Char → Bool) (reply name : Str) : Except IoError Str :=
  let asked := name.map scrubChar
  if ¬ "NAMING REPLY".toList <+: reply then
    .error ⟨.invalidData, "SAM bridge answered ".toList ++
      debug shown (scrubControlLine reply) ++ " where a NAMING REPLY belongs".toList⟩
  else if result reply ≠ OK then
    .error ⟨.notFound, "router could not resolve ".toList ++ asked ++ ": ".toList ++
      (result reply).map scrubChar⟩
  else
    match (find VALUE reply).filter fun value => !value.isEmpty with
    | some value => .ok value
    | none => .error ⟨.invalidData, "router resolved ".toList ++ asked ++
        " but sent no destination".toList⟩

/-- What its callers name as refused when a stream is. -/
inductive Wanted where
  | peer (dest : DestHash)
  | forward
deriving DecidableEq

def Wanted.what : Wanted → Str
  | .peer dest => "the stream to ".toList ++ (Addr.toB32 dest).map fun b => Char.ofNat b.toNat
  | .forward => "STREAM FORWARD".toList

/-! ## The life of a session -/

/-- Why a session ended, and the last line the router volunteered. -/
structure Life where
  ended : Option Str
  lastLine : Option Str
deriving Repr, DecidableEq

namespace Life

def note (line : Str) (s : Life) : Life := { s with lastLine := some (scrubControlLine line) }

/-- The first reason wins. -/
def endWith (shown : Char → Bool) (why : Str) (s : Life) : Life :=
  match s.ended with
  | some _ => s
  | none =>
      { s with
        ended := some <|
          match s.lastLine with
          | some line => why ++ "; the router's last words were ".toList ++ debug shown line
          | none => why }

end Life

end Clove.Sam
