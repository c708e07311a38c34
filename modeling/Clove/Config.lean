import Clove.Magnet

/-!
# Configuration

The model of `config.rs`: `clove.conf`, and where things are when it does not say.  Paths and the
values of environment variables are texts.
-/

namespace Clove

open Utf8 (ascii)
open Decimal (isDigit)

namespace Config

/-- `u64::MAX`, and `usize::MAX` with it. -/
def U64_MAX : Nat := 18446744073709551615

def DEFAULT_SAM_ADDRESS : Bytes := ascii "127.0.0.1:7656"

def DEFAULT_PEER_LIMIT : Nat := 200

def DEFAULT_TORRENT_PEER_LIMIT : Nat := 50

/-- Largest accepted seed ratio, in thousandths. -/
def MAX_SEED_RATIO_MILLI : Nat := 1000000

/-- Longest accepted seed idle limit, in minutes. -/
def MAX_SEED_IDLE_MINUTES : Nat := 100000

/-- Largest accepted value for either peer ceiling. -/
def MAX_PEER_LIMIT : Nat := 10000

/-- What is done when the sandbox cannot be applied. -/
inductive SandboxPolicy where
  | bestEffort
  | require
deriving Repr, DecidableEq

/-- Default locations, from the environment. -/
structure Defaults where
  dataHome : Bytes
  runtimeDir : Option Bytes
  configHome : Bytes
deriving Repr, DecidableEq

/-- What is wrong with a line. -/
inductive Problem where
  | unknownKey (key : Bytes)
  | missingValue
  | duplicateKey
  | badBool
  | badSandboxPolicy
  | badCount
  | badRatio
  | badSamAddress
  | relativePath
  | unsupportedSamTransport (what : String)
deriving Repr, DecidableEq

/-- Why a configuration was rejected. -/
inductive Error where
  | noHome
  | line (line : Nat) (problem : Problem)
deriving Repr, DecidableEq

/-! ## Locations -/

/-- `PathBuf::join`, of a path that is not absolute. -/
def join (base name : Bytes) : Bytes :=
  if base = [] || base.getLast? = some 47 then base ++ name else base ++ 47 :: name

/-- A path that begins at the root. -/
def isAbsolute (path : Bytes) : Bool := path.head? = some 47

namespace Defaults

/-- An environment variable that is set to something. -/
def nonempty (get : Bytes → Option Bytes) (key : Bytes) : Option Bytes := (get key).filter (· ≠ [])

/-- An `XDG_*` variable.  One that is relative is ignored. -/
def xdg (get : Bytes → Option Bytes) (key : Bytes) : Option Bytes :=
  (nonempty get key).filter isAbsolute

/-- A base directory, or the default for it in the home directory. -/
def home (get : Bytes → Option Bytes) (key below : Bytes) : Except Error Bytes :=
  match xdg get key with
  | some dir => .ok dir
  | none =>
      match nonempty get (ascii "HOME") with
      | some home => .ok (join home below)
      | none => .error .noHome

def fromVars (get : Bytes → Option Bytes) : Except Error Defaults := do
  let dataHome ← home get (ascii "XDG_DATA_HOME") (ascii ".local/share")
  let runtimeDir := xdg get (ascii "XDG_RUNTIME_DIR")
  let configHome ← home get (ascii "XDG_CONFIG_HOME") (ascii ".config")
  return { dataHome, runtimeDir, configHome }

/-- Where the configuration is looked for. -/
def configPath (d : Defaults) : Bytes := join d.configHome (ascii "clove/clove.conf")

end Defaults

/-! ## Values -/

def parseBool (value : Bytes) : Option Bool :=
  if value = ascii "yes" then some true else if value = ascii "no" then some false else none

def parseCount (value : Bytes) : Option Nat :=
  (Decimal.parse U64_MAX value).filter fun n => 1 ≤ n && n ≤ MAX_PEER_LIMIT

/-- The next digits after a number, a zero for each that is missing. -/
def padded : Nat → Nat → Bytes → Nat
  | 0, milli, _ => milli
  | n + 1, milli, digits =>
      padded n (milli * 10 + digits.head?.elim 0 Decimal.digitVal) digits.tail

/-- `checked_mul` and `checked_add`. -/
def checked (n : Nat) : Option Nat := if n ≤ U64_MAX then some n else none

/-- A ratio, in thousandths. -/
def parseSeedRatio (value : Bytes) : Option Nat :=
  let (whole, frac) := (Magnet.splitOnce 46 value).getD (value, [])
  if whole = [] && frac = [] then none
  else if !whole.all isDigit || !frac.all isDigit then none
  else if 3 < frac.length then none
  else
    (if whole = [] then some 0 else Decimal.parse U64_MAX whole).bind fun whole =>
      (checked (whole * 1000)).bind fun thousands =>
        (checked (thousands + padded 3 0 frac)).filter (· ≤ MAX_SEED_RATIO_MILLI)

/-- Whether a text has the shape of a SAM address. -/
def looksLikeSamAddress (value : Bytes) : Bool :=
  if value.head? = some 47 then true
  else
    match TrackerUrl.rsplitOnce 58 value with
    | some (host, port) =>
        host ≠ [] && (Decimal.parse 65535 port).any (· ≠ 0) && port.head? ≠ some 43
    | none => false

def isLoopbackSam (value : Bytes) : Bool :=
  if value.head? = some 47 then true
  else
    match TrackerUrl.rsplitOnce 58 value with
    | some (host, _) =>
        host = ascii "127.0.0.1" || host = ascii "localhost" || host = ascii "[::1]"
    | none => false

/-- Why an address cannot be dialled. -/
def unsupportedSamTransport (value : Bytes) : Option String :=
  if value.head? = some 47 then
    some "a unix-socket SAM address is not supported; use host:port"
  else if !isLoopbackSam value then some "a remote SAM bridge is not supported"
  else none

def parseSandboxPolicy (value : Bytes) : Option SandboxPolicy :=
  if value = ascii "best-effort" then some .bestEffort
  else if value = ascii "require" then some .require
  else none

def parseSeedIdle (value : Bytes) : Option Nat :=
  (Decimal.parse U64_MAX value).filter (· ≤ MAX_SEED_IDLE_MINUTES)

def absolute (value : Bytes) (line : Nat) : Except Error Bytes :=
  if isAbsolute value then .ok value else .error (.line line .relativePath)

/-! ## Lines -/

/-- The keys as read so far, each with the line it came from. -/
structure Draft where
  samAddress : Option (Nat × Bytes) := none
  dataDir : Option (Nat × Bytes) := none
  apiSocket : Option (Nat × Bytes) := none
  ephemeral : Option (Nat × Bool) := none
  preallocate : Option (Nat × Bool) := none
  peerLimit : Option (Nat × Nat) := none
  torrentPeerLimit : Option (Nat × Nat) := none
  seedRatioMilli : Option (Nat × Nat) := none
  seedIdleMinutes : Option (Nat × Nat) := none
  sandbox : Option (Nat × SandboxPolicy) := none
deriving Repr, DecidableEq

def set {α : Type} (slot : Option (Nat × α)) (line : Nat) (value : α) :
    Except Error (Option (Nat × α)) :=
  if slot.isSome then .error (.line line .duplicateKey) else .ok (some (line, value))

/-- A value that was read, or what is wrong with the line. -/
def orElse {α : Type} (line : Nat) (problem : Problem) : Option α → Except Error α
  | some a => .ok a
  | none => .error (.line line problem)

/-- Record one line. -/
def Draft.accept (line : Nat) (key value : Bytes) (d : Draft) : Except Error Draft :=
  if key = ascii "sam_address" then do
    if !looksLikeSamAddress value then throw (.line line .badSamAddress)
    return { d with samAddress := ← set d.samAddress line value }
  else if key = ascii "data_dir" then do
    return { d with dataDir := ← set d.dataDir line (← absolute value line) }
  else if key = ascii "api_socket" then do
    return { d with apiSocket := ← set d.apiSocket line (← absolute value line) }
  else if key = ascii "ephemeral" then do
    let flag ← orElse line .badBool (parseBool value)
    return { d with ephemeral := ← set d.ephemeral line flag }
  else if key = ascii "preallocate" then do
    let flag ← orElse line .badBool (parseBool value)
    return { d with preallocate := ← set d.preallocate line flag }
  else if key = ascii "peer_limit" then do
    let count ← orElse line .badCount (parseCount value)
    return { d with peerLimit := ← set d.peerLimit line count }
  else if key = ascii "torrent_peer_limit" then do
    let count ← orElse line .badCount (parseCount value)
    return { d with torrentPeerLimit := ← set d.torrentPeerLimit line count }
  else if key = ascii "seed_ratio" then do
    let milli ← orElse line .badRatio (parseSeedRatio value)
    return { d with seedRatioMilli := ← set d.seedRatioMilli line milli }
  else if key = ascii "sandbox" then do
    let policy ← orElse line .badSandboxPolicy (parseSandboxPolicy value)
    return { d with sandbox := ← set d.sandbox line policy }
  else if key = ascii "seed_idle_minutes" then do
    let minutes ← orElse line .badCount (parseSeedIdle value)
    return { d with seedIdleMinutes := ← set d.seedIdleMinutes line minutes }
  else throw (.line line (.unknownKey key))

/-- A line without the carriage return before its end. -/
def withoutReturn (line : Bytes) : Bytes :=
  if line.getLast? = some 13 then line.dropLast else line

/-- The lines of a text: `str::lines`. -/
def lines (text : Bytes) : List Bytes :=
  let parts := text.splitOn 10
  parts.dropLast.map withoutReturn ++ (parts.getLast?.filter (· ≠ [])).toList

/-- A text before and after its first white space. -/
def splitOnceWhitespace (text : Bytes) : Option (Bytes × Bytes) :=
  let key := (Utf8.chars text).takeWhile (· ∉ Text.whitespace)
  match (Utf8.chars text).drop key.length with
  | [] => none
  | _ :: rest => some (key.flatten, rest.flatten)

/-- What one line of the file does to the draft. -/
def readLine (d : Draft) (numbered : Bytes × Nat) : Except Error Draft :=
  let trimmed := Text.trim numbered.1
  if trimmed = [] || trimmed.head? = some 35 then .ok d
  else
    match splitOnceWhitespace trimmed with
    | some (key, value) =>
        if Text.trim value = [] then .error (.line numbered.2 .missingValue)
        else d.accept numbered.2 key (Text.trim value)
    | none => .error (.line numbered.2 .missingValue)

end Config

/-- A validated configuration. -/
structure Config where
  samAddress : Bytes
  dataDir : Bytes
  apiSocket : Bytes
  ephemeral : Bool
  preallocate : Bool
  peerLimit : Nat
  torrentPeerLimit : Nat
  seedRatioMilli : Nat
  seedIdleMinutes : Nat
  sandbox : Config.SandboxPolicy
deriving Repr, DecidableEq

namespace Config

/-- The configuration a draft makes, with the defaults for what it does not set. -/
def Draft.finish (defaults : Defaults) (d : Draft) : Except Error Config :=
  let (samLine, samAddress) := d.samAddress.getD (0, DEFAULT_SAM_ADDRESS)
  match unsupportedSamTransport samAddress with
  | some what => .error (.line samLine (.unsupportedSamTransport what))
  | none =>
      let dataDir := d.dataDir.elim (join defaults.dataHome (ascii "clove")) Prod.snd
      let apiSocket := d.apiSocket.elim
        (defaults.runtimeDir.elim (join dataDir (ascii "clove.sock")) (join · (ascii "clove.sock")))
        Prod.snd
      .ok {
        samAddress, dataDir, apiSocket
        ephemeral := d.ephemeral.any Prod.snd
        preallocate := d.preallocate.any Prod.snd
        peerLimit := d.peerLimit.elim DEFAULT_PEER_LIMIT Prod.snd
        torrentPeerLimit := d.torrentPeerLimit.elim DEFAULT_TORRENT_PEER_LIMIT Prod.snd
        seedRatioMilli := d.seedRatioMilli.elim 0 Prod.snd
        seedIdleMinutes := d.seedIdleMinutes.elim 0 Prod.snd
        sandbox := d.sandbox.elim .bestEffort Prod.snd }

/-- Parse configuration text. -/
def parse (text : Bytes) (defaults : Defaults) : Except Error Config :=
  ((lines text).zipIdx 1).foldlM readLine {} >>= Draft.finish defaults

end Config

end Clove
