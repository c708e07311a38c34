import Clove.ConfigExact
import Clove.Daemon.Answers
import Clove.HttpRequest
import Clove.Json
import Clove.Lib.Interleaving

/-!
# The control API

The model of the handler of a control connection (`cloved/src/main.rs`): what it reads, whom it
trusts, what it does to the registry, and what it answers.

The registry is behind a lock, and the handler takes the lock anew for everything it wants of it.
So a handler is a program of `Interleaving`: the sections are the turns with the lock, the state is
the `Fleet`, and other connections, fetch threads and timers do what they like between two of them.
A section is logged as a `Deed`.

What the listings say of a torrent has rates and ratios in it, which are floating-point numbers.
They are parameters, like the texts of the operating system's errors.
-/

namespace Clove.Control

open Http (Response ServerRequest readRequest)
open Interleaving (Prog Section)
open Utf8 (ascii)
open Clove.Daemon (ActionError AddError AddOptions Candidate Entry Fleet Limits MIN_PREFIX
  RemoveError ResolveError Wiped World hex)
open Clove.Daemon.Answering (Change)

/-- Largest request body accepted. -/
def MAX_REQUEST_BODY : Nat := 2 * 1024 * 1024

/-- Length of the API token, in hexadecimal digits. -/
def TOKEN_HEX_LEN : Nat := 64

/-- The daemon, as its handlers know it. -/
structure Daemon (F : Type) where
  token : Bytes
  limits : Limits
  sha1 : Bytes → Bytes
  toLowercase : Bytes → Bytes
  floats : Json.Floats F
  /-- `status_json`, `list` and `to_detail_json`, of a registry just refreshed. -/
  statusJson : Fleet → Json.Value F
  listJson : Fleet → Json.Value F
  detailJson : Entry → Json.Value F
  /-- A text as it is shown for debugging. -/
  debug : Bytes → Bytes
  ioText : IoError → Bytes

/-! ## Texts of errors -/

def bencodeText (e : Bencode.Error) : Bytes :=
  let what := match e.kind with
    | .truncated => "input truncated mid-value"
    | .trailingData => "trailing bytes after the value"
    | .badInt => "malformed integer"
    | .badLength => "malformed string length"
    | .badKey => "duplicate or non-string dictionary key"
    | .tooDeep => "nesting deeper than the decoder allows"
    | .badValueStart => "byte cannot start a value"
    | .tooManyNodes => "more values than the input could hold"
  ascii "bencode: " ++ ascii what ++ ascii " at offset " ++ Decimal.digits e.offset

def metainfoText : Metainfo.Error → Bytes
  | .bencode e => ascii "torrent: " ++ bencodeText e
  | .invalid what => ascii "torrent: " ++ ascii what

def magnetText : Magnet.Error → Bytes
  | .notMagnet => ascii "magnet: not a magnet: URI"
  | .noInfoHash => ascii "magnet: no xt=urn:btih: info-hash"
  | .badInfoHash => ascii "magnet: info-hash is not 40 hex or 32 base32 chars"
  | .conflictingInfoHash =>
      ascii "magnet: two xt=urn:btih: parameters name different info-hashes"

/-! ## The program of a handler -/

/-- What a turn with the lock meets besides the registry. -/
structure Moment where
  world : World
  /-- What the files of the torrent hashed to before it, if it has been scanned. -/
  scanned : Except IoError Bitfield
  /-- What removing each downloaded file comes to. -/
  unlinked : List Bytes → Except IoError Unit

/-- What a turn with the lock does. -/
inductive Deed where
  | looked
  /-- A pending magnet is claimed, for a thread of its own. -/
  | claimed (infoHash : Bytes)
  /-- An operation, in the world it met, and what became of the data it was to delete. -/
  | performed (w : World) (op : Fleet.Op) (wiped : Option Wiped)

/-- A handler.  To return early is to throw the answer. -/
abbrev Handler (α : Type) := Prog Fleet Moment Deed Response α

def look {α : Type} (f : Fleet → α) : Handler α := .atomic fun _ s => (.ok (f s), .looked, s)

/-- An operation, which returns something. -/
def perform {α : Type} (op : Fleet.Op) (f : World → Fleet → α × Fleet) : Handler α :=
  .atomic fun m s => (.ok (f m.world s).1, .performed m.world op none, (f m.world s).2)

namespace Daemon

variable {F : Type} (d : Daemon F)

/-! ## Answers -/

def json (status : Nat) (v : Json.Value F) : Response where
  status := status
  headers := [(ascii "content-type", ascii "application/json")]
  body := Json.encode d.floats v

/-- A JSON error body with the given status. -/
def error (status : Nat) (message : Bytes) : Response :=
  d.json status (.object [(ascii "error", .str message)])

def okJson : Response where
  status := 200
  headers := [(ascii "content-type", ascii "application/json")]
  body := ascii "\x7b\"ok\":true\x7d"

def actionError : ActionError → Response
  | .notFound => d.error 404 (ascii "no such torrent")
  | .badInput what => d.error 400 (ascii what)
  | .io e => d.error 500 (d.ioText e)

def actionResult : Except ActionError Unit → Response
  | .ok () => okJson
  | .error e => d.actionError e

/-- A reference that stands for several torrents is answered with all of them. -/
def resolveError : ResolveError → Response
  | .malformed =>
      d.error 400 (ascii "torrent reference must be a full 40-character lowercase-hex info-hash, " ++
        ascii "or a prefix of at least " ++ Decimal.digits MIN_PREFIX ++
        ascii " of its characters")
  | .notFound => d.error 404 (ascii "no such torrent")
  | .ambiguous candidates =>
      let listed := candidates.map fun c : Candidate =>
        .object [(ascii "info_hash", .str c.infoHash), (ascii "name", .str c.name)]
      d.json 409 (.object [
        (ascii "error", .str (ascii "that prefix matches " ++ Decimal.digits candidates.length ++
          ascii " torrents; use more characters")),
        (ascii "candidates", .array listed)])

def addErrorText : AddError → Bytes
  | .parse e => metainfoText e
  | .magnet e => magnetText e
  | .duplicate => ascii "torrent already added"
  | .nameClash name =>
      ascii "a hosted torrent is already named " ++ d.debug name ++
        ascii "; two torrents with one name would share files on disk"
  | .io e => d.ioText e

end Daemon

/-! ## What a request asks for -/

/-- Whether a token has the shape the daemon writes. -/
def isWellFormedToken (token : Bytes) : Bool :=
  token.length = TOKEN_HEX_LEN && token.all fun b => (Hex.value b).isSome

/-- Equality, in a time that does not depend on where the texts differ. -/
def constantTimeEq (a b : Bytes) : Bool :=
  if a.length ≠ b.length then false
  else (List.zip a b).foldl (fun diff p => diff ||| (p.1 ^^^ p.2)) 0 = 0

/-- Whether a query has a flag: bare, or with a value that means yes. -/
def queryFlag (query name : Bytes) : Bool :=
  (query.splitOn 38).any fun pair =>
    let p := (Magnet.splitOnce 61 pair).getD (pair, ascii "1")
    p.1 = name && (p.2 = ascii "1" || p.2 = ascii "true" || p.2 = ascii "yes")

def queryHasData (query : Bytes) : Bool :=
  (query.splitOn 38).any fun pair =>
    let p := (Magnet.splitOnce 61 pair).getD (pair, ascii "1")
    p.1 = ascii "data" && (p.2 = ascii "1" || p.2 = ascii "true" || p.2 = ascii "yes")

/-- `from_utf8` and `trim`. -/
def trimmedText (body : Bytes) : Option Bytes :=
  if Utf8.valid body then some (Text.trim body) else none

/-- A number for each file, between commas. -/
def parsePriorities (body : Bytes) : Option Bytes :=
  (trimmedText body).bind fun text =>
    (text.splitOn 44).mapM fun part =>
      ((Decimal.parse 255 (Text.trim part)).filter (· ≤ 2)).map UInt8.ofNat

def parseRatioBody (body : Bytes) : Option Nat := (trimmedText body).bind Config.parseSeedRatio

def parseBoolBody (body : Bytes) : Option Bool :=
  (trimmedText body).bind fun text =>
    if text = ascii "true" then some true else if text = ascii "false" then some false else none

namespace Daemon

variable {F : Type} (d : Daemon F)

/-! ## The routes -/

/-- Publish what a scan has found, whichever it is. -/
def runScan (infoHash : Bytes) : Handler (Except ActionError Nat) :=
  .atomic fun m s =>
    let r := Clove.Daemon.Answering.finishScan d.sha1 m.world infoHash m.scanned s
    (.ok r.1, .performed m.world (.finishScan infoHash m.scanned) none, r.2)

/-- `spawn_metadata_fetch`: a thread for a magnet that has none. -/
def spawnMetadataFetch (infoHash : Bytes) : Handler Unit :=
  .atomic fun _ s =>
    (.ok (), .claimed infoHash, { s with registry := (s.registry.claimFetch infoHash).2 })

def addMagnetError : AddError → Response
  | .magnet e => d.error 400 (magnetText e)
  | .duplicate => d.error 409 (ascii "torrent already added")
  | e => d.error 500 (ascii "adding magnet: " ++ d.addErrorText e)

def addMagnet (uri : Bytes) : Handler Response := do
  match ← perform (.addMagnet uri) fun w s => Clove.Daemon.Answering.addMagnet w uri s with
  | .ok infoHash =>
      spawnMetadataFetch infoHash
      return d.json 201 (.object [(ascii "info_hash", .str (hex infoHash)),
        (ascii "state", .str (ascii "fetching-metadata"))])
  | .error e => return d.addMagnetError e

def addTorrentError : AddError → Response
  | .duplicate => d.error 409 (ascii "torrent already added")
  | .nameClash name => d.error 409 (d.addErrorText (.nameClash name))
  | .io e => d.error 500 (ascii "adding torrent: " ++ d.ioText e)
  | e => d.error 400 (d.addErrorText e)

def addTorrentFile (bytes : Bytes) (options : AddOptions) : Handler Response := do
  match ← perform (.addTorrent bytes options) fun w s =>
    Clove.Daemon.Answering.addTorrent d.sha1 d.toLowercase w bytes options s with
  | .ok infoHash =>
      let _ ← d.runScan infoHash
      return d.json 201 (.object [(ascii "info_hash", .str (hex infoHash))])
  | .error e => return d.addTorrentError e

def addTorrent (request : ServerRequest) : Handler Response :=
  let query := request.query.getD []
  let options : AddOptions := ⟨queryFlag query (ascii "paused"), queryFlag query (ascii "sequential")⟩
  if (ascii "magnet:").isPrefixOf request.body then
    d.addMagnet (Text.trim (Utf8.lossy request.body))
  else d.addTorrentFile request.body options

def detailResult : Option Entry → Response
  | some e => d.json 200 (d.detailJson e)
  | none => d.error 404 (ascii "no such torrent")

def detail (infoHash : Bytes) : Handler Response := do
  return d.detailResult
    (← perform .refresh fun w s => ((s.refresh w).lookup infoHash, s.refresh w))

def removeResult : Except RemoveError Unit → Response
  | .ok () => okJson
  | .error .notFound => d.error 404 (ascii "no such torrent")
  | .error .scanning =>
      d.error 400 (ascii "this torrent's data is being verified; wait for that to finish " ++
        ascii "before removing it")
  | .error (.io e) => d.error 500 (ascii "removing torrent: " ++ d.ioText e)

def remove (infoHash : Bytes) (deleteData : Bool) : Handler Response := do
  return d.removeResult (← .atomic fun m s =>
    let r := Clove.Daemon.Answering.remove m.world m.unlinked infoHash deleteData s
    (.ok r.1.1, .performed m.world (.remove infoHash) r.1.2, r.2))

def change (infoHash : Bytes) (c : Change) : Handler Response := do
  return d.actionResult (← perform (c.op infoHash)
    fun w s => Clove.Daemon.Answering.make d.sha1 d.limits c w infoHash s)

def verifyResult : Except ActionError Nat → Response
  | .ok verified => d.json 200 (.object [(ascii "verified", .uint verified)])
  | .error e => d.actionError e

def verify (infoHash : Bytes) : Handler Response := do
  match ← perform (.beginVerify infoHash) fun _ s =>
    Clove.Daemon.Answering.beginVerify infoHash s with
  | .error e => return d.actionError e
  | .ok () => return d.verifyResult (← d.runScan infoHash)

/-- What is asked of one torrent. -/
def act (request : ServerRequest) (infoHash : Bytes) (action : Option Bytes) : Handler Response :=
  let asked := (request.method, action)
  if asked = (ascii "GET", none) then d.detail infoHash
  else if asked = (ascii "DELETE", none) then
    d.remove infoHash (request.query.any queryHasData)
  else if asked = (ascii "POST", some (ascii "pause")) then d.change infoHash (.setPaused true)
  else if asked = (ascii "POST", some (ascii "resume")) then d.change infoHash (.setPaused false)
  else if asked = (ascii "PUT", some (ascii "seed-ratio")) then
    match parseRatioBody request.body with
    | some milli => d.change infoHash (.setSeedRatio milli)
    | none => return d.error 400 (ascii "body must be a ratio like 2 or 1.75, or 0 to follow the " ++
        ascii "daemon's seed_ratio")
  else if asked = (ascii "PUT", some (ascii "sequential")) then
    match parseBoolBody request.body with
    | some on => d.change infoHash (.setSequential on)
    | none => return d.error 400 (ascii "body must be \"true\" or \"false\"")
  else if asked = (ascii "POST", some (ascii "verify")) then d.verify infoHash
  else if asked = (ascii "PUT", some (ascii "priorities")) then
    match parsePriorities request.body with
    | some priorities => d.change infoHash (.setPriorities priorities)
    | none => return d.error 400 (ascii "priorities body must be comma-separated values of 0, 1, " ++
        ascii "or 2")
  else return d.error 405 (ascii "method not allowed")

def stillFetching : Response :=
  d.error 400 (ascii "this magnet is still fetching its metadata; until it arrives there is " ++
    ascii "nothing to act on but removing it")

/-- The reference of a path, and the word behind it. -/
def parted (rest : Bytes) : Bytes × Option Bytes :=
  match Magnet.splitOnce 47 rest with
  | some (reference, word) => (reference, some word)
  | none => (rest, none)

/-- Route a request against one torrent.  A magnet whose metadata has not arrived can only be
removed. -/
def torrentAction (request : ServerRequest) (rest : Bytes) : Handler Response :=
  let (reference, action) := parted rest
  do
    match ← look fun s => s.registry.resolve reference with
    | .error e => .throw (d.resolveError e)
    | .ok infoHash =>
        if (← look fun s => s.registry.pending.has infoHash) &&
            !(request.method = ascii "DELETE" && action.isNone) then
          .throw d.stillFetching
        else d.act request infoHash action

/-- The path that every torrent's begins with. -/
def TORRENTS : Bytes := ascii "/v1/torrents/"

def route (request : ServerRequest) : Handler Response :=
  let method := request.method
  let path := request.path
  if method = ascii "GET" && path = ascii "/v1/status" then do
    let s ← perform .refresh fun w s => (s.refresh w, s.refresh w)
    return d.json 200 (d.statusJson s)
  else if method = ascii "GET" && path = ascii "/v1/torrents" then do
    let s ← perform .refresh fun w s => (s.refresh w, s.refresh w)
    return d.json 200 (d.listJson s)
  else if method = ascii "POST" && path = ascii "/v1/torrents" then d.addTorrent request
  else if TORRENTS.isPrefixOf path then d.torrentAction request (path.drop TORRENTS.length)
  else if method = ascii "GET" then return d.error 404 (ascii "no such resource")
  else return d.error 405 (ascii "method not allowed")

/-- Serve one request: parse, authenticate, route. -/
def handle (breaks : Bool) (stream : Bytes) : Handler Response :=
  match readRequest breaks MAX_REQUEST_BODY stream with
  | .error (.reading .bodyTooLarge) =>
      .throw (d.error 400 (ascii "request body exceeds the allowed size"))
  | .error _ => .throw (d.error 400 (ascii "malformed request"))
  | .ok (request, _) =>
      if !(isWellFormedToken d.token &&
          (request.header (ascii "x-clove-token")).any fun got => constantTimeEq got d.token) then
        .throw (d.error 401 (ascii "missing or invalid API token"))
      else d.route request

/-- What is written back. -/
def answer : Except Response Response → Response
  | .ok r => r
  | .error r => r

end Daemon

end Clove.Control
