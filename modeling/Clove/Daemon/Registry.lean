import Clove.Magnet
import Clove.Daemon.Hosted

/-!
# The registry

The model of the registry as a whole (`registry.rs`): the torrents it hosts, the magnets whose
metadata it is still fetching, and the state directory both are kept in.  A torrent has a
`.torrent` and a `.resume` file, a magnet a `.magnet` file, each named by the info-hash.

Any call to the file system may fail, and `Faults` says which ones do.  What happens to one
hosted torrent while it runs is the business of `Host`.  Here it is one operation, `tend`, that
may leave anything in the entry and in the resume file.

The downloaded files are not part of the state, so `remove` does not show what it does to them.
-/

namespace Clove.Daemon

open Torrent (Shared)

/-! ## The state directory -/

/-- What a state file is for. -/
inductive Kind where
  | torrent
  | resume
  | magnet
deriving Repr, DecidableEq

/-- A file of the state directory, or the temporary file it is written through. -/
structure FileName where
  stem : Bytes
  kind : Kind
  temp : Bool
deriving Repr, DecidableEq

/-- The state directory.  Files with other extensions are neither read nor written. -/
abbrev Dir := FileName → Option Bytes

/-- A call to the file system. -/
inductive Call where
  | list
  | read (n : FileName)
  | create (n : FileName)
  | write (n : FileName)
  | sync (n : FileName)
  | rename (n : FileName)
  | unlink (n : FileName)
deriving Repr, DecidableEq

/-- The calls that fail, and how far a write that fails gets. -/
structure Faults where
  fails : Call → Bool
  cut : Nat

/-- Nothing fails. -/
def Faults.none : Faults := ⟨fun _ => false, 0⟩

def hex (infoHash : Bytes) : Bytes := Hex.encode infoHash

/-- The state file of a torrent. -/
def stateFile (infoHash : Bytes) (kind : Kind) : FileName := ⟨hex infoHash, kind, false⟩

namespace Dir

def put (n : FileName) (bytes : Bytes) (d : Dir) : Dir := Function.update d n (some bytes)

def drop (n : FileName) (d : Dir) : Dir := Function.update d n none

/-- `fs::read`. -/
def read (f : Faults) (n : FileName) (d : Dir) : Option Bytes :=
  if f.fails (.read n) then none else d n

/-- `remove_file_ok`: a file that is not there is as good as removed. -/
def removeFileOk (f : Faults) (n : FileName) (d : Dir) : Except IoError Unit × Dir :=
  if f.fails (.unlink n) then (.error .other, d) else (.ok (), d.drop n)

/-- A removal whose failure nobody looks at. -/
def tryRemove (f : Faults) (n : FileName) (d : Dir) : Dir := (d.removeFileOk f n).2

/-- `atomic_write`: through a temporary file that must not be there yet. -/
def atomicWrite (f : Faults) (n : FileName) (bytes : Bytes) (d : Dir) : Except IoError Unit × Dir :=
  let tmp := { n with temp := true }
  let d := d.tryRemove f tmp
  if f.fails (.create tmp) || (d tmp).isSome then (.error .other, d)
  else if f.fails (.write tmp) then (.error .other, d.put tmp (bytes.take f.cut))
  else if f.fails (.sync tmp) || f.fails (.rename tmp) then (.error .other, d.put tmp bytes)
  else (.ok (), (d.drop tmp).put n bytes)

end Dir

/-! ## What the registry keeps -/

/-- The layout of a torrent's files on disk.  Their lengths add up to the total that `parse`
returns. -/
def createStorage (m : MetaInfo) : Storage where
  regions := regionsFrom 0 0 (m.files.map (·.length))
  layout := ⟨m.pieces.length, m.pieceLength, (m.files.map (·.length)).sum⟩
  pieceHashes := m.pieces
  tiled := tiled_regionsFrom 0 0 _
  cover := (coverEnd_regionsFrom 0 0 _).trans (Nat.zero_add _)

/-- What an engine of the torrent works with. -/
def sharedOf (sha1 : Bytes → Bytes) (m : MetaInfo) : Shared where
  infoHash := m.infoHash
  peerId := []
  storage := createStorage m
  rawInfo := m.rawInfo
  isPrivate := m.isPrivate
  sha1 := sha1

/-- A hosted torrent. -/
structure Entry where
  info : MetaInfo
  hosted : Hosted
deriving DecidableEq

/-- A magnet whose metadata is still being fetched. -/
structure PendingMagnet where
  magnet : Magnet
  claimed : Bool
deriving Repr, DecidableEq

structure Registry where
  torrents : OrdMap.Tree Bytes Entry
  pending : OrdMap.Tree Bytes PendingMagnet
  dir : Dir

/-- What an operator asks for when a torrent is added. -/
structure AddOptions where
  paused : Bool
  sequential : Bool
deriving Repr, DecidableEq

/-- Why adding failed. -/
inductive AddError where
  | parse (e : Metainfo.Error)
  | magnet (e : Magnet.Error)
  | duplicate
  | nameClash (name : Bytes)
  | io (e : IoError)
deriving Repr, DecidableEq

/-- Why removing failed. -/
inductive RemoveError where
  | notFound
  | scanning
  | io (e : IoError)
deriving Repr, DecidableEq

/-- Why a state file is skipped at the start. -/
inductive Skipped where
  | io
  | torrent (e : Metainfo.Error)
  | resume (e : LoadError)
  | magnet (e : Magnet.Error)
deriving Repr, DecidableEq

/-- A torrent that a prefix could have meant. -/
structure Candidate where
  infoHash : Bytes
  name : Bytes
deriving Repr, DecidableEq

/-- Why a reference did not name one torrent. -/
inductive ResolveError where
  | malformed
  | notFound
  | ambiguous (candidates : List Candidate)
deriving Repr, DecidableEq

/-- Shortest prefix that may stand for an info-hash. -/
def MIN_PREFIX : Nat := 4

namespace Registry

variable (sha1 toLowercase : Bytes → Bytes)

/-! ## Adding -/

/-- Add a torrent from the bytes of its file.  Its files are to be hashed before it starts. -/
def addTorrent (f : Faults) (now : Nat) (bytes : Bytes) (options : AddOptions) (r : Registry) :
    Except AddError Bytes × Registry :=
  match MetaInfo.parse sha1 toLowercase bytes with
  | .error e => (.error (.parse e), r)
  | .ok m =>
      let infoHash := m.infoHash
      if r.torrents.has infoHash then (.error .duplicate, r)
      else if r.torrents.entries.any fun e => e.2.info.name = m.name then
        (.error (.nameClash (Text.scrub m.name)), r)
      else
        let hosted := Hosted.new (sharedOf sha1 m) now options.paused options.sequential
        let record := (hosted.resume (sharedOf sha1 m)).encode
        match r.dir.atomicWrite f (stateFile infoHash .torrent) bytes with
        | (.error e, d) => (.error (.io e), { r with dir := d })
        | (.ok (), d) =>
            match d.atomicWrite f (stateFile infoHash .resume) record with
            | (.error e, d) =>
                (.error (.io e), { r with dir := d.tryRemove f (stateFile infoHash .torrent) })
            | (.ok (), d) =>
                (.ok infoHash,
                  { r with torrents := r.torrents.insert infoHash ⟨m, hosted⟩, dir := d })

/-- Add a magnet link. -/
def addMagnet (f : Faults) (uri : Bytes) (r : Registry) : Except AddError Bytes × Registry :=
  match Magnet.parse uri with
  | .error e => (.error (.magnet e), r)
  | .ok magnet =>
      let infoHash := magnet.infoHash
      if r.torrents.has infoHash || r.pending.has infoHash then (.error .duplicate, r)
      else
        match r.dir.atomicWrite f (stateFile infoHash .magnet) uri with
        | (.error e, d) => (.error (.io e), { r with dir := d })
        | (.ok (), d) =>
            (.ok infoHash,
              { r with pending := r.pending.insert infoHash ⟨magnet, false⟩, dir := d })

/-- A magnet's metadata has been fetched: add the torrent, and only then drop the magnet. -/
def completeMagnet (f : Faults) (now : Nat) (infoHash bytes : Bytes) (r : Registry) :
    Except AddError Bytes × Registry :=
  match addTorrent sha1 toLowercase f now bytes ⟨false, false⟩ r with
  | (.error e, r) => (.error e, r)
  | (.ok added, r) =>
      (.ok added,
        { r with
          pending := r.pending.erase infoHash
          dir := r.dir.tryRemove f (stateFile infoHash .magnet) })

/-! ## Removing -/

/-- `stop_live`.  `left` is what it makes of a torrent with an engine. -/
def stopLive (left : Hosted) (infoHash : Bytes) (r : Registry) : Registry :=
  match r.torrents.lookup infoHash with
  | none => r
  | some e =>
      if e.hosted.live.isNone then r
      else { r with torrents := r.torrents.insert infoHash { e with hosted := left } }

/-- Remove a torrent or a magnet: first its files, then its entry. -/
def remove (f : Faults) (left : Hosted) (infoHash : Bytes) (r : Registry) :
    Except RemoveError Unit × Registry :=
  if r.pending.has infoHash then
    match r.dir.removeFileOk f (stateFile infoHash .magnet) with
    | (.error e, d) => (.error (.io e), { r with dir := d })
    | (.ok (), d) => (.ok (), { r with pending := r.pending.erase infoHash, dir := d })
  else
    match r.torrents.lookup infoHash with
    | none => (.error .notFound, r)
    | some e =>
        if e.hosted.scanning then (.error .scanning, r)
        else
          let r := r.stopLive left infoHash
          match r.dir.removeFileOk f (stateFile infoHash .torrent) with
          | (.error e, d) => (.error (.io e), { r with dir := d })
          | (.ok (), d) =>
              match d.removeFileOk f (stateFile infoHash .resume) with
              | (.error e, d) => (.error (.io e), { r with dir := d })
              | (.ok (), d) =>
                  (.ok (), { r with torrents := r.torrents.erase infoHash, dir := d })

/-! ## Starting -/

/-- Read a torrent back from its two files. -/
def readTorrent (f : Faults) (n : FileName) (d : Dir) : Except Skipped (Bytes × Entry) := do
  let bytes ← (d.read f n).elim (.error .io) .ok
  let m ← (MetaInfo.parse sha1 toLowercase bytes).mapError .torrent
  let record ← (d.read f (stateFile m.infoHash .resume)).elim (.error .io) .ok
  let hosted ← (Daemon.loadOne (sharedOf sha1 m) record).mapError .resume
  return (m.infoHash, ⟨m, hosted⟩)

/-- Read a magnet back from its file. -/
def readMagnet (f : Faults) (n : FileName) (d : Dir) : Except Skipped Magnet := do
  let uri ← ((d.read f n).filter Utf8.valid).elim (.error .io) .ok
  (Magnet.parse (Text.trim uri)).mapError .magnet

def loadOne (f : Faults) (r : Registry) (n : FileName) : Registry :=
  match readTorrent sha1 toLowercase f n r.dir with
  | .error _ => r
  | .ok (infoHash, entry) => { r with torrents := r.torrents.insert infoHash entry }

/-- Load a magnet, unless its torrent is hosted by now. -/
def loadMagnet (f : Faults) (r : Registry) (n : FileName) : Registry :=
  match readMagnet f n r.dir with
  | .error _ => r
  | .ok magnet =>
      if r.torrents.has magnet.infoHash then { r with dir := r.dir.tryRemove f n }
      else { r with pending := r.pending.insert magnet.infoHash ⟨magnet, false⟩ }

/-- The files of a listing that are of a kind. -/
def ofKind (kind : Kind) (order : List FileName) : List FileName :=
  order.filter fun n => n.kind = kind && !n.temp

/-- Load what the state directory holds, in the order it is listed, the torrents first. -/
def loadAll (f : Faults) (order : List FileName) (r : Registry) : Registry :=
  if f.fails .list then r
  else
    let r := (ofKind .torrent order).foldl (loadOne sha1 toLowercase f) r
    (ofKind .magnet order).foldl (loadMagnet f) r

/-- `open`: a new registry on a state directory. -/
def start (f : Faults) (order : List FileName) (d : Dir) : Registry :=
  loadAll sha1 toLowercase f order ⟨.empty, .empty, d⟩

/-! ## Naming -/

def parseInfoHash (text : Bytes) : Option Bytes :=
  if text.length ≠ 40 then none else Hex.decode Hex.lowerValue text

def candidate (r : Registry) (infoHash : Bytes) : Candidate where
  infoHash := hex infoHash
  name :=
    match r.torrents.lookup infoHash with
    | some e => e.info.name
    | none => ((r.pending.lookup infoHash).bind (·.magnet.displayName)).getD (hex infoHash)

/-- The torrent an operator means: a whole info-hash, or a prefix that is no other's. -/
def resolve (r : Registry) (text : Bytes) : Except ResolveError Bytes :=
  match parseInfoHash text with
  | some exact => .ok exact
  | none =>
      if text.length < MIN_PREFIX || 40 < text.length ||
          !text.all fun b => (Hex.lowerValue b).isSome then
        .error .malformed
      else
        match (r.torrents.keys ++ r.pending.keys).filter fun h => text.isPrefixOf (hex h) with
        | [] => .error .notFound
        | [one] => .ok one
        | many => .error (.ambiguous (many.map r.candidate))

/-! ## Runs -/

/-- An operation of the registry. -/
inductive Op where
  /-- The daemon ends, and is started on the same state directory. -/
  | start (order : List FileName)
  | addTorrent (now : Nat) (bytes : Bytes) (options : AddOptions)
  | addMagnet (uri : Bytes)
  | completeMagnet (now : Nat) (infoHash bytes : Bytes)
  | remove (left : Hosted) (infoHash : Bytes)
  /-- Whatever else is done to a hosted torrent. -/
  | tend (infoHash : Bytes) (hosted : Hosted) (record : Option Bytes)

/-- A hosted torrent is changed, and its resume file replaced. -/
def tend (f : Faults) (infoHash : Bytes) (hosted : Hosted) (record : Option Bytes) (r : Registry) :
    Registry :=
  match r.torrents.lookup infoHash with
  | none => r
  | some e =>
      { r with
        torrents := r.torrents.insert infoHash { e with hosted := hosted }
        dir :=
          match record with
          | none => r.dir
          | some bytes => (r.dir.atomicWrite f (stateFile infoHash .resume) bytes).2 }

/-- One operation, with the calls of it that fail. -/
def step (a : Faults × Op) (r : Registry) : Registry :=
  match a.2 with
  | .start order => start sha1 toLowercase a.1 order r.dir
  | .addTorrent now bytes options => (addTorrent sha1 toLowercase a.1 now bytes options r).2
  | .addMagnet uri => (addMagnet a.1 uri r).2
  | .completeMagnet now infoHash bytes =>
      (completeMagnet sha1 toLowercase a.1 now infoHash bytes r).2
  | .remove left infoHash => (remove a.1 left infoHash r).2
  | .tend infoHash hosted record => tend a.1 infoHash hosted record r

/-- The registry after a list of operations. -/
def run (acts : List (Faults × Op)) (r : Registry) : Registry :=
  Machine.run (step sha1 toLowercase) acts r

end Registry

/-! ## Two small torrents -/

namespace Demo

/-- An info dictionary of one file, of this name. -/
def infoDict (name : String) : Bytes :=
  Utf8.ascii "d6:lengthi16384e4:name" ++ Bencode.putBytes (Utf8.ascii name) ++
    Utf8.ascii "12:piece lengthi16384e6:pieces20:" ++ List.replicate 20 0 ++ Utf8.ascii "e"

/-- The torrent file around it. -/
def torrentFile (name : String) : Bytes :=
  Utf8.ascii "d4:info" ++ infoDict name ++ Utf8.ascii "e"

/-- What SHA-1 makes of the dictionary of `demo`. -/
def demoHash : Bytes :=
  [97, 106, 122, 103, 13, 154, 110, 220, 146, 26, 71, 55, 170, 78, 133, 202, 85, 44, 166, 91]

/-- `demo`, parsed. -/
def demoInfo : MetaInfo where
  infoHash := demoHash
  name := Utf8.ascii "demo"
  pieceLength := 16384
  pieces := [List.replicate 20 0]
  files := [⟨[Utf8.ascii "demo"], 16384⟩]
  totalLength := 16384
  isPrivate := false
  trackers := []
  skippedTrackers := 0
  rawInfo := infoDict "demo"

/-- What SHA-1 makes of the dictionary of `Demo`. -/
def capitalHash : Bytes :=
  [95, 144, 103, 203, 105, 10, 59, 74, 61, 9, 2, 183, 203, 46, 61, 149, 220, 129, 6, 109]

/-- SHA-1, as far as it matters here. -/
def digest (b : Bytes) : Bytes :=
  if b = infoDict "demo" then demoHash else if b = infoDict "Demo" then capitalHash else []

/-- Lower-casing of plain texts. -/
def lower (s : Bytes) : Bytes := TrackerUrl.toAsciiLowercase s

/-- The magnet link of `demo`. -/
def link : Bytes := Utf8.ascii "magnet:?xt=urn:btih:616a7a670d9a6edc921a4737aa4e85ca552ca65b"

def emptyDir : Dir := fun _ => none

end Demo

end Clove.Daemon
