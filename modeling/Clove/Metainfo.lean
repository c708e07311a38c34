import Clove.Lib.Utf8
import Clove.Picker
import Clove.BencodeGrammar

/-!
# Torrent files

The model of `metainfo.rs`.  Texts are kept as their UTF-8 bytes.  Two things the source takes
from elsewhere are parameters: SHA-1, and the lower-casing of a text, by which two paths are
compared.

The identity of a torrent is the digest of the bytes its `info` entry was read from.
`fromInfoDict` builds a torrent from such bytes alone, by wrapping them in a dictionary and
parsing that.
-/

namespace Clove

open Bencode (Value)
open Utf8 (ascii)

namespace Bencode.Value

/-- A byte string that is text. -/
def asStr (v : Value) : Option Bytes := v.asBytes.filter Utf8.valid

end Bencode.Value

namespace Metainfo

/-- Smallest piece length clove accepts. -/
def MIN_PIECE_LENGTH : Nat := 16384

/-- Largest piece length clove accepts. -/
def MAX_PIECE_LENGTH : Nat := 134217728

/-- Most files a torrent may list. -/
def MAX_FILES : Nat := 100000

/-- Longest path component. -/
def MAX_COMPONENT_BYTES : Nat := 255

/-- Longest file path, with separators. -/
def MAX_PATH_BYTES : Nat := 4096

/-- Most announce URLs a torrent keeps. -/
def MAX_TRACKERS : Nat := 16

/-- Most pieces a torrent may have: as many as a bitfield message can carry. -/
def MAX_PIECES : Nat := (Wire.MAX_MESSAGE_LEN - 1) * 8

/-- Why a torrent file was rejected. -/
inductive Error where
  | bencode (e : Bencode.Error)
  /-- Structurally invalid; the text names the field. -/
  | invalid (what : String)
deriving Repr, DecidableEq

/-- A value, or the error for its absence. -/
def require {α : Type} (what : String) : Option α → Except Error α
  | some a => .ok a
  | none => .error (.invalid what)

theorem of_require {α : Type} {what : String} {o : Option α} {a : α}
    (h : require what o = .ok a) : o = some a := by
  cases o with
  | none => cases h
  | some b => rw [Except.ok.inj h]

/-- A check that must not hold. -/
def refuse (bad : Bool) (what : String) : Except Error Unit :=
  if bad then .error (.invalid what) else .ok ()

end Metainfo

/-- One file within a torrent. -/
structure FileEntry where
  path : List Bytes
  length : Nat
deriving Repr, DecidableEq

/-- A validated torrent file. -/
structure MetaInfo where
  infoHash : Bytes
  name : Bytes
  pieceLength : Nat
  pieces : List Bytes
  files : List FileEntry
  totalLength : Nat
  isPrivate : Bool
  /-- Announce URLs, by tier. -/
  trackers : List (List Bytes)
  skippedTrackers : Nat
  /-- The bytes the info-hash covers. -/
  rawInfo : Bytes
deriving Repr, DecidableEq

/-! ## Announce URLs -/

/-- An announce URL clove may dial. -/
structure TrackerUrl where
  host : Bytes
  authority : Bytes
  pathAndQuery : Bytes
deriving Repr, DecidableEq

namespace TrackerUrl

/-- A text up to a byte, and from that byte on. -/
def splitAt (c : UInt8) (s : Bytes) : Option (Bytes × Bytes) :=
  if c ∈ s then some (s.takeWhile (· ≠ c), s.dropWhile (· ≠ c)) else none

/-- A text before and after the last occurrence of a byte. -/
def rsplitOnce (c : UInt8) (s : Bytes) : Option (Bytes × Bytes) :=
  (splitAt c s.reverse).map fun p => ((p.2.drop 1).reverse, p.1.reverse)

/-- The labels of a host, between its dots. -/
def labels : Bytes → List Bytes
  | [] => [[]]
  | b :: s =>
      if b = 46 then [] :: labels s
      else match labels s with
        | [] => [[b]]
        | l :: ls => (b :: l) :: ls

def isHexDigit (b : UInt8) : Bool :=
  Decimal.isDigit b || (65 ≤ b && b ≤ 70) || (97 ≤ b && b ≤ 102)

def toAsciiLowercase (s : Bytes) : Bytes := s.map fun b => if 65 ≤ b ∧ b ≤ 90 then b + 32 else b

/-- Whether every percent sign begins an escape of two hex digits. -/
def validPercentEscapes : Bytes → Bool
  | [] => true
  | [b] => b ≠ 37
  | [b, c] => b ≠ 37 && c ≠ 37
  | b :: c :: d :: s =>
      if b = 37 then isHexDigit c && isHexDigit d && validPercentEscapes s
      else validPercentEscapes (c :: d :: s)

/-- The host of an authority: what stands before a port. -/
def hostOf (authority : Bytes) : Option Bytes :=
  match rsplitOnce 58 authority with
  | none => some authority
  | some (host, port) =>
      if port = [] || !port.all Decimal.isDigit then none
      else
        let p := Decimal.ofDigits 0 port
        if 0 < p ∧ p < 65536 then some host else none

/-- Whether a host is a name under `i2p` with no empty label. -/
def isI2pHost (host : Bytes) : Bool :=
  match (labels host).reverse with
  | top :: next :: _ => top = ascii "i2p" && next ≠ [] && (labels host).all (· ≠ [])
  | _ => false

/-- Parse an announce URL, or nothing if clove has no business dialing it. -/
def parse (url : Bytes) : Option TrackerUrl :=
  if !(ascii "http://").isPrefixOf url then none
  else
    let rest := url.drop 7
    if rest.any fun b => b ≤ 32 || b = 127 then none
    else if 35 ∈ rest then none
    else
      let (authority, pathAndQuery) :=
        match splitAt 47 rest with
        | some p => p
        | none =>
            match splitAt 63 rest with
            | some (a, query) => (a, 47 :: query)
            | none => (rest, [47])
      if 64 ∈ authority then none
      else if !validPercentEscapes pathAndQuery then none
      else
        match hostOf authority with
        | none => none
        | some host =>
            let host := toAsciiLowercase host
            if isI2pHost host then some ⟨host, authority, pathAndQuery⟩ else none

end TrackerUrl

namespace Metainfo

/-- Whether a URL announces to an I2P destination. -/
def isI2pTracker (url : Bytes) : Bool := (TrackerUrl.parse url).isSome

/-- The loop over the URLs of a tier: what is kept of it, what all tiers have kept, and what
was skipped. -/
def keepUrls : List Value → List Bytes × Nat × Nat → Except Error (List Bytes × Nat × Nat)
  | [], s => .ok s
  | url :: urls, (kept, total, skipped) => do
      let url ← require "announce URL is not a UTF-8 string" url.asStr
      if isI2pTracker url && total < MAX_TRACKERS then
        keepUrls urls (kept ++ [url], total + 1, skipped)
      else keepUrls urls (kept, total, skipped + 1)

/-- The loop over the tiers of an announce list. -/
def keepTiers : List Value → List (List Bytes) × Nat × Nat →
    Except Error (List (List Bytes) × Nat × Nat)
  | [], s => .ok s
  | tier :: rest, (tiers, total, skipped) => do
      let urls ← require "announce-list tier is not a list" tier.asList
      let (kept, total, skipped) ← keepUrls urls ([], total, skipped)
      keepTiers rest (if kept = [] then tiers else tiers ++ [kept], total, skipped)

/-- The announce URLs of a torrent file, and how many were skipped. -/
def parseTrackers (root : Value) : Except Error (List (List Bytes) × Nat) :=
  match root.get (ascii "announce-list") with
  | some list => do
      let list ← require "announce-list is not a list" list.asList
      let (tiers, _, skipped) ← keepTiers list ([], 0, 0)
      .ok (tiers, skipped)
  | none =>
      match root.get (ascii "announce") with
      | some url => do
          let url ← require "announce URL is not a UTF-8 string" url.asStr
          .ok (if isI2pTracker url then ([[url]], 0) else ([], 1))
      | none => .ok ([], 0)

/-! ## Files -/

/-- A size: an integer that is not negative. -/
def asSize (v : Value) : Option Nat := v.asInt.bind fun i => if 0 ≤ i then some i.toNat else none

/-- A path component usable under the data directory. -/
def checkComponent (s : Bytes) : Except Error Unit := do
  refuse (s = [] || s = ascii "." || s = ascii ".." || s.contains 47 || s.contains 92 ||
    s.contains 0) "unsafe path component"
  refuse (MAX_COMPONENT_BYTES < s.length) "path component longer than a filename can be"

/-- The components of a file's path. -/
def parsePath : List Value → Except Error (List Bytes)
  | [] => .ok []
  | part :: parts => do
      let s ← require "non-UTF-8 path component" part.asStr
      checkComponent s
      return s :: (← parsePath parts)

/-- One entry of the file list, and the total so far. -/
def parseFile (name : Bytes) (total : Nat) (file : Value) : Except Error (FileEntry × Nat) := do
  let length ← require "bad file length" ((file.get (ascii "length")).bind asSize)
  let raw ← require "bad file path" ((file.get (ascii "path")).bind (·.asList))
  refuse raw.isEmpty "bad file path"
  let parts ← parsePath raw
  let path := name :: parts
  refuse (MAX_PATH_BYTES < (path.map fun p => p.length + 1).sum)
    "file path longer than a path can be"
  refuse (18446744073709551616 ≤ total + length) "total length overflows"
  return (⟨path, length⟩, total + length)

/-- The loop over the file list. -/
def parseEntries (name : Bytes) : Nat → List Value → Except Error (List FileEntry × Nat)
  | total, [] => .ok ([], total)
  | total, file :: files => do
      let (entry, total) ← parseFile name total file
      let (entries, total) ← parseEntries name total files
      return (entry :: entries, total)

/-- The scan of neighbours in a sorted list of paths. -/
def scanPaths : List (List Bytes) → Except Error Unit
  | p :: q :: rest => do
      refuse (p = q) "two files share the same path, up to letter case"
      refuse (p.isPrefixOf q) "a file path is also a directory path"
      scanPaths (q :: rest)
  | _ => .ok ()

section

variable (sha1 toLowercase : Bytes → Bytes)

/-- Reject a file list whose paths collide on disk. -/
def checkDistinctPaths (entries : List FileEntry) : Except Error Unit :=
  let paths := entries.map fun e => e.path.map toLowercase
  scanPaths (paths.mergeSort fun p q => decide (p ≤ q))

/-- The files of a torrent and their total length. -/
def parseFiles (info : Value) (name : Bytes) : Except Error (List FileEntry × Nat) :=
  match info.get (ascii "length"), info.get (ascii "files") with
  | some _, some _ => .error (.invalid "both length and files present")
  | none, none => .error (.invalid "neither length nor files present")
  | some len, none => do
      let length ← require "bad file length" (asSize len)
      refuse (length = 0) "single-file torrent of zero bytes"
      return ([⟨[name], length⟩], length)
  | none, some files => do
      let list ← require "files is not a list" files.asList
      refuse list.isEmpty "files list is empty"
      refuse (MAX_FILES < list.length) "too many files"
      let (entries, total) ← parseEntries name 0 list
      refuse (total = 0) "torrent of zero total bytes"
      checkDistinctPaths toLowercase entries
      return (entries, total)

/-- A byte string in runs of twenty. -/
def hashes : Nat → Bytes → List Bytes
  | 0, _ => []
  | n + 1, bs => bs.take 20 :: hashes n (bs.drop 20)

/-- The fields of an info dictionary, and the bytes it was read from. -/
def parseInfo (root info : Value) (rawInfo : Bytes) : Except Error MetaInfo := do
  let name ← require "missing or non-UTF-8 name" ((info.get (ascii "name")).bind (·.asStr))
  checkComponent name
  let pieceLength ← require "missing piece length"
    ((info.get (ascii "piece length")).bind (·.asInt))
  refuse (pieceLength < MIN_PIECE_LENGTH || MAX_PIECE_LENGTH < pieceLength)
    "piece length out of accepted range"
  let pieceLength := pieceLength.toNat
  let pieces ← require "missing pieces" ((info.get (ascii "pieces")).bind (·.asBytes))
  refuse (pieces.isEmpty || pieces.length % 20 ≠ 0) "pieces is not a multiple of 20 bytes"
  let pieces := hashes (pieces.length / 20) pieces
  let (files, totalLength) ← parseFiles toLowercase info name
  let expectedPieces := (totalLength + (pieceLength - 1)) / pieceLength
  refuse (MAX_PIECES < expectedPieces) "more pieces than a bitfield message can carry"
  refuse (expectedPieces ≠ pieces.length) "piece count disagrees with total length"
  let (trackers, skippedTrackers) ← parseTrackers root
  return {
    infoHash := sha1 rawInfo
    name := name
    pieceLength := pieceLength
    pieces := pieces
    files := files
    totalLength := totalLength
    isPrivate := (info.get (ascii "private")).bind (·.asInt) = some 1
    trackers := trackers
    skippedTrackers := skippedTrackers
    rawInfo := rawInfo }

end

end Metainfo

namespace MetaInfo

open Metainfo (require refuse parseInfo)

variable (sha1 toLowercase : Bytes → Bytes)

/-- Parse and validate a torrent file. -/
def parse (input : Bytes) : Except Metainfo.Error MetaInfo := do
  let (root, span) ← (Bencode.decodeWithEntry input (ascii "info")).mapError .bencode
  let info ← require "missing info dictionary" (root.get (ascii "info"))
  refuse info.asDict.isNone "info is not a dictionary"
  let (start, stop) ← require "missing info dictionary" span
  parseInfo sha1 toLowercase root info ((input.take stop).drop start)

/-- Build a torrent from the bytes of an info dictionary. -/
def fromInfoDict (infoBytes : Bytes) : Except Metainfo.Error MetaInfo :=
  parse sha1 toLowercase (ascii "d4:info" ++ infoBytes ++ ascii "e")

/-! ## Identity -/

variable {sha1 toLowercase : Bytes → Bytes}

theorem not_of_refuse {bad : Bool} {what : String} {u : Unit}
    (h : Metainfo.refuse bad what = .ok u) : bad = false := by
  cases bad with
  | false => rfl
  | true => cases h

/-- What the fields of an info dictionary came through. -/
structure Parsed (sha1 toLowercase : Bytes → Bytes) (root info : Value) (raw : Bytes)
    (m : MetaInfo) : Prop where
  name : Metainfo.checkComponent m.name = .ok ()
  min_le : Metainfo.MIN_PIECE_LENGTH ≤ m.pieceLength
  le_max : m.pieceLength ≤ Metainfo.MAX_PIECE_LENGTH
  files : Metainfo.parseFiles toLowercase info m.name = .ok (m.files, m.totalLength)
  count : m.pieces.length = (m.totalLength + (m.pieceLength - 1)) / m.pieceLength
  few : m.pieces.length ≤ Metainfo.MAX_PIECES
  trackers : Metainfo.parseTrackers root = .ok (m.trackers, m.skippedTrackers)
  rawInfo : m.rawInfo = raw
  infoHash : m.infoHash = sha1 raw

theorem parsed_of_parseInfo {root info : Value} {raw : Bytes} {m : MetaInfo}
    (h : parseInfo sha1 toLowercase root info raw = .ok m) :
    Parsed sha1 toLowercase root info raw m := by
  unfold parseInfo at h
  obtain ⟨name, -, h⟩ := Except.ok_of_bind h
  obtain ⟨_, hname, h⟩ := Except.ok_of_bind h
  obtain ⟨pieceLength, -, h⟩ := Except.ok_of_bind h
  obtain ⟨_, hlength, h⟩ := Except.ok_of_bind h
  obtain ⟨pieces, -, h⟩ := Except.ok_of_bind h
  obtain ⟨-, -, h⟩ := Except.ok_of_bind h
  obtain ⟨⟨files, total⟩, hfiles, h⟩ := Except.ok_of_bind h
  obtain ⟨_, hmany, h⟩ := Except.ok_of_bind h
  obtain ⟨_, hcount, h⟩ := Except.ok_of_bind h
  obtain ⟨⟨trackers, skipped⟩, htrackers, h⟩ := Except.ok_of_bind h
  obtain rfl := Except.ok.inj h
  have hbounds := not_of_refuse hlength
  rw [Bool.or_eq_false_iff, decide_eq_false_iff_not, decide_eq_false_iff_not] at hbounds
  have hpieces := not_not.1 (of_decide_eq_false (not_of_refuse hcount))
  exact
    { name := hname
      min_le := by
        dsimp only
        omega
      le_max := by
        dsimp only
        omega
      files := hfiles
      count := hpieces.symm
      few := by
        dsimp only
        rw [← hpieces]
        exact Nat.le_of_not_lt (of_decide_eq_false (not_of_refuse hmany))
      trackers := htrackers
      rawInfo := rfl
      infoHash := rfl }

/-- A torrent is read from the entry of its file that its identity covers. -/
theorem parsed_of_parse {input : Bytes} {m : MetaInfo}
    (h : parse sha1 toLowercase input = .ok m) : ∃ root info start stop,
      Bencode.decodeWithEntry input (ascii "info") = .ok (root, some (start, stop)) ∧
      root.get (ascii "info") = some info ∧
      Parsed sha1 toLowercase root info ((input.take stop).drop start) m := by
  unfold parse at h
  obtain ⟨⟨root, span⟩, hdecode, h⟩ := Except.ok_of_bind h
  obtain ⟨info, hinfo, h⟩ := Except.ok_of_bind h
  obtain ⟨-, -, h⟩ := Except.ok_of_bind h
  obtain ⟨⟨start, stop⟩, hspan, h⟩ := Except.ok_of_bind h
  rw [Metainfo.of_require hspan] at hdecode
  exact ⟨root, info, start, stop, Except.ok_of_mapError hdecode, Metainfo.of_require hinfo,
    parsed_of_parseInfo h⟩

/-- A file's path begins with the name of the torrent. -/
def Rooted (name : Bytes) (files : List FileEntry) : Prop :=
  ∀ f ∈ files, ∃ rest, f.path = name :: rest

theorem rooted_of_parseEntries {name : Bytes} {l : List Value} {total total' : Nat}
    {files : List FileEntry}
    (h : Metainfo.parseEntries name total l = .ok (files, total')) : Rooted name files := by
  induction l generalizing total total' files with
  | nil =>
      obtain ⟨rfl, -⟩ := Prod.mk.inj (Except.ok.inj h)
      exact fun _ hf => absurd hf List.not_mem_nil
  | cons file l ih =>
      obtain ⟨⟨entry, sum⟩, hfile, h⟩ := Except.ok_of_bind h
      obtain ⟨⟨entries, sum'⟩, hrest, h⟩ := Except.ok_of_bind h
      obtain ⟨rfl, -⟩ := Prod.mk.inj (Except.ok.inj h)
      unfold Metainfo.parseFile at hfile
      obtain ⟨length, -, hfile⟩ := Except.ok_of_bind hfile
      obtain ⟨raw, -, hfile⟩ := Except.ok_of_bind hfile
      obtain ⟨-, -, hfile⟩ := Except.ok_of_bind hfile
      obtain ⟨parts, -, hfile⟩ := Except.ok_of_bind hfile
      obtain ⟨-, -, hfile⟩ := Except.ok_of_bind hfile
      obtain ⟨-, -, hfile⟩ := Except.ok_of_bind hfile
      obtain ⟨rfl, -⟩ := Prod.mk.inj (Except.ok.inj hfile)
      intro f hf
      cases List.mem_cons.1 hf with
      | inl heq => exact ⟨parts, heq ▸ rfl⟩
      | inr hf => exact ih hrest f hf

theorem rooted_of_parse {b : Bytes} {m : MetaInfo} (h : parse sha1 toLowercase b = .ok m) :
    Rooted m.name m.files := by
  obtain ⟨root, info, start, stop, -, -, hparsed⟩ := parsed_of_parse h
  have hfiles := hparsed.files
  unfold Metainfo.parseFiles at hfiles
  split at hfiles
  · cases hfiles
  · cases hfiles
  · obtain ⟨length, -, hfiles⟩ := Except.ok_of_bind hfiles
    obtain ⟨-, -, hfiles⟩ := Except.ok_of_bind hfiles
    rw [← (Prod.mk.inj (Except.ok.inj hfiles)).1]
    intro f hf
    exact ⟨[], by rw [List.mem_singleton.1 hf]⟩
  · obtain ⟨list, -, hfiles⟩ := Except.ok_of_bind hfiles
    obtain ⟨-, -, hfiles⟩ := Except.ok_of_bind hfiles
    obtain ⟨-, -, hfiles⟩ := Except.ok_of_bind hfiles
    obtain ⟨⟨entries, sum⟩, hentries, hfiles⟩ := Except.ok_of_bind hfiles
    obtain ⟨-, -, hfiles⟩ := Except.ok_of_bind hfiles
    obtain ⟨-, -, hfiles⟩ := Except.ok_of_bind hfiles
    rw [← (Prod.mk.inj (Except.ok.inj hfiles)).1]
    exact rooted_of_parseEntries hentries

/-! ## Geometry -/

/-- The lengths of a torrent fit together. -/
structure Geometry (m : MetaInfo) : Prop where
  total : (m.files.map (·.length)).sum = m.totalLength
  pos : 0 < m.totalLength
  min_le : Metainfo.MIN_PIECE_LENGTH ≤ m.pieceLength
  le_max : m.pieceLength ≤ Metainfo.MAX_PIECE_LENGTH
  count : m.pieces.length = (m.totalLength + (m.pieceLength - 1)) / m.pieceLength
  few : m.pieces.length ≤ Metainfo.MAX_PIECES

theorem total_of_parseEntries {name : Bytes} {l : List Value} {total total' : Nat}
    {files : List FileEntry}
    (h : Metainfo.parseEntries name total l = .ok (files, total')) :
    total + (files.map (·.length)).sum = total' := by
  induction l generalizing total total' files with
  | nil =>
      obtain ⟨rfl, rfl⟩ := Prod.mk.inj (Except.ok.inj h)
      rfl
  | cons file l ih =>
      obtain ⟨⟨entry, sum⟩, hfile, h⟩ := Except.ok_of_bind h
      obtain ⟨⟨entries, sum'⟩, hrest, h⟩ := Except.ok_of_bind h
      obtain ⟨rfl, rfl⟩ := Prod.mk.inj (Except.ok.inj h)
      have hsum : total + entry.length = sum := by
        unfold Metainfo.parseFile at hfile
        obtain ⟨length, -, hfile⟩ := Except.ok_of_bind hfile
        obtain ⟨raw, -, hfile⟩ := Except.ok_of_bind hfile
        obtain ⟨-, -, hfile⟩ := Except.ok_of_bind hfile
        obtain ⟨parts, -, hfile⟩ := Except.ok_of_bind hfile
        obtain ⟨-, -, hfile⟩ := Except.ok_of_bind hfile
        obtain ⟨-, -, hfile⟩ := Except.ok_of_bind hfile
        obtain ⟨rfl, rfl⟩ := Prod.mk.inj (Except.ok.inj hfile)
        rfl
      rw [List.map_cons, List.sum_cons, ← Nat.add_assoc, hsum, ih hrest]

theorem total_of_parseFiles {info : Value} {name : Bytes} {files : List FileEntry} {total : Nat}
    (h : Metainfo.parseFiles toLowercase info name = .ok (files, total)) :
    (files.map (·.length)).sum = total ∧ 0 < total := by
  unfold Metainfo.parseFiles at h
  split at h
  · cases h
  · cases h
  · obtain ⟨length, -, h⟩ := Except.ok_of_bind h
    obtain ⟨_, hzero, h⟩ := Except.ok_of_bind h
    obtain ⟨rfl, rfl⟩ := Prod.mk.inj (Except.ok.inj h)
    have hne := of_decide_eq_false (not_of_refuse hzero)
    exact ⟨by simp, Nat.pos_of_ne_zero hne⟩
  · obtain ⟨list, -, h⟩ := Except.ok_of_bind h
    obtain ⟨-, -, h⟩ := Except.ok_of_bind h
    obtain ⟨-, -, h⟩ := Except.ok_of_bind h
    obtain ⟨⟨entries, sum⟩, hentries, h⟩ := Except.ok_of_bind h
    obtain ⟨_, hzero, h⟩ := Except.ok_of_bind h
    obtain ⟨-, -, h⟩ := Except.ok_of_bind h
    obtain ⟨rfl, rfl⟩ := Prod.mk.inj (Except.ok.inj h)
    have hne := of_decide_eq_false (not_of_refuse hzero)
    exact ⟨by rw [← total_of_parseEntries hentries, Nat.zero_add], Nat.pos_of_ne_zero hne⟩

theorem geometry_of_parse {b : Bytes} {m : MetaInfo} (h : parse sha1 toLowercase b = .ok m) :
    m.Geometry := by
  obtain ⟨root, info, start, stop, -, -, hparsed⟩ := parsed_of_parse h
  obtain ⟨htotal, hpos⟩ := total_of_parseFiles hparsed.files
  exact ⟨htotal, hpos, hparsed.min_le, hparsed.le_max, hparsed.count, hparsed.few⟩

/-- The wrapper reads the bytes as one entry, and whatever follows it as more. -/
theorem derives_wrapped {b : Bytes} {root : Value}
    (h : Bencode.Derives Bencode.MAX_DEPTH (ascii "d4:info" ++ b ++ ascii "e") root) :
    ∃ (x : Bytes) (v : Value) (rest : List (Bytes × Bytes × Value)),
      b = x ++ Bencode.entriesText rest ∧
      (∀ p ∈ (ascii "info", x, v) :: rest, Bencode.inUsize p.1.length = true) ∧
      (∀ p ∈ (ascii "info", x, v) :: rest, Bencode.Derives (Bencode.MAX_DEPTH - 1) p.2.1 p.2.2) ∧
      (((ascii "info", x, v) :: rest).map Prod.fst).Nodup := by
  have hwrap : ascii "d4:info" ++ b ++ ascii "e" = 100 :: (Bencode.putBytes (ascii "info") ++ b ++ [101]) :=
    rfl
  generalize ascii "d4:info" ++ b ++ ascii "e" = w at h hwrap
  cases h with
  | @bytes _ s _ =>
      obtain ⟨c, r, hcr, -, hdigit⟩ := Bencode.opens_putBytes s []
      rw [List.append_nil, hwrap] at hcr
      obtain rfl : 100 = c := (List.cons.inj hcr).1
      cases hdigit
  | int _ => exact absurd (List.cons.inj hwrap).1 (by decide)
  | list _ => exact absurd (List.cons.inj hwrap).1 (by decide)
  | @dict _ xs hkeys hxs hnodup =>
      have htext : Bencode.entriesText xs ++ [101] =
          Bencode.putBytes (ascii "info") ++ b ++ [101] := (List.cons.inj hwrap).2
      have htext := List.append_cancel_right htext
      cases xs with
      | nil => cases htext
      | cons p rest =>
          obtain ⟨k, x, v⟩ := p
          have hhead : Bencode.putBytes k ++ (x ++ Bencode.entriesText rest) =
              Bencode.putBytes (ascii "info") ++ b := by
            rw [← htext]
            simp [Bencode.entriesText]
          have hk : Bencode.Derives 1 (Bencode.putBytes k) (.bytes k) :=
            .bytes (hkeys _ List.mem_cons_self)
          have hinfo : Bencode.Derives 1 (Bencode.putBytes (ascii "info")) (.bytes (ascii "info")) :=
            .bytes rfl
          obtain ⟨-, hkey, hb⟩ := hk.append_inj hinfo hhead
          obtain rfl : k = ascii "info" := by simpa using hkey
          exact ⟨x, v, rest, hb.symm, hkeys, hxs, hnodup⟩

/-- What is parsed from wrapped bytes is their first value. -/
theorem fromInfoDict_ok {b : Bytes} {m : MetaInfo}
    (h : fromInfoDict sha1 toLowercase b = .ok m) :
    ∃ (v : Value) (rest : List (Bytes × Bytes × Value)),
      b = m.rawInfo ++ Bencode.entriesText rest ∧
      Bencode.Derives (Bencode.MAX_DEPTH - 1) m.rawInfo v ∧ m.infoHash = sha1 m.rawInfo ∧
      (rest = [] → m.trackers = []) := by
  obtain ⟨root, info, start, stop, hdecode, -, hparsed⟩ := parsed_of_parse h
  obtain ⟨x, v, rest, rfl, hkeys, hxs, hnodup⟩ :=
    derives_wrapped (Bencode.derives_of_decodeWithEntry hdecode)
  have hwrap : ascii "d4:info" ++ (x ++ Bencode.entriesText rest) ++ ascii "e" =
      100 :: (Bencode.entriesText ((ascii "info", x, v) :: rest) ++ [101]) := by
    have hcons : Bencode.entriesText ((ascii "info", x, v) :: rest) =
        Bencode.putBytes (ascii "info") ++ x ++ Bencode.entriesText rest := rfl
    rw [hcons, List.append_assoc (Bencode.putBytes _)]
    rfl
  have hnew : ascii "info" ∉ rest.map Prod.fst := (List.nodup_cons.1 hnodup).1
  have hspan : Bencode.entrySpan (some (ascii "info")) 1 ((ascii "info", x, v) :: rest) none =
      some (7, 7 + x.length) := Bencode.entrySpan_of_notMem hnew _ _
  have hfound := Bencode.decodeWithEntry_dict hkeys hxs hnodup (ascii "info")
  rw [← hwrap, hdecode, hspan] at hfound
  obtain ⟨rfl, hrange⟩ := Prod.mk.inj (Except.ok.inj hfound)
  obtain ⟨rfl, rfl⟩ := Prod.mk.inj (Option.some.inj hrange)
  have hraw : ((ascii "d4:info" ++ (x ++ Bencode.entriesText rest) ++ ascii "e").take
      (7 + x.length)).drop 7 = x := by
    have hseven : (ascii "d4:info").length = 7 := rfl
    rw [List.append_assoc, List.append_assoc, ← hseven, List.take_length_add_append,
      List.drop_left, List.take_left]
  rw [hraw] at hparsed
  obtain rfl := hparsed.rawInfo
  refine ⟨v, rest, rfl, hxs _ List.mem_cons_self, hparsed.infoHash, ?_⟩
  rintro rfl
  have hnone : Metainfo.parseTrackers (.dict (OrdMap.ofEntries [(ascii "info", v)])) =
      .ok ([], 0) := rfl
  exact (Prod.mk.inj (Except.ok.inj (hparsed.trackers.symm.trans hnone))).1

/-- It is the torrent of the first value. -/
theorem firstValue_of_fromInfoDict {b : Bytes} {m : MetaInfo}
    (h : fromInfoDict sha1 toLowercase b = .ok m) :
    ∃ v n, Bencode.decodePrefix b = .ok (v, n) ∧ m.rawInfo = b.take n ∧
      m.infoHash = sha1 (b.take n) := by
  obtain ⟨v, rest, hb, hderives, hhash, -⟩ := fromInfoDict_ok h
  have hraw : b.take m.rawInfo.length = m.rawInfo := by rw [hb, List.take_left]
  refine ⟨v, m.rawInfo.length, ?_, hraw.symm, by rw [hraw, hhash]⟩
  rw [hb]
  exact Bencode.decodePrefix_of_derives (hderives.mono (by decide)) _

/-- The bytes are kept exactly when they are one value. -/
theorem rawInfo_eq_iff {b : Bytes} {m : MetaInfo} (h : fromInfoDict sha1 toLowercase b = .ok m) :
    m.rawInfo = b ↔ ∃ v, Bencode.decode b = .ok v := by
  obtain ⟨v, rest, hb, hderives, -, -⟩ := fromInfoDict_ok h
  have hderives : Bencode.Derives Bencode.MAX_DEPTH m.rawInfo v := hderives.mono (by decide)
  constructor
  · rintro rfl
    exact ⟨v, Bencode.decode_eq_ok_iff.2 hderives⟩
  · rintro ⟨w, hw⟩
    have happend : m.rawInfo ++ Bencode.entriesText rest = b ++ [] := by
      rw [List.append_nil, hb]
    exact (hderives.append_inj (Bencode.decode_eq_ok_iff.1 hw) happend).1

/-- Bytes that are one value keep their identity. -/
theorem identity_of_decode {b : Bytes} {m : MetaInfo} {v : Value}
    (h : fromInfoDict sha1 toLowercase b = .ok m) (hdecode : Bencode.decode b = .ok v) :
    m.rawInfo = b ∧ m.infoHash = sha1 b ∧ m.trackers = [] := by
  have hraw : m.rawInfo = b := (rawInfo_eq_iff h).2 ⟨v, hdecode⟩
  obtain ⟨-, rest, hb, -, hhash, htrackers⟩ := fromInfoDict_ok h
  refine ⟨hraw, hraw ▸ hhash, htrackers ?_⟩
  have hempty : Bencode.entriesText rest = [] := by
    rw [hraw] at hb
    exact List.self_eq_append_right.1 hb
  cases rest with
  | nil => rfl
  | cons p rest =>
      obtain ⟨c, r, hcr, -, -⟩ := Bencode.opens_putBytes p.1 (p.2.1 ++ Bencode.entriesText rest)
      rw [Bencode.entriesText, List.flatMap_cons, List.append_assoc] at hempty
      exact absurd (hcr.symm.trans hempty) (by simp)

/-- One file's part of `piecePriorities`: where it starts, and what the pieces are worth so
far. -/
def raise (pieceLength : Nat) (perFile : Bytes) (s : Nat × List Nat) (f : Nat × Nat) :
    Nat × List Nat :=
  let priority := (perFile.getD f.1 1).toNat
  let stop := s.1 + f.2
  if priority = 0 ∨ f.2 = 0 then (stop, s.2)
  else
    let first := s.1 / pieceLength
    let last := (stop - 1) / pieceLength
    (stop, s.2.mapIdx fun i p => if first ≤ i ∧ i ≤ last then max p priority else p)

/-- What each piece is worth: the highest priority among the files it overlaps.  `lengths` are
those of the files, in order. -/
def piecePriorities (numPieces pieceLength : Nat) (lengths : List Nat) (perFile : Bytes) :
    List Nat :=
  if pieceLength = 0 then List.replicate numPieces 0
  else ((lengths.zipIdx.map fun f => (f.2, f.1)).foldl (raise pieceLength perFile)
    (0, List.replicate numPieces 0)).2

end MetaInfo

end Clove
