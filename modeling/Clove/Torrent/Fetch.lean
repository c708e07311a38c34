import Clove.Assembler
import Clove.Lib.Machine
import Clove.MetainfoChecks
import Clove.Torrent.State

/-!
# Fetching metadata

The model of `fetch_metadata` (`torrent.rs`), which gets a torrent's info dictionary from one
peer.  The client is a machine that waits for the next thing to read: the peer's handshake, its
extension handshake, or a frame while it puts the dictionary together.  `Client.turn` is one pass
of the loop it is in, over the bytes the stream holds.

The peer is anybody: a `Meeting` is a run of the client in which the peer sends what it likes,
and calls may fail or come late.  What is fetched has the hash that was asked for as bytes.  The
torrent made of them has that hash if they are one bencoded value (`identity_kept_iff`); made of
more, it is the torrent of the first value (`lenient_identity`).
-/

namespace Clove.Torrent

open Wire (Message)
open Metadata (MetadataMessage MetadataAssembler)
open Utf8 (ascii)

/-- The frame ceiling of a fetch. -/
def METADATA_FRAME : Nat := 16 * 1024 + 256

/-- Frames a peer may spend before its extension handshake. -/
def METADATA_GREETING_FRAMES : Nat := 64

/-- Frames of slack per metadata piece. -/
def METADATA_FRAME_SLACK : Nat := 8

/-- Why a fetch failed. -/
inductive FetchError where
  /-- A read or write failed. -/
  | io
  /-- The peer's handshake is none. -/
  | handshake
  | invalid (what : String)
deriving DecidableEq

/-- What a fetch waits for. -/
inductive Client where
  /-- The peer's handshake. -/
  | shaking
  /-- Its extension handshake, for so many more frames. -/
  | greeting (frames : Nat)
  /-- Metadata, for so many more frames. -/
  | fetching (frames : Nat) (asm : MetadataAssembler)
  | done (result : Except FetchError MetaInfo)
deriving DecidableEq

/-- A client, what it has not read yet of the stream, and what it wrote. -/
structure Pass where
  client : Client
  input : Bytes
  written : Bytes

section

variable (sha1 toLowercase : Bytes → Bytes) (infoHash peerId : Bytes)

namespace Client

/-- Our side of the handshake. -/
def ourHandshake : Wire.Handshake :=
  { infoHash := infoHash
    peerId := peerId
    extensions := { extended := true, fast := false } }

/-- Our extension handshake. -/
def ourExtensionHandshake : Message :=
  .extended 0 (Extension.Handshake.encode
    { ids := [(Extension.UT_METADATA, OUR_METADATA_ID)]
      metadataSize := none
      client := some Extension.USER_AGENT })

/-- A failure. -/
def fail (what : String) : Client := .done (.error (.invalid what))

/-- The requests for all the pieces. -/
def requests (metadataId : UInt8) (numPieces : Nat) : List Message :=
  (List.range numPieces).map fun piece =>
    .extended metadataId (MetadataMessage.encode (.request piece))

/-- The head of the loop: it is left once the assembler is complete. -/
def settle (frames : Nat) (asm : MetadataAssembler) : Client :=
  if asm.isComplete then
    match asm.finish sha1 infoHash with
    | none => fail "metadata failed info-hash verification"
    | some bytes =>
        match MetaInfo.fromInfoDict sha1 toLowercase bytes with
        | .error _ => fail "fetched metadata is not a valid info dict"
        | .ok m => .done (.ok m)
  else .fetching frames asm

/-- The peer's handshake has been read. -/
def shake (buf : Bytes) : Client × List Message :=
  match Wire.Handshake.parse buf with
  | none => (.done (.error .handshake), [])
  | some theirs =>
      if theirs.infoHash ≠ infoHash then (fail "peer handshaked a different torrent", [])
      else if !theirs.extensions.extended then
        (fail "peer does not speak the extension protocol", [])
      else (.greeting METADATA_GREETING_FRAMES, [ourExtensionHandshake])

/-- A frame has been read by `await_extension_handshake`. -/
def greet (frames : Nat) (body : Bytes) : Client × List Message :=
  match Message.parse body with
  | .ok (.extended 0 payload) =>
      match Extension.Handshake.parse payload with
      | .error _ => (fail "bad ext handshake", [])
      | .ok hs =>
          match hs.idFor Extension.UT_METADATA, hs.metadataSize with
          | some metadataId, some size =>
              match MetadataAssembler.new size with
              | .error _ => (fail "bad metadata size", [])
              | .ok asm =>
                  let frames := min (min (asm.numPieces * METADATA_FRAME_SLACK) U32_MAX + 32) U32_MAX
                  (settle sha1 toLowercase infoHash frames asm,
                    requests metadataId asm.numPieces)
          | _, _ => (fail "peer does not serve metadata", [])
  | _ => (.greeting frames, [])

/-- A frame has been read while metadata is fetched. -/
def collect (frames : Nat) (asm : MetadataAssembler) (body : Bytes) : Client :=
  match Message.parse body with
  | .ok (.extended id payload) =>
      if id ≠ OUR_METADATA_ID then settle sha1 toLowercase infoHash frames asm
      else
        match MetadataMessage.parse payload with
        | .ok (.data piece _ data) =>
            match asm.addPiece piece data with
            | .ok asm => settle sha1 toLowercase infoHash frames asm
            | .error _ => settle sha1 toLowercase infoHash frames asm
        | .ok (.reject _) => fail "peer rejected a metadata piece"
        | _ => settle sha1 toLowercase infoHash frames asm
  | _ => settle sha1 toLowercase infoHash frames asm

/-- Write some messages, unless the stream fails. -/
def write (writes : Bool) (r : Client × List Message) (input : Bytes) : Pass :=
  if writes || r.2.isEmpty then ⟨r.1, input, r.2.flatMap Message.encode⟩
  else ⟨.done (.error .io), input, []⟩

/-- One pass of the loop the client is in, over what the stream holds.  It stays as it is while
what it reads is not all there.  `late` says the deadline has passed, `writes` that the stream
takes what is written. -/
def turn (late writes : Bool) (input : Bytes) : Client → Pass
  | .shaking =>
      if input.length < Wire.HANDSHAKE_LEN then ⟨.shaking, input, []⟩
      else write writes (shake infoHash (input.take Wire.HANDSHAKE_LEN))
        (input.drop Wire.HANDSHAKE_LEN)
  | .greeting frames =>
      if frames = 0 then ⟨fail "peer sent frame after frame without handshaking", input, []⟩
      else if late then ⟨fail "peer did not finish its handshake in time", input, []⟩
      else
        match Wire.readFrame METADATA_FRAME input with
        | .error .eof => ⟨.greeting frames, input, []⟩
        | .error .oversized => ⟨.done (.error .io), input, []⟩
        | .ok (body, input) =>
            write writes (greet sha1 toLowercase infoHash (frames - 1) body) input
  | .fetching frames asm =>
      if frames = 0 then
        ⟨fail "peer sent frame after frame without completing the metadata", input, []⟩
      else if late then ⟨fail "peer did not finish serving the metadata in time", input, []⟩
      else
        match Wire.readFrame METADATA_FRAME input with
        | .error .eof => ⟨.fetching frames asm, input, []⟩
        | .error .oversized => ⟨.done (.error .io), input, []⟩
        | .ok (body, input) => ⟨collect sha1 toLowercase infoHash (frames - 1) asm body, input, []⟩
  | .done result => ⟨.done result, input, []⟩

end Client

/-! ## Any peer -/

/-- What happens to a fetch. -/
inductive Encounter where
  /-- The peer sends some bytes. -/
  | sends (bytes : Bytes)
  | turn (late writes : Bool)
  /-- The stream ends, or a read times out. -/
  | cut

/-- A fetch from some peer. -/
structure Meeting where
  client : Client
  input : Bytes

namespace Meeting

/-- Our handshake is written, if the stream takes it. -/
def start (writes : Bool) : Meeting := ⟨if writes then .shaking else .done (.error .io), []⟩

def step : Encounter → Meeting → Meeting
  | .sends bytes, m => { m with input := m.input ++ bytes }
  | .turn late writes, m =>
      let t := m.client.turn sha1 toLowercase infoHash late writes m.input
      ⟨t.client, t.input⟩
  | .cut, m =>
      match m.client with
      | .done _ => m
      | _ => { m with client := .done (.error .io) }

/-- What the client is after a fetch. -/
def run (encounters : List Encounter) (writes : Bool) : Meeting :=
  Machine.run (step sha1 toLowercase infoHash) encounters (start writes)

end Meeting

end

/-! ## What is fetched -/

variable {sha1 toLowercase : Bytes → Bytes} {infoHash : Bytes}

/-- The client has not made a torrent, or made it of bytes that have the hash. -/
def Client.Honest (sha1 toLowercase : Bytes → Bytes) (infoHash : Bytes) (c : Client) : Prop :=
  ∀ m, c = .done (.ok m) →
    ∃ b, sha1 b = infoHash ∧ MetaInfo.fromInfoDict sha1 toLowercase b = .ok m

namespace Client

theorem honest_fail (what : String) : (fail what).Honest sha1 toLowercase infoHash := nofun

theorem honest_error (e : FetchError) : (done (.error e)).Honest sha1 toLowercase infoHash := nofun

theorem honest_settle (frames : Nat) (asm : MetadataAssembler) :
    (settle sha1 toLowercase infoHash frames asm).Honest sha1 toLowercase infoHash := by
  intro m hm
  unfold settle at hm
  split at hm
  · split at hm
    · cases hm
    · rename_i bytes hbytes
      split at hm
      · cases hm
      · rename_i m' hparse
        cases hm
        exact ⟨bytes, MetadataAssembler.sha1_of_finish hbytes, hparse⟩
  · cases hm

theorem honest_greet (frames : Nat) (body : Bytes) :
    (greet sha1 toLowercase infoHash frames body).1.Honest sha1 toLowercase infoHash := by
  unfold greet
  split
  · split
    · exact honest_fail _
    · split
      · split
        · exact honest_fail _
        · exact honest_settle _ _
      · exact honest_fail _
  · exact nofun

theorem honest_collect (frames : Nat) (asm : MetadataAssembler) (body : Bytes) :
    (collect sha1 toLowercase infoHash frames asm body).Honest sha1 toLowercase infoHash := by
  unfold collect
  split
  · split
    · exact honest_settle _ _
    · split
      · split <;> exact honest_settle _ _
      · exact honest_fail _
      · exact honest_settle _ _
  · exact honest_settle _ _

theorem honest_write {writes : Bool} {r : Client × List Message} {input : Bytes}
    (h : r.1.Honest sha1 toLowercase infoHash) :
    (write writes r input).client.Honest sha1 toLowercase infoHash := by
  unfold write
  split
  · exact h
  · exact honest_error _

theorem honest_shake (buf : Bytes) : (shake infoHash buf).1.Honest sha1 toLowercase infoHash := by
  unfold shake
  split
  · exact honest_error _
  · split
    · exact honest_fail _
    · split
      · exact honest_fail _
      · exact nofun

/-- A pass of the loop makes a torrent only of bytes that have the hash. -/
theorem Honest.turn {c : Client} (h : c.Honest sha1 toLowercase infoHash) (late writes : Bool)
    (input : Bytes) :
    (c.turn sha1 toLowercase infoHash late writes input).client.Honest sha1 toLowercase
      infoHash := by
  cases c with
  | shaking =>
      simp only [Client.turn]
      split
      · exact h
      · exact honest_write (honest_shake _)
  | greeting frames =>
      simp only [Client.turn]
      split
      · exact honest_fail _
      · split
        · exact honest_fail _
        · split
          · exact h
          · exact honest_error _
          · exact honest_write (honest_greet _ _)
  | fetching frames asm =>
      simp only [Client.turn]
      split
      · exact honest_fail _
      · split
        · exact honest_fail _
        · split
          · exact h
          · exact honest_error _
          · exact honest_collect _ _ _
  | done result => exact h

end Client

theorem honest_run (encounters : List Encounter) (writes : Bool) :
    (Meeting.run sha1 toLowercase infoHash encounters writes).client.Honest sha1 toLowercase
      infoHash := by
  have hstep : ∀ (ev : Encounter) (m : Meeting), m.client.Honest sha1 toLowercase infoHash →
      (Meeting.step sha1 toLowercase infoHash ev m).client.Honest sha1 toLowercase infoHash := by
    intro ev m h
    cases ev with
    | sends bytes => exact h
    | turn late writes => exact h.turn late writes m.input
    | cut =>
        simp only [Meeting.step]
        split
        · exact h
        · exact Client.honest_error _
  refine Machine.run_induction hstep encounters ?_
  cases writes <;> exact nofun

/-- What is made of the bytes of an info dictionary is the torrent of those bytes exactly if they
are one value.  What is fetched from any peer is made of bytes that have the hash asked for, and
has it itself exactly if the first value in those bytes does. -/
theorem identity_kept_iff (sha1 toLowercase : Bytes → Bytes) (infoHash : Bytes) :
    (∀ b m, MetaInfo.fromInfoDict sha1 toLowercase b = .ok m →
      ((m.rawInfo = b ∧ m.infoHash = sha1 b ∧ m.trackers = []) ↔ ∃ v, Bencode.decode b = .ok v)) ∧
    ∀ encounters writes m,
      (Meeting.run sha1 toLowercase infoHash encounters writes).client = .done (.ok m) →
        ∃ b, sha1 b = infoHash ∧ MetaInfo.fromInfoDict sha1 toLowercase b = .ok m ∧
          ((∃ v, Bencode.decode b = .ok v) → m.infoHash = infoHash) ∧
          (m.infoHash = infoHash ↔
            ∃ v n, Bencode.decodePrefix b = .ok (v, n) ∧ sha1 (b.take n) = infoHash) := by
  refine ⟨fun b m h => ⟨fun hkept => (MetaInfo.rawInfo_eq_iff h).1 hkept.1, ?_⟩, ?_⟩
  · rintro ⟨v, hdecode⟩
    exact MetaInfo.identity_of_decode h hdecode
  · intro encounters writes m hdone
    obtain ⟨b, hhash, hparse⟩ := honest_run encounters writes m hdone
    refine ⟨b, hhash, hparse, ?_, ?_⟩
    · rintro ⟨v, hdecode⟩
      exact (MetaInfo.identity_of_decode hparse hdecode).2.1.trans hhash
    · obtain ⟨v, n, hread, -, hfirst⟩ := MetaInfo.firstValue_of_fromInfoDict hparse
      constructor
      · intro hsame
        exact ⟨v, n, hread, hfirst.symm.trans hsame⟩
      · rintro ⟨v', n', hread', hsame⟩
        obtain ⟨rfl, rfl⟩ := Prod.mk.inj (Except.ok.inj (hread.symm.trans hread'))
        exact hfirst.trans hsame

namespace Lenient

/-- The info dictionary of a file of five bytes. -/
def info : Bytes :=
  ascii "d6:lengthi5e4:name4:demo12:piece lengthi16384e6:pieces20:" ++ List.replicate 20 7 ++
    ascii "e"

/-- An announce URL after it. -/
def bytes : Bytes := info ++ ascii "8:announce14:http://t.i2p/a"

/-- The hash of both. -/
def wanted : Bytes :=
  [38, 64, 125, 216, 230, 124, 208, 165, 149, 115, 11, 218, 102, 165, 238, 118, 123, 103, 161, 84]

def digests (bs : Bytes) : Bytes :=
  if bs = bytes then wanted
  else if bs = info then
    [241, 87, 201, 203, 190, 103, 26, 125, 30, 106, 22, 174, 115, 116, 107, 148, 146, 61, 250, 32]
  else []

/-- What the bytes are parsed to. -/
def parsed : MetaInfo where
  infoHash := digests info
  name := ascii "demo"
  pieceLength := 16384
  pieces := [List.replicate 20 7]
  files := [⟨[ascii "demo"], 5⟩]
  totalLength := 5
  isPrivate := false
  trackers := [[ascii "http://t.i2p/a"]]
  skippedTrackers := 0
  rawInfo := info

/-- A peer that has the torrent of that hash. -/
def peer : Bytes :=
  (Client.ourHandshake wanted (List.replicate 20 7)).encode ++
    (Message.extended 0 (Extension.Handshake.encode
      ⟨[(Extension.UT_METADATA, 3)], some bytes.length, none⟩)).encode ++
    (Message.extended OUR_METADATA_ID (MetadataMessage.encode
      (.data 0 bytes.length bytes))).encode

end Lenient

/-- What is parsed need not be what was hashed: the bytes make a torrent of another hash that has a
tracker, and the fetch that asked for them gives it. -/
theorem lenient_identity :
    ∃ m, MetaInfo.fromInfoDict Lenient.digests id Lenient.bytes = .ok m ∧
      m.rawInfo ≠ Lenient.bytes ∧ m.infoHash ≠ Lenient.digests Lenient.bytes ∧ m.trackers ≠ [] ∧
      (Meeting.run Lenient.digests id Lenient.wanted
        [.sends Lenient.peer, .turn false true, .turn false true, .turn false true] true).client =
          .done (.ok m) := by
  have hparse : MetaInfo.fromInfoDict Lenient.digests id Lenient.bytes = .ok Lenient.parsed := by
    decide +kernel
  exact ⟨_, hparse, by decide +kernel, by decide +kernel, by decide +kernel, by decide +kernel⟩

end Clove.Torrent
