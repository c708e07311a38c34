import Clove.Lib.Utf8
import Clove.Wire

/-!
# Extension messages

The model of `extension.rs`, `pex.rs` and the codec of `metadata.rs`: the payloads of BEP 10
extended messages.  Texts are kept as their UTF-8 bytes, and a map from names is an
`OrdMap`.
-/

namespace Clove

open Bencode (Value)

namespace Extension

/-- The text `i2p_pex`. -/
def I2P_PEX : Bytes := [105, 50, 112, 95, 112, 101, 120]

/-- The text `ut_metadata`. -/
def UT_METADATA : Bytes := [117, 116, 95, 109, 101, 116, 97, 100, 97, 116, 97]

/-- The text `clove/2026.08`. -/
def USER_AGENT : Bytes := [99, 108, 111, 118, 101, 47, 50, 48, 50, 54, 46, 48, 56]

/-- The text `metadata_size`. -/
def METADATA_SIZE_KEY : Bytes := [109, 101, 116, 97, 100, 97, 116, 97, 95, 115, 105, 122, 101]

/-- An extension handshake. -/
structure Handshake where
  /-- Extension name to the message id the sender listens on for it. -/
  ids : List (Bytes × UInt8)
  /-- Total size of the info dictionary, if the sender can serve it. -/
  metadataSize : Option Nat
  /-- The sender's client name, if it gave one. -/
  client : Option Bytes
deriving Repr, DecidableEq

/-- An extension handshake that could not be parsed. -/
inductive Error where
  | malformed
deriving Repr, DecidableEq

namespace Handshake

/-- The id the peer listens on for extension `name`. -/
def idFor (h : Handshake) (name : Bytes) : Option UInt8 := h.ids.lookup name

/-- `i64::try_from(n).unwrap_or(i64::MAX)`. -/
def clampI64 (n : Nat) : Int := min (n : Int) 9223372036854775807

/-- The payload of the handshake. -/
def encode (h : Handshake) : Bytes :=
  let m := OrdMap.ofEntries (h.ids.map fun e => (e.1, Value.int e.2.toNat))
  let root := [([109], Value.dict m)]
    ++ (h.metadataSize.map fun n => (METADATA_SIZE_KEY, Value.int (clampI64 n))).toList
    ++ (h.client.map fun c => ([118], Value.bytes c)).toList
  Bencode.encode (.dict (OrdMap.ofEntries root))

/-- The ids of an `m` dictionary.  Zero means the extension is off. -/
def parseIds : List (Bytes × Value) → List (Bytes × UInt8) → Except Error (List (Bytes × UInt8))
  | [], ids => .ok ids
  | (name, value) :: m, ids =>
      match value.asInt with
      | none => .error .malformed
      | some id =>
          if id = 0 then parseIds m ids
          else if id < 0 ∨ 255 < id then .error .malformed
          else if Utf8.valid name then
            parseIds m (OrdMap.insert name (UInt8.ofNat id.toNat) ids)
          else .error .malformed

/-- Parse the payload of a handshake.  A missing `m` is no extensions. -/
def parse (payload : Bytes) : Except Error Handshake := do
  let root ← (Bencode.decode payload).mapError fun _ => Error.malformed
  let ids ←
    match root.get [109] with
    | some (.dict m) => parseIds m []
    | _ => .ok []
  let metadataSize := ((root.get METADATA_SIZE_KEY).bind Value.asInt).bind fun n =>
    if 0 ≤ n then some n.toNat else none
  let client := ((root.get [118]).bind Value.asBytes).bind fun b =>
    if Utf8.valid b then some b else none
  .ok ⟨ids, metadataSize, client⟩

end Handshake

end Extension

/-- A peer's destination hash. -/
structure DestHash where
  bytes : Bytes
  length_bytes : bytes.length = 32
deriving DecidableEq

namespace Pex

/-- Largest number of peers accepted in one message. -/
def MAX_PEX_PEERS : Nat := 512

/-- The text `added`. -/
def ADDED : Bytes := [97, 100, 100, 101, 100]

/-- The text `dropped`. -/
def DROPPED : Bytes := [100, 114, 111, 112, 112, 101, 100]

/-- An `i2p_pex` message. -/
structure PexMessage where
  added : List DestHash
  dropped : List DestHash
deriving DecidableEq

/-- Why an `i2p_pex` message was rejected. -/
inductive Error where
  | malformed
  | tooManyPeers
deriving Repr, DecidableEq

def pack (peers : List DestHash) : Bytes := peers.flatMap DestHash.bytes

/-- Cut a byte string into hashes; nothing if it is misaligned. -/
def chunks : Nat → Bytes → Option (List DestHash)
  | _, [] => some []
  | 0, _ :: _ => none
  | fuel + 1, bytes =>
      if h : (bytes.take 32).length = 32 then
        (chunks fuel (bytes.drop 32)).map (⟨bytes.take 32, h⟩ :: ·)
      else none

/-- Decode a field of concatenated hashes.  An absent field is empty. -/
def unpack : Option Value → Except Error (List DestHash)
  | none => .ok []
  | some (.bytes b) =>
      match chunks b.length b with
      | some peers => .ok peers
      | none => .error .malformed
  | some _ => .error .malformed

namespace PexMessage

def isEmpty (m : PexMessage) : Bool := m.added.isEmpty && m.dropped.isEmpty

def encode (m : PexMessage) : Bytes :=
  Bencode.encode (.dict (OrdMap.ofEntries
    [(ADDED, .bytes (pack m.added)), (DROPPED, .bytes (pack m.dropped))]))

def parse (payload : Bytes) : Except Error PexMessage := do
  let root ← (Bencode.decode payload).mapError fun _ => Error.malformed
  let added ← unpack (root.get ADDED)
  let dropped ← unpack (root.get DROPPED)
  if added.length + dropped.length > MAX_PEX_PEERS then .error .tooManyPeers
  else .ok ⟨added, dropped⟩

end PexMessage

end Pex

namespace Metadata

/-- Metadata piece size. -/
def METADATA_PIECE_LEN : Nat := 16384

/-- Largest info dictionary that is fetched. -/
def MAX_METADATA_SIZE : Nat := 8388608

/-- The text `msg_type`. -/
def MSG_TYPE : Bytes := [109, 115, 103, 95, 116, 121, 112, 101]

/-- The text `piece`. -/
def PIECE : Bytes := [112, 105, 101, 99, 101]

/-- The text `total_size`. -/
def TOTAL_SIZE : Bytes := [116, 111, 116, 97, 108, 95, 115, 105, 122, 101]

/-- A `ut_metadata` message. -/
inductive MetadataMessage where
  | request (piece : Nat)
  | data (piece totalSize : Nat) (data : Bytes)
  | reject (piece : Nat)
deriving Repr, DecidableEq

/-- Why a metadata message or assembly step failed. -/
inductive Error where
  | malformed
  | pieceTooLarge
  | badSize
  | badPiece
deriving Repr, DecidableEq

namespace MetadataMessage

/-- The bencoded header of a message. -/
def header : MetadataMessage → List (Bytes × Value)
  | .request piece => [(MSG_TYPE, .int 0), (PIECE, .int piece)]
  | .reject piece => [(MSG_TYPE, .int 2), (PIECE, .int piece)]
  | .data piece totalSize _ =>
      [(MSG_TYPE, .int 1), (PIECE, .int piece), (TOTAL_SIZE, .int totalSize)]

/-- The raw bytes after the header. -/
def trailer : MetadataMessage → Bytes
  | .data _ _ raw => raw
  | _ => []

def encode (m : MetadataMessage) : Bytes :=
  Bencode.encode (.dict (OrdMap.ofEntries m.header)) ++ m.trailer

/-- A header field that must be a `u32`. -/
def u32Field (v : Value) (key : Bytes) : Except Error Nat :=
  match (v.get key).bind Value.asInt with
  | some n => if 0 ≤ n ∧ n ≤ U32_MAX then .ok n.toNat else .error .malformed
  | none => .error .malformed

def parse (payload : Bytes) : Except Error MetadataMessage := do
  let (root, consumed) ← (Bencode.decodePrefix payload).mapError fun _ => Error.malformed
  let piece ← u32Field root PIECE
  match (root.get MSG_TYPE).bind Value.asInt with
  | some 0 => .ok (.request piece)
  | some 2 => .ok (.reject piece)
  | some 1 =>
      let totalSize ← u32Field root TOTAL_SIZE
      let raw := payload.drop consumed
      if raw.length > METADATA_PIECE_LEN then .error .pieceTooLarge
      else .ok (.data piece totalSize raw)
  | _ => .error .malformed

end MetadataMessage

end Metadata

end Clove
