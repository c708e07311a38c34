import Clove.Bencode

/-!
# The peer wire protocol

The model of `wire.rs`: messages and their bodies, the 68-byte handshake, and the framing
of a stream.  Field values are numbers; the codec reads and writes them as 32-bit
big-endian words.
-/

namespace Clove

/-! ## Big-endian words -/

/-- `u32::to_be_bytes`. -/
def be32 (n : Nat) : Bytes :=
  [UInt8.ofNat (n / 16777216), UInt8.ofNat (n / 65536), UInt8.ofNat (n / 256), UInt8.ofNat n]

/-- `u32::from_be_bytes`. -/
def fromBe32 (a b c d : UInt8) : Nat :=
  a.toNat * 16777216 + b.toNat * 65536 + c.toNat * 256 + d.toNat

/-- `u32::MAX`. -/
def U32_MAX : Nat := 4294967295

theorem fromBe32_be32 {n : Nat} (h : n ≤ U32_MAX) :
    fromBe32 (UInt8.ofNat (n / 16777216)) (UInt8.ofNat (n / 65536)) (UInt8.ofNat (n / 256))
      (UInt8.ofNat n) = n := by
  unfold U32_MAX at h
  simp only [fromBe32, UInt8.toNat_ofNat']
  omega

namespace Wire

/-- The handshake protocol string. -/
def PROTOCOL : Bytes :=
  [66, 105, 116, 84, 111, 114, 114, 101, 110, 116, 32, 112, 114, 111, 116, 111, 99, 111, 108]

/-- Standard block size. -/
def BLOCK_LEN : Nat := 16384

/-- Hard cap on a single message body. -/
def MAX_MESSAGE_LEN : Nat := 1048576

/-! ## Messages -/

/-- A contiguous block within a piece. -/
structure BlockRequest where
  index : Nat
  begin : Nat
  length : Nat
deriving Repr, DecidableEq

/-- A peer wire message. -/
inductive Message where
  | keepAlive
  | choke
  | unchoke
  | interested
  | notInterested
  | have_ (index : Nat)
  | bitfield (bits : Bytes)
  | request (b : BlockRequest)
  | piece (index begin : Nat) (block : Bytes)
  | cancel (b : BlockRequest)
  | haveAll
  | haveNone
  | suggestPiece (index : Nat)
  | rejectRequest (b : BlockRequest)
  | allowedFast (index : Nat)
  | extended (id : UInt8) (payload : Bytes)
deriving Repr, DecidableEq

/-- Why a message could not be parsed. -/
inductive Error where
  | unknownId (id : UInt8)
  | badLength
  | blockTooLarge
deriving Repr, DecidableEq

/-- A message with nothing after its id. -/
def empty (rest : Bytes) (msg : Message) : Except Error Message :=
  if rest = [] then .ok msg else .error .badLength

def u32At : Bytes → Except Error Nat
  | [a, b, c, d] => .ok (fromBe32 a b c d)
  | _ => .error .badLength

def blockRequest : Bytes → Except Error BlockRequest
  | [i0, i1, i2, i3, b0, b1, b2, b3, l0, l1, l2, l3] =>
      if fromBe32 l0 l1 l2 l3 > BLOCK_LEN then .error .blockTooLarge
      else .ok ⟨fromBe32 i0 i1 i2 i3, fromBe32 b0 b1 b2 b3, fromBe32 l0 l1 l2 l3⟩
  | _ => .error .badLength

def pieceBody : Bytes → Except Error Message
  | i0 :: i1 :: i2 :: i3 :: b0 :: b1 :: b2 :: b3 :: block =>
      if block.length > BLOCK_LEN then .error .blockTooLarge
      else .ok (.piece (fromBe32 i0 i1 i2 i3) (fromBe32 b0 b1 b2 b3) block)
  | _ => .error .badLength

/-- Parse a message from its body.  An empty body is a keep-alive. -/
def Message.parse : Bytes → Except Error Message
  | [] => .ok .keepAlive
  | id :: rest =>
      if id = 0 then empty rest .choke
      else if id = 1 then empty rest .unchoke
      else if id = 2 then empty rest .interested
      else if id = 3 then empty rest .notInterested
      else if id = 4 then (u32At rest).map .have_
      else if id = 5 then .ok (.bitfield rest)
      else if id = 6 then (blockRequest rest).map .request
      else if id = 8 then (blockRequest rest).map .cancel
      else if id = 7 then pieceBody rest
      else if id = 13 then (u32At rest).map .suggestPiece
      else if id = 14 then empty rest .haveAll
      else if id = 15 then empty rest .haveNone
      else if id = 16 then (blockRequest rest).map .rejectRequest
      else if id = 17 then (u32At rest).map .allowedFast
      else if id = 20 then
        match rest with
        | [] => .error .badLength
        | sub :: payload => .ok (.extended sub payload)
      else .error (.unknownId id)

def putBlock (id : UInt8) (b : BlockRequest) : Bytes :=
  id :: (be32 b.index ++ be32 b.begin ++ be32 b.length)

/-- The body of a message: its id and fields. -/
def Message.body : Message → Bytes
  | .keepAlive => []
  | .choke => [0]
  | .unchoke => [1]
  | .interested => [2]
  | .notInterested => [3]
  | .have_ index => 4 :: be32 index
  | .bitfield bits => 5 :: bits
  | .request b => putBlock 6 b
  | .cancel b => putBlock 8 b
  | .piece index begin block => 7 :: (be32 index ++ be32 begin ++ block)
  | .suggestPiece index => 13 :: be32 index
  | .haveAll => [14]
  | .haveNone => [15]
  | .rejectRequest b => putBlock 16 b
  | .allowedFast index => 17 :: be32 index
  | .extended id payload => 20 :: id :: payload

/-- The full frame: the length of the body, saturated at 32 bits, and the body. -/
def Message.encode (m : Message) : Bytes := be32 (min m.body.length U32_MAX) ++ m.body

/-! ## The handshake -/

/-- Extension bits carried in the handshake's reserved field. -/
structure Extensions where
  extended : Bool
  fast : Bool
deriving Repr, DecidableEq

/-- The BEP 3 handshake. -/
structure Handshake where
  infoHash : Bytes
  peerId : Bytes
  extensions : Extensions
deriving Repr, DecidableEq

/-- Full length of a handshake on the wire. -/
def HANDSHAKE_LEN : Nat := 68

/-- The handshake's bytes. -/
def Handshake.encode (h : Handshake) : Bytes :=
  19 :: PROTOCOL ++
    [0, 0, 0, 0, 0, if h.extensions.extended then 16 else 0, 0,
      if h.extensions.fast then 4 else 0] ++ h.infoHash ++ h.peerId

/-- Parse the bytes of a handshake. -/
def Handshake.parse (buf : Bytes) : Option Handshake :=
  if buf.getD 0 0 ≠ 19 ∨ (buf.drop 1).take 19 ≠ PROTOCOL then none
  else some
    { infoHash := (buf.drop 28).take 20
      peerId := (buf.drop 48).take 20
      extensions :=
        { fast := buf.getD 27 0 &&& 4 != 0
          extended := buf.getD 25 0 &&& 16 != 0 } }

/-! ## Framing -/

/-- Why a frame could not be read. -/
inductive FrameError where
  /-- The stream ended inside the frame. -/
  | eof
  /-- The declared length is over the ceiling. -/
  | oversized
deriving Repr, DecidableEq

/-- Read one frame off a stream: its body, and what follows it. -/
def readFrame (maxLen : Nat) : Bytes → Except FrameError (Bytes × Bytes)
  | a :: b :: c :: d :: rest =>
      let len := fromBe32 a b c d
      if len > min maxLen MAX_MESSAGE_LEN then .error .oversized
      else if rest.length < len then .error .eof
      else .ok (rest.take len, rest.drop len)
  | _ => .error .eof

/-- A frame within the ceiling is read back. -/
theorem readFrame_encode {m : Message} {maxLen : Nat}
    (h : m.body.length ≤ min maxLen MAX_MESSAGE_LEN) (rest : Bytes) :
    readFrame maxLen (m.encode ++ rest) = .ok (m.body, rest) := by
  have hmax : m.body.length ≤ U32_MAX := by
    have : m.body.length ≤ MAX_MESSAGE_LEN := le_trans h (Nat.min_le_right _ _)
    unfold MAX_MESSAGE_LEN at this
    unfold U32_MAX
    omega
  have hlen : ¬ m.body.length > min maxLen MAX_MESSAGE_LEN := by omega
  have hrest : ¬ (m.body ++ rest).length < m.body.length := by simp
  simp only [Message.encode, Nat.min_eq_left hmax, be32, List.cons_append, List.nil_append,
    readFrame, fromBe32_be32 hmax, hlen, hrest, if_false, List.take_left, List.drop_left]

/-- A frame over the ceiling is refused. -/
theorem readFrame_oversized {m : Message} {maxLen : Nat} (hmax : m.body.length ≤ U32_MAX)
    (h : min maxLen MAX_MESSAGE_LEN < m.body.length) (rest : Bytes) :
    readFrame maxLen (m.encode ++ rest) = .error .oversized := by
  simp only [Message.encode, Nat.min_eq_left hmax, be32, List.cons_append, List.nil_append,
    readFrame, fromBe32_be32 hmax, gt_iff_lt, h, if_true]

end Wire

end Clove
