import Clove.Wire

/-!
# The codec and the framing are inverse

Every message that the types allow and whose block is not too large is parsed from its body
(`parse_body`), and every body that parses is the body of what it parses to (`body_of_parse`).
A stream of frames is read back into one buffer, which keeps nothing of the frame before
(`readMessages_encode`).
-/

namespace Clove.Wire

/-! ## One message -/

/-- The fields are `u32`, and a block is at most `BLOCK_LEN` long. -/
def BlockRequest.Fits (b : BlockRequest) : Prop :=
  b.index ≤ U32_MAX ∧ b.begin ≤ U32_MAX ∧ b.length ≤ BLOCK_LEN

/-- The same of a message. -/
def Message.Fits : Message → Prop
  | .have_ index => index ≤ U32_MAX
  | .request b => b.Fits
  | .piece index begin block => index ≤ U32_MAX ∧ begin ≤ U32_MAX ∧ block.length ≤ BLOCK_LEN
  | .cancel b => b.Fits
  | .suggestPiece index => index ≤ U32_MAX
  | .rejectRequest b => b.Fits
  | .allowedFast index => index ≤ U32_MAX
  | _ => True

theorem u32At_be32 {n : Nat} (h : n ≤ U32_MAX) : u32At (be32 n) = .ok n :=
  congrArg Except.ok (fromBe32_be32 h)

theorem blockRequest_putBlock {b : BlockRequest} (h : b.Fits) :
    blockRequest (be32 b.index ++ be32 b.begin ++ be32 b.length) = .ok b := by
  obtain ⟨hindex, hbegin, hlength⟩ := h
  have hmax : b.length ≤ U32_MAX := hlength.trans (by decide)
  simp [blockRequest, be32, fromBe32_be32 hindex, fromBe32_be32 hbegin, fromBe32_be32 hmax,
    Nat.not_lt.2 hlength]

theorem pieceBody_be32 {index begin : Nat} {block : Bytes} (hindex : index ≤ U32_MAX)
    (hbegin : begin ≤ U32_MAX) (hblock : block.length ≤ BLOCK_LEN) :
    pieceBody (be32 index ++ be32 begin ++ block) = .ok (.piece index begin block) := by
  simp [pieceBody, be32, fromBe32_be32 hindex, fromBe32_be32 hbegin, Nat.not_lt.2 hblock]

/-- A message is parsed from its body. -/
theorem parse_body {m : Message} (h : m.Fits) : Message.parse m.body = .ok m := by
  cases m with
  | keepAlive => rfl
  | choke => rfl
  | unchoke => rfl
  | interested => rfl
  | notInterested => rfl
  | have_ index => exact congrArg (Except.map Message.have_) (u32At_be32 h)
  | bitfield bits => rfl
  | request b => exact congrArg (Except.map Message.request) (blockRequest_putBlock h)
  | piece index begin block => exact pieceBody_be32 h.1 h.2.1 h.2.2
  | cancel b => exact congrArg (Except.map Message.cancel) (blockRequest_putBlock h)
  | haveAll => rfl
  | haveNone => rfl
  | suggestPiece index => exact congrArg (Except.map Message.suggestPiece) (u32At_be32 h)
  | rejectRequest b => exact congrArg (Except.map Message.rejectRequest) (blockRequest_putBlock h)
  | allowedFast index => exact congrArg (Except.map Message.allowedFast) (u32At_be32 h)
  | extended id payload => rfl

/-- Four bytes are the word they are read as. -/
theorem be32_fromBe32 (a b c d : UInt8) : be32 (fromBe32 a b c d) = [a, b, c, d] := by
  have ha := a.toNat_lt
  have hb := b.toNat_lt
  have hc := c.toNat_lt
  have hd := d.toNat_lt
  have hbyte : ∀ (x : UInt8) (n : Nat), n % 256 = x.toNat → UInt8.ofNat n = x := by
    intro x n hn
    refine UInt8.toNat_inj.1 ?_
    rw [UInt8.toNat_ofNat']
    exact hn
  unfold be32 fromBe32
  rw [hbyte a _ (by omega), hbyte b _ (by omega), hbyte c _ (by omega), hbyte d _ (by omega)]

theorem u32At_ok {rest : Bytes} {n : Nat} (h : u32At rest = .ok n) : be32 n = rest := by
  unfold u32At at h
  split at h
  · cases h
    exact be32_fromBe32 _ _ _ _
  · cases h

theorem blockRequest_ok {rest : Bytes} {b : BlockRequest} (h : blockRequest rest = .ok b) :
    be32 b.index ++ be32 b.begin ++ be32 b.length = rest := by
  unfold blockRequest at h
  split at h
  · split at h
    · cases h
    · cases h
      simp only [be32_fromBe32]
      rfl
  · cases h

theorem pieceBody_ok {rest : Bytes} {m : Message} (h : pieceBody rest = .ok m) :
    m.body = 7 :: rest := by
  unfold pieceBody at h
  split at h
  · split at h
    · cases h
    · cases h
      simp only [Message.body, be32_fromBe32]
      rfl
  · cases h

theorem empty_ok {rest : Bytes} {m msg : Message} (h : empty rest msg = .ok m) :
    m = msg ∧ rest = [] := by
  unfold empty at h
  split at h
  · cases h
    exact ⟨rfl, ‹_›⟩
  · cases h

theorem map_ok {α β ε : Type} {f : α → β} {x : Except ε α} {b : β} (h : x.map f = .ok b) :
    ∃ a, x = .ok a ∧ f a = b := by
  cases x with
  | error e => cases h
  | ok a => exact ⟨a, rfl, Except.ok.inj h⟩

/-- A body that parses is the body of what it parses to. -/
theorem body_of_parse {b : Bytes} {m : Message} (h : Message.parse b = .ok m) : m.body = b := by
  have hbare : ∀ {id : UInt8} {rest : Bytes} {msg : Message}, empty rest msg = .ok m →
      msg.body = [id] → m.body = id :: rest := by
    intro id rest msg hempty hbody
    obtain ⟨rfl, rfl⟩ := empty_ok hempty
    exact hbody
  have hword : ∀ {id : UInt8} {rest : Bytes} {f : Nat → Message}, (u32At rest).map f = .ok m →
      (∀ n, (f n).body = id :: be32 n) → m.body = id :: rest := by
    intro id rest f hmap hbody
    obtain ⟨n, hn, rfl⟩ := map_ok hmap
    rw [hbody, u32At_ok hn]
  have hblock : ∀ {id : UInt8} {rest : Bytes} {f : BlockRequest → Message},
      (blockRequest rest).map f = .ok m → (∀ b, (f b).body = putBlock id b) →
      m.body = id :: rest := by
    intro id rest f hmap hbody
    obtain ⟨b, hb, rfl⟩ := map_ok hmap
    rw [hbody, putBlock, blockRequest_ok hb]
  unfold Message.parse at h
  split at h
  · cases h
    rfl
  · rename_i id rest
    obtain ⟨rfl, h⟩ | ⟨-, h⟩ := ite_eq_iff.1 h
    · exact hbare h rfl
    obtain ⟨rfl, h⟩ | ⟨-, h⟩ := ite_eq_iff.1 h
    · exact hbare h rfl
    obtain ⟨rfl, h⟩ | ⟨-, h⟩ := ite_eq_iff.1 h
    · exact hbare h rfl
    obtain ⟨rfl, h⟩ | ⟨-, h⟩ := ite_eq_iff.1 h
    · exact hbare h rfl
    obtain ⟨rfl, h⟩ | ⟨-, h⟩ := ite_eq_iff.1 h
    · exact hword h fun _ => rfl
    obtain ⟨rfl, h⟩ | ⟨-, h⟩ := ite_eq_iff.1 h
    · cases h
      rfl
    obtain ⟨rfl, h⟩ | ⟨-, h⟩ := ite_eq_iff.1 h
    · exact hblock h fun _ => rfl
    obtain ⟨rfl, h⟩ | ⟨-, h⟩ := ite_eq_iff.1 h
    · exact hblock h fun _ => rfl
    obtain ⟨rfl, h⟩ | ⟨-, h⟩ := ite_eq_iff.1 h
    · exact pieceBody_ok h
    obtain ⟨rfl, h⟩ | ⟨-, h⟩ := ite_eq_iff.1 h
    · exact hword h fun _ => rfl
    obtain ⟨rfl, h⟩ | ⟨-, h⟩ := ite_eq_iff.1 h
    · exact hbare h rfl
    obtain ⟨rfl, h⟩ | ⟨-, h⟩ := ite_eq_iff.1 h
    · exact hbare h rfl
    obtain ⟨rfl, h⟩ | ⟨-, h⟩ := ite_eq_iff.1 h
    · exact hblock h fun _ => rfl
    obtain ⟨rfl, h⟩ | ⟨-, h⟩ := ite_eq_iff.1 h
    · exact hword h fun _ => rfl
    obtain ⟨rfl, h⟩ | ⟨-, h⟩ := ite_eq_iff.1 h
    · revert h
      match rest with
      | [] => exact fun h => by cases h
      | sub :: payload =>
          intro h
          cases h
          rfl
    · cases h

/-! ## Writing a stream -/

/-- Append a frame: a length of zero, the body, and then the length in its place. -/
def Message.encodeInto (m : Message) (out : Bytes) : Bytes :=
  let start := out.length
  let out := out ++ [0, 0, 0, 0] ++ m.body
  let bodyLen := min (out.length - start - 4) U32_MAX
  out.take start ++ be32 bodyLen ++ out.drop (start + 4)

theorem encodeInto_eq (m : Message) (out : Bytes) : m.encodeInto out = out ++ m.encode := by
  have hdrop : (out ++ [0, 0, 0, 0] ++ m.body).drop (out.length + 4) = m.body := by
    rw [List.drop_append]
    simp
  have htake : (out ++ [0, 0, 0, 0] ++ m.body).take out.length = out := by
    rw [List.append_assoc, List.take_left]
  have hlen : (out ++ [0, 0, 0, 0] ++ m.body).length - out.length - 4 = m.body.length := by
    simp only [List.length_append, List.length_cons, List.length_nil]
    omega
  unfold Message.encodeInto Message.encode
  dsimp only
  rw [hdrop, htake, hlen, List.append_assoc]

/-- A list of messages, one after the other. -/
def encodeAll (ms : List Message) : Bytes := ms.foldl (fun out m => m.encodeInto out) []

theorem encodeAll_eq (ms : List Message) : encodeAll ms = ms.flatMap Message.encode := by
  have hgen : ∀ (ms : List Message) (out : Bytes),
      ms.foldl (fun out m => m.encodeInto out) out = out ++ ms.flatMap Message.encode := by
    intro ms
    induction ms with
    | nil => exact fun out => (List.append_nil out).symm
    | cons m ms ih =>
        intro out
        rw [List.foldl_cons, ih, encodeInto_eq, List.flatMap_cons, List.append_assoc]
  exact hgen ms []

/-! ## Reading a stream -/

/-- `Vec::resize` with zeroes. -/
def resize (n : Nat) (l : Bytes) : Bytes := l.take n ++ List.replicate (n - l.length) 0

/-- `Read::read_exact`: fill the buffer from the stream. -/
def readExact (buf stream : Bytes) : Except FrameError (Bytes × Bytes) :=
  if stream.length < buf.length then .error .eof
  else .ok (stream.take buf.length ++ buf.drop buf.length, stream.drop buf.length)

/-- What follows the length: the body, into a buffer that held another. -/
def readBody (maxLen len : Nat) (body stream : Bytes) : Except FrameError (Bytes × Bytes) :=
  if len > min maxLen MAX_MESSAGE_LEN then .error .oversized
  else
    let body := body.take 0
    readExact (resize len body) stream

def readFrameInto (maxLen : Nat) (body stream : Bytes) : Except FrameError (Bytes × Bytes) := do
  let (lenBuf, stream) ← readExact [0, 0, 0, 0] stream
  readBody maxLen
    (fromBe32 (lenBuf.getD 0 0) (lenBuf.getD 1 0) (lenBuf.getD 2 0) (lenBuf.getD 3 0)) body stream

theorem length_resize (n : Nat) (l : Bytes) : (resize n (l.take 0)).length = n := by
  simp [resize]

/-- A buffer that is filled keeps nothing of what it held. -/
theorem readExact_eq (buf stream : Bytes) : readExact buf stream =
    if stream.length < buf.length then .error .eof
    else .ok (stream.take buf.length, stream.drop buf.length) := by
  rw [readExact, List.drop_length, List.append_nil]

theorem bind_pair {α β γ ε : Type} (a : α) (b : β) (f : α → β → Except ε γ) :
    (Except.ok (a, b) >>= fun (x, y) => f x y) = f a b := rfl

/-- So a frame does not depend on the one before. -/
theorem readFrameInto_eq (maxLen : Nat) (body stream : Bytes) :
    readFrameInto maxLen body stream = readFrame maxLen stream := by
  match stream with
  | [] => rfl
  | [_] => rfl
  | [_, _] => rfl
  | [_, _, _] => rfl
  | a :: b :: c :: d :: rest =>
      have hword : readExact [0, 0, 0, 0] (a :: b :: c :: d :: rest) =
          .ok ([a, b, c, d], rest) := by
        rw [readExact_eq, if_neg (by simp)]
        rfl
      have hbind : readFrameInto maxLen body (a :: b :: c :: d :: rest) =
          readBody maxLen (fromBe32 a b c d) body rest := by
        unfold readFrameInto
        rw [hword]
        exact bind_pair [a, b, c, d] rest fun lenBuf stream => readBody maxLen
          (fromBe32 (lenBuf.getD 0 0) (lenBuf.getD 1 0) (lenBuf.getD 2 0) (lenBuf.getD 3 0)) body
          stream
      rw [hbind, readBody, readExact_eq, length_resize]
      rfl

/-- Why a reader stopped. -/
inductive Stop where
  | frame (e : FrameError)
  | message (e : Error)
deriving Repr, DecidableEq

/-- Read messages into one buffer, at most `fuel` of them, until one cannot be read: the
messages, why it stopped, and the rest of the stream. -/
def readMessages (maxLen : Nat) : Nat → Bytes → Bytes → List Message × Option Stop × Bytes
  | 0, _, stream => ([], none, stream)
  | fuel + 1, body, stream =>
      match readFrameInto maxLen body stream with
      | .error e => ([], some (.frame e), stream)
      | .ok (body, stream) =>
          match Message.parse body with
          | .error e => ([], some (.message e), stream)
          | .ok m =>
              let (ms, stop, rest) := readMessages maxLen fuel body stream
              (m :: ms, stop, rest)

theorem readMessages_ok {maxLen fuel : Nat} {body stream next rest : Bytes} {m : Message}
    (hread : readFrameInto maxLen body stream = .ok (next, rest))
    (hparse : Message.parse next = .ok m) :
    readMessages maxLen (fuel + 1) body stream =
      (m :: (readMessages maxLen fuel next rest).1, (readMessages maxLen fuel next rest).2) := by
  simp only [readMessages, hread, hparse]

theorem readMessages_error {maxLen fuel : Nat} {body stream : Bytes} {e : FrameError}
    (hread : readFrameInto maxLen body stream = .error e) :
    readMessages maxLen (fuel + 1) body stream = ([], some (.frame e), stream) := by
  simp only [readMessages, hread]

/-- A stream of frames is read back, and then it ends. -/
theorem readMessages_encode {maxLen : Nat} {ms : List Message} (hfits : ∀ m ∈ ms, m.Fits)
    (hlen : ∀ m ∈ ms, m.body.length ≤ min maxLen MAX_MESSAGE_LEN) {fuel : Nat}
    (hfuel : ms.length < fuel) (body : Bytes) :
    readMessages maxLen fuel body (ms.flatMap Message.encode) =
      (ms, some (.frame .eof), []) := by
  induction ms generalizing fuel body with
  | nil =>
      obtain ⟨fuel, rfl⟩ := Nat.exists_eq_succ_of_ne_zero (Nat.ne_of_gt hfuel)
      exact readMessages_error (readFrameInto_eq maxLen body [])
  | cons m ms ih =>
      obtain ⟨fuel, rfl⟩ := Nat.exists_eq_succ_of_ne_zero (Nat.ne_of_gt (Nat.zero_lt_of_lt hfuel))
      have hread : readFrameInto maxLen body (m.encode ++ ms.flatMap Message.encode) =
          .ok (m.body, ms.flatMap Message.encode) := by
        rw [readFrameInto_eq, readFrame_encode (hlen m List.mem_cons_self)]
      have hparse := parse_body (hfits m List.mem_cons_self)
      have hrest := ih (fun m hm => hfits m (List.mem_cons_of_mem _ hm))
        (fun m hm => hlen m (List.mem_cons_of_mem _ hm)) (Nat.lt_of_succ_lt_succ hfuel) m.body
      rw [List.flatMap_cons, readMessages_ok hread hparse, hrest]

/-- As much fuel as there are bytes is enough. -/
theorem length_le_encode (ms : List Message) :
    ms.length ≤ (ms.flatMap Message.encode).length := by
  induction ms with
  | nil => exact le_rfl
  | cons m ms ih =>
      simp only [List.length_cons, List.flatMap_cons, List.length_append, Message.encode, be32,
        List.length_nil]
      omega

/-! ## The handshake -/

/-- A handshake is read back. -/
theorem handshake_parse_encode {h : Handshake} (hinfo : h.infoHash.length = 20)
    (hpeer : h.peerId.length = 20) : Handshake.parse h.encode = some h := by
  obtain ⟨infoHash, peerId, ⟨extended, fast⟩⟩ := h
  have hfirst (reserved : Bytes) (hreserved : reserved.length = 8) :
      ((19 :: PROTOCOL ++ reserved ++ infoHash ++ peerId).drop 28).take 20 = infoHash := by
    rw [List.append_assoc, List.drop_left' (by simp [PROTOCOL, hreserved]), List.take_left' hinfo]
  have hsecond (reserved : Bytes) (hreserved : reserved.length = 8) :
      ((19 :: PROTOCOL ++ reserved ++ infoHash ++ peerId).drop 48).take 20 = peerId := by
    rw [List.drop_left' (by simp [PROTOCOL, hreserved, hinfo]), List.take_of_length_le hpeer.le]
  unfold Handshake.parse Handshake.encode
  rw [hfirst _ rfl, hsecond _ rfl, if_neg (by simp [PROTOCOL])]
  cases extended <;> cases fast <;> simp [PROTOCOL]

/-! ## The codec and the framing -/

/-- Messages within the ceilings are read back from the concatenation of their frames, into
any one buffer, and then the stream ends; a body that parses is encoded as its length, which
saturates where four bytes cannot hold it, and itself; a handshake is read back. -/
theorem framing_inverse :
    (∀ (maxLen : Nat) (ms : List Message) (buf : Bytes), (∀ m ∈ ms, m.Fits) →
      (∀ m ∈ ms, m.body.length ≤ min maxLen MAX_MESSAGE_LEN) →
      readMessages maxLen ((encodeAll ms).length + 1) buf (encodeAll ms) =
        (ms, some (.frame .eof), [])) ∧
    (∀ (b : Bytes) (m : Message), Message.parse b = .ok m →
      m.encodeInto [] = be32 (min b.length U32_MAX) ++ b ∧
        (b.length ≤ U32_MAX → m.encodeInto [] = be32 b.length ++ b)) ∧
    ∀ h : Handshake, h.infoHash.length = 20 → h.peerId.length = 20 →
      Handshake.parse h.encode = some h := by
  refine ⟨fun maxLen ms buf hfits hlen => ?_, fun b m h => ?_, fun h => handshake_parse_encode⟩
  · rw [encodeAll_eq]
    exact readMessages_encode hfits hlen (Nat.lt_succ_of_le (length_le_encode ms)) buf
  · have hencode : m.encodeInto [] = be32 (min b.length U32_MAX) ++ b := by
      rw [encodeInto_eq, Message.encode, body_of_parse h]
      rfl
    exact ⟨hencode, fun hmax => by rw [hencode, Nat.min_eq_left hmax]⟩

end Clove.Wire
