import Clove.Daemon.Registry
import Clove.FlatStorage
import Clove.Torrent.Availability
import Clove.Torrent.Destinations
import Clove.Torrent.Manners

/-!
# One clove does not convict another

Two torrents of one metainfo are connected, and the receiver reads the sender's queue from its
start.  Everything on the queue fits the receiver's frames and is parsed, payloads included,
and nothing about it is a violation: the one piece set comes first, and after it come only
messages a critical section may send.  A peer can still be removed for a piece that fails its
hash.
-/

namespace Clove.Torrent

open Wire (BLOCK_LEN BlockRequest Message)
open Metadata (MetadataMessage METADATA_PIECE_LEN)

/-! ## Sizes -/

/-- A byte string and its length. -/
theorem length_putBytes_le {b : Bytes} {k : Nat} (h : b.length < 10 ^ (k + 1)) :
    (Bencode.putBytes b).length ≤ k + 2 + b.length := by
  have := Decimal.length_digits_le h
  rw [Bencode.putBytes, List.length_append, List.length_cons]
  omega

theorem length_intText_le {n k : Nat} (h : n < 10 ^ (k + 1)) :
    (Bencode.intText (n : Int)).length ≤ k + 1 := by
  rw [Bencode.intText, if_neg (by omega), Int.natAbs_natCast]
  exact Decimal.length_digits_le h

theorem length_le_of_isPex {payload : Bytes} (h : IsPex payload) : payload.length ≤ 16384 + 64 := by
  obtain ⟨m, rfl, hfew⟩ := h
  have hlimit : Pex.MAX_PEX_PEERS = 512 := rfl
  have hadded := Pex.length_pack m.added
  have hdropped := Pex.length_pack m.dropped
  have hencode : m.encode = 100 :: (Bencode.putBytes Pex.ADDED ++ Bencode.putBytes (Pex.pack m.added) ++
      (Bencode.putBytes Pex.DROPPED ++ Bencode.putBytes (Pex.pack m.dropped) ++ [])) ++ [101] := rfl
  have h₁ : (Bencode.putBytes (Pex.pack m.added)).length ≤ 4 + 2 + (Pex.pack m.added).length :=
    length_putBytes_le (by omega)
  have h₂ : (Bencode.putBytes (Pex.pack m.dropped)).length ≤ 4 + 2 + (Pex.pack m.dropped).length :=
    length_putBytes_le (by omega)
  have h₃ : (Bencode.putBytes Pex.ADDED).length = 7 := rfl
  have h₄ : (Bencode.putBytes Pex.DROPPED).length = 9 := rfl
  rw [hencode]
  simp only [List.length_append, List.length_cons, List.length_nil]
  omega

theorem length_le_of_isMetadata {payload : Bytes} (h : IsMetadata payload) :
    payload.length ≤ METADATA_PIECE_LEN + 128 := by
  obtain ⟨m, rfl, htyped, htrailer⟩ := h
  have hint : ∀ n : Nat, n ≤ U32_MAX → (Bencode.intText (n : Int)).length ≤ 10 := fun n hn =>
    length_intText_le (k := 9) (lt_of_le_of_lt hn (by decide))
  have hkey : (Bencode.putBytes Metadata.MSG_TYPE).length = 10 ∧
      (Bencode.putBytes Metadata.PIECE).length = 7 ∧
      (Bencode.putBytes Metadata.TOTAL_SIZE).length = 13 := ⟨rfl, rfl, rfl⟩
  have hpair : ∀ kind piece : Nat, kind ≤ U32_MAX → piece ≤ U32_MAX →
      (Bencode.encode (.dict [(Metadata.MSG_TYPE, .int kind), (Metadata.PIECE, .int piece)])).length ≤
        64 := by
    intro kind piece hkind hpiece
    have h₁ := hint kind hkind
    have h₂ := hint piece hpiece
    simp only [Bencode.encode, Bencode.encodeEntries, List.length_append, List.length_cons,
      List.length_nil]
    omega
  cases m with
  | request piece =>
      have hencode : (MetadataMessage.request piece).encode = Bencode.encode (.dict
        [(Metadata.MSG_TYPE, .int (0 : Nat)), (Metadata.PIECE, .int piece)]) ++ [] := rfl
      rw [hencode, List.append_nil]
      exact (hpair 0 piece (Nat.zero_le _) htyped).trans (by omega)
  | reject piece =>
      have hencode : (MetadataMessage.reject piece).encode = Bencode.encode (.dict
        [(Metadata.MSG_TYPE, .int (2 : Nat)), (Metadata.PIECE, .int piece)]) ++ [] := rfl
      rw [hencode, List.append_nil]
      exact (hpair 2 piece (by decide) htyped).trans (by omega)
  | data piece total raw =>
      have hencode : (MetadataMessage.data piece total raw).encode = Bencode.encode (.dict
        [(Metadata.MSG_TYPE, .int (1 : Nat)), (Metadata.PIECE, .int piece),
          (Metadata.TOTAL_SIZE, .int total)]) ++ raw := rfl
      have h₁ := hint 1 (by decide)
      have h₂ := hint piece htyped.1
      have h₃ := hint total htyped.2
      have hraw : raw.length ≤ METADATA_PIECE_LEN := htrailer
      rw [hencode]
      simp only [Bencode.encode, Bencode.encodeEntries, List.length_append, List.length_cons,
        List.length_nil]
      omega

/-! ## The extension handshake -/

/-- The ids we listen on. -/
def ourIds (isPrivate : Bool) : List (Bytes × UInt8) :=
  (if isPrivate then [] else [(Extension.I2P_PEX, OUR_PEX_ID)])
    ++ [(Extension.UT_METADATA, OUR_METADATA_ID)]

/-- What is read of our extension handshake: a size is clamped to an `i64`. -/
def ourHello (sh : Shared) : Extension.Handshake where
  ids := ourIds sh.isPrivate
  metadataSize := if sh.rawInfo = [] then none else
    some (min sh.rawInfo.length 9223372036854775807)
  client := some Extension.USER_AGENT

theorem ourExtensionHandshake_eq (sh : Shared) :
    sh.ourExtensionHandshake = (ourHello sh).encode := by
  have hclamp : ∀ n : Nat, Extension.Handshake.clampI64 (min n 9223372036854775807) =
      Extension.Handshake.clampI64 n := by
    intro n
    unfold Extension.Handshake.clampI64
    omega
  unfold Shared.ourExtensionHandshake ourHello Extension.Handshake.encode ourIds
  by_cases hraw : sh.rawInfo = []
  · simp only [if_pos hraw]
  · simp only [if_neg hraw, Option.map_some, hclamp]

theorem parse_ourExtensionHandshake (sh : Shared) :
    Extension.Handshake.parse sh.ourExtensionHandshake = .ok (ourHello sh) := by
  have hsorted : ∀ b, OrdMap.Sorted (ourIds b) := by
    unfold OrdMap.Sorted
    decide
  have htext : ∀ b, ∀ e ∈ ourIds b, Utf8.valid e.1 = true ∧ Bencode.inUsize e.1.length = true := by
    decide
  have hon : ∀ b, ∀ e ∈ ourIds b, e.2 ≠ 0 := by decide
  rw [ourExtensionHandshake_eq]
  refine Extension.Handshake.parse_encode ⟨hsorted _, htext _, ?_⟩ (hon _) ?_
  · rintro c hc
    obtain rfl := Option.some.inj hc
    decide
  · intro n hn
    unfold ourHello at hn
    simp only at hn
    split at hn
    · cases hn
    · obtain rfl := Option.some.inj hn
      omega

theorem length_ourExtensionHandshake_le (sh : Shared) : sh.ourExtensionHandshake.length ≤ 128 := by
  have hsize : ∀ n : Nat, (Bencode.intText (Extension.Handshake.clampI64 n)).length ≤ 19 := by
    intro n
    have hclamp : Extension.Handshake.clampI64 n = (min n 9223372036854775807 : Nat) := by
      unfold Extension.Handshake.clampI64
      omega
    rw [hclamp]
    exact length_intText_le (k := 18) (by omega)
  have hids : ∀ b, (Bencode.encode (.dict (OrdMap.ofEntries ((ourIds b).map
      Extension.Handshake.idValue)))).length ≤ 40 := by decide
  have hroot : ∀ (v : Bencode.Value) (n : Option Nat), (OrdMap.ofEntries ([([109], v)]
      ++ (n.map fun n => (Extension.METADATA_SIZE_KEY,
        Bencode.Value.int (Extension.Handshake.clampI64 n))).toList
      ++ [([118], .bytes Extension.USER_AGENT)])) = [([109], v)]
      ++ (n.map fun n => (Extension.METADATA_SIZE_KEY,
        Bencode.Value.int (Extension.Handshake.clampI64 n))).toList
      ++ [([118], .bytes Extension.USER_AGENT)] := by
    intro v n
    cases n <;> rfl
  have hkeys : (Bencode.putBytes [109]).length = 3 ∧
      (Bencode.putBytes Extension.METADATA_SIZE_KEY).length = 16 ∧
      (Bencode.putBytes [118]).length = 3 ∧ (Bencode.putBytes Extension.USER_AGENT).length = 16 :=
    ⟨rfl, rfl, rfl, rfl⟩
  have hvalue := hids sh.isPrivate
  have hencode : sh.ourExtensionHandshake = Bencode.encode (.dict (OrdMap.ofEntries ([([109],
      .dict (OrdMap.ofEntries ((ourIds sh.isPrivate).map Extension.Handshake.idValue)))]
      ++ ((ourHello sh).metadataSize.map fun n => (Extension.METADATA_SIZE_KEY,
        Bencode.Value.int (Extension.Handshake.clampI64 n))).toList
      ++ [([118], .bytes Extension.USER_AGENT)]))) := ourExtensionHandshake_eq sh
  rw [hencode, hroot]
  generalize Bencode.Value.dict (OrdMap.ofEntries ((ourIds sh.isPrivate).map
    Extension.Handshake.idValue)) = v at hvalue
  cases (ourHello sh).metadataSize with
  | none =>
      simp only [Option.map_none, Option.toList_none, List.append_nil, List.cons_append,
        List.nil_append, Bencode.encode, Bencode.encodeEntries, List.length_append, List.length_cons,
        List.length_nil]
      omega
  | some n =>
      have hdigits := hsize n
      simp only [Option.map_some, Option.toList_some, List.cons_append,
        List.nil_append, Bencode.encode, Bencode.encodeEntries, List.length_append, List.length_cons,
        List.length_nil]
      omega

/-! ## Frames -/

variable {sh sh' : Shared} {w w' : Work} {e : Engine} {id : Nat}

/-- A torrent no larger than a metainfo may describe. -/
structure Modest (sh : Shared) : Prop where
  few : sh.numPieces ≤ Metainfo.MAX_PIECES
  short : sh.storage.layout.pieceLength ≤ Metainfo.MAX_PIECE_LENGTH

/-- Every frame ceiling leaves room for a block and the headers around it. -/
theorem le_frame (sh : Shared) : 16640 ≤ min sh.maxFrame Wire.MAX_MESSAGE_LEN := by
  refine le_min ?_ (by decide)
  unfold Shared.maxFrame
  have : METADATA_PIECE_LEN = 16384 := rfl
  omega

/-- What a message carries is taken by the parser it is for. -/
def Carries (m : Message) : Prop :=
  ∀ id payload, m = .extended id payload →
    (id = 0 → ∃ hs, Extension.Handshake.parse payload = .ok hs) ∧
    (id ≠ 0 → (∃ pex : Pex.PexMessage, payload = pex.encode ∧
        Pex.PexMessage.parse payload = .ok pex) ∨
      ∃ reply : MetadataMessage, payload = reply.encode ∧
        MetadataMessage.parse payload = .ok reply)

/-- A message that is read, parsed and understood under a frame ceiling. -/
structure Legible (maxFrame : Nat) (m : Message) : Prop where
  fits : m.Fits
  length : m.body.length ≤ min maxFrame Wire.MAX_MESSAGE_LEN
  carries : Carries m

theorem InPiece.fits {index begin length : Nat} (h : InPiece sh index begin length)
    (hmodest : Modest sh) : index ≤ U32_MAX ∧ begin ≤ U32_MAX ∧ length ≤ BLOCK_LEN := by
  obtain ⟨hi, hrange, hlen⟩ := h
  have hfew := hmodest.few
  have hshort := hmodest.short
  have hpiece : sh.storage.layout.pieceLen index ≤ sh.storage.layout.pieceLength := by
    unfold Layout.pieceLen
    split <;> omega
  have hmax : Metainfo.MAX_PIECES ≤ U32_MAX := by decide
  have hmax' : Metainfo.MAX_PIECE_LENGTH ≤ U32_MAX := by decide
  exact ⟨by omega, by omega, hlen⟩

/-- What a critical section may send is legible. -/
theorem legible_of_proper {m : Message} (h : Proper sh m) (hmodest : Modest sh) :
    Legible sh'.maxFrame m := by
  have hframe := le_frame sh'
  have hsilent : (∀ id payload, m ≠ .extended id payload) → Carries m :=
    fun hne id payload heq => absurd heq (hne id payload)
  have hblock : ∀ (n : UInt8) (b : BlockRequest), (Wire.putBlock n b).length = 13 := fun n b => rfl
  cases m with
  | keepAlive => exact ⟨trivial, (by decide : 0 ≤ 16640).trans hframe, hsilent nofun⟩
  | choke => exact ⟨trivial, (by decide : 1 ≤ 16640).trans hframe, hsilent nofun⟩
  | unchoke => exact ⟨trivial, (by decide : 1 ≤ 16640).trans hframe, hsilent nofun⟩
  | interested => exact ⟨trivial, (by decide : 1 ≤ 16640).trans hframe, hsilent nofun⟩
  | notInterested => exact ⟨trivial, (by decide : 1 ≤ 16640).trans hframe, hsilent nofun⟩
  | have_ index =>
      have hi : index < sh.numPieces := h
      have hmax : Metainfo.MAX_PIECES ≤ U32_MAX := by decide
      have hfew := hmodest.few
      refine ⟨?_, (by decide : 5 ≤ 16640).trans hframe, hsilent nofun⟩
      show index ≤ U32_MAX
      omega
  | request b => exact ⟨InPiece.fits h hmodest, (by decide : 13 ≤ 16640).trans hframe, hsilent nofun⟩
  | cancel b => exact ⟨InPiece.fits h hmodest, (by decide : 13 ≤ 16640).trans hframe, hsilent nofun⟩
  | piece index begin block =>
      have hfits := InPiece.fits h hmodest
      refine ⟨hfits, ?_, hsilent nofun⟩
      have hlen : block.length ≤ 16384 := hfits.2.2
      have hbody : (Message.piece index begin block).body.length = 9 + block.length := by
        simp [Message.body, be32]
        omega
      rw [hbody]
      omega
  | extended i payload =>
      obtain ⟨hi, hpayload⟩ := h
      have hlen : payload.length ≤ 16384 + 128 := by
        rcases hpayload with hpex | hmeta
        · exact (length_le_of_isPex hpex).trans (by decide)
        · exact length_le_of_isMetadata hmeta
      have hbody : (Message.extended i payload).body.length = payload.length + 2 := rfl
      refine ⟨trivial, hbody ▸ by omega, ?_⟩
      rintro _ _ ⟨⟩
      refine ⟨fun hzero => absurd hzero hi, fun _ => ?_⟩
      rcases hpayload with ⟨pex, rfl, hfew⟩ | ⟨reply, rfl, htyped, htrailer⟩
      · exact .inl ⟨pex, rfl, Pex.PexMessage.parse_encode hfew⟩
      · exact .inr ⟨reply, rfl, MetadataMessage.parse_encode htyped htrailer⟩
  | bitfield _ => cases h
  | haveAll => cases h
  | haveNone => cases h
  | suggestPiece _ => cases h
  | rejectRequest _ => cases h
  | allowedFast _ => cases h

theorem legible_handshake (sh sh' : Shared) :
    Legible sh'.maxFrame (.extended 0 sh.ourExtensionHandshake) := by
  have hlen := length_ourExtensionHandshake_le sh
  refine ⟨trivial, le_trans ?_ (le_frame sh'), ?_⟩
  · show sh.ourExtensionHandshake.length + 2 ≤ 16640
    omega
  · rintro _ _ ⟨⟩
    exact ⟨fun _ => ⟨_, parse_ourExtensionHandshake sh⟩, fun hne => absurd rfl hne⟩

/-- A piece set of the torrent's length fits its frames, however many pieces there are. -/
theorem legible_bitfield {field : Bitfield} (hlen : field.len = sh'.numPieces)
    (hmodest : Modest sh') : Legible sh'.maxFrame (.bitfield field.bits) := by
  have hfew := hmodest.few
  have hmax : Metainfo.MAX_PIECES = (1048576 - 1) * 8 := rfl
  have hcap : Wire.MAX_MESSAGE_LEN = 1048576 := rfl
  refine ⟨trivial, ?_, nofun⟩
  show field.bits.length + 1 ≤ _
  rw [field.length_bits, hlen]
  unfold Shared.maxFrame byteLen
  omega

/-- What stands at a position of a queue. -/
theorem Queued.cases {queue : List Message} (h : Queued sh queue) {n : Nat} {m : Message}
    (hm : queue[n]? = some m) :
    (n = 0 ∧ ∃ field : Bitfield, field.len = sh.numPieces ∧ m = .bitfield field.bits) ∨
    n ≠ 0 ∧ (m = .extended 0 sh.ourExtensionHandshake ∨ Proper sh m) := by
  obtain ⟨theirs, field, rest, rfl, hlen, hrest⟩ := h
  cases n with
  | zero =>
      refine .inl ⟨rfl, field, hlen, ?_⟩
      exact (Option.some.inj hm).symm
  | succ n =>
      refine .inr ⟨Nat.succ_ne_zero n, ?_⟩
      have hmem : m ∈ (if theirs.extended then
          [Message.extended 0 sh.ourExtensionHandshake] else []) ++ rest := by
        unfold opening at hm
        rw [List.cons_append, List.getElem?_cons_succ] at hm
        exact List.mem_of_getElem? hm
      rcases List.mem_append.1 hmem with hopen | hm
      · split at hopen
        · exact .inl (List.mem_singleton.1 hopen)
        · cases hopen
      · exact .inr (hrest m hm)

/-! ## Removals -/

/-- The peers banned are queued for removal, and nobody else. -/
theorem mem_toDrop_foldl_ban {ds : List DestHash} {st : State} {d : Nat × Bool}
    (hd : d ∈ (ds.foldl State.ban st).toDrop) :
    d ∈ st.toDrop ∨ ∃ p ∈ st.peers, p.id = d.1 ∧ p.dest ∈ ds := by
  induction ds generalizing st with
  | nil => exact .inl hd
  | cons dest ds ih =>
      rcases ih hd with hd | ⟨p, hp, hid, hdest⟩
      · rcases List.mem_append.1 hd with hd | hd
        · exact .inl hd
        · obtain ⟨p, hp, rfl⟩ := List.mem_map.1 hd
          obtain ⟨hp, hdest⟩ := List.mem_filter.1 hp
          exact .inr ⟨p, hp, rfl, List.mem_cons.2 (.inl (of_decide_eq_true hdest))⟩
      · exact .inr ⟨p, hp, hid, List.mem_cons_of_mem dest hdest⟩

/-- Whoever is newly queued for removal is at a destination banned for a piece that failed its
hash. -/
def Condemns (sh : Shared) (env : Env) (index : Nat) (w w' : Work) : Prop :=
  ∀ d ∈ w'.st.toDrop, d ∈ w.st.toDrop ∨
    sh.storage.verifyPiece sh.sha1 w'.disk env.readFault index = .ok false ∧
      ∃ p ∈ w.st.peers, p.id = d.1 ∧ p.dest ∈ w'.st.banned

theorem SameIn.disk (h : SameIn .files w w') : w'.disk = w.disk := congrArg Prod.fst h.books

theorem removes_onComplete (sh : Shared) (env : Env) (index : Nat) (w : Work) :
    Condemns sh env index w (onComplete sh env index w) := by
  unfold onComplete
  split
  · have hsame := (leaves_creditSuppliers index (w.modifyPicker fun pk => pk.setHave index)
      .doomed (by simp)).toDrop
    intro d hd
    left
    have hd : d ∈ ((w.modifyPicker fun pk => pk.setHave index).st.creditSuppliers index).toDrop := hd
    rw [hsame] at hd
    exact hd
  · rename_i hfailed
    obtain ⟨suppliers, suspicion, contributors, culprits, heq, -, -, -, -⟩ :=
      State.blameSuppliers_inv (w.modifyPicker fun pk => pk.resetPiece index).st index
    intro d hd
    simp only [heq] at hd ⊢
    refine (mem_toDrop_foldl_ban hd).imp_right ?_
    rintro ⟨p, hp, hid, hdest⟩
    exact ⟨hfailed, p, hp, hid, ((bans_foldl culprits _).banned p.dest).2 (.inl hdest)⟩
  · exact fun d hd => .inl hd

variable {env : Env} {index : Nat}

theorem Condemns.same (hdoomed : SameIn .doomed w w') : Condemns sh env index w w' :=
  fun _ hd => .inl (hdoomed.toDrop ▸ hd)

theorem Condemns.before {w₁ : Work} (h : Condemns sh env index w₁ w') (hdoomed : SameIn .doomed w w₁)
    (htable : SameIn .table w w₁) : Condemns sh env index w w' := by
  intro d hd
  rcases h d hd with hd | ⟨hfailed, p, hp, hid, hdest⟩
  · exact .inl (hdoomed.toDrop ▸ hd)
  · obtain ⟨q, hq, hqid, hqdest⟩ := htable.seat hp
    exact .inr ⟨hfailed, q, hq, hqid.trans hid, hqdest ▸ hdest⟩

theorem Condemns.after {w₁ : Work} (h : Condemns sh env index w w₁) (hdoomed : SameIn .doomed w₁ w')
    (hknown : SameIn .known w₁ w') (hfiles : SameIn .files w₁ w') : Condemns sh env index w w' := by
  intro d hd
  rw [hdoomed.toDrop] at hd
  rw [hknown.known.2.1, hfiles.disk]
  exact h d hd

/-- A block removes nobody but through a ban. -/
theorem removes_onBlock (idx begin : Nat) (block : Bytes) (h : Balanced sh w []) :
    Condemns sh env index w (onBlock sh env idx index begin block w) := by
  rcases onBlock_inv env idx index begin block h with hsame | ⟨peer, -, hcase⟩
  · exact .same (hsame .doomed (by simp))
  · rcases hcase with ⟨err, -, hfailed, -⟩ | ⟨-, w₁, hstored, hdone⟩
    · exact .same (hfailed .doomed (by simp))
    · rcases hdone with heq | ⟨-, hafter⟩
      · rw [heq]
        exact .same (hstored.rest .doomed (by simp))
      · exact ((removes_onComplete sh env index w₁).before (hstored.rest .doomed (by simp))
          (hstored.rest .table (by simp))).after (hafter .doomed (by simp)) (hafter .known (by simp))
            (hafter .files (by simp))

/-- The peer with this id, if it is seated, has not opened its connection. -/
def Unopened (id : Nat) (st : State) : Prop := ∀ p ∈ st.peers, p.id = id → p.opened = false

theorem Unopened.same (h : Unopened id w.st) (hsame : SameIn .opening w w') :
    Unopened id w'.st := by
  intro p hp hid
  have hmem := List.mem_map_of_mem (f := fun p => (p.id, Aspect.opening.ofPeer p)) hp
  rw [hsame.peers] at hmem
  obtain ⟨q, hq, hview⟩ := List.mem_map.1 hmem
  obtain ⟨hqid, hopen⟩ := Prod.mk.inj hview
  exact (congrArg Prod.fst hopen).symm.trans (h q hq (hqid.trans hid))

/-- What others do does not open a connection. -/
theorem Unopened.step (h : Unopened id e.st) (ev : Event)
    (hother : ∀ env msg, ev ≠ .message env id msg) : Unopened id (Engine.step sh ev e).st := by
  cases ev with
  | register env dest fast =>
      show Unopened id (registerPeer sh env dest fast e.st).1
      rcases registerPeer_cases sh env dest fast e.st with ⟨r, heq⟩ | ⟨known, -, -, -, -, heq⟩
      · rw [heq]
        exact h
      · rw [heq]
        intro p hp hid
        rcases List.mem_append.1 hp with hp | hp
        · exact h p hp hid
        · rw [List.mem_singleton.1 hp]
          rfl
  | message env id' msg =>
      have hseen := h.same (w := e.enter) (leaves_seen [] env.now id' e .opening (by simp))
      suffices hhandled : Unopened id (handle sh env id' msg { e.enter with
          st := e.st.modifyId id' fun p => { p with lastSeen := env.now } }).st from
        hhandled.same (leaves_after env _ .opening (by simp))
      rcases handle_cases sh env id' msg _ with ⟨-, heq⟩ | ⟨idx, peer, hidx, hid, heq⟩
      · rw [heq]
        exact hseen
      · rw [heq]
        refine Unopened.same ?_ (leaves_dispatch sh env idx id' _ _ msg _ _
          (opening_notMem_footprint msg))
        intro p hp hpid
        rcases Lists.mem_modify hp with hp | ⟨q, hq, rfl⟩
        · exact hseen p hp hpid
        · obtain rfl := Option.some.inj (hidx.symm.trans hq)
          exact absurd (hid.symm.trans hpid) fun heq => hother env msg (heq ▸ rfl)
  | maintain env =>
      obtain ⟨w, drops, hleaves, heq⟩ := leaves_maintain env e
      have hopen := h.same (w := e.enter) (hleaves .opening (by simp))
      rw [Engine.step, heq]
      exact hopen
  | drop now id' forCause =>
      show Unopened id (dropPeer now id' forCause e.st)
      rcases dropPeer_cases now id' forCause e.st with ⟨-, heq⟩ | ⟨peer, rest, hperm, -, heq⟩
      · rw [heq]
        exact h
      · rw [heq]
        exact fun p hp => h p (hperm.subset (List.mem_cons_of_mem _ hp))
  | addPeers rank peers =>
      show Unopened id (addPeers rank peers e.st)
      obtain ⟨known, heq⟩ := addPeers_eq rank peers e.st
      rw [heq]
      exact h
  | _ => exact h

/-- Between critical sections nobody is queued for removal. -/
theorem toDrop_step (ev : Event) (h : e.st.toDrop = []) : (Engine.step sh ev e).st.toDrop = [] := by
  cases ev with
  | message env id msg => rfl
  | maintain env => rfl
  | register env dest fast =>
      show (registerPeer sh env dest fast e.st).1.toDrop = []
      rcases registerPeer_cases sh env dest fast e.st with ⟨r, heq⟩ | ⟨known, -, -, -, -, heq⟩
      · rw [heq]
        exact h
      · rw [heq]
        exact h
  | _ => exact (books_control sh e _ rfl).1.trans h

/-! ## Handling what is read -/

/-- The handling of a message queues nobody for removal, unless the message is a block that
makes its piece fail: then those at a destination that is banned for it. -/
def Acquits (sh : Shared) (env : Env) (id : Nat) (msg : Message) (e : Engine) : Prop :=
  ∀ d ∈ (onMessage sh env id msg e).2.drops, ∃ index begin block,
    msg = .piece index begin block ∧
    sh.storage.verifyPiece sh.sha1 (onMessage sh env id msg e).1.disk env.readFault index =
      .ok false ∧
    ∃ p ∈ e.st.peers, p.id = d.1 ∧ p.dest ∈ (onMessage sh env id msg e).1.st.banned

/-- A message whose handler queues nobody. -/
theorem acquits_of_same {env : Env} {msg : Message} (hdrop : e.st.toDrop = [])
    (h : SameIn .doomed e.enter (recordSent env.now (considerRound env (handle sh env id msg
      { e.enter with st := e.st.modifyId id fun p => { p with lastSeen := env.now } })))) :
    Acquits sh env id msg e := by
  intro d hd
  have hd : d ∈ [] ++ (recordSent env.now (considerRound env (handle sh env id msg
    { e.enter with st := e.st.modifyId id fun p => { p with lastSeen := env.now } }))).st.toDrop := hd
  rw [h.toDrop, List.nil_append] at hd
  have hd : d ∈ e.st.toDrop := hd
  rw [hdrop] at hd
  cases hd

theorem acquits_of_footprint (env : Env) {msg : Message} (hdrop : e.st.toDrop = [])
    (hmsg : .doomed ∉ footprint msg) : Acquits sh env id msg e := by
  refine acquits_of_same hdrop ?_
  have hseen := leaves_seen [] env.now id e .doomed (by simp)
  have hhandled := leaves_handle sh env id msg { e.enter with
    st := e.st.modifyId id fun p => { p with lastSeen := env.now } } .doomed (by simpa using hmsg)
  exact (hseen.trans hhandled).trans (leaves_after env _ .doomed (by simp))

/-- The first piece set of the right length. -/
theorem acquits_bitfield (env : Env) {field : Bitfield} (hlen : field.len = sh.numPieces)
    (hdrop : e.st.toDrop = []) (hopen : Unopened id e.st) :
    Acquits sh env id (.bitfield field.bits) e := by
  refine acquits_of_same hdrop ?_
  have hseen := leaves_seen [] env.now id e
  have hopen := hopen.same (w := e.enter) (hseen .opening (by simp))
  refine ((hseen .doomed (by simp)).trans ?_).trans (leaves_after env _ .doomed (by simp))
  rcases handle_cases sh env id (.bitfield field.bits) { e.enter with
    st := e.st.modifyId id fun p => { p with lastSeen := env.now } } with
    ⟨-, heq⟩ | ⟨idx, peer, hidx, hid, heq⟩
  · rw [heq]
    exact .refl _ _
  · have hfirst : peer.opened = false := hopen peer (List.mem_of_getElem? hidx) hid
    have hfield : Bitfield.fromBytes field.bits sh.numPieces = .ok field :=
      hlen ▸ Bitfield.fromBytes_bits field
    rw [heq, hfirst]
    simp only [dispatch, hfield, Bool.not_false, if_true]
    exact ((leaves_opened idx _ _ .doomed (by simp)).trans
      (leaves_replacePieceSet idx field _ .doomed (by simp))).trans
        (leaves_updateInterest env idx _ .doomed (by simp))

theorem acquits_piece (env : Env) (index begin : Nat) (block : Bytes) (hmann : e.Mannered sh)
    (hdrop : e.st.toDrop = []) : Acquits sh env id (.piece index begin block) e := by
  obtain ⟨hpk, hpeers⟩ := modifyId_frame e.st id
    (f := fun p => { p with lastSeen := env.now }) (fun _ => rfl)
  have hbal : Balanced sh { e.enter with
      st := e.st.modifyId id fun p => { p with lastSeen := env.now } } [] := by
    refine hmann.accounts.enter.idle ⟨?_, hpeers, rfl⟩
    simp only [hpk]
    exact ⟨rfl, rfl, rfl, rfl⟩
  have hseen := leaves_seen [] env.now id e
  suffices hremoves : Condemns sh env index e.enter (recordSent env.now (considerRound env
      (handle sh env id (.piece index begin block) { e.enter with
        st := e.st.modifyId id fun p => { p with lastSeen := env.now } }))) by
    refine fun d hd => ⟨index, begin, block, rfl, (hremoves d ?_).resolve_left ?_⟩
    · simpa [onMessage, Work.finish] using hd
    · show d ∉ e.st.toDrop
      rw [hdrop]
      exact List.not_mem_nil
  have hafter := leaves_after env (handle sh env id (.piece index begin block) { e.enter with
    st := e.st.modifyId id fun p => { p with lastSeen := env.now } })
  refine (Condemns.before ?_ (hseen .doomed (by simp)) (hseen .table (by simp))).after
    (hafter .doomed (by simp)) (hafter .known (by simp)) (hafter .files (by simp))
  rcases handle_cases sh env id (.piece index begin block) { e.enter with
    st := e.st.modifyId id fun p => { p with lastSeen := env.now } } with
    ⟨-, heq⟩ | ⟨idx, peer, hidx, hid, heq⟩
  · rw [heq]
    exact .same (.refl _ _)
  · rw [heq]
    have hopened := leaves_opened idx (.piece index begin block) { e.enter with
      st := e.st.modifyId id fun p => { p with lastSeen := env.now } }
    exact (removes_onBlock idx begin block
      (hbal.idle (idle_modifyPeer (by intro _; rfl) _ idx))).before
        (hopened .doomed (by simp)) (hopened .table (by simp))

/-- A proper message, or the extension handshake. -/
theorem acquits_of_proper (env : Env) {msg : Message} (hmann : e.Mannered sh)
    (hdrop : e.st.toDrop = []) (hmsg : (∃ payload, msg = .extended 0 payload) ∨ Proper sh' msg) :
    Acquits sh env id msg e := by
  have hquiet : .doomed ∉ footprint msg → Acquits sh env id msg e :=
    acquits_of_footprint env hdrop
  rcases hmsg with ⟨payload, rfl⟩ | hproper
  · exact hquiet (by simp [footprint])
  · cases msg with
    | piece index begin block => exact acquits_piece env index begin block hmann hdrop
    | bitfield _ => cases hproper
    | haveAll => cases hproper
    | haveNone => cases hproper
    | suggestPiece _ => cases hproper
    | rejectRequest _ => cases hproper
    | allowedFast _ => cases hproper
    | _ => exact hquiet (by simp [footprint])

/-! ## Two torrents -/

/-- A sender, a receiver, and how much of the sender's queue the receiver has read. -/
structure Link where
  sender : System
  receiver : System
  read : Nat

namespace Link

/-- A step of one end, or the receiver's reader taking the next frame. -/
inductive Action where
  | sender (a : Torrent.Action)
  | receiver (a : Torrent.Action)
  | deliver (env : Env)

/-- What a reader makes of a frame. -/
def received (sh : Shared) (msg : Message) : Option Message :=
  (Wire.readFrame sh.maxFrame msg.encode).toOption.bind fun r => (Message.parse r.1).toOption

/-- Whether a step is the handling of a message from this peer. -/
def hears (id : Nat) : Torrent.Action → Bool
  | .message _ id' _ => id' = id
  | _ => false

/-- One step of a link.  The sender knows the receiver as `sid` and is known to it as `rid`; the
receiver's reader starts once the sender is seated, and ends with a frame it cannot take. -/
def step (sh sh' : Shared) (sid rid : Nat) : Action → Link → Link
  | .sender a, l => { l with sender := System.step sh a l.sender }
  | .receiver a, l => if hears rid a then l else { l with receiver := System.step sh' a l.receiver }
  | .deliver env, l =>
      if l.receiver.busy (.reader rid) || l.receiver.engine.st.nextId ≤ rid then l
      else
        match ((l.sender.queues sid)[l.read]?).bind (received sh') with
        | none => l
        | some msg =>
            { l with receiver := System.step sh' (.message env rid msg) l.receiver
                     read := l.read + 1 }

/-- A link after a list of steps. -/
def run (sh sh' : Shared) (sid rid : Nat) (actions : List Action) (l : Link) : Link :=
  Machine.run (step sh sh' sid rid) actions l

/-- Both ends are in order, and nothing was read before the first message. -/
structure Fair (sh sh' : Shared) (rid : Nat) (l : Link) : Prop where
  sender : l.sender.Mannered sh
  receiver : l.receiver.engine.Mannered sh'
  toDrop : l.receiver.engine.st.toDrop = []
  opening : l.read = 0 → Unopened rid l.receiver.engine.st

variable {l : Link} {sid rid : Nat}

/-- No critical section of a step is the handling of a message from a peer it does not hear. -/
theorem event_ne_message {a : Torrent.Action} {s : System} {ev : Event} (h : hears rid a = false)
    (hev : s.event sh a = some ev) (env : Env) (msg : Message) : ev ≠ .message env rid msg := by
  rintro rfl
  unfold System.event at hev
  split at hev
  · rename_i env' id' msg'
    split at hev
    · cases hev
    · cases hev
      simp [hears] at h
  · split at hev <;> cases hev
  · rename_i ev hctl
    split at hev
    · rename_i hctl
      cases hev
      cases hctl
    · cases hev
  · split at hev <;> cases hev
  · split at hev <;> cases hev
  · cases hev

theorem Fair.step (h : l.Fair sh sh' rid) (a : Action) :
    (Link.step sh sh' sid rid a l).Fair sh sh' rid := by
  have hmann : ∀ a, (System.step sh' a l.receiver).engine.Mannered sh' := fun a =>
    engine_induction h.receiver (fun ev => h.receiver.step ev) a
  have hdrop : ∀ a, (System.step sh' a l.receiver).engine.st.toDrop = [] := fun a =>
    engine_induction (P := fun e => e.st.toDrop = []) h.toDrop (fun ev => toDrop_step ev h.toDrop) a
  cases a with
  | sender a => exact ⟨h.sender.step a, h.receiver, h.toDrop, h.opening⟩
  | receiver a =>
      unfold Link.step
      simp only
      cases hhears : hears rid a with
      | true => exact h
      | false =>
          refine ⟨h.sender, hmann a, hdrop a, fun hread => ?_⟩
          have hopen := h.opening hread
          show Unopened rid (System.step sh' a l.receiver).engine.st
          rw [engine_step]
          cases hev : l.receiver.event sh' a with
          | none => exact hopen
          | some ev => exact hopen.step ev (event_ne_message hhears hev)
  | deliver env =>
      unfold Link.step
      simp only
      split
      · exact h
      · split
        · exact h
        · exact ⟨h.sender, hmann _, hdrop _, fun hread => absurd hread (Nat.succ_ne_zero _)⟩

/-- Everything on the queue is legible. -/
theorem Fair.legible (h : l.Fair sh sh' rid) (hpieces : sh'.numPieces = sh.numPieces)
    (hmodest : Modest sh) (hmodest' : Modest sh') {msg : Message}
    (hmsg : msg ∈ l.sender.queues sid) : Legible sh'.maxFrame msg := by
  obtain ⟨hempty, hqueued⟩ := h.sender.queues sid
  have hlt : sid < l.sender.engine.st.nextId := by
    by_contra hlate
    rw [hempty (Nat.le_of_not_lt hlate)] at hmsg
    cases hmsg
  obtain ⟨n, hn⟩ := List.mem_iff_getElem?.1 hmsg
  rcases (hqueued hlt).cases hn with ⟨-, field, hlen, rfl⟩ | ⟨-, rfl | hproper⟩
  · exact legible_bitfield (hlen.trans hpieces.symm) hmodest'
  · exact legible_handshake sh sh'
  · exact legible_of_proper hproper hmodest

/-- The next message convicts nobody. -/
theorem Fair.acquits (h : l.Fair sh sh' rid) (hpieces : sh'.numPieces = sh.numPieces)
    {msg : Message} (hmsg : (l.sender.queues sid)[l.read]? = some msg) (env : Env) :
    Acquits sh' env rid msg l.receiver.engine := by
  obtain ⟨hempty, hqueued⟩ := h.sender.queues sid
  have hlt : sid < l.sender.engine.st.nextId := by
    by_contra hlate
    rw [hempty (Nat.le_of_not_lt hlate)] at hmsg
    cases hmsg
  rcases (hqueued hlt).cases hmsg with ⟨hread, field, hlen, rfl⟩ | ⟨-, hlater⟩
  · exact acquits_bitfield env (hlen.trans hpieces.symm) h.toDrop (h.opening hread)
  · exact acquits_of_proper env h.receiver h.toDrop (hlater.imp_left fun heq => ⟨_, heq⟩)

/-- A legible message is what the reader makes of its frame. -/
theorem received_of_legible {msg : Message} (h : Legible sh.maxFrame msg) :
    received sh msg = some msg := by
  have hread : Wire.readFrame sh.maxFrame msg.encode = .ok (msg.body, []) := by
    have hread := Wire.readFrame_encode h.length []
    rwa [List.append_nil] at hread
  have hparse := Wire.parse_body h.fits
  rw [received, hread]
  show (Message.parse msg.body).toOption = some msg
  rw [hparse]
  rfl

end Link

/-- A torrent started for a metainfo, under a peer id of its own. -/
def hosting (sha1 : Bytes → Bytes) (m : MetaInfo) (peerId : Bytes) : Shared :=
  { Daemon.sharedOf sha1 m with peerId := peerId }

theorem modest_hosting {sha1 toLowercase : Bytes → Bytes} {input : Bytes} {m : MetaInfo}
    (h : MetaInfo.parse sha1 toLowercase input = .ok m) (peerId : Bytes) :
    Modest (hosting sha1 m peerId) :=
  ⟨(MetaInfo.geometry_of_parse h).few, (MetaInfo.geometry_of_parse h).le_max⟩

/-- One clove never convicts another.  Whatever two torrents of one metainfo do, every message on
the queue of a peer fits the frames of the other, is parsed from its body, and carries a payload
that is parsed too; and the next one to be read, whenever it is handled, queues nobody for
removal, unless it is a block that makes its piece fail its hash. -/
theorem never_convicts {sha1 toLowercase : Bytes → Bytes} (input : Bytes) (m : MetaInfo)
    (hparse : MetaInfo.parse sha1 toLowercase input = .ok m) (peerId peerId' : Bytes)
    (initialHave initialHave' : Bitfield) (mode mode' : Mode) (now now' : Nat)
    (disk disk' : Disk) (sid rid : Nat) (actions : List Link.Action) :
    let sh := hosting sha1 m peerId
    let sh' := hosting sha1 m peerId'
    let l := Link.run sh sh' sid rid actions
      ⟨System.new sh initialHave mode now disk, System.new sh' initialHave' mode' now' disk', 0⟩
    (∀ msg ∈ l.sender.queues sid,
      msg.body.length ≤ min sh'.maxFrame Wire.MAX_MESSAGE_LEN ∧
        Message.parse msg.body = .ok msg ∧ Link.received sh' msg = some msg ∧ Carries msg) ∧
      ∀ msg, (l.sender.queues sid)[l.read]? = some msg → ∀ env,
        Acquits sh' env rid msg l.receiver.engine := by
  intro sh sh' l
  have hmodest : Modest sh := modest_hosting hparse peerId
  have hmodest' : Modest sh' := modest_hosting hparse peerId'
  have hstart : Link.Fair sh sh' rid ⟨System.new sh initialHave mode now disk,
      System.new sh' initialHave' mode' now' disk', 0⟩ :=
    ⟨mannered_run sh initialHave mode now disk [], mannered_new sh' initialHave' mode' now' disk', rfl,
      fun _ => by simp [Unopened, System.new, Engine.new, State.new]⟩
  have hfair : l.Fair sh sh' rid :=
    Machine.run_induction (P := Link.Fair sh sh' rid) (fun a _ h => h.step a) actions hstart
  refine ⟨fun msg hmsg => ?_, fun msg hmsg env => hfair.acquits rfl hmsg env⟩
  have hlegible := hfair.legible rfl hmodest hmodest' hmsg
  exact ⟨hlegible.length, Wire.parse_body hlegible.fits, Link.received_of_legible hlegible,
    hlegible.carries⟩

/-- Two clove torrents meet, the sender unchokes, and the receiver is handed a whole piece.  The
same block once more is on its way. -/
def Link.handover : List Link.Action :=
  [.sender (.accept (OneByte.dest 2) ⟨true, true⟩), .sender (.announce 0),
    .sender (.register 0 (OneByte.env 0)), .receiver (.accept (OneByte.dest 1) ⟨true, true⟩),
    .receiver (.announce 0), .receiver (.register 0 (OneByte.env 0)),
    .sender (.message (OneByte.env 0) 0 .interested), .sender (.send 0 true),
    .deliver (OneByte.env 0), .receiver (.send 0 true), .deliver (OneByte.env 0),
    .receiver (.send 1 true), .deliver (OneByte.env 0), .receiver (.send 2 true),
    .receiver (.send 2 true), .sender (.message (OneByte.env 0) 0 (.request ⟨1, 0, 7⟩)),
    .sender (.send 1 true), .deliver (OneByte.env 0), .receiver (.send 3 true),
    .sender (.message (OneByte.env 0) 0 (.request ⟨1, 0, 7⟩)), .sender (.send 2 true)]

theorem never_convicts_threeFiles :
    let sh := hosting MetaInfo.threeFilesSha1 MetaInfo.threeFilesInfo (List.replicate 20 1)
    let sh' := hosting MetaInfo.threeFilesSha1 MetaInfo.threeFilesInfo (List.replicate 20 2)
    let l := Link.run sh sh' 0 0 Link.handover
      ⟨System.new sh ((Bitfield.empty 2).set 1) .rarestFirst 0 MetaInfo.threeFilesDisk,
        System.new sh' (Bitfield.empty 2) .rarestFirst 0 (fun _ => []), 0⟩
    (l.read = 4 ∧ l.receiver.engine.st.picker.haveField.has 1 = true ∧
      (l.sender.queues 0)[4]? = some (.piece 1 0 (1 :: List.replicate 6 2))) ∧
    (∀ msg ∈ l.sender.queues 0,
      msg.body.length ≤ min sh'.maxFrame Wire.MAX_MESSAGE_LEN ∧
        Message.parse msg.body = .ok msg ∧ Link.received sh' msg = some msg ∧ Carries msg) ∧
      ∀ msg, (l.sender.queues 0)[l.read]? = some msg → ∀ env,
        Acquits sh' env 0 msg l.receiver.engine := by
  refine ⟨by decide +kernel, ?_⟩
  exact never_convicts MetaInfo.threeFiles MetaInfo.threeFilesInfo MetaInfo.parse_threeFiles _ _ _ _
    _ _ _ _ _ _ _ _ _

end Clove.Torrent
