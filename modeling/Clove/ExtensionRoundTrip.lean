import Clove.BencodeCanonical
import Clove.Extension

/-!
# Extension messages round trip

What is encoded is parsed back: an extension handshake, an `i2p_pex` message and a `ut_metadata`
message (`codecs_round_trip`).  The header of a data message is decoded up to its own end, so its
raw bytes may be any.
-/

namespace Clove

open Bencode (Value)

namespace Extension.Handshake

/-- What the types of the source promise: the ids are a map from texts, and the client is a
text. -/
structure Typed (h : Handshake) : Prop where
  ids_sorted : OrdMap.Sorted h.ids
  ids_text : ∀ e ∈ h.ids, Utf8.valid e.1 = true ∧ Bencode.inUsize e.1.length = true
  client_text : ∀ c, h.client = some c → Utf8.valid c = true ∧ Bencode.inUsize c.length = true

/-- An id as an integer. -/
def idValue (e : Bytes × UInt8) : Bytes × Value := (e.1, .int e.2.toNat)

/-- The entries of a handshake. -/
def entries (h : Handshake) : List (Bytes × Value) :=
  [([109], Value.dict (OrdMap.ofEntries (h.ids.map idValue)))]
    ++ (h.metadataSize.map fun n => (METADATA_SIZE_KEY, Value.int (clampI64 n))).toList
    ++ (h.client.map fun c => ([118], Value.bytes c)).toList

theorem encode_eq (h : Handshake) :
    h.encode = Bencode.encode (.dict (OrdMap.ofEntries h.entries)) := rfl

/-- Ids that are on are read back, one after another. -/
theorem parseIds_map {es : List (Bytes × UInt8)}
    (hes : ∀ e ∈ es, e.2 ≠ 0 ∧ Utf8.valid e.1 = true) (ids : List (Bytes × UInt8)) :
    parseIds (es.map idValue) ids = .ok (es.foldl (fun m e => OrdMap.insert e.1 e.2 m) ids) := by
  induction es generalizing ids with
  | nil => rfl
  | cons e es ih =>
      obtain ⟨hon, htext⟩ := hes e List.mem_cons_self
      have hzero : (e.2.toNat : Int) ≠ 0 := by
        intro hzero
        exact hon (UInt8.toNat_inj.1 (by exact_mod_cast hzero))
      have hrange : ¬ ((e.2.toNat : Int) < 0 ∨ 255 < (e.2.toNat : Int)) := by
        have := e.2.toNat_lt
        omega
      rw [List.map_cons, idValue, parseIds]
      simp only [Value.asInt, if_neg hzero, if_neg hrange, htext, if_true, Int.toNat_natCast,
        UInt8.ofNat_toNat]
      exact ih (fun e' he' => hes e' (List.mem_cons_of_mem e he')) _

theorem inI64_clampI64 (n : Nat) : Bencode.inI64 (clampI64 n) = true := by
  rw [Bencode.inI64, Bool.and_eq_true]
  unfold clampI64
  exact ⟨decide_eq_true (by omega), decide_eq_true (by omega)⟩

theorem wellFormed_entries {h : Handshake} (ht : h.Typed) :
    Bencode.WellFormed Bencode.MAX_DEPTH (.dict (OrdMap.ofEntries h.entries)) := by
  refine .dict (OrdMap.sorted_ofEntries _) fun e he => ?_
  have he := Bencode.mem_of_mem_ofEntries he
  simp only [entries, List.mem_append, List.mem_singleton, Option.mem_toList,
    Option.map_eq_some_iff] at he
  rcases he with (rfl | ⟨n, -, rfl⟩) | ⟨c, hc, rfl⟩
  · refine ⟨rfl, .dict (OrdMap.sorted_ofEntries _) fun e he => ?_⟩
    obtain ⟨e', he', rfl⟩ := List.mem_map.1 (Bencode.mem_of_mem_ofEntries he)
    refine ⟨(ht.ids_text e' he').2, ?_⟩
    have := e'.2.toNat_lt
    simp only [idValue, Bencode.WellFormed, Bencode.inI64, Bool.and_eq_true, decide_eq_true_eq]
    omega
  · refine ⟨rfl, ?_⟩
    exact inI64_clampI64 n
  · exact ⟨rfl, (ht.client_text c hc).2⟩

/-- The keys of a handshake differ. -/
theorem nodup_entries (h : Handshake) : (h.entries.map Prod.fst).Nodup := by
  obtain ⟨ids, size, client⟩ := h
  cases size with
  | none =>
      cases client with
      | none => simp [entries]
      | some c => simp [entries]
  | some n =>
      cases client with
      | none => simp [entries, METADATA_SIZE_KEY]
      | some c => simp [entries, METADATA_SIZE_KEY]

/-- Each entry is found under its key. -/
theorem lookup_entries (h : Handshake) :
    h.entries.lookup [109] = some (.dict (OrdMap.ofEntries (h.ids.map idValue))) ∧
      h.entries.lookup METADATA_SIZE_KEY = h.metadataSize.map (fun n => .int (clampI64 n)) ∧
      h.entries.lookup [118] = h.client.map .bytes := by
  obtain ⟨ids, size, client⟩ := h
  refine ⟨rfl, ?_, ?_⟩
  · cases size with
    | none =>
        cases client with
        | none => rfl
        | some c => rfl
    | some n => rfl
  · cases size with
    | none =>
        cases client with
        | none => rfl
        | some c => rfl
    | some n =>
        cases client with
        | none => rfl
        | some c => rfl

/-- A handshake comes back, if its ids are on and its size is an `i64`. -/
theorem parse_encode {h : Handshake} (ht : h.Typed) (hids : ∀ e ∈ h.ids, e.2 ≠ 0)
    (hsize : ∀ n, h.metadataSize = some n → (n : Int) ≤ 9223372036854775807) :
    parse h.encode = .ok h := by
  have hget : ∀ key, Value.get (.dict (OrdMap.ofEntries h.entries)) key = h.entries.lookup key :=
    fun key => OrdMap.lookup_ofEntries h.nodup_entries key
  have hm : (OrdMap.ofEntries (h.ids.map idValue)) = h.ids.map idValue := by
    refine OrdMap.ofEntries_eq_self ?_
    exact List.pairwise_map.2 ht.ids_sorted
  have hids : parseIds (h.ids.map idValue) [] = .ok h.ids := by
    rw [parseIds_map fun e he => ⟨hids e he, (ht.ids_text e he).1⟩]
    exact congrArg Except.ok (OrdMap.ofEntries_eq_self ht.ids_sorted)
  obtain ⟨hlookup, hsizeLookup, hclientLookup⟩ := h.lookup_entries
  have hsizeRead : ((h.metadataSize.map fun n => Value.int (clampI64 n)).bind Value.asInt).bind
      (fun n => if 0 ≤ n then some n.toNat else none) = h.metadataSize := by
    cases hn : h.metadataSize with
    | none => rfl
    | some n =>
        have hclamp : clampI64 n = n := Int.min_eq_left (hsize n hn)
        simp [Value.asInt, hclamp]
  have hclientRead : ((h.client.map Value.bytes).bind Value.asBytes).bind
      (fun b => if Utf8.valid b then some b else none) = h.client := by
    cases hc : h.client with
    | none => rfl
    | some c => simp [Value.asBytes, (ht.client_text c hc).1]
  rw [encode_eq, parse, Bencode.decode_encode (wellFormed_entries ht)]
  simp only [Except.mapError, Except.ok_bind, hget, hlookup, hm, hids, hsizeLookup, hclientLookup,
    hsizeRead, hclientRead]

/-- The ids that are read are on. -/
theorem ne_zero_of_parseIds {m : List (Bytes × Value)} {ids ids' : List (Bytes × UInt8)}
    (h : parseIds m ids = .ok ids') (hids : ∀ e ∈ ids, e.2 ≠ 0) : ∀ e ∈ ids', e.2 ≠ 0 := by
  induction m generalizing ids with
  | nil =>
      obtain rfl := Except.ok.inj h
      exact hids
  | cons e m ih =>
      obtain ⟨name, value⟩ := e
      rw [parseIds] at h
      split at h
      · cases h
      · rename_i id _
        split at h
        · exact ih h hids
        · rename_i hzero
          split at h
          · cases h
          · rename_i hrange
            split at h
            · refine ih h fun e he => ?_
              rcases OrdMap.mem_insert he with rfl | he
              · intro hoff
                have hoff := congrArg UInt8.toNat hoff
                simp only [UInt8.toNat_ofNat', UInt8.toNat_zero] at hoff
                omega
              · exact hids e he
            · cases h

/-- A parsed handshake names no extension by zero. -/
theorem idFor_ne_zero {payload : Bytes} {h : Handshake} (hparse : parse payload = .ok h)
    (name : Bytes) : h.idFor name ≠ some 0 := by
  obtain ⟨root, -, hparse⟩ := Except.ok_of_bind hparse
  have hon : ∀ e ∈ h.ids, e.2 ≠ 0 := by
    simp only at hparse
    split at hparse
    · obtain ⟨ids, hids, hparse⟩ := Except.ok_of_bind hparse
      obtain rfl := Except.ok.inj hparse
      exact ne_zero_of_parseIds hids (by simp)
    · obtain rfl := Except.ok.inj hparse
      simp
  exact fun hzero => hon _ (OrdMap.mem_of_lookup hzero) rfl

end Extension.Handshake

namespace Pex

theorem length_pack (peers : List DestHash) : (pack peers).length = 32 * peers.length := by
  induction peers with
  | nil => rfl
  | cons p peers ih =>
      have hcons : pack (p :: peers) = p.bytes ++ pack peers := rfl
      rw [hcons, List.length_append, p.length_bytes, ih, List.length_cons]
      omega

/-- Hashes put together are cut where they were. -/
theorem chunks_pack {fuel : Nat} {peers : List DestHash} (hfuel : peers.length ≤ fuel) :
    chunks fuel (pack peers) = some peers := by
  induction peers generalizing fuel with
  | nil =>
      have hnil : pack [] = [] := rfl
      rw [hnil, chunks]
  | cons p peers ih =>
      rw [List.length_cons] at hfuel
      obtain ⟨fuel, rfl⟩ := Nat.exists_eq_add_one.2 (Nat.lt_of_lt_of_le (Nat.succ_pos _) hfuel)
      have htake : (pack (p :: peers)).take 32 = p.bytes :=
        List.take_left' p.length_bytes
      have hdrop : (pack (p :: peers)).drop 32 = pack peers :=
        List.drop_left' p.length_bytes
      cases hbytes : pack (p :: peers) with
      | nil =>
          have hlength := length_pack (p :: peers)
          rw [hbytes, List.length_nil, List.length_cons] at hlength
          omega
      | cons b bs =>
          rw [hbytes] at htake hdrop
          have hlength : ((b :: bs).take 32).length = 32 := htake ▸ p.length_bytes
          have hp : (⟨(b :: bs).take 32, hlength⟩ : DestHash) = p := by
            obtain ⟨bytes, h⟩ := p
            exact DestHash.mk.injEq .. ▸ htake
          rw [chunks, dif_pos hlength, hdrop, ih (Nat.le_of_lt_succ hfuel), Option.map_some, hp]
          exact List.cons_ne_nil b bs

theorem unpack_pack (peers : List DestHash) : unpack (some (.bytes (pack peers))) = .ok peers := by
  have hfuel : peers.length ≤ (pack peers).length := by
    rw [length_pack]
    omega
  simp only [unpack, chunks_pack hfuel]

/-- A message of few enough peers comes back. -/
theorem PexMessage.parse_encode {m : PexMessage}
    (hfew : m.added.length + m.dropped.length ≤ MAX_PEX_PEERS) : parse m.encode = .ok m := by
  have hlimit : MAX_PEX_PEERS = 512 := rfl
  have hfit : ∀ peers : List DestHash, peers.length ≤ 512 →
      Bencode.inUsize (pack peers).length = true := by
    intro peers hpeers
    rw [Bencode.inUsize, length_pack]
    exact decide_eq_true (by omega)
  have hsorted : OrdMap.ofEntries [(ADDED, Value.bytes (pack m.added)),
      (DROPPED, Value.bytes (pack m.dropped))] =
      [(ADDED, .bytes (pack m.added)), (DROPPED, .bytes (pack m.dropped))] := rfl
  have hwell : Bencode.WellFormed Bencode.MAX_DEPTH (.dict (OrdMap.ofEntries
      [(ADDED, .bytes (pack m.added)), (DROPPED, .bytes (pack m.dropped))])) := by
    refine ⟨OrdMap.sorted_ofEntries _, ?_⟩
    rw [hsorted]
    exact ⟨rfl, hfit _ (by omega), rfl, hfit _ (by omega), trivial⟩
  have hadded : Value.get (.dict (OrdMap.ofEntries [(ADDED, .bytes (pack m.added)),
      (DROPPED, .bytes (pack m.dropped))])) ADDED = some (.bytes (pack m.added)) := rfl
  have hdropped : Value.get (.dict (OrdMap.ofEntries [(ADDED, .bytes (pack m.added)),
      (DROPPED, .bytes (pack m.dropped))])) DROPPED = some (.bytes (pack m.dropped)) := rfl
  rw [encode, parse, Bencode.decode_encode hwell]
  simp only [Except.mapError, Except.ok_bind, hadded, hdropped, unpack_pack]
  rw [if_neg (Nat.not_lt.2 hfew)]

/-- No message of more peers is parsed. -/
theorem PexMessage.length_le_of_parse {payload : Bytes} {m : PexMessage}
    (h : parse payload = .ok m) : m.added.length + m.dropped.length ≤ MAX_PEX_PEERS := by
  obtain ⟨root, -, h⟩ := Except.ok_of_bind h
  obtain ⟨added, -, h⟩ := Except.ok_of_bind h
  obtain ⟨dropped, -, h⟩ := Except.ok_of_bind h
  split at h
  · cases h
  · rename_i hfew
    obtain rfl := Except.ok.inj h
    exact Nat.le_of_not_lt hfew

end Pex

namespace Metadata.MetadataMessage

/-- What the types of the source promise: the numbers are `u32`. -/
def Typed : MetadataMessage → Prop
  | .request piece => piece ≤ U32_MAX
  | .reject piece => piece ≤ U32_MAX
  | .data piece totalSize _ => piece ≤ U32_MAX ∧ totalSize ≤ U32_MAX

theorem inI64_of_u32 {n : Nat} (h : n ≤ U32_MAX) : Bencode.inI64 (n : Int) = true := by
  have hmax : U32_MAX = 4294967295 := rfl
  rw [Bencode.inI64, Bool.and_eq_true]
  exact ⟨decide_eq_true (by omega), decide_eq_true (by omega)⟩

/-- A number under its key is read. -/
theorem u32Field_of_get {v : Value} {key : Bytes} {n : Nat} (hget : v.get key = some (.int n))
    (h : n ≤ U32_MAX) : u32Field v key = .ok n := by
  have hrange : (0 : Int) ≤ n ∧ (n : Int) ≤ U32_MAX := ⟨Int.natCast_nonneg n, by exact_mod_cast h⟩
  simp only [u32Field, hget, Option.bind_some, Value.asInt, if_pos hrange, Int.toNat_natCast]

/-- A message comes back, whatever its raw bytes are. -/
theorem parse_encode {m : MetadataMessage} (ht : m.Typed)
    (hlength : m.trailer.length ≤ METADATA_PIECE_LEN) : parse m.encode = .ok m := by
  have hentries : OrdMap.ofEntries m.header = m.header := by
    cases m with
    | request piece => rfl
    | reject piece => rfl
    | data piece totalSize raw => rfl
  have hwell : Bencode.WellFormed Bencode.MAX_DEPTH (.dict (OrdMap.ofEntries m.header)) := by
    refine ⟨OrdMap.sorted_ofEntries _, ?_⟩
    rw [hentries]
    cases m with
    | request piece => exact ⟨rfl, rfl, rfl, inI64_of_u32 ht, trivial⟩
    | reject piece => exact ⟨rfl, rfl, rfl, inI64_of_u32 ht, trivial⟩
    | data piece totalSize raw =>
        exact ⟨rfl, rfl, rfl, inI64_of_u32 ht.1, rfl, inI64_of_u32 ht.2, trivial⟩
  have hdrop : m.encode.drop (Bencode.encode (.dict m.header)).length = m.trailer := by
    rw [encode, hentries]
    exact List.drop_left
  rw [parse]
  nth_rewrite 1 [encode]
  rw [Bencode.decodePrefix_encode hwell m.trailer]
  simp only [Except.mapError, Except.ok_bind, hentries, hdrop]
  cases m with
  | request piece =>
      have hpiece : u32Field (.dict (request piece).header) PIECE = .ok piece :=
        u32Field_of_get rfl ht
      rw [hpiece]
      rfl
  | reject piece =>
      have hpiece : u32Field (.dict (reject piece).header) PIECE = .ok piece :=
        u32Field_of_get rfl ht
      rw [hpiece]
      rfl
  | data piece totalSize raw =>
      have hpiece : u32Field (.dict (data piece totalSize raw).header) PIECE = .ok piece :=
        u32Field_of_get rfl ht.1
      have htotal : u32Field (.dict (data piece totalSize raw).header) TOTAL_SIZE = .ok totalSize :=
        u32Field_of_get rfl ht.2
      have htype : ((Value.dict (data piece totalSize raw).header).get MSG_TYPE).bind Value.asInt =
          some 1 := rfl
      simp only [hpiece, htotal, htype, Except.ok_bind]
      rw [if_neg (Nat.not_lt.2 hlength)]
      rfl

/-- A number that is read is a `u32`. -/
theorem le_of_u32Field {v : Value} {key : Bytes} {n : Nat} (h : u32Field v key = .ok n) :
    n ≤ U32_MAX := by
  unfold u32Field at h
  split at h
  · split at h
    · rename_i i _ hrange
      obtain rfl := Except.ok.inj h
      exact Int.toNat_le.2 hrange.2
    · cases h
  · cases h

/-- A message that is parsed is one the source can hold. -/
theorem typed_of_parse {payload : Bytes} {m : MetadataMessage} (h : parse payload = .ok m) :
    m.Typed := by
  obtain ⟨⟨root, consumed⟩, -, h⟩ := Except.ok_of_bind h
  obtain ⟨piece, hpiece, h⟩ := Except.ok_of_bind h
  have hpiece := le_of_u32Field hpiece
  split at h
  · obtain rfl := Except.ok.inj h
    exact hpiece
  · obtain rfl := Except.ok.inj h
    exact hpiece
  · obtain ⟨total, htotal, h⟩ := Except.ok_of_bind h
    simp only at h
    split at h
    · cases h
    · obtain rfl := Except.ok.inj h
      exact ⟨hpiece, le_of_u32Field htotal⟩
  · cases h

end Metadata.MetadataMessage

/-- The payloads of the extensions come back: every handshake with its ids on and its size an
`i64`, every `i2p_pex` message of few enough peers, and every `ut_metadata` message whose bytes are
a piece at most.  No `i2p_pex` message of more peers is parsed. -/
theorem codecs_round_trip :
    (∀ h : Extension.Handshake, h.Typed → (∀ e ∈ h.ids, e.2 ≠ 0) →
      (∀ n, h.metadataSize = some n → (n : Int) ≤ 9223372036854775807) →
      Extension.Handshake.parse h.encode = .ok h) ∧
    (∀ m : Pex.PexMessage, m.added.length + m.dropped.length ≤ Pex.MAX_PEX_PEERS →
      Pex.PexMessage.parse m.encode = .ok m) ∧
    (∀ payload m, Pex.PexMessage.parse payload = .ok m →
      m.added.length + m.dropped.length ≤ Pex.MAX_PEX_PEERS) ∧
    ∀ m : Metadata.MetadataMessage, m.Typed → m.trailer.length ≤ Metadata.METADATA_PIECE_LEN →
      Metadata.MetadataMessage.parse m.encode = .ok m :=
  ⟨fun _ => Extension.Handshake.parse_encode, fun _ => Pex.PexMessage.parse_encode,
    fun _ _ => Pex.PexMessage.length_le_of_parse, fun _ => Metadata.MetadataMessage.parse_encode⟩

end Clove
