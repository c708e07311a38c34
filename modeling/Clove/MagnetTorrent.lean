import Clove.AnnounceRequest
import Clove.Base32

/-!
# From a magnet to a torrent

Both spellings of a hash are read as that hash (`infoHash_of_spells`), and the torrent file that is
made of a fetched info dictionary and the link's announce URLs parses as the dictionary's torrent
with one tier for each URL (`parse_torrentBytes`).
-/

namespace Clove

open Bencode (Value)
open TrackerUrl (toAsciiLowercase)
open Utf8 (ascii)

namespace Magnet

/-! ## Spellings -/

/-- A text that spells a hash: its digits or its base32 characters, in any case. -/
def Spells (text hash : Bytes) : Prop :=
  toAsciiLowercase text = Hex.encode hash ∨ toAsciiLowercase text = Addr.base32Encode hash

theorem value_eq_lowerValue (c : UInt8) :
    Hex.value c = Hex.lowerValue (if 65 ≤ c ∧ c ≤ 90 then c + 32 else c) := by
  have hall : ∀ k : Fin 256, Hex.value (UInt8.ofFin k) =
      Hex.lowerValue (if 65 ≤ UInt8.ofFin k ∧ UInt8.ofFin k ≤ 90 then UInt8.ofFin k + 32
        else UInt8.ofFin k) := by
    decide +kernel
  exact hall c.toFin

/-- Digits of either case are read as lower-case ones. -/
theorem decode_value (text : Bytes) :
    Hex.decode Hex.value text = Hex.decode Hex.lowerValue (toAsciiLowercase text) := by
  induction text using Hex.decode.induct with
  | case1 => rfl
  | case2 c => rfl
  | case3 hi lo cs ih =>
      have hcons : toAsciiLowercase (hi :: lo :: cs) =
          (if 65 ≤ hi ∧ hi ≤ 90 then hi + 32 else hi) ::
            (if 65 ≤ lo ∧ lo ≤ 90 then lo + 32 else lo) :: toAsciiLowercase cs := rfl
      rw [hcons, Hex.decode, Hex.decode, ih, value_eq_lowerValue hi, value_eq_lowerValue lo]

/-- What spells a hash is read as it. -/
theorem parseBtih_of_spells {text hash : Bytes} (hlength : hash.length = 20)
    (h : Spells text hash) : parseBtih text = .ok hash := by
  have hlower : (toAsciiLowercase text).length = text.length := List.length_map _
  rcases h with h | h
  · have hdouble := (Hex.decode_some (Hex.decode_encode hash)).1
    have hforty : text.length = 40 := by
      rw [← hlower, h, hdouble, hlength]
    simp only [parseBtih, hforty, if_true, decode_value, h, Hex.decode_encode]
  · have hdecode := Addr.base32Decode_base32Encode hash
    have hcount := Addr.length_base32Encode (show 5 ∣ hash.length by
      rw [hlength]
      decide)
    have hthirty : text.length = 32 := by
      rw [← hlower, h]
      omega
    have hne : ¬ text.length = 40 := by omega
    simp only [parseBtih, if_neg hne, if_pos hthirty, h, hdecode]
    rw [Option.filter_some, if_pos (decide_eq_true hlength)]

/-! ## Links -/

/-- A pair that names a hash. -/
def topic (text : Bytes) : Bytes := ascii "xt=urn:btih:" ++ text

theorem splitOnce_some {c : UInt8} {s a r : Bytes} (h : splitOnce c s = some (a, r)) :
    s = a ++ c :: r := by
  obtain ⟨⟨x, y⟩, hsplit, heq⟩ := Option.map_eq_some_iff.1 h
  obtain ⟨rfl, rfl⟩ := Prod.mk.inj heq
  obtain ⟨-, hs, r', rfl⟩ := TrackerUrl.splitAt_eq_some hsplit
  exact hs

/-- A pair that names no hash leaves the hash as it is. -/
theorem readPair_other {pair : Bytes} (h : ∀ text, pair ≠ topic text) (s : Draft) :
    ∃ s', readPair s pair = .ok s' ∧ s'.infoHash = s.infoHash := by
  unfold readPair
  cases hsplit : splitOnce 61 pair with
  | none => exact ⟨s, rfl, rfl⟩
  | some p =>
      obtain ⟨key, value⟩ := p
      simp only
      split
      · rename_i hkey
        have hnone : value.dropPrefix? (ascii "urn:btih:") = none := by
          rw [Option.eq_none_iff_forall_ne_some]
          intro text htext
          have hpair := splitOnce_some hsplit
          rw [dropPrefix?_eq_some.1 htext, hkey] at hpair
          exact h text hpair
        rw [readTopic, hnone]
        exact ⟨_, rfl, rfl⟩
      · split
        · exact ⟨_, rfl, rfl⟩
        · split
          · split
            · exact ⟨_, rfl, rfl⟩
            · exact ⟨_, rfl, rfl⟩
          · exact ⟨_, rfl, rfl⟩

/-- A pair that names the hash again, or first, is read. -/
theorem readPair_topic {text hash : Bytes} (hlength : hash.length = 20) (h : Spells text hash)
    {s : Draft} (hs : s.infoHash = none ∨ s.infoHash = some hash) :
    readPair s (topic text) = .ok { s with infoHash := some hash } := by
  have hsplit : splitOnce 61 (topic text) = some (ascii "xt", ascii "urn:btih:" ++ text) :=
    Tracker.splitOnce_eq_some (show 61 ∉ ascii "xt" by decide) (ascii "urn:btih:" ++ text)
  have hseen : s.infoHash.any (· ≠ hash) = false := by
    rcases hs with hs | hs
    · rw [hs]
      rfl
    · rw [hs]
      simp
  rw [readPair, hsplit]
  simp only [if_true, readTopic, dropPrefix?_eq_some.2 rfl, parseBtih_of_spells hlength h,
    Except.bind, hseen, Bool.false_eq_true, if_false]
  rfl

/-- Pairs that name only the hash are read, and the hash is found if one of them names it. -/
theorem foldlM_readPair {hash : Bytes} (hlength : hash.length = 20) {pairs : List Bytes}
    (h : ∀ text, topic text ∈ pairs → Spells text hash) {s : Draft}
    (hs : s.infoHash = none ∨ s.infoHash = some hash) :
    ∃ s', pairs.foldlM readPair s = .ok s' ∧
      (s.infoHash = some hash ∨ (∃ text, topic text ∈ pairs) → s'.infoHash = some hash) := by
  induction pairs generalizing s with
  | nil => exact ⟨s, rfl, fun hsome => hsome.resolve_right fun ⟨_, hin⟩ => absurd hin List.not_mem_nil⟩
  | cons pair pairs ih =>
      have hrest : ∀ text, topic text ∈ pairs → Spells text hash := fun text hin =>
        h text (List.mem_cons_of_mem _ hin)
      rw [List.foldlM_cons]
      by_cases hnames : ∃ text, pair = topic text
      · obtain ⟨text, rfl⟩ := hnames
        obtain ⟨s', hread, hfound⟩ := ih (s := { s with infoHash := some hash }) hrest (.inr rfl)
        rw [readPair_topic hlength (h text List.mem_cons_self) hs, Except.ok_bind]
        exact ⟨s', hread, fun _ => hfound (.inl rfl)⟩
      · obtain ⟨next, hnext, hsame⟩ := readPair_other (fun text heq => hnames ⟨text, heq⟩) s
        obtain ⟨s', hread, hfound⟩ := ih hrest (hsame ▸ hs)
        rw [hnext, Except.ok_bind]
        refine ⟨s', hread, fun hsome => hfound ?_⟩
        rcases hsome with hsome | ⟨text, hin⟩
        · exact .inl (hsame.trans hsome)
        · rcases List.mem_cons.1 hin with heq | hin
          · exact absurd ⟨text, heq.symm⟩ hnames
          · exact .inr ⟨text, hin⟩

/-- A link of some pairs. -/
def link (pairs : List Bytes) : Bytes := ascii "magnet:?" ++ [38].intercalate pairs

/-- A link that names a hash, in either spelling and no other, is read as that hash. -/
theorem infoHash_of_spells {hash : Bytes} (hlength : hash.length = 20) {pairs : List Bytes}
    (hpairs : ∀ pair ∈ pairs, 38 ∉ pair) (hnames : ∃ text, topic text ∈ pairs)
    (h : ∀ text, topic text ∈ pairs → Spells text hash) :
    ∃ m, parse (link pairs) = .ok m ∧ m.infoHash = hash := by
  have hne : pairs ≠ [] := by
    rintro rfl
    obtain ⟨text, hin⟩ := hnames
    exact absurd hin List.not_mem_nil
  obtain ⟨s, hread, hfound⟩ :=
    foldlM_readPair hlength h (s := ⟨none, none, [], 0⟩) (.inl rfl)
  rw [link, parse, dropPrefix?_eq_some.2 rfl]
  simp only [List.splitOn_intercalate 38 hpairs hne, hread, Except.ok_bind,
    hfound (.inr hnames)]
  exact ⟨_, rfl, rfl⟩

/-- What spells a hash does not end the pair it is in. -/
theorem amp_notMem_of_spells {text hash : Bytes} (h : Spells text hash) : 38 ∉ text := by
  rw [← TrackerUrl.mem_toAsciiLowercase (by decide)]
  intro hin
  rcases h with h | h
  · rw [h] at hin
    exact absurd ((Hex.decode_some (Hex.decode_encode hash)).2 38 hin) (by decide)
  · rw [h] at hin
    exact absurd (Addr.mem_alphabet_of_base32Encode hin) (by decide)

/-- A link that is a hash and nothing else is read as that hash. -/
theorem infoHash_plain {hash text : Bytes} (hlength : hash.length = 20) (h : Spells text hash) :
    ∃ m, parse (ascii "magnet:?xt=urn:btih:" ++ text) = .ok m ∧ m.infoHash = hash := by
  have hlink : ascii "magnet:?xt=urn:btih:" ++ text = link [topic text] := by
    simp [link, topic, ascii]
  have hamp : 38 ∉ topic text := by
    have hname : 38 ∉ ascii "xt=urn:btih:" := by decide
    rw [topic, List.mem_append, not_or]
    exact ⟨hname, amp_notMem_of_spells h⟩
  rw [hlink]
  refine infoHash_of_spells hlength ?_ ⟨text, List.mem_cons_self⟩ ?_
  · intro pair hpair
    rw [List.mem_singleton.1 hpair]
    exact hamp
  · intro other hother
    rwa [List.append_cancel_left (List.mem_singleton.1 hother)]

/-! ## The torrent of a link -/

/-- One tier for each URL. -/
def tiersValue (trackers : List Bytes) : Value := .list (trackers.map fun url => .list [.bytes url])

/-- The torrent file of a fetched info dictionary and the announce URLs of its link. -/
def torrentBytes (rawInfo : Bytes) (trackers : List Bytes) : Bytes :=
  ascii "d" ++
    (if trackers = [] then [] else ascii "13:announce-list" ++ Bencode.encode (tiersValue trackers)) ++
    ascii "4:info" ++ rawInfo ++ ascii "e"

/-- What the type of the URLs promises: they are texts. -/
def Texts (urls : List Bytes) : Prop :=
  ∀ url ∈ urls, Utf8.valid url = true ∧ Bencode.inUsize url.length = true

theorem wellFormed_tiersValue {urls : List Bytes} (h : Texts urls) :
    Bencode.WellFormed 3 (tiersValue urls) := by
  unfold tiersValue
  rw [Bencode.WellFormed]
  induction urls with
  | nil => exact trivial
  | cons url urls ih =>
      exact ⟨⟨(h url List.mem_cons_self).2, trivial⟩, ih fun u hu => h u (List.mem_cons_of_mem _ hu)⟩

/-- Every URL that may be dialled is kept, in a tier of its own. -/
theorem keepTiers_map {urls : List Bytes} (htexts : Texts urls)
    (hdial : ∀ url ∈ urls, Metainfo.isI2pTracker url = true) {tiers : List (List Bytes)} {total : Nat}
    (hfew : total + urls.length ≤ Metainfo.MAX_TRACKERS) (skipped : Nat) :
    Metainfo.keepTiers (urls.map fun url => .list [.bytes url]) (tiers, total, skipped) =
      .ok (tiers ++ urls.map ([·]), total + urls.length, skipped) := by
  induction urls generalizing tiers total with
  | nil => simp [Metainfo.keepTiers]
  | cons url urls ih =>
      rw [List.length_cons] at hfew
      have hurl : (Value.bytes url).asStr = some url := by
        simp [Value.asStr, Value.asBytes, (htexts url List.mem_cons_self).1]
      have hkeep : (Metainfo.isI2pTracker url && decide (total < Metainfo.MAX_TRACKERS)) = true := by
        rw [hdial url List.mem_cons_self, Bool.true_and]
        exact decide_eq_true (by omega)
      have hone : Metainfo.keepUrls [.bytes url] ([], total, skipped) =
          .ok ([url], total + 1, skipped) := by
        simp only [Metainfo.keepUrls, hurl, Metainfo.require, Except.ok_bind, hkeep, if_true,
          List.nil_append]
      have hnext : Metainfo.keepTiers (urls.map fun url => .list [.bytes url])
          (tiers ++ [[url]], total + 1, skipped) =
          .ok (tiers ++ [[url]] ++ urls.map ([·]), total + 1 + urls.length, skipped) :=
        ih (fun u hu => htexts u (List.mem_cons_of_mem _ hu))
          (fun u hu => hdial u (List.mem_cons_of_mem _ hu)) (by omega)
      rw [List.map_cons, Metainfo.keepTiers]
      simp only [Value.asList, Metainfo.require, Except.ok_bind, hone]
      rw [if_neg (by simp), hnext]
      simp [Nat.add_assoc, Nat.add_comm 1]

end Magnet

namespace MetaInfo

variable {sha1 toLowercase : Bytes → Bytes}

/-- The tables beside the info dictionary matter for the announce URLs only. -/
theorem parseInfo_trackers {root root' info : Value} {raw : Bytes} {m : MetaInfo}
    {trackers : List (List Bytes)} {skipped : Nat}
    (h : Metainfo.parseInfo sha1 toLowercase root info raw = .ok m)
    (htrackers : Metainfo.parseTrackers root' = .ok (trackers, skipped)) :
    Metainfo.parseInfo sha1 toLowercase root' info raw =
      .ok { m with trackers, skippedTrackers := skipped } := by
  unfold Metainfo.parseInfo at h ⊢
  obtain ⟨name, hname, h⟩ := Except.ok_of_bind h
  obtain ⟨_, hcheck, h⟩ := Except.ok_of_bind h
  obtain ⟨pieceLength, hlength, h⟩ := Except.ok_of_bind h
  obtain ⟨_, hrange, h⟩ := Except.ok_of_bind h
  obtain ⟨pieces, hpieces, h⟩ := Except.ok_of_bind h
  obtain ⟨_, haligned, h⟩ := Except.ok_of_bind h
  obtain ⟨⟨files, total⟩, hfiles, h⟩ := Except.ok_of_bind h
  obtain ⟨_, hmany, h⟩ := Except.ok_of_bind h
  obtain ⟨_, hcount, h⟩ := Except.ok_of_bind h
  obtain ⟨_, -, h⟩ := Except.ok_of_bind h
  obtain rfl := Except.ok.inj h
  simp only [hname, hcheck, hlength, hrange, hpieces, haligned, hfiles, hmany, hcount, htrackers,
    Except.ok_bind]
  rfl

/-- A file whose last entry is an info dictionary is the torrent of that dictionary. -/
theorem parse_entries {pre : List (Bytes × Bytes × Value)} {raw : Bytes} {v : Value}
    (hkeys : ∀ p ∈ pre, Bencode.inUsize p.1.length = true)
    (hpre : ∀ p ∈ pre, Bencode.Derives (Bencode.MAX_DEPTH - 1) p.2.1 p.2.2)
    (hnodup : ((pre ++ [(ascii "info", raw, v)]).map Prod.fst).Nodup)
    (hv : Bencode.Derives (Bencode.MAX_DEPTH - 1) raw v) :
    parse sha1 toLowercase
        (100 :: (Bencode.entriesText (pre ++ [(ascii "info", raw, v)]) ++ [101])) =
      (Metainfo.refuse v.asDict.isNone "info is not a dictionary").bind fun _ =>
        Metainfo.parseInfo sha1 toLowercase (.dict (OrdMap.ofEntries
          ((pre ++ [(ascii "info", raw, v)]).map fun p => (p.1, p.2.2)))) v raw := by
  have hkeysAll : ∀ p ∈ pre ++ [(ascii "info", raw, v)], Bencode.inUsize p.1.length = true := by
    intro p hp
    rcases List.mem_append.1 hp with hp | hp
    · exact hkeys p hp
    · rw [List.mem_singleton.1 hp]
      rfl
  have hall : ∀ p ∈ pre ++ [(ascii "info", raw, v)],
      Bencode.Derives (Bencode.MAX_DEPTH - 1) p.2.1 p.2.2 := by
    intro p hp
    rcases List.mem_append.1 hp with hp | hp
    · exact hpre p hp
    · rw [List.mem_singleton.1 hp]
      exact hv
  have hdecode := Bencode.decodeWithEntry_dict hkeysAll hall hnodup (ascii "info")
  have hmem : (ascii "info", raw, v) ∈ pre ++ [(ascii "info", raw, v)] := by simp
  obtain ⟨before, after, htext, hspan⟩ := Bencode.entrySpan_of_mem hnodup hmem
  have hlookup : Value.get (.dict (OrdMap.ofEntries
      ((pre ++ [(ascii "info", raw, v)]).map fun p => (p.1, p.2.2)))) (ascii "info") = some v := by
    have hkeysNodup : (((pre ++ [(ascii "info", raw, v)]).map fun p => (p.1, p.2.2)).map
        Prod.fst).Nodup := by simpa [Function.comp_def] using hnodup
    exact (OrdMap.lookup_ofEntries hkeysNodup _).trans
      (OrdMap.lookup_of_mem hkeysNodup (List.mem_map_of_mem hmem))
  have hraw : ((100 :: (Bencode.entriesText (pre ++ [(ascii "info", raw, v)]) ++ [101])).take
      (1 + before.length + raw.length)).drop (1 + before.length) = raw := by
    have hsplit : 100 :: (Bencode.entriesText (pre ++ [(ascii "info", raw, v)]) ++ [101]) =
        (100 :: before) ++ (raw ++ (after ++ [101])) := by
      rw [htext]
      simp
    have hlength : 1 + before.length = (100 :: before).length := Nat.add_comm _ _
    rw [hsplit, hlength, List.take_length_add_append, List.drop_left, List.take_left]
  rw [parse, hdecode, hspan]
  simp only [Except.mapError, Except.ok_bind, hlookup, Metainfo.require, hraw]
  rfl

/-- The entries of a torrent file before its info dictionary. -/
def announceEntries (urls : List Bytes) : List (Bytes × Bytes × Value) :=
  if urls = [] then []
  else [(ascii "announce-list", Bencode.encode (Magnet.tiersValue urls), Magnet.tiersValue urls)]

/-- The tables of a torrent file. -/
def torrentRoot (urls : List Bytes) (raw : Bytes) (v : Value) : Value :=
  .dict (OrdMap.ofEntries ((announceEntries urls ++ [(ascii "info", raw, v)]).map
    fun p => (p.1, p.2.2)))

theorem torrentBytes_eq (urls : List Bytes) (raw : Bytes) (v : Value) :
    Magnet.torrentBytes raw urls =
      100 :: (Bencode.entriesText (announceEntries urls ++ [(ascii "info", raw, v)]) ++ [101]) := by
  have hinfo : Bencode.putBytes (ascii "info") = ascii "4:info" := by decide
  have hlist : Bencode.putBytes (ascii "announce-list") = ascii "13:announce-list" := by
    decide +kernel
  have hopen : ascii "d" = [100] := rfl
  have hclose : ascii "e" = [101] := rfl
  unfold Magnet.torrentBytes announceEntries
  split
  · simp [Bencode.entriesText, hinfo, hopen, hclose]
  · simp [Bencode.entriesText, hinfo, hlist, hopen, hclose]

/-- A torrent file is read as its info dictionary. -/
theorem parse_torrentBytes_eq {urls : List Bytes} (htexts : Magnet.Texts urls) {raw : Bytes}
    {v : Value} (hv : Bencode.Derives (Bencode.MAX_DEPTH - 1) raw v) :
    parse sha1 toLowercase (Magnet.torrentBytes raw urls) =
      (Metainfo.refuse v.asDict.isNone "info is not a dictionary").bind fun _ =>
        Metainfo.parseInfo sha1 toLowercase (torrentRoot urls raw v) v raw := by
  have htiers : Bencode.Derives (Bencode.MAX_DEPTH - 1) (Bencode.encode (Magnet.tiersValue urls))
      (Magnet.tiersValue urls) :=
    (Bencode.derives_encode (Magnet.wellFormed_tiersValue htexts)).mono (by decide)
  rw [torrentBytes_eq urls raw v]
  refine parse_entries ?_ ?_ ?_ hv
  · unfold announceEntries
    split
    · simp
    · intro p hp
      rw [List.mem_singleton.1 hp]
      rfl
  · unfold announceEntries
    split
    · simp
    · intro p hp
      rw [List.mem_singleton.1 hp]
      exact htiers
  · unfold announceEntries
    split
    · simp
    · have hne : ascii "announce-list" ≠ ascii "info" := by decide
      simp [hne]

/-- Bytes that are kept as the info dictionary were read as one, beside no announce URL. -/
theorem parseInfo_of_fromInfoDict {r : Bytes} {m : MetaInfo}
    (h : fromInfoDict sha1 toLowercase r = .ok m) (hraw : m.rawInfo = r) :
    ∃ v, Bencode.Derives (Bencode.MAX_DEPTH - 1) r v ∧
      Metainfo.refuse v.asDict.isNone "info is not a dictionary" = .ok () ∧
      Metainfo.parseInfo sha1 toLowercase (torrentRoot [] r v) v r = .ok m := by
  obtain ⟨v, -, -, hderives, -, -⟩ := fromInfoDict_ok h
  rw [hraw] at hderives
  have hwrap : ascii "d4:info" ++ r ++ ascii "e" = Magnet.torrentBytes r [] := by
    simp [Magnet.torrentBytes, ascii]
  rw [fromInfoDict, hwrap, parse_torrentBytes_eq (fun _ hu => absurd hu List.not_mem_nil) hderives] at h
  obtain ⟨u, hdict, h⟩ := Except.ok_of_bind h
  exact ⟨v, hderives, hdict, h⟩

/-- The URLs are the tiers that are read. -/
theorem parseTrackers_torrentRoot {urls : List Bytes} (htexts : Magnet.Texts urls)
    (hfew : urls.length ≤ Metainfo.MAX_TRACKERS)
    (hdial : ∀ url ∈ urls, Metainfo.isI2pTracker url = true) (raw : Bytes) (v : Value) :
    Metainfo.parseTrackers (torrentRoot urls raw v) = .ok (urls.map ([·]), 0) := by
  by_cases hnone : urls = []
  · subst hnone
    rfl
  · have hget : (torrentRoot urls raw v).get (ascii "announce-list") =
        some (Magnet.tiersValue urls) := by
      unfold torrentRoot announceEntries
      rw [if_neg hnone]
      rfl
    have hkeep : Metainfo.keepTiers (urls.map fun url => .list [.bytes url]) ([], 0, 0) =
        .ok ([] ++ urls.map ([·]), 0 + urls.length, 0) :=
      Magnet.keepTiers_map htexts hdial (by rwa [Nat.zero_add]) 0
    simp only [Metainfo.parseTrackers, hget, Magnet.tiersValue, Value.asList, Metainfo.require,
      Except.ok_bind, hkeep, List.nil_append]

/-- The torrent file of a fetched info dictionary is the torrent of the dictionary, with a tier for
each URL. -/
theorem parse_torrentBytes {r : Bytes} {m : MetaInfo} {urls : List Bytes}
    (h : fromInfoDict sha1 toLowercase r = .ok m) (hraw : m.rawInfo = r) (htexts : Magnet.Texts urls)
    (hfew : urls.length ≤ Metainfo.MAX_TRACKERS)
    (hdial : ∀ url ∈ urls, Metainfo.isI2pTracker url = true) :
    parse sha1 toLowercase (Magnet.torrentBytes r urls) =
      .ok { m with trackers := urls.map ([·]), skippedTrackers := 0 } := by
  obtain ⟨v, hderives, hdict, hinfo⟩ := parseInfo_of_fromInfoDict h hraw
  rw [parse_torrentBytes_eq htexts hderives, hdict]
  exact parseInfo_trackers hinfo (parseTrackers_torrentRoot htexts hfew hdial r v)

/-- The info dictionary of a torrent is one value, with its texts in it, and the fields of the torrent
are read from it. -/
theorem info_of_parse {input : Bytes} {m : MetaInfo} (h : parse sha1 toLowercase input = .ok m) :
    ∃ root v, Bencode.Derives (Bencode.MAX_DEPTH - 1) m.rawInfo v ∧
      Metainfo.refuse v.asDict.isNone "info is not a dictionary" = .ok () ∧
      Metainfo.parseInfo sha1 toLowercase root v m.rawInfo = .ok m := by
  unfold parse at h
  obtain ⟨⟨root, span⟩, hdecode, h⟩ := Except.ok_of_bind h
  obtain ⟨info, hinfo, h⟩ := Except.ok_of_bind h
  obtain ⟨_, hdict, h⟩ := Except.ok_of_bind h
  obtain ⟨⟨start, stop⟩, hspan, h⟩ := Except.ok_of_bind h
  rw [Metainfo.of_require hspan] at hdecode
  obtain ⟨-, -, v, hget, hderives⟩ := Bencode.derives_of_span (Except.ok_of_mapError hdecode)
  obtain rfl : info = v := Option.some.inj ((Metainfo.of_require hinfo).symm.trans hget)
  have hraw := (parsed_of_parseInfo h).rawInfo
  exact ⟨root, info, hraw ▸ hderives, hdict, hraw ▸ h⟩

/-- The info dictionary of a torrent makes the torrent again, but for its announce URLs. -/
theorem fromInfoDict_of_parse {input : Bytes} {m : MetaInfo}
    (h : parse sha1 toLowercase input = .ok m) :
    fromInfoDict sha1 toLowercase m.rawInfo = .ok { m with trackers := [], skippedTrackers := 0 } := by
  obtain ⟨root, v, hderives, hdict, hinfo⟩ := info_of_parse h
  have hwrap : ascii "d4:info" ++ m.rawInfo ++ ascii "e" = Magnet.torrentBytes m.rawInfo [] := by
    simp [Magnet.torrentBytes, ascii]
  rw [fromInfoDict, hwrap, parse_torrentBytes_eq (fun _ hu => absurd hu List.not_mem_nil) hderives,
    hdict]
  exact parseInfo_trackers hinfo rfl

theorem length_hashes (n : Nat) (bs : Bytes) : (Metainfo.hashes n bs).length = n := by
  induction n generalizing bs with
  | zero => rfl
  | succ n ih => rw [Metainfo.hashes, List.length_cons, ih]

/-- The info dictionary has the hashes of all the pieces in it. -/
theorem pieces_le_of_parse {input : Bytes} {m : MetaInfo}
    (h : parse sha1 toLowercase input = .ok m) : 20 * m.pieces.length ≤ m.rawInfo.length := by
  obtain ⟨root, v, hderives, -, h⟩ := info_of_parse h
  unfold Metainfo.parseInfo at h
  obtain ⟨name, -, h⟩ := Except.ok_of_bind h
  obtain ⟨_, -, h⟩ := Except.ok_of_bind h
  obtain ⟨pieceLength, -, h⟩ := Except.ok_of_bind h
  obtain ⟨_, -, h⟩ := Except.ok_of_bind h
  obtain ⟨pieces, hpieces, h⟩ := Except.ok_of_bind h
  obtain ⟨-, -, h⟩ := Except.ok_of_bind h
  obtain ⟨⟨files, total⟩, -, h⟩ := Except.ok_of_bind h
  obtain ⟨_, -, h⟩ := Except.ok_of_bind h
  obtain ⟨_, -, h⟩ := Except.ok_of_bind h
  obtain ⟨_, -, h⟩ := Except.ok_of_bind h
  have hhashes := congrArg MetaInfo.pieces (Except.ok.inj h)
  have hget : v.get (ascii "pieces") = some (.bytes pieces) := by
    obtain ⟨value, hvalue, hbytes⟩ := Option.bind_eq_some_iff.1 (Metainfo.of_require hpieces)
    cases value with
    | bytes b =>
        obtain rfl := Option.some.inj hbytes
        exact hvalue
    | int i => cases hbytes
    | list items => cases hbytes
    | dict m => cases hbytes
  have hin := hderives.length_le_of_get hget
  rw [← hhashes, length_hashes]
  omega

end MetaInfo

/-- A link resolves to the torrent it names and is kept as it: the torrent file of every info
dictionary that was read whole, beside the URLs of the link, parses as its torrent with a tier for
each URL and none skipped; and a link that spells a hash, in digits or in base32, is read as that
hash, alone or among any pairs that name no other. -/
theorem magnet_resolves :
    (∀ (sha1 toLowercase : Bytes → Bytes) (r : Bytes) (m : MetaInfo) (urls : List Bytes),
      MetaInfo.fromInfoDict sha1 toLowercase r = .ok m → m.rawInfo = r → Magnet.Texts urls →
      urls.length ≤ Metainfo.MAX_TRACKERS →
      (∀ url ∈ urls, Metainfo.isI2pTracker url = true) →
      ∃ m', MetaInfo.parse sha1 toLowercase (Magnet.torrentBytes r urls) = .ok m' ∧
        m'.infoHash = m.infoHash ∧ m'.rawInfo = m.rawInfo ∧ m'.files = m.files ∧
        m'.pieces = m.pieces ∧ m'.trackers = urls.map ([·]) ∧ m'.skippedTrackers = 0) ∧
    (∀ hash text : Bytes, hash.length = 20 → Magnet.Spells text hash →
      ∃ m, Magnet.parse (ascii "magnet:?xt=urn:btih:" ++ text) = .ok m ∧ m.infoHash = hash) ∧
    ∀ hash : Bytes, hash.length = 20 → ∀ pairs : List Bytes, (∀ pair ∈ pairs, 38 ∉ pair) →
      (∃ text, Magnet.topic text ∈ pairs) →
      (∀ text, Magnet.topic text ∈ pairs → Magnet.Spells text hash) →
      ∃ m, Magnet.parse (Magnet.link pairs) = .ok m ∧ m.infoHash = hash := by
  refine ⟨fun sha1 toLowercase r m urls h hraw htexts hfew hdial => ?_,
    fun hash text hlength hspells => Magnet.infoHash_plain hlength hspells,
    fun hash hlength pairs hpairs hnames hspells =>
      Magnet.infoHash_of_spells hlength hpairs hnames hspells⟩
  exact ⟨_, MetaInfo.parse_torrentBytes h hraw htexts hfew hdial, rfl, rfl, rfl, rfl, rfl, rfl⟩

end Clove
