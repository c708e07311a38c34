import Mathlib.Tactic
import Clove.Metainfo
import Clove.Text

/-!
# Magnet links

The model of `magnet.rs` and of the base32 reader it uses.  A link is read pair by pair, and
names one torrent.  It is kept on disk as it was given and trimmed when it is read back, which
does not change the torrent it names (`Magnet.infoHash_trim`).
-/

namespace Clove

open Utf8 (ascii)

namespace Addr

def B32_ALPHABET : Bytes := ascii "abcdefghijklmnopqrstuvwxyz234567"

/-- One character of a base32 text: the bytes so far, and the bits that are not a byte yet in
the low end of a 32-bit buffer. -/
def base32Step (s : Bytes × Nat × Nat) (c : UInt8) : Option (Bytes × Nat × Nat) :=
  let (out, buffer, bits) := s
  (B32_ALPHABET.idxOf? c).map fun val =>
    let buffer := (buffer * 32 + val) % 4294967296
    let bits := bits + 5
    if 8 ≤ bits then (out ++ [UInt8.ofNat (buffer / 2 ^ (bits - 8))], buffer, bits - 8)
    else (out, buffer, bits)

/-- Read lower-case base32 without padding. -/
def base32Decode (s : Bytes) : Option Bytes :=
  (s.foldlM base32Step ([], 0, 0)).bind fun (out, buffer, bits) =>
    if buffer % 2 ^ bits ≠ 0 then none else some out

end Addr

/-- A parsed magnet link. -/
structure Magnet where
  infoHash : Bytes
  displayName : Option Bytes
  /-- The announce URLs that are kept. -/
  trackers : List Bytes
  skippedTrackers : Nat
deriving Repr, DecidableEq

namespace Magnet

/-- Why a link could not be parsed. -/
inductive Error where
  | notMagnet
  | noInfoHash
  | badInfoHash
  | conflictingInfoHash
deriving Repr, DecidableEq

/-- The hash a `btih` value spells, in 40 hexadecimal digits or 32 base32 characters. -/
def parseBtih (value : Bytes) : Except Error Bytes :=
  let read :=
    if value.length = 40 then Hex.decode Hex.value value
    else if value.length = 32 then
      (Addr.base32Decode (TrackerUrl.toAsciiLowercase value)).filter (·.length = 20)
    else none
  match read with
  | some hash => .ok hash
  | none => .error .badInfoHash

/-- What the pairs read so far say. -/
structure Draft where
  infoHash : Option Bytes
  displayName : Option Bytes
  trackers : List Bytes
  skippedTrackers : Nat

/-- A text before and after the first occurrence of a byte. -/
def splitOnce (c : UInt8) (s : Bytes) : Option (Bytes × Bytes) :=
  (TrackerUrl.splitAt c s).map fun p => (p.1, p.2.drop 1)

/-- The hash of a link, given that of the pairs before, with another `xt` value. -/
def readTopic (seen : Option Bytes) (value : Bytes) : Except Error (Option Bytes) :=
  match value.dropPrefix? (ascii "urn:btih:") with
  | none => .ok seen
  | some text =>
      (parseBtih text).bind fun hash =>
        if seen.any (· ≠ hash) then .error .conflictingInfoHash else .ok (some hash)

/-- One pair of a link. -/
def readPair (s : Draft) (pair : Bytes) : Except Error Draft :=
  match splitOnce 61 pair with
  | none => .ok s
  | some (key, value) =>
      if key = ascii "xt" then (readTopic s.infoHash value).map fun hash => { s with infoHash := hash }
      else if key = ascii "dn" then
        .ok { s with displayName := some (Utf8.lossy (Text.percentDecode value)) }
      else if key = ascii "tr" then
        let url := Utf8.lossy (Text.percentDecode value)
        if Metainfo.isI2pTracker url && s.trackers.length < Metainfo.MAX_TRACKERS then
          .ok { s with trackers := s.trackers ++ [url] }
        else .ok { s with skippedTrackers := s.skippedTrackers + 1 }
      else .ok s

/-- Parse a magnet link. -/
def parse (uri : Bytes) : Except Error Magnet :=
  match uri.dropPrefix? (ascii "magnet:?") with
  | none => .error .notMagnet
  | some query => do
      let s ← (query.splitOn 38).foldlM readPair ⟨none, none, [], 0⟩
      match s.infoHash with
      | none => .error .noInfoHash
      | some hash => .ok ⟨hash, s.displayName, s.trackers, s.skippedTrackers⟩

/-! ## Trimming -/

theorem isSome_of_foldlM {σ α : Type} {f : σ → α → Option σ} {P : α → Prop}
    (hf : ∀ s a s', f s a = some s' → P a) {l : List α} {s s' : σ} (h : l.foldlM f s = some s') :
    ∀ a ∈ l, P a := by
  induction l generalizing s with
  | nil => simp
  | cons a l ih =>
      rw [List.foldlM_cons] at h
      obtain ⟨t, ht, h⟩ := Option.bind_eq_some_iff.1 h
      intro b hb
      cases List.mem_cons.1 hb with
      | inl heq => exact heq ▸ hf s a t ht
      | inr hmem => exact ih h b hmem

/-- A byte that cannot be taken for white space. -/
theorem not_blank_of_digit : ∀ c : UInt8, (Hex.value c).isSome = true → ¬ Text.Blank c := by
  have hall : ∀ k : Fin 256, (Hex.value (UInt8.ofFin k)).isSome = true →
      ¬ Text.Blank (UInt8.ofFin k) := by
    decide +kernel
  exact fun c => hall c.toFin

theorem not_blank_of_base32 : ∀ c : UInt8,
    (Addr.B32_ALPHABET.idxOf? (if 65 ≤ c ∧ c ≤ 90 then c + 32 else c)).isSome = true →
      ¬ Text.Blank c := by
  have hall : ∀ k : Fin 256, (Addr.B32_ALPHABET.idxOf?
      (if 65 ≤ UInt8.ofFin k ∧ UInt8.ofFin k ≤ 90 then UInt8.ofFin k + 32
        else UInt8.ofFin k)).isSome = true → ¬ Text.Blank (UInt8.ofFin k) := by
    decide +kernel
  exact fun c => hall c.toFin

/-- A value that spells a hash has no white space in it. -/
theorem parseBtih_ok {value hash : Bytes} (h : parseBtih value = .ok hash) :
    value ≠ [] ∧ hash.length = 20 ∧ ∀ c ∈ value, ¬ Text.Blank c := by
  simp only [parseBtih] at h
  split at h
  · rename_i read hread
    obtain rfl := Except.ok.inj h
    split at hread
    · rename_i hlength
      obtain ⟨hdouble, hdigits⟩ := Hex.decode_some hread
      refine ⟨List.ne_nil_of_length_eq_add_one hlength, by omega, fun c hc => ?_⟩
      exact not_blank_of_digit c (hdigits c hc)
    · split at hread
      · rename_i hlength
        obtain ⟨hdecode, hhash⟩ := Option.filter_eq_some_iff.1 hread
        refine ⟨List.ne_nil_of_length_eq_add_one hlength, by simpa using hhash, fun c hc => ?_⟩
        obtain ⟨s, hs, -⟩ := Option.bind_eq_some_iff.1 hdecode
        have hchars := isSome_of_foldlM (P := fun c => (Addr.B32_ALPHABET.idxOf? c).isSome = true)
          (fun s a s' hstep => by
            obtain ⟨val, hval, -⟩ := Option.map_eq_some_iff.1 hstep
            rw [hval]
            rfl) hs
        exact not_blank_of_base32 c (hchars _ (List.mem_map_of_mem hc))
      · cases hread
  · cases h

/-- The last part of a text that is split takes what is appended to the text. -/
theorem splitOn_append {c : UInt8} {after : Bytes} (hafter : c ∉ after) (text : Bytes) :
    ∃ parts last, text.splitOn c = parts ++ [last] ∧
      (text ++ after).splitOn c = parts ++ [last ++ after] := by
  by_cases hmem : c ∈ text
  · obtain ⟨last, parts, hsplit, hlast⟩ := List.eq_append_cons_of_mem (List.mem_reverse.2 hmem)
    have htext : text = parts.reverse ++ c :: last.reverse := by
      have := congrArg List.reverse hsplit
      simpa using this
    have hlast : c ∉ last.reverse := fun h => hlast (List.mem_reverse.1 h)
    refine ⟨parts.reverse.splitOn c, last.reverse, ?_, ?_⟩
    · rw [htext, List.splitOn_append_cons_self, List.splitOn_eq_singleton hlast]
    · have hnew : c ∉ last.reverse ++ after := by simp only [List.mem_append]; tauto
      rw [htext, List.append_assoc, List.cons_append, List.splitOn_append_cons_self,
        List.splitOn_eq_singleton hnew]
  · refine ⟨[], text, ?_, ?_⟩
    · rw [List.splitOn_eq_singleton hmem, List.nil_append]
    · rw [List.splitOn_eq_singleton (by simp only [List.mem_append]; tauto), List.nil_append]

theorem splitOnce_append {c : UInt8} {after : Bytes} (hafter : c ∉ after) (text : Bytes) :
    splitOnce c (text ++ after) = (splitOnce c text).map fun p => (p.1, p.2 ++ after) := by
  unfold splitOnce TrackerUrl.splitAt
  by_cases hmem : c ∈ text
  · obtain ⟨before, rest, rfl, hbefore⟩ := List.eq_append_cons_of_mem hmem
    have hne : ∀ b ∈ before, decide (b ≠ c) = true := fun b hb => by
      simpa using fun heq : b = c => hbefore (heq ▸ hb)
    have htake : ∀ l : Bytes, (before ++ c :: l).takeWhile (· ≠ c) = before := fun l => by
      rw [List.takeWhile_append_of_pos hne]
      simp
    have hdrop : ∀ l : Bytes, (before ++ c :: l).dropWhile (· ≠ c) = c :: l := fun l => by
      rw [List.dropWhile_append_of_pos hne]
      simp
    rw [if_pos (List.mem_append_left _ hmem), if_pos hmem, List.append_assoc, List.cons_append]
    simp only [htake, hdrop, Option.map_some, List.drop_succ_cons, List.drop_zero]
  · rw [if_neg (by simp only [List.mem_append]; tauto), if_neg hmem]
    rfl

/-- A prefix without white space is one of a text exactly when it is one of the text with
white space after it. -/
theorem append_eq_of_blank {mark text after rest : Bytes}
    (hmark : (mark.all fun b => !decide (Text.Blank b)) = true)
    (hafter : ∀ b ∈ after, Text.Blank b) (h : text ++ after = mark ++ rest) :
    ∃ more, text = mark ++ more ∧ rest = more ++ after := by
  obtain ⟨more, htext, hrest⟩ | ⟨more, hmark', hafter'⟩ := List.append_eq_append_iff.1 h
  · have hnil : more = [] := by
      refine List.eq_nil_iff_forall_not_mem.2 fun b hb => ?_
      have hshown := List.all_eq_true.1 hmark b (htext ▸ List.mem_append_right _ hb)
      have hblank := hafter b (hrest ▸ List.mem_append_left _ hb)
      simp [hblank] at hshown
    subst hnil
    exact ⟨[], by simpa using htext.symm, by simpa using hrest.symm⟩
  · exact ⟨more, hmark', hafter'⟩

theorem dropPrefix?_eq_some {text mark rest : Bytes} :
    text.dropPrefix? mark = some rest ↔ text = mark ++ rest := by
  rw [List.dropPrefix?_eq_some_iff]
  constructor
  · rintro ⟨mark', rfl, hmark⟩
    rw [eq_of_beq hmark]
  · rintro rfl
    exact ⟨mark, rfl, beq_self_eq_true mark⟩

/-- White space after a topic is a mistake, or does not matter. -/
theorem readTopic_append {seen hash : Option Bytes} {value after : Bytes}
    (hafter : ∀ b ∈ after, Text.Blank b) (h : readTopic seen (value ++ after) = .ok hash) :
    readTopic seen value = .ok hash := by
  unfold readTopic at h ⊢
  cases htext : (value ++ after).dropPrefix? (ascii "urn:btih:") with
  | none =>
      simp only [htext] at h
      cases hvalue : value.dropPrefix? (ascii "urn:btih:") with
      | none => exact h
      | some rest =>
          have hcut := dropPrefix?_eq_some.1 hvalue
          have hmore := dropPrefix?_eq_some.2
            (show value ++ after = ascii "urn:btih:" ++ (rest ++ after) by simp [hcut])
          rw [htext] at hmore
          cases hmore
  | some text =>
      simp only [htext] at h
      obtain ⟨more, rfl, rfl⟩ :=
        append_eq_of_blank (by decide) hafter (dropPrefix?_eq_some.1 htext)
      obtain ⟨found, hfound, -⟩ := Except.ok_of_bind h
      have hblank := (parseBtih_ok hfound).2.2
      have hnil : after = [] := List.eq_nil_iff_forall_not_mem.2 fun b hb =>
        hblank b (List.mem_append_right _ hb) (hafter b hb)
      rw [hnil, List.append_nil] at h
      rw [dropPrefix?_eq_some.2 rfl]
      exact h

/-- White space after a pair does not change the hash. -/
theorem readPair_append {s s' : Draft} {pair after : Bytes}
    (hafter : ∀ b ∈ after, Text.Blank b) (h : readPair s (pair ++ after) = .ok s') :
    ∃ t, readPair s pair = .ok t ∧ t.infoHash = s'.infoHash := by
  have hequals : 61 ∉ after := fun hmem => absurd (hafter 61 hmem) (by decide)
  unfold readPair at h ⊢
  rw [splitOnce_append hequals] at h
  cases hsplit : splitOnce 61 pair with
  | none =>
      rw [hsplit] at h
      exact ⟨s', h, rfl⟩
  | some p =>
      obtain ⟨key, value⟩ := p
      rw [hsplit] at h
      simp only [Option.map_some] at h ⊢
      by_cases hkey : key = ascii "xt"
      · rw [if_pos hkey] at h ⊢
        cases htopic : readTopic s.infoHash (value ++ after) with
        | error e =>
            rw [htopic] at h
            cases h
        | ok hash =>
            rw [htopic] at h
            obtain rfl := Except.ok.inj h
            rw [readTopic_append hafter htopic]
            exact ⟨_, rfl, rfl⟩
      · rw [if_neg hkey] at h ⊢
        have hsame : s'.infoHash = s.infoHash := by
          split at h
          · exact (congrArg Draft.infoHash (Except.ok.inj h)).symm
          · split at h
            · split at h <;> exact (congrArg Draft.infoHash (Except.ok.inj h)).symm
            · exact (congrArg Draft.infoHash (Except.ok.inj h)).symm
        split
        · exact ⟨_, rfl, hsame.symm⟩
        · split
          · split <;> exact ⟨_, rfl, hsame.symm⟩
          · exact ⟨_, rfl, hsame.symm⟩

/-- A link names the same torrent when it is trimmed. -/
theorem infoHash_trim {uri : Bytes} {m : Magnet} (h : parse uri = .ok m) :
    ∃ m', parse (Text.trim uri) = .ok m' ∧ m'.infoHash = m.infoHash := by
  obtain ⟨before, after, huri, hbefore, hafter⟩ := Text.trim_split uri
  unfold parse at h
  split at h
  · cases h
  · rename_i query hquery
    have hquery := dropPrefix?_eq_some.1 hquery
    have hnil : before = [] := by
      cases before with
      | nil => rfl
      | cons b bs =>
          rw [hquery] at huri
          obtain rfl : 109 = b := (List.cons.inj huri).1
          exact absurd (hbefore 109 List.mem_cons_self) (by decide)
    rw [hnil, List.nil_append, hquery] at huri
    obtain ⟨short, htrim, rfl⟩ := append_eq_of_blank (by decide) hafter huri.symm
    have hamp : 38 ∉ after := fun hmem => absurd (hafter 38 hmem) (by decide)
    obtain ⟨parts, last, hshort, hlong⟩ := splitOn_append hamp short
    obtain ⟨s, hs, h⟩ := Except.ok_of_bind h
    rw [hlong, List.foldlM_append] at hs
    obtain ⟨t, ht, hs⟩ := Except.ok_of_bind hs
    rw [List.foldlM_cons] at hs
    obtain ⟨s₁, hlast, hs⟩ := Except.ok_of_bind hs
    obtain rfl := Except.ok.inj hs
    obtain ⟨s', hs', hhash⟩ := readPair_append hafter hlast
    have hfold : (short.splitOn 38).foldlM readPair ⟨none, none, [], 0⟩ = .ok s' := by
      rw [hshort, List.foldlM_append, ht, Except.ok_bind, List.foldlM_cons, hs']
      rfl
    unfold parse
    rw [hquery, htrim, dropPrefix?_eq_some.2 rfl]
    simp only [hfold, Except.ok_bind, hhash]
    split at h
    · cases h
    · rename_i hash hfound
      obtain rfl := Except.ok.inj h
      exact ⟨⟨hash, s'.displayName, s'.trackers, s'.skippedTrackers⟩, rfl, rfl⟩

end Magnet

end Clove
