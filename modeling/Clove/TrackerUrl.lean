import Mathlib.Data.List.TakeWhile
import Clove.Metainfo

/-!
# What an announce URL means

`TrackerUrl.parse` takes an announce URL apart.  `Faithful` says that the parts are what the URL
says: the host is a clean name under `i2p`, the authority is what stands between `http://` and
the path or query, and it is the host with perhaps a port.

The parser cuts at the first slash if there is one, and looks for a question mark only if there
is none; and it takes a port off after the last colon and looks for no other.  `Plain` says that
neither matters.  A URL that is accepted is taken apart faithfully exactly if it is plain
(`faithful_iff`).
-/

namespace Clove.TrackerUrl

open Utf8 (ascii)

/-! ## Texts cut at a byte -/

theorem splitAt_eq_some {c : UInt8} {s a r : Bytes} (h : splitAt c s = some (a, r)) :
    c ∉ a ∧ s = a ++ r ∧ ∃ r', r = c :: r' := by
  unfold splitAt at h
  split at h
  · rename_i hmem
    obtain ⟨rfl, rfl⟩ := Prod.mk.inj (Option.some.inj h)
    refine ⟨fun hin => ?_, List.takeWhile_append_dropWhile.symm, ?_⟩
    · simpa using List.mem_takeWhile_imp hin
    · cases hdrop : s.dropWhile (· ≠ c) with
      | nil =>
          have hall := List.dropWhile_eq_nil_iff.1 hdrop c hmem
          simp at hall
      | cons b r' =>
          have hhead := List.head?_dropWhile_not (· ≠ c) s
          rw [hdrop] at hhead
          have hb : b = c := by simpa using hhead
          exact ⟨r', by rw [hb]⟩
  · cases h

theorem splitAt_eq_none {c : UInt8} {s : Bytes} (h : splitAt c s = none) : c ∉ s := by
  unfold splitAt at h
  split at h
  · cases h
  · assumption

/-- What stands before the last occurrence of a byte, and after it. -/
theorem rsplitOnce_eq_some {c : UInt8} {s a r : Bytes} (h : rsplitOnce c s = some (a, r)) :
    s = a ++ c :: r ∧ c ∉ r := by
  unfold rsplitOnce at h
  obtain ⟨⟨x, y⟩, hsplit, heq⟩ := Option.map_eq_some_iff.1 h
  obtain ⟨rfl, rfl⟩ := Prod.mk.inj heq
  obtain ⟨hnot, hs, y', rfl⟩ := splitAt_eq_some hsplit
  have hrev := congrArg List.reverse hs
  rw [List.reverse_reverse] at hrev
  exact ⟨by simpa using hrev, by simpa using hnot⟩

theorem rsplitOnce_eq_none {c : UInt8} {s : Bytes} (h : rsplitOnce c s = none) : c ∉ s := by
  unfold rsplitOnce at h
  simpa using splitAt_eq_none (Option.map_eq_none_iff.1 h)

/-- A prefix up to the first byte of some kind. -/
theorem takeWhile_append_cons {p : UInt8 → Bool} {a r : Bytes} {c : UInt8} (ha : ∀ b ∈ a, p b = true)
    (hc : p c = false) : (a ++ c :: r).takeWhile p = a := by
  rw [List.takeWhile_append_of_pos ha, List.takeWhile_cons_of_neg (by simp [hc]), List.append_nil]

theorem splitAt_append_cons {c : UInt8} {a : Bytes} (ha : c ∉ a) (r : Bytes) :
    splitAt c (a ++ c :: r) = some (a, c :: r) := by
  have hin : ∀ b ∈ a, decide (b ≠ c) = true := fun b hb => decide_eq_true fun h => ha (h ▸ hb)
  have hout : decide (c ≠ c) = false := by simp
  unfold splitAt
  rw [if_pos (by simp), takeWhile_append_cons hin hout, List.dropWhile_append_of_pos hin,
    List.dropWhile_cons_of_neg (by simp)]

/-! ## Labels -/

theorem labels_ne_nil (s : Bytes) : labels s ≠ [] := by
  cases s with
  | nil => exact List.cons_ne_nil _ _
  | cons b s =>
      unfold labels
      split
      · exact List.cons_ne_nil _ _
      · split <;> exact List.cons_ne_nil _ _

/-- The labels of a host have no dots, and the host is the labels with dots between them. -/
theorem labels_spec (s : Bytes) :
    (∀ l ∈ labels s, 46 ∉ l) ∧ [46].intercalate (labels s) = s := by
  induction s with
  | nil => exact ⟨by simp [labels], rfl⟩
  | cons b s ih =>
      unfold labels
      cases hlabels : labels s with
      | nil => exact absurd hlabels (labels_ne_nil s)
      | cons l ls =>
          rw [hlabels] at ih
          obtain ⟨hdots, hjoin⟩ := ih
          split
          · rename_i hdot
            refine ⟨fun m hm => ?_, ?_⟩
            · rcases List.mem_cons.1 hm with rfl | hm
              · exact List.not_mem_nil
              · exact hdots m hm
            · rw [List.intercalate_cons_cons, hjoin, hdot]
              rfl
          · rename_i hdot
            refine ⟨fun m hm => ?_, ?_⟩
            · rcases List.mem_cons.1 hm with rfl | hm
              · rw [List.mem_cons, not_or]
                exact ⟨fun h => hdot h.symm, hdots l List.mem_cons_self⟩
              · exact hdots m (List.mem_cons_of_mem l hm)
            · cases ls with
              | nil => simpa using hjoin
              | cons l' ls =>
                  rw [List.intercalate_cons_cons] at hjoin ⊢
                  rw [← hjoin]
                  rfl

/-! ## The parts of a URL -/

/-- The authority of a URL, and its path and query. -/
def cut (rest : Bytes) : Bytes × Bytes :=
  match splitAt 47 rest with
  | some p => p
  | none =>
      match splitAt 63 rest with
      | some (a, query) => (a, 47 :: query)
      | none => (rest, [47])

/-- What a URL came through that is accepted. -/
structure Parsed (url : Bytes) (t : TrackerUrl) : Prop where
  scheme : url = ascii "http://" ++ url.drop 7
  visible : ∀ b ∈ url.drop 7, 32 < b ∧ b ≠ 127
  fragment : 35 ∉ url.drop 7
  parts : (t.authority, t.pathAndQuery) = cut (url.drop 7)
  userinfo : 64 ∉ t.authority
  escapes : validPercentEscapes t.pathAndQuery = true
  host : ∃ host, hostOf t.authority = some host ∧ t.host = toAsciiLowercase host
  labelled : isI2pHost t.host = true

/-- What the parser makes of the two parts. -/
def accept (parts : Bytes × Bytes) : Option TrackerUrl :=
  match parts with
  | (authority, pathAndQuery) =>
      if 64 ∈ authority then none
      else if !validPercentEscapes pathAndQuery then none
      else
        match hostOf authority with
        | none => none
        | some host =>
            if isI2pHost (toAsciiLowercase host) then
              some ⟨toAsciiLowercase host, authority, pathAndQuery⟩
            else none

theorem parse_eq (url : Bytes) : parse url =
    if !(ascii "http://").isPrefixOf url then none
    else if (url.drop 7).any fun b => b ≤ 32 || b = 127 then none
    else if 35 ∈ url.drop 7 then none
    else accept (cut (url.drop 7)) := rfl

theorem accept_eq_some {parts : Bytes × Bytes} {t : TrackerUrl} (h : accept parts = some t) :
    (t.authority, t.pathAndQuery) = parts ∧ 64 ∉ t.authority ∧
      validPercentEscapes t.pathAndQuery = true ∧
      (∃ host, hostOf t.authority = some host ∧ t.host = toAsciiLowercase host) ∧
      isI2pHost t.host = true := by
  obtain ⟨authority, pathAndQuery⟩ := parts
  simp only [accept] at h
  split at h
  · cases h
  · rename_i huser
    split at h
    · cases h
    · rename_i hescapes
      split at h
      · cases h
      · rename_i host hhost
        split at h
        · rename_i hlabelled
          cases h
          exact ⟨rfl, huser, by simpa using hescapes, ⟨host, hhost, rfl⟩, hlabelled⟩
        · cases h

theorem parsed_of_parse {url : Bytes} {t : TrackerUrl} (h : parse url = some t) : Parsed url t := by
  rw [parse_eq] at h
  split at h
  · cases h
  · rename_i hscheme
    split at h
    · cases h
    · rename_i hvisible
      split at h
      · cases h
      · rename_i hfragment
        obtain ⟨hparts, huser, hescapes, hhost, hlabelled⟩ := accept_eq_some h
        refine ⟨?_, fun b hb => ?_, hfragment, hparts, huser, hescapes, hhost, hlabelled⟩
        · have hprefix : ascii "http://" <+: url := by simpa using hscheme
          obtain ⟨rest, hrest⟩ := hprefix
          have hseven : (ascii "http://").length = 7 := by decide
          rw [← hrest, ← hseven, List.drop_left]
        · simp only [List.any_eq_true, not_exists, not_and, Bool.or_eq_true, decide_eq_true_eq,
            not_or, UInt8.not_le] at hvisible
          exact hvisible b hb

/-! ## What the parts say -/

/-- What stands between `http://` and the path or query. -/
def authorityPart (rest : Bytes) : Bytes := rest.takeWhile fun b => b ≠ 47 ∧ b ≠ 63

/-- The path and query, with a leading slash. -/
def targetPart (rest : Bytes) : Bytes :=
  let target := rest.dropWhile fun b => b ≠ 47 ∧ b ≠ 63
  if target.head? = some 47 then target else 47 :: target

/-- A decimal port from 1 to 65535. -/
def IsPort (port : Bytes) : Prop :=
  port ≠ [] ∧ (∀ b ∈ port, Decimal.isDigit b = true) ∧ 1 ≤ Decimal.ofDigits 0 port ∧
    Decimal.ofDigits 0 port ≤ 65535

/-- The parts are what the URL says. -/
structure Faithful (url : Bytes) (t : TrackerUrl) : Prop where
  clean : ∀ b ∈ t.host, 32 < b ∧ b ∉ ascii "/?#@:"
  name : ∃ ls, 2 ≤ ls.length ∧ (∀ l ∈ ls, l ≠ [] ∧ 46 ∉ l) ∧ ls.getLast? = some (ascii "i2p") ∧
    t.host = [46].intercalate ls
  authority : t.authority = authorityPart (url.drop 7)
  port : toAsciiLowercase t.authority = t.host ∨
    ∃ port, IsPort port ∧ toAsciiLowercase t.authority = t.host ++ 58 :: port
  target : t.pathAndQuery = targetPart (url.drop 7)

/-- No question mark stands before the first slash, and no two colons in the authority. -/
def Plain (url : Bytes) : Prop :=
  (47 ∈ url.drop 7 → 63 ∉ (url.drop 7).takeWhile (· ≠ 47)) ∧
    (authorityPart (url.drop 7)).count 58 ≤ 1

instance (url : Bytes) : Decidable (Plain url) := inferInstanceAs (Decidable (_ ∧ _))

/-! ## Faithful exactly if plain -/

theorem length_labels_of_isI2pHost {host : Bytes} (h : isI2pHost host = true) :
    2 ≤ (labels host).length ∧ (∀ l ∈ labels host, l ≠ []) ∧
      (labels host).getLast? = some (ascii "i2p") := by
  unfold isI2pHost at h
  split at h
  · rename_i top next rest hrev
    simp only [Bool.and_eq_true, decide_eq_true_eq, List.all_eq_true] at h
    obtain ⟨⟨htop, -⟩, hall⟩ := h
    have hlabels : labels host = (top :: next :: rest).reverse := by
      rw [← hrev, List.reverse_reverse]
    refine ⟨?_, hall, ?_⟩
    · rw [hlabels, List.length_reverse, List.length_cons, List.length_cons]
      omega
    · rw [hlabels, List.getLast?_reverse, List.head?_cons, htop]
  · cases h

theorem toAsciiLowercase_append (a b : Bytes) :
    toAsciiLowercase (a ++ b) = toAsciiLowercase a ++ toAsciiLowercase b := List.map_append

/-- Lower case changes letters into letters. -/
theorem toAsciiLowercase_byte {c : UInt8} (hc : c < 65) (b : UInt8) :
    (if 65 ≤ b ∧ b ≤ 90 then b + 32 else b) = c ↔ b = c := by
  split
  · rename_i hletter
    obtain ⟨hlo, hhi⟩ := hletter
    constructor
    · intro h
      subst h
      rw [UInt8.lt_iff_toNat_lt] at hc
      rw [UInt8.le_iff_toNat_le] at hlo hhi
      rw [UInt8.toNat_add] at hc
      simp at hlo hhi hc
      omega
    · rintro rfl
      exact absurd hlo (UInt8.not_le.2 hc)
  · exact Iff.rfl

theorem mem_toAsciiLowercase {c : UInt8} (hc : c < 65) (s : Bytes) :
    c ∈ toAsciiLowercase s ↔ c ∈ s := by
  unfold toAsciiLowercase
  rw [List.mem_map]
  constructor
  · rintro ⟨b, hb, hbc⟩
    exact (toAsciiLowercase_byte hc b).1 hbc ▸ hb
  · intro hmem
    exact ⟨c, hmem, (toAsciiLowercase_byte hc c).2 rfl⟩

theorem toAsciiLowercase_digits {s : Bytes} (h : ∀ b ∈ s, Decimal.isDigit b = true) :
    toAsciiLowercase s = s := by
  unfold toAsciiLowercase
  refine (List.map_congr_left fun b hb => ?_).trans (List.map_id s)
  have hdigit := h b hb
  rw [if_neg]
  · rfl
  · rintro ⟨hlo, -⟩
    rw [Decimal.isDigit_iff] at hdigit
    rw [UInt8.le_iff_toNat_le] at hlo
    simp at hlo
    omega

theorem le_toAsciiLowercase {b : UInt8} {s : Bytes} (hb : b ∈ toAsciiLowercase s) :
    ∃ b' ∈ s, b' ≤ b := by
  obtain ⟨b', hmem, rfl⟩ := List.mem_map.1 hb
  refine ⟨b', hmem, ?_⟩
  split
  · rename_i hletter
    obtain ⟨hlo, hhi⟩ := hletter
    rw [UInt8.le_iff_toNat_le] at hlo hhi ⊢
    rw [UInt8.toNat_add]
    simp at hlo hhi ⊢
    omega
  · exact UInt8.le_refl b'

theorem count_toAsciiLowercase {c : UInt8} (hc : c < 65) (s : Bytes) :
    (toAsciiLowercase s).count c = s.count c := by
  induction s with
  | nil => rfl
  | cons b s ih =>
      have hsame : ((if 65 ≤ b ∧ b ≤ 90 then b + 32 else b) == c) = (b == c) := by
        rw [Bool.eq_iff_iff, beq_iff_eq, beq_iff_eq]
        exact toAsciiLowercase_byte hc b
      have hcons : toAsciiLowercase (b :: s) =
          (if 65 ≤ b ∧ b ≤ 90 then b + 32 else b) :: toAsciiLowercase s := rfl
      rw [hcons, List.count_cons, List.count_cons, ih, hsame]

theorem count_of_digits {s : Bytes} (h : ∀ b ∈ s, Decimal.isDigit b = true) : s.count 58 = 0 :=
  List.count_eq_zero.2 fun hmem => absurd (h 58 hmem) (by decide)

/-- A host is the whole authority, or what stands before a port. -/
theorem hostOf_eq_some {authority host : Bytes} (h : hostOf authority = some host) :
    (authority = host ∧ 58 ∉ host) ∨ ∃ port, IsPort port ∧ authority = host ++ 58 :: port := by
  unfold hostOf at h
  split at h
  · rename_i hsplit
    cases h
    exact .inl ⟨rfl, rsplitOnce_eq_none hsplit⟩
  · rename_i host' port hsplit
    split at h
    · cases h
    · rename_i hdigits
      simp only at h
      split at h
      · rename_i hrange
        cases h
        simp only [Bool.or_eq_true, decide_eq_true_eq, Bool.not_eq_true', not_or,
          Bool.not_eq_false] at hdigits
        exact .inr ⟨port, ⟨hdigits.1, List.all_eq_true.1 hdigits.2, hrange.1, by omega⟩,
          (rsplitOnce_eq_some hsplit).1⟩
      · cases h

/-! ### Where the authority ends -/

theorem mem_authorityPart {rest : Bytes} {b : UInt8} (h : b ∈ authorityPart rest) :
    b ≠ 47 ∧ b ≠ 63 := by
  have hkept := List.mem_takeWhile_imp h
  simpa using hkept

/-- A byte that ends an authority. -/
def Ends (c : UInt8) : Prop := c = 47 ∨ c = 63

theorem parts_of_split {rest a r : Bytes} {c : UInt8} (hrest : rest = a ++ c :: r)
    (hslash : 47 ∉ a) (hquery : 63 ∉ a) (hc : Ends c) :
    authorityPart rest = a ∧ targetPart rest = if c = 47 then c :: r else 47 :: c :: r := by
  have hin : ∀ b ∈ a, decide (b ≠ 47 ∧ b ≠ 63) = true := fun b hb =>
    decide_eq_true ⟨fun h => hslash (h ▸ hb), fun h => hquery (h ▸ hb)⟩
  have hout : decide (c ≠ 47 ∧ c ≠ 63) = false := by
    rcases hc with rfl | rfl <;> decide
  have htarget : rest.dropWhile (fun b => b ≠ 47 ∧ b ≠ 63) = c :: r := by
    rw [hrest, List.dropWhile_append_of_pos hin, List.dropWhile_cons_of_neg (by simp [hout])]
  refine ⟨?_, ?_⟩
  · rw [authorityPart, hrest]
    exact takeWhile_append_cons hin hout
  · unfold targetPart
    simp only [htarget, List.head?_cons, Option.some.injEq]

theorem parts_of_none {rest : Bytes} (hslash : 47 ∉ rest) (hquery : 63 ∉ rest) :
    authorityPart rest = rest ∧ targetPart rest = [47] := by
  have hin : ∀ b ∈ rest, decide (b ≠ 47 ∧ b ≠ 63) = true := fun b hb =>
    decide_eq_true ⟨fun h => hslash (h ▸ hb), fun h => hquery (h ▸ hb)⟩
  have htarget : rest.dropWhile (fun b => b ≠ 47 ∧ b ≠ 63) = [] :=
    List.dropWhile_eq_nil_iff.2 hin
  refine ⟨List.takeWhile_eq_self_iff.2 hin, ?_⟩
  unfold targetPart
  simp only [htarget]
  rfl

/-- The parser cuts where the authority ends, if no question mark stands before a slash. -/
theorem cut_eq {rest : Bytes} (h : 47 ∈ rest → 63 ∉ rest.takeWhile (· ≠ 47)) :
    cut rest = (authorityPart rest, targetPart rest) := by
  unfold cut
  cases hslash : splitAt 47 rest with
  | some p =>
      obtain ⟨a, r⟩ := p
      obtain ⟨hnot, hrest, r', rfl⟩ := splitAt_eq_some hslash
      have htake : rest.takeWhile (· ≠ 47) = a := by
        rw [hrest]
        refine takeWhile_append_cons (fun b hb => decide_eq_true fun hb' => hnot (hb' ▸ hb)) ?_
        decide
      have hquery : 63 ∉ a := htake ▸ h (by rw [hrest]; simp)
      obtain ⟨hauth, htarget⟩ := parts_of_split hrest hnot hquery (.inl rfl)
      rw [hauth, htarget, if_pos rfl]
  | none =>
      have hnoslash := splitAt_eq_none hslash
      cases hquery : splitAt 63 rest with
      | some p =>
          obtain ⟨a, r⟩ := p
          obtain ⟨hnot, hrest, r', rfl⟩ := splitAt_eq_some hquery
          have hslash : 47 ∉ a := fun hin => hnoslash (hrest ▸ List.mem_append_left _ hin)
          obtain ⟨hauth, htarget⟩ := parts_of_split hrest hslash hnot (.inr rfl)
          rw [hauth, htarget, if_neg (by decide)]
      | none =>
          obtain ⟨hauth, htarget⟩ := parts_of_none hnoslash (splitAt_eq_none hquery)
          rw [hauth, htarget]

/-- If it does, none does. -/
theorem query_of_cut {rest : Bytes} (h : (cut rest).1 = authorityPart rest) (hslash : 47 ∈ rest) :
    63 ∉ rest.takeWhile (· ≠ 47) := by
  have hcut : (cut rest).1 = rest.takeWhile (· ≠ 47) := by
    unfold cut splitAt
    rw [if_pos hslash]
  rw [← hcut, h]
  exact fun hmem => (mem_authorityPart hmem).2 rfl

/-! ### The theorem -/

theorem name_of_parsed {url : Bytes} {t : TrackerUrl} (h : Parsed url t) :
    ∃ ls, 2 ≤ ls.length ∧ (∀ l ∈ ls, l ≠ [] ∧ 46 ∉ l) ∧ ls.getLast? = some (ascii "i2p") ∧
      t.host = [46].intercalate ls := by
  obtain ⟨htwo, hfull, hlast⟩ := length_labels_of_isI2pHost h.labelled
  obtain ⟨hdots, hjoin⟩ := labels_spec t.host
  exact ⟨labels t.host, htwo, fun l hl => ⟨hfull l hl, hdots l hl⟩, hlast, hjoin.symm⟩

theorem port_of_parsed {url : Bytes} {t : TrackerUrl} (h : Parsed url t) :
    toAsciiLowercase t.authority = t.host ∨
      ∃ port, IsPort port ∧ toAsciiLowercase t.authority = t.host ++ 58 :: port := by
  obtain ⟨host, hhost, hlower⟩ := h.host
  rcases hostOf_eq_some hhost with ⟨hsame, -⟩ | ⟨port, hport, hsplit⟩
  · exact .inl (by rw [hsame, hlower])
  · refine .inr ⟨port, hport, ?_⟩
    have hdigits : toAsciiLowercase (58 :: port) = 58 :: port := by
      have hcolon : toAsciiLowercase (58 :: port) = 58 :: toAsciiLowercase port := rfl
      rw [hcolon, toAsciiLowercase_digits hport.2.1]
    rw [hsplit, toAsciiLowercase_append, hdigits, hlower]

/-- A colon stands in an authority at most once if the host has none. -/
theorem colons_le_of_port {authority host : Bytes} (hclean : 58 ∉ host)
    (h : toAsciiLowercase authority = host ∨
      ∃ port, IsPort port ∧ toAsciiLowercase authority = host ++ 58 :: port) :
    authority.count 58 ≤ 1 := by
  rw [← count_toAsciiLowercase (by decide : (58 : UInt8) < 65)]
  have hnone : host.count 58 = 0 := List.count_eq_zero.2 hclean
  rcases h with h | ⟨port, hport, h⟩
  · rw [h, hnone]
    exact Nat.zero_le 1
  · rw [h, List.count_append, hnone, List.count_cons_self, count_of_digits hport.2.1]

/-- A host has no colon if its authority has at most one. -/
theorem colon_notMem_of_hostOf {authority host : Bytes} (h : hostOf authority = some host)
    (hone : authority.count 58 ≤ 1) : 58 ∉ host := by
  rcases hostOf_eq_some h with ⟨-, hnot⟩ | ⟨port, -, rfl⟩
  · exact hnot
  · rw [List.count_append, List.count_cons_self] at hone
    exact List.count_eq_zero.1 (by omega)

theorem clean_of_parsed {url : Bytes} {t : TrackerUrl} (h : Parsed url t)
    (hauth : t.authority = authorityPart (url.drop 7))
    (hone : (authorityPart (url.drop 7)).count 58 ≤ 1) :
    ∀ b ∈ t.host, 32 < b ∧ b ∉ ascii "/?#@:" := by
  obtain ⟨host, hhost, hlower⟩ := h.host
  have hwithin : ∀ b ∈ host, b ∈ t.authority := by
    rcases hostOf_eq_some hhost with ⟨hsame, -⟩ | ⟨port, -, hsplit⟩
    · rw [hsame]
      exact fun b hb => hb
    · rw [hsplit]
      exact fun b hb => List.mem_append_left _ hb
  have hin : ∀ b ∈ host, b ∈ url.drop 7 := fun b hb =>
    List.takeWhile_subset _ (hauth ▸ hwithin b hb)
  have hkept : ∀ b ∈ host, b ≠ 47 ∧ b ≠ 63 := fun b hb =>
    mem_authorityPart (hauth ▸ hwithin b hb)
  intro b hb
  rw [hlower] at hb
  constructor
  · obtain ⟨b', hb', hle⟩ := le_toAsciiLowercase hb
    exact UInt8.lt_of_lt_of_le (h.visible b' (hin b' hb')).1 hle
  · have hbytes : ascii "/?#@:" = [47, 63, 35, 64, 58] := by decide
    have hback : ∀ c : UInt8, c < 65 → b = c → c ∈ host := fun c hc hbc =>
      (mem_toAsciiLowercase hc host).1 (hbc ▸ hb)
    rw [hbytes]
    simp only [List.mem_cons, List.not_mem_nil, or_false, not_or]
    refine ⟨fun hb' => (hkept 47 (hback 47 (by decide) hb')).1 rfl,
      fun hb' => (hkept 63 (hback 63 (by decide) hb')).2 rfl,
      fun hb' => h.fragment (hin 35 (hback 35 (by decide) hb')),
      fun hb' => h.userinfo (hwithin 64 (hback 64 (by decide) hb')),
      fun hb' => colon_notMem_of_hostOf hhost (hauth ▸ hone) (hback 58 (by decide) hb')⟩

/-- A URL that is accepted is taken apart faithfully exactly if it is plain. -/
theorem faithful_iff {url : Bytes} {t : TrackerUrl} (h : parse url = some t) :
    Faithful url t ↔ Plain url := by
  have hparsed := parsed_of_parse h
  have hparts : (cut (url.drop 7)).1 = t.authority := congrArg Prod.fst hparsed.parts.symm
  constructor
  · intro hfaithful
    have hclean : 58 ∉ t.host := fun hin => (hfaithful.clean 58 hin).2 (by decide)
    refine ⟨query_of_cut (hparts.trans hfaithful.authority), ?_⟩
    rw [← hfaithful.authority]
    exact colons_le_of_port hclean hfaithful.port
  · rintro ⟨hquery, hone⟩
    obtain ⟨hauth, htarget⟩ := Prod.mk.inj (hparsed.parts.trans (cut_eq hquery))
    exact ⟨clean_of_parsed hparsed hauth hone, name_of_parsed hparsed, hauth,
      port_of_parsed hparsed, htarget⟩

theorem faithful_iff_plain_url :
    Faithful (ascii "http://t.i2p/a") ⟨ascii "t.i2p", ascii "t.i2p", ascii "/a"⟩ ↔
      Plain (ascii "http://t.i2p/a") :=
  faithful_iff (by decide)

/-- Not every host is clean: one has a question mark in it, and one a colon. -/
theorem host_unclean :
    (∃ t, parse (ascii "http://a.com?b.i2p/x") = some t ∧ 63 ∈ t.host ∧
      t.authority ≠ authorityPart ((ascii "http://a.com?b.i2p/x").drop 7)) ∧
    ∃ t, parse (ascii "http://a:b.i2p:80/x") = some t ∧ 58 ∈ t.host := by
  refine ⟨⟨⟨ascii "a.com?b.i2p", ascii "a.com?b.i2p", ascii "/x"⟩, ?_, ?_, ?_⟩,
    ⟨⟨ascii "a:b.i2p", ascii "a:b.i2p:80", ascii "/x"⟩, ?_, ?_⟩⟩
  all_goals decide

end Clove.TrackerUrl
