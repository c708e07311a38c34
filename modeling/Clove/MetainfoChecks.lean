import Mathlib.Data.List.Sort
import Clove.Metainfo

/-!
# What a parsed torrent is checked for

`checkDistinctPaths` sorts the paths and looks at neighbours only.  That is enough: between a
path and one it is a prefix of, everything in the order has the path as a prefix
(`prefix_of_between`), so the first of them is a neighbour.  `checkDistinctPaths_iff` says what
the scan decides.

`consistent_of_parse` collects what every torrent that parses satisfies.
-/

namespace Clove

open Bencode (Value)
open Utf8 (ascii)

namespace Metainfo

/-! ## Prefixes in a sorted list -/

section

variable {α : Type} [LT α] [Std.Asymm (· < · : α → α → Prop)]
  [Std.Trichotomous (· < · : α → α → Prop)]

/-- What stands between a list and one it is a prefix of has it as a prefix too. -/
theorem prefix_of_between {a b c : List α} (hab : a ≤ b) (hbc : b ≤ c) (hac : a <+: c) :
    a <+: b := by
  induction a generalizing b c with
  | nil => exact List.nil_prefix
  | cons x a ih =>
      obtain ⟨t, rfl⟩ := hac
      cases b with
      | nil => exact absurd List.Lex.nil hab
      | cons y b =>
          rw [List.cons_append] at hbc
          rcases List.cons_le_cons_iff.1 hab with hlt | ⟨rfl, htail⟩
          · rcases List.cons_le_cons_iff.1 hbc with hgt | ⟨rfl, -⟩
            · exact absurd hgt (Std.Asymm.asymm _ _ hlt)
            · exact absurd hlt (Std.Asymm.asymm _ _ hlt)
          · rcases List.cons_le_cons_iff.1 hbc with hgt | ⟨-, hbc⟩
            · exact absurd hgt (Std.Asymm.asymm _ _ hgt)
            · exact (List.prefix_cons_inj x).2 (ih htail hbc (List.prefix_append a t))

/-- A list comes before what it is a proper prefix of. -/
theorem eq_of_prefix_of_le {a b : List α} (h : a <+: b) (hle : b ≤ a) : a = b := by
  induction a generalizing b with
  | nil =>
      cases b with
      | nil => rfl
      | cons y b => exact absurd List.Lex.nil hle
  | cons x a ih =>
      obtain ⟨t, rfl⟩ := h
      rw [List.cons_append] at hle
      rcases List.cons_le_cons_iff.1 hle with hlt | ⟨-, hle⟩
      · exact absurd hlt (Std.Asymm.asymm _ _ hlt)
      · exact congrArg (x :: ·) (ih (List.prefix_append a t) hle)

end

/-- Two paths of which one is a prefix of the other; the same path twice is a case of it. -/
def Collide (p q : List Bytes) : Prop := p <+: q ∨ q <+: p

theorem Collide.symm {p q : List Bytes} (h : Collide p q) : Collide q p := Or.symm h

/-- The scan passes when no neighbour begins with the one before it. -/
theorem scanPaths_iff (paths : List (List Bytes)) :
    scanPaths paths = .ok () ↔ paths.IsChain fun p q => ¬ p <+: q := by
  induction paths with
  | nil => exact ⟨fun _ => .nil, fun _ => rfl⟩
  | cons p rest ih =>
      cases rest with
      | nil => exact ⟨fun _ => .singleton p, fun _ => rfl⟩
      | cons q rest =>
          rw [List.isChain_cons_cons, ← ih, scanPaths]
          by_cases hstarts : p <+: q
          · refine ⟨fun h => ?_, fun h => absurd hstarts h.1⟩
            obtain ⟨_, -, h⟩ := Except.ok_of_bind h
            obtain ⟨_, hbad, -⟩ := Except.ok_of_bind h
            rw [List.isPrefixOf_iff_prefix.2 hstarts] at hbad
            cases hbad
          · have hne : p ≠ q := fun heq => hstarts (heq ▸ List.prefix_refl p)
            have hnot : p.isPrefixOf q = false := by
              rw [← Bool.not_eq_true, List.isPrefixOf_iff_prefix]
              exact hstarts
            rw [hnot, decide_eq_false hne]
            exact ⟨fun h => ⟨hstarts, h⟩, fun h => h.2⟩

/-- In order, no neighbour begins with the one before it exactly when no two paths collide. -/
theorem isChain_iff_pairwise {paths : List (List Bytes)} (hsorted : paths.Pairwise (· ≤ ·)) :
    (paths.IsChain fun p q => ¬ p <+: q) ↔ paths.Pairwise fun p q => ¬ Collide p q := by
  refine ⟨fun hchain => ?_, fun h => (h.imp fun h hp => h (.inl hp)).isChain⟩
  induction paths with
  | nil => exact .nil
  | cons p rest ih =>
      rw [List.pairwise_cons] at hsorted
      refine List.pairwise_cons.2 ⟨fun r hr => ?_, ih hsorted.2 hchain.of_cons⟩
      cases rest with
      | nil => cases hr
      | cons q rest =>
          rw [List.isChain_cons_cons] at hchain
          have hqr : q ≤ r := by
            rcases List.mem_cons.1 hr with rfl | hr
            · exact List.le_refl r
            · exact (List.pairwise_cons.1 hsorted.2).1 r hr
          rintro (hstarts | hstarts)
          · exact hchain.1 (prefix_of_between (hsorted.1 q List.mem_cons_self) hqr hstarts)
          · obtain rfl := eq_of_prefix_of_le hstarts (hsorted.1 r hr)
            exact hchain.1 (prefix_of_between (hsorted.1 q List.mem_cons_self) hqr
              (List.prefix_refl r))

/-- The scan finds every collision, whatever the lower-casing does. -/
theorem checkDistinctPaths_iff (toLowercase : Bytes → Bytes) (entries : List FileEntry) :
    checkDistinctPaths toLowercase entries = .ok () ↔
      ∀ (i j : Nat) (a b : FileEntry), i ≠ j → entries[i]? = some a → entries[j]? = some b →
        a.path.map toLowercase ≠ b.path.map toLowercase ∧
        ¬ a.path.map toLowercase <+: b.path.map toLowercase ∧
        ¬ b.path.map toLowercase <+: a.path.map toLowercase := by
  have htotal : ∀ p q : List Bytes, (decide (p ≤ q) || decide (q ≤ p)) = true := by
    intro p q
    rw [Bool.or_eq_true, decide_eq_true_eq, decide_eq_true_eq]
    exact List.le_total p q
  have htrans : ∀ p q r : List Bytes, decide (p ≤ q) = true → decide (q ≤ r) = true →
      decide (p ≤ r) = true := fun p q r hpq hqr =>
    decide_eq_true (List.le_trans (of_decide_eq_true hpq) (of_decide_eq_true hqr))
  have hsorted := List.pairwise_mergeSort htrans htotal (entries.map fun e => e.path.map toLowercase)
  have hperm := List.mergeSort_perm (entries.map fun e => e.path.map toLowercase)
    fun p q => decide (p ≤ q)
  rw [checkDistinctPaths, scanPaths_iff,
    isChain_iff_pairwise (hsorted.imp fun h => of_decide_eq_true h),
    hperm.pairwise_iff fun h hc => h hc.symm, List.pairwise_map, List.pairwise_iff_getElem]
  constructor
  · intro h i j a b hne ha hb
    obtain ⟨hi, rfl⟩ := List.getElem?_eq_some_iff.1 ha
    obtain ⟨hj, rfl⟩ := List.getElem?_eq_some_iff.1 hb
    have hapart : ¬ Collide (entries[i].path.map toLowercase) (entries[j].path.map toLowercase) := by
      rcases Nat.lt_or_gt_of_ne hne with hlt | hgt
      · exact h i j hi hj hlt
      · exact fun hc => h j i hj hi hgt hc.symm
    refine ⟨fun heq => hapart (.inl ?_), fun hp => hapart (.inl hp), fun hp => hapart (.inr hp)⟩
    exact heq ▸ List.prefix_refl _
  · intro h i j hi hj hlt hc
    obtain ⟨-, hij, hji⟩ := h i j _ _ hlt.ne (List.getElem?_eq_getElem hi)
      (List.getElem?_eq_getElem hj)
    exact hc.elim hij hji

/-! ## Paths -/

/-- A path component that is safe to use under the data directory. -/
structure SafeComponent (c : Bytes) : Prop where
  notEmpty : c ≠ []
  notDot : c ≠ ascii "."
  notDotDot : c ≠ ascii ".."
  noSlash : 47 ∉ c
  noBackslash : 92 ∉ c
  noNul : 0 ∉ c
  length_le : c.length ≤ MAX_COMPONENT_BYTES

theorem safe_of_checkComponent {c : Bytes} {u : Unit} (h : checkComponent c = .ok u) :
    SafeComponent c := by
  obtain ⟨_, hunsafe, hlong⟩ := Except.ok_of_bind h
  have hsafe := MetaInfo.not_of_refuse hunsafe
  have hshort := MetaInfo.not_of_refuse hlong
  simp only [Bool.or_eq_false_iff, decide_eq_false_iff_not, List.contains_eq_mem] at hsafe
  obtain ⟨⟨⟨⟨⟨hempty, hdot⟩, hdots⟩, hslash⟩, hbackslash⟩, hnul⟩ := hsafe
  exact ⟨hempty, hdot, hdots, hslash, hbackslash, hnul,
    Nat.le_of_not_lt (of_decide_eq_false hshort)⟩

/-- A file's path: the name of the torrent and safe components after it, not too long. -/
structure SafePath (name : Bytes) (path : List Bytes) : Prop where
  rooted : ∃ rest, path = name :: rest
  safe : ∀ c ∈ path, SafeComponent c
  length_le : (path.map fun c => c.length + 1).sum ≤ MAX_PATH_BYTES

theorem safe_of_parsePath {l : List Value} {parts : List Bytes} (h : parsePath l = .ok parts) :
    ∀ c ∈ parts, SafeComponent c := by
  induction l generalizing parts with
  | nil =>
      obtain rfl := Except.ok.inj h
      exact fun c hc => absurd hc List.not_mem_nil
  | cons part l ih =>
      obtain ⟨s, -, h⟩ := Except.ok_of_bind h
      obtain ⟨_, hcheck, h⟩ := Except.ok_of_bind h
      obtain ⟨rest, hrest, h⟩ := Except.ok_of_bind h
      obtain rfl := Except.ok.inj h
      intro c hc
      rcases List.mem_cons.1 hc with rfl | hc
      · exact safe_of_checkComponent hcheck
      · exact ih hrest c hc

theorem safePath_of_parseFile {name : Bytes} {total total' : Nat} {file : Value}
    {entry : FileEntry} (hname : SafeComponent name)
    (h : parseFile name total file = .ok (entry, total')) : SafePath name entry.path := by
  unfold parseFile at h
  obtain ⟨length, -, h⟩ := Except.ok_of_bind h
  obtain ⟨raw, -, h⟩ := Except.ok_of_bind h
  obtain ⟨-, -, h⟩ := Except.ok_of_bind h
  obtain ⟨parts, hparts, h⟩ := Except.ok_of_bind h
  obtain ⟨_, hlong, h⟩ := Except.ok_of_bind h
  obtain ⟨-, -, h⟩ := Except.ok_of_bind h
  rw [← (Prod.mk.inj (Except.ok.inj h)).1]
  refine ⟨⟨parts, rfl⟩, fun c hc => ?_,
    Nat.le_of_not_lt (of_decide_eq_false (MetaInfo.not_of_refuse hlong))⟩
  rcases List.mem_cons.1 hc with rfl | hc
  · exact hname
  · exact safe_of_parsePath hparts c hc

theorem safePath_of_parseEntries {name : Bytes} {l : List Value} {total total' : Nat}
    {files : List FileEntry} (hname : SafeComponent name)
    (h : parseEntries name total l = .ok (files, total')) : ∀ f ∈ files, SafePath name f.path := by
  induction l generalizing total total' files with
  | nil =>
      obtain ⟨rfl, -⟩ := Prod.mk.inj (Except.ok.inj h)
      exact fun _ hf => absurd hf List.not_mem_nil
  | cons file l ih =>
      obtain ⟨⟨entry, sum⟩, hfile, h⟩ := Except.ok_of_bind h
      obtain ⟨⟨entries, sum'⟩, hrest, h⟩ := Except.ok_of_bind h
      obtain ⟨rfl, -⟩ := Prod.mk.inj (Except.ok.inj h)
      intro f hf
      rcases List.mem_cons.1 hf with rfl | hf
      · exact safePath_of_parseFile hname hfile
      · exact ih hrest f hf

theorem safePath_of_parseFiles {toLowercase : Bytes → Bytes} {info : Value} {name : Bytes}
    {files : List FileEntry} {total : Nat} (hname : SafeComponent name)
    (h : parseFiles toLowercase info name = .ok (files, total)) :
    ∀ f ∈ files, SafePath name f.path := by
  unfold parseFiles at h
  split at h
  · cases h
  · cases h
  · obtain ⟨length, -, h⟩ := Except.ok_of_bind h
    obtain ⟨-, -, h⟩ := Except.ok_of_bind h
    obtain ⟨rfl, -⟩ := Prod.mk.inj (Except.ok.inj h)
    intro f hf
    rw [List.mem_singleton.1 hf]
    refine ⟨⟨[], rfl⟩, fun c hc => List.mem_singleton.1 hc ▸ hname, ?_⟩
    have := hname.length_le
    simp only [MAX_COMPONENT_BYTES, MAX_PATH_BYTES, List.map_cons, List.map_nil, List.sum_cons,
      List.sum_nil] at this ⊢
    omega
  · obtain ⟨list, -, h⟩ := Except.ok_of_bind h
    obtain ⟨-, -, h⟩ := Except.ok_of_bind h
    obtain ⟨-, -, h⟩ := Except.ok_of_bind h
    obtain ⟨⟨entries, sum⟩, hentries, h⟩ := Except.ok_of_bind h
    obtain ⟨-, -, h⟩ := Except.ok_of_bind h
    obtain ⟨-, -, h⟩ := Except.ok_of_bind h
    obtain ⟨rfl, -⟩ := Prod.mk.inj (Except.ok.inj h)
    exact safePath_of_parseEntries hname hentries

/-! ## Announce URLs -/

/-- The announce URLs of a torrent file, by tier: those of `announce-list` where there is one,
and else that of `announce`. -/
def announced (root : Value) : List (List Bytes) :=
  match root.get (ascii "announce-list") with
  | some list => (list.asList.getD []).map fun tier =>
      (tier.asList.getD []).map fun url => url.asStr.getD []
  | none =>
      match root.get (ascii "announce") with
      | some url => [[url.asStr.getD []]]
      | none => []

theorem announced_of_list {root list : Value} (h : root.get (ascii "announce-list") = some list) :
    announced root = (list.asList.getD []).map fun tier =>
      (tier.asList.getD []).map fun url => url.asStr.getD [] := by
  simp only [announced, h]

theorem announced_of_url {root url : Value} (hlist : root.get (ascii "announce-list") = none)
    (hurl : root.get (ascii "announce") = some url) : announced root = [[url.asStr.getD []]] := by
  simp only [announced, hlist, hurl]

theorem announced_of_none {root : Value} (hlist : root.get (ascii "announce-list") = none)
    (hurl : root.get (ascii "announce") = none) : announced root = [] := by
  simp only [announced, hlist, hurl]

/-- What is kept of some tiers of announce URLs: of each tier some, in their order, and no tier
of which nothing is kept; of them all the first that may be dialled, as many as fit.  The rest
is counted. -/
structure Keeps (tiers kept : List (List Bytes)) (skipped : Nat) : Prop where
  parts : ∃ parts, List.Forall₂ (fun part tier => part.Sublist tier) parts tiers ∧
    kept = parts.filter (· ≠ [])
  first : kept.flatten = (tiers.flatten.filter isI2pTracker).take MAX_TRACKERS
  counted : kept.flatten.length + skipped = tiers.flatten.length

theorem keepUrls_ok {urls : List Value} {kept kept' : List Bytes}
    {total total' skipped skipped' : Nat}
    (h : keepUrls urls (kept, total, skipped) = .ok (kept', total', skipped')) :
    ∃ new, new = ((urls.map fun url => url.asStr.getD []).filter isI2pTracker).take
        (MAX_TRACKERS - total) ∧
      kept' = kept ++ new ∧ total' = total + new.length ∧
      skipped' + new.length = skipped + urls.length := by
  induction urls generalizing kept total skipped with
  | nil =>
      obtain ⟨rfl, hcounts⟩ := Prod.mk.inj (Except.ok.inj h)
      obtain ⟨rfl, rfl⟩ := Prod.mk.inj hcounts
      exact ⟨[], by simp, by simp, by simp, by simp⟩
  | cons url urls ih =>
      rw [keepUrls] at h
      obtain ⟨s, hs, h⟩ := Except.ok_of_bind h
      have hstr : url.asStr.getD [] = s := by rw [of_require hs, Option.getD_some]
      rw [List.map_cons, hstr]
      split at h
      · rename_i htake
        rw [Bool.and_eq_true, decide_eq_true_eq] at htake
        obtain ⟨new, hnew, rfl, rfl, hcount⟩ := ih h
        have hroom : MAX_TRACKERS - total = MAX_TRACKERS - (total + 1) + 1 := by omega
        refine ⟨s :: new, ?_, by simp, by simp; omega, by simp; omega⟩
        rw [List.filter_cons_of_pos htake.1, hroom, List.take_succ_cons, hnew]
      · rename_i hskip
        obtain ⟨new, hnew, rfl, rfl, hcount⟩ := ih h
        refine ⟨new, ?_, rfl, rfl, by simp; omega⟩
        rw [Bool.and_eq_true, decide_eq_true_eq, not_and] at hskip
        by_cases hdial : isI2pTracker s = true
        · have hfull : MAX_TRACKERS - total = 0 := Nat.sub_eq_zero_of_le (Nat.le_of_not_lt (hskip hdial))
          rw [hnew, hfull, List.take_zero, List.take_zero]
        · rw [List.filter_cons_of_neg hdial, hnew]

theorem keepTiers_ok {rest : List Value} {tiers tiers' : List (List Bytes)}
    {total total' skipped skipped' : Nat}
    (h : keepTiers rest (tiers, total, skipped) = .ok (tiers', total', skipped')) :
    ∃ parts, List.Forall₂ (fun part tier => part.Sublist tier) parts
        (rest.map fun tier => (tier.asList.getD []).map fun url => url.asStr.getD []) ∧
      tiers' = tiers ++ parts.filter (· ≠ []) ∧
      parts.flatten = ((rest.map fun tier => (tier.asList.getD []).map fun url =>
        url.asStr.getD []).flatten.filter isI2pTracker).take (MAX_TRACKERS - total) ∧
      skipped' + parts.flatten.length = skipped + (rest.map fun tier =>
        (tier.asList.getD []).map fun url => url.asStr.getD []).flatten.length := by
  induction rest generalizing tiers total skipped with
  | nil =>
      obtain ⟨rfl, hcounts⟩ := Prod.mk.inj (Except.ok.inj h)
      obtain ⟨rfl, rfl⟩ := Prod.mk.inj hcounts
      exact ⟨[], .nil, by simp, by simp, by simp⟩
  | cons tier rest ih =>
      rw [keepTiers] at h
      obtain ⟨urls, hurls, h⟩ := Except.ok_of_bind h
      obtain ⟨⟨kept, total₁, skipped₁⟩, hkept, h⟩ := Except.ok_of_bind h
      have hlist : tier.asList.getD [] = urls := by rw [of_require hurls, Option.getD_some]
      obtain ⟨new, hnew, hnewKept, rfl, hcount⟩ := keepUrls_ok hkept
      rw [List.nil_append] at hnewKept
      subst hnewKept
      obtain ⟨parts, hparts, rfl, hflat, hcounts⟩ := ih h
      rw [List.map_cons, hlist]
      have hsub : kept.Sublist (urls.map fun url => url.asStr.getD []) := by
        rw [hnew]
        exact (List.take_sublist _ _).trans List.filter_sublist
      refine ⟨kept :: parts, .cons hsub hparts, ?_, ?_, ?_⟩
      · by_cases hempty : kept = []
        · rw [if_pos hempty, List.filter_cons_of_neg (by simpa using hempty)]
        · rw [if_neg hempty, List.filter_cons_of_pos (by simpa using hempty), List.append_assoc]
          rfl
      · have hlength := congrArg List.length hnew
        rw [List.length_take] at hlength
        have hroom : MAX_TRACKERS - (total + kept.length) = MAX_TRACKERS - total -
            ((urls.map fun url => url.asStr.getD []).filter isI2pTracker).length := by omega
        rw [List.flatten_cons, List.flatten_cons, List.filter_append, List.take_append, hflat,
          hroom, ← hnew]
      · rw [List.flatten_cons, List.flatten_cons, List.length_append, List.length_append,
          List.length_map]
        omega

theorem keeps_of_parseTrackers {root : Value} {trackers : List (List Bytes)} {skipped : Nat}
    (h : parseTrackers root = .ok (trackers, skipped)) : Keeps (announced root) trackers skipped := by
  unfold parseTrackers at h
  split at h
  · rename_i list hlist
    obtain ⟨l, hl, h⟩ := Except.ok_of_bind h
    obtain ⟨⟨tiers, total, skipped'⟩, hkeep, h⟩ := Except.ok_of_bind h
    obtain ⟨rfl, rfl⟩ := Prod.mk.inj (Except.ok.inj h)
    obtain ⟨parts, hparts, rfl, hflat, hcount⟩ := keepTiers_ok hkeep
    have hnonempty : (parts.filter (· ≠ [])).flatten = parts.flatten := by
      simpa using List.flatten_filter_ne_nil (L := parts)
    rw [announced_of_list hlist, of_require hl, Option.getD_some, List.nil_append]
    refine ⟨⟨parts, hparts, rfl⟩, hnonempty.trans hflat, ?_⟩
    rw [hnonempty]
    omega
  · rename_i hlist
    split at h
    · rename_i url hurl
      obtain ⟨s, hs, h⟩ := Except.ok_of_bind h
      rw [announced_of_url hlist hurl, of_require hs, Option.getD_some]
      split at h
      · rename_i hdial
        obtain ⟨rfl, rfl⟩ := Prod.mk.inj (Except.ok.inj h)
        exact ⟨⟨[[s]], .cons (List.Sublist.refl _) .nil, rfl⟩, by simp [hdial, MAX_TRACKERS], rfl⟩
      · rename_i hdial
        obtain ⟨rfl, rfl⟩ := Prod.mk.inj (Except.ok.inj h)
        exact ⟨⟨[[]], .cons (List.nil_sublist _) .nil, rfl⟩, by simp [hdial], rfl⟩
    · rename_i hurl
      obtain ⟨rfl, rfl⟩ := Prod.mk.inj (Except.ok.inj h)
      rw [announced_of_none hlist hurl]
      exact ⟨⟨[], .nil, rfl⟩, rfl, rfl⟩

end Metainfo

/-! ## The whole of it -/

namespace MetaInfo

open Metainfo (SafePath Keeps announced)

variable {sha1 toLowercase : Bytes → Bytes}

/-- What holds of a torrent that was parsed from some input. -/
structure Consistent (sha1 : Bytes → Bytes) (input : Bytes) (m : MetaInfo) : Prop where
  geometry : m.Geometry
  pieces : 1 ≤ m.pieces.length
  paths : ∀ f ∈ m.files, SafePath m.name f.path
  trackers : ∃ root, Bencode.decode input = .ok root ∧
    Keeps (announced root) m.trackers m.skippedTrackers
  dialable : ∀ url ∈ m.trackers.flatten, Metainfo.isI2pTracker url = true
  fewTrackers : m.trackers.flatten.length ≤ Metainfo.MAX_TRACKERS
  noEmptyTier : ∀ tier ∈ m.trackers, tier ≠ []
  rawInfo : m.rawInfo <:+: input
  infoHash : m.infoHash = sha1 m.rawInfo
  /-- Offsets into the torrent fit a `u64`. -/
  offsets : ∀ index < m.pieces.length, ∀ start < 2 ^ 32,
    index * m.pieceLength + start < 2 ^ 64

/-- A torrent of some bytes has a piece. -/
theorem Geometry.pieces_pos {m : MetaInfo} (h : m.Geometry) : 1 ≤ m.pieces.length := by
  have hpos := h.pos
  have hlength := h.min_le
  simp only [Metainfo.MIN_PIECE_LENGTH] at hlength
  rw [h.count, Nat.le_div_iff_mul_le (by omega)]
  omega

theorem Geometry.offset_lt {m : MetaInfo} (h : m.Geometry) {index start : Nat}
    (hindex : index < m.pieces.length) (hstart : start < 2 ^ 32) :
    index * m.pieceLength + start < 2 ^ 64 := by
  have hfew := h.few
  have hmul : index * m.pieceLength ≤ Metainfo.MAX_PIECES * Metainfo.MAX_PIECE_LENGTH :=
    Nat.mul_le_mul (by omega) h.le_max
  have hmax : Metainfo.MAX_PIECES * Metainfo.MAX_PIECE_LENGTH + 2 ^ 32 ≤ 2 ^ 64 := by decide
  omega

/-- Every torrent that parses is consistent. -/
theorem consistent_of_parse {input : Bytes} {m : MetaInfo}
    (h : parse sha1 toLowercase input = .ok m) : m.Consistent sha1 input := by
  obtain ⟨root, info, start, stop, hdecode, -, hparsed⟩ := parsed_of_parse h
  have hgeometry := geometry_of_parse h
  have hkeeps := Metainfo.keeps_of_parseTrackers hparsed.trackers
  obtain ⟨parts, -, htiers⟩ := hkeeps.parts
  refine ⟨hgeometry, hgeometry.pieces_pos,
    Metainfo.safePath_of_parseFiles (Metainfo.safe_of_checkComponent hparsed.name) hparsed.files,
    ⟨root, Bencode.decode_eq_ok_iff.2 (Bencode.derives_of_decodeWithEntry hdecode), hkeeps⟩,
    ?_, ?_, ?_, ?_, ?_, fun _ hindex _ hstart => hgeometry.offset_lt hindex hstart⟩
  · intro url hurl
    rw [hkeeps.first] at hurl
    exact (List.mem_filter.1 (List.mem_of_mem_take hurl)).2
  · rw [hkeeps.first]
    exact List.length_take_le _ _
  · intro tier htier
    rw [htiers] at htier
    exact of_decide_eq_true (List.mem_filter.1 htier).2
  · rw [hparsed.rawInfo]
    exact (List.drop_suffix _ _).isInfix.trans (List.take_prefix _ _).isInfix
  · rw [hparsed.infoHash, hparsed.rawInfo]

/-- A torrent of three files, the second of them empty.  Its second piece is the last byte of the
first file and all of the third. -/
def threeFiles : Bytes :=
  ascii "d4:infod5:filesld6:lengthi16385e4:pathl1:aeed6:lengthi0e4:pathl1:beed6:lengthi6e" ++
    ascii "4:pathl1:c1:deee4:name4:demo12:piece lengthi16384e6:pieces40:" ++ List.replicate 40 7 ++
    ascii "ee"

def threeFilesInfo : MetaInfo where
  infoHash := List.replicate 20 0
  name := ascii "demo"
  pieceLength := 16384
  pieces := [List.replicate 20 7, List.replicate 20 7]
  files := [⟨[ascii "demo", ascii "a"], 16385⟩, ⟨[ascii "demo", ascii "b"], 0⟩,
    ⟨[ascii "demo", ascii "c", ascii "d"], 6⟩]
  totalLength := 16391
  isPrivate := false
  trackers := []
  skippedTrackers := 0
  rawInfo := (threeFiles.drop 7).dropLast

/-- A hash that the second piece has if the files are ones and twos. -/
def threeFilesSha1 (bs : Bytes) : Bytes :=
  if bs = 1 :: List.replicate 6 2 then List.replicate 20 7 else List.replicate 20 0

theorem length_threeFilesSha1 (bs : Bytes) : (threeFilesSha1 bs).length = 20 := by
  unfold threeFilesSha1
  split <;> rfl

theorem parse_threeFiles : parse threeFilesSha1 id threeFiles = .ok threeFilesInfo := by
  -- sorting by insertion is what the kernel can evaluate
  simp only [parse, Metainfo.parseInfo, Metainfo.parseFiles, Metainfo.checkDistinctPaths,
    List.mergeSort_eq_insertionSort]
  decide +kernel

/-- The torrent of three files, with two tiers of which one URL may be dialled. -/
def tracked : Bytes :=
  ascii "d13:announce-listll14:http://t.i2p/a14:http://t.com/ael13:udp://t.i2p/aee" ++
    threeFiles.drop 1

def trackedInfo : MetaInfo :=
  { threeFilesInfo with trackers := [[ascii "http://t.i2p/a"]], skippedTrackers := 2 }

theorem parse_tracked : parse threeFilesSha1 id tracked = .ok trackedInfo := by
  simp only [parse, Metainfo.parseInfo, Metainfo.parseFiles, Metainfo.checkDistinctPaths,
    List.mergeSort_eq_insertionSort]
  decide +kernel

theorem consistent_of_parse_tracked : trackedInfo.Consistent threeFilesSha1 tracked :=
  consistent_of_parse parse_tracked

end MetaInfo

end Clove
