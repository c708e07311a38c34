import Clove.AnnounceRequest
import Clove.Control

/-!
# Commands

What the control API is for, in its own terms.  A request spells a `Command` or it does not
(`Spells`), and a command is carried out in one turn with the lock after the other (`Carries`): a
reference is resolved, the torrent is looked up, and then the one operation that the command is for
is done to that torrent and to no other.

`served_exact` says that the handler does this and nothing else, whatever other threads do between
two turns: who does not show the daemon's token has nothing done, who shows it has done what the
request spells, and one that spells nothing has nothing done either.
-/

namespace Clove.Control

open Http (Response ServerRequest readRequest)
open Interleaving (Prog Section)
open Utf8 (ascii)
open Clove.Daemon (ActionError AddError AddOptions Entry Fleet RemoveError ResolveError Wiped
  World hex)
open Clove.Daemon.Answering (Change)

/-! ## What a request spells -/

/-- What is asked of one torrent. -/
inductive Action where
  | detail
  | remove (deleteData : Bool)
  | change (c : Change)
  | verify
deriving Repr, DecidableEq

inductive Command where
  | status
  | list
  | addTorrent (bytes : Bytes) (options : AddOptions)
  | addMagnet (uri : Bytes)
  | act (reference : Bytes) (a : Action)
deriving Repr, DecidableEq

/-- A query has a flag: one of its pairs is the name alone, or the name and a value that means
yes. -/
def Flagged (r : ServerRequest) (name : Bytes) : Prop :=
  ∃ query, r.query = some query ∧ ∃ pair ∈ query.splitOn 38,
    pair = name ∨ ∃ value, pair = name ++ 61 :: value ∧
      value ∈ [ascii "1", ascii "true", ascii "yes"]

/-- A body is a text, with white space around it. -/
def Reads (r : ServerRequest) (text : Bytes) : Prop :=
  Utf8.valid r.body = true ∧ text = Text.trim r.body

/-- A text writes a number in thousandths: digits, and up to three more behind a point. -/
def Ratio (text : Bytes) (milli : Nat) : Prop :=
  ∃ whole frac : Bytes, (text = whole ∧ frac = [] ∨ text = whole ++ 46 :: frac) ∧
    (whole ≠ [] ∨ frac ≠ []) ∧ (∀ b ∈ whole ++ frac, Decimal.isDigit b = true) ∧ frac.length ≤ 3 ∧
    milli = Decimal.ofDigits 0 whole * 1000 + Decimal.ofDigits 0 frac * 10 ^ (3 - frac.length) ∧
    milli ≤ Config.MAX_SEED_RATIO_MILLI

/-- A priority, with white space around it. -/
def Priority (part : Bytes) (p : UInt8) : Prop :=
  p ≤ 2 ∧ Decimal.parse 255 (Text.trim part) = some p.toNat

/-- What a method, the word behind a reference and the body ask of the torrent. -/
inductive Asks (r : ServerRequest) (word : Option Bytes) : Action → Prop
  | detail (hmethod : r.method = ascii "GET") (hword : word = none) : Asks r word .detail
  | remove {deleteData : Bool} (hmethod : r.method = ascii "DELETE") (hword : word = none)
      (hdata : deleteData = true ↔ Flagged r (ascii "data")) : Asks r word (.remove deleteData)
  | pause (hmethod : r.method = ascii "POST") (hword : word = some (ascii "pause")) :
      Asks r word (.change (.setPaused true))
  | resume (hmethod : r.method = ascii "POST") (hword : word = some (ascii "resume")) :
      Asks r word (.change (.setPaused false))
  | seedRatio {text : Bytes} {milli : Nat} (hmethod : r.method = ascii "PUT")
      (hword : word = some (ascii "seed-ratio")) (hbody : Reads r text)
      (hratio : Ratio text milli) : Asks r word (.change (.setSeedRatio milli))
  | sequential {on : Bool} (hmethod : r.method = ascii "PUT")
      (hword : word = some (ascii "sequential"))
      (hbody : Reads r (if on then ascii "true" else ascii "false")) :
      Asks r word (.change (.setSequential on))
  | verify (hmethod : r.method = ascii "POST") (hword : word = some (ascii "verify")) :
      Asks r word .verify
  | priorities {text priorities : Bytes} (hmethod : r.method = ascii "PUT")
      (hword : word = some (ascii "priorities")) (hbody : Reads r text)
      (hparts : List.Forall₂ Priority (text.splitOn 44) priorities) :
      Asks r word (.change (.setPriorities priorities))

/-- What a request spells. -/
inductive Spells (r : ServerRequest) : Command → Prop
  | status (hmethod : r.method = ascii "GET") (hpath : r.path = ascii "/v1/status") :
      Spells r .status
  | list (hmethod : r.method = ascii "GET") (hpath : r.path = ascii "/v1/torrents") :
      Spells r .list
  | addMagnet (hmethod : r.method = ascii "POST") (hpath : r.path = ascii "/v1/torrents")
      (hbody : ascii "magnet:" <+: r.body) :
      Spells r (.addMagnet (Text.trim (Utf8.lossy r.body)))
  | addTorrent {options : AddOptions} (hmethod : r.method = ascii "POST")
      (hpath : r.path = ascii "/v1/torrents") (hbody : ¬ ascii "magnet:" <+: r.body)
      (hpaused : options.paused = true ↔ Flagged r (ascii "paused"))
      (hsequential : options.sequential = true ↔ Flagged r (ascii "sequential")) :
      Spells r (.addTorrent r.body options)
  /-- A reference, or a reference and a word behind it. -/
  | act {reference : Bytes} {word : Option Bytes} {a : Action}
      (hpath : r.path = ascii "/v1/torrents/" ++ reference ++ word.elim [] (47 :: ·))
      (hslash : 47 ∉ reference) (hasks : Asks r word a) :
      Spells r (.act reference a)

/-- A request that shows the daemon's token, where the daemon has one. -/
structure Authentic {F : Type} (d : Daemon F) (r : ServerRequest) : Prop where
  length : d.token.length = 64
  digits : ∀ b ∈ d.token, (Hex.value b).isSome = true
  shown : r.header (ascii "x-clove-token") = some d.token

/-! ## Reading it -/

/-- A pair is a flag if it is the name, or the name and a value that means yes. -/
theorem pair_iff {pair name : Bytes} (hname : 61 ∉ name) :
    (((Magnet.splitOnce 61 pair).getD (pair, ascii "1")).1 = name ∧
      ((Magnet.splitOnce 61 pair).getD (pair, ascii "1")).2 ∈
        [ascii "1", ascii "true", ascii "yes"]) ↔
      pair = name ∨ ∃ value, pair = name ++ 61 :: value ∧
        value ∈ [ascii "1", ascii "true", ascii "yes"] := by
  cases hsplit : Magnet.splitOnce 61 pair with
  | none =>
      have hplain : 61 ∉ pair := by
        intro hmem
        obtain ⟨before, after, rfl, hbefore⟩ := List.eq_append_cons_of_mem hmem
        rw [Tracker.splitOnce_eq_some hbefore] at hsplit
        cases hsplit
      simp only [Option.getD_none]
      constructor
      · rintro ⟨rfl, -⟩
        exact .inl rfl
      · rintro (rfl | ⟨value, rfl, -⟩)
        · exact ⟨rfl, by simp⟩
        · exact absurd (by simp) hplain
  | some p =>
      obtain ⟨key, value⟩ := p
      simp only [Option.getD_some]
      obtain rfl := Magnet.splitOnce_some hsplit
      constructor
      · rintro ⟨rfl, hvalue⟩
        exact .inr ⟨value, rfl, hvalue⟩
      · rintro (rfl | ⟨value', heq, hvalue⟩)
        · exact absurd (by simp) hname
        · rw [heq, Tracker.splitOnce_eq_some hname] at hsplit
          obtain ⟨rfl, rfl⟩ := Prod.mk.inj (Option.some.inj hsplit)
          exact ⟨rfl, hvalue⟩

/-- A query has the flag if its text says so. -/
theorem queryFlag_iff {query name : Bytes} (hname : 61 ∉ name) : queryFlag query name = true ↔
    ∃ pair ∈ query.splitOn 38, pair = name ∨ ∃ value, pair = name ++ 61 :: value ∧
      value ∈ [ascii "1", ascii "true", ascii "yes"] := by
  unfold queryFlag
  rw [List.any_eq_true]
  refine exists_congr fun pair => and_congr_right fun _ => ?_
  rw [← pair_iff hname]
  simp [or_assoc]

theorem flagged_iff {r : ServerRequest} {name : Bytes} (hname : 61 ∉ name) (hne : name ≠ []) :
    queryFlag (r.query.getD []) name = true ↔ Flagged r name := by
  unfold Flagged
  cases hquery : r.query with
  | some query => simp [queryFlag_iff hname]
  | none =>
      rw [Option.getD_none, queryFlag_iff hname]
      simp [hne.symm]

theorem queryHasData_iff {r : ServerRequest} :
    r.query.any queryHasData = true ↔ Flagged r (ascii "data") := by
  have hflag : queryHasData = fun query => queryFlag query (ascii "data") := rfl
  have hname : 61 ∉ ascii "data" := by decide
  unfold Flagged
  cases hquery : r.query with
  | some query => simp [hflag, queryFlag_iff hname]
  | none => simp

theorem trimmedText_iff {r : ServerRequest} {text : Bytes} :
    trimmedText r.body = some text ↔ Reads r text := by
  unfold trimmedText Reads
  split
  · simp [*, eq_comm]
  · simp [*]

theorem parseRatioBody_iff {r : ServerRequest} {milli : Nat} :
    parseRatioBody r.body = some milli ↔ ∃ text, Reads r text ∧ Ratio text milli := by
  unfold parseRatioBody Ratio
  rw [Option.bind_eq_some_iff]
  exact exists_congr fun text => and_congr trimmedText_iff Config.parseSeedRatio_iff

theorem parseBoolBody_iff {r : ServerRequest} {on : Bool} : parseBoolBody r.body = some on ↔
    Reads r (if on then ascii "true" else ascii "false") := by
  have hdistinct : ascii "true" ≠ ascii "false" := by decide
  unfold parseBoolBody
  rw [Option.bind_eq_some_iff]
  constructor
  · rintro ⟨text, htext, hon⟩
    rw [trimmedText_iff] at htext
    split at hon
    · rename_i heq
      obtain rfl := Option.some.inj hon
      rwa [if_pos rfl, ← heq]
    · split at hon
      · rename_i heq
        obtain rfl := Option.some.inj hon
        rwa [if_neg (by decide), ← heq]
      · cases hon
  · intro hreads
    refine ⟨_, trimmedText_iff.2 hreads, ?_⟩
    cases on with
    | true => rfl
    | false => simp [hdistinct.symm]

theorem priority_iff {part : Bytes} {p : UInt8} :
    ((Decimal.parse 255 (Text.trim part)).filter (· ≤ 2)).map UInt8.ofNat = some p ↔
      Priority part p := by
  unfold Priority
  constructor
  · intro h
    obtain ⟨n, hn, rfl⟩ := Option.map_eq_some_iff.1 h
    obtain ⟨hparse, hle⟩ := Option.filter_eq_some_iff.1 hn
    have hle : n ≤ 2 := of_decide_eq_true hle
    have htoNat : (UInt8.ofNat n).toNat = n :=
      UInt8.toNat_ofNat_of_lt' (Nat.lt_of_le_of_lt hle (by decide))
    exact ⟨UInt8.le_iff_toNat_le.2 (htoNat.symm ▸ hle), htoNat.symm ▸ hparse⟩
  · rintro ⟨hle, hparse⟩
    have hle : p.toNat ≤ 2 := UInt8.le_iff_toNat_le.1 hle
    rw [hparse, Option.filter_some, if_pos (decide_eq_true hle), Option.map_some, UInt8.ofNat_toNat]

/-- Every element is read, and the results are in order. -/
theorem mapM_eq_some_iff {α β : Type} {f : α → Option β} {l : List α} {bs : List β} :
    l.mapM f = some bs ↔ List.Forall₂ (fun a b => f a = some b) l bs := by
  induction l generalizing bs with
  | nil => simp [eq_comm]
  | cons a l ih =>
      rw [List.mapM_cons, List.forall₂_cons_left_iff]
      simp only [Option.bind_eq_bind, Option.bind_eq_some_iff, Option.pure_def, Option.some.injEq]
      constructor
      · rintro ⟨b, hb, bs', hbs', rfl⟩
        exact ⟨b, bs', hb, ih.1 hbs', rfl⟩
      · rintro ⟨b, bs', hb, hbs', rfl⟩
        exact ⟨b, hb, bs', ih.2 hbs', rfl⟩

theorem parsePriorities_iff {r : ServerRequest} {priorities : Bytes} :
    parsePriorities r.body = some priorities ↔
      ∃ text, Reads r text ∧ List.Forall₂ Priority (text.splitOn 44) priorities := by
  unfold parsePriorities
  rw [Option.bind_eq_some_iff]
  refine exists_congr fun text => and_congr trimmedText_iff ?_
  rw [mapM_eq_some_iff]
  simp only [priority_iff]

theorem constantTimeEq_iff {a b : Bytes} : constantTimeEq a b = true ↔ a = b := by
  have hfold : ∀ (l : List (UInt8 × UInt8)) (diff : UInt8),
      l.foldl (fun diff p => diff ||| (p.1 ^^^ p.2)) diff = 0 ↔
        diff = 0 ∧ ∀ p ∈ l, p.1 = p.2 := by
    intro l
    induction l with
    | nil => simp
    | cons p l ih =>
        intro diff
        rw [List.foldl_cons, ih, UInt8.or_eq_zero_iff, UInt8.xor_eq_zero_iff]
        simp [and_assoc]
  unfold constantTimeEq
  split
  · rename_i hlength
    simp only [Bool.false_eq_true, false_iff]
    rintro rfl
    exact hlength rfl
  · rename_i hlength
    have hlength := not_not.1 hlength
    rw [decide_eq_true_eq, hfold]
    constructor
    · rintro ⟨-, hall⟩
      refine List.ext_getElem hlength fun i hi hi' => ?_
      exact hall (a[i], b[i]) (List.mem_iff_getElem.2 ⟨i, by simpa using ⟨hi, hi'⟩, by simp⟩)
    · rintro rfl
      refine ⟨rfl, fun p hp => ?_⟩
      obtain ⟨i, hi, rfl⟩ := List.mem_iff_getElem.1 hp
      simp

theorem authentic_iff {F : Type} {d : Daemon F} {r : ServerRequest} :
    (isWellFormedToken d.token && (r.header (ascii "x-clove-token")).any
      fun got => constantTimeEq got d.token) = true ↔ Authentic d r := by
  rw [Bool.and_eq_true, isWellFormedToken, Bool.and_eq_true, decide_eq_true_eq, List.all_eq_true]
  constructor
  · rintro ⟨⟨hlength, hdigits⟩, hshown⟩
    obtain ⟨got, hgot, heq⟩ := (Option.any_eq_true _ _).1 hshown
    exact ⟨hlength, hdigits, hgot.trans (congrArg some (constantTimeEq_iff.1 heq))⟩
  · rintro ⟨hlength, hdigits, hshown⟩
    refine ⟨⟨hlength, hdigits⟩, ?_⟩
    rw [hshown, Option.any_some, constantTimeEq_iff]

/-! ## What is asked, worked out -/

/-- The action that is asked of a torrent. -/
def asked (r : ServerRequest) (word : Option Bytes) : Option Action :=
  if r.method = ascii "GET" ∧ word = none then some .detail
  else if r.method = ascii "DELETE" ∧ word = none then
    some (.remove (r.query.any queryHasData))
  else if r.method = ascii "POST" ∧ word = some (ascii "pause") then
    some (.change (.setPaused true))
  else if r.method = ascii "POST" ∧ word = some (ascii "resume") then
    some (.change (.setPaused false))
  else if r.method = ascii "PUT" ∧ word = some (ascii "seed-ratio") then
    (parseRatioBody r.body).map fun milli => .change (.setSeedRatio milli)
  else if r.method = ascii "PUT" ∧ word = some (ascii "sequential") then
    (parseBoolBody r.body).map fun on => .change (.setSequential on)
  else if r.method = ascii "POST" ∧ word = some (ascii "verify") then some .verify
  else if r.method = ascii "PUT" ∧ word = some (ascii "priorities") then
    (parsePriorities r.body).map fun priorities => .change (.setPriorities priorities)
  else none

theorem asked_iff {r : ServerRequest} {word : Option Bytes} {a : Action} :
    asked r word = some a ↔ Asks r word a := by
  constructor
  · unfold asked
    intro h
    split at h
    · rename_i hasked
      obtain rfl := Option.some.inj h
      exact .detail hasked.1 hasked.2
    split at h
    · rename_i hasked
      obtain rfl := Option.some.inj h
      exact .remove hasked.1 hasked.2 queryHasData_iff
    split at h
    · rename_i hasked
      obtain rfl := Option.some.inj h
      exact .pause hasked.1 hasked.2
    split at h
    · rename_i hasked
      obtain rfl := Option.some.inj h
      exact .resume hasked.1 hasked.2
    split at h
    · rename_i hasked
      obtain ⟨milli, hmilli, rfl⟩ := Option.map_eq_some_iff.1 h
      obtain ⟨text, hreads, hratio⟩ := parseRatioBody_iff.1 hmilli
      exact .seedRatio hasked.1 hasked.2 hreads hratio
    split at h
    · rename_i hasked
      obtain ⟨on, hon, rfl⟩ := Option.map_eq_some_iff.1 h
      exact .sequential hasked.1 hasked.2 (parseBoolBody_iff.1 hon)
    split at h
    · rename_i hasked
      obtain rfl := Option.some.inj h
      exact .verify hasked.1 hasked.2
    split at h
    · rename_i hasked
      obtain ⟨priorities, hpriorities, rfl⟩ := Option.map_eq_some_iff.1 h
      obtain ⟨text, hreads, hparts⟩ := parsePriorities_iff.1 hpriorities
      exact .priorities hasked.1 hasked.2 hreads hparts
    · cases h
  · intro h
    unfold asked
    cases h with
    | detail hmethod hword => rw [if_pos ⟨hmethod, hword⟩]
    | remove hmethod hword hdata =>
        rw [hmethod, hword, if_neg (by decide), if_pos ⟨rfl, rfl⟩,
          Bool.eq_iff_iff.2 (queryHasData_iff.trans hdata.symm)]
    | pause hmethod hword =>
        rw [hmethod, hword, if_neg (by decide), if_neg (by decide), if_pos ⟨rfl, rfl⟩]
    | resume hmethod hword =>
        rw [hmethod, hword, if_neg (by decide), if_neg (by decide), if_neg (by decide),
          if_pos ⟨rfl, rfl⟩]
    | seedRatio hmethod hword hreads hratio =>
        rw [hmethod, hword, if_neg (by decide), if_neg (by decide), if_neg (by decide),
          if_neg (by decide), if_pos ⟨rfl, rfl⟩, parseRatioBody_iff.2 ⟨_, hreads, hratio⟩]
        rfl
    | sequential hmethod hword hreads =>
        rw [hmethod, hword, if_neg (by decide), if_neg (by decide), if_neg (by decide),
          if_neg (by decide), if_neg (by decide), if_pos ⟨rfl, rfl⟩, parseBoolBody_iff.2 hreads]
        rfl
    | verify hmethod hword =>
        rw [hmethod, hword, if_neg (by decide), if_neg (by decide), if_neg (by decide),
          if_neg (by decide), if_neg (by decide), if_neg (by decide), if_pos ⟨rfl, rfl⟩]
    | priorities hmethod hword hreads hparts =>
        rw [hmethod, hword, if_neg (by decide), if_neg (by decide), if_neg (by decide),
          if_neg (by decide), if_neg (by decide), if_neg (by decide), if_neg (by decide),
          if_pos ⟨rfl, rfl⟩, parsePriorities_iff.2 ⟨_, hreads, hparts⟩]
        rfl

/-- Its program. -/
def Action.program {F : Type} (d : Daemon F) (h : Bytes) : Action → Handler Response
  | .detail => d.detail h
  | .remove deleteData => d.remove h deleteData
  | .change c => d.change h c
  | .verify => d.verify h

/-- What is asked of a torrent is done, and what is not an action is refused. -/
theorem act_cases {F : Type} (d : Daemon F) (r : ServerRequest) (h : Bytes) (word : Option Bytes) :
    (∃ a, asked r word = some a ∧ d.act r h word = a.program d h) ∨
    asked r word = none ∧ ∃ answer : Response, (answer.status = 400 ∨ answer.status = 405) ∧
      d.act r h word = pure answer := by
  unfold asked Daemon.act
  simp only [Prod.mk.injEq]
  split
  · exact .inl ⟨_, rfl, rfl⟩
  split
  · exact .inl ⟨_, rfl, rfl⟩
  split
  · exact .inl ⟨_, rfl, rfl⟩
  split
  · exact .inl ⟨_, rfl, rfl⟩
  split
  · cases parseRatioBody r.body with
    | some milli => exact .inl ⟨_, rfl, rfl⟩
    | none => exact .inr ⟨rfl, _, .inl rfl, rfl⟩
  split
  · cases parseBoolBody r.body with
    | some on => exact .inl ⟨_, rfl, rfl⟩
    | none => exact .inr ⟨rfl, _, .inl rfl, rfl⟩
  split
  · exact .inl ⟨_, rfl, rfl⟩
  split
  · cases parsePriorities r.body with
    | some priorities => exact .inl ⟨_, rfl, rfl⟩
    | none => exact .inr ⟨rfl, _, .inl rfl, rfl⟩
  · exact .inr ⟨rfl, _, .inr rfl, rfl⟩

/-- A path is a reference, and a word behind it if there is a slash. -/
theorem parted_iff {rest reference : Bytes} {word : Option Bytes} :
    Daemon.parted rest = (reference, word) ↔
      rest = reference ++ word.elim [] (47 :: ·) ∧ 47 ∉ reference := by
  unfold Daemon.parted
  cases hsplit : Magnet.splitOnce 47 rest with
  | none =>
      have hplain : 47 ∉ rest := by
        intro hmem
        obtain ⟨before, after, rfl, hbefore⟩ := List.eq_append_cons_of_mem hmem
        rw [Tracker.splitOnce_eq_some hbefore] at hsplit
        cases hsplit
      simp only [Prod.mk.injEq]
      constructor
      · rintro ⟨rfl, rfl⟩
        exact ⟨(List.append_nil _).symm, hplain⟩
      · rintro ⟨rfl, -⟩
        cases word with
        | none => exact ⟨List.append_nil _, rfl⟩
        | some w => exact absurd (by simp) hplain
  | some p =>
      obtain ⟨before, after⟩ := p
      obtain rfl := Magnet.splitOnce_some hsplit
      simp only [Prod.mk.injEq]
      constructor
      · rintro ⟨rfl, rfl⟩
        refine ⟨rfl, fun hmem => ?_⟩
        obtain ⟨a, b, rfl, ha⟩ := List.eq_append_cons_of_mem hmem
        rw [List.append_assoc, List.cons_append, Tracker.splitOnce_eq_some ha] at hsplit
        have hlength := congrArg List.length (congrArg Prod.fst (Option.some.inj hsplit))
        simp at hlength
      · rintro ⟨heq, hplain⟩
        cases word with
        | none =>
            rw [Option.elim_none, List.append_nil] at heq
            exact absurd (heq ▸ by simp) hplain
        | some w =>
            rw [heq, Option.elim_some, Tracker.splitOnce_eq_some hplain] at hsplit
            obtain ⟨rfl, rfl⟩ := Prod.mk.inj (Option.some.inj hsplit)
            exact ⟨rfl, rfl⟩

/-- The command that a request spells. -/
def spelled (r : ServerRequest) : Option Command :=
  if r.method = ascii "GET" ∧ r.path = ascii "/v1/status" then some .status
  else if r.method = ascii "GET" ∧ r.path = ascii "/v1/torrents" then some .list
  else if r.method = ascii "POST" ∧ r.path = ascii "/v1/torrents" then
    if ascii "magnet:" <+: r.body then some (.addMagnet (Text.trim (Utf8.lossy r.body)))
    else some (.addTorrent r.body
      ⟨queryFlag (r.query.getD []) (ascii "paused"), queryFlag (r.query.getD []) (ascii "sequential")⟩)
  else if Daemon.TORRENTS <+: r.path then
    let (reference, word) := Daemon.parted (r.path.drop Daemon.TORRENTS.length)
    (asked r word).map (.act reference)
  else none

/-- A path of a torrent is none of the others. -/
theorem torrents_path {rest : Bytes} : Daemon.TORRENTS ++ rest ≠ ascii "/v1/status" ∧
    Daemon.TORRENTS ++ rest ≠ ascii "/v1/torrents" := by
  constructor
  · intro heq
    have hprefix : Daemon.TORRENTS <+: ascii "/v1/status" := ⟨rest, heq⟩
    exact absurd hprefix (by decide)
  · intro heq
    have hprefix : Daemon.TORRENTS <+: ascii "/v1/torrents" := ⟨rest, heq⟩
    exact absurd hprefix (by decide)

theorem spelled_iff {r : ServerRequest} {c : Command} : spelled r = some c ↔ Spells r c := by
  have hpaused : queryFlag (r.query.getD []) (ascii "paused") = true ↔ Flagged r (ascii "paused") :=
    flagged_iff (by decide) (by decide)
  have hsequential : queryFlag (r.query.getD []) (ascii "sequential") = true ↔
      Flagged r (ascii "sequential") := flagged_iff (by decide) (by decide)
  constructor
  · unfold spelled
    intro h
    split at h
    · rename_i hasked
      obtain rfl := Option.some.inj h
      exact .status hasked.1 hasked.2
    split at h
    · rename_i hasked
      obtain rfl := Option.some.inj h
      exact .list hasked.1 hasked.2
    split at h
    · rename_i hasked
      split at h
      · rename_i hmagnet
        obtain rfl := Option.some.inj h
        exact .addMagnet hasked.1 hasked.2 hmagnet
      · rename_i hmagnet
        obtain rfl := Option.some.inj h
        exact .addTorrent hasked.1 hasked.2 hmagnet hpaused hsequential
    split at h
    · rename_i hprefix
      obtain ⟨rest, hrest⟩ := hprefix
      rw [← hrest, List.drop_left] at h
      cases hparted : Daemon.parted rest with
      | mk reference word =>
          rw [hparted] at h
          obtain ⟨a, ha, rfl⟩ := Option.map_eq_some_iff.1 h
          obtain ⟨rfl, hslash⟩ := parted_iff.1 hparted
          exact .act (hrest.symm.trans (List.append_assoc _ _ _).symm) hslash (asked_iff.1 ha)
    · cases h
  · intro h
    unfold spelled
    cases h with
    | status hmethod hpath => rw [if_pos ⟨hmethod, hpath⟩]
    | list hmethod hpath => rw [hmethod, hpath, if_neg (by decide), if_pos ⟨rfl, rfl⟩]
    | addMagnet hmethod hpath hbody =>
        rw [hmethod, hpath, if_neg (by decide), if_neg (by decide), if_pos ⟨rfl, rfl⟩,
          if_pos hbody]
    | @addTorrent options hmethod hpath hbody hp hs =>
        rw [hmethod, hpath, if_neg (by decide), if_neg (by decide), if_pos ⟨rfl, rfl⟩,
          if_neg hbody, Bool.eq_iff_iff.2 (hpaused.trans hp.symm),
          Bool.eq_iff_iff.2 (hsequential.trans hs.symm)]
    | @act reference word a hpath hslash hasks =>
        have hpath : r.path = Daemon.TORRENTS ++ (reference ++ word.elim [] (47 :: ·)) :=
          hpath.trans (List.append_assoc _ _ _)
        rw [hpath, if_neg (fun h => torrents_path.1 h.2), if_neg (fun h => torrents_path.2 h.2),
          if_neg (fun h => torrents_path.2 h.2), if_pos (List.prefix_append _ _), List.drop_left,
          parted_iff.2 ⟨rfl, hslash⟩]
        simp only [asked_iff.2 hasks, Option.map_some]

/-! ## What a command comes to -/

/-- A turn with the lock, as it is logged. -/
abbrev Turn := Section Fleet Deed

/-- A turn that looks and does nothing. -/
structure Looked (c : Turn) : Prop where
  deed : c.deed = .looked
  after : c.after = c.before

section Carrying

variable {F : Type} (d : Daemon F)

/-- A turn that carries out an operation of the registry. -/
structure Performed (w : World) (op : Fleet.Op) (wiped : Option Wiped) (c : Turn) : Prop where
  deed : c.deed = .performed w op wiped
  after : c.after = c.before.step d.sha1 d.toLowercase d.limits (w, op)

/-- The turns of an action on a torrent, and its answer. -/
inductive Acts (h : Bytes) : Action → List Turn → Response → Prop
  | detail {w : World} {c : Turn} (hc : Performed d w .refresh none c) :
      Acts h .detail [c] (d.detailResult (c.after.lookup h))
  | remove {w : World} {unlinked : List Bytes → Except IoError Unit} {c : Turn} {deleteData : Bool}
      {result : Except RemoveError Unit} {wiped : Option Wiped}
      (hc : Performed d w (.remove h) wiped c)
      (hresult : (Clove.Daemon.Answering.remove w unlinked h deleteData c.before).1 =
        (result, wiped)) :
      Acts h (.remove deleteData) [c] (d.removeResult result)
  | change {w : World} {c : Turn} {ch : Change} {result : Except ActionError Unit}
      (hc : Performed d w (ch.op h) none c)
      (hresult : (Clove.Daemon.Answering.make d.sha1 d.limits ch w h c.before).1 = result) :
      Acts h (.change ch) [c] (d.actionResult result)
  | unverified {w : World} {c : Turn} {e : ActionError}
      (hc : Performed d w (.beginVerify h) none c)
      (hresult : (Clove.Daemon.Answering.beginVerify h c.before).1 = .error e) :
      Acts h .verify [c] (d.actionError e)
  | verified {w w' : World} {c c' : Turn} {scanned : Except IoError Bitfield}
      {result : Except ActionError Nat} (hc : Performed d w (.beginVerify h) none c)
      (hbegin : (Clove.Daemon.Answering.beginVerify h c.before).1 = .ok ())
      (hc' : Performed d w' (.finishScan h scanned) none c')
      (hresult : (Clove.Daemon.Answering.finishScan d.sha1 w' h scanned c'.before).1 = result) :
      Acts h .verify [c, c'] (d.verifyResult result)

/-- The turns of a command, and its answer. -/
inductive Carries : Command → List Turn → Response → Prop
  | status {w : World} {c : Turn} (hc : Performed d w .refresh none c) :
      Carries .status [c] (d.json 200 (d.statusJson c.after))
  | list {w : World} {c : Turn} (hc : Performed d w .refresh none c) :
      Carries .list [c] (d.json 200 (d.listJson c.after))
  | torrentRefused {w : World} {c : Turn} {bytes : Bytes} {options : AddOptions} {e : AddError}
      (hc : Performed d w (.addTorrent bytes options) none c)
      (hresult : (Clove.Daemon.Answering.addTorrent d.sha1 d.toLowercase w bytes options
        c.before).1 = .error e) :
      Carries (.addTorrent bytes options) [c] (d.addTorrentError e)
  | torrentAdded {w w' : World} {c c' : Turn} {bytes h : Bytes} {options : AddOptions}
      {scanned : Except IoError Bitfield} (hc : Performed d w (.addTorrent bytes options) none c)
      (hresult : (Clove.Daemon.Answering.addTorrent d.sha1 d.toLowercase w bytes options
        c.before).1 = .ok h)
      (hc' : Performed d w' (.finishScan h scanned) none c') :
      Carries (.addTorrent bytes options) [c, c']
        (d.json 201 (.object [(ascii "info_hash", .str (hex h))]))
  | magnetRefused {w : World} {c : Turn} {uri : Bytes} {e : AddError}
      (hc : Performed d w (.addMagnet uri) none c)
      (hresult : (Clove.Daemon.Answering.addMagnet w uri c.before).1 = .error e) :
      Carries (.addMagnet uri) [c] (d.addMagnetError e)
  | magnetAdded {w : World} {c c' : Turn} {uri h : Bytes}
      (hc : Performed d w (.addMagnet uri) none c)
      (hresult : (Clove.Daemon.Answering.addMagnet w uri c.before).1 = .ok h)
      (hdeed : c'.deed = .claimed h)
      (hclaim : c'.after = { c'.before with registry := (c'.before.registry.claimFetch h).2 }) :
      Carries (.addMagnet uri) [c, c']
        (d.json 201 (.object [(ascii "info_hash", .str (hex h)),
          (ascii "state", .str (ascii "fetching-metadata"))]))
  /-- The reference does not name one torrent. -/
  | unresolved {c : Turn} {reference : Bytes} {a : Action} {e : ResolveError} (hc : Looked c)
      (hresolve : c.before.registry.resolve reference = .error e) :
      Carries (.act reference a) [c] (d.resolveError e)
  /-- It names a magnet, of which there is nothing yet. -/
  | pending {c c' : Turn} {reference h : Bytes} {a : Action} (hc : Looked c) (hc' : Looked c')
      (hresolve : c.before.registry.resolve reference = .ok h)
      (hpending : c'.before.registry.pending.has h = true)
      (hkeep : ∀ deleteData, a ≠ .remove deleteData) :
      Carries (.act reference a) [c, c'] d.stillFetching
  | act {c c' : Turn} {cs : List Turn} {reference h : Bytes} {a : Action} {answer : Response}
      (hc : Looked c) (hc' : Looked c') (hresolve : c.before.registry.resolve reference = .ok h)
      (hready : c'.before.registry.pending.has h = false ∨ ∃ deleteData, a = .remove deleteData)
      (hacts : Acts d h a cs answer) : Carries (.act reference a) (c :: c' :: cs) answer

/-- What serving a connection comes to. -/
inductive Served (breaks : Bool) (stream : Bytes) : List Turn → Response → Prop
  | unread {answer : Response}
      (hread : ∀ r rest, readRequest breaks MAX_REQUEST_BODY stream ≠ .ok (r, rest))
      (hstatus : answer.status = 400) : Served breaks stream [] answer
  | denied {r : ServerRequest} {rest : Bytes} {answer : Response}
      (hread : readRequest breaks MAX_REQUEST_BODY stream = .ok (r, rest))
      (hdenied : ¬ Authentic d r) (hstatus : answer.status = 401) : Served breaks stream [] answer
  | meaningless {r : ServerRequest} {rest : Bytes} {cs : List Turn} {answer : Response}
      (hread : readRequest breaks MAX_REQUEST_BODY stream = .ok (r, rest)) (hauth : Authentic d r)
      (hnone : ∀ command, ¬ Spells r command) (hlooked : ∀ c ∈ cs, Looked c)
      (hstatus : answer.status ∈ [400, 404, 405, 409]) : Served breaks stream cs answer
  | carried {r : ServerRequest} {rest : Bytes} {command : Command} {cs : List Turn}
      {answer : Response} (hread : readRequest breaks MAX_REQUEST_BODY stream = .ok (r, rest))
      (hauth : Authentic d r) (hspells : Spells r command) (hcarries : Carries d command cs answer) :
      Served breaks stream cs answer

end Carrying

/-! ## The programs -/

section Programs

variable {F : Type} {d : Daemon F} {h : Bytes}

open Interleaving.Prog (takes_pure takes_throw takes_atomic_bind)

theorem performed {m : Moment} {s s' : Fleet} {op : Fleet.Op} {wiped : Option Wiped}
    (h : s' = s.step d.sha1 d.toLowercase d.limits (m.world, op)) :
    Performed d m.world op wiped ⟨s, .performed m.world op wiped, s'⟩ := ⟨rfl, h⟩

theorem takes_look {α β : Type} {f : Fleet → α} {k : α → Handler β}
    {Q : List Turn → Except Response β → Prop}
    (hk : ∀ s : Fleet, (k (f s)).Takes fun cs r => Q (⟨s, .looked, s⟩ :: cs) r) :
    (look f >>= k).Takes Q :=
  takes_atomic_bind (g := fun (_ : Moment) s => (f s, Deed.looked, s)) fun _ s => hk s

theorem takes_perform {α β : Type} {op : Fleet.Op} {f : World → Fleet → α × Fleet}
    {k : α → Handler β} {Q : List Turn → Except Response β → Prop}
    (hk : ∀ (m : Moment) (s : Fleet), (k (f m.world s).1).Takes fun cs r =>
      Q (⟨s, .performed m.world op none, (f m.world s).2⟩ :: cs) r) :
    (perform op f >>= k).Takes Q :=
  takes_atomic_bind (g := fun (m : Moment) s =>
    ((f m.world s).1, Deed.performed m.world op none, (f m.world s).2)) hk

theorem takes_runScan {β : Type} {k : Except ActionError Nat → Handler β}
    {Q : List Turn → Except Response β → Prop}
    (hk : ∀ (m : Moment) (s : Fleet),
      (k (Clove.Daemon.Answering.finishScan d.sha1 m.world h m.scanned s).1).Takes fun cs r =>
        Q (⟨s, .performed m.world (.finishScan h m.scanned) none,
          (Clove.Daemon.Answering.finishScan d.sha1 m.world h m.scanned s).2⟩ :: cs) r) :
    (d.runScan h >>= k).Takes Q :=
  takes_atomic_bind (g := fun (m : Moment) s =>
    ((Clove.Daemon.Answering.finishScan d.sha1 m.world h m.scanned s).1,
      Deed.performed m.world (.finishScan h m.scanned) none,
      (Clove.Daemon.Answering.finishScan d.sha1 m.world h m.scanned s).2)) hk

/-- An action is done as it should be. -/
theorem takes_action (a : Action) :
    (a.program d h).Takes fun cs result => Acts d h a cs (Daemon.answer result) := by
  cases a with
  | detail => exact takes_perform fun m s => takes_pure (Acts.detail (performed rfl))
  | remove deleteData =>
      refine takes_atomic_bind (g := fun (m : Moment) s =>
        ((Clove.Daemon.Answering.remove m.world m.unlinked h deleteData s).1.1,
          Deed.performed m.world (.remove h)
            (Clove.Daemon.Answering.remove m.world m.unlinked h deleteData s).1.2,
          (Clove.Daemon.Answering.remove m.world m.unlinked h deleteData s).2))
        fun m s => takes_pure ?_
      exact Acts.remove (performed Clove.Daemon.Answering.remove_snd) rfl
  | change ch =>
      refine takes_perform fun m s => takes_pure ?_
      exact Acts.change (performed (Clove.Daemon.Answering.make_snd ch)) rfl
  | verify =>
      refine takes_perform fun m s => ?_
      have hbegin : Performed d m.world (.beginVerify h) none ⟨s, .performed m.world
          (.beginVerify h) none, (Clove.Daemon.Answering.beginVerify h s).2⟩ :=
        performed Clove.Daemon.Answering.beginVerify_snd
      cases hresult : (Clove.Daemon.Answering.beginVerify h s).1 with
      | error e => exact takes_pure (Acts.unverified hbegin hresult)
      | ok u =>
          refine takes_runScan fun m' s' => takes_pure ?_
          exact Acts.verified hbegin hresult (performed Clove.Daemon.Answering.finishScan_snd) rfl

theorem takes_addMagnet (uri : Bytes) : (d.addMagnet uri).Takes fun cs result =>
    Carries d (.addMagnet uri) cs (Daemon.answer result) := by
  refine takes_perform fun m s => ?_
  cases hresult : (Clove.Daemon.Answering.addMagnet m.world uri s).1 with
  | error e => exact takes_pure (Carries.magnetRefused (performed rfl) hresult)
  | ok infoHash =>
      refine takes_atomic_bind (g := fun (_ : Moment) (s : Fleet) => ((), Deed.claimed infoHash,
        { s with registry := (s.registry.claimFetch infoHash).2 })) fun m' s' => takes_pure ?_
      exact Carries.magnetAdded (performed rfl) hresult rfl rfl

theorem takes_addTorrentFile (bytes : Bytes) (options : AddOptions) :
    (d.addTorrentFile bytes options).Takes fun cs result =>
      Carries d (.addTorrent bytes options) cs (Daemon.answer result) := by
  refine takes_perform fun m s => ?_
  cases hresult : (Clove.Daemon.Answering.addTorrent d.sha1 d.toLowercase m.world bytes options
    s).1 with
  | error e => exact takes_pure (Carries.torrentRefused (performed rfl) hresult)
  | ok infoHash =>
      refine takes_runScan fun m' s' => takes_pure ?_
      exact Carries.torrentAdded (performed rfl) hresult
        (performed Clove.Daemon.Answering.finishScan_snd)

theorem status_resolveError (e : ResolveError) :
    (d.resolveError e).status ∈ [400, 404, 405, 409] := by
  cases e with
  | malformed => exact List.mem_of_elem_eq_true rfl
  | notFound => exact List.mem_of_elem_eq_true rfl
  | ambiguous candidates => exact List.mem_of_elem_eq_true rfl

/-- What a request of a torrent comes to. -/
theorem takes_torrentAction (r : ServerRequest) {rest reference : Bytes} {word : Option Bytes}
    (hparted : Daemon.parted rest = (reference, word)) :
    (d.torrentAction r rest).Takes fun cs result =>
      (∃ a, asked r word = some a ∧ Carries d (.act reference a) cs (Daemon.answer result)) ∨
      asked r word = none ∧ (∀ c ∈ cs, Looked c) ∧
        (Daemon.answer result).status ∈ [400, 404, 405, 409] := by
  unfold Daemon.torrentAction
  rw [hparted]
  refine takes_look fun s => ?_
  cases hresolve : s.registry.resolve reference with
  | error e =>
      refine takes_throw ?_
      cases hasked : asked r word with
      | some a => exact .inl ⟨a, rfl, .unresolved ⟨rfl, rfl⟩ hresolve⟩
      | none =>
          refine .inr ⟨rfl, fun c hc => ?_, status_resolveError e⟩
          obtain rfl := List.mem_singleton.1 hc
          exact ⟨rfl, rfl⟩
  | ok infoHash =>
      refine takes_look fun s' => ?_
      have hlooked : ∀ c ∈ [(⟨s, .looked, s⟩ : Turn), ⟨s', .looked, s'⟩], Looked c := by
        intro c hc
        simp only [List.mem_cons, List.not_mem_nil, or_false] at hc
        rcases hc with rfl | rfl
        · exact ⟨rfl, rfl⟩
        · exact ⟨rfl, rfl⟩
      split
      · rename_i hpending
        rw [Bool.and_eq_true, Bool.not_eq_true', Bool.and_eq_false_iff] at hpending
        obtain ⟨hpending, hkeep⟩ := hpending
        refine takes_throw ?_
        cases hasked : asked r word with
        | none => exact .inr ⟨rfl, hlooked, List.mem_of_elem_eq_true rfl⟩
        | some a =>
            refine .inl ⟨a, rfl, .pending ⟨rfl, rfl⟩ ⟨rfl, rfl⟩ hresolve hpending ?_⟩
            rintro deleteData rfl
            cases asked_iff.1 hasked with
            | remove hmethod hword hdata => simp [hmethod, hword] at hkeep
      · rename_i hready
        rw [Bool.and_eq_true, not_and_or, Bool.not_eq_true, Bool.not_eq_true', Bool.not_eq_false]
          at hready
        obtain ⟨a, hasked, hprogram⟩ | ⟨hasked, answer, hstatus, hprogram⟩ :=
          act_cases d r infoHash word
        · rw [hprogram]
          refine (takes_action a).mono fun cs result hacts => .inl ⟨a, hasked, ?_⟩
          refine .act ⟨rfl, rfl⟩ ⟨rfl, rfl⟩ hresolve (hready.imp_right fun hremove => ?_) hacts
          rw [Bool.and_eq_true, decide_eq_true_eq, Option.isNone_iff_eq_none] at hremove
          rw [asked, hremove.1, hremove.2, if_neg (by decide), if_pos ⟨rfl, rfl⟩] at hasked
          exact ⟨_, (Option.some.inj hasked).symm⟩
        · rw [hprogram]
          refine takes_pure (.inr ⟨hasked, hlooked, ?_⟩)
          rcases hstatus with hstatus | hstatus
          · rw [Daemon.answer, hstatus]
            decide
          · rw [Daemon.answer, hstatus]
            decide

/-- What a request comes to. -/
theorem takes_route (r : ServerRequest) : (d.route r).Takes fun cs result =>
    (∃ command, Spells r command ∧ Carries d command cs (Daemon.answer result)) ∨
    (∀ command, ¬ Spells r command) ∧ (∀ c ∈ cs, Looked c) ∧
      (Daemon.answer result).status ∈ [400, 404, 405, 409] := by
  simp only [← spelled_iff]
  unfold Daemon.route spelled
  simp only [Bool.and_eq_true, decide_eq_true_eq, List.isPrefixOf_iff_prefix]
  split
  · exact takes_perform fun m s => takes_pure (.inl ⟨_, rfl, .status (performed rfl)⟩)
  split
  · exact takes_perform fun m s => takes_pure (.inl ⟨_, rfl, .list (performed rfl)⟩)
  split
  · unfold Daemon.addTorrent
    simp only [List.isPrefixOf_iff_prefix]
    split
    · exact (takes_addMagnet _).mono fun cs result hcarries => .inl ⟨_, rfl, hcarries⟩
    · exact (takes_addTorrentFile _ _).mono fun cs result hcarries => .inl ⟨_, rfl, hcarries⟩
  split
  · cases hparted : Daemon.parted (r.path.drop Daemon.TORRENTS.length) with
    | mk reference word =>
        refine (takes_torrentAction r hparted).mono fun cs result htakes => ?_
        obtain ⟨a, hasked, hcarries⟩ | ⟨hasked, hlooked, hstatus⟩ := htakes
        · exact .inl ⟨_, by simp only [hasked, Option.map_some], hcarries⟩
        · refine .inr ⟨fun command hspells => ?_, hlooked, hstatus⟩
          simp only [hasked, Option.map_none] at hspells
          cases hspells
  · split
    · exact takes_pure (.inr ⟨fun command h => (by cases h), fun c hc => absurd hc List.not_mem_nil,
        List.mem_of_elem_eq_true rfl⟩)
    · exact takes_pure (.inr ⟨fun command h => (by cases h), fun c hc => absurd hc List.not_mem_nil,
        List.mem_of_elem_eq_true rfl⟩)

/-- What a connection comes to. -/
theorem takes_handle (d : Daemon F) (breaks : Bool) (stream : Bytes) :
    (d.handle breaks stream).Takes fun cs result =>
      Served d breaks stream cs (Daemon.answer result) := by
  unfold Daemon.handle
  have hunread : ∀ {e}, readRequest breaks MAX_REQUEST_BODY stream = .error e → ∀ r rest,
      readRequest breaks MAX_REQUEST_BODY stream ≠ .ok (r, rest) := by
    intro e he r rest hok
    rw [he] at hok
    cases hok
  split
  · rename_i hread
    exact takes_throw (.unread (hunread hread) rfl)
  · rename_i hread
    exact takes_throw (.unread (hunread hread) rfl)
  · rename_i r rest hread
    split
    · rename_i hdenied
      rw [Bool.not_eq_true', ← Bool.not_eq_true, authentic_iff] at hdenied
      exact takes_throw (.denied hread hdenied rfl)
    · rename_i hauth
      rw [Bool.not_eq_true', Bool.not_eq_false, authentic_iff] at hauth
      refine (takes_route r).mono fun cs result htakes => ?_
      obtain ⟨command, hspells, hcarries⟩ | ⟨hnone, hlooked, hstatus⟩ := htakes
      · exact .carried hread hauth hspells hcarries
      · exact .meaningless hread hauth hnone hlooked hstatus

/-- Whatever arrives on a connection, and whatever other threads do meanwhile: only a request that
shows the daemon's token is acted upon, it is carried out as the one command that it spells, on the
one torrent that its reference stands for when it is looked up, and a request that spells no command
does nothing. -/
theorem served_exact (d : Daemon F) (breaks : Bool) (stream : Bytes) :
    ((d.handle breaks stream).Takes fun cs result =>
      Served d breaks stream cs (Daemon.answer result)) ∧
    ∀ r command command', Spells r command → Spells r command' → command = command' := by
  refine ⟨takes_handle d breaks stream, fun r command command' hspells hspells' => ?_⟩
  exact Option.some.inj ((spelled_iff.2 hspells).symm.trans (spelled_iff.2 hspells'))

end Programs

end Clove.Control
