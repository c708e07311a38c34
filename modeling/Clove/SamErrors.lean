import Clove.Sam

/-!
# What errors repeat of a line

What is repeated of a line the router sent has no control character in it and no run of I2P base64
as long as a key (`Tidy`), wherever it went through `scrubControlLine`.  The word after `RESULT=`
does not: it is repeated with its control characters replaced, and no more (`safe_iff`).
-/

namespace Clove.Sam

/-! ## Characters -/

def isControl (c : Char) : Bool := c.toNat < 32 || (127 ≤ c.toNat && c.toNat < 160)

theorem isControl_scrubChar (c : Char) : isControl (scrubChar c) = false := by
  unfold scrubChar
  by_cases hacted : Text.isActedOn c.toNat = true
  · rw [if_pos hacted]
    decide
  · rw [if_neg hacted]
    rw [Bool.not_eq_true] at hacted
    simp only [Text.isActedOn, Bool.or_eq_false_iff] at hacted
    simp only [isControl, hacted, Bool.or_false]

/-- A character of base64 is one that is drawn. -/
theorem scrubChar_of_isKeyChar {c : Char} (h : isKeyChar c = true) : scrubChar c = c := by
  have hrange : 33 ≤ c.toNat ∧ c.toNat < 127 := by
    have halpha : c.isAlpha = (c.isUpper || c.isLower) := rfl
    have hupper : c.isUpper = decide (c.val ≥ 65 ∧ c.val ≤ 90) := rfl
    have hlower : c.isLower = (decide (c.val ≥ 97) && decide (c.val ≤ 122)) := rfl
    simp only [isKeyChar, Char.isAlphanum, halpha, hupper, hlower, Char.isDigit,
      Bool.or_eq_true, Bool.and_eq_true, decide_eq_true_eq, UInt32.le_iff_toNat_le] at h
    rcases h with ((((h | h) | h) | rfl) | rfl) | rfl
    · exact ⟨(show 33 ≤ 65 by decide).trans h.1, Nat.lt_of_le_of_lt h.2 (by decide)⟩
    · exact ⟨(show 33 ≤ 97 by decide).trans h.1, Nat.lt_of_le_of_lt h.2 (by decide)⟩
    · exact ⟨(show 33 ≤ 48 by decide).trans h.1, Nat.lt_of_le_of_lt h.2 (by decide)⟩
    all_goals decide
  have hdrawn : Text.isActedOn c.toNat = false := by
    simp only [Text.isActedOn, Bool.or_eq_false_iff, Bool.and_eq_false_iff, decide_eq_false_iff_not]
    omega
  rw [scrubChar, hdrawn]
  rfl

theorem isKeyChar_scrubChar (c : Char) : isKeyChar (scrubChar c) = isKeyChar c := by
  cases h : isKeyChar c with
  | true => rw [scrubChar_of_isKeyChar h, h]
  | false =>
      unfold scrubChar
      split
      · decide
      · exact h

/-! ## Tidy texts -/

/-- A text has no control character, and no run as long as a key. -/
structure Tidy (text : Str) : Prop where
  control : ∀ c ∈ text, isControl c = false
  key : looksLikeKeyMaterial text BLOB = false

namespace Tidy

variable {s t : Str}

theorem short (hcontrol : ∀ c ∈ s, isControl c = false) (hshort : s.length < BLOB) : Tidy s :=
  ⟨hcontrol, Words.hasRunFrom_of_length hshort⟩

theorem literal (h : (s.all (fun c => !isControl c) && decide (s.length < BLOB)) = true) :
    Tidy s := by
  rw [Bool.and_eq_true, List.all_eq_true] at h
  exact short (fun c hc => by simpa using h.1 c hc) (of_decide_eq_true h.2)

/-- A text that begins with another character may stand after any. -/
theorem append_cons {x : Char} (hx : isKeyChar x = false) (hs : Tidy s) (ht : Tidy (x :: t)) :
    Tidy (s ++ x :: t) := by
  have htail : Words.hasRunFrom isKeyChar BLOB 0 t = false := by
    have hkey : Words.hasRunFrom isKeyChar BLOB 0 ([] ++ x :: t) = false := ht.key
    rw [Words.hasRunFrom_append_cons hx, Bool.or_eq_false_iff] at hkey
    exact hkey.2
  refine ⟨fun c hc => (List.mem_append.1 hc).elim (hs.control c) (ht.control c), ?_⟩
  rw [looksLikeKeyMaterial, Words.hasRunFrom_append_cons hx, htail, Bool.or_false]
  exact hs.key

/-- Any text may stand after one that ends with another character. -/
theorem snoc_append {x : Char} (hx : isKeyChar x = false) (hs : Tidy (s ++ [x])) (ht : Tidy t) :
    Tidy (s ++ [x] ++ t) := by
  have hfront : Words.hasRunFrom isKeyChar BLOB 0 s = false := by
    have hkey : Words.hasRunFrom isKeyChar BLOB 0 (s ++ [x]) = false := hs.key
    rw [Words.hasRunFrom_append_cons hx, Bool.or_eq_false_iff] at hkey
    exact hkey.1
  refine ⟨fun c hc => (List.mem_append.1 hc).elim (hs.control c) (ht.control c), ?_⟩
  rw [looksLikeKeyMaterial, List.append_assoc, List.singleton_append,
    Words.hasRunFrom_append_cons hx, hfront, Bool.false_or]
  exact ht.key

end Tidy

/-! ## A scrubbed line -/

theorem tidy_map_scrubChar {s : Str} (h : looksLikeKeyMaterial s BLOB = false) :
    Tidy (s.map scrubChar) where
  control := by
    intro c hc
    obtain ⟨d, -, rfl⟩ := List.mem_map.1 hc
    exact isControl_scrubChar d
  key := (Words.hasRunFrom_map isKeyChar_scrubChar s 0).trans h

theorem tidy_scrubPlain (field : Str) : Tidy (scrubPlain field) := by
  unfold scrubPlain
  by_cases hkey : looksLikeKeyMaterial field BLOB = true
  · rw [if_pos hkey]
    exact .literal (by decide +kernel)
  · rw [if_neg hkey]
    exact tidy_map_scrubChar (by simpa using hkey)

theorem tidy_scrubField (field : Str) : Tidy (scrubField field) := by
  unfold scrubField
  split
  · rename_i key rest hsplit
    by_cases hsecret : key.map Char.toUpper ∈ SECRET_FIELDS
    · rw [if_pos hsecret]
      have hlength : key.length ≤ 11 := by
        have hall : ∀ s ∈ SECRET_FIELDS, s.length ≤ 11 := by decide
        simpa using hall _ hsecret
      have hname : Tidy (key.map scrubChar ++ ['=']) := by
        refine .short (fun c hc => ?_) ?_
        · rcases List.mem_append.1 hc with hc | hc
          · obtain ⟨d, -, rfl⟩ := List.mem_map.1 hc
            exact isControl_scrubChar d
          · rw [List.mem_singleton.1 hc]
            decide
        · have hblob : BLOB = 64 := rfl
          rw [List.length_append, List.length_map, List.length_singleton]
          omega
      have hvalue : Tidy "<redacted>".toList := .literal (by decide +kernel)
      have hparts := hname.append_cons (x := '<') (by decide) hvalue
      rwa [List.append_assoc] at hparts
    · rw [if_neg hsecret]
      exact tidy_scrubPlain field
  · exact tidy_scrubPlain field

theorem tidy_scrubControlLine (line : Str) : Tidy (scrubControlLine line) where
  control := by
    intro c hc
    rcases Words.mem_intercalate hc with rfl | ⟨piece, hpiece, hc⟩
    · decide
    · obtain ⟨field, -, rfl⟩ := List.mem_map.1 hpiece
      exact (tidy_scrubField field).control c hc
  key := by
    refine Words.hasRunFrom_intercalate (by decide) fun piece hpiece => ?_
    obtain ⟨field, -, rfl⟩ := List.mem_map.1 hpiece
    exact (tidy_scrubField field).key

/-! ## A quoted text -/

/-- A digit is no control character. -/
theorem isControl_of_mem_toDigits {b n : Nat} {c : Char} (hb : b = 10 ∨ b = 16)
    (h : c ∈ Nat.toDigits b n) : isControl c = false := by
  have hdigit : ∀ d < 16, isControl (Nat.digitChar d) = false := by decide
  have hone : 1 < b ∧ b ≤ 16 := by omega
  induction n using Nat.strong_induction_on with
  | _ n ih =>
      by_cases hlt : n < b
      · rw [Nat.toDigits_of_lt_base hlt, List.mem_singleton] at h
        exact h ▸ hdigit n (by omega)
      · rw [Nat.toDigits_of_base_le hone.1 (Nat.not_lt.1 hlt), List.mem_append,
          List.mem_singleton] at h
        rcases h with h | rfl
        · exact ih (n / b) (Nat.div_lt_self (by omega) hone.1) h
        · exact hdigit _ (Nat.lt_of_lt_of_le (Nat.mod_lt _ (by omega)) hone.2)

/-- How a character that is no control character is quoted. -/
theorem escapeDebug_cases (shown : Char → Bool) {c : Char} (h : isControl c = false) :
    escapeDebug shown c = [c] ∨ isKeyChar c = false ∧ escapeDebug shown c = ['\\', c] ∨
      escapeDebug shown c =
        '\\' :: 'u' :: '\x7b' :: (Nat.toDigits 16 c.toNat ++ ['\x7d']) := by
  have hcontrol : c ≠ '\x00' ∧ c ≠ '\t' ∧ c ≠ '\r' ∧ c ≠ '\n' := by
    refine ⟨?_, ?_, ?_, ?_⟩ <;> rintro rfl <;> exact absurd h (by decide)
  unfold escapeDebug
  rw [if_neg hcontrol.1, if_neg hcontrol.2.1, if_neg hcontrol.2.2.1, if_neg hcontrol.2.2.2]
  by_cases hquote : c = '"'
  · subst hquote
    rw [if_pos rfl]
    exact .inr (.inl ⟨by decide, rfl⟩)
  · rw [if_neg hquote]
    by_cases hslash : c = '\\'
    · subst hslash
      rw [if_pos rfl]
      exact .inr (.inl ⟨by decide, rfl⟩)
    · rw [if_neg hslash]
      by_cases hshown : shown c = true
      · rw [if_pos hshown]
        exact .inl rfl
      · rw [if_neg hshown]
        exact .inr (.inr rfl)

/-- Quoting makes no runs. -/
theorem hasRunFrom_flatMap_escapeDebug (shown : Char → Bool) {s : Str}
    (hs : ∀ c ∈ s, isControl c = false) {run : Nat} (hrun : run < BLOB)
    (h : Words.hasRunFrom isKeyChar BLOB run (s.flatMap (escapeDebug shown)) = true) :
    Words.hasRunFrom isKeyChar BLOB run s = true := by
  induction s generalizing run with
  | nil => exact h
  | cons c cs ih =>
      have hrest : ∀ d ∈ cs, isControl d = false := fun d hd => hs d (List.mem_cons_of_mem c hd)
      rw [List.flatMap_cons] at h
      rcases escapeDebug_cases shown (hs c List.mem_cons_self) with hesc | ⟨hkey, hesc⟩ | hesc
      · rw [hesc, List.singleton_append, Words.hasRunFrom_cons] at h
        rw [Words.hasRunFrom_cons]
        by_cases hkey : isKeyChar c = true
        · rw [if_pos hkey] at h ⊢
          by_cases hlong : BLOB ≤ run + 1
          · rw [if_pos hlong]
          · rw [if_neg hlong] at h ⊢
            exact ih hrest (Nat.not_le.1 hlong) h
        · rw [if_neg hkey] at h ⊢
          exact ih hrest (by decide) h
      · -- the backslash and the character both end the run
        rw [hesc, List.cons_append, List.singleton_append,
          Words.hasRunFrom_cons_of_not (by decide), Words.hasRunFrom_cons_of_not hkey] at h
        exact Words.hasRunFrom_cons_of_tail c (ih hrest (by decide) h)
      · -- the digits are too few, and the brace ends them
        have hsmall : c.toNat < 16 ^ 6 := by
          rcases c.valid with hlow | hhigh
          · exact Nat.lt_trans hlow (by decide)
          · exact Nat.lt_trans hhigh.2 (by decide)
        have hfew : (Nat.toDigits 16 c.toNat).length ≤ 6 :=
          (Nat.length_toDigits_le_iff (by decide) (by decide)).2 hsmall
        have hdigits : Words.hasRunFrom isKeyChar BLOB 0 (Nat.toDigits 16 c.toNat) = false :=
          Words.hasRunFrom_of_length (Nat.lt_of_le_of_lt hfew (by decide))
        rw [hesc, List.cons_append, Words.hasRunFrom_cons_of_not (by decide), List.cons_append,
          Words.hasRunFrom_cons, if_pos (by decide), if_neg (by decide), List.cons_append,
          Words.hasRunFrom_cons_of_not (by decide), List.append_assoc, List.singleton_append,
          Words.hasRunFrom_append_cons (by decide), hdigits, Bool.false_or] at h
        exact Words.hasRunFrom_cons_of_tail c (ih hrest (by decide) h)

/-- What is quoted is tidy if it was. -/
theorem Tidy.debug {s : Str} (h : Tidy s) (shown : Char → Bool) : Tidy (debug shown s) where
  control := by
    intro c hc
    rw [Sam.debug, List.mem_append, List.mem_cons, List.mem_singleton, List.mem_flatMap] at hc
    rcases hc with (rfl | ⟨d, hd, hc⟩) | rfl
    · decide
    · rcases escapeDebug_cases shown (h.control d hd) with hesc | ⟨-, hesc⟩ | hesc
      · rw [hesc, List.mem_singleton] at hc
        exact hc ▸ h.control d hd
      · rw [hesc, List.mem_cons, List.mem_singleton] at hc
        rcases hc with rfl | rfl
        · decide
        · exact h.control c hd
      · rw [hesc] at hc
        simp only [List.mem_cons, List.mem_append, List.not_mem_nil, or_false] at hc
        rcases hc with rfl | rfl | rfl | hc | rfl
        · decide
        · decide
        · decide
        · exact isControl_of_mem_toDigits (.inr rfl) hc
        · decide
    · decide
  key := by
    rw [looksLikeKeyMaterial, Sam.debug, List.cons_append,
      Words.hasRunFrom_cons_of_not (by decide), Words.hasRunFrom_append_cons (by decide),
      Words.hasRunFrom, Bool.or_false]
    by_contra hrun
    rw [Bool.not_eq_false] at hrun
    have hbefore := hasRunFrom_flatMap_escapeDebug shown h.control (by decide) hrun
    exact Bool.eq_false_iff.1 h.key hbefore

/-! ## Errors -/

theorem tidy_message (line : Str) : message line = [] ∨
    ∃ m, message line = ' ' :: m ∧ Tidy (' ' :: m) := by
  unfold message
  split
  · rename_i before m hsplit
    refine .inr ⟨_, rfl, ?_⟩
    have hopen : Tidy (" (".toList ++ scrubControlLine (trimMatches '"' m)) :=
      Tidy.snoc_append (s := [' ']) (x := '(') (by decide) (.literal (by decide +kernel))
        (tidy_scrubControlLine _)
    have hclose := hopen.append_cons (x := ')') (t := []) (by decide)
      (.literal (by decide +kernel))
    exact hclose
  · exact .inl rfl

/-- An address is short, and made of letters and digits. -/
theorem tidy_what (want : Wanted) : Tidy want.what := by
  cases want with
  | forward => exact .literal (by decide +kernel)
  | peer dest =>
      have hshort : (Addr.base32Encode dest.bytes).length ≤ 52 := by
        obtain ⟨groups, pad, htext, hspells, hpad⟩ := Addr.spells_base32Encode dest.bytes
        have hlength := hspells.length
        rw [List.length_map, dest.length_bytes] at hlength
        rw [htext, List.length_map]
        omega
      have hname : Tidy ((Addr.base32Encode dest.bytes).map fun b => Char.ofNat b.toNat) := by
        refine .short (fun c hc => ?_) ?_
        · obtain ⟨b, hb, rfl⟩ := List.mem_map.1 hc
          have hall : (Addr.B32_ALPHABET.all fun b => !isControl (Char.ofNat b.toNat)) = true := by
            decide
          simpa using List.all_eq_true.1 hall b (Addr.mem_alphabet_of_base32Encode hb)
        · rw [List.length_map]
          exact Nat.lt_of_le_of_lt hshort (by decide)
      have haddress : Tidy ((Addr.toB32 dest).map fun b => Char.ofNat b.toNat) := by
        rw [Addr.toB32, List.map_append,
          show Addr.B32_SUFFIX.map (fun b => Char.ofNat b.toNat) = ".b32.i2p".toList by decide]
        exact hname.append_cons (x := '.') (by decide) (.literal (by decide +kernel))
      exact Tidy.snoc_append (s := "the stream to".toList) (x := ' ') (by decide)
        (.literal (by decide +kernel)) haddress

/-- A refusal repeats the word after the result's name as it is told. -/
theorem tidy_refusal {before word after : Str} (hbefore : Tidy (before ++ [' ']))
    (hword : looksLikeKeyMaterial word BLOB = false)
    (hafter : after = [] ∨ ∃ m, after = ' ' :: m ∧ Tidy (' ' :: m)) :
    Tidy (before ++ [' '] ++ word.map scrubChar ++ after) := by
  have hfront := Tidy.snoc_append (by decide) hbefore (tidy_map_scrubChar hword)
  rcases hafter with rfl | ⟨m, rfl, hm⟩
  · rwa [List.append_nil]
  · exact hfront.append_cons (by decide) hm

/-- What is found stands in the line. -/
theorem infix_of_find {key line v : Str} (h : find key line = some v) : v <:+: line := by
  obtain ⟨w, hw, hv⟩ := List.exists_of_findSome?_eq_some h
  rw [List.isPrefixOf?_eq_some_iff_append_eq] at hv
  rw [← hv] at hw
  exact (List.suffix_append key v).isInfix.trans (Words.infix_of_mem_words hw)

/-- A text that repeats a line without its control characters and keys. -/
structure Safe (line text : Str) : Prop where
  control : ∀ c ∈ text, isControl c = false
  key : ∀ run, run <:+: text → run <:+: line → (∀ c ∈ run, isKeyChar c = true) →
    run.length < BLOB

theorem Tidy.safe {text : Str} (h : Tidy text) (line : Str) : Safe line text where
  control := h.control
  key := by
    rintro run hrun - hall
    by_contra hlong
    have hfound := (Words.hasRun_iff (by decide) text).2 ⟨run, hrun, hall, Nat.not_lt.1 hlong⟩
    exact Bool.eq_false_iff.1 h.key hfound

/-- A refusal is safe exactly if the word it repeats has no key. -/
theorem safe_refusal_iff {line before after : Str} (hbefore : Tidy (before ++ [' ']))
    (hafter : after = [] ∨ ∃ m, after = ' ' :: m ∧ Tidy (' ' :: m)) :
    Safe line (before ++ [' '] ++ (result line).map scrubChar ++ after) ↔
      looksLikeKeyMaterial (result line) BLOB = false := by
  refine ⟨fun h => ?_, fun h => (tidy_refusal hbefore h hafter).safe line⟩
  by_contra hkey
  rw [Bool.not_eq_false] at hkey
  obtain ⟨run, hrun, hall, hlong⟩ := (Words.hasRun_iff (by decide) _).1 hkey
  -- the run is repeated as it is
  have hsame : run.map scrubChar = run :=
    (List.map_congr_left fun c hc => scrubChar_of_isKeyChar (hall c hc)).trans (List.map_id' run)
  have htext : run <:+: before ++ [' '] ++ (result line).map scrubChar ++ after :=
    (hsame ▸ hrun.map scrubChar).trans ⟨before ++ [' '], after, rfl⟩
  have hline : run <:+: line := by
    unfold result at hrun hkey
    cases hfind : find RESULT line with
    | none =>
        rw [hfind] at hkey
        exact absurd hkey (by decide)
    | some v =>
        rw [hfind] at hrun
        exact hrun.trans (infix_of_find hfind)
  exact Nat.not_lt.2 hlong (h.key run htext hline hall)

theorem tidy_samHello {port : UInt16} {line : Str} {e : IoError}
    (h : samHello port line = .error e) : Tidy e.text := by
  unfold samHello at h
  split at h
  · obtain rfl := Except.error.inj h
    have hfew : (Nat.toDigits 10 port.toNat).length ≤ 5 :=
      (Nat.length_toDigits_le_iff (by decide) (by decide)).2
        (Nat.lt_of_lt_of_le port.toNat_lt (by decide))
    have hport : Tidy (Nat.toDigits 10 port.toNat) := by
      refine .short (fun c hc => ?_) (Nat.lt_of_le_of_lt hfew (by decide))
      exact isControl_of_mem_toDigits (.inl rfl) hc
    have haddress := Tidy.snoc_append (s := "SAM bridge on 127.0.0.1".toList) (x := ':') (by decide)
      (.literal (by decide +kernel)) hport
    have hrefused := haddress.append_cons (x := ' ') (t := "refused HELLO: ".toList) (by decide)
      (.literal (by decide +kernel))
    -- the last space stands apart
    have hspace : "SAM bridge on 127.0.0.1".toList ++ [':'] ++ Nat.toDigits 10 port.toNat ++
        ' ' :: "refused HELLO: ".toList = ("SAM bridge on 127.0.0.1:".toList ++
          Nat.toDigits 10 port.toNat ++ " refused HELLO:".toList) ++ [' '] := by simp
    rw [hspace] at hrefused
    have hline := Tidy.snoc_append (by decide) hrefused (tidy_scrubControlLine line)
    simpa using hline
  · cases h

/-- What stands before the word a refusal repeats. -/
theorem tidy_refused (want : Wanted) :
    Tidy ("router refused ".toList ++ want.what ++ [':'] ++ [' ']) := by
  have hwhat := Tidy.snoc_append (s := "router refused".toList) (x := ' ') (by decide)
    (.literal (by decide +kernel)) (tidy_what want)
  have hcolon := hwhat.append_cons (x := ':') (t := [' ']) (by decide)
    (.literal (by decide +kernel))
  simpa using hcolon

/-- A dial that is refused. -/
theorem safe_expectStreamOk_iff (shown : Char → Bool) (line : Str) (want : Wanted) :
    (∀ e, expectStreamOk shown line want.what = .error e → Safe line e.error.text) ↔
      ("STREAM STATUS".toList <+: line → looksLikeKeyMaterial (result line) BLOB = false) := by
  have htext : "router refused ".toList ++ want.what ++ ": ".toList ++
      (result line).map scrubChar ++ message line =
        "router refused ".toList ++ want.what ++ [':'] ++ [' '] ++
          (result line).map scrubChar ++ message line := by simp
  have hrefusal := @safe_refusal_iff line _ _ (tidy_refused want) (tidy_message line)
  rw [← htext] at hrefusal
  unfold expectStreamOk
  by_cases hhead : "STREAM STATUS".toList <+: line
  · rw [if_neg (not_not.2 hhead)]
    by_cases hresult : result line = OK
    · rw [if_neg (not_not.2 hresult), hresult]
      exact ⟨fun _ _ => by decide, fun _ e h => by cases h⟩
    · rw [if_pos hresult]
      refine ⟨fun h _ => hrefusal.1 ?_, fun h e he => ?_⟩
      · by_cases hid : result line = INVALID_ID
        · exact h _ (congrArg Except.error (if_pos hid))
        · exact h _ (congrArg Except.error (if_neg hid))
      · have hsafe := hrefusal.2 (h hhead)
        obtain rfl := Except.error.inj he
        split
        · exact hsafe
        · exact hsafe
  · rw [if_pos hhead]
    refine ⟨fun _ h => absurd h hhead, fun _ e he => ?_⟩
    obtain rfl := Except.error.inj he
    have hquoted := Tidy.snoc_append (s := "SAM bridge answered with".toList) (x := ' ') (by decide)
      (.literal (by decide +kernel)) ((tidy_scrubControlLine line).debug shown)
    have hwhole := hquoted.append_cons (x := ' ') (t := "where a STREAM STATUS belongs".toList)
      (by decide) (.literal (by decide +kernel))
    exact hwhole.safe line

/-- A session that is refused. -/
theorem safe_parseSessionStatus_iff (shown : Char → Bool) (line : Str) :
    (∀ e, parseSessionStatus shown line = .error e → Safe line e.text) ↔
      ("SESSION STATUS".toList <+: line → looksLikeKeyMaterial (result line) BLOB = false) := by
  have hfront : Tidy ("router refused the session:".toList ++ [' ']) :=
    .literal (by decide +kernel)
  have hrefusal := @safe_refusal_iff line _ _ hfront (tidy_message line)
  unfold parseSessionStatus
  by_cases hhead : "SESSION STATUS".toList <+: line
  · rw [if_neg (not_not.2 hhead)]
    by_cases hresult : result line = OK
    · rw [if_neg (not_not.2 hresult), hresult]
      refine ⟨fun _ _ => by decide, fun _ e h => ?_⟩
      split at h
      · cases h
      · obtain rfl := Except.error.inj h
        exact (Tidy.literal (by decide +kernel)).safe line
    · rw [if_pos hresult]
      refine ⟨fun h _ => hrefusal.1 (h _ rfl), fun h e he => ?_⟩
      obtain rfl := Except.error.inj he
      exact hrefusal.2 (h hhead)
  · rw [if_pos hhead]
    refine ⟨fun _ h => absurd h hhead, fun _ e he => ?_⟩
    obtain rfl := Except.error.inj he
    exact (Tidy.snoc_append (s := "SAM bridge answered SESSION CREATE with".toList) (x := ' ')
      (by decide) (.literal (by decide +kernel)) ((tidy_scrubControlLine line).debug shown)).safe
      line

/-! ## Fields that are secret -/

/-- A field between spaces, or at an end of the line. -/
structure Delimited (before after : Str) : Prop where
  before : before = [] ∨ ∃ b, before = b ++ [' ']
  after : after = [] ∨ ∃ a, after = ' ' :: a

/-- Such a field is cut out of the line as it is. -/
theorem Delimited.splitOn {before after : Str} (h : Delimited before after) :
    ∃ fields fields', ∀ field, ' ' ∉ field →
      (before ++ field ++ after).splitOn ' ' = fields ++ field :: fields' := by
  obtain ⟨fields', hafter⟩ : ∃ fields', ∀ field, ' ' ∉ field →
      (field ++ after).splitOn ' ' = field :: fields' := by
    rcases h.after with rfl | ⟨a, rfl⟩
    · refine ⟨[], fun field hfield => ?_⟩
      rw [List.append_nil, List.splitOn_eq_singleton hfield]
    · refine ⟨a.splitOn ' ', fun field hfield => ?_⟩
      rw [List.splitOn_append_cons_self, List.splitOn_eq_singleton hfield]
      rfl
  rcases h.before with rfl | ⟨b, rfl⟩
  · exact ⟨[], fields', fun field hfield => hafter field hfield⟩
  · refine ⟨b.splitOn ' ', fields', fun field hfield => ?_⟩
    rw [List.append_assoc, List.append_assoc, List.singleton_append,
      List.splitOn_append_cons_self, hafter field hfield]

theorem splitOnce_equals {key : Str} (hkey : '=' ∉ key) (v : Str) :
    splitOnce ['='] (key ++ '=' :: v) = some (key, v) := by
  induction key with
  | nil => simp [splitOnce, List.isPrefixOf?]
  | cons c key ih =>
      rw [List.mem_cons, not_or] at hkey
      have hnone : ['='].isPrefixOf? (c :: (key ++ '=' :: v)) = none := by
        rw [List.isPrefixOf?, if_neg (by simpa using hkey.1)]
      rw [List.cons_append, splitOnce, hnone, ih hkey.2]
      rfl

/-- What is left of a secret field does not tell its value. -/
theorem scrubField_secret {key : Str} (hkey : key.map Char.toUpper ∈ SECRET_FIELDS) (v : Str) :
    scrubField (key ++ '=' :: v) = key.map scrubChar ++ "=<redacted>".toList := by
  have hplain : '=' ∉ key := by
    intro hmem
    have hall : ∀ s ∈ SECRET_FIELDS, '=' ∉ s := by decide
    exact hall _ hkey (List.mem_map.2 ⟨'=', hmem, by decide⟩)
  rw [scrubField, splitOnce_equals hplain]
  exact if_pos hkey

/-- Lines that differ in the value of such a field only. -/
theorem scrubControlLine_secret {before after key v v' : Str} (h : Delimited before after)
    (hkey : key.map Char.toUpper ∈ SECRET_FIELDS) (hv : ' ' ∉ v) (hv' : ' ' ∉ v') :
    scrubControlLine (before ++ (key ++ '=' :: v) ++ after) =
      scrubControlLine (before ++ (key ++ '=' :: v') ++ after) := by
  obtain ⟨fields, fields', hsplit⟩ := h.splitOn
  have hplain : ' ' ∉ key := by
    intro hmem
    have hall : ∀ s ∈ SECRET_FIELDS, ' ' ∉ s := by decide
    exact hall _ hkey (List.mem_map.2 ⟨' ', hmem, by decide⟩)
  have hfield : ∀ u, ' ' ∉ u → ' ' ∉ key ++ '=' :: u := fun u hu => by simp [hplain, hu]
  rw [scrubControlLine, scrubControlLine, hsplit _ (hfield v hv), hsplit _ (hfield v' hv'),
    List.map_append, List.map_append, List.map_cons, List.map_cons, scrubField_secret hkey,
    scrubField_secret hkey]

/-- What a session keeps, and what it ended with, is tidy. -/
structure Life.Tidy (s : Life) : Prop where
  lastLine : ∀ line ∈ s.lastLine, Sam.Tidy line
  ended : ∀ why ∈ s.ended, Sam.Tidy why

theorem Life.Tidy.note {s : Life} (h : s.Tidy) (line : Str) : (s.note line).Tidy where
  lastLine := fun _ htext => Option.some.inj htext ▸ tidy_scrubControlLine line
  ended := h.ended

/-- The reason it ended has the last line in it, in quotes. -/
theorem Life.Tidy.endWith {s : Life} (h : s.Tidy) (shown : Char → Bool) {why : Str}
    (hwhy : Sam.Tidy why) : (s.endWith shown why).Tidy := by
  unfold Life.endWith
  split
  · exact h
  · refine ⟨h.lastLine, fun text htext => ?_⟩
    cases hlast : s.lastLine with
    | none =>
        rw [hlast] at htext
        exact Option.some.inj htext ▸ hwhy
    | some line =>
        rw [hlast] at htext
        obtain rfl := Option.some.inj htext
        have hwords := hwhy.append_cons (x := ';')
          (t := " the router's last words were ".toList) (by decide)
          (.literal (by decide +kernel))
        have hspace : why ++ ';' :: " the router's last words were ".toList =
            (why ++ "; the router's last words were".toList) ++ [' '] := by simp
        rw [hspace] at hwords
        have hquoted := Tidy.snoc_append (by decide) hwords
          ((h.lastLine line hlast).debug shown)
        simpa using hquoted

/-! ## What is repeated -/

/-- What stands behind the result's name in the first word that begins with it. -/
def FirstResult (line w : Str) : Prop :=
  ∃ front back, splitWhitespace line = front ++ (RESULT ++ w) :: back ∧
    ∀ u ∈ front, ¬ RESULT <+: u

theorem firstResult_iff {line w : Str} : FirstResult line w ↔ find RESULT line = some w := by
  have hnone : ∀ u : Str, RESULT.isPrefixOf? u = none ↔ ¬ RESULT <+: u := by
    intro u
    rw [Option.eq_none_iff_forall_ne_some]
    simp only [ne_eq, List.isPrefixOf?_eq_some_iff_append_eq]
    exact ⟨fun h ⟨t, ht⟩ => h t ht, fun h t ht => h ⟨t, ht⟩⟩
  rw [find, List.findSome?_eq_some_iff, FirstResult]
  constructor
  · rintro ⟨front, back, hsplit, hfront⟩
    refine ⟨front, RESULT ++ w, back, hsplit, List.isPrefixOf?_eq_some_iff_append_eq.2 rfl, ?_⟩
    exact fun u hu => (hnone u).2 (hfront u hu)
  · rintro ⟨front, word, back, hsplit, hw, hfront⟩
    rw [← List.isPrefixOf?_eq_some_iff_append_eq.1 hw] at hsplit
    exact ⟨front, back, hsplit, fun u hu => (hnone u).1 (hfront u hu)⟩

theorem key_result_iff (line : Str) :
    looksLikeKeyMaterial (result line) BLOB = false ↔
      ∀ w, FirstResult line w → looksLikeKeyMaterial w BLOB = false := by
  simp only [firstResult_iff, result]
  cases find RESULT line with
  | none =>
      refine ⟨fun _ w h => ?_, fun _ => by decide⟩
      cases h
  | some v => exact ⟨fun h w hw => Option.some.inj hw ▸ h, fun h => h v rfl⟩

/-- What is said of a line and what is kept of it is safe, except that a refused stream or session
repeats the word after the result's name: those are safe exactly if that word has no key.  And a
scrubbed line does not tell the value of a secret field. -/
theorem safe_iff (shown : Char → Bool) (port : UInt16) (want : Wanted) (line : Str) :
    (∀ e, samHello port line = .error e → Safe line e.text) ∧
    (∀ s : Life, ∀ text ∈ (s.note line).lastLine, Safe line text) ∧
    ((∀ e, expectStreamOk shown line want.what = .error e → Safe line e.error.text) ↔
      ("STREAM STATUS".toList <+: line →
        ∀ w, FirstResult line w → looksLikeKeyMaterial w BLOB = false)) ∧
    ((∀ e, parseSessionStatus shown line = .error e → Safe line e.text) ↔
      ("SESSION STATUS".toList <+: line →
        ∀ w, FirstResult line w → looksLikeKeyMaterial w BLOB = false)) ∧
    ∀ before after key v v' : Str, Delimited before after → key.map Char.toUpper ∈ SECRET_FIELDS →
      ' ' ∉ v → ' ' ∉ v' →
      scrubControlLine (before ++ (key ++ '=' :: v) ++ after) =
        scrubControlLine (before ++ (key ++ '=' :: v') ++ after) := by
  rw [← key_result_iff]
  refine ⟨fun e he => (tidy_samHello he).safe line, fun s text htext => ?_,
    safe_expectStreamOk_iff shown line want, safe_parseSessionStatus_iff shown line, ?_⟩
  · exact (Option.some.inj htext ▸ tidy_scrubControlLine line : Tidy text).safe line
  · intro before after key v v' h hkey hv hv'
    exact scrubControlLine_secret h hkey hv hv'

/-- A key behind the result's name is repeated. -/
theorem key_repeated :
    ∃ e, expectStreamOk (fun _ => true) ("STREAM STATUS RESULT=".toList ++ List.replicate 64 'A')
        Wanted.forward.what = .error e ∧
      ¬ Safe ("STREAM STATUS RESULT=".toList ++ List.replicate 64 'A') e.error.text := by
  refine ⟨.peer ⟨.connectionRefused,
    "router refused STREAM FORWARD: ".toList ++ List.replicate 64 'A'⟩, by decide +kernel, ?_⟩
  intro h
  have hshort := h.key (List.replicate 64 'A') (List.suffix_append _ _).isInfix
    (List.suffix_append _ _).isInfix fun c hc => (List.eq_of_mem_replicate hc).symm ▸ by decide
  rw [List.length_replicate] at hshort
  exact absurd hshort (by decide)

end Clove.Sam
