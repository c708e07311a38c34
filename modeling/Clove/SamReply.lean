import Clove.Sam

/-!
# The fields of a reply

A reply is a head and fields after it, with spaces between them; a value stands bare or in quotes,
and in quotes it may have any words in it.  The readers take the first word of the line that begins
with a field's name for the field.  So what a reply says is believed for its own fields exactly if
no value hides such a word before they come (`believed_iff`).
-/

namespace Clove.Sam

/-! ## Replies -/

/-- Whether a text has no quote in it that no backslash takes back. -/
def closed : Str → Bool
  | [] => true
  | [c] => c ≠ '"' && c ≠ '\\'
  | c :: d :: s => if c = '\\' then closed s else c ≠ '"' && closed (d :: s)

/-- A value as it stands on a line. -/
inductive Value where
  | bare (text : Str) (plain : ' ' ∉ text ∧ text.head? ≠ some '"')
  | quoted (text : Str) (closed : closed text = true)
deriving DecidableEq

namespace Value

/-- With its quotes. -/
def text : Value → Str
  | .bare text _ => text
  | .quoted text _ => '"' :: text ++ ['"']

/-- Without them. -/
def content : Value → Str
  | .bare text _ => text
  | .quoted text _ => text

end Value

/-- A field, and how many spaces more than one stand before it. -/
structure Field where
  key : Str
  value : Value
  gap : Nat
  key_plain : ∀ c ∈ key, isWhitespace c = false ∧ c ≠ '='

namespace Field

def text (f : Field) : Str := f.key ++ '=' :: f.value.text

def spaced (f : Field) : Str := List.replicate (f.gap + 1) ' ' ++ f.text

/-- The words of a field that is not one word. -/
def parts (f : Field) : List Str :=
  if f.text.any isWhitespace then splitWhitespace f.text else []

end Field

structure Reply where
  head : Str
  fields : List Field
  head_plain : '=' ∉ head

/-- The first word of a name that a value hides, as long as the field of that name has not come. -/
def hidden (key : Str) : List Field → Option Str
  | [] => none
  | f :: fs =>
      (f.parts.findSome? (key ++ ['=']).isPrefixOf?).or
        (if f.key = key then none else hidden key fs)

namespace Reply

def line (r : Reply) : Str := r.head ++ r.fields.flatMap Field.spaced

/-- The value of the reply's own field. -/
def own (r : Reply) (key : Str) : Option Value := (r.fields.find? (·.key = key)).map Field.value

def hidden (r : Reply) (key : Str) : Option Str := Sam.hidden key r.fields

/-- What is taken for a field: a word that is hidden before it, or the field. -/
def believed (r : Reply) (key : Str) : Option Str := (r.hidden key).or ((r.own key).map Value.text)

def resultKey : Str := "RESULT".toList

/-- The reply's own result is good. -/
def Good (r : Reply) : Prop := (r.own resultKey).map Value.content = some OK

/-- A value is that of a field of the reply. -/
def Has (r : Reply) (key value : Str) : Prop :=
  ∃ f ∈ r.fields, f.key = key ∧ f.value.text = value

/-- A value hides a good result, and the reply's own is not. -/
def Forged (r : Reply) : Prop := r.hidden resultKey = some OK ∧ ¬ r.Good

/-- A value that is used is there, and the result is forged or the value hidden. -/
def Misread (r : Reply) (key : Str) (usable : Str → Prop) : Prop :=
  (r.Forged ∧ ∃ v, r.believed key = some v ∧ usable v) ∨
    (r.believed resultKey = some OK ∧ ∃ v, r.hidden key = some v ∧ usable v ∧ ¬ r.Has key v)

end Reply

/-! ## What is found -/

theorem isWhitespace_space : isWhitespace ' ' = true := by decide

theorem isWhitespace_equals : isWhitespace '=' = false := by decide

/-- A word that has the form of a field, sought by name. -/
theorem isPrefixOf?_field {key key' : Str} (hkey : '=' ∉ key) (hkey' : '=' ∉ key') (v : Str) :
    (key ++ ['=']).isPrefixOf? (key' ++ '=' :: v) = if key' = key then some v else none := by
  -- what stands before the first equals sign is the name
  have hsplit : ∀ u, key ++ '=' :: u = key' ++ '=' :: v → key = key' ∧ u = v := by
    intro u heq
    rcases List.append_eq_append_iff.1 heq with ⟨m, hm, hrest⟩ | ⟨m, hm, hrest⟩
    · cases m with
      | nil => exact ⟨by simpa using hm.symm, by simpa using hrest⟩
      | cons c m =>
          obtain ⟨rfl, -⟩ := List.cons.inj hrest
          exact absurd (by rw [hm]; simp) hkey'
    · cases m with
      | nil => exact ⟨by simpa using hm, by simpa using hrest.symm⟩
      | cons c m =>
          obtain ⟨rfl, -⟩ := List.cons.inj hrest
          exact absurd (by rw [hm]; simp) hkey
  by_cases h : key' = key
  · subst h
    rw [if_pos rfl, List.isPrefixOf?_eq_some_iff_append_eq, List.append_assoc]
    rfl
  · rw [if_neg h]
    by_contra hsome
    obtain ⟨u, hu⟩ := Option.ne_none_iff_exists'.1 hsome
    rw [List.isPrefixOf?_eq_some_iff_append_eq, List.append_assoc] at hu
    exact h (hsplit u hu).1.symm

theorem isPrefixOf?_plain {key w : Str} (hw : '=' ∉ w) :
    (key ++ ['=']).isPrefixOf? w = none := by
  by_contra hsome
  obtain ⟨v, hv⟩ := Option.ne_none_iff_exists'.1 hsome
  rw [List.isPrefixOf?_eq_some_iff_append_eq] at hv
  exact hw (by simp [← hv])

theorem splitWhitespace_line (h : Str) (fs : List Field) :
    splitWhitespace (h ++ fs.flatMap Field.spaced) =
      splitWhitespace h ++ fs.flatMap fun f => splitWhitespace f.text := by
  induction fs generalizing h with
  | nil => simp
  | cons f fs ih =>
      have hspaced : h ++ (f :: fs).flatMap Field.spaced =
          h ++ ' ' :: (List.replicate f.gap ' ' ++ (f.text ++ fs.flatMap Field.spaced)) := by
        rw [List.flatMap_cons, Field.spaced, List.replicate_succ, List.cons_append,
          List.cons_append, List.append_assoc]
      rw [hspaced, splitWhitespace, Words.words_append_cons _ _ isWhitespace_space,
        Words.words_replicate _ _ isWhitespace_space]
      exact congrArg _ (ih f.text)

variable {key : Str}

theorem Field.not_mem_key (f : Field) : '=' ∉ f.key := fun hmem => (f.key_plain '=' hmem).2 rfl

/-- What is found in the words of one field. -/
theorem findSome?_field (hkey : '=' ∉ key) (f : Field) :
    (splitWhitespace f.text).findSome? (key ++ ['=']).isPrefixOf? =
      (f.parts.findSome? (key ++ ['=']).isPrefixOf?).or
        (if f.key = key then some f.value.text else none) := by
  unfold Field.parts
  by_cases hblank : f.text.any isWhitespace = true
  · -- the field is cut, and the first part has its name
    have hname : ∀ c ∈ f.key ++ ['='], isWhitespace c = false := by
      intro c hc
      rcases List.mem_append.1 hc with hc | hc
      · exact (f.key_plain c hc).1
      · rw [List.mem_singleton.1 hc]
        exact isWhitespace_equals
    obtain ⟨w, ws, hwords⟩ := Words.words_append hname (by simp) f.value.text
    have hfirst : splitWhitespace f.text = (f.key ++ '=' :: w) :: ws := by
      have htext : f.text = f.key ++ ['='] ++ f.value.text := by simp [Field.text]
      rw [splitWhitespace, htext, hwords]
      simp
    rw [if_pos hblank, hfirst, List.findSome?_cons, isPrefixOf?_field hkey f.not_mem_key]
    by_cases hown : f.key = key
    · simp only [if_pos hown, Option.some_or]
    · simp only [if_neg hown, Option.or_none]
  · have hplain : ∀ c ∈ f.text, isWhitespace c = false := by
      simpa using hblank
    rw [if_neg hblank, splitWhitespace, Words.words_of_forall hplain (by simp [Field.text]),
      List.findSome?_singleton, List.findSome?_nil, Option.none_or, Field.text,
      isPrefixOf?_field hkey f.not_mem_key]

theorem findSome?_fields (hkey : '=' ∉ key) (fs : List Field) :
    (fs.flatMap fun f => splitWhitespace f.text).findSome? (key ++ ['=']).isPrefixOf? =
      (hidden key fs).or (((fs.find? (·.key = key)).map Field.value).map Value.text) := by
  induction fs with
  | nil => rfl
  | cons f fs ih =>
      rw [List.flatMap_cons, List.findSome?_append, findSome?_field hkey, ih, hidden,
        Option.or_assoc, Option.or_assoc]
      refine congrArg _ ?_
      by_cases hown : f.key = key
      · rw [if_pos hown, if_pos hown, List.find?_cons_of_pos (by simpa using hown)]
        rfl
      · rw [if_neg hown, if_neg hown, List.find?_cons_of_neg (by simpa using hown), Option.none_or]

/-- What the readers find. -/
theorem find_line (hkey : '=' ∉ key) (r : Reply) :
    find (key ++ ['=']) r.line = r.believed key := by
  have hhead : (splitWhitespace r.head).findSome? (key ++ ['=']).isPrefixOf? = none := by
    rw [List.findSome?_eq_none_iff]
    intro w hw
    exact isPrefixOf?_plain fun hmem => r.head_plain ((Words.infix_of_mem_words hw).subset hmem)
  rw [find, Reply.line, splitWhitespace_line, List.findSome?_append, hhead, Option.none_or,
    findSome?_fields hkey]
  rfl

/-! ## What is believed -/

theorem result_line (r : Reply) : result r.line = OK ↔ r.believed Reply.resultKey = some OK := by
  rw [result, show RESULT = Reply.resultKey ++ ['='] by decide, find_line (by decide)]
  cases r.believed Reply.resultKey with
  | none => decide
  | some v => simp

variable {r : Reply}

/-- A reply that hides no result is good if a good one is found. -/
theorem Reply.good_of_own (h : (r.own Reply.resultKey).map Value.text = some OK) : r.Good := by
  obtain ⟨v, hv, htext⟩ := Option.map_eq_some_iff.1 h
  rw [Reply.Good, hv]
  cases v with
  | bare text plain => exact congrArg some htext
  | quoted text closed =>
      -- a quote is no letter
      exact absurd (congrArg List.head? htext) (by simp [Value.text, OK])

theorem Reply.forged_iff : r.Forged ↔ r.believed Reply.resultKey = some OK ∧ ¬ r.Good := by
  unfold Reply.Forged Reply.believed
  cases r.hidden Reply.resultKey with
  | none =>
      rw [Option.none_or]
      exact ⟨fun h => absurd h.1 (by simp), fun h => absurd (Reply.good_of_own h.1) h.2⟩
  | some v => rw [Option.some_or]

theorem Reply.has_of_own {v : Str} (h : (r.own key).map Value.text = some v) : r.Has key v := by
  obtain ⟨value, hvalue, htext⟩ := Option.map_eq_some_iff.1 h
  obtain ⟨f, hf, rfl⟩ := Option.map_eq_some_iff.1 hvalue
  exact ⟨f, List.mem_of_find?_eq_some hf, by simpa using List.find?_some hf, htext⟩

theorem Reply.hidden_iff {v : Str} :
    r.hidden key = some v ∧ ¬ r.Has key v ↔ r.believed key = some v ∧ ¬ r.Has key v := by
  unfold Reply.believed
  cases r.hidden key with
  | none =>
      rw [Option.none_or]
      exact ⟨fun h => absurd h.1 (by simp), fun h => absurd (Reply.has_of_own h.1) h.2⟩
  | some v => rw [Option.some_or]

/-- A value that is used is believed rightly exactly if it is not misread. -/
theorem Reply.misread_iff (usable : Str → Prop) :
    r.Misread key usable ↔
      r.believed Reply.resultKey = some OK ∧
        ∃ v, r.believed key = some v ∧ usable v ∧ ¬ (r.Good ∧ r.Has key v) := by
  rw [Reply.Misread, Reply.forged_iff]
  constructor
  · rintro (⟨⟨hresult, hbad⟩, v, hv, husable⟩ | ⟨hresult, v, hv, husable, hnot⟩)
    · exact ⟨hresult, v, hv, husable, fun h => hbad h.1⟩
    · exact ⟨hresult, v, (Reply.hidden_iff.1 ⟨hv, hnot⟩).1, husable, fun h => hnot h.2⟩
  · rintro ⟨hresult, v, hv, husable, hnot⟩
    by_cases hgood : r.Good
    · have hfalse : ¬ r.Has key v := fun h => hnot ⟨hgood, h⟩
      exact .inr ⟨hresult, v, (Reply.hidden_iff.2 ⟨hv, hfalse⟩).1, husable, hfalse⟩
    · exact .inl ⟨⟨hresult, hgood⟩, v, hv, husable⟩

/-! ## What the readers believe -/

theorem expectStreamOk_eq_ok (shown : Char → Bool) (status what : Str) :
    expectStreamOk shown status what = .ok () ↔
      "STREAM STATUS".toList <+: status ∧ result status = OK := by
  unfold expectStreamOk
  by_cases hhead : "STREAM STATUS".toList <+: status
  · rw [if_neg (not_not.2 hhead)]
    by_cases hresult : result status = OK
    · rw [if_neg (not_not.2 hresult)]
      exact ⟨fun _ => ⟨hhead, hresult⟩, fun _ => rfl⟩
    · rw [if_pos hresult]
      exact ⟨nofun, fun h => absurd h.2 hresult⟩
  · rw [if_pos hhead]
    exact ⟨nofun, fun h => absurd h.1 hhead⟩

theorem parseSessionStatus_eq_ok (shown : Char → Bool) (status blob : Str) :
    parseSessionStatus shown status = .ok blob ↔
      "SESSION STATUS".toList <+: status ∧ result status = OK ∧
        find DESTINATION status = some blob := by
  unfold parseSessionStatus
  by_cases hhead : "SESSION STATUS".toList <+: status
  · rw [if_neg (not_not.2 hhead)]
    by_cases hresult : result status = OK
    · rw [if_neg (not_not.2 hresult)]
      cases find DESTINATION status with
      | none => exact ⟨nofun, fun h => nomatch h.2.2⟩
      | some v =>
          refine ⟨fun h => ⟨hhead, hresult, congrArg some (Except.ok.inj h)⟩, fun h => ?_⟩
          exact congrArg Except.ok (Option.some.inj h.2.2)
    · rw [if_pos hresult]
      exact ⟨nofun, fun h => absurd h.2.1 hresult⟩
  · rw [if_pos hhead]
    exact ⟨nofun, fun h => absurd h.1 hhead⟩

theorem parseNamingReply_eq_ok (shown : Char → Bool) (reply name value : Str) :
    parseNamingReply shown reply name = .ok value ↔
      "NAMING REPLY".toList <+: reply ∧ result reply = OK ∧
        find VALUE reply = some value ∧ value ≠ [] := by
  unfold parseNamingReply
  by_cases hhead : "NAMING REPLY".toList <+: reply
  · rw [if_neg (not_not.2 hhead)]
    by_cases hresult : result reply = OK
    · rw [if_neg (not_not.2 hresult)]
      have hfilter : (find VALUE reply).filter (fun value => !value.isEmpty) = some value ↔
          find VALUE reply = some value ∧ value ≠ [] := by
        rw [Option.filter_eq_some_iff]
        simp
      cases hfound : (find VALUE reply).filter fun value => !value.isEmpty with
      | none =>
          rw [hfound] at hfilter
          exact ⟨nofun, fun h => nomatch hfilter.2 h.2.2⟩
      | some v =>
          rw [hfound] at hfilter
          refine ⟨fun h => ?_, fun h => ?_⟩
          · exact ⟨hhead, hresult, hfilter.1 (congrArg some (Except.ok.inj h))⟩
          · exact congrArg Except.ok (Option.some.inj (hfilter.2 h.2.2))
    · rw [if_pos hresult]
      exact ⟨nofun, fun h => absurd h.2.1 hresult⟩
  · rw [if_pos hhead]
    exact ⟨nofun, fun h => absurd h.1 hhead⟩

def destinationKey : Str := "DESTINATION".toList

def valueKey : Str := "VALUE".toList

/-- The readers believe a reply for its own fields only, exactly if it is not theirs, or forges no
result and hides no value that is used. -/
theorem believed_iff (shown : Char → Bool) (what name : Str) (r : Reply) :
    ((expectStreamOk shown r.line what = .ok () → r.Good) ↔
      ¬ ("STREAM STATUS".toList <+: r.line ∧ r.Forged)) ∧
    ((∀ blob, parseSessionStatus shown r.line = .ok blob → r.Good ∧ r.Has destinationKey blob) ↔
      ¬ ("SESSION STATUS".toList <+: r.line ∧ r.Misread destinationKey fun _ => True)) ∧
    ((∀ value, parseNamingReply shown r.line name = .ok value → r.Good ∧ r.Has valueKey value) ↔
      ¬ ("NAMING REPLY".toList <+: r.line ∧ r.Misread valueKey (· ≠ []))) := by
  have hdestination : find DESTINATION r.line = r.believed destinationKey := by
    rw [show DESTINATION = destinationKey ++ ['='] by decide, find_line (by decide)]
  have hvalue : find VALUE r.line = r.believed valueKey := by
    rw [show VALUE = valueKey ++ ['='] by decide, find_line (by decide)]
  refine ⟨?_, ?_, ?_⟩
  · rw [expectStreamOk_eq_ok, result_line, Reply.forged_iff]
    constructor
    · rintro h ⟨hhead, hresult, hbad⟩
      exact hbad (h ⟨hhead, hresult⟩)
    · intro h hok
      by_contra hbad
      exact h ⟨hok.1, hok.2, hbad⟩
  · rw [Reply.misread_iff]
    simp only [parseSessionStatus_eq_ok, result_line, hdestination]
    constructor
    · rintro h ⟨hhead, hresult, v, hv, -, hnot⟩
      exact hnot (h v ⟨hhead, hresult, hv⟩)
    · intro h v hok
      by_contra hnot
      exact h ⟨hok.1, hok.2.1, v, hok.2.2, trivial, hnot⟩
  · rw [Reply.misread_iff]
    simp only [parseNamingReply_eq_ok, result_line, hvalue]
    constructor
    · rintro h ⟨hhead, hresult, v, hv, husable, hnot⟩
      exact hnot (h v ⟨hhead, hresult, hv, husable⟩)
    · intro h v hok
      by_contra hnot
      exact h ⟨hok.1, hok.2.1, v, hok.2.2.1, hok.2.2.2, hnot⟩

theorem plain_of_all {key : Str}
    (h : (key.all fun c => !isWhitespace c && decide (c ≠ '=')) = true) :
    ∀ c ∈ key, isWhitespace c = false ∧ c ≠ '=' := by
  simpa using h

/-- A refusal whose message quotes what it is not, in front of the field that says so. -/
def quoting (head quote : Str) (hhead : '=' ∉ head) (hquote : closed quote = true) : Reply where
  head := head
  fields := [⟨"MESSAGE".toList, .quoted quote hquote, 0, plain_of_all rfl⟩,
    ⟨"RESULT".toList, .bare "CANT_REACH_PEER".toList (by decide +kernel), 0, plain_of_all rfl⟩]
  head_plain := hhead

/-- Each of the readers believes the quoted words. -/
theorem quoted_believed :
    (∃ r : Reply, r.line = "STREAM STATUS MESSAGE=\"a RESULT=OK b\" RESULT=CANT_REACH_PEER".toList ∧
      ¬ r.Good ∧ expectStreamOk (fun _ => true) r.line "STREAM FORWARD".toList = .ok ()) ∧
    (∃ r : Reply, r.line =
        "SESSION STATUS MESSAGE=\"a RESULT=OK DESTINATION=b c\" RESULT=CANT_REACH_PEER".toList ∧
      ¬ r.Good ∧ parseSessionStatus (fun _ => true) r.line = .ok ['b']) ∧
    ∃ r : Reply, r.line =
        "NAMING REPLY MESSAGE=\"a RESULT=OK VALUE=b c\" RESULT=CANT_REACH_PEER".toList ∧
      ¬ r.Good ∧ parseNamingReply (fun _ => true) r.line "name".toList = .ok ['b'] := by
  refine ⟨⟨quoting "STREAM STATUS".toList "a RESULT=OK b".toList
      (by decide +kernel) (by decide +kernel), ?_⟩,
    ⟨quoting "SESSION STATUS".toList "a RESULT=OK DESTINATION=b c".toList
      (by decide +kernel) (by decide +kernel), ?_⟩,
    quoting "NAMING REPLY".toList "a RESULT=OK VALUE=b c".toList
      (by decide +kernel) (by decide +kernel), ?_⟩
  · exact ⟨by decide +kernel, by unfold Reply.Good; decide +kernel, by decide +kernel⟩
  · exact ⟨by decide +kernel, by unfold Reply.Good; decide +kernel, by decide +kernel⟩
  · exact ⟨by decide +kernel, by unfold Reply.Good; decide +kernel, by decide +kernel⟩

end Clove.Sam
