import Clove.HttpRoundTrip

/-!
# Requests that are served

The model of the server's half of `http.rs`: reading a request from a stream.  `Spelled` says what
a head says, by the text of it alone: one request line, one header for each line that is not empty,
no transfer encoding, and either no `Content-Length` and no body or exactly one and a body of that
length.  A stream is read as a request exactly if it is such a head, a blank line and the body, and
what follows is left on the stream (`readRequest_iff`).  A request that the client's half writes is
one of these (`readRequest_encode`).
-/

namespace Clove.Http

open Utf8 (ascii)
open TrackerUrl (toAsciiLowercase)

/-! ## Requests -/

/-- A request as it was read, the names of its headers in lower case. -/
structure ServerRequest where
  method : Bytes
  target : Bytes
  headers : List (Bytes × Bytes)
  body : Bytes
deriving Repr, DecidableEq

namespace ServerRequest

/-- The value of the first header of this name. -/
def header (r : ServerRequest) (name : Bytes) : Option Bytes :=
  (r.headers.find? fun h => h.1 = toAsciiLowercase name).map Prod.snd

/-- The target before any question mark. -/
def path (r : ServerRequest) : Bytes := r.target.takeWhile (· ≠ 63)

/-- The target after the first question mark. -/
def query (r : ServerRequest) : Option Bytes := (Magnet.splitOnce 63 r.target).map Prod.snd

end ServerRequest

/-- Why a request could not be read: what a response can fail of as well, and what is wrong with a
request. -/
inductive RequestError where
  | reading (e : Error)
  | badRequest (what : String)
deriving Repr, DecidableEq

/-- The method and the target of a request line. -/
def parseRequestLine (line : Bytes) : Except RequestError (Bytes × Bytes) :=
  match line.splitOn 32 with
  | [] => .error (.badRequest "no method")
  | [_] => .error (.badRequest "no target")
  | [_, _] => .error (.badRequest "no version")
  | method :: target :: version :: _ =>
      if !(ascii "HTTP/1.").isPrefixOf version then .error (.badRequest "not HTTP/1.x")
      else .ok (method, target)

/-- What the header lines read so far say. -/
structure RequestFields where
  headers : List (Bytes × Bytes)
  contentLength : Option Nat
deriving Repr, DecidableEq

/-- The length a `Content-Length` header says.  A second one is refused, even if it agrees. -/
def requestLength (maxBody : Nat) (seen : Option Nat) (value : Bytes) :
    Except RequestError (Option Nat) :=
  if seen.isSome then .error (.badRequest "more than one content-length")
  else
    match decimal value with
    | none => .error (.badRequest "bad content-length")
    | some n => if maxBody < n then .error (.reading .bodyTooLarge) else .ok (some n)

/-- One header line. -/
def readRequestField (maxBody : Nat) (f : RequestFields) (line : Bytes) :
    Except RequestError RequestFields :=
  if line = [] then .ok f
  else
    match Magnet.splitOnce 58 line with
    | none => .error (.badRequest "header without a colon")
    | some (name, value) =>
        let name := toAsciiLowercase (Text.trim name)
        let value := Text.trim value
        (if name = ascii "content-length" then requestLength maxBody f.contentLength value
          else .ok f.contentLength).bind fun contentLength =>
            if name = ascii "transfer-encoding" then
              .error (.badRequest "transfer-encoding is not supported")
            else .ok { headers := f.headers ++ [(name, value)], contentLength }

/-- What a head says. -/
def parseRequestHead (maxBody : Nat) (head : Bytes) :
    Except RequestError ((Bytes × Bytes) × RequestFields) :=
  if !Utf8.valid head then .error (.badRequest "non-UTF-8 head")
  else
    match lines head with
    | [] => .error (.badRequest "empty request")
    | requestLine :: rest =>
        (parseRequestLine requestLine).bind fun asked =>
          (rest.foldlM (readRequestField maxBody) ⟨[], none⟩).map fun f => (asked, f)

/-- Read and parse one request: the request, and what is left of the stream. -/
def readRequest (breaks : Bool) (maxBody : Nat) (s : Bytes) :
    Except RequestError (ServerRequest × Bytes) :=
  ((readHead breaks s).mapError .reading).bind fun r =>
    (parseRequestHead maxBody r.1).bind fun p =>
      ((fill breaks 0 (p.2.contentLength.getD 0) r.2.2).mapError .reading).map fun b =>
        (⟨p.1.1, p.1.2, p.2.headers, b.1⟩, b.2)

/-! ## One header line -/

/-- The header that a line says. -/
def fieldOf (line : Bytes) : Option (Bytes × Bytes) :=
  (Magnet.splitOnce 58 line).map fun h => (toAsciiLowercase (Text.trim h.1), Text.trim h.2)

namespace RequestFields

/-- With one more header. -/
def add (f : RequestFields) (h : Bytes × Bytes) : RequestFields where
  headers := f.headers ++ [h]
  contentLength := if h.1 = ascii "content-length" then decimal h.2 else f.contentLength

/-- A header that may come next. -/
structure Admits (maxBody : Nat) (f : RequestFields) (h : Bytes × Bytes) : Prop where
  plain : h.1 ≠ ascii "transfer-encoding"
  first : h.1 = ascii "content-length" → f.contentLength = none
  allowed : h.1 = ascii "content-length" → ∃ n, decimal h.2 = some n ∧ n ≤ maxBody

end RequestFields

theorem requestLength_iff {maxBody : Nat} {seen length : Option Nat} {value : Bytes} :
    requestLength maxBody seen value = .ok length ↔
      seen = none ∧ ∃ n, decimal value = some n ∧ n ≤ maxBody ∧ length = some n := by
  unfold requestLength
  cases seen with
  | some m => simp
  | none =>
      cases hdecimal : decimal value with
      | none => simp
      | some n =>
          rcases Nat.lt_or_ge maxBody n with hlong | hfits
          · simp [hlong]
          · simp [Nat.not_lt.2 hfits, hfits, eq_comm]

theorem readRequestField_of_some {maxBody : Nat} {f : RequestFields} {line : Bytes}
    {h : Bytes × Bytes} (hline : line ≠ []) (hfield : fieldOf line = some h) :
    readRequestField maxBody f line =
      (if h.1 = ascii "content-length" then requestLength maxBody f.contentLength h.2
        else .ok f.contentLength).bind fun contentLength =>
          if h.1 = ascii "transfer-encoding" then
            .error (.badRequest "transfer-encoding is not supported")
          else .ok { headers := f.headers ++ [h], contentLength } := by
  obtain ⟨⟨name, value⟩, hsplit, rfl⟩ := Option.map_eq_some_iff.1 hfield
  rw [readRequestField, if_neg hline, hsplit]

/-- A header is taken exactly if it may come next. -/
theorem readRequestField_ok {maxBody : Nat} {f f' : RequestFields} {line : Bytes}
    {h : Bytes × Bytes} (hline : line ≠ []) (hfield : fieldOf line = some h) :
    readRequestField maxBody f line = .ok f' ↔ f.Admits maxBody h ∧ f' = f.add h := by
  rw [readRequestField_of_some hline hfield]
  constructor
  · intro hread
    obtain ⟨length, hlength, hread⟩ := Except.ok_of_bind hread
    split at hread
    · cases hread
    · rename_i hplain
      obtain rfl := Except.ok.inj hread
      split at hlength
      · rename_i hname
        obtain ⟨hfirst, n, hdecimal, hfits, rfl⟩ := requestLength_iff.1 hlength
        refine ⟨⟨hplain, fun _ => hfirst, fun _ => ⟨n, hdecimal, hfits⟩⟩, ?_⟩
        simp [RequestFields.add, hname, hdecimal]
      · rename_i hname
        obtain rfl := Except.ok.inj hlength
        refine ⟨⟨hplain, fun heq => absurd heq hname, fun heq => absurd heq hname⟩, ?_⟩
        simp [RequestFields.add, hname]
  · rintro ⟨hadmits, rfl⟩
    by_cases hname : h.1 = ascii "content-length"
    · obtain ⟨n, hdecimal, hfits⟩ := hadmits.allowed hname
      have hlength : requestLength maxBody f.contentLength h.2 = .ok (some n) :=
        requestLength_iff.2 ⟨hadmits.first hname, n, hdecimal, hfits, rfl⟩
      rw [if_pos hname, hlength]
      simp only [Except.bind, if_neg hadmits.plain, RequestFields.add, if_pos hname, hdecimal]
    · simp only [if_neg hname, Except.bind, if_neg hadmits.plain, RequestFields.add]

/-- What one header line is read as. -/
theorem readRequestField_iff {maxBody : Nat} {f f' : RequestFields} {line : Bytes} :
    readRequestField maxBody f line = .ok f' ↔
      (line = [] ∧ f' = f) ∨
        (line ≠ [] ∧ ∃ h, fieldOf line = some h ∧ f.Admits maxBody h ∧ f' = f.add h) := by
  by_cases hline : line = []
  · simp [readRequestField, hline, eq_comm]
  · cases hfield : fieldOf line with
    | none =>
        have hsplit : Magnet.splitOnce 58 line = none := Option.map_eq_none_iff.1 hfield
        simp [readRequestField, hline, hsplit]
    | some h => simp [readRequestField_ok hline hfield, hline]

/-! ## All of them -/

/-- The values that say a length. -/
def lengthsOf (hs : List (Bytes × Bytes)) : List Bytes :=
  (hs.filter fun h => h.1 = ascii "content-length").map Prod.snd

theorem lengthsOf_cons (h : Bytes × Bytes) (hs : List (Bytes × Bytes)) :
    lengthsOf (h :: hs) = lengthsOf [h] ++ lengthsOf hs := by
  simp only [lengthsOf, ← List.map_append, ← List.filter_append, List.singleton_append]

theorem toList_injective {m n : Option Nat} (h : m.toList.map some = n.toList.map some) : m = n := by
  cases m with
  | none => cases n <;> simp_all
  | some a => cases n <;> simp_all

/-- With a header that may come next, the length that was said is its own or that of before. -/
theorem RequestFields.Admits.lengths {maxBody : Nat} {f : RequestFields} {h : Bytes × Bytes}
    (hadmits : f.Admits maxBody h) : (f.add h).contentLength.toList.map some =
      f.contentLength.toList.map some ++ (lengthsOf [h]).map decimal := by
  by_cases hname : h.1 = ascii "content-length"
  · obtain ⟨n, hdecimal, -⟩ := hadmits.allowed hname
    simp [RequestFields.add, lengthsOf, hname, hadmits.first hname, hdecimal]
  · simp [RequestFields.add, lengthsOf, hname]

theorem RequestFields.Admits.le {maxBody : Nat} {f : RequestFields} {h : Bytes × Bytes}
    (hadmits : f.Admits maxBody h) (hf : ∀ n, f.contentLength = some n → n ≤ maxBody) :
    ∀ n, (f.add h).contentLength = some n → n ≤ maxBody := by
  intro n hn
  rw [RequestFields.add] at hn
  split at hn
  · rename_i hname
    obtain ⟨m, hdecimal, hfits⟩ := hadmits.allowed hname
    exact Option.some.inj (hdecimal.symm.trans hn) ▸ hfits
  · exact hf n hn

/-- A header may come next if at most one length is said, by it or by another. -/
theorem admits_of_lengths {maxBody : Nat} {f : RequestFields} {h : Bytes × Bytes}
    {hs : List (Bytes × Bytes)} {length : Option Nat} (hplain : h.1 ≠ ascii "transfer-encoding")
    (hlengths : f.contentLength.toList.map some ++ (lengthsOf (h :: hs)).map decimal =
      length.toList.map some)
    (hallowed : ∀ n, length = some n → n ≤ maxBody) : f.Admits maxBody h := by
  rw [lengthsOf_cons, List.map_append] at hlengths
  refine ⟨hplain, fun hname => ?_, fun hname => ?_⟩
  all_goals
    have hone : (lengthsOf [h]).map decimal = [decimal h.2] := by simp [lengthsOf, hname]
    rw [hone] at hlengths
    cases length with
    | none => simp at hlengths
    | some n => cases hseen : f.contentLength <;> simp_all

/-- The header lines, read one after another: what they say by their text alone. -/
theorem foldlM_readRequestField {maxBody : Nat} {ls : List Bytes} {f f' : RequestFields}
    (hf : ∀ n, f.contentLength = some n → n ≤ maxBody) :
    ls.foldlM (readRequestField maxBody) f = .ok f' ↔
      ∃ hs, (ls.filter (· ≠ [])).map fieldOf = hs.map some ∧ f'.headers = f.headers ++ hs ∧
        (∀ h ∈ hs, h.1 ≠ ascii "transfer-encoding") ∧
        f.contentLength.toList.map some ++ (lengthsOf hs).map decimal =
          f'.contentLength.toList.map some ∧
        ∀ n, f'.contentLength = some n → n ≤ maxBody := by
  induction ls generalizing f with
  | nil =>
      rw [List.foldlM_nil]
      constructor
      · intro h
        obtain rfl := Except.ok.inj h
        exact ⟨[], by simp, by simp, by simp, by simp [lengthsOf], hf⟩
      · rintro ⟨hs, hfields, hheaders, -, hlength, -⟩
        obtain rfl : hs = [] := by simpa using hfields.symm
        obtain ⟨headers, length⟩ := f
        obtain ⟨headers', length'⟩ := f'
        obtain rfl : headers' = headers := by simpa using hheaders
        obtain rfl : length = length' := toList_injective (by simpa [lengthsOf] using hlength)
        rfl
  | cons line ls ih =>
      rw [List.foldlM_cons]
      by_cases hline : line = []
      · have hskip : readRequestField maxBody f line = .ok f := by rw [readRequestField, if_pos hline]
        rw [hskip, Except.ok_bind, ih hf]
        simp [hline]
      · rw [List.filter_cons_of_pos (by simpa using hline), List.map_cons]
        constructor
        · intro h
          obtain ⟨next, hread, h⟩ := Except.ok_of_bind h
          obtain ⟨hempty, -⟩ | ⟨-, field, hfield, hadmits, rfl⟩ := readRequestField_iff.1 hread
          · exact absurd hempty hline
          · obtain ⟨hs, hfields, hheaders, hplain, hlengths, hallowed⟩ :=
              (ih (hadmits.le hf)).1 h
            refine ⟨field :: hs, by rw [hfield, hfields, List.map_cons], ?_, ?_, ?_, hallowed⟩
            · rw [hheaders, RequestFields.add, List.append_assoc, List.singleton_append]
            · exact List.forall_mem_cons.2 ⟨hadmits.plain, hplain⟩
            · rw [lengthsOf_cons, List.map_append, ← List.append_assoc, ← hadmits.lengths, hlengths]
        · rintro ⟨hs, hfields, hheaders, hplain, hlengths, hallowed⟩
          cases hs with
          | nil => cases hfields
          | cons field hs =>
              rw [List.map_cons, List.cons.injEq] at hfields
              rw [List.forall_mem_cons] at hplain
              have hadmits := admits_of_lengths hplain.1 hlengths hallowed
              have hread : readRequestField maxBody f line = .ok (f.add field) :=
                readRequestField_iff.2 (.inr ⟨hline, field, hfields.1, hadmits, rfl⟩)
              rw [hread, Except.ok_bind, ih (hadmits.le hf)]
              refine ⟨hs, hfields.2, ?_, hplain.2, ?_, hallowed⟩
              · rw [hheaders, RequestFields.add, List.append_assoc, List.singleton_append]
              · rw [hadmits.lengths, List.append_assoc, ← List.map_append, ← lengthsOf_cons, hlengths]

/-! ## What is read -/

/-- A head says a request, by its text. -/
structure Spelled (maxBody : Nat) (r : ServerRequest) (head : Bytes) : Prop where
  text : Utf8.valid head = true
  unbroken : ¬ BLANK <:+: (head ++ BLANK).dropLast
  fits : (head ++ BLANK).length ≤ MAX_HEADER_BYTES + 1
  asked : ∃ line version more, (lines head).head? = some line ∧
    line.splitOn 32 = r.method :: r.target :: version :: more ∧
    (ascii "HTTP/1.").isPrefixOf version = true
  headers : ((lines head).tail.filter (· ≠ [])).map fieldOf = r.headers.map some
  plain : ∀ h ∈ r.headers, h.1 ≠ ascii "transfer-encoding"
  /-- No length is said and there is no body, or one is, and it is the body's. -/
  length : lengthsOf r.headers = [] ∧ r.body = [] ∨
    (lengthsOf r.headers).map decimal = [some r.body.length]
  allowed : r.body.length ≤ maxBody

theorem lines_ne_nil (s : Bytes) : lines s ≠ [] := by
  fun_cases lines s <;> simp_all

theorem parseRequestLine_iff {line method target : Bytes} :
    parseRequestLine line = .ok (method, target) ↔ ∃ version more,
      line.splitOn 32 = method :: target :: version :: more ∧
        (ascii "HTTP/1.").isPrefixOf version = true := by
  unfold parseRequestLine
  rcases line.splitOn 32 with _ | ⟨a, _ | ⟨b, _ | ⟨c, more⟩⟩⟩
  · simp
  · simp
  · simp
  · simp only [List.isPrefixOf_iff_prefix, List.cons.injEq]
    by_cases hversion : ascii "HTTP/1." <+: c
    · simp [List.isPrefixOf_iff_prefix.2 hversion, hversion]
    · have hnot : (ascii "HTTP/1.").isPrefixOf c = false := by
        rw [← Bool.not_eq_true, List.isPrefixOf_iff_prefix]
        exact hversion
      simp [hnot, hversion]

/-- Room for what is asked is filled with what comes first on the stream. -/
theorem fill_iff {breaks : Bool} {held n : Nat} {s data rest : Bytes} :
    fill breaks held n s = .ok (data, rest) ↔
      s = data ++ rest ∧ data.length = n ∧ held + n ≤ ISIZE_MAX := by
  constructor
  · intro h
    obtain ⟨hfits, hlength, -⟩ := of_fill h
    rw [fill, if_neg (Nat.not_lt.2 hfits)] at h
    have hread := Except.ok_of_mapError h
    rw [Reader.readExact] at hread
    split at hread
    · obtain ⟨rfl, rfl⟩ := Prod.mk.inj (Except.ok.inj hread)
      exact ⟨(List.take_append_drop n s).symm, hlength, hfits⟩
    · cases hread
  · rintro ⟨rfl, rfl, hfits⟩
    exact fill_append hfits rest

theorem parseRequestHead_ok {maxBody : Nat} {head method target : Bytes} {f : RequestFields} :
    parseRequestHead maxBody head = .ok ((method, target), f) ↔
      Utf8.valid head = true ∧
        (∃ line version more, (lines head).head? = some line ∧
          line.splitOn 32 = method :: target :: version :: more ∧
          (ascii "HTTP/1.").isPrefixOf version = true) ∧
        ((lines head).tail.filter (· ≠ [])).map fieldOf = f.headers.map some ∧
        (∀ h ∈ f.headers, h.1 ≠ ascii "transfer-encoding") ∧
        (lengthsOf f.headers).map decimal = f.contentLength.toList.map some ∧
        ∀ n, f.contentLength = some n → n ≤ maxBody := by
  have hnone : ∀ n, (⟨[], none⟩ : RequestFields).contentLength = some n → n ≤ maxBody := by
    rintro n ⟨⟩
  unfold parseRequestHead
  cases hvalid : Utf8.valid head with
  | false => simp
  | true =>
      obtain ⟨line, ls, hlines⟩ := List.exists_cons_of_ne_nil (lines_ne_nil head)
      simp only [hlines, Bool.not_true, Bool.false_eq_true, if_false, List.head?_cons,
        List.tail_cons, Option.some.injEq, exists_and_left, exists_eq_left', true_and]
      rw [← parseRequestLine_iff]
      constructor
      · intro h
        obtain ⟨asked, hasked, h⟩ := Except.ok_of_bind h
        obtain ⟨fields, hfields, heq⟩ := Except.ok_of_map h
        obtain ⟨rfl, rfl⟩ := Prod.mk.inj heq
        obtain ⟨hs, hread, hheaders, hplain, hlengths, hallowed⟩ :=
          (foldlM_readRequestField hnone).1 hfields
        obtain rfl : fields.headers = hs := hheaders
        exact ⟨hasked, hread, hplain, hlengths, hallowed⟩
      · rintro ⟨hasked, hread, hplain, hlengths, hallowed⟩
        have hfields : ls.foldlM (readRequestField maxBody) ⟨[], none⟩ = .ok f :=
          (foldlM_readRequestField hnone).2 ⟨f.headers, hread, rfl, hplain, hlengths, hallowed⟩
        rw [hasked, Except.bind, hfields]
        rfl

/-- A stream is read as a request exactly if it is a head that says the request, a blank line and the
body.  What stands after the body is left on the stream. -/
theorem readRequest_iff (breaks : Bool) (maxBody : Nat) (s : Bytes) (r : ServerRequest)
    (rest : Bytes) : readRequest breaks maxBody s = .ok (r, rest) ↔
      ∃ head, s = head ++ BLANK ++ (r.body ++ rest) ∧ Spelled maxBody r head ∧
        r.body.length ≤ ISIZE_MAX := by
  constructor
  · intro h
    obtain ⟨⟨head, buffered, left⟩, hhead, h⟩ := Except.ok_of_bind h
    obtain ⟨⟨⟨method, target⟩, f⟩, hparse, h⟩ := Except.ok_of_bind h
    obtain ⟨⟨body, after⟩, hfill, h⟩ := Except.ok_of_map h
    obtain ⟨rfl, rfl⟩ := Prod.mk.inj h
    obtain ⟨⟨text, left'⟩, huntil, heq⟩ := Except.ok_of_map (Except.ok_of_mapError hhead)
    simp only [Prod.mk.injEq] at heq
    obtain ⟨rfl, -, rfl⟩ := heq
    obtain ⟨rfl, hunbroken, hfits⟩ :=
      Reader.of_readUntil (by decide) (Except.ok_of_mapError huntil)
    obtain ⟨hvalid, hasked, hheaders, hplain, hlengths, hallowed⟩ := parseRequestHead_ok.1 hparse
    obtain ⟨rfl, hbody, hvec⟩ := fill_iff.1 (Except.ok_of_mapError hfill)
    rw [← hbody, Nat.zero_add] at hvec
    refine ⟨text, rfl, ⟨hvalid, hunbroken, hfits, hasked, hheaders, hplain, ?_, ?_⟩, hvec⟩
    · cases hlength : f.contentLength with
      | none =>
          rw [hlength] at hlengths hbody
          exact .inl ⟨List.map_eq_nil_iff.1 hlengths, List.length_eq_zero_iff.1 hbody⟩
      | some n =>
          rw [hlength] at hlengths hbody
          exact .inr (by rw [hlengths, hbody]; rfl)
    · cases hlength : f.contentLength with
      | none => simp [hbody, hlength]
      | some n => exact hbody ▸ by simpa [hlength] using hallowed n hlength
  · rintro ⟨head, rfl, hspelled, hvec⟩
    have hhead : readHead breaks (head ++ BLANK ++ (r.body ++ rest)) =
        .ok (head, [], r.body ++ rest) := readHead_append hspelled.unbroken hspelled.fits _
    obtain ⟨length, hlengths, hsaid⟩ : ∃ length : Option Nat,
        (lengthsOf r.headers).map decimal = length.toList.map some ∧
          length.getD 0 = r.body.length := by
      rcases hspelled.length with ⟨hnone, hbody⟩ | hone
      · exact ⟨none, by rw [hnone]; rfl, by simp [hbody]⟩
      · exact ⟨some r.body.length, hone, rfl⟩
    have hparse : parseRequestHead maxBody head = .ok ((r.method, r.target), ⟨r.headers, length⟩) :=
      parseRequestHead_ok.2 ⟨hspelled.text, hspelled.asked, hspelled.headers, hspelled.plain,
        hlengths, fun n hn => by
          obtain rfl : length = some n := hn
          exact hsaid.trans_le hspelled.allowed⟩
    have hfill : fill breaks 0 (length.getD 0) (r.body ++ rest) = .ok (r.body, rest) :=
      fill_iff.2 ⟨rfl, hsaid.symm, by omega⟩
    rw [readRequest, hhead]
    simp only [Except.mapError, Except.bind, hparse, hfill]
    rfl

/-! ## What is written -/

namespace Request

/-- A request line of three words, and headers that are lines of their own.  That no part has a line
end in it is not asked: what has one is not written. -/
structure Plain (r : Request) : Prop where
  method : Utf8.valid r.method = true ∧ 32 ∉ r.method
  target : Utf8.valid r.target = true ∧ 32 ∉ r.target
  host : Utf8.valid r.host = true ∧ Text.trim r.host = r.host
  headers : ∀ h ∈ r.headers, CleanHeader h

/-- The request line. -/
def line (r : Request) : Bytes := r.method ++ ascii " " ++ r.target ++ ascii " HTTP/1.1"

/-- The header that says how long the body is, unless there is none and a `GET` needs none. -/
def lengthHeader (r : Request) : List (Bytes × Bytes) :=
  if r.method = ascii "GET" && r.body = [] then []
  else [(ascii "Content-Length", Decimal.digits r.body.length)]

/-- All its headers. -/
def sent (r : Request) : List (Bytes × Bytes) :=
  (ascii "Host", r.host) :: r.headers ++ r.lengthHeader ++ [(ascii "Connection", ascii "close")]

/-- The head of a request. -/
def head (r : Request) : Bytes := joinLines r.line (r.sent.map headerText)

/-- The request as it is read. -/
def received (r : Request) : ServerRequest where
  method := r.method
  target := r.target
  headers := r.sent.map lowered
  body := r.body

end Request

/-- What is written is the head, a blank line and the body. -/
theorem Request.encode_eq {r : Request} {bytes : Bytes} (h : r.encode = some bytes) :
    bytes = r.head ++ BLANK ++ r.body ∧ clean r.method = true ∧ clean r.target = true ∧
      clean r.host = true := by
  unfold Request.encode at h
  split at h
  · cases h
  · rename_i hclean
    split at h
    · cases h
    · simp only [Bool.or_eq_true, Bool.not_eq_true', not_or, Bool.not_eq_false] at hclean
      refine ⟨?_, hclean.1.1, hclean.1.2, hclean.2⟩
      have hlength : (if r.method = ascii "GET" && r.body = [] then []
          else ascii "Content-Length: " ++ Decimal.digits r.body.length ++ CRLF) =
            r.lengthHeader.flatMap headerLine := by
        rw [Request.lengthHeader]
        split <;> simp [headerLine, ascii]
      have hlines := flatMap_headerLine r.line r.sent
      have hblank : BLANK = CRLF ++ CRLF := rfl
      rw [Request.head, hblank, ← List.append_assoc, ← hlines, ← Option.some.inj h, hlength]
      simp [Request.sent, Request.line, headerLine, ascii, List.append_assoc]

/-- A header that is a line of its own, and is read back from it. -/
structure Sent (h : Bytes × Bytes) : Prop where
  text : Utf8.valid (headerText h) = true
  line : headerText h ≠ [] ∧ 13 ∉ headerText h
  field : fieldOf (headerText h) = some (lowered h)
  plain : (lowered h).1 ≠ ascii "transfer-encoding"

theorem fieldOf_headerText {name value : Bytes} (hname : 58 ∉ name)
    (hnametrim : Text.trim name = name) (hvalue : Utf8.valid value = true)
    (hvaluetrim : Text.trim value = value) :
    fieldOf (headerText (name, value)) = some (lowered (name, value)) := by
  have hsplit : headerText (name, value) = name ++ 58 :: 32 :: value := by
    simp [headerText, ascii]
  have htrim : Text.trim (32 :: value) = value := by
    rw [Text.trim_cons hvalue (by decide), hvaluetrim]
  rw [fieldOf, hsplit, Tracker.splitOnce_eq_some hname, Option.map_some, hnametrim, htrim]
  rfl

theorem CleanHeader.sent {h : Bytes × Bytes} (hh : CleanHeader h) : Sent h where
  text := hh.line.1
  line := hh.line.2
  field := fieldOf_headerText hh.name_unbroken.2.2 hh.name_trim hh.value_text hh.value_trim
  plain := hh.not_encoding

/-- The header that says how long a body is. -/
theorem sent_length (n : Nat) : Sent (ascii "Content-Length", Decimal.digits n) := by
  have hdigits := fun b hb => isDigit_spec (Decimal.isDigit_of_mem_digits n b hb)
  have hname : Utf8.valid (ascii "Content-Length" ++ ascii ": ") = true ∧
      13 ∉ ascii "Content-Length" ++ ascii ": " := by decide
  have hvalid : Utf8.valid (Decimal.digits n) = true :=
    Utf8.valid_of_ascii fun b hb => (hdigits b hb).1.1
  refine ⟨Utf8.valid_append hname.1 hvalid, ⟨by simp [headerText, ascii], ?_⟩, ?_, ?_⟩
  · rw [headerText, List.mem_append, not_or]
    exact ⟨hname.2, fun hin => (hdigits 13 hin).2.2 rfl⟩
  · exact fieldOf_headerText (by decide) (by decide) hvalid (trim_digits n)
  · exact show toAsciiLowercase (ascii "Content-Length") ≠ ascii "transfer-encoding" by decide

theorem cleanHeader_host {host : Bytes} (hvalid : Utf8.valid host = true)
    (htrim : Text.trim host = host) (hclean : clean host = true) :
    CleanHeader (ascii "Host", host) where
  name_text := by rfl
  value_text := hvalid
  name_unbroken := show 13 ∉ ascii "Host" ∧ 10 ∉ ascii "Host" ∧ 58 ∉ ascii "Host" by decide
  value_unbroken := ⟨(clean_iff.1 hclean).1, (clean_iff.1 hclean).2.1⟩
  name_trim := by rfl
  value_trim := htrim
  not_length := show toAsciiLowercase (ascii "Host") ≠ ascii "content-length" by decide
  not_encoding := show toAsciiLowercase (ascii "Host") ≠ ascii "transfer-encoding" by decide

theorem cleanHeader_connection : CleanHeader (ascii "Connection", ascii "close") where
  name_text := by rfl
  value_text := by rfl
  name_unbroken := by decide
  value_unbroken := by decide
  name_trim := by rfl
  value_trim := by rfl
  not_length := by decide
  not_encoding := by decide

theorem Request.sent_sent {r : Request} (hr : r.Plain) (hhost : clean r.host = true) :
    ∀ h ∈ r.sent, Sent h := by
  intro h hh
  simp only [Request.sent, List.mem_append, List.mem_cons, List.not_mem_nil, or_false] at hh
  rcases hh with ((rfl | hh) | hh) | rfl
  · exact (cleanHeader_host hr.host.1 hr.host.2 hhost).sent
  · exact (hr.headers h hh).sent
  · rw [Request.lengthHeader] at hh
    split at hh
    · cases hh
    · obtain rfl := List.mem_singleton.1 hh
      exact sent_length _
  · exact cleanHeader_connection.sent

/-- Clean headers say no length. -/
theorem lengthsOf_clean {hs : List (Bytes × Bytes)} (hclean : ∀ h ∈ hs, CleanHeader h) :
    lengthsOf (hs.map lowered) = [] := by
  rw [lengthsOf, List.map_eq_nil_iff, List.filter_eq_nil_iff]
  intro h hh
  obtain ⟨g, hg, rfl⟩ := List.mem_map.1 hh
  exact fun heq => (hclean g hg).not_length (of_decide_eq_true heq)

theorem lengthsOf_append (hs gs : List (Bytes × Bytes)) :
    lengthsOf (hs ++ gs) = lengthsOf hs ++ lengthsOf gs := by
  simp only [lengthsOf, List.filter_append, List.map_append]

/-- The length that is said is that of the body. -/
theorem Request.lengths_received {r : Request} (hr : r.Plain) (hhost : clean r.host = true) :
    lengthsOf r.received.headers = r.lengthHeader.map Prod.snd := by
  have hfront : ∀ h ∈ (ascii "Host", r.host) :: r.headers, CleanHeader h :=
    List.forall_mem_cons.2 ⟨cleanHeader_host hr.host.1 hr.host.2 hhost, hr.headers⟩
  have hback : ∀ h ∈ [(ascii "Connection", ascii "close")], CleanHeader h :=
    List.forall_mem_singleton.2 cleanHeader_connection
  have hown : lengthsOf (r.lengthHeader.map lowered) = r.lengthHeader.map Prod.snd := by
    rw [Request.lengthHeader]
    split
    · rfl
    · have hlower : toAsciiLowercase (ascii "Content-Length") = ascii "content-length" := by decide
      simp [lengthsOf, lowered, hlower]
  rw [Request.received, Request.sent, List.map_append, List.map_append,
    lengthsOf_append, lengthsOf_append, lengthsOf_clean hfront, lengthsOf_clean hback, hown]
  simp

/-- The words of a request line. -/
theorem Request.splitOn_line {r : Request} (hr : r.Plain) :
    r.line.splitOn 32 = r.method :: r.target :: [ascii "HTTP/1.1"] := by
  have hparts : r.line = r.method ++ 32 :: (r.target ++ 32 :: ascii "HTTP/1.1") := by
    simp [Request.line, ascii]
  rw [hparts, List.splitOn_append_cons_self_of_not_mem hr.method.2,
    List.splitOn_append_cons_self_of_not_mem hr.target.2]
  rfl

/-- A request that is written is read back, its headers in lower case and with those that were added,
and nothing after its body is. -/
theorem readRequest_encode (breaks : Bool) (maxBody : Nat) (r : Request) (bytes rest : Bytes)
    (henc : r.encode = some bytes) (hr : r.Plain) (hmax : r.body.length ≤ maxBody)
    (hvec : r.body.length ≤ ISIZE_MAX)
    (hhead : bytes.length ≤ MAX_HEADER_BYTES + 1 + r.body.length) :
    readRequest breaks maxBody (bytes ++ rest) = .ok (r.received, rest) := by
  have hrange : ISIZE_MAX ≤ USIZE_MAX := by decide
  obtain ⟨rfl, hmethod, htarget, hhost⟩ := Request.encode_eq henc
  have hsent := Request.sent_sent hr hhost
  have hplain : ∀ m ∈ r.sent.map headerText, Utf8.valid m = true ∧ m ≠ [] ∧ 13 ∉ m := by
    intro m hm
    obtain ⟨h, hh, rfl⟩ := List.mem_map.1 hm
    exact ⟨(hsent h hh).text, (hsent h hh).line⟩
  have hline : 13 ∉ r.line := by
    have hfixed : 13 ∉ ascii " " ∧ 13 ∉ ascii " HTTP/1.1" := by decide
    simp only [Request.line, List.mem_append, not_or]
    exact ⟨⟨⟨(clean_iff.1 hmethod).1, hfixed.1⟩, (clean_iff.1 htarget).1⟩, hfixed.2⟩
  have hvalid : Utf8.valid r.line = true := by
    rw [Request.line]
    exact Utf8.valid_append (Utf8.valid_append (Utf8.valid_append hr.method.1 (by decide))
      hr.target.1) (by decide)
  have hlines : lines r.head = r.line :: r.sent.map headerText :=
    lines_joinLines (List.forall_mem_cons.2 ⟨hline, fun m hm => (hplain m hm).2.2⟩)
  rw [List.append_assoc, readRequest_iff]
  refine ⟨r.head, rfl, ?_, hvec⟩
  constructor
  · exact valid_joinLines hvalid fun m hm => (hplain m hm).1
  · exact not_blank_joinLines hline fun m hm => (hplain m hm).2
  · rw [List.length_append] at hhead
    omega
  · exact ⟨r.line, ascii "HTTP/1.1", [], by rw [hlines]; rfl, Request.splitOn_line hr, by decide⟩
  · have hfull : (r.sent.map headerText).filter (· ≠ []) = r.sent.map headerText :=
      List.filter_eq_self.2 fun m hm => by simpa using (hplain m hm).2.1
    rw [hlines, List.tail_cons, hfull, List.map_map, Request.received, List.map_map]
    exact List.map_congr_left fun h hh => (hsent h hh).field
  · intro h hh
    obtain ⟨g, hg, rfl⟩ := List.mem_map.1 hh
    exact (hsent g hg).plain
  · rw [Request.lengths_received hr hhost, Request.lengthHeader]
    split
    · rename_i hget
      simp only [Bool.and_eq_true, decide_eq_true_eq] at hget
      exact .inl ⟨rfl, hget.2⟩
    · exact .inr (by simp [decimal_digits (hvec.trans hrange), Request.received])
  · exact hmax

/-- Reading a request is exact: it is read exactly if its head says it and its body follows, so a
second `Content-Length`, a transfer encoding or a longer body is refused and what follows is left
alone; and every request that is written is read as it was meant. -/
theorem requests_exact :
    (∀ breaks maxBody s r rest, readRequest breaks maxBody s = .ok (r, rest) ↔
      ∃ head, s = head ++ BLANK ++ (r.body ++ rest) ∧ Spelled maxBody r head ∧
        r.body.length ≤ ISIZE_MAX) ∧
    ∀ breaks maxBody (r : Request) bytes rest, r.encode = some bytes → r.Plain →
      r.body.length ≤ maxBody → r.body.length ≤ ISIZE_MAX →
      bytes.length ≤ MAX_HEADER_BYTES + 1 + r.body.length →
      readRequest breaks maxBody (bytes ++ rest) = .ok (r.received, rest) :=
  ⟨readRequest_iff, readRequest_encode⟩

/-- What a priorities command sends. -/
def priorities : Request where
  method := ascii "PUT"
  target := ascii "/v1/torrents/616a7a67/priorities"
  host := ascii "clove"
  headers := [(ascii "X-Clove-Token", ascii "00ff")]
  body := ascii "1,0,2"

theorem requests_exact_priorities :
    readRequest false 5 (ascii "PUT /v1/torrents/616a7a67/priorities HTTP/1.1" ++ CRLF ++
      ascii "Host: clove" ++ CRLF ++ ascii "X-Clove-Token: 00ff" ++ CRLF ++
      ascii "Content-Length: 5" ++ CRLF ++ ascii "Connection: close" ++ CRLF ++ CRLF ++
      ascii "1,0,2" ++ ascii "rest") = .ok (priorities.received, ascii "rest") :=
  requests_exact.2 false 5 priorities _ (ascii "rest") (by decide +kernel)
    { method := by decide +kernel
      target := by decide +kernel
      host := by decide +kernel
      headers := List.forall_mem_singleton.2
        { name_text := by decide
          value_text := by decide
          name_unbroken := by decide
          value_unbroken := by decide
          name_trim := by decide
          value_trim := by decide
          not_length := by decide
          not_encoding := by decide } }
    (by decide) (by decide) (by decide +kernel)

end Clove.Http
