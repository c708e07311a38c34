import Clove.HttpResponse

/-!
# A response that is written is read back

A head is lines with no line end in them, none of them empty, so the blank line is where it is
written and the lines are those that were joined (`lines_joinLines`, `readHead_joinLines`).  Each
clean header line is read as the header it was written for.  `reading_exact` puts the bound on
every body, the chunked framing and the written responses together.
-/

namespace Clove.Http

open Utf8 (ascii)
open TrackerUrl (toAsciiLowercase)

/-! ## Lines of a head -/

/-- The lines of a head, joined. -/
def joinLines (l : Bytes) (ls : List Bytes) : Bytes := l ++ ls.flatMap fun m => CRLF ++ m

theorem lines_eq_singleton {l : Bytes} (hl : 13 ∉ l) : lines l = [l] := by
  induction l with
  | nil => rfl
  | cons b l ih =>
      rw [List.mem_cons, not_or] at hl
      cases l with
      | nil => rfl
      | cons c l => rw [lines, if_neg fun h => hl.1 h.1.symm, ih hl.2]

theorem joinLines_cons (l m : Bytes) (ls : List Bytes) :
    joinLines l (m :: ls) = l ++ CRLF ++ joinLines m ls := by
  simp [joinLines]

/-- The lines that were joined are the lines of the head. -/
theorem lines_joinLines {l : Bytes} {ls : List Bytes} (h : ∀ m ∈ l :: ls, 13 ∉ m) :
    lines (joinLines l ls) = l :: ls := by
  induction ls generalizing l with
  | nil =>
      rw [joinLines, List.flatMap_nil, List.append_nil]
      exact lines_eq_singleton (h l List.mem_cons_self)
  | cons m ls ih =>
      rw [joinLines_cons, lines_append (h l List.mem_cons_self),
        ih fun n hn => h n (List.mem_cons_of_mem _ hn)]

/-- A blank line does not begin at any other byte. -/
theorem blank_infix_cons {b : UInt8} (hb : b ≠ 13) {s : Bytes} (h : BLANK <:+: b :: s) :
    BLANK <:+: s := by
  rcases List.infix_cons_iff.1 h with hpre | hin
  · exact absurd (List.cons_prefix_cons.1 hpre).1.symm hb
  · exact hin

theorem blank_infix_append {l : Bytes} (hl : 13 ∉ l) {s : Bytes} (h : BLANK <:+: l ++ s) :
    BLANK <:+: s := by
  induction l with
  | nil => exact h
  | cons b l ih =>
      rw [List.mem_cons, not_or] at hl
      exact ih hl.2 (blank_infix_cons (fun heq => hl.1 heq.symm) h)

/-- A line end before a byte that is no line end does not begin a blank line. -/
theorem blank_infix_CRLF {b : UInt8} (hb : b ≠ 13) {s : Bytes} (h : BLANK <:+: CRLF ++ b :: s) :
    BLANK <:+: b :: s := by
  rcases List.infix_cons_iff.1 h with hpre | hin
  · obtain ⟨-, hpre⟩ := List.cons_prefix_cons.1 hpre
    obtain ⟨-, hpre⟩ := List.cons_prefix_cons.1 hpre
    exact absurd (List.cons_prefix_cons.1 hpre).1.symm hb
  · exact blank_infix_cons (by decide) hin

/-- There is no blank line in a head before its end. -/
theorem not_blank_joinLines {l : Bytes} {ls : List Bytes} (hl : 13 ∉ l)
    (hls : ∀ m ∈ ls, m ≠ [] ∧ 13 ∉ m) : ¬ BLANK <:+: (joinLines l ls ++ BLANK).dropLast := by
  have hdrop : (joinLines l ls ++ BLANK).dropLast = joinLines l ls ++ [13, 10, 13] := by
    rw [List.dropLast_append_of_ne_nil (by decide)]
    rfl
  rw [hdrop]
  intro hin
  induction ls generalizing l with
  | nil =>
      rw [joinLines, List.flatMap_nil, List.append_nil] at hin
      exact absurd (blank_infix_append hl hin) (by decide)
  | cons m ls ih =>
      obtain ⟨hne, hm⟩ := hls m List.mem_cons_self
      obtain ⟨b, m, rfl⟩ := List.exists_cons_of_ne_nil hne
      have hb : b ≠ 13 := fun heq => hm (heq ▸ List.mem_cons_self)
      rw [joinLines_cons, List.append_assoc, List.append_assoc] at hin
      refine ih hm (fun n hn => hls n (List.mem_cons_of_mem _ hn)) ?_ ?_
      · rw [List.dropLast_append_of_ne_nil (by decide)]
        rfl
      · exact blank_infix_CRLF hb (blank_infix_append hl hin)

/-- A head is read up to its blank line, and nothing after it is. -/
theorem readHead_append {breaks : Bool} {head : Bytes}
    (hblank : ¬ BLANK <:+: (head ++ BLANK).dropLast)
    (hlength : (head ++ BLANK).length ≤ MAX_HEADER_BYTES + 1) (rest : Bytes) :
    readHead breaks (head ++ BLANK ++ rest) = .ok (head, [], rest) := by
  unfold readHead
  rw [Reader.readUntil_append (by decide) hblank hlength]
  rfl

/-! ## Numbers -/

theorem all_isDigit_digits (n : Nat) : (Decimal.digits n).all Decimal.isDigit = true :=
  List.all_eq_true.2 (Decimal.isDigit_of_mem_digits n)

theorem decimal_digits {n : Nat} (h : n ≤ USIZE_MAX) : decimal (Decimal.digits n) = some n := by
  simp [decimal, Decimal.digits_ne_nil, all_isDigit_digits, Decimal.ofDigits_digits, h]

theorem parseU16_digits {n : Nat} (h : n ≤ 65535) : parseU16 (Decimal.digits n) = some n := by
  have hsign : (Decimal.digits n).head? ≠ some 43 := by
    intro hhead
    have hdigit := Decimal.isDigit_of_mem_digits n 43 (List.mem_of_mem_head? hhead)
    exact absurd hdigit (by decide)
  simp [parseU16, hsign, Decimal.digits_ne_nil, all_isDigit_digits, Decimal.ofDigits_digits, h]

/-- A digit is plain, and no part of white space or a line end. -/
theorem isDigit_spec {b : UInt8} (h : Decimal.isDigit b = true) :
    (b < 128 ∧ [b] ∉ Text.whitespace) ∧ b ≠ 32 ∧ b ≠ 13 := by
  have hall : ∀ k : Fin 256, Decimal.isDigit (UInt8.ofFin k) = true →
      (UInt8.ofFin k < 128 ∧ [UInt8.ofFin k] ∉ Text.whitespace) ∧ UInt8.ofFin k ≠ 32 ∧
        UInt8.ofFin k ≠ 13 := by
    decide +kernel
  exact hall b.toFin h

theorem trim_digits (n : Nat) : Text.trim (Decimal.digits n) = Decimal.digits n := by
  have htrim : Text.trim (Decimal.digits n ++ []) = Decimal.digits n :=
    Text.trim_append (fun b hb => (isDigit_spec (Decimal.isDigit_of_mem_digits n b hb)).1)
      (fun _ hb => absurd hb List.not_mem_nil) (Decimal.digits_ne_nil n)
  rwa [List.append_nil] at htrim

/-! ## Header lines -/

/-- A header that is a line of its own and says nothing about the body: its parts are text, without
a line end or white space around them. -/
structure CleanHeader (h : Bytes × Bytes) : Prop where
  name_text : Utf8.valid h.1 = true
  value_text : Utf8.valid h.2 = true
  name_unbroken : 13 ∉ h.1 ∧ 10 ∉ h.1 ∧ 58 ∉ h.1
  value_unbroken : 13 ∉ h.2 ∧ 10 ∉ h.2
  name_trim : Text.trim h.1 = h.1
  value_trim : Text.trim h.2 = h.2
  not_length : toAsciiLowercase h.1 ≠ ascii "content-length"
  not_encoding : toAsciiLowercase h.1 ≠ ascii "transfer-encoding"

/-- A response that may be written: its status is a `u16`, and its headers are clean. -/
structure Response.Clean (r : Response) : Prop where
  status : r.status ≤ 65535
  headers : ∀ h ∈ r.headers, CleanHeader h

/-- The text of a header. -/
def headerText (h : Bytes × Bytes) : Bytes := h.1 ++ ascii ": " ++ h.2

/-- A header as it is read. -/
def lowered (h : Bytes × Bytes) : Bytes × Bytes := (toAsciiLowercase h.1, h.2)

/-- A header line is read as its name and its value. -/
theorem readField_headerText {maxBody : Nat} {f : Fields} {name value : Bytes} (hname : 58 ∉ name)
    (hnametrim : Text.trim name = name) (hvalue : Utf8.valid value = true)
    (hvaluetrim : Text.trim value = value) :
    readField maxBody f (headerText (name, value)) =
      (if toAsciiLowercase name = ascii "content-length" then
        readLength maxBody f.contentLength value else .ok f.contentLength).map fun contentLength =>
          { headers := f.headers ++ [lowered (name, value)], contentLength
            chunked := f.chunked ||
              (toAsciiLowercase name = ascii "transfer-encoding" && endsChunked value) } := by
  have hsplit : headerText (name, value) = name ++ 58 :: 32 :: value := by
    simp [headerText, ascii]
  have htrim : Text.trim (32 :: value) = value := by
    rw [Text.trim_cons hvalue (by decide), hvaluetrim]
  have hne : name ++ 58 :: 32 :: value ≠ [] := by simp
  rw [hsplit, readField, if_neg hne, Tracker.splitOnce_eq_some hname]
  simp only [hnametrim, htrim]
  rfl

theorem readField_clean {maxBody : Nat} {h : Bytes × Bytes} (hclean : CleanHeader h) (f : Fields) :
    readField maxBody f (headerText h) = .ok { f with headers := f.headers ++ [lowered h] } := by
  rw [readField_headerText hclean.name_unbroken.2.2 hclean.name_trim hclean.value_text
    hclean.value_trim, if_neg hclean.not_length]
  simp [Except.map, hclean.not_encoding]

/-- Clean headers are read one after another. -/
theorem foldlM_clean {maxBody : Nat} {hs : List (Bytes × Bytes)} (hclean : ∀ h ∈ hs, CleanHeader h)
    (f : Fields) : (hs.map headerText).foldlM (readField maxBody) f =
      .ok { f with headers := f.headers ++ hs.map lowered } := by
  induction hs generalizing f with
  | nil => simp [pure, Except.pure]
  | cons h hs ih =>
      rw [List.map_cons, List.foldlM_cons, readField_clean (hclean h List.mem_cons_self),
        Except.ok_bind, ih fun g hg => hclean g (List.mem_cons_of_mem _ hg)]
      simp

/-- The length that is written is read. -/
theorem readField_length {maxBody n : Nat} (hmax : n ≤ maxBody) (hrange : n ≤ USIZE_MAX)
    {f : Fields} (hf : f.contentLength = none) :
    readField maxBody f (headerText (ascii "Content-Length", Decimal.digits n)) =
      .ok { f with
        headers := f.headers ++ [(ascii "content-length", Decimal.digits n)]
        contentLength := some n } := by
  have hvalid : Utf8.valid (Decimal.digits n) = true := Utf8.valid_of_ascii fun b hb =>
    (isDigit_spec (Decimal.isDigit_of_mem_digits n b hb)).1.1
  have hlower : toAsciiLowercase (ascii "Content-Length") = ascii "content-length" := by decide
  have hnot : ascii "content-length" ≠ ascii "transfer-encoding" := by decide
  have hread : readLength maxBody none (Decimal.digits n) = .ok (some n) := by
    rw [readLength, decimal_digits hrange]
    simp [Nat.not_lt.2 hmax]
  rw [readField_headerText (by decide) (by decide) hvalid (trim_digits n), hf, hlower, if_pos rfl,
    hread]
  simp [Except.map, hnot, lowered, hlower]

theorem readField_connection (maxBody : Nat) (f : Fields) :
    readField maxBody f (headerText (ascii "Connection", ascii "close")) =
      .ok { f with headers := f.headers ++ [(ascii "connection", ascii "close")] } := by
  have hlower : toAsciiLowercase (ascii "Connection") = ascii "connection" := by decide
  have hlength : ascii "connection" ≠ ascii "content-length" := by decide
  have hencoding : ascii "connection" ≠ ascii "transfer-encoding" := by decide
  rw [readField_headerText (by decide) (by decide) (by decide) (by decide), hlower, if_neg hlength]
  simp [Except.map, hencoding, lowered, hlower]

/-! ## Status lines -/

/-- The status line of a response. -/
def statusLine (status : Nat) : Bytes :=
  ascii "HTTP/1.1 " ++ Decimal.digits status ++ ascii " " ++ reason status

theorem parseStatus_statusLine {status : Nat} (h : status ≤ 65535) :
    parseStatus (statusLine status) = .ok status := by
  have hspace : 32 ∉ Decimal.digits status := fun hin =>
    (isDigit_spec (Decimal.isDigit_of_mem_digits status 32 hin)).2.1 rfl
  have hsplit : (statusLine status).splitOn 32 =
      ascii "HTTP/1.1" :: Decimal.digits status :: (reason status).splitOn 32 := by
    have hparts : statusLine status =
        ascii "HTTP/1.1" ++ 32 :: (Decimal.digits status ++ 32 :: reason status) := by
      simp [statusLine, ascii]
    rw [hparts, List.splitOn_append_cons_self_of_not_mem (by decide),
      List.splitOn_append_cons_self_of_not_mem hspace]
  have hversion : (ascii "HTTP/1.").isPrefixOf (ascii "HTTP/1.1") = true := by decide
  simp only [parseStatus, hsplit, hversion, Bool.not_true, Bool.false_eq_true, if_false,
    parseU16_digits h]
  rfl

/-- A reason phrase is plain. -/
theorem reason_plain (status : Nat) : ∀ b ∈ reason status, b < 128 ∧ b ≠ 13 := by
  have hplain : ((reason status).all fun b => decide (b < 128 ∧ b ≠ 13)) = true := by
    unfold reason
    split <;> decide
  simpa only [List.all_eq_true, decide_eq_true_eq] using hplain

theorem statusLine_plain (status : Nat) : ∀ b ∈ statusLine status, b < 128 ∧ b ≠ 13 := by
  intro b hb
  have hfixed : ∀ s : String, (ascii s).all (fun b => decide (b < 128 ∧ b ≠ 13)) = true →
      ∀ b ∈ ascii s, b < 128 ∧ b ≠ 13 := fun s hs b hb =>
    of_decide_eq_true (List.all_eq_true.1 hs b hb)
  simp only [statusLine, List.mem_append] at hb
  rcases hb with ((hb | hb) | hb) | hb
  · exact hfixed _ (by decide) b hb
  · have hspec := isDigit_spec (Decimal.isDigit_of_mem_digits status b hb)
    exact ⟨hspec.1.1, hspec.2.2⟩
  · exact hfixed _ (by decide) b hb
  · exact reason_plain status b hb

/-! ## Responses -/

/-- The headers of a response that are written after its own. -/
def Response.added (r : Response) : List (Bytes × Bytes) :=
  [(ascii "Content-Length", Decimal.digits r.body.length), (ascii "Connection", ascii "close")]

/-- The head of a response. -/
def Response.head (r : Response) : Bytes :=
  joinLines (statusLine r.status) ((r.headers ++ r.added).map headerText)

/-- A line end before each line, or after each. -/
theorem flatMap_headerLine (l : Bytes) (hs : List (Bytes × Bytes)) :
    l ++ CRLF ++ hs.flatMap headerLine = joinLines l (hs.map headerText) ++ CRLF := by
  induction hs generalizing l with
  | nil => simp [joinLines]
  | cons h hs ih =>
      have hline : headerLine h = headerText h ++ CRLF := rfl
      rw [List.flatMap_cons, hline, List.map_cons, joinLines_cons, List.append_assoc _ _ CRLF, ← ih]

/-- What is written is the head, a blank line and the body. -/
theorem Response.encode_eq {r : Response} (hr : r.Clean) :
    r.encode = r.head ++ BLANK ++ r.body := by
  have hnone : (r.headers.any fun h => toAsciiLowercase h.1 = ascii "content-length") = false := by
    rw [List.any_eq_false]
    exact fun h hh => by simpa using (hr.headers h hh).not_length
  have hadded : r.added.flatMap headerLine = ascii "Content-Length: " ++
      Decimal.digits r.body.length ++ CRLF ++ (ascii "Connection: close" ++ CRLF) := by
    simp [Response.added, headerLine, ascii]
  have hlines := flatMap_headerLine (statusLine r.status) (r.headers ++ r.added)
  rw [List.flatMap_append, hadded] at hlines
  have hblank : BLANK = CRLF ++ CRLF := rfl
  rw [Response.head, hblank, ← List.append_assoc, ← hlines]
  simp only [Response.encode, hnone, Bool.false_eq_true, if_false, statusLine, List.append_assoc]

theorem CleanHeader.line {h : Bytes × Bytes} (hh : CleanHeader h) :
    Utf8.valid (headerText h) = true ∧ headerText h ≠ [] ∧ 13 ∉ headerText h := by
  refine ⟨?_, by simp [headerText, ascii], ?_⟩
  · exact Utf8.valid_append (Utf8.valid_append hh.name_text (by decide)) hh.value_text
  · have hcolon : 13 ∉ ascii ": " := by decide
    simp only [headerText, List.mem_append, not_or]
    exact ⟨⟨hh.name_unbroken.1, hcolon⟩, hh.value_unbroken.1⟩

/-- The lines of a head are text, and no line ends in one. -/
theorem Response.lines_plain {r : Response} (hr : r.Clean) :
    ∀ m ∈ (r.headers ++ r.added).map headerText, Utf8.valid m = true ∧ m ≠ [] ∧ 13 ∉ m := by
  intro m hm
  obtain ⟨h, hh, rfl⟩ := List.mem_map.1 hm
  rcases List.mem_append.1 hh with hh | hh
  · exact (hr.headers h hh).line
  · simp only [Response.added, List.mem_cons, List.not_mem_nil, or_false] at hh
    rcases hh with rfl | rfl
    · have hdigits := fun b hb => isDigit_spec (Decimal.isDigit_of_mem_digits r.body.length b hb)
      have hname : Utf8.valid (ascii "Content-Length" ++ ascii ": ") = true ∧
          13 ∉ ascii "Content-Length" ++ ascii ": " := by decide
      refine ⟨?_, by simp [headerText, ascii], ?_⟩
      · exact Utf8.valid_append hname.1 (Utf8.valid_of_ascii fun b hb => (hdigits b hb).1.1)
      · rw [headerText, List.mem_append, not_or]
        exact ⟨hname.2, fun hin => (hdigits 13 hin).2.2 rfl⟩
    · decide

theorem valid_joinLines {l : Bytes} {ls : List Bytes} (hl : Utf8.valid l = true)
    (hls : ∀ m ∈ ls, Utf8.valid m = true) : Utf8.valid (joinLines l ls) = true := by
  induction ls generalizing l with
  | nil => simpa [joinLines] using hl
  | cons m ls ih =>
      rw [joinLines_cons]
      exact Utf8.valid_append (Utf8.valid_append hl (by decide))
        (ih (hls m List.mem_cons_self) fun n hn => hls n (List.mem_cons_of_mem _ hn))

/-- The head that is written is read as the status and the headers. -/
theorem parseHead_head {maxBody : Nat} {r : Response} (hr : r.Clean)
    (hmax : r.body.length ≤ maxBody) (hrange : r.body.length ≤ USIZE_MAX) :
    parseHead maxBody r.head = .ok (r.status,
      { headers := (r.headers ++ r.added).map lowered
        contentLength := some r.body.length
        chunked := false }) := by
  have hstatus := statusLine_plain r.status
  have hvalid : Utf8.valid r.head = true :=
    valid_joinLines (Utf8.valid_of_ascii fun b hb => (hstatus b hb).1)
      fun m hm => (r.lines_plain hr m hm).1
  have hlines : lines r.head = statusLine r.status :: (r.headers ++ r.added).map headerText := by
    refine lines_joinLines fun m hm => ?_
    rcases List.mem_cons.1 hm with rfl | hm
    · exact fun hin => (hstatus 13 hin).2 rfl
    · exact (r.lines_plain hr m hm).2.2
  have hfields : ((r.headers ++ r.added).map headerText).foldlM (readField maxBody)
      ⟨[], none, false⟩ = .ok
        { headers := (r.headers ++ r.added).map lowered
          contentLength := some r.body.length
          chunked := false } := by
    rw [List.map_append, List.foldlM_append, foldlM_clean hr.headers, Except.ok_bind, Response.added,
      List.map_cons, List.map_cons, List.map_nil, List.foldlM_cons, readField_length hmax hrange rfl,
      Except.ok_bind, List.foldlM_cons, readField_connection, Except.ok_bind, List.foldlM_nil]
    have hlower : toAsciiLowercase (ascii "Content-Length") = ascii "content-length" ∧
        toAsciiLowercase (ascii "Connection") = ascii "connection" := by decide
    simp [pure, Except.pure, lowered, hlower]
  simp only [parseHead, hvalid, hlines, hfields, parseStatus_statusLine hr.status, Bool.not_true,
    Bool.false_eq_true, if_false]
  rfl

/-- A response that is written is read back, and nothing after its body is. -/
theorem readResponse_encode {breaks : Bool} {maxBody : Nat} {r : Response} (hr : r.Clean)
    (hmax : r.body.length ≤ maxBody) (hvec : r.body.length ≤ ISIZE_MAX)
    (hhead : r.encode.length ≤ MAX_HEADER_BYTES + 1 + r.body.length) (rest : Bytes) :
    readResponse breaks maxBody (r.encode ++ rest) =
      .ok ({ r with headers := (r.headers ++ r.added).map lowered }, rest) := by
  have hrange : ISIZE_MAX ≤ USIZE_MAX := by decide
  have hplain := r.lines_plain hr
  have hblank : ¬ BLANK <:+: (r.head ++ BLANK).dropLast :=
    not_blank_joinLines (fun hin => (statusLine_plain r.status 13 hin).2 rfl)
      fun m hm => (hplain m hm).2
  rw [Response.encode_eq hr, List.length_append] at hhead
  have hfill : fill breaks 0 r.body.length (r.body ++ rest) = .ok (r.body, rest) :=
    fill_append (by omega) rest
  rw [Response.encode_eq hr, List.append_assoc, readResponse, readHead_append hblank (by omega)]
  simp only [Except.bind]
  rw [parseHead_head hr hmax (hvec.trans hrange)]
  simp only [Bool.false_eq_true, if_false, readBody, hfill]
  rfl

/-- A chunked body after a head that says so is read as the body that was cut, and nothing after
its final blank line is. -/
theorem readResponse_chunked {breaks : Bool} {maxBody status : Nat} {head : Bytes} {f : Fields}
    (hblank : ¬ BLANK <:+: (head ++ BLANK).dropLast)
    (hlength : (head ++ BLANK).length ≤ MAX_HEADER_BYTES + 1)
    (hparse : parseHead maxBody head = .ok (status, f)) (hchunked : f.chunked = true) (c : Chunked)
    (hmax : c.body.length ≤ maxBody) (hvec : c.body.length ≤ ISIZE_MAX) (rest : Bytes) :
    readResponse breaks maxBody (head ++ BLANK ++ (c.encode ++ rest)) =
      .ok (⟨status, f.headers, c.body⟩, rest) := by
  rw [readResponse, readHead_append hblank hlength]
  simp only [Except.bind, hparse, hchunked, if_true, readChunkedBody_encode c hmax hvec]
  rfl

/-- Reading is exact and bounded: no body is longer than was allowed; a body that is cut into chunks
is read back with the stream left after its final blank line, alone and after any head that says it
is chunked; and a clean response is read back as it was written, with the headers that were
added. -/
theorem reading_exact :
    (∀ breaks maxBody s r rest, readResponse breaks maxBody s = .ok (r, rest) →
      r.body.length ≤ maxBody) ∧
    (∀ breaks maxBody body (c : Chunked) rest, c.body = body → body.length ≤ maxBody →
      body.length ≤ ISIZE_MAX →
        readChunkedBody breaks maxBody (c.encode ++ rest) = .ok (body, rest) ∧
        ∀ head status f, ¬ BLANK <:+: (head ++ BLANK).dropLast →
          (head ++ BLANK).length ≤ MAX_HEADER_BYTES + 1 →
          parseHead maxBody head = .ok (status, f) → f.chunked = true →
          readResponse breaks maxBody (head ++ BLANK ++ (c.encode ++ rest)) =
            .ok (⟨status, f.headers, body⟩, rest)) ∧
    ∀ breaks maxBody (r : Response) rest, r.Clean → r.body.length ≤ maxBody →
      r.body.length ≤ ISIZE_MAX → r.encode.length ≤ MAX_HEADER_BYTES + 1 + r.body.length →
      readResponse breaks maxBody (r.encode ++ rest) =
        .ok (⟨r.status, r.headers.map lowered ++
          [(ascii "content-length", Decimal.digits r.body.length),
            (ascii "connection", ascii "close")], r.body⟩, rest) := by
  refine ⟨fun _ _ _ _ _ => body_le, ?_, ?_⟩
  · rintro breaks maxBody body c rest rfl hmax hvec
    exact ⟨readChunkedBody_encode c hmax hvec rest, fun head status f hblank hlength hparse hchunked =>
      readResponse_chunked hblank hlength hparse hchunked c hmax hvec rest⟩
  · intro breaks maxBody r rest hr hmax hvec hhead
    have hlower : toAsciiLowercase (ascii "Content-Length") = ascii "content-length" ∧
        toAsciiLowercase (ascii "Connection") = ascii "connection" := by decide
    rw [readResponse_encode hr hmax hvec hhead, List.map_append]
    simp [Response.added, lowered, hlower]

/-- A chunk with an extension, the last with a trailer after it. -/
def cut : Chunked where
  chunks := [{
    digits := ascii "04", blank := [32], ext := ascii ";name=value", data := ascii "abcd"
    digits_ne := by decide
    digits_hex := List.all_eq_true.1 (by decide)
    blank_space := fun b hb => .inl (List.mem_singleton.1 hb)
    ext_mark := .inr ⟨ascii "name=value", by decide⟩
    fits := ⟨by decide, by decide⟩
    data_ne := by decide
    size_eq := by decide }]
  last := {
    digits := ascii "0", blank := [], ext := []
    digits_ne := by decide
    digits_hex := List.all_eq_true.1 (by decide)
    blank_space := fun b hb => absurd hb List.not_mem_nil
    ext_mark := .inl rfl
    fits := ⟨by decide, by decide⟩ }
  last_zero := by decide
  trailers := [ascii "X-Trailer: yes"]
  trailers_line := by
    intro t ht
    obtain rfl := List.mem_singleton.1 ht
    exact ⟨by decide, by decide, by decide⟩
  trailers_le := by decide

theorem reading_exact_cut :
    readResponse false 4 (ascii "HTTP/1.1 200 OK" ++ CRLF ++
      ascii "Content-Length: 2" ++ CRLF ++ ascii "Transfer-Encoding: gzip, Chunked" ++ BLANK ++
      (cut.encode ++ ascii "rest")) =
      .ok (⟨200, [(ascii "content-length", ascii "2"),
        (ascii "transfer-encoding", ascii "gzip, Chunked")], ascii "abcd"⟩, ascii "rest") :=
  (reading_exact.2.1 false 4 (ascii "abcd") cut (ascii "rest") (by decide) (by decide)
    (by decide)).2 _ 200 ⟨[(ascii "content-length", ascii "2"),
      (ascii "transfer-encoding", ascii "gzip, Chunked")], some 2, true⟩ (by decide +kernel)
      (by decide +kernel) (by decide +kernel) rfl

end Clove.Http
