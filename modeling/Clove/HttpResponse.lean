import Clove.AnnounceRequest
import Clove.Lib.Outcome
import Clove.Lib.Reader

/-!
# Responses

The model of the other half of `http.rs`: reading a response from a stream, and the text of one.
The stream is what is left of it, and `breaks` says whether an I/O error or a close is what ends
it.  A body that is read is no longer than was allowed (`body_le`), a chunked body is read as the
bytes its chunks carry (`readChunkedBody_encode`), and a response that is written is read back
(`readResponse_encode`).
-/

namespace Clove.Http

open Utf8 (ascii)
open TrackerUrl (toAsciiLowercase)

/-! ## Reading -/

/-- A parsed HTTP response. -/
structure Response where
  status : Nat
  headers : List (Bytes × Bytes)
  body : Bytes
deriving Repr, DecidableEq

/-- Why a response could not be read.  `capacity` is the panic of a vector asked to hold more than
one may. -/
inductive Error where
  | io
  | badResponse (what : String)
  | bodyTooLarge
  | capacity
deriving Repr, DecidableEq

/-- `usize::MAX`. -/
def USIZE_MAX : Nat := 18446744073709551615

/-- The bytes a vector may hold, `isize::MAX`. -/
def ISIZE_MAX : Nat := 9223372036854775807

/-- Largest header section buffered. -/
def MAX_HEADER_BYTES : Nat := 16 * 1024

/-- Longest line of a chunked body buffered. -/
def MAX_CHUNK_LINE : Nat := 1024

/-- Cap on the bytes of the trailers. -/
def MAX_TRAILER_BYTES : Nat := 8 * 1024

/-- The blank line after a head, with the end of the line before it. -/
def BLANK : Bytes := CRLF ++ CRLF

/-- What a reader that reads up to a mark says. -/
def fault (long closed : String) : Reader.Fault → Error
  | .tooLong => .badResponse long
  | .closed => .badResponse closed
  | .broken => .io

/-- Read up to the blank line that ends the head: the head, what is buffered past it, which is
nothing, and the stream. -/
def readHead (breaks : Bool) (s : Bytes) : Except Error (Bytes × Bytes × Bytes) :=
  ((Reader.readUntil breaks BLANK MAX_HEADER_BYTES [] s).mapError
    (fault "header section too large" "connection closed before end of head")).map
      fun r => (r.1, [], r.2)

/-- Read one line, without its end. -/
def readLine (breaks : Bool) (cap : Nat) (s : Bytes) : Except Error (Bytes × Bytes) :=
  (Reader.readUntil breaks CRLF cap [] s).mapError (fault "line too long" "connection closed mid-line")

/-- Room for some bytes, and the bytes read into it: `resize` and `read_exact`. -/
def fill (breaks : Bool) (held n : Nat) (s : Bytes) : Except Error (Bytes × Bytes) :=
  if ISIZE_MAX < held + n then .error .capacity
  else (Reader.readExact breaks n s).mapError fun _ => .io

/-- A `Content-Length` value. -/
def decimal (value : Bytes) : Option Nat :=
  if value = [] || !value.all Decimal.isDigit then none
  else
    let n := Decimal.ofDigits 0 value
    if n ≤ USIZE_MAX then some n else none

/-- A chunk-size value. -/
def hex (value : Bytes) : Option Nat :=
  if value = [] || !value.all TrackerUrl.isHexDigit then none
  else
    let n := Hex.ofDigits 0 value
    if n ≤ USIZE_MAX then some n else none

/-- The size a chunk line says.  Extensions are parsed off and ignored. -/
def chunkSize (line : Bytes) : Except Error Nat :=
  let sizeText := line.takeWhile (· ≠ 59)
  if !Utf8.valid sizeText then .error (.badResponse "non-UTF-8 chunk size")
  else (hex (Text.trim sizeText)).elim (.error (.badResponse "bad chunk size")) .ok

/-- One chunk: the body with it, or nothing if it is the last. -/
def readChunk (breaks : Bool) (maxBody : Nat) (body s : Bytes) :
    Except Error (Option Bytes × Bytes) :=
  (readLine breaks MAX_CHUNK_LINE s).bind fun r =>
    (chunkSize r.1).bind fun size =>
      if size = 0 then .ok (none, r.2)
      else if maxBody < min (body.length + size) USIZE_MAX then .error .bodyTooLarge
      else
        (fill breaks body.length size r.2).bind fun d =>
          (readLine breaks MAX_CHUNK_LINE d.2).bind fun after =>
            if after.1 ≠ [] then .error (.badResponse "chunk not terminated by CRLF")
            else .ok (some (body ++ d.1), after.2)

theorem readLine_lt {breaks : Bool} {cap : Nat} {s line rest : Bytes}
    (h : readLine breaks cap s = .ok (line, rest)) : rest.length < s.length :=
  Reader.readUntil_lt (Except.ok_of_mapError h)

/-- What is filled is as long as asked, and fits. -/
theorem of_fill {breaks : Bool} {held n : Nat} {s data rest : Bytes}
    (h : fill breaks held n s = .ok (data, rest)) :
    held + n ≤ ISIZE_MAX ∧ data.length = n ∧ rest.length ≤ s.length := by
  unfold fill at h
  split at h
  · cases h
  · rename_i hfits
    exact ⟨Nat.le_of_not_lt hfits, Reader.readExact_length (Except.ok_of_mapError h)⟩

/-- A chunk that is read is on the stream, and fits. -/
theorem of_readChunk {breaks : Bool} {maxBody : Nat} {body s rest : Bytes} {read : Option Bytes}
    (h : readChunk breaks maxBody body s = .ok (read, rest)) :
    rest.length < s.length ∧ ∀ body', read = some body' → body'.length ≤ maxBody := by
  obtain ⟨⟨line, s₁⟩, hline, h⟩ := Except.ok_of_bind h
  obtain ⟨size, -, h⟩ := Except.ok_of_bind h
  have hshort := readLine_lt hline
  split at h
  · obtain ⟨rfl, rfl⟩ := Prod.mk.inj (Except.ok.inj h)
    exact ⟨hshort, fun _ hnone => nomatch hnone⟩
  · split at h
    · cases h
    · rename_i hcap
      obtain ⟨⟨data, s₂⟩, hfill, h⟩ := Except.ok_of_bind h
      obtain ⟨⟨after, s₃⟩, hafter, h⟩ := Except.ok_of_bind h
      obtain ⟨hfits, hlength, hrest⟩ := of_fill hfill
      have hmore := readLine_lt hafter
      split at h
      · cases h
      · obtain ⟨rfl, rfl⟩ := Prod.mk.inj (Except.ok.inj h)
        refine ⟨hmore.trans_le (hrest.trans hshort.le), ?_⟩
        rintro body' hbody
        obtain rfl := Option.some.inj hbody
        -- the sum is below what a vector may hold, so it was not cut off
        have : ISIZE_MAX < USIZE_MAX := by decide
        rw [List.length_append, hlength]
        omega

/-- The chunks up to the last: the body they carry. -/
def readChunks (breaks : Bool) (maxBody : Nat) (body s : Bytes) : Except Error (Bytes × Bytes) :=
  match _h : readChunk breaks maxBody body s with
  | .error e => .error e
  | .ok (none, rest) => .ok (body, rest)
  | .ok (some body', rest) => readChunks breaks maxBody body' rest
termination_by s.length
decreasing_by exact (of_readChunk _h).1

/-- The trailers and the blank line after them: what is left of the stream. -/
def readTrailers (breaks : Bool) (trailerBytes : Nat) (s : Bytes) : Except Error Bytes :=
  match _h : readLine breaks MAX_CHUNK_LINE s with
  | .error e => .error e
  | .ok (line, rest) =>
      if line = [] then .ok rest
      else if MAX_TRAILER_BYTES < min (trailerBytes + line.length) USIZE_MAX then
        .error (.badResponse "trailer section too large")
      else readTrailers breaks (min (trailerBytes + line.length) USIZE_MAX) rest
termination_by s.length
decreasing_by exact readLine_lt _h

/-- Decode a chunked body. -/
def readChunkedBody (breaks : Bool) (maxBody : Nat) (s : Bytes) : Except Error (Bytes × Bytes) :=
  (readChunks breaks maxBody [] s).bind fun r => (readTrailers breaks 0 r.2).map fun rest => (r.1, rest)

/-- Read a body of a length that was said, or up to the close. -/
def readBody (breaks : Bool) (body : Bytes) (contentLength : Option Nat) (maxBody : Nat) (s : Bytes) :
    Except Error (Bytes × Bytes) :=
  match contentLength with
  | some len => fill breaks 0 len s
  | none =>
      ((Reader.readToEnd breaks 4096 maxBody body s).mapError fun f =>
        if f = .tooLong then .bodyTooLarge else .io).map fun body => (body, [])

/-! ## Heads -/

/-- A number written as `u16` reads it: a plus sign may lead. -/
def parseU16 (s : Bytes) : Option Nat :=
  let t := if s.head? = some 43 then s.tail else s
  if t = [] || !t.all Decimal.isDigit then none
  else
    let n := Decimal.ofDigits 0 t
    if n ≤ 65535 then some n else none

/-- The status a status line says. -/
def parseStatus (line : Bytes) : Except Error Nat :=
  match line.splitOn 32 with
  | [] => .error (.badResponse "no version")
  | version :: parts =>
      if !(ascii "HTTP/1.").isPrefixOf version then .error (.badResponse "not HTTP/1.x")
      else
        match parts with
        | [] => .error (.badResponse "no status code")
        | code :: _ => (parseU16 code).elim (.error (.badResponse "non-numeric status code")) .ok

/-- What the header lines read so far say. -/
structure Fields where
  headers : List (Bytes × Bytes)
  contentLength : Option Nat
  chunked : Bool
deriving Repr, DecidableEq

/-- The length a `Content-Length` header says, beside one that was said before. -/
def readLength (maxBody : Nat) (seen : Option Nat) (value : Bytes) : Except Error (Option Nat) :=
  match decimal value with
  | none => .error (.badResponse "bad content-length")
  | some n =>
      if maxBody < n then .error .bodyTooLarge
      else if seen.any (· ≠ n) then .error (.badResponse "conflicting content-length")
      else .ok (some n)

/-- Whether the last of some encodings is `chunked`. -/
def endsChunked (value : Bytes) : Bool :=
  (value.splitOn 44).getLast?.any fun last => toAsciiLowercase (Text.trim last) = ascii "chunked"

/-- One header line. -/
def readField (maxBody : Nat) (f : Fields) (line : Bytes) : Except Error Fields :=
  if line = [] then .ok f
  else
    match Magnet.splitOnce 58 line with
    | none => .error (.badResponse "header without a colon")
    | some (name, value) =>
        let name := toAsciiLowercase (Text.trim name)
        let value := Text.trim value
        (if name = ascii "content-length" then readLength maxBody f.contentLength value
          else .ok f.contentLength).map fun contentLength =>
            { headers := f.headers ++ [(name, value)], contentLength
              chunked := f.chunked || (name = ascii "transfer-encoding" && endsChunked value) }

/-- What a head says. -/
def parseHead (maxBody : Nat) (head : Bytes) : Except Error (Nat × Fields) :=
  if !Utf8.valid head then .error (.badResponse "non-UTF-8 head")
  else
    match lines head with
    | [] => .error (.badResponse "empty response")
    | statusLine :: rest =>
        (parseStatus statusLine).bind fun status =>
          (rest.foldlM (readField maxBody) ⟨[], none, false⟩).map fun f => (status, f)

/-- Read and parse one response: the response, and what is left of the stream. -/
def readResponse (breaks : Bool) (maxBody : Nat) (s : Bytes) : Except Error (Response × Bytes) :=
  (readHead breaks s).bind fun r =>
    (parseHead maxBody r.1).bind fun p =>
      (if p.2.chunked then readChunkedBody breaks maxBody r.2.2
        else readBody breaks r.2.1 p.2.contentLength maxBody r.2.2).map fun b =>
          (⟨p.1, p.2.headers, b.1⟩, b.2)

/-! ## Writing -/

/-- The reason phrase for a status code. -/
def reason (status : Nat) : Bytes :=
  match status with
  | 200 => ascii "OK"
  | 201 => ascii "Created"
  | 204 => ascii "No Content"
  | 400 => ascii "Bad Request"
  | 401 => ascii "Unauthorized"
  | 403 => ascii "Forbidden"
  | 404 => ascii "Not Found"
  | 405 => ascii "Method Not Allowed"
  | 409 => ascii "Conflict"
  | 500 => ascii "Internal Server Error"
  | _ => []

/-- The text of a response. -/
def Response.encode (r : Response) : Bytes :=
  ascii "HTTP/1.1 " ++ Decimal.digits r.status ++ ascii " " ++ reason r.status ++ CRLF ++
    r.headers.flatMap headerLine ++
    (if r.headers.any fun h => toAsciiLowercase h.1 = ascii "content-length" then []
      else ascii "Content-Length: " ++ Decimal.digits r.body.length ++ CRLF) ++
    ascii "Connection: close" ++ CRLF ++ CRLF ++ r.body

/-! ## Bounds -/

theorem readChunks_length {breaks : Bool} {maxBody : Nat} {body s body' rest : Bytes}
    (hbody : body.length ≤ maxBody) (h : readChunks breaks maxBody body s = .ok (body', rest)) :
    body'.length ≤ maxBody := by
  fun_induction readChunks breaks maxBody body s with
  | case1 body s e hread => cases h
  | case2 body s after hread =>
      obtain ⟨rfl, -⟩ := Prod.mk.inj (Except.ok.inj h)
      exact hbody
  | case3 body s longer after hread ih => exact ih ((of_readChunk hread).2 longer rfl) h

theorem readChunkedBody_length {breaks : Bool} {maxBody : Nat} {s body rest : Bytes}
    (h : readChunkedBody breaks maxBody s = .ok (body, rest)) : body.length ≤ maxBody := by
  obtain ⟨⟨read, s'⟩, hchunks, h⟩ := Except.ok_of_bind h
  obtain ⟨_, -, h⟩ := Except.ok_of_map h
  obtain ⟨rfl, -⟩ := Prod.mk.inj h
  exact readChunks_length (Nat.zero_le _) hchunks

/-- A length that was said is allowed. -/
def Fields.Allowed (maxBody : Nat) (f : Fields) : Prop := ∀ n, f.contentLength = some n → n ≤ maxBody

theorem readLength_le {maxBody : Nat} {seen length : Option Nat} {value : Bytes}
    (h : readLength maxBody seen value = .ok length) : ∀ n, length = some n → n ≤ maxBody := by
  unfold readLength at h
  split at h
  · cases h
  · split at h
    · cases h
    · rename_i hle
      split at h
      · cases h
      · obtain rfl := Except.ok.inj h
        intro n hn
        obtain rfl := Option.some.inj hn
        exact Nat.le_of_not_lt hle

theorem Fields.Allowed.readField {maxBody : Nat} {f f' : Fields} {line : Bytes}
    (h : Http.readField maxBody f line = .ok f') (hf : f.Allowed maxBody) : f'.Allowed maxBody := by
  unfold Http.readField at h
  split at h
  · obtain rfl := Except.ok.inj h
    exact hf
  · split at h
    · cases h
    · obtain ⟨length, hlength, rfl⟩ := Except.ok_of_map h
      split at hlength
      · exact readLength_le hlength
      · obtain rfl := Except.ok.inj hlength
        exact hf

theorem parseHead_allowed {maxBody status : Nat} {head : Bytes} {f : Fields}
    (h : parseHead maxBody head = .ok (status, f)) : f.Allowed maxBody := by
  unfold parseHead at h
  split at h
  · cases h
  · split at h
    · cases h
    · obtain ⟨_, -, h⟩ := Except.ok_of_bind h
      obtain ⟨f', hfields, h⟩ := Except.ok_of_map h
      obtain ⟨-, rfl⟩ := Prod.mk.inj h
      exact Except.foldlM_keeps (fun _ _ _ => Fields.Allowed.readField) hfields
        fun _ hnone => nomatch hnone

theorem readBody_length {breaks : Bool} {maxBody : Nat} {length : Option Nat} {s body rest : Bytes}
    (hlength : ∀ n, length = some n → n ≤ maxBody)
    (h : readBody breaks [] length maxBody s = .ok (body, rest)) : body.length ≤ maxBody := by
  cases length with
  | some n =>
      rw [(of_fill h).2.1]
      exact hlength n rfl
  | none =>
      obtain ⟨read, hread, h⟩ := Except.ok_of_map h
      obtain ⟨rfl, -⟩ := Prod.mk.inj h
      exact Reader.readToEnd_length (Nat.zero_le _) (Except.ok_of_mapError hread)

/-- Whatever a head says, the body that is read is no longer than was allowed. -/
theorem body_le {breaks : Bool} {maxBody : Nat} {s rest : Bytes} {r : Response}
    (h : readResponse breaks maxBody s = .ok (r, rest)) : r.body.length ≤ maxBody := by
  obtain ⟨⟨head, buffered, s'⟩, hhead, h⟩ := Except.ok_of_bind h
  obtain ⟨⟨status, f⟩, hparse, h⟩ := Except.ok_of_bind h
  obtain ⟨⟨body, left⟩, hbody, h⟩ := Except.ok_of_map h
  obtain ⟨rfl, rfl⟩ := Prod.mk.inj h
  -- nothing was buffered past the head
  obtain ⟨_, -, hempty⟩ := Except.ok_of_map hhead
  obtain ⟨-, hempty⟩ := Prod.mk.inj hempty
  obtain ⟨rfl, -⟩ := Prod.mk.inj hempty
  split at hbody
  · exact readChunkedBody_length hbody
  · exact readBody_length (parseHead_allowed hparse) hbody

/-! ## Chunks -/

/-- A line of a chunked body that is within the limit. -/
structure ShortLine (line : Bytes) : Prop where
  unbroken : ¬ CRLF <:+: line
  short : line.length < MAX_CHUNK_LINE

/-- A line that says a size: hex digits of either case, spaces, and extensions. -/
structure ChunkLine where
  digits : Bytes
  blank : Bytes
  ext : Bytes
  digits_ne : digits ≠ []
  digits_hex : ∀ b ∈ digits, TrackerUrl.isHexDigit b = true
  blank_space : ∀ b ∈ blank, b = 32 ∨ b = 9
  ext_mark : ext = [] ∨ ∃ e, ext = 59 :: e
  fits : ShortLine (digits ++ blank ++ ext)

def ChunkLine.line (c : ChunkLine) : Bytes := c.digits ++ c.blank ++ c.ext

theorem ChunkLine.shortLine (c : ChunkLine) : ShortLine c.line := c.fits

def ChunkLine.size (c : ChunkLine) : Nat := Hex.ofDigits 0 c.digits

/-- A chunk that is not the last. -/
structure Chunk extends ChunkLine where
  data : Bytes
  data_ne : data ≠ []
  size_eq : toChunkLine.size = data.length

def Chunk.encode (c : Chunk) : Bytes := c.line ++ CRLF ++ c.data ++ CRLF

/-- A way to cut a body into chunks, with what follows them. -/
structure Chunked where
  chunks : List Chunk
  last : ChunkLine
  last_zero : last.size = 0
  trailers : List Bytes
  trailers_line : ∀ t ∈ trailers, t ≠ [] ∧ ShortLine t
  trailers_le : (trailers.map List.length).sum ≤ MAX_TRAILER_BYTES

/-- The body that was cut. -/
def Chunked.body (c : Chunked) : Bytes := c.chunks.flatMap Chunk.data

/-- The bytes of a chunked body, up to and with the final blank line. -/
def Chunked.encode (c : Chunked) : Bytes :=
  c.chunks.flatMap Chunk.encode ++ c.last.line ++ CRLF ++
    c.trailers.flatMap (fun t => t ++ CRLF) ++ CRLF

/-- A line is read, and nothing after it. -/
theorem readLine_append {breaks : Bool} {line : Bytes} (hline : ShortLine line) (rest : Bytes) :
    readLine breaks MAX_CHUNK_LINE (line ++ CRLF ++ rest) = .ok (line, rest) := by
  have hnot : ¬ CRLF <:+: (line ++ CRLF).dropLast := by
    have hdrop : (line ++ CRLF).dropLast = line ++ [13] := by
      rw [List.dropLast_append_of_ne_nil (by decide)]
      rfl
    rw [hdrop, List.infix_concat_iff, not_or]
    refine ⟨?_, hline.unbroken⟩
    rintro ⟨before, hbefore⟩
    have hlast := congrArg List.getLast? hbefore
    simp [CRLF] at hlast
  have hcap : (line ++ CRLF).length ≤ MAX_CHUNK_LINE + 1 := by
    have hshort := hline.short
    rw [List.length_append]
    exact Nat.succ_le_succ hshort
  unfold readLine
  rw [Reader.readUntil_append (by decide) hnot hcap]
  rfl

theorem fill_append {breaks : Bool} {held : Nat} {data : Bytes}
    (hfits : held + data.length ≤ ISIZE_MAX) (rest : Bytes) :
    fill breaks held data.length (data ++ rest) = .ok (data, rest) := by
  rw [fill, if_neg (Nat.not_lt.2 hfits), Reader.readExact_append]
  rfl

/-- A digit is plain, and no part of white space or an extension. -/
theorem isHexDigit_spec : ∀ b : UInt8, TrackerUrl.isHexDigit b = true →
    (b < 128 ∧ [b] ∉ Text.whitespace) ∧ b ≠ 59 := by
  have hall : ∀ k : Fin 256, TrackerUrl.isHexDigit (UInt8.ofFin k) = true →
      (UInt8.ofFin k < 128 ∧ [UInt8.ofFin k] ∉ Text.whitespace) ∧ UInt8.ofFin k ≠ 59 := by
    decide +kernel
  exact fun b => hall b.toFin

theorem blank_spec {b : UInt8} (h : b = 32 ∨ b = 9) :
    (b < 128 ∧ [b] ∈ Text.whitespace) ∧ b ≠ 59 := by
  rcases h with rfl | rfl
  · decide
  · decide

theorem hex_digits {digits : Bytes} (hne : digits ≠ [])
    (hhex : ∀ b ∈ digits, TrackerUrl.isHexDigit b = true)
    (hsize : Hex.ofDigits 0 digits ≤ USIZE_MAX) : hex digits = some (Hex.ofDigits 0 digits) := by
  have hall : digits.all TrackerUrl.isHexDigit = true := List.all_eq_true.2 hhex
  simp [hex, hne, hall, hsize]

/-- The size a chunk line says is read. -/
theorem chunkSize_line {c : ChunkLine} (hsize : c.size ≤ USIZE_MAX) :
    chunkSize c.line = .ok c.size := by
  have hplain : ∀ b ∈ c.digits ++ c.blank, b < 128 ∧ b ≠ 59 := by
    intro b hb
    rcases List.mem_append.1 hb with hb | hb
    · obtain ⟨⟨hascii, -⟩, hmark⟩ := isHexDigit_spec b (c.digits_hex b hb)
      exact ⟨hascii, hmark⟩
    · obtain ⟨⟨hascii, -⟩, hmark⟩ := blank_spec (c.blank_space b hb)
      exact ⟨hascii, hmark⟩
  have htext : c.line.takeWhile (· ≠ 59) = c.digits ++ c.blank := by
    rw [ChunkLine.line, List.takeWhile_append_of_pos fun b hb => decide_eq_true (hplain b hb).2]
    rcases c.ext_mark with hext | ⟨e, hext⟩
    · rw [hext]
      simp
    · rw [hext]
      simp
  have htrim : Text.trim (c.digits ++ c.blank) = c.digits :=
    Text.trim_append (fun b hb => (isHexDigit_spec b (c.digits_hex b hb)).1)
      (fun b hb => (blank_spec (c.blank_space b hb)).1) c.digits_ne
  have hvalid := Utf8.valid_of_ascii fun b hb => (hplain b hb).1
  simp only [chunkSize, htext, hvalid, Bool.not_true, Bool.false_eq_true, if_false, htrim,
    hex_digits c.digits_ne c.digits_hex hsize]
  rfl

/-- A chunk is read as its data, and nothing after it. -/
theorem readChunk_encode {breaks : Bool} {maxBody : Nat} {body : Bytes} {c : Chunk}
    (hmax : (body ++ c.data).length ≤ maxBody) (hvec : (body ++ c.data).length ≤ ISIZE_MAX)
    (rest : Bytes) :
    readChunk breaks maxBody body (c.encode ++ rest) = .ok (some (body ++ c.data), rest) := by
  rw [List.length_append] at hmax hvec
  have hrange : ISIZE_MAX ≤ USIZE_MAX := by decide
  have hsize : c.size ≤ USIZE_MAX := by
    rw [c.size_eq]
    omega
  have hpos : c.data.length ≠ 0 := fun hzero => c.data_ne (List.length_eq_zero_iff.1 hzero)
  have hsplit : c.encode ++ rest = c.line ++ CRLF ++ (c.data ++ ([] ++ CRLF ++ rest)) := by
    simp [Chunk.encode]
  have hend : ShortLine [] := ⟨by decide, by decide⟩
  rw [hsplit, readChunk, readLine_append c.shortLine]
  simp only [Except.bind]
  rw [chunkSize_line hsize, c.size_eq]
  simp only [if_neg hpos]
  rw [if_neg (by omega), fill_append hvec]
  simp only
  rw [readLine_append hend]
  rfl

theorem readChunk_last {breaks : Bool} {maxBody : Nat} {c : ChunkLine} (hzero : c.size = 0)
    (body rest : Bytes) :
    readChunk breaks maxBody body (c.line ++ CRLF ++ rest) = .ok (none, rest) := by
  rw [readChunk, readLine_append c.shortLine]
  simp only [Except.bind]
  rw [chunkSize_line (by omega), hzero]
  rfl

theorem readChunks_of_none {breaks : Bool} {maxBody : Nat} {body s rest : Bytes}
    (h : readChunk breaks maxBody body s = .ok (none, rest)) :
    readChunks breaks maxBody body s = .ok (body, rest) := by
  rw [readChunks]
  split
  · rename_i hread
    cases h.symm.trans hread
  · rename_i hread
    cases h.symm.trans hread
    rfl
  · rename_i hread
    cases h.symm.trans hread

theorem readChunks_of_some {breaks : Bool} {maxBody : Nat} {body longer s rest : Bytes}
    (h : readChunk breaks maxBody body s = .ok (some longer, rest)) :
    readChunks breaks maxBody body s = readChunks breaks maxBody longer rest := by
  rw [readChunks]
  split
  · rename_i hread
    cases h.symm.trans hread
  · rename_i hread
    cases h.symm.trans hread
  · rename_i hread
    cases h.symm.trans hread
    rfl

theorem readChunks_encode {breaks : Bool} {maxBody : Nat} {chunks : List Chunk} {last : ChunkLine}
    (hlast : last.size = 0) {body : Bytes}
    (hmax : (body ++ chunks.flatMap Chunk.data).length ≤ maxBody)
    (hvec : (body ++ chunks.flatMap Chunk.data).length ≤ ISIZE_MAX) (rest : Bytes) :
    readChunks breaks maxBody body (chunks.flatMap Chunk.encode ++ (last.line ++ CRLF ++ rest)) =
      .ok (body ++ chunks.flatMap Chunk.data, rest) := by
  induction chunks generalizing body with
  | nil =>
      rw [List.flatMap_nil, List.flatMap_nil, List.nil_append, List.append_nil]
      exact readChunks_of_none (readChunk_last hlast body rest)
  | cons c chunks ih =>
      rw [List.flatMap_cons, ← List.append_assoc] at hmax hvec
      have hfirst := (List.prefix_append (body ++ c.data) (chunks.flatMap Chunk.data)).length_le
      rw [List.flatMap_cons, List.flatMap_cons, List.append_assoc,
        readChunks_of_some (readChunk_encode (hfirst.trans hmax) (hfirst.trans hvec) _),
        ih hmax hvec, List.append_assoc]

theorem readTrailers_of_line {breaks : Bool} {seen : Nat} {s line rest : Bytes}
    (h : readLine breaks MAX_CHUNK_LINE s = .ok (line, rest)) :
    readTrailers breaks seen s =
      if line = [] then .ok rest
      else if MAX_TRAILER_BYTES < min (seen + line.length) USIZE_MAX then
        .error (.badResponse "trailer section too large")
      else readTrailers breaks (min (seen + line.length) USIZE_MAX) rest := by
  rw [readTrailers]
  split
  · rename_i hread
    cases h.symm.trans hread
  · rename_i hread
    cases h.symm.trans hread
    rfl

/-- Trailers within the limit are read, and nothing after the blank line is. -/
theorem readTrailers_encode {breaks : Bool} {trailers : List Bytes} {seen : Nat}
    (hline : ∀ t ∈ trailers, t ≠ [] ∧ ShortLine t)
    (hle : seen + (trailers.map List.length).sum ≤ MAX_TRAILER_BYTES) (rest : Bytes) :
    readTrailers breaks seen (trailers.flatMap (fun t => t ++ CRLF) ++ (CRLF ++ rest)) = .ok rest := by
  induction trailers generalizing seen with
  | nil =>
      have hend : ShortLine [] := ⟨by decide, by decide⟩
      have hread : readLine breaks MAX_CHUNK_LINE (CRLF ++ rest) = .ok ([], rest) :=
        readLine_append hend rest
      rw [List.flatMap_nil, List.nil_append, readTrailers_of_line hread, if_pos rfl]
  | cons t trailers ih =>
      obtain ⟨hne, hshort⟩ := hline t List.mem_cons_self
      rw [List.map_cons, List.sum_cons] at hle
      have hmin : min (seen + t.length) USIZE_MAX = seen + t.length := by
        have : MAX_TRAILER_BYTES < USIZE_MAX := by decide
        omega
      rw [List.flatMap_cons, List.append_assoc, readTrailers_of_line (readLine_append hshort _),
        if_neg hne, hmin, if_neg (by omega)]
      exact ih (fun u hu => hline u (List.mem_cons_of_mem _ hu)) (by omega)

/-- However a body is cut, it is read back, and nothing after the final blank line is. -/
theorem readChunkedBody_encode {breaks : Bool} {maxBody : Nat} (c : Chunked)
    (hmax : c.body.length ≤ maxBody) (hvec : c.body.length ≤ ISIZE_MAX) (rest : Bytes) :
    readChunkedBody breaks maxBody (c.encode ++ rest) = .ok (c.body, rest) := by
  have hsplit : c.encode ++ rest = c.chunks.flatMap Chunk.encode ++
      (c.last.line ++ CRLF ++ (c.trailers.flatMap (fun t => t ++ CRLF) ++ (CRLF ++ rest))) := by
    simp only [Chunked.encode, List.append_assoc]
  rw [hsplit, readChunkedBody, readChunks_encode c.last_zero hmax hvec]
  simp only [Except.bind]
  rw [readTrailers_encode c.trailers_line (by simpa using c.trailers_le)]
  rfl

end Clove.Http
