import Clove.Announce
import Clove.Extension
import Clove.Http
import Clove.Magnet
import Clove.TrackerUrl

/-!
# The announce request

The model of `build_announce` and `announced_url` (`tracker.rs`): an announce as a request, and
the URL of that request as it is logged, without our own destination.

A URL is a stranger's text.  `build_announce_exact` says that it can be announced to exactly if
the filter lets it through, and that then the request is the four lines it is meant to be.
`announced_url_blind` says that the log does not depend on the destination.
-/

namespace Clove

namespace Tracker

open Utf8 (ascii)
open Http (Request percentEncode CRLF)

/-- The value of the `event` key. -/
def Event.queryValue : Event → Option Bytes
  | .started => some (ascii "started")
  | .stopped => some (ascii "stopped")
  | .completed => some (ascii "completed")
  | .periodic => none

/-- What an announce reports. -/
structure AnnounceParams where
  infoHash : Bytes
  peerId : Bytes
  uploaded : Nat
  downloaded : Nat
  left : Nat
  event : Event
  numwant : Nat
  /-- Our own destination, in base64. -/
  ourDestB64 : Bytes
deriving Repr, DecidableEq

/-- An announce that could not be built. -/
inductive BuildError where
  | badUrl
deriving Repr, DecidableEq

/-- What a request asks for: the URL's path and query, and then the parameters. -/
def announceTarget (pathAndQuery : Bytes) (params : AnnounceParams) : Bytes :=
  let sep : UInt8 := if 63 ∈ pathAndQuery then 38 else 63
  let target := pathAndQuery ++ [sep]
  let target := target ++ ascii "info_hash=" ++ percentEncode params.infoHash ++
    ascii "&peer_id=" ++ percentEncode params.peerId ++
    ascii "&port=6881&uploaded=" ++ Decimal.digits params.uploaded ++
    ascii "&downloaded=" ++ Decimal.digits params.downloaded ++
    ascii "&left=" ++ Decimal.digits params.left ++
    ascii "&numwant=" ++ Decimal.digits params.numwant ++
    ascii "&compact=1&ip=" ++ percentEncode params.ourDestB64
  match params.event.queryValue with
  | some event => target ++ ascii "&event=" ++ event
  | none => target

/-- The host to dial and the request to send. -/
def buildAnnounce (url : Bytes) (params : AnnounceParams) : Except BuildError (Bytes × Bytes) :=
  match TrackerUrl.parse url with
  | none => .error .badUrl
  | some parsed =>
      let request : Request :=
        { method := ascii "GET"
          target := announceTarget parsed.pathAndQuery params
          host := parsed.authority
          headers := [(ascii "User-Agent", Extension.USER_AGENT)]
          body := [] }
      match request.encode with
      | none => .error .badUrl
      | some encoded => .ok (parsed.host, encoded)

/-- A field of a query without our destination. -/
def redactField (field : Bytes) : Bytes :=
  match Magnet.splitOnce 61 field with
  | some (name, _) => if name = ascii "ip" then ascii "ip=<redacted>" else field
  | none => field

/-- A request target without our destination. -/
def redactIpParam (target : Bytes) : Bytes :=
  match Magnet.splitOnce 63 target with
  | none => target
  | some (path, query) =>
      path ++ (query.splitOn 38).zipIdx.flatMap fun field =>
        (if field.2 = 0 then 63 else 38) :: redactField field.1

/-- The URL a request asks for. -/
def announcedUrl (host request : Bytes) : Bytes :=
  let line := request.takeWhile fun b => b ≠ 13 ∧ b ≠ 10
  let target := if Utf8.valid line then (line.splitOn 32)[1]?.getD (ascii "/") else ascii "/"
  ascii "http://" ++ host ++ redactIpParam target

/-! ## What is asked for -/

/-- What an announce says, name by name. -/
def AnnounceParams.fields (params : AnnounceParams) : List (Bytes × Bytes) :=
  [(ascii "info_hash", percentEncode params.infoHash),
    (ascii "peer_id", percentEncode params.peerId),
    (ascii "port", ascii "6881"),
    (ascii "uploaded", Decimal.digits params.uploaded),
    (ascii "downloaded", Decimal.digits params.downloaded),
    (ascii "left", Decimal.digits params.left),
    (ascii "numwant", Decimal.digits params.numwant),
    (ascii "compact", ascii "1"),
    (ascii "ip", percentEncode params.ourDestB64)] ++
  (params.event.queryValue.map fun event => (ascii "event", event)).toList

/-- A field of a query. -/
def fieldText (field : Bytes × Bytes) : Bytes := field.1 ++ 61 :: field.2

/-- What stands between a URL's path and query and the parameters. -/
def separator (pathAndQuery : Bytes) : UInt8 := if 63 ∈ pathAndQuery then 38 else 63

/-- The parameters as a query. -/
def AnnounceParams.query (params : AnnounceParams) : Bytes :=
  [38].intercalate (params.fields.map fieldText)

theorem announceTarget_eq (pathAndQuery : Bytes) (params : AnnounceParams) :
    announceTarget pathAndQuery params =
      pathAndQuery ++ separator pathAndQuery :: params.query := by
  have hhash : ascii "info_hash=" = ascii "info_hash" ++ [61] := by decide
  have hpeer : ascii "&peer_id=" = 38 :: (ascii "peer_id" ++ [61]) := by decide
  have hport : ascii "&port=6881&uploaded=" =
      38 :: (ascii "port" ++ 61 :: (ascii "6881" ++ 38 :: (ascii "uploaded" ++ [61]))) := by decide
  have hdown : ascii "&downloaded=" = 38 :: (ascii "downloaded" ++ [61]) := by decide
  have hleft : ascii "&left=" = 38 :: (ascii "left" ++ [61]) := by decide
  have hwant : ascii "&numwant=" = 38 :: (ascii "numwant" ++ [61]) := by decide
  have hip : ascii "&compact=1&ip=" =
      38 :: (ascii "compact" ++ 61 :: (ascii "1" ++ 38 :: (ascii "ip" ++ [61]))) := by decide
  have hevent : ascii "&event=" = 38 :: (ascii "event" ++ [61]) := by decide
  unfold announceTarget AnnounceParams.query AnnounceParams.fields separator fieldText
  rw [hhash, hpeer, hport, hdown, hleft, hwant, hip, hevent]
  cases params.event.queryValue with
  | none => simp
  | some event => simp

open Http (Inert)

theorem inert_digits (n : Nat) : ∀ b ∈ Decimal.digits n, Inert b := by
  intro b hb
  refine (Http.inert_of_isUnreserved b ?_).2
  simp [Http.isUnreserved, Decimal.isDigit_of_mem_digits n b hb]

/-- Neither names nor values shape a query or a line. -/
theorem inert_fields (params : AnnounceParams) :
    ∀ f ∈ params.fields, (∀ b ∈ f.1, Inert b) ∧ ∀ b ∈ f.2, Inert b := by
  have hplain : ∀ bs : Bytes, bs.all (fun b => decide (Inert b)) = true → ∀ b ∈ bs, Inert b :=
    fun bs hall b hb => of_decide_eq_true (List.all_eq_true.1 hall b hb)
  intro f hf
  unfold AnnounceParams.fields at hf
  rcases List.mem_append.1 hf with hf | hf
  · simp only [List.mem_cons, List.not_mem_nil, or_false] at hf
    rcases hf with rfl | rfl | rfl | rfl | rfl | rfl | rfl | rfl | rfl
    · exact ⟨hplain (ascii "info_hash") (by decide), Http.inert_percentEncode⟩
    · exact ⟨hplain (ascii "peer_id") (by decide), Http.inert_percentEncode⟩
    · exact ⟨hplain (ascii "port") (by decide), hplain (ascii "6881") (by decide)⟩
    · exact ⟨hplain (ascii "uploaded") (by decide), inert_digits _⟩
    · exact ⟨hplain (ascii "downloaded") (by decide), inert_digits _⟩
    · exact ⟨hplain (ascii "left") (by decide), inert_digits _⟩
    · exact ⟨hplain (ascii "numwant") (by decide), inert_digits _⟩
    · exact ⟨hplain (ascii "compact") (by decide), hplain (ascii "1") (by decide)⟩
    · exact ⟨hplain (ascii "ip") (by decide), Http.inert_percentEncode⟩
  · rw [Option.mem_toList, Option.map_eq_some_iff] at hf
    obtain ⟨event, hevent, rfl⟩ := hf
    refine ⟨hplain (ascii "event") (by decide), hplain event ?_⟩
    cases hkind : params.event <;> rw [hkind] at hevent <;> cases hevent <;> decide

theorem splitOnce_eq_some {c : UInt8} {a : Bytes} (ha : c ∉ a) (r : Bytes) :
    Magnet.splitOnce c (a ++ c :: r) = some (a, r) := by
  unfold Magnet.splitOnce
  rw [TrackerUrl.splitAt_append_cons ha]
  rfl

/-- The fields of the query are the parameters. -/
theorem splitOn_query (params : AnnounceParams) :
    params.query.splitOn 38 = params.fields.map fieldText := by
  refine List.splitOn_intercalate 38 (fun l hl => ?_) ?_
  · obtain ⟨f, hf, rfl⟩ := List.mem_map.1 hl
    obtain ⟨hname, hvalue⟩ := inert_fields params f hf
    intro hin
    rcases List.mem_append.1 hin with hin | hin
    · exact (hname 38 hin).2.2.1 rfl
    · rcases List.mem_cons.1 hin with hin | hin
      · exact absurd hin (by decide)
      · exact (hvalue 38 hin).2.2.1 rfl
  · simp [AnnounceParams.fields]

theorem splitOnce_fieldText {params : AnnounceParams} {f : Bytes × Bytes} (hf : f ∈ params.fields) :
    Magnet.splitOnce 61 (fieldText f) = some f :=
  splitOnce_eq_some (fun hin => ((inert_fields params f hf).1 61 hin).2.2.2.1 rfl) f.2

/-! ## The request -/

theorem visible_of_parsed {url : Bytes} {t : TrackerUrl} (h : TrackerUrl.Parsed url t) :
    (∀ b ∈ t.authority, 32 < b) ∧ ∀ b ∈ t.pathAndQuery, 32 < b := by
  have hcut : (∀ b ∈ (TrackerUrl.cut (url.drop 7)).1, 32 < b) ∧
      ∀ b ∈ (TrackerUrl.cut (url.drop 7)).2, 32 < b := by
    have hrest : ∀ b ∈ url.drop 7, 32 < b := fun b hb => (h.visible b hb).1
    unfold TrackerUrl.cut
    split
    · rename_i p hslash
      obtain ⟨-, heq, -⟩ := TrackerUrl.splitAt_eq_some (a := p.1) (r := p.2) hslash
      rw [heq] at hrest
      exact ⟨fun b hb => hrest b (List.mem_append_left _ hb),
        fun b hb => hrest b (List.mem_append_right _ hb)⟩
    · split
      · rename_i a query hquery
        obtain ⟨-, heq, -⟩ := TrackerUrl.splitAt_eq_some hquery
        rw [heq] at hrest
        refine ⟨fun b hb => hrest b (List.mem_append_left _ hb), fun b hb => ?_⟩
        rcases List.mem_cons.1 hb with rfl | hb
        · decide
        · exact hrest b (List.mem_append_right _ hb)
      · refine ⟨hrest, fun b hb => ?_⟩
        rw [List.mem_singleton.1 hb]
        decide
  rw [← h.parts] at hcut
  exact hcut

theorem visible_query (params : AnnounceParams) : ∀ b ∈ params.query, 32 < b ∧ b < 128 := by
  intro b hb
  rcases Lists.mem_intercalate hb with rfl | ⟨l, hl, hb⟩
  · decide
  · obtain ⟨f, hf, rfl⟩ := List.mem_map.1 hl
    obtain ⟨hname, hvalue⟩ := inert_fields params f hf
    rcases List.mem_append.1 hb with hb | hb
    · exact ⟨(hname b hb).1, (hname b hb).2.1⟩
    · rcases List.mem_cons.1 hb with rfl | hb
      · decide
      · exact ⟨(hvalue b hb).1, (hvalue b hb).2.1⟩

theorem visible_announceTarget {pathAndQuery : Bytes} (h : ∀ b ∈ pathAndQuery, 32 < b)
    (params : AnnounceParams) : ∀ b ∈ announceTarget pathAndQuery params, 32 < b := by
  intro b hb
  rw [announceTarget_eq] at hb
  rcases List.mem_append.1 hb with hb | hb
  · exact h b hb
  · rcases List.mem_cons.1 hb with rfl | hb
    · unfold separator
      split <;> decide
    · exact (visible_query params b hb).1

theorem notMem_of_visible {s : Bytes} (h : ∀ b ∈ s, 32 < b) {c : UInt8} (hc : c ≤ 32) : c ∉ s :=
  fun hin => absurd (h c hin) (UInt8.not_lt.2 hc)

theorem clean_of_visible {s : Bytes} (h : ∀ b ∈ s, 32 < b) : Http.clean s = true :=
  Http.clean_iff.2 ⟨notMem_of_visible h (by decide), notMem_of_visible h (by decide),
    notMem_of_visible h (by decide)⟩

/-- The request line, up to its end. -/
def requestLine (t : TrackerUrl) (params : AnnounceParams) : Bytes :=
  ascii "GET " ++ announceTarget t.pathAndQuery params ++ ascii " HTTP/1.1"

/-- The lines after it. -/
def headerLines (t : TrackerUrl) : Bytes :=
  ascii "Host: " ++ t.authority ++ CRLF ++ (ascii "User-Agent: " ++ Extension.USER_AGENT ++ CRLF ++
    (ascii "Connection: close" ++ CRLF ++ ([] ++ CRLF ++ [])))

/-- A URL that is accepted can be announced to. -/
theorem buildAnnounce_eq {url : Bytes} {t : TrackerUrl} (h : TrackerUrl.parse url = some t)
    (params : AnnounceParams) :
    buildAnnounce url params = .ok (t.host, requestLine t params ++ CRLF ++ headerLines t) := by
  obtain ⟨hauth, hpath⟩ := visible_of_parsed (TrackerUrl.parsed_of_parse h)
  have htarget := clean_of_visible (visible_announceTarget hpath params)
  have hagent : ([(ascii "User-Agent", Extension.USER_AGENT)].any fun h : Bytes × Bytes =>
      !Http.clean h.1 || !Http.clean h.2) = false := by decide
  have hget : ascii "GET " = ascii "GET" ++ ascii " " := by decide
  have hname : ascii "User-Agent: " = ascii "User-Agent" ++ ascii ": " := by decide
  unfold buildAnnounce
  simp only [h, Http.Request.encode_get htarget (clean_of_visible hauth) hagent]
  rw [requestLine, headerLines, hget, hname]
  simp [Http.headerLine]

theorem isOk_buildAnnounce_iff (url : Bytes) (params : AnnounceParams) :
    (∃ r, buildAnnounce url params = .ok r) ↔ Metainfo.isI2pTracker url = true := by
  unfold Metainfo.isI2pTracker
  cases hparse : TrackerUrl.parse url with
  | none =>
      refine ⟨fun ⟨r, hr⟩ => ?_, fun h => absurd h (by simp)⟩
      simp only [buildAnnounce, hparse] at hr
      cases hr
  | some t => exact ⟨fun _ => rfl, fun _ => ⟨_, buildAnnounce_eq hparse params⟩⟩

theorem visible_requestLine {t : TrackerUrl} (h : ∀ b ∈ t.pathAndQuery, 32 < b)
    (params : AnnounceParams) : ∀ b ∈ requestLine t params, 32 ≤ b := by
  intro b hb
  have hplain : ∀ bs : Bytes, bs.all (fun b => decide (32 ≤ b)) = true → ∀ b ∈ bs, 32 ≤ b :=
    fun bs hall b hb => of_decide_eq_true (List.all_eq_true.1 hall b hb)
  rcases List.mem_append.1 hb with hb | hb
  · rcases List.mem_append.1 hb with hb | hb
    · exact hplain (ascii "GET ") (by decide) b hb
    · exact UInt8.le_of_lt (visible_announceTarget h params b hb)
  · exact hplain (ascii " HTTP/1.1") (by decide) b hb

theorem visible_header {name value : Bytes} (hname : name.all (fun b => decide (32 ≤ b)) = true)
    (hvalue : ∀ b ∈ value, 32 < b) : ∀ b ∈ name ++ value, 32 ≤ b := by
  intro b hb
  rcases List.mem_append.1 hb with hb | hb
  · exact of_decide_eq_true (List.all_eq_true.1 hname b hb)
  · exact UInt8.le_of_lt (hvalue b hb)

theorem lines_request {t : TrackerUrl} (hauth : ∀ b ∈ t.authority, 32 < b)
    (hpath : ∀ b ∈ t.pathAndQuery, 32 < b) (params : AnnounceParams) :
    let request := requestLine t params ++ CRLF ++ headerLines t
    Http.lines request = [requestLine t params, ascii "Host: " ++ t.authority,
      ascii "User-Agent: " ++ Extension.USER_AGENT, ascii "Connection: close", [], []] ∧
      ∀ line ∈ Http.lines request, 13 ∉ line ∧ 10 ∉ line := by
  intro request
  have hunbroken : ∀ {l : Bytes}, (∀ b ∈ l, 32 ≤ b) → 13 ∉ l ∧ 10 ∉ l := fun hl =>
    ⟨fun hin => absurd (hl 13 hin) (by decide), fun hin => absurd (hl 10 hin) (by decide)⟩
  have hfirst := hunbroken (visible_requestLine hpath params)
  have hname : (ascii "Host: ").all (fun b => decide (32 ≤ b)) = true := by decide
  have hhost := hunbroken (visible_header hname hauth)
  have hagent : 13 ∉ ascii "User-Agent: " ++ Extension.USER_AGENT ∧
      10 ∉ ascii "User-Agent: " ++ Extension.USER_AGENT := by decide
  have hclose : 13 ∉ ascii "Connection: close" ∧ 10 ∉ ascii "Connection: close" := by decide
  have hlines : Http.lines request = [requestLine t params, ascii "Host: " ++ t.authority,
      ascii "User-Agent: " ++ Extension.USER_AGENT, ascii "Connection: close", [], []] := by
    show Http.lines (requestLine t params ++ CRLF ++ headerLines t) = _
    rw [Http.lines_append hfirst.1, headerLines, Http.lines_append hhost.1,
      Http.lines_append hagent.1, Http.lines_append hclose.1, Http.lines_append List.not_mem_nil]
    rfl
  refine ⟨hlines, ?_⟩
  rw [hlines]
  intro line hline
  simp only [List.mem_cons, List.not_mem_nil, or_false] at hline
  rcases hline with rfl | rfl | rfl | rfl | rfl | rfl
  · exact hfirst
  · exact hhost
  · exact hagent
  · exact hclose
  · exact ⟨List.not_mem_nil, List.not_mem_nil⟩
  · exact ⟨List.not_mem_nil, List.not_mem_nil⟩

theorem separator_cases (pathAndQuery : Bytes) :
    separator pathAndQuery = 38 ∧ 63 ∈ pathAndQuery ∨
      separator pathAndQuery = 63 ∧ 63 ∉ pathAndQuery := by
  unfold separator
  split
  · rename_i hin
    exact .inl ⟨rfl, hin⟩
  · rename_i hout
    exact .inr ⟨rfl, hout⟩

/-- A request goes out exactly if the filter lets the URL through.  It is a request line and three
header lines; its target is the URL's path and query, and the announce parameters as one query;
and the values of these are read back as what they stand for. -/
theorem build_announce_exact (url : Bytes) (params : AnnounceParams) :
    ((∃ r, buildAnnounce url params = .ok r) ↔ Metainfo.isI2pTracker url = true) ∧
    ∀ host request, buildAnnounce url params = .ok (host, request) →
      ∃ t target, TrackerUrl.parse url = some t ∧ host = t.host ∧
        Http.lines request = [ascii "GET " ++ target ++ ascii " HTTP/1.1",
          ascii "Host: " ++ t.authority, ascii "User-Agent: " ++ Extension.USER_AGENT,
          ascii "Connection: close", [], []] ∧
        (∀ line ∈ Http.lines request, 13 ∉ line ∧ 10 ∉ line) ∧ 32 ∉ target ∧
        ∃ sep query, target = t.pathAndQuery ++ sep :: query ∧
          (sep = 38 ∧ 63 ∈ t.pathAndQuery ∨ sep = 63 ∧ 63 ∉ t.pathAndQuery) ∧
          (query.splitOn 38).map (Magnet.splitOnce 61) = params.fields.map some ∧
          Text.percentDecode (percentEncode params.infoHash) = params.infoHash ∧
          Text.percentDecode (percentEncode params.peerId) = params.peerId ∧
          Text.percentDecode (percentEncode params.ourDestB64) = params.ourDestB64 := by
  refine ⟨isOk_buildAnnounce_iff url params, fun host request hok => ?_⟩
  cases hparse : TrackerUrl.parse url with
  | none =>
      simp only [buildAnnounce, hparse] at hok
      cases hok
  | some t =>
      obtain ⟨rfl, rfl⟩ := Prod.mk.inj (Except.ok.inj ((buildAnnounce_eq hparse params).symm.trans hok))
      obtain ⟨hauth, hpath⟩ := visible_of_parsed (TrackerUrl.parsed_of_parse hparse)
      obtain ⟨hlines, hunbroken⟩ := lines_request hauth hpath params
      have hfields : (params.query.splitOn 38).map (Magnet.splitOnce 61) =
          params.fields.map some := by
        rw [splitOn_query, List.map_map]
        exact List.map_congr_left fun f hf => splitOnce_fieldText hf
      exact ⟨t, announceTarget t.pathAndQuery params, rfl, rfl, hlines, hunbroken,
        notMem_of_visible (visible_announceTarget hpath params) (by decide),
        separator t.pathAndQuery, params.query, announceTarget_eq _ _, separator_cases _, hfields,
        Http.percentDecode_percentEncode _, Http.percentDecode_percentEncode _,
        Http.percentDecode_percentEncode _⟩

/-! ## The log -/

theorem redactField_ip (value : Bytes) :
    redactField (fieldText (ascii "ip", value)) = ascii "ip=<redacted>" := by
  have hname : (61 : UInt8) ∉ ascii "ip" := by decide
  unfold redactField fieldText
  rw [splitOnce_eq_some hname value]
  exact if_pos rfl

/-- The parameters are logged without the destination. -/
theorem redactField_fields (params : AnnounceParams) (dest : Bytes) :
    ({ params with ourDestB64 := dest }.fields.map fieldText).map redactField =
      (params.fields.map fieldText).map redactField := by
  unfold AnnounceParams.fields
  simp only [List.map_append, List.map_cons, List.map_nil, redactField_ip]

/-- A path and its query are logged with each field redacted. -/
theorem redactIpParam_append {path : Bytes} (hpath : 63 ∉ path) (query : Bytes) :
    redactIpParam (path ++ 63 :: query) =
      path ++ (((query.splitOn 38).map redactField).zipIdx.flatMap fun field =>
        (if field.2 = 0 then 63 else 38) :: field.1) := by
  unfold redactIpParam
  rw [splitOnce_eq_some hpath, List.zipIdx_map, List.flatMap_map]
  rfl

/-- A target is logged as its path, the fields of the URL's own query, and the parameters. -/
theorem redactIpParam_announceTarget (pathAndQuery : Bytes) :
    ∃ path own, ∀ params : AnnounceParams,
      redactIpParam (announceTarget pathAndQuery params) =
        path ++ ((own ++ (params.fields.map fieldText).map redactField).zipIdx.flatMap fun field =>
          (if field.2 = 0 then 63 else 38) :: field.1) := by
  rcases separator_cases pathAndQuery with ⟨hsep, hin⟩ | ⟨hsep, hout⟩
  · -- the URL's query goes on with the parameters
    obtain ⟨path, own, rfl, hpath⟩ := List.eq_append_cons_of_mem hin
    refine ⟨path, (own.splitOn 38).map redactField, fun params => ?_⟩
    rw [announceTarget_eq, hsep, List.append_assoc, List.cons_append, redactIpParam_append hpath,
      List.splitOn_append_cons_self, splitOn_query, List.map_append]
  · refine ⟨pathAndQuery, [], fun params => ?_⟩
    rw [announceTarget_eq, hsep, redactIpParam_append hout, splitOn_query, List.nil_append]

theorem takeWhile_request {t : TrackerUrl} (hpath : ∀ b ∈ t.pathAndQuery, 32 < b)
    (params : AnnounceParams) :
    ((requestLine t params ++ CRLF ++ headerLines t).takeWhile fun b => b ≠ 13 ∧ b ≠ 10) =
      requestLine t params := by
  have hline : ∀ b ∈ requestLine t params, decide (b ≠ 13 ∧ b ≠ 10) = true := by
    intro b hb
    have hvisible := visible_requestLine hpath params b hb
    refine decide_eq_true ⟨?_, ?_⟩
    · rintro rfl
      exact absurd hvisible (by decide)
    · rintro rfl
      exact absurd hvisible (by decide)
  have hend : CRLF ++ headerLines t = 13 :: ([10] ++ headerLines t) := rfl
  rw [List.append_assoc, hend]
  exact TrackerUrl.takeWhile_append_cons hline (by decide)

/-- What asks for the path and query is text if they are. -/
theorem valid_requestLine (t : TrackerUrl) (params : AnnounceParams) :
    Utf8.valid (requestLine t params) = Utf8.valid (ascii "GET " ++ t.pathAndQuery) := by
  have hascii : ∀ b ∈ separator t.pathAndQuery :: params.query ++ ascii " HTTP/1.1", b < 128 := by
    intro b hb
    rcases List.mem_append.1 hb with hb | hb
    · rcases List.mem_cons.1 hb with rfl | hb
      · rcases separator_cases t.pathAndQuery with ⟨hsep, -⟩ | ⟨hsep, -⟩ <;> rw [hsep] <;> decide
      · exact (visible_query params b hb).2
    · have hversion : (ascii " HTTP/1.1").all (fun b => decide (b < 128)) = true := by decide
      exact of_decide_eq_true (List.all_eq_true.1 hversion b hb)
  have hline : requestLine t params = ascii "GET " ++ t.pathAndQuery ++
      (separator t.pathAndQuery :: params.query ++ ascii " HTTP/1.1") := by
    rw [requestLine, announceTarget_eq]
    simp
  rw [hline, Utf8.valid_append_ascii hascii]

theorem splitOn_requestLine {t : TrackerUrl} (hpath : ∀ b ∈ t.pathAndQuery, 32 < b)
    (params : AnnounceParams) :
    (requestLine t params).splitOn 32 =
      [ascii "GET", announceTarget t.pathAndQuery params, ascii "HTTP/1.1"] := by
  have htarget : 32 ∉ announceTarget t.pathAndQuery params :=
    notMem_of_visible (visible_announceTarget hpath params) (by decide)
  have hmethod : 32 ∉ ascii "GET" := by decide
  have hversion : (ascii "HTTP/1.1").splitOn 32 = [ascii "HTTP/1.1"] := by decide
  have hline : requestLine t params = ascii "GET" ++ 32 ::
      (announceTarget t.pathAndQuery params ++ 32 :: ascii "HTTP/1.1") := by
    have hget : ascii "GET " = ascii "GET" ++ [32] := by decide
    have hend : ascii " HTTP/1.1" = 32 :: ascii "HTTP/1.1" := by decide
    rw [requestLine, hget, hend]
    simp
  rw [hline, List.splitOn_append_cons_self_of_not_mem hmethod,
    List.splitOn_append_cons_self_of_not_mem htarget, hversion]

/-- The URL as it is logged. -/
theorem announcedUrl_eq {t : TrackerUrl} (hpath : ∀ b ∈ t.pathAndQuery, 32 < b) (host : Bytes)
    (params : AnnounceParams) :
    announcedUrl host (requestLine t params ++ CRLF ++ headerLines t) =
      ascii "http://" ++ host ++ redactIpParam
        (if Utf8.valid (ascii "GET " ++ t.pathAndQuery) then announceTarget t.pathAndQuery params
          else ascii "/") := by
  unfold announcedUrl
  simp only [takeWhile_request hpath, valid_requestLine, splitOn_requestLine hpath]
  rfl

/-- The URL that is logged of an announce is the same whatever our destination. -/
theorem announced_url_blind {url : Bytes} {t : TrackerUrl} (h : TrackerUrl.parse url = some t)
    (host : Bytes) (params : AnnounceParams) (dest : Bytes) :
    ∃ request request', buildAnnounce url params = .ok (t.host, request) ∧
      buildAnnounce url { params with ourDestB64 := dest } = .ok (t.host, request') ∧
      announcedUrl host request = announcedUrl host request' := by
  obtain ⟨-, hpath⟩ := visible_of_parsed (TrackerUrl.parsed_of_parse h)
  refine ⟨_, _, buildAnnounce_eq h params, buildAnnounce_eq h _, ?_⟩
  have hsame : redactIpParam (announceTarget t.pathAndQuery params) =
      redactIpParam (announceTarget t.pathAndQuery { params with ourDestB64 := dest }) := by
    obtain ⟨path, own, hlog⟩ := redactIpParam_announceTarget t.pathAndQuery
    rw [hlog, hlog, redactField_fields params dest]
  rw [announcedUrl_eq hpath, announcedUrl_eq hpath]
  split
  · rw [hsame]
  · rfl

theorem announced_url_blind_own_ip :
    ∃ request request',
      buildAnnounce (ascii "http://t.i2p/a?ip=x") ⟨[0], [1], 2, 3, 4, .started, 50, ascii "ours"⟩ =
        .ok (ascii "t.i2p", request) ∧
      buildAnnounce (ascii "http://t.i2p/a?ip=x") ⟨[0], [1], 2, 3, 4, .started, 50, ascii "new"⟩ =
        .ok (ascii "t.i2p", request') ∧
      announcedUrl (ascii "t.i2p") request = announcedUrl (ascii "t.i2p") request' :=
  announced_url_blind (t := ⟨ascii "t.i2p", ascii "t.i2p", ascii "/a?ip=x"⟩) (by decide)
    (ascii "t.i2p") ⟨[0], [1], 2, 3, 4, .started, 50, ascii "ours"⟩ (ascii "new")

end Tracker

end Clove
