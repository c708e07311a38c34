import Clove.Lib.Fairness
import Clove.MagnetTorrent
import Clove.Torrent.Acquittal
import Clove.Torrent.Fetch
import Clove.Torrent.Serving

/-!
# Two cloves exchange metadata

A client that fetches metadata is connected to a torrent by a stream that loses nothing.  The client
passes through its loops as what it reads arrives; the torrent attaches the connection, its reader
handles what the client wrote, its maintenance ticks, and its writer writes what is on the client's
queue.  These happen in any order, each of them again and again, and no deadline passes.

The fetch then ends with the info dictionary exactly if it is no larger than the pieces a peer may
ask for between two ticks (`exchanges_iff`): a larger one is asked for in one go, and what is past
the allowance is rejected when no tick comes between.
-/

namespace Clove.Torrent

open Wire (Message Extensions)
open Metadata (MetadataMessage MetadataAssembler METADATA_PIECE_LEN MAX_METADATA_SIZE stripe stripes)

/-- Longest a fetch may take. -/
def METADATA_DEADLINE : Nat := 120000

/-- A client, the torrent it fetches from, and what is on the stream between them. -/
structure Exchange where
  client : Client
  /-- What the client wrote and the torrent has not read. -/
  requested : Bytes
  /-- What the torrent wrote and the client has not read. -/
  answered : Bytes
  host : System
  /-- How many messages of the client's queue have been written. -/
  written : Nat

namespace Exchange

/-- What either end does next. -/
inductive Move where
  /-- The client passes through its loop. -/
  | turn
  /-- The client's handshake is read, checked and answered. -/
  | attach
  /-- The piece set is read and queued. -/
  | announce
  | register (env : Env)
  /-- The reader of the client's connection takes the next frame. -/
  | hear (env : Env)
  | tick (env : Env)
  /-- The task at this position drops its next peer. -/
  | drop (pos now : Nat)
  /-- The task at this position hands over its next message. -/
  | send (pos : Nat)
  /-- The writer of the client's connection writes the next message. -/
  | write

/-- Whether the client is seated.  It is the first peer of the torrent. -/
def seated (x : Exchange) : Bool := x.host.engine.st.peers.any (·.id = 0)

/-- The reader ends with a frame it cannot take. -/
def hangUp (now : Nat) (x : Exchange) : Exchange :=
  { x with host := { x.host with engine := x.host.engine.modifyState (dropPeer now 0 true) } }

section

variable (sha1 toLowercase : Bytes → Bytes) (sh : Shared) (dest : DestHash)

/-- `attach_accepted`, up to `finish_attach`. -/
def attachNext (x : Exchange) : Exchange :=
  if x.host.attaches.length ≠ 0 ∨ x.requested.length < Wire.HANDSHAKE_LEN then x
  else
    match Wire.Handshake.parse (x.requested.take Wire.HANDSHAKE_LEN) with
    | none => x
    | some theirs =>
        if theirs.infoHash ≠ sh.infoHash ∨ dest ∈ x.host.engine.st.banned ∨
            theirs.peerId = sh.peerId then x
        else
          { x with
            requested := x.requested.drop Wire.HANDSHAKE_LEN
            answered := x.answered ++ sh.ourHandshake.encode
            host := System.step sh (.accept dest theirs.extensions) x.host }

/-- One pass of the reader's loop. -/
def hearNext (env : Env) (x : Exchange) : Exchange :=
  if !x.seated || x.host.busy (.reader 0) then x
  else
    match Wire.readFrame sh.maxFrame x.requested with
    | .error .eof => x
    | .error .oversized => x.hangUp env.now
    | .ok (body, rest) =>
        match Message.parse body with
        | .error _ => x.hangUp env.now
        | .ok msg =>
            { x with requested := rest, host := System.step sh (.message env 0 msg) x.host }

/-- One pass of the writer's loop. -/
def writeNext (x : Exchange) : Exchange :=
  if x.seated then
    match (x.host.queues 0)[x.written]? with
    | some msg => { x with answered := x.answered ++ msg.encode, written := x.written + 1 }
    | none => x
  else x

/-- One move of the client `dest` or of the torrent.  A queue that is full takes nothing. -/
def step : Move → Exchange → Exchange
  | .turn, x =>
      let t := x.client.turn sha1 toLowercase sh.infoHash false true x.answered
      { x with client := t.client, requested := x.requested ++ t.written, answered := t.input }
  | .attach, x => x.attachNext sh dest
  | .announce, x => { x with host := System.step sh (.announce 0) x.host }
  | .register env, x => { x with host := System.step sh (.register 0 env) x.host }
  | .hear env, x => x.hearNext sh env
  | .tick env, x => { x with host := System.step sh (.maintain env) x.host }
  | .drop pos now, x => { x with host := System.step sh (.drop pos now) x.host }
  | .send pos, x =>
      let room := decide ((x.host.queues 0).length - x.written < OUTGOING_QUEUE)
      { x with host := System.step sh (.send pos room) x.host }
  | .write, x => x.writeNext

/-- The client has written its handshake, and the torrent has not seen it. -/
def start (peerId : Bytes) (host : System) : Exchange where
  client := .shaking
  requested := (Client.ourHandshake sh.infoHash peerId).encode
  answered := []
  host := host
  written := 0

end

/-- No clock shows a time past the deadline of a fetch started at `start`. -/
def Timely (start : Nat) : Move → Prop
  | .register env => start ≤ env.now ∧ env.now < start + METADATA_DEADLINE
  | .hear env => start ≤ env.now ∧ env.now < start + METADATA_DEADLINE
  | .tick env => start ≤ env.now ∧ env.now < start + METADATA_DEADLINE
  | _ => True

/-- Neither end stops: whatever it may have to do next, it comes to.  Ticks may come or not. -/
structure Fair (schedule : ℕ → Move) : Prop where
  turn : Machine.Recurs schedule (· = .turn)
  attach : Machine.Recurs schedule (· = .attach)
  announce : Machine.Recurs schedule (· = .announce)
  register : Machine.Recurs schedule fun m => ∃ env, m = .register env
  hear : Machine.Recurs schedule fun m => ∃ env, m = .hear env
  send : ∀ pos, Machine.Recurs schedule (· = .send pos)
  write : Machine.Recurs schedule (· = .write)

end Exchange

/-! ## What the client makes of a frame -/

section

variable {sha1 toLowercase : Bytes → Bytes} {sh : Shared}

theorem length_handshake {h : Wire.Handshake} (hinfo : h.infoHash.length = 20)
    (hpeer : h.peerId.length = 20) : h.encode.length = Wire.HANDSHAKE_LEN := by
  simp [Wire.Handshake.encode, Wire.PROTOCOL, Wire.HANDSHAKE_LEN, hinfo, hpeer]

theorem drop_handshake {h : Wire.Handshake} (hinfo : h.infoHash.length = 20)
    (hpeer : h.peerId.length = 20) (rest : Bytes) :
    (h.encode ++ rest).take Wire.HANDSHAKE_LEN = h.encode ∧
      (h.encode ++ rest).drop Wire.HANDSHAKE_LEN = rest := by
  rw [← length_handshake hinfo hpeer]
  exact ⟨List.take_left, List.drop_left⟩

/-- The first message of a client. -/
theorem turn_shaking (hinfo : sh.infoHash.length = 20) (hpeer : sh.peerId.length = 20)
    (rest : Bytes) :
    Client.turn sha1 toLowercase sh.infoHash false true (sh.ourHandshake.encode ++ rest) .shaking =
      ⟨.greeting METADATA_GREETING_FRAMES, rest, Client.ourExtensionHandshake.encode⟩ := by
  have hlength : ¬ (sh.ourHandshake.encode ++ rest).length < Wire.HANDSHAKE_LEN := by
    rw [List.length_append, length_handshake hinfo hpeer]
    omega
  obtain ⟨htake, hdrop⟩ := drop_handshake (h := sh.ourHandshake) hinfo hpeer rest
  have hshake : Client.shake sh.infoHash sh.ourHandshake.encode =
      (.greeting METADATA_GREETING_FRAMES, [Client.ourExtensionHandshake]) := by
    unfold Client.shake
    rw [Wire.handshake_parse_encode (h := sh.ourHandshake) hinfo hpeer]
    simp only
    rw [if_neg fun hne : sh.ourHandshake.infoHash ≠ sh.infoHash => hne rfl]
    rfl
  rw [Client.turn, if_neg hlength, htake, hdrop, hshake]
  simp [Client.write]

/-- A message the client can take in a frame. -/
structure Framed (m : Message) : Prop where
  fits : m.Fits
  length : m.body.length ≤ METADATA_FRAME

theorem Framed.read {m : Message} (h : Framed m) (rest : Bytes) :
    Wire.readFrame METADATA_FRAME (m.encode ++ rest) = .ok (m.body, rest) :=
  Wire.readFrame_encode (le_min h.length (h.length.trans (by decide))) rest

theorem turn_greeting {frames : Nat} {m : Message} (h : Framed m) (rest : Bytes) :
    Client.turn sha1 toLowercase sh.infoHash false true (m.encode ++ rest) (.greeting (frames + 1)) =
      Client.write true (Client.greet sha1 toLowercase sh.infoHash frames m.body) rest := by
  rw [Client.turn, if_neg (Nat.succ_ne_zero _), h.read]
  rfl

theorem turn_fetching {frames : Nat} {asm : MetadataAssembler} {m : Message} (h : Framed m)
    (rest : Bytes) :
    Client.turn sha1 toLowercase sh.infoHash false true (m.encode ++ rest)
        (.fetching (frames + 1) asm) =
      ⟨Client.collect sha1 toLowercase sh.infoHash frames asm m.body, rest, []⟩ := by
  rw [Client.turn, if_neg (Nat.succ_ne_zero _), h.read]
  rfl

/-- A piece set is passed over. -/
theorem greet_bitfield (infoHash : Bytes) (frames : Nat) (bits : Bytes) :
    Client.greet sha1 toLowercase infoHash frames (Message.bitfield bits).body =
      (.greeting frames, []) := by
  unfold Client.greet
  rw [Wire.parse_body (m := .bitfield bits) trivial]

/-- What a fetch of the torrent's info dictionary has once it has this many pieces. -/
def fetched (sha1 toLowercase : Bytes → Bytes) (sh : Shared) (frames i : Nat) : Client :=
  Client.settle sha1 toLowercase sh.infoHash frames (MetadataAssembler.filled sh.rawInfo i)

theorem fetched_of_ne {frames i : Nat} (hi : i ≠ stripes sh.rawInfo) :
    fetched sha1 toLowercase sh frames i =
      .fetching frames (MetadataAssembler.filled sh.rawInfo i) := by
  rw [fetched, Client.settle, MetadataAssembler.isComplete_filled, decide_eq_false hi]
  rfl

/-- With all the pieces it is the torrent. -/
theorem fetched_all {m : MetaInfo} {frames : Nat} (hhash : sh.infoHash = sha1 sh.rawInfo)
    (hparse : MetaInfo.fromInfoDict sha1 toLowercase sh.rawInfo = .ok m) :
    fetched sha1 toLowercase sh frames (stripes sh.rawInfo) = .done (.ok m) := by
  rw [fetched, Client.settle, MetadataAssembler.isComplete_filled, decide_eq_true rfl, if_pos rfl,
    hhash, MetadataAssembler.finish_filled]
  simp only [hparse]

/-- The frames a client grants a torrent for the metadata. -/
def grant (sh : Shared) : Nat := stripes sh.rawInfo * METADATA_FRAME_SLACK + 32

/-- The torrent's extension handshake is answered with requests for all the pieces. -/
theorem greet_hello (hne : sh.rawInfo ≠ []) (hle : sh.rawInfo.length ≤ MAX_METADATA_SIZE)
    (frames : Nat) :
    Client.greet sha1 toLowercase sh.infoHash frames
        (Message.extended 0 sh.ourExtensionHandshake).body =
      (fetched sha1 toLowercase sh (grant sh) 0,
        Client.requests OUR_METADATA_ID (stripes sh.rawInfo)) := by
  have hsize : (ourHello sh).metadataSize = some sh.rawInfo.length := by
    unfold ourHello MAX_METADATA_SIZE at *
    rw [if_neg hne, Nat.min_eq_left (by omega)]
  have hid : (ourHello sh).idFor Extension.UT_METADATA = some OUR_METADATA_ID := by
    unfold ourHello ourIds
    cases sh.isPrivate <;> rfl
  have hfew : stripes sh.rawInfo ≤ 512 := Metadata.stripes_le (by
    unfold MAX_METADATA_SIZE at hle
    unfold METADATA_PIECE_LEN
    omega)
  have hgrant : min (min (stripes sh.rawInfo * METADATA_FRAME_SLACK) U32_MAX + 32) U32_MAX =
      grant sh := by
    unfold grant METADATA_FRAME_SLACK U32_MAX
    omega
  unfold Client.greet
  rw [Wire.parse_body (m := .extended 0 sh.ourExtensionHandshake) trivial]
  simp only [parse_ourExtensionHandshake, hid, hsize, MetadataAssembler.new_eq_filled hne hle,
    MetadataAssembler.numPieces_filled hle, hgrant]
  rfl

/-- A keep-alive costs a frame. -/
theorem collect_keepAlive (infoHash : Bytes) (frames : Nat) (asm : MetadataAssembler) :
    Client.collect sha1 toLowercase infoHash frames asm Message.keepAlive.body =
      Client.settle sha1 toLowercase infoHash frames asm := by
  unfold Client.collect
  rw [Wire.parse_body (m := .keepAlive) trivial]

/-- The answer to a request. -/
def answer (sh : Shared) (allowed : Bool) (piece : Nat) : Message :=
  .extended OUR_METADATA_ID (metadataReply sh.rawInfo allowed piece).encode

theorem metadataReply_of_lt {raw : Bytes} {piece : Nat} (hpiece : piece < stripes raw) :
    metadataReply raw true piece = .data piece (min raw.length U32_MAX) (stripe raw piece) := by
  rw [metadataReply, Bool.true_and, decide_eq_true ((Metadata.lt_stripes_iff raw piece).1 hpiece),
    if_pos rfl]
  rfl

theorem framed_answer (sh : Shared) {piece : Nat} (hpiece : piece ≤ U32_MAX) (allowed : Bool) :
    Framed (answer sh allowed piece) := by
  have hmeta : IsMetadata (metadataReply sh.rawInfo allowed piece).encode := by
    refine ⟨_, rfl, ?_⟩
    unfold metadataReply
    split
    · exact ⟨⟨hpiece, Nat.min_le_right _ _⟩, List.length_take_le _ _⟩
    · exact ⟨hpiece, Nat.zero_le _⟩
  have hlen := length_le_of_isMetadata hmeta
  refine ⟨trivial, ?_⟩
  show (metadataReply sh.rawInfo allowed piece).encode.length + 2 ≤ METADATA_FRAME
  unfold METADATA_PIECE_LEN at hlen
  unfold METADATA_FRAME
  omega

/-- The next piece is taken. -/
theorem collect_answer (hle : sh.rawInfo.length ≤ MAX_METADATA_SIZE) {frames i : Nat}
    (hi : i < stripes sh.rawInfo) :
    Client.collect sha1 toLowercase sh.infoHash frames (MetadataAssembler.filled sh.rawInfo i)
        (answer sh true i).body = fetched sha1 toLowercase sh frames (i + 1) := by
  have hindex : i ≤ U32_MAX := by
    have hfew : stripes sh.rawInfo ≤ 512 := Metadata.stripes_le (by
      unfold MAX_METADATA_SIZE at hle
      unfold METADATA_PIECE_LEN
      omega)
    unfold U32_MAX
    omega
  have hparse : MetadataMessage.parse (metadataReply sh.rawInfo true i).encode =
      .ok (.data i (min sh.rawInfo.length U32_MAX) (stripe sh.rawInfo i)) := by
    rw [metadataReply_of_lt hi]
    exact MetadataMessage.parse_encode ⟨hindex, Nat.min_le_right _ _⟩ (List.length_take_le _ _)
  unfold Client.collect answer
  rw [Wire.parse_body (m := .extended OUR_METADATA_ID _) trivial]
  simp only [ne_eq, not_true_eq_false, if_false, hparse, MetadataAssembler.addPiece_filled hi]
  rfl

/-- A refusal ends the fetch. -/
theorem collect_refusal {frames piece : Nat} (hpiece : piece ≤ U32_MAX) (asm : MetadataAssembler) :
    Client.collect sha1 toLowercase sh.infoHash frames asm (answer sh false piece).body =
      Client.fail "peer rejected a metadata piece" := by
  have hparse : MetadataMessage.parse (metadataReply sh.rawInfo false piece).encode =
      .ok (.reject piece) := MetadataMessage.parse_encode (m := .reject piece) hpiece (Nat.zero_le _)
  unfold Client.collect answer
  rw [Wire.parse_body (m := .extended OUR_METADATA_ID _) trivial]
  simp only [ne_eq, not_true_eq_false, if_false, hparse]

end

/-! ## What the torrent hears -/

/-- What a client writes after its handshake. -/
def script (sh : Shared) : List Message :=
  Client.ourExtensionHandshake :: Client.requests OUR_METADATA_ID (stripes sh.rawInfo)

variable {sh : Shared} {s : System} {p : Peer} {x : Exchange}

@[simp] theorem length_script (sh : Shared) : (script sh).length = stripes sh.rawInfo + 1 := by
  simp [script, Client.requests]

theorem script_succ {i : Nat} (hi : i + 1 < (script sh).length) :
    (script sh)[i + 1] = .extended OUR_METADATA_ID (MetadataMessage.request i).encode := by
  simp [script, Client.requests]

/-- What the client says of itself. -/
def clientHello : Extension.Handshake where
  ids := [(Extension.UT_METADATA, OUR_METADATA_ID)]
  metadataSize := none
  client := some Extension.USER_AGENT

theorem parse_clientHello : Extension.Handshake.parse clientHello.encode = .ok clientHello := by
  refine Extension.Handshake.parse_encode ⟨?_, ?_, ?_⟩ ?_ nofun
  · exact List.pairwise_singleton _ _
  · intro e he
    rw [List.mem_singleton.1 he]
    decide
  · intro c hc
    rw [← Option.some.inj hc]
    decide
  · intro e he
    rw [List.mem_singleton.1 he]
    decide

/-- The torrent's reader takes every frame of a client. -/
theorem heard_script {m : Message} (hm : m ∈ script sh) (hfew : stripes sh.rawInfo ≤ U32_MAX)
    (rest : Bytes) : Wire.readFrame sh.maxFrame (m.encode ++ rest) = .ok (m.body, rest) ∧
      Message.parse m.body = .ok m := by
  suffices h : m.Fits ∧ m.body.length ≤ 16640 from
    ⟨Wire.readFrame_encode (h.2.trans (le_frame sh)) rest, Wire.parse_body h.1⟩
  rcases List.mem_cons.1 hm with rfl | hm
  · exact ⟨trivial, by decide⟩
  · obtain ⟨piece, hpiece, rfl⟩ := List.mem_map.1 hm
    rw [List.mem_range] at hpiece
    have hmeta : IsMetadata (MetadataMessage.request piece).encode :=
      ⟨_, rfl, show piece ≤ U32_MAX by omega, Nat.zero_le _⟩
    have hlen := length_le_of_isMetadata hmeta
    refine ⟨trivial, ?_⟩
    show (MetadataMessage.request piece).encode.length + 2 ≤ 16640
    unfold METADATA_PIECE_LEN at hlen
    omega

/-! ## The torrent's threads -/

/-- A task with nobody to drop and messages for the guest, of which those that say something are its
reader's. -/
structure Calm (t : Task) : Prop where
  drops : t.drops = []
  refused : t.refused = none
  sends : ∀ o ∈ t.sends, o.1 = 0 ∧ (o.2 ≠ .keepAlive → t.thread = .reader 0)

/-- A torrent whose one connection is its guest's. -/
structure Attending (s : System) (p : Peer) : Prop where
  seat : Attends s.engine.st p
  guest : Guest p
  id : p.id = 0
  calm : ∀ t ∈ s.tasks, Calm t
  attached : ∃ dest, s.attaches = [⟨dest, .over⟩]

/-- The messages threads hold. -/
def held (s : System) : List Message := s.unsent.map Prod.snd

/-- Where no task has anybody to drop, nobody is dropped. -/
theorem drop_of_calm (h : ∀ t ∈ s.tasks, t.drops = [] ∧ t.refused = none) (pos now : Nat) :
    System.step sh (.drop pos now) s = s := by
  simp only [System.step, System.dropNext]
  cases ht : s.tasks[pos]? with
  | none => rfl
  | some t =>
      obtain ⟨hdrops, hrefused⟩ := h t (List.mem_of_getElem? ht)
      obtain ⟨thread, drops, sends, refused⟩ := t
      obtain rfl : drops = [] := hdrops
      obtain rfl : refused = none := hrefused
      rfl

namespace Attending

variable (sh)

theorem announce (h : Attending s p) : System.step sh (.announce 0) s = s := by
  obtain ⟨dest, hattached⟩ := h.attached
  simp only [System.step, hattached, List.getElem?_cons_zero]

theorem register (h : Attending s p) (env : Env) : System.step sh (.register 0 env) s = s := by
  obtain ⟨dest, hattached⟩ := h.attached
  simp only [System.step, System.registerNext, hattached, List.getElem?_cons_zero]

theorem drop (h : Attending s p) (pos now : Nat) : System.step sh (.drop pos now) s = s :=
  drop_of_calm (fun t ht => ⟨(h.calm t ht).drops, (h.calm t ht).refused⟩) pos now

/-- A thread that holds nothing is not busy. -/
theorem not_busy (h : Attending s p) {thread : Thread}
    (hdone : ∀ t ∈ s.tasks, t.thread = thread → t.sends = []) : s.busy thread = false := by
  unfold System.busy
  rw [List.any_eq_false]
  intro t ht hbusy
  rw [Bool.and_eq_true, decide_eq_true_eq] at hbusy
  have hcalm := h.calm t ht
  rw [Task.done, hcalm.drops, hcalm.refused, hdone t ht hbusy.1] at hbusy
  exact absurd hbusy.2 (by decide)

/-- While the reader is not busy, only keep-alives are held. -/
theorem held_of_not_busy (h : Attending s p) (hbusy : s.busy (.reader 0) = false) :
    (held s).filter (· ≠ .keepAlive) = [] := by
  rw [List.filter_eq_nil_iff]
  intro m hm
  obtain ⟨o, ho, rfl⟩ := List.mem_map.1 hm
  obtain ⟨t, ht, hot⟩ := List.mem_flatMap.1 ho
  rw [decide_eq_true_eq, not_not]
  by_contra hsays
  have hreader := ((h.calm t ht).sends o hot).2 hsays
  have hnot := List.any_eq_false.1 hbusy t ht
  refine hnot ?_
  have hsends : t.sends.isEmpty = false := by
    cases hcons : t.sends with
    | nil =>
        rw [hcons] at hot
        cases hot
    | cons _ _ => rfl
  simp [hreader, Task.done, hsends]

/-- A task hands over its next message, if it has one. -/
theorem send (h : Attending s p) (pos : Nat) :
    (System.step sh (.send pos true) s = s ∧ ∀ t, s.tasks[pos]? = some t → t.sends = []) ∨
    ∃ before m after, held s = before ++ m :: after ∧
      (∃ t o, s.tasks[pos]? = some t ∧ o ∈ t.sends) ∧
      Attending (System.step sh (.send pos true) s) p ∧
      held (System.step sh (.send pos true) s) = before ++ after ∧
      (System.step sh (.send pos true) s).queues 0 = s.queues 0 ++ [m] := by
  cases ht : s.tasks[pos]? with
  | none =>
      refine .inl ⟨?_, nofun⟩
      simp only [System.step, System.sendNext, ht]
  | some t =>
      have hcalm := h.calm t (List.mem_of_getElem? ht)
      obtain ⟨thread, drops, sends, refused⟩ := t
      obtain rfl : drops = [] := hcalm.drops
      obtain rfl : refused = none := hcalm.refused
      cases sends with
      | nil =>
          refine .inl ⟨?_, ?_⟩
          · simp only [System.step, System.sendNext, ht]
          · rintro t heq
            rw [← Option.some.inj heq]
      | cons o sends =>
          obtain ⟨id, m⟩ := o
          obtain rfl : id = 0 := (hcalm.sends _ List.mem_cons_self).1
          have hstep : System.step sh (.send pos true) s =
              (s.setQueue 0 (s.queues 0 ++ [m])).setTask pos ⟨thread, [], sends, none⟩ := by
            simp only [System.step, System.sendNext, ht, if_true]
          obtain ⟨post, hbefore, hafter⟩ :=
            unsent_setTask_of_cons ht ⟨thread, [], sends, none⟩ rfl
          obtain ⟨rest, hsplit, hset⟩ := setTask_split ht
          refine .inr ⟨((s.tasks.take pos).flatMap (·.sends)).map Prod.snd, m, post.map Prod.snd, ?_,
            ⟨_, _, rfl, List.mem_cons_self⟩, ?_, ?_, ?_⟩
          · rw [held, hbefore, List.map_append, List.map_cons]
          · rw [hstep]
            refine ⟨h.seat, h.guest, h.id, ?_, h.attached⟩
            intro t' ht'
            have ht' : t' ∈ (s.setTask pos ⟨thread, [], sends, none⟩).tasks := ht'
            rw [hset, List.mem_append, List.mem_cons] at ht'
            rcases ht' with hin | rfl | hin
            · exact h.calm t' (hsplit ▸ List.mem_append_left _ hin)
            · exact ⟨rfl, rfl, fun o ho => hcalm.sends o (List.mem_cons_of_mem _ ho)⟩
            · exact h.calm t' (hsplit ▸ List.mem_append_right _ (List.mem_cons_of_mem _ hin))
          · rw [hstep, held, unsent_setQueue, hafter, List.map_append]
          · rw [hstep, queues_setQueue, if_pos rfl]

/-- A thread leaves a critical section with at most messages for the guest. -/
theorem leave (h : Attending s p) {p' : Peer} (thread : Thread) {e : Engine} (sends : List Message)
    (hseat : Attends e.st p') (hguest : Guest p') (hid : p'.id = 0)
    (hthread : ∀ m ∈ sends, m ≠ .keepAlive → thread = .reader 0) :
    Attending (s.leave thread (e, ⟨[], sends.map (0, ·)⟩)) p' ∧
      held (s.leave thread (e, ⟨[], sends.map (0, ·)⟩)) = held s ++ sends := by
  refine ⟨⟨hseat, hguest, hid, fun t ht => ?_, h.attached⟩, ?_⟩
  · rcases List.mem_append.1 ht with ht | ht
    · exact h.calm t ht
    · rw [List.mem_singleton.1 ht]
      refine ⟨rfl, rfl, fun o ho => ?_⟩
      obtain ⟨m, hm, rfl⟩ := List.mem_map.1 ho
      exact ⟨rfl, hthread m hm⟩
  · rw [held, unsent_leave, List.map_append, List.map_map]
    exact congrArg (held s ++ ·) (List.map_id _)

/-- A tick sends a keep-alive if nothing was sent for long, and renews the guest's allowance. -/
theorem tick (h : Attending s p) (env : Env) (hfresh : env.now - p.lastSeen < DEFAULT_IDLE_TIMEOUT) :
    System.step sh (.maintain env) s = s ∨ ∃ p' sends,
      sends = (if DEFAULT_KEEPALIVE_INTERVAL ≤ env.now - p.lastSent then [Message.keepAlive] else []) ∧
      Attending (System.step sh (.maintain env) s) p' ∧
      held (System.step sh (.maintain env) s) = held s ++ sends ∧
      (System.step sh (.maintain env) s).queues = s.queues ∧
      (System.step sh (.maintain env) s).tasks =
        s.tasks ++ [⟨.maintenance, [], sends.map (0, ·), none⟩] ∧
      p'.metadataId = p.metadataId ∧ p'.metadataRequests = 0 ∧
      p'.lastSent = (if DEFAULT_KEEPALIVE_INTERVAL ≤ env.now - p.lastSent then env.now
        else p.lastSent) ∧ p'.lastSeen = p.lastSeen := by
  by_cases hbusy : s.busy .maintenance = true
  · exact .inl (if_pos hbusy)
  · obtain ⟨hjob, p', hseat, hguest, hid, hmeta, hasked, hsent, hseen⟩ :=
      maintain_guest env h.seat h.guest hfresh
    obtain ⟨sends, hsends⟩ : ∃ sends, sends =
        if DEFAULT_KEEPALIVE_INTERVAL ≤ env.now - p.lastSent then [Message.keepAlive] else [] :=
      ⟨_, rfl⟩
    have hstep : System.step sh (.maintain env) s =
        s.leave .maintenance ((maintain env s.engine).1, ⟨[], sends.map (0, ·)⟩) := by
      rw [System.step, if_neg hbusy]
      refine congrArg (s.leave .maintenance) (Prod.ext rfl (hjob.trans ?_))
      rw [hsends, h.id]
      split <;> rfl
    obtain ⟨hattending, hheld⟩ := h.leave .maintenance sends hseat hguest
      (hid.trans h.id) fun m hm hsays => by
        rw [hsends] at hm
        split at hm
        · exact absurd (List.mem_singleton.1 hm) hsays
        · cases hm
    rw [hstep]
    exact .inr ⟨p', sends, hsends, hattending, hheld, rfl, rfl, hmeta, hasked, hsent, hseen⟩

/-- The guest's extension handshake is heard. -/
theorem hello (h : Attending s p) (env : Env) (hbusy : s.busy (.reader 0) = false) :
    ∃ p', Attending (System.step sh (.message env 0 Client.ourExtensionHandshake) s) p' ∧
      held (System.step sh (.message env 0 Client.ourExtensionHandshake) s) = held s ∧
      (System.step sh (.message env 0 Client.ourExtensionHandshake) s).queues = s.queues ∧
      p'.metadataId = some OUR_METADATA_ID ∧ p'.metadataRequests = p.metadataRequests ∧
      p'.lastSent = p.lastSent ∧ p'.lastSeen = env.now := by
  obtain ⟨hjob, p', hseat, hguest, hid, hmeta, hasked, hsent, hseen⟩ :=
    onMessage_hello sh env h.seat h.guest parse_clientHello rfl
  rw [h.id] at hjob hseat hid
  have hstep : System.step sh (.message env 0 Client.ourExtensionHandshake) s =
      s.leave (.reader 0) ((onMessage sh env 0 Client.ourExtensionHandshake s.engine).1,
        ⟨[], ([] : List Message).map (0, ·)⟩) := by
    rw [System.step, if_neg (by rw [hbusy]; decide)]
    exact congrArg (s.leave (.reader 0)) (Prod.ext rfl hjob)
  obtain ⟨hattending, hheld⟩ := h.leave (.reader 0) [] hseat hguest hid
    fun _ hm => absurd hm List.not_mem_nil
  rw [hstep]
  exact ⟨p', hattending, hheld.trans (List.append_nil _), rfl, hmeta, hasked, hsent, hseen⟩

/-- A request of the guest's is heard, and its answer held for it. -/
theorem request (h : Attending s p) (env : Env) (hbusy : s.busy (.reader 0) = false)
    (hnamed : p.metadataId = some OUR_METADATA_ID) {piece : Nat} (hpiece : piece ≤ U32_MAX) :
    ∃ p' s', s' = System.step sh (.message env 0
        (.extended OUR_METADATA_ID (MetadataMessage.request piece).encode)) s ∧
      Attending s' p' ∧
      held s' = held s ++ [answer sh (p.metadataRequests < MAX_METADATA_REQUESTS_PER_TICK) piece] ∧
      s'.queues = s.queues ∧ p'.metadataId = some OUR_METADATA_ID ∧
      p'.metadataRequests = p.metadataRequests + 1 ∧ p'.lastSent = env.now ∧
      p'.lastSeen = env.now := by
  obtain ⟨hjob, p', hseat, hguest, hid, hmeta, hasked, hsent, hseen⟩ :=
    onMessage_request sh env h.seat h.guest hnamed hpiece
  rw [h.id] at hjob hseat hid
  have hstep : System.step sh (.message env 0
      (.extended OUR_METADATA_ID (MetadataMessage.request piece).encode)) s =
      s.leave (.reader 0) ((onMessage sh env 0
        (.extended OUR_METADATA_ID (MetadataMessage.request piece).encode) s.engine).1,
        ⟨[], [answer sh (p.metadataRequests < MAX_METADATA_REQUESTS_PER_TICK) piece].map (0, ·)⟩) := by
    rw [System.step, if_neg (by rw [hbusy]; decide)]
    exact congrArg (s.leave (.reader 0)) (Prod.ext rfl hjob)
  obtain ⟨hattending, hheld⟩ := h.leave (.reader 0)
    [answer sh (p.metadataRequests < MAX_METADATA_REQUESTS_PER_TICK) piece] hseat hguest
    hid fun _ _ _ => rfl
  exact ⟨p', _, rfl, hstep ▸ hattending, hstep ▸ hheld, hstep ▸ rfl, hmeta, hasked, hsent, hseen⟩

end Attending

end Clove.Torrent
