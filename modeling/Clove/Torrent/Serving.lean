import Clove.ChokerRounds
import Clove.ExtensionRoundTrip
import Clove.Torrent.Handlers

/-!
# A torrent with one guest

What the critical sections do while the only peer of a torrent is one that says nothing but
extended messages: nobody is interested, choked anew or unchoked, and nothing is requested.  An
extension handshake names the id to answer on, a metadata request is answered at once, and a
maintenance tick sends a keep-alive or nothing.
-/

namespace Clove.Torrent

open Wire (Message)
open Metadata (MetadataMessage)

variable (sh : Shared) {st : State} {w : Work} {e : Engine} {p : Peer}

/-- The table seats one peer, nobody is queued for removal, and the intervals are the usual ones. -/
structure Attends (st : State) (p : Peer) : Prop where
  peers : st.peers = [p]
  toDrop : st.toDrop = []
  keepaliveInterval : st.keepaliveInterval = DEFAULT_KEEPALIVE_INTERVAL
  idleTimeout : st.idleTimeout = DEFAULT_IDLE_TIMEOUT

/-- A peer that nothing passes with but extended messages. -/
structure Guest (p : Peer) : Prop where
  peerChoking : p.peerChoking = true
  weChoke : p.weChoke = true
  theyInterested : p.theyInterested = false
  inFlight : p.inFlight = ∅
  pexId : p.pexId = none

theorem Attends.set (h : Attends st p) (p' : Peer) : Attends { st with peers := [p'] } p' :=
  ⟨rfl, h.toDrop, h.keepaliveInterval, h.idleTimeout⟩

theorem Attends.findIdx (h : Attends st p) : st.peers.findIdx? (·.id = p.id) = some 0 := by
  simp [h.peers]

theorem Attends.modifyId (h : Attends st p) (f : Peer → Peer) :
    st.modifyId p.id f = { st with peers := [f p] } := by
  unfold State.modifyId
  rw [h.findIdx, h.peers]
  rfl

/-- The guest is the peer at the first position. -/
theorem Attends.modifyPeer (h : Attends w.st p) (f : Peer → Peer) :
    Attends (w.modifyPeer 0 f).st (f p) :=
  ⟨by simp [Work.modifyPeer, h.peers], h.toDrop, h.keepaliveInterval, h.idleTimeout⟩

theorem Attends.getElem? (h : Attends st p) : st.peers[0]? = some p := by
  rw [h.peers]
  rfl

/-! ## The end of a critical section -/

/-- A choke round changes nothing for peers that are choked and not interested. -/
theorem plan_of_quiet (c : Choker) (peers : List PeerSnapshot)
    (h : ∀ p ∈ peers, p.interested = false ∧ p.unchoked = false) :
    (c.plan peers).2.unchoke = [] ∧ (c.plan peers).2.choke = [] := by
  constructor
  · refine List.eq_nil_iff_forall_not_mem.2 fun id hid => ?_
    obtain ⟨p, hp, hinterested, -⟩ := Choker.interested_of_mem_chosen (Choker.mem_unchoke.1 hid).1
    rw [(h p hp).1] at hinterested
    cases hinterested
  · refine List.eq_nil_iff_forall_not_mem.2 fun id hid => ?_
    obtain ⟨-, p, hp, -, hunchoked⟩ := Choker.mem_choke.1 hid
    rw [(h p hp).2] at hunchoked
    cases hunchoked

/-- What stays of a guest through the end of a critical section. -/
structure Stays (p p' : Peer) : Prop where
  id : p'.id = p.id
  guest : Guest p'
  metadataId : p'.metadataId = p.metadataId
  metadataRequests : p'.metadataRequests = p.metadataRequests
  lastSeen : p'.lastSeen = p.lastSeen

theorem Guest.stays (hp : Guest p) : Stays p p := ⟨rfl, hp, rfl, rfl, rfl⟩

/-- A choke round has nothing for the guest. -/
theorem considerRound_guest (env : Env) (h : Attends w.st p) (hp : Guest p) :
    (considerRound env w).out = w.out ∧
      ∃ p', Attends (considerRound env w).st p' ∧ Stays p p' ∧ p'.lastSent = p.lastSent := by
  unfold considerRound
  split
  · obtain ⟨hunchoke, hchoke⟩ := plan_of_quiet w.st.choker
      [snapshot w.st.picker.isComplete p] (by simp [snapshot, hp.theyInterested, hp.weChoke])
    simp only [runChoker, h.peers, List.map_cons, List.map_nil, hunchoke, hchoke, List.foldl_nil]
    exact ⟨trivial, _, ⟨rfl, h.toDrop, h.keepaliveInterval, h.idleTimeout⟩,
      ⟨rfl, ⟨hp.1, hp.2, hp.3, hp.4, hp.5⟩, rfl, rfl, rfl⟩, rfl⟩
  · exact ⟨rfl, p, h, hp.stays, rfl⟩

/-- What is sent to the guest is noted. -/
theorem recordSent_guest (now : Nat) (h : Attends w.st p) (hp : Guest p)
    (hout : w.out = [] ∨ ∃ msg, w.out = [(p.id, msg)]) :
    (recordSent now w).out = w.out ∧
      ∃ p', Attends (recordSent now w).st p' ∧ Stays p p' ∧
        p'.lastSent = if w.out = [] then p.lastSent else now := by
  unfold recordSent
  rcases hout with hout | ⟨msg, hout⟩
  · simp only [hout, List.foldl_nil, if_true]
    exact ⟨trivial, p, h, hp.stays, rfl⟩
  · simp only [hout, List.foldl_cons, List.foldl_nil, h.modifyId, List.cons_ne_nil, if_false]
    exact ⟨trivial, _, h.set _, ⟨rfl, ⟨hp.1, hp.2, hp.3, hp.4, hp.5⟩, rfl, rfl, rfl⟩, rfl⟩

theorem Attends.finish (h : Attends w.st p) :
    Attends (w.finish []).1.st p ∧ (w.finish []).2 = ⟨[], w.out⟩ := by
  refine ⟨⟨h.peers, rfl, h.keepaliveInterval, h.idleTimeout⟩, ?_⟩
  rw [Work.finish, h.toDrop]
  rfl

/-- The end of a critical section that has nothing for the guest, or one message. -/
theorem finish_guest (env : Env) (h : Attends w.st p) (hp : Guest p)
    (hout : w.out = [] ∨ ∃ msg, w.out = [(p.id, msg)]) :
    ((recordSent env.now (considerRound env w)).finish []).2 = ⟨[], w.out⟩ ∧
      ∃ p', Attends ((recordSent env.now (considerRound env w)).finish []).1.st p' ∧ Stays p p' ∧
        p'.lastSent = if w.out = [] then p.lastSent else env.now := by
  obtain ⟨hround, q, hqseat, hq, hqsent⟩ := considerRound_guest env h hp
  obtain ⟨hsent, r, hrseat, hr, hrsent⟩ := recordSent_guest env.now hqseat hq.guest
    (by rwa [hround, hq.id])
  refine ⟨hrseat.finish.2.trans (by rw [hsent, hround]), r, hrseat.finish.1, ⟨hr.id.trans hq.id,
    hr.guest, hr.metadataId.trans hq.metadataId, hr.metadataRequests.trans hq.metadataRequests,
    hr.lastSeen.trans hq.lastSeen⟩, ?_⟩
  rw [hrsent, hround, hqsent]

/-! ## Messages -/

theorem handle_guest (env : Env) (h : Attends w.st p) (msg : Message) :
    handle sh env p.id msg w = dispatch sh env 0 p.id (!p.opened) p.fast msg
      (w.modifyPeer 0 fun q => { q with opened := q.opened || opens msg }) := by
  unfold handle
  rw [h.findIdx]
  simp only [h.getElem?]

/-- An extended message from the guest reaches its handler, with the guest noted as seen. -/
theorem onMessage_guest (env : Env) (h : Attends e.st p) (hp : Guest p) (extId : UInt8)
    (payload : Bytes) : ∃ (w : Work) (p' : Peer), w.out = [] ∧ Attends w.st p' ∧ Guest p' ∧
      p'.id = p.id ∧ p'.metadataId = p.metadataId ∧ p'.metadataRequests = p.metadataRequests ∧
      p'.lastSent = p.lastSent ∧ p'.lastSeen = env.now ∧
      onMessage sh env p.id (.extended extId payload) e =
        (recordSent env.now (considerRound env (onExtended sh env 0 extId payload w))).finish [] := by
  have hseen : Attends (e.st.modifyId p.id fun q => { q with lastSeen := env.now })
      { p with lastSeen := env.now } := by
    rw [h.modifyId]
    exact h.set _
  have hhandle := handle_guest sh (w := { e.enter with
    st := e.st.modifyId p.id fun q => { q with lastSeen := env.now } }) env hseen
      (.extended extId payload)
  refine ⟨_, _, rfl, Attends.modifyPeer (w := { e.enter with
    st := e.st.modifyId p.id fun q => { q with lastSeen := env.now } }) hseen
      (fun q => { q with opened := q.opened || opens (.extended extId payload) }),
    ⟨hp.1, hp.2, hp.3, hp.4, hp.5⟩, rfl, rfl, rfl, rfl, rfl, ?_⟩
  exact congrArg (fun w => (recordSent env.now (considerRound env w)).finish []) hhandle

/-- The guest's extension handshake names the id to answer it on. -/
theorem onMessage_hello (env : Env) (h : Attends e.st p) (hp : Guest p) {payload : Bytes}
    {hs : Extension.Handshake} (hparse : Extension.Handshake.parse payload = .ok hs)
    (hpex : hs.idFor Extension.I2P_PEX = none) :
    (onMessage sh env p.id (.extended 0 payload) e).2 = ⟨[], []⟩ ∧
      ∃ p', Attends (onMessage sh env p.id (.extended 0 payload) e).1.st p' ∧ Guest p' ∧
        p'.id = p.id ∧ p'.metadataId = hs.idFor Extension.UT_METADATA ∧
        p'.metadataRequests = p.metadataRequests ∧ p'.lastSent = p.lastSent ∧
        p'.lastSeen = env.now := by
  obtain ⟨w, q, hout, hseat, hq, hid, -, hasked, hsent, hseen, heq⟩ :=
    onMessage_guest sh env h hp 0 payload
  have hnamed := hseat.modifyPeer fun p =>
    { p with pexId := hs.idFor Extension.I2P_PEX, metadataId := hs.idFor Extension.UT_METADATA }
  have hext : onExtended sh env 0 0 payload w = w.modifyPeer 0 fun p =>
      { p with pexId := hs.idFor Extension.I2P_PEX, metadataId := hs.idFor Extension.UT_METADATA } := by
    unfold onExtended
    rw [if_pos rfl, hparse]
    simp only
    split
    · rfl
    · unfold sendPex
      rw [hnamed.getElem?]
      simp only [hpex]
  obtain ⟨hjob, r, hrseat, hr, hrsent⟩ := finish_guest env hnamed
    ⟨hq.peerChoking, hq.weChoke, hq.theyInterested, hq.inFlight, hpex⟩ (.inl hout)
  rw [heq, hext]
  refine ⟨hjob.trans (by rw [← hout]; rfl), r, hrseat, hr.guest, hr.id.trans hid, hr.metadataId,
    hr.metadataRequests.trans hasked, ?_, hr.lastSeen.trans hseen⟩
  exact (hrsent.trans (if_pos hout)).trans hsent

/-- A request of the guest's is answered on the id it named. -/
theorem onMessage_request (env : Env) (h : Attends e.st p) (hp : Guest p) {metadataId : UInt8}
    (hnamed : p.metadataId = some metadataId) {piece : Nat} (hpiece : piece ≤ U32_MAX) :
    (onMessage sh env p.id (.extended OUR_METADATA_ID (MetadataMessage.request piece).encode) e).2 =
      ⟨[], [(p.id, .extended metadataId (metadataReply sh.rawInfo
        (p.metadataRequests < MAX_METADATA_REQUESTS_PER_TICK) piece).encode)]⟩ ∧
      ∃ p', Attends (onMessage sh env p.id
          (.extended OUR_METADATA_ID (MetadataMessage.request piece).encode) e).1.st p' ∧ Guest p' ∧
        p'.id = p.id ∧ p'.metadataId = some metadataId ∧
        p'.metadataRequests = p.metadataRequests + 1 ∧ p'.lastSent = env.now ∧
        p'.lastSeen = env.now := by
  obtain ⟨w, q, hout, hseat, hq, hid, hmeta, hasked, -, hseen, heq⟩ :=
    onMessage_guest sh env h hp OUR_METADATA_ID (MetadataMessage.request piece).encode
  have hparse : MetadataMessage.parse (MetadataMessage.request piece).encode = .ok (.request piece) :=
    MetadataMessage.parse_encode hpiece (Nat.zero_le _)
  have hcounted := hseat.modifyPeer fun p => { p with metadataRequests := p.metadataRequests + 1 }
  have hext : onExtended sh env 0 OUR_METADATA_ID (MetadataMessage.request piece).encode w =
      (w.modifyPeer 0 fun p => { p with metadataRequests := p.metadataRequests + 1 }).push q.id
        (.extended metadataId (metadataReply sh.rawInfo
          (q.metadataRequests < MAX_METADATA_REQUESTS_PER_TICK) piece).encode) := by
    unfold onExtended
    rw [if_neg (by decide), if_neg (by decide), if_pos rfl, hparse]
    simp only [serveMetadata, hseat.getElem?, hmeta.trans hnamed]
  obtain ⟨hjob, r, hrseat, hr, hrsent⟩ := finish_guest
    (w := (w.modifyPeer 0 fun p => { p with metadataRequests := p.metadataRequests + 1 }).push q.id
      (.extended metadataId (metadataReply sh.rawInfo
        (q.metadataRequests < MAX_METADATA_REQUESTS_PER_TICK) piece).encode)) env
    ⟨hcounted.peers, hcounted.toDrop, hcounted.keepaliveInterval, hcounted.idleTimeout⟩
    ⟨hq.1, hq.2, hq.3, hq.4, hq.5⟩ (.inr ⟨_, by rw [Work.push, Work.modifyPeer, hout]; rfl⟩)
  have hsends : ((w.modifyPeer 0 fun p => { p with metadataRequests := p.metadataRequests + 1 }).push
      q.id (.extended metadataId (metadataReply sh.rawInfo
        (q.metadataRequests < MAX_METADATA_REQUESTS_PER_TICK) piece).encode)).out =
      [(q.id, .extended metadataId (metadataReply sh.rawInfo
        (q.metadataRequests < MAX_METADATA_REQUESTS_PER_TICK) piece).encode)] := by
    rw [Work.push, Work.modifyPeer, hout]
    rfl
  rw [heq, hext]
  rw [hsends] at hjob hrsent
  refine ⟨hjob.trans (by rw [hid, hasked]), r, hrseat, hr.guest, hr.id.trans hid, ?_, ?_,
    hrsent, hr.lastSeen.trans hseen⟩
  · exact hr.metadataId.trans (hmeta.trans hnamed)
  · exact hr.metadataRequests.trans (congrArg (· + 1) hasked)

/-! ## Ticks -/

theorem maintainRequests_guest (env : Env) (h : Attends w.st p) (hp : Guest p)
    (drops : List (Nat × Bool)) : maintainRequests env (w, drops) = (w, drops) := by
  have hlate : expired w.st env.now p = [] := by
    rw [expired, hp.inFlight]
    rfl
  have hfill : fillRequests env 0 w = w := by
    simp only [fillRequests, h.getElem?, hp.peerChoking, Bool.true_or, if_true]
  have hpeer : maintainPeer env (w, drops) 0 = (w, drops) := by
    simp only [maintainPeer, h.getElem?, hlate, if_true, hfill]
  unfold maintainRequests
  simp only [h.peers, List.length_singleton, List.range_one, List.foldl_cons, List.foldl_nil, hpeer]

/-- What the guest has earned when its time is looked at. -/
theorem tickPeers_guest (env : Env) (h : Attends w.st p)
    (hfresh : env.now - p.lastSeen < DEFAULT_IDLE_TIMEOUT) :
    w.st.peers.foldl (tickPeer env w.st.keepaliveInterval w.st.idleTimeout) (w, []) =
      ({ w with out := w.out ++ if DEFAULT_KEEPALIVE_INTERVAL ≤ env.now - p.lastSent then
        [(p.id, .keepAlive)] else [] }, []) := by
  rw [h.peers, h.keepaliveInterval, h.idleTimeout, List.foldl_cons, List.foldl_nil, tickPeer,
    if_neg (Nat.not_le.2 hfresh)]
  split
  · rfl
  · rw [List.append_nil]

/-- A tick renews the guest's allowance, and sends a keep-alive if nothing was sent for long. -/
theorem maintain_guest (env : Env) (h : Attends e.st p) (hp : Guest p)
    (hfresh : env.now - p.lastSeen < DEFAULT_IDLE_TIMEOUT) :
    (maintain env e).2 = ⟨[], if DEFAULT_KEEPALIVE_INTERVAL ≤ env.now - p.lastSent then
        [(p.id, .keepAlive)] else []⟩ ∧
      ∃ p', Attends (maintain env e).1.st p' ∧ Guest p' ∧ p'.id = p.id ∧
        p'.metadataId = p.metadataId ∧ p'.metadataRequests = 0 ∧
        p'.lastSent = (if DEFAULT_KEEPALIVE_INTERVAL ≤ env.now - p.lastSent then env.now
          else p.lastSent) ∧
        p'.lastSeen = p.lastSeen := by
  have hrenewed : Guest { p with metadataRequests := 0 } := ⟨hp.1, hp.2, hp.3, hp.4, hp.5⟩
  obtain ⟨w, hw⟩ : ∃ w : Work, w = { e.enter with
      st := { e.st with peers := e.st.peers.map fun p => { p with metadataRequests := 0 } } } :=
    ⟨_, rfl⟩
  have hseat : Attends w.st { p with metadataRequests := 0 } := by
    rw [hw]
    exact ⟨by simp [h.peers], h.toDrop, h.keepaliveInterval, h.idleTimeout⟩
  have hout : w.out = [] := by
    rw [hw]
    rfl
  have heq : maintain env e = (fun s : Work × List (Nat × Bool) =>
      (recordSent env.now (considerRound env s.1)).finish s.2) (maintainRequests env
        (w.st.peers.foldl (tickPeer env w.st.keepaliveInterval w.st.idleTimeout) (w, []))) := by
    rw [hw]
    rfl
  have hticked := tickPeers_guest env hseat hfresh
  rw [hout, List.nil_append] at hticked
  rw [heq, hticked]
  generalize hsends : (if DEFAULT_KEEPALIVE_INTERVAL ≤ env.now - p.lastSent then
    [(p.id, Message.keepAlive)] else []) = sends
  have hseat : Attends ({ w with out := sends } : Work).st { p with metadataRequests := 0 } := hseat
  rw [maintainRequests_guest env hseat hrenewed]
  obtain ⟨hjob, r, hrseat, hr, hrsent⟩ := finish_guest env hseat hrenewed (by
    show sends = [] ∨ _
    rw [← hsends]
    split
    · exact .inr ⟨_, rfl⟩
    · exact .inl rfl)
  refine ⟨hjob, r, hrseat, hr.guest, hr.id, hr.metadataId, hr.metadataRequests, ?_, hr.lastSeen⟩
  rw [hrsent]
  show (if sends = [] then p.lastSent else env.now) = _
  rw [← hsends]
  by_cases hquiet : DEFAULT_KEEPALIVE_INTERVAL ≤ env.now - p.lastSent
  · simp only [if_pos hquiet, List.cons_ne_nil, if_false]
  · simp only [if_neg hquiet, if_true]

/-! ## Nobody yet -/

/-- A torrent that has never seated a peer. -/
structure Vacant (st : State) : Prop where
  peers : st.peers = []
  nextId : st.nextId = 0
  banned : st.banned = []
  maxPeers : st.maxPeers = none
  toDrop : st.toDrop = []
  keepaliveInterval : st.keepaliveInterval = DEFAULT_KEEPALIVE_INTERVAL
  idleTimeout : st.idleTimeout = DEFAULT_IDLE_TIMEOUT

theorem vacant_new (sh : Shared) (initialHave : Bitfield) (mode : Mode) (now : Nat) :
    Vacant (State.new sh initialHave mode now) := ⟨rfl, rfl, rfl, rfl, rfl, rfl, rfl⟩

theorem considerRound_vacant (env : Env) (h : w.st.peers = []) :
    ∃ choker last, considerRound env w =
      { w with st := { w.st with choker := choker, lastChokeRound := last } } := by
  unfold considerRound
  split
  · obtain ⟨hunchoke, hchoke⟩ := plan_of_quiet w.st.choker [] (by simp)
    refine ⟨(w.st.choker.plan []).1, env.now, ?_⟩
    simp only [runChoker, h, List.map_nil, hunchoke, hchoke, List.foldl_nil]
  · exact ⟨w.st.choker, w.st.lastChokeRound, rfl⟩

/-- A tick has nothing to do but count a choke round. -/
theorem maintain_vacant (env : Env) (h : Vacant e.st) :
    (maintain env e).2 = ⟨[], []⟩ ∧ Vacant (maintain env e).1.st ∧
      (maintain env e).1.st.picker.haveField = e.st.picker.haveField := by
  obtain ⟨w, hw⟩ : ∃ w : Work, w = { e.enter with
      st := { e.st with peers := e.st.peers.map fun p => { p with metadataRequests := 0 } } } :=
    ⟨_, rfl⟩
  have hvacant : Vacant w.st := by
    rw [hw]
    exact ⟨by simp [h.peers], h.nextId, h.banned, h.maxPeers, h.toDrop, h.keepaliveInterval,
      h.idleTimeout⟩
  have hout : w.out = [] ∧ w.st.picker.haveField = e.st.picker.haveField := by
    rw [hw]
    exact ⟨rfl, rfl⟩
  have heq : maintain env e = (fun s : Work × List (Nat × Bool) =>
      (recordSent env.now (considerRound env s.1)).finish s.2) (maintainRequests env
        (w.st.peers.foldl (tickPeer env w.st.keepaliveInterval w.st.idleTimeout) (w, []))) := by
    rw [hw]
    rfl
  have hrequests : maintainRequests env (w, []) = (w, []) := by
    unfold maintainRequests
    rw [hvacant.peers]
    rfl
  obtain ⟨choker, last, hround⟩ := considerRound_vacant env hvacant.peers
  rw [heq, hvacant.peers, List.foldl_nil, hrequests]
  simp only [hround, recordSent, hout.1, List.foldl_nil, Work.finish, hvacant.toDrop,
    List.append_nil, true_and]
  exact ⟨⟨hvacant.peers, hvacant.nextId, hvacant.banned, hvacant.maxPeers, rfl,
    hvacant.keepaliveInterval, hvacant.idleTimeout⟩, hout.2⟩

/-- The first peer is seated under the first id. -/
theorem registerPeer_vacant (env : Env) (h : Vacant st) (dest : DestHash) (fast : Bool) :
    (registerPeer sh env dest fast st).2 = .ok 0 ∧
      Attends (registerPeer sh env dest fast st).1 (newPeer sh env.now 0 dest fast) := by
  rcases registerPeer_cases sh env dest fast st with ⟨r, heq⟩ | ⟨known, -, -, -, -, heq⟩
  · exfalso
    simp [registerPeer, h.peers, h.banned, h.maxPeers, MAX_CONNECTIONS_PER_DEST] at heq
  · rw [heq]
    refine ⟨by rw [h.nextId], ⟨?_, h.toDrop, h.keepaliveInterval, h.idleTimeout⟩⟩
    rw [h.peers, h.nextId]
    rfl

theorem guest_newPeer (sh : Shared) (now id : Nat) (dest : DestHash) (fast : Bool) :
    Guest (newPeer sh now id dest fast) := ⟨rfl, rfl, rfl, rfl, rfl⟩

end Clove.Torrent
