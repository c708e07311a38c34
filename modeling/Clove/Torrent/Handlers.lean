import Clove.PickerAccounting
import Clove.Torrent.State

/-!
# The message handlers

The model of the critical sections of `torrent.rs`: handling one message, the maintenance
tick, registering and dropping a peer.  Each handler is a function on a `Work`, the state
under the lock together with the files, the messages collected so far and the counters.

A peer is named by its position in the table, as the source names it; a position past the
end does nothing.
-/

namespace Clove.Torrent

open Wire (BLOCK_LEN BlockRequest Message)
open Metadata (MetadataMessage METADATA_PIECE_LEN)

/-! ## Requests -/

/-- What `fill_requests` has gathered: the in-flight map, the requests to send, and the
blocks the peer already owed. -/
structure Filling where
  inFlight : Map BlockKey Nat
  asked : List BlockRequest
  duplicates : List BlockKey

/-- One picked request.  The moment is recorded whether or not the block was owed. -/
def askFor (now : Nat) (f : Filling) (req : BlockRequest) : Filling :=
  let key := BlockRequest.key req
  if key ∈ f.inFlight then
    { f with inFlight := f.inFlight.insert key now, duplicates := f.duplicates ++ [key] }
  else { f with inFlight := f.inFlight.insert key now, asked := f.asked ++ [req] }

/-- Give a list of blocks back to the picker. -/
def failAll (pk : Picker) (keys : List BlockKey) : Picker :=
  keys.foldl (fun pk k => pk.blockFailed k.1 k.2) pk

/-- Top up a peer's request pipeline from the picker. -/
def fillRequests (env : Env) (idx : Nat) (w : Work) : Work :=
  match w.st.peers[idx]? with
  | none => w
  | some peer =>
      if peer.peerChoking || !peer.weInterested then w
      else
        let space := PIPELINE_DEPTH - peer.inFlight.keys.length
        if space = 0 then w
        else
          let picked := w.st.picker.pick peer.has space
          let f := picked.2.foldl (askFor (env.fillNow idx)) ⟨peer.inFlight, [], []⟩
          let w := w.modifyPeer idx fun p => { p with inFlight := f.inFlight }
          let w := w.modifyPicker fun _ => failAll picked.1 f.duplicates
          { w with out := w.out ++ f.asked.map fun req => (peer.id, .request req) }

/-- Withdraw a block from the peer at one position, if it owes it. -/
def cancelAt (idx index begin blockNo length : Nat) (w : Work) (other : Nat) : Work :=
  if other = idx then w
  else
    match w.st.peers[other]? with
    | none => w
    | some peer =>
        if (index, blockNo) ∈ peer.inFlight then
          let w := w.modifyPeer other fun p =>
            { p with inFlight := p.inFlight.erase (index, blockNo) }
          let w := w.modifyPicker fun pk => pk.blockFailed index blockNo
          w.push peer.id (.cancel ⟨index, begin, length⟩)
        else w

/-- A block has arrived from `idx`: withdraw it from every other peer that owes it. -/
def cancelElsewhere (idx index begin blockNo : Nat) (w : Work) : Work :=
  let length := w.st.picker.blockLen index blockNo
  (List.range w.st.peers.length).foldl (cancelAt idx index begin blockNo length) w

/-- Whether a request has been out too long. -/
def expired (st : State) (now : Nat) (peer : Peer) : List BlockKey :=
  (peer.inFlight.entries.filter fun e => st.requestTimeout ≤ now - e.2).map (·.1)

/-- One peer of `maintain_requests`: release what expired, count a strike, and refill
unless it is out of strikes. -/
def maintainPeer (env : Env) (s : Work × List (Nat × Bool)) (idx : Nat) :
    Work × List (Nat × Bool) :=
  match s.1.st.peers[idx]? with
  | none => s
  | some peer =>
      let late := expired s.1.st env.now peer
      if late = [] then (fillRequests env idx s.1, s.2)
      else
        let w := s.1.modifyPeer idx fun p =>
          { p with inFlight := late.foldl (fun m k => m.erase k) p.inFlight
                   strikes := p.strikes + 1 }
        let w := w.modifyPicker fun pk => failAll pk late
        if peer.strikes + 1 ≥ REQUEST_STRIKES then (w, s.2 ++ [(peer.id, true)])
        else (fillRequests env idx w, s.2)

/-- Give up on blocks nobody answered, and top every surviving pipeline up. -/
def maintainRequests (env : Env) (s : Work × List (Nat × Bool)) : Work × List (Nat × Bool) :=
  (List.range s.1.st.peers.length).foldl (maintainPeer env) s

/-! ## Interest and choking -/

/-- Recompute whether we are interested in a peer and send the transition if it changed. -/
def updateInterest (env : Env) (idx : Nat) (w : Work) : Work :=
  match w.st.peers[idx]? with
  | none => w
  | some peer =>
      let want := peer.has.iterPresent.any fun p => !w.st.picker.has p
      if want && !peer.weInterested then
        let w := w.modifyPeer idx fun p => { p with weInterested := true }
        let w := w.push peer.id .interested
        if peer.peerChoking then w else fillRequests env idx w
      else if !want && peer.weInterested then
        (w.modifyPeer idx fun p => { p with weInterested := false }).push peer.id .notInterested
      else w

/-- A peer's inputs to a choke round. -/
def snapshot (seeding : Bool) (p : Peer) : PeerSnapshot where
  id := p.id
  interested := p.theyInterested
  rate := if seeding then p.uploaded - p.uploadedAtRound else p.downloaded - p.downloadedAtRound
  unchoked := !p.weChoke

/-- Choke or unchoke the peer with this id. -/
def setChoke (choke : Bool) (w : Work) (id : Nat) : Work :=
  match w.st.peers.findIdx? (·.id = id) with
  | none => w
  | some idx =>
      (w.modifyPeer idx fun p => { p with weChoke := choke }).push id
        (if choke then .choke else .unchoke)

/-- Run a choke round and enqueue the resulting messages. -/
def runChoker (w : Work) : Work :=
  let snapshots := w.st.peers.map (snapshot w.st.picker.isComplete)
  let plan := w.st.choker.plan snapshots
  let peers := w.st.peers.map fun p =>
    { p with uploadedAtRound := p.uploaded, downloadedAtRound := p.downloaded }
  let w := { w with st := { w.st with peers := peers, choker := plan.1 } }
  plan.2.choke.foldl (setChoke true) (plan.2.unchoke.foldl (setChoke false) w)

/-- Run a round if one is due. -/
def considerRound (env : Env) (w : Work) : Work :=
  if w.st.chokeInterval ≤ env.roundNow - w.st.lastChokeRound then
    runChoker { w with st := { w.st with lastChokeRound := env.now } }
  else w

/-- Note that each peer named in `out` has had something queued for it. -/
def recordSent (now : Nat) (w : Work) : Work :=
  let touch := fun (st : State) (o : Outgoing) =>
    st.modifyId o.1 fun p => { p with lastSent := now }
  { w with st := w.out.foldl touch w.st }

/-! ## Blocks -/

/-- The verdict on a complete piece. -/
def onComplete (sh : Shared) (env : Env) (index : Nat) (w : Work) : Work :=
  match sh.storage.verifyPiece sh.sha1 w.disk env.readFault index with
  | .ok true =>
      let w := w.modifyPicker fun pk => pk.setHave index
      let w := { w with st := w.st.creditSuppliers index }
      { w with out := w.out ++ w.st.peers.map fun p => (p.id, .have_ index) }
  | .ok false =>
      let w := w.modifyPicker fun pk => pk.resetPiece index
      { w with st := w.st.blameSuppliers index }
  | .error e => { w with st := { w.st with storageError := some e } }

/-- Count a delivered block, and remember who supplied it. -/
def recordBlock (idx : Nat) (k : BlockKey) (dest : DestHash) (length : Nat) (w : Work) : Work :=
  let w := { w with downloaded := w.downloaded + length }
  let w := w.modifyPeer idx fun p => { p with downloaded := p.downloaded + length }
  { w with st := { w.st with suppliers := w.st.suppliers.insert k dest } }

/-- A wanted block is on disk: account for it, and judge the piece if it is complete.
Gives whether the pipeline is refilled afterwards. -/
def onWritten (sh : Shared) (env : Env) (idx index begin : Nat) (block : Bytes) (dest : DestHash)
    (w : Work) : Work × Bool :=
  let blockNo := begin / BLOCK_LEN
  let w := recordBlock idx (index, blockNo) dest block.length w
  let w := cancelElsewhere idx index begin blockNo w
  let received := w.st.picker.blockReceived index blockNo
  let w := w.modifyPicker fun _ => received.1
  if received.2 then (onComplete sh env index w, true) else (w, false)

/-- The payload of a block a peer owed, for a piece not held. -/
def onOwedBlock (sh : Shared) (env : Env) (idx index begin : Nat) (block : Bytes)
    (dest : DestHash) (w : Work) : Work × Bool :=
  let blockNo := begin / BLOCK_LEN
  if w.st.picker.isReceived index blockNo then
    let w := w.modifyPicker fun pk => pk.blockFailed index blockNo
    ({ w with trace := w.trace ++ [.duplicate (index, blockNo)] }, true)
  else
    let write := sh.storage.writeBlock env.writeFault index begin block
    let entry := Access.write (sh.storage.offsetOf index begin) block.length
      w.st.picker.haveField write.1
    let w := { w with disk := w.disk.writes write.1, trace := w.trace ++ [entry] }
    match write.2 with
    | .error e =>
        let w := w.modifyPicker fun pk => pk.blockFailed index blockNo
        ({ w with st := { w.st with storageError := some e } }, true)
    | .ok () => onWritten sh env idx index begin block dest w

/-- Take a block off a peer's in-flight map.  One it owed clears its strikes. -/
def takeOwed (idx : Nat) (k : BlockKey) (requested : Bool) (w : Work) : Work :=
  w.modifyPeer idx fun p =>
    { p with inFlight := p.inFlight.erase k
             strikes := if requested then 0 else p.strikes }

/-- A peer sent a block: validate, persist, advance the picker, and on piece completion
verify, announce and refill. -/
def onBlock (sh : Shared) (env : Env) (idx index begin : Nat) (block : Bytes) (w : Work) : Work :=
  match w.st.peers[idx]? with
  | none => w
  | some peer =>
      let blockNo := begin / BLOCK_LEN
      if begin % BLOCK_LEN ≠ 0 ∨ sh.numPieces ≤ index then w
      else if block.length ≠ w.st.picker.blockLen index blockNo then w
      else
        let requested := decide ((index, blockNo) ∈ peer.inFlight)
        let w := takeOwed idx (index, blockNo) requested w
        if !requested || w.st.picker.has index then fillRequests env idx w
        else
          let r := onOwedBlock sh env idx index begin block peer.dest w
          if r.2 then fillRequests env idx r.1 else r.1

/-- What a block can lead to: nothing, a refill because it is not wanted, or the work on an
owed block. -/
theorem onBlock_cases (sh : Shared) (env : Env) (idx index begin : Nat) (block : Bytes)
    (w : Work) :
    onBlock sh env idx index begin block w = w ∨
    ∃ peer, w.st.peers[idx]? = some peer ∧ begin % BLOCK_LEN = 0 ∧ index < sh.numPieces ∧
      block.length = w.st.picker.blockLen index (begin / BLOCK_LEN) ∧
      (((index, begin / BLOCK_LEN) ∉ peer.inFlight ∧
          onBlock sh env idx index begin block w =
            fillRequests env idx (takeOwed idx (index, begin / BLOCK_LEN) false w)) ∨
        ((index, begin / BLOCK_LEN) ∈ peer.inFlight ∧ w.st.picker.has index = true ∧
          onBlock sh env idx index begin block w =
            fillRequests env idx (takeOwed idx (index, begin / BLOCK_LEN) true w)) ∨
        ((index, begin / BLOCK_LEN) ∈ peer.inFlight ∧ w.st.picker.has index = false ∧
          ∃ r, r = onOwedBlock sh env idx index begin block peer.dest
              (takeOwed idx (index, begin / BLOCK_LEN) true w) ∧
            onBlock sh env idx index begin block w =
              if r.2 then fillRequests env idx r.1 else r.1)) := by
  unfold onBlock
  cases hidx : w.st.peers[idx]? with
  | none => exact .inl rfl
  | some peer =>
      by_cases hshape : begin % BLOCK_LEN ≠ 0 ∨ sh.numPieces ≤ index
      · exact .inl (by simp only [if_pos hshape])
      · simp only [if_neg hshape]
        by_cases hlen : block.length ≠ w.st.picker.blockLen index (begin / BLOCK_LEN)
        · exact .inl (by simp only [if_pos hlen])
        · simp only [if_neg hlen]
          rw [not_or, not_not, not_le] at hshape
          refine .inr ⟨peer, rfl, hshape.1, hshape.2, not_not.1 hlen, ?_⟩
          by_cases hreq : (index, begin / BLOCK_LEN) ∈ peer.inFlight
          · cases hheld : w.st.picker.has index with
            | true => exact .inr (.inl ⟨hreq, rfl, by simp [hreq, takeOwed, Work.modifyPeer, hheld]⟩)
            | false =>
                exact .inr (.inr ⟨hreq, rfl, _, rfl, by
                  simp [hreq, takeOwed, Work.modifyPeer, hheld]⟩)
          · exact .inl ⟨hreq, by simp [hreq]⟩

/-- Serve a block if we are unchoking this peer and hold the piece. -/
def serveRequest (sh : Shared) (env : Env) (idx : Nat) (req : BlockRequest) (w : Work) : Work :=
  match w.st.peers[idx]? with
  | none => w
  | some peer =>
      if peer.weChoke || req.length = 0 || BLOCK_LEN < req.length ||
          w.st.picker.pieceLen req.index < req.begin + req.length ||
          !w.st.picker.has req.index then w
      else
        match sh.storage.readBlock w.disk (env.readFault 0) req.index req.begin req.length with
        | .error _ => w
        | .ok data =>
            let w := { w with uploaded := w.uploaded + data.length }
            let w := w.modifyPeer idx fun p => { p with uploaded := p.uploaded + data.length }
            w.push peer.id (.piece req.index req.begin data)

/-! ## Extended messages -/

/-- Send a peer the destinations we know, minus its own. -/
def sendPex (env : Env) (idx : Nat) (w : Work) : Work :=
  match w.st.peers[idx]? with
  | none => w
  | some peer =>
      match peer.pexId with
      | none => w
      | some pexId =>
          let added := ((w.st.walk env.rank).filter (· ≠ peer.dest)).take Pex.MAX_PEX_PEERS
          let msg : Pex.PexMessage := ⟨added, []⟩
          if msg.isEmpty then w else w.push peer.id (.extended pexId msg.encode)

/-- The answer to a request for a metadata piece. -/
def metadataReply (rawInfo : Bytes) (allowed : Bool) (piece : Nat) : MetadataMessage :=
  if allowed && piece * METADATA_PIECE_LEN < rawInfo.length then
    .data piece (min rawInfo.length U32_MAX)
      ((rawInfo.drop (piece * METADATA_PIECE_LEN)).take METADATA_PIECE_LEN)
  else .reject piece

/-- Serve one metadata piece, or reject it. -/
def serveMetadata (sh : Shared) (idx piece : Nat) (w : Work) : Work :=
  match w.st.peers[idx]? with
  | none => w
  | some peer =>
      match peer.metadataId with
      | none => w
      | some metadataId =>
          let allowed := peer.metadataRequests < MAX_METADATA_REQUESTS_PER_TICK
          let w := w.modifyPeer idx fun p => { p with metadataRequests := p.metadataRequests + 1 }
          w.push peer.id (.extended metadataId (metadataReply sh.rawInfo allowed piece).encode)

/-- Learn one destination from a peer exchange. -/
def learn (env : Env) (w : Work) (dest : DestHash) : Work :=
  let r := w.st.rememberPeerFrom env.rank dest .pex
  { w with st := if r.2 then { r.1 with pexLearned := r.1.pexLearned + 1 } else r.1 }

/-- Route an extended message. -/
def onExtended (sh : Shared) (env : Env) (idx : Nat) (extId : UInt8) (payload : Bytes)
    (w : Work) : Work :=
  if extId = 0 then
    match Extension.Handshake.parse payload with
    | .error _ => w
    | .ok hs =>
        let w := w.modifyPeer idx fun p =>
          { p with pexId := hs.idFor Extension.I2P_PEX
                   metadataId := hs.idFor Extension.UT_METADATA }
        if sh.isPrivate then w else sendPex env idx w
  else if extId = OUR_PEX_ID then
    if sh.isPrivate then w
    else
      match Pex.PexMessage.parse payload with
      | .error _ => w
      | .ok pex => pex.added.foldl (learn env) w
  else if extId = OUR_METADATA_ID then
    match MetadataMessage.parse payload with
    | .ok (.request piece) => serveMetadata sh idx piece w
    | _ => w
  else w

/-! ## Messages -/

/-- Queue a peer for removal for cause. -/
def violation (id : Nat) (w : Work) : Work :=
  { w with st := { w.st with toDrop := w.st.toDrop ++ [(id, true)] } }

/-- Swap in a peer's piece set, withdrawing what the old one contributed. -/
def replacePieceSet (idx : Nat) (field : Bitfield) (w : Work) : Work :=
  match w.st.peers[idx]? with
  | none => w
  | some peer =>
      let w := w.modifyPeer idx fun p => { p with has := field }
      w.modifyPicker fun pk => (pk.removeBitfield peer.has).addBitfield field

/-- A choking peer drops outstanding requests; release them. -/
def onChoke (idx : Nat) (w : Work) : Work :=
  match w.st.peers[idx]? with
  | none => w
  | some peer =>
      let w := w.modifyPeer idx fun p => { p with peerChoking := true, inFlight := ∅ }
      w.modifyPicker fun pk => failAll pk peer.inFlight.keys

/-- A peer became interested: a round runs now only if a slot is free. -/
def onInterested (idx : Nat) (w : Work) : Work :=
  let w := w.modifyPeer idx fun p => { p with theyInterested := true }
  if w.st.peers.countP (fun p => !p.weChoke) < w.st.choker.maxUnchoked then runChoker w else w

/-- An uninterested peer is choked directly. -/
def onNotInterested (idx : Nat) (w : Work) : Work :=
  match w.st.peers[idx]? with
  | none => w
  | some peer =>
      let w := w.modifyPeer idx fun p => { p with theyInterested := false }
      if peer.weChoke then w
      else (w.modifyPeer idx fun p => { p with weChoke := true }).push peer.id .choke

/-- A peer announced one piece.  Counted only when the bit changes. -/
def onHave (sh : Shared) (env : Env) (idx piece : Nat) (w : Work) : Work :=
  match w.st.peers[idx]? with
  | none => w
  | some peer =>
      if piece < sh.numPieces && !peer.has.has piece then
        let w := w.modifyPeer idx fun p => { p with has := p.has.set piece }
        let w := w.modifyPicker fun pk => pk.addSingle piece
        updateInterest env idx w
      else w

/-- Act on a message from the peer at `idx`.  `first` says nothing opened the connection
before it. -/
def dispatch (sh : Shared) (env : Env) (idx id : Nat) (first fast : Bool) (msg : Message)
    (w : Work) : Work :=
  match msg with
  | .keepAlive => w
  | .cancel _ => w
  | .rejectRequest _ => if fast then w else violation id w
  | .suggestPiece _ => if fast then w else violation id w
  | .allowedFast _ => if fast then w else violation id w
  | .extended extId payload => onExtended sh env idx extId payload w
  | .choke => onChoke idx w
  | .unchoke => fillRequests env idx (w.modifyPeer idx fun p => { p with peerChoking := false })
  | .interested => onInterested idx w
  | .notInterested => onNotInterested idx w
  | .have_ piece => onHave sh env idx piece w
  | .bitfield bytes =>
      match Bitfield.fromBytes bytes sh.numPieces with
      | .ok field =>
          if first then updateInterest env idx (replacePieceSet idx field w) else violation id w
      | .error _ => violation id w
  | .haveAll =>
      if first && fast then
        updateInterest env idx (replacePieceSet idx (Bitfield.full sh.numPieces) w)
      else violation id w
  | .haveNone =>
      if first && fast then
        updateInterest env idx (replacePieceSet idx (Bitfield.empty sh.numPieces) w)
      else violation id w
  | .request req => serveRequest sh env idx req w
  | .piece index begin block => onBlock sh env idx index begin block w

/-- Whether a message opens the connection. -/
def opens : Message → Bool
  | .keepAlive => false
  | .extended id _ => id ≠ 0
  | _ => true

/-- Handle one message from the peer with this id, if it is still in the table. -/
def handle (sh : Shared) (env : Env) (id : Nat) (msg : Message) (w : Work) : Work :=
  match w.st.peers.findIdx? (·.id = id) with
  | none => w
  | some idx =>
      match w.st.peers[idx]? with
      | none => w
      | some peer =>
          let w := w.modifyPeer idx fun p => { p with opened := p.opened || opens msg }
          dispatch sh env idx id (!peer.opened) peer.fast msg w

/-! ## Critical sections -/

/-- The state between critical sections: what is behind the lock, the files, and the
counters. -/
structure Engine where
  st : State
  disk : Disk
  uploaded : Nat
  downloaded : Nat
  trace : List Access

/-- Take the lock. -/
def Engine.enter (e : Engine) : Work := ⟨e.st, e.disk, [], e.uploaded, e.downloaded, e.trace⟩

/-- What a critical section leaves its thread to do: peers to drop, and messages to send. -/
structure Job where
  drops : List (Nat × Bool)
  sends : List Outgoing

/-- Leave a critical section, taking the peers queued for removal. -/
def Work.finish (w : Work) (drops : List (Nat × Bool)) : Engine × Job :=
  (⟨{ w.st with toDrop := [] }, w.disk, w.uploaded, w.downloaded, w.trace⟩,
    ⟨drops ++ w.st.toDrop, w.out⟩)

/-- The critical section of `on_message`. -/
def onMessage (sh : Shared) (env : Env) (id : Nat) (msg : Message) (e : Engine) : Engine × Job :=
  let w := { e.enter with st := e.st.modifyId id fun p => { p with lastSeen := env.now } }
  let w := handle sh env id msg w
  let w := considerRound env w
  let w := recordSent env.now w
  w.finish []

/-- The keep-alive or the idle drop a peer has earned. -/
def tickPeer (env : Env) (keepalive timeout : Nat) (s : Work × List (Nat × Bool)) (p : Peer) :
    Work × List (Nat × Bool) :=
  if timeout ≤ env.now - p.lastSeen then (s.1, s.2 ++ [(p.id, false)])
  else if keepalive ≤ env.now - p.lastSent then (s.1.push p.id .keepAlive, s.2)
  else s

/-- The critical section of `maintain`. -/
def maintain (env : Env) (e : Engine) : Engine × Job :=
  let w := e.enter
  let peers := w.st.peers.map fun p => { p with metadataRequests := 0 }
  let w := { w with st := { w.st with peers := peers } }
  let s := w.st.peers.foldl (tickPeer env w.st.keepaliveInterval w.st.idleTimeout) (w, [])
  let s := maintainRequests env s
  let w := considerRound env s.1
  let w := recordSent env.now w
  w.finish s.2

/-- Remove a peer: its availability is withdrawn and its blocks released. -/
def dropPeer (now id : Nat) (forCause : Bool) (st : State) : State :=
  match st.peers.findIdx? (·.id = id) with
  | none => st
  | some pos =>
      match st.peers[pos]? with
      | none => st
      | some peer =>
          let picker := failAll (st.picker.removeBitfield peer.has) peer.inFlight.keys
          let st := { st with peers := Lists.swapRemove st.peers pos, picker := picker }
          if forCause then st.penalise peer.dest now else st

/-- Why a connection was not seated. -/
inductive Refusal where
  | destFull
  | banned
  | torrentFull
deriving Repr, DecidableEq

/-- A newly seated peer. -/
def newPeer (sh : Shared) (now id : Nat) (dest : DestHash) (fast : Bool) : Peer where
  id := id
  dest := dest
  has := Bitfield.empty sh.numPieces
  opened := false
  fast := fast
  peerChoking := true
  weChoke := true
  theyInterested := false
  weInterested := false
  inFlight := ∅
  strikes := 0
  lastSent := now
  lastSeen := now
  uploaded := 0
  downloaded := 0
  uploadedAtRound := 0
  downloadedAtRound := 0
  pexId := none
  metadataId := none
  metadataRequests := 0

/-- Add a peer to the table and give its id, or say why not. -/
def registerPeer (sh : Shared) (env : Env) (dest : DestHash) (fast : Bool) (st : State) :
    State × Except Refusal Nat :=
  if dest ∈ st.banned then (st, .error .banned)
  else if MAX_CONNECTIONS_PER_DEST ≤ st.peers.countP (·.dest = dest) then (st, .error .destFull)
  else if st.maxPeers.any (· ≤ st.peers.length) then (st, .error .torrentFull)
  else
    let id := st.nextId
    let st := { st with nextId := id + 1 }
    let st := (st.rememberPeerFrom env.rank dest .trusted).1
    ({ st with peers := st.peers ++ [newPeer sh env.now id dest fast] }, .ok id)

/-! ## Seats taken and given up -/

/-- A peer that is seated leaves the table, its availability is withdrawn and its blocks are
released. -/
theorem dropPeer_cases (now id : Nat) (forCause : Bool) (st : State) :
    ((∀ p ∈ st.peers, p.id ≠ id) ∧ dropPeer now id forCause st = st) ∨
    ∃ peer rest, (peer :: rest).Perm st.peers ∧ peer.id = id ∧
      dropPeer now id forCause st = { st with
        peers := rest
        picker := failAll (st.picker.removeBitfield peer.has) peer.inFlight.keys
        offences := if forCause then (st.penalise peer.dest now).offences else st.offences } := by
  unfold dropPeer
  cases hfind : st.peers.findIdx? (·.id = id) with
  | none =>
      refine .inl ⟨fun p hp => ?_, rfl⟩
      simpa using List.findIdx?_eq_none_iff.1 hfind p hp
  | some pos =>
      obtain ⟨hlt, hid, -⟩ := List.findIdx?_eq_some_iff_getElem.1 hfind
      refine .inr ⟨_, _, Lists.perm_swapRemove hlt, of_decide_eq_true hid, ?_⟩
      simp only [List.getElem?_eq_getElem hlt]
      cases forCause with
      | false => rfl
      | true =>
          have hheld : ∀ st' : State, st'.offences = st.offences → ∀ dest, st'.penalise dest now =
              { st' with offences := (st.penalise dest now).offences } := fun st' h dest => by
            rw [State.penalise_eq, State.offences_penalise h]
          simp only [if_true]
          rw [hheld]
          rfl

/-- A connection is refused and nothing changes, or it is seated under the next id. -/
theorem registerPeer_cases (sh : Shared) (env : Env) (dest : DestHash) (fast : Bool) (st : State) :
    (∃ r, registerPeer sh env dest fast st = (st, .error r)) ∨
    ∃ known, known = ({ st with nextId := st.nextId + 1 }.rememberPeerFrom env.rank dest
        .trusted).1.knownPeers ∧
      dest ∉ st.banned ∧ st.peers.countP (·.dest = dest) < MAX_CONNECTIONS_PER_DEST ∧
      (∀ n, st.maxPeers = some n → st.peers.length < n) ∧
      registerPeer sh env dest fast st = ({ st with
        nextId := st.nextId + 1
        knownPeers := known
        peers := st.peers ++ [newPeer sh env.now st.nextId dest fast] }, .ok st.nextId) := by
  unfold registerPeer
  split
  · exact .inl ⟨_, rfl⟩
  · split
    · exact .inl ⟨_, rfl⟩
    · split
      · exact .inl ⟨_, rfl⟩
      · rename_i hban hdest hfull
        refine .inr ⟨_, rfl, hban, not_le.1 hdest, fun n hn => ?_, ?_⟩
        · rw [hn] at hfull
          simpa using hfull
        · obtain ⟨known, heq⟩ := State.rememberPeerFrom_eq { st with nextId := st.nextId + 1 } env.rank
            dest .trusted
          simp only [heq]

end Clove.Torrent
