import Clove.Extension
import Clove.Choker
import Clove.Storage

/-!
# The torrent state

The model of the data of `torrent.rs`: the peer table, the shared state behind the torrent
lock, and the bookkeeping of known, suspected and banned destinations.

Instants and durations are in milliseconds.  What a critical section cannot know in advance
is its `Env`: the clock readings it takes, what storage does wrong, and the order in which
hash maps are walked.
-/

namespace Clove.Torrent

open Wire (BLOCK_LEN BlockRequest Message)

/-! ## Constants -/

/-- Outstanding block requests a peer may have in flight. -/
def PIPELINE_DEPTH : Nat := 16

def OUR_PEX_ID : UInt8 := 1

def OUR_METADATA_ID : UInt8 := 2

def DEFAULT_CHOKE_INTERVAL : Nat := 10000

def DEFAULT_KEEPALIVE_INTERVAL : Nat := 100000

def DEFAULT_REQUEST_TIMEOUT : Nat := 90000

/-- Maintenance rounds a peer may let requests expire in before it is dropped. -/
def REQUEST_STRIKES : Nat := 3

def DEFAULT_IDLE_TIMEOUT : Nat := 300000

/-- Largest number of destinations one torrent remembers. -/
def MAX_KNOWN_PEERS : Nat := 1024

/-- Concurrent connections one destination may hold on one torrent. -/
def MAX_CONNECTIONS_PER_DEST : Nat := 2

/-- Hash failures a destination may share the blame for before it is banned. -/
def SUSPICION_LIMIT : Nat := 3

/-- Metadata pieces one peer may ask for per maintenance tick. -/
def MAX_METADATA_REQUESTS_PER_TICK : Nat := 64

def MISBEHAVIOUR_BACKOFF : Nat := 30000

def MAX_MISBEHAVIOUR_BACKOFF : Nat := 3600000

/-- Outgoing message queue depth per peer. -/
def OUTGOING_QUEUE : Nat := 256

/-! ## Data -/

/-- Where a known destination came from. -/
inductive Source where
  | pex
  | trusted
deriving Repr, DecidableEq

/-- A connected peer. -/
structure Peer where
  id : Nat
  dest : DestHash
  /-- Their piece set. -/
  has : Bitfield
  /-- Whether anything but a keep-alive or the extension handshake has been heard. -/
  opened : Bool
  /-- Whether BEP 6 was negotiated. -/
  fast : Bool
  peerChoking : Bool
  weChoke : Bool
  theyInterested : Bool
  weInterested : Bool
  /-- Blocks requested from them, each with the moment it was asked for. -/
  inFlight : Map BlockKey Nat
  /-- Maintenance rounds in a row in which requests expired. -/
  strikes : Nat
  lastSent : Nat
  lastSeen : Nat
  uploaded : Nat
  downloaded : Nat
  uploadedAtRound : Nat
  downloadedAtRound : Nat
  pexId : Option UInt8
  metadataId : Option UInt8
  /-- Metadata pieces asked for since the last maintenance tick. -/
  metadataRequests : Nat

/-- The state behind the torrent lock. -/
structure State where
  picker : Picker
  choker : Choker
  lastChokeRound : Nat
  chokeInterval : Nat
  keepaliveInterval : Nat
  idleTimeout : Nat
  requestTimeout : Nat
  peers : List Peer
  nextId : Nat
  knownPeers : Map DestHash Source
  pexLearned : Nat
  /-- Who wrote each block of a piece not yet verified. -/
  suppliers : Map BlockKey DestHash
  banned : List DestHash
  suspicion : Map DestHash Nat
  storageError : Option IoError
  localDest : Option DestHash
  /-- Peers to remove once the lock is released, each with whether it is for cause. -/
  toDrop : List (Nat × Bool)
  /-- Destinations dropped for misbehaving: how often, and until when to leave them. -/
  offences : Map DestHash (Nat × Nat)
  /-- The most peers to seat; nothing for no limit. -/
  maxPeers : Option Nat

/-- What never changes about a running torrent. -/
structure Shared where
  infoHash : Bytes
  peerId : Bytes
  storage : Storage
  /-- Raw `info` dictionary bytes. -/
  rawInfo : Bytes
  /-- A private torrent's peers come from its tracker and nowhere else. -/
  isPrivate : Bool
  /-- The digest pieces are checked with. -/
  sha1 : Bytes → Bytes

/-- What a critical section meets that it does not decide. -/
structure Env where
  /-- The clock when the lock is taken. -/
  now : Nat
  /-- The clock when a choke round is considered. -/
  roundNow : Nat
  /-- The clock when the pipeline of the peer at this position is filled. -/
  fillNow : Nat → Nat
  /-- Whether the block write stops early, and after how many bytes. -/
  writeFault : Option Nat
  /-- Whether this read of the section fails. -/
  readFault : Nat → Bool
  /-- The order hash maps are walked in. -/
  rank : DestHash → Nat

/-- A message for a peer, collected under the lock and sent after it is released. -/
abbrev Outgoing := Nat × Message

/-- Not in the source: what a critical section did that its result does not show. -/
inductive Access where
  /-- A block write to this global range, the pieces held when it was made, and what it wrote
  to the files. -/
  | write (start len : Nat) (held : Bitfield) (parts : List FileWrite)
  /-- The branch for a block that is already received. -/
  | duplicate (k : BlockKey)

/-- What it wrote to the files. -/
def Access.parts : Access → List FileWrite
  | .write _ _ _ parts => parts
  | .duplicate _ => []

/-- A critical section in progress. -/
structure Work where
  st : State
  disk : Disk
  out : List Outgoing
  /-- Bytes served to peers. -/
  uploaded : Nat
  /-- Payload bytes received. -/
  downloaded : Nat
  trace : List Access

namespace Shared

def numPieces (sh : Shared) : Nat := sh.storage.layout.numPieces

/-- Our extension handshake payload. -/
def ourExtensionHandshake (sh : Shared) : Bytes :=
  let ids := (if sh.isPrivate then [] else [(Extension.I2P_PEX, OUR_PEX_ID)])
    ++ [(Extension.UT_METADATA, OUR_METADATA_ID)]
  Extension.Handshake.encode
    { ids := ids
      metadataSize := if sh.rawInfo = [] then none else some sh.rawInfo.length
      client := some Extension.USER_AGENT }

/-- Our side of the handshake. -/
def ourHandshake (sh : Shared) : Wire.Handshake :=
  { infoHash := sh.infoHash
    peerId := sh.peerId
    extensions := { extended := true, fast := false } }

/-- The frame ceiling of a peer connection. -/
def maxFrame (sh : Shared) : Nat :=
  max (max (byteLen sh.numPieces) BLOCK_LEN) Metadata.METADATA_PIECE_LEN + 256

end Shared

namespace State

/-- A torrent whose verified pieces are `initialHave`. -/
def new (sh : Shared) (initialHave : Bitfield) (mode : Mode) (now : Nat) : State where
  picker := initialHave.iterPresent.foldl Picker.setHave (Picker.new sh.storage.layout mode)
  choker := Choker.new DEFAULT_MAX_UNCHOKED
  lastChokeRound := now
  chokeInterval := DEFAULT_CHOKE_INTERVAL
  keepaliveInterval := DEFAULT_KEEPALIVE_INTERVAL
  idleTimeout := DEFAULT_IDLE_TIMEOUT
  requestTimeout := DEFAULT_REQUEST_TIMEOUT
  peers := []
  nextId := 0
  knownPeers := ∅
  pexLearned := 0
  suppliers := ∅
  banned := []
  suspicion := ∅
  storageError := none
  localDest := none
  toDrop := []
  offences := ∅
  maxPeers := none

/-- The known destinations in the order the map is walked. -/
def walk (st : State) (rank : DestHash → Nat) : List DestHash :=
  st.knownPeers.keys.insertionSort fun a b => rank a ≤ rank b

/-- Remember a destination we could dial.  At the cap a trusted one displaces one learned
from a peer.  Gives whether it was new. -/
def rememberPeerFrom (st : State) (rank : DestHash → Nat) (dest : DestHash) (source : Source) :
    State × Bool :=
  if dest ∈ st.banned ∨ st.localDest = some dest then (st, false)
  else if dest ∈ st.knownPeers then
    (if source = .trusted then { st with knownPeers := st.knownPeers.insert dest .trusted }
      else st, false)
  else if st.knownPeers.keys.length ≥ MAX_KNOWN_PEERS then
    if source = .pex then (st, false)
    else
      match (st.walk rank).find? fun d => st.knownPeers.lookup d = some .pex with
      | none => (st, false)
      | some victim =>
          ({ st with knownPeers := (st.knownPeers.erase victim).insert dest source }, true)
  else ({ st with knownPeers := st.knownPeers.insert dest source }, true)

/-- Refuse a destination for the rest of the run. -/
def ban (st : State) (dest : DestHash) : State :=
  { st with
    banned := if dest ∈ st.banned then st.banned else dest :: st.banned
    knownPeers := st.knownPeers.erase dest
    suspicion := st.suspicion.erase dest
    toDrop := st.toDrop ++ (st.peers.filter (·.dest = dest)).map fun p => (p.id, true) }

/-- Drop the entries of a map that a test refuses. -/
def retain {κ ν : Type} [DecidableEq κ] (m : Map κ ν) (keep : ν → Bool) : Map κ ν :=
  m.keys.foldl (fun m k => if (m.lookup k).any keep then m else m.erase k) m

/-- Hold a destination off the dial sweep for a while, longer each time. -/
def penalise (st : State) (dest : DestHash) (now : Nat) : State :=
  let full := st.offences.keys.length ≥ MAX_KNOWN_PEERS && dest ∉ st.offences
  let offences := if full then retain st.offences fun e => now < e.2 else st.offences
  if full && offences.keys.length ≥ MAX_KNOWN_PEERS then { st with offences := offences }
  else
    let count := ((offences.lookup dest).getD (0, now)).1 + 1
    let hold := min (MISBEHAVIOUR_BACKOFF * 2 ^ min (count - 1) 16) MAX_MISBEHAVIOUR_BACKOFF
    { st with offences := offences.insert dest (count, now + hold) }

/-- One block of `credit_suppliers`. -/
def creditBlock (index : Nat) (st : State) (block : Nat) : State :=
  match st.suppliers.lookup (index, block) with
  | none => st
  | some dest =>
      let st := { st with suppliers := st.suppliers.erase (index, block) }
      match st.suspicion.lookup dest with
      | none => st
      | some count =>
          { st with suspicion :=
              if count - 1 = 0 then st.suspicion.erase dest
              else st.suspicion.insert dest (count - 1) }

/-- A piece verified: each supplier earns back one of the failures it was party to. -/
def creditSuppliers (st : State) (index : Nat) : State :=
  (List.range (st.picker.blocksInPiece index)).foldl (creditBlock index) st

/-- One block of the first loop of `blame_suppliers`. -/
def takeSupplier (index : Nat) (s : State × List DestHash) (block : Nat) :
    State × List DestHash :=
  match s.1.suppliers.lookup (index, block) with
  | none => s
  | some dest =>
      ({ s.1 with suppliers := s.1.suppliers.erase (index, block) },
        if dest ∈ s.2 then s.2 else s.2 ++ [dest])

/-- Count one shared failure against a destination. -/
def suspect (s : State × List DestHash) (dest : DestHash) : State × List DestHash :=
  let count := (s.1.suspicion.lookup dest).getD 0 + 1
  ({ s.1 with suspicion := s.1.suspicion.insert dest count },
    if count ≥ SUSPICION_LIMIT then s.2 ++ [dest] else s.2)

/-- A piece failed: a sole supplier is banned outright, several share the suspicion. -/
def blameSuppliers (st : State) (index : Nat) : State :=
  let s := (List.range (st.picker.blocksInPiece index)).foldl (takeSupplier index) (st, [])
  let t :=
    match s.2 with
    | [] => (s.1, [])
    | [only] => (s.1, [only])
    | many => many.foldl suspect (s.1, [])
  t.2.foldl ban t.1

/-- Change the first peer with this id. -/
def modifyId (st : State) (id : Nat) (f : Peer → Peer) : State :=
  match st.peers.findIdx? (·.id = id) with
  | some idx => { st with peers := st.peers.modify idx f }
  | none => st

/-! ## What the bookkeeping leaves alone -/

/-- The picker, the peer table and the id counter are as they were. -/
structure Untouched (st st' : State) : Prop where
  picker : st'.picker = st.picker
  peers : st'.peers = st.peers
  nextId : st'.nextId = st.nextId

namespace Untouched

theorem refl (st : State) : Untouched st st := ⟨rfl, rfl, rfl⟩

theorem trans {st₁ st₂ st₃ : State} (h₁ : Untouched st₁ st₂) (h₂ : Untouched st₂ st₃) :
    Untouched st₁ st₃ :=
  ⟨h₂.picker.trans h₁.picker, h₂.peers.trans h₁.peers, h₂.nextId.trans h₁.nextId⟩

theorem foldl {α : Type} {f : State → α → State} (hf : ∀ st a, Untouched st (f st a))
    (l : List α) (st : State) : Untouched st (l.foldl f st) := by
  induction l generalizing st with
  | nil => exact refl st
  | cons a l ih => exact (hf st a).trans (ih _)

/-- A fold that carries something beside the state. -/
theorem foldl_fst {α β : Type} {f : State × β → α → State × β}
    (hf : ∀ s a, Untouched s.1 (f s a).1) (l : List α) (s : State × β) :
    Untouched s.1 (l.foldl f s).1 := by
  induction l generalizing s with
  | nil => exact refl s.1
  | cons a l ih => exact (hf s a).trans (ih _)

end Untouched

/-- Remembering a destination changes the known peers and nothing else. -/
theorem rememberPeerFrom_eq (st : State) (rank : DestHash → Nat) (dest : DestHash)
    (source : Source) :
    ∃ known, (st.rememberPeerFrom rank dest source).1 = { st with knownPeers := known } := by
  unfold rememberPeerFrom
  split
  · exact ⟨_, rfl⟩
  · split
    · simp only
      split <;> exact ⟨_, rfl⟩
    · split
      · split
        · exact ⟨_, rfl⟩
        · split <;> exact ⟨_, rfl⟩
      · exact ⟨_, rfl⟩

theorem untouched_rememberPeerFrom (st : State) (rank : DestHash → Nat) (dest : DestHash)
    (source : Source) : Untouched st (st.rememberPeerFrom rank dest source).1 := by
  obtain ⟨known, heq⟩ := rememberPeerFrom_eq st rank dest source
  rw [heq]
  exact ⟨rfl, rfl, rfl⟩

/-- Holding a destination off changes the offences and nothing else. -/
theorem penalise_eq (st : State) (dest : DestHash) (now : Nat) :
    st.penalise dest now = { st with offences := (st.penalise dest now).offences } := by
  unfold penalise
  simp only
  split_ifs <;> rfl

theorem offences_penalise {st st' : State} (h : st'.offences = st.offences) (dest : DestHash)
    (now : Nat) : (st'.penalise dest now).offences = (st.penalise dest now).offences := by
  unfold penalise
  simp only [h]
  split_ifs <;> rfl

theorem untouched_penalise (st : State) (dest : DestHash) (now : Nat) :
    Untouched st (st.penalise dest now) := by
  rw [penalise_eq]
  exact ⟨rfl, rfl, rfl⟩

theorem untouched_creditSuppliers (st : State) (index : Nat) :
    Untouched st (st.creditSuppliers index) := by
  refine Untouched.foldl (fun st b => ?_) _ st
  unfold creditBlock
  split
  · exact .refl st
  · simp only
    split <;> exact ⟨rfl, rfl, rfl⟩

theorem untouched_blameSuppliers (st : State) (index : Nat) :
    Untouched st (st.blameSuppliers index) := by
  unfold blameSuppliers
  simp only
  have htake : Untouched st ((List.range (st.picker.blocksInPiece index)).foldl
      (takeSupplier index) (st, [])).1 := by
    refine Untouched.foldl_fst (fun s b => ?_) _ (st, [])
    unfold takeSupplier
    split <;> exact ⟨rfl, rfl, rfl⟩
  generalize (List.range (st.picker.blocksInPiece index)).foldl (takeSupplier index) (st, [])
    = s at htake
  have hsuspect : ∀ (s : State × List DestHash) d, Untouched s.1 (suspect s d).1 :=
    fun _ _ => ⟨rfl, rfl, rfl⟩
  have hban : ∀ st d, Untouched st (ban st d) := fun _ _ => ⟨rfl, rfl, rfl⟩
  have hculprits : ∀ t : State × List DestHash, Untouched s.1 t.1 →
      Untouched st (t.2.foldl ban t.1) := fun t ht =>
    htake.trans (ht.trans (Untouched.foldl hban t.2 t.1))
  split
  · exact hculprits (s.1, []) (.refl _)
  · exact hculprits (s.1, [_]) (.refl _)
  · exact hculprits _ (Untouched.foldl_fst hsuspect _ (s.1, []))

/-! ## Suppliers -/

/-- The suppliers of some blocks are taken out, and each is noted once. -/
theorem takeSuppliers_inv (index : Nat) (l : List Nat) (st : State) (ds : List DestHash) :
    ∃ suppliers, (l.foldl (takeSupplier index) (st, ds)).1 = { st with suppliers := suppliers } ∧
      (∀ k, suppliers.lookup k =
        if k.1 = index ∧ k.2 ∈ l then none else st.suppliers.lookup k) ∧
      ∀ d, d ∈ (l.foldl (takeSupplier index) (st, ds)).2 ↔
        d ∈ ds ∨ ∃ b ∈ l, st.suppliers.lookup (index, b) = some d := by
  induction l generalizing st ds with
  | nil => exact ⟨st.suppliers, rfl, by simp, by simp⟩
  | cons b l ih =>
      rw [List.foldl_cons]
      cases hb : st.suppliers.lookup (index, b) with
      | none =>
          have hstep : takeSupplier index (st, ds) b = (st, ds) := by simp only [takeSupplier, hb]
          obtain ⟨suppliers, heq, hlookup, hmem⟩ := ih st ds
          rw [hstep]
          refine ⟨suppliers, heq, fun k => ?_, fun d => ?_⟩
          · rw [hlookup]
            by_cases hk : k = (index, b)
            · subst hk
              simp [hb]
            · have : k.1 = index → k.2 ≠ b := fun h₁ h₂ => hk (Prod.ext h₁ h₂)
              by_cases hi : k.1 = index <;> simp [hi, this]
          · simpa [hb] using hmem d
      | some dest =>
          have hstep : takeSupplier index (st, ds) b =
              ({ st with suppliers := st.suppliers.erase (index, b) },
                if dest ∈ ds then ds else ds ++ [dest]) := by simp only [takeSupplier, hb]
          obtain ⟨suppliers, heq, hlookup, hmem⟩ := ih
            { st with suppliers := st.suppliers.erase (index, b) }
            (if dest ∈ ds then ds else ds ++ [dest])
          rw [hstep]
          refine ⟨suppliers, heq, fun k => ?_, fun d => ?_⟩
          · rw [hlookup, Map.lookup_erase]
            by_cases hk : k = (index, b)
            · subst hk
              simp
            · have : k.1 = index → k.2 ≠ b := fun h₁ h₂ => hk (Prod.ext h₁ h₂)
              by_cases hi : k.1 = index <;> simp [hi, this, hk]
          · have hnew : d ∈ (if dest ∈ ds then ds else ds ++ [dest]) ↔ d ∈ ds ∨ d = dest := by
              split
              · rename_i hin
                exact ⟨.inl, fun h => h.elim id fun heq => heq ▸ hin⟩
              · simp
            refine (hmem d).trans ?_
            simp only [hnew, Map.lookup_erase, List.mem_cons, exists_eq_or_imp, hb,
              Prod.mk.injEq, true_and, Option.some.injEq]
            constructor
            · rintro ((h | h) | ⟨b', hb', h⟩)
              · exact .inl h
              · exact .inr (.inl h.symm)
              · split at h
                · cases h
                · exact .inr (.inr ⟨b', hb', h⟩)
            · rintro (h | h | ⟨b', hb', h⟩)
              · exact .inl (.inl h)
              · exact .inl (.inr h.symm)
              · by_cases hbb : b' = b
                · subst hbb
                  rw [hb] at h
                  exact .inl (.inr (Option.some.inj h).symm)
                · exact .inr ⟨b', hb', by simpa [hbb] using h⟩

/-- A piece verified: its suppliers are forgotten, and somebody may be suspected less. -/
theorem creditSuppliers_inv (st : State) (index : Nat) : ∃ suppliers suspicion,
    st.creditSuppliers index = { st with suppliers := suppliers, suspicion := suspicion } ∧
    ∀ k, suppliers.lookup k =
      if k.1 = index ∧ k.2 < st.picker.blocksInPiece index then none
      else st.suppliers.lookup k := by
  suffices hfold : ∀ (l : List Nat) (st : State), ∃ suppliers suspicion,
      l.foldl (creditBlock index) st =
        { st with suppliers := suppliers, suspicion := suspicion } ∧
      ∀ k, suppliers.lookup k =
        if k.1 = index ∧ k.2 ∈ l then none else st.suppliers.lookup k by
    unfold creditSuppliers
    simpa only [List.mem_range] using hfold (List.range (st.picker.blocksInPiece index)) st
  intro l
  induction l with
  | nil => exact fun st => ⟨st.suppliers, st.suspicion, rfl, by simp⟩
  | cons b l ih =>
      intro st
      have hstep : ∃ suppliers suspicion, creditBlock index st b =
            { st with suppliers := suppliers, suspicion := suspicion } ∧
          ∀ k, suppliers.lookup k = if k = (index, b) then none else st.suppliers.lookup k := by
        unfold creditBlock
        split
        · rename_i hnone
          refine ⟨st.suppliers, st.suspicion, rfl, fun k => ?_⟩
          split
          · rename_i hk
            rw [hk, hnone]
          · rfl
        · simp only
          split <;> exact ⟨_, _, rfl, fun k => Map.lookup_erase _ _ _⟩
      obtain ⟨suppliers₁, suspicion₁, hstep, hone⟩ := hstep
      obtain ⟨suppliers, suspicion, heq, hlookup⟩ :=
        ih { st with suppliers := suppliers₁, suspicion := suspicion₁ }
      rw [List.foldl_cons, hstep]
      refine ⟨suppliers, suspicion, heq, fun k => ?_⟩
      rw [hlookup, hone]
      by_cases hk : k = (index, b)
      · subst hk
        simp
      · have : k.1 = index → k.2 ≠ b := fun h₁ h₂ => hk (Prod.ext h₁ h₂)
        by_cases hi : k.1 = index <;> simp [hi, this, hk]

/-- Each contributor is suspected, and some of them are culprits. -/
theorem suspects_inv (l : List DestHash) (st : State) (ds : List DestHash) :
    ∃ suspicion, (l.foldl suspect (st, ds)).1 = { st with suspicion := suspicion } ∧
      ∀ d ∈ (l.foldl suspect (st, ds)).2, d ∈ ds ∨ d ∈ l := by
  induction l generalizing st ds with
  | nil => exact ⟨st.suspicion, rfl, fun d hd => .inl hd⟩
  | cons a l ih =>
      obtain ⟨suspicion, heq, hmem⟩ := ih
        { st with suspicion := st.suspicion.insert a ((st.suspicion.lookup a).getD 0 + 1) }
        (if (st.suspicion.lookup a).getD 0 + 1 ≥ SUSPICION_LIMIT then ds ++ [a] else ds)
      refine ⟨suspicion, heq, fun d hd => ?_⟩
      rcases hmem d hd with hd | hd
      · split at hd
        · rcases List.mem_append.1 hd with hd | hd
          · exact .inl hd
          · exact .inr (List.mem_cons.2 (.inl (List.mem_singleton.1 hd)))
        · exact .inl hd
      · exact .inr (List.mem_cons_of_mem _ hd)

/-- A piece failed: its suppliers are forgotten and some of them banned, a sole one for sure. -/
theorem blameSuppliers_inv (st : State) (index : Nat) :
    ∃ suppliers suspicion contributors culprits,
      st.blameSuppliers index =
        culprits.foldl ban { st with suppliers := suppliers, suspicion := suspicion } ∧
      (∀ k, suppliers.lookup k =
        if k.1 = index ∧ k.2 < st.picker.blocksInPiece index then none
        else st.suppliers.lookup k) ∧
      (∀ d, d ∈ contributors ↔
        ∃ b < st.picker.blocksInPiece index, st.suppliers.lookup (index, b) = some d) ∧
      (∀ d ∈ culprits, d ∈ contributors) ∧ ∀ d, contributors = [d] → culprits = [d] := by
  unfold blameSuppliers
  obtain ⟨suppliers, heq, hlookup, hmem⟩ :=
    takeSuppliers_inv index (List.range (st.picker.blocksInPiece index)) st []
  simp only [List.mem_range, List.not_mem_nil, false_or] at hlookup hmem
  generalize (List.range (st.picker.blocksInPiece index)).foldl (takeSupplier index) (st, []) = s at *
  obtain ⟨st₁, contributors⟩ := s
  simp only at heq hmem ⊢
  subst heq
  split
  · exact ⟨suppliers, st.suspicion, [], [], rfl, hlookup, hmem, by simp, by simp⟩
  · rename_i only
    refine ⟨suppliers, st.suspicion, [only], [only], rfl, hlookup, hmem, fun d hd => hd, ?_⟩
    exact fun d hd => hd
  · rename_i hnone hone
    obtain ⟨suspicion, hsuspect, hculprits⟩ :=
      suspects_inv contributors { st with suppliers := suppliers } []
    refine ⟨suppliers, suspicion, contributors, _, by rw [hsuspect], hlookup, hmem, fun d hd => ?_,
      fun d hd => absurd hd (hone d)⟩
    simpa using hculprits d hd

end State

namespace Work

/-- Change the peer at a position. -/
def modifyPeer (w : Work) (idx : Nat) (f : Peer → Peer) : Work :=
  { w with st := { w.st with peers := w.st.peers.modify idx f } }

theorem getElem?_modifyPeer {w : Work} {idx : Nat} {peer : Peer}
    (hidx : w.st.peers[idx]? = some peer) (f : Peer → Peer) :
    (w.modifyPeer idx f).st.peers[idx]? = some (f peer) := by
  simp [modifyPeer, List.getElem?_modify_eq, hidx]

/-- Change the picker. -/
def modifyPicker (w : Work) (f : Picker → Picker) : Work :=
  { w with st := { w.st with picker := f w.st.picker } }

/-- Queue a message for a peer. -/
def push (w : Work) (id : Nat) (msg : Message) : Work := { w with out := w.out ++ [(id, msg)] }

end Work

end Clove.Torrent
