import Clove.Torrent.Effects
import Clove.Torrent.Run

/-!
# The threads of a torrent

A critical section leaves its thread with peers to drop and messages to send, and both
happen after the lock is released, one at a time, while other threads take the lock.  An
attach takes the lock twice: once for the piece set it announces and once to register.
Stopping a torrent is a sequence of steps too.

A `System` is a torrent together with what its threads have still to do.  Its steps are the
pieces of work no other thread can get between.
-/

namespace Clove.Torrent

open Wire (Message Extensions)

/-- A thread that leaves critical sections with work to do. -/
inductive Thread where
  /-- The reader of a peer. -/
  | reader (id : Nat)
  | maintenance
  /-- Whoever stops the torrent. -/
  | control
deriving Repr, DecidableEq

/-- What a thread has still to do after a critical section: peers to drop, then messages to
send.  A peer whose queue refused a message is dropped before the next message. -/
structure Task where
  thread : Thread
  drops : List (Nat × Bool)
  sends : List Outgoing
  refused : Option Nat

/-- How far an attach has come. -/
inductive Phase where
  /-- Dialing and shaking hands, looking at the stop flag in between. -/
  | dialing
  /-- Past its last look at the stop flag, with the peer's handshake read. -/
  | greeted (theirs : Extensions)
  /-- The piece set announced is on its queue. -/
  | announced (theirs : Extensions) (field : Bitfield)
  /-- Registered, refused or abandoned. -/
  | over

/-- A connection being attached. -/
structure Attach where
  dest : DestHash
  phase : Phase

/-- How far stopping the torrent has come. -/
inductive Stop where
  | running
  /-- Not routed to by the demux any more. -/
  | unrouted
  /-- The stop flag is up. -/
  | raised
  /-- The peers to disconnect have been listed. -/
  | listed
deriving Repr, DecidableEq

/-- A torrent and what its threads have still to do. -/
structure System where
  engine : Engine
  /-- Everything placed on each peer's queue so far. -/
  queues : Nat → List Message
  /-- What threads took out of their critical sections, oldest first. -/
  tasks : List Task
  attaches : List Attach
  stop : Stop

/-- A piece of work no other thread can get between. -/
inductive Action where
  /-- A reader handles a message. -/
  | message (env : Env) (id : Nat) (msg : Message)
  | maintain (env : Env)
  /-- A critical section that leaves nothing to send. -/
  | control (ev : Event)
  /-- The task at this position drops its next peer. -/
  | drop (pos now : Nat)
  /-- The task at this position hands over its next message, if the queue takes it. -/
  | send (pos : Nat) (taken : Bool)
  /-- The demux finds the torrent for an inbound connection. -/
  | accept (dest : DestHash) (theirs : Extensions)
  /-- The sweep starts on a peer. -/
  | dial (dest : DestHash)
  /-- The last look at the stop flag of a dialing attach. -/
  | greet (pos : Nat) (theirs : Extensions)
  | abandon (pos : Nat)
  /-- The piece set is read and queued. -/
  | announce (pos : Nat)
  | register (pos : Nat) (env : Env)
  /-- The next step of stopping. -/
  | halt

/-- Nothing left to do. -/
def Task.done (t : Task) : Bool := t.drops.isEmpty && t.sends.isEmpty && t.refused.isNone

/-- Whether an event is a critical section of its own that collects nothing. -/
def Event.isControl : Event → Bool
  | .register .. => false
  | .message .. => false
  | .maintain .. => false
  | _ => true

/-- The first messages on a new peer's queue. -/
def opening (sh : Shared) (theirs : Extensions) (field : Bitfield) : List Message :=
  .bitfield field.bits ::
    if theirs.extended then [.extended 0 sh.ourExtensionHandshake] else []

namespace System

variable (sh : Shared)

/-- A torrent just started. -/
def new (initialHave : Bitfield) (mode : Mode) (now : Nat) (disk : Disk) : System where
  engine := Engine.new sh initialHave mode now disk
  queues := fun _ => []
  tasks := []
  attaches := []
  stop := .running

/-- Whether a thread still has something to do. -/
def busy (s : System) (thread : Thread) : Bool :=
  s.tasks.any fun t => t.thread = thread && !t.done

/-- A thread leaves a critical section. -/
def leave (s : System) (thread : Thread) (r : Engine × Job) : System :=
  { s with engine := r.1, tasks := s.tasks ++ [⟨thread, r.2.drops, r.2.sends, none⟩] }

/-- Change what a task has still to do. -/
def setTask (s : System) (pos : Nat) (task : Task) : System :=
  { s with tasks := s.tasks.set pos task }

/-- Change what is on a queue. -/
def setQueue (s : System) (id : Nat) (queue : List Message) : System :=
  { s with queues := fun i => if i = id then queue else s.queues i }

/-- Move an attach on. -/
def setPhase (s : System) (pos : Nat) (phase : Phase) : System :=
  { s with attaches := s.attaches.modify pos fun a => { a with phase := phase } }

/-- The next drop of a task. -/
def dropNext (pos now : Nat) (s : System) : System :=
  match s.tasks[pos]? with
  | some ⟨thread, (id, forCause) :: drops, sends, refused⟩ =>
      let s := { s with engine := s.engine.modifyState (dropPeer now id forCause) }
      s.setTask pos ⟨thread, drops, sends, refused⟩
  | some ⟨thread, [], sends, some id⟩ =>
      let s := { s with engine := s.engine.modifyState (dropPeer now id true) }
      s.setTask pos ⟨thread, [], sends, none⟩
  | _ => s

/-- The next message of a task.  A peer whose queue will not take it is dropped for cause. -/
def sendNext (pos : Nat) (taken : Bool) (s : System) : System :=
  match s.tasks[pos]? with
  | some ⟨thread, [], (id, msg) :: sends, none⟩ =>
      if taken then (s.setQueue id (s.queues id ++ [msg])).setTask pos ⟨thread, [], sends, none⟩
      else s.setTask pos ⟨thread, [], sends, some id⟩
  | _ => s

/-- Seat the connection, or give it up. -/
def registerNext (pos : Nat) (env : Env) (s : System) : System :=
  match s.attaches[pos]? with
  | some ⟨dest, .announced theirs field⟩ =>
      let fast := theirs.fast && sh.ourHandshake.extensions.fast
      let r := registerPeer sh env dest fast s.engine.st
      match r.2 with
      | .error _ => s.setPhase pos .over
      | .ok id =>
          let s := { s with engine := s.engine.modifyState fun _ => r.1 }
          (s.setQueue id (opening sh theirs field)).setPhase pos .over
  | _ => s

/-- The next step of stopping: leave the demux, raise the flag, list the peers. -/
def haltNext (s : System) : System :=
  match s.stop with
  | .running => { s with stop := .unrouted }
  | .unrouted => { s with stop := .raised }
  | .raised =>
      let drops := s.engine.st.peers.map fun p => (p.id, false)
      { s with stop := .listed, tasks := s.tasks ++ [⟨.control, drops, [], none⟩] }
  | .listed => s

/-- One step of a system. -/
def step : Action → System → System
  | .message env id msg, s =>
      if s.busy (.reader id) then s
      else s.leave (.reader id) (onMessage sh env id msg s.engine)
  | .maintain env, s =>
      if s.busy .maintenance then s else s.leave .maintenance (maintain env s.engine)
  | .control ev, s => if ev.isControl then { s with engine := Engine.step sh ev s.engine } else s
  | .drop pos now, s => s.dropNext pos now
  | .send pos taken, s => s.sendNext pos taken
  | .accept dest theirs, s =>
      if s.stop = .running then { s with attaches := s.attaches ++ [⟨dest, .greeted theirs⟩] }
      else s
  | .dial dest, s =>
      if s.stop = .running ∨ s.stop = .unrouted then
        { s with attaches := s.attaches ++ [⟨dest, .dialing⟩] }
      else s
  | .greet pos theirs, s =>
      match s.attaches[pos]? with
      | some ⟨_, .dialing⟩ =>
          if s.stop = .running ∨ s.stop = .unrouted then s.setPhase pos (.greeted theirs)
          else s.setPhase pos .over
      | _ => s
  | .abandon pos, s => s.setPhase pos .over
  | .announce pos, s =>
      match s.attaches[pos]? with
      | some ⟨_, .greeted theirs⟩ =>
          s.setPhase pos (.announced theirs s.engine.st.picker.haveField)
      | _ => s
  | .register pos env, s => s.registerNext sh pos env
  | .halt, s => s.haltNext

/-- A system after a list of steps. -/
def run (actions : List Action) (s : System) : System := Machine.run (step sh) actions s

/-- No thread holds an unsent message, or one that was refused. -/
def Quiescent (s : System) : Prop := ∀ t ∈ s.tasks, t.sends = [] ∧ t.refused = none

instance (s : System) : Decidable s.Quiescent :=
  inferInstanceAs (Decidable (∀ t ∈ s.tasks, t.sends = [] ∧ t.refused = none))

/-- Stopping has returned. -/
def Stopped (s : System) : Prop :=
  s.stop = .listed ∧ ∀ t ∈ s.tasks, t.thread = .control → t.drops = []

end System

/-! ## A one-byte torrent

The smallest torrent there is, for runs that show what the threads can do to each other. -/

namespace OneByte

/-- The digest of the content, the single byte `a`. -/
def digest : Bytes :=
  [134, 247, 228, 55, 250, 165, 167, 252, 225, 93, 29, 220, 185, 234, 234, 234, 55, 118, 103, 184]

/-- `d6:lengthi1e4:name1:a12:piece lengthi16384e6:pieces20:`, the digest, and `e`. -/
def rawInfo : Bytes :=
  [100, 54, 58, 108, 101, 110, 103, 116, 104, 105, 49, 101, 52, 58, 110, 97, 109, 101, 49, 58, 97,
    49, 50, 58, 112, 105, 101, 99, 101, 32, 108, 101, 110, 103, 116, 104, 105, 49, 54, 51, 56, 52,
    101, 54, 58, 112, 105, 101, 99, 101, 115, 50, 48, 58] ++ digest ++ [101]

def infoHash : Bytes :=
  [187, 152, 166, 116, 222, 156, 63, 133, 33, 127, 243, 37, 4, 252, 195, 89, 205, 95, 254, 211]

def shared : Shared where
  infoHash := infoHash
  peerId := List.replicate 20 45
  storage := Storage.create ⟨1, 16384, 1⟩ [1] [digest] rfl
  rawInfo := rawInfo
  isPrivate := false
  sha1 := fun bs => if bs = [97] then digest else if bs = rawInfo then infoHash else []

def dest (n : UInt8) : DestHash := ⟨List.replicate 32 n, List.length_replicate⟩

/-- Nothing goes wrong, and it is `now`. -/
def env (now : Nat) : Env where
  now := now
  roundNow := now
  fillNow := fun _ => now
  writeFault := none
  readFault := fun _ => false
  rank := fun d => (d.bytes.headD 0).toNat

/-- An empty download just started. -/
def start : System :=
  System.new shared (Bitfield.empty 1) .rarestFirst 0 fun _ => []

/-- The `n`th attach goes through without anyone getting between. -/
def attach (n : Nat) : List Action :=
  [.accept (dest n.toUInt8) ⟨false, false⟩, .announce n, .register n (env 0)]

end OneByte

/-! ## A torrent of two pieces

The second piece is the byte of the one-byte torrent. -/

namespace TwoPieces

/-- The digest of 16384 zeros. -/
def digest : Bytes :=
  [137, 114, 86, 182, 112, 158, 26, 77, 169, 218, 186, 146, 182, 189, 227, 156, 207, 204, 216, 193]

/-- `d6:lengthi16385e4:name1:a12:piece lengthi16384e6:pieces40:`, the digests, and `e`. -/
def rawInfo : Bytes :=
  [100, 54, 58, 108, 101, 110, 103, 116, 104, 105, 49, 54, 51, 56, 53, 101, 52, 58, 110, 97, 109,
    101, 49, 58, 97, 49, 50, 58, 112, 105, 101, 99, 101, 32, 108, 101, 110, 103, 116, 104, 105, 49,
    54, 51, 56, 52, 101, 54, 58, 112, 105, 101, 99, 101, 115, 52, 48, 58] ++ digest ++
    OneByte.digest ++ [101]

def infoHash : Bytes :=
  [211, 135, 90, 80, 231, 10, 101, 52, 93, 56, 42, 151, 58, 81, 69, 105, 245, 180, 197, 9]

theorem sum_lengths : [16385].sum = 16385 := rfl

def shared : Shared where
  infoHash := infoHash
  peerId := OneByte.shared.peerId
  storage := Storage.create ⟨2, 16384, 16385⟩ [16385] [digest, OneByte.digest] sum_lengths
  rawInfo := rawInfo
  isPrivate := false
  sha1 := fun bs => if bs = [97] then OneByte.digest else if bs = rawInfo then infoHash else digest

/-- A seed connects, we become interested, and it unchokes us. -/
def seeded : List Action :=
  OneByte.attach 0 ++ [.message (OneByte.env 0) 0 (.bitfield [192]), .send 0 true,
    .message (OneByte.env 0) 0 .unchoke, .send 1 true]

/-- The seed sends the second piece. -/
def last : Action := .message (OneByte.env 0) 0 (.piece 1 0 [97])

end TwoPieces

/-! ## What a step can do -/

/-- A peer is gone from the table. -/
structure Dropped (st st' : State) (id : Nat) : Prop where
  pieces : SamePieces st.picker st'.picker
  nextId : st'.nextId = st.nextId
  seats : ∀ x, x ∈ st'.seats ↔ x ∈ st.seats ∧ x.1 ≠ id
  nodup : st'.ids.Nodup

theorem dropped_dropPeer (now id : Nat) (forCause : Bool) {st : State} (hnodup : st.ids.Nodup) :
    Dropped st (dropPeer now id forCause st) id := by
  unfold dropPeer
  split
  · rename_i hnone
    refine ⟨.refl _, rfl, fun x => ⟨fun hx => ⟨hx, ?_⟩, And.left⟩, hnodup⟩
    rintro rfl
    obtain ⟨p, hp, rfl⟩ := List.mem_map.1 hx
    have := List.findIdx?_eq_none_iff.1 hnone p hp
    simp at this
  · rename_i pos hfind
    obtain ⟨hlt, hid, -⟩ := List.findIdx?_eq_some_iff_getElem.1 hfind
    have hid : st.peers[pos].id = id := of_decide_eq_true hid
    rw [List.getElem?_eq_getElem hlt]
    have hperm := Lists.perm_swapRemove hlt
    have hseats := (hperm.map fun p : Peer => (p.id, p.weChoke)).symm
    have hids := (hperm.map Peer.id).nodup_iff.2 hnodup
    have hdropped : Dropped st { st with
        peers := Lists.swapRemove st.peers pos
        picker := failAll (st.picker.removeBitfield st.peers[pos].has)
          st.peers[pos].inFlight.keys } id := by
      refine ⟨?_, rfl, fun x => ?_, (List.nodup_cons.1 hids).2⟩
      · have hremove : SamePieces st.picker (st.picker.removeBitfield st.peers[pos].has) :=
          .of_eq rfl rfl
        exact hremove.trans (samePieces_failAll _ _)
      · have hx := hseats.mem_iff (a := x)
        rw [List.map_cons, List.mem_cons] at hx
        have hgone : x.1 = id → x ∉ (Lists.swapRemove st.peers pos).map
            fun p : Peer => (p.id, p.weChoke) := by
          intro hxid hmem
          obtain ⟨p, hp, rfl⟩ := List.mem_map.1 hmem
          rw [List.map_cons, List.nodup_cons, hid] at hids
          exact hids.1 (hxid ▸ List.mem_map_of_mem hp)
        constructor
        · exact fun hmem => ⟨hx.2 (.inr hmem), fun hxid => hgone hxid hmem⟩
        · rintro ⟨hmem, hne⟩
          rcases hx.1 hmem with rfl | hmem
          · exact absurd hid hne
          · exact hmem
    simp only
    split
    · obtain ⟨hpk, hpeers, hnext⟩ := State.untouched_penalise { st with
        peers := Lists.swapRemove st.peers pos
        picker := failAll (st.picker.removeBitfield st.peers[pos].has)
          st.peers[pos].inFlight.keys } st.peers[pos].dest now
      refine ⟨?_, hnext.trans hdropped.nextId, ?_, ?_⟩
      · rw [hpk]
        exact hdropped.pieces
      · unfold State.seats
        rw [hpeers]
        exact hdropped.seats
      · unfold State.ids
        rw [hpeers]
        exact hdropped.nodup
    · exact hdropped

/-- A peer is seated under a new id. -/
structure Registered (st st' : State) : Prop where
  pieces : SamePieces st.picker st'.picker
  nextId : st'.nextId = st.nextId + 1
  seats : st'.seats = st.seats ++ [(st.nextId, true)]

/-- Another connection to the destination is let in. -/
def State.Admits (st : State) (dest : DestHash) : Prop :=
  dest ∉ st.banned ∧ st.peers.countP (·.dest = dest) < MAX_CONNECTIONS_PER_DEST ∧
    ∀ n, st.maxPeers = some n → st.peers.length < n

theorem admits_of_registerPeer {sh : Shared} {env : Env} {dest : DestHash} {fast : Bool}
    {st : State} {id : Nat} (h : (registerPeer sh env dest fast st).2 = .ok id) :
    st.Admits dest := by
  obtain ⟨r, hr⟩ | ⟨known, -, hban, hdest, hfull, -⟩ := registerPeer_cases sh env dest fast st
  · rw [hr] at h
    cases h
  · exact ⟨hban, hdest, hfull⟩

theorem registered_registerPeer {sh : Shared} {env : Env} {dest : DestHash} {fast : Bool}
    {st : State} {id : Nat} (h : (registerPeer sh env dest fast st).2 = .ok id) :
    id = st.nextId ∧ Registered st (registerPeer sh env dest fast st).1 := by
  unfold registerPeer at h ⊢
  split
  · simp_all
  · split
    · simp_all
    · split
      · simp_all
      · rename_i hban hdest hfull
        obtain ⟨hpk, hpeers, hnext⟩ := State.untouched_rememberPeerFrom
          { st with nextId := st.nextId + 1 } env.rank dest .trusted
        simp only [hban, hdest, hfull, Bool.false_eq_true, if_false, Except.ok.injEq] at h
        refine ⟨h.symm, SamePieces.of_eq ?_ ?_, hnext, ?_⟩
        · exact congrArg Picker.toLayout hpk
        · exact congrArg Picker.haveField hpk
        · simp [State.seats, hpeers, newPeer]

/-- Nothing that peers are told about is different. -/
structure Same (s s' : System) : Prop where
  pieces : SamePieces s.engine.st.picker s'.engine.st.picker
  nextId : s'.engine.st.nextId = s.engine.st.nextId
  seats : s'.engine.st.seats = s.engine.st.seats
  disk : s'.engine.disk = s.engine.disk
  trace : s'.engine.trace = s.engine.trace
  queues : s'.queues = s.queues
  tasks : s'.tasks = s.tasks

/-- An attach announces the pieces held now, or what it announced before. -/
def Announces (s s' : System) : Prop :=
  ∀ a ∈ s'.attaches, ∀ theirs field, a.phase = .announced theirs field →
    (∃ b ∈ s.attaches, b.phase = .announced theirs field) ∨
      field = s.engine.st.picker.haveField

/-- The result of a critical section that collects messages. -/
def RunsTo (sh : Shared) (e : Engine) (r : Engine × Job) : Prop :=
  (∃ env id msg, r = onMessage sh env id msg e) ∨ ∃ env, r = maintain env e

theorem RunsTo.section {sh : Shared} {e : Engine} {r : Engine × Job} (h : RunsTo sh e r)
    (hseat : e.Seated sh) : ∃ news, Section e r.1 r.2.sends news := by
  rcases h with ⟨env, id, msg, rfl⟩ | ⟨env, rfl⟩
  · exact section_onMessage env id msg hseat
  · exact section_maintain env hseat

/-- What a step did, as far as peers are told about it. -/
inductive Outcome (sh : Shared) (s : System) : Action → System → Prop where
  | same {a : Action} {s' : System} : Same s s' → Announces s s' → Outcome sh s a s'
  | ran {a : Action} {thread : Thread} {r : Engine × Job} {news : List Nat} :
      RunsTo sh s.engine r → Section s.engine r.1 r.2.sends news →
      Outcome sh s a (s.leave thread r)
  | dropped {a : Action} {id : Nat} {st : State} : Dropped s.engine.st st id →
      Outcome sh s a { s with engine := s.engine.modifyState fun _ => st }
  | droppedBy {a : Action} {pos id : Nat} {t t' : Task} {st : State} :
      s.tasks[pos]? = some t → t'.sends = t.sends →
      (t'.refused = t.refused ∨ t.refused = some id) → Dropped s.engine.st st id →
      t'.thread = t.thread → (∀ d ∈ t.drops, d.1 = id ∨ d ∈ t'.drops) →
      Outcome sh s a ({ s with engine := s.engine.modifyState fun _ => st }.setTask pos t')
  | sent {pos id : Nat} {thread : Thread} {msg : Message} {sends : List Outgoing} :
      s.tasks[pos]? = some ⟨thread, [], (id, msg) :: sends, none⟩ →
      Outcome sh s (.send pos true)
        ((s.setQueue id (s.queues id ++ [msg])).setTask pos ⟨thread, [], sends, none⟩)
  | refused {a : Action} {pos id : Nat} {thread : Thread} {msg : Message}
      {sends : List Outgoing} :
      s.tasks[pos]? = some ⟨thread, [], (id, msg) :: sends, none⟩ →
      Outcome sh s a (s.setTask pos ⟨thread, [], sends, some id⟩)
  | registered {pos : Nat} {env : Env} {dest : DestHash} {theirs : Extensions}
      {field : Bitfield} {st : State} :
      s.attaches[pos]? = some ⟨dest, .announced theirs field⟩ → s.engine.st.Admits dest →
      Registered s.engine.st st →
      Outcome sh s (.register pos env)
        (({ s with engine := s.engine.modifyState fun _ => st }.setQueue s.engine.st.nextId
          (opening sh theirs field)).setPhase pos .over)
  | listed {a : Action} {drops : List (Nat × Bool)} :
      Outcome sh s a { s with stop := .listed, tasks := s.tasks ++ [⟨.control, drops, [], none⟩] }

variable {sh : Shared} {s : System}

theorem Same.refl (s : System) : Same s s := ⟨.refl _, rfl, rfl, rfl, rfl, rfl, rfl⟩

theorem Announces.refl (s : System) : Announces s s :=
  fun a ha _ _ hphase => .inl ⟨a, ha, hphase⟩

/-- An attach that moves on announces nothing, unless it announces the pieces held now. -/
theorem announces_setPhase {pos : Nat} {phase : Phase}
    (h : ∀ theirs field, phase = .announced theirs field →
      field = s.engine.st.picker.haveField) : Announces s (s.setPhase pos phase) := by
  intro a ha theirs field hphase
  rcases Lists.mem_modify ha with ha | ⟨b, -, rfl⟩
  · exact .inl ⟨a, ha, hphase⟩
  · exact .inr (h theirs field hphase)

theorem announces_append {a : Attach} (h : ∀ theirs field, a.phase ≠ .announced theirs field) :
    Announces s { s with attaches := s.attaches ++ [a] } := by
  intro b hb theirs field hphase
  rcases List.mem_append.1 hb with hb | hb
  · exact .inl ⟨b, hb, hphase⟩
  · rw [List.mem_singleton.1 hb] at hphase
    exact absurd hphase (h theirs field)

/-- A control event is a drop, or changes nothing peers are told about. -/
theorem outcome_control {a : Action} {ev : Event} (hctl : ev.isControl = true)
    (hnodup : s.engine.st.ids.Nodup) :
    Outcome sh s a { s with engine := Engine.step sh ev s.engine } := by
  have hstill : ∀ st : State, SamePieces s.engine.st.picker st.picker →
      st.nextId = s.engine.st.nextId → st.peers = s.engine.st.peers →
      Outcome sh s a { s with engine := s.engine.modifyState fun _ => st } := by
    intro st hpieces hnext hpeers
    refine .same ⟨hpieces, hnext, ?_, rfl, rfl, rfl, rfl⟩ (Announces.refl s)
    show st.peers.map _ = _
    rw [hpeers]
    rfl
  cases ev with
  | register _ _ _ => cases hctl
  | message _ _ _ => cases hctl
  | maintain _ => cases hctl
  | drop now id forCause => exact .dropped (dropped_dropPeer now id forCause hnodup)
  | addPeers rank peers =>
      obtain ⟨hpk, hpeers, hnext⟩ : State.Untouched s.engine.st
          (addPeers rank peers s.engine.st) :=
        State.Untouched.foldl
          (fun st p => State.untouched_rememberPeerFrom st rank p .trusted) peers s.engine.st
      exact hstill _ (.of_eq (congrArg Picker.toLayout hpk) (congrArg Picker.haveField hpk))
        hnext hpeers
  | setPiecePriorities l => exact hstill _ (.of_eq rfl rfl) rfl rfl
  | setMode m => exact hstill _ (.of_eq rfl rfl) rfl rfl
  | setLocalDest dest => exact hstill _ (.refl _) rfl rfl
  | setMaxPeers n => exact hstill _ (.refl _) rfl rfl
  | setChokeInterval n => exact hstill _ (.refl _) rfl rfl
  | setKeepaliveInterval n => exact hstill _ (.refl _) rfl rfl
  | setIdleTimeout n => exact hstill _ (.refl _) rfl rfl
  | setRequestTimeout n => exact hstill _ (.refl _) rfl rfl

theorem outcome_refl (a : Action) (s : System) : Outcome sh s a s :=
  .same (.refl s) (.refl s)

/-- Every step has one of these outcomes. -/
theorem step_outcome (a : Action) (hseat : s.engine.Seated sh) :
    Outcome sh s a (System.step sh a s) := by
  cases a with
  | message env id msg =>
      unfold System.step
      simp only
      split
      · exact outcome_refl _ s
      · have hruns : RunsTo sh s.engine (onMessage sh env id msg s.engine) :=
          .inl ⟨env, id, msg, rfl⟩
        obtain ⟨news, hsection⟩ := hruns.section hseat
        exact .ran hruns hsection
  | maintain env =>
      unfold System.step
      simp only
      split
      · exact outcome_refl _ s
      · have hruns : RunsTo sh s.engine (maintain env s.engine) := .inr ⟨env, rfl⟩
        obtain ⟨news, hsection⟩ := hruns.section hseat
        exact .ran hruns hsection
  | control ev =>
      unfold System.step
      simp only
      split
      · rename_i hctl
        exact outcome_control hctl hseat.nodup
      · exact outcome_refl _ s
  | drop pos now =>
      unfold System.step System.dropNext
      simp only
      split
      · rename_i thread id c drops sends refused htask
        refine .droppedBy htask rfl (.inl rfl) (dropped_dropPeer now id c hseat.nodup) rfl ?_
        intro d hd
        rcases List.mem_cons.1 hd with rfl | hd
        · exact .inl rfl
        · exact .inr hd
      · rename_i thread sends id htask
        exact .droppedBy htask rfl (.inr rfl) (dropped_dropPeer now id true hseat.nodup) rfl (by simp)
      · exact outcome_refl _ s
  | send pos taken =>
      unfold System.step System.sendNext
      simp only
      split
      · rename_i thread id msg sends htask
        cases taken with
        | true => exact .sent htask
        | false => exact .refused htask
      · exact outcome_refl _ s
  | accept dest theirs =>
      unfold System.step
      simp only
      split
      · exact .same ⟨.refl _, rfl, rfl, rfl, rfl, rfl, rfl⟩ (announces_append (by simp))
      · exact outcome_refl _ s
  | dial dest =>
      unfold System.step
      simp only
      split
      · exact .same ⟨.refl _, rfl, rfl, rfl, rfl, rfl, rfl⟩ (announces_append (by simp))
      · exact outcome_refl _ s
  | greet pos theirs =>
      unfold System.step
      simp only
      split
      · split <;> exact .same ⟨.refl _, rfl, rfl, rfl, rfl, rfl, rfl⟩ (announces_setPhase (by simp))
      · exact outcome_refl _ s
  | abandon pos =>
      exact .same ⟨.refl _, rfl, rfl, rfl, rfl, rfl, rfl⟩ (announces_setPhase (by simp))
  | announce pos =>
      unfold System.step
      simp only
      split
      · refine .same ⟨.refl _, rfl, rfl, rfl, rfl, rfl, rfl⟩ (announces_setPhase ?_)
        rintro _ _ ⟨⟩
        rfl
      · exact outcome_refl _ s
  | register pos env =>
      unfold System.step System.registerNext
      simp only
      split
      · rename_i dest theirs field hattach
        split
        · exact .same ⟨.refl _, rfl, rfl, rfl, rfl, rfl, rfl⟩ (announces_setPhase (by simp))
        · rename_i id hok
          obtain ⟨rfl, hreg⟩ := registered_registerPeer hok
          exact .registered hattach (admits_of_registerPeer hok) hreg
      · exact outcome_refl _ s
  | halt =>
      unfold System.step System.haltNext
      simp only
      split
      · exact .same ⟨.refl _, rfl, rfl, rfl, rfl, rfl, rfl⟩ (Announces.refl s)
      · exact .same ⟨.refl _, rfl, rfl, rfl, rfl, rfl, rfl⟩ (Announces.refl s)
      · exact .listed
      · exact outcome_refl _ s

/-! ## Critical sections -/

/-- The critical section a step is, if it is one. -/
def System.event (sh : Shared) (s : System) : Action → Option Event
  | .message env id msg => if s.busy (.reader id) then none else some (.message env id msg)
  | .maintain env => if s.busy .maintenance then none else some (.maintain env)
  | .control ev => if ev.isControl then some ev else none
  | .drop pos now =>
      match s.tasks[pos]? with
      | some ⟨_, (id, forCause) :: _, _, _⟩ => some (.drop now id forCause)
      | some ⟨_, [], _, some id⟩ => some (.drop now id true)
      | _ => none
  | .register pos env =>
      match s.attaches[pos]? with
      | some ⟨dest, .announced theirs _⟩ =>
          some (.register env dest (theirs.fast && sh.ourHandshake.extensions.fast))
      | _ => none
  | _ => none

/-- A step changes the torrent by a critical section, or not at all. -/
theorem engine_step (a : Action) (s : System) : (System.step sh a s).engine =
    (s.event sh a).elim s.engine fun ev => Engine.step sh ev s.engine := by
  cases a with
  | message env id msg =>
      unfold System.step System.event
      simp only
      split <;> rfl
  | maintain env =>
      unfold System.step System.event
      simp only
      split <;> rfl
  | control ev =>
      unfold System.step System.event
      simp only
      split <;> rfl
  | drop pos now =>
      unfold System.step System.dropNext System.event
      simp only
      split <;> rfl
  | send pos taken =>
      unfold System.step System.sendNext
      simp only
      split
      · split <;> rfl
      · rfl
  | register pos env =>
      unfold System.step System.registerNext System.event
      simp only
      split
      · rename_i dest theirs field _
        rcases registerPeer_cases sh env dest (theirs.fast && sh.ourHandshake.extensions.fast)
          s.engine.st with ⟨r, heq⟩ | ⟨_, _, _, _, _, heq⟩
        · simp only [heq, Option.elim_some, Engine.step, Engine.modifyState]
          rfl
        · simp only [heq, Option.elim_some, Engine.step, Engine.modifyState]
          rfl
      · rfl
  | greet pos theirs =>
      unfold System.step
      simp only
      split
      · split <;> rfl
      · rfl
  | announce pos =>
      unfold System.step
      simp only
      split <;> rfl
  | accept dest theirs =>
      unfold System.step
      simp only
      split <;> rfl
  | dial dest =>
      unfold System.step
      simp only
      split <;> rfl
  | abandon pos => rfl
  | halt =>
      unfold System.step System.haltNext
      simp only
      split <;> rfl

/-- What every critical section keeps, every step keeps. -/
theorem engine_induction {P : Engine → Prop} (h : P s.engine)
    (hstep : ∀ ev, P (Engine.step sh ev s.engine)) (a : Action) : P (System.step sh a s).engine := by
  rw [engine_step]
  cases s.event sh a with
  | none => exact h
  | some ev => exact hstep ev

end Clove.Torrent
