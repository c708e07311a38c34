import Clove.Lib.Machine
import Clove.Torrent.Handlers

/-!
# Runs of a torrent

The events of a torrent are the critical sections of its threads, one event for each time
the state lock is taken.  Threads interleave only between critical sections, so a run of
the torrent is a list of events in any order.
-/

namespace Clove.Torrent

open Wire (Message)

/-- One critical section. -/
inductive Event where
  /-- `register_peer`. -/
  | register (env : Env) (dest : DestHash) (fast : Bool)
  /-- The locked part of `on_message`. -/
  | message (env : Env) (id : Nat) (msg : Message)
  /-- The locked part of `maintain`. -/
  | maintain (env : Env)
  /-- The locked part of `drop_peer`. -/
  | drop (now id : Nat) (forCause : Bool)
  | setPiecePriorities (perPiece : List Nat)
  | setMode (mode : Mode)
  | addPeers (rank : DestHash → Nat) (peers : List DestHash)
  | setLocalDest (dest : DestHash)
  | setMaxPeers (maxPeers : Nat)
  | setChokeInterval (interval : Nat)
  | setKeepaliveInterval (interval : Nat)
  | setIdleTimeout (timeout : Nat)
  | setRequestTimeout (timeout : Nat)

/-- Note peers we could dial. -/
def addPeers (rank : DestHash → Nat) (peers : List DestHash) (st : State) : State :=
  peers.foldl (fun st p => (st.rememberPeerFrom rank p .trusted).1) st

/-- Noting peers changes the known destinations and nothing else. -/
theorem addPeers_eq (rank : DestHash → Nat) (peers : List DestHash) (st : State) :
    ∃ known, addPeers rank peers st = { st with knownPeers := known } := by
  unfold addPeers
  induction peers generalizing st with
  | nil => exact ⟨st.knownPeers, rfl⟩
  | cons p peers ih =>
      obtain ⟨known, heq⟩ := State.rememberPeerFrom_eq st rank p .trusted
      rw [List.foldl_cons, heq]
      exact ih _

/-- Learn which destination is our own. -/
def setLocalDest (dest : DestHash) (st : State) : State :=
  { st with localDest := some dest, knownPeers := st.knownPeers.erase dest }

namespace Engine

/-- A torrent started over these files. -/
def new (sh : Shared) (initialHave : Bitfield) (mode : Mode) (now : Nat) (disk : Disk) : Engine :=
  ⟨State.new sh initialHave mode now, disk, 0, 0, []⟩

/-- Change the state behind the lock. -/
def modifyState (f : State → State) (e : Engine) : Engine := { e with st := f e.st }

/-- What one event does. -/
def step (sh : Shared) : Event → Engine → Engine
  | .register env dest fast, e => e.modifyState fun st => (registerPeer sh env dest fast st).1
  | .message env id msg, e => (onMessage sh env id msg e).1
  | .maintain env, e => (Torrent.maintain env e).1
  | .drop now id forCause, e => e.modifyState (dropPeer now id forCause)
  | .setPiecePriorities l, e =>
      e.modifyState fun st => { st with picker := st.picker.setPiecePriorities l }
  | .setMode m, e => e.modifyState fun st => { st with picker := st.picker.setMode m }
  | .addPeers rank peers, e => e.modifyState (Torrent.addPeers rank peers)
  | .setLocalDest dest, e => e.modifyState (Torrent.setLocalDest dest)
  | .setMaxPeers n, e => e.modifyState fun st => { st with maxPeers := some n }
  | .setChokeInterval n, e => e.modifyState fun st => { st with chokeInterval := n }
  | .setKeepaliveInterval n, e => e.modifyState fun st => { st with keepaliveInterval := n }
  | .setIdleTimeout n, e => e.modifyState fun st => { st with idleTimeout := n }
  | .setRequestTimeout n, e => e.modifyState fun st => { st with requestTimeout := n }

/-- The torrent after a list of events. -/
def run (sh : Shared) (events : List Event) (e : Engine) : Engine := Machine.run (step sh) events e

end Engine

end Clove.Torrent
