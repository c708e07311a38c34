import Clove.Daemon.Registry
import Clove.Lib.Machine

/-!
# The registry and its engines

The operations of the registry that change what runs (`registry.rs`): `start_live`, `stop_live`
and `reconcile`, and everything that calls them.

The registry is behind one lock, so here an operation is one step.  What it finds out on the way
(what the engines say of themselves, which files can be opened, which calls fail) is the
`World`, and an operation works in any.  How the same operations run beside the engines is the
business of `Host`.
-/

namespace Clove.Daemon

/-- What an engine says of itself. -/
structure Reading where
  have_ : Bitfield
  /-- The pieces `sync_storage` has made safe, if it worked. -/
  durable : Option Bitfield
  uploaded : Nat
  downloaded : Nat
  peers : Nat
deriving DecidableEq

/-- What an operation meets. -/
structure World where
  faults : Faults
  now : Nat
  /-- Whose files can be opened (`Storage::create`). -/
  creates : Bytes → Bool
  /-- The engines, when they are read, -/
  reads : Bytes → Reading
  /-- and when they are stopped or their files synced. -/
  stops : Bytes → Reading

/-! ## One torrent -/

namespace Hosted

/-- The seed limit a torrent has met, and since when it has been idle. -/
def seedLimit (sh : Torrent.Shared) (limits : Limits) (now : Nat) (x : Hosted) :
    Option Why × Option Nat :=
  if x.live.isNone || !x.isComplete sh then (none, none)
  else
    let ratio := x.effectiveSeedRatio limits.seedRatioMilli
    if 0 < ratio ∧ ratio ≤ x.ratioMilli then (some .seedRatio, x.idleSince)
    else if 0 < x.peers then (none, none)
    else
      let since := x.idleSince.getD now
      if 0 < limits.seedIdleMinutes ∧ limits.seedIdleMinutes * 60000 ≤ now - since then
        (some .seedIdle, some since)
      else (none, some since)

/-- It is the one a `Host` goes by. -/
example (sh : Torrent.Shared) (limits : Limits) (now : Nat) (h : Host) :
    h.seedLimit sh limits now = h.hosted.seedLimit sh limits now := rfl

/-- Whether the torrent should have an engine. -/
def runs (x : Hosted) : Bool := x.wanted = .running && !x.scanning

/-- What `stop_live` makes of it. -/
def stopped (reading : Reading) (x : Hosted) : Hosted :=
  match x.live with
  | none => x
  | some base =>
      { x with
        live := none
        verified := reading.durable.getD x.verified
        have_ := reading.have_
        uploaded := saturatingAdd base.1 reading.uploaded
        downloaded := saturatingAdd base.2 reading.downloaded }

/-- What `refresh` makes of it. -/
def refreshed (reading : Reading) (x : Hosted) : Hosted :=
  match x.live with
  | some base =>
      { x with
        have_ := reading.have_
        uploaded := saturatingAdd base.1 reading.uploaded
        downloaded := saturatingAdd base.2 reading.downloaded
        peers := reading.peers }
  | none => { x with peers := 0 }

/-- With an engine that counts from zero. -/
def started (x : Hosted) : Hosted := { x with live := some (x.uploaded, x.downloaded) }

/-- With another seed ratio, which may be one it has not met. -/
def withSeedRatio (limits : Limits) (milli : Nat) (x : Hosted) : Hosted :=
  let x := { x with seedRatioMilli := milli }
  let ratio := x.effectiveSeedRatio limits.seedRatioMilli
  if x.wanted = .paused .seedRatio ∧ (ratio = 0 ∨ x.ratioMilli < ratio) then
    { x with wanted := .running }
  else x

end Hosted

/-! ## All of them -/

/-- The registry with its engines. -/
structure Fleet where
  registry : Registry
  network : Bool
  /-- How many engines each torrent has had. -/
  engines : Bytes → Nat

namespace Fleet

variable (sha1 toLowercase : Bytes → Bytes) (limits : Limits)

/-- The daemon comes up on a state directory. -/
def start (f : Faults) (order : List FileName) (d : Dir) : Fleet :=
  ⟨Registry.start sha1 toLowercase f order d, false, fun _ => 0⟩

def lookup (h : Bytes) (s : Fleet) : Option Entry := s.registry.torrents.lookup h

/-- Change a hosted torrent. -/
def modify (g : Hosted → Hosted) (h : Bytes) (s : Fleet) : Fleet :=
  match s.lookup h with
  | none => s
  | some e =>
      { s with registry := { s.registry with
        torrents := s.registry.torrents.insert h { e with hosted := g e.hosted } } }

/-- Write its resume file. -/
def writeResume (w : World) (h : Bytes) (s : Fleet) : Fleet :=
  match s.lookup h with
  | none => s
  | some e =>
      let record := (e.hosted.resume (sharedOf sha1 e.info)).encode
      { s with registry := { s.registry with
        dir := (s.registry.dir.atomicWrite w.faults (stateFile h .resume) record).2 } }

/-- Whether that works. -/
def writes (w : World) (h : Bytes) (s : Fleet) : Bool :=
  match s.lookup h with
  | none => false
  | some e =>
      let record := (e.hosted.resume (sharedOf sha1 e.info)).encode
      (s.registry.dir.atomicWrite w.faults (stateFile h .resume) record).1.isOk

/-- The torrents that meet a condition. -/
def those (p : Hosted → Bool) (s : Fleet) : List Bytes :=
  (s.registry.torrents.entries.filter fun e => p e.2.hosted).map Prod.fst

/-! ### Starting and stopping -/

def stopLive (w : World) (h : Bytes) (s : Fleet) : Fleet :=
  match s.lookup h with
  | none => s
  | some e => if e.hosted.live.isNone then s else s.modify (Hosted.stopped (w.stops h)) h

def startLive (w : World) (h : Bytes) (s : Fleet) : Fleet :=
  if !s.network then s
  else
    match s.lookup h with
    | none => s
    | some e =>
        if e.hosted.wanted ≠ .running || e.hosted.live.isSome || e.hosted.scanning then s
        else if !w.creates h then s
        else
          { s.modify Hosted.started h with
            engines := Function.update s.engines h (s.engines h + 1) }

/-- Bring the engines in line with what each torrent wants. -/
def reconcile (w : World) (s : Fleet) : Fleet :=
  if !s.network then s
  else
    let stop := s.those fun x => !x.runs
    let start := s.those Hosted.runs
    start.foldl (fun s h => s.startLive w h) (stop.foldl (fun s h => s.stopLive w h) s)

/-! ### The operations -/

def refresh (w : World) (s : Fleet) : Fleet :=
  (s.those fun _ => true).foldl (fun s h => s.modify (Hosted.refreshed (w.reads h)) h) s

/-- What `enforce_seed_limits` does to a torrent that has met one. -/
def stopFor (w : World) (s : Fleet) (found : Bytes × Why) : Fleet :=
  let s := s.modify (fun x => { x with wanted := .paused found.2, idleSince := none }) found.1
  (s.stopLive w found.1).writeResume sha1 w found.1

/-- Stop the torrents that have met their seed limit. -/
def enforceSeedLimits (w : World) (s : Fleet) : Fleet :=
  let limit := fun e : Entry => e.hosted.seedLimit (sharedOf sha1 e.info) limits w.now
  let met := s.registry.torrents.entries.filterMap fun e => (limit e.2).1.map (e.1, ·)
  let s := s.registry.torrents.entries.foldl
    (fun s e => s.modify (fun x => { x with idleSince := (limit e.2).2 }) e.1) s
  met.foldl (stopFor sha1 w) s

/-- The turn of a running torrent in the loop of `persist_progress`. -/
def persist (w : World) (s : Fleet) (h : Bytes) : Fleet :=
  let s := s.modify (fun x => { x with verified := (w.stops h).durable.getD x.verified }) h
  s.writeResume sha1 w h

def persistProgress (w : World) (s : Fleet) : Fleet :=
  let s := ((s.refresh w).enforceSeedLimits sha1 limits w).reconcile w
  (s.those fun x => x.live.isSome).foldl (persist sha1 w) s

def attachNetwork (w : World) (s : Fleet) : Fleet := { s with network := true }.reconcile w

def detachNetwork (w : World) (s : Fleet) : Fleet :=
  let s := (s.those fun _ => true).foldl (fun s h => s.stopLive w h) s
  { s with network := false }.persistProgress sha1 limits w

def addTorrent (w : World) (bytes : Bytes) (options : AddOptions) (s : Fleet) : Fleet :=
  { s with
    registry := (s.registry.addTorrent sha1 toLowercase w.faults w.now bytes options).2 }

def setPaused (w : World) (h : Bytes) (paused : Bool) (s : Fleet) : Fleet :=
  match s.lookup h with
  | none => s
  | some e =>
      if !paused && e.hosted.scanning then s
      else
        let wanted := if paused then Wanted.paused .operator else .running
        ((s.modify (fun x => { x with wanted := wanted }) h).reconcile w).writeResume sha1 w h

def setPriorities (w : World) (h priorities : Bytes) (s : Fleet) : Fleet :=
  match s.lookup h with
  | none => s
  | some e =>
      if priorities.length ≠ e.info.files.length || priorities.any (2 < ·) then s
      else (s.modify (fun x => { x with priorities := priorities }) h).writeResume sha1 w h

def setSequential (w : World) (h : Bytes) (sequential : Bool) (s : Fleet) : Fleet :=
  (s.modify (fun x => { x with sequential := sequential }) h).writeResume sha1 w h

def setSeedRatio (w : World) (h : Bytes) (milli : Nat) (s : Fleet) : Fleet :=
  match s.lookup h with
  | none => s
  | some _ => ((s.modify (Hosted.withSeedRatio limits milli) h).reconcile w).writeResume sha1 w h

def beginVerify (h : Bytes) (s : Fleet) : Fleet :=
  match s.lookup h with
  | none => s
  | some e =>
      if e.hosted.live.isSome || e.hosted.scanning then s
      else s.modify (fun x => { x with scanning := true }) h

def finishScan (w : World) (h : Bytes) (result : Except IoError Bitfield) (s : Fleet) : Fleet :=
  let s := s.modify (fun x => { x with scanning := false }) h
  match result with
  | .error _ => s
  | .ok found =>
      let s := s.modify (fun x => { x with have_ := found, verified := found }) h
      let s' := s.writeResume sha1 w h
      if s.writes sha1 w h then s'.reconcile w else s'

def remove (w : World) (h : Bytes) (s : Fleet) : Fleet :=
  match s.lookup h with
  | none =>
      -- not hosted, so it is a magnet or nothing
      if s.registry.pending.has h then
        match s.registry.dir.removeFileOk w.faults (stateFile h .magnet) with
        | (.error _, d) => { s with registry := { s.registry with dir := d } }
        | (.ok (), d) =>
            { s with registry := { s.registry with
              pending := s.registry.pending.erase h, dir := d } }
      else s
  | some e =>
      match s.registry.remove w.faults (e.hosted.stopped (w.stops h)) h with
      | (.error _, r) => { s with registry := r }
      | (.ok (), r) =>
          if s.registry.pending.has h then { s with registry := r }
          else { s with registry := r }.reconcile w

/-- An operation of the registry. -/
inductive Op where
  /-- The daemon ends, and is started on the same state directory. -/
  | start (order : List FileName)
  | attachNetwork
  | detachNetwork
  /-- `list`, `detail` and `totals`. -/
  | refresh
  | persistProgress
  | addTorrent (bytes : Bytes) (options : AddOptions)
  | addMagnet (uri : Bytes)
  | completeMagnet (h bytes : Bytes)
  | setPaused (h : Bytes) (paused : Bool)
  | setPriorities (h priorities : Bytes)
  | setSequential (h : Bytes) (sequential : Bool)
  | setSeedRatio (h : Bytes) (milli : Nat)
  | beginVerify (h : Bytes)
  | finishScan (h : Bytes) (result : Except IoError Bitfield)
  | remove (h : Bytes)

/-- One operation, and what it meets. -/
def step (a : World × Op) (s : Fleet) : Fleet :=
  let w := a.1
  match a.2 with
  | .start order => start sha1 toLowercase w.faults order s.registry.dir
  | .attachNetwork => s.attachNetwork w
  | .detachNetwork => s.detachNetwork sha1 limits w
  | .refresh => s.refresh w
  | .persistProgress => s.persistProgress sha1 limits w
  | .addTorrent bytes options => s.addTorrent sha1 toLowercase w bytes options
  | .addMagnet uri => { s with registry := (s.registry.addMagnet w.faults uri).2 }
  | .completeMagnet h bytes =>
      { s with
        registry := (s.registry.completeMagnet sha1 toLowercase w.faults w.now h bytes).2 }
  | .setPaused h paused => s.setPaused sha1 w h paused
  | .setPriorities h priorities => s.setPriorities sha1 w h priorities
  | .setSequential h sequential => s.setSequential sha1 w h sequential
  | .setSeedRatio h milli => s.setSeedRatio sha1 limits w h milli
  | .beginVerify h => s.beginVerify h
  | .finishScan h result => s.finishScan sha1 w h result
  | .remove h => s.remove w h

/-- The registry after a list of operations. -/
def run (acts : List (World × Op)) (s : Fleet) : Fleet :=
  Machine.run (step sha1 toLowercase limits) acts s

end Fleet

end Clove.Daemon
