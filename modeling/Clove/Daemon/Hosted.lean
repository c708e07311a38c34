import Clove.Metainfo
import Clove.Resume
import Clove.Torrent.Stopping

/-!
# A hosted torrent

The model of one entry of the daemon's registry (`registry.rs`): what the registry keeps about
a torrent, the engines it has started for it, its files, its resume file, and a scan of its
files.

The registry is behind one lock, so its operations on a torrent do not interleave with each
other.  They do interleave with the engines, which is why an operation is not one step here: it
leaves an agenda of instructions, and the registry carries out the first one at a time.  An
instruction that stands for a call is replaced by the instructions of its body.  What the
registry does for other torrents in between takes time and nothing else.

The files are what the operating system makes of them: a write is seen at once, and is safe
from a crash once its file has been synced.  A crash keeps any selection of the other writes.
The resume file is replaced as a whole or not at all.
-/

namespace Clove.Daemon

open Torrent (Shared System)

/-! ## Files -/

/-- The torrent's files. -/
structure Files where
  /-- What reads see. -/
  disk : Disk
  /-- What was there when each file was last synced. -/
  synced : Disk
  /-- The writes since, oldest first. -/
  unsynced : List FileWrite

namespace Files

/-- Files nobody has written to. -/
def new (disk : Disk) : Files := ⟨disk, disk, []⟩

def write (ws : List FileWrite) (f : Files) : Files :=
  { f with disk := f.disk.writes ws, unsynced := f.unsynced ++ ws }

/-- `sync_all` on one file. -/
def sync (file : Nat) (f : Files) : Files :=
  { f with
    synced := fun g => if g = file then f.disk g else f.synced g
    unsynced := f.unsynced.filter (·.file ≠ file) }

/-- What a crash leaves.  `keep` says which of the unsynced writes survive. -/
def crash (keep : Nat → Bool) (f : Files) : Files :=
  new (f.synced.writes ((f.unsynced.zipIdx.filter fun w => keep w.2).map Prod.fst))

end Files

/-- Claim the blocks of files that are not there in full. -/
def claimBlocks (s : Storage) (disk : Disk) : List FileWrite :=
  (s.regions.filter fun r => (disk r.file).length < r.length).map fun r => ⟨r.file, r.length, []⟩

/-! ## What the registry keeps -/

/-- Why a torrent is stopped. -/
inductive Why where
  | operator
  | seedRatio
  | seedIdle
deriving Repr, DecidableEq

def Why.code : Why → Int
  | .operator => 0
  | .seedRatio => 1
  | .seedIdle => 2

def Why.fromCode (code : Int) : Why :=
  if code = 1 then .seedRatio else if code = 2 then .seedIdle else .operator

/-- Whether a torrent should be running, and if not, why not. -/
inductive Wanted where
  | running
  | paused (why : Why)
deriving Repr, DecidableEq

/-- The part of the configuration a hosted torrent is held to. -/
structure Limits where
  preallocate : Bool
  seedRatioMilli : Nat
  seedIdleMinutes : Nat
deriving Repr, DecidableEq

/-- One hosted torrent. -/
structure Hosted where
  /-- Pieces we believe we hold. -/
  have_ : Bitfield
  /-- Pieces a restart may believe without reading them. -/
  verified : Bitfield
  /-- One byte a file. -/
  priorities : Bytes
  uploaded : Nat
  downloaded : Nat
  peers : Nat
  wanted : Wanted
  sequential : Bool
  added : Nat
  seedRatioMilli : Nat
  idleSince : Option Nat
  scanning : Bool
  /-- If an engine runs, the byte counts it started from. -/
  live : Option (Nat × Nat)
deriving DecidableEq

/-- `u64::saturating_add`. -/
def saturatingAdd (a b : Nat) : Nat := min (a + b) 18446744073709551615

/-- `u64::saturating_mul`. -/
def saturatingMul (a b : Nat) : Nat := min (a * b) 18446744073709551615

namespace Hosted

variable (sh : Shared)

/-- The picker mode of the engine. -/
def mode (h : Hosted) : Mode := if h.sequential then .sequential else .rarestFirst

/-- What each piece is worth. -/
def piecePriorities (h : Hosted) : List Nat :=
  MetaInfo.piecePriorities sh.numPieces sh.storage.layout.pieceLength
    (sh.storage.regions.map (·.length)) h.priorities

/-- The pieces asked for, and how many of those are held. -/
def wantedAndHeld (h : Hosted) : Nat × Nat :=
  let wanted := (List.range h.have_.len).filter fun i => (h.piecePriorities sh).getD i 1 ≠ 0
  (wanted.length, wanted.countP h.have_.has)

def isComplete (h : Hosted) : Bool := (h.wantedAndHeld sh).2 = (h.wantedAndHeld sh).1

def effectiveSeedRatio (h : Hosted) (defaultMilli : Nat) : Nat :=
  if 0 < h.seedRatioMilli then h.seedRatioMilli else defaultMilli

/-- Uploaded over downloaded, in thousandths. -/
def ratioMilli (h : Hosted) : Nat :=
  if h.downloaded = 0 then 0 else saturatingMul h.uploaded 1000 / h.downloaded

/-- The record to persist. -/
def resume (h : Hosted) : Resume where
  infoHash := sh.infoHash
  numPieces := h.have_.len
  have_ := h.have_.bits
  verified := h.verified.bits
  priorities := h.priorities
  uploaded := h.uploaded
  downloaded := h.downloaded
  paused := h.wanted ≠ .running
  pauseReason :=
    match h.wanted with
    | .paused why => why.code
    | .running => 0
  seedRatioMilli := h.seedRatioMilli
  sequential := h.sequential
  added := h.added

/-- A torrent just added. -/
def new (now : Nat) (paused sequential : Bool) : Hosted where
  have_ := Bitfield.empty sh.numPieces
  verified := Bitfield.empty sh.numPieces
  priorities := List.replicate sh.storage.regions.length 1
  uploaded := 0
  downloaded := 0
  peers := 0
  wanted := if paused then .paused .operator else .running
  sequential := sequential
  added := now
  seedRatioMilli := 0
  idleSince := none
  scanning := true
  live := none

end Hosted

/-- Why a torrent is skipped at the start. -/
inductive LoadError where
  | resume (e : Resume.Error)
  | mismatch
  | pieces (said has : Nat)
  | priorities (said has : Nat)
  | badHave
  | badVerified
deriving Repr, DecidableEq

/-- The torrent as its record has it.  Only what is verified is published, and if more is
claimed the files are to be hashed first. -/
def fromResume (resume : Resume) (have_ verified : Bitfield) : Hosted where
  have_ := verified
  verified := verified
  priorities := resume.priorities
  uploaded := resume.uploaded
  downloaded := resume.downloaded
  peers := 0
  wanted := if resume.paused then .paused (Why.fromCode resume.pauseReason) else .running
  sequential := resume.sequential
  added := resume.added
  seedRatioMilli := resume.seedRatioMilli
  idleSince := none
  scanning := have_ ≠ verified
  live := none

/-- Load a torrent from its resume file. -/
def loadOne (sh : Shared) (record : Bytes) : Except LoadError Hosted := do
  let resume ← (Resume.decode record).mapError .resume
  if resume.infoHash ≠ sh.infoHash then .error .mismatch
  else if resume.numPieces ≠ sh.numPieces then .error (.pieces resume.numPieces sh.numPieces)
  else if resume.priorities.length ≠ sh.storage.regions.length then
    .error (.priorities resume.priorities.length sh.storage.regions.length)
  else do
    let have_ ← (Bitfield.fromBytes resume.have_ resume.numPieces).mapError fun _ => .badHave
    let verified ←
      (Bitfield.fromBytes resume.verified resume.numPieces).mapError fun _ => .badVerified
    return fromResume resume have_ verified

/-- What a torrent that loads was loaded from. -/
theorem loadOne_ok {sh : Shared} {record : Bytes} {x : Hosted} (h : loadOne sh record = .ok x) :
    ∃ resume have_ verified, Resume.decode record = .ok resume ∧
      resume.infoHash = sh.infoHash ∧ resume.numPieces = sh.numPieces ∧
      resume.priorities.length = sh.storage.regions.length ∧
      Bitfield.fromBytes resume.have_ sh.numPieces = .ok have_ ∧
      Bitfield.fromBytes resume.verified sh.numPieces = .ok verified ∧
      x = fromResume resume have_ verified := by
  unfold loadOne at h
  obtain ⟨resume, hdecode, h⟩ := Except.ok_of_bind h
  split at h
  · cases h
  rename_i hhash
  split at h
  · cases h
  rename_i hpieces
  split at h
  · cases h
  rename_i hpriorities
  obtain ⟨have_, hhave, h⟩ := Except.ok_of_bind h
  obtain ⟨verified, hverified, h⟩ := Except.ok_of_bind h
  have hpieces := not_not.1 hpieces
  exact ⟨resume, have_, verified, Except.ok_of_mapError hdecode, not_not.1 hhash, hpieces,
    not_not.1 hpriorities, hpieces ▸ Except.ok_of_mapError hhave,
    hpieces ▸ Except.ok_of_mapError hverified, (Except.ok.inj h).symm⟩

/-! ## What the registry does -/

/-- A scan of the files, outside the registry's lock. -/
inductive Scan where
  /-- The job is handed out. -/
  | opening
  /-- The pieces below `next` are hashed. -/
  | hashing (next : Nat) (found : Bitfield)
  | done (result : Except IoError Bitfield)

/-- What is on the registry's agenda for the torrent. -/
inductive Instr where
  | refresh
  | enforceSeedLimits
  | reconcile
  | startLive
  | stopLive
  /-- The torrent's turn in the loop of `persist_progress`. -/
  | persist
  | write
  /-- A write whose failure ends the operation. -/
  | writeOrFail
  | setPriorities
  | setMode
  | dropNetwork
  /-- The body of `stop_live`, which has taken the engine with these byte counts. -/
  | unregister
  | flush (base : Nat × Nat)
  /-- `sync_storage` with these files still to sync, within `stop_live` or not. -/
  | sync (closing : Option (Nat × Nat)) (before : Bitfield) (files : List Nat)
  | snapshot (base : Nat × Nat)
  | requestStop
  | disconnectAll
  /-- The loop of `disconnect_all`. -/
  | await

/-- An operation of the registry. -/
inductive Command where
  /-- `list`, `detail` and `totals`. -/
  | refresh
  | persistProgress
  | setPaused (paused : Bool)
  | setPriorities (priorities : Bytes)
  | setSequential (sequential : Bool)
  | setSeedRatio (milli : Nat)
  | beginVerify
  | finishScan
  | attachNetwork
  | detachNetwork

/-- A torrent as the daemon hosts it. -/
structure Host where
  hosted : Hosted
  /-- The resume file. -/
  record : Bytes
  files : Files
  /-- The engines started since the daemon was, the newest last. -/
  engines : List System
  agenda : List Instr
  network : Bool
  scan : Option Scan
  /-- Whether the last start loaded the torrent. -/
  loaded : Bool
  /-- Not in the source: every record handed to `write_resume_file`. -/
  written : List Resume

/-- One step of the registry, an engine, a scan, or the end of them all. -/
inductive Action where
  /-- A thread of the `k`th engine. -/
  | engine (k : Nat) (a : Torrent.Action)
  /-- An operation is called. -/
  | command (c : Command)
  /-- The next instruction.  `ok` says whether its input or output succeeds. -/
  | registry (ok : Bool) (now : Nat)
  | scan (ok : Bool) (fault : Nat → Bool)
  | crash (keep : Nat → Bool)

namespace Host

variable (sh : Shared) (limits : Limits)

/-- The torrent `add_torrent` puts in the registry, over whatever is on disk. -/
def new (now : Nat) (paused sequential network : Bool) (disk : Disk) : Host :=
  let hosted := Hosted.new sh now paused sequential
  { hosted := hosted
    record := (hosted.resume sh).encode
    files := Files.new disk
    engines := []
    agenda := []
    network := network
    scan := some .opening
    loaded := true
    written := [hosted.resume sh] }

/-- The torrent `load_one` puts in the registry when the daemon starts on this resume file and
these files. -/
def load (record : Bytes) (disk : Disk) : Except LoadError Host :=
  (loadOne sh record).map fun hosted =>
    { hosted := hosted
      record := record
      files := Files.new disk
      engines := []
      agenda := []
      network := false
      scan := if hosted.scanning then some .opening else none
      loaded := true
      written := [] }

/-- The engine that runs, or ran last. -/
def current (h : Host) : Option System := h.engines.getLast?

/-- The pieces the current engine holds. -/
def held (h : Host) : Bitfield :=
  match h.current with
  | some s => s.engine.st.picker.haveField
  | none => h.hosted.have_

def modifyHosted (h : Host) (f : Hosted → Hosted) : Host := { h with hosted := f h.hosted }

/-- Change the current engine. -/
def modifyCurrent (h : Host) (f : System → System) : Host :=
  { h with engines := h.engines.modify (h.engines.length - 1) f }

/-- An engine that works on these files. -/
def onDisk (disk : Disk) (s : System) : System :=
  { s with engine := { s.engine with disk := disk } }

/-- What an engine wrote to the files between two states. -/
def wrote (s s' : System) : List FileWrite :=
  (s'.engine.trace.drop s.engine.trace.length).flatMap Torrent.Access.parts

/-- A thread of an engine takes a step. -/
def stepEngine (k : Nat) (a : Torrent.Action) (h : Host) : Host :=
  if a.isHalt then h
  else
    match h.engines[k]? with
    | none => h
    | some s =>
        let s' := System.step sh a (onDisk h.files.disk s)
        { h with engines := h.engines.set k s', files := h.files.write (wrote s s') }

/-- Lifetime byte counts: what an engine started from and what it has counted. -/
def counts (h : Host) (base : Nat × Nat) (x : Hosted) : Hosted :=
  match h.current with
  | some s =>
      { x with
        uploaded := saturatingAdd base.1 s.engine.uploaded
        downloaded := saturatingAdd base.2 s.engine.downloaded }
  | none => x

/-- The seed limit a torrent has met, and since when it has been idle. -/
def seedLimit (h : Host) (now : Nat) : Option Why × Option Nat :=
  let x := h.hosted
  if x.live.isNone || !x.isComplete sh then (none, none)
  else
    let ratio := x.effectiveSeedRatio limits.seedRatioMilli
    if 0 < ratio ∧ ratio ≤ x.ratioMilli then (some .seedRatio, x.idleSince)
    else if 0 < x.peers then (none, none)
    else
      let since := x.idleSince.getD now
      if 0 < limits.seedIdleMinutes ∧ limits.seedIdleMinutes * 60000 ≤ now - since then
        (some .seedIdle, some since)
      else (none, some since)

/-- Hand the record to `write_resume_file`. -/
def writeResume (ok : Bool) (h : Host) : Host :=
  let resume := h.hosted.resume sh
  { h with
    record := if ok then resume.encode else h.record
    written := h.written ++ [resume] }

/-- `start_live`. -/
def startLive (ok : Bool) (now : Nat) (h : Host) : Host :=
  let x := h.hosted
  if !h.network || x.wanted ≠ .running || x.live.isSome || x.scanning || !ok then h
  else
    let claimed := if limits.preallocate then claimBlocks sh.storage h.files.disk else []
    let files := h.files.write claimed
    let s := System.new sh x.have_ x.mode now files.disk
    let s := System.step sh (.control (.setPiecePriorities (x.piecePriorities sh))) s
    { h with
      files := files
      engines := h.engines ++ [s]
      hosted := { x with live := some (x.uploaded, x.downloaded) } }

/-- The files of the torrent, in the order they are synced. -/
def fileList : List Nat := sh.storage.regions.map (·.file)

/-- Carry out one instruction.  The rest of the agenda is in `h`. -/
def exec (ok : Bool) (now : Nat) (h : Host) : Instr → Host
  | .refresh =>
      match h.hosted.live with
      | some base =>
          let peers := (h.current.map fun s => s.engine.st.peers.length).getD 0
          h.modifyHosted fun x => h.counts base { x with have_ := h.held, peers := peers }
      | none => h.modifyHosted fun x => { x with peers := 0 }
  | .enforceSeedLimits =>
      match h.seedLimit sh limits now with
      | (some why, _) =>
          let h := h.modifyHosted fun x => { x with wanted := .paused why, idleSince := none }
          { h with agenda := .stopLive :: .write :: h.agenda }
      | (none, since) => h.modifyHosted fun x => { x with idleSince := since }
  | .reconcile =>
      if !h.network then h
      else if h.hosted.wanted ≠ .running || h.hosted.scanning then
        { h with agenda := .stopLive :: h.agenda }
      else { h with agenda := .startLive :: h.agenda }
  | .startLive => h.startLive sh limits ok now
  | .stopLive =>
      match h.hosted.live with
      | none => h
      | some base =>
          let h := h.modifyHosted fun x => { x with live := none }
          { h with agenda :=
              [.unregister, .flush base, .requestStop, .disconnectAll, .await] ++ h.agenda }
  | .persist =>
      match h.hosted.live with
      | none => h
      | some _ => { h with agenda := .sync none h.held (fileList sh) :: h.agenda }
  | .write => h.writeResume sh ok
  | .writeOrFail =>
      let h := h.writeResume sh ok
      if ok then h else { h with agenda := [] }
  | .setPriorities =>
      match h.hosted.live with
      | none => h
      | some _ =>
          let l := h.hosted.piecePriorities sh
          h.modifyCurrent (System.step sh (.control (.setPiecePriorities l)))
  | .setMode =>
      match h.hosted.live with
      | none => h
      | some _ =>
          let mode := h.hosted.mode
          h.modifyCurrent (System.step sh (.control (.setMode mode)))
  | .dropNetwork => { h with network := false }
  | .unregister => h.modifyCurrent System.haltNext
  | .flush base => { h with agenda := .sync (some base) h.held (fileList sh) :: h.agenda }
  | .sync closing before files =>
      let next := fun (h : Host) =>
        match closing with
        | some base => { h with agenda := .snapshot base :: h.agenda }
        | none => { h with agenda := .write :: h.agenda }
      match files with
      | [] => next (h.modifyHosted fun x => { x with verified := before })
      | file :: files =>
          if ok then
            { h with files := h.files.sync file, agenda := .sync closing before files :: h.agenda }
          else next h
  | .snapshot base => h.modifyHosted fun x => h.counts base { x with have_ := h.held }
  | .requestStop => h.modifyCurrent System.haltNext
  | .disconnectAll => h.modifyCurrent System.haltNext
  | .await =>
      -- the peers are dropped one by one; until then the loop is where it was
      let gone := fun s : System => s.tasks.all fun t => t.thread ≠ .control || t.drops.isEmpty
      if h.current.all gone then h else { h with agenda := .await :: h.agenda }

/-- The instructions of `persist_progress`. -/
def persistProgress : List Instr := [.refresh, .enforceSeedLimits, .reconcile, .persist]

/-- Call an operation. -/
def call (h : Host) : Command → Host
  | .refresh => { h with agenda := [.refresh] }
  | .persistProgress => { h with agenda := persistProgress }
  | .setPaused paused =>
      if !paused && h.hosted.scanning then h
      else
        let wanted := if paused then Wanted.paused .operator else .running
        { h.modifyHosted fun x => { x with wanted := wanted } with agenda := [.reconcile, .write] }
  | .setPriorities priorities =>
      if priorities.length ≠ sh.storage.regions.length || priorities.any (2 < ·) then h
      else
        { h.modifyHosted fun x => { x with priorities := priorities } with
          agenda := [.setPriorities, .write] }
  | .setSequential sequential =>
      { h.modifyHosted fun x => { x with sequential := sequential } with
        agenda := [.setMode, .write] }
  | .setSeedRatio milli =>
      let x := { h.hosted with seedRatioMilli := milli }
      let ratio := x.effectiveSeedRatio limits.seedRatioMilli
      let met := x.wanted = .paused .seedRatio ∧ (ratio = 0 ∨ x.ratioMilli < ratio)
      { h with
        hosted := if met then { x with wanted := .running } else x
        agenda := [.reconcile, .write] }
  | .beginVerify =>
      if h.hosted.live.isSome || h.hosted.scanning then h
      else { h.modifyHosted fun x => { x with scanning := true } with scan := some .opening }
  | .finishScan =>
      match h.scan with
      | some (.done result) =>
          let h := { h.modifyHosted fun x => { x with scanning := false } with scan := none }
          match result with
          | .error _ => h
          | .ok found =>
              { h.modifyHosted fun x => { x with have_ := found, verified := found } with
                agenda := [.writeOrFail, .reconcile] }
      | _ => h
  | .attachNetwork => { h with network := true, agenda := [.reconcile] }
  | .detachNetwork => { h with agenda := [.stopLive, .dropNetwork] ++ persistProgress }

/-- The next step of a scan. -/
def stepScan (ok : Bool) (fault : Nat → Bool) (h : Host) : Host :=
  match h.scan with
  | some .opening =>
      if ok then
        let claimed := if limits.preallocate then claimBlocks sh.storage h.files.disk else []
        { h with
          files := h.files.write claimed
          scan := some (.hashing 0 (Bitfield.empty sh.numPieces)) }
      else { h with scan := some (.done (.error .other)) }
  | some (.hashing next found) =>
      if next < sh.numPieces then
        match sh.storage.verifyPiece sh.sha1 h.files.disk fault next with
        | .ok good =>
            let found := if good then found.set next else found
            { h with scan := some (.hashing (next + 1) found) }
        | .error e => { h with scan := some (.done (.error e)) }
      else { h with scan := some (.done (.ok found)) }
  | _ => h

/-- The daemon dies and is started again. -/
def restart (keep : Nat → Bool) (h : Host) : Host :=
  let h := { h with
    files := h.files.crash keep
    engines := []
    agenda := []
    network := false
    scan := none }
  match loadOne sh h.record with
  | .error _ => { h with loaded := false, hosted := { h.hosted with live := none } }
  | .ok hosted =>
      { h with
        hosted := hosted
        scan := if hosted.scanning then some .opening else none }

/-- One step. -/
def step : Action → Host → Host
  | .crash keep, h => if h.loaded then h.restart sh keep else h
  | .engine k a, h => h.stepEngine sh k a
  | .command c, h => if h.loaded ∧ h.agenda.isEmpty then h.call sh limits c else h
  | .registry ok now, h =>
      match h.agenda with
      | [] => h
      | i :: rest => exec sh limits ok now { h with agenda := rest } i
  | .scan ok fault, h => h.stepScan sh limits ok fault

/-- A torrent after a list of steps. -/
def run (actions : List Action) (h : Host) : Host := Machine.run (step sh limits) actions h

end Host

/-! ## The one-byte torrent, hosted -/

namespace OneByte

open Torrent.OneByte (shared env dest)

/-- No seed limits, and no claiming of blocks. -/
def noLimits : Limits := ⟨false, 0, 0⟩

/-- Just added, with nothing on disk. -/
def host : Host := Host.new shared 0 false false true fun _ => []

/-- The registry gets on with its agenda, and nothing goes wrong. -/
def registry (n : Nat) : List Action := List.replicate n (.registry true 0)

/-- The files are hashed and the result is published. -/
def scanned : List Action :=
  List.replicate 3 (.scan true fun _ => false) ++ [.command .finishScan] ++ registry 3

/-- A peer that is past the stop flag registers, has the piece, is asked for it and delivers.
The first task of the engine that is not done is at `pos`. -/
def delivers (k pos : Nat) : List Action :=
  [.announce 0, .register 0 (env 0), .message (env 0) 0 (.bitfield [128]), .send pos true,
    .message (env 0) 0 .unchoke, .send (pos + 1) true,
    .message (env 0) 0 (.piece 0 0 [97])].map (.engine k)

/-- A peer connects to the first engine and delivers the piece. -/
def downloaded : List Action :=
  scanned ++ .engine 0 (.accept (dest 0) ⟨false, false⟩) :: delivers 0 0

end OneByte

end Clove.Daemon
