import Clove.BitfieldMembers
import Clove.Daemon.Fetching
import Clove.Daemon.Reconcile

/-!
# What the operations return

`Fleet` says what the operations of the registry do to it.  Here they are again with what they
return, each as its caller sees it (`registry.rs`), and each leaves what `Fleet` says it does
(`setPaused_snd` and so on).  An operation that refuses what is asked of it has done nothing
(`badInput_setPaused` and so on), and one that returns has left the record it wrote in the state
directory (`Recorded`).
-/

namespace Clove.Daemon

/-- Why an action on a torrent failed. -/
inductive ActionError where
  | notFound
  | badInput (what : String)
  | io (e : IoError)
deriving Repr, DecidableEq

/-- What became of the downloaded files of a torrent that were to be deleted with it: of each, in
order, what removing it beneath the downloads directory came to, and the directory they were in,
which goes if it is empty by then. -/
structure Wiped where
  files : List (List Bytes × Except IoError Unit)
  top : Bytes

/-- The deletion of the downloaded files.  One that fails is logged, and the next is set about. -/
def wipe (unlinked : List Bytes → Except IoError Unit) (m : MetaInfo) : Wiped where
  files := m.files.map fun file => (file.path, unlinked file.path)
  top := m.name

namespace Answering

variable (sha1 toLowercase : Bytes → Bytes) (limits : Limits)

/-- `write_resume_file` for a torrent that is hosted. -/
def writeResume (w : World) (h : Bytes) (s : Fleet) : Except ActionError Unit × Fleet :=
  match s.lookup h with
  | none => (.error .notFound, s)
  | some e =>
      let record := (e.hosted.resume (sharedOf sha1 e.info)).encode
      let r := s.registry.dir.atomicWrite w.faults (stateFile h .resume) record
      (r.1.mapError .io, { s with registry := { s.registry with dir := r.2 } })

def setPaused (w : World) (h : Bytes) (paused : Bool) (s : Fleet) :
    Except ActionError Unit × Fleet :=
  match s.lookup h with
  | none => (.error .notFound, s)
  | some e =>
      if !paused && e.hosted.scanning then
        (.error (.badInput ("a verification is running for this torrent; it will start on its " ++
          "own when that finishes")), s)
      else
        let wanted := if paused then Wanted.paused .operator else .running
        writeResume sha1 w h ((s.modify (fun x => { x with wanted := wanted }) h).reconcile w)

/-- The number of files, when it works. -/
def setPriorities (w : World) (h priorities : Bytes) (s : Fleet) :
    Except ActionError Nat × Fleet :=
  match s.lookup h with
  | none => (.error .notFound, s)
  | some e =>
      if priorities.length ≠ e.info.files.length then
        (.error (.badInput "priority count must equal the file count"), s)
      else if priorities.any (2 < ·) then (.error (.badInput "priorities must be 0, 1, or 2"), s)
      else
        let r := writeResume sha1 w h (s.modify (fun x => { x with priorities := priorities }) h)
        (r.1.map fun _ => priorities.length, r.2)

def setSequential (w : World) (h : Bytes) (sequential : Bool) (s : Fleet) :
    Except ActionError Unit × Fleet :=
  match s.lookup h with
  | none => (.error .notFound, s)
  | some _ => writeResume sha1 w h (s.modify (fun x => { x with sequential := sequential }) h)

def setSeedRatio (w : World) (h : Bytes) (milli : Nat) (s : Fleet) :
    Except ActionError Unit × Fleet :=
  match s.lookup h with
  | none => (.error .notFound, s)
  | some _ =>
      writeResume sha1 w h ((s.modify (Hosted.withSeedRatio limits milli) h).reconcile w)

/-- The torrent is to be hashed, when it works. -/
def beginVerify (h : Bytes) (s : Fleet) : Except ActionError Unit × Fleet :=
  match s.lookup h with
  | none => (.error .notFound, s)
  | some e =>
      if e.hosted.live.isSome then
        (.error (.badInput "pause the torrent before verifying (it is actively writing)"), s)
      else if e.hosted.scanning then
        (.error (.badInput "this torrent is already being verified"), s)
      else (.ok (), s.modify (fun x => { x with scanning := true }) h)

/-- The number of pieces found, when it works. -/
def finishScan (w : World) (h : Bytes) (scanned : Except IoError Bitfield) (s : Fleet) :
    Except ActionError Nat × Fleet :=
  match s.lookup h with
  | none => (.error .notFound, s)
  | some _ =>
      let s := s.modify (fun x => { x with scanning := false }) h
      match scanned with
      | .error e => (.error (.io e), s)
      | .ok found =>
          let s := s.modify (fun x => { x with have_ := found, verified := found }) h
          match writeResume sha1 w h s with
          | (.error e, s) => (.error e, s)
          | (.ok (), s) => (.ok found.count, s.reconcile w)

/-- What became of the downloaded files comes with the answer, which does not depend on it. -/
def remove (w : World) (unlinked : List Bytes → Except IoError Unit) (h : Bytes) (deleteData : Bool)
    (s : Fleet) :
    (Except RemoveError Unit × Option Wiped) × Fleet :=
  if s.registry.pending.has h then
    match s.registry.dir.removeFileOk w.faults (stateFile h .magnet) with
    | (.error e, d) => ((.error (.io e), none), { s with registry := { s.registry with dir := d } })
    | (.ok (), d) =>
        ((.ok (), none), { s with registry := { s.registry with
          pending := s.registry.pending.erase h, dir := d } })
  else
    match s.lookup h with
    | none => ((.error .notFound, none), s)
    | some e =>
        if e.hosted.scanning then ((.error .scanning, none), s)
        else
          let s := s.stopLive w h
          match s.registry.dir.removeFileOk w.faults (stateFile h .torrent) with
          | (.error e, d) =>
              ((.error (.io e), none), { s with registry := { s.registry with dir := d } })
          | (.ok (), d) =>
              match d.removeFileOk w.faults (stateFile h .resume) with
              | (.error e, d) =>
                  ((.error (.io e), none), { s with registry := { s.registry with dir := d } })
              | (.ok (), d) =>
                  ((.ok (), if deleteData then some (wipe unlinked e.info) else none),
                    { s with registry := { s.registry with
                      torrents := s.registry.torrents.erase h, dir := d } }.reconcile w)

def addTorrent (w : World) (bytes : Bytes) (options : AddOptions) (s : Fleet) :
    Except AddError Bytes × Fleet :=
  let r := s.registry.addTorrent sha1 toLowercase w.faults w.now bytes options
  (r.1, { s with registry := r.2 })

def addMagnet (w : World) (uri : Bytes) (s : Fleet) : Except AddError Bytes × Fleet :=
  let r := s.registry.addMagnet w.faults uri
  (r.1, { s with registry := r.2 })

/-! ## What they leave -/

variable {sha1 toLowercase limits} {w : World} {h : Bytes} {s : Fleet}
  {unlinked : List Bytes → Except IoError Unit}

theorem writeResume_snd : (writeResume sha1 w h s).2 = s.writeResume sha1 w h := by
  unfold writeResume Fleet.writeResume
  cases s.lookup h with
  | none => rfl
  | some e => rfl

/-- The record is written if `Fleet` has it so. -/
theorem writeResume_isOk : (writeResume sha1 w h s).1.isOk = s.writes sha1 w h := by
  unfold writeResume Fleet.writes
  cases s.lookup h with
  | none => rfl
  | some e =>
      simp only
      cases (s.registry.dir.atomicWrite w.faults (stateFile h .resume)
        (e.hosted.resume (sharedOf sha1 e.info)).encode).1 with
      | ok u => rfl
      | error e => rfl

theorem setPaused_snd {paused : Bool} :
    (setPaused sha1 w h paused s).2 = s.setPaused sha1 w h paused := by
  unfold setPaused Fleet.setPaused
  cases s.lookup h with
  | none => rfl
  | some e =>
      simp only
      split
      · rfl
      · exact writeResume_snd

theorem setPriorities_snd {priorities : Bytes} :
    (setPriorities sha1 w h priorities s).2 = s.setPriorities sha1 w h priorities := by
  unfold setPriorities Fleet.setPriorities
  cases s.lookup h with
  | none => rfl
  | some e =>
      simp only [Bool.or_eq_true, decide_eq_true_eq]
      by_cases hcount : priorities.length ≠ e.info.files.length
      · rw [if_pos hcount, if_pos (.inl hcount)]
      by_cases hvalues : priorities.any (2 < ·) = true
      · rw [if_neg hcount, if_pos hvalues, if_pos (.inr hvalues)]
      · rw [if_neg hcount, if_neg hvalues, if_neg (not_or.2 ⟨hcount, hvalues⟩)]
        exact writeResume_snd

theorem setSequential_snd {sequential : Bool} :
    (setSequential sha1 w h sequential s).2 = s.setSequential sha1 w h sequential := by
  unfold setSequential Fleet.setSequential
  cases hlookup : s.lookup h with
  | none =>
      have hmodify : ∀ g, s.modify g h = s := fun g => by unfold Fleet.modify; rw [hlookup]
      rw [hmodify]
      unfold Fleet.writeResume
      rw [hlookup]
  | some e => exact writeResume_snd

theorem setSeedRatio_snd {milli : Nat} :
    (setSeedRatio sha1 limits w h milli s).2 = s.setSeedRatio sha1 limits w h milli := by
  unfold setSeedRatio Fleet.setSeedRatio
  cases s.lookup h with
  | none => rfl
  | some e => exact writeResume_snd

theorem beginVerify_snd : (beginVerify h s).2 = s.beginVerify h := by
  unfold beginVerify Fleet.beginVerify
  cases s.lookup h with
  | none => rfl
  | some e =>
      simp only
      cases e.hosted.live.isSome with
      | true => rfl
      | false =>
          cases e.hosted.scanning with
          | true => rfl
          | false => rfl

theorem finishScan_snd {scanned : Except IoError Bitfield} :
    (finishScan sha1 w h scanned s).2 = s.finishScan sha1 w h scanned := by
  unfold finishScan Fleet.finishScan
  cases hlookup : s.lookup h with
  | none =>
      have hmodify : ∀ g, s.modify g h = s := fun g => by unfold Fleet.modify; rw [hlookup]
      have hwrites : s.writes sha1 w h = false := by unfold Fleet.writes; rw [hlookup]
      have hwrite : s.writeResume sha1 w h = s := by unfold Fleet.writeResume; rw [hlookup]
      cases scanned with
      | error e => simp only [hmodify]
      | ok found => simp only [hmodify, hwrites, hwrite, Bool.false_eq_true, if_false]
  | some e =>
      cases scanned with
      | error e => rfl
      | ok found =>
          simp only
          generalize (s.modify (fun x => { x with scanning := false }) h).modify
            (fun x => { x with have_ := found, verified := found }) h = s'
          rw [← writeResume_isOk (s := s'), ← writeResume_snd]
          obtain ⟨result, after⟩ := writeResume sha1 w h s'
          cases result with
          | ok u => rfl
          | error e => rfl

theorem remove_snd {deleteData : Bool} : (remove w unlinked h deleteData s).2 = s.remove w h := by
  have hstop : ∀ e, s.lookup h = some e →
      { s with registry := s.registry.stopLive (e.hosted.stopped (w.stops h)) h } =
        s.stopLive w h := by
    intro e hlookup
    have hlookup' : s.registry.torrents.lookup h = some e := hlookup
    unfold Registry.stopLive Fleet.stopLive Fleet.modify
    rw [hlookup, hlookup']
    simp only
    split
    · rfl
    · rfl
  unfold remove Fleet.remove Registry.remove
  cases hpending : s.registry.pending.has h with
  | true =>
      cases hlookup : s.lookup h with
      | none =>
          simp only [if_true]
          obtain ⟨result, d⟩ := s.registry.dir.removeFileOk w.faults (stateFile h .magnet)
          cases result with
          | ok u => rfl
          | error e => rfl
      | some e =>
          simp only [if_true]
          obtain ⟨result, d⟩ := s.registry.dir.removeFileOk w.faults (stateFile h .magnet)
          cases result with
          | ok u => rfl
          | error e => rfl
  | false =>
      cases hlookup : s.lookup h with
      | none => rfl
      | some e =>
          have hlookup' : s.registry.torrents.lookup h = some e := hlookup
          simp only [Bool.false_eq_true, if_false, hlookup']
          cases e.hosted.scanning with
          | true => rfl
          | false =>
              simp only [Bool.false_eq_true, if_false, ← hstop e hlookup]
              obtain ⟨result, d⟩ := (s.registry.stopLive (e.hosted.stopped (w.stops h)) h).dir.removeFileOk
                w.faults (stateFile h .torrent)
              cases result with
              | error e => rfl
              | ok u =>
                  simp only
                  obtain ⟨result, d'⟩ := d.removeFileOk w.faults (stateFile h .resume)
                  cases result with
                  | error e => rfl
                  | ok u => rfl

/-! ## What they have done when they return -/

/-- A torrent is hosted as `e`, and its record is in the state directory. -/
def Recorded (sha1 : Bytes → Bytes) (h : Bytes) (e : Entry) (s : Fleet) : Prop :=
  s.lookup h = some e ∧
    s.registry.dir (stateFile h .resume) = some (e.hosted.resume (sharedOf sha1 e.info)).encode

/-- A record that is written is that of the torrent as it is hosted. -/
theorem recorded_writeResume (hok : (writeResume sha1 w h s).1.isOk = true) :
    ∃ e, s.lookup h = some e ∧ Recorded sha1 h e (writeResume sha1 w h s).2 := by
  unfold writeResume at hok ⊢
  cases hlookup : s.lookup h with
  | none =>
      rw [hlookup] at hok
      cases hok
  | some e =>
      rw [hlookup] at hok
      simp only at hok ⊢
      refine ⟨e, rfl, hlookup, ?_⟩
      obtain ⟨-, d, heq, hbeside⟩ | ⟨-, err, d, heq, -⟩ := atomicWrite_cases w.faults
        (stateFile h .resume) (e.hosted.resume (sharedOf sha1 e.info)).encode s.registry.dir
      · rw [heq]
        exact (hbeside.agree _ rfl).trans ((put_apply _ _ _).trans (if_pos rfl))
      · rw [heq] at hok
        cases hok

/-- Bringing the engines in line leaves the state directory alone. -/
theorem dir_reconcile (w : World) (s : Fleet) : (s.reconcile w).registry.dir = s.registry.dir := by
  have hmodify : ∀ g k (s : Fleet), (s.modify g k).registry.dir = s.registry.dir := by
    intro g k s
    unfold Fleet.modify
    split
    · rfl
    · rfl
  have hstop : ∀ (s : Fleet) k, (s.stopLive w k).registry.dir = s.registry.dir := by
    intro s k
    unfold Fleet.stopLive
    split
    · rfl
    · split
      · rfl
      · exact hmodify _ k s
  have hstart : ∀ (s : Fleet) k, (s.startLive w k).registry.dir = s.registry.dir := by
    intro s k
    rw [Fleet.startLive_eq]
    split
    · exact hmodify _ k s
    · rfl
  have hfold : ∀ {act : Fleet → Bytes → Fleet} (l : List Bytes) (s : Fleet),
      (∀ s k, (act s k).registry.dir = s.registry.dir) →
      (l.foldl act s).registry.dir = s.registry.dir := by
    intro act l
    induction l with
    | nil => exact fun s _ => rfl
    | cons k l ih => exact fun s hact => (ih _ hact).trans (hact s k)
  unfold Fleet.reconcile
  split
  · rfl
  · exact (hfold _ _ fun s k => hstart s k).trans (hfold _ _ fun s k => hstop s k)

/-- What an operator has set for a torrent. -/
structure Settings where
  wanted : Wanted
  priorities : Bytes
  sequential : Bool
  seedRatioMilli : Nat
deriving Repr, DecidableEq

def settings (x : Hosted) : Settings := ⟨x.wanted, x.priorities, x.sequential, x.seedRatioMilli⟩

theorem settings_stopped (reading : Reading) (x : Hosted) :
    settings (x.stopped reading) = settings x := by
  unfold Hosted.stopped
  split
  · rfl
  · rfl

/-- It changes no setting either, and takes no torrent out. -/
theorem lookup_reconcile (w : World) (s : Fleet) (k : Bytes) :
    ((s.reconcile w).lookup k).map (fun e => (e.info, settings e.hosted)) =
      (s.lookup k).map fun e => (e.info, settings e.hosted) := by
  cases hnetwork : s.network with
  | false =>
      unfold Fleet.reconcile
      rw [if_pos (by simp [hnetwork])]
  | true =>
      have hmember := congrArg Member.entry (Fleet.member_reconcile w s k hnetwork)
      rw [Fleet.member_entry] at hmember
      rw [hmember]
      cases hlookup : s.lookup k with
      | none => simp [hlookup]
      | some e =>
          simp only
          split
          · unfold Member.start
            split
            · simp [Member.update, hlookup, settings, Hosted.started]
            · simp [hlookup]
          · simp [Member.update, hlookup, settings_stopped]

theorem lookup_modify (g : Hosted → Hosted) {e : Entry} (he : s.lookup h = some e) :
    (s.modify g h).lookup h = some { e with hosted := g e.hosted } := by
  have hmember := congrArg Member.entry (Fleet.member_modify g h h s)
  rw [if_pos rfl, Fleet.member_entry, Member.update, Fleet.member_entry, he] at hmember
  exact hmember

/-- A torrent that is hosted and changed can be told of. -/
theorem writeResume_hosted {e : Entry} (he : s.lookup h = some e) {err : ActionError}
    (herr : (writeResume sha1 w h s).1 = .error err) : ∃ io, err = .io io := by
  unfold writeResume at herr
  rw [he] at herr
  simp only at herr
  revert herr
  cases (s.registry.dir.atomicWrite w.faults (stateFile h .resume)
    (e.hosted.resume (sharedOf sha1 e.info)).encode).1 with
  | ok u =>
      intro herr
      cases herr
  | error io =>
      intro herr
      exact ⟨io, (Except.error.inj herr).symm⟩

/-! ## Changes -/

/-- A change to the settings of a torrent. -/
inductive Change where
  | setPaused (paused : Bool)
  | setSeedRatio (milli : Nat)
  | setSequential (sequential : Bool)
  | setPriorities (priorities : Bytes)
deriving Repr, DecidableEq

namespace Change

/-- The torrent with the change. -/
def apply (limits : Limits) : Change → Hosted → Hosted
  | .setPaused paused, x => { x with wanted := if paused then .paused .operator else .running }
  | .setSeedRatio milli, x => x.withSeedRatio limits milli
  | .setSequential sequential, x => { x with sequential := sequential }
  | .setPriorities priorities, x => { x with priorities := priorities }

/-- What is wrong with a change to a torrent. -/
def refusal : Change → Entry → Option String
  | .setPaused paused, e =>
      if !paused && e.hosted.scanning then
        some ("a verification is running for this torrent; it will start on its own when that " ++
          "finishes")
      else none
  | .setSeedRatio _, _ => none
  | .setSequential _, _ => none
  | .setPriorities priorities, e =>
      if priorities.length ≠ e.info.files.length then
        some "priority count must equal the file count"
      else if priorities.any (2 < ·) then some "priorities must be 0, 1, or 2"
      else none

/-- Whether the engines are brought in line with it. -/
def reconciles : Change → Bool
  | .setPaused _ => true
  | .setSeedRatio _ => true
  | .setSequential _ => false
  | .setPriorities _ => false

/-- The operation that makes it. -/
def op (h : Bytes) : Change → Fleet.Op
  | .setPaused paused => .setPaused h paused
  | .setSeedRatio milli => .setSeedRatio h milli
  | .setSequential sequential => .setSequential h sequential
  | .setPriorities priorities => .setPriorities h priorities

end Change

/-- Make a change. -/
def make (sha1 : Bytes → Bytes) (limits : Limits) (c : Change) (w : World) (h : Bytes)
    (s : Fleet) : Except ActionError Unit × Fleet :=
  match c with
  | .setPaused paused => setPaused sha1 w h paused s
  | .setSeedRatio milli => setSeedRatio sha1 limits w h milli s
  | .setSequential sequential => setSequential sha1 w h sequential s
  | .setPriorities priorities =>
      let r := setPriorities sha1 w h priorities s
      (r.1.map fun _ => (), r.2)

theorem make_snd (c : Change) :
    (make sha1 limits c w h s).2 = s.step sha1 toLowercase limits (w, c.op h) := by
  cases c with
  | setPaused paused => exact setPaused_snd
  | setSeedRatio milli => exact setSeedRatio_snd
  | setSequential sequential => exact setSequential_snd
  | setPriorities priorities => exact setPriorities_snd

/-- The torrent as it is changed, before its record is written. -/
def changed (limits : Limits) (c : Change) (w : World) (h : Bytes) (s : Fleet) : Fleet :=
  let s := s.modify (c.apply limits) h
  if c.reconciles then s.reconcile w else s

/-- Every change is made the same way. -/
theorem make_eq (c : Change) : make sha1 limits c w h s =
    match s.lookup h with
    | none => (.error .notFound, s)
    | some e =>
        match c.refusal e with
        | some what => (.error (.badInput what), s)
        | none => writeResume sha1 w h (changed limits c w h s) := by
  cases c with
  | setPaused paused =>
      unfold make setPaused
      cases s.lookup h with
      | none => rfl
      | some e =>
          simp only [Change.refusal]
          split
          · rfl
          · rfl
  | setSeedRatio milli => rfl
  | setSequential sequential => rfl
  | setPriorities priorities =>
      unfold make setPriorities
      cases s.lookup h with
      | none => rfl
      | some e =>
          simp only [Change.refusal]
          by_cases hcount : priorities.length ≠ e.info.files.length
          · rw [if_pos hcount, if_pos hcount]
            rfl
          · rw [if_neg hcount, if_neg hcount]
            by_cases hvalues : priorities.any (2 < ·) = true
            · rw [if_pos hvalues, if_pos hvalues]
              rfl
            · rw [if_neg hvalues, if_neg hvalues]
              simp only [changed, Change.reconciles, Bool.false_eq_true, if_false]
              have hmap : ∀ r : Except ActionError Unit × Fleet,
                  ((r.1.map fun _ => priorities.length).map fun _ => (), r.2) = r := by
                rintro ⟨result, after⟩
                cases result with
                | ok u => rfl
                | error e => rfl
              exact hmap _

theorem lookup_changed (limits : Limits) (c : Change) {e : Entry} (he : s.lookup h = some e) :
    ∃ e', (changed limits c w h s).lookup h = some e' ∧ e'.info = e.info ∧
      settings e'.hosted = settings (c.apply limits e.hosted) := by
  have hmodify := lookup_modify (c.apply limits) he
  unfold changed
  simp only
  split
  · have hsame := lookup_reconcile w (s.modify (c.apply limits) h) h
    rw [hmodify] at hsame
    obtain ⟨e', he', heq⟩ := Option.map_eq_some_iff.1 hsame
    exact ⟨e', he', congrArg Prod.fst heq, congrArg Prod.snd heq⟩
  · exact ⟨_, hmodify, rfl, rfl⟩

/-- A change that is made is on disk. -/
theorem make_ok {c : Change} (hok : (make sha1 limits c w h s).1.isOk = true) :
    ∃ e e', s.lookup h = some e ∧ c.refusal e = none ∧ e'.info = e.info ∧
      settings e'.hosted = settings (c.apply limits e.hosted) ∧
      Recorded sha1 h e' (make sha1 limits c w h s).2 := by
  rw [make_eq] at hok ⊢
  cases hlookup : s.lookup h with
  | none =>
      rw [hlookup] at hok
      cases hok
  | some e =>
      rw [hlookup] at hok
      simp only at hok ⊢
      cases hrefusal : c.refusal e with
      | some what =>
          rw [hrefusal] at hok
          cases hok
      | none =>
          rw [hrefusal] at hok
          obtain ⟨e', he', hinfo, hsettings⟩ := lookup_changed (w := w) limits c hlookup
          obtain ⟨e'', he'', hrecorded⟩ := recorded_writeResume hok
          obtain rfl := Option.some.inj (he'.symm.trans he'')
          exact ⟨e, e', rfl, hrefusal, hinfo, hsettings, hrecorded⟩

/-- A change that is refused has changed nothing. -/
theorem make_error {c : Change} {err : ActionError}
    (herr : (make sha1 limits c w h s).1 = .error err) :
    (∃ io, err = .io io) ∨ (make sha1 limits c w h s).2 = s := by
  rw [make_eq] at herr ⊢
  cases hlookup : s.lookup h with
  | none => exact .inr rfl
  | some e =>
      rw [hlookup] at herr
      simp only at herr ⊢
      cases hrefusal : c.refusal e with
      | some what => exact .inr rfl
      | none =>
          rw [hrefusal] at herr
          obtain ⟨e', he', -, -⟩ := lookup_changed (w := w) limits c hlookup
          exact .inl (writeResume_hosted he' herr)

/-! ## Hashing and removing -/

theorem beginVerify_error {err : ActionError} (herr : (beginVerify h s).1 = .error err) :
    (beginVerify h s).2 = s := by
  unfold beginVerify at herr ⊢
  split
  · rfl
  · rename_i e hlookup
    rw [hlookup] at herr
    simp only at herr ⊢
    split
    · rfl
    · rename_i hlive
      rw [if_neg hlive] at herr
      split
      · rfl
      · rename_i hscanning
        rw [if_neg hscanning] at herr
        cases herr

/-- What a scan has found is what the torrent has from then on, and its record is written. -/
theorem finishScan_ok {scanned : Except IoError Bitfield} {n : Nat}
    (hok : (finishScan sha1 w h scanned s).1 = .ok n) : ∃ found e x, scanned = .ok found ∧
      n = found.count ∧ s.lookup h = some e ∧
      x = { e.hosted with scanning := false, have_ := found, verified := found } ∧
      (finishScan sha1 w h scanned s).2.registry.dir (stateFile h .resume) =
        some (x.resume (sharedOf sha1 e.info)).encode := by
  unfold finishScan at hok ⊢
  cases hlookup : s.lookup h with
  | none =>
      rw [hlookup] at hok
      cases hok
  | some e =>
      rw [hlookup] at hok
      cases scanned with
      | error err => cases hok
      | ok found =>
          simp only at hok ⊢
          have he' := lookup_modify (fun x => { x with have_ := found, verified := found })
            (lookup_modify (fun x => { x with scanning := false }) hlookup)
          generalize (s.modify (fun x => { x with scanning := false }) h).modify
            (fun x => { x with have_ := found, verified := found }) h = s' at hok he' ⊢
          cases hwrite : writeResume sha1 w h s' with
          | mk result after =>
              rw [hwrite] at hok
              cases result with
              | error err => cases hok
              | ok u =>
                  obtain ⟨e'', he'', hrecorded⟩ := recorded_writeResume (s := s') (by rw [hwrite]; rfl)
                  obtain rfl := Option.some.inj (he'.symm.trans he'')
                  rw [hwrite] at hrecorded
                  exact ⟨found, e, _, rfl, (Except.ok.inj hok).symm, rfl, rfl,
                    (congrFun (dir_reconcile w after) _).trans hrecorded.2⟩

/-- Only the file system can keep a scan of a hosted torrent from being published. -/
theorem finishScan_error {scanned : Except IoError Bitfield} {e : Entry}
    (he : s.lookup h = some e) {err : ActionError}
    (herr : (finishScan sha1 w h scanned s).1 = .error err) : ∃ io, err = .io io := by
  unfold finishScan at herr
  rw [he] at herr
  cases scanned with
  | error io => exact ⟨io, (Except.error.inj herr).symm⟩
  | ok found =>
      simp only at herr
      have he' := lookup_modify (fun x => { x with have_ := found, verified := found })
        (lookup_modify (fun x => { x with scanning := false }) he)
      generalize (s.modify (fun x => { x with scanning := false }) h).modify
        (fun x => { x with have_ := found, verified := found }) h = s' at herr he'
      cases hwrite : writeResume sha1 w h s' with
      | mk result after =>
          rw [hwrite] at herr
          cases result with
          | ok u => cases herr
          | error err' =>
              obtain rfl := Except.error.inj herr
              exact writeResume_hosted he' (by rw [hwrite])

/-- What a removal comes to. -/
inductive Removes (w : World) (unlinked : List Bytes → Except IoError Unit) (h : Bytes)
    (deleteData : Bool) (s : Fleet) :
    (Except RemoveError Unit × Option Wiped) × Fleet → Prop where
  | refused (err : RemoveError) (hnot : ∀ io, err ≠ .io io) :
      Removes w unlinked h deleteData s ((.error err, none), s)
  | failed (io : IoError) (s' : Fleet) :
      Removes w unlinked h deleteData s ((.error (.io io), none), s')
  | magnet {s' : Fleet} (hpending : s.registry.pending.has h = true)
      (hgone : s'.registry.pending.has h = false)
      (hfile : s'.registry.dir (stateFile h .magnet) = none) :
      Removes w unlinked h deleteData s ((.ok (), none), s')
  | torrent {e : Entry} {s' : Fleet} (hpending : s.registry.pending.has h = false)
      (he : s.lookup h = some e) (hgone : s'.lookup h = none)
      (htorrent : s'.registry.dir (stateFile h .torrent) = none)
      (hresume : s'.registry.dir (stateFile h .resume) = none) :
      Removes w unlinked h deleteData s
        ((.ok (), if deleteData then some (wipe unlinked e.info) else none), s')

theorem removeFileOk_cases (f : Faults) (n : FileName) (d : Dir) :
    d.removeFileOk f n = (.error .other, d) ∨ d.removeFileOk f n = (.ok (), d.drop n) := by
  unfold Dir.removeFileOk
  split
  · exact .inl rfl
  · exact .inr rfl

theorem remove_cases (w : World) (unlinked : List Bytes → Except IoError Unit) (h : Bytes)
    (deleteData : Bool) (s : Fleet) :
    Removes w unlinked h deleteData s (remove w unlinked h deleteData s) := by
  unfold remove
  split
  · rename_i hpending
    obtain heq | heq := removeFileOk_cases w.faults (stateFile h .magnet) s.registry.dir
    · rw [heq]
      exact .failed _ _
    · rw [heq]
      refine .magnet hpending ?_ ((drop_apply _ _).trans (if_pos rfl))
      rw [OrdMap.Tree.has_erase]
      simp
  · rename_i hpending
    cases hlookup : s.lookup h with
    | none => exact .refused _ fun io heq => by cases heq
    | some e =>
        simp only
        split
        · exact .refused _ fun io heq => by cases heq
        · obtain heq | heq := removeFileOk_cases w.faults (stateFile h .torrent)
            (s.stopLive w h).registry.dir
          · rw [heq]
            exact .failed _ _
          · rw [heq]
            simp only
            obtain heq | heq := removeFileOk_cases w.faults (stateFile h .resume)
              ((s.stopLive w h).registry.dir.drop (stateFile h .torrent))
            · rw [heq]
              exact .failed _ _
            · rw [heq]
              simp only
              refine .torrent (by simpa using hpending) hlookup ?_ ?_ ?_
              · have hsame := lookup_reconcile w { s.stopLive w h with
                  registry := { (s.stopLive w h).registry with
                    torrents := (s.stopLive w h).registry.torrents.erase h
                    dir := ((s.stopLive w h).registry.dir.drop (stateFile h .torrent)).drop
                      (stateFile h .resume) } } h
                have hnone : ((s.stopLive w h).registry.torrents.erase h).lookup h = none := by
                  rw [OrdMap.Tree.lookup_erase]
                  simp
                rw [Fleet.lookup, Fleet.lookup, hnone] at hsame
                exact Option.map_eq_none_iff.1 hsame
              · rw [dir_reconcile]
                simp [drop_apply]
              · rw [dir_reconcile]
                simp [drop_apply]

end Answering

end Clove.Daemon
