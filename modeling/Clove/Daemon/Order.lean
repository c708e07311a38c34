import Clove.Daemon.Hosted

/-!
# What the registry is doing

Between two operations the agenda is empty, and within one it is plain, except while the
registry is saving (it syncs the files of a running engine) or stopping an engine (it is inside
the body of `stop_live`).  `Orderly` says so, and that the stop flag of the engine agrees.

`Move` lists what a step can do to an orderly torrent.  Everything else about steps is proved
from it.
-/

namespace Clove.Daemon

open Torrent (Shared System Stop)

/-! ## Agendas -/

/-- An instruction outside the bodies of `sync_storage` and `stop_live`. -/
def Instr.isPlain : Instr → Bool
  | .unregister => false
  | .flush _ => false
  | .sync _ _ _ => false
  | .snapshot _ => false
  | .requestStop => false
  | .disconnectAll => false
  | .await => false
  | _ => true

/-- An instruction that hands a record to `write_resume_file`. -/
def Instr.isWrite : Instr → Bool
  | .write => true
  | .writeOrFail => true
  | _ => false

/-- An agenda of plain instructions. -/
def Plain (agenda : List Instr) : Prop := ∀ i ∈ agenda, i.isPlain = true

instance (agenda : List Instr) : Decidable (Plain agenda) :=
  inferInstanceAs (Decidable (∀ i ∈ agenda, i.isPlain = true))

/-- What is left of the body of `stop_live`, and how far the engine has been stopped. -/
inductive Stage : Stop → List Instr → Prop where
  | unregister (base : Nat × Nat) :
      Stage .running [.unregister, .flush base, .requestStop, .disconnectAll, .await]
  | flush (base : Nat × Nat) :
      Stage .unrouted [.flush base, .requestStop, .disconnectAll, .await]
  | sync (base : Nat × Nat) (before : Bitfield) (files : List Nat) :
      Stage .unrouted [.sync (some base) before files, .requestStop, .disconnectAll, .await]
  | snapshot (base : Nat × Nat) :
      Stage .unrouted [.snapshot base, .requestStop, .disconnectAll, .await]
  | requestStop : Stage .unrouted [.requestStop, .disconnectAll, .await]
  | disconnectAll : Stage .raised [.disconnectAll, .await]
  | await : Stage .listed [.await]

/-- What the registry is in the middle of. -/
inductive Busy (h : Host) : Prop where
  | idle : Plain h.agenda → Busy h
  | saving {before : Bitfield} {files : List Nat} {rest : List Instr} :
      h.agenda = .sync none before files :: rest → Plain rest → h.hosted.live.isSome → Busy h
  | stopping {pre rest : List Instr} {s : System} :
      h.agenda = pre ++ rest → Stage s.stop pre → Plain rest → h.hosted.live = none →
      h.current = some s → Busy h

/-- The registry's view and its engines agree. -/
structure Orderly (sh : Shared) (h : Host) : Prop where
  addressed : ∀ s ∈ h.engines, s.Addressed sh
  busy : Busy h
  live : h.hosted.live.isSome → ∃ s, h.current = some s ∧ s.stop = .running
  scanning : h.hosted.scanning = true → h.hosted.live = none ∧ Plain h.agenda
  scan : h.scan.isSome → h.hosted.scanning = true

/-! ## What a step can do -/

/-- Priorities as `set_priorities` accepts them. -/
def Ranked (sh : Shared) (priorities : Bytes) : Prop :=
  priorities.length = sh.storage.regions.length ∧ ∀ p ∈ priorities, p ≤ 2

/-- Nothing that matters later is different, but for the pieces held and verified. -/
structure Kept (sh : Shared) (h h' : Host) (have_ verified : Bitfield) : Prop where
  have_ : h'.hosted.have_ = have_
  verified : h'.hosted.verified = verified
  priorities : h'.hosted.priorities = h.hosted.priorities ∨ Ranked sh h'.hosted.priorities
  live : h'.hosted.live = h.hosted.live
  scanning : h'.hosted.scanning = h.hosted.scanning
  record : h'.record = h.record
  files : h'.files = h.files
  engines : h'.engines = h.engines
  scan : h'.scan = h.scan
  written : h'.written = h.written

/-- What a step did. -/
inductive Move (sh : Shared) (limits : Limits) (h : Host) : Action → Host → Prop where
  /-- Only what is looked up again later. -/
  | noted {a : Action} {h' : Host} : Plain h.agenda → Plain h'.agenda →
      Kept sh h h' h.hosted.have_ h.hosted.verified → Move sh limits h a h'
  /-- The pieces of the running engine are read. -/
  | refreshed {a : Action} {h' : Host} : Plain h.agenda → Plain h'.agenda →
      h.hosted.live.isSome → Kept sh h h' h.held h.hosted.verified → Move sh limits h a h'
  /-- A record is handed over, and written or not. -/
  | wrote {ok : Bool} {now : Nat} {i : Instr} {rest agenda : List Instr} : Plain h.agenda →
      Plain agenda → h.agenda = i :: rest → i.isWrite = true →
      Move sh limits h (.registry ok now) { h.writeResume sh ok with agenda := agenda }
  /-- The running engine is told something. -/
  | tuned {a : Action} {ev : Torrent.Event} {agenda : List Instr} : Plain h.agenda →
      Plain agenda → h.hosted.live.isSome → ev.isControl = true → (∀ now id c, ev ≠ .drop now id c) →
      Move sh limits h a
        { h.modifyCurrent (System.step sh (.control ev)) with agenda := agenda }
  | started {a : Action} {now : Nat} {claimed : List FileWrite} {l : List Nat}
      {agenda : List Instr} : Plain h.agenda → Plain agenda → h.hosted.live = none →
      h.hosted.scanning = false → (∀ w ∈ claimed, w.data = []) →
      Move sh limits h a { h with
        agenda := agenda
        files := h.files.write claimed
        engines := h.engines ++ [System.step sh (.control (.setPiecePriorities l))
          (System.new sh h.hosted.have_ h.hosted.mode now (h.files.disk.writes claimed))]
        hosted := { h.hosted with live := some (h.hosted.uploaded, h.hosted.downloaded) } }
  /-- `stop_live` takes the engine. -/
  | taken {a : Action} {base : Nat × Nat} {rest : List Instr} : Plain h.agenda → Plain rest →
      h.hosted.live = some base →
      Move sh limits h a { h with
        hosted := { h.hosted with live := none }
        agenda := [.unregister, .flush base, .requestStop, .disconnectAll, .await] ++ rest }
  /-- `persist_progress` begins to sync the files of the running engine. -/
  | persists {ok : Bool} {now : Nat} {rest : List Instr} :
      h.agenda = .persist :: rest → Plain rest → h.hosted.live.isSome →
      Move sh limits h (.registry ok now)
        { h with agenda := .sync none h.held (Host.fileList sh) :: rest }
  /-- A file is synced. -/
  | synced {a : Action} {closing : Option (Nat × Nat)} {before : Bitfield} {file : Nat}
      {files : List Nat} {rest : List Instr} :
      h.agenda = .sync closing before (file :: files) :: rest →
      Move sh limits h a { h with
        files := h.files.sync file
        agenda := .sync closing before files :: rest }
  /-- `persist_progress` is done syncing, or gives up. -/
  | saved {a : Action} {before : Bitfield} {files : List Nat} {rest : List Instr} {h' : Host} :
      h.agenda = .sync none before files :: rest → Plain rest →
      h'.agenda = .write :: rest →
      (Kept sh h h' h.hosted.have_ h.hosted.verified ∨
        files = [] ∧ Kept sh h h' h.hosted.have_ before) → Move sh limits h a h'
  /-- `stop_live` leaves the demux. -/
  | unrouted {a : Action} {base : Nat × Nat} {rest : List Instr} {s : System} :
      h.agenda = .unregister :: .flush base :: .requestStop :: .disconnectAll :: .await :: rest →
      Plain rest → h.hosted.live = none → h.current = some s → s.stop = .running →
      Move sh limits h a { h.modifyCurrent System.haltNext with
        agenda := .flush base :: .requestStop :: .disconnectAll :: .await :: rest }
  /-- `stop_live` begins to sync the files. -/
  | flushes {a : Action} {base : Nat × Nat} {rest : List Instr} :
      h.agenda = .flush base :: .requestStop :: .disconnectAll :: .await :: rest →
      Move sh limits h a { h with
        agenda := .sync (some base) h.held (Host.fileList sh) :: .requestStop ::
          .disconnectAll :: .await :: rest }
  /-- `stop_live` is done syncing, or gives up. -/
  | flushed {a : Action} {base : Nat × Nat} {before : Bitfield} {files : List Nat}
      {rest : List Instr} {h' : Host} :
      h.agenda = .sync (some base) before files :: .requestStop :: .disconnectAll :: .await ::
        rest →
      h'.agenda = .snapshot base :: .requestStop :: .disconnectAll :: .await :: rest →
      (Kept sh h h' h.hosted.have_ h.hosted.verified ∨
        files = [] ∧ Kept sh h h' h.hosted.have_ before) → Move sh limits h a h'
  /-- `stop_live` reads the pieces. -/
  | snapped {a : Action} {base : Nat × Nat} {rest : List Instr} {h' : Host} :
      h.agenda = .snapshot base :: .requestStop :: .disconnectAll :: .await :: rest →
      h'.agenda = .requestStop :: .disconnectAll :: .await :: rest →
      Kept sh h h' h.held h.hosted.verified → Move sh limits h a h'
  /-- `stop_live` raises the stop flag. -/
  | raised {a : Action} {rest : List Instr} {s : System} :
      h.agenda = .requestStop :: .disconnectAll :: .await :: rest → Plain rest →
      h.hosted.live = none → h.current = some s → s.stop = .unrouted →
      Move sh limits h a { h.modifyCurrent System.haltNext with
        agenda := .disconnectAll :: .await :: rest }
  /-- `stop_live` lists the peers. -/
  | listed {ok : Bool} {now : Nat} {rest : List Instr} {s : System} :
      h.agenda = .disconnectAll :: .await :: rest → Plain rest → h.hosted.live = none →
      h.current = some s → s.stop = .raised →
      Move sh limits h (.registry ok now) { h.modifyCurrent System.haltNext with
        agenda := .await :: rest }
  /-- `stop_live` has dropped the peers. -/
  | ended {a : Action} {rest : List Instr} {s : System} : h.agenda = .await :: rest →
      Plain rest → h.hosted.live = none → h.current = some s → s.Stopped →
      Move sh limits h a { h with agenda := rest }
  /-- Nothing happened. -/
  | stayed {a : Action} : Move sh limits h a h
  | began {a : Action} : h.agenda = [] → h.hosted.live = none →
      Move sh limits h a { h with
        hosted := { h.hosted with scanning := true }
        scan := some .opening }
  /-- A scan ends without a result. -/
  | failed {e : IoError} : h.agenda = [] → h.hosted.scanning = true →
      h.scan = some (.done (.error e)) →
      Move sh limits h (.command .finishScan) { h with
        hosted := { h.hosted with scanning := false }
        scan := none }
  /-- A scan is published. -/
  | published {found : Bitfield} : h.agenda = [] →
      h.scan = some (.done (.ok found)) →
      Move sh limits h (.command .finishScan) { h with
        hosted := { h.hosted with scanning := false, have_ := found, verified := found }
        scan := none
        agenda := [.writeOrFail, .reconcile] }
  /-- A scan gets on with the files as they are. -/
  | scanned {ok : Bool} {fault : Nat → Bool} :
      Move sh limits h (.scan ok fault) (h.stepScan sh limits ok fault)
  /-- An engine takes a step. -/
  | stepped {act : Action} {k : Nat} {a : Torrent.Action} {s : System} : a.isHalt = false →
      h.engines[k]? = some s →
      Move sh limits h act { h with
        engines := h.engines.set k (System.step sh a (Host.onDisk h.files.disk s))
        files := h.files.write
          (Host.wrote s (System.step sh a (Host.onDisk h.files.disk s))) }
  | crashed {keep : Nat → Bool} : Move sh limits h (.crash keep) (h.restart sh keep)

variable {sh : Shared} {limits : Limits} {h h' : Host}

theorem Plain.cons {i : Instr} {rest : List Instr} (hi : i.isPlain = true) (h : Plain rest) :
    Plain (i :: rest) := by
  intro j hj
  rcases List.mem_cons.1 hj with rfl | hj
  · exact hi
  · exact h j hj

theorem Plain.tail {i : Instr} {rest : List Instr} (h : Plain (i :: rest)) : Plain rest :=
  fun j hj => h j (List.mem_cons_of_mem i hj)

theorem plain_nil : Plain [] := by
  intro i hi
  cases hi

theorem Kept.of_eq {x : Hosted} {network : Bool} {agenda : List Instr}
    (hpriorities : x.priorities = h.hosted.priorities ∨ Ranked sh x.priorities)
    (hlive : x.live = h.hosted.live) (hscanning : x.scanning = h.hosted.scanning) :
    Kept sh h { h with hosted := x, network := network, agenda := agenda } x.have_ x.verified :=
  ⟨rfl, rfl, hpriorities, hlive, hscanning, rfl, rfl, rfl, rfl, rfl⟩

/-- Calling an operation. -/
theorem move_call (c : Command) (hidle : h.agenda = []) (ho : Orderly sh h) :
    Move sh limits h (.command c) (h.call sh limits c) := by
  have hplain : Plain h.agenda := hidle ▸ plain_nil
  have hnoted : ∀ (x : Hosted) (network : Bool) (agenda : List Instr), Plain agenda →
      x.have_ = h.hosted.have_ → x.verified = h.hosted.verified →
      (x.priorities = h.hosted.priorities ∨ Ranked sh x.priorities) →
      x.live = h.hosted.live → x.scanning = h.hosted.scanning →
      Move sh limits h (.command c)
        { h with hosted := x, network := network, agenda := agenda } := by
    intro x network agenda hagenda hhave hverified hpriorities hlive hscanning
    refine .noted hplain hagenda ?_
    rw [← hhave, ← hverified]
    exact Kept.of_eq hpriorities hlive hscanning
  cases c with
  | refresh => exact hnoted h.hosted h.network _ (by decide) rfl rfl (.inl rfl) rfl rfl
  | persistProgress => exact hnoted h.hosted h.network _ (by decide) rfl rfl (.inl rfl) rfl rfl
  | setPaused paused =>
      unfold Host.call
      simp only
      split
      · exact .stayed
      · exact hnoted _ h.network _ (by decide) rfl rfl (.inl rfl) rfl rfl
  | setPriorities priorities =>
      unfold Host.call
      simp only
      split
      · exact .stayed
      · rename_i hok
        simp only [Bool.or_eq_true, not_or, decide_eq_true_eq, not_not, List.any_eq_true,
          not_exists, not_and, UInt8.not_lt] at hok
        exact hnoted _ h.network _ (by decide) rfl rfl (.inr hok) rfl rfl
  | setSequential sequential =>
      exact hnoted _ h.network _ (by decide) rfl rfl (.inl rfl) rfl rfl
  | setSeedRatio milli =>
      unfold Host.call
      simp only
      split <;> exact hnoted _ h.network _ (by decide) rfl rfl (.inl rfl) rfl rfl
  | beginVerify =>
      unfold Host.call
      simp only
      split
      · exact .stayed
      · rename_i hok
        simp only [Bool.or_eq_true, not_or, Bool.not_eq_true, Option.isSome_eq_false_iff,
          Option.isNone_iff_eq_none] at hok
        exact .began hidle hok.1
  | finishScan =>
      unfold Host.call
      simp only
      split
      · rename_i result hscan
        cases result with
        | error e => exact .failed hidle (ho.scan (by rw [hscan]; rfl)) hscan
        | ok found => exact .published hidle hscan
      · exact .stayed
  | attachNetwork => exact hnoted h.hosted true _ (by decide) rfl rfl (.inl rfl) rfl rfl
  | detachNetwork => exact hnoted h.hosted h.network _ (by decide) rfl rfl (.inl rfl) rfl rfl

/-- What `counts` leaves alone. -/
theorem counts_eq (h : Host) (base : Nat × Nat) (x : Hosted) : ∃ up down,
    h.counts base x = { x with uploaded := up, downloaded := down } := by
  unfold Host.counts
  split
  · exact ⟨_, _, rfl⟩
  · exact ⟨x.uploaded, x.downloaded, rfl⟩

/-- The result of reading what the engine has counted. -/
theorem Kept.counts (base : Nat × Nat) (agenda : List Instr) {h₀ : Host}
    (x : Hosted) (hpriorities : x.priorities = h.hosted.priorities)
    (hlive : x.live = h.hosted.live) (hscanning : x.scanning = h.hosted.scanning) :
    Kept sh h { h with hosted := h₀.counts base x, agenda := agenda } x.have_ x.verified := by
  obtain ⟨up, down, hcounts⟩ := counts_eq h₀ base x
  rw [hcounts]
  exact ⟨rfl, rfl, .inl hpriorities, hlive, hscanning, rfl, rfl, rfl, rfl, rfl⟩

/-- Carrying out a plain instruction. -/
theorem move_plain {i : Instr} {rest : List Instr} (ok : Bool) (now : Nat)
    (hagenda : h.agenda = i :: rest) (hplain : Plain (i :: rest)) :
    Move sh limits h (.registry ok now)
      (Host.exec sh limits ok now { h with agenda := rest } i) := by
  have hall : Plain h.agenda := hagenda ▸ hplain
  have hrest : Plain rest := hplain.tail
  have hnoted : ∀ (x : Hosted) (network : Bool) (agenda : List Instr), Plain agenda →
      x.have_ = h.hosted.have_ → x.verified = h.hosted.verified →
      x.priorities = h.hosted.priorities →
      x.live = h.hosted.live → x.scanning = h.hosted.scanning →
      Move sh limits h (.registry ok now)
        { h with hosted := x, network := network, agenda := agenda } := by
    intro x network agenda hagenda hhave hverified hpriorities hlive hscanning
    refine .noted hall hagenda ?_
    rw [← hhave, ← hverified]
    exact Kept.of_eq (.inl hpriorities) hlive hscanning
  have hpopped : Move sh limits h (.registry ok now) { h with agenda := rest } :=
    hnoted h.hosted h.network rest hrest rfl rfl rfl rfl rfl
  cases i with
  | refresh =>
      unfold Host.exec
      simp only
      split
      · rename_i base hlive
        refine .refreshed hall hrest (by rw [show h.hosted.live = some base from hlive]; rfl) ?_
        exact Kept.counts base rest
          { h.hosted with
            have_ := h.held
            peers := (h.current.map fun s => s.engine.st.peers.length).getD 0 } rfl rfl rfl
      · exact hnoted _ h.network rest hrest rfl rfl rfl rfl rfl
  | enforceSeedLimits =>
      unfold Host.exec
      simp only
      split
      · exact hnoted _ h.network _ (.cons rfl (.cons rfl hrest)) rfl rfl rfl rfl rfl
      · exact hnoted _ h.network _ hrest rfl rfl rfl rfl rfl
  | reconcile =>
      unfold Host.exec
      simp only
      split
      · exact hpopped
      · split
        · exact hnoted h.hosted h.network _ (.cons rfl hrest) rfl rfl rfl rfl rfl
        · exact hnoted h.hosted h.network _ (.cons rfl hrest) rfl rfl rfl rfl rfl
  | startLive =>
      unfold Host.exec Host.startLive
      simp only
      split
      · exact hpopped
      · rename_i hok
        simp only [Bool.or_eq_true, not_or, Bool.not_eq_true, Option.isSome_eq_false_iff,
          Option.isNone_iff_eq_none] at hok
        obtain ⟨⟨⟨-, hlive⟩, hscanning⟩, -⟩ := hok
        refine .started hall hrest hlive hscanning fun w hw => ?_
        split at hw
        · obtain ⟨r, -, rfl⟩ := List.mem_map.1 hw
          rfl
        · cases hw
  | stopLive =>
      unfold Host.exec
      simp only
      split
      · exact hpopped
      · rename_i base hlive
        exact .taken hall hrest hlive
  | persist =>
      unfold Host.exec
      simp only
      split
      · exact hpopped
      · rename_i base hlive
        exact .persists hagenda hrest (by rw [show h.hosted.live = some base from hlive]; rfl)
  | write => exact .wrote hall hrest hagenda rfl
  | writeOrFail =>
      unfold Host.exec
      simp only
      split
      · exact .wrote hall hrest hagenda rfl
      · exact .wrote hall plain_nil hagenda rfl
  | setPriorities =>
      unfold Host.exec
      simp only
      split
      · exact hpopped
      · rename_i base hlive
        exact .tuned hall hrest (by rw [show h.hosted.live = some base from hlive]; rfl) rfl (by simp)
  | setMode =>
      unfold Host.exec
      simp only
      split
      · exact hpopped
      · rename_i base hlive
        exact .tuned hall hrest (by rw [show h.hosted.live = some base from hlive]; rfl) rfl (by simp)
  | dropNetwork => exact hnoted h.hosted false rest hrest rfl rfl rfl rfl rfl
  | unregister => cases hplain _ List.mem_cons_self
  | flush _ => cases hplain _ List.mem_cons_self
  | sync _ _ _ => cases hplain _ List.mem_cons_self
  | snapshot _ => cases hplain _ List.mem_cons_self
  | requestStop => cases hplain _ List.mem_cons_self
  | disconnectAll => cases hplain _ List.mem_cons_self
  | await => cases hplain _ List.mem_cons_self

/-- The loop over the files while saving. -/
theorem move_saving {before : Bitfield} {files : List Nat} {rest : List Instr} (ok : Bool)
    (now : Nat) (hagenda : h.agenda = .sync none before files :: rest) (hrest : Plain rest) :
    Move sh limits h (.registry ok now)
      (Host.exec sh limits ok now { h with agenda := rest } (.sync none before files)) := by
  cases files with
  | nil =>
      exact .saved hagenda hrest rfl
        (.inr ⟨rfl, rfl, rfl, .inl rfl, rfl, rfl, rfl, rfl, rfl, rfl, rfl⟩)
  | cons file files =>
      unfold Host.exec
      simp only
      split
      · exact .synced hagenda
      · exact .saved hagenda hrest rfl
          (.inl ⟨rfl, rfl, .inl rfl, rfl, rfl, rfl, rfl, rfl, rfl, rfl⟩)

/-- The body of `stop_live`. -/
theorem move_stopping {pre rest : List Instr} {s : System} (ok : Bool) (now : Nat)
    (hagenda : h.agenda = pre ++ rest) (hstage : Stage s.stop pre) (hrest : Plain rest)
    (hlive : h.hosted.live = none) (hcurrent : h.current = some s) :
    Move sh limits h (.registry ok now) (Host.step sh limits (.registry ok now) h) := by
  unfold Host.step
  simp only
  generalize hstop : s.stop = stop at hstage
  cases hstage with
  | unregister base =>
      rw [hagenda]
      exact .unrouted hagenda hrest hlive hcurrent hstop
  | flush base =>
      rw [hagenda]
      exact .flushes hagenda
  | sync base before files =>
      rw [hagenda]
      cases files with
      | nil =>
          exact .flushed hagenda rfl
            (.inr ⟨rfl, rfl, rfl, .inl rfl, rfl, rfl, rfl, rfl, rfl, rfl, rfl⟩)
      | cons file files =>
          simp only [List.cons_append, Host.exec]
          split
          · exact .synced hagenda
          · exact .flushed hagenda rfl
              (.inl ⟨rfl, rfl, .inl rfl, rfl, rfl, rfl, rfl, rfl, rfl, rfl⟩)
  | snapshot base =>
      rw [hagenda]
      exact .snapped hagenda rfl
        (Kept.counts base _ { h.hosted with have_ := h.held } rfl rfl rfl)
  | requestStop =>
      rw [hagenda]
      exact .raised hagenda hrest hlive hcurrent hstop
  | disconnectAll =>
      rw [hagenda]
      exact .listed hagenda hrest hlive hcurrent hstop
  | await =>
      rw [hagenda]
      simp only [List.cons_append, List.nil_append, Host.exec]
      split
      · rename_i hgone
        rw [show Host.current { h with agenda := rest } = some s from hcurrent] at hgone
        simp only [Option.all_some, List.all_eq_true, Bool.or_eq_true, decide_eq_true_eq,
          List.isEmpty_iff] at hgone
        exact .ended hagenda hrest hlive hcurrent
          ⟨hstop, fun t ht hcontrol => (hgone t ht).resolve_left fun hne => hne hcontrol⟩
      · rw [show ({ h with agenda := .await :: rest } : Host) = h by rw [← List.singleton_append, ← hagenda]]
        exact .stayed

/-- Every step of an orderly torrent is one of the moves. -/
theorem step_move (limits : Limits) (ho : Orderly sh h) (a : Action) :
    Move sh limits h a (Host.step sh limits a h) := by
  cases a with
  | crash keep =>
      unfold Host.step
      simp only
      split
      · exact .crashed
      · exact .stayed
  | engine k a =>
      unfold Host.step Host.stepEngine
      simp only
      split
      · exact .stayed
      · rename_i hhalt
        split
        · exact .stayed
        · rename_i s hs
          exact .stepped (by simpa using hhalt) hs
  | command c =>
      unfold Host.step
      simp only
      split
      · rename_i hok
        exact move_call c (List.isEmpty_iff.1 hok.2) ho
      · exact .stayed
  | registry ok now =>
      cases ho.busy with
      | idle hplain =>
          unfold Host.step
          simp only
          split
          · exact .stayed
          · rename_i i rest hagenda
            exact move_plain ok now hagenda (hagenda ▸ hplain)
      | saving hagenda hrest _ =>
          unfold Host.step
          simp only
          rw [hagenda]
          exact move_saving ok now hagenda hrest
      | stopping hagenda hstage hrest hlive hcurrent =>
          exact move_stopping ok now hagenda hstage hrest hlive hcurrent
  | scan ok fault => exact .scanned

/-! ## Every step keeps order -/

theorem current_eq_some {s : System} : h.current = some s ↔ ∃ old, h.engines = old ++ [s] :=
  List.getLast?_eq_some_iff

theorem engines_modifyCurrent {old : List System} {s : System} (f : System → System)
    (hengines : h.engines = old ++ [s]) : (h.modifyCurrent f).engines = old ++ [f s] := by
  have hmodify : ∀ l : List System, (l ++ [s]).modify l.length f = l ++ [f s] := by
    intro l
    induction l with
    | nil => rfl
    | cons a l ih => rw [List.cons_append, List.length_cons, List.modify_succ_cons, ih]; rfl
  unfold Host.modifyCurrent
  simp only [hengines, List.length_append, List.length_singleton, Nat.add_sub_cancel, hmodify]

theorem current_modifyCurrent {s : System} (f : System → System) (hcurrent : h.current = some s) :
    (h.modifyCurrent f).current = some (f s) := by
  obtain ⟨old, hengines⟩ := current_eq_some.1 hcurrent
  exact current_eq_some.2 ⟨old, engines_modifyCurrent f hengines⟩

theorem mem_modifyCurrent {f : System → System} {t : System}
    (ht : t ∈ (h.modifyCurrent f).engines) : t ∈ h.engines ∨ ∃ s ∈ h.engines, t = f s := by
  rcases Lists.mem_modify ht with ht | ⟨s, hs, rfl⟩
  · exact .inl ht
  · exact .inr ⟨s, List.mem_of_getElem? hs, rfl⟩

theorem addressed_onDisk {s : System} (hs : s.Addressed sh) (d : Disk) :
    (Host.onDisk d s).Addressed sh :=
  ⟨⟨⟨hs.seated.fits.layout, hs.seated.fits.len⟩, hs.seated.nodup, hs.seated.fresh⟩, hs.sends⟩

/-- The engines after one of them took a step, which none of them noticed in its stop flag. -/
theorem stepped_current {k : Nat} {s s₀ s' : System} (hs : h.engines[k]? = some s)
    (hstop : s'.stop = s.stop) (hcurrent : h.current = some s₀) :
    ∃ s₁, (h.engines.set k s').getLast? = some s₁ ∧ s₁.stop = s₀.stop := by
  obtain ⟨old, hengines⟩ := current_eq_some.1 hcurrent
  rw [hengines] at hs ⊢
  by_cases hk : k < old.length
  · refine ⟨s₀, ?_, rfl⟩
    rw [List.set_append_left k s' hk, List.getLast?_concat]
  · rw [List.getElem?_append_right (Nat.le_of_not_lt hk)] at hs
    rw [List.set_append_right k s' (Nat.le_of_not_lt hk)]
    cases hpos : k - old.length with
    | zero =>
        rw [hpos] at hs
        obtain rfl : s₀ = s := by simpa using hs
        exact ⟨s', by simp, hstop⟩
    | succ n =>
        rw [hpos] at hs
        cases hs

theorem Kept.current {have_ verified : Bitfield} (hkept : Kept sh h h' have_ verified) :
    h'.current = h.current := by
  rw [Host.current, Host.current, hkept.engines]

/-- Bookkeeping between operations keeps order. -/
theorem Orderly.kept {have_ verified : Bitfield} (ho : Orderly sh h) (hplain : Plain h'.agenda)
    (hkept : Kept sh h h' have_ verified) : Orderly sh h' where
  addressed := hkept.engines ▸ ho.addressed
  busy := .idle hplain
  live := by
    rw [hkept.live, hkept.current]
    exact ho.live
  scanning := by
    rw [hkept.scanning, hkept.live]
    exact fun hscanning => ⟨(ho.scanning hscanning).1, hplain⟩
  scan := by
    rw [hkept.scan, hkept.scanning]
    exact ho.scan

/-- An agenda that begins inside a body is not plain. -/
theorem not_plain_cons {i : Instr} {rest : List Instr} (hi : i.isPlain = false) :
    ¬ Plain (i :: rest) := by
  intro hplain
  have := hplain i List.mem_cons_self
  rw [hi] at this
  cases this

theorem not_plain {i : Instr} {rest : List Instr} (hi : i.isPlain = false)
    (hagenda : h.agenda = i :: rest) : ¬ Plain h.agenda := hagenda ▸ not_plain_cons hi

theorem Orderly.not_scanning (ho : Orderly sh h) (hbusy : ¬ Plain h.agenda) :
    h.hosted.scanning = false := by
  by_contra hscanning
  exact hbusy (ho.scanning (by simpa using hscanning)).2

/-- While saving, the engine runs. -/
theorem Orderly.saving {before : Bitfield} {files : List Nat} {rest : List Instr}
    (ho : Orderly sh h) (hagenda : h.agenda = .sync none before files :: rest) :
    h.hosted.live.isSome := by
  cases ho.busy with
  | idle hplain => exact absurd hplain (not_plain rfl hagenda)
  | saving _ _ hlive => exact hlive
  | @stopping _ _ s hstopping hstage _ _ _ =>
      generalize s.stop = stop at hstage
      cases hstage <;> cases (List.cons.inj (hagenda.symm.trans hstopping)).1

/-- What is left of the body of `stop_live`, from its first instruction. -/
theorem Orderly.stage {i : Instr} {rest : List Instr} (ho : Orderly sh h)
    (hi : i.isPlain = false) (hagenda : h.agenda = i :: rest)
    (hsync : ∀ before files, i ≠ .sync none before files) :
    ∃ s pre tail, h.current = some s ∧ Stage s.stop (i :: pre) ∧ rest = pre ++ tail ∧
      Plain tail ∧ h.hosted.live = none := by
  cases ho.busy with
  | idle hplain => exact absurd hplain (not_plain hi hagenda)
  | @saving before files _ hsaving _ _ =>
      rw [hagenda] at hsaving
      exact absurd (List.cons.inj hsaving).1 (hsync before files)
  | @stopping pre tail s hstop hstage htail hlive hcurrent =>
      cases pre with
      | nil =>
          generalize s.stop = stop at hstage
          cases hstage
      | cons j pre =>
          rw [hagenda] at hstop
          obtain ⟨rfl, rfl⟩ := List.cons.inj hstop
          exact ⟨s, pre, tail, hcurrent, hstage, rfl, htail, hlive⟩

theorem addressed_modifyCurrent {f : System → System} (ho : Orderly sh h)
    (hf : ∀ s, s.Addressed sh → (f s).Addressed sh) :
    ∀ t ∈ (h.modifyCurrent f).engines, t.Addressed sh := by
  intro t ht
  rcases mem_modifyCurrent ht with ht | ⟨s, hs, rfl⟩
  · exact ho.addressed t ht
  · exact hf s (ho.addressed s hs)

theorem addressed_haltNext {s : System} (hs : s.Addressed sh) : s.haltNext.Addressed sh :=
  hs.step .halt

/-- A stage of `stop_live`. -/
theorem Orderly.within (ho : Orderly sh h) (hwithin : ¬ Plain h.agenda)
    (haddressed : ∀ s ∈ h'.engines, s.Addressed sh) (hbusy : Busy h')
    (hlive : h'.hosted.live = none) (hscanning : h'.hosted.scanning = h.hosted.scanning)
    (hscan : h'.scan = h.scan) : Orderly sh h' := by
  refine ⟨haddressed, hbusy, ?_, ?_, ?_⟩
  · intro hsome
    rw [hlive] at hsome
    cases hsome
  · intro htrue
    rw [hscanning, ho.not_scanning hwithin] at htrue
    cases htrue
  · rw [hscan, hscanning]
    exact ho.scan

/-- The next stage of `stop_live`, with the engine halted one step further. -/
theorem Orderly.halted {i : Instr} {rest : List Instr} {s : System} (ho : Orderly sh h)
    (pre : List Instr) (hagenda : h.agenda = i :: (pre ++ rest)) (hi : i.isPlain = false)
    (hrest : Plain rest) (hlive : h.hosted.live = none) (hcurrent : h.current = some s)
    (hstage : Stage s.haltNext.stop pre) :
    Orderly sh { h.modifyCurrent System.haltNext with agenda := pre ++ rest } :=
  ho.within (not_plain hi hagenda) (addressed_modifyCurrent ho fun _ => addressed_haltNext)
    (.stopping rfl hstage hrest hlive (current_modifyCurrent _ hcurrent)) hlive rfl rfl

/-- The engines after a thread of one of them took a step. -/
theorem Orderly.stepped {k : Nat} {a : Torrent.Action} {s : System} {files : Files}
    (ho : Orderly sh h) (hhalt : a.isHalt = false) (hs : h.engines[k]? = some s) :
    Orderly sh { h with
      engines := h.engines.set k (System.step sh a (Host.onDisk h.files.disk s))
      files := files } := by
  have hstop : (System.step sh a (Host.onDisk h.files.disk s)).stop = s.stop :=
    (Torrent.gate_step sh _ a hhalt).1
  refine ⟨fun t ht => ?_, ?_, fun hlive => ?_, ho.scanning, ho.scan⟩
  · rcases List.mem_or_eq_of_mem_set ht with ht | rfl
    · exact ho.addressed t ht
    · exact (addressed_onDisk (ho.addressed s (List.mem_of_getElem? hs)) _).step a
  · cases ho.busy with
    | idle hplain => exact .idle hplain
    | saving hagenda hrest hlive => exact .saving hagenda hrest hlive
    | stopping hagenda hstage hrest hlive hcurrent =>
        obtain ⟨s₁, hcurrent', hsame⟩ := stepped_current hs hstop hcurrent
        exact .stopping hagenda (hsame ▸ hstage) hrest hlive hcurrent'
  · obtain ⟨s₀, hcurrent, hrunning⟩ := ho.live hlive
    obtain ⟨s₁, hcurrent', hsame⟩ := stepped_current hs hstop hcurrent
    exact ⟨s₁, hcurrent', hsame.trans hrunning⟩

/-- What a scan leaves alone. -/
theorem stepScan_eq (sh : Shared) (limits : Limits) (h : Host) (ok : Bool) (fault : Nat → Bool) : ∃ files scan,
    h.stepScan sh limits ok fault = { h with files := files, scan := scan } ∧
      (scan.isSome → h.scan.isSome) := by
  unfold Host.stepScan
  split
  · rename_i hscan
    split
    · exact ⟨_, _, rfl, fun _ => by rw [hscan]; rfl⟩
    · exact ⟨_, _, rfl, fun _ => by rw [hscan]; rfl⟩
  · rename_i hscan
    split
    · split <;> exact ⟨_, _, rfl, fun _ => by rw [hscan]; rfl⟩
    · exact ⟨_, _, rfl, fun _ => by rw [hscan]; rfl⟩
  · exact ⟨_, _, rfl, id⟩

theorem Orderly.scanned {ok : Bool} {fault : Nat → Bool} (ho : Orderly sh h) :
    Orderly sh (h.stepScan sh limits ok fault) := by
  obtain ⟨files, scan, heq, hscan⟩ := stepScan_eq sh limits h ok fault
  rw [heq]
  refine ⟨ho.addressed, ?_, ho.live, ho.scanning, fun hsome => ho.scan (hscan hsome)⟩
  cases ho.busy with
  | idle hplain => exact .idle hplain
  | saving hagenda hrest hlive => exact .saving hagenda hrest hlive
  | stopping hagenda hstage hrest hlive hcurrent =>
      exact .stopping hagenda hstage hrest hlive hcurrent

/-- A synced file brings the loop over the files on. -/
theorem Orderly.synced {closing : Option (Nat × Nat)} {before : Bitfield} {file : Nat}
    {files : List Nat} {rest : List Instr} (ho : Orderly sh h)
    (hagenda : h.agenda = .sync closing before (file :: files) :: rest) :
    Orderly sh { h with
      files := h.files.sync file
      agenda := .sync closing before files :: rest } := by
  have hwithin := not_plain rfl hagenda
  cases ho.busy with
  | idle hplain => exact absurd hplain hwithin
  | saving hsaving hrest hlive =>
      obtain ⟨hhead, rfl⟩ := List.cons.inj (hagenda.symm.trans hsaving)
      cases hhead
      refine ⟨ho.addressed, .saving rfl hrest hlive, ho.live, fun hscanning => ?_, ho.scan⟩
      exact absurd (ho.scanning hscanning).2 hwithin
  | @stopping pre rest' s hstopping hstage hrest hlive hcurrent =>
      generalize hstop : s.stop = stop at hstage
      cases hstage with
      | sync base before' files' =>
          obtain ⟨hhead, rfl⟩ := List.cons.inj (hagenda.symm.trans hstopping)
          cases hhead
          refine ho.within hwithin ho.addressed ?_ hlive rfl rfl
          have hnext := Stage.sync base before files
          rw [← hstop] at hnext
          exact .stopping rfl hnext hrest hlive hcurrent
      | _ => cases (List.cons.inj (hagenda.symm.trans hstopping)).1

/-- An instruction of `stop_live` between leaving the demux and raising the flag. -/
def Instr.isFlushing : Instr → Bool
  | .flush _ => true
  | .sync closing _ _ => closing.isSome
  | .snapshot _ => true
  | _ => false

/-- While `stop_live` flushes. -/
theorem Orderly.flushing {i : Instr} {rest : List Instr} (ho : Orderly sh h)
    (hi : i.isFlushing = true)
    (hagenda : h.agenda = i :: .requestStop :: .disconnectAll :: .await :: rest) :
    ∃ s, h.current = some s ∧ s.stop = .unrouted ∧ Plain rest ∧ h.hosted.live = none := by
  have hnot : i.isPlain = false := by
    cases i <;> first | rfl | cases hi
  have hsync : ∀ before files, i ≠ .sync none before files := by
    rintro before files rfl
    cases hi
  obtain ⟨s, pre, tail, hcurrent, hstage, hrest, htail, hlive⟩ := ho.stage hnot hagenda hsync
  generalize hstop : s.stop = stop at hstage
  cases hstage with
  | flush base =>
      cases hrest
      exact ⟨s, hcurrent, hstop, htail, hlive⟩
  | sync base before files =>
      cases hrest
      exact ⟨s, hcurrent, hstop, htail, hlive⟩
  | snapshot base =>
      cases hrest
      exact ⟨s, hcurrent, hstop, htail, hlive⟩
  | _ => cases hi

/-- The next stage of `stop_live` while it flushes. -/
theorem Orderly.flushed {i : Instr} {rest : List Instr} (ho : Orderly sh h)
    (pre : List Instr) (hi : i.isFlushing = true)
    (hagenda : h.agenda = i :: .requestStop :: .disconnectAll :: .await :: rest)
    (hagenda' : h'.agenda = pre ++ rest) (hstage : Stage .unrouted pre)
    (hlive : h'.hosted.live = h.hosted.live)
    (hscanning : h'.hosted.scanning = h.hosted.scanning) (hengines : h'.engines = h.engines)
    (hscan : h'.scan = h.scan) : Orderly sh h' := by
  obtain ⟨s, hcurrent, hstop, hrest, hnone⟩ := ho.flushing hi hagenda
  have hnot : i.isPlain = false := by
    cases i <;> first | rfl | cases hi
  refine ho.within (not_plain hnot hagenda) (hengines ▸ ho.addressed) ?_ (hlive.trans hnone)
    hscanning hscan
  refine .stopping hagenda' (hstop ▸ hstage) hrest (hlive.trans hnone) ?_
  rw [Host.current, hengines]
  exact hcurrent

theorem Kept.flushed {i : Instr} {pre rest : List Instr} {have_ verified : Bitfield}
    (hkept : Kept sh h h' have_ verified) (ho : Orderly sh h) (hi : i.isFlushing = true)
    (hagenda : h.agenda = i :: .requestStop :: .disconnectAll :: .await :: rest)
    (hagenda' : h'.agenda = pre ++ rest) (hstage : Stage .unrouted pre) : Orderly sh h' :=
  ho.flushed pre hi hagenda hagenda' hstage hkept.live hkept.scanning hkept.engines hkept.scan

/-- A torrent that no engine runs, and that has nothing on its agenda but plain work. -/
theorem Orderly.quiet (haddressed : ∀ s ∈ h.engines, s.Addressed sh) (hplain : Plain h.agenda)
    (hlive : h.hosted.live = none) (hscan : h.scan.isSome → h.hosted.scanning = true) :
    Orderly sh h := by
  refine ⟨haddressed, .idle hplain, fun hsome => ?_, fun _ => ⟨hlive, hplain⟩, hscan⟩
  rw [hlive] at hsome
  cases hsome

theorem loadOne_quiet {record : Bytes} {x : Hosted} (hload : loadOne sh record = .ok x) :
    x.live = none := by
  obtain ⟨_, _, _, _, _, _, _, _, _, rfl⟩ := loadOne_ok hload
  rfl

theorem engines_restart (keep : Nat → Bool) : (h.restart sh keep).engines = [] := by
  unfold Host.restart
  simp only
  split <;> rfl

/-- What a start makes of a record that loads. -/
structure Loaded (sh : Shared) (h : Host) : Prop where
  record : loadOne sh h.record = .ok h.hosted
  engines : h.engines = []
  agenda : h.agenda = []
  scan : h.scan = if h.hosted.scanning then some .opening else none

theorem Loaded.orderly (hl : Loaded sh h) : Orderly sh h := by
  refine .quiet (fun s hs => ?_) (hl.agenda ▸ plain_nil) (loadOne_quiet hl.record) fun hscan => ?_
  · rw [hl.engines] at hs
    cases hs
  · rw [hl.scan] at hscan
    by_contra hscanning
    simp [hscanning] at hscan

theorem loaded_restart {x : Hosted} (hload : loadOne sh h.record = .ok x) (keep : Nat → Bool) :
    Loaded sh (h.restart sh keep) := by
  unfold Host.restart
  simp only [hload]
  exact ⟨hload, rfl, rfl, rfl⟩

/-- Starting again. -/
theorem orderly_restart (keep : Nat → Bool) : Orderly sh (h.restart sh keep) := by
  cases hload : loadOne sh h.record with
  | ok x => exact (loaded_restart hload keep).orderly
  | error e =>
      unfold Host.restart
      simp only [hload]
      refine .quiet (fun s hs => ?_) plain_nil rfl fun hscan => ?_
      · cases hs
      · cases hscan

/-- Every step keeps order. -/
theorem Orderly.step (ho : Orderly sh h) (a : Action) : Orderly sh (Host.step sh limits a h) := by
  have hmove := step_move limits ho a
  generalize Host.step sh limits a h = h' at hmove
  cases hmove with
  | noted _ hplain hkept => exact ho.kept hplain hkept
  | refreshed _ hplain _ hkept => exact ho.kept hplain hkept
  | wrote _ hplain _ _ =>
      exact ⟨ho.addressed, .idle hplain, ho.live,
        fun hscanning => ⟨(ho.scanning hscanning).1, hplain⟩, ho.scan⟩
  | @tuned _ ev _ _ hplain hlive hcontrol _ =>
      obtain ⟨s, hcurrent, hrunning⟩ := ho.live hlive
      have hstop : (System.step sh (.control ev) s).stop = .running :=
        (Torrent.gate_step sh _ _ rfl).1.trans hrunning
      exact ⟨addressed_modifyCurrent ho fun _ hs => hs.step _, .idle hplain,
        fun _ => ⟨_, current_modifyCurrent _ hcurrent, hstop⟩,
        fun hscanning => ⟨(ho.scanning hscanning).1, hplain⟩, ho.scan⟩
  | @started _ now claimed l _ _ hplain hlive hscanning _ =>
      refine ⟨fun s hs => ?_, .idle hplain, fun _ => ⟨_, List.getLast?_concat, ?_⟩, fun htrue => ?_,
        ho.scan⟩
      · rcases List.mem_append.1 hs with hs | hs
        · exact ho.addressed s hs
        · rw [List.mem_singleton.1 hs]
          exact (Torrent.addressed_new _ _ _ _ _).step _
      · exact (Torrent.gate_step sh _ _ rfl).1
      · rw [show h.hosted.scanning = true from htrue] at hscanning
        cases hscanning
  | @taken _ base rest _ hrest hlive =>
      have hsome : h.hosted.live.isSome := by rw [hlive]; rfl
      obtain ⟨s, hcurrent, hrunning⟩ := ho.live hsome
      refine ⟨ho.addressed, ?_, fun hnone => ?_, fun hscanning => ?_, ho.scan⟩
      · exact .stopping rfl (hrunning ▸ .unregister base) hrest rfl hcurrent
      · cases hnone
      · rw [(ho.scanning hscanning).1] at hlive
        cases hlive
  | persists hagenda hrest hlive =>
      refine ⟨ho.addressed, .saving rfl hrest hlive, ho.live, fun hscanning => ?_, ho.scan⟩
      rw [(ho.scanning hscanning).1] at hlive
      cases hlive
  | @synced _ closing before file files rest hagenda => exact ho.synced hagenda
  | @saved _ before files rest _ hagenda hrest hagenda' hkept =>
      have hplain : Plain h'.agenda := hagenda' ▸ .cons rfl hrest
      rcases hkept with hkept | ⟨-, hkept⟩
      · exact ho.kept hplain hkept
      · exact ho.kept hplain hkept
  | @unrouted _ base rest s hagenda hrest hlive hcurrent hstop =>
      refine ho.halted [.flush base, .requestStop, .disconnectAll, .await] hagenda rfl
        hrest hlive hcurrent ?_
      rw [show s.haltNext.stop = .unrouted by simp [System.haltNext, hstop]]
      exact .flush base
  | @flushes _ base rest hagenda =>
      exact ho.flushed [_, .requestStop, .disconnectAll, .await] rfl hagenda rfl
        (.sync base _ _) rfl rfl rfl rfl
  | @flushed _ base _ _ rest _ hagenda hagenda' hkept =>
      rcases hkept with hkept | ⟨-, hkept⟩
      · exact hkept.flushed ho rfl hagenda hagenda' (.snapshot base)
      · exact hkept.flushed ho rfl hagenda hagenda' (.snapshot base)
  | snapped hagenda hagenda' hkept => exact hkept.flushed ho rfl hagenda hagenda' .requestStop
  | @raised _ rest s hagenda hrest hlive hcurrent hstop =>
      refine ho.halted [.disconnectAll, .await] hagenda rfl hrest hlive hcurrent ?_
      rw [show s.haltNext.stop = .raised by simp [System.haltNext, hstop]]
      exact .disconnectAll
  | @listed _ _ rest s hagenda hrest hlive hcurrent hstop =>
      refine ho.halted [.await] hagenda rfl hrest hlive hcurrent ?_
      rw [show s.haltNext.stop = .listed by simp [System.haltNext, hstop]]
      exact .await
  | ended _ hrest hlive _ _ => exact .quiet ho.addressed hrest hlive ho.scan
  | stayed => exact ho
  | began hidle hlive => exact .quiet ho.addressed (hidle ▸ plain_nil) hlive fun _ => rfl
  | failed hidle hscanning _ =>
      refine .quiet ho.addressed (hidle ▸ plain_nil) (ho.scanning hscanning).1 fun hscan => ?_
      cases hscan
  | published hidle hscan =>
      have hscanning := ho.scan (by rw [hscan]; rfl)
      refine .quiet ho.addressed (.cons rfl (.cons rfl plain_nil)) (ho.scanning hscanning).1
        fun hscan => ?_
      cases hscan
  | scanned => exact ho.scanned
  | stepped hhalt hs => exact ho.stepped hhalt hs
  | crashed => exact orderly_restart _

/-- A torrent just added. -/
theorem orderly_new (now : Nat) (paused sequential network : Bool) (disk : Disk) :
    Orderly sh (Host.new sh now paused sequential network disk) := by
  refine .quiet (fun s hs => ?_) plain_nil rfl fun _ => rfl
  cases hs

/-- What a run begins with: a torrent just added, or one that was there when the daemon started. -/
inductive Begins (sh : Shared) : Host → Prop
  | added (now : Nat) (paused sequential network : Bool) (disk : Disk) :
      Begins sh (Host.new sh now paused sequential network disk)
  | loaded {record : Bytes} {disk : Disk} {h : Host} (hload : Host.load sh record disk = .ok h) :
      Begins sh h

theorem loaded_load {record : Bytes} {disk : Disk} (hload : Host.load sh record disk = .ok h) :
    Loaded sh h ∧ h.written = [] := by
  unfold Host.load at hload
  cases hone : loadOne sh record with
  | error e =>
      rw [hone] at hload
      cases hload
  | ok x =>
      rw [hone] at hload
      obtain rfl := Except.ok.inj hload
      exact ⟨⟨hone, rfl, rfl, rfl⟩, rfl⟩

theorem Begins.engines (hb : Begins sh h) : h.engines = [] := by
  cases hb with
  | added now paused sequential network disk => rfl
  | loaded hload => exact (loaded_load hload).1.engines

theorem Begins.orderly (hb : Begins sh h) : Orderly sh h := by
  cases hb with
  | added now paused sequential network disk => exact orderly_new now paused sequential network disk
  | loaded hload => exact (loaded_load hload).1.orderly

/-! ## The pieces of the newest engine -/

theorem held_of_engines (hengines : h'.engines = h.engines) (hsome : h.current.isSome) :
    h'.held = h.held := by
  unfold Host.held
  rw [show h'.current = h.current by rw [Host.current, Host.current, hengines]]
  cases hcurrent : h.current with
  | none =>
      rw [hcurrent] at hsome
      cases hsome
  | some s => rfl

theorem Orderly.current_isSome (ho : Orderly sh h) (hlive : h.hosted.live.isSome) :
    h.current.isSome := by
  obtain ⟨s, hcurrent, -⟩ := ho.live hlive
  rw [hcurrent]
  rfl

theorem Orderly.held_len (ho : Orderly sh h) (hsome : h.current.isSome) :
    h.held.len = sh.numPieces := by
  unfold Host.held
  split
  · rename_i s hcurrent
    exact (ho.addressed s (List.mem_of_getLast? hcurrent)).seated.fits.len
  · rename_i hnone
    rw [hnone] at hsome
    cases hsome

theorem held_modifyCurrent {s : System} (f : System → System) (hcurrent : h.current = some s) :
    (h.modifyCurrent f).held = (f s).engine.st.picker.haveField := by
  unfold Host.held
  rw [current_modifyCurrent f hcurrent]

theorem held_eq {s : System} (hcurrent : h.current = some s) :
    h.held = s.engine.st.picker.haveField := by
  unfold Host.held
  rw [hcurrent]

end Clove.Daemon
