import Clove.Daemon.Order

/-!
# Losing the session

`detach_network` stops every engine and then calls `persist_progress`, which writes a record only
for a torrent whose engine runs.  By then none does, so no record is written: the file says what
it said before (`detach_network_persists_iff`).
-/

namespace Clove.Daemon

open Torrent (Shared System Stop)

variable {sh : Shared} {limits : Limits} {h h' : Host}

/-! ## What a stop leaves in memory -/

/-- The pieces and the byte counts of the newest engine. -/
def Host.tally (h : Host) : Option (Bitfield × Nat × Nat) :=
  h.current.map fun s => (s.engine.st.picker.haveField, s.engine.uploaded, s.engine.downloaded)

/-- The torrent with the pieces and counts of the engine that runs, all of them verified. -/
def Host.progress (h : Host) : Hosted :=
  match h.hosted.live with
  | some base => h.counts base { h.hosted with have_ := h.held, verified := h.held }
  | none => h.hosted

/-- What `stop_live` will have left in memory when it returns. -/
def Host.pending (h : Host) : Hosted :=
  match h.agenda with
  | .stopLive :: _ => h.progress
  | .unregister :: .flush base :: _ =>
      h.counts base { h.hosted with have_ := h.held, verified := h.held }
  | .flush base :: _ => h.counts base { h.hosted with have_ := h.held, verified := h.held }
  | .sync (some base) before _ :: _ =>
      h.counts base { h.hosted with have_ := h.held, verified := before }
  | .snapshot base :: _ => h.counts base { h.hosted with have_ := h.held }
  | _ => h.hosted

/-- What `detach_network` does once the engine is stopped. -/
def afterStop : List Instr := .dropNetwork :: Host.persistProgress

/-- No input or output fails, and the engine neither completes a piece nor counts a byte. -/
def Calm (sh : Shared) : Action → Host → Prop
  | .registry ok _, _ => ok = true
  | .engine k a, h => (h.stepEngine sh k a).tally = h.tally
  | .scan _ _, _ => True
  | _, _ => False

instance (a : Action) (h : Host) : Decidable (Calm sh a h) := by
  cases a <;> unfold Calm <;> infer_instance

/-- How far `detach_network` has come. -/
inductive Detaching (h : Host) : Prop where
  | called : h.agenda = .stopLive :: afterStop → Detaching h
  | stopping {pre : List Instr} {s : System} : h.agenda = pre ++ afterStop →
      Stage s.stop pre → h.current = some s → h.hosted.live = none → Detaching h
  | stopped : h.agenda = afterStop → h.hosted.live = none → Detaching h
  | offline : h.agenda <:+ Host.persistProgress → h.hosted.live = none → h.network = false →
      Detaching h

/-- While `detach_network` runs, the file is as it was, and memory will be as the stop leaves
it. -/
structure Detached (sh : Shared) (record : Bytes) (r : Resume) (h : Host) : Prop where
  orderly : Orderly sh h
  detaching : Detaching h
  record : h.record = record
  pending : h.pending.resume sh = r

theorem held_of_tally (htally : h'.tally = h.tally) (hhave : h'.hosted.have_ = h.hosted.have_) :
    h'.held = h.held := by
  unfold Host.tally at htally
  unfold Host.held
  cases hcurrent : h.current with
  | none =>
      rw [hcurrent, Option.map_none, Option.map_eq_none_iff] at htally
      rw [htally]
      exact hhave
  | some s =>
      rw [hcurrent, Option.map_some, Option.map_eq_some_iff] at htally
      obtain ⟨s', hcurrent', heq⟩ := htally
      rw [hcurrent']
      exact congrArg Prod.fst heq

theorem counts_of_tally (htally : h'.tally = h.tally) (base : Nat × Nat) (x : Hosted) :
    h'.counts base x = h.counts base x := by
  unfold Host.tally at htally
  unfold Host.counts
  cases hcurrent : h.current with
  | none =>
      rw [hcurrent, Option.map_none, Option.map_eq_none_iff] at htally
      rw [htally]
  | some s =>
      rw [hcurrent, Option.map_some, Option.map_eq_some_iff] at htally
      obtain ⟨s', hcurrent', heq⟩ := htally
      simp only [Prod.mk.injEq] at heq
      simp only [hcurrent', heq.2.1, heq.2.2]

/-- What is pending depends on the agenda, the registry's entry and the tally. -/
theorem pending_of_tally (hagenda : h'.agenda = h.agenda) (hhosted : h'.hosted = h.hosted)
    (htally : h'.tally = h.tally) : h'.pending = h.pending := by
  have hheld := held_of_tally htally (by rw [hhosted])
  have hprogress : h'.progress = h.progress := by
    unfold Host.progress
    rw [hhosted, hheld]
    split
    · exact counts_of_tally htally _ _
    · rfl
  unfold Host.pending
  rw [hagenda, hhosted, hheld, hprogress]
  split <;> first | rfl | exact counts_of_tally htally _ _

theorem tally_haltNext {s : System} (hcurrent : h.current = some s) :
    (h.modifyCurrent System.haltNext).tally = h.tally := by
  unfold Host.tally
  rw [current_modifyCurrent _ hcurrent, hcurrent]
  unfold System.haltNext
  split <;> rfl

/-- The counts of one engine make one record. -/
theorem resume_counts {s : System} (hcurrent' : h'.current = some s) (hcurrent : h.current = some s)
    (base : Nat × Nat) {x x' : Hosted} (hx : x'.resume sh = x.resume sh) :
    (h'.counts base x').resume sh = (h.counts base x).resume sh := by
  have hcounts : ∀ {g : Host} {y : Hosted}, g.current = some s → (g.counts base y).resume sh =
      { y.resume sh with
        uploaded := saturatingAdd base.1 s.engine.uploaded
        downloaded := saturatingAdd base.2 s.engine.downloaded } := by
    intro g y hg
    unfold Host.counts
    rw [hg]
    rfl
  rw [hcounts hcurrent', hcounts hcurrent, hx]

/-! ## Every step of it -/

/-- The registry carries out the first instruction. -/
theorem step_registry {i : Instr} {rest : List Instr} (ok : Bool) (now : Nat)
    (hagenda : h.agenda = i :: rest) : Host.step sh limits (.registry ok now) h =
      Host.exec sh limits ok now { h with agenda := rest } i := by
  unfold Host.step
  simp only [hagenda]

/-- The stop of a running engine begins, or there is none. -/
theorem Detached.called {record : Bytes} {r : Resume} {now : Nat} (hd : Detached sh record r h)
    (hagenda : h.agenda = .stopLive :: afterStop)
    (ho : Orderly sh (Host.exec sh limits true now { h with agenda := afterStop } .stopLive)) :
    Detached sh record r (Host.exec sh limits true now { h with agenda := afterStop } .stopLive) := by
  have hpending : h.pending = h.progress := by
    unfold Host.pending
    rw [hagenda]
  have hr := hd.pending
  rw [hpending] at hr
  unfold Host.progress at hr
  unfold Host.exec at ho ⊢
  simp only at ho ⊢
  split at hr
  · rename_i base hlive
    simp only [hlive] at ho ⊢
    obtain ⟨s, hcurrent, hrunning⟩ := hd.orderly.live (by rw [hlive]; rfl)
    have hheld : Host.held { h with
        hosted := { h.hosted with live := none }
        agenda := [.unregister, .flush base, .requestStop, .disconnectAll, .await] ++ afterStop } =
        h.held := held_of_engines rfl (by rw [hcurrent]; rfl)
    refine ⟨ho, .stopping rfl (hrunning ▸ .unregister base) hcurrent rfl, hd.record, ?_⟩
    rw [← hr]
    refine resume_counts (by exact hcurrent) hcurrent base ?_
    exact congrArg (fun b => Hosted.resume sh { h.hosted with have_ := b, verified := b }) hheld
  · rename_i hlive
    simp only [hlive] at ho ⊢
    exact ⟨ho, .stopped rfl hlive, hd.record, hr⟩

/-- Inside `stop_live`. -/
theorem Detached.stopping {record : Bytes} {r : Resume} {now : Nat} {pre : List Instr}
    {s : System} (hd : Detached sh record r h) (hagenda : h.agenda = pre ++ afterStop)
    (hstage : Stage s.stop pre) (hcurrent : h.current = some s) (hlive : h.hosted.live = none)
    (ho : Orderly sh (Host.step sh limits (.registry true now) h)) :
    Detached sh record r (Host.step sh limits (.registry true now) h) := by
  have hr := hd.pending
  unfold Host.pending at hr
  generalize hstop : s.stop = stop at hstage
  cases hstage with
  | unregister base =>
      rw [step_registry true now hagenda] at ho ⊢
      simp only [hagenda, List.cons_append] at hr
      have hnext : Stage s.haltNext.stop [.flush base, .requestStop, .disconnectAll, .await] := by
        rw [show s.haltNext.stop = .unrouted by simp [System.haltNext, hstop]]
        exact .flush base
      refine ⟨ho, .stopping rfl hnext (current_modifyCurrent _ hcurrent) hlive, hd.record, ?_⟩
      have htally := tally_haltNext hcurrent
      rw [← hr, ← counts_of_tally htally, ← held_of_tally htally rfl]
      rfl
  | flush base =>
      rw [step_registry true now hagenda] at ho ⊢
      simp only [hagenda, List.cons_append] at hr
      refine ⟨ho, .stopping rfl (hstop ▸ Stage.sync base _ _) hcurrent hlive, hd.record, hr⟩
  | sync base before files =>
      rw [step_registry true now hagenda] at ho ⊢
      simp only [hagenda, List.cons_append] at hr
      cases files with
      | nil =>
          refine ⟨ho, .stopping rfl (hstop ▸ Stage.snapshot base) hcurrent hlive, hd.record, ?_⟩
          have hheld : Host.held { h with
              hosted := { h.hosted with verified := before }
              agenda := [.snapshot base, .requestStop, .disconnectAll, .await] ++ afterStop } =
              h.held := held_of_engines rfl (by rw [hcurrent]; rfl)
          rw [← hr]
          refine resume_counts (by exact hcurrent) hcurrent base ?_
          exact congrArg
            (fun b => Hosted.resume sh { h.hosted with have_ := b, verified := before }) hheld
      | cons file files =>
          exact ⟨ho, .stopping rfl (hstop ▸ Stage.sync base before files) hcurrent hlive, hd.record, hr⟩
  | snapshot base =>
      rw [step_registry true now hagenda] at ho ⊢
      simp only [hagenda, List.cons_append] at hr
      have hnone : (h.counts base { h.hosted with have_ := h.held }).live = none := by
        obtain ⟨up, down, hcounts⟩ := counts_eq h base { h.hosted with have_ := h.held }
        rw [hcounts]
        exact hlive
      exact ⟨ho, .stopping rfl (hstop ▸ Stage.requestStop) hcurrent hnone, hd.record, hr⟩
  | requestStop =>
      rw [step_registry true now hagenda] at ho ⊢
      simp only [hagenda, List.cons_append] at hr
      have hnext : Stage s.haltNext.stop [.disconnectAll, .await] := by
        rw [show s.haltNext.stop = .raised by simp [System.haltNext, hstop]]
        exact .disconnectAll
      exact ⟨ho, .stopping rfl hnext (current_modifyCurrent _ hcurrent) hlive, hd.record, hr⟩
  | disconnectAll =>
      rw [step_registry true now hagenda] at ho ⊢
      simp only [hagenda, List.cons_append] at hr
      have hnext : Stage s.haltNext.stop [.await] := by
        rw [show s.haltNext.stop = .listed by simp [System.haltNext, hstop]]
        exact .await
      exact ⟨ho, .stopping rfl hnext (current_modifyCurrent _ hcurrent) hlive, hd.record, hr⟩
  | await =>
      rw [step_registry true now hagenda] at ho ⊢
      simp only [hagenda, List.cons_append] at hr
      unfold Host.exec at ho ⊢
      simp only at ho ⊢
      split
      · rename_i hgone
        rw [if_pos hgone] at ho
        exact ⟨ho, .stopped rfl hlive, hd.record, hr⟩
      · have heq : ({ h with agenda := .await :: afterStop } : Host) = h := by
          rw [show .await :: afterStop = h.agenda from hagenda.symm]
        show Detached sh record r { h with agenda := .await :: afterStop }
        rw [heq]
        exact hd

/-- After the stop: no engine, no network, and so no record. -/
theorem Detached.offline {record : Bytes} {r : Resume} {now : Nat}
    (hd : Detached sh record r h) (hagenda : h.agenda <:+ Host.persistProgress)
    (hlive : h.hosted.live = none) (hnetwork : h.network = false)
    (ho : Orderly sh (Host.step sh limits (.registry true now) h)) :
    Detached sh record r (Host.step sh limits (.registry true now) h) := by
  have hr := hd.pending
  unfold Host.pending at hr
  unfold Host.persistProgress at hagenda
  simp only [List.suffix_cons_iff, List.suffix_nil] at hagenda
  rcases hagenda with hagenda | hagenda | hagenda | hagenda | hagenda
  · rw [step_registry true now hagenda] at ho ⊢
    simp only [hagenda] at hr
    unfold Host.exec at ho ⊢
    simp only [hlive] at ho ⊢
    exact ⟨ho, .offline ⟨[.refresh], rfl⟩ hlive hnetwork, hd.record, hr⟩
  · rw [step_registry true now hagenda] at ho ⊢
    simp only [hagenda] at hr
    unfold Host.exec Host.seedLimit at ho ⊢
    simp only [hlive, Option.isNone_none, Bool.true_or, if_true] at ho ⊢
    exact ⟨ho, .offline ⟨[.refresh, .enforceSeedLimits], rfl⟩ hlive hnetwork, hd.record, hr⟩
  · rw [step_registry true now hagenda] at ho ⊢
    simp only [hagenda] at hr
    unfold Host.exec at ho ⊢
    simp only [hnetwork, Bool.not_false, if_true] at ho ⊢
    exact ⟨ho, .offline ⟨[.refresh, .enforceSeedLimits, .reconcile], rfl⟩ hlive rfl, hd.record, hr⟩
  · rw [step_registry true now hagenda] at ho ⊢
    simp only [hagenda] at hr
    unfold Host.exec at ho ⊢
    simp only [hlive] at ho ⊢
    exact ⟨ho, .offline ⟨Host.persistProgress, rfl⟩ hlive hnetwork, hd.record, hr⟩
  · unfold Host.step
    simp only [hagenda]
    exact hd

/-- What the step of an engine leaves alone. -/
theorem stepEngine_eq (sh : Shared) (k : Nat) (a : Torrent.Action) (h : Host) : ∃ engines files,
    h.stepEngine sh k a = { h with engines := engines, files := files } ∧
      ∀ s, h.current = some s → ∃ s', engines.getLast? = some s' ∧ s'.stop = s.stop := by
  unfold Host.stepEngine
  split
  · exact ⟨_, _, rfl, fun s hs => ⟨s, hs, rfl⟩⟩
  · rename_i hhalt
    split
    · exact ⟨_, _, rfl, fun s hs => ⟨s, hs, rfl⟩⟩
    · rename_i s₀ hs₀
      refine ⟨_, _, rfl, fun s hs => stepped_current hs₀ ?_ hs⟩
      exact (Torrent.gate_step sh _ a (by simpa using hhalt)).1

/-- A step of another thread. -/
theorem Detached.beside {record : Bytes} {r : Resume} {a : Action} (hd : Detached sh record r h)
    (ho : Orderly sh (Host.step sh limits a h))
    (hagenda : (Host.step sh limits a h).agenda = h.agenda)
    (hhosted : (Host.step sh limits a h).hosted = h.hosted)
    (hnetwork : (Host.step sh limits a h).network = h.network)
    (hrecord : (Host.step sh limits a h).record = h.record)
    (htally : (Host.step sh limits a h).tally = h.tally)
    (hcurrent : ∀ s, h.current = some s →
      ∃ s', (Host.step sh limits a h).current = some s' ∧ s'.stop = s.stop) :
    Detached sh record r (Host.step sh limits a h) := by
  refine ⟨ho, ?_, hrecord.trans hd.record, ?_⟩
  · cases hd.detaching with
    | called hcalled => exact .called (hagenda.trans hcalled)
    | stopping hstopping hstage hs hlive =>
        obtain ⟨s', hs', hstop⟩ := hcurrent _ hs
        exact .stopping (hagenda.trans hstopping) (hstop ▸ hstage) hs' (hhosted ▸ hlive)
    | stopped hstopped hlive => exact .stopped (hagenda.trans hstopped) (hhosted ▸ hlive)
    | offline hoffline hlive hnone =>
        exact .offline (hagenda ▸ hoffline) (hhosted ▸ hlive) (hnetwork.trans hnone)
  · rw [pending_of_tally hagenda hhosted htally]
    exact hd.pending

theorem Detached.step {record : Bytes} {r : Resume} {a : Action} (hd : Detached sh record r h)
    (hcalm : Calm sh a h) : Detached sh record r (Host.step sh limits a h) := by
  have ho : Orderly sh (Host.step sh limits a h) := hd.orderly.step a
  cases a with
  | registry ok now =>
      obtain rfl : ok = true := hcalm
      cases hd.detaching with
      | called hagenda =>
          rw [step_registry true now hagenda] at ho ⊢
          exact hd.called hagenda ho
      | stopping hagenda hstage hcurrent hlive => exact hd.stopping hagenda hstage hcurrent hlive ho
      | stopped hagenda hlive =>
          have hr := hd.pending
          unfold Host.pending at hr
          simp only [hagenda, afterStop] at hr
          rw [step_registry true now hagenda] at ho ⊢
          exact ⟨ho, .offline ⟨[], rfl⟩ hlive rfl, hd.record, hr⟩
      | offline hagenda hlive hnetwork => exact hd.offline hagenda hlive hnetwork ho
  | engine k a =>
      obtain ⟨engines, files, heq, hcurrent⟩ := stepEngine_eq sh k a h
      have heq : Host.step sh limits (.engine k a) h =
          { h with engines := engines, files := files } := heq
      refine hd.beside ho ?_ ?_ ?_ ?_ hcalm ?_
      · rw [heq]
      · rw [heq]
      · rw [heq]
      · rw [heq]
      · rw [heq]
        exact hcurrent
  | scan ok fault =>
      obtain ⟨files, scan, heq, -⟩ := stepScan_eq sh limits h ok fault
      have heq : Host.step sh limits (.scan ok fault) h = { h with files := files, scan := scan } :=
        heq
      refine hd.beside ho ?_ ?_ ?_ ?_ ?_ fun s hs => ?_
      · rw [heq]
      · rw [heq]
      · rw [heq]
      · rw [heq]
      · rw [heq]
        rfl
      · rw [heq]
        exact ⟨s, hs, rfl⟩
  | command c => cases hcalm
  | crash keep => cases hcalm

/-! ## The result -/

/-- The resume file decodes to the record in memory. -/
def Persisted (sh : Shared) (h : Host) : Prop :=
  Resume.decode h.record = .ok (h.hosted.resume sh)

instance (h : Host) : Decidable (Persisted sh h) := by
  unfold Persisted
  infer_instance

/-- The resume file already says what a stop of the engine would leave in memory: the pieces
the engine holds, all of them verified, and the bytes it has counted. -/
def UpToDate (sh : Shared) (h : Host) : Prop :=
  Resume.decode h.record = .ok (h.progress.resume sh)

instance (h : Host) : Decidable (UpToDate sh h) := by
  unfold UpToDate
  infer_instance

/-- When `detach_network` has returned, with no failure and the engine quiescent, the file is
the record in memory exactly if it already was what the stop leaves. -/
theorem detach_network_persists_iff {h₀ : Host} (hb : Begins sh h₀) (acts more : List Action) :
    let h := Host.run sh limits acts h₀
    let h' := Host.run sh limits more (Host.step sh limits (.command .detachNetwork) h)
    h.loaded = true → h.agenda = [] →
    Machine.Along (Host.step sh limits) (Calm sh) more
      (Host.step sh limits (.command .detachNetwork) h) →
    h'.agenda = [] → (Persisted sh h' ↔ UpToDate sh h) := by
  intro h h' hloaded hidle hcalm hreturned
  have ho : Orderly sh h := Machine.run_induction (P := Orderly sh) (fun a _ ho => ho.step a) acts
    hb.orderly
  have hcall : Host.step sh limits (.command .detachNetwork) h =
      { h with agenda := .stopLive :: afterStop } := by
    unfold Host.step
    exact if_pos ⟨hloaded, by rw [hidle]; rfl⟩
  have hstart : Detached sh h.record (h.progress.resume sh)
      (Host.step sh limits (.command .detachNetwork) h) := by
    refine ⟨ho.step _, ?_, ?_, ?_⟩
    · rw [hcall]
      exact .called rfl
    · rw [hcall]
    · rw [hcall]
      rfl
  have hend : Detached sh h.record (h.progress.resume sh) h' :=
    Machine.run_induction_along (P := Detached sh h.record (h.progress.resume sh))
      (fun _ _ hcalm hd => hd.step hcalm) hcalm hstart
  have hpending : h'.pending = h'.hosted := by
    unfold Host.pending
    rw [hreturned]
  rw [Persisted, UpToDate, hend.record, ← hpending, hend.pending]

namespace OneByte

open Torrent.OneByte (shared)

/-- The engine is stopped and the rest of `detach_network` runs; the one peer is dropped once
it is listed. -/
def detached (pos : Nat) : List Action := registry 8 ++ .engine 0 (.drop pos 0) :: registry 6

/-- The piece downloaded since the last record is in memory and not in the file. -/
theorem detach_network_loses_piece :
    let h := Host.run shared noLimits downloaded host
    let h₁ := Host.step shared noLimits (.command .detachNetwork) h
    let h' := Host.run shared noLimits (detached 3) h₁
    h.loaded = true ∧ h.agenda.isEmpty = true ∧
      Machine.Along (Host.step shared noLimits) (Calm shared) (detached 3) h₁ ∧
      h'.agenda.isEmpty = true ∧ ¬ Persisted shared h' := by
  decide +kernel

/-- If the progress was persisted just before, there is nothing to lose. -/
theorem detach_network_after_persist :
    Persisted shared (Host.run shared noLimits (detached 3)
      (Host.step shared noLimits (.command .detachNetwork)
        (Host.run shared noLimits (downloaded ++ .command .persistProgress :: registry 8)
          host))) :=
  (detach_network_persists_iff (.added 0 false false true fun _ => [])
    (downloaded ++ .command .persistProgress :: registry 8) (detached 3)
    (by decide +kernel) (List.isEmpty_iff.1 (by decide +kernel)) (by decide +kernel)
    (List.isEmpty_iff.1 (by decide +kernel))).2 (by decide +kernel)

end OneByte

end Clove.Daemon
