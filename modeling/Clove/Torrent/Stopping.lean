import Clove.Torrent.Integrity

/-!
# Stopping a torrent

Stopping leaves the demux, raises the stop flag, and disconnects the peers in the table.  An
attach looks at the flag for the last time before it announces itself, and registers later.  So
an attach that is past that point when the peers are listed is not disconnected, and registers
with a torrent that has stopped.

If there is none, a stopped torrent has no peers, gets none, and writes nothing
(`System.Ending.step`, `System.AtRest.step`).
-/

namespace Clove.Torrent

open Wire (Message)

/-! ## The gate -/

/-- Past the last look at the stop flag, and not registered yet. -/
def Phase.inFlight : Phase → Bool
  | .greeted _ => true
  | .announced _ _ => true
  | _ => false

/-- The steps of whoever stops the torrent. -/
def Action.isHalt : Action → Bool
  | .halt => true
  | _ => false

namespace System

/-- No attach is past its last look at the stop flag. -/
def Clear (s : System) : Prop := ∀ a ∈ s.attaches, a.phase.inFlight = false

instance (s : System) : Decidable s.Clear :=
  inferInstanceAs (Decidable (∀ a ∈ s.attaches, a.phase.inFlight = false))

/-- Whoever stops the torrent has this peer still to drop. -/
def Doomed (s : System) (id : Nat) : Prop :=
  ∃ t ∈ s.tasks, t.thread = .control ∧ ∃ d ∈ t.drops, d.1 = id

/-- Once the peers are listed, nobody else comes in, and everyone left is to be dropped. -/
structure Ending (s : System) : Prop where
  clear : s.stop = .listed → s.Clear
  doomed : s.stop = .listed → ∀ id ∈ s.engine.st.ids, s.Doomed id

/-- Listed, with nobody left and nobody coming. -/
structure AtRest (s : System) : Prop where
  listed : s.stop = .listed
  clear : s.Clear
  peers : s.engine.st.peers = []

end System

variable {sh : Shared} {s s' : System}

/-- A stopped torrent is at rest. -/
theorem System.Ending.atRest (h : s.Ending) (hstop : s.Stopped) : s.AtRest := by
  refine ⟨hstop.1, h.clear hstop.1, ?_⟩
  have hnone : s.engine.st.ids = [] := by
    refine List.eq_nil_iff_forall_not_mem.2 fun id hid => ?_
    obtain ⟨t, ht, hcontrol, d, hd, -⟩ := h.doomed hstop.1 id hid
    rw [hstop.2 t ht hcontrol] at hd
    cases hd
  exact List.map_eq_nil_iff.1 hnone

/-- Only stopping stops, and once the flag is up nobody gets past the gate. -/
theorem gate_step (sh : Shared) (s : System) (a : Action) (hstop : a.isHalt = false) :
    (System.step sh a s).stop = s.stop ∧
      (s.stop = .listed → s.Clear → (System.step sh a s).Clear) := by
  have hset : ∀ pos phase, phase.inFlight = false → s.Clear → (s.setPhase pos phase).Clear := by
    intro pos phase hphase hclear b hb
    rcases Lists.mem_modify hb with hb | ⟨c, -, rfl⟩
    · exact hclear b hb
    · exact hphase
  have hsame : s.stop = .listed → s.Clear → s.Clear := fun _ => id
  cases a with
  | message env id msg =>
      unfold System.step
      simp only
      split <;> exact ⟨rfl, hsame⟩
  | maintain env =>
      unfold System.step
      simp only
      split <;> exact ⟨rfl, hsame⟩
  | control ev =>
      unfold System.step
      simp only
      split <;> exact ⟨rfl, hsame⟩
  | drop pos now =>
      unfold System.step System.dropNext
      simp only
      split <;> exact ⟨rfl, hsame⟩
  | send pos taken =>
      unfold System.step System.sendNext
      simp only
      split
      · split <;> exact ⟨rfl, hsame⟩
      · exact ⟨rfl, hsame⟩
  | accept dest theirs =>
      unfold System.step
      simp only
      split
      · rename_i hrunning
        refine ⟨rfl, fun hlisted => ?_⟩
        rw [hlisted] at hrunning
        cases hrunning
      · exact ⟨rfl, hsame⟩
  | dial dest =>
      unfold System.step
      simp only
      split
      · rename_i hrunning
        refine ⟨rfl, fun hlisted => ?_⟩
        rw [hlisted] at hrunning
        simp at hrunning
      · exact ⟨rfl, hsame⟩
  | greet pos theirs =>
      unfold System.step
      simp only
      split
      · split
        · rename_i hrunning
          refine ⟨rfl, fun hlisted => ?_⟩
          rw [hlisted] at hrunning
          simp at hrunning
        · exact ⟨rfl, fun _ => hset pos .over rfl⟩
      · exact ⟨rfl, hsame⟩
  | abandon pos => exact ⟨rfl, fun _ => hset pos .over rfl⟩
  | announce pos =>
      unfold System.step
      simp only
      split
      · rename_i dest theirs hattach
        refine ⟨rfl, fun _ hclear => ?_⟩
        have := hclear _ (List.mem_of_getElem? hattach)
        cases this
      · exact ⟨rfl, hsame⟩
  | register pos env =>
      unfold System.step System.registerNext
      simp only
      split
      · split <;> exact ⟨rfl, fun _ => hset pos .over rfl⟩
      · exact ⟨rfl, hsame⟩
  | halt => cases hstop

/-- The doom of a peer is lifted only by dropping it. -/
theorem System.Doomed.setTask {pos id : Nat} {t t' : Task} (h : s.Doomed id)
    (htask : s.tasks[pos]? = some t) (hthread : t'.thread = t.thread)
    (hdrops : ∀ d ∈ t.drops, d.1 = id → d ∈ t'.drops) : (s.setTask pos t').Doomed id := by
  obtain ⟨post, hsplit, hset⟩ := setTask_split htask
  obtain ⟨u, hu, hcontrol, d, hd, hid⟩ := h
  rw [System.Doomed, hset]
  rw [hsplit] at hu
  rcases List.mem_append.1 hu with hu | hu
  · exact ⟨u, List.mem_append_left _ hu, hcontrol, d, hd, hid⟩
  · rcases List.mem_cons.1 hu with rfl | hu
    · exact ⟨t', by simp, hthread.trans hcontrol, d, hdrops d hd hid, hid⟩
    · exact ⟨u, by simp [hu], hcontrol, d, hd, hid⟩

theorem System.Doomed.append {id : Nat} {tasks : List Task} (h : s.Doomed id)
    (htasks : s'.tasks = s.tasks ++ tasks) : s'.Doomed id := by
  obtain ⟨t, ht, hdoomed⟩ := h
  exact ⟨t, htasks ▸ List.mem_append_left _ ht, hdoomed⟩

/-- Once listed, whoever is still in the table is doomed. -/
theorem doomed_step (a : Action) (hseat : s.engine.Seated sh) (hclear : s.Clear)
    (h : ∀ id ∈ s.engine.st.ids, s.Doomed id) :
    ∀ id ∈ (System.step sh a s).engine.st.ids, (System.step sh a s).Doomed id := by
  have hout := step_outcome a hseat
  generalize System.step sh a s = s' at hout ⊢
  intro id hid
  cases hout with
  | same hsame _ =>
      have hdoomed := h id (State.mem_ids.2 ((State.mem_ids.1 hid).imp fun _ hb => hsame.seats ▸ hb))
      have htasks : s'.tasks = s.tasks ++ [] := by rw [hsame.tasks, List.append_nil]
      exact hdoomed.append htasks
  | ran _ hsection =>
      have hids : id ∈ s.engine.st.ids := hsection.ids ▸ hid
      exact (h id hids).append rfl
  | @dropped _ gone st hdrop =>
      obtain ⟨b, hb⟩ := State.mem_ids.1 hid
      exact h id (State.mem_ids.2 ⟨b, ((hdrop.seats _).1 hb).1⟩)
  | @droppedBy _ pos gone t t' st htask _ _ hdrop hthread hdrops =>
      obtain ⟨b, hb⟩ := State.mem_ids.1 hid
      obtain ⟨hb, hne⟩ := (hdrop.seats _).1 hb
      refine System.Doomed.setTask (h id (State.mem_ids.2 ⟨b, hb⟩)) htask hthread fun d hd hdid => ?_
      exact (hdrops d hd).resolve_left fun hgone => hne (hdid.symm.trans hgone)
  | sent htask =>
      refine System.Doomed.setTask (h id hid) htask rfl ?_
      rintro d ⟨⟩
  | refused htask =>
      refine System.Doomed.setTask (h id hid) htask rfl ?_
      rintro d ⟨⟩
  | registered hattach _ _ =>
      have := hclear _ (List.mem_of_getElem? hattach)
      cases this
  | listed => exact (h id hid).append rfl

/-- What the threads of the torrent do keeps the end in order. -/
theorem System.Ending.step (h : s.Ending) (a : Action) (hstop : a.isHalt = false)
    (hseat : s.engine.Seated sh) : (System.step sh a s).Ending := by
  obtain ⟨hsame, hclear⟩ := gate_step sh s a hstop
  refine ⟨fun hlisted => ?_, fun hlisted => ?_⟩
  · rw [hsame] at hlisted
    exact hclear hlisted (h.clear hlisted)
  · rw [hsame] at hlisted
    exact doomed_step a hseat (h.clear hlisted) (h.doomed hlisted)

/-- Listing the peers keeps the end in order, if no attach is past its last look at the flag. -/
theorem System.Ending.halt (h : s.Ending) (hclear : s.stop = .raised → s.Clear) :
    s.haltNext.Ending := by
  unfold System.haltNext
  cases hstop : s.stop with
  | running => exact ⟨by simp, by simp⟩
  | unrouted => exact ⟨by simp, by simp⟩
  | raised =>
      refine ⟨fun _ => hclear hstop, fun _ id hid => ?_⟩
      obtain ⟨p, hp, rfl⟩ := List.mem_map.1 hid
      exact ⟨_, List.mem_append_right _ List.mem_cons_self, rfl, (p.id, false),
        List.mem_map_of_mem (f := fun p : Peer => (p.id, false)) hp, rfl⟩
  | listed => exact h

theorem ending_new (initialHave : Bitfield) (mode : Mode) (now : Nat) (disk : Disk) :
    (System.new sh initialHave mode now disk).Ending := ⟨by simp [System.new], by simp [System.new]⟩

/-! ## After the end -/

/-- A section that collects messages from nobody writes nothing. -/
theorem trace_of_no_peers {e : Engine} {r : Engine × Job} (h : RunsTo sh e r)
    (hseat : e.Seated sh) (hnone : e.st.peers = []) : r.1.trace = e.trace ∧ r.1.disk = e.disk := by
  rcases h with ⟨env, id, msg, rfl⟩ | ⟨env, rfl⟩
  · have hseen : e.st.modifyId id (fun p => { p with lastSeen := env.now }) = e.st := by
      unfold State.modifyId
      rw [hnone]
      rfl
    have hhandle : handle sh env id msg e.enter = e.enter := by
      unfold handle
      rw [show e.enter.st.peers = [] from hnone]
      rfl
    have hquiet : Quiet e.enter (recordSent env.now (considerRound env e.enter)) :=
      (quiet_considerRound env hseat.nodup).trans (quiet_recordSent env.now _)
    obtain ⟨extra, hsaid⟩ := hquiet
    unfold onMessage
    rw [hseen]
    simp only [show ({ e.enter with st := e.st } : Work) = e.enter from rfl, hhandle]
    exact ⟨hsaid.trace, hsaid.disk⟩
  · obtain ⟨w, drops, ⟨extra, hsaid⟩, heq⟩ := quiet_maintain env hseat
    rw [heq]
    exact ⟨hsaid.trace, hsaid.disk⟩

theorem peers_eq_nil {st st' : State} (hnone : st.peers = [])
    (hseats : ∀ x ∈ st'.seats, x ∈ st.seats) : st'.peers = [] := by
  have hempty : st'.seats = [] := by
    refine List.eq_nil_iff_forall_not_mem.2 fun x hx => ?_
    have := hseats x hx
    rw [State.seats, hnone] at this
    cases this
  exact List.map_eq_nil_iff.1 hempty

/-- A torrent at rest stays at rest and writes nothing. -/
theorem System.AtRest.step (h : s.AtRest) (a : Action) (hseat : s.engine.Seated sh) :
    (System.step sh a s).AtRest ∧ (System.step sh a s).engine.trace = s.engine.trace ∧
      (System.step sh a s).engine.disk = s.engine.disk := by
  have hgate : (System.step sh a s).stop = .listed ∧ (System.step sh a s).Clear := by
    cases hhalt : a.isHalt with
    | false =>
        obtain ⟨hsame, hclear⟩ := gate_step sh s a hhalt
        exact ⟨hsame.trans h.listed, hclear h.listed h.clear⟩
    | true =>
        cases a with
        | halt =>
            unfold System.step System.haltNext
            simp only [h.listed]
            exact ⟨trivial, h.clear⟩
        | _ => cases hhalt
  have hout := step_outcome a hseat
  generalize System.step sh a s = s' at hout hgate ⊢
  suffices hquiet : s'.engine.st.peers = [] ∧ s'.engine.trace = s.engine.trace ∧
      s'.engine.disk = s.engine.disk from ⟨⟨hgate.1, hgate.2, hquiet.1⟩, hquiet.2⟩
  cases hout with
  | same hsame _ =>
      exact ⟨peers_eq_nil h.peers fun x hx => hsame.seats ▸ hx, hsame.trace, hsame.disk⟩
  | ran hruns hsection =>
      refine ⟨?_, trace_of_no_peers hruns hseat h.peers⟩
      have hids := hsection.ids
      rw [State.ids, State.ids, h.peers] at hids
      exact List.map_eq_nil_iff.1 hids
  | dropped hdrop => exact ⟨peers_eq_nil h.peers fun x hx => ((hdrop.seats x).1 hx).1, rfl, rfl⟩
  | droppedBy _ _ _ hdrop _ _ =>
      exact ⟨peers_eq_nil h.peers fun x hx => ((hdrop.seats x).1 hx).1, rfl, rfl⟩
  | sent _ => exact ⟨h.peers, rfl, rfl⟩
  | refused _ => exact ⟨h.peers, rfl, rfl⟩
  | registered hattach _ _ =>
      have := h.clear _ (List.mem_of_getElem? hattach)
      cases this
  | listed => exact ⟨h.peers, rfl, rfl⟩

end Clove.Torrent
