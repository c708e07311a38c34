import Clove.Daemon.StateDir

/-!
# Adding and removing when the file system fails

An operation of the registry makes several calls to the file system, and any one of them may
fail.  A removal that fails should leave the torrent where it was, in memory and on disk, and a
failed addition should leave everything as it was.  Both hold unless the one call that fails
comes too late (`failed_calls_keep_registry`).  A removal deletes the torrent file before the
resume file, and if the second deletion fails the torrent is still hosted and will not be found
again (`failed_remove_forgets`).  An addition that cannot write the resume file removes the
torrent file, also when that was there before.
-/

namespace Clove.Daemon

variable {sha1 toLowercase : Bytes → Bytes} {f : Faults} {d d' : Dir} {r r' : Registry}

/-- At most one call fails. -/
def Single (f : Faults) : Prop := ∀ c c', f.fails c = true → f.fails c' = true → c = c'

/-- What was pending or hosted in `r` still is in `r'`, and a start finds it. -/
structure Keeps (sha1 toLowercase : Bytes → Bytes) (r r' : Registry) (h : Bytes) : Prop where
  pending : r.pending.has h = true → r'.pending.has h = true ∧
    ∀ f order, Sound f → Lists order r'.dir →
      (Registry.start sha1 toLowercase f order r'.dir).listed h = true
  hosted : r.pending.has h = false → r'.torrents.has h = true ∧
    ∀ f order, Sound f → Lists order r'.dir →
      (Registry.start sha1 toLowercase f order r'.dir).torrents.has h = true

/-- The maps are the same, and so is what a start makes of the state directory. -/
structure Unchanged (sha1 toLowercase : Bytes → Bytes) (r r' : Registry) : Prop where
  torrents : r'.torrents = r.torrents
  pending : r'.pending = r.pending
  reload : ∀ f order order', Sound f → Lists order r.dir → Lists order' r'.dir → ∀ h,
    (Registry.start sha1 toLowercase f order' r'.dir).torrents.lookup h =
        (Registry.start sha1 toLowercase f order r.dir).torrents.lookup h ∧
      (Registry.start sha1 toLowercase f order' r'.dir).pending.lookup h =
        (Registry.start sha1 toLowercase f order r.dir).pending.lookup h

/-- The removal deletes the torrent file and not the resume file. -/
def ResumeStays (f : Faults) (r : Registry) (h : Bytes) : Prop :=
  r.pending.has h = false ∧ r.stoppable h = true ∧ f.fails (.unlink (stateFile h .resume)) = true

/-- The addition gives up after it has replaced the file of a torrent that is not hosted and
that a start would have found. -/
def Overwrites (sha1 toLowercase : Bytes → Bytes) (f : Faults) (r : Registry) (bytes : Bytes) :
    Prop :=
  ∃ m, MetaInfo.parse sha1 toLowercase bytes = .ok m ∧ r.torrents.has m.infoHash = false ∧
    r.clashes m = false ∧ Refused f (stateFile m.infoHash .resume) r.dir ∧
    (hostedOn sha1 toLowercase r.dir m.infoHash).isSome

/-! ## What a start finds -/

theorem start_hosts_iff (hd : Named sha1 toLowercase d) {order : List FileName}
    (horder : Lists order d) (h : Bytes) :
    (∀ f order, Sound f → Lists order d →
      (Registry.start sha1 toLowercase f order d).torrents.has h = true) ↔
      (hostedOn sha1 toLowercase d h).isSome := by
  constructor
  · intro hall
    have hone := hall .none order sound_none horder
    rwa [OrdMap.Tree.has, (start_spec sound_none hd horder).torrents] at hone
  · intro hsome f order hf horder
    rw [OrdMap.Tree.has, (start_spec hf hd horder).torrents]
    exact hsome

/-- Directories that hold the same are started alike. -/
theorem Unchanged.of_agree (hd : Named sha1 toLowercase r.dir) (h : Agree r.dir d) :
    Unchanged sha1 toLowercase r { r with dir := d } where
  torrents := rfl
  pending := rfl
  reload := by
    intro f order order' hf horder horder' k
    have hs := start_spec hf hd horder
    have hs' := start_spec hf (hd.agree h) horder'
    refine ⟨?_, ?_⟩
    · rw [hs.torrents, hs'.torrents, h.hostedOn]
    · rw [hs.pending, hs'.pending, h.hostedOn, h.magnetOn]

theorem Unchanged.refl (hd : Named sha1 toLowercase r.dir) : Unchanged sha1 toLowercase r r :=
  Unchanged.of_agree hd fun _ _ => rfl

/-! ## Removing -/

/-- A failed removal keeps the torrent, if there was one to keep and the resume file is not what
stays. -/
theorem keeps_iff_of_failed (hd : Named sha1 toLowercase r.dir) {order : List FileName}
    (horder : Lists order r.dir) (hf : Single f) {left : Hosted} {h : Bytes} {e : RemoveError}
    (hlisted : r.listed h = true) (hfailed : r.remove f left h = (.error e, r')) :
    Keeps sha1 toLowercase r r' h ↔ Keeps sha1 toLowercase r r h ∧ ¬ ResumeStays f r h := by
  obtain ⟨hkeys, hdir⟩ := stopLive_spec left h r
  have hcases := remove_cases f left h r
  rw [hfailed] at hcases
  cases hcases with
  | absent hpending hhosted =>
      rw [Registry.listed, hpending, hhosted] at hlisted
      cases hlisted
  | scanning hpending hhosted hstop =>
      refine (and_iff_left ?_).symm
      rintro ⟨-, hstop', -⟩
      rw [hstop] at hstop'
      cases hstop'
  | magnetStays _ hpending =>
      refine (and_iff_left ?_).symm
      rintro ⟨hpending', -, -⟩
      rw [hpending] at hpending'
      cases hpending'
  | torrentStays _ hpending hhosted hfails =>
      have hnot : ¬ ResumeStays f r h := by
        rintro ⟨-, -, hresume⟩
        have heq := Call.unlink.inj (hf _ _ hfails hresume)
        exact absurd (stateFile_inj heq).2 (by decide)
      rw [and_iff_left hnot]
      constructor
      · intro hk
        refine ⟨fun hp => absurd (hpending.symm.trans hp) (by decide), fun hp => ⟨hhosted, ?_⟩⟩
        exact hdir ▸ (hk.hosted hp).2
      · intro hk
        refine ⟨fun hp => absurd (hpending.symm.trans hp) (by decide), fun hp => ⟨?_, ?_⟩⟩
        · exact (hkeys.torrents h).trans hhosted
        · exact hdir.symm ▸ (hk.hosted hp).2
  | resumeStays _ hpending hhosted hstop hfails =>
      refine iff_of_false (fun hk => ?_) fun hand => hand.2 ⟨hpending, hstop, hfails⟩
      have hnamed : Named sha1 toLowercase ((r.stopLive left h).dir.drop (stateFile h .torrent)) :=
        (hdir ▸ hd).drop _
      have hrest : ∀ n, n.temp = false → n ∉ [stateFile h .torrent] →
          (r.stopLive left h).dir.drop (stateFile h .torrent) n = r.dir n := fun n _ hn => by
        rw [drop_apply, if_neg fun heq => hn (List.mem_singleton.2 heq), hdir]
      obtain ⟨order', horder'⟩ := horder.exists_of_agree hrest
      have hsome := (start_hosts_iff hnamed horder' h).1 (hk.hosted hpending).2
      rw [hostedOn_of_none (by simp [drop_apply])] at hsome
      cases hsome

/-! ## Adding -/

/-- The file a call is about. -/
def Call.file : Call → Option FileName
  | .list => none
  | .read n => some n
  | .create n => some n
  | .write n => some n
  | .sync n => some n
  | .rename n => some n
  | .unlink n => some n

/-- A file that is not replaced has a call that fails. -/
theorem Refused.exists_call {n : FileName} (h : Refused f n d) :
    ∃ c, f.fails c = true ∧ c.file = some n.tmp := by
  obtain hc | hc | hc | hc | ⟨hc, -⟩ := h
  · exact ⟨_, hc, rfl⟩
  · exact ⟨_, hc, rfl⟩
  · exact ⟨_, hc, rfl⟩
  · exact ⟨_, hc, rfl⟩
  · exact ⟨_, hc, rfl⟩

/-- Then no other file fails to be replaced, and every state file can be deleted. -/
theorem Single.not_refused (hf : Single f) {h : Bytes} {kind kind' : Kind} (hne : kind ≠ kind')
    (hrefused : Refused f (stateFile h kind) d) : ¬ Refused f (stateFile h kind') d' := by
  intro hother
  obtain ⟨c, hc, hfile⟩ := hrefused.exists_call
  obtain ⟨c', hc', hfile'⟩ := hother.exists_call
  rw [hf c c' hc hc', hfile'] at hfile
  exact tmp_stateFile_ne h hne (Option.some.inj hfile).symm

theorem Single.unlinks (hf : Single f) {n : FileName} (hrefused : Refused f n d) (h : Bytes)
    (kind : Kind) : f.fails (.unlink (stateFile h kind)) = false := by
  rw [← Bool.not_eq_true]
  intro hc'
  obtain ⟨c, hc, hfile⟩ := hrefused.exists_call
  rw [hf c _ hc hc'] at hfile
  cases congrArg FileName.temp (Option.some.inj hfile)

/-- A failed addition changes nothing, unless it has replaced a file it then removes. -/
theorem unchanged_iff_of_failed (hd : Named sha1 toLowercase r.dir) {order : List FileName}
    (horder : Lists order r.dir) (hf : Single f) {now : Nat} {bytes : Bytes} {options : AddOptions}
    {e : AddError}
    (hfailed : Registry.addTorrent sha1 toLowercase f now bytes options r = (.error e, r')) :
    Unchanged sha1 toLowercase r r' ↔ ¬ Overwrites sha1 toLowercase f r bytes := by
  have hcases : Adds sha1 toLowercase f now bytes options r _ :=
    addTorrent_cases f now bytes options r
  rw [hfailed] at hcases
  cases hcases with
  | rejected _ hold =>
      refine iff_of_true (Unchanged.refl hd) ?_
      rintro ⟨m, hparse, hnew, hclash, -, -⟩
      cases hold m hparse with
      | inl hhas =>
          rw [hnew] at hhas
          cases hhas
      | inr hnamed =>
          rw [hclash] at hnamed
          cases hnamed
  | refused hparse htorrent hagree =>
      refine iff_of_true (Unchanged.of_agree hd hagree) ?_
      rintro ⟨m, hparse', -, -, hresume, -⟩
      obtain rfl := Except.ok.inj (hparse.symm.trans hparse')
      exact hf.not_refused (by decide) htorrent hresume
  | @undone m e d hparse hnew hclash hresume hagree =>
      have hremove : d.tryRemove f (stateFile m.infoHash .torrent) =
          d.drop (stateFile m.infoHash .torrent) := by
        unfold Dir.tryRemove Dir.removeFileOk
        rw [(hf.unlinks hresume)]
        rfl
      have hnamed : Named sha1 toLowercase (d.drop (stateFile m.infoHash .torrent)) :=
        ((hd.put_torrent hparse).agree hagree).drop _
      have hgone : hostedOn sha1 toLowercase (d.drop (stateFile m.infoHash .torrent)) m.infoHash =
          none := hostedOn_of_none (by simp [drop_apply])
      have hrest : ∀ n, n.temp = false → n ≠ stateFile m.infoHash .torrent →
          d.drop (stateFile m.infoHash .torrent) n = r.dir n := by
        intro n hn hne
        rw [drop_apply, if_neg hne, hagree n hn, put_apply, if_neg hne]
      rw [hremove]
      constructor
      · rintro hsame ⟨m', hparse', -, -, -, hsome⟩
        obtain rfl := Except.ok.inj (hparse.symm.trans hparse')
        obtain ⟨order', horder'⟩ := horder.exists_of_agree (l := [stateFile m.infoHash .torrent])
          fun n hn hmem => hrest n hn fun heq => hmem (List.mem_singleton.2 heq)
        have hlookup := (hsame.reload .none order order' sound_none horder horder' m.infoHash).1
        rw [(start_spec sound_none hd horder).torrents,
          (start_spec sound_none hnamed horder').torrents, hgone] at hlookup
        rw [← hlookup] at hsome
        cases hsome
      · intro hnot
        have hnone : hostedOn sha1 toLowercase r.dir m.infoHash = none := by
          rw [← Option.not_isSome_iff_eq_none]
          exact fun hsome => hnot ⟨m, hparse, hnew, hclash, hresume, hsome⟩
        have hhosted : ∀ k, hostedOn sha1 toLowercase (d.drop (stateFile m.infoHash .torrent)) k =
            hostedOn sha1 toLowercase r.dir k := by
          intro k
          by_cases heq : k = m.infoHash
          · rw [heq, hgone, hnone]
          · exact hostedOn_congr (hrest _ rfl fun h => heq (stateFile_inj h).1)
              (hrest _ rfl fun h => absurd (stateFile_inj h).2 (by decide))
        have hmagnet : ∀ k, magnetOn (d.drop (stateFile m.infoHash .torrent)) k =
            magnetOn r.dir k := fun k =>
          magnetOn_congr (hrest _ rfl fun h => absurd (stateFile_inj h).2 (by decide))
        refine ⟨rfl, rfl, fun f order order' hf horder horder' k => ?_⟩
        have hs := start_spec hf hd horder
        have hs' := start_spec hf hnamed horder'
        exact ⟨by rw [hs.torrents, hs'.torrents, hhosted],
          by rw [hs.pending, hs'.pending, hhosted, hmagnet]⟩

theorem unchanged_of_failed_magnet (hd : Named sha1 toLowercase r.dir) {uri : Bytes} {e : AddError}
    (hfailed : Registry.addMagnet f uri r = (.error e, r')) : Unchanged sha1 toLowercase r r' := by
  have hcases := addMagnet_cases f uri r
  rw [hfailed] at hcases
  cases hcases with
  | rejected _ => exact Unchanged.refl hd
  | refused hagree => exact Unchanged.of_agree hd hagree

/-- What failing operations should do to a registry. -/
structure FailsSafely (sha1 toLowercase : Bytes → Bytes) (f : Faults) (r : Registry) : Prop where
  remove : ∀ left h e r', r.listed h = true → r.remove f left h = (.error e, r') →
    Keeps sha1 toLowercase r r' h
  addTorrent : ∀ now bytes options e r',
    Registry.addTorrent sha1 toLowercase f now bytes options r = (.error e, r') →
      Unchanged sha1 toLowercase r r'
  addMagnet : ∀ uri e r', Registry.addMagnet f uri r = (.error e, r') →
    Unchanged sha1 toLowercase r r'

/-- What they do.  `Keeps r r` says that a start would have found the torrent before. -/
structure FailsUnless (sha1 toLowercase : Bytes → Bytes) (f : Faults) (r : Registry) : Prop where
  remove : ∀ left h e r', r.listed h = true → r.remove f left h = (.error e, r') →
    (Keeps sha1 toLowercase r r' h ↔ Keeps sha1 toLowercase r r h ∧ ¬ ResumeStays f r h)
  addTorrent : ∀ now bytes options e r',
    Registry.addTorrent sha1 toLowercase f now bytes options r = (.error e, r') →
      (Unchanged sha1 toLowercase r r' ↔ ¬ Overwrites sha1 toLowercase f r bytes)
  addMagnet : ∀ uri e r', Registry.addMagnet f uri r = (.error e, r') →
    Unchanged sha1 toLowercase r r'

/-- Whichever call fails, a failed operation keeps what it should exactly when that call does not
come after another file of the torrent is gone or replaced. -/
theorem failed_calls_keep_registry (hd : Named sha1 toLowercase r.dir) {order : List FileName}
    (horder : Lists order r.dir) (hf : Single f) : FailsUnless sha1 toLowercase f r where
  remove := fun _ _ _ _ hlisted hfailed => keeps_iff_of_failed hd horder hf hlisted hfailed
  addTorrent := fun _ _ _ _ _ hfailed => unchanged_iff_of_failed hd horder hf hfailed
  addMagnet := fun _ _ _ hfailed => unchanged_of_failed_magnet hd hfailed

/-! ## The resume file stays -/

namespace Demo

/-- The options of an operator who asks for nothing. -/
def asIs : AddOptions := ⟨false, false⟩

theorem parse_demo : MetaInfo.parse digest lower (torrentFile "demo") = .ok demoInfo := by
  decide +kernel

/-- The state directory once `demo` is added. -/
def demoDir : Dir :=
  (emptyDir.put (stateFile demoHash .torrent) (torrentFile "demo")).put (stateFile demoHash .resume)
    (newRecord digest demoInfo 0 asIs)

def demoOrder : List FileName := [stateFile demoHash .torrent, stateFile demoHash .resume]

/-- The registry after the next start. -/
def restarted : Registry := Registry.start digest lower .none demoOrder demoDir

/-- The deletion of the resume file fails. -/
def stuck : Faults := ⟨fun c => c = .unlink (stateFile demoHash .resume), 0⟩

theorem named_demo : Named digest lower demoDir :=
  (named_empty.put_torrent parse_demo).put_resume _ _

theorem lists_demo : Lists demoOrder demoDir where
  mem := fun n _ => by
    simp only [demoOrder, demoDir, put_apply, emptyDir, List.mem_cons, List.not_mem_nil, or_false]
    split <;> rename_i h
    · simp [h]
    · split <;> rename_i h'
      · simp [h']
      · simp [h, h']
  nodup := by decide

theorem restarted_spec : Started digest lower demoDir restarted :=
  start_spec sound_none named_demo lists_demo

/-- The start leaves the state directory as it was. -/
theorem restarted_dir : restarted.dir = demoDir := by
  funext n
  obtain hnone | hsame := restarted_spec.sub n
  · by_cases hn : n.kind = .magnet
    · rw [hnone]
      simp only [demoDir, put_apply, emptyDir]
      rw [if_neg (by rintro rfl; cases hn), if_neg (by rintro rfl; cases hn)]
    · exact restarted_spec.beside n hn
  · exact hsame

theorem single_stuck : Single stuck := fun _ _ hc hc' =>
  (of_decide_eq_true hc).trans (of_decide_eq_true hc').symm

theorem failed_calls_keep_restarted : FailsUnless digest lower stuck restarted :=
  failed_calls_keep_registry (restarted_dir ▸ named_demo) (restarted_dir ▸ lists_demo) single_stuck

/-- The removal fails, and the torrent is gone at the next start. -/
theorem failed_remove_forgets : Single stuck ∧ ¬ FailsSafely digest lower stuck restarted := by
  refine ⟨single_stuck, fun h => ?_⟩
  have hlisted : restarted.listed demoHash = true := by decide +kernel
  have hstays : ResumeStays stuck restarted demoHash :=
    ⟨by decide +kernel, by decide +kernel, by decide +kernel⟩
  have hresult : (restarted.remove stuck (Hosted.new (sharedOf digest demoInfo) 0 false false)
      demoHash).1 = .error (.io .other) := by decide +kernel
  generalize hremove : restarted.remove stuck _ demoHash = out at hresult
  obtain ⟨result, r'⟩ := out
  obtain rfl : result = .error (.io .other) := hresult
  have hkeeps := h.remove _ _ _ _ hlisted hremove
  exact ((keeps_iff_of_failed (restarted_dir ▸ named_demo) (restarted_dir ▸ lists_demo) single_stuck
    hlisted hremove).1 hkeeps).2 hstays

end Demo

end Clove.Daemon
