import Clove.Daemon.Order

/-!
# Resume records

A record is read back only if every piece it calls verified is one it has.  The two sets are
read at different moments, from an engine that goes on downloading.  `stop_live` reads `verified`
first and `have` after it; `persist_progress` reads `have` first, so a piece that completes in
between is verified and not had, and the record is refused at the next start.

`Consistent` is the invariant of the runs in which that does not happen (`Steady`).
-/

namespace Clove.Daemon

open Torrent (Shared System Stop)

/-! ## Records that load -/

/-- What `MetaInfo::parse` promises of a torrent. -/
structure Hostable (sh : Shared) : Prop where
  infoHash : sh.infoHash.length = 20
  pos : 1 ≤ sh.numPieces
  pieces : sh.numPieces < 4294967296
  files : Bencode.inUsize sh.storage.regions.length = true

/-- Every piece of the one is in the other. -/
def Within (a b : Bitfield) : Prop := ∀ i, a.has i = true → b.has i = true

theorem Within.refl (b : Bitfield) : Within b b := fun _ => id

theorem Within.trans {a b c : Bitfield} (hab : Within a b) (hbc : Within b c) : Within a c :=
  fun i hi => hbc i (hab i hi)

instance (a b : Bitfield) : Decidable (Within a b) :=
  decidable_of_iff (∀ i < a.len, a.has i = true → b.has i = true)
    ⟨fun h i hi => h i (Bitfield.lt_of_has hi) hi, fun h i _ => h i⟩

/-- The sets and the priorities are those of this torrent. -/
structure Sized (sh : Shared) (x : Hosted) : Prop where
  have_ : x.have_.len = sh.numPieces
  verified : x.verified.len = sh.numPieces
  ranked : Ranked sh x.priorities

variable {sh : Shared} {limits : Limits} {h h' : Host} {x : Hosted}

theorem Sized.shaped (hs : Sized sh x) (hh : Hostable sh) : (x.resume sh).Shaped where
  infoHash := hh.infoHash
  pos := hh.pos.trans_eq hs.have_.symm
  numPieces := hs.have_.trans_lt hh.pieces
  have_ := ⟨x.have_, rfl, rfl⟩
  verified := ⟨x.verified, rfl, hs.verified.trans hs.have_.symm⟩
  priorities := hs.ranked.2
  files := by
    rw [show (x.resume sh).priorities = x.priorities from rfl, hs.ranked.1]
    exact hh.files
  pauseReason := by
    unfold Hosted.resume
    simp only
    split
    · rename_i why _
      cases why <;> rfl
    · rfl

/-- A record that verifies only what it has is read back. -/
theorem Sized.decode_resume (hs : Sized sh x) (hh : Hostable sh)
    (hwithin : Within x.verified x.have_) :
    Resume.decode (x.resume sh).encode = .ok (x.resume sh).saturated := by
  have hover : Resume.overclaims (x.resume sh).verified (x.resume sh).have_ = false :=
    (Resume.overclaims_bits (hs.verified.trans hs.have_.symm)).2 hwithin
  rw [Resume.decode_encode (hs.shaped hh), hover]
  rfl

/-- And it is loaded. -/
theorem Sized.loadOne_resume (hs : Sized sh x) (hh : Hostable sh)
    (hwithin : Within x.verified x.have_) :
    loadOne sh (x.resume sh).encode =
      .ok (fromResume (x.resume sh).saturated x.have_ x.verified) := by
  have hhave : Bitfield.fromBytes x.have_.bits x.have_.len = .ok x.have_ :=
    Bitfield.fromBytes_bits _
  have hverified : Bitfield.fromBytes x.verified.bits x.have_.len = .ok x.verified := by
    rw [hs.have_, ← hs.verified]
    exact Bitfield.fromBytes_bits _
  unfold loadOne
  rw [hs.decode_resume hh hwithin]
  simp only [Except.mapError, Except.ok_bind]
  rw [if_neg (by exact fun hne => hne rfl), if_neg (by exact fun hne => hne hs.have_),
    if_neg (by exact fun hne => hne hs.ranked.1)]
  rw [show (x.resume sh).saturated.have_ = x.have_.bits from rfl,
    show (x.resume sh).saturated.verified = x.verified.bits from rfl,
    show (x.resume sh).saturated.numPieces = x.have_.len from rfl, hhave, hverified]
  rfl

/-! ## The invariant -/

/-- What `verified` is a part of, and what it is about to become. -/
def Trusted (h : Host) : Prop :=
  match h.agenda with
  | .sync none before _ :: _ =>
      Within before h.hosted.have_ ∧ Within h.hosted.verified h.hosted.have_
  | .unregister :: _ => Within h.hosted.verified h.held
  | .flush _ :: _ => Within h.hosted.verified h.held
  | .sync (some _) before _ :: _ => Within before h.held ∧ Within h.hosted.verified h.held
  | .snapshot _ :: _ => Within h.hosted.verified h.held
  | _ => Within h.hosted.verified h.hosted.have_

/-- The sets a scan or a sync is working towards are of this torrent. -/
structure Tracked (sh : Shared) (h : Host) : Prop where
  scan : ∀ next found, h.scan = some (.hashing next found) → found.len = sh.numPieces
  done : ∀ found, h.scan = some (.done (.ok found)) → found.len = sh.numPieces
  sync : ∀ closing before files rest, h.agenda = .sync closing before files :: rest →
    before.len = sh.numPieces

/-- A record of this torrent that loads. -/
def Loads (sh : Shared) (r : Resume) : Prop :=
  ∃ x : Hosted, Sized sh x ∧ Within x.verified x.have_ ∧ r = x.resume sh

structure Consistent (sh : Shared) (h : Host) : Prop where
  orderly : Orderly sh h
  sized : Sized sh h.hosted
  tracked : Tracked sh h
  grows : h.hosted.live.isSome → Within h.hosted.have_ h.held
  trusted : Trusted h
  record : ∃ x, loadOne sh h.record = .ok x
  written : ∀ r ∈ h.written, Loads sh r

/-- No piece has completed since the pieces were read, when `persist_progress` begins to
sync. -/
def Steady : Action → Host → Prop
  | .registry _ _, h =>
      match h.agenda with
      | .persist :: _ => h.hosted.live.isSome → Within h.held h.hosted.have_
      | _ => True
  | _, _ => True

instance (a : Action) (h : Host) : Decidable (Steady a h) :=
  decidable_of_bool
    (match a with
      | .registry _ _ =>
          match h.agenda with
          | .persist :: _ => decide (h.hosted.live.isSome → Within h.held h.hosted.have_)
          | _ => true
      | _ => true) (by
    unfold Steady
    split
    · split <;> rename_i hagenda
      · cases hlive : h.hosted.live <;> simp [hagenda, hlive]
      · simp
    · simp)

theorem trusted_of_plain (hplain : Plain h.agenda) :
    Trusted h ↔ Within h.hosted.verified h.hosted.have_ := by
  unfold Trusted
  split
  all_goals first
    | rfl
    | rename_i hagenda
      exact absurd hplain (not_plain rfl hagenda)

/-- Nothing is under way, and all that is published is verified. -/
theorem trusted_of_same (hidle : h.agenda = []) (hsame : h.hosted.verified = h.hosted.have_) :
    Trusted h := by
  rw [trusted_of_plain (hidle ▸ plain_nil), hsame]
  exact .refl _

theorem Tracked.of_plain (ht : Tracked sh h) (hscan : h'.scan = h.scan)
    (hplain : Plain h'.agenda) : Tracked sh h' where
  scan := hscan ▸ ht.scan
  done := hscan ▸ ht.done
  sync := fun _ _ _ _ hagenda => absurd hplain (not_plain rfl hagenda)

theorem Tracked.of_head {i : Instr} {rest : List Instr} (ht : Tracked sh h)
    (hscan : h'.scan = h.scan) (hagenda : h'.agenda = i :: rest)
    (hi : ∀ closing before files, i = .sync closing before files → before.len = sh.numPieces) :
    Tracked sh h' where
  scan := hscan ▸ ht.scan
  done := hscan ▸ ht.done
  sync := fun closing before files _ hsync =>
    hi closing before files (List.cons.inj (hagenda.symm.trans hsync)).1

/-- Bookkeeping keeps consistency, if the pieces held and verified fit. -/
theorem Consistent.kept {have_ verified : Bitfield} (hc : Consistent sh h) (ho : Orderly sh h')
    (hkept : Kept sh h h' have_ verified) (hhave : have_.len = sh.numPieces)
    (hverified : verified.len = sh.numPieces) (ht : Tracked sh h')
    (hgrows : h.hosted.live.isSome → Within have_ h.held) (htrusted : Trusted h') :
    Consistent sh h' where
  orderly := ho
  sized := by
    refine ⟨hkept.have_ ▸ hhave, hkept.verified ▸ hverified, ?_⟩
    rcases hkept.priorities with hsame | hranked
    · rw [hsame]
      exact hc.sized.ranked
    · exact hranked
  tracked := ht
  grows := by
    intro hlive
    rw [hkept.live] at hlive
    rw [hkept.have_, held_of_engines hkept.engines (hc.orderly.current_isSome hlive)]
    exact hgrows hlive
  trusted := htrusted
  record := hkept.record ▸ hc.record
  written := hkept.written ▸ hc.written

/-- A change of the agenda and the files alone. -/
theorem Consistent.moved {agenda : List Instr} {files : Files} (hc : Consistent sh h)
    (ho : Orderly sh { h with agenda := agenda, files := files })
    (ht : Tracked sh { h with agenda := agenda, files := files })
    (htrusted : Trusted { h with agenda := agenda, files := files }) :
    Consistent sh { h with agenda := agenda, files := files } :=
  ⟨ho, hc.sized, ht, hc.grows, htrusted, hc.record, hc.written⟩

theorem within_haltNext (s : System) :
    Within s.engine.st.picker.haveField s.haltNext.engine.st.picker.haveField := by
  unfold System.haltNext
  split <;> exact .refl _

/-- The pieces of an engine that took a step. -/
theorem within_step {s : System} (hs : s.Addressed sh) (a : Torrent.Action) :
    Within s.engine.st.picker.haveField (System.step sh a s).engine.st.picker.haveField :=
  (Torrent.keeps_step a hs.seated).held

theorem within_held {s : System} (hcurrent : h.current = some s) :
    Within s.engine.st.picker.haveField h.held := by
  rw [held_eq hcurrent]
  exact .refl _

theorem held_haltNext {s : System} (hcurrent : h.current = some s) :
    (h.modifyCurrent System.haltNext).held = h.held := by
  rw [held_modifyCurrent _ hcurrent, held_eq hcurrent]
  unfold System.haltNext
  split <;> rfl

theorem Trusted.mono (ht : Trusted h) (hagenda : h'.agenda = h.agenda)
    (hhave : h'.hosted.have_ = h.hosted.have_) (hverified : h'.hosted.verified = h.hosted.verified)
    (hheld : Within h.held h'.held) : Trusted h' := by
  unfold Trusted at ht ⊢
  rw [hagenda, hhave, hverified]
  split <;> rename_i heq <;> simp only [heq] at ht
  all_goals first
    | exact ht
    | exact ht.trans hheld
    | exact ⟨ht.1.trans hheld, ht.2.trans hheld⟩

/-- The pieces of the newest engine after one of the engines took a step. -/
theorem within_stepped {k : Nat} {s s' : System} (files : Files) (hs : h.engines[k]? = some s)
    (hgrow : Within s.engine.st.picker.haveField s'.engine.st.picker.haveField) :
    Within h.held ({ h with engines := h.engines.set k s', files := files } : Host).held := by
  obtain ⟨s₀, hcurrent⟩ : ∃ s₀, h.current = some s₀ := by
    cases hnone : h.current with
    | none =>
        rw [List.getLast?_eq_none_iff.1 hnone] at hs
        cases hs
    | some s₀ => exact ⟨s₀, rfl⟩
  obtain ⟨old, hengines⟩ := current_eq_some.1 hcurrent
  have hk : k < old.length + 1 := by
    obtain ⟨hlt, -⟩ := List.getElem?_eq_some_iff.1 hs
    simpa [hengines] using hlt
  rw [held_eq hcurrent]
  rw [hengines] at hs
  by_cases hold : k < old.length
  · have hlast : ({ h with engines := h.engines.set k s', files := files } : Host).current =
        some s₀ := by
      rw [Host.current, hengines, List.set_append_left k s' hold, List.getLast?_concat]
    rw [held_eq hlast]
    exact .refl _
  · obtain rfl : k = old.length := by omega
    obtain rfl : s₀ = s := by simpa using hs
    have hlast : ({ h with engines := h.engines.set old.length s', files := files } : Host).current =
        some s' := by
      rw [Host.current, hengines, List.set_append_right _ s' (Nat.le_refl _)]
      simp
    rw [held_eq hlast]
    exact hgrow

/-- A new engine holds what it is given. -/
theorem within_new {have_ : Bitfield} {mode : Mode} {now : Nat} {disk : Disk} {l : List Nat}
    (hlen : have_.len = sh.numPieces) :
    Within have_ (System.step sh (.control (.setPiecePriorities l))
      (System.new sh have_ mode now disk)).engine.st.picker.haveField := by
  refine Within.trans (fun i hi => ?_)
    (within_step (Torrent.addressed_new sh have_ mode now disk) _)
  exact Torrent.has_new.2 ⟨hlen ▸ Bitfield.lt_of_has hi, hi⟩

/-- The newest engine is told something, and keeps its pieces. -/
theorem Consistent.modifyCurrent {f : System → System} {agenda : List Instr} {s : System}
    (hc : Consistent sh h) (ho : Orderly sh { h.modifyCurrent f with agenda := agenda })
    (hcurrent : h.current = some s)
    (hf : Within s.engine.st.picker.haveField (f s).engine.st.picker.haveField)
    (ht : Tracked sh { h.modifyCurrent f with agenda := agenda })
    (htrusted : Trusted { h.modifyCurrent f with agenda := agenda }) :
    Consistent sh { h.modifyCurrent f with agenda := agenda } := by
  refine ⟨ho, hc.sized, ht, fun hlive => ?_, htrusted, hc.record, hc.written⟩
  refine (hc.grows hlive).trans ?_
  rw [held_eq hcurrent]
  exact hf.trans (within_held (current_modifyCurrent f hcurrent))

/-- A torrent that was loaded has the sets and priorities of its metainfo, and only what is
verified. -/
theorem sized_of_load {record : Bytes} (hload : loadOne sh record = .ok x) :
    Sized sh x ∧ x.verified = x.have_ := by
  obtain ⟨r, have_, verified, hdecode, -, -, hpriorities, -, hverified, rfl⟩ := loadOne_ok hload
  have hlen := (Bitfield.fromBytes_ok hverified).2
  exact ⟨⟨hlen, hlen, hpriorities, Resume.priorities_of_decode hdecode⟩, rfl⟩

theorem Loaded.consistent (hl : Loaded sh h) (hwritten : ∀ r ∈ h.written, Loads sh r) :
    Consistent sh h := by
  obtain ⟨hsized, hsame⟩ := sized_of_load hl.record
  refine ⟨hl.orderly, hsized, ⟨?_, ?_, ?_⟩, fun hlive => ?_, trusted_of_same hl.agenda hsame,
    ⟨_, hl.record⟩, hwritten⟩
  · intro next found hscan
    rw [hl.scan] at hscan
    split at hscan <;> cases hscan
  · intro found hscan
    rw [hl.scan] at hscan
    split at hscan <;> cases hscan
  · intro closing before files rest hagenda
    rw [hl.agenda] at hagenda
    cases hagenda
  · rw [loadOne_quiet hl.record] at hlive
    cases hlive

/-- Starting again from a record that loads. -/
theorem Consistent.restart (hc : Consistent sh h) (keep : Nat → Bool) :
    Consistent sh (h.restart sh keep) := by
  obtain ⟨x, hload⟩ := hc.record
  refine (loaded_restart hload keep).consistent ?_
  unfold Host.restart
  simp only [hload]
  exact hc.written

/-- A scan gets on. -/
theorem Consistent.scanned {ok : Bool} {fault : Nat → Bool} (hc : Consistent sh h) :
    Consistent sh (h.stepScan sh limits ok fault) := by
  have ho : Orderly sh (h.stepScan sh limits ok fault) := hc.orderly.scanned
  have hlens : (∀ next found, (h.stepScan sh limits ok fault).scan =
      some (.hashing next found) → found.len = sh.numPieces) ∧
      ∀ found, (h.stepScan sh limits ok fault).scan = some (.done (.ok found)) →
        found.len = sh.numPieces := by
    unfold Host.stepScan
    split
    · split
      · simp
      · simp
    · rename_i next found hscan
      have hlen := hc.tracked.scan next found hscan
      split
      · split
        · refine ⟨fun next' found' heq => ?_, fun found' heq => ?_⟩
          · cases heq
            split
            · exact (Bitfield.len_set _ _).trans hlen
            · exact hlen
          · cases heq
        · simp
      · refine ⟨fun next' found' heq => ?_, fun found' heq => ?_⟩
        · cases heq
        · cases heq
          exact hlen
    · exact ⟨hc.tracked.scan, hc.tracked.done⟩
  obtain ⟨files, scan, heq, -⟩ := stepScan_eq sh limits h ok fault
  rw [heq] at ho hlens ⊢
  exact ⟨ho, hc.sized, ⟨hlens.1, hlens.2, hc.tracked.sync⟩, hc.grows, hc.trusted, hc.record,
    hc.written⟩

/-- Every step keeps consistency, if no piece completes between the two reads of
`persist_progress`. -/
theorem Consistent.step {a : Action} (hc : Consistent sh h) (hh : Hostable sh)
    (hsteady : Steady a h) : Consistent sh (Host.step sh limits a h) := by
  have ho := hc.orderly
  have ho' : Orderly sh (Host.step sh limits a h) := ho.step a
  have hmove := step_move limits ho a
  generalize Host.step sh limits a h = h' at hmove ho'
  cases hmove with
  | noted hplain hplain' hkept =>
      refine hc.kept ho' hkept hc.sized.have_ hc.sized.verified
        (hc.tracked.of_plain hkept.scan hplain') hc.grows ?_
      rw [trusted_of_plain hplain', hkept.have_, hkept.verified]
      exact (trusted_of_plain hplain).1 hc.trusted
  | refreshed hplain hplain' hlive hkept =>
      refine hc.kept ho' hkept (ho.held_len (ho.current_isSome hlive)) hc.sized.verified
        (hc.tracked.of_plain hkept.scan hplain') (fun _ => .refl _) ?_
      rw [trusted_of_plain hplain', hkept.have_, hkept.verified]
      exact ((trusted_of_plain hplain).1 hc.trusted).trans (hc.grows hlive)
  | @wrote ok _ _ _ agenda hplain hplain' _ _ =>
      have hwithin := (trusted_of_plain hplain).1 hc.trusted
      have hloads : Loads sh (h.hosted.resume sh) := ⟨h.hosted, hc.sized, hwithin, rfl⟩
      refine ⟨ho', hc.sized, hc.tracked.of_plain rfl hplain', hc.grows,
        (trusted_of_plain hplain').2 hwithin, ?_, fun r hr => ?_⟩
      · cases ok with
        | true => exact ⟨_, hc.sized.loadOne_resume hh hwithin⟩
        | false => exact hc.record
      · rcases List.mem_append.1 hr with hr | hr
        · exact hc.written r hr
        · rw [List.mem_singleton.1 hr]
          exact hloads
  | tuned hplain hplain' hlive _ _ =>
      obtain ⟨s, hcurrent, -⟩ := ho.live hlive
      refine hc.modifyCurrent ho' hcurrent
        (within_step (ho.addressed s (List.mem_of_getLast? hcurrent)) _)
        (hc.tracked.of_plain rfl hplain') ?_
      exact (trusted_of_plain hplain').2 ((trusted_of_plain hplain).1 hc.trusted)
  | @started _ now _ l _ hplain hplain' hlive _ _ =>
      refine ⟨ho', ⟨hc.sized.have_, hc.sized.verified, hc.sized.ranked⟩,
        hc.tracked.of_plain rfl hplain', fun _ => ?_, ?_, hc.record, hc.written⟩
      · refine Within.trans ?_ (within_held (by exact List.getLast?_concat))
        exact within_new hc.sized.have_
      · exact (trusted_of_plain hplain').2 ((trusted_of_plain hplain).1 hc.trusted)
  | @taken _ base rest hplain _ hlive =>
      have hsome : h.hosted.live.isSome := by rw [hlive]; rfl
      refine ⟨ho', ⟨hc.sized.have_, hc.sized.verified, hc.sized.ranked⟩,
        hc.tracked.of_head rfl rfl (by rintro _ _ _ ⟨⟩), fun hnone => ?_, ?_, hc.record, hc.written⟩
      · cases hnone
      · refine Within.trans ((trusted_of_plain hplain).1 hc.trusted) ?_
        refine (hc.grows hsome).trans ?_
        rw [held_of_engines (by exact rfl) (ho.current_isSome hsome)]
        exact .refl _
  | persists hagenda hrest hlive =>
      unfold Steady at hsteady
      simp only [hagenda] at hsteady
      refine hc.moved ho' (hc.tracked.of_head rfl rfl ?_) ⟨hsteady hlive, ?_⟩
      · rintro _ _ _ ⟨⟩
        exact ho.held_len (ho.current_isSome hlive)
      · have hplain : Plain h.agenda := hagenda ▸ .cons rfl hrest
        exact (trusted_of_plain hplain).1 hc.trusted
  | @synced _ closing before file files rest hagenda =>
      have hlen := hc.tracked.sync _ _ _ _ hagenda
      have htrusted := hc.trusted
      unfold Trusted at htrusted
      simp only [hagenda] at htrusted
      refine hc.moved ho' (hc.tracked.of_head rfl rfl ?_) ?_
      · rintro _ _ _ ⟨⟩
        exact hlen
      · cases closing <;> exact htrusted
  | @saved _ before files rest _ hagenda hrest hagenda' hkept =>
      have hlen := hc.tracked.sync _ _ _ _ hagenda
      have hlive := ho.saving hagenda
      have hplain' : Plain h'.agenda := hagenda' ▸ .cons rfl hrest
      have htrusted := hc.trusted
      unfold Trusted at htrusted
      simp only [hagenda] at htrusted
      rcases hkept with hkept | ⟨-, hkept⟩
      · refine hc.kept ho' hkept hc.sized.have_ hc.sized.verified
          (hc.tracked.of_plain hkept.scan hplain') hc.grows ?_
        rw [trusted_of_plain hplain', hkept.have_, hkept.verified]
        exact htrusted.2
      · refine hc.kept ho' hkept hc.sized.have_ hlen (hc.tracked.of_plain hkept.scan hplain')
          hc.grows ?_
        rw [trusted_of_plain hplain', hkept.have_, hkept.verified]
        exact htrusted.1
  | unrouted hagenda _ _ hcurrent _ =>
      have htrusted := hc.trusted
      unfold Trusted at htrusted
      simp only [hagenda] at htrusted
      refine hc.modifyCurrent ho' hcurrent (within_haltNext _)
        (hc.tracked.of_head rfl rfl (by rintro _ _ _ ⟨⟩)) ?_
      refine Within.trans htrusted ?_
      rw [← held_haltNext hcurrent]
      exact .refl _
  | flushes hagenda =>
      obtain ⟨s, hcurrent, -, -, -⟩ := ho.flushing rfl hagenda
      have htrusted := hc.trusted
      unfold Trusted at htrusted
      simp only [hagenda] at htrusted
      refine hc.moved ho' (hc.tracked.of_head rfl rfl ?_) ⟨.refl _, htrusted⟩
      rintro _ _ _ ⟨⟩
      exact ho.held_len (by rw [hcurrent]; rfl)
  | @flushed _ base before files rest _ hagenda hagenda' hkept =>
      obtain ⟨s, hcurrent, -, -, hlive⟩ := ho.flushing rfl hagenda
      have hlen := hc.tracked.sync _ _ _ _ hagenda
      have htrusted := hc.trusted
      unfold Trusted at htrusted
      simp only [hagenda] at htrusted
      rcases hkept with hkept | ⟨-, hkept⟩
      · refine hc.kept ho' hkept hc.sized.have_ hc.sized.verified
          (hc.tracked.of_head hkept.scan hagenda' (by rintro _ _ _ ⟨⟩)) hc.grows ?_
        unfold Trusted
        simp only [hagenda']
        rw [hkept.verified, held_of_engines hkept.engines (by rw [hcurrent]; rfl)]
        exact htrusted.2
      · refine hc.kept ho' hkept hc.sized.have_ hlen
          (hc.tracked.of_head hkept.scan hagenda' (by rintro _ _ _ ⟨⟩)) hc.grows ?_
        unfold Trusted
        simp only [hagenda']
        rw [hkept.verified, held_of_engines hkept.engines (by rw [hcurrent]; rfl)]
        exact htrusted.1
  | snapped hagenda hagenda' hkept =>
      obtain ⟨s, hcurrent, -, -, hlive⟩ := ho.flushing rfl hagenda
      have htrusted := hc.trusted
      unfold Trusted at htrusted
      simp only [hagenda] at htrusted
      refine hc.kept ho' hkept (ho.held_len (by rw [hcurrent]; rfl)) hc.sized.verified
        (hc.tracked.of_head hkept.scan hagenda' (by rintro _ _ _ ⟨⟩)) (fun _ => .refl _) ?_
      unfold Trusted
      simp only [hagenda']
      rw [hkept.have_, hkept.verified]
      exact htrusted
  | raised hagenda _ _ hcurrent _ =>
      have htrusted := hc.trusted
      unfold Trusted at htrusted
      simp only [hagenda] at htrusted
      exact hc.modifyCurrent ho' hcurrent (within_haltNext _)
        (hc.tracked.of_head rfl rfl (by rintro _ _ _ ⟨⟩)) htrusted
  | listed hagenda _ _ hcurrent _ =>
      have htrusted := hc.trusted
      unfold Trusted at htrusted
      simp only [hagenda] at htrusted
      exact hc.modifyCurrent ho' hcurrent (within_haltNext _)
        (hc.tracked.of_head rfl rfl (by rintro _ _ _ ⟨⟩)) htrusted
  | ended hagenda hrest _ _ _ =>
      have htrusted := hc.trusted
      unfold Trusted at htrusted
      simp only [hagenda] at htrusted
      exact hc.moved ho' (hc.tracked.of_plain rfl hrest) ((trusted_of_plain hrest).2 htrusted)
  | stayed => exact hc
  | began hidle hlive =>
      have hplain : Plain h.agenda := hidle ▸ plain_nil
      refine ⟨ho', ⟨hc.sized.have_, hc.sized.verified, hc.sized.ranked⟩, ⟨?_, ?_, hc.tracked.sync⟩,
        hc.grows, ?_, hc.record, hc.written⟩
      · rintro _ _ ⟨⟩
      · rintro _ ⟨⟩
      · exact (trusted_of_plain hplain).2 ((trusted_of_plain hplain).1 hc.trusted)
  | failed hidle _ _ =>
      have hplain : Plain h.agenda := hidle ▸ plain_nil
      refine ⟨ho', ⟨hc.sized.have_, hc.sized.verified, hc.sized.ranked⟩, ⟨?_, ?_, hc.tracked.sync⟩,
        hc.grows, ?_, hc.record, hc.written⟩
      · rintro _ _ ⟨⟩
      · rintro _ ⟨⟩
      · exact (trusted_of_plain hplain).2 ((trusted_of_plain hplain).1 hc.trusted)
  | published hidle hscan =>
      have hlen := hc.tracked.done _ hscan
      have hlive := (ho.scanning (ho.scan (by rw [hscan]; rfl))).1
      refine ⟨ho', ⟨hlen, hlen, hc.sized.ranked⟩, ⟨?_, ?_, ?_⟩, fun hsome => ?_, .refl _,
        hc.record, hc.written⟩
      · rintro _ _ ⟨⟩
      · rintro _ ⟨⟩
      · rintro _ _ _ _ ⟨⟩
      · rw [show h.hosted.live = none from hlive] at hsome
        cases hsome
  | scanned => exact hc.scanned
  | @stepped _ k a₀ s hhalt hs =>
      have hmem := List.mem_of_getElem? hs
      have hgrow := within_stepped h.files hs
        (within_step (addressed_onDisk (ho.addressed s hmem) h.files.disk) a₀)
      refine ⟨ho', hc.sized, ⟨hc.tracked.scan, hc.tracked.done, hc.tracked.sync⟩,
        fun hlive => (hc.grows hlive).trans hgrow, hc.trusted.mono rfl rfl rfl hgrow, hc.record,
        hc.written⟩
  | @crashed keep => exact hc.restart keep

theorem consistent_new (hh : Hostable sh) (now : Nat) (paused sequential network : Bool)
    (disk : Disk) : Consistent sh (Host.new sh now paused sequential network disk) := by
  have hsized : Sized sh (Hosted.new sh now paused sequential) := by
    refine ⟨rfl, rfl, List.length_replicate, fun p hp => ?_⟩
    rw [List.eq_of_mem_replicate hp]
    decide
  have hloads : Loads sh ((Hosted.new sh now paused sequential).resume sh) :=
    ⟨_, hsized, .refl _, rfl⟩
  refine ⟨orderly_new now paused sequential network disk, hsized, ⟨?_, ?_, ?_⟩, ?_, .refl _,
    ⟨_, hsized.loadOne_resume hh (.refl _)⟩, fun r hr => ?_⟩
  · rintro _ _ ⟨⟩
  · rintro _ ⟨⟩
  · rintro _ _ _ _ ⟨⟩
  · intro hlive
    cases hlive
  · rw [List.mem_singleton.1 hr]
    exact hloads

theorem Begins.consistent (hb : Begins sh h) (hh : Hostable sh) : Consistent sh h := by
  cases hb with
  | added now paused sequential network disk =>
      exact consistent_new hh now paused sequential network disk
  | loaded hload =>
      obtain ⟨hl, hnone⟩ := loaded_load hload
      refine hl.consistent fun r hr => ?_
      rw [hnone] at hr
      cases hr

/-! ## The result -/

/-- Every record handed to `write_resume_file` verifies only what it has, is read back, and is
loaded at the next start. -/
def ReadsBack (sh : Shared) (h : Host) : Prop :=
  ∀ r ∈ h.written, (∀ i, bitAt r.verified i = true → bitAt r.have_ i = true) ∧
    (∃ r', Resume.decode r.encode = .ok r') ∧ ∃ x, loadOne sh r.encode = .ok x

theorem Loads.readsBack {r : Resume} (hr : Loads sh r) (hh : Hostable sh) :
    (∀ i, bitAt r.verified i = true → bitAt r.have_ i = true) ∧
      (∃ r', Resume.decode r.encode = .ok r') ∧ ∃ x, loadOne sh r.encode = .ok x := by
  obtain ⟨x, hsized, hwithin, rfl⟩ := hr
  have hload := hsized.loadOne_resume hh hwithin
  obtain ⟨r', -, -, hdecode, -⟩ := loadOne_ok hload
  refine ⟨fun i hi => ?_, ⟨r', hdecode⟩, ⟨_, hload⟩⟩
  have hlt : i < x.verified.len := by
    by_contra hge
    rw [show bitAt (x.resume sh).verified i = false from
      x.verified.spare i (Nat.le_of_not_lt hge)] at hi
    cases hi
  have hhas := hwithin i (by
    rw [Bitfield.has, Bool.and_eq_true, decide_eq_true_eq]
    exact ⟨hlt, hi⟩)
  rw [Bitfield.has, Bool.and_eq_true] at hhas
  exact hhas.2

/-- If no piece completes between the two reads of `persist_progress`, every record reads
back. -/
theorem records_read_back (hh : Hostable sh) (hb : Begins sh h) (acts : List Action)
    (hsteady : Machine.Along (Host.step sh limits) Steady acts h) :
    ReadsBack sh (Host.run sh limits acts h) := by
  have hc := Machine.run_induction_along (P := Consistent sh)
    (fun _ _ hsteady hc => hc.step hh hsteady) hsteady (hb.consistent hh)
  exact fun r hr => (hc.written r hr).readsBack hh

namespace OneByte

open Torrent.OneByte (shared dest)

/-- A peer connects to the running engine and delivers the piece, and the registry saves
around it: `before` instructions are carried out before the piece completes. -/
def savedAround (before after : Nat) : List Action :=
  let peer := .engine 0 (.accept (dest 0) ⟨false, false⟩) :: delivers 0 0
  scanned ++ peer.take 7 ++ .command .persistProgress :: registry before ++ peer.drop 7 ++
    registry after

/-- The piece completes after the refresh and before the sync: the record verifies a piece it
does not have. -/
theorem record_not_read_back :
    ¬ ReadsBack shared (Host.run shared noLimits (savedAround 4 4) host) := by
  intro hreads
  have hbad : (Host.run shared noLimits (savedAround 4 4) host).written.any
      (fun r => bitAt r.verified 0 && !bitAt r.have_ 0) = true := by decide +kernel
  obtain ⟨r, hr, hbad⟩ := List.any_eq_true.1 hbad
  rw [Bool.and_eq_true, Bool.not_eq_true'] at hbad
  have := (hreads r hr).1 0 hbad.1
  rw [hbad.2] at this
  cases this

/-- The piece completes before the refresh. -/
theorem records_read_back_after_refresh :
    ReadsBack shared (Host.run shared noLimits (savedAround 0 8) host) :=
  records_read_back ⟨by decide, by decide, by decide, by decide⟩
    (.added 0 false false true fun _ => []) _ (by decide +kernel)

end OneByte

end Clove.Daemon
