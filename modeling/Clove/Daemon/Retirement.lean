import Clove.Daemon.Order

/-!
# Engines retire

When a torrent is paused its engine is stopped for good, and when it is resumed it gets a new
one.  Only the newest engine may still write to the files, and only until it is stopped
(`Retired`).  That is so in every run in which no attach is past its last look at the stop flag
when `disconnect_all` lists the peers (`Gated`).
-/

namespace Clove.Daemon

open Torrent (Shared System Stop)

variable {sh : Shared} {limits : Limits} {h h' : Host}

/-! ## What has retired stays so -/

/-- The daemon stays up. -/
def Action.isCrash : Action → Bool
  | .crash _ => true
  | _ => false

theorem atRest_onDisk {s : System} (hs : s.AtRest) (d : Disk) : (Host.onDisk d s).AtRest :=
  ⟨hs.listed, hs.clear, hs.peers⟩

theorem getElem?_modifyCurrent {f : System → System} {k : Nat} {s s₀ : System}
    (hcurrent : h.current = some s₀) (hs : h.engines[k]? = some s) (hne : s ≠ s₀) :
    (h.modifyCurrent f).engines[k]? = some s := by
  obtain ⟨old, hengines⟩ := current_eq_some.1 hcurrent
  rw [engines_modifyCurrent f hengines]
  rw [hengines] at hs
  by_cases hk : k < old.length
  · rw [List.getElem?_append_left hk] at hs ⊢
    exact hs
  · rw [List.getElem?_append_right (Nat.le_of_not_lt hk)] at hs
    exact absurd (List.mem_singleton.1 (List.mem_of_getElem? hs)) hne

/-- An engine at rest stays at rest and writes nothing, whatever else happens. -/
theorem atRest_step (limits : Limits) (ho : Orderly sh h) {a : Action} (hup : a.isCrash = false) {k : Nat}
    {s : System} (hs : h.engines[k]? = some s) (hrest : s.AtRest) :
    ∃ s', (Host.step sh limits a h).engines[k]? = some s' ∧ s'.AtRest ∧
      s'.engine.trace = s.engine.trace := by
  have hmove := step_move limits ho a
  generalize Host.step sh limits a h = h' at hmove
  have hsame : h'.engines = h.engines → ∃ s', h'.engines[k]? = some s' ∧ s'.AtRest ∧
      s'.engine.trace = s.engine.trace := fun heq => ⟨s, heq ▸ hs, hrest, rfl⟩
  -- the engine the registry talks to is not listed yet
  have hother : ∀ {s₀ : System} {f : System → System} {agenda : List Instr},
      h.current = some s₀ → s₀.stop ≠ .listed →
      ∃ s', ({ h.modifyCurrent f with agenda := agenda } : Host).engines[k]? = some s' ∧
        s'.AtRest ∧ s'.engine.trace = s.engine.trace := by
    intro s₀ f agenda hcurrent hstop
    refine ⟨s, getElem?_modifyCurrent hcurrent hs ?_, hrest, rfl⟩
    rintro rfl
    exact hstop hrest.listed
  cases hmove with
  | noted _ _ hkept => exact hsame hkept.engines
  | refreshed _ _ _ hkept => exact hsame hkept.engines
  | wrote _ _ _ _ => exact hsame rfl
  | tuned _ _ hlive _ _ =>
      obtain ⟨s₀, hcurrent, hrunning⟩ := ho.live hlive
      exact hother hcurrent (by simp [hrunning])
  | started _ _ _ _ _ =>
      obtain ⟨hlt, -⟩ := List.getElem?_eq_some_iff.1 hs
      exact ⟨s, (List.getElem?_append_left hlt).trans hs, hrest, rfl⟩
  | taken _ _ _ => exact hsame rfl
  | persists _ _ _ => exact hsame rfl
  | synced _ => exact hsame rfl
  | saved _ _ _ hkept =>
      rcases hkept with hkept | ⟨-, hkept⟩
      · exact hsame hkept.engines
      · exact hsame hkept.engines
  | unrouted _ _ _ hcurrent hstop => exact hother hcurrent (by simp [hstop])
  | flushes _ => exact hsame rfl
  | flushed _ _ hkept =>
      rcases hkept with hkept | ⟨-, hkept⟩
      · exact hsame hkept.engines
      · exact hsame hkept.engines
  | snapped _ _ hkept => exact hsame hkept.engines
  | raised _ _ _ hcurrent hstop => exact hother hcurrent (by simp [hstop])
  | listed _ _ _ hcurrent hstop => exact hother hcurrent (by simp [hstop])
  | ended _ _ _ _ _ => exact hsame rfl
  | stayed => exact hsame rfl
  | began _ _ => exact hsame rfl
  | failed _ _ _ => exact hsame rfl
  | published _ _ => exact hsame rfl
  | scanned =>
      obtain ⟨files, scan, heq, -⟩ := stepScan_eq sh limits h _ _
      exact hsame (by rw [heq])
  | @stepped _ j a₀ s₀ hhalt hs₀ =>
      by_cases hjk : j = k
      · subst hjk
        obtain rfl : s₀ = s := Option.some.inj (hs₀.symm.trans hs)
        obtain ⟨hrest', htrace, -⟩ := (atRest_onDisk hrest h.files.disk).step a₀
          (addressed_onDisk (ho.addressed s₀ (List.mem_of_getElem? hs)) _).seated
        obtain ⟨hlt, -⟩ := List.getElem?_eq_some_iff.1 hs
        exact ⟨_, List.getElem?_set_self hlt, hrest', htrace⟩
      · exact ⟨s, (List.getElem?_set_ne hjk).trans hs, hrest, rfl⟩
  | crashed => cases hup

theorem atRest_run (limits : Limits) {acts : List Action} (ho : Orderly sh h)
    (hup : ∀ a ∈ acts, a.isCrash = false) {k : Nat} {s : System} (hs : h.engines[k]? = some s)
    (hrest : s.AtRest) : ∃ s', (Host.run sh limits acts h).engines[k]? = some s' ∧ s'.AtRest ∧
      s'.engine.trace = s.engine.trace := by
  induction acts generalizing h s with
  | nil => exact ⟨s, hs, hrest, rfl⟩
  | cons a acts ih =>
      obtain ⟨s₁, hs₁, hrest₁, htrace₁⟩ :=
        atRest_step limits ho (hup a List.mem_cons_self) hs hrest
      obtain ⟨s₂, hs₂, hrest₂, htrace₂⟩ :=
        ih (ho.step a) (fun b hb => hup b (List.mem_cons_of_mem a hb)) hs₁ hrest₁
      exact ⟨s₂, hs₂, hrest₂, htrace₂.trans htrace₁⟩

/-! ## One engine at a time -/

/-- When the peers are listed, no attach is past its last look at the stop flag. -/
def Gated : Action → Host → Prop
  | .registry _ _, h =>
      match h.agenda with
      | .disconnectAll :: _ => ∀ s ∈ h.current, s.Clear
      | _ => True
  | _, _ => True

instance (a : Action) (h : Host) : Decidable (Gated a h) :=
  decidable_of_bool
    (match a with
      | .registry _ _ =>
          match h.agenda with
          | .disconnectAll :: _ => decide (∀ s ∈ h.current, s.Clear)
          | _ => true
      | _ => true) (by
    unfold Gated
    split
    · split <;> rename_i hagenda <;> simp [hagenda]
    · simp)

/-- Every engine but the newest is at rest, and that one too unless it runs or is being
stopped. -/
structure Retired (sh : Shared) (h : Host) : Prop where
  orderly : Orderly sh h
  ending : ∀ s ∈ h.engines, s.Ending
  old : ∀ k s, h.engines[k]? = some s → k + 1 < h.engines.length → s.AtRest
  all : h.hosted.live = none → Plain h.agenda → ∀ s ∈ h.engines, s.AtRest

theorem Retired.of_engines (hr : Retired sh h) (ho : Orderly sh h')
    (hengines : h'.engines = h.engines)
    (hall : h'.hosted.live = none → Plain h'.agenda → h.hosted.live = none ∧ Plain h.agenda) :
    Retired sh h' where
  orderly := ho
  ending := hengines ▸ hr.ending
  old := hengines ▸ hr.old
  all := fun hlive hplain => hengines ▸ hr.all (hall hlive hplain).1 (hall hlive hplain).2

theorem ending_onDisk {s : System} (hs : s.Ending) (d : Disk) : (Host.onDisk d s).Ending :=
  ⟨hs.clear, hs.doomed⟩

/-- The newest engine is told something while it runs or is being stopped. -/
theorem Retired.modifyCurrent {f : System → System} {agenda : List Instr} {s : System}
    (hr : Retired sh h) (ho : Orderly sh { h.modifyCurrent f with agenda := agenda })
    (hcurrent : h.current = some s) (hf : (f s).Ending)
    (hbusy : h.hosted.live.isSome ∨ ¬ Plain agenda) :
    Retired sh { h.modifyCurrent f with agenda := agenda } := by
  obtain ⟨old, hengines⟩ := current_eq_some.1 hcurrent
  have hengines' := engines_modifyCurrent f hengines
  refine ⟨ho, fun t ht => ?_, fun k t ht hk => ?_, fun hlive hplain => ?_⟩
  · rw [show ({ h.modifyCurrent f with agenda := agenda } : Host).engines = old ++ [f s] from
      hengines'] at ht
    rcases List.mem_append.1 ht with ht | ht
    · exact hr.ending t (hengines ▸ List.mem_append_left _ ht)
    · exact List.mem_singleton.1 ht ▸ hf
  · rw [show ({ h.modifyCurrent f with agenda := agenda } : Host).engines = old ++ [f s] from
      hengines'] at ht hk
    have hk : k < old.length := by simpa using hk
    rw [List.getElem?_append_left hk] at ht
    refine hr.old k t ?_ ?_
    · rw [hengines, List.getElem?_append_left hk]
      exact ht
    · simpa [hengines] using hk
  · rcases hbusy with hsome | hnot
    · rw [show h.hosted.live = none from hlive] at hsome
      cases hsome
    · exact absurd hplain hnot

theorem Retired.step {a : Action} (hr : Retired sh h) (hgated : Gated a h) :
    Retired sh (Host.step sh limits a h) := by
  have ho := hr.orderly
  have ho' : Orderly sh (Host.step sh limits a h) := ho.step a
  have hmove := step_move limits ho a
  generalize Host.step sh limits a h = h' at hmove ho'
  have hcontrol : ∀ {s : System} (ev : Torrent.Event), h.current = some s →
      (System.step sh (.control ev) s).Ending := by
    intro s ev hcurrent
    have hs : s ∈ h.engines := List.mem_of_getLast? hcurrent
    exact (hr.ending s hs).step _ rfl (ho.addressed s hs).seated
  have hhalt : ∀ {s : System}, h.current = some s → (s.stop = .raised → s.Clear) →
      s.haltNext.Ending := fun hcurrent hclear =>
    (hr.ending _ (List.mem_of_getLast? hcurrent)).halt hclear
  cases hmove with
  | noted hplain _ hkept =>
      exact hr.of_engines ho' hkept.engines fun hlive _ => ⟨hkept.live ▸ hlive, hplain⟩
  | refreshed hplain _ _ hkept =>
      exact hr.of_engines ho' hkept.engines fun hlive _ => ⟨hkept.live ▸ hlive, hplain⟩
  | wrote hplain _ _ _ => exact hr.of_engines ho' rfl fun hlive _ => ⟨hlive, hplain⟩
  | tuned _ _ hlive _ _ =>
      obtain ⟨s, hcurrent, -⟩ := ho.live hlive
      exact hr.modifyCurrent ho' hcurrent (hcontrol _ hcurrent) (.inl hlive)
  | @started _ now _ l _ hplain _ hlive _ _ =>
      have hall := hr.all hlive hplain
      refine ⟨ho', fun s hs => ?_, fun k s hs hk => ?_, fun hnone => ?_⟩
      · rcases List.mem_append.1 hs with hs | hs
        · exact hr.ending s hs
        · rw [List.mem_singleton.1 hs]
          exact (Torrent.ending_new _ _ _ _).step _ rfl (Torrent.addressed_new _ _ _ _ _).seated
      · have hk : k < h.engines.length := by simpa using hk
        exact hall s (List.mem_of_getElem? ((List.getElem?_append_left hk).symm.trans hs))
      · cases hnone
  | taken _ _ _ =>
      exact hr.of_engines ho' rfl fun _ hplain => absurd hplain (not_plain rfl rfl)
  | persists _ _ hlive =>
      exact hr.of_engines ho' rfl fun _ hplain => absurd hplain (not_plain rfl rfl)
  | synced _ => exact hr.of_engines ho' rfl fun _ hplain => absurd hplain (not_plain rfl rfl)
  | saved hagenda _ _ hkept =>
      have hsome := ho.saving hagenda
      rcases hkept with hkept | ⟨-, hkept⟩
      · refine hr.of_engines ho' hkept.engines fun hlive _ => ?_
        rw [← hkept.live, hlive] at hsome
        cases hsome
      · refine hr.of_engines ho' hkept.engines fun hlive _ => ?_
        rw [← hkept.live, hlive] at hsome
        cases hsome
  | unrouted _ _ _ hcurrent hstop =>
      exact hr.modifyCurrent ho' hcurrent (hhalt hcurrent (by simp [hstop]))
        (.inr (not_plain_cons rfl))
  | flushes _ => exact hr.of_engines ho' rfl fun _ hplain => absurd hplain (not_plain rfl rfl)
  | flushed _ hagenda' hkept =>
      rcases hkept with hkept | ⟨-, hkept⟩
      · exact hr.of_engines ho' hkept.engines fun _ hplain => absurd hplain (not_plain rfl hagenda')
      · exact hr.of_engines ho' hkept.engines fun _ hplain => absurd hplain (not_plain rfl hagenda')
  | snapped _ hagenda' hkept =>
      exact hr.of_engines ho' hkept.engines fun _ hplain => absurd hplain (not_plain rfl hagenda')
  | raised _ _ _ hcurrent hstop =>
      exact hr.modifyCurrent ho' hcurrent (hhalt hcurrent (by simp [hstop]))
        (.inr (not_plain_cons rfl))
  | listed hagenda _ _ hcurrent hstop =>
      unfold Gated at hgated
      simp only [hagenda] at hgated
      have hclear := hgated _ hcurrent
      exact hr.modifyCurrent ho' hcurrent (hhalt hcurrent fun _ => hclear)
        (.inr (not_plain_cons rfl))
  | @ended _ _ s hagenda _ _ hcurrent hstopped =>
      refine ⟨ho', hr.ending, hr.old, fun _ _ t ht => ?_⟩
      obtain ⟨old, hengines⟩ := current_eq_some.1 hcurrent
      obtain ⟨k, hk⟩ := List.mem_iff_getElem?.1 ht
      by_cases hlast : k + 1 < h.engines.length
      · exact hr.old k t hk hlast
      · rw [show h.engines = old ++ [s] from hengines] at hk hlast
        have hlast : old.length ≤ k := by simpa using hlast
        rw [List.getElem?_append_right hlast] at hk
        rw [List.mem_singleton.1 (List.mem_of_getElem? hk)]
        exact (hr.ending s (List.mem_of_getLast? hcurrent)).atRest hstopped
  | stayed => exact hr
  | began hidle hlive => exact hr.of_engines ho' rfl fun _ _ => ⟨hlive, hidle ▸ plain_nil⟩
  | failed hidle _ _ => exact hr.of_engines ho' rfl fun hlive _ => ⟨hlive, hidle ▸ plain_nil⟩
  | published hidle _ => exact hr.of_engines ho' rfl fun hlive _ => ⟨hlive, hidle ▸ plain_nil⟩
  | scanned =>
      obtain ⟨files, scan, heq, -⟩ := stepScan_eq sh limits h _ _
      rw [heq] at ho' ⊢
      exact hr.of_engines ho' rfl fun hlive hplain => ⟨hlive, hplain⟩
  | @stepped _ k a₀ s hhalt hs =>
      have hmem := List.mem_of_getElem? hs
      have hseat := (addressed_onDisk (ho.addressed s hmem) h.files.disk).seated
      have hset : ∀ {j : Nat} {t : System},
          (h.engines.set k (System.step sh a₀ (Host.onDisk h.files.disk s)))[j]? = some t →
          (∀ u, h.engines[j]? = some u → u.AtRest) → t.AtRest := by
        intro j t ht hrest
        by_cases hkj : k = j
        · subst hkj
          obtain ⟨hlt, -⟩ := List.getElem?_eq_some_iff.1 hs
          rw [List.getElem?_set_self hlt] at ht
          cases ht
          exact ((atRest_onDisk (hrest s hs) _).step a₀ hseat).1
        · rw [List.getElem?_set_ne hkj] at ht
          exact hrest t ht
      refine ⟨ho', fun t ht => ?_, fun j t ht hj => ?_, fun hlive hplain t ht => ?_⟩
      · rcases List.mem_or_eq_of_mem_set ht with ht | rfl
        · exact hr.ending t ht
        · exact (ending_onDisk (hr.ending s hmem) _).step a₀ hhalt hseat
      · exact hset ht fun u hu => hr.old j u hu (by simpa using hj)
      · obtain ⟨j, hj⟩ := List.mem_iff_getElem?.1 ht
        exact hset hj fun u hu => hr.all hlive hplain u (List.mem_of_getElem? hu)
  | @crashed keep =>
      have hnone : (h.restart sh keep).engines = [] := engines_restart keep
      refine ⟨ho', fun s hs => ?_, fun k s hs => ?_, fun _ _ s hs => ?_⟩
      · rw [hnone] at hs
        cases hs
      · rw [hnone] at hs
        cases hs
      · rw [hnone] at hs
        cases hs

theorem Begins.retired (hb : Begins sh h) : Retired sh h := by
  have hnone := hb.engines
  refine ⟨hb.orderly, fun s hs => ?_, fun k s hs => ?_, fun _ _ s hs => ?_⟩
  · rw [hnone] at hs
    cases hs
  · rw [hnone] at hs
    cases hs
  · rw [hnone] at hs
    cases hs

/-! ## The result -/

/-- `stop_live` has returned for the `k`th engine: a newer one has been started, or none runs
and the registry is not inside `stop_live`. -/
def Returned (h : Host) (k : Nat) : Prop :=
  k < h.engines.length ∧
    (k + 1 < h.engines.length ∨ h.hosted.live = none ∧ Plain h.agenda)

instance (h : Host) (k : Nat) : Decidable (Returned h k) := by
  unfold Returned
  infer_instance

/-- The `k`th engine may yet write to the files. -/
def CanWrite (sh : Shared) (limits : Limits) (h : Host) (k : Nat) : Prop :=
  ∃ more s s', (∀ a ∈ more, a.isCrash = false) ∧ h.engines[k]? = some s ∧
    (Host.run sh limits more h).engines[k]? = some s' ∧ Host.wrote s s' ≠ []

/-- A stopped engine never has a peer again and never writes again, and at most one engine can
write. -/
structure StaysStopped (sh : Shared) (limits : Limits) (h : Host) : Prop where
  peers : ∀ k, Returned h k → ∀ more, (∀ a ∈ more, a.isCrash = false) →
    ∀ s ∈ (Host.run sh limits more h).engines[k]?, s.engine.st.peers = []
  writes : ∀ k, Returned h k → ¬ CanWrite sh limits h k
  one : ∀ j k, CanWrite sh limits h j → CanWrite sh limits h k → j = k

theorem Retired.returned {k : Nat} (hr : Retired sh h) (hk : Returned h k) :
    ∃ s, h.engines[k]? = some s ∧ s.AtRest := by
  have hs := List.getElem?_eq_getElem hk.1
  refine ⟨_, hs, ?_⟩
  rcases hk.2 with hk' | ⟨hlive, hplain⟩
  · exact hr.old k _ hs hk'
  · exact hr.all hlive hplain _ (List.mem_of_getElem? hs)

theorem Retired.not_canWrite {k : Nat} {s : System} (hr : Retired sh h)
    (hs : h.engines[k]? = some s) (hrest : s.AtRest) : ¬ CanWrite sh limits h k := by
  rintro ⟨more, t, s', hup, ht, hs', hwrote⟩
  obtain rfl : s = t := Option.some.inj (hs.symm.trans ht)
  obtain ⟨s'', hs'', -, htrace⟩ := atRest_run limits hr.orderly hup hs hrest
  obtain rfl : s' = s'' := Option.some.inj (hs'.symm.trans hs'')
  refine hwrote ?_
  rw [Host.wrote, htrace, List.drop_length]
  rfl

theorem Retired.staysStopped (hr : Retired sh h) : StaysStopped sh limits h where
  peers := by
    intro k hk more hup s' hs'
    obtain ⟨s, hs, hrest⟩ := hr.returned hk
    obtain ⟨s'', hs'', hrest', -⟩ := atRest_run limits hr.orderly hup hs hrest
    obtain rfl : s'' = s' := Option.some.inj (hs''.symm.trans hs')
    exact hrest'.peers
  writes := by
    intro k hk
    obtain ⟨s, hs, hrest⟩ := hr.returned hk
    exact hr.not_canWrite hs hrest
  one := by
    -- only the newest can write
    have hnewest : ∀ k, CanWrite sh limits h k → k + 1 = h.engines.length := by
      rintro k ⟨more, s, s', hup, hs, hs', hwrote⟩
      obtain ⟨hlt, -⟩ := List.getElem?_eq_some_iff.1 hs
      by_contra hk
      exact hr.not_canWrite hs (hr.old k s hs (by omega)) ⟨more, s, s', hup, hs, hs', hwrote⟩
    intro j k hj hk
    have := hnewest j hj
    have := hnewest k hk
    omega

/-- If no attach is past its last look at the stop flag whenever the peers are listed, a
stopped engine stays stopped, and at most one engine can write. -/
theorem stopped_engine_stays_stopped (hb : Begins sh h) (acts : List Action)
    (hgated : Machine.Along (Host.step sh limits) Gated acts h) :
    StaysStopped sh limits (Host.run sh limits acts h) := by
  refine Retired.staysStopped ?_
  exact Machine.run_induction_along (P := Retired sh) (fun _ _ hgate hr => hr.step hgate) hgated
    hb.retired

/-- Whether a run makes the `k`th engine write. -/
def Host.runWrites (sh : Shared) (limits : Limits) (more : List Action) (h : Host) (k : Nat) :
    Bool :=
  match h.engines[k]?, (Host.run sh limits more h).engines[k]? with
  | some s, some s' => !(Host.wrote s s').isEmpty
  | _, _ => false

theorem canWrite_of_runWrites {k : Nat} (more : List Action)
    (hup : ∀ a ∈ more, a.isCrash = false) (hwrites : h.runWrites sh limits more k = true) :
    CanWrite sh limits h k := by
  unfold Host.runWrites at hwrites
  split at hwrites
  · rename_i s s' hs hs'
    exact ⟨more, s, s', hup, hs, hs', by simpa using hwrites⟩
  · cases hwrites

namespace OneByte

open Torrent.OneByte (shared dest)

/-- A connection is accepted before the torrent is paused, and it is resumed right after. -/
def paused : List Action :=
  scanned ++ [.engine 0 (.accept (dest 0) ⟨false, false⟩)] ++
    .command (.setPaused true) :: registry 11 ++ .command (.setPaused false) :: registry 3

/-- The connection registers with the engine that was stopped, which then writes, and so can
the one started in its place. -/
theorem stopped_engine_writes_again :
    ¬ StaysStopped shared noLimits (Host.run shared noLimits paused host) := by
  intro hstays
  have hold : CanWrite shared noLimits (Host.run shared noLimits paused host) 0 :=
    canWrite_of_runWrites (delivers 0 1) (by decide) (by decide +kernel)
  have hnew : CanWrite shared noLimits (Host.run shared noLimits paused host) 1 :=
    canWrite_of_runWrites (.engine 1 (.accept (dest 0) ⟨false, false⟩) :: delivers 1 0)
      (by decide) (by decide +kernel)
  cases hstays.one 0 1 hold hnew

/-- The same with the connection given up before the peers are listed. -/
theorem stopped_engine_stays_stopped_abandoned :
    StaysStopped shared noLimits
      (Host.run shared noLimits (scanned ++ [.engine 0 (.accept (dest 0) ⟨false, false⟩),
        .engine 0 (.abandon 0)] ++ .command (.setPaused true) :: registry 11) host) :=
  stopped_engine_stays_stopped (.added 0 false false true fun _ => []) _ (by decide +kernel)

end OneByte

end Clove.Daemon
