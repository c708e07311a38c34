import Clove.Daemon.Fleet
import Clove.Daemon.Order
import Clove.Daemon.StateDir

/-!
# What runs

Every torrent that is wanted and whose files are not being hashed runs while there is a network,
and no other does.  One function sees to it (`reconcile`), and everything that could change the
answer calls it.  It is idempotent, and leaves alone the engines that should run.
-/

namespace Clove.Daemon

/-- A torrent that runs is wanted, its files are not being hashed, and there is a network. -/
def Fits (network : Bool) (x : Hosted) : Prop :=
  x.live.isSome → x.wanted = .running ∧ x.scanning = false ∧ network = true

/-- No torrent runs that should not. -/
def OnlyWanted (s : Fleet) : Prop := ∀ h e, s.lookup h = some e → Fits s.network e.hosted

/-- What bringing the engines in line comes to. -/
structure InLine (s : Fleet) : Prop where
  /-- Whatever should run does, if its files can be opened. -/
  runs : ∀ w h e, s.network = true → w.creates h = true → (s.reconcile w).lookup h = some e →
    e.hosted.wanted = .running → e.hosted.scanning = false → e.hosted.live.isSome
  /-- To do it twice is to do it once. -/
  idempotent : ∀ w w', (∀ h, w'.creates h = true → w.creates h = true) →
    (s.reconcile w).reconcile w' = s.reconcile w
  /-- The engine of a torrent that should run stays. -/
  stable : ∀ w h e, s.lookup h = some e → e.hosted.wanted = .running → e.hosted.scanning = false →
    e.hosted.live.isSome → (s.reconcile w).lookup h = some e ∧
      (s.reconcile w).engines h = s.engines h

variable {sha1 toLowercase : Bytes → Bytes} {limits : Limits} {s : Fleet} {w : World}

/-! ## What is seen of one torrent -/

/-- What the registry has of one torrent. -/
structure Member where
  network : Bool
  entry : Option Entry
  engines : Nat

namespace Member

/-- The entry is changed. -/
def update (g : Hosted → Hosted) (m : Member) : Member :=
  { m with entry := m.entry.map fun e => { e with hosted := g e.hosted } }

/-- Whether an engine is started. -/
def starts (creates : Bool) (m : Member) : Bool :=
  m.network && m.entry.any (fun e => e.hosted.runs && e.hosted.live.isNone) && creates

/-- An engine is started, if that is possible. -/
def start (creates : Bool) (m : Member) : Member :=
  if m.starts creates then { m.update Hosted.started with engines := m.engines + 1 } else m

end Member

namespace Fleet

def member (h : Bytes) (s : Fleet) : Member := ⟨s.network, s.lookup h, s.engines h⟩

@[simp] theorem member_network (h : Bytes) (s : Fleet) : (s.member h).network = s.network := rfl

@[simp] theorem member_entry (h : Bytes) (s : Fleet) : (s.member h).entry = s.lookup h := rfl

@[simp] theorem member_engines (h : Bytes) (s : Fleet) : (s.member h).engines = s.engines h := rfl

theorem member_modify (g : Hosted → Hosted) (h k : Bytes) (s : Fleet) :
    (s.modify g h).member k = if k = h then (s.member k).update g else s.member k := by
  unfold modify
  by_cases heq : k = h
  · subst heq
    cases hlookup : s.lookup k with
    | none => simp [member, Member.update, hlookup]
    | some e =>
        simp only [if_true, member, Member.update, hlookup]
        simp [lookup, OrdMap.Tree.lookup_insert]
  · cases hlookup : s.lookup h with
    | none => simp [heq]
    | some e => simp [member, lookup, OrdMap.Tree.lookup_insert, heq]

theorem stopped_of_none {x : Hosted} (reading : Reading) (h : x.live = none) :
    x.stopped reading = x := by
  unfold Hosted.stopped
  rw [h]

theorem member_stopLive (w : World) (h k : Bytes) (s : Fleet) : (s.stopLive w h).member k =
    if k = h then (s.member k).update (Hosted.stopped (w.stops h)) else s.member k := by
  unfold stopLive
  cases hlookup : s.lookup h with
  | none =>
      by_cases heq : k = h
      · simp [heq, member, Member.update, hlookup]
      · simp [heq]
  | some e =>
      simp only
      split
      · rename_i hlive
        by_cases heq : k = h
        · simp [heq, member, Member.update, hlookup,
            stopped_of_none _ (Option.isNone_iff_eq_none.1 hlive)]
        · simp [heq]
      · exact member_modify _ h k s

theorem startLive_eq (w : World) (h : Bytes) (s : Fleet) : s.startLive w h =
    if (s.member h).starts (w.creates h) then
      { s.modify Hosted.started h with engines := Function.update s.engines h (s.engines h + 1) }
    else s := by
  unfold startLive Member.starts
  cases hnetwork : s.network with
  | false => simp [hnetwork]
  | true =>
      cases hlookup : s.lookup h with
      | none => simp [hlookup, hnetwork]
      | some e =>
          simp only [Bool.not_true, Bool.false_eq_true, if_false, member_network, hnetwork,
            member_entry, hlookup, Option.any_some, Bool.true_and, Hosted.runs]
          cases e.hosted.live with
          | some base => simp
          | none =>
              cases e.hosted.scanning with
              | true => simp
              | false =>
                  by_cases hwanted : e.hosted.wanted = .running
                  · cases w.creates h with
                    | true => simp [hwanted]
                    | false => simp [hwanted]
                  · simp [hwanted]

theorem member_startLive (w : World) (h k : Bytes) (s : Fleet) : (s.startLive w h).member k =
    if k = h then (s.member k).start (w.creates h) else s.member k := by
  rw [startLive_eq]
  split
  · rename_i hstarts
    have hmodify := member_modify Hosted.started h k s
    by_cases heq : k = h
    · subst heq
      rw [if_pos rfl] at hmodify ⊢
      rw [Member.start, if_pos hstarts, ← hmodify]
      simp [member, lookup]
    · rw [if_neg heq] at hmodify ⊢
      rw [← hmodify]
      have hlookup : (s.modify Hosted.started h).engines = s.engines := by
        unfold modify
        split
        · rfl
        · rfl
      simp only [member, lookup, Function.update_of_ne heq, hlookup]
  · rename_i hstarts
    split
    · rename_i heq
      rw [heq, Member.start, if_neg hstarts]
    · rfl

/-- Torrents are seen to one after the other, and none is looked at twice. -/
theorem member_foldl {act : Fleet → Bytes → Fleet} {g : Bytes → Member → Member}
    (hact : ∀ s h k, (act s h).member k = if k = h then g h (s.member k) else s.member k)
    {l : List Bytes} (hl : l.Nodup) (s : Fleet) (k : Bytes) :
    (l.foldl act s).member k = if k ∈ l then g k (s.member k) else s.member k := by
  induction l generalizing s with
  | nil => rfl
  | cons h l ih =>
      obtain ⟨hnew, hl⟩ := List.nodup_cons.1 hl
      rw [List.foldl_cons, ih hl, hact]
      by_cases heq : k = h
      · subst heq
        simp [hnew]
      · simp [heq]

theorem mem_those {p : Hosted → Bool} {h : Bytes} :
    h ∈ s.those p ↔ ∃ e, s.lookup h = some e ∧ p e.hosted = true := by
  unfold those lookup
  constructor
  · intro hmem
    obtain ⟨⟨k, e⟩, he, rfl⟩ := List.mem_map.1 hmem
    obtain ⟨he, hp⟩ := List.mem_filter.1 he
    exact ⟨e, OrdMap.Tree.mem_entries_iff.1 he, hp⟩
  · rintro ⟨e, he, hp⟩
    exact List.mem_map.2 ⟨(h, e), List.mem_filter.2 ⟨OrdMap.Tree.mem_entries he, hp⟩, rfl⟩

theorem nodup_those (p : Hosted → Bool) (s : Fleet) : (s.those p).Nodup :=
  List.Nodup.sublist (List.Sublist.map _ List.filter_sublist) s.registry.torrents.nodup_keys

/-- What bringing the engines in line does to one torrent. -/
theorem member_reconcile (w : World) (s : Fleet) (h : Bytes) (hnetwork : s.network = true) :
    (s.reconcile w).member h = match s.lookup h with
      | none => s.member h
      | some e =>
          if e.hosted.runs then (s.member h).start (w.creates h)
          else (s.member h).update (Hosted.stopped (w.stops h)) := by
  unfold reconcile
  rw [if_neg (by simp [hnetwork])]
  simp only
  rw [member_foldl (fun s h k => member_startLive w h k s) (nodup_those _ _),
    member_foldl (fun s h k => member_stopLive w h k s) (nodup_those _ _)]
  simp only [mem_those]
  cases hlookup : s.lookup h with
  | none => simp
  | some e =>
      cases hruns : e.hosted.runs with
      | true => simp [hruns]
      | false => simp [hruns]

theorem network_reconcile (w : World) (s : Fleet) : (s.reconcile w).network = s.network := by
  cases hnetwork : s.network with
  | false =>
      unfold reconcile
      rw [if_pos (by simp [hnetwork])]
      exact hnetwork
  | true =>
      have hmember := congrArg Member.network (member_reconcile w s [] hnetwork)
      rw [member_network] at hmember
      rw [hmember, ← hnetwork]
      split
      · rfl
      · split
        · unfold Member.start
          split
          · rfl
          · rfl
        · rfl

end Fleet

/-! ## In line -/

theorem Hosted.runs_iff {x : Hosted} :
    x.runs = true ↔ x.wanted = .running ∧ x.scanning = false := by
  simp [Hosted.runs]

/-- What `stop_live` leaves alone. -/
theorem Hosted.stopped_eq (reading : Reading) (x : Hosted) : (x.stopped reading).live = none ∧
    (x.stopped reading).wanted = x.wanted ∧ (x.stopped reading).scanning = x.scanning := by
  unfold stopped
  cases hlive : x.live with
  | none => exact ⟨hlive, rfl, rfl⟩
  | some base => exact ⟨rfl, rfl, rfl⟩

/-- What runs after the engines are brought in line. -/
theorem Fleet.lookup_reconcile {h : Bytes} {e : Entry} (hnetwork : s.network = true)
    (he : (s.reconcile w).lookup h = some e) :
    (e.hosted.runs = true → e.hosted.live.isSome ∨ w.creates h = false) ∧
      (e.hosted.runs = false → e.hosted.live = none) := by
  have hmember := congrArg Member.entry (member_reconcile w s h hnetwork)
  rw [member_entry, he] at hmember
  cases hlookup : s.lookup h with
  | none =>
      rw [hlookup] at hmember
      simp only [member_entry, hlookup] at hmember
      cases hmember
  | some e₀ =>
      rw [hlookup] at hmember
      simp only at hmember
      split at hmember
      · rename_i hruns
        unfold Member.start at hmember
        split at hmember
        · rename_i hstarts
          simp only [Member.update, member_entry, hlookup, Option.map_some, Option.some.injEq]
            at hmember
          subst hmember
          exact ⟨fun _ => .inl rfl, fun hnot => absurd (hruns.symm.trans hnot) (by decide)⟩
        · rename_i hstarts
          rw [member_entry, hlookup] at hmember
          obtain rfl := Option.some.inj hmember
          refine ⟨fun _ => ?_, fun hnot => absurd (hruns.symm.trans hnot) (by decide)⟩
          rw [Member.starts, member_network, member_entry, hlookup, hnetwork, Option.any_some,
            hruns] at hstarts
          cases hlive : e.hosted.live with
          | some base => exact .inl rfl
          | none => exact .inr (by simpa [hlive] using hstarts)
      · rename_i hruns
        simp only [Member.update, member_entry, hlookup, Option.map_some, Option.some.injEq]
          at hmember
        subst hmember
        obtain ⟨hlive, hwanted, hscanning⟩ := e₀.hosted.stopped_eq (w.stops h)
        refine ⟨fun hyes => absurd ?_ hruns, fun _ => hlive⟩
        exact Hosted.runs_iff.2 (hwanted ▸ hscanning ▸ Hosted.runs_iff.1 hyes)

/-- Where everything is in line already, nothing happens. -/
theorem Fleet.reconcile_eq_self
    (hstop : ∀ h e, s.lookup h = some e → e.hosted.runs = false → e.hosted.live = none)
    (hstart : ∀ h e, s.lookup h = some e → e.hosted.runs = true →
      e.hosted.live.isSome ∨ w.creates h = false) : s.reconcile w = s := by
  have hfixed : ∀ {act : Fleet → Bytes → Fleet} {l : List Bytes}, (∀ h ∈ l, act s h = s) →
      l.foldl act s = s := by
    intro act l hact
    induction l with
    | nil => rfl
    | cons h l ih =>
        rw [List.foldl_cons, hact h List.mem_cons_self]
        exact ih fun k hk => hact k (List.mem_cons_of_mem h hk)
  unfold reconcile
  split
  · rfl
  simp only
  rw [hfixed fun h hh => ?_, hfixed fun h hh => ?_]
  · obtain ⟨e, he, hruns⟩ := mem_those.1 hh
    rw [startLive_eq, if_neg]
    rw [Member.starts, member_entry, he, Option.any_some, hruns]
    cases hstart h e he hruns with
    | inl hlive => simp [Option.isSome_iff_ne_none.1 hlive]
    | inr hcreates => simp [hcreates]
  · obtain ⟨e, he, hruns⟩ := mem_those.1 hh
    unfold stopLive
    rw [he]
    simp only
    rw [if_pos (by rw [hstop h e he (by simpa using hruns)]; rfl)]

theorem inLine (s : Fleet) : InLine s where
  runs := by
    intro w h e hnetwork hcreates he hwanted hscanning
    cases (Fleet.lookup_reconcile hnetwork he).1 (Hosted.runs_iff.2 ⟨hwanted, hscanning⟩) with
    | inl hlive => exact hlive
    | inr hnot => exact absurd (hcreates.symm.trans hnot) (by decide)
  idempotent := by
    intro w w' hworlds
    cases hnetwork : s.network with
    | false =>
        have heq : ∀ w, s.reconcile w = s := fun w => by
          unfold Fleet.reconcile
          rw [if_pos (by simp [hnetwork])]
        rw [heq w, heq w']
    | true =>
        refine Fleet.reconcile_eq_self (fun h e he => (Fleet.lookup_reconcile hnetwork he).2)
          fun h e he hruns => ?_
        refine ((Fleet.lookup_reconcile hnetwork he).1 hruns).imp_right fun hnot => ?_
        exact Bool.eq_false_iff.2 fun hyes => absurd ((hworlds h hyes).symm.trans hnot) (by decide)
  stable := by
    intro w h e he hwanted hscanning hlive
    cases hnetwork : s.network with
    | false =>
        unfold Fleet.reconcile
        rw [if_pos (by simp [hnetwork])]
        exact ⟨he, rfl⟩
    | true =>
        have hmember := Fleet.member_reconcile w s h hnetwork
        rw [he] at hmember
        simp only at hmember
        rw [if_pos (Hosted.runs_iff.2 ⟨hwanted, hscanning⟩), Member.start, if_neg] at hmember
        · exact ⟨(congrArg Member.entry hmember).trans he, congrArg Member.engines hmember⟩
        · simp [Member.starts, he, Option.isSome_iff_ne_none.1 hlive]

/-! ## Only the wanted run -/

/-- A torrent with an engine has a network. -/
def Online (s : Fleet) : Prop :=
  ∀ h e, s.lookup h = some e → e.hosted.live.isSome → s.network = true

theorem OnlyWanted.online (hs : OnlyWanted s) : Online s :=
  fun h e he hlive => (hs h e he hlive).2.2

/-- Bringing the engines in line is enough. -/
theorem Online.reconcile (hs : Online s) (w : World) : OnlyWanted (s.reconcile w) := by
  cases hnetwork : s.network with
  | false =>
      have heq : s.reconcile w = s := by
        unfold Fleet.reconcile
        rw [if_pos (by simp [hnetwork])]
      rw [heq]
      intro h e he hlive
      exact absurd ((hs h e he hlive).symm.trans hnetwork) (by decide)
  | true =>
      intro h e he hlive
      rw [Fleet.network_reconcile, hnetwork]
      cases hruns : e.hosted.runs with
      | true => exact ⟨(Hosted.runs_iff.1 hruns).1, (Hosted.runs_iff.1 hruns).2, rfl⟩
      | false =>
          rw [(Fleet.lookup_reconcile hnetwork he).2 hruns] at hlive
          cases hlive

/-- Where a step looks at one torrent and leaves the network alone. -/
theorem OnlyWanted.of_member {s' : Fleet} (hs : OnlyWanted s) (h : Bytes) (g : Hosted → Hosted)
    (hmember : ∀ k, s'.member k = if k = h then (s.member k).update g else s.member k)
    (hg : ∀ e, s.lookup h = some e → Fits s.network e.hosted → Fits s.network (g e.hosted)) :
    OnlyWanted s' := by
  intro k e he
  have hk := hmember k
  have hnetwork : s'.network = s.network := by
    have := congrArg Member.network hk
    split at this
    · exact this
    · exact this
  have hentry := congrArg Member.entry hk
  rw [hnetwork]
  rw [Fleet.member_entry, he] at hentry
  split at hentry
  · rename_i heq
    rw [Member.update, Fleet.member_entry, heq] at hentry
    obtain ⟨e₀, he₀, rfl⟩ := Option.map_eq_some_iff.1 hentry.symm
    exact hg e₀ he₀ (hs h e₀ he₀)
  · exact hs k e hentry.symm

theorem OnlyWanted.modify (hs : OnlyWanted s) {g : Hosted → Hosted} {h : Bytes}
    (hg : ∀ e, s.lookup h = some e → Fits s.network e.hosted → Fits s.network (g e.hosted)) :
    OnlyWanted (s.modify g h) :=
  hs.of_member h g (fun k => Fleet.member_modify g h k s) hg

theorem Online.modify (hs : Online s) {g : Hosted → Hosted} (h : Bytes)
    (hg : ∀ x : Hosted, (g x).live = x.live) : Online (s.modify g h) := by
  intro k e he hlive
  have hk := Fleet.member_modify g h k s
  have hnetwork : (s.modify g h).network = s.network := by
    have := congrArg Member.network hk
    split at this
    · exact this
    · exact this
  have hentry := congrArg Member.entry hk
  rw [hnetwork]
  rw [Fleet.member_entry, he] at hentry
  split at hentry
  · obtain ⟨e₀, he₀, rfl⟩ := Option.map_eq_some_iff.1 hentry.symm
    exact hs k e₀ he₀ (hg e₀.hosted ▸ hlive)
  · exact hs k e hentry.symm hlive

/-- An engine that is stopped does not run. -/
theorem OnlyWanted.stopLive (hs : OnlyWanted s) (w : World) (h : Bytes) :
    OnlyWanted (s.stopLive w h) := by
  refine hs.of_member h _ (fun k => Fleet.member_stopLive w h k s) fun e _ _ hlive => ?_
  rw [(e.hosted.stopped_eq (w.stops h)).1] at hlive
  cases hlive

theorem Fleet.member_writeResume (sha1 : Bytes → Bytes) (w : World) (h k : Bytes) (s : Fleet) :
    (s.writeResume sha1 w h).member k = s.member k := by
  unfold writeResume
  split
  · rfl
  · rfl

theorem OnlyWanted.of_same {s' : Fleet} (hs : OnlyWanted s)
    (hmember : ∀ k, s'.member k = s.member k) : OnlyWanted s' := by
  intro k e he
  rw [← Fleet.member_entry, hmember k] at he
  have hnetwork : s'.network = s.network := congrArg Member.network (hmember k)
  rw [hnetwork]
  exact hs k e he

theorem OnlyWanted.writeResume (hs : OnlyWanted s) (w : World) (h : Bytes) :
    OnlyWanted (s.writeResume sha1 w h) :=
  hs.of_same fun k => Fleet.member_writeResume sha1 w h k s

theorem OnlyWanted.foldl {α : Type} {act : Fleet → α → Fleet}
    (hact : ∀ s a, OnlyWanted s → OnlyWanted (act s a)) (l : List α) (hs : OnlyWanted s) :
    OnlyWanted (l.foldl act s) := by
  induction l generalizing s with
  | nil => exact hs
  | cons a l ih => exact ih (hact s a hs)

theorem OnlyWanted.refresh (hs : OnlyWanted s) (w : World) : OnlyWanted (s.refresh w) := by
  refine OnlyWanted.foldl (fun s h hs => hs.modify fun e _ hfits hlive => ?_) _ hs
  unfold Hosted.refreshed at hlive ⊢
  split at hlive
  · exact hfits (by rw [‹e.hosted.live = _›]; rfl)
  · exact hfits hlive

/-- A torrent that has met its seed limit is stopped. -/
theorem OnlyWanted.stopFor (hs : OnlyWanted s) (w : World) (found : Bytes × Why) :
    OnlyWanted (s.stopFor sha1 w found) := by
  obtain ⟨h, why⟩ := found
  refine OnlyWanted.writeResume (hs.of_member h (fun x => Hosted.stopped (w.stops h)
    { x with wanted := .paused why, idleSince := none }) (fun k => ?_) fun e _ _ hlive => ?_) w h
  · rw [Fleet.member_stopLive, Fleet.member_modify]
    split
    · simp [Member.update, Function.comp_def]
    · rfl
  · rw [(Hosted.stopped_eq (w.stops h) _).1] at hlive
    cases hlive

theorem OnlyWanted.enforceSeedLimits (hs : OnlyWanted s) (w : World) :
    OnlyWanted (s.enforceSeedLimits sha1 limits w) := by
  unfold Fleet.enforceSeedLimits
  simp only
  refine OnlyWanted.foldl (fun s found hs => hs.stopFor w found) _ ?_
  exact OnlyWanted.foldl (fun s e hs => hs.modify fun _ _ hfits => hfits) _ hs

theorem OnlyWanted.persistProgress (hs : OnlyWanted s) (w : World) :
    OnlyWanted (s.persistProgress sha1 limits w) := by
  have hlimits : OnlyWanted ((s.refresh w).enforceSeedLimits sha1 limits w) :=
    (hs.refresh w).enforceSeedLimits w
  refine OnlyWanted.foldl (fun s h hs => ?_) _ (hlimits.online.reconcile w)
  exact (hs.modify fun _ _ hfits => hfits).writeResume w h

/-- Once every engine is stopped, the network can go. -/
theorem OnlyWanted.detachNetwork (s : Fleet) (w : World) :
    OnlyWanted (s.detachNetwork sha1 limits w) := by
  unfold Fleet.detachNetwork
  simp only
  refine OnlyWanted.persistProgress (fun h e he hlive => ?_) w
  have hmember := Fleet.member_foldl (fun s h k => Fleet.member_stopLive w h k s)
    (Fleet.nodup_those (fun _ => true) s) s h
  have hentry := congrArg Member.entry hmember
  replace he : Fleet.lookup h (List.foldl (fun s h => s.stopLive w h) s
    (s.those fun _ => true)) = some e := he
  rw [Fleet.member_entry, he] at hentry
  split at hentry
  · obtain ⟨e₀, -, rfl⟩ := Option.map_eq_some_iff.1 hentry.symm
    rw [(e₀.hosted.stopped_eq (w.stops h)).1] at hlive
    cases hlive
  · rename_i hnot
    exact absurd (Fleet.mem_those.2 ⟨e, hentry.symm, rfl⟩) hnot

/-- Torrents that come into the registry have no engine. -/
theorem OnlyWanted.of_lookup {s' : Fleet} (hs : OnlyWanted s) (hnetwork : s'.network = s.network)
    (hlookup : ∀ h e, s'.lookup h = some e → s.lookup h = some e ∨ e.hosted.live = none) :
    OnlyWanted s' := by
  intro h e he hlive
  cases hlookup h e he with
  | inl hold => exact hnetwork ▸ hs h e hold hlive
  | inr hnone =>
      rw [hnone] at hlive
      cases hlive

theorem Registry.lookup_addTorrent (f : Faults) (now : Nat) (bytes : Bytes) (options : AddOptions)
    (r : Registry) {h : Bytes} {e : Entry}
    (he : (addTorrent sha1 toLowercase f now bytes options r).2.torrents.lookup h = some e) :
    r.torrents.lookup h = some e ∨ e.hosted.live = none := by
  have hcases : Adds sha1 toLowercase f now bytes options r _ :=
    addTorrent_cases f now bytes options r
  generalize addTorrent sha1 toLowercase f now bytes options r = out at hcases he
  cases hcases with
  | rejected _ _ => exact .inl he
  | refused _ _ _ => exact .inl he
  | undone _ _ _ _ _ => exact .inl he
  | added _ _ _ _ _ _ =>
      rw [OrdMap.Tree.lookup_insert] at he
      split at he
      · obtain rfl := Option.some.inj he
        exact .inr rfl
      · exact .inl he

theorem Registry.torrents_completeMagnet (f : Faults) (now : Nat) (h bytes : Bytes)
    (r : Registry) : (completeMagnet sha1 toLowercase f now h bytes r).2.torrents =
      (addTorrent sha1 toLowercase f now bytes ⟨false, false⟩ r).2.torrents := by
  unfold completeMagnet
  split
  · rename_i heq
    rw [heq]
  · rename_i heq
    rw [heq]

theorem Registry.torrents_addMagnet (f : Faults) (uri : Bytes) (r : Registry) :
    (r.addMagnet f uri).2.torrents = r.torrents := by
  have hcases := addMagnet_cases f uri r
  generalize r.addMagnet f uri = out at hcases
  cases hcases with
  | rejected _ => rfl
  | refused _ => rfl
  | added _ _ _ _ => rfl

/-- A start starts no engine. -/
theorem Registry.lookup_start (f : Faults) (order : List FileName) (d : Dir) {h : Bytes}
    {e : Entry} (he : (start sha1 toLowercase f order d).torrents.lookup h = some e) :
    e.hosted.live = none := by
  have htorrents : ∀ (l : List FileName) (r : Registry),
      (∀ h e, r.torrents.lookup h = some e → e.hosted.live = none) →
      ∀ h e, (l.foldl (loadOne sha1 toLowercase f) r).torrents.lookup h = some e →
        e.hosted.live = none := by
    intro l
    induction l with
    | nil => exact fun r hr => hr
    | cons n l ih =>
        intro r hr
        refine ih _ fun k e hk => ?_
        unfold loadOne at hk
        split at hk
        · exact hr k e hk
        · rename_i infoHash entry hread
          rw [OrdMap.Tree.lookup_insert] at hk
          split at hk
          · obtain rfl := Option.some.inj hk
            unfold readTorrent at hread
            obtain ⟨bytes, -, hread⟩ := Except.ok_of_bind hread
            obtain ⟨m, -, hread⟩ := Except.ok_of_bind hread
            obtain ⟨record, -, hread⟩ := Except.ok_of_bind hread
            obtain ⟨hosted, hload, hread⟩ := Except.ok_of_bind hread
            cases hread
            exact loadOne_quiet (Except.ok_of_mapError hload)
          · exact hr k e hk
  have hmagnets : ∀ (l : List FileName) (r : Registry),
      (l.foldl (loadMagnet f) r).torrents = r.torrents := by
    intro l
    induction l with
    | nil => exact fun r => rfl
    | cons n l ih =>
        intro r
        rw [List.foldl_cons, ih]
        unfold loadMagnet
        split
        · rfl
        · split
          · rfl
          · rfl
  unfold start loadAll at he
  split at he
  · cases he
  · rw [hmagnets] at he
    exact htorrents _ _ (fun h e he => by cases he) h e he

theorem OnlyWanted.remove (hs : OnlyWanted s) (w : World) (h : Bytes) :
    OnlyWanted (s.remove w h) := by
  unfold Fleet.remove
  cases hlookup : s.lookup h with
  | none =>
      simp only
      split
      · split
        · exact hs
        · exact hs
      · exact hs
  | some e =>
      simp only
      have hstop : ∀ k e', (s.registry.stopLive (e.hosted.stopped (w.stops h)) h).torrents.lookup k =
          some e' → s.lookup k = some e' ∨ e'.hosted.live = none := by
        intro k e' he'
        unfold Registry.stopLive at he'
        split at he'
        · exact .inl he'
        · split at he'
          · exact .inl he'
          · rw [OrdMap.Tree.lookup_insert] at he'
            split at he'
            · obtain rfl := Option.some.inj he'
              exact .inr (e.hosted.stopped_eq (w.stops h)).1
            · exact .inl he'
      have hkeep : ∀ k e', (s.registry.remove w.faults (e.hosted.stopped (w.stops h))
          h).2.torrents.lookup k = some e' → s.lookup k = some e' ∨ e'.hosted.live = none := by
        intro k e' he'
        have hcases := remove_cases w.faults (e.hosted.stopped (w.stops h)) h s.registry
        generalize s.registry.remove w.faults (e.hosted.stopped (w.stops h)) h = out at hcases he'
        cases hcases with
        | absent _ _ => exact .inl he'
        | scanning _ _ _ => exact .inl he'
        | magnetStays _ _ => exact .inl he'
        | magnet _ => exact .inl he'
        | torrentStays _ _ _ _ => exact hstop k e' he'
        | resumeStays _ _ _ _ _ => exact hstop k e' he'
        | torrent _ _ =>
            rw [OrdMap.Tree.lookup_erase] at he'
            split at he'
            · cases he'
            · exact hstop k e' he'
      cases hremove : s.registry.remove w.faults (e.hosted.stopped (w.stops h)) h with
      | mk result r =>
          rw [hremove] at hkeep
          have hr : OnlyWanted { s with registry := r } := hs.of_lookup rfl hkeep
          cases result with
          | error _ => exact hr
          | ok _ =>
              simp only
              split
              · exact hr
              · exact hr.online.reconcile w

theorem OnlyWanted.finishScan (hs : OnlyWanted s) (w : World) (h : Bytes)
    (result : Except IoError Bitfield) : OnlyWanted (s.finishScan sha1 w h result) := by
  have hcleared : OnlyWanted (s.modify (fun x => { x with scanning := false }) h) :=
    hs.modify fun e _ hfits hlive => ⟨(hfits hlive).1, rfl, (hfits hlive).2.2⟩
  unfold Fleet.finishScan
  cases result with
  | error _ => exact hcleared
  | ok found =>
      have hpublished := hcleared.modify (h := h)
        (g := fun x => { x with have_ := found, verified := found }) fun _ _ hfits => hfits
      simp only
      split
      · exact (hpublished.writeResume w h).online.reconcile w
      · exact hpublished.writeResume w h

theorem OnlyWanted.step (hs : OnlyWanted s) (a : World × Fleet.Op) :
    OnlyWanted (s.step sha1 toLowercase limits a) := by
  obtain ⟨w, op⟩ := a
  cases op with
  | start order =>
      intro h e he hlive
      rw [Registry.lookup_start w.faults order s.registry.dir he] at hlive
      cases hlive
  | attachNetwork =>
      refine Online.reconcile (fun h e he hlive => rfl) w
  | detachNetwork => exact OnlyWanted.detachNetwork s w
  | refresh => exact hs.refresh w
  | persistProgress => exact hs.persistProgress w
  | addTorrent bytes options =>
      exact hs.of_lookup rfl fun h e he => Registry.lookup_addTorrent w.faults w.now bytes options _ he
  | addMagnet uri =>
      refine hs.of_lookup rfl fun h e he => .inl ?_
      exact (congrArg (·.lookup h) (Registry.torrents_addMagnet w.faults uri s.registry)).symm.trans
        he
  | completeMagnet h bytes =>
      refine hs.of_lookup rfl fun k e he => ?_
      have hadd : (s.registry.addTorrent sha1 toLowercase w.faults w.now bytes
          ⟨false, false⟩).2.torrents.lookup k = some e :=
        (congrArg (·.lookup k) (Registry.torrents_completeMagnet w.faults w.now h bytes
          s.registry)).symm.trans he
      exact Registry.lookup_addTorrent w.faults w.now bytes _ _ hadd
  | setPaused h paused =>
      simp only [Fleet.step, Fleet.setPaused]
      split
      · exact hs
      split
      · exact hs
      · refine (Online.reconcile ?_ w).writeResume w h
        exact hs.online.modify h fun _ => rfl
  | setPriorities h priorities =>
      simp only [Fleet.step, Fleet.setPriorities]
      split
      · exact hs
      split
      · exact hs
      · exact (hs.modify fun _ _ hfits => hfits).writeResume w h
  | setSequential h sequential => exact (hs.modify fun _ _ hfits => hfits).writeResume w h
  | setSeedRatio h milli =>
      simp only [Fleet.step, Fleet.setSeedRatio]
      split
      · exact hs
      · refine ((hs.online.modify h fun x => ?_).reconcile w).writeResume w h
        unfold Hosted.withSeedRatio
        simp only
        split
        · rfl
        · rfl
  | beginVerify h =>
      simp only [Fleet.step, Fleet.beginVerify]
      split
      · exact hs
      · rename_i e he
        split
        · exact hs
        · rename_i hidle
          refine hs.modify fun e' he' _ hlive => ?_
          obtain rfl := Option.some.inj (he.symm.trans he')
          simp only [Bool.or_eq_true, not_or] at hidle
          exact absurd hlive hidle.1
  | finishScan h result => exact hs.finishScan w h result
  | remove h => exact hs.remove w h

/-- Between two operations of the registry, a torrent that runs is wanted, its files are not
being hashed, and there is a network.  To bring the engines in line makes everything run that
should, twice is as good as once, and no engine that should run is touched. -/
theorem only_wanted_run (f : Faults) (order : List FileName) (d : Dir)
    (acts : List (World × Fleet.Op)) :
    OnlyWanted (Fleet.run sha1 toLowercase limits acts (Fleet.start sha1 toLowercase f order d)) ∧
      ∀ s, InLine s := by
  refine ⟨Machine.run_induction (fun a s hs => hs.step a) acts fun h e he hlive => ?_, inLine⟩
  rw [Registry.lookup_start f order d he] at hlive
  cases hlive

end Clove.Daemon
