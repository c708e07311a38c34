import Clove.Daemon.StateDir
import Clove.Lib.Machine

/-!
# The threads that fetch metadata

A pending magnet is fetched by a thread of its own (`spawn_metadata_fetch`).  The entry is
claimed when the thread is spawned, and from then on the thread knows its magnet by the
info-hash alone.  So a thread that is asleep or in a round while its magnet is removed and added
again goes on for the new entry, which gets a second thread.  And a thread whose torrent cannot
be added ends, while the entry stays, claimed by nobody.

`one_fetcher_each_iff` says that nothing else goes wrong: in every state of a run each claimed
magnet has exactly one thread, if and only if no thread is spawned beside an older one and no
claimed magnet's torrent is fetched when it cannot be added.
-/

namespace Clove.Daemon

/-! ## The registry's part -/

/-- What one round did. -/
structure FetchRound where
  trackersOk : Nat
  trackersFailed : Nat
  peersReturned : Nat
  peersTried : Nat
  lastError : Option Bytes
deriving Repr, DecidableEq

/-- What a listing shows of a fetch. -/
structure FetchProgress where
  rounds : Nat
  peersKnown : Nat
  peersTried : Nat
  trackersOk : Nat
  trackersFailed : Nat
  lastError : Option Bytes
deriving Repr, DecidableEq

def FetchProgress.none : FetchProgress := ⟨0, 0, 0, 0, 0, .none⟩

namespace Registry

/-- `true` once for an entry, whoever asks. -/
def claimFetch (infoHash : Bytes) (r : Registry) : Bool × Registry :=
  match r.pending.lookup infoHash with
  | some p =>
      if p.claimed then (false, r)
      else (true, { r with pending := r.pending.insert infoHash { p with claimed := true } })
  | none => (false, r)

/-- The trackers to ask.  `none` when the magnet is gone, `some none` when there is no network
yet. -/
def fetchContext (network : Bool) (infoHash : Bytes) (r : Registry) : Option (Option (List Bytes)) :=
  (r.pending.lookup infoHash).map fun p => if network then some p.magnet.trackers else none

/-- Whether a fetch thread is said to own the entry. -/
def claimed (r : Registry) (infoHash : Bytes) : Bool := (r.pending.lookup infoHash).any (·.claimed)

end Registry

/-! ## The threads -/

/-- Where a fetch thread is. -/
inductive FetchStage where
  /-- At the head of its loop, or asleep before it. -/
  | waiting
  /-- In a round, with the registry unlocked. -/
  | trying (trackers : List Bytes)
  /-- Before it publishes what the round brought. -/
  | noting (bytes : Option Bytes) (round : FetchRound)
  /-- Before it adds the torrent. -/
  | completing (bytes : Bytes)
deriving Repr, DecidableEq

/-- A fetch thread, from when it is spawned until it returns. -/
structure Fetcher where
  infoHash : Bytes
  firstRound : Bool
  rounds : Nat
  stage : FetchStage
deriving Repr, DecidableEq

/-- The registry and the threads that fetch for it. -/
structure Fetching where
  registry : Registry
  network : Bool
  progress : Bytes → FetchProgress
  fetchers : List Fetcher

namespace Fetching

variable (sha1 toLowercase : Bytes → Bytes)

/-- The daemon comes up on a state directory. -/
def start (f : Faults) (order : List FileName) (d : Dir) : Fetching where
  registry := Registry.start sha1 toLowercase f order d
  network := false
  progress := fun _ => .none
  fetchers := []

/-- `add_magnet`: a new entry starts with nothing to show. -/
def addMagnet (f : Faults) (uri : Bytes) (s : Fetching) : Fetching :=
  match s.registry.addMagnet f uri with
  | (.ok infoHash, r) =>
      { s with registry := r, progress := Function.update s.progress infoHash .none }
  | (.error _, r) => { s with registry := r }

/-- `note_fetch_round`: nothing for a magnet that is gone. -/
def noteFetchRound (infoHash : Bytes) (rounds : Nat) (round : FetchRound) (s : Fetching) :
    Fetching :=
  if s.registry.pending.has infoHash then
    let progress : FetchProgress :=
      ⟨rounds, round.peersReturned, round.peersTried, round.trackersOk, round.trackersFailed,
        round.lastError⟩
    { s with progress := Function.update s.progress infoHash progress }
  else s

/-- `spawn_metadata_fetch`, when the thread can be spawned. -/
def spawn (infoHash : Bytes) (s : Fetching) : Fetching :=
  match s.registry.claimFetch infoHash with
  | (true, r) =>
      { s with registry := r, fetchers := s.fetchers ++ [⟨infoHash, true, 0, .waiting⟩] }
  | (false, r) => { s with registry := r }

/-- The next step of thread `i`.  `found` and `round` are what a round brings, and `f` the calls
that fail when the torrent is added. -/
def advance (i : Nat) (found : Option Bytes) (round : FetchRound) (f : Faults) (now : Nat)
    (s : Fetching) : Fetching :=
  match s.fetchers[i]? with
  | none => s
  | some t =>
      match t.stage with
      | .waiting =>
          match s.registry.fetchContext s.network t.infoHash with
          | none => { s with fetchers := s.fetchers.eraseIdx i }
          | some none => { s with fetchers := s.fetchers.set i { t with firstRound := false } }
          | some (some trackers) =>
              let t := { t with rounds := t.rounds + 1, stage := .trying trackers }
              { s with fetchers := s.fetchers.set i t }
      | .trying _ =>
          { s with fetchers := s.fetchers.set i { t with stage := .noting found round } }
      | .noting bytes round =>
          let s := s.noteFetchRound t.infoHash t.rounds round
          match bytes with
          | some bytes => { s with fetchers := s.fetchers.set i { t with stage := .completing bytes } }
          | none =>
              let t := { t with firstRound := false, stage := .waiting }
              { s with fetchers := s.fetchers.set i t }
      | .completing bytes =>
          -- Added or not, the thread returns.
          { s with
            registry :=
              (s.registry.completeMagnet sha1 toLowercase f now t.infoHash bytes).2
            fetchers := s.fetchers.eraseIdx i }

/-- A step of the daemon. -/
inductive Event where
  | attachNetwork
  | detachNetwork
  | addTorrent (f : Faults) (now : Nat) (bytes : Bytes) (options : AddOptions)
  | addMagnet (f : Faults) (uri : Bytes)
  | remove (f : Faults) (left : Hosted) (infoHash : Bytes)
  /-- Whatever else is done to a hosted torrent. -/
  | tend (f : Faults) (infoHash : Bytes) (hosted : Hosted) (record : Option Bytes)
  | spawn (infoHash : Bytes)
  | advance (i : Nat) (found : Option Bytes) (round : FetchRound) (f : Faults) (now : Nat)

def step (e : Event) (s : Fetching) : Fetching :=
  match e with
  | .attachNetwork => { s with network := true }
  | .detachNetwork => { s with network := false }
  | .addTorrent f now bytes options =>
      { s with registry := (s.registry.addTorrent sha1 toLowercase f now bytes options).2 }
  | .addMagnet f uri => s.addMagnet f uri
  | .remove f left infoHash => { s with registry := (s.registry.remove f left infoHash).2 }
  | .tend f infoHash hosted record =>
      { s with registry := s.registry.tend f infoHash hosted record }
  | .spawn infoHash => s.spawn infoHash
  | .advance i found round f now => s.advance sha1 toLowercase i found round f now

/-- The threads that fetch for an info-hash.  Each runs another round when it finds the magnet,
is in one, or is about to complete it. -/
def fetchersOf (s : Fetching) (infoHash : Bytes) : Nat :=
  s.fetchers.countP fun t => t.infoHash = infoHash

/-- Every claimed magnet has exactly one thread. -/
def OneFetcherEach (s : Fetching) : Prop :=
  ∀ h, s.registry.claimed h = true → s.fetchersOf h = 1

end Fetching

/-- The torrent can be added: it parses, no hosted one has its info-hash or its name, and its
two files can be written. -/
def Addable (sha1 toLowercase : Bytes → Bytes) (f : Faults) (bytes : Bytes) (r : Registry) : Prop :=
  ∃ m, MetaInfo.parse sha1 toLowercase bytes = .ok m ∧ r.torrents.has m.infoHash = false ∧
    r.clashes m = false ∧ ¬ Refused f (stateFile m.infoHash .torrent) r.dir ∧
    ¬ Refused f (stateFile m.infoHash .resume) r.dir

/-- No thread is spawned beside an older one for the same info-hash, and a claimed magnet's
torrent can be added once it is fetched. -/
def Tidy (sha1 toLowercase : Bytes → Bytes) (e : Fetching.Event) (s : Fetching) : Prop :=
  match e with
  | .spawn h => s.registry.pending.has h = true → s.registry.claimed h = false → s.fetchersOf h = 0
  | .advance i _ _ f _ => ∀ t bytes, s.fetchers[i]? = some t → t.stage = .completing bytes →
      s.registry.claimed t.infoHash = true → Addable sha1 toLowercase f bytes s.registry
  | _ => True

variable {sha1 toLowercase : Bytes → Bytes} {f : Faults} {d : Dir} {r : Registry} {s : Fetching}

/-! ## What the registry does to the claims -/

namespace Registry

theorem claimed_congr {r' : Registry} (h : r'.pending = r.pending) (k : Bytes) :
    r'.claimed k = r.claimed k := by
  rw [claimed, claimed, h]

theorem claimed_insert (k : Bytes) (p : PendingMagnet) (j : Bytes) (d : Dir) :
    claimed { r with pending := r.pending.insert k p, dir := d } j =
      if j = k then p.claimed else r.claimed j := by
  rw [claimed, OrdMap.Tree.lookup_insert]
  split
  · rfl
  · rfl

theorem claimed_erase (k j : Bytes) (d : Dir) :
    claimed { r with pending := r.pending.erase k, dir := d } j =
      if j = k then false else r.claimed j := by
  rw [claimed, OrdMap.Tree.lookup_erase]
  split
  · rfl
  · rfl

theorem has_of_claimed {h : Bytes} (hc : r.claimed h = true) : r.pending.has h = true := by
  rw [claimed] at hc
  cases hlookup : r.pending.lookup h with
  | none => rw [hlookup] at hc; cases hc
  | some p => rw [OrdMap.Tree.has, hlookup]; rfl

theorem pending_addTorrent (f : Faults) (now : Nat) (bytes : Bytes) (options : AddOptions)
    (r : Registry) : (addTorrent sha1 toLowercase f now bytes options r).2.pending = r.pending := by
  have hcases : Adds sha1 toLowercase f now bytes options r _ :=
    addTorrent_cases f now bytes options r
  generalize addTorrent sha1 toLowercase f now bytes options r = out at hcases ⊢
  cases hcases with
  | rejected _ _ => rfl
  | refused _ _ _ => rfl
  | undone _ _ _ _ _ => rfl
  | added _ _ _ _ _ _ => rfl

theorem pending_stopLive (left : Hosted) (h : Bytes) (r : Registry) :
    (r.stopLive left h).pending = r.pending := by
  unfold stopLive
  split
  · rfl
  · split
    · rfl
    · rfl

theorem pending_tend (f : Faults) (h : Bytes) (hosted : Hosted) (record : Option Bytes)
    (r : Registry) : (r.tend f h hosted record).pending = r.pending := by
  unfold tend
  split
  · rfl
  · rfl

/-- Adding a torrent works exactly when it can be added. -/
theorem addTorrent_ok_iff (f : Faults) (now : Nat) (bytes : Bytes) (options : AddOptions)
    (r : Registry) : (∃ h, (addTorrent sha1 toLowercase f now bytes options r).1 = .ok h) ↔
      Addable sha1 toLowercase f bytes r := by
  constructor
  · rintro ⟨h, hok⟩
    unfold addTorrent at hok
    cases hparse : MetaInfo.parse sha1 toLowercase bytes with
    | error e => rw [hparse] at hok; cases hok
    | ok m =>
        rw [hparse] at hok
        simp only at hok
        split at hok
        · cases hok
        rename_i hnew
        split at hok
        · cases hok
        rename_i hclash
        obtain ⟨htorrent, d₁, heq, hbeside⟩ | ⟨-, e, d₁, heq, -⟩ :=
          atomicWrite_cases f (stateFile m.infoHash .torrent) bytes r.dir
        · rw [heq] at hok
          simp only at hok
          obtain ⟨hresume, -⟩ | ⟨-, e, d₂, heq₂, -⟩ := atomicWrite_cases f
            (stateFile m.infoHash .resume) (newRecord sha1 m now options) d₁
          · have htmp : d₁ (stateFile m.infoHash .resume).tmp =
                r.dir (stateFile m.infoHash .resume).tmp :=
              (hbeside _ (tmp_stateFile_ne _ (by decide))).trans
                ((put_apply _ _ _).trans (if_neg (stateFile_ne_tmp _ _ _ _).symm))
            exact ⟨m, hparse, by simpa using hnew, by simpa [clashes] using hclash, htorrent,
              fun hrefused => hresume ((refused_congr htmp).2 hrefused)⟩
          · unfold newRecord at heq₂
            rw [heq₂] at hok
            cases hok
        · rw [heq] at hok
          cases hok
  · rintro ⟨m, hparse, hnew, hclash, htorrent, hresume⟩
    have hself : ∀ {m'}, MetaInfo.parse sha1 toLowercase bytes = .ok m' → m' = m :=
      fun hm => (Except.ok.inj (hparse.symm.trans hm)).symm
    have hcases : Adds sha1 toLowercase f now bytes options r _ :=
      addTorrent_cases f now bytes options r
    generalize addTorrent sha1 toLowercase f now bytes options r = out at hcases ⊢
    cases hcases with
    | rejected e hold =>
        cases hold m hparse with
        | inl hhas =>
            rw [hnew] at hhas
            cases hhas
        | inr hhas =>
            rw [hclash] at hhas
            cases hhas
    | refused hparse' hrefused _ => exact absurd (hself hparse' ▸ hrefused) htorrent
    | undone hparse' _ _ hrefused _ => exact absurd (hself hparse' ▸ hrefused) hresume
    | added _ _ _ _ _ _ => exact ⟨_, rfl⟩

/-- A magnet whose torrent is added is gone, and one whose torrent is not stays. -/
theorem claimed_completeMagnet (f : Faults) (now : Nat) (h bytes : Bytes) (r : Registry)
    (j : Bytes) : (completeMagnet sha1 toLowercase f now h bytes r).2.claimed j = true ↔
      r.claimed j = true ∧ (j = h → ¬ Addable sha1 toLowercase f bytes r) := by
  rw [← addTorrent_ok_iff f now bytes ⟨false, false⟩ r]
  have hpending : (addTorrent sha1 toLowercase f now bytes ⟨false, false⟩ r).2.pending =
      r.pending := pending_addTorrent f now bytes _ r
  unfold completeMagnet
  cases hadd : addTorrent sha1 toLowercase f now bytes ⟨false, false⟩ r with
  | mk out r' =>
      rw [hadd] at hpending
      cases out with
      | error e => simp [claimed_congr hpending]
      | ok added =>
          simp only [claimed_erase, claimed_congr hpending]
          by_cases heq : j = h
          · simp [heq]
          · simp [heq]

/-- A registry that has just started has claimed nothing. -/
theorem claimed_start (f : Faults) (order : List FileName) (d : Dir) (h : Bytes) :
    (start sha1 toLowercase f order d).claimed h = false := by
  have htorrents : ∀ (l : List FileName) (r : Registry),
      (l.foldl (loadOne sha1 toLowercase f) r).pending = r.pending := by
    intro l
    induction l with
    | nil => exact fun r => rfl
    | cons n l ih =>
        intro r
        rw [List.foldl_cons, ih]
        unfold loadOne
        split
        · rfl
        · rfl
  have hmagnets : ∀ (l : List FileName) (r : Registry), r.claimed h = false →
      (l.foldl (loadMagnet f) r).claimed h = false := by
    intro l
    induction l with
    | nil => exact fun r hr => hr
    | cons n l ih =>
        intro r hr
        refine ih _ ?_
        unfold loadMagnet
        split
        · exact hr
        split
        · exact hr
        · rw [claimed_insert, hr]
          exact ite_self _
  unfold start loadAll
  split
  · rfl
  · exact hmagnets _ _ ((claimed_congr (htorrents _ _) h).trans rfl)

end Registry

/-! ## What a step does to the threads -/

namespace Fetching

/-- Where no thread comes or goes, no claim may be new. -/
theorem OneFetcherEach.of_claimed {s' : Fetching} (hs : s.OneFetcherEach)
    (hcount : ∀ h, s'.fetchersOf h = s.fetchersOf h)
    (hclaimed : ∀ h, s'.registry.claimed h = true → s.registry.claimed h = true) :
    s'.OneFetcherEach :=
  fun h hc => (hcount h).trans (hs h (hclaimed h hc))

/-- A thread that goes on is still there. -/
theorem fetchersOf_set {i : Nat} {t t' : Fetcher} (hi : s.fetchers[i]? = some t)
    (h : t'.infoHash = t.infoHash) (k : Bytes) :
    fetchersOf { s with fetchers := s.fetchers.set i t' } k = s.fetchersOf k :=
  Lists.countP_set_eq hi (by rw [h])

/-- A thread that returns is one less. -/
theorem fetchersOf_eraseIdx {i : Nat} {t : Fetcher} (hi : s.fetchers[i]? = some t) (r : Registry)
    (k : Bytes) :
    fetchersOf { s with registry := r, fetchers := s.fetchers.eraseIdx i } k +
      (if t.infoHash = k then 1 else 0) = s.fetchersOf k := by
  have hcount := Lists.countP_eraseIdx (p := fun t => decide (t.infoHash = k)) hi
  simp only [decide_eq_true_eq] at hcount
  exact hcount

/-- A thread that is spawned is one more. -/
theorem fetchersOf_append (t : Fetcher) (r : Registry) (k : Bytes) :
    fetchersOf { s with registry := r, fetchers := s.fetchers ++ [t] } k =
      s.fetchersOf k + if t.infoHash = k then 1 else 0 := by
  simp [fetchersOf, List.countP_append, List.countP_singleton]

/-- Spawning keeps one thread each if there is none yet for a magnet that nobody has claimed. -/
theorem OneFetcherEach.spawn_iff (hs : s.OneFetcherEach) (h : Bytes) :
    (s.spawn h).OneFetcherEach ↔
      (s.registry.pending.has h = true → s.registry.claimed h = false → s.fetchersOf h = 0) := by
  unfold spawn Registry.claimFetch
  cases hlookup : s.registry.pending.lookup h with
  | none =>
      refine iff_of_true hs fun hhas _ => ?_
      rw [OrdMap.Tree.has, hlookup] at hhas
      cases hhas
  | some p =>
      have hhas : s.registry.pending.has h = true := by rw [OrdMap.Tree.has, hlookup]; rfl
      have hclaimed : s.registry.claimed h = p.claimed := by rw [Registry.claimed, hlookup]; rfl
      cases hp : p.claimed with
      | true =>
          simp only [hp, if_true]
          refine iff_of_true hs fun _ hc => ?_
          rw [hclaimed, hp] at hc
          cases hc
      | false =>
          simp only [hp, Bool.false_eq_true, if_false, hhas, hclaimed, forall_const]
          constructor
          · intro hall
            have hone := hall h (by rw [Registry.claimed_insert, if_pos rfl])
            rw [fetchersOf_append, if_pos rfl] at hone
            omega
          · intro hzero k hk
            rw [fetchersOf_append]
            by_cases heq : h = k
            · rw [if_pos heq, ← heq, hzero]
            · rw [if_neg heq]
              rw [Registry.claimed_insert, if_neg (Ne.symm heq)] at hk
              exact hs k hk

/-- The step of a thread keeps one thread each, if it is not one that leaves its magnet
behind. -/
theorem OneFetcherEach.advance_iff (hs : s.OneFetcherEach) (i : Nat) (found : Option Bytes)
    (round : FetchRound) (f : Faults) (now : Nat) :
    (s.advance sha1 toLowercase i found round f now).OneFetcherEach ↔
      ∀ t bytes, s.fetchers[i]? = some t → t.stage = .completing bytes →
        s.registry.claimed t.infoHash = true → Addable sha1 toLowercase f bytes s.registry := by
  unfold advance
  cases hi : s.fetchers[i]? with
  | none => exact iff_of_true hs fun _ _ h => by cases h
  | some t =>
      simp only
      cases hstage : t.stage with
      | waiting =>
          refine iff_of_true ?_ fun t' _ h hst => ?_
          · unfold Registry.fetchContext
            cases hlookup : s.registry.pending.lookup t.infoHash with
            | none =>
                -- the magnet is gone, so its thread is not missed
                intro k hk
                have hne : t.infoHash ≠ k := by
                  rintro rfl
                  have hhas : s.registry.pending.has t.infoHash = true := Registry.has_of_claimed hk
                  rw [OrdMap.Tree.has, hlookup] at hhas
                  cases hhas
                have hcount := fetchersOf_eraseIdx hi s.registry k
                rw [if_neg hne, Nat.add_zero] at hcount
                exact hcount.trans (hs k hk)
            | some p =>
                cases hnetwork : s.network with
                | true => exact hs.of_claimed (fetchersOf_set hi rfl) fun _ h => h
                | false => exact hs.of_claimed (fetchersOf_set hi rfl) fun _ h => h
          · rw [← Option.some.inj h, hstage] at hst
            cases hst
      | trying trackers =>
          refine iff_of_true (hs.of_claimed (fetchersOf_set hi rfl) fun _ h => h)
            fun t' _ h hst => ?_
          rw [← Option.some.inj h, hstage] at hst
          cases hst
      | noting bytes round =>
          refine iff_of_true ?_ fun t' _ h hst => ?_
          · have hnote : (s.noteFetchRound t.infoHash t.rounds round).registry = s.registry ∧
                (s.noteFetchRound t.infoHash t.rounds round).fetchers = s.fetchers := by
              unfold noteFetchRound
              split
              · exact ⟨rfl, rfl⟩
              · exact ⟨rfl, rfl⟩
            simp only
            generalize s.noteFetchRound t.infoHash t.rounds round = s' at hnote ⊢
            have hs' : s'.OneFetcherEach := by
              intro k hk
              rw [hnote.1] at hk
              rw [fetchersOf, hnote.2]
              exact hs k hk
            have hi' : s'.fetchers[i]? = some t := hnote.2 ▸ hi
            cases bytes with
            | none => exact hs'.of_claimed (fetchersOf_set hi' rfl) fun _ h => h
            | some bytes => exact hs'.of_claimed (fetchersOf_set hi' rfl) fun _ h => h
          · rw [← Option.some.inj h, hstage] at hst
            cases hst
      | completing bytes =>
          have hcount := fetchersOf_eraseIdx hi
            (s.registry.completeMagnet sha1 toLowercase f now t.infoHash bytes).2
          constructor
          · intro hall t' bytes' h hst hc
            obtain rfl : t = t' := Option.some.inj h
            obtain rfl : bytes = bytes' := FetchStage.completing.inj (hstage.symm.trans hst)
            by_contra hnot
            have hone := hall t.infoHash
              ((Registry.claimed_completeMagnet f now t.infoHash bytes s.registry _).2
                ⟨hc, fun _ => hnot⟩)
            have hsum := hcount t.infoHash
            rw [if_pos rfl, hs t.infoHash hc] at hsum
            simp only at hone
            omega
          · intro hadd k hk
            obtain ⟨hc, hstays⟩ :=
              (Registry.claimed_completeMagnet f now t.infoHash bytes s.registry k).1 hk
            have hne : t.infoHash ≠ k := by
              rintro rfl
              exact hstays rfl (hadd t bytes rfl hstage hc)
            have hsum := hcount k
            rw [if_neg hne, Nat.add_zero] at hsum
            exact hsum.trans (hs k hc)

/-- A step keeps one thread each exactly when it is tidy. -/
theorem OneFetcherEach.step_iff (hs : s.OneFetcherEach) (e : Event) :
    (s.step sha1 toLowercase e).OneFetcherEach ↔ Tidy sha1 toLowercase e s := by
  cases e with
  | attachNetwork => exact iff_of_true hs trivial
  | detachNetwork => exact iff_of_true hs trivial
  | addTorrent f now bytes options =>
      refine iff_of_true (hs.of_claimed (fun _ => rfl) fun h hc => ?_) trivial
      exact (Registry.claimed_congr (Registry.pending_addTorrent f now bytes options _) h) ▸ hc
  | addMagnet f uri =>
      refine iff_of_true ?_ trivial
      have hcases := addMagnet_cases f uri s.registry
      simp only [step, addMagnet]
      generalize s.registry.addMagnet f uri = out at hcases
      cases hcases with
      | rejected _ => exact hs.of_claimed (fun _ => rfl) fun _ h => h
      | refused _ => exact hs.of_claimed (fun _ => rfl) fun _ h => h
      | added _ _ _ _ =>
          refine hs.of_claimed (fun _ => rfl) fun h hc => ?_
          rw [Registry.claimed_insert] at hc
          split at hc
          · cases hc
          · exact hc
  | remove f left k =>
      refine iff_of_true (hs.of_claimed (fun _ => rfl) fun h hc => ?_) trivial
      have hcases := remove_cases f left k s.registry
      simp only [step] at hc
      generalize s.registry.remove f left k = out at hcases hc
      have hstop := Registry.pending_stopLive left k s.registry
      cases hcases with
      | absent _ _ => exact hc
      | scanning _ _ _ => exact hc
      | magnetStays _ _ => exact hc
      | magnet _ =>
          rw [Registry.claimed_erase] at hc
          split at hc
          · cases hc
          · exact hc
      | torrentStays _ _ _ _ => exact Registry.claimed_congr hstop h ▸ hc
      | resumeStays _ _ _ _ _ => exact Registry.claimed_congr hstop h ▸ hc
      | torrent _ _ => exact Registry.claimed_congr hstop h ▸ hc
  | tend f k hosted record =>
      refine iff_of_true (hs.of_claimed (fun _ => rfl) fun h hc => ?_) trivial
      exact Registry.claimed_congr (Registry.pending_tend f k hosted record _) h ▸ hc
  | spawn h => exact hs.spawn_iff h
  | advance i found round f now => exact hs.advance_iff i found round f now

/-- A daemon that comes up has claimed nothing. -/
theorem oneFetcherEach_start (f : Faults) (order : List FileName) (d : Dir) :
    (start sha1 toLowercase f order d).OneFetcherEach := by
  intro h hc
  rw [start, Registry.claimed_start] at hc
  cases hc

/-- In every state of a run each claimed magnet has exactly one thread, if and only if every
step of the run is tidy. -/
theorem one_fetcher_each_iff (f : Faults) (order : List FileName) (d : Dir) (es : List Event) :
    (∀ es', es' <+: es → OneFetcherEach
      (Machine.run (step sha1 toLowercase) es' (start sha1 toLowercase f order d))) ↔
      Machine.Along (step sha1 toLowercase) (Tidy sha1 toLowercase) es
        (start sha1 toLowercase f order d) :=
  Machine.always_iff_along (fun e _ hs => hs.step_iff e) (oneFetcherEach_start f order d)

end Fetching

/-! ## Two ways to go wrong -/

namespace Demo

open Fetching

/-- An entry of `demo`; removing a magnet does not look at it. -/
def demoEntry : Hosted := Hosted.new (sharedOf digest demoInfo) 0 false false

/-- A round that finds the torrent. -/
def found : Event := .advance 0 (some (torrentFile "demo")) ⟨1, 0, 1, 1, none⟩ .none 0

/-- The magnet is added and its thread spawned. -/
def fetched : List Event := [.attachNetwork, .addMagnet .none link, .spawn demoHash]

/-- The torrent file is added while the metadata is fetched. -/
def overtaken : List Event :=
  fetched ++ [found, found, found, .addTorrent .none 0 (torrentFile "demo") ⟨false, false⟩, found]

/-- The magnet is removed and added again while its thread is asleep. -/
def replaced : List Event :=
  fetched ++ [.remove .none demoEntry demoHash, .addMagnet .none link, .spawn demoHash]

end Demo

open Demo Fetching in
/-- In the first run the magnet is left without a thread, though it is still pending and
claimed, and in the second it has two. -/
theorem fetchers_none_or_two :
    ¬ OneFetcherEach (Machine.run (step digest lower) overtaken
        (start digest lower .none [] emptyDir)) ∧
      ¬ OneFetcherEach (Machine.run (step digest lower) replaced
        (start digest lower .none [] emptyDir)) := by
  constructor
  · intro h
    have hone := h demoHash (by decide +kernel)
    revert hone
    decide +kernel
  · intro h
    have hone := h demoHash (by decide +kernel)
    revert hone
    decide +kernel

end Clove.Daemon
