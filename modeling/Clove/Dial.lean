import Clove.Lib.Handout
import Clove.Lib.Machine
import Clove.Torrent.State

/-!
# The dial sweep

The model of `dial_loop` and `sweep` in `swarm.rs`, and of what they ask a torrent.  A sweep counts
the room there is, forgets the failures that have been sat out, asks for destinations to dial, and
has them dialled by workers that share the list.  The torrent, the budget and the clock go on
meanwhile, so every access is a step of its own, and it meets the torrent in any state.

`waves_exact` says what every wave of every run does: whom it dials, how often, and for how long a
destination that failed is left alone.
-/

namespace Clove

open Handout (Pool)

/-! ## What the sweep asks the torrent -/

namespace Torrent.State

def connectedPeers (st : State) : List DestHash := st.peers.map (·.dest)

/-- How much longer a destination is held off the dial sweep, if it is. -/
def heldFor (st : State) (dest : DestHash) (now : Nat) : Option Nat :=
  ((st.offences.lookup dest).map fun e => e.2 - now).filter (· ≠ 0)

def dialCandidates (st : State) (rank : DestHash → Nat) (now : Nat) : List DestHash :=
  (st.walk rank).filter fun dest =>
    dest ∉ st.banned && st.localDest ≠ some dest && (st.heldFor dest now).isNone

theorem lookup_retain {κ ν : Type} [DecidableEq κ] (m : Map κ ν) (keep : ν → Bool) (k : κ) :
    (retain m keep).lookup k = (m.lookup k).filter keep := by
  have hfold : ∀ (keys : List κ) (m : Map κ ν),
      (keys.foldl (fun m k => if (m.lookup k).any keep then m else m.erase k) m).lookup k =
        if k ∈ keys then (m.lookup k).filter keep else m.lookup k := by
    intro keys
    induction keys with
    | nil => simp
    | cons j keys ih =>
        intro m
        rw [List.foldl_cons, ih]
        by_cases hj : k = j
        · subst hj
          rw [if_pos List.mem_cons_self]
          cases hlookup : m.lookup k with
          | none => simp
          | some v => cases hkeep : keep v <;> simp [hlookup, hkeep, Option.filter_some]
        · have hsame : (if (m.lookup j).any keep then m else m.erase j).lookup k = m.lookup k := by
            split
            · rfl
            · rw [Map.lookup_erase, if_neg hj]
          rw [hsame]
          simp [hj]
  rw [retain, hfold]
  split
  · rfl
  · rename_i hk
    have hnone : m.lookup k = none := AList.lookup_eq_none.2 fun hmem => hk (AList.mem_keys.1 hmem)
    rw [hnone]
    rfl

variable {st : State} {rank : DestHash → Nat} {now : Nat} {dest : DestHash}

theorem mem_walk : dest ∈ st.walk rank ↔ dest ∈ st.knownPeers := by
  rw [walk, List.mem_insertionSort]
  exact AList.mem_keys.symm

theorem nodup_walk (st : State) (rank : DestHash → Nat) : (st.walk rank).Nodup :=
  (List.perm_insertionSort _ _).nodup_iff.2 st.knownPeers.nodupKeys

theorem heldFor_isNone : (st.heldFor dest now).isNone ↔
    ∀ n due, st.offences.lookup dest = some (n, due) → due ≤ now := by
  rw [heldFor]
  cases hlookup : st.offences.lookup dest with
  | none => simp
  | some e =>
      simp only [Option.map_some, Option.filter_some, Option.some.injEq]
      constructor
      · intro h n due heq
        subst heq
        by_contra hlt
        simp [Nat.sub_ne_zero_of_lt (Nat.lt_of_not_le hlt)] at h
      · intro h
        have hle : e.2 ≤ now := h e.1 e.2 rfl
        simp [Nat.sub_eq_zero_of_le hle]

theorem mem_dialCandidates : dest ∈ st.dialCandidates rank now ↔
    dest ∈ st.knownPeers ∧ dest ∉ st.banned ∧ st.localDest ≠ some dest ∧
      ∀ n due, st.offences.lookup dest = some (n, due) → due ≤ now := by
  rw [dialCandidates, List.mem_filter, mem_walk, ← heldFor_isNone]
  simp only [Bool.and_eq_true, decide_eq_true_eq, and_assoc]

end Torrent.State

namespace Dial

open Torrent (State)

structure SwarmConfig where
  /-- How long a peer sits out after a failed dial or attach. -/
  retryBackoff : Nat
  maxPeers : Nat
  /-- How many dials may be in flight at once within one sweep. -/
  dialConcurrency : Nat
deriving Repr, DecidableEq

def SwarmConfig.default : SwarmConfig := ⟨30000, 50, 8⟩

/-- The list a sweep shares out, and what it was made from. -/
structure Wave where
  /-- The torrent when the room was counted. -/
  seen : State
  /-- What was left of the budget of all torrents. -/
  available : Nat
  /-- When the failures that had been sat out were forgotten. -/
  prunedAt : Nat
  /-- The torrent when it was asked for destinations, when that was, and the order in which it walked
  them. -/
  torrent : State
  listedAt : Nat
  rank : DestHash → Nat
  /-- Workers still to be spawned. -/
  unspawned : Nat
  /-- The destinations, each with whether it was attached. -/
  pool : Pool DestHash Bool

namespace Wave

def failed (w : Wave) : List DestHash := (w.pool.done.filter (!·.2)).map Prod.fst

def work (w : Wave) (act : Handout.Act Bool) : Wave := { w with pool := w.pool.step act }

end Wave

/-- Where `dial_loop` is. -/
inductive Phase where
  /-- About to sweep. -/
  | ready
  | sized (seen : State) (available : Nat)
  | pruned (seen : State) (available prunedAt : Nat)
  | dialling (w : Wave)
  /-- Between two sweeps. -/
  | waiting
  | ended

structure Dialler where
  now : Nat
  /-- Whether the stop flag is raised. -/
  stopped : Bool
  retryAfter : Map DestHash Nat
  phase : Phase
  /-- Not in the source: the waves that have finished, and when. -/
  waves : List (Wave × Nat)

def Dialler.new (now : Nat) : Dialler := ⟨now, false, ∅, .ready, []⟩

inductive Event where
  /-- Time passes. -/
  | tick (elapsed : Nat)
  | raise
  /-- `connected_peers` and `available` are read. -/
  | size (st : State) (available : Nat)
  /-- The failures that have been sat out are forgotten. -/
  | prune
  /-- `dial_candidates` is asked. -/
  | list (st : State) (rank : DestHash → Nat)
  /-- A worker is spawned, or cannot be. -/
  | spawn (ok : Bool)
  /-- A worker looks at the stop flag. -/
  | look (i : Nat)
  /-- A worker counts on. -/
  | fetch (i : Nat)
  /-- A dial and the attach after it succeed or fail. -/
  | finish (i : Nat) (attached : Bool)
  /-- All workers have returned. -/
  | close
  /-- The pause between two sweeps is over. -/
  | wake

variable (config : SwarmConfig)

/-- How many peers a sweep has room for. -/
def room (st : State) (available : Nat) : Nat :=
  min (config.maxPeers - st.connectedPeers.length) available

/-- The destinations a sweep dials. -/
def candidates (seen : State) (available : Nat) (retryAfter : Map DestHash Nat) (st : State)
    (rank : DestHash → Nat) (now : Nat) : List DestHash :=
  ((st.dialCandidates rank now).filter fun peer =>
    peer ∉ seen.connectedPeers && peer ∉ retryAfter).take (room config seen available)

/-- `usize::clamp`. -/
def clamp (n low high : Nat) : Nat := if n < low then low else if high < n then high else n

def step (e : Event) (d : Dialler) : Dialler :=
  match e, d.phase with
  | .tick elapsed, _ => { d with now := d.now + elapsed }
  | .raise, _ => { d with stopped := true }
  | .size st available, .ready =>
      { d with phase := if room config st available = 0 then .waiting else .sized st available }
  | .prune, .sized seen available =>
      { d with
        retryAfter := State.retain d.retryAfter fun due => d.now < due
        phase := .pruned seen available d.now }
  | .list st rank, .pruned seen available prunedAt =>
      let peers := candidates config seen available d.retryAfter st rank d.now
      if peers = [] then { d with phase := .waiting }
      else
        { d with
          phase := .dialling
            { seen := seen
              available := available
              prunedAt := prunedAt
              torrent := st
              listedAt := d.now
              rank := rank
              unspawned := clamp config.dialConcurrency 1 peers.length
              pool := .new peers } }
  | .spawn ok, .dialling w =>
      if w.unspawned = 0 then d
      else if ok then
        { d with phase := .dialling { w.work .join with unspawned := w.unspawned - 1 } }
      else { d with phase := .dialling { w with unspawned := 0 } }
  | .look i, .dialling w => { d with phase := .dialling (w.work (.look i d.stopped)) }
  | .fetch i, .dialling w => { d with phase := .dialling (w.work (.count i)) }
  | .finish i attached, .dialling w =>
      { d with phase := .dialling (w.work (.finish i attached)) }
  | .close, .dialling w =>
      if w.unspawned = 0 ∧ w.pool.allLeft = true then
        { d with
          retryAfter := w.failed.foldl (fun m peer => m.insert peer (d.now + config.retryBackoff))
            d.retryAfter
          phase := .waiting
          waves := d.waves ++ [(w, d.now)] }
      else d
  | .wake, .waiting => { d with phase := if d.stopped then .ended else .ready }
  | _, _ => d

def run (events : List Event) (d : Dialler) : Dialler := Machine.run (step config) events d

/-! ## What a wave is -/

/-- A destination that failed in a wave, and has not sat it out. -/
def SitsOut (earlier : List (Wave × Nat)) (now : Nat) (dest : DestHash) : Prop :=
  ∃ c ∈ earlier, dest ∈ c.1.failed ∧ now < c.2 + config.retryBackoff

/-- A destination that a wave may dial, after other waves. -/
structure Eligible (earlier : List (Wave × Nat)) (w : Wave) (dest : DestHash) : Prop where
  known : dest ∈ w.torrent.knownPeers
  unbanned : dest ∉ w.torrent.banned
  other : w.torrent.localDest ≠ some dest
  /-- No offence holds it off. -/
  unheld : ∀ n due, w.torrent.offences.lookup dest = some (n, due) → due ≤ w.listedAt
  unconnected : ∀ p ∈ w.seen.peers, p.dest ≠ dest
  rested : ¬ SitsOut config earlier w.prunedAt dest

/-- A wave dials whom it may, within the room there is, and leaves nobody out unless there is no more
room. -/
structure Chosen (earlier : List (Wave × Nat)) (w : Wave) : Prop where
  nodup : w.pool.items.Nodup
  eligible : ∀ dest ∈ w.pool.items, Eligible config earlier w dest
  fits : w.pool.items.length ≤ room config w.seen w.available
  full : ∀ dest, Eligible config earlier w dest → dest ∉ w.pool.items →
    w.pool.items.length = room config w.seen w.available

/-- Nobody is dialled twice in a wave, and only so many are dialled at once. -/
structure Once (w : Wave) : Prop where
  nodup : (w.pool.done.map Prod.fst ++ w.pool.inFlight).Nodup
  listed : w.pool.done.map Prod.fst ++ w.pool.inFlight ⊆ w.pool.items
  width : w.pool.inFlight.length ≤ max 1 config.dialConcurrency

/-- A wave that has finished leaves nobody undialled, unless no worker could be spawned or one of
them was stopped. -/
structure Finished (w : Wave) : Prop where
  quiet : w.pool.inFlight = []
  all : w.pool.workers ≠ [] → Handout.Worker.stopped ∉ w.pool.workers →
    (w.pool.done.map Prod.fst).Perm w.pool.items

/-- What is true of a dialler. -/
structure Exact (d : Dialler) : Prop where
  chosen : ∀ earlier w finished later, d.waves = earlier ++ (w, finished) :: later →
    Chosen config earlier w ∧ Once config w ∧ Finished w
  current : ∀ w, d.phase = .dialling w → Chosen config d.waves w ∧ Once config w

/-! ## One wave -/

variable {config} {d : Dialler} {w : Wave}

theorem clamp_le (n high : Nat) : clamp n 1 high ≤ max 1 n := by
  unfold clamp
  split
  · exact le_max_left 1 n
  · split
    · omega
    · exact le_max_right 1 n

/-- What is left after the filters is who may be dialled. -/
theorem mem_filtered {earlier : List (Wave × Nat)} {retryAfter : Map DestHash Nat}
    (hretry : ∀ dest, dest ∈ retryAfter ↔ SitsOut config earlier w.prunedAt dest)
    (dest : DestHash) :
    (dest ∈ (w.torrent.dialCandidates w.rank w.listedAt).filter fun peer =>
      peer ∉ w.seen.connectedPeers && peer ∉ retryAfter) ↔ Eligible config earlier w dest := by
  rw [List.mem_filter, State.mem_dialCandidates]
  simp only [Bool.and_eq_true, decide_eq_true_eq, State.connectedPeers, List.mem_map, not_exists,
    not_and]
  constructor
  · rintro ⟨⟨hknown, hbanned, hlocal, hheld⟩, hconnected, hretried⟩
    exact ⟨hknown, hbanned, hlocal, hheld, hconnected, fun hout => hretried ((hretry dest).2 hout)⟩
  · intro h
    exact ⟨⟨h.known, h.unbanned, h.other, h.unheld⟩, h.unconnected,
      fun hmem => h.rested ((hretry dest).1 hmem)⟩

theorem chosen_candidates {earlier : List (Wave × Nat)} {retryAfter : Map DestHash Nat}
    (hretry : ∀ dest, dest ∈ retryAfter ↔ SitsOut config earlier w.prunedAt dest)
    (hitems : w.pool.items = candidates config w.seen w.available retryAfter w.torrent w.rank
      w.listedAt) : Chosen config earlier w := by
  have hmem := mem_filtered hretry
  rw [candidates] at hitems
  generalize hall : ((w.torrent.dialCandidates w.rank w.listedAt).filter fun peer =>
    peer ∉ w.seen.connectedPeers && peer ∉ retryAfter) = all at hmem hitems
  have hnodup : all.Nodup := by
    rw [← hall]
    exact ((State.nodup_walk _ _).filter _).filter _
  refine ⟨?_, fun dest hdest => ?_, ?_, fun dest hdest hnot => ?_⟩
  · rw [hitems]
    exact hnodup.sublist (List.take_sublist _ _)
  · rw [hitems] at hdest
    exact (hmem dest).1 (List.mem_of_mem_take hdest)
  · rw [hitems]
    exact List.length_take_le _ _
  · rw [hitems] at hnot ⊢
    have hlong : room config w.seen w.available < all.length := by
      by_contra hshort
      rw [List.take_of_length_le (Nat.le_of_not_lt hshort)] at hnot
      exact hnot ((hmem dest).2 hdest)
    exact List.length_take_of_le hlong.le

/-- A wave that is going on. -/
structure Running (config : SwarmConfig) (earlier : List (Wave × Nat)) (w : Wave) : Prop where
  chosen : Chosen config earlier w
  shared : w.pool.Shared
  width : w.pool.workers.length + w.unspawned ≤ max 1 config.dialConcurrency

namespace Running

variable {earlier : List (Wave × Nat)}

theorem once (h : Running config earlier w) : Once config w where
  nodup := h.shared.nodup h.chosen.nodup
  listed := h.shared.subset
  width := (w.pool.length_inFlight.trans (Nat.le_add_right _ _)).trans h.width

/-- Who may be dialled does not depend on how far the wave is. -/
theorem chosen_congr {w' : Wave} (h : Chosen config earlier w) (hseen : w'.seen = w.seen)
    (havailable : w'.available = w.available) (hpruned : w'.prunedAt = w.prunedAt)
    (htorrent : w'.torrent = w.torrent) (hlisted : w'.listedAt = w.listedAt)
    (hitems : w'.pool.items = w.pool.items) : Chosen config earlier w' := by
  have hiff : ∀ dest, Eligible config earlier w' dest ↔ Eligible config earlier w dest := by
    intro dest
    constructor
    · rintro ⟨h₁, h₂, h₃, h₄, h₅, h₆⟩
      rw [htorrent] at h₁ h₂ h₃
      rw [htorrent, hlisted] at h₄
      rw [hseen] at h₅
      rw [hpruned] at h₆
      exact ⟨h₁, h₂, h₃, h₄, h₅, h₆⟩
    · rintro ⟨h₁, h₂, h₃, h₄, h₅, h₆⟩
      rw [← htorrent] at h₁ h₂ h₃
      rw [← htorrent, ← hlisted] at h₄
      rw [← hseen] at h₅
      rw [← hpruned] at h₆
      exact ⟨h₁, h₂, h₃, h₄, h₅, h₆⟩
  refine ⟨?_, fun dest hdest => (hiff dest).2 (h.eligible dest (hitems ▸ hdest)), ?_,
    fun dest hdest hnot => ?_⟩
  · rw [hitems]
    exact h.nodup
  · rw [hitems, hseen, havailable]
    exact h.fits
  · rw [hitems, hseen, havailable]
    exact h.full dest ((hiff dest).1 hdest) fun hmem => hnot (hitems ▸ hmem)

theorem work (h : Running config earlier w) {act : Handout.Act Bool} (hact : act ≠ .join) :
    Running config earlier (w.work act) where
  chosen := chosen_congr h.chosen rfl rfl rfl rfl rfl (Pool.items_step act w.pool)
  shared := h.shared.step act
  width := by
    have hlength := Pool.length_workers_step hact w.pool
    simp only [Wave.work, hlength]
    exact h.width

theorem spawn (h : Running config earlier w) (hsome : w.unspawned ≠ 0) :
    Running config earlier { w.work .join with unspawned := w.unspawned - 1 } where
  chosen := chosen_congr h.chosen rfl rfl rfl rfl rfl (Pool.items_step .join w.pool)
  shared := h.shared.step .join
  width := by
    have hwidth := h.width
    have hlength := Pool.length_workers_join w.pool
    simp only [Wave.work, hlength]
    omega

theorem unspawned (h : Running config earlier w) :
    Running config earlier { w with unspawned := 0 } where
  chosen := chosen_congr h.chosen rfl rfl rfl rfl rfl rfl
  shared := h.shared
  width := (Nat.le_add_right _ _).trans h.width

theorem finished (h : Running config earlier w) (hleft : w.pool.allLeft = true) : Finished w where
  quiet := Pool.inFlight_of_allLeft hleft
  all := h.shared.done_of_unstopped hleft

end Running

/-! ## The failures that are remembered -/

/-- What the map of failures and the finished waves say of each other. -/
structure Remembers (config : SwarmConfig) (d : Dialler) : Prop where
  entry : ∀ dest due, d.retryAfter.lookup dest = some due →
    ∃ c ∈ d.waves, dest ∈ c.1.failed ∧ due = c.2 + config.retryBackoff
  failure : ∀ c ∈ d.waves, ∀ dest ∈ c.1.failed, d.now < c.2 + config.retryBackoff →
    ∃ due, d.retryAfter.lookup dest = some due ∧ c.2 + config.retryBackoff ≤ due
  past : ∀ c ∈ d.waves, c.2 ≤ d.now

namespace Remembers

theorem tick (h : Remembers config d) (elapsed : Nat) :
    Remembers config { d with now := d.now + elapsed } where
  entry := h.entry
  failure := fun c hc dest hdest hlt =>
    h.failure c hc dest hdest ((Nat.le_add_right _ _).trans_lt hlt)
  past := fun c hc => (h.past c hc).trans (Nat.le_add_right _ _)

/-- Nothing but the phase and the stop flag changes. -/
theorem congr {d' : Dialler} (h : Remembers config d) (hnow : d'.now = d.now)
    (hretry : d'.retryAfter = d.retryAfter) (hwaves : d'.waves = d.waves) :
    Remembers config d' := by
  refine ⟨?_, ?_, ?_⟩
  · rw [hretry, hwaves]
    exact h.entry
  · rw [hretry, hwaves, hnow]
    exact h.failure
  · rw [hwaves, hnow]
    exact h.past

theorem prune (h : Remembers config d) (phase : Phase) :
    Remembers config { d with
      retryAfter := State.retain d.retryAfter fun due => d.now < due
      phase := phase } := by
  refine ⟨fun dest due hdue => ?_, fun c hc dest hdest hlt => ?_, h.past⟩
  · rw [State.lookup_retain] at hdue
    exact h.entry dest due (Option.filter_eq_some_iff.1 hdue).1
  · obtain ⟨due, hdue, hle⟩ := h.failure c hc dest hdest hlt
    refine ⟨due, ?_, hle⟩
    rw [State.lookup_retain]
    exact Option.filter_eq_some_iff.2 ⟨hdue, decide_eq_true (hlt.trans_le hle)⟩

/-- After they have been pruned, the failures that are left are those not sat out. -/
theorem mem_pruned (h : Remembers config d) (dest : DestHash) :
    (dest ∈ State.retain d.retryAfter fun due => d.now < due) ↔
      SitsOut config d.waves d.now dest := by
  rw [← AList.lookup_isSome, Option.isSome_iff_exists]
  simp only [State.lookup_retain, Option.filter_eq_some_iff, decide_eq_true_eq]
  constructor
  · rintro ⟨due, hdue, hlt⟩
    obtain ⟨c, hc, hfailed, rfl⟩ := h.entry dest due hdue
    exact ⟨c, hc, hfailed, hlt⟩
  · rintro ⟨c, hc, hfailed, hlt⟩
    obtain ⟨due, hdue, hle⟩ := h.failure c hc dest hfailed hlt
    exact ⟨due, hdue, hlt.trans_le hle⟩

theorem close (h : Remembers config d) (w : Wave) :
    Remembers config { d with
      retryAfter := w.failed.foldl (fun m peer => m.insert peer (d.now + config.retryBackoff))
        d.retryAfter
      phase := .waiting
      waves := d.waves ++ [(w, d.now)] } := by
  refine ⟨fun dest due hdue => ?_, fun c hc dest hdest hlt => ?_, fun c hc => ?_⟩
  · simp only [Map.lookup_foldl_insert] at hdue
    split at hdue
    · rename_i hfailed
      obtain rfl := Option.some.inj hdue
      exact ⟨(w, d.now), List.mem_append_right _ List.mem_cons_self, hfailed, rfl⟩
    · obtain ⟨c, hc, hfailed, heq⟩ := h.entry dest due hdue
      exact ⟨c, List.mem_append_left _ hc, hfailed, heq⟩
  · simp only [Map.lookup_foldl_insert]
    rcases List.mem_append.1 hc with hc | hc
    · by_cases hfailed : dest ∈ w.failed
      · exact ⟨_, if_pos hfailed, Nat.add_le_add_right (h.past c hc) _⟩
      · rw [if_neg hfailed]
        exact h.failure c hc dest hdest hlt
    · obtain rfl := List.mem_singleton.1 hc
      exact ⟨_, if_pos hdest, le_rfl⟩
  · rcases List.mem_append.1 hc with hc | hc
    · exact h.past c hc
    · obtain rfl := List.mem_singleton.1 hc
      exact le_rfl

end Remembers

/-! ## Every run -/

/-- What a phase knows. -/
def Phase.Fits (config : SwarmConfig) (d : Dialler) : Phase → Prop
  | .pruned _ _ prunedAt => ∀ dest, dest ∈ d.retryAfter ↔ SitsOut config d.waves prunedAt dest
  | .dialling w => Running config d.waves w
  | _ => True

theorem Phase.Fits.congr {d' : Dialler} {phase : Phase} (h : phase.Fits config d)
    (hretry : d'.retryAfter = d.retryAfter) (hwaves : d'.waves = d.waves) :
    phase.Fits config d' := by
  cases phase with
  | pruned seen available prunedAt =>
      rw [Phase.Fits, hretry, hwaves]
      exact h
  | dialling w =>
      rw [Phase.Fits, hwaves]
      exact h
  | _ => trivial

/-- The finished waves. -/
def Settled (config : SwarmConfig) (waves : List (Wave × Nat)) : Prop :=
  ∀ earlier w finished later, waves = earlier ++ (w, finished) :: later →
    Chosen config earlier w ∧ Once config w ∧ Finished w

structure Inv (config : SwarmConfig) (d : Dialler) : Prop where
  remembers : Remembers config d
  fits : d.phase.Fits config d
  settled : Settled config d.waves

theorem Settled.snoc {waves : List (Wave × Nat)} (h : Settled config waves)
    (hw : Running config waves w) (hleft : w.pool.allLeft = true) (now : Nat) :
    Settled config (waves ++ [(w, now)]) := by
  intro earlier w' finished later heq
  rcases List.eq_nil_or_concat later with rfl | ⟨later, last, rfl⟩
  · obtain ⟨rfl, hlast⟩ := List.append_inj' heq rfl
    obtain ⟨rfl, rfl⟩ := Prod.mk.inj (List.cons.inj hlast).1
    exact ⟨hw.chosen, hw.once, hw.finished hleft⟩
  · have hsplit : waves ++ [(w, now)] = (earlier ++ (w', finished) :: later) ++ [last] := by
      rw [heq, List.append_assoc, List.cons_append, List.concat_eq_append]
    exact h earlier w' finished later (List.append_inj' hsplit rfl).1

/-- A phase that knows nothing of the rest. -/
theorem Inv.move (h : Inv config d) (phase : Phase)
    (hphase : phase.Fits config { d with phase := phase }) :
    Inv config { d with phase := phase } :=
  ⟨h.remembers.congr rfl rfl rfl, hphase, h.settled⟩

theorem Inv.step (h : Inv config d) (e : Event) : Inv config (step config e d) := by
  have hfits := h.fits
  unfold Dial.step
  split
  · exact ⟨h.remembers.tick _, hfits.congr rfl rfl, h.settled⟩
  · exact ⟨h.remembers.congr rfl rfl rfl, hfits.congr rfl rfl, h.settled⟩
  · split
    · exact h.move .waiting trivial
    · exact h.move (.sized _ _) trivial
  · exact ⟨h.remembers.prune _, fun dest => h.remembers.mem_pruned dest, h.settled⟩
  · rename_i hphase
    rw [hphase] at hfits
    simp only
    split
    · exact h.move .waiting trivial
    · refine h.move (.dialling _) ⟨chosen_candidates hfits rfl, Pool.shared_new _, ?_⟩
      exact (Nat.zero_add _).le.trans (clamp_le _ _)
  · rename_i hphase
    rw [hphase] at hfits
    split
    · exact h
    · rename_i hsome
      split
      · exact h.move (.dialling _) (hfits.spawn hsome)
      · exact h.move (.dialling _) hfits.unspawned
  · rename_i hphase
    rw [hphase] at hfits
    exact h.move (.dialling _) (hfits.work (by simp))
  · rename_i hphase
    rw [hphase] at hfits
    exact h.move (.dialling _) (hfits.work (by simp))
  · rename_i hphase
    rw [hphase] at hfits
    exact h.move (.dialling _) (hfits.work (by simp))
  · rename_i hphase
    rw [hphase] at hfits
    split
    · rename_i hclose
      exact ⟨h.remembers.close _, trivial, h.settled.snoc hfits hclose.2 d.now⟩
    · exact h
  · split
    · exact h.move .ended trivial
    · exact h.move .ready trivial
  · exact h

theorem inv_new (config : SwarmConfig) (now : Nat) : Inv config (Dialler.new now) := by
  refine ⟨⟨fun dest due h => ?_, fun c hc => ?_, fun c hc => ?_⟩, trivial, ?_⟩
  · simp [Dialler.new] at h
  · simp [Dialler.new] at hc
  · simp [Dialler.new] at hc
  · intro earlier w finished later h
    simp [Dialler.new] at h

theorem Inv.exact (h : Inv config d) : Exact config d := by
  refine ⟨h.settled, fun w hphase => ?_⟩
  have hfits := h.fits
  rw [hphase] at hfits
  exact ⟨hfits.chosen, hfits.once⟩

/-- Whatever the torrent, the other torrents, the router and the clock do meanwhile, in whatever
order the workers of a sweep take their steps: a wave dials exactly whom it may dial, within both
ceilings and apart from whoever failed and has not sat it out; nobody is dialled twice, nor too many
at once; and a wave that was not stopped has dialled everybody on its list. -/
theorem waves_exact (config : SwarmConfig) (now : Nat) (events : List Event) :
    Exact config (run config events (Dialler.new now)) :=
  Inv.exact (Machine.run_induction (P := Inv config) (fun e _ h => h.step e) events
    (inv_new config now))

end Dial

end Clove
