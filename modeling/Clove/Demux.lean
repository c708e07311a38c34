import Clove.Budget
import Clove.Torrent.State
import Clove.Lib.Lists
import Clove.Lib.Map

/-!
# The inbound demux

The model of the admission of inbound connections (`InboundDemux` in `swarm.rs`): one accept
thread admits a connection before it starts a thread that reads the handshake, and each of those
threads holds a `PendingGuard` that takes the counts back when it ends.  The total is an atomic
that is changed outside the lock on the counts by destination.

A guard is alive from when its counts are taken until its `drop` has returned.
-/

namespace Clove.Demux

open Budget (fetchSub)
open Torrent (MAX_CONNECTIONS_PER_DEST)

/-- How many connections may wait on their handshake at once. -/
def MAX_PENDING_HANDSHAKES : Nat := 64

/-- Where the accept thread is. -/
inductive Accept where
  /-- Outside `admit_pending`. -/
  | idle
  /-- It has found the total below the cap. -/
  | checked (dest : Bytes)
  /-- It has counted the destination, holds the lock and has not counted the total. -/
  | counted (dest : Bytes)
deriving Repr, DecidableEq

/-- A guard.  The first thing its `drop` does is to take back the total. -/
structure PendingGuard where
  dest : Bytes
  leaving : Bool
deriving Repr, DecidableEq

structure InboundDemux where
  pending : Nat
  pendingByDest : Map Bytes Nat
  accept : Accept
  guards : List PendingGuard

/-- A step of some thread. -/
inductive Event where
  /-- A connection is accepted, and the total looked at. -/
  | accepted (dest : Bytes)
  /-- The destination is counted or refused. -/
  | count
  /-- The total is counted, and a thread started with the guard.  If it cannot be started, the
  guard is dropped. -/
  | admitPending
  /-- The drop of guard `i` begins. -/
  | uncount (i : Nat)
  /-- And takes the lock, when that is free. -/
  | forget (i : Nat)
deriving Repr, DecidableEq

namespace InboundDemux

def new : InboundDemux := ⟨0, ∅, .idle, []⟩

/-- `admit_pending` behind the lock. -/
def countDest (dest : Bytes) (d : InboundDemux) : InboundDemux :=
  let count := (d.pendingByDest.lookup dest).getD 0
  if MAX_CONNECTIONS_PER_DEST ≤ count then
    let byDest := if count = 0 then d.pendingByDest.erase dest else d.pendingByDest
    { d with pendingByDest := byDest, accept := .idle }
  else { d with pendingByDest := d.pendingByDest.insert dest (count + 1), accept := .counted dest }

/-- The drop of a guard behind the lock. -/
def forgetDest (dest : Bytes) (m : Map Bytes Nat) : Map Bytes Nat :=
  match m.lookup dest with
  | none => m
  | some count =>
      let count := count - 1
      if count = 0 then m.erase dest else m.insert dest count

def step (e : Event) (d : InboundDemux) : InboundDemux :=
  match e with
  | .accepted dest =>
      match d.accept with
      | .idle =>
          if MAX_PENDING_HANDSHAKES ≤ d.pending then d else { d with accept := .checked dest }
      | _ => d
  | .count =>
      match d.accept with
      | .checked dest => d.countDest dest
      | _ => d
  | .admitPending =>
      match d.accept with
      | .counted dest =>
          { d with
            pending := d.pending + 1
            accept := .idle
            guards := d.guards ++ [⟨dest, false⟩] }
      | _ => d
  | .uncount i =>
      match d.guards[i]? with
      | some ⟨dest, false⟩ =>
          { d with pending := fetchSub d.pending, guards := d.guards.set i ⟨dest, true⟩ }
      | _ => d
  | .forget i =>
      match d.accept, d.guards[i]? with
      | .counted _, _ => d
      | _, some ⟨dest, true⟩ =>
          { d with
            pendingByDest := forgetDest dest d.pendingByDest
            guards := d.guards.eraseIdx i }
      | _, _ => d

/-- The demux after a list of steps. -/
def run (es : List Event) (d : InboundDemux) : InboundDemux := Machine.run step es d

end InboundDemux

/-- What may wait is bounded, in all and by destination, and nothing is left behind. -/
structure Bounded (d : InboundDemux) : Prop where
  total : d.pending ≤ MAX_PENDING_HANDSHAKES
  dest : ∀ dest, d.guards.countP (fun g => g.dest = dest) ≤ MAX_CONNECTIONS_PER_DEST
  /-- With no guard alive the total is zero, and so are the counts whenever the lock is free. -/
  empty : d.guards = [] → d.pending = 0 ∧
    ((∀ dest, d.accept ≠ .counted dest) → d.pendingByDest = ∅)

/-- How often a destination is counted. -/
def counted (d : InboundDemux) (dest : Bytes) : Nat :=
  d.guards.countP (fun g => g.dest = dest) + if d.accept = .counted dest then 1 else 0

/-- The counts are those of the guards that are alive. -/
structure Inv (d : InboundDemux) : Prop where
  pending : d.pending = d.guards.countP (fun g => !g.leaving)
  room : d.accept ≠ .idle → d.pending < MAX_PENDING_HANDSHAKES
  total : d.pending ≤ MAX_PENDING_HANDSHAKES
  byDest : ∀ dest, d.pendingByDest.lookup dest =
    if counted d dest = 0 then none else some (counted d dest)
  dest : ∀ dest, counted d dest ≤ MAX_CONNECTIONS_PER_DEST

variable {d d' : InboundDemux}

theorem ext_empty {m : Map Bytes Nat} (h : ∀ dest, m.lookup dest = none) : m = ∅ := by
  refine AList.ext (List.eq_nil_iff_forall_not_mem.2 fun e he => ?_)
  have hlookup := AList.mem_lookup_iff.2 he
  rw [h e.1] at hlookup
  cases hlookup

theorem Inv.bounded (hd : Inv d) : Bounded d where
  total := hd.total
  dest := fun dest => (Nat.le_add_right _ _).trans (hd.dest dest)
  empty := by
    intro hguards
    refine ⟨hd.pending.trans (by rw [hguards]; rfl), fun hfree => ext_empty fun dest => ?_⟩
    rw [hd.byDest, if_pos]
    rw [counted, hguards, if_neg (hfree dest)]
    rfl

/-- A step that leaves the guards and the counts alone. -/
theorem Inv.of_same (hd : Inv d) (hpending : d'.pending = d.pending) (hguards : d'.guards = d.guards)
    (hbyDest : d'.pendingByDest = d.pendingByDest)
    (haccept : ∀ dest, d'.accept = .counted dest ↔ d.accept = .counted dest)
    (hroom : d'.accept ≠ .idle → d.pending < MAX_PENDING_HANDSHAKES) : Inv d' := by
  have hcounted : ∀ dest, counted d' dest = counted d dest := by
    intro dest
    simp only [counted, hguards, haccept]
  refine ⟨?_, ?_, ?_, fun dest => ?_, fun dest => ?_⟩
  · rw [hpending, hguards, hd.pending]
  · rw [hpending]
    exact hroom
  · rw [hpending]
    exact hd.total
  · rw [hcounted, hbyDest, hd.byDest]
  · rw [hcounted]
    exact hd.dest dest

/-- A destination is counted if it has room. -/
theorem Inv.countDest (hd : Inv d) {dest : Bytes} (haccept : d.accept = .checked dest) :
    Inv (d.countDest dest) := by
  have hget : (d.pendingByDest.lookup dest).getD 0 = counted d dest := by
    rw [hd.byDest]
    split
    · rename_i hzero
      rw [hzero]
      rfl
    · rfl
  unfold InboundDemux.countDest
  rw [hget]
  simp only
  split
  · rename_i hfull
    have hpos : counted d dest ≠ 0 := by
      unfold MAX_CONNECTIONS_PER_DEST at hfull
      omega
    rw [if_neg hpos]
    exact hd.of_same rfl rfl rfl (fun k => by simp [haccept]) fun hne => absurd rfl hne
  · rename_i hroom
    have hcounted : ∀ k, counted { d with
        pendingByDest := d.pendingByDest.insert dest (counted d dest + 1)
        accept := .counted dest } k = if k = dest then counted d dest + 1 else counted d k := by
      intro k
      have hnot : d.accept ≠ .counted k := by simp [haccept]
      by_cases heq : k = dest
      · simp [counted, heq, haccept]
      · simp [counted, haccept, heq, Ne.symm heq]
    refine ⟨hd.pending, fun _ => hd.room (by simp [haccept]), hd.total, fun k => ?_, fun k => ?_⟩
    · rw [hcounted, Map.lookup_insert]
      split
      · rw [if_neg (Nat.succ_ne_zero _)]
      · exact hd.byDest k
    · rw [hcounted]
      split
      · omega
      · exact hd.dest k

/-- An admitted connection has a guard. -/
theorem Inv.admitPending (hd : Inv d) {dest : Bytes} (haccept : d.accept = .counted dest) :
    Inv { d with
      pending := d.pending + 1
      accept := .idle
      guards := d.guards ++ [⟨dest, false⟩] } := by
  have hroom : d.pending < MAX_PENDING_HANDSHAKES := hd.room (by simp [haccept])
  have hcounted : ∀ k, counted { d with
      pending := d.pending + 1
      accept := .idle
      guards := d.guards ++ [⟨dest, false⟩] } k = counted d k := by
    intro k
    simp [counted, haccept, List.countP_append, List.countP_singleton]
  refine ⟨?_, fun hne => absurd rfl hne, hroom, fun k => ?_, fun k => ?_⟩
  · simp [List.countP_append, hd.pending]
  · rw [hcounted]
    exact hd.byDest k
  · rw [hcounted]
    exact hd.dest k

/-- A guard that is dropped first takes back the total. -/
theorem Inv.uncount (hd : Inv d) {i : Nat} {dest : Bytes} (hi : d.guards[i]? = some ⟨dest, false⟩) :
    Inv { d with pending := fetchSub d.pending, guards := d.guards.set i ⟨dest, true⟩ } := by
  obtain ⟨post, hguards, hset⟩ := Lists.set_split hi
  have hpending := hd.pending
  rw [hguards, List.countP_append, List.countP_cons_of_pos (by rfl)] at hpending
  have htotal := hd.total
  have hcounted : ∀ k, counted
      { d with pending := fetchSub d.pending, guards := d.guards.set i ⟨dest, true⟩ } k =
        counted d k := by
    intro k
    simp only [counted, Lists.countP_set_eq hi]
  rw [Budget.fetchSub_of_pos (by omega)] at hcounted ⊢
  refine ⟨?_, fun hne => ?_, ?_, fun k => ?_, fun k => ?_⟩
  · simp only
    rw [hset, List.countP_append, List.countP_cons_of_neg (by simp)]
    omega
  · have hroom := hd.room hne
    simp only
    omega
  · simp only
    omega
  · rw [hcounted]
    exact hd.byDest k
  · rw [hcounted]
    exact hd.dest k

/-- And then the count of its destination. -/
theorem Inv.forget (hd : Inv d) {i : Nat} {dest : Bytes} (hi : d.guards[i]? = some ⟨dest, true⟩)
    (hfree : ∀ k, d.accept ≠ .counted k) :
    Inv { d with
      pendingByDest := InboundDemux.forgetDest dest d.pendingByDest
      guards := d.guards.eraseIdx i } := by
  have hcounted : ∀ k, counted { d with
      pendingByDest := InboundDemux.forgetDest dest d.pendingByDest
      guards := d.guards.eraseIdx i } k + (if k = dest then 1 else 0) = counted d k := by
    intro k
    have hcount := Lists.countP_eraseIdx (p := fun g => decide (g.dest = k)) hi
    simp only [counted, hfree, if_false, Nat.add_zero]
    rw [← hcount]
    by_cases heq : k = dest
    · simp [heq]
    · simp [heq, Ne.symm heq]
  have hlookup : ∀ k, (InboundDemux.forgetDest dest d.pendingByDest).lookup k =
      if k = dest then if counted d dest - 1 = 0 then none else some (counted d dest - 1)
      else d.pendingByDest.lookup k := by
    intro k
    have hdest := hd.byDest dest
    unfold InboundDemux.forgetDest
    by_cases hzero : counted d dest = 0
    · rw [if_pos hzero] at hdest
      rw [hdest]
      by_cases heq : k = dest
      · rw [if_pos heq, if_pos (by omega), heq]
        exact hdest
      · rw [if_neg heq]
    · rw [if_neg hzero] at hdest
      rw [hdest]
      simp only
      split
      · rw [Map.lookup_erase]
      · rw [Map.lookup_insert]
  refine ⟨?_, hd.room, hd.total, fun k => ?_, fun k => ?_⟩
  · have hcount := Lists.countP_eraseIdx (p := fun g => !g.leaving) hi
    simp only
    rw [hd.pending, ← hcount]
    rfl
  · have hk := hcounted k
    rw [hlookup]
    split
    · rename_i heq
      subst heq
      rw [if_pos rfl] at hk
      rw [← hk, Nat.add_sub_cancel]
    · rename_i hne
      rw [if_neg hne, Nat.add_zero] at hk
      rw [hk]
      exact hd.byDest k
  · have hk := hcounted k
    have hdest := hd.dest k
    omega

theorem Inv.step (hd : Inv d) (e : Event) : Inv (d.step e) := by
  cases e with
  | accepted dest =>
      simp only [InboundDemux.step]
      split
      · rename_i haccept
        split
        · exact hd
        · exact hd.of_same rfl rfl rfl (fun k => by simp [haccept]) fun _ => by omega
      · exact hd
  | count =>
      simp only [InboundDemux.step]
      split
      · exact hd.countDest ‹_›
      · exact hd
  | admitPending =>
      simp only [InboundDemux.step]
      split
      · exact hd.admitPending ‹_›
      · exact hd
  | uncount i =>
      simp only [InboundDemux.step]
      split
      · exact hd.uncount ‹_›
      · exact hd
  | forget i =>
      simp only [InboundDemux.step]
      split
      · exact hd
      · rename_i hi hfree
        exact hd.forget hi fun k haccept => hfree k haccept
      · exact hd

/-- However admissions and drops interleave, what waits is bounded. -/
theorem bounded_run (es : List Event) : Bounded (InboundDemux.new.run es) := by
  have hnew : Inv InboundDemux.new :=
    ⟨rfl, fun hne => absurd rfl hne, Nat.zero_le _, fun _ => rfl, fun _ => Nat.zero_le _⟩
  have hrun : Inv (InboundDemux.new.run es) :=
    Machine.run_induction (fun e d hd => hd.step e) es hnew
  exact hrun.bounded

/-- Neither the budget nor the cap on handshakes is ever exceeded, and neither leaks. -/
theorem budgets_kept (limit : Nat) (es : List Budget.Event) (es' : List Event) :
    Budget.Exact limit ((Budget.PeerBudget.new limit).run es) ∧
      Bounded (InboundDemux.new.run es') :=
  ⟨Budget.exact_run limit es, bounded_run es'⟩

/-- A claim may be refused although a slot was free when it loaded the counter: another thread
takes the last slot, and the compare-exchange that fails says so.  And while the accept thread
holds the lock a destination may be counted before there is a guard. -/
theorem refused_after_free_load :
    (∃ es, ((Budget.PeerBudget.new 1).run es).refused = [(0, 1)]) ∧
      ∃ es, (InboundDemux.new.run es).guards = [] ∧
        (InboundDemux.new.run es).pendingByDest.lookup [] = some 1 := by
  refine ⟨⟨[.call, .load 0, .call, .load 1, .attempt 1 false, .attempt 0 false, .attempt 0 false],
    by decide⟩, [.accepted [], .count], by decide, by decide⟩

end Clove.Demux
