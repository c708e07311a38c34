import Clove.Lib.Machine

/-!
# The peer budget

The model of `budget.rs`: one ceiling on the peer connections of all torrents together.  A slot
is claimed by a loop around a compare-exchange and given back when it is dropped.  Any number of
threads claim and drop at once, and every access to the counter is a step of its own.
-/

namespace Clove.Budget

/-- `AtomicUsize::fetch_sub(1)`, which wraps. -/
def fetchSub (n : Nat) : Nat := if n = 0 then 18446744073709551615 else n - 1

/-- A thread inside `claim`. -/
inductive Claimer where
  /-- It is about to load the counter. -/
  | calling
  /-- It has read `taken`.  Not in the source: how many slots were held when it loaded the
  counter, and when it last read it. -/
  | read (taken atLoad atRead : Nat)
deriving Repr, DecidableEq

/-- The budget and the threads that claim from it. -/
structure PeerBudget where
  limit : Nat
  taken : Nat
  /-- The slots that have been handed out and not dropped. -/
  slots : Nat
  claimers : List Claimer
  /-- Not in the source: for every claim that was refused, the slots held when it loaded the
  counter and when it last read it. -/
  refused : List (Nat × Nat)
deriving Repr, DecidableEq

/-- A step of some thread. -/
inductive Event where
  /-- `claim` is called. -/
  | call
  | load (i : Nat)
  /-- The body of the loop.  A weak compare-exchange may fail for no reason. -/
  | attempt (i : Nat) (spurious : Bool)
  /-- A slot is dropped. -/
  | drop
deriving Repr, DecidableEq

namespace PeerBudget

def new (limit : Nat) : PeerBudget := ⟨limit, 0, 0, [], []⟩

def step (e : Event) (b : PeerBudget) : PeerBudget :=
  match e with
  | .call => { b with claimers := b.claimers ++ [.calling] }
  | .load i =>
      match b.claimers[i]? with
      | some .calling => { b with claimers := b.claimers.set i (.read b.taken b.slots b.slots) }
      | _ => b
  | .attempt i spurious =>
      match b.claimers[i]? with
      | some (.read taken atLoad atRead) =>
          if b.limit ≤ taken then
            { b with claimers := b.claimers.eraseIdx i, refused := b.refused ++ [(atLoad, atRead)] }
          else if !spurious && b.taken = taken then
            { b with
              taken := taken + 1
              slots := b.slots + 1
              claimers := b.claimers.eraseIdx i }
          else { b with claimers := b.claimers.set i (.read b.taken atLoad b.slots) }
      | _ => b
  | .drop => if b.slots = 0 then b else { b with taken := fetchSub b.taken, slots := b.slots - 1 }

/-- The budget after a list of steps. -/
def run (es : List Event) (b : PeerBudget) : PeerBudget := Machine.run step es b

end PeerBudget

/-- The counter counts the slots, there are never too many, and no claim is refused that could
have been granted when it last read the counter. -/
structure Exact (limit : Nat) (b : PeerBudget) : Prop where
  taken : b.taken = b.slots
  bounded : b.slots ≤ limit
  refused : ∀ r ∈ b.refused, r.2 = limit

/-- What every thread has read was true when it was read. -/
structure Inv (limit : Nat) (b : PeerBudget) : Prop extends Exact limit b where
  ceiling : b.limit = limit
  read : ∀ seen atLoad atRead, Claimer.read seen atLoad atRead ∈ b.claimers →
    seen = atRead ∧ atRead ≤ limit

variable {limit : Nat} {b : PeerBudget}

theorem fetchSub_of_pos {n : Nat} (h : 0 < n) : fetchSub n = n - 1 := if_neg (Nat.ne_of_gt h)

/-- A thread reads the counter, or goes on as it was. -/
theorem Inv.set (hb : Inv limit b) (i : Nat) {c : Claimer}
    (hc : ∀ taken atLoad atRead, c = .read taken atLoad atRead → taken = atRead ∧ atRead ≤ limit) :
    Inv limit { b with claimers := b.claimers.set i c } := by
  refine ⟨⟨hb.taken, hb.bounded, hb.refused⟩, hb.ceiling, fun taken atLoad atRead hmem => ?_⟩
  cases List.mem_or_eq_of_mem_set hmem with
  | inl hold => exact hb.read taken atLoad atRead hold
  | inr heq => exact hc taken atLoad atRead heq.symm

theorem Inv.step (hb : Inv limit b) (e : Event) : Inv limit (b.step e) := by
  have hnow : ∀ atLoad, ∀ taken atLoad' atRead,
      Claimer.read b.taken atLoad b.slots = .read taken atLoad' atRead →
        taken = atRead ∧ atRead ≤ limit := by
    intro atLoad taken atLoad' atRead heq
    obtain ⟨rfl, -, rfl⟩ := Claimer.read.inj heq
    exact ⟨hb.taken, hb.bounded⟩
  cases e with
  | call =>
      refine ⟨⟨hb.taken, hb.bounded, hb.refused⟩, hb.ceiling, fun taken atLoad atRead hmem => ?_⟩
      cases List.mem_append.1 hmem with
      | inl hold => exact hb.read taken atLoad atRead hold
      | inr hnew => cases List.mem_singleton.1 hnew
  | load i =>
      simp only [PeerBudget.step]
      split
      · exact hb.set i (hnow _)
      · exact hb
  | attempt i spurious =>
      simp only [PeerBudget.step]
      split
      · rename_i taken atLoad atRead hi
        obtain ⟨heq, hle⟩ := hb.read taken atLoad atRead (List.mem_of_getElem? hi)
        have hrest : ∀ taken atLoad atRead,
            .read taken atLoad atRead ∈ b.claimers.eraseIdx i → taken = atRead ∧ atRead ≤ limit :=
          fun taken atLoad atRead hmem =>
            hb.read taken atLoad atRead (List.mem_of_mem_eraseIdx hmem)
        split
        · rename_i hfull
          refine ⟨⟨hb.taken, hb.bounded, fun r hr => ?_⟩, hb.ceiling, hrest⟩
          cases List.mem_append.1 hr with
          | inl hold => exact hb.refused r hold
          | inr hnew =>
              rw [List.mem_singleton.1 hnew]
              have hlimit := hb.ceiling
              omega
        · rename_i hfree
          split
          · rename_i hexchange
            rw [Bool.and_eq_true, decide_eq_true_eq] at hexchange
            have hsame := hexchange.2
            have htaken := hb.taken
            have hlimit := hb.ceiling
            exact ⟨⟨by simp only; omega, by simp only; omega, hb.refused⟩, hb.ceiling, hrest⟩
          · exact hb.set i (hnow _)
      · exact hb
  | drop =>
      simp only [PeerBudget.step]
      split
      · exact hb
      · rename_i hheld
        have htaken := hb.taken
        have hbounded := hb.bounded
        refine ⟨⟨?_, by simp only; omega, hb.refused⟩, hb.ceiling, hb.read⟩
        simp only
        rw [fetchSub_of_pos (by omega), htaken]

/-- However claims and drops interleave, the counter is exact. -/
theorem exact_run (limit : Nat) (es : List Event) :
    Exact limit ((PeerBudget.new limit).run es) := by
  have hnew : Inv limit (PeerBudget.new limit) :=
    ⟨⟨rfl, Nat.zero_le _, fun r hr => by cases hr⟩, rfl, fun _ _ _ hmem => by cases hmem⟩
  have hrun : Inv limit ((PeerBudget.new limit).run es) :=
    Machine.run_induction (fun e b hb => hb.step e) es hnew
  exact hrun.toExact

end Clove.Budget
