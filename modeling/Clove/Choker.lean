import Mathlib.Data.List.Sort
import Clove.Bencode

/-!
# The choker

The model of `choker.rs`: which peers to choke and unchoke in one round.
-/

namespace Clove

/-- Default number of peers unchoked at once. -/
def DEFAULT_MAX_UNCHOKED : Nat := 4

/-- One peer's inputs to a choke round. -/
structure PeerSnapshot where
  id : Nat
  interested : Bool
  rate : Nat
  unchoked : Bool
deriving Repr, DecidableEq

/-- Peers to newly unchoke and to newly choke. -/
structure Decision where
  unchoke : List Nat
  choke : List Nat
deriving Repr, DecidableEq

/-- The choke scheduler. -/
structure Choker where
  /-- Peers unchoked at once, including the optimistic slot. -/
  maxUnchoked : Nat
  round : Nat
deriving Repr, DecidableEq

namespace Choker

def new (maxUnchoked : Nat) : Choker := ⟨max maxUnchoked 1, 0⟩

/-- Best rate first, ties broken by id. -/
def ranksBefore (a b : PeerSnapshot) : Bool :=
  b.rate < a.rate || (a.rate == b.rate && a.id ≤ b.id)

/-- The ids of the interested peers, best first. -/
def ranking (peers : List PeerSnapshot) : List Nat :=
  ((peers.filter (·.interested)).insertionSort fun a b => ranksBefore a b = true).map (·.id)

/-- The ids the round gives a slot: the best, and on every third round one of the others
in turn in place of the last. -/
def chosen (maxUnchoked round : Nat) (peers : List PeerSnapshot) : List Nat :=
  let interested := ranking peers
  let best := interested.take maxUnchoked
  if round % 3 = 0 then
    let candidates := interested.filter (· ∉ best)
    match candidates[round / 3 % candidates.length]? with
    | some pick => (if maxUnchoked ≤ best.length then best.dropLast else best) ++ [pick]
    | none => best
  else best

/-- Advance one round and compute the changes. -/
def plan (c : Choker) (peers : List PeerSnapshot) : Choker × Decision :=
  let round := c.round + 1
  let chosen := chosen c.maxUnchoked round peers
  ({ c with round := round },
    { unchoke := (peers.filter fun p => p.id ∈ chosen && !p.unchoked).map (·.id)
      choke := (peers.filter fun p => p.id ∉ chosen && p.unchoked).map (·.id) })

/-! ## Who gets a slot -/

variable {maxUnchoked round : Nat} {peers : List PeerSnapshot}

theorem mem_ranking {id : Nat} : id ∈ ranking peers ↔ ∃ p ∈ peers, p.interested = true ∧ p.id = id := by
  simp only [ranking, List.mem_map, List.mem_insertionSort, List.mem_filter, and_assoc]

/-- There are no more slots than the scheduler has. -/
theorem length_chosen (hpos : 1 ≤ maxUnchoked) :
    (chosen maxUnchoked round peers).length ≤ maxUnchoked := by
  have hbest : ((ranking peers).take maxUnchoked).length ≤ maxUnchoked := List.length_take_le _ _
  unfold chosen
  simp only
  split
  · split
    · rw [List.length_append, List.length_singleton]
      split
      · rw [List.length_dropLast]
        omega
      · omega
    · exact hbest
  · exact hbest

/-- A slot goes to an interested peer. -/
theorem interested_of_mem_chosen {id : Nat} (h : id ∈ chosen maxUnchoked round peers) :
    ∃ p ∈ peers, p.interested = true ∧ p.id = id := by
  have hbest : ∀ id ∈ (ranking peers).take maxUnchoked, id ∈ ranking peers :=
    fun id hid => List.mem_of_mem_take hid
  rw [← mem_ranking]
  unfold chosen at h
  simp only at h
  split at h
  · split at h
    · rename_i pick hpick
      rw [List.mem_append, List.mem_singleton] at h
      rcases h with h | rfl
      · split at h
        · exact hbest id (List.mem_of_mem_dropLast h)
        · exact hbest id h
      · exact (List.mem_filter.1 (List.mem_of_getElem? hpick)).1
    · exact hbest id h
  · exact hbest id h

end Choker

end Clove
