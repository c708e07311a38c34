import Clove.Lib.Lists

/-!
# Handing out work

Workers share a list of items and a counter that says which one is next.  A worker looks whether it
has to stop, counts on, and does what it got, until there is nothing left.  Any number of workers
take these steps in any order, and may join late; still no item is handed out twice, and once a
worker has come to the end of the list every item has been handed out (`Pool.Shared`).
-/

namespace Handout

variable {α ρ : Type}

/-- Where a worker is. -/
inductive Worker (α : Type) where
  /-- About to look whether it has to stop. -/
  | looking
  /-- About to count on. -/
  | counting
  | busy (a : α)
  /-- Left, since it had to stop. -/
  | stopped
  /-- Left, since there was nothing more. -/
  | through
deriving Repr, DecidableEq

namespace Worker

def item : Worker α → Option α
  | busy a => some a
  | _ => none

def left : Worker α → Bool
  | stopped => true
  | through => true
  | _ => false

end Worker

/-- A list that is shared out. -/
structure Pool (α ρ : Type) where
  items : List α
  next : Nat
  workers : List (Worker α)
  /-- What has been done, in the order in which it ended, with how it ended. -/
  done : List (α × ρ)
deriving Repr, DecidableEq

/-- A step of some worker. -/
inductive Act (ρ : Type) where
  | join
  | look (i : Nat) (stop : Bool)
  | count (i : Nat)
  | finish (i : Nat) (result : ρ)
deriving Repr, DecidableEq

namespace Pool

def new (items : List α) : Pool α ρ := ⟨items, 0, [], []⟩

def step (act : Act ρ) (p : Pool α ρ) : Pool α ρ :=
  match act with
  | .join => { p with workers := p.workers ++ [.looking] }
  | .look i stop =>
      match p.workers[i]? with
      | some .looking =>
          { p with workers := p.workers.set i (if stop then .stopped else .counting) }
      | _ => p
  | .count i =>
      match p.workers[i]? with
      | some .counting =>
          match p.items[p.next]? with
          | some a => { p with next := p.next + 1, workers := p.workers.set i (.busy a) }
          | none => { p with next := p.next + 1, workers := p.workers.set i .through }
      | _ => p
  | .finish i result =>
      match p.workers[i]? with
      | some (.busy a) =>
          { p with workers := p.workers.set i .looking, done := p.done ++ [(a, result)] }
      | _ => p

/-- What is being done. -/
def inFlight (p : Pool α ρ) : List α := p.workers.filterMap Worker.item

/-- What has been handed out. -/
def handed (p : Pool α ρ) : List α := p.done.map Prod.fst ++ p.inFlight

/-- Whether all workers have left. -/
def allLeft (p : Pool α ρ) : Bool := p.workers.all Worker.left

/-- What has been handed out is the list up to the counter, each item once, and whoever has come
to its end has left it all handed out. -/
structure Shared (p : Pool α ρ) : Prop where
  perm : p.handed.Perm (p.items.take p.next)
  through : Worker.through ∈ p.workers → p.items.length ≤ p.next

/-! ## One step -/

variable {p : Pool α ρ}

theorem shared_new (items : List α) : (new items : Pool α ρ).Shared :=
  ⟨by simp [new, handed, inFlight], by simp [new]⟩

/-- A worker that goes on without an item, and without having come to the end. -/
theorem Shared.moved (h : p.Shared) {i : Nat} {w w' : Worker α} (hi : p.workers[i]? = some w)
    (hw : w.item = none) (hw' : w'.item = none) (hnot : w' ≠ .through) :
    Shared { p with workers := p.workers.set i w' } := by
  obtain ⟨post, hworkers, hset⟩ := Lists.set_split hi
  have hsame : (p.workers.set i w').filterMap Worker.item = p.workers.filterMap Worker.item := by
    rw [hset w']
    conv_rhs => rw [hworkers]
    simp only [List.filterMap_append, List.filterMap_cons, hw, hw']
  refine ⟨?_, fun hmem => h.through ?_⟩
  · simpa only [handed, inFlight, hsame] using h.perm
  · rcases List.mem_or_eq_of_mem_set hmem with hmem | heq
    · exact hmem
    · exact absurd heq.symm hnot

theorem Shared.join (h : p.Shared) : (p.step .join).Shared := by
  refine ⟨?_, fun hmem => h.through ?_⟩
  · have hsame : (p.step .join).inFlight = p.inFlight := by
      simp [step, inFlight, Worker.item]
    rw [handed, hsame]
    exact h.perm
  · simpa [step] using hmem

theorem Shared.look (h : p.Shared) (i : Nat) (stop : Bool) : (p.step (.look i stop)).Shared := by
  simp only [step]
  split
  · rename_i hi
    cases stop with
    | true => exact h.moved hi rfl rfl (by simp)
    | false => exact h.moved hi rfl rfl (by simp)
  · exact h

theorem Shared.count (h : p.Shared) (i : Nat) : (p.step (.count i)).Shared := by
  simp only [step]
  split
  · rename_i hi
    obtain ⟨post, hworkers, hset⟩ := Lists.set_split hi
    split
    · rename_i a ha
      have htake : p.items.take (p.next + 1) = p.items.take p.next ++ [a] := by
        rw [List.take_add_one, ha, Option.toList_some]
      refine ⟨?_, fun hmem => ?_⟩
      · -- the item joins what was in flight, wherever its worker stands
        have hflight : ((p.workers.set i (.busy a)).filterMap Worker.item).Perm
            (p.inFlight ++ [a]) := by
          rw [inFlight, hset (.busy a)]
          conv_rhs => rw [hworkers]
          simp only [List.filterMap_append, List.filterMap_cons, Worker.item, List.append_assoc]
          exact (List.perm_append_singleton a _).symm.append_left _
        calc (p.done.map Prod.fst ++ (p.workers.set i (.busy a)).filterMap Worker.item).Perm
              (p.done.map Prod.fst ++ (p.inFlight ++ [a])) := hflight.append_left _
          List.Perm _ (p.items.take p.next ++ [a]) := by
              rw [← List.append_assoc]
              exact h.perm.append_right [a]
          List.Perm _ (p.items.take (p.next + 1)) := by rw [htake]
      · rcases List.mem_or_eq_of_mem_set hmem with hmem | heq
        · exact (h.through hmem).trans (Nat.le_succ _)
        · cases heq
    · rename_i hnone
      have hend : p.items.length ≤ p.next := List.getElem?_eq_none_iff.1 hnone
      refine ⟨?_, fun _ => hend.trans (Nat.le_succ _)⟩
      have hsame : (p.workers.set i .through).filterMap Worker.item = p.inFlight := by
        rw [inFlight, hset .through]
        conv_rhs => rw [hworkers]
        simp only [List.filterMap_append, List.filterMap_cons, Worker.item]
      have htake : p.items.take (p.next + 1) = p.items.take p.next := by
        rw [List.take_of_length_le hend, List.take_of_length_le (hend.trans (Nat.le_succ _))]
      simpa only [handed, hsame, inFlight, htake] using h.perm
  · exact h

theorem Shared.finish (h : p.Shared) (i : Nat) (result : ρ) :
    (p.step (.finish i result)).Shared := by
  simp only [step]
  split
  · rename_i a hi
    obtain ⟨post, hworkers, hset⟩ := Lists.set_split hi
    refine ⟨?_, fun hmem => h.through ?_⟩
    · have hbefore : p.inFlight = (p.workers.take i).filterMap Worker.item ++
          a :: post.filterMap Worker.item := by
        rw [inFlight]
        conv_lhs => rw [hworkers]
        simp only [List.filterMap_append, List.filterMap_cons, Worker.item]
      have hafter : (p.workers.set i .looking).filterMap Worker.item =
          (p.workers.take i).filterMap Worker.item ++ post.filterMap Worker.item := by
        rw [hset .looking]
        simp only [List.filterMap_append, List.filterMap_cons, Worker.item]
      refine List.Perm.trans ?_ h.perm
      rw [handed, handed, inFlight, hafter, hbefore, List.map_append, List.append_assoc,
        List.map_singleton, List.singleton_append]
      exact List.perm_middle.symm.append_left _
    · rcases List.mem_or_eq_of_mem_set hmem with hmem | heq
      · exact hmem
      · cases heq
  · exact h

/-- Whatever step is taken, the list stays shared out. -/
theorem Shared.step (h : p.Shared) (act : Act ρ) : (p.step act).Shared := by
  cases act with
  | join => exact h.join
  | look i stop => exact h.look i stop
  | count i => exact h.count i
  | finish i result => exact h.finish i result

@[simp] theorem items_step (act : Act ρ) (p : Pool α ρ) : (p.step act).items = p.items := by
  cases act with
  | join => rfl
  | look i stop => simp only [Pool.step]; split <;> rfl
  | count i =>
      simp only [Pool.step]
      split
      · split <;> rfl
      · rfl
  | finish i result => simp only [Pool.step]; split <;> rfl

@[simp] theorem length_workers_join (p : Pool α ρ) :
    (p.step .join).workers.length = p.workers.length + 1 := by
  simp [Pool.step]

/-- Nobody joins otherwise. -/
theorem length_workers_step {act : Act ρ} (hact : act ≠ .join) (p : Pool α ρ) :
    (p.step act).workers.length = p.workers.length := by
  cases act with
  | join => exact absurd rfl hact
  | look i stop => simp only [Pool.step]; split <;> simp
  | count i =>
      simp only [Pool.step]
      split
      · split <;> simp
      · rfl
  | finish i result => simp only [Pool.step]; split <;> simp

/-! ## What follows -/

theorem length_inFlight (p : Pool α ρ) : p.inFlight.length ≤ p.workers.length :=
  List.length_filterMap_le _ _

/-- No item is handed out twice. -/
theorem Shared.nodup (h : p.Shared) (hitems : p.items.Nodup) : p.handed.Nodup :=
  h.perm.nodup_iff.2 (hitems.sublist (List.take_sublist _ _))

/-- Only what is on the list is handed out. -/
theorem Shared.subset (h : p.Shared) : p.handed ⊆ p.items :=
  fun _ ha => List.mem_of_mem_take (h.perm.subset ha)

/-- When all have left, nothing is being done. -/
theorem inFlight_of_allLeft (hover : p.allLeft = true) : p.inFlight = [] := by
  refine List.filterMap_eq_nil_iff.2 fun w hw => ?_
  have hleft := List.all_eq_true.1 hover w hw
  cases w with
  | looking => cases hleft
  | counting => cases hleft
  | busy a => cases hleft
  | stopped => rfl
  | through => rfl

/-- When all have left, and one of them because there was nothing more, all items are done. -/
theorem Shared.done_of_allLeft (h : p.Shared) (hover : p.allLeft = true)
    (hthrough : Worker.through ∈ p.workers) : (p.done.map Prod.fst).Perm p.items := by
  have hperm := h.perm
  rwa [handed, inFlight_of_allLeft hover, List.append_nil,
    List.take_of_length_le (h.through hthrough)] at hperm

/-- When all have left, somebody was there, and nobody had to stop, all items are done. -/
theorem Shared.done_of_unstopped (h : p.Shared) (hover : p.allLeft = true) (hsome : p.workers ≠ [])
    (hstopped : Worker.stopped ∉ p.workers) : (p.done.map Prod.fst).Perm p.items := by
  obtain ⟨w, hw⟩ := List.exists_mem_of_ne_nil _ hsome
  have hleft := List.all_eq_true.1 hover w hw
  cases w with
  | looking => cases hleft
  | counting => cases hleft
  | busy a => cases hleft
  | stopped => exact absurd hw hstopped
  | through => exact h.done_of_allLeft hover hw

end Pool

end Handout
