import Mathlib.Tactic

/-!
# Ordered maps

A map from ordered keys, kept as the list of its entries in ascending order of key with no
key twice.  `OrdMap.Sorted` is that condition and `OrdMap.insert` keeps it.  Look-up is
`List.lookup`.  A list that is already in order is what inserting its entries one by one
gives (`ofEntries_eq_self`), so an encoder that writes a map in order loses nothing to a
decoder that inserts what it reads.
-/

namespace OrdMap

variable {κ : Type _} {ν : Type _}

section Defs

variable [LT κ] [DecidableLT κ] [DecidableEq κ]

/-- Put `v` at `k`, replacing what was there. -/
def insert (k : κ) (v : ν) : List (κ × ν) → List (κ × ν)
  | [] => [(k, v)]
  | (k', v') :: m =>
      if k = k' then (k, v) :: m
      else if k < k' then (k, v) :: (k', v') :: m
      else (k', v') :: insert k v m

/-- The map of a list of entries, later ones replacing earlier ones. -/
def ofEntries (es : List (κ × ν)) : List (κ × ν) :=
  es.foldl (fun m e => insert e.1 e.2 m) []

/-- Ascending and without repetition. -/
def Sorted (m : List (κ × ν)) : Prop := m.Pairwise fun a b => a.1 < b.1

end Defs

section Lookup

variable [LT κ] [DecidableLT κ] [DecidableEq κ] [BEq κ] [LawfulBEq κ]

@[simp] theorem lookup_insert_self (k : κ) (v : ν) (m : List (κ × ν)) :
    (insert k v m).lookup k = some v := by
  induction m with
  | nil => simp [insert]
  | cons e m ih =>
      obtain ⟨k', v'⟩ := e
      simp only [insert]
      split
      · simp
      · split
        · simp
        · rename_i hne _
          simp only [List.lookup_cons, beq_eq_false_iff_ne.2 hne, ih]

theorem lookup_insert_ne {k j : κ} (h : j ≠ k) (v : ν) (m : List (κ × ν)) :
    (insert k v m).lookup j = m.lookup j := by
  have hj : (j == k) = false := by simpa using h
  induction m with
  | nil => simp [insert, List.lookup_cons, hj]
  | cons e m ih =>
      obtain ⟨k', v'⟩ := e
      simp only [insert]
      split
      · rename_i heq
        subst heq
        simp [List.lookup_cons, hj]
      · split
        · simp [List.lookup_cons, hj]
        · simp [List.lookup_cons, ih]

omit [BEq κ] [LawfulBEq κ] in
theorem mem_insert {k : κ} {v : ν} {m : List (κ × ν)} {e : κ × ν} (h : e ∈ insert k v m) :
    e = (k, v) ∨ e ∈ m := by
  induction m with
  | nil => simpa [insert] using h
  | cons e' m ih =>
      obtain ⟨k', v'⟩ := e'
      simp only [insert] at h
      split at h
      · rcases List.mem_cons.1 h with h | h
        · exact Or.inl h
        · exact Or.inr (List.mem_cons_of_mem _ h)
      · split at h
        · rcases List.mem_cons.1 h with h | h
          · exact Or.inl h
          · exact Or.inr h
        · rcases List.mem_cons.1 h with h | h
          · exact Or.inr (h ▸ List.mem_cons_self)
          · rcases ih h with h | h
            · exact Or.inl h
            · exact Or.inr (List.mem_cons_of_mem _ h)

omit [LT κ] [DecidableLT κ] [DecidableEq κ] in
/-- Looking up a key that is not among the keys fails. -/
theorem lookup_eq_none_iff {k : κ} {m : List (κ × ν)} :
    m.lookup k = none ↔ k ∉ m.map Prod.fst := by
  induction m with
  | nil => simp
  | cons e m ih =>
      obtain ⟨k', v'⟩ := e
      by_cases h : k = k'
      · simp [h]
      · simp only [List.lookup_cons, beq_eq_false_iff_ne.2 h, ih, List.map_cons, List.mem_cons, h,
          false_or]

omit [LT κ] [DecidableLT κ] [DecidableEq κ] in
theorem mem_of_lookup {k : κ} {v : ν} {m : List (κ × ν)} (h : m.lookup k = some v) :
    (k, v) ∈ m := by
  obtain ⟨l₁, l₂, heq, -⟩ := List.lookup_eq_some_iff.1 h
  rw [heq]
  exact List.mem_append_right _ List.mem_cons_self

omit [LT κ] [DecidableLT κ] [DecidableEq κ] in
/-- A map without some of its keys. -/
theorem lookup_filter (p : κ → Bool) (m : List (κ × ν)) (k : κ) :
    (m.filter fun e => p e.1).lookup k = if p k then m.lookup k else none := by
  induction m with
  | nil => simp
  | cons e m ih =>
      obtain ⟨k', v'⟩ := e
      by_cases hp : p k' = true
      · rw [List.filter_cons_of_pos (by exact hp), List.lookup_cons, List.lookup_cons, ih]
        cases hk : k == k' with
        | false => rfl
        | true =>
            obtain rfl := eq_of_beq hk
            exact (if_pos hp).symm
      · rw [List.filter_cons_of_neg (by exact hp), List.lookup_cons, ih]
        cases hk : k == k' with
        | false => rfl
        | true => rw [eq_of_beq hk, if_neg hp, if_neg hp]

omit [LT κ] [DecidableLT κ] [DecidableEq κ] in
theorem lookup_of_mem {k : κ} {v : ν} {m : List (κ × ν)} (hnodup : (m.map Prod.fst).Nodup)
    (h : (k, v) ∈ m) : m.lookup k = some v := by
  obtain ⟨l₁, l₂, rfl⟩ := List.append_of_mem h
  refine List.lookup_eq_some_iff.2 ⟨l₁, l₂, rfl, fun e he => ?_⟩
  rw [List.map_append, List.map_cons] at hnodup
  have hne : k ∉ l₁.map Prod.fst := fun hmem =>
    (List.disjoint_of_nodup_append hnodup) hmem List.mem_cons_self
  have hkey : e.1 ∈ l₁.map Prod.fst := List.mem_map_of_mem he
  exact bne_iff_ne.2 fun hk => hne (hk ▸ hkey)

/-- Entries with distinct keys are looked up as they stand. -/
theorem lookup_ofEntries {es : List (κ × ν)} (h : (es.map Prod.fst).Nodup) (k : κ) :
    (ofEntries es).lookup k = es.lookup k := by
  have hfold : ∀ m : List (κ × ν), (es.foldl (fun m e => insert e.1 e.2 m) m).lookup k =
      (es.lookup k).or (m.lookup k) := by
    induction es with
    | nil => exact fun m => rfl
    | cons e es ih =>
        obtain ⟨j, v⟩ := e
        rw [List.map_cons, List.nodup_cons] at h
        intro m
        rw [List.foldl_cons, ih h.2]
        by_cases hk : k = j
        · subst hk
          rw [lookup_insert_self, lookup_eq_none_iff.2 h.1, List.lookup_cons_self]
          exact Option.none_or
        · rw [lookup_insert_ne hk, List.lookup_cons, beq_eq_false_iff_ne.2 hk]
  exact (hfold []).trans (Option.or_none ..)

omit [LT κ] [DecidableLT κ] [DecidableEq κ] in
theorem lookup_isSome_of_mem {k : κ} {m : List (κ × ν)} (h : k ∈ m.map Prod.fst) :
    (m.lookup k).isSome := by
  rw [Option.isSome_iff_ne_none]
  intro hnone
  exact lookup_eq_none_iff.1 hnone h

end Lookup

section Order

variable [LE κ] [LT κ] [DecidableLT κ] [DecidableEq κ] [Std.IsLinearOrder κ]
  [Std.LawfulOrderLT κ]

theorem sorted_insert (k : κ) (v : ν) {m : List (κ × ν)} (h : Sorted m) :
    Sorted (insert k v m) := by
  induction m with
  | nil => simp [insert, Sorted]
  | cons e m ih =>
      obtain ⟨k', v'⟩ := e
      obtain ⟨hhead, htail⟩ := List.pairwise_cons.1 h
      simp only [insert]
      split
      · rename_i heq
        subst heq
        exact List.pairwise_cons.2 ⟨hhead, htail⟩
      · rename_i hne
        split
        · rename_i hlt
          refine List.pairwise_cons.2 ⟨?_, h⟩
          intro e he
          rcases List.mem_cons.1 he with he | he
          · exact he ▸ hlt
          · exact Std.lt_trans hlt (hhead e he)
        · rename_i hnlt
          refine List.pairwise_cons.2 ⟨?_, ih htail⟩
          intro e he
          rcases mem_insert he with he | he
          · subst he
            exact Std.lt_of_le_of_ne (Std.not_lt.1 hnlt) (Ne.symm hne)
          · exact hhead e he

theorem sorted_ofEntries (es : List (κ × ν)) : Sorted (ofEntries es) := by
  have h : ∀ (es m : List (κ × ν)), Sorted m →
      Sorted (es.foldl (fun m e => insert e.1 e.2 m) m) := by
    intro es
    induction es with
    | nil => intro m hm; exact hm
    | cons e es ih => intro m hm; exact ih _ (sorted_insert e.1 e.2 hm)
  exact h es [] List.Pairwise.nil

omit [Std.IsLinearOrder κ] in
/-- A key above every key of the map goes to its end. -/
theorem insert_of_forall_lt {k : κ} (v : ν) {m : List (κ × ν)} (h : ∀ e ∈ m, e.1 < k) :
    insert k v m = m ++ [(k, v)] := by
  induction m with
  | nil => rfl
  | cons e m ih =>
      obtain ⟨k', v'⟩ := e
      have hlt : k' < k := h _ List.mem_cons_self
      have hne : ¬ k = k' := fun heq => Std.lt_irrefl (heq ▸ hlt)
      have hnlt : ¬ k < k' := fun hgt => Std.not_gt_of_lt hlt hgt
      simp only [insert, hne, hnlt, if_false]
      rw [ih fun e he => h e (List.mem_cons_of_mem _ he), List.cons_append]

omit [Std.IsLinearOrder κ] in
/-- Entries already in order are the map they make. -/
theorem ofEntries_eq_self {m : List (κ × ν)} (h : Sorted m) : ofEntries m = m := by
  have hgen : ∀ (es acc : List (κ × ν)), Sorted (acc ++ es) →
      es.foldl (fun m e => insert e.1 e.2 m) acc = acc ++ es := by
    intro es
    induction es with
    | nil => intro acc _; simp
    | cons e es ih =>
        intro acc hs
        have hlt : ∀ a ∈ acc, a.1 < e.1 := by
          intro a ha
          exact (List.pairwise_append.1 hs).2.2 a ha e List.mem_cons_self
        rw [List.foldl_cons, insert_of_forall_lt e.2 hlt, ih]
        · simp
        · simpa using hs
  exact hgen m [] h

omit [DecidableLT κ] [DecidableEq κ] [Std.IsLinearOrder κ] in
theorem Sorted.nodup_keys {m : List (κ × ν)} (h : Sorted m) : (m.map Prod.fst).Nodup := by
  induction m with
  | nil => simp
  | cons e m ih =>
      obtain ⟨hhead, htail⟩ := List.pairwise_cons.1 h
      rw [List.map_cons, List.nodup_cons]
      refine ⟨?_, ih htail⟩
      intro hmem
      obtain ⟨e', he', heq⟩ := List.mem_map.1 hmem
      exact Std.lt_irrefl (heq ▸ hhead e' he')

end Order

/-- A map that is in order. -/
structure Tree (κ ν : Type) [LT κ] where
  entries : List (κ × ν)
  sorted : Sorted entries

namespace Tree

variable {κ ν : Type} [LT κ]

def empty : Tree κ ν := ⟨[], List.Pairwise.nil⟩

def keys (t : Tree κ ν) : List κ := t.entries.map Prod.fst

variable [DecidableEq κ]

def lookup (t : Tree κ ν) (k : κ) : Option ν := t.entries.lookup k

def has (t : Tree κ ν) (k : κ) : Bool := (t.lookup k).isSome

def erase (t : Tree κ ν) (k : κ) : Tree κ ν :=
  ⟨t.entries.filter fun e => e.1 ≠ k, List.Pairwise.filter _ t.sorted⟩

@[simp] theorem lookup_empty (k : κ) : (empty : Tree κ ν).lookup k = none := rfl

theorem lookup_erase (t : Tree κ ν) (k j : κ) :
    (t.erase k).lookup j = if j = k then none else t.lookup j := by
  simp only [lookup, erase]
  induction t.entries with
  | nil => simp
  | cons e m ih =>
      obtain ⟨k', v⟩ := e
      by_cases hk : k' = k
      · subst hk
        simp only [List.filter_cons, ne_eq, not_true, decide_false, Bool.false_eq_true, if_false,
          ih, List.lookup_cons]
        split
        · rfl
        · rename_i hne
          rw [beq_eq_false_iff_ne.2 hne]
      · simp only [List.filter_cons, ne_eq, hk, not_false_eq_true, decide_true, if_true,
          List.lookup_cons, ih]
        by_cases hj : j = k'
        · subst hj
          simp [hk]
        · simp [beq_eq_false_iff_ne.2 hj]

theorem has_erase (t : Tree κ ν) (k j : κ) :
    (t.erase k).has j = (!decide (j = k) && t.has j) := by
  rw [has, lookup_erase]
  by_cases h : j = k
  · simp [h]
  · simp [h, has]

theorem mem_keys (t : Tree κ ν) (k : κ) : k ∈ t.keys ↔ t.has k = true := by
  rw [has, lookup, Option.isSome_iff_ne_none, ne_eq, lookup_eq_none_iff, not_not]
  rfl

theorem mem_entries {t : Tree κ ν} {k : κ} {v : ν} (h : t.lookup k = some v) :
    (k, v) ∈ t.entries :=
  mem_of_lookup h

variable [LE κ] [DecidableLT κ] [Std.LawfulOrderLT κ]

omit [DecidableEq κ] [DecidableLT κ] in
theorem nodup_keys (t : Tree κ ν) : t.keys.Nodup :=
  t.sorted.nodup_keys

omit [DecidableLT κ] in
/-- The map has one value for a key. -/
theorem mem_entries_iff {t : Tree κ ν} {k : κ} {v : ν} :
    (k, v) ∈ t.entries ↔ t.lookup k = some v := by
  exact ⟨lookup_of_mem t.nodup_keys, mem_entries⟩

def insert [Std.IsLinearOrder κ] (t : Tree κ ν) (k : κ) (v : ν) : Tree κ ν :=
  ⟨OrdMap.insert k v t.entries, sorted_insert k v t.sorted⟩

theorem lookup_insert [Std.IsLinearOrder κ] (t : Tree κ ν) (k j : κ) (v : ν) :
    (t.insert k v).lookup j = if j = k then some v else t.lookup j := by
  by_cases h : j = k
  · rw [h, if_pos rfl]
    exact lookup_insert_self k v t.entries
  · rw [if_neg h]
    exact lookup_insert_ne h v t.entries

theorem has_insert [Std.IsLinearOrder κ] (t : Tree κ ν) (k j : κ) (v : ν) :
    (t.insert k v).has j = (decide (j = k) || t.has j) := by
  rw [has, lookup_insert]
  by_cases h : j = k
  · simp [h]
  · simp [h, has]

end Tree

end OrdMap
