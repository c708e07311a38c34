import Mathlib.Tactic
import Mathlib.Data.List.GetD
import Mathlib.Data.List.DropRight

/-!
# Tables kept as lists

A table is a list that is read and changed by position.  Reading past the end gives a
default.  `swapRemove` takes an entry out and puts the last one in its place.  The counting
lemmas say what a change at one position does to the number of entries with a property.
-/

namespace Lists

variable {α : Type _}

/-! ## Reading -/

theorem getD_modify {l : List α} {f : α → α} {k : Nat} (hk : k < l.length) (j : Nat) (d : α) :
    (l.modify k f).getD j d = if j = k then f (l.getD j d) else l.getD j d := by
  rw [List.getD_eq_getElem?_getD, List.getElem?_modify, List.getD_eq_getElem?_getD]
  by_cases h : j = k
  · subst h
    simp [hk]
  · have : k ≠ j := fun heq => h heq.symm
    simp [h, this]

theorem getD_set {l : List α} {k : Nat} (hk : k < l.length) (a : α) (j : Nat) (d : α) :
    (l.set k a).getD j d = if j = k then a else l.getD j d := by
  rw [List.getD_eq_getElem?_getD, List.getElem?_set, List.getD_eq_getElem?_getD]
  by_cases h : j = k
  · subst h
    simp [hk]
  · have : k ≠ j := fun heq => h heq.symm
    simp [h, this]

theorem getD_replicate (n : Nat) (a d : α) (i : Nat) :
    (List.replicate n a).getD i d = if i < n then a else d := by
  split
  · rename_i h
    rw [List.getD_eq_getElem _ _ (by simpa using h), List.getElem_replicate]
  · rename_i h
    rw [List.getD_eq_default _ _ (by simpa using h)]

/-- A change that keeps a projection keeps the projected table. -/
theorem map_modify_of_eq {β : Type _} {g : α → β} {f : α → α} (hf : ∀ a, g (f a) = g a)
    (l : List α) (i : Nat) : (l.modify i f).map g = l.map g := by
  induction l generalizing i with
  | nil => simp
  | cons a l ih =>
      cases i with
      | zero => simp [hf]
      | succ i => simp [ih]

/-- Where a key is unique, a change at its position is a change of the entries with that
key. -/
theorem modify_eq_map {β : Type _} [DecidableEq β] {g : α → β} {l : List α}
    (hnodup : (l.map g).Nodup) {i : Nat} {a : α} (hi : l[i]? = some a) (f : α → α) :
    l.modify i f = l.map fun b => if g b = g a then f b else b := by
  induction l generalizing i with
  | nil => simp at hi
  | cons b l ih =>
      rw [List.map_cons, List.nodup_cons] at hnodup
      cases i with
      | zero =>
          obtain rfl : b = a := by simpa using hi
          have hrest : l.map (fun c => if g c = g b then f c else c) = l.map id := by
            refine List.map_congr_left fun c hc => if_neg fun heq => hnodup.1 ?_
            exact heq ▸ List.mem_map_of_mem hc
          simp [hrest]
      | succ i =>
          have hi : l[i]? = some a := by simpa using hi
          have hne : g b ≠ g a := fun heq =>
            hnodup.1 (heq ▸ List.mem_map_of_mem (List.mem_of_getElem? hi))
          simp [ih hnodup.2 hi, hne]

/-- Replacing an entry, with what is before and after it. -/
theorem set_split {l : List α} {i : Nat} {a : α} (hi : l[i]? = some a) :
    ∃ post, l = l.take i ++ a :: post ∧ ∀ b, l.set i b = l.take i ++ b :: post := by
  obtain ⟨hlt, rfl⟩ := List.getElem?_eq_some_iff.1 hi
  refine ⟨l.drop (i + 1), ?_, fun b => List.set_eq_take_append_cons_drop .. |>.trans (if_pos hlt)⟩
  rw [List.getElem_cons_drop, List.take_append_drop]

theorem mem_modify {l : List α} {f : α → α} {i : Nat} {a : α} (h : a ∈ l.modify i f) :
    a ∈ l ∨ ∃ b, l[i]? = some b ∧ a = f b := by
  obtain ⟨j, hj⟩ := List.mem_iff_getElem?.1 h
  rw [List.getElem?_modify] at hj
  obtain ⟨b, hb, rfl⟩ := Option.map_eq_some_iff.1 hj
  split
  · rename_i heq
    exact .inr ⟨b, heq ▸ hb, rfl⟩
  · exact .inl (List.mem_of_getElem? hb)

/-! ## Removing -/

/-- What is taken out was counted, or not. -/
theorem countP_eraseIdx {p : α → Bool} {l : List α} {i : Nat} {a : α} (hi : l[i]? = some a) :
    (l.eraseIdx i).countP p + (if p a then 1 else 0) = l.countP p := by
  obtain ⟨hlt, rfl⟩ := List.getElem?_eq_some_iff.1 hi
  have hsplit : l = l.take i ++ l[i] :: l.drop (i + 1) := by simp
  calc (l.eraseIdx i).countP p + (if p l[i] then 1 else 0)
      = (l.take i).countP p + ((l.drop (i + 1)).countP p + if p l[i] then 1 else 0) := by
        rw [List.eraseIdx_eq_take_drop_succ, List.countP_append, Nat.add_assoc]
    _ = (l.take i ++ l[i] :: l.drop (i + 1)).countP p := by
        rw [List.countP_append, List.countP_cons]
    _ = l.countP p := by rw [← hsplit]

/-- An entry that is replaced by one that counts as much. -/
theorem countP_set_eq {p : α → Bool} {l : List α} {i : Nat} {a b : α} (hi : l[i]? = some a)
    (hp : p b = p a) : (l.set i b).countP p = l.countP p := by
  obtain ⟨post, hl, hset⟩ := set_split hi
  rw [hset b, List.countP_append, List.countP_cons, hp, ← List.countP_cons, ← List.countP_append,
    ← hl]

/-- Take entry `i` out; the last entry takes its place. -/
def swapRemove (l : List α) (i : Nat) : List α :=
  match l.getLast? with
  | some last => (l.set i last).dropLast
  | none => []

theorem perm_swapRemove {l : List α} {i : Nat} (h : i < l.length) :
    (l[i] :: swapRemove l i).Perm l := by
  obtain ⟨init, last, rfl⟩ : ∃ init last, l = init ++ [last] :=
    ⟨l.dropLast, l.getLast (List.ne_nil_of_length_pos (by omega)),
      (List.dropLast_append_getLast _).symm⟩
  have hgl : (init ++ [last]).getLast? = some last := by simp
  unfold swapRemove
  rw [hgl]
  by_cases hi : i < init.length
  · have hset : (init ++ [last]).set i last = init.set i last ++ [last] :=
      List.set_append_left _ _ hi
    simp only [hset, List.dropLast_concat, List.getElem_append_left hi]
    have hperm : (init[i] :: init.set i last).Perm (last :: init) := by
      rw [List.set_eq_take_append_cons_drop, if_pos hi]
      have hsplit : init = init.take i ++ init[i] :: init.drop (i + 1) := by
        rw [List.getElem_cons_drop, List.take_append_drop]
      refine (List.Perm.cons _ List.perm_middle).trans ((List.Perm.swap _ _ _).trans ?_)
      conv_rhs => rw [hsplit]
      exact List.Perm.cons _ List.perm_middle.symm
    exact hperm.trans (List.perm_append_singleton last init).symm
  · have hi' : i = init.length := by
      simp at h
      omega
    subst hi'
    have hset : (init ++ [last]).set init.length last = init ++ [last] := by
      rw [List.set_append_right _ _ (le_refl _)]
      simp
    simp only [hset, List.dropLast_concat, List.getElem_concat_length]
    exact (List.perm_append_singleton last init).symm

/-! ## Counting -/

theorem countP_modify {p : α → Bool} {f : α → α} {l : List α} {i : Nat} (h : i < l.length) :
    (l.modify i f).countP p + (if p l[i] then 1 else 0) =
      l.countP p + (if p (f l[i]) then 1 else 0) := by
  induction l generalizing i with
  | nil => simp at h
  | cons a l ih =>
      cases i with
      | zero =>
          simp only [List.modify_zero_cons, List.countP_cons, List.getElem_cons_zero]
          omega
      | succ i =>
          have := ih (i := i) (by simpa using h)
          simp only [List.modify_succ_cons, List.countP_cons, List.getElem_cons_succ]
          omega

/-- What is dropped at the end does not reach past what is not dropped. -/
theorem rdropWhile_append {p : α → Bool} {l : List α} (hl : ∀ a ∈ l, p a = false) (m : List α) :
    ∃ m', m' <+: m ∧ (l ++ m).rdropWhile p = l ++ m' := by
  induction m using List.reverseRecOn with
  | nil =>
      refine ⟨[], List.prefix_rfl, ?_⟩
      rw [List.append_nil, List.rdropWhile_eq_self_iff]
      exact fun hne => by simp [hl _ (List.getLast_mem hne)]
  | append_singleton m a ih =>
      rw [← List.append_assoc]
      cases ha : p a with
      | true =>
          obtain ⟨m', hfront, heq⟩ := ih
          exact ⟨m', hfront.trans (List.prefix_append m [a]),
            (List.rdropWhile_concat_pos p (l ++ m) a ha).trans heq⟩
      | false =>
          refine ⟨m ++ [a], List.prefix_rfl, ?_⟩
          rw [List.rdropWhile_concat_neg p (l ++ m) a (by simp [ha]), List.append_assoc]

/-- What is dropped at the end was not taken at the front. -/
theorem takeWhile_rdropWhile {p q : α → Bool} (hq : ∀ a, q a = true → p a = false) (l : List α) :
    (l.rdropWhile p).takeWhile q = l.takeWhile q := by
  have hall : ∀ a ∈ l.takeWhile q, q a = true := fun a ha => List.mem_takeWhile_imp ha
  obtain ⟨m, hm, heq⟩ := rdropWhile_append (fun a ha => hq a (hall a ha)) (l.dropWhile q)
  rw [List.takeWhile_append_dropWhile] at heq
  rw [heq, List.takeWhile_append_of_pos hall]
  cases m with
  | nil => simp
  | cons a m =>
      obtain ⟨rest, hrest⟩ := hm
      have hhead : q a = false := by
        have hnot := List.head?_dropWhile_not q l
        rw [← hrest] at hnot
        simpa using hnot
      rw [List.takeWhile_cons_of_neg (by simp [hhead]), List.append_nil]

/-- What is put together of parts that are not empty is as long as they are many. -/
theorem length_le_flatMap {β : Type _} {f : α → List β} {l : List α} (h : ∀ a ∈ l, f a ≠ []) :
    l.length ≤ (l.flatMap f).length := by
  induction l with
  | nil => exact le_rfl
  | cons a l ih =>
      have hone := List.length_pos_of_ne_nil (h a List.mem_cons_self)
      have hrest := ih fun b hb => h b (List.mem_cons_of_mem a hb)
      rw [List.flatMap_cons, List.length_append, List.length_cons]
      omega

/-- What meets a condition meets one of two. -/
theorem countP_le_add {p q r : α → Bool} {l : List α}
    (h : ∀ a ∈ l, p a = true → q a = true ∨ r a = true) :
    l.countP p ≤ l.countP q + l.countP r := by
  induction l with
  | nil => exact Nat.le_refl 0
  | cons a l ih =>
      have hrest := ih fun b hb => h b (List.mem_cons_of_mem a hb)
      have hfirst := h a List.mem_cons_self
      simp only [List.countP_cons]
      cases hp : p a with
      | false =>
          simp only [Bool.false_eq_true, if_false]
          omega
      | true =>
          simp only [if_true]
          cases hfirst hp with
          | inl hq =>
              rw [if_pos hq]
              omega
          | inr hr =>
              rw [if_pos hr]
              omega

/-- Two tests on the numbers below `n` that differ at one place. -/
theorem countP_range_update {p q : Nat → Bool} {n i : Nat} (hi : i < n)
    (h : ∀ j, j ≠ i → q j = p j) :
    (List.range n).countP q + (if p i then 1 else 0) =
      (List.range n).countP p + (if q i then 1 else 0) := by
  induction n with
  | zero => omega
  | succ n ih =>
      simp only [List.range_succ, List.countP_append, List.countP_singleton]
      by_cases hin : i = n
      · subst hin
        have hbelow : (List.range i).countP q = (List.range i).countP p := by
          refine List.countP_congr fun j hj => ?_
          rw [h j (List.mem_range.1 hj).ne]
        omega
      · have := ih (by omega)
        rw [h n (Ne.symm hin)]
        omega

/-- Reading every position counts what is there. -/
theorem countP_range_getD {β : Type _} {p : β → Bool} (l : List β) (d : β) :
    (List.range l.length).countP (fun i => p (l.getD i d)) = l.countP p := by
  have hread : (List.range l.length).map (fun i => l.getD i d) = l := by
    refine List.ext_getElem (by simp) fun i h₁ h₂ => ?_
    simp [h₂]
  rw [← Function.comp_def p, ← List.countP_map, hread]

/-! ## Ranks -/

/-- In a list in order, the entries before a position are those that come before its entry. -/
theorem countP_before {r : α → α → Bool} (hasymm : ∀ a b, r a b = true → r b a = false)
    {l : List α} (hl : l.Pairwise fun a b => r a b = true) {i : Nat} {a : α} (hi : l[i]? = some a) :
    l.countP (fun b => r b a) = i := by
  have hirrefl : r a a = false := Bool.eq_false_iff.2 fun h => by
    have := hasymm a a h
    simp [h] at this
  induction l generalizing i with
  | nil => simp at hi
  | cons b l ih =>
      obtain ⟨hhead, htail⟩ := List.pairwise_cons.1 hl
      cases i with
      | zero =>
          obtain rfl : b = a := by simpa using hi
          have hnone : l.countP (fun c => r c b) = 0 :=
            List.countP_eq_zero.2 fun c hc => by simp [hasymm b c (hhead c hc)]
          simp [hnone, hirrefl]
      | succ i =>
          rw [List.getElem?_cons_succ] at hi
          rw [List.countP_cons, ih htail hi, if_pos (hhead a (List.mem_of_getElem? hi))]

/-- An entry that occurs once is among the first `n` if its position is. -/
theorem mem_take_iff_of_nodup {l : List α} (hl : l.Nodup) {i : Nat} {a : α} (hi : l[i]? = some a)
    (n : Nat) : a ∈ l.take n ↔ i < n := by
  rw [List.mem_iff_getElem?]
  constructor
  · rintro ⟨j, hj⟩
    rw [List.getElem?_take] at hj
    split at hj
    · rename_i hlt
      have heq := (List.getElem?_inj (List.getElem?_eq_some_iff.1 hi).1 hl).1 (hi.trans hj.symm)
      exact heq ▸ hlt
    · cases hj
  · exact fun hlt => ⟨i, by rw [List.getElem?_take, if_pos hlt, hi]⟩

theorem mem_intercalate {c b : α} {ls : List (List α)} (h : b ∈ [c].intercalate ls) :
    b = c ∨ ∃ l ∈ ls, b ∈ l := by
  induction ls with
  | nil => cases h
  | cons l ls ih =>
      cases ls with
      | nil => exact .inr ⟨l, List.mem_cons_self, by simpa using h⟩
      | cons l' ls =>
          rw [List.intercalate_cons_cons, List.mem_append, List.mem_append] at h
          rcases h with (h | h) | h
          · exact .inr ⟨l, List.mem_cons_self, h⟩
          · exact .inl (List.mem_singleton.1 h)
          · rcases ih h with h | ⟨m, hm, hb⟩
            · exact .inl h
            · exact .inr ⟨m, List.mem_cons_of_mem l hm, hb⟩

/-- A term that is nothing may be left out of a sum. -/
theorem sum_filter_ne [DecidableEq α] (l : List α) (p : α → Bool) {f g : α → Nat} {a : α}
    (ha : f a = 0) (hfg : ∀ b, b ≠ a → g b = f b) :
    ((l.filter fun b => p b && b ≠ a).map g).sum = ((l.filter p).map f).sum := by
  induction l with
  | nil => rfl
  | cons b l ih =>
      rw [List.filter_cons, List.filter_cons]
      cases hp : p b with
      | false => simpa using ih
      | true =>
          by_cases hb : b = a
          · simpa [hb, ha] using ih
          · simpa [hb, hfg b hb] using ih

/-- And so may a list that is empty be left out of a concatenation. -/
theorem flatMap_filter_ne {β : Type _} [DecidableEq α] (l : List α) {f g : α → List β} {a : α}
    (ha : f a = []) (hfg : ∀ b, b ≠ a → g b = f b) :
    (l.filter (· ≠ a)).flatMap g = l.flatMap f := by
  induction l with
  | nil => rfl
  | cons b l ih =>
      rw [List.filter_cons]
      by_cases hb : b = a
      · simpa [hb, ha] using ih
      · simpa [hb, hfg b hb] using ih

end Lists
