import Mathlib.Tactic

/-!
# Words and runs

The words of a text are what stands between its separators (`words`).  Whether a text has a long
run of characters of one kind is told by a counter that falls back to nothing at every other
character (`hasRunFrom`, `hasRun_iff`).
-/

namespace Words

variable {α : Type _}

/-! ## Words -/

/-- What stands between separators, without what is empty. -/
def words (sep : α → Bool) (l : List α) : List (List α) :=
  (l.splitOnP sep).filter fun w => !w.isEmpty

variable {sep : α → Bool}

theorem words_nil : words sep [] = [] := by
  rw [words, List.splitOnP_nil]
  rfl

theorem words_append_cons (l r : List α) {x : α} (hx : sep x = true) :
    words sep (l ++ x :: r) = words sep l ++ words sep r := by
  rw [words, List.splitOnP_append_cons _ _ hx, List.filter_append]
  rfl

theorem words_cons (r : List α) {x : α} (hx : sep x = true) : words sep (x :: r) = words sep r := by
  have hsplit := words_append_cons [] r hx
  rwa [List.nil_append, words_nil, List.nil_append] at hsplit

theorem words_replicate (n : Nat) (r : List α) {x : α} (hx : sep x = true) :
    words sep (List.replicate n x ++ r) = words sep r := by
  induction n with
  | zero => rfl
  | succ n ih => rw [List.replicate_succ, List.cons_append, words_cons _ hx, ih]

/-- A text without separators is one word. -/
theorem words_of_forall {l : List α} (h : ∀ x ∈ l, sep x = false) (hne : l ≠ []) :
    words sep l = [l] := by
  rw [words, List.splitOnP_eq_singleton h, List.filter_cons_of_pos (by simpa using hne)]
  rfl

/-- A text has no separators, or is cut at the first. -/
theorem cut (sep : α → Bool) (l : List α) :
    (∀ x ∈ l, sep x = false) ∨
      ∃ w x rest, l = w ++ x :: rest ∧ (∀ y ∈ w, sep y = false) ∧ sep x = true := by
  induction l with
  | nil => exact .inl fun x hx => absurd hx List.not_mem_nil
  | cons c cs ih =>
      cases hc : sep c with
      | true => exact .inr ⟨[], c, cs, rfl, fun y hy => absurd hy List.not_mem_nil, hc⟩
      | false =>
          rcases ih with hall | ⟨w, x, rest, rfl, hw, hx⟩
          · exact .inl (List.forall_mem_cons.2 ⟨hc, hall⟩)
          · exact .inr ⟨c :: w, x, rest, rfl, List.forall_mem_cons.2 ⟨hc, hw⟩, hx⟩

/-- The first word of a text that begins without a separator. -/
theorem words_append {l : List α} (h : ∀ x ∈ l, sep x = false) (hne : l ≠ []) (r : List α) :
    ∃ w ws, words sep (l ++ r) = (l ++ w) :: ws := by
  rcases cut sep r with hr | ⟨w, x, rest, rfl, hw, hx⟩
  · refine ⟨r, [], words_of_forall (fun x hx => ?_) (by simp [hne])⟩
    exact (List.mem_append.1 hx).elim (h x) (hr x)
  · refine ⟨w, words sep rest, ?_⟩
    rw [← List.append_assoc, words_append_cons _ _ hx, words_of_forall _ (by simp [hne])]
    · rfl
    · intro y hy
      exact (List.mem_append.1 hy).elim (h y) (hw y)

/-- A word stands in the text. -/
theorem infix_of_mem_words {w l : List α} (h : w ∈ words sep l) : w <:+: l := by
  induction hn : l.length using Nat.strong_induction_on generalizing l with
  | _ n ih =>
      rcases cut sep l with hl | ⟨v, x, rest, rfl, hv, hx⟩
      · by_cases hne : l = []
        · subst hne
          rw [words_nil] at h
          cases h
        · rw [words_of_forall hl hne, List.mem_singleton] at h
          rw [h]
      · rw [words_append_cons _ _ hx, List.mem_append] at h
        have hlong : (v ++ x :: rest).length = v.length + (rest.length + 1) := by simp
        rcases h with h | h
        · exact (ih v.length (by omega) h rfl).trans (List.prefix_append v _).isInfix
        · refine (ih rest.length (by omega) h rfl).trans ⟨v ++ [x], [], ?_⟩
          simp

/-! ## Runs -/

/-- Whether a text has a run of at least so many characters of a kind, when it comes after so
many. -/
def hasRunFrom (kind : α → Bool) (min : Nat) : Nat → List α → Bool
  | _, [] => false
  | run, c :: cs =>
      if kind c then
        if min ≤ run + 1 then true else hasRunFrom kind min (run + 1) cs
      else hasRunFrom kind min 0 cs

variable {kind : α → Bool} {min : Nat}

theorem hasRunFrom_cons (c : α) (cs : List α) (run : Nat) :
    hasRunFrom kind min run (c :: cs) =
      if kind c then if min ≤ run + 1 then true else hasRunFrom kind min (run + 1) cs
      else hasRunFrom kind min 0 cs := rfl

theorem hasRunFrom_mono {run run' : Nat} (hrun : run ≤ run') {l : List α}
    (h : hasRunFrom kind min run l = true) : hasRunFrom kind min run' l = true := by
  induction l generalizing run run' with
  | nil => cases h
  | cons c cs ih =>
      rw [hasRunFrom_cons] at h ⊢
      by_cases hc : kind c = true
      · rw [if_pos hc] at h ⊢
        by_cases hlong : min ≤ run' + 1
        · rw [if_pos hlong]
        · rw [if_neg hlong]
          rw [if_neg (by omega)] at h
          exact ih (Nat.succ_le_succ hrun) h
      · rwa [if_neg hc] at h ⊢

theorem hasRunFrom_cons_of_tail (c : α) {run : Nat} {l : List α}
    (h : hasRunFrom kind min 0 l = true) : hasRunFrom kind min run (c :: l) = true := by
  rw [hasRunFrom_cons, h]
  split
  · split
    · rfl
    · exact hasRunFrom_mono (Nat.zero_le _) h
  · rfl

theorem hasRunFrom_cons_of_not {x : α} (hx : kind x = false) (r : List α) (run : Nat) :
    hasRunFrom kind min run (x :: r) = hasRunFrom kind min 0 r := by
  rw [hasRunFrom_cons, hx, if_neg (by decide)]

/-- A run does not go on past a character of another kind. -/
theorem hasRunFrom_append_cons {x : α} (hx : kind x = false) (l r : List α) (run : Nat) :
    hasRunFrom kind min run (l ++ x :: r) =
      (hasRunFrom kind min run l || hasRunFrom kind min 0 r) := by
  induction l generalizing run with
  | nil =>
      rw [List.nil_append, hasRunFrom_cons_of_not hx]
      rfl
  | cons c cs ih =>
      rw [List.cons_append, hasRunFrom_cons, hasRunFrom_cons, ih, ih]
      by_cases hc : kind c = true
      · rw [if_pos hc, if_pos hc]
        by_cases hlong : min ≤ run + 1
        · rw [if_pos hlong, if_pos hlong, Bool.true_or]
        · rw [if_neg hlong, if_neg hlong]
      · rw [if_neg hc, if_neg hc]

theorem hasRunFrom_of_length {l : List α} {run : Nat} (h : l.length + run < min) :
    hasRunFrom kind min run l = false := by
  induction l generalizing run with
  | nil => rfl
  | cons c cs ih =>
      rw [List.length_cons] at h
      rw [hasRunFrom_cons, if_neg (by omega : ¬ min ≤ run + 1), ih (by omega), ih (by omega)]
      exact ite_self _

theorem hasRunFrom_map {f : α → α} (hf : ∀ x, kind (f x) = kind x) (l : List α) (run : Nat) :
    hasRunFrom kind min run (l.map f) = hasRunFrom kind min run l := by
  induction l generalizing run with
  | nil => rfl
  | cons c cs ih => rw [List.map_cons, hasRunFrom_cons, hasRunFrom_cons, hf, ih, ih]

/-- What is found is a run: one that is begun, or one in the text. -/
theorem run_of_hasRunFrom {run : Nat} {l : List α} (h : hasRunFrom kind min run l = true) :
    (∃ s, s <+: l ∧ (∀ x ∈ s, kind x = true) ∧ min ≤ run + s.length) ∨
      ∃ s, s <:+: l ∧ (∀ x ∈ s, kind x = true) ∧ min ≤ s.length := by
  induction l generalizing run with
  | nil => cases h
  | cons c cs ih =>
      rw [hasRunFrom_cons] at h
      have hlater : (∃ s, s <:+: cs ∧ (∀ x ∈ s, kind x = true) ∧ min ≤ s.length) →
          ∃ s, s <:+: c :: cs ∧ (∀ x ∈ s, kind x = true) ∧ min ≤ s.length :=
        fun ⟨s, hs, hall⟩ => ⟨s, List.infix_cons hs, hall⟩
      by_cases hc : kind c = true
      · rw [if_pos hc] at h
        by_cases hlong : min ≤ run + 1
        · refine .inl ⟨[c], ⟨cs, rfl⟩, fun x hx => ?_, hlong⟩
          rwa [List.mem_singleton.1 hx]
        · rw [if_neg hlong] at h
          rcases ih h with ⟨s, hs, hall, hmin⟩ | hrun
          · refine .inl ⟨c :: s, (List.prefix_cons_inj c).2 hs, ?_, ?_⟩
            · exact List.forall_mem_cons.2 ⟨hc, hall⟩
            · rw [List.length_cons]
              omega
          · exact .inr (hlater hrun)
      · rw [if_neg hc] at h
        rcases ih h with ⟨s, hs, hall, hmin⟩ | hrun
        · exact .inr (hlater ⟨s, hs.isInfix, hall, by omega⟩)
        · exact .inr (hlater hrun)

/-- A run that stands at the front, or anywhere, is found. -/
theorem hasRunFrom_of_front {run : Nat} {s l : List α} (hs : s <+: l)
    (hall : ∀ x ∈ s, kind x = true) (hmin : min ≤ run + s.length) (hlt : run < min) :
    hasRunFrom kind min run l = true := by
  induction l generalizing run s with
  | nil =>
      rw [List.prefix_nil.1 hs, List.length_nil] at hmin
      omega
  | cons c cs ih =>
      cases s with
      | nil =>
          rw [List.length_nil] at hmin
          omega
      | cons d s =>
          obtain ⟨rfl, htail⟩ := List.cons_prefix_cons.1 hs
          rw [List.length_cons] at hmin
          rw [hasRunFrom_cons, if_pos (hall d List.mem_cons_self)]
          by_cases hlong : min ≤ run + 1
          · rw [if_pos hlong]
          · rw [if_neg hlong]
            exact ih htail (fun x hx => hall x (List.mem_cons_of_mem d hx)) (by omega) (by omega)

theorem hasRunFrom_append_left {l r : List α} (h : hasRunFrom kind min 0 r = true) :
    hasRunFrom kind min 0 (l ++ r) = true := by
  induction l with
  | nil => exact h
  | cons c cs ih => exact hasRunFrom_cons_of_tail c ih

/-- What the counter tells. -/
theorem hasRun_iff (hmin : 0 < min) (l : List α) :
    hasRunFrom kind min 0 l = true ↔
      ∃ s, s <:+: l ∧ (∀ x ∈ s, kind x = true) ∧ min ≤ s.length := by
  constructor
  · intro h
    rcases run_of_hasRunFrom h with ⟨s, hs, hall, hlong⟩ | hrun
    · exact ⟨s, hs.isInfix, hall, by omega⟩
    · exact hrun
  · rintro ⟨s, ⟨before, after, rfl⟩, hall, hlong⟩
    rw [List.append_assoc]
    exact hasRunFrom_append_left
      (hasRunFrom_of_front (List.prefix_append s after) hall (by omega) hmin)

/-- Texts put together with a character between them are made of it and what they are made of. -/
theorem mem_intercalate {x c : α} {ls : List (List α)} (h : c ∈ [x].intercalate ls) :
    c = x ∨ ∃ l ∈ ls, c ∈ l := by
  induction ls with
  | nil => cases h
  | cons l ls ih =>
      cases ls with
      | nil => exact .inr ⟨l, List.mem_cons_self, by simpa using h⟩
      | cons l' ls =>
          rw [List.intercalate_cons_cons, List.append_assoc, List.mem_append, List.mem_append,
            List.mem_singleton] at h
          rcases h with h | h | h
          · exact .inr ⟨l, List.mem_cons_self, h⟩
          · exact .inl h
          · exact (ih h).imp_right fun ⟨m, hm, hc⟩ => ⟨m, List.mem_cons_of_mem l hm, hc⟩

/-- Texts put together with a character of another kind between them. -/
theorem hasRunFrom_intercalate {x : α} (hx : kind x = false) {ls : List (List α)}
    (h : ∀ l ∈ ls, hasRunFrom kind min 0 l = false) :
    hasRunFrom kind min 0 ([x].intercalate ls) = false := by
  induction ls with
  | nil => rfl
  | cons l ls ih =>
      cases ls with
      | nil => simpa using h l List.mem_cons_self
      | cons l' ls =>
          rw [List.intercalate_cons_cons, List.append_assoc, List.singleton_append,
            hasRunFrom_append_cons hx, h l List.mem_cons_self,
            ih fun m hm => h m (List.mem_cons_of_mem l hm)]
          rfl

end Words
