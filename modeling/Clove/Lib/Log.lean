import Mathlib.Tactic

/-!
# Logs

A log is a list of entries, each a value under a key, the oldest first.  `last` is what it says
last about a key.
-/

namespace Log

variable {κ τ : Type _} [DecidableEq κ]

/-- What a log says last about a key. -/
def last (log : List (κ × τ)) (k : κ) : Option τ := ((log.filter (·.1 = k)).getLast?).map Prod.snd

/-- What is logged later counts. -/
theorem last_append (log log' : List (κ × τ)) (k : κ) :
    last (log ++ log') k = (last log' k).or (last log k) := by
  simp only [last, List.filter_append, List.getLast?_append]
  cases (log'.filter (·.1 = k)).getLast? <;> rfl

/-- Entries that bear one value. -/
theorem last_map_const (keys : List κ) (v : τ) (k : κ) :
    last (keys.map fun j => (j, v)) k = if k ∈ keys then some v else none := by
  induction keys with
  | nil => rfl
  | cons j keys ih =>
      have hcons : last ((j, v) :: keys.map fun j => (j, v)) k =
          (last (keys.map fun j => (j, v)) k).or (last [(j, v)] k) :=
        last_append [(j, v)] (keys.map fun j => (j, v)) k
      have hone : last [(j, v)] k = if k = j then some v else none := by
        by_cases hk : k = j
        · simp [last, hk]
        · simp [last, hk, Ne.symm hk]
      rw [List.map_cons, hcons, ih, hone]
      by_cases hin : k ∈ keys
      · simp only [hin, if_true, List.mem_cons, or_true, Option.some_or]
      · simp only [hin, if_false, Option.none_or, List.mem_cons, or_false]

end Log
