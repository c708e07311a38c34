import Mathlib.Tactic
import Mathlib.Data.List.AList

/-!
# Finite maps

A finite map is Mathlib's `AList` with one type of values.  Since the type does not depend
on the key, look-up after a change can be said in one equation.
-/

/-- A finite map, in no particular order. -/
abbrev Map (κ ν : Type) := AList (fun _ : κ => ν)

namespace Map

variable {κ ν : Type} [DecidableEq κ]

theorem lookup_insert (m : Map κ ν) (i j : κ) (v : ν) :
    (m.insert i v).lookup j = if j = i then some v else m.lookup j := by
  by_cases h : j = i
  · subst h
    simp
  · simp [h, AList.lookup_insert_ne h]

theorem lookup_erase (m : Map κ ν) (i j : κ) :
    (m.erase i).lookup j = if j = i then none else m.lookup j := by
  by_cases h : j = i
  · subst h
    simp
  · simp [h, AList.lookup_erase_ne h]

theorem length_insert (m : Map κ ν) (i : κ) (v : ν) :
    (m.insert i v).keys.length = (m.erase i).keys.length + 1 := by
  rw [AList.keys_insert, AList.keys_erase, List.length_cons]

theorem length_erase_le (m : Map κ ν) (i : κ) : (m.erase i).keys.length ≤ m.keys.length := by
  rw [AList.keys_erase]
  exact List.length_erase_le

theorem length_erase_of_mem {m : Map κ ν} {i : κ} (h : i ∈ m) :
    (m.erase i).keys.length + 1 = m.keys.length := by
  have hpos := List.length_pos_of_mem (AList.mem_keys.1 h)
  rw [AList.keys_erase, List.length_erase_of_mem (AList.mem_keys.1 h)]
  omega

theorem length_erase_of_notMem {m : Map κ ν} {i : κ} (h : i ∉ m) :
    (m.erase i).keys.length = m.keys.length := by
  rw [AList.keys_erase, List.erase_of_not_mem fun hkey => h (AList.mem_keys.2 hkey)]

/-- One value put under many keys. -/
theorem lookup_foldl_insert (keys : List κ) (v : ν) (m : Map κ ν) (j : κ) :
    (keys.foldl (fun m k => m.insert k v) m).lookup j =
      if j ∈ keys then some v else m.lookup j := by
  induction keys generalizing m with
  | nil => simp
  | cons k keys ih =>
      rw [List.foldl_cons, ih, lookup_insert]
      by_cases hj : j ∈ keys
      · simp [hj]
      · by_cases hk : j = k
        · simp [hk]
        · simp [hj, hk]

end Map
