import Mathlib.Tactic

/-!
# Fallible computations

A fallible function is a function to `Except`.  A sequence of such calls succeeds when
every call does, and each success names the intermediate value.  Proofs about a sequence
take it apart with `Except.ok_of_bind` and never unfold the monad.
-/

namespace Except

variable {ε α β : Type _}

@[simp] theorem ok_bind (a : α) (f : α → Except ε β) : ((.ok a : Except ε α) >>= f) = f a := rfl

@[simp] theorem error_bind (e : ε) (f : α → Except ε β) :
    ((.error e : Except ε α) >>= f) = .error e := rfl

/-- A sequence that succeeds has a first half that does, and a second half that does on
the value of the first. -/
theorem ok_of_bind {x : Except ε α} {f : α → Except ε β} {b : β} (h : (x >>= f) = .ok b) :
    ∃ a, x = .ok a ∧ f a = .ok b := by
  match x, h with
  | .ok a, h => exact ⟨a, rfl, h⟩

theorem ok_of_map {f : α → β} {x : Except ε α} {b : β} (h : x.map f = .ok b) :
    ∃ a, x = .ok a ∧ f a = b := by
  cases x with
  | ok a => exact ⟨a, rfl, Except.ok.inj h⟩
  | error e => cases h

/-- What every call of a sequence keeps, the sequence keeps. -/
theorem foldlM_keeps {P : β → Prop} {f : β → α → Except ε β}
    (hf : ∀ b a b', f b a = .ok b' → P b → P b') {l : List α} {b b' : β}
    (h : l.foldlM f b = .ok b') (hb : P b) : P b' := by
  induction l generalizing b with
  | nil =>
      obtain rfl := Except.ok.inj h
      exact hb
  | cons a l ih =>
      rw [List.foldlM_cons] at h
      obtain ⟨next, hnext, h⟩ := ok_of_bind h
      exact ih h (hf b a next hnext hb)

/-- Renaming the error does not make a success. -/
theorem ok_of_mapError {ε' : Type _} {g : ε → ε'} {x : Except ε α} {a : α}
    (h : x.mapError g = .ok a) : x = .ok a := by
  cases x with
  | ok b => exact congrArg Except.ok (Except.ok.inj h)
  | error e => cases h

theorem ok_of_toOption {x : Except ε α} {a : α} (h : x.toOption = some a) : x = .ok a := by
  cases x with
  | ok b => exact congrArg Except.ok (Option.some.inj h)
  | error e => cases h

/-- A value, or an error in its place. -/
theorem ok_of_elim {o : Option α} {e : ε} {a : α} (h : o.elim (.error e) Except.ok = .ok a) :
    o = some a := by
  cases o with
  | none => cases h
  | some b => rw [← Except.ok.inj h]

end Except
