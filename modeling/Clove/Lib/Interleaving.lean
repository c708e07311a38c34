import Mathlib.Tactic

/-!
# Interleaving

A program that shares a state with others.  It takes one atomic section after another, and between
two of them the others may have made anything of the state.  Every section is logged, with the
state it met, what it did, and the state it left.
-/

namespace Interleaving

/-- A section that was taken. -/
structure Section (σ δ : Type) where
  before : σ
  deed : δ
  after : σ

/-- Where a program is. -/
structure World (σ μ δ : Type) where
  state : σ
  /-- What the others do before each section. -/
  others : Nat → σ → σ
  /-- What else each section meets. -/
  moments : Nat → μ
  log : List (Section σ δ)

variable {σ μ δ ε ε' α γ : Type}

/-- A section is taken. -/
def World.logged (w : World σ μ δ) (c : Section σ δ) : World σ μ δ :=
  { w with state := c.after, log := w.log ++ [c] }

/-- The state that the next section meets. -/
def World.met (w : World σ μ δ) : σ := w.others w.log.length w.state

/-- What else it meets. -/
def World.next (w : World σ μ δ) : μ := w.moments w.log.length

/-- A program. -/
def Prog (σ μ δ ε α : Type) : Type := World σ μ δ → Except ε α × World σ μ δ

namespace Prog

def pure (a : α) : Prog σ μ δ ε α := fun w => (.ok a, w)

def bind (x : Prog σ μ δ ε α) (f : α → Prog σ μ δ ε γ) : Prog σ μ δ ε γ := fun w =>
  match x w with
  | (.ok a, w) => f a w
  | (.error e, w) => (.error e, w)

instance : Monad (Prog σ μ δ ε) where
  pure := pure
  bind := bind

def throw (e : ε) : Prog σ μ δ ε α := fun w => (.error e, w)

/-- What has been decided without a section. -/
def lift (r : Except ε α) : Prog σ μ δ ε α := fun w => (r, w)

def mapError (g : ε → ε') (x : Prog σ μ δ ε α) : Prog σ μ δ ε' α := fun w =>
  ((x w).1.mapError g, (x w).2)

/-- The outcome, whichever it is. -/
def outcome (x : Prog σ μ δ ε α) : Prog σ μ δ ε' (Except ε α) := fun w => (.ok (x w).1, (x w).2)

/-- Take a section. -/
def atomic (f : μ → σ → Except ε α × δ × σ) : Prog σ μ δ ε α := fun w =>
  let r := f w.next w.met
  (r.1, w.logged ⟨w.met, r.2.1, r.2.2⟩)

theorem bind_def (x : Prog σ μ δ ε α) (f : α → Prog σ μ δ ε γ) (w : World σ μ δ) :
    (x >>= f) w = match x w with
      | (.ok a, w) => f a w
      | (.error e, w) => (.error e, w) := rfl

@[simp] theorem pure_def (a : α) (w : World σ μ δ) :
    (Pure.pure a : Prog σ μ δ ε α) w = (.ok a, w) := rfl

theorem bind_ok {x : Prog σ μ δ ε α} {w w' : World σ μ δ} {a : α} (h : x w = (.ok a, w'))
    (f : α → Prog σ μ δ ε γ) : (x >>= f) w = f a w' := by
  rw [bind_def, h]

theorem bind_error {x : Prog σ μ δ ε α} {w w' : World σ μ δ} {e : ε} (h : x w = (.error e, w'))
    (f : α → Prog σ μ δ ε γ) : (x >>= f) w = (.error e, w') := by
  rw [bind_def, h]

theorem outcome_bind (x : Prog σ μ δ ε α) (f : Except ε α → Prog σ μ δ ε' γ) (w : World σ μ δ) :
    (x.outcome >>= f) w = f (x w).1 (x w).2 := rfl

/-! ## What a program takes -/

/-- Whatever world the program runs in, the sections it takes and its outcome are related so. -/
def Takes (x : Prog σ μ δ ε α) (P : List (Section σ δ) → Except ε α → Prop) : Prop :=
  ∀ w, ∃ cs, (x w).2.log = w.log ++ cs ∧ P cs (x w).1

variable {x : Prog σ μ δ ε α} {f : α → Prog σ μ δ ε γ}
  {P : List (Section σ δ) → Except ε α → Prop} {Q : List (Section σ δ) → Except ε γ → Prop}

theorem Takes.mono {P' : List (Section σ δ) → Except ε α → Prop} (h : x.Takes P)
    (hP : ∀ cs r, P cs r → P' cs r) : x.Takes P' := by
  intro w
  obtain ⟨cs, hlog, hP'⟩ := h w
  exact ⟨cs, hlog, hP _ _ hP'⟩

theorem takes_pure {a : α} (h : P [] (.ok a)) : (Pure.pure a : Prog σ μ δ ε α).Takes P :=
  fun w => ⟨[], (List.append_nil w.log).symm, h⟩

theorem takes_throw {e : ε} (h : P [] (.error e)) : (throw e : Prog σ μ δ ε α).Takes P :=
  fun w => ⟨[], (List.append_nil w.log).symm, h⟩

/-- After a section that returns, the rest of the program. -/
theorem takes_atomic_bind {g : μ → σ → α × δ × σ}
    (h : ∀ m s, (f (g m s).1).Takes fun cs r => Q (⟨s, (g m s).2.1, (g m s).2.2⟩ :: cs) r) :
    ((atomic fun m s => (.ok (g m s).1, (g m s).2.1, (g m s).2.2)) >>= f).Takes Q := by
  intro w
  obtain ⟨cs, hlog, hQ⟩ := h w.next w.met (w.logged ⟨w.met, (g w.next w.met).2.1,
    (g w.next w.met).2.2⟩)
  exact ⟨_ :: cs, hlog.trans (List.append_assoc _ _ _), hQ⟩

end Prog

end Interleaving
