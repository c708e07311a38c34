import Clove.Lib.Machine

/-!
# Fair schedules

A schedule is an endless sequence of events.  While a machine waits, some events help: the first
of them lowers a rank, and what comes before it lowers the rank too or leaves them helping.  A
schedule on which helping events never run out then reaches the goal (`reaches`).
-/

namespace Machine

variable {σ ε : Type _}

/-- The states of a machine on a schedule. -/
def states (step : ε → σ → σ) (schedule : ℕ → ε) (s : σ) : ℕ → σ
  | 0 => s
  | k + 1 => step (schedule k) (states step schedule s k)

/-- A schedule on which events of this kind never run out. -/
def Recurs (schedule : ℕ → ε) (kind : ε → Prop) : Prop := ∀ k, ∃ j, k ≤ j ∧ kind (schedule j)

variable {step : ε → σ → σ} {schedule : ℕ → ε} {s : σ}

/-- What every step keeps, once it holds, holds from then on. -/
theorem states_stable {P : σ → Prop} (hstep : ∀ e s, P s → P (step e s)) {k j : ℕ} (hkj : k ≤ j)
    (h : P (states step schedule s k)) : P (states step schedule s j) := by
  induction j, hkj using Nat.le_induction with
  | base => exact h
  | succ j _ ih => exact hstep _ _ ih

/-- A schedule that begins with some events first runs them. -/
theorem states_length {es : List ε} (h : ∀ i (hi : i < es.length), schedule i = es[i]) :
    states step schedule s es.length = run step es s := by
  induction es using List.reverseRecOn with
  | nil => rfl
  | append_singleton es e ih =>
      have hbefore : ∀ i (hi : i < es.length), schedule i = es[i] := by
        intro i hi
        rw [h i (by rw [List.length_append]; omega), List.getElem_append_left hi]
      have hlast : schedule es.length = e := by
        rw [h es.length (by simp), List.getElem_append_right (le_refl _)]
        simp
      rw [run_append, ← ih hbefore, List.length_append, List.length_singleton, run_cons, run_nil,
        ← hlast]
      rfl

/-- What a step from a state that waits comes to: the goal, or a lower rank, or the event is no help
and the state waits as it did. -/
inductive Advance (Waits : ℕ → (ε → Prop) → σ → Prop) (Goal : σ → Prop) (rank : ℕ) (helps : ε → Prop)
    (e : ε) (s : σ) : Prop where
  | goal : Goal s → Advance Waits Goal rank helps e s
  | lower {rank' : ℕ} {helps' : ε → Prop} :
      rank' < rank → Waits rank' helps' s → Advance Waits Goal rank helps e s
  | still : ¬ helps e → Waits rank helps s → Advance Waits Goal rank helps e s

/-- Where every step from a state that waits is an advance and help never runs out, the goal is
reached. -/
theorem reaches (Waits : ℕ → (ε → Prop) → σ → Prop) {Goal : σ → Prop}
    (hfair : ∀ rank helps t, Waits rank helps t → Recurs schedule helps)
    (hstep : ∀ rank helps t k, Waits rank helps t →
      Advance Waits Goal rank helps (schedule k) (step (schedule k) t))
    {rank : ℕ} {helps : ε → Prop} {k : ℕ} (h : Waits rank helps (states step schedule s k)) :
    ∃ j, Goal (states step schedule s j) := by
  induction rank using Nat.strong_induction_on generalizing helps k with
  | _ rank ih =>
      obtain ⟨j, hkj, hhelps⟩ := hfair rank helps _ h k
      obtain ⟨d, rfl⟩ := Nat.exists_eq_add_of_le hkj
      clear hkj
      -- the help comes after `d` more steps, unless the rank falls before
      induction d generalizing k with
      | zero =>
          cases hstep rank helps _ k h with
          | goal hgoal => exact ⟨k + 1, hgoal⟩
          | lower hlt hwaits => exact ih _ hlt (k := k + 1) hwaits
          | still hnot _ => exact absurd hhelps hnot
      | succ d ihd =>
          cases hstep rank helps _ k h with
          | goal hgoal => exact ⟨k + 1, hgoal⟩
          | lower hlt hwaits => exact ih _ hlt (k := k + 1) hwaits
          | still _ hwaits => exact ihd (k := k + 1) hwaits (by rwa [Nat.add_right_comm])

/-- Where every state that waits has an event that helps, of a kind, some events of that kind lead to
the goal. -/
theorem leads (Waits : ℕ → (ε → Prop) → σ → Prop) {Goal P : σ → Prop} {kind : ε → Prop}
    (hstep : ∀ rank helps t, Waits rank helps t → P t → ∃ e, helps e ∧ kind e ∧ P (step e t) ∧
      Advance Waits Goal rank helps e (step e t))
    {rank : ℕ} {helps : ε → Prop} (h : Waits rank helps s) (hs : P s) :
    ∃ es, (∀ e ∈ es, kind e) ∧ Goal (run step es s) := by
  induction rank using Nat.strong_induction_on generalizing helps s with
  | _ rank ih =>
      obtain ⟨e, hhelps, hkind, hnext, hadvance⟩ := hstep rank helps s h hs
      cases hadvance with
      | goal hgoal => exact ⟨[e], fun e' he' => List.mem_singleton.1 he' ▸ hkind, hgoal⟩
      | lower hlt hwaits =>
          obtain ⟨es, hall, hgoal⟩ := ih _ hlt hwaits hnext
          exact ⟨e :: es, fun e' he' => (List.mem_cons.1 he').elim (· ▸ hkind) (hall e'), hgoal⟩
      | still hnot _ => exact absurd hhelps hnot

/-- Some events, and from their number on a schedule. -/
def prepend (es : List ε) (schedule : ℕ → ε) (k : ℕ) : ε := es[k]?.getD (schedule k)

theorem prepend_of_lt {es : List ε} {k : ℕ} (h : k < es.length) : prepend es schedule k = es[k] := by
  rw [prepend, List.getElem?_eq_getElem h]
  rfl

theorem prepend_of_ge {es : List ε} {k : ℕ} (h : es.length ≤ k) :
    prepend es schedule k = schedule k := by
  rw [prepend, List.getElem?_eq_none h]
  rfl

theorem states_prepend (es : List ε) (schedule : ℕ → ε) (s : σ) :
    states step (prepend es schedule) s es.length = run step es s :=
  states_length fun _ hi => prepend_of_lt hi

/-- What holds of the events and of the schedule holds of both together. -/
theorem prepend_all {P : ε → Prop} {es : List ε} (hes : ∀ e ∈ es, P e) (h : ∀ k, P (schedule k))
    (k : ℕ) : P (prepend es schedule k) := by
  rcases Nat.lt_or_ge k es.length with hlt | hge
  · rw [prepend_of_lt hlt]
    exact hes _ (List.getElem_mem hlt)
  · rw [prepend_of_ge hge]
    exact h k

/-- What recurs on the schedule recurs after the events. -/
theorem Recurs.prepend {kind : ε → Prop} (h : Recurs schedule kind) (es : List ε) :
    Recurs (Machine.prepend es schedule) kind := by
  intro k
  obtain ⟨j, hj, hkind⟩ := h (max k es.length)
  refine ⟨j, (Nat.le_max_left _ _).trans hj, ?_⟩
  rwa [prepend_of_ge ((Nat.le_max_right _ _).trans hj)]

end Machine
