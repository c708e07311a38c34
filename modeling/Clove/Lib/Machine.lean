import Mathlib.Tactic

/-!
# Machines

A machine is a step function on states and events.  A run is a list of events.  What every
step preserves, every run preserves (`run_induction`), and what a step preserves exactly when
it meets a condition holds throughout exactly the runs that meet it (`always_iff_along`).
Steps may log what they do (`logs`), and the same is true of what relates a log to a state.
-/

namespace Machine

variable {σ ε : Type _}

/-- The state after a list of events. -/
def run (step : ε → σ → σ) (events : List ε) (s : σ) : σ := events.foldl (fun s e => step e s) s

@[simp] theorem run_nil (step : ε → σ → σ) (s : σ) : run step [] s = s := rfl

@[simp] theorem run_cons (step : ε → σ → σ) (e : ε) (es : List ε) (s : σ) :
    run step (e :: es) s = run step es (step e s) := rfl

theorem run_append (step : ε → σ → σ) (es es' : List ε) (s : σ) :
    run step (es ++ es') s = run step es' (run step es s) := by
  simp [run]

/-- What holds at the start and is kept by every step holds after every run. -/
theorem run_induction {step : ε → σ → σ} {P : σ → Prop} (hstep : ∀ e s, P s → P (step e s))
    (es : List ε) {s : σ} (h : P s) : P (run step es s) := by
  induction es generalizing s with
  | nil => exact h
  | cons e es ih => exact ih (hstep e s h)

/-- Every step of a run meets a condition on the event and the state before it. -/
def Along (step : ε → σ → σ) (C : ε → σ → Prop) : List ε → σ → Prop
  | [], _ => True
  | e :: es, s => C e s ∧ Along step C es (step e s)

instance Along.decidable (step : ε → σ → σ) (C : ε → σ → Prop) [∀ e s, Decidable (C e s)] :
    (es : List ε) → (s : σ) → Decidable (Along step C es s)
  | [], _ => .isTrue trivial
  | e :: es, s =>
      haveI := Along.decidable step C es (step e s)
      inferInstanceAs (Decidable (C e s ∧ Along step C es (step e s)))

theorem along_append {step : ε → σ → σ} {C : ε → σ → Prop} {es es' : List ε} {s : σ} :
    Along step C (es ++ es') s ↔ Along step C es s ∧ Along step C es' (run step es s) := by
  induction es generalizing s with
  | nil => simp [Along]
  | cons d es ih => simp [Along, ih, and_assoc]

theorem along_snoc {step : ε → σ → σ} {C : ε → σ → Prop} {es : List ε} {e : ε} {s : σ} :
    Along step C (es ++ [e]) s ↔ Along step C es s ∧ C e (run step es s) := by
  simp [along_append, Along]

theorem along_of_forall {step : ε → σ → σ} {C : ε → σ → Prop} {es : List ε}
    (h : ∀ e ∈ es, ∀ s, C e s) (s : σ) : Along step C es s := by
  induction es generalizing s with
  | nil => exact trivial
  | cons e es ih =>
      exact ⟨h e List.mem_cons_self s, ih (fun e' he' => h e' (List.mem_cons_of_mem e he')) _⟩

/-- What holds at the start and is kept by every step that meets a condition holds after
every run that meets it. -/
theorem run_induction_along {step : ε → σ → σ} {C : ε → σ → Prop} {P : σ → Prop}
    (hstep : ∀ e s, C e s → P s → P (step e s)) {es : List ε} {s : σ}
    (hall : Along step C es s) (h : P s) : P (run step es s) := by
  induction es generalizing s with
  | nil => exact h
  | cons e es ih => exact ih hall.2 (hstep e s hall.1 h)

/-- Two conditions that agree on what every step of a run keeps hold along it together. -/
theorem along_congr {step : ε → σ → σ} {A C D : ε → σ → Prop} {I : σ → Prop}
    (hinv : ∀ e s, A e s → I s → I (step e s)) (hiff : ∀ e s, A e s → I s → (C e s ↔ D e s))
    {es : List ε} {s : σ} (hall : Along step A es s) (hI : I s) :
    Along step C es s ↔ Along step D es s := by
  induction es generalizing s with
  | nil => exact Iff.rfl
  | cons e es ih => exact and_congr (hiff e s hall.1 hI) (ih hall.2 (hinv e s hall.1 hI))

/-- If a step keeps a property exactly when it meets a condition, then the property holds in
every state of a run exactly when every step of the run meets the condition. -/
theorem always_iff_along {step : ε → σ → σ} {C : ε → σ → Prop} {P : σ → Prop}
    (hstep : ∀ e s, P s → (P (step e s) ↔ C e s)) {es : List ε} {s : σ} (h : P s) :
    (∀ es', es' <+: es → P (run step es' s)) ↔ Along step C es s := by
  induction es generalizing s with
  | nil => exact ⟨fun _ => trivial, fun _ es' hes => List.prefix_nil.1 hes ▸ h⟩
  | cons e es ih =>
      constructor
      · intro hall
        have hnext : P (step e s) := hall [e] (List.prefix_cons_inj e |>.2 List.nil_prefix)
        refine ⟨(hstep e s h).1 hnext, (ih hnext).1 fun es' hes => ?_⟩
        exact hall (e :: es') ((List.prefix_cons_inj e).2 hes)
      · rintro ⟨hc, hrest⟩ es' hes
        cases es' with
        | nil => exact h
        | cons e' es' =>
            obtain ⟨rfl, htail⟩ := List.cons_prefix_cons.1 hes
            exact (ih ((hstep e' s h).2 hc)).2 hrest es' htail

/-! ## Logs -/

variable {α : Type _}

/-- What the steps of a run log, in order. -/
def logs (step : ε → σ → σ) (log : ε → σ → List α) : List ε → σ → List α
  | [], _ => []
  | e :: es, s => log e s ++ logs step log es (step e s)

theorem logs_append (step : ε → σ → σ) (log : ε → σ → List α) (es es' : List ε) (s : σ) :
    logs step log (es ++ es') s = logs step log es s ++ logs step log es' (run step es s) := by
  induction es generalizing s with
  | nil => rfl
  | cons e es ih => rw [List.cons_append, logs, logs, ih, run_cons, List.append_assoc]

/-- What relates log and state at the start, and is kept by every step that meets a condition,
relates them after every run that meets it. -/
theorem logs_induction_along {step : ε → σ → σ} {log : ε → σ → List α} {C : ε → σ → Prop}
    {P : List α → σ → Prop} (hstep : ∀ e s l, C e s → P l s → P (l ++ log e s) (step e s))
    {es : List ε} {s : σ} {l : List α} (hall : Along step C es s) (h : P l s) :
    P (l ++ logs step log es s) (run step es s) := by
  induction es generalizing s l with
  | nil => simpa [logs] using h
  | cons e es ih =>
      rw [logs, ← List.append_assoc]
      exact ih hall.2 (hstep e s l hall.1 h)

/-- If a step keeps log and state related exactly when it meets a condition, then they are related
in every state of a run exactly when every step of the run meets the condition. -/
theorem always_iff_along_logs {step : ε → σ → σ} {log : ε → σ → List α} {C : ε → σ → Prop}
    {I : σ → Prop} {P : List α → σ → Prop} (hinv : ∀ e s, I s → I (step e s))
    (hstep : ∀ e s l, I s → P l s → (P (l ++ log e s) (step e s) ↔ C e s)) {es : List ε} {s : σ}
    {l : List α} (hI : I s) (h : P l s) :
    (∀ es', es' <+: es → P (l ++ logs step log es' s) (run step es' s)) ↔ Along step C es s := by
  induction es generalizing s l with
  | nil =>
      refine ⟨fun _ => trivial, fun _ es' hes => ?_⟩
      rw [List.prefix_nil.1 hes]
      simpa [logs] using h
  | cons e es ih =>
      constructor
      · intro hall
        have hfirst := hall [e] (List.prefix_cons_inj e |>.2 List.nil_prefix)
        have hnext : P (l ++ log e s) (step e s) := by simpa [logs] using hfirst
        refine ⟨(hstep e s l hI h).1 hnext, (ih (hinv e s hI) hnext).1 fun es' hes => ?_⟩
        have hlater := hall (e :: es') ((List.prefix_cons_inj e).2 hes)
        rw [logs, ← List.append_assoc] at hlater
        exact hlater
      · rintro ⟨hc, hrest⟩ es' hes
        cases es' with
        | nil => simpa [logs] using h
        | cons e' es' =>
            obtain ⟨rfl, htail⟩ := List.cons_prefix_cons.1 hes
            rw [logs, ← List.append_assoc]
            exact (ih (hinv e' s hI) ((hstep e' s l hI h).2 hc)).2 hrest es' htail

end Machine
