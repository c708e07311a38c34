import Clove.Announce

/-!
# Announces brought forward

`completion_due` makes an announce due at once, whatever the interval or the backoff says.  Its
guard is the flag `completed`, which only a completion that reached the tracker sets.

`hastened` counts the calls that make an announce due earlier.  There is at most one exactly if,
once an announce that was brought forward has failed or reported no completion, `completion_due`
is not called again before a completion has been reported (`hastened_le_one_iff`).
-/

namespace Clove.Tracker

/-! ## Calls -/

/-- A call on the state of a tracker.  A success is told with the event that was due. -/
inductive Call where
  | completionDue
  | success (now : UnixTime) (interval : Nat) (minInterval : Option Nat) (complete : Bool)
  | failure (now : UnixTime)
deriving Repr, DecidableEq

def call : Call → AnnounceState → AnnounceState
  | .completionDue, s => s.completionDue
  | .success now interval minInterval complete, s =>
      s.onSuccessWithMin now interval minInterval (s.nextEvent complete)
  | .failure now, s => s.onFailure now

/-- The call that a step of the announcer makes, if any. -/
def Step.calls (s : AnnounceState) : Step → List Call
  | .completion => [.completionDue]
  | .visit v =>
      if s.due v.now then
        match v.outcome with
        | .success interval minInterval => [.success v.after interval minInterval v.complete]
        | .failure => [.failure v.after]
      else []

theorem step_eq_run_calls (st : Step) (s : AnnounceState) :
    step st s = Machine.run call (st.calls s) s := by
  cases st with
  | completion => rfl
  | visit v =>
      simp only [step, Step.calls]
      split
      · rename_i hdue
        cases hv : v.outcome with
        | success i m => exact visit_success hdue hv
        | failure => exact visit_failure hdue hv
      · rename_i hdue
        simp [AnnounceState.visit, hdue]

/-- The call makes an announce due earlier than it was. -/
def Call.hastens (s : AnnounceState) : Call → Bool
  | .completionDue => s.completionDue.nextDue < s.nextDue
  | .success _ _ _ _ => false
  | .failure _ => false

/-- How many calls make an announce due earlier. -/
def hastened : List Call → AnnounceState → Nat
  | [], _ => 0
  | c :: calls, s => (if c.hastens s then 1 else 0) + hastened calls (call c s)

/-! ## What is owed -/

/-- An announce was brought forward and has not been made. -/
def AnnounceState.owing (s : AnnounceState) : Bool := s.started && !s.completed && s.nextDue = 0

/-- An announce that was brought forward comes to nothing: it fails, or it reports no completion. -/
def Call.misses (s : AnnounceState) : Call → Bool
  | .completionDue => false
  | .success _ _ _ complete => s.owing && s.nextEvent complete ≠ .completed
  | .failure _ => s.owing

/-- A call, and whether an announce that was brought forward has come to nothing so far. -/
def watch (c : Call) (s : AnnounceState × Bool) : AnnounceState × Bool :=
  (call c s.1, s.2 || c.misses s.1)

/-- After an announce that came to nothing, no completion is due until one has been reported. -/
def Prompt (c : Call) (s : AnnounceState × Bool) : Prop :=
  c = .completionDue → s.2 = true → s.1.completed = true

/-! ## One call -/

theorem nextDue_success_pos (s : AnnounceState) (now : UnixTime) (i : Nat) (m : Option Nat)
    (sent : Event) : 0 < (s.onSuccessWithMin now i m sent).nextDue := by
  have hwait : 60 ≤ AnnounceState.interval i m := by
    unfold AnnounceState.interval MIN_ANNOUNCE_INTERVAL MAX_ANNOUNCE_INTERVAL
    omega
  show 0 < saturatingAdd now.secs (AnnounceState.interval i m)
  unfold saturatingAdd U64_MAX
  omega

theorem nextDue_failure_pos {s : AnnounceState} (hbackoff : 0 < s.maxBackoff) (now : UnixTime) :
    0 < (s.onFailure now).nextDue := by
  have hpow : 0 < 2 ^ min (min (s.failures + 1) U32_MAX - 1) 6 := Nat.two_pow_pos _
  simp only [AnnounceState.onFailure, saturatingAdd, U64_MAX]
  omega

theorem maxBackoff_call (c : Call) (s : AnnounceState) :
    (call c s).maxBackoff = s.maxBackoff := by
  cases c with
  | completionDue =>
      simp only [call, AnnounceState.completionDue]
      split <;> rfl
  | success now i m complete => rfl
  | failure now => rfl

theorem started_call (c : Call) {s : AnnounceState} (h : s.started = true) :
    (call c s).started = true := by
  cases c with
  | completionDue => exact (completionDue_started s).trans h
  | success now i m complete => rfl
  | failure now => exact h

theorem completed_call (c : Call) {s : AnnounceState} (h : s.completed = true) :
    (call c s).completed = true := by
  cases c with
  | completionDue => exact (completionDue_completed s).trans h
  | success now i m complete =>
      simp only [call, AnnounceState.onSuccessWithMin, h]
      split <;> rfl
  | failure now => exact h

theorem hastens_of_completed {s : AnnounceState} (h : s.completed = true) (c : Call) :
    c.hastens s = false := by
  cases c with
  | completionDue => simp [Call.hastens, AnnounceState.completionDue, h]
  | success now i m complete => rfl
  | failure now => rfl

theorem hastened_cons {c : Call} {s : AnnounceState} (h : c.hastens s = false)
    (calls : List Call) : hastened (c :: calls) s = hastened calls (call c s) := by
  rw [hastened, h]
  exact Nat.zero_add _

/-- Only the calls of `completion_due` have to be prompt. -/
theorem along_cons_success {s : AnnounceState} {missed : Bool} {now : UnixTime} {i : Nat}
    {m : Option Nat} {complete : Bool} {calls : List Call} :
    Machine.Along watch Prompt (.success now i m complete :: calls) (s, missed) ↔
      Machine.Along watch Prompt calls (watch (.success now i m complete) (s, missed)) :=
  ⟨fun h => h.2, fun h => ⟨fun hc => (nomatch hc), h⟩⟩

theorem along_cons_failure {s : AnnounceState} {missed : Bool} {now : UnixTime}
    {calls : List Call} : Machine.Along watch Prompt (.failure now :: calls) (s, missed) ↔
      Machine.Along watch Prompt calls (watch (.failure now) (s, missed)) :=
  ⟨fun h => h.2, fun h => ⟨fun hc => (nomatch hc), h⟩⟩

/-! ## Runs -/

/-- Once a completion has been reported, no announce is brought forward, and every call is
prompt. -/
theorem hastened_of_completed {s : AnnounceState} (h : s.completed = true) (calls : List Call)
    (missed : Bool) : hastened calls s = 0 ∧ Machine.Along watch Prompt calls (s, missed) := by
  induction calls generalizing s missed with
  | nil => exact ⟨rfl, trivial⟩
  | cons c calls ih =>
      obtain ⟨hzero, hprompt⟩ := ih (completed_call c h) (missed || c.misses s)
      refine ⟨?_, fun _ _ => h, hprompt⟩
      rw [hastened_cons (hastens_of_completed h c), hzero]

/-- After an announce that came to nothing, a completion that is due before one has been reported
is one that brings an announce forward. -/
theorem hastened_of_missed {s : AnnounceState} (hstarted : s.started = true)
    (hdue : 0 < s.nextDue) (hbackoff : 0 < s.maxBackoff) (calls : List Call) :
    hastened calls s = 0 ↔ Machine.Along watch Prompt calls (s, true) := by
  induction calls generalizing s with
  | nil => exact ⟨fun _ => trivial, fun _ => rfl⟩
  | cons c calls ih =>
      have hnext := fun hpos => ih (started_call c hstarted) hpos
        ((maxBackoff_call c s).symm ▸ hbackoff)
      cases c with
      | completionDue =>
          cases hdone : s.completed with
          | true =>
              obtain ⟨hzero, hprompt⟩ := hastened_of_completed hdone (.completionDue :: calls) true
              exact ⟨fun _ => hprompt, fun _ => hzero⟩
          | false =>
              have hhastens : Call.completionDue.hastens s = true := by
                simp [Call.hastens, AnnounceState.completionDue, hstarted, hdone, hdue]
              rw [hastened, hhastens]
              refine ⟨fun hzero => by simp at hzero, fun hprompt => ?_⟩
              rw [hprompt.1 rfl rfl] at hdone
              cases hdone
      | success now i m complete =>
          rw [hastened_cons rfl, along_cons_success]
          exact hnext (nextDue_success_pos s now i m _)
      | failure now =>
          rw [hastened_cons rfl, along_cons_failure]
          exact hnext (nextDue_failure_pos hbackoff now)

theorem owing_iff {s : AnnounceState} :
    s.owing = true ↔ s.started = true ∧ s.completed = false ∧ s.nextDue = 0 := by
  simp [AnnounceState.owing, and_assoc]

theorem completionDue_of_owing {s : AnnounceState} (h : s.owing = true) : s.completionDue = s := by
  obtain ⟨hstarted, hopen, hnow⟩ := owing_iff.1 h
  cases s
  simp_all [AnnounceState.completionDue]

theorem prompt_completionDue (s : AnnounceState) : Prompt .completionDue (s, false) :=
  fun _ hmissed => absurd hmissed Bool.false_ne_true

/-- While an announce that was brought forward is owed, none is brought forward; and what comes to
nothing is the announce that is owed. -/
theorem hastened_of_owing {s : AnnounceState} (howing : s.owing = true)
    (hbackoff : 0 < s.maxBackoff) (calls : List Call) :
    hastened calls s = 0 ↔ Machine.Along watch Prompt calls (s, false) := by
  obtain ⟨hstarted, hopen, hnow⟩ := owing_iff.1 howing
  induction calls with
  | nil => exact ⟨fun _ => trivial, fun _ => rfl⟩
  | cons c calls ih =>
      cases c with
      | completionDue =>
          have hsame : call .completionDue s = s := completionDue_of_owing howing
          have hwatch : watch .completionDue (s, false) = (s, false) := Prod.ext hsame rfl
          have hnot : Call.completionDue.hastens s = false := by
            simp [Call.hastens, completionDue_of_owing howing]
          rw [hastened_cons hnot, hsame, Machine.Along, hwatch]
          exact ih.trans ⟨fun h => ⟨prompt_completionDue s, h⟩, fun h => h.2⟩
      | success now i m complete =>
          rw [hastened_cons rfl, along_cons_success]
          cases complete with
          | true =>
              -- the completion is reported
              have hevent : s.nextEvent true = .completed := by
                simp [AnnounceState.nextEvent, hstarted, hopen]
              have hdone : (call (.success now i m true) s).completed = true := by
                simp [call, AnnounceState.onSuccessWithMin, hevent]
              obtain ⟨hzero, hprompt⟩ := hastened_of_completed hdone calls
                (false || (Call.success now i m true).misses s)
              exact ⟨fun _ => hprompt, fun _ => hzero⟩
          | false =>
              have hevent : s.nextEvent false ≠ .completed := by
                simp [AnnounceState.nextEvent, hstarted]
              have hmisses : (Call.success now i m false).misses s = true := by
                simp [Call.misses, howing, hevent]
              rw [watch, hmisses]
              exact hastened_of_missed (started_call (.success now i m false) hstarted)
                (nextDue_success_pos s now i m _)
                ((maxBackoff_call (.success now i m false) s).symm ▸ hbackoff) calls
      | failure now =>
          have hmisses : (Call.failure now).misses s = true := howing
          rw [hastened_cons rfl, along_cons_failure, watch, hmisses]
          exact hastened_of_missed (started_call (.failure now) hstarted)
            (nextDue_failure_pos hbackoff now)
            ((maxBackoff_call (.failure now) s).symm ▸ hbackoff) calls

/-- Until an announce has been brought forward. -/
theorem hastened_of_waiting {s : AnnounceState} (hwaits : s.owing = false)
    (hbackoff : 0 < s.maxBackoff) (calls : List Call) :
    hastened calls s ≤ 1 ↔ Machine.Along watch Prompt calls (s, false) := by
  induction calls generalizing s with
  | nil => exact ⟨fun _ => trivial, fun _ => Nat.zero_le _⟩
  | cons c calls ih =>
      have hnext := fun hpos => ih (s := call c s) hpos ((maxBackoff_call c s).symm ▸ hbackoff)
      have hput : ∀ s' : AnnounceState, 0 < s'.nextDue → s'.owing = false := fun s' hpos => by
        simp [AnnounceState.owing, Nat.pos_iff_ne_zero.1 hpos]
      cases c with
      | completionDue =>
          rw [Machine.Along, watch]
          by_cases hopen : s.started = true ∧ s.completed = false
          · obtain ⟨hstarted, hdone⟩ := hopen
            have hpos : 0 < s.nextDue := by
              refine Nat.pos_of_ne_zero fun hnow => ?_
              rw [owing_iff.2 ⟨hstarted, hdone, hnow⟩] at hwaits
              cases hwaits
            have hnow : call .completionDue s = { s with nextDue := 0 } := by
              simp [call, AnnounceState.completionDue, hstarted, hdone]
            have hhastens : Call.completionDue.hastens s = true := by
              simp [Call.hastens, AnnounceState.completionDue, hstarted, hdone, hpos]
            have howing : (call .completionDue s).owing = true := by
              rw [hnow]
              exact owing_iff.2 ⟨hstarted, hdone, rfl⟩
            have hrest := hastened_of_owing howing
              ((maxBackoff_call .completionDue s).symm ▸ hbackoff) calls
            have hone : hastened (.completionDue :: calls) s ≤ 1 ↔
                hastened calls (call .completionDue s) = 0 := by
              rw [hastened, hhastens, if_pos rfl]
              omega
            exact (hone.trans hrest).trans ⟨fun h => ⟨prompt_completionDue s, h⟩, fun h => h.2⟩
          · have hsame : s.completionDue = s := if_neg (by simpa using hopen)
            have hnot : Call.completionDue.hastens s = false := by
              simp [Call.hastens, hsame]
            rw [hastened_cons hnot, call, hsame]
            exact (ih hwaits hbackoff).trans
              ⟨fun h => ⟨prompt_completionDue s, h⟩, fun h => h.2⟩
      | success now i m complete =>
          have hmisses : (Call.success now i m complete).misses s = false := by
            simp [Call.misses, hwaits]
          rw [hastened_cons rfl, along_cons_success, watch, hmisses]
          exact hnext (hput _ (nextDue_success_pos s now i m _))
      | failure now =>
          have hmisses : (Call.failure now).misses s = false := hwaits
          rw [hastened_cons rfl, along_cons_failure, watch, hmisses]
          exact hnext (hput _ (nextDue_failure_pos hbackoff now))

/-- Over the life of a state at most one announce is brought forward if and only if, once one that
was has come to nothing, no completion is due before one has been reported. -/
theorem hastened_le_one_iff (complete : Bool) (calls : List Call) :
    hastened calls (.initial complete) ≤ 1 ↔
      Machine.Along watch Prompt calls (.initial complete, false) := by
  refine hastened_of_waiting ?_ ?_ calls <;> cases complete <;> decide

/-- More than one announce is brought forward: that of the completion fails, and when the torrent
becomes complete again the next attempt does not wait for the backoff either. -/
theorem hastened_twice :
    hastened [.success ⟨1000, by decide⟩ 1800 none false, .completionDue,
      .failure ⟨1001, by decide⟩, .completionDue] (.initial false) = 2 := by
  decide

end Clove.Tracker
