import Clove.Wire
import Clove.Lib.Machine

/-!
# When a tracker is announced to

`AnnounceState` of `tracker.rs` says when the next announce to one tracker is due and which
event it carries.  `announce_loop` of `swarm.rs` drives one state for each URL: it visits the
states in turn, announces where that is due, and calls `completion_due` on all of them when
the torrent becomes complete.  What a URL's state goes through is a list of steps
(`Announcer.states_run`), and the results are about every list of steps.

A clock reading is what `unix_now` can return.  `SystemTime` counts seconds in an `i64`, so a
due time is never cut off at the end of a `u64`.
-/

namespace Clove.Tracker

/-! ## The state of one tracker -/

/-- The event an announce carries. -/
inductive Event where
  | started
  | stopped
  | completed
  | periodic
deriving Repr, DecidableEq

/-- Shortest time between announces, in seconds. -/
def MIN_ANNOUNCE_INTERVAL : Nat := 60

/-- Longest time between announces, in seconds. -/
def MAX_ANNOUNCE_INTERVAL : Nat := 4 * 60 * 60

/-- `u64::MAX`. -/
def U64_MAX : Nat := 18446744073709551615

/-- `u64::saturating_add`. -/
def saturatingAdd (a b : Nat) : Nat := min (a + b) U64_MAX

/-- Seconds since the epoch, as `unix_now` returns them. -/
structure UnixTime where
  secs : Nat
  le_max : secs ≤ 9223372036854775807
deriving Repr, DecidableEq

/-- Timing state machine for one torrent and tracker. -/
structure AnnounceState where
  nextDue : Nat
  started : Bool
  completed : Bool
  failures : Nat
  maxBackoff : Nat
deriving Repr, DecidableEq

namespace AnnounceState

/-- A fresh state: the first announce is due at once. -/
def new : AnnounceState where
  nextDue := 0
  started := false
  completed := false
  failures := 0
  maxBackoff := 30 * 60

/-- A torrent that was complete when its announcer started has no download to report. -/
def alreadyComplete : AnnounceState := { new with completed := true }

/-- The state of a URL of a torrent that is or is not complete at the start. -/
def initial (complete : Bool) : AnnounceState := if complete then alreadyComplete else new

def due (s : AnnounceState) (now : UnixTime) : Bool := s.nextDue ≤ now.secs

/-- Bring forward the announce of a completion. -/
def completionDue (s : AnnounceState) : AnnounceState :=
  if s.started && !s.completed then { s with nextDue := 0 } else s

def nextEvent (s : AnnounceState) (complete : Bool) : Event :=
  if !s.started then .started
  else if complete && !s.completed then .completed
  else .periodic

/-- The wait after a success. -/
def interval (interval : Nat) (minInterval : Option Nat) : Nat :=
  min (max (max interval (minInterval.getD 0)) MIN_ANNOUNCE_INTERVAL) MAX_ANNOUNCE_INTERVAL

def onSuccessWithMin (s : AnnounceState) (now : UnixTime) (interval : Nat)
    (minInterval : Option Nat) (sent : Event) : AnnounceState :=
  { s with
    started := true
    completed := if sent = .completed then true else s.completed
    failures := 0
    nextDue := saturatingAdd now.secs (AnnounceState.interval interval minInterval) }

/-- Exponential backoff from 30 seconds, capped. -/
def onFailure (s : AnnounceState) (now : UnixTime) : AnnounceState :=
  let failures := min (s.failures + 1) U32_MAX
  let shift := min (failures - 1) 6
  let delay := min (min (30 * 2 ^ shift) U64_MAX) s.maxBackoff
  { s with
    failures := failures
    nextDue := saturatingAdd now.secs delay }

end AnnounceState

/-! ## The announcer -/

/-- How an announce ended. -/
inductive Outcome where
  | success (interval : Nat) (minInterval : Option Nat)
  | failure
deriving Repr, DecidableEq

/-- What the loop finds when it comes to a URL: the time, whether the torrent is complete, how
the announce ends if there is one, and the time then. -/
structure Visit where
  now : UnixTime
  complete : Bool
  outcome : Outcome
  after : UnixTime
deriving Repr, DecidableEq

/-- Announce if that is due. -/
def AnnounceState.visit (v : Visit) (s : AnnounceState) : AnnounceState :=
  if !s.due v.now then s
  else
    let event := s.nextEvent v.complete
    match v.outcome with
    | .success interval minInterval => s.onSuccessWithMin v.after interval minInterval event
    | .failure => s.onFailure v.after

/-- The announce loop between two rounds. -/
structure Announcer where
  wasComplete : Bool
  states : List AnnounceState
deriving Repr, DecidableEq

namespace Announcer

/-- The start of the loop, for that many URLs. -/
def start (complete : Bool) (urls : Nat) : Announcer where
  wasComplete := complete
  states := List.replicate urls (.initial complete)

/-- Come to one URL after the other.  A loop that is stopped visits no more of them. -/
def visitAll : List Visit → List AnnounceState → List AnnounceState
  | v :: vs, s :: ss => s.visit v :: visitAll vs ss
  | _, ss => ss

/-- One round: whether the torrent is complete, and then the URLs. -/
def round (r : Bool × List Visit) (a : Announcer) : Announcer where
  wasComplete := r.1
  states := visitAll r.2
    (if r.1 && !a.wasComplete then a.states.map (·.completionDue) else a.states)

end Announcer

/-! ## The steps of one state -/

/-- What happens to the state of a URL. -/
inductive Step where
  /-- The torrent was seen to become complete. -/
  | completion
  | visit (v : Visit)
deriving Repr, DecidableEq

def step : Step → AnnounceState → AnnounceState
  | .completion, s => s.completionDue
  | .visit v, s => s.visit v

/-- The steps of a URL in some rounds of the loop. -/
def Announcer.steps (url : Nat) : List (Bool × List Visit) → Bool → List Step
  | [], _ => []
  | (complete, visits) :: rounds, wasComplete =>
      (if complete && !wasComplete then [.completion] else []) ++
        (visits[url]?.map Step.visit).toList ++ Announcer.steps url rounds complete

theorem Announcer.getElem?_visitAll (url : Nat) (vs : List Visit) (ss : List AnnounceState) :
    (visitAll vs ss)[url]? =
      ss[url]?.map (Machine.run step (vs[url]?.map Step.visit).toList) := by
  induction vs generalizing ss url with
  | nil =>
      have hall : visitAll [] ss = ss := by cases ss <;> rfl
      rw [hall]
      cases ss[url]? <;> rfl
  | cons v vs ih =>
      cases ss with
      | nil => rfl
      | cons s ss =>
          cases url with
          | zero => rfl
          | succ url => simpa [visitAll] using ih url ss

/-- The state of a URL goes through its steps. -/
theorem Announcer.states_run (url : Nat) (rounds : List (Bool × List Visit)) (a : Announcer) :
    (Machine.run Announcer.round rounds a).states[url]? =
      a.states[url]?.map (Machine.run step (Announcer.steps url rounds a.wasComplete)) := by
  induction rounds generalizing a with
  | nil => cases hs : a.states[url]? <;> simp [Announcer.steps, hs]
  | cons r rounds ih =>
      obtain ⟨complete, visits⟩ := r
      rw [Machine.run_cons, ih, round, getElem?_visitAll]
      dsimp only
      cases hs : a.states[url]? with
      | none =>
          split <;> simp [hs]
      | some s =>
          by_cases hedge : (complete && !a.wasComplete) = true
          · simp [hedge, hs, Announcer.steps, Machine.run_append, step]
          · simp [hedge, hs, Announcer.steps, Machine.run_append]

/-! ## Announces -/

/-- The announces of a run, each with the event it carries. -/
def announces : List Step → AnnounceState → List (Event × Visit)
  | [], _ => []
  | .completion :: steps, s => announces steps s.completionDue
  | .visit v :: steps, s =>
      if s.due v.now then (s.nextEvent v.complete, v) :: announces steps (s.visit v)
      else announces steps s

def Outcome.isSuccess : Outcome → Bool
  | .success _ _ => true
  | .failure => false

/-- The events that reached the tracker, in order. -/
def reported (steps : List Step) (s : AnnounceState) : List Event :=
  ((announces steps s).filter fun a => a.2.outcome.isSuccess).map Prod.fst

/-- How many announces have failed since the last that succeeded. -/
def failuresInARow (steps : List Step) (s : AnnounceState) : Nat :=
  ((announces steps s).reverse.takeWhile fun a => !a.2.outcome.isSuccess).length

theorem announces_append (steps steps' : List Step) (s : AnnounceState) :
    announces (steps ++ steps') s =
      announces steps s ++ announces steps' (Machine.run step steps s) := by
  induction steps generalizing s with
  | nil => rfl
  | cons st steps ih =>
      cases st with
      | completion => exact ih _
      | visit v =>
          rw [List.cons_append, Machine.run_cons, announces, announces]
          by_cases hdue : s.due v.now = true
          · rw [if_pos hdue, if_pos hdue, ih]
            rfl
          · have hskip : step (.visit v) s = s := by
              simp [step, AnnounceState.visit, hdue]
            rw [if_neg hdue, if_neg hdue, ih, hskip]

/-! ## Events -/

@[simp] theorem completionDue_started (s : AnnounceState) :
    s.completionDue.started = s.started := by
  unfold AnnounceState.completionDue
  split <;> rfl

@[simp] theorem completionDue_completed (s : AnnounceState) :
    s.completionDue.completed = s.completed := by
  unfold AnnounceState.completionDue
  split <;> rfl

theorem visit_success {s : AnnounceState} {v : Visit} (hdue : s.due v.now = true) {i : Nat}
    {m : Option Nat} (h : v.outcome = .success i m) :
    s.visit v = s.onSuccessWithMin v.after i m (s.nextEvent v.complete) := by
  rw [AnnounceState.visit, hdue, h]
  rfl

theorem visit_failure {s : AnnounceState} {v : Visit} (hdue : s.due v.now = true)
    (h : v.outcome = .failure) : s.visit v = s.onFailure v.after := by
  rw [AnnounceState.visit, hdue, h]
  rfl

theorem reported_visit_success {s : AnnounceState} {v : Visit} (hdue : s.due v.now = true)
    {i : Nat} {m : Option Nat} (h : v.outcome = .success i m) (steps : List Step) :
    reported (.visit v :: steps) s = s.nextEvent v.complete :: reported steps (s.visit v) := by
  rw [reported, announces, if_pos hdue, List.filter_cons_of_pos (by rw [h]; rfl)]
  rfl

theorem reported_visit_failure {s : AnnounceState} {v : Visit} (hdue : s.due v.now = true)
    (h : v.outcome = .failure) (steps : List Step) :
    reported (.visit v :: steps) s = reported steps (s.visit v) := by
  rw [reported, announces, if_pos hdue, List.filter_cons_of_neg (by rw [h]; decide)]
  rfl

theorem reported_visit_skip {s : AnnounceState} {v : Visit} (hdue : ¬ s.due v.now = true)
    (steps : List Step) : reported (.visit v :: steps) s = reported steps s := by
  rw [reported, announces, if_neg hdue]
  rfl

/-- Once the tracker knows the torrent, it is not told again, and of one completion at most. -/
theorem reported_of_started {s : AnnounceState} (h : s.started = true) (steps : List Step) :
    .started ∉ reported steps s ∧
      (reported steps s).count .completed ≤ if s.completed then 0 else 1 := by
  induction steps generalizing s with
  | nil => exact ⟨List.not_mem_nil, Nat.zero_le _⟩
  | cons st steps ih =>
      cases st with
      | completion =>
          have hnext := ih (s := s.completionDue) (by rw [completionDue_started, h])
          rwa [completionDue_completed] at hnext
      | visit v =>
          by_cases hdue : s.due v.now = true
          · cases hv : v.outcome with
            | success i m =>
                rw [reported_visit_success hdue hv]
                have hnext := ih (s := s.visit v) (by rw [visit_success hdue hv]; rfl)
                by_cases hreport : (v.complete && !s.completed) = true
                · -- the completion is reported now, and never again
                  have hevent : s.nextEvent v.complete = .completed := by
                    simp [AnnounceState.nextEvent, h, hreport]
                  have hdone : (s.visit v).completed = true := by
                    rw [visit_success hdue hv, hevent]
                    rfl
                  have hopen : s.completed = false := by
                    rw [Bool.and_eq_true] at hreport
                    simpa using hreport.2
                  rw [hdone, if_pos rfl] at hnext
                  rw [hevent, hopen, List.count_cons_self]
                  refine ⟨fun hmem => ?_, Nat.succ_le_succ hnext.2⟩
                  exact hnext.1 ((List.mem_cons.1 hmem).resolve_left (by decide))
                · have hevent : s.nextEvent v.complete = .periodic := by
                    simp [AnnounceState.nextEvent, h, hreport]
                  have hsame : (s.visit v).completed = s.completed := by
                    rw [visit_success hdue hv, hevent]
                    rfl
                  rw [hsame] at hnext
                  rw [hevent, List.count_cons_of_ne (by decide)]
                  refine ⟨fun hmem => ?_, hnext.2⟩
                  exact hnext.1 ((List.mem_cons.1 hmem).resolve_left (by decide))
            | failure =>
                rw [reported_visit_failure hdue hv]
                have hnext := ih (s := s.visit v) (by rw [visit_failure hdue hv]; exact h)
                rw [visit_failure hdue hv] at hnext ⊢
                exact hnext
          · rw [reported_visit_skip hdue]
            exact ih h

/-- The first announce that succeeds is the one of the start. -/
theorem reported_of_fresh {s : AnnounceState} (h : s.started = false) (steps : List Step) :
    reported steps s = [] ∨ ∃ rest, reported steps s = .started :: rest ∧
      .started ∉ rest ∧ rest.count .completed ≤ if s.completed then 0 else 1 := by
  induction steps generalizing s with
  | nil => exact .inl rfl
  | cons st steps ih =>
      cases st with
      | completion =>
          have hnext := ih (s := s.completionDue) (by rw [completionDue_started, h])
          rwa [completionDue_completed] at hnext
      | visit v =>
          by_cases hdue : s.due v.now = true
          · cases hv : v.outcome with
            | success i m =>
                have hevent : s.nextEvent v.complete = .started := by
                  simp [AnnounceState.nextEvent, h]
                have hrest := reported_of_started (s := s.visit v)
                  (by rw [visit_success hdue hv]; rfl) steps
                have hcompleted : (s.visit v).completed = s.completed := by
                  rw [visit_success hdue hv, hevent]
                  rfl
                rw [hcompleted] at hrest
                exact .inr ⟨_, by rw [reported_visit_success hdue hv, hevent], hrest⟩
            | failure =>
                rw [reported_visit_failure hdue hv]
                have hnext := ih (s := s.visit v) (by rw [visit_failure hdue hv]; exact h)
                rw [visit_failure hdue hv] at hnext ⊢
                exact hnext
          · rw [reported_visit_skip hdue]
            exact ih h

/-- A completion is only announced of a torrent that is complete. -/
theorem complete_of_announced {s : AnnounceState} {steps : List Step} {a : Event × Visit}
    (h : a ∈ announces steps s) (hevent : a.1 = .completed) : a.2.complete = true := by
  induction steps generalizing s with
  | nil => cases h
  | cons st steps ih =>
      cases st with
      | completion => exact ih h
      | visit v =>
          rw [announces] at h
          split at h
          · rcases List.mem_cons.1 h with rfl | h
            · cases hcomplete : v.complete with
              | true => rfl
              | false =>
                  simp only [AnnounceState.nextEvent, hcomplete, Bool.false_and] at hevent
                  split at hevent <;> cases hevent
            · exact ih h
          · exact ih h

/-! ## Times -/

/-- Until a completion brings it forward, a due time that was reached only moves on. -/
theorem nextDue_kept {T : Nat} (hT : T ≤ U64_MAX) {steps : List Step} {s : AnnounceState}
    (hquiet : .completion ∉ steps)
    (hclock : ∀ a ∈ announces steps s, a.2.now.secs ≤ a.2.after.secs) (h : T ≤ s.nextDue) :
    T ≤ (Machine.run step steps s).nextDue := by
  induction steps generalizing s with
  | nil => exact h
  | cons st steps ih =>
      have hquiet' : .completion ∉ steps := fun hmem => hquiet (List.mem_cons_of_mem _ hmem)
      cases st with
      | completion => exact absurd List.mem_cons_self hquiet
      | visit v =>
          rw [announces] at hclock
          by_cases hdue : s.due v.now = true
          · rw [if_pos hdue] at hclock
            refine ih hquiet' (fun a ha => hclock a (List.mem_cons_of_mem _ ha)) ?_
            have hnow : s.nextDue ≤ v.now.secs := of_decide_eq_true hdue
            have hafter : T ≤ v.after.secs := (h.trans hnow).trans (hclock _ List.mem_cons_self)
            cases hv : v.outcome with
            | success i m =>
                change T ≤ (s.visit v).nextDue
                rw [visit_success hdue hv]
                exact le_min (Nat.le_add_right_of_le hafter) hT
            | failure =>
                change T ≤ (s.visit v).nextDue
                rw [visit_failure hdue hv]
                exact le_min (Nat.le_add_right_of_le hafter) hT
          · rw [if_neg hdue] at hclock
            have hskip : step (.visit v) s = s := by
              simp [step, AnnounceState.visit, hdue]
            rw [Machine.run_cons, hskip]
            exact ih hquiet' hclock h

theorem failuresInARow_snoc (steps : List Step) (st : Step) (s : AnnounceState) :
    failuresInARow (steps ++ [st]) s =
      ((announces [st] (Machine.run step steps s)).reverse ++
        (announces steps s).reverse |>.takeWhile fun a => !a.2.outcome.isSuccess).length := by
  rw [failuresInARow, announces_append, List.reverse_append]

/-- The count of failures is the number of announces that failed in a row. -/
theorem failures_eq (steps : List Step) (complete : Bool) :
    (Machine.run step steps (.initial complete)).failures =
      min (failuresInARow steps (.initial complete)) U32_MAX ∧
    (Machine.run step steps (.initial complete)).maxBackoff = 1800 := by
  induction steps using List.reverseRecOn with
  | nil => cases complete <;> exact ⟨rfl, rfl⟩
  | append_singleton steps st ih =>
      obtain ⟨hfailures, hbackoff⟩ := ih
      rw [failuresInARow_snoc, Machine.run_append]
      rw [failuresInARow] at hfailures
      generalize Machine.run step steps (.initial complete) = s at *
      cases st with
      | completion =>
          have hsame : s.completionDue.failures = s.failures ∧
              s.completionDue.maxBackoff = s.maxBackoff := by
            unfold AnnounceState.completionDue
            split <;> exact ⟨rfl, rfl⟩
          exact ⟨hsame.1.trans hfailures, hsame.2.trans hbackoff⟩
      | visit v =>
          change (s.visit v).failures = _ ∧ (s.visit v).maxBackoff = _
          by_cases hdue : s.due v.now = true
          · rw [announces, if_pos hdue, announces, List.reverse_singleton, List.singleton_append]
            cases hv : v.outcome with
            | success i m =>
                rw [visit_success hdue hv,
                  List.takeWhile_cons_of_neg (by simp [hv, Outcome.isSuccess])]
                exact ⟨rfl, hbackoff⟩
            | failure =>
                rw [visit_failure hdue hv,
                  List.takeWhile_cons_of_pos (by simp [hv, Outcome.isSuccess]), List.length_cons]
                refine ⟨?_, hbackoff⟩
                dsimp only [AnnounceState.onFailure]
                omega
          · have hskip : s.visit v = s := by
              simp [AnnounceState.visit, hdue]
            rw [announces, if_neg hdue, hskip]
            exact ⟨hfailures, hbackoff⟩

/-- What a reading shows that comes after a success and finds the next announce due. -/
theorem wait_after_success {s : AnnounceState} {v : Visit} (hdue : s.due v.now = true) {i : Nat}
    {m : Option Nat} (hv : v.outcome = .success i m) {mid : List Step}
    (hquiet : .completion ∉ mid)
    (hclock : ∀ a ∈ announces mid (s.visit v), a.2.now.secs ≤ a.2.after.secs) {now : UnixTime}
    (hnext : (Machine.run step mid (s.visit v)).due now = true) :
    v.after.secs + AnnounceState.interval i m ≤ now.secs := by
  have hmax := v.after.le_max
  have hwait : AnnounceState.interval i m ≤ 14400 := Nat.min_le_right _ _
  have hT : v.after.secs + AnnounceState.interval i m ≤ U64_MAX := by
    unfold U64_MAX
    omega
  refine (nextDue_kept hT hquiet hclock ?_).trans (of_decide_eq_true hnext)
  rw [visit_success hdue hv]
  exact le_min le_rfl hT

theorem wait_after_failure {s : AnnounceState} {v : Visit} (hdue : s.due v.now = true)
    (hv : v.outcome = .failure) {mid : List Step} (hquiet : .completion ∉ mid)
    (hclock : ∀ a ∈ announces mid (s.visit v), a.2.now.secs ≤ a.2.after.secs) {now : UnixTime}
    (hnext : (Machine.run step mid (s.visit v)).due now = true) (hbackoff : s.maxBackoff = 1800) :
    v.after.secs + min (30 * 2 ^ min ((s.visit v).failures - 1) 6) 1800 ≤ now.secs := by
  have hmax := v.after.le_max
  have hdelay (n : Nat) : min (30 * 2 ^ min n 6) 1800 ≤ 1800 := Nat.min_le_right _ _
  have hT : v.after.secs + min (30 * 2 ^ min ((s.visit v).failures - 1) 6) 1800 ≤ U64_MAX := by
    have := hdelay ((s.visit v).failures - 1)
    unfold U64_MAX
    omega
  refine (nextDue_kept hT hquiet hclock ?_).trans (of_decide_eq_true hnext)
  have hshort : 30 * 2 ^ min ((s.visit v).failures - 1) 6 ≤ U64_MAX := by
    have hpow : 2 ^ min ((s.visit v).failures - 1) 6 ≤ 2 ^ 6 :=
      Nat.pow_le_pow_right (by decide) (Nat.min_le_right _ _)
    unfold U64_MAX
    omega
  have hdelay' : (s.visit v).nextDue = saturatingAdd v.after.secs
      (min (min (30 * 2 ^ min ((s.visit v).failures - 1) 6) U64_MAX) s.maxBackoff) := by
    rw [visit_failure hdue hv]
    rfl
  rw [hdelay', Nat.min_eq_left hshort, hbackoff]
  exact le_min le_rfl hT

/-! ## A whole run -/

/-- A tracker hears first that the torrent started, then at most once that it is complete, and
never if it was complete before; it hears so while it is complete; and it is left alone for as
long as it asked, or for the backoff, until a completion is due.  Past the next announce this
takes a clock that does not go back during an announce. -/
theorem announces_kept (complete : Bool) (steps : List Step) :
    (reported steps (.initial complete) = [] ∨ ∃ rest,
      reported steps (.initial complete) = .started :: rest ∧ .started ∉ rest ∧
        rest.count .completed ≤ if complete then 0 else 1) ∧
    (∀ a ∈ announces steps (.initial complete), a.1 = .completed → a.2.complete = true) ∧
    ∀ pre v mid now,
      (Machine.run step pre (.initial complete)).due v.now = true → .completion ∉ mid →
      (∀ a ∈ announces mid ((Machine.run step pre (.initial complete)).visit v),
        a.2.now.secs ≤ a.2.after.secs) →
      (Machine.run step (pre ++ .visit v :: mid) (.initial complete)).due now = true →
      match v.outcome with
      | .success interval minInterval =>
          v.after.secs + max MIN_ANNOUNCE_INTERVAL
            (min (max interval (minInterval.getD 0)) MAX_ANNOUNCE_INTERVAL) ≤ now.secs
      | .failure =>
          v.after.secs + min (30 * 2 ^ min
            (failuresInARow (pre ++ [.visit v]) (.initial complete) - 1) 6) 1800 ≤ now.secs := by
  refine ⟨?_, fun a ha hevent => complete_of_announced ha hevent, ?_⟩
  · have hcompleted : (AnnounceState.initial complete).completed = complete := by
      cases complete <;> rfl
    have hstarted : (AnnounceState.initial complete).started = false := by
      cases complete <;> rfl
    have hshape := reported_of_fresh hstarted steps
    rwa [hcompleted] at hshape
  · intro pre v mid now hdue hquiet hclock hnext
    obtain ⟨hcount, -⟩ := failures_eq (pre ++ [.visit v]) complete
    obtain ⟨-, hbackoff⟩ := failures_eq pre complete
    rw [Machine.run_append] at hcount hnext
    generalize Machine.run step pre (.initial complete) = s at *
    cases hv : v.outcome with
    | success i m =>
        have hwait := wait_after_success hdue hv hquiet hclock hnext
        have hclamp : AnnounceState.interval i m =
            max MIN_ANNOUNCE_INTERVAL (min (max i (m.getD 0)) MAX_ANNOUNCE_INTERVAL) := by
          unfold AnnounceState.interval MIN_ANNOUNCE_INTERVAL MAX_ANNOUNCE_INTERVAL
          omega
        rwa [hclamp] at hwait
    | failure =>
        have hwait := wait_after_failure hdue hv hquiet hclock hnext hbackoff
        have hfailures : (s.visit v).failures =
            min (failuresInARow (pre ++ [.visit v]) (.initial complete)) U32_MAX := hcount
        have hshift : min ((s.visit v).failures - 1) 6 =
            min (failuresInARow (pre ++ [.visit v]) (.initial complete) - 1) 6 := by
          rw [hfailures]
          unfold U32_MAX
          omega
        rwa [hshift] at hwait

end Clove.Tracker
