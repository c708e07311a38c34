import Clove.Lib.Lists
import Mathlib.Data.List.MinMax

/-!
# The metadata request budget

The model of `MetadataRequestBudget` (`metadata.rs`): how many `ut_metadata` requests of a peer
are served in a window of time.  A window begins with the request that finds the one before it
over, so windows are anchored at requests.

The windows are numbered as they begin.  A request two windows later comes at least a window's
length later (`Kept.apart`), so a span of that length meets two windows at most.
-/

namespace Clove.Metadata

/-- How many requests of one peer are served in a window. -/
def METADATA_REQUEST_LIMIT : Nat := 128

/-- The window, in nanoseconds. -/
def METADATA_REQUEST_WINDOW : Nat := 10 * 1000000000

/-- A peer's budget.  Instants are nanoseconds of a monotonic clock. -/
structure MetadataRequestBudget where
  limit : Nat
  window : Nat
  windowStart : Option Nat
  used : Nat
deriving Repr, DecidableEq

namespace MetadataRequestBudget

def new (limit window : Nat) : MetadataRequestBudget := ⟨limit, window, none, 0⟩

def default : MetadataRequestBudget := new METADATA_REQUEST_LIMIT METADATA_REQUEST_WINDOW

/-- Whether the window is over, or none has begun. -/
def expired (b : MetadataRequestBudget) (now : Nat) : Bool :=
  b.windowStart.all fun start => b.window ≤ now - start

/-- The budget a request meets. -/
def turned (b : MetadataRequestBudget) (now : Nat) : MetadataRequestBudget :=
  if b.expired now then { b with windowStart := some now, used := 0 } else b

/-- Whether a request may be served. -/
def allow (b : MetadataRequestBudget) (now : Nat) : Bool × MetadataRequestBudget :=
  let b := b.turned now
  if b.limit ≤ b.used then (false, b) else (true, { b with used := b.used + 1 })

/-- Requests still served in this window. -/
def remaining (b : MetadataRequestBudget) : Nat := b.limit - b.used

/-! ## Calls -/

/-- A call of `allow`: when, in which window, and what it returned. -/
structure Call where
  time : Nat
  window : Nat
  allowed : Bool
deriving Repr, DecidableEq

/-- The number of the window a call falls in, given that of the call before it. -/
def windowAt (b : MetadataRequestBudget) (n now : Nat) : Nat := if b.expired now then n + 1 else n

/-- The calls made at these times. -/
def calls : List Nat → Nat → MetadataRequestBudget → List Call
  | [], _, _ => []
  | now :: times, n, b =>
      ⟨now, b.windowAt n now, (b.allow now).1⟩ :: calls times (b.windowAt n now) (b.allow now).2

/-- The calls made of a new budget. -/
def logOf (limit window : Nat) (times : List Nat) : List Call := (new limit window).calls times 0

/-- How many calls of a window there were. -/
def made (log : List Call) (n : Nat) : Nat := log.countP fun c => c.window = n

/-- How many of them returned true. -/
def served (log : List Call) (n : Nat) : Nat := log.countP fun c => c.window = n && c.allowed

/-- What holds of the calls so far and of the budget after them, in the window of number `n`.
Nothing has happened after `last`. -/
structure Kept (limit window : Nat) (log : List Call) (n last : Nat) (b : MetadataRequestBudget) :
    Prop where
  limit_eq : b.limit = limit
  window_eq : b.window = window
  exact_ : ∀ m, served log m = min limit (made log m)
  used : b.used = served log n
  window_le : ∀ c ∈ log, c.window ≤ n
  time_le : ∀ c ∈ log, c.time ≤ last
  start_le : ∀ s, b.windowStart = some s → s ≤ last
  /-- Calls of earlier windows came before this one began, and those of windows before the last
  one a window's length before. -/
  earlier : ∀ c ∈ log, ∃ s, b.windowStart = some s ∧ (c.window < n → c.time ≤ s) ∧
    (c.window + 1 < n → c.time + window ≤ s)
  apart : ∀ c ∈ log, ∀ c' ∈ log, c.window + 2 ≤ c'.window → c.time + window ≤ c'.time

variable {limit window n last now : Nat} {log : List Call} {b : MetadataRequestBudget}

theorem kept_new (limit window : Nat) : Kept limit window [] 0 0 (new limit window) where
  limit_eq := rfl
  window_eq := rfl
  exact_ := fun _ => (Nat.min_zero limit).symm
  used := rfl
  window_le := by simp
  time_le := by simp
  start_le := by simp [new]
  earlier := by simp
  apart := by simp

theorem served_of_window_lt (h : ∀ c ∈ log, c.window < n) : served log n = 0 :=
  List.countP_eq_zero.2 fun c hc => by
    have hlt := h c hc
    simp only [Bool.and_eq_true, decide_eq_true_eq, not_and]
    omega

/-- A window that is over is followed by an empty one. -/
theorem Kept.turned (h : Kept limit window log n last b) (hnow : last ≤ now) :
    Kept limit window log (b.windowAt n now) now (b.turned now) ∧
      ∃ s, (b.turned now).windowStart = some s := by
  have htime : ∀ c ∈ log, c.time ≤ now := fun c hc => (h.time_le c hc).trans hnow
  cases hover : b.expired now with
  | true =>
      rw [windowAt, MetadataRequestBudget.turned, if_pos hover, if_pos hover]
      refine ⟨⟨h.limit_eq, h.window_eq, h.exact_, ?_, ?_, htime, ?_, ?_, h.apart⟩, now, rfl⟩
      · exact (served_of_window_lt fun c hc => Nat.lt_succ_of_le (h.window_le c hc)).symm
      · exact fun c hc => (h.window_le c hc).trans (Nat.le_succ n)
      · exact fun s hs => (Option.some.inj hs).ge
      · intro c hc
        refine ⟨now, rfl, fun _ => htime c hc, fun hearly => ?_⟩
        obtain ⟨s, hs, hbefore, -⟩ := h.earlier c hc
        have hlength : window ≤ now - s := by
          simpa [expired, hs, h.window_eq] using hover
        have hfirst := hbefore (by omega)
        have hlast := htime c hc
        omega
  | false =>
      rw [windowAt, MetadataRequestBudget.turned, if_neg (by simp [hover]), if_neg (by simp [hover])]
      refine ⟨⟨h.limit_eq, h.window_eq, h.exact_, h.used, h.window_le, htime, ?_, h.earlier,
        h.apart⟩, ?_⟩
      · exact fun s hs => (h.start_le s hs).trans hnow
      · cases hstart : b.windowStart with
        | none => simp [expired, hstart] at hover
        | some s => exact ⟨s, rfl⟩

theorem made_snoc (c : Call) (m : Nat) :
    made (log ++ [c]) m = made log m + if c.window = m then 1 else 0 := by
  simp [made, List.countP_append, List.countP_singleton]

theorem served_snoc (c : Call) (m : Nat) :
    served (log ++ [c]) m = served log m + if c.window = m ∧ c.allowed then 1 else 0 := by
  simp [served, List.countP_append, List.countP_singleton]

/-- A call in a window that has begun. -/
theorem Kept.push (h : Kept limit window log n now b) {s : Nat} (hs : b.windowStart = some s)
    {allowed : Bool} (hallowed : allowed = true ↔ b.used < b.limit) :
    Kept limit window (log ++ [⟨now, n, allowed⟩]) n now
      { b with used := b.used + if allowed then 1 else 0 } := by
  have hused := h.used
  have hlimit := h.limit_eq
  refine ⟨h.limit_eq, h.window_eq, fun m => ?_, ?_, ?_, ?_, h.start_le, ?_, ?_⟩
  · have hexact := h.exact_ m
    rw [made_snoc, served_snoc]
    cases allowed with
    | true =>
        have hfree := hallowed.1 rfl
        by_cases hm : n = m
        · subst hm
          simp only [and_self, if_true]
          omega
        · simpa [hm] using hexact
    | false =>
        have hfull : ¬ b.used < b.limit := fun hlt => by simpa using hallowed.2 hlt
        by_cases hm : n = m
        · subst hm
          simp only [Bool.false_eq_true, and_false, if_true, if_false]
          omega
        · simpa [hm] using hexact
  · rw [served_snoc]
    simp [hused]
  · intro c hc
    cases List.mem_append.1 hc with
    | inl hold => exact h.window_le c hold
    | inr hnew => exact (List.mem_singleton.1 hnew) ▸ le_rfl
  · intro c hc
    cases List.mem_append.1 hc with
    | inl hold => exact h.time_le c hold
    | inr hnew => exact (List.mem_singleton.1 hnew) ▸ le_rfl
  · intro c hc
    cases List.mem_append.1 hc with
    | inl hold => exact h.earlier c hold
    | inr hnew =>
        obtain rfl := List.mem_singleton.1 hnew
        exact ⟨s, hs, fun hlt => absurd hlt (Nat.lt_irrefl n), fun hlt => absurd hlt (by simp)⟩
  · intro c hc c' hc' hfar
    cases List.mem_append.1 hc' with
    | inl hold' =>
        cases List.mem_append.1 hc with
        | inl hold => exact h.apart c hold c' hold' hfar
        | inr hnew =>
            obtain rfl := List.mem_singleton.1 hnew
            have hle := h.window_le c' hold'
            simp only at hfar
            omega
    | inr hnew' =>
        obtain rfl := List.mem_singleton.1 hnew'
        cases List.mem_append.1 hc with
        | inl hold =>
            obtain ⟨s', hs', -, hlong⟩ := h.earlier c hold
            exact (hlong hfar).trans (h.start_le s' hs')
        | inr hnew =>
            obtain rfl := List.mem_singleton.1 hnew
            simp at hfar

/-- A call keeps what holds. -/
theorem Kept.call (h : Kept limit window log n last b) (hnow : last ≤ now) :
    Kept limit window (log ++ [⟨now, b.windowAt n now, (b.allow now).1⟩]) (b.windowAt n now) now
      (b.allow now).2 := by
  obtain ⟨hturned, s, hs⟩ := h.turned hnow
  by_cases hfull : (b.turned now).limit ≤ (b.turned now).used
  · have hallow : b.allow now = (false, b.turned now) := if_pos hfull
    rw [hallow]
    exact hturned.push hs (by simpa using hfull)
  · have hallow : b.allow now =
        (true, { b.turned now with used := (b.turned now).used + 1 }) := if_neg hfull
    rw [hallow]
    exact hturned.push hs (by simpa using hfull)

/-- Calls at times that do not go back keep what holds. -/
theorem Kept.calls {times : List Nat} (h : Kept limit window log n last b)
    (hsorted : (last :: times).Pairwise (· ≤ ·)) :
    ∃ n' last' b', Kept limit window (log ++ b.calls times n) n' last' b' := by
  induction times generalizing log n last b with
  | nil => exact ⟨n, last, b, by rwa [MetadataRequestBudget.calls, List.append_nil]⟩
  | cons now times ih =>
      obtain ⟨hfirst, hrest⟩ := List.pairwise_cons.1 hsorted
      obtain ⟨n', last', b', hkept⟩ := ih (h.call (hfirst now List.mem_cons_self)) hrest
      refine ⟨n', last', b', ?_⟩
      rwa [List.append_assoc] at hkept

/-- Of the calls of two windows, at most twice the limit are served. -/
theorem Kept.countP_le (h : Kept limit window log n last b) {p : Call → Bool} (m : Nat)
    (hp : ∀ c ∈ log, p c = true → c.allowed = true ∧ (c.window = m ∨ c.window = m + 1)) :
    log.countP p ≤ 2 * limit := by
  have hsum : log.countP p ≤ served log m + served log (m + 1) := by
    refine Lists.countP_le_add fun c hc hpc => ?_
    obtain ⟨hallowed, hwindow⟩ := hp c hc hpc
    simpa [hallowed] using hwindow
  have hfirst := h.exact_ m
  have hsecond := h.exact_ (m + 1)
  omega

/-- The bound and the exact count.  However many requests are made, at times that do not go back,
a span of a window's length has at most twice the limit of them served, and a window of the budget
has exactly as many served as it can. -/
theorem metadata_requests_bounded (limit window : Nat) (times : List Nat)
    (hsorted : times.Pairwise (· ≤ ·)) :
    (∀ a, (logOf limit window times).countP
      (fun c => a ≤ c.time && c.time < a + window && c.allowed) ≤ 2 * limit) ∧
      ∀ n, served (logOf limit window times) n = min limit (made (logOf limit window times) n) := by
  have hfirst : (0 :: times).Pairwise (· ≤ ·) :=
    List.pairwise_cons.2 ⟨fun _ _ => Nat.zero_le _, hsorted⟩
  obtain ⟨n, last, b, hkept⟩ := (kept_new limit window).calls hfirst
  change Kept limit window (logOf limit window times) n last b at hkept
  refine ⟨fun a => ?_, hkept.exact_⟩
  -- the earliest window that has a call in the span, and the next one, have them all
  let within := (logOf limit window times).filter fun c => a ≤ c.time && c.time < a + window
  have hwithin : ∀ c, c ∈ within ↔ c ∈ logOf limit window times ∧ a ≤ c.time ∧ c.time < a + window := by
    simp [within, List.mem_filter]
  cases hmin : within.argmin Call.window with
  | none =>
      have hempty := List.argmin_eq_none.1 hmin
      refine hkept.countP_le 0 fun c hc hin => ?_
      simp only [Bool.and_eq_true, decide_eq_true_eq] at hin
      have hmem := (hwithin c).2 ⟨hc, hin.1⟩
      rw [hempty] at hmem
      cases hmem
  | some first =>
      obtain ⟨hfirst, hfrom, -⟩ := (hwithin first).1 (List.argmin_mem hmin)
      refine hkept.countP_le first.window fun c hc hin => ?_
      simp only [Bool.and_eq_true, decide_eq_true_eq] at hin
      have hle := List.le_of_mem_argmin (f := Call.window) ((hwithin c).2 ⟨hc, hin.1⟩) hmin
      have hnear : ¬ first.window + 2 ≤ c.window := fun hfar => by
        have hlate := hkept.apart first hfirst c hc hfar
        omega
      exact ⟨hin.2, by omega⟩
theorem metadata_requests_bounded_turning :
    (∀ a, (logOf 1 10 [9, 18, 19, 20, 29]).countP
      (fun c => a ≤ c.time && c.time < a + 10 && c.allowed) ≤ 2 * 1) ∧
      ∀ n, served (logOf 1 10 [9, 18, 19, 20, 29]) n =
        min 1 (made (logOf 1 10 [9, 18, 19, 20, 29]) n) :=
  metadata_requests_bounded 1 10 [9, 18, 19, 20, 29] (by decide)

end MetadataRequestBudget

end Clove.Metadata
