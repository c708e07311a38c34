import Clove.Naming
import Clove.Lib.Lists

/-!
# How long a failed name is left alone

Lookups of one name from one client, one after the other, while others look up other names.  The
clock is read before the resolver is asked, and the hold of a failure is counted from there
(`Entry.miss`), not from the moment the answer comes.  So the name is asked for too early exactly
if it is looked up in the last part of its hold, as long as the failed call took
(`left_alone_iff`).
-/

namespace Clove.Naming

variable {Dest : Type}

/-- What happens next, and when. -/
inductive Moment (Dest : Type) where
  | lookup (name : Name) (now : Instant)
  | answer (k : Nat) (a : Answer Dest) (now : Instant)
deriving Repr, DecidableEq

namespace Moment

def event : Moment Dest → Event Dest
  | .lookup name now => .lookup name now
  | .answer k a _ => .answer k a

end Moment

/-- The latest of the failed resolver calls for a name that came one after the other: how many they
are, and when it began and returned. -/
structure Failure where
  count : Nat
  began : Instant
  ended : Instant
deriving Repr, DecidableEq

/-- How long a name is to be left alone after so many failures. -/
def hold (count : Nat) : Nat := min (NEGATIVE_INITIAL * 2 ^ (count - 1)) NEGATIVE_MAX

/-- A cache with its lookups, and the latest failure of a name as long as its entry is there. -/
structure Watched (Dest : Type) where
  sys : System Dest
  last : Option Failure

namespace Watched

def start : Watched Dest := ⟨.start, none⟩

/-- How many failures there were in a row. -/
def failures (w : Watched Dest) : Nat := (w.last.map Failure.count).getD 0

/-- The latest failure of the name after an answer. -/
def answered (name : Name) (a : Answer Dest) (asked : Asking) (now : Instant) (w : Watched Dest) :
    Option Failure :=
  if asked.name = name then
    match a with
    | .found _ => none
    | .invalidInput => w.last
    | .failed => some ⟨w.failures + 1, asked.now, now⟩
  else w.last

/-- One moment.  A lookup that finds no entry finds a name that never failed, or was evicted. -/
def step (name : Name) (m : Moment Dest) (w : Watched Dest) : Watched Dest where
  sys := Naming.step m.event w.sys
  last :=
    match m with
    | .lookup n _ => if n = name ∧ w.sys.cache.lookup name = none then none else w.last
    | .answer k a now =>
        match w.sys.asking[k]? with
        | none => w.last
        | some asked => w.answered name a asked now

end Watched

/-- The client has no lookup of the name at the resolver when it begins another. -/
def Alone (name : Name) (m : Moment Dest) (w : Watched Dest) : Prop :=
  match m with
  | .lookup n _ => n = name → ∀ a ∈ w.sys.asking, a.name ≠ name
  | .answer .. => True

/-- The resolver is not called for the name before its hold is over, if its entry is there. -/
def LeftAlone (name : Name) (m : Moment Dest) (w : Watched Dest) : Prop :=
  match m with
  | .lookup n now => n = name → w.sys.cache.lookup name ≠ none →
      (check name now w.sys).calls = name :: w.sys.calls →
        ∀ f ∈ w.last, f.ended + hold f.count ≤ now
  | .answer .. => True

/-- The name is not looked up in the last part of its hold, as long as the failed call took. -/
def Spaced (name : Name) (m : Moment Dest) (w : Watched Dest) : Prop :=
  match m with
  | .lookup n now => n = name → w.sys.cache.lookup name ≠ none →
      ∀ f ∈ w.last, ¬ (f.began + hold f.count ≤ now ∧ now < f.ended + hold f.count)
  | .answer .. => True

/-! ## What the cache knows of the failures -/

/-- The hold that is recorded. -/
theorem hold_recorded {count : Nat} (h : 0 < count) :
    min (NEGATIVE_INITIAL * 2 ^ min (min count U32_MAX - 1) 6) NEGATIVE_MAX = hold count := by
  have hmax : U32_MAX = 4294967295 := rfl
  unfold hold
  by_cases hfew : count ≤ 7
  · rw [show min (min count U32_MAX - 1) 6 = count - 1 by omega]
  · -- both are past the ceiling
    have hsix : min (min count U32_MAX - 1) 6 = 6 := by omega
    have hpast : NEGATIVE_MAX ≤ NEGATIVE_INITIAL * 2 ^ 6 := by decide
    have hgrow : NEGATIVE_INITIAL * 2 ^ 6 ≤ NEGATIVE_INITIAL * 2 ^ (count - 1) :=
      Nat.mul_le_mul_left _ (Nat.pow_le_pow_right (by decide) (by omega))
    rw [hsix, Nat.min_eq_right hpast, Nat.min_eq_right (hpast.trans hgrow)]

/-- What is known of a name while it is watched. -/
structure Known (name : Name) (w : Watched Dest) : Prop where
  miss : ∀ until_ failures since, w.sys.cache.lookup name = some (.miss until_ failures since) →
    ∃ f, w.last = some f ∧ until_ = f.began + hold f.count ∧ failures = min f.count U32_MAX
  hit : ∀ dest since, w.sys.cache.lookup name = some (.hit dest since) →
    w.last = none ∧ ∀ a ∈ w.sys.asking, a.name ≠ name
  asking : ∀ a ∈ w.sys.asking, a.name = name → a.priorFailures = min w.failures U32_MAX
  once : w.sys.asking.countP (fun a => a.name = name) ≤ 1

theorem known_start (name : Name) : Known name (.start : Watched Dest) where
  miss := fun _ _ _ h => by cases h
  hit := fun _ _ h => by cases h
  asking := by simp [Watched.start, System.start]
  once := by simp [Watched.start, System.start]

variable {name : Name} {w : Watched Dest}

/-- What the check of a lookup does. -/
theorem check_cases (n : Name) (now : Instant) (s : System Dest) :
    ((check n now s).asking = s.asking ∧ (check n now s).calls = s.calls ∧
      ((∃ dest since, s.cache.lookup n = some (.hit dest since)) ∨
        ∃ until_ failures since, s.cache.lookup n = some (.miss until_ failures since) ∧
          now < until_)) ∨
    ∃ priorFailures, (check n now s).asking = s.asking ++ [⟨n, now, priorFailures⟩] ∧
      (check n now s).calls = n :: s.calls ∧
      (s.cache.lookup n = none ∧ priorFailures = 0 ∨
        ∃ until_ since, s.cache.lookup n = some (.miss until_ priorFailures since) ∧
          until_ ≤ now) := by
  cases hlookup : s.cache.lookup n with
  | none =>
      refine .inr ⟨0, by simp only [check, hlookup], by simp only [check, hlookup], ?_⟩
      exact .inl ⟨rfl, rfl⟩
  | some e =>
      cases e with
      | hit dest since =>
          refine .inl ⟨by simp only [check, hlookup], by simp only [check, hlookup], ?_⟩
          exact .inl ⟨dest, since, rfl⟩
      | miss until_ failures since =>
          by_cases hearly : now < until_
          · refine .inl ⟨by simp only [check, hlookup, if_pos hearly],
              by simp only [check, hlookup, if_pos hearly], ?_⟩
            exact .inr ⟨until_, failures, since, rfl, hearly⟩
          · refine .inr ⟨failures, by simp only [check, hlookup, if_neg hearly],
              by simp only [check, hlookup, if_neg hearly], ?_⟩
            exact .inr ⟨until_, since, rfl, Nat.le_of_not_lt hearly⟩

/-- A lookup keeps what is known. -/
theorem Known.lookup (h : Known name w) {n : Name} {now : Instant}
    (halone : Alone name (.lookup n now) w) : Known name (w.step name (.lookup n now)) := by
  have hcache : (w.step name (.lookup n now)).sys.cache = w.sys.cache := cache_check n now w.sys
  -- the failure is forgotten only if the entry is gone
  have hlast : w.sys.cache.lookup name ≠ none → (w.step name (.lookup n now)).last = w.last :=
    fun hentry => if_neg fun hgone => hentry hgone.2
  have hmiss : ∀ until_ failures since,
      (w.step name (.lookup n now)).sys.cache.lookup name = some (.miss until_ failures since) →
      ∃ f, (w.step name (.lookup n now)).last = some f ∧ until_ = f.began + hold f.count ∧
        failures = min f.count U32_MAX := by
    intro until_ failures since hlookup
    rw [hcache] at hlookup
    rw [hlast (by rw [hlookup]; exact Option.some_ne_none _)]
    exact h.miss until_ failures since hlookup
  rcases check_cases n now w.sys with ⟨hasking, -, hentry⟩ | ⟨priorFailures, hasking, -, hfirst⟩
  · -- nothing is asked
    have hasking' : (w.step name (.lookup n now)).sys.asking = w.sys.asking := hasking
    have hkept : (w.step name (.lookup n now)).last = w.last := by
      refine if_neg fun hgone => ?_
      obtain ⟨rfl, hnone⟩ := hgone
      rcases hentry with ⟨dest, since, hhit⟩ | ⟨until_, failures, since, hmiss, -⟩
      · rw [hnone] at hhit
        cases hhit
      · rw [hnone] at hmiss
        cases hmiss
    refine ⟨hmiss, fun dest since hlookup => ?_, fun a ha hname => ?_, ?_⟩
    · rw [hcache] at hlookup
      rw [hkept, hasking']
      exact h.hit dest since hlookup
    · rw [hasking'] at ha
      rw [Watched.failures, hkept]
      exact h.asking a ha hname
    · rw [hasking']
      exact h.once
  · have hasking' : (w.step name (.lookup n now)).sys.asking =
        w.sys.asking ++ [⟨n, now, priorFailures⟩] := hasking
    by_cases hn : n = name
    · -- the name itself, which nothing asks for yet
      subst hn
      have hfree : ∀ a ∈ w.sys.asking, a.name ≠ n := halone rfl
      refine ⟨hmiss, fun dest since hlookup => ?_, fun a ha hname => ?_, ?_⟩
      · rw [hcache] at hlookup
        rcases hfirst with ⟨hnone, -⟩ | ⟨until_, since', hmiss', -⟩
        · rw [hnone] at hlookup
          cases hlookup
        · rw [hmiss'] at hlookup
          cases hlookup
      · rw [hasking', List.mem_append, List.mem_singleton] at ha
        obtain rfl := ha.resolve_left fun hold => hfree a hold hname
        rcases hfirst with ⟨hnone, rfl⟩ | ⟨until_, since, hmiss', -⟩
        · have hreset : (w.step n (.lookup n now)).last = none := if_pos ⟨rfl, hnone⟩
          rw [Watched.failures, hreset]
          rfl
        · obtain ⟨f, hf, -, hcount⟩ := h.miss _ _ _ hmiss'
          rw [Watched.failures, hlast (by rw [hmiss']; exact Option.some_ne_none _), hf]
          exact hcount
      · have hnone : w.sys.asking.countP (fun a => a.name = n) = 0 :=
          List.countP_eq_zero.2 fun a ha => by simpa using hfree a ha
        rw [hasking', List.countP_append, hnone]
        exact (Nat.zero_add _).le.trans List.countP_le_length
    · -- another name
      have hkept : (w.step name (.lookup n now)).last = w.last := if_neg fun hgone => hn hgone.1
      refine ⟨hmiss, fun dest since hlookup => ?_, fun a ha hname => ?_, ?_⟩
      · rw [hcache] at hlookup
        obtain ⟨hnone, hfree⟩ := h.hit dest since hlookup
        refine ⟨hkept.trans hnone, fun a ha => ?_⟩
        rw [hasking', List.mem_append, List.mem_singleton] at ha
        rcases ha with ha | rfl
        · exact hfree a ha
        · exact hn
      · rw [hasking', List.mem_append, List.mem_singleton] at ha
        rcases ha with ha | rfl
        · rw [Watched.failures, hkept]
          exact h.asking a ha hname
        · exact absurd hname hn
      · rw [hasking', List.countP_append, List.countP_singleton, if_neg (by simpa using hn)]
        exact h.once

/-- What is recorded for another name leaves an entry alone, or evicts it. -/
theorem lookup_record_other {asked : Asking} (hne : name ≠ asked.name) {a : Answer Dest}
    {s : System Dest} {e : Entry Dest} (h : (record asked a s).cache.lookup name = some e) :
    s.cache.lookup name = some e := by
  have hinsert : ∀ entry, (s.cache.insert asked.name entry).lookup name = some e →
      s.cache.lookup name = some e := by
    intro entry hlookup
    rw [Cache.lookup_insert, if_neg hne] at hlookup
    exact Cache.lookup_evict hlookup
  cases a with
  | found dest => exact hinsert _ h
  | invalidInput => exact h
  | failed =>
      change (s.cache.insertMiss asked.name asked.now asked.priorFailures).lookup name = _ at h
      unfold Cache.insertMiss at h
      split at h
      · exact h
      · exact hinsert _ h

/-- A failure of a name that was not found is recorded with its hold. -/
theorem lookup_insertMiss {c : Cache Dest}
    (hmiss : ∀ dest since, c.lookup name ≠ some (.hit dest since)) (began : Instant)
    (failures : Nat) :
    (c.insertMiss name began (min failures U32_MAX)).lookup name =
      some (.miss (began + hold (failures + 1)) (min (failures + 1) U32_MAX) (c.inserted + 1)) := by
  have hmax : U32_MAX = 4294967295 := rfl
  have hcount : min (min failures U32_MAX + 1) U32_MAX = min (failures + 1) U32_MAX := by omega
  unfold Cache.insertMiss
  split
  · rename_i dest since hhit
    exact absurd hhit (hmiss dest since)
  · rw [Cache.lookup_insert, if_pos rfl, hcount, hold_recorded (Nat.succ_pos failures)]

/-- An answer keeps what is known. -/
theorem Known.answer (h : Known name w) (k : Nat) (a : Answer Dest) (now : Instant) :
    Known name (w.step name (.answer k a now)) := by
  cases hk : w.sys.asking[k]? with
  | none =>
      have hsame : w.step name (.answer k a now) = w := by
        simp only [Watched.step, Moment.event, step_answer_none hk, hk]
      rwa [hsame]
  | some asked =>
      have hsys : (w.step name (.answer k a now)).sys =
          record asked a { w.sys with asking := w.sys.asking.eraseIdx k } := step_answer hk a
      have hlast : (w.step name (.answer k a now)).last = w.answered name a asked now := by
        simp only [Watched.step, hk]
      have hasking : (w.step name (.answer k a now)).sys.asking = w.sys.asking.eraseIdx k := by
        rw [hsys]
        cases a <;> rfl
      have hsub : ∀ b ∈ (w.step name (.answer k a now)).sys.asking, b ∈ w.sys.asking := by
        intro b hb
        rw [hasking] at hb
        exact List.mem_of_mem_eraseIdx hb
      have hmem : asked ∈ w.sys.asking := List.mem_of_getElem? hk
      have hcount := Lists.countP_eraseIdx (p := fun a : Asking => a.name = name) hk
      have honce := h.once
      by_cases hname : asked.name = name
      · -- the name's own lookup returns, and was the only one
        have hfree : ∀ b ∈ (w.step name (.answer k a now)).sys.asking, b.name ≠ name := by
          rw [if_pos (by simpa using hname)] at hcount
          have hnone : (w.sys.asking.eraseIdx k).countP (fun a => a.name = name) = 0 := by omega
          rw [hasking]
          intro b hb
          simpa using List.countP_eq_zero.1 hnone b hb
        have hnohit : ∀ dest since, w.sys.cache.lookup name ≠ some (.hit dest since) :=
          fun dest since hhit => (h.hit dest since hhit).2 asked hmem hname
        have hidle : ∀ b ∈ (w.step name (.answer k a now)).sys.asking, b.name = name →
            b.priorFailures = min (w.step name (.answer k a now)).failures U32_MAX :=
          fun b hb heq => absurd heq (hfree b hb)
        have hzero : (w.step name (.answer k a now)).sys.asking.countP
            (fun a => a.name = name) ≤ 1 := by
          rw [hasking]
          omega
        cases a with
        | found dest =>
            have hlookup : (w.step name (.answer k (.found dest) now)).sys.cache.lookup name =
                some (.hit dest (w.sys.cache.inserted + 1)) := by
              rw [hsys, cache_record_found, Cache.lookup_insert, if_pos hname.symm]
            refine ⟨fun until_ failures since hmiss => ?_, fun dest' since hhit => ?_, hidle, hzero⟩
            · rw [hlookup] at hmiss
              cases hmiss
            · exact ⟨hlast.trans (if_pos hname), hfree⟩
        | invalidInput =>
            have hcache : (w.step name (.answer k .invalidInput now)).sys.cache = w.sys.cache := by
              rw [hsys]
              rfl
            refine ⟨fun until_ failures since hmiss => ?_, fun dest since hhit => ?_, hidle, hzero⟩
            · rw [hcache] at hmiss
              rw [hlast.trans (if_pos hname)]
              exact h.miss until_ failures since hmiss
            · rw [hcache] at hhit
              exact absurd hhit (hnohit dest since)
        | failed =>
            have hlookup : (w.step name (.answer k .failed now)).sys.cache.lookup name =
                some (.miss (asked.now + hold (w.failures + 1)) (min (w.failures + 1) U32_MAX)
                  (w.sys.cache.inserted + 1)) := by
              rw [hsys]
              change (w.sys.cache.insertMiss asked.name asked.now
                asked.priorFailures).lookup name = _
              rw [h.asking asked hmem hname, hname]
              exact lookup_insertMiss hnohit asked.now w.failures
            refine ⟨fun until_ failures since hmiss => ?_, fun dest since hhit => ?_, hidle, hzero⟩
            · rw [hlookup] at hmiss
              obtain ⟨rfl, rfl, rfl⟩ := Entry.miss.inj (Option.some.inj hmiss)
              exact ⟨_, hlast.trans (if_pos hname), rfl, rfl⟩
            · rw [hlookup] at hhit
              cases hhit
      · -- another name's lookup returns
        have hkept : (w.step name (.answer k a now)).last = w.last :=
          hlast.trans (if_neg hname)
        have hentry : ∀ e, (w.step name (.answer k a now)).sys.cache.lookup name = some e →
            w.sys.cache.lookup name = some e := by
          intro e he
          rw [hsys] at he
          exact lookup_record_other (s := { w.sys with asking := w.sys.asking.eraseIdx k })
            (Ne.symm hname) he
        refine ⟨fun until_ failures since hmiss => ?_, fun dest since hhit => ?_,
          fun b hb heq => ?_, ?_⟩
        · rw [hkept]
          exact h.miss until_ failures since (hentry _ hmiss)
        · obtain ⟨hnone, hfree⟩ := h.hit dest since (hentry _ hhit)
          exact ⟨hkept.trans hnone, fun b hb => hfree b (hsub b hb)⟩
        · rw [Watched.failures, hkept]
          exact h.asking b (hsub b hb) heq
        · rw [hasking]
          omega

theorem Known.step (h : Known name w) (m : Moment Dest) (halone : Alone name m w) :
    Known name (w.step name m) := by
  cases m with
  | lookup n now => exact h.lookup halone
  | answer k a now => exact h.answer k a now

/-! ## When it is left alone -/

/-- A lookup goes too early exactly in the last part of the hold. -/
theorem Known.leftAlone_iff (h : Known name w) (m : Moment Dest) :
    LeftAlone name m w ↔ Spaced name m w := by
  cases m with
  | answer k a now => exact Iff.rfl
  | lookup n now =>
      refine forall_congr' fun hn => forall_congr' fun hentry => ?_
      subst hn
      rcases check_cases n now w.sys with ⟨-, hcalls, hknown⟩ | ⟨prior, -, hcalls, hfirst⟩
      · -- not asked, as it was found or its hold is not over
        have hquiet : (check n now w.sys).calls ≠ n :: w.sys.calls := by
          rw [hcalls]
          exact fun heq => absurd (congrArg List.length heq) (by simp)
        refine ⟨fun _ f hf hlate => ?_, fun _ hcall => absurd hcall hquiet⟩
        rcases hknown with ⟨dest, since, hhit⟩ | ⟨until_, failures, since, hmiss, hearly⟩
        · rw [(h.hit dest since hhit).1] at hf
          cases hf
        · obtain ⟨g, hg, rfl, -⟩ := h.miss until_ failures since hmiss
          rw [hg] at hf
          obtain rfl := Option.some.inj hf
          exact absurd hlate.1 (Nat.not_le.2 hearly)
      · obtain ⟨until_, since, hmiss, hover⟩ := hfirst.resolve_left fun hnone => hentry hnone.1
        obtain ⟨f, hf, rfl, -⟩ := h.miss until_ prior since hmiss
        refine ⟨fun hleft g hg hlate => ?_, fun hspaced _ g hg => ?_⟩
        · exact absurd (hleft hcalls g hg) (Nat.not_le.2 hlate.2)
        · rw [hf] at hg
          obtain rfl := Option.some.inj hg
          exact Nat.not_lt.1 fun hlate => hspaced f hf ⟨hover, hlate⟩

/-- However long its calls take, a failed name is left alone for its hold exactly if it is not
looked up in the last part of the hold, as long as the call took. -/
theorem left_alone_iff (name : Name) (moments : List (Moment Dest))
    (halone : Machine.Along (Watched.step name) (Alone name) moments .start) :
    Machine.Along (Watched.step name) (LeftAlone name) moments .start ↔
      Machine.Along (Watched.step name) (Spaced name) moments .start :=
  Machine.along_congr (fun m _ halone h => Known.step h m halone)
    (fun m _ _ h => Known.leftAlone_iff h m) halone (known_start name)

/-- One failure, which took forty seconds, and a lookup when it has returned. -/
def slowFailure : List (Moment Unit) :=
  [.lookup [] 0, .answer 0 .failed (40 * 1000000000), .lookup [] (40 * 1000000000)]

theorem left_alone_slow :
    Machine.Along (Watched.step []) (LeftAlone []) slowFailure .start ↔
      Machine.Along (Watched.step []) (Spaced []) slowFailure .start :=
  left_alone_iff [] slowFailure ⟨fun _ _ h => absurd h List.not_mem_nil, trivial,
    fun _ _ h => absurd h List.not_mem_nil, trivial⟩

/-- The name is asked for again as soon as the call has returned. -/
theorem not_left_alone :
    Machine.Along (Watched.step []) (Alone []) slowFailure .start ∧
      ¬ Machine.Along (Watched.step []) (LeftAlone []) slowFailure .start := by
  refine ⟨⟨fun _ _ h => absurd h List.not_mem_nil, trivial,
    fun _ _ h => absurd h List.not_mem_nil, trivial⟩, fun h => ?_⟩
  have hhold := h.2.2.1 rfl (by decide) (by decide) ⟨1, 0, 40 * 1000000000⟩ (by decide)
  exact absurd hhold (by decide)

end Clove.Naming
