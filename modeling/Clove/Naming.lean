import Clove.Wire
import Clove.Lib.Machine
import Clove.Lib.Map
import Mathlib.Data.List.MinMax

/-!
# The naming cache

The model of `naming.rs`.  A lookup checks the cache, asks the resolver without the lock, and
records the answer; lookups on the clones of one cache interleave between these.  A lookup that
is at the resolver is an `Asking`, and `answer` is the moment its answer is recorded.

A hash map has no order of its own, so `oldest` may meet equal stamps in any order.  There are
none as long as the counter has not come round.
-/

namespace Clove.Naming

abbrev Name := Bytes

/-- Nanoseconds of a monotonic clock. -/
abbrev Instant := Nat

/-- First hold after a failed lookup, and the ceiling of holds. -/
def NEGATIVE_INITIAL : Nat := 30 * 1000000000

def NEGATIVE_MAX : Nat := 30 * 60 * 1000000000

/-- Most names the cache holds at once. -/
def MAX_ENTRIES : Nat := 4096

/-- How many values a `u64` has. -/
def U64_RANGE : Nat := 18446744073709551616

variable {Dest : Type}

/-! ## The cache -/

/-- What is known of a name, and when it was put in. -/
inductive Entry (Dest : Type) where
  | hit (dest : Dest) (since : Nat)
  | miss (until_ : Instant) (failures since : Nat)
deriving Repr, DecidableEq

namespace Entry

def since : Entry Dest → Nat
  | .hit _ since => since
  | .miss _ _ since => since

/-- What the source stores: the counter wraps. -/
def stamp (e : Entry Dest) : Nat := e.since % U64_RANGE

def isMiss : Entry Dest → Bool
  | .hit _ _ => false
  | .miss _ _ _ => true

end Entry

/-- The entries, and how many have been put in. -/
structure Cache (Dest : Type) where
  byName : Map Name (Entry Dest)
  inserted : Nat

namespace Cache

def empty : Cache Dest := ⟨∅, 0⟩

def size (c : Cache Dest) : Nat := c.byName.keys.length

def lookup (c : Cache Dest) (name : Name) : Option (Entry Dest) := c.byName.lookup name

/-- The entry of a kind that has the least stamp. -/
def oldest (c : Cache Dest) (of : Entry Dest → Bool) : Option Name :=
  ((c.byName.entries.filter fun e => of e.2).argmin fun e => e.2.stamp).map Sigma.fst

/-- Make room for a name. -/
def evict (c : Cache Dest) (name : Name) : Map Name (Entry Dest) :=
  if MAX_ENTRIES ≤ c.size ∧ name ∉ c.byName then
    match (c.oldest Entry.isMiss).or (c.oldest fun _ => true) with
    | some victim => c.byName.erase victim
    | none => c.byName
  else c.byName

/-- Put a name in. -/
def insert (c : Cache Dest) (name : Name) (entry : Nat → Entry Dest) : Cache Dest where
  byName := (c.evict name).insert name (entry (c.inserted + 1))
  inserted := c.inserted + 1

/-- Remember a failure, unless the name was found meanwhile. -/
def insertMiss (c : Cache Dest) (name : Name) (now : Instant) (priorFailures : Nat) :
    Cache Dest :=
  let failures := min (priorFailures + 1) U32_MAX
  let shift := min (failures - 1) 6
  let hold := min (NEGATIVE_INITIAL * 2 ^ shift) NEGATIVE_MAX
  match c.lookup name with
  | some (.hit _ _) => c
  | _ => c.insert name (.miss (now + hold) failures)

end Cache

/-! ## Lookups -/

/-- What a lookup returns. -/
inductive Response (Dest : Type) where
  | found (dest : Dest)
  /-- Not asked again for so many seconds, after so many failures. -/
  | negativeCached (failures secs : Nat)
  | refused
  | failed
deriving Repr, DecidableEq

/-- What the resolver answers. -/
inductive Answer (Dest : Type) where
  | found (dest : Dest)
  /-- `InvalidInput`: refused before any router was asked. -/
  | invalidInput
  | failed
deriving Repr, DecidableEq

/-- A lookup that is at the resolver. -/
structure Asking where
  name : Name
  now : Instant
  priorFailures : Nat
deriving Repr, DecidableEq

/-- A cache and the lookups on its clones. -/
structure System (Dest : Type) where
  cache : Cache Dest
  asking : List Asking
  /-- The names the resolver was called with. -/
  calls : List Name
  /-- What lookups have returned. -/
  returned : List (Name × Response Dest)

def System.start : System Dest := ⟨.empty, [], [], []⟩

/-- What happens next. -/
inductive Event (Dest : Type) where
  | lookup (name : Name) (now : Instant)
  | answer (k : Nat) (a : Answer Dest)
deriving Repr, DecidableEq

/-- The first half of a lookup: the check. -/
def check (name : Name) (now : Instant) (s : System Dest) : System Dest :=
  let ask (priorFailures : Nat) : System Dest :=
    { s with
      asking := s.asking ++ [⟨name, now, priorFailures⟩]
      calls := name :: s.calls }
  match s.cache.lookup name with
  | some (.hit dest _) => { s with returned := (name, .found dest) :: s.returned }
  | some (.miss until_ failures _) =>
      if now < until_ then
        { s with
          returned :=
            (name, .negativeCached failures ((until_ - now) / 1000000000)) :: s.returned }
      else ask failures
  | none => ask 0

/-- The second half: what the resolver said. -/
def record (a : Asking) (answer : Answer Dest) (s : System Dest) : System Dest :=
  match answer with
  | .found dest =>
      { s with
        cache := s.cache.insert a.name (.hit dest)
        returned := (a.name, .found dest) :: s.returned }
  | .invalidInput => { s with returned := (a.name, .refused) :: s.returned }
  | .failed =>
      { s with
        cache := s.cache.insertMiss a.name a.now a.priorFailures
        returned := (a.name, .failed) :: s.returned }

def step : Event Dest → System Dest → System Dest
  | .lookup name now, s => check name now s
  | .answer k answer, s =>
      match s.asking[k]? with
      | none => s
      | some a => record a answer { s with asking := s.asking.eraseIdx k }

/-! ## Room for a name -/

namespace Cache

theorem oldest_spec {c : Cache Dest} {of : Entry Dest → Bool} {victim : Name}
    (h : c.oldest of = some victim) :
    ∃ e, c.lookup victim = some e ∧ of e = true ∧
      ∀ name e', c.lookup name = some e' → of e' = true → e.stamp ≤ e'.stamp := by
  obtain ⟨⟨name, e⟩, hmin, rfl⟩ := Option.map_eq_some_iff.1 h
  have hmem := List.mem_filter.1 (List.argmin_mem hmin)
  refine ⟨e, AList.mem_lookup_iff.2 hmem.1, hmem.2, fun name' e' hlookup hof => ?_⟩
  have hin : (⟨name', e'⟩ : Sigma fun _ : Name => Entry Dest) ∈
      c.byName.entries.filter fun e => of e.2 :=
    List.mem_filter.2 ⟨AList.mem_lookup_iff.1 hlookup, hof⟩
  exact List.le_of_mem_argmin (f := fun e : Sigma fun _ : Name => Entry Dest => e.2.stamp) hin hmin

theorem oldest_eq_none {c : Cache Dest} {of : Entry Dest → Bool} (h : c.oldest of = none) :
    ∀ name e, c.lookup name = some e → of e = false := by
  intro name e hlookup
  have hnil := List.argmin_eq_none.1 (Option.map_eq_none_iff.1 h)
  by_contra hof
  have hin : (⟨name, e⟩ : Sigma fun _ : Name => Entry Dest) ∈
      c.byName.entries.filter fun e => of e.2 :=
    List.mem_filter.2 ⟨AList.mem_lookup_iff.1 hlookup, by simpa using hof⟩
  rw [hnil] at hin
  cases hin

/-- A hit may be evicted: the cache is full, holds no miss, and nothing in it is older. -/
structure Evictable (c : Cache Dest) (since : Nat) : Prop where
  full : MAX_ENTRIES ≤ c.size
  noMiss : ∀ name e, c.lookup name = some e → e.isMiss = false
  least : ∀ name e, c.lookup name = some e → since % U64_RANGE ≤ e.stamp

/-- Nothing makes room for a name that has it; else what goes is a miss or evictable. -/
theorem evict_cases (c : Cache Dest) (name : Name) :
    c.evict name = c.byName ∧ (c.size < MAX_ENTRIES ∨ name ∈ c.byName) ∨
    ∃ victim e, c.evict name = c.byName.erase victim ∧ c.lookup victim = some e ∧
      (e.isMiss = true ∨ c.Evictable e.since) := by
  unfold evict
  by_cases hroom : MAX_ENTRIES ≤ c.size ∧ name ∉ c.byName
  · rw [if_pos hroom]
    cases hmiss : c.oldest Entry.isMiss with
    | some victim =>
        obtain ⟨e, hlookup, hof, -⟩ := oldest_spec hmiss
        exact .inr ⟨victim, e, rfl, hlookup, .inl hof⟩
    | none =>
        rw [Option.none_or]
        cases hany : c.oldest fun _ => true with
        | some victim =>
            obtain ⟨e, hlookup, -, hleast⟩ := oldest_spec hany
            exact .inr ⟨victim, e, rfl, hlookup, .inr
              ⟨hroom.1, oldest_eq_none hmiss, fun name e' h => hleast name e' h rfl⟩⟩
        | none =>
            -- a full cache has an entry
            have hne : c.byName.keys ≠ [] := by
              intro hnil
              have hsize := hroom.1
              rw [size, hnil] at hsize
              exact absurd hsize (by decide)
            obtain ⟨key, hkey⟩ := List.exists_mem_of_ne_nil _ hne
            obtain ⟨e, he⟩ := Option.isSome_iff_exists.1
              (AList.lookup_isSome.2 (AList.mem_keys.2 hkey))
            exact absurd (oldest_eq_none hany key e he) (by decide)
  · rw [if_neg hroom]
    refine .inl ⟨rfl, ?_⟩
    by_contra hneg
    rw [not_or, Nat.not_lt] at hneg
    exact hroom hneg

/-! ## What a cache keeps -/

/-- The cache is within its bound, and no entry was put in after the count. -/
structure WF (c : Cache Dest) : Prop where
  size : c.size ≤ MAX_ENTRIES
  since : ∀ name e, c.lookup name = some e → e.since ≤ c.inserted

theorem lookup_insert (c : Cache Dest) (name n : Name) (entry : Nat → Entry Dest) :
    (c.insert name entry).lookup n =
      if n = name then some (entry (c.inserted + 1)) else (c.evict name).lookup n :=
  Map.lookup_insert _ _ _ _

theorem lookup_evict {c : Cache Dest} {name n : Name} {e : Entry Dest}
    (h : (c.evict name).lookup n = some e) : c.lookup n = some e := by
  rcases c.evict_cases name with ⟨heq, -⟩ | ⟨victim, -, heq, -⟩
  · rwa [heq] at h
  · rw [heq, Map.lookup_erase] at h
    split at h
    · cases h
    · exact h

theorem WF.insert {c : Cache Dest} (h : c.WF) (name : Name) {entry : Nat → Entry Dest}
    (hentry : ∀ k, (entry k).since = k) : (c.insert name entry).WF where
  size := by
    change ((c.evict name).insert name (entry (c.inserted + 1))).keys.length ≤ MAX_ENTRIES
    rw [Map.length_insert]
    have hsize : c.byName.keys.length ≤ MAX_ENTRIES := h.size
    rcases c.evict_cases name with ⟨heq, hroom | hin⟩ | ⟨victim, e, heq, hlookup, -⟩
    · rw [heq]
      exact Nat.lt_of_le_of_lt (Map.length_erase_le _ _) hroom
    · rw [heq, Map.length_erase_of_mem hin]
      exact hsize
    · have hmem : victim ∈ c.byName := AList.lookup_isSome.1 (by
        rw [show c.byName.lookup victim = some e from hlookup]
        rfl)
      have hless := Map.length_erase_of_mem hmem
      have hle := Map.length_erase_le (c.byName.erase victim) name
      rw [heq]
      omega
  since := by
    intro n e hlookup
    rw [lookup_insert] at hlookup
    split at hlookup
    · rw [← Option.some.inj hlookup, hentry]
      exact le_rfl
    · exact (h.since n e (lookup_evict hlookup)).trans (Nat.le_succ _)

/-- A hit stays when another name is put in, unless it is evicted. -/
theorem hit_insert {c : Cache Dest} {name n : Name} {dest : Dest} {since : Nat}
    (hhit : c.lookup n = some (.hit dest since)) (hne : n ≠ name) (entry : Nat → Entry Dest) :
    (c.insert name entry).lookup n = some (.hit dest since) ∨
      (c.insert name entry).lookup n = none ∧ c.Evictable since := by
  rw [lookup_insert, if_neg hne]
  rcases c.evict_cases name with ⟨heq, -⟩ | ⟨victim, e, heq, hvictim, hgone⟩
  · rw [heq]
    exact .inl hhit
  · rw [heq, Map.lookup_erase]
    by_cases hn : n = victim
    · subst hn
      rw [hhit] at hvictim
      obtain rfl := Option.some.inj hvictim
      rw [if_pos rfl]
      exact .inr ⟨rfl, hgone.resolve_left (by simp [Entry.isMiss])⟩
    · rw [if_neg hn]
      exact .inl hhit

theorem WF.insertMiss {c : Cache Dest} (h : c.WF) (name : Name) (now priorFailures : Nat) :
    (c.insertMiss name now priorFailures).WF := by
  unfold Cache.insertMiss
  split
  · exact h
  · exact h.insert name fun _ => rfl

/-- A miss does not take the place of a hit. -/
theorem hit_insertMiss {c : Cache Dest} {n : Name} {dest : Dest} {since : Nat}
    (hhit : c.lookup n = some (.hit dest since)) (name : Name) (now priorFailures : Nat) :
    (c.insertMiss name now priorFailures).lookup n = some (.hit dest since) ∨
      (c.insertMiss name now priorFailures).lookup n = none ∧ c.Evictable since := by
  unfold Cache.insertMiss
  split
  · exact .inl hhit
  · rename_i hmiss
    refine hit_insert hhit ?_ _
    rintro rfl
    exact hmiss dest since hhit

end Cache

/-! ## A whole run -/

theorem cache_check (name : Name) (now : Instant) (s : System Dest) :
    (check name now s).cache = s.cache := by
  unfold check
  split
  · rfl
  · split <;> rfl
  · rfl

theorem step_answer {k : Nat} {s : System Dest} {a : Asking} (h : s.asking[k]? = some a)
    (answer : Answer Dest) :
    step (.answer k answer) s = record a answer { s with asking := s.asking.eraseIdx k } := by
  simp only [step, h]

theorem step_answer_none {k : Nat} {s : System Dest} (h : s.asking[k]? = none)
    (answer : Answer Dest) : step (.answer k answer) s = s := by
  simp only [step, h]

theorem cache_record_found (a : Asking) (dest : Dest) (s : System Dest) :
    (record a (.found dest) s).cache = s.cache.insert a.name (.hit dest) := rfl

theorem wf_step (e : Event Dest) (s : System Dest) (h : s.cache.WF) : (step e s).cache.WF := by
  cases e with
  | lookup name now => exact (cache_check name now s).symm ▸ h
  | answer k answer =>
      cases hk : s.asking[k]? with
      | none => rwa [step_answer_none hk]
      | some a =>
          rw [step_answer hk]
          cases answer with
          | found dest => exact h.insert a.name fun _ => rfl
          | invalidInput => exact h
          | failed => exact h.insertMiss a.name a.now a.priorFailures

theorem wf_run (events : List (Event Dest)) : (Machine.run step events .start).cache.WF := by
  refine Machine.run_induction (P := fun s : System Dest => s.cache.WF) wf_step events ?_
  exact ⟨Nat.zero_le _, fun name e h => by cases h⟩

/-- A hit stays a hit, unless it is evicted. -/
theorem hit_step (e : Event Dest) {s : System Dest} {n : Name} {dest : Dest} {since : Nat}
    (hhit : s.cache.lookup n = some (.hit dest since)) :
    (∃ dest' since', (step e s).cache.lookup n = some (.hit dest' since')) ∨
      (step e s).cache.lookup n = none ∧ s.cache.Evictable since := by
  cases e with
  | lookup name now =>
      exact .inl ⟨dest, since, (congrArg (·.lookup n) (cache_check name now s)).trans hhit⟩
  | answer k answer =>
      cases hk : s.asking[k]? with
      | none =>
          rw [step_answer_none hk]
          exact .inl ⟨dest, since, hhit⟩
      | some a =>
          rw [step_answer hk]
          cases answer with
          | found dest' =>
              by_cases hn : n = a.name
              · refine .inl ⟨dest', s.cache.inserted + 1, ?_⟩
                change (s.cache.insert a.name (.hit dest')).lookup n = _
                rw [Cache.lookup_insert, if_pos hn]
              · exact (Cache.hit_insert hhit hn _).imp_left fun h => ⟨dest, since, h⟩
          | invalidInput => exact .inl ⟨dest, since, hhit⟩
          | failed =>
              exact (Cache.hit_insertMiss hhit a.name a.now a.priorFailures).imp_left
                fun h => ⟨dest, since, h⟩

/-- The stamp of an entry is its age until the counter has come round. -/
theorem Cache.Evictable.oldest {c : Cache Dest} {n : Name} {dest : Dest} {since : Nat}
    (h : c.Evictable since) (hwf : c.WF) (hhit : c.lookup n = some (.hit dest since))
    (hfew : c.inserted < U64_RANGE) {name : Name} {e : Entry Dest} (he : c.lookup name = some e) :
    since ≤ e.since := by
  have hsince : since ≤ c.inserted := hwf.since n _ hhit
  have hother := hwf.since name e he
  have hleast := h.least name e he
  rwa [Entry.stamp, Nat.mod_eq_of_lt (by omega), Nat.mod_eq_of_lt (by omega)] at hleast

/-- In every state of every run: the cache is within its bound; a hit stays a hit, or is evicted
from a full cache without a miss, as the least stamped, which is the oldest until as many
entries have been put in as the counter has values; a lookup of a hit returns it and calls
nothing; and a refused name is not recorded. -/
theorem naming_cache_kept (events : List (Event Dest)) :
    (Machine.run step events .start).cache.size ≤ MAX_ENTRIES ∧
    (∀ (e : Event Dest) (n : Name) (dest : Dest) (since : Nat),
      (Machine.run step events .start).cache.lookup n = some (.hit dest since) →
      (∃ dest' since',
        (step e (Machine.run step events .start)).cache.lookup n = some (.hit dest' since')) ∨
      (step e (Machine.run step events .start)).cache.lookup n = none ∧
        (Machine.run step events .start).cache.Evictable since ∧
        ((Machine.run step events .start).cache.inserted < U64_RANGE →
          ∀ name e, (Machine.run step events .start).cache.lookup name = some e →
            since ≤ e.since)) ∧
    (∀ (n : Name) (now : Instant) (dest : Dest) (since : Nat),
      (Machine.run step events .start).cache.lookup n = some (.hit dest since) →
      step (.lookup n now) (Machine.run step events .start) =
        { Machine.run step events .start with
          returned := (n, .found dest) :: (Machine.run step events .start).returned }) ∧
    ∀ k, (step (.answer k .invalidInput) (Machine.run step events .start)).cache =
      (Machine.run step events .start).cache := by
  have hwf := wf_run events
  generalize Machine.run step events .start = s at hwf
  refine ⟨hwf.size, fun e n dest since hhit => ?_, fun n now dest since hhit => ?_, fun k => ?_⟩
  · refine (hit_step e hhit).imp_right fun ⟨hgone, hevict⟩ => ⟨hgone, hevict, fun hfew => ?_⟩
    exact fun name e he => hevict.oldest hwf hhit hfew he
  · simp only [step, check, hhit]
  · cases hk : s.asking[k]? with
    | none => rw [step_answer_none hk]
    | some a =>
        rw [step_answer hk]
        rfl

/-! ## When the counter comes round -/

/-- Names told apart by their length. -/
def host (i : Nat) : Name := List.replicate i 97

theorem length_host (i : Nat) : (host i).length = i := List.length_replicate

/-- The cache holds these hits and no more. -/
structure Holds (c : Cache Unit) (g : Name → Option Nat) (size inserted : Nat) : Prop where
  lookup : ∀ n, c.lookup n = (g n).map (Entry.hit ())
  size : c.size = size
  inserted : c.inserted = inserted

theorem host_ne {i j : Nat} (h : i ≠ j) : host i ≠ host j := by
  intro heq
  have hlen := congrArg List.length heq
  rw [length_host, length_host] at hlen
  exact h hlen

theorem Holds.insert {c : Cache Unit} {g : Name → Option Nat} {size inserted : Nat}
    (h : Holds c g size inserted) (name : Name) (hroom : size < MAX_ENTRIES ∨ (g name).isSome) :
    Holds (c.insert name (.hit ())) (fun n => if n = name then some (inserted + 1) else g n)
      (if (g name).isSome then size else size + 1) (inserted + 1) := by
  have hmem : name ∈ c.byName ↔ (g name).isSome = true := by
    rw [← AList.lookup_isSome, show c.byName.lookup name = _ from h.lookup name,
      Option.isSome_map]
  have hevict : c.evict name = c.byName := by
    unfold Cache.evict
    rw [if_neg]
    rintro ⟨hfull, hout⟩
    rw [h.size] at hfull
    rcases hroom with hroom | hroom
    · omega
    · exact hout (hmem.2 hroom)
  have hsize : c.byName.keys.length = size := h.size
  refine ⟨fun n => ?_, ?_, ?_⟩
  · rw [Cache.lookup_insert, hevict, h.inserted]
    split
    · rfl
    · exact h.lookup n
  · change ((c.evict name).insert name _).keys.length = _
    rw [Map.length_insert, hevict]
    by_cases hin : (g name).isSome = true
    · rw [if_pos hin, Map.length_erase_of_mem (hmem.2 hin), hsize]
    · have hout : name ∉ c.byName := fun hname => hin (hmem.1 hname)
      rw [if_neg hin, Map.length_erase_of_notMem hout, hsize]
  · change c.inserted + 1 = _
    rw [h.inserted]

/-- Lookups of one name that all find the cache empty. -/
theorem run_ask (n : Nat) (s : System Unit) (hempty : s.cache = .empty) (name : Name) :
    (Machine.run step (List.replicate n (.lookup name 0)) s).cache = .empty ∧
      (Machine.run step (List.replicate n (.lookup name 0)) s).asking =
        s.asking ++ List.replicate n ⟨name, 0, 0⟩ := by
  induction n generalizing s with
  | zero => exact ⟨hempty, (List.append_nil _).symm⟩
  | succ n ih =>
      have hask : step (.lookup name 0) s =
          { s with asking := s.asking ++ [⟨name, 0, 0⟩], calls := name :: s.calls } := by
        simp only [step, check, hempty]
        rfl
      obtain ⟨hcache, hasking⟩ := ih (step (.lookup name 0) s) (by rw [hask]; exact hempty)
      rw [List.replicate_succ, Machine.run_cons]
      refine ⟨hcache, hasking.trans ?_⟩
      rw [hask, List.append_assoc, List.singleton_append]
      rfl

/-- They all find it. -/
theorem run_found (n k : Nat) (s : System Unit)
    (hasking : s.asking = List.replicate n ⟨host 1, 0, 0⟩)
    (hholds : Holds s.cache (fun m => if m = host 1 then some k else none) 1 k) :
    (Machine.run step (List.replicate n (.answer 0 (.found ()))) s).asking = [] ∧
      Holds (Machine.run step (List.replicate n (.answer 0 (.found ()))) s).cache
        (fun m => if m = host 1 then some (k + n) else none) 1 (k + n) := by
  induction n generalizing s k with
  | zero => exact ⟨hasking, hholds⟩
  | succ n ih =>
      have hfirst : s.asking[0]? = some ⟨host 1, 0, 0⟩ := by
        rw [hasking]
        rfl
      have hrest : s.asking.eraseIdx 0 = List.replicate n ⟨host 1, 0, 0⟩ := by
        rw [hasking]
        rfl
      have hnext := hholds.insert (host 1) (.inr (by rw [if_pos rfl]; rfl))
      rw [if_pos rfl, Option.isSome_some, if_pos rfl] at hnext
      rw [List.replicate_succ, Machine.run_cons, step_answer hfirst, Nat.add_comm n 1,
        ← Nat.add_assoc]
      refine ih (k + 1) _ hrest ?_
      refine ⟨fun m => ?_, hnext.size, hnext.inserted⟩
      refine (hnext.lookup m).trans (congrArg _ ?_)
      split <;> rfl

/-- What is held once the first name has been put in `k` times and then `i` others once. -/
def held (k i : Nat) (n : Name) : Option Nat :=
  if n = host 1 then some k
  else if n = host n.length ∧ 2 ≤ n.length ∧ n.length ≤ i + 1 then some (k + n.length - 1)
  else none

theorem held_host {k i j : Nat} (hj : j ≠ 1) :
    held k i (host j) = if 2 ≤ j ∧ j ≤ i + 1 then some (k + j - 1) else none := by
  rw [held, if_neg (host_ne hj), length_host]
  simp only [true_and]

/-- One name after the other is looked up and found. -/
def fill (i : Nat) : List (Event Unit) :=
  (List.range i).flatMap fun j => [.lookup (host (j + 2)) 0, .answer 0 (.found ())]

theorem run_fill {k i : Nat} (hi : i < MAX_ENTRIES) (s : System Unit) (hasking : s.asking = [])
    (hholds : Holds s.cache (held k 0) 1 k) :
    (Machine.run step (fill i) s).asking = [] ∧
      Holds (Machine.run step (fill i) s).cache (held k i) (1 + i) (k + i) := by
  induction i with
  | zero => exact ⟨hasking, hholds⟩
  | succ i ih =>
      obtain ⟨hasked, hheld⟩ := ih (Nat.lt_of_succ_lt hi)
      have hfill : fill (i + 1) =
          fill i ++ [.lookup (host (i + 2)) 0, .answer 0 (.found ())] := by
        rw [fill, List.range_succ, List.flatMap_append]
        rfl
      rw [hfill, Machine.run_append]
      generalize Machine.run step (fill i) s = t at hasked hheld
      have hnone : held k i (host (i + 2)) = none := by
        rw [held_host (by omega), if_neg (by omega)]
      have hask : step (.lookup (host (i + 2)) 0) t =
          { t with asking := [⟨host (i + 2), 0, 0⟩], calls := host (i + 2) :: t.calls } := by
        have hlookup := hheld.lookup (host (i + 2))
        rw [hnone] at hlookup
        simp only [step, check, hlookup, hasked]
        rfl
      have hnext := hheld.insert (host (i + 2)) (.inl (by omega))
      rw [hnone] at hnext
      rw [Machine.run_cons, hask, Machine.run_cons, Machine.run_nil, step_answer rfl]
      refine ⟨rfl, fun n => ?_, hnext.size, hnext.inserted⟩
      refine (hnext.lookup n).trans (congrArg _ ?_)
      by_cases hn : n = host (i + 2)
      · subst hn
        rw [if_pos rfl, held_host (by omega), if_pos (by omega)]
        rfl
      · rw [if_neg hn]
        unfold held
        split
        · rfl
        · by_cases hlen : n.length = i + 2
          · have hother : n ≠ host n.length := by rwa [hlen]
            rw [if_neg fun h => hother h.1, if_neg fun h => hother h.1]
          · have hiff : (n = host n.length ∧ 2 ≤ n.length ∧ n.length ≤ i + 1) ↔
                (n = host n.length ∧ 2 ≤ n.length ∧ n.length ≤ i + 1 + 1) := by
              refine and_congr_right fun _ => and_congr_right fun _ => ?_
              omega
            simp only [hiff]

/-- The first of the lookups that ran at once puts the name in, and the rest find it there. -/
theorem run_stampede (n : Nat) (s : System Unit) (hempty : s.cache = .empty)
    (hasking : s.asking = List.replicate (n + 1) ⟨host 1, 0, 0⟩) :
    (Machine.run step (List.replicate (n + 1) (.answer 0 (.found ()))) s).asking = [] ∧
      Holds (Machine.run step (List.replicate (n + 1) (.answer 0 (.found ()))) s).cache
        (held (1 + n) 0) 1 (1 + n) := by
  have hfirst : s.asking[0]? = some ⟨host 1, 0, 0⟩ := by
    rw [hasking]
    rfl
  have hrest : s.asking.eraseIdx 0 = List.replicate n ⟨host 1, 0, 0⟩ := by
    rw [hasking]
    rfl
  have hnone : Holds s.cache (fun _ => none) 0 0 := by
    rw [hempty]
    exact ⟨fun _ => rfl, rfl, rfl⟩
  have hone := hnone.insert (host 1) (.inl (by decide))
  rw [List.replicate_succ, Machine.run_cons, step_answer hfirst]
  obtain ⟨hasked, hfound⟩ := run_found n 1
    (record ⟨host 1, 0, 0⟩ (.found ()) { s with asking := s.asking.eraseIdx 0 }) hrest hone
  refine ⟨hasked, fun m => (hfound.lookup m).trans (congrArg _ ?_), hfound.size, hfound.inserted⟩
  rw [held]
  split
  · rfl
  · rw [if_neg]
    omega

/-- Many lookups of one name at once, the first of others one after the other, and the lookup of
one more. -/
def comeRound (n i : Nat) : List (Event Unit) :=
  List.replicate (n + 1) (.lookup (host 1) 0) ++ List.replicate (n + 1) (.answer 0 (.found ())) ++
    fill i ++ [.lookup (host (i + 2)) 0]

theorem holds_comeRound (n : Nat) {i : Nat} (hi : i < MAX_ENTRIES) :
    (Machine.run step (comeRound n i) .start).asking = [⟨host (i + 2), 0, 0⟩] ∧
      Holds (Machine.run step (comeRound n i) .start).cache (held (1 + n) i) (1 + i)
        (1 + n + i) := by
  obtain ⟨hempty, hasking⟩ := run_ask (n + 1) (.start : System Unit) rfl (host 1)
  obtain ⟨hasked, hfound⟩ := run_stampede n _ hempty hasking
  obtain ⟨hfasked, hfull⟩ := run_fill hi _ hasked hfound
  rw [comeRound, Machine.run_append, Machine.run_append, Machine.run_append]
  generalize Machine.run step (fill i) _ = u at hfasked hfull ⊢
  have hnew : u.cache.lookup (host (i + 2)) = none := by
    rw [hfull.lookup, held_host (by omega), if_neg (by omega)]
    rfl
  have hask : step (.lookup (host (i + 2)) 0) u =
      { u with asking := [⟨host (i + 2), 0, 0⟩], calls := host (i + 2) :: u.calls } := by
    simp only [step, check, hnew, hfasked]
    rfl
  rw [Machine.run_cons, Machine.run_nil, hask]
  exact ⟨rfl, hfull⟩

/-- When the counter has come round, the hit that is evicted is not the oldest. -/
theorem evicted_comeRound {n i : Nat} (hn : n + 2 = U64_RANGE) (hi : i + 1 = MAX_ENTRIES) :
    (Machine.run step (comeRound n i) .start).cache.lookup (host 1) = some (.hit () (n + 1)) ∧
      (Machine.run step (comeRound n i) .start).cache.lookup (host 2) = some (.hit () (n + 2)) ∧
      (Machine.run step (comeRound n i ++ [.answer 0 (.found ())]) .start).cache.lookup (host 1) =
        some (.hit () (n + 1)) ∧
      (Machine.run step (comeRound n i ++ [.answer 0 (.found ())]) .start).cache.lookup (host 2) =
        none := by
  obtain ⟨hasking, hholds⟩ := holds_comeRound n (i := i) (by omega)
  rw [Machine.run_append, Machine.run_cons, Machine.run_nil]
  generalize Machine.run step (comeRound n i) .start = s at hasking hholds ⊢
  have hmax : MAX_ENTRIES = 4096 := rfl
  have hrange : U64_RANGE = 18446744073709551616 := rfl
  have hfirst : s.cache.lookup (host 1) = some (.hit () (n + 1)) := by
    rw [hholds.lookup, held, if_pos rfl, Nat.add_comm]
    rfl
  have hsecond : s.cache.lookup (host 2) = some (.hit () (n + 2)) := by
    rw [hholds.lookup, held_host (by omega), if_pos (by omega)]
    exact congrArg (fun k => some (Entry.hit () k)) (by omega)
  refine ⟨hfirst, hsecond, ?_⟩
  have hnext : s.asking[0]? = some ⟨host (i + 2), 0, 0⟩ := by
    rw [hasking]
    rfl
  rw [step_answer hnext, cache_record_found, Cache.lookup_insert, Cache.lookup_insert,
    if_neg (host_ne (by omega)), if_neg (host_ne (by omega))]
  have hvictim : s.cache.evict (host (i + 2)) = s.cache.byName.erase (host 2) := by
    rcases s.cache.evict_cases (host (i + 2)) with
      ⟨-, hroom | hin⟩ | ⟨victim, e, heq, hlookup, hgone⟩
    · rw [hholds.size] at hroom
      omega
    · have hout := hholds.lookup (host (i + 2))
      rw [held_host (by omega), if_neg (by omega)] at hout
      exact absurd hin (AList.lookup_eq_none.1 hout)
    · rw [hholds.lookup] at hlookup
      obtain ⟨k, hk, rfl⟩ := Option.map_eq_some_iff.1 hlookup
      have hzero : k % U64_RANGE = 0 := by
        have hleast := (hgone.resolve_left (by simp [Entry.isMiss])).least (host 2) _ hsecond
        have hstamp : (Entry.hit () (n + 2)).stamp = 0 := by
          rw [Entry.stamp, Entry.since, hn, Nat.mod_self]
        rw [hstamp] at hleast
        exact Nat.le_zero.1 hleast
      rw [hrange] at hzero
      rw [heq]
      unfold held at hk
      split at hk
      · rw [← Option.some.inj hk] at hzero
        omega
      · split at hk
        · rename_i hplace
          rw [← Option.some.inj hk] at hzero
          have hlen : victim.length = 2 := by omega
          rw [hplace.1, hlen]
        · cases hk
  have hbefore : s.cache.byName.lookup (host 1) = some (.hit () (n + 1)) := hfirst
  rw [hvictim, Map.lookup_erase, Map.lookup_erase, if_neg (host_ne (by decide)), if_pos rfl]
  exact ⟨hbefore, rfl⟩

/-- The bare claim that a hit is evicted oldest first fails once the counter has come round: of
two hits in a full cache, the one put in last goes. -/
theorem newer_hit_evicted : ∃ events : List (Event Unit), ∃ older newer : Name,
    (Machine.run step events .start).cache.lookup older = some (.hit () (U64_RANGE - 1)) ∧
      (Machine.run step events .start).cache.lookup newer = some (.hit () U64_RANGE) ∧
      (Machine.run step (events ++ [.answer 0 (.found ())]) .start).cache.lookup older =
        some (.hit () (U64_RANGE - 1)) ∧
      (Machine.run step (events ++ [.answer 0 (.found ())]) .start).cache.lookup newer = none := by
  obtain ⟨n, hn⟩ : ∃ n, n + 2 = U64_RANGE := ⟨U64_RANGE - 2, by decide⟩
  obtain ⟨i, hi⟩ : ∃ i, i + 1 = MAX_ENTRIES := ⟨MAX_ENTRIES - 1, by decide⟩
  have hevict := evicted_comeRound hn hi
  rw [hn, show n + 1 = U64_RANGE - 1 by omega] at hevict
  exact ⟨comeRound n i, host 1, host 2, hevict⟩

end Clove.Naming
