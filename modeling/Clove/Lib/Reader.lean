import Mathlib.Tactic

/-!
# Byte readers

A reader gives what is left of a stream, byte by byte, and at the end of it says that the stream
is closed, or that it broke.  `readUntil` reads up to a mark and nothing after it
(`readUntil_append`), `readExact` reads a number of bytes, and `readToEnd` reads what is left.
None of them holds more than it was told to.
-/

namespace Reader

variable {α : Type _}

/-- Why nothing was read. -/
inductive Fault where
  | tooLong
  | closed
  | broken
deriving Repr, DecidableEq

/-- What a reader says at the end of the stream. -/
def atEnd (breaks : Bool) : Fault := if breaks then .broken else .closed

/-- Read a number of bytes. -/
def readExact (breaks : Bool) (n : Nat) (s : List α) : Except Fault (List α × List α) :=
  if n ≤ s.length then .ok (s.take n, s.drop n) else .error (atEnd breaks)

/-- Read to the end of the stream, some bytes at a time, unless there are too many. -/
def readToEnd (breaks : Bool) (size cap : Nat) (held s : List α) : Except Fault (List α) :=
  if s = [] ∨ size = 0 then if breaks then .error .broken else .ok held
  else if cap < held.length + (s.take size).length then .error .tooLong
  else readToEnd breaks size cap (held ++ s.take size) (s.drop size)
termination_by s.length
decreasing_by
  rename_i h _
  have := List.length_pos_iff.2 fun hs => h (.inl hs)
  have := Nat.pos_of_ne_zero fun hs => h (.inr hs)
  rw [List.length_drop]
  omega

theorem readExact_append (breaks : Bool) (data s : List α) :
    readExact breaks data.length (data ++ s) = .ok (data, s) := by
  simp [readExact]

theorem readExact_length {breaks : Bool} {n : Nat} {s data rest : List α}
    (h : readExact breaks n s = .ok (data, rest)) : data.length = n ∧ rest.length ≤ s.length := by
  unfold readExact at h
  split at h
  · rename_i hle
    obtain ⟨rfl, rfl⟩ := Prod.mk.inj (Except.ok.inj h)
    simp [hle]
  · cases h

/-- No more is held than was allowed. -/
theorem readToEnd_length {breaks : Bool} {size cap : Nat} {held s text : List α}
    (hheld : held.length ≤ cap) (h : readToEnd breaks size cap held s = .ok text) :
    text.length ≤ cap := by
  fun_induction readToEnd breaks size cap held s with
  | case1 held s hend => cases h
  | case2 held s hend =>
      obtain rfl := Except.ok.inj h
      exact hheld
  | case3 held s hend hlong => cases h
  | case4 held s hend hlong ih =>
      refine ih ?_ h
      rw [List.length_append]
      omega

/-! ## Up to a mark -/

variable [DecidableEq α]

/-- Read one byte after another until they end in the mark, unless there are too many: what stands
before the mark, and what is left of the stream after it. -/
def readUntil (breaks : Bool) (mark : List α) (cap : Nat) :
    List α → List α → Except Fault (List α × List α)
  | held, [] => .error (if cap < held.length then .tooLong else atEnd breaks)
  | held, b :: s =>
      if cap < held.length then .error .tooLong
      else if mark <:+ held ++ [b] then
        .ok ((held ++ [b]).take (held.length + 1 - mark.length), s)
      else readUntil breaks mark cap (held ++ [b]) s

/-- Something is read. -/
theorem readUntil_lt {breaks : Bool} {mark : List α} {cap : Nat} {held s text rest : List α}
    (h : readUntil breaks mark cap held s = .ok (text, rest)) : rest.length < s.length := by
  induction s generalizing held with
  | nil => cases h
  | cons b s ih =>
      rw [readUntil] at h
      split at h
      · cases h
      · split at h
        · obtain ⟨-, rfl⟩ := Prod.mk.inj (Except.ok.inj h)
          simp
        · exact Nat.lt_succ_of_lt (ih h)

/-- Where the mark ends, when it does not end before. -/
private theorem readUntil_held {breaks : Bool} {mark text : List α} {cap : Nat}
    (hnot : ¬ mark <:+: (text ++ mark).dropLast) (hcap : (text ++ mark).length ≤ cap + 1)
    (rest : List α) {held s : List α} (hs : s ≠ []) (heq : held ++ s = text ++ mark) :
    readUntil breaks mark cap held (s ++ rest) = .ok (text, rest) := by
  induction s generalizing held with
  | nil => exact absurd rfl hs
  | cons b s ih =>
      have hlength := congrArg List.length heq
      have hsplit : held ++ [b] ++ s = text ++ mark := by rw [← heq, List.append_assoc]; rfl
      rw [List.length_append, List.length_cons] at hlength
      rw [List.cons_append, readUntil, if_neg (by omega)]
      by_cases hlast : s = []
      · subst hlast
        rw [List.append_nil] at hsplit
        rw [if_pos (hsplit ▸ List.suffix_append text mark), hsplit]
        have htake : held.length + 1 - mark.length = text.length := by
          have := congrArg List.length hsplit
          simp only [List.length_append, List.length_singleton] at this
          omega
        rw [htake, List.take_left]
        rfl
      · have hearly : ¬ mark <:+ held ++ [b] := by
          intro hmark
          refine hnot (hmark.isInfix.trans ?_)
          rw [← hsplit, List.dropLast_append_of_ne_nil hlast]
          exact (List.prefix_append _ _).isInfix
        rw [if_neg hearly]
        exact ih hlast hsplit

/-- What stands before the first mark is read, and nothing after it is. -/
theorem readUntil_append {breaks : Bool} {mark text : List α} {cap : Nat} (hmark : mark ≠ [])
    (hnot : ¬ mark <:+: (text ++ mark).dropLast) (hcap : (text ++ mark).length ≤ cap + 1)
    (rest : List α) : readUntil breaks mark cap [] (text ++ mark ++ rest) = .ok (text, rest) :=
  readUntil_held hnot hcap rest (fun h => hmark (List.append_eq_nil_iff.1 h).2) rfl

private theorem of_readUntil_held {breaks : Bool} {mark : List α} {cap : Nat}
    {held s text rest : List α} (hheld : ¬ mark <:+: held)
    (h : readUntil breaks mark cap held s = .ok (text, rest)) :
    held ++ s = text ++ mark ++ rest ∧ ¬ mark <:+: (text ++ mark).dropLast ∧
      (text ++ mark).length ≤ cap + 1 := by
  induction s generalizing held with
  | nil => cases h
  | cons b s ih =>
      rw [readUntil] at h
      split at h
      · cases h
      · rename_i hcap
        split at h
        · rename_i hmark
          obtain ⟨rfl, rfl⟩ := Prod.mk.inj (Except.ok.inj h)
          obtain ⟨before, hbefore⟩ := hmark
          have hlength : before.length = held.length + 1 - mark.length := by
            have := congrArg List.length hbefore
            simp only [List.length_append, List.length_singleton] at this
            omega
          have htake : (held ++ [b]).take (held.length + 1 - mark.length) = before := by
            rw [← hlength, ← hbefore, List.take_left]
          rw [htake, hbefore]
          refine ⟨by simp, ?_, ?_⟩
          · rwa [List.dropLast_concat]
          · rw [List.length_append, List.length_singleton]
            omega
        · rename_i hmark
          obtain ⟨hsplit, hrest⟩ := ih (fun hin => (List.infix_concat_iff.1 hin).elim hmark hheld) h
          exact ⟨by rw [← hsplit, List.append_assoc]; rfl, hrest⟩

/-- What is read stands before the first mark, and what is left is what stands after it. -/
theorem of_readUntil {breaks : Bool} {mark text s rest : List α} {cap : Nat} (hmark : mark ≠ [])
    (h : readUntil breaks mark cap [] s = .ok (text, rest)) :
    s = text ++ mark ++ rest ∧ ¬ mark <:+: (text ++ mark).dropLast ∧
      (text ++ mark).length ≤ cap + 1 :=
  of_readUntil_held (fun hin => hmark (List.infix_nil.1 hin)) h

end Reader
