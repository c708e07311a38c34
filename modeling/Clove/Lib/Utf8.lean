import Mathlib.Tactic

/-!
# UTF-8

Whether a byte string is the encoding of a text.  The reader keeps the ranges the next
bytes must fall in: none between characters, up to three after a leading byte.  `lossy` makes a
text of any byte string, and `chars` cuts a text into characters (`isChar_of_mem_chars`,
`chars_flatten`), each the one with its code point (`encode_codePoint`).
-/

namespace Utf8

/-- The range of a continuation byte. -/
def tail : UInt8 × UInt8 := (128, 191)

/-- The ranges a leading byte asks of the bytes after it, or nothing if it leads no
character. -/
def owed (b : UInt8) : Option (List (UInt8 × UInt8)) :=
  if b < 128 then some []
  else if 194 ≤ b ∧ b ≤ 223 then some [tail]
  else if b = 224 then some [(160, 191), tail]
  else if b = 237 then some [(128, 159), tail]
  else if 225 ≤ b ∧ b ≤ 239 then some [tail, tail]
  else if b = 240 then some [(144, 191), tail, tail]
  else if 241 ≤ b ∧ b ≤ 243 then some [tail, tail, tail]
  else if b = 244 then some [(128, 143), tail, tail]
  else none

/-- Whether the bytes complete the owed ranges and are text after that. -/
def validFrom : List (UInt8 × UInt8) → List UInt8 → Bool
  | [], [] => true
  | _ :: _, [] => false
  | [], b :: bs =>
      match owed b with
      | some ranges => validFrom ranges bs
      | none => false
  | (lo, hi) :: ranges, b :: bs => lo ≤ b && b ≤ hi && validFrom ranges bs

/-- Whether the bytes are UTF-8. -/
def valid (bs : List UInt8) : Bool := validFrom [] bs

/-- ASCII is text. -/
theorem valid_of_ascii {bs : List UInt8} (h : ∀ b ∈ bs, b < 128) : valid bs = true := by
  unfold valid
  induction bs with
  | nil => rfl
  | cons b bs ih =>
      have hb : b < 128 := h b List.mem_cons_self
      simp only [validFrom, owed, hb, if_true]
      exact ih fun c hc => h c (List.mem_cons_of_mem _ hc)

theorem owed_leading {b : UInt8} {ranges : List (UInt8 × UInt8)} (h : owed b = some ranges) :
    ∀ r ∈ ranges, 128 ≤ r.1 := by
  unfold owed at h
  repeat' split at h
  all_goals cases h
  all_goals simp [tail]

theorem validFrom_append_ascii {s : List UInt8} (hs : ∀ b ∈ s, b < 128) (bs : List UInt8)
    {ranges : List (UInt8 × UInt8)} (hranges : ∀ r ∈ ranges, 128 ≤ r.1) :
    validFrom ranges (bs ++ s) = validFrom ranges bs := by
  induction bs generalizing ranges with
  | nil =>
      rw [List.nil_append]
      cases ranges with
      | nil => exact valid_of_ascii hs
      | cons r ranges =>
          cases s with
          | nil => rfl
          | cons b s =>
              have hb : b < 128 := hs b List.mem_cons_self
              have hlo : 128 ≤ r.1 := hranges r List.mem_cons_self
              have hout : ¬ r.1 ≤ b := UInt8.not_le.2 (UInt8.lt_of_lt_of_le hb hlo)
              simp [validFrom, hout]
  | cons c bs ih =>
      rw [List.cons_append]
      cases ranges with
      | nil =>
          simp only [validFrom]
          split
          · rename_i ranges howed
            exact ih (owed_leading howed)
          · rfl
      | cons r ranges =>
          simp only [validFrom, ih fun r hr => hranges r (List.mem_cons_of_mem _ hr)]

/-- Whether a text is one does not depend on ASCII after it. -/
theorem valid_append_ascii {s : List UInt8} (hs : ∀ b ∈ s, b < 128) (bs : List UInt8) :
    valid (bs ++ s) = valid bs :=
  validFrom_append_ascii hs bs fun _ hr => absurd hr List.not_mem_nil

/-- Text after text is text. -/
theorem validFrom_append {s : List UInt8} (bs : List UInt8) {ranges : List (UInt8 × UInt8)}
    (h : validFrom ranges s = true) : validFrom ranges (s ++ bs) = valid bs := by
  induction s generalizing ranges with
  | nil =>
      cases ranges with
      | nil => rfl
      | cons r ranges => cases h
  | cons b s ih =>
      rw [List.cons_append]
      cases ranges with
      | nil =>
          simp only [validFrom] at h ⊢
          split at h
          · exact ih h
          · cases h
      | cons r ranges =>
          simp only [validFrom, Bool.and_eq_true] at h ⊢
          rw [h.1.1, h.1.2, ih h.2]
          rfl

theorem valid_append {s bs : List UInt8} (hs : valid s = true) (hbs : valid bs = true) :
    valid (s ++ bs) = true := (validFrom_append bs hs).trans hbs

/-- The character that stands for bytes that are not text. -/
def replacement : List UInt8 := [239, 191, 189]

/-- What the lossy reader holds: the bytes of a character it has begun, and the ranges of those
still owed. -/
abbrev Partial := List UInt8 × List (UInt8 × UInt8)

/-- A byte that begins something: what is put out at once, and what is held. -/
def enter (b : UInt8) : List UInt8 × Partial :=
  match owed b with
  | some [] => ([b], [], [])
  | some ranges => ([], [b], ranges)
  | none => (replacement, [], [])

/-- The next byte.  One that does not continue the character begun has it replaced, and begins
something itself. -/
def lossyStep (held : Partial) (b : UInt8) : List UInt8 × Partial :=
  match held.2 with
  | [] => enter b
  | (lo, hi) :: ranges =>
      if lo ≤ b ∧ b ≤ hi then
        if ranges = [] then (held.1 ++ [b], [], []) else ([], held.1 ++ [b], ranges)
      else (replacement ++ (enter b).1, (enter b).2)

def lossyFrom (held : Partial) : List UInt8 → List UInt8
  | [] => if held.2 = [] then [] else replacement
  | b :: bs => (lossyStep held b).1 ++ lossyFrom (lossyStep held b).2 bs

/-- The bytes as text, each longest part that is none replaced. -/
def lossy (bs : List UInt8) : List UInt8 := lossyFrom ([], []) bs

/-- Whether bytes begin inside a character. -/
def continues : List UInt8 → Bool
  | b :: _ => tail.1 ≤ b && b ≤ tail.2
  | [] => false

/-- The characters of a text. -/
def chars : List UInt8 → List (List UInt8)
  | [] => []
  | b :: bs =>
      match chars bs with
      | [] => [[b]]
      | c :: cs => if continues c then (b :: c) :: cs else [b] :: c :: cs

theorem flatten_chars (bs : List UInt8) : (chars bs).flatten = bs := by
  induction bs with
  | nil => rfl
  | cons b bs ih =>
      rw [chars]
      split
      · rename_i hchars
        rw [hchars] at ih
        simpa using ih
      · rename_i c cs hchars
        rw [hchars] at ih
        split
        · simpa using ih
        · simpa using ih

/-- A text does not begin inside a character. -/
theorem continues_of_valid {bs : List UInt8} (h : valid bs = true) : continues bs = false := by
  cases bs with
  | nil => rfl
  | cons b bs =>
      by_contra hin
      rw [Bool.not_eq_false, continues, Bool.and_eq_true] at hin
      have hrange : 128 ≤ b ∧ b ≤ 191 := ⟨of_decide_eq_true hin.1, of_decide_eq_true hin.2⟩
      have hnone : owed b = none := by
        have hall : ∀ k : Fin 256, 128 ≤ UInt8.ofFin k ∧ UInt8.ofFin k ≤ 191 →
            owed (UInt8.ofFin k) = none := by
          decide +kernel
        exact hall b.toFin hrange
      simp [valid, validFrom, hnone] at h

/-- The first character begins where the text does. -/
theorem head_chars {bs c : List UInt8} {cs : List (List UInt8)} (h : chars bs = c :: cs) :
    continues c = continues bs := by
  cases bs with
  | nil => cases h
  | cons b bs =>
      rw [chars] at h
      split at h
      · obtain ⟨rfl, -⟩ := List.cons.inj h
        rfl
      · split at h
        · obtain ⟨rfl, -⟩ := List.cons.inj h
          rfl
        · obtain ⟨rfl, -⟩ := List.cons.inj h
          rfl

/-- A byte before a text is a character of its own. -/
theorem chars_cons {bs : List UInt8} (h : valid bs = true) (b : UInt8) :
    chars (b :: bs) = [b] :: chars bs := by
  rw [chars]
  split
  · rename_i hchars
    rw [hchars]
  · rename_i c cs hchars
    rw [head_chars hchars, continues_of_valid h, hchars]
    rfl

/-- Every byte of ASCII is a character. -/
theorem chars_of_ascii {bs : List UInt8} (h : ∀ b ∈ bs, b < 128) :
    chars bs = bs.map fun b => [b] := by
  induction bs with
  | nil => rfl
  | cons b bs ih =>
      have hbs : ∀ c ∈ bs, c < 128 := fun c hc => h c (List.mem_cons_of_mem _ hc)
      rw [chars_cons (valid_of_ascii hbs), ih hbs]
      rfl

/-! ## Characters -/

/-- The bytes of one character: a leading byte, and those it asks for. -/
inductive IsChar : List UInt8 → Prop where
  | intro {b : UInt8} {bs : List UInt8} {ranges : List (UInt8 × UInt8)} (hb : owed b = some ranges)
      (hbs : List.Forall₂ (fun c r => r.1 ≤ c ∧ c ≤ r.2) bs ranges) : IsChar (b :: bs)

theorem isChar_of_ascii {b : UInt8} (h : b < 128) : IsChar [b] :=
  .intro (show owed b = some [] from if_pos h) .nil

/-- What completes the owed ranges, and the text after that. -/
theorem validFrom_split {ranges : List (UInt8 × UInt8)} {s : List UInt8}
    (h : validFrom ranges s = true) : ∃ bs rest, s = bs ++ rest ∧
      List.Forall₂ (fun c r => r.1 ≤ c ∧ c ≤ r.2) bs ranges ∧ valid rest = true := by
  induction ranges generalizing s with
  | nil => exact ⟨[], s, rfl, .nil, h⟩
  | cons r ranges ih =>
      cases s with
      | nil => cases h
      | cons b s =>
          simp only [validFrom, Bool.and_eq_true, decide_eq_true_eq] at h
          obtain ⟨bs, rest, rfl, hbs, hrest⟩ := ih h.2
          exact ⟨b :: bs, rest, rfl, .cons h.1 hbs, hrest⟩

theorem validFrom_append_of_fits {ranges : List (UInt8 × UInt8)} {bs : List UInt8}
    (h : List.Forall₂ (fun c r => r.1 ≤ c ∧ c ≤ r.2) bs ranges) (rest : List UInt8) :
    validFrom ranges (bs ++ rest) = valid rest := by
  induction h with
  | nil => rfl
  | cons hb _ ih => simp [validFrom, hb, ih]

/-- A character before a text makes a text. -/
theorem IsChar.valid_append {c : List UInt8} (h : IsChar c) (rest : List UInt8) :
    valid (c ++ rest) = valid rest := by
  cases h with
  | intro hb hbs =>
      rw [List.cons_append, valid, validFrom, hb]
      exact validFrom_append_of_fits hbs rest

/-- A text is empty, or a character before a text. -/
theorem valid_cases {s : List UInt8} (h : valid s = true) :
    s = [] ∨ ∃ c rest, s = c ++ rest ∧ IsChar c ∧ valid rest = true := by
  cases s with
  | nil => exact .inl rfl
  | cons b s =>
      rw [valid, validFrom] at h
      split at h
      · rename_i ranges hb
        obtain ⟨bs, rest, rfl, hbs, hrest⟩ := validFrom_split h
        exact .inr ⟨b :: bs, rest, rfl, .intro hb hbs, hrest⟩
      · cases h

theorem owed_tail {b : UInt8} {ranges : List (UInt8 × UInt8)} (h : owed b = some ranges) :
    ∀ r ∈ ranges, tail.1 ≤ r.1 ∧ r.2 ≤ tail.2 := by
  unfold owed at h
  repeat' split at h
  all_goals cases h
  all_goals simp [tail]

/-- The bytes after a leading byte are no leading bytes. -/
theorem continues_of_fits {bs : List UInt8} {ranges : List (UInt8 × UInt8)}
    (h : List.Forall₂ (fun c r => r.1 ≤ c ∧ c ≤ r.2) bs ranges)
    (hranges : ∀ r ∈ ranges, tail.1 ≤ r.1 ∧ r.2 ≤ tail.2) :
    ∀ b ∈ bs, tail.1 ≤ b ∧ b ≤ tail.2 := by
  induction h with
  | nil => simp
  | cons hb _ ih =>
      have hr := hranges _ List.mem_cons_self
      refine List.forall_mem_cons.2 ⟨⟨UInt8.le_trans hr.1 hb.1, UInt8.le_trans hb.2 hr.2⟩,
        ih fun r hmem => ?_⟩
      exact hranges r (List.mem_cons_of_mem _ hmem)

/-- Bytes that lead nothing are held together. -/
theorem chars_of_continues {bs rest : List UInt8} (hbs : ∀ b ∈ bs, tail.1 ≤ b ∧ b ≤ tail.2)
    (hne : bs ≠ []) (hrest : valid rest = true) : chars (bs ++ rest) = bs :: chars rest := by
  induction bs with
  | nil => exact absurd rfl hne
  | cons b bs ih =>
      cases bs with
      | nil => exact chars_cons hrest b
      | cons b' bs =>
          obtain ⟨-, hrestBytes⟩ := List.forall_mem_cons.1 hbs
          have hb' := hrestBytes b' List.mem_cons_self
          have htail := ih hrestBytes (List.cons_ne_nil _ _)
          rw [List.cons_append, chars, htail]
          simp [continues, hb'.1, hb'.2]

/-- The first character of a text. -/
theorem IsChar.chars_append {c rest : List UInt8} (h : IsChar c) (hrest : valid rest = true) :
    chars (c ++ rest) = c :: chars rest := by
  cases h with
  | @intro b bs ranges hb hbs =>
      have hin := continues_of_fits hbs (owed_tail hb)
      cases bs with
      | nil => exact chars_cons hrest b
      | cons b' bs =>
          have hb' := hin b' List.mem_cons_self
          rw [List.cons_append, chars, chars_of_continues hin (List.cons_ne_nil _ _) hrest]
          simp [continues, hb'.1, hb'.2]

/-- A text is made of characters. -/
theorem isChar_of_mem_chars {s : List UInt8} (h : valid s = true) : ∀ c ∈ chars s, IsChar c := by
  induction hlength : s.length using Nat.strong_induction_on generalizing s with
  | _ n ih =>
      subst hlength
      rcases valid_cases h with rfl | ⟨c, rest, rfl, hc, hrest⟩
      · exact fun c hc => absurd hc List.not_mem_nil
      · rw [hc.chars_append hrest]
        refine List.forall_mem_cons.2 ⟨hc, ih rest.length ?_ hrest rfl⟩
        cases hc with
        | intro hb hbs => simp only [List.length_append, List.length_cons]; omega

/-- Characters make a text, and are its characters. -/
theorem chars_flatten {cs : List (List UInt8)} (h : ∀ c ∈ cs, IsChar c) :
    valid cs.flatten = true ∧ chars cs.flatten = cs := by
  induction cs with
  | nil => exact ⟨rfl, rfl⟩
  | cons c cs ih =>
      obtain ⟨hc, hcs⟩ := List.forall_mem_cons.1 h
      obtain ⟨hvalid, hchars⟩ := ih hcs
      rw [List.flatten_cons, hc.valid_append, hc.chars_append hvalid, hchars]
      exact ⟨hvalid, rfl⟩

theorem chars_append {s t : List UInt8} (hs : valid s = true) (ht : valid t = true) :
    chars (s ++ t) = chars s ++ chars t := by
  have hall : ∀ c ∈ chars s ++ chars t, IsChar c := fun c hc =>
    (List.mem_append.1 hc).elim (isChar_of_mem_chars hs c) (isChar_of_mem_chars ht c)
  have hchars := (chars_flatten hall).2
  rwa [List.flatten_append, flatten_chars, flatten_chars] at hchars

/-- A character of ASCII, or none of its bytes is. -/
theorem IsChar.ascii_or {c : List UInt8} (h : IsChar c) :
    (∃ b, c = [b] ∧ b < 128) ∨ ∀ b ∈ c, 128 ≤ b := by
  cases h with
  | @intro b bs ranges hb hbs =>
      by_cases hascii : b < 128
      · rw [owed, if_pos hascii] at hb
        obtain rfl := Option.some.inj hb
        cases hbs
        exact .inl ⟨b, rfl, hascii⟩
      · refine .inr (List.forall_mem_cons.2 ⟨UInt8.not_lt.1 hascii, fun c hc => ?_⟩)
        exact (continues_of_fits hbs (owed_tail hb) c hc).1

/-! ## Code points -/

/-- The code point of a character. -/
def codePoint : List UInt8 → Nat
  | [] => 0
  | b :: bs =>
      let lead := if b < 128 then b else if b < 224 then b - 192 else if b < 240 then b - 224 else b - 240
      bs.foldl (fun n c => n * 64 + (c - 128).toNat) lead.toNat

/-- The bytes of the character with a code point. -/
def encode (n : Nat) : List UInt8 :=
  if n < 128 then [UInt8.ofNat n]
  else if n < 2048 then [UInt8.ofNat (192 + n / 64), UInt8.ofNat (128 + n % 64)]
  else if n < 65536 then
    [UInt8.ofNat (224 + n / 4096), UInt8.ofNat (128 + n / 64 % 64), UInt8.ofNat (128 + n % 64)]
  else
    [UInt8.ofNat (240 + n / 262144), UInt8.ofNat (128 + n / 4096 % 64),
      UInt8.ofNat (128 + n / 64 % 64), UInt8.ofNat (128 + n % 64)]

/-- What a leading byte asks for, by its kind. -/
theorem owed_cases {b : UInt8} {ranges : List (UInt8 × UInt8)} (h : owed b = some ranges) :
    b.toNat < 128 ∧ ranges = [] ∨
    194 ≤ b.toNat ∧ b.toNat < 224 ∧ ranges = [tail] ∨
    224 ≤ b.toNat ∧ b.toNat < 240 ∧
      (∃ r, ranges = [r, tail] ∧ 128 ≤ r.1.toNat ∧ r.2.toNat < 192 ∧
        (b.toNat = 224 → 160 ≤ r.1.toNat)) ∨
    240 ≤ b.toNat ∧ b.toNat < 245 ∧
      ∃ r, ranges = [r, tail, tail] ∧ 128 ≤ r.1.toNat ∧ r.2.toNat < 192 ∧
        (b.toNat = 240 → 144 ≤ r.1.toNat) := by
  unfold owed at h
  simp only [UInt8.lt_iff_toNat_lt, UInt8.le_iff_toNat_le, ← UInt8.toNat_inj] at h
  simp only [show (128 : UInt8).toNat = 128 from rfl, show (194 : UInt8).toNat = 194 from rfl,
    show (223 : UInt8).toNat = 223 from rfl, show (224 : UInt8).toNat = 224 from rfl,
    show (237 : UInt8).toNat = 237 from rfl, show (225 : UInt8).toNat = 225 from rfl,
    show (239 : UInt8).toNat = 239 from rfl, show (240 : UInt8).toNat = 240 from rfl,
    show (241 : UInt8).toNat = 241 from rfl, show (243 : UInt8).toNat = 243 from rfl,
    show (244 : UInt8).toNat = 244 from rfl] at h
  split at h
  · exact .inl ⟨‹_›, (Option.some.inj h).symm⟩
  · split at h
    · exact .inr (.inl ⟨by omega, by omega, (Option.some.inj h).symm⟩)
    · split at h
      · refine .inr (.inr (.inl ⟨by omega, by omega, (160, 191), (Option.some.inj h).symm, ?_⟩))
        exact ⟨by decide, by decide, fun _ => by decide⟩
      · split at h
        · refine .inr (.inr (.inl ⟨by omega, by omega, (128, 159), (Option.some.inj h).symm, ?_⟩))
          exact ⟨by decide, by decide, fun heq => by omega⟩
        · split at h
          · refine .inr (.inr (.inl ⟨by omega, by omega, tail, (Option.some.inj h).symm, ?_⟩))
            exact ⟨by decide, by decide, fun heq => by omega⟩
          · split at h
            · refine .inr (.inr (.inr ⟨by omega, by omega, (144, 191), ?_, ?_⟩))
              · exact (Option.some.inj h).symm
              · exact ⟨by decide, by decide, fun _ => by decide⟩
            · split at h
              · refine .inr (.inr (.inr ⟨by omega, by omega, tail, (Option.some.inj h).symm, ?_⟩))
                exact ⟨by decide, by decide, fun heq => by omega⟩
              · split at h
                · refine .inr (.inr (.inr ⟨by omega, by omega, (128, 143), ?_, ?_⟩))
                  · exact (Option.some.inj h).symm
                  · exact ⟨by decide, by decide, fun heq => by omega⟩
                · cases h

theorem ofNat_eq {b : UInt8} {n : Nat} (h : n = b.toNat) : UInt8.ofNat n = b := by
  rw [h, UInt8.ofNat_toNat]

theorem toNat_sub {b : UInt8} {k : Nat} (hk : k < 256) (h : k ≤ b.toNat) :
    (b - UInt8.ofNat k).toNat = b.toNat - k := by
  have hof : (UInt8.ofNat k).toNat = k := UInt8.toNat_ofNat_of_lt' hk
  rw [UInt8.toNat_sub_of_le _ _ (by rw [UInt8.le_iff_toNat_le, hof]; exact h), hof]

/-- The character with a code point is the character whose code point it is. -/
theorem encode_codePoint {c : List UInt8} (h : IsChar c) : encode (codePoint c) = c := by
  cases h with
  | @intro b bs ranges hb hbs =>
      have htail : ∀ {c : UInt8}, tail.1 ≤ c ∧ c ≤ tail.2 → 128 ≤ c.toNat ∧ c.toNat < 192 :=
        fun h => ⟨UInt8.le_iff_toNat_le.1 h.1, Nat.lt_succ_of_le (UInt8.le_iff_toNat_le.1 h.2)⟩
      have hlow : ∀ {c : UInt8}, 128 ≤ c.toNat → (c - 128).toNat = c.toNat - 128 :=
        fun h => toNat_sub (by decide) h
      have hnot : ∀ {k : UInt8}, k.toNat ≤ b.toNat → ¬ b < k :=
        fun h => UInt8.not_lt.2 (UInt8.le_iff_toNat_le.2 h)
      rcases owed_cases hb with ⟨hlt, rfl⟩ | ⟨hge, hlt, rfl⟩ |
        ⟨hge, hlt, r, rfl, hlo, hhi, hfirst⟩ | ⟨hge, hlt, r, rfl, hlo, hhi, hfirst⟩
      · cases hbs
        have hlead : b < 128 := UInt8.lt_iff_toNat_lt.2 hlt
        rw [codePoint, if_pos hlead, List.foldl_nil, encode, if_pos hlt, UInt8.ofNat_toNat]
      · obtain ⟨c₁, _, hc₁, hnil, rfl⟩ := List.forall₂_cons_right_iff.1 hbs
        cases hnil
        have hone := htail hc₁
        have hpoint : codePoint [b, c₁] = (b.toNat - 192) * 64 + (c₁.toNat - 128) := by
          rw [codePoint, if_neg (hnot (k := 128) (by simpa using by omega)),
            if_pos (UInt8.lt_iff_toNat_lt.2 hlt), List.foldl_cons, List.foldl_nil, hlow hone.1,
            show (192 : UInt8) = UInt8.ofNat 192 from rfl, toNat_sub (by decide) (by omega)]
        rw [hpoint, encode, if_neg (by omega), if_pos (by omega), ofNat_eq (b := b) (by omega),
          ofNat_eq (b := c₁) (by omega)]
      · obtain ⟨c₁, _, hc₁, hrest, rfl⟩ := List.forall₂_cons_right_iff.1 hbs
        obtain ⟨c₂, _, hc₂, hnil, rfl⟩ := List.forall₂_cons_right_iff.1 hrest
        cases hnil
        have hone : r.1.toNat ≤ c₁.toNat ∧ c₁.toNat ≤ r.2.toNat :=
          ⟨UInt8.le_iff_toNat_le.1 hc₁.1, UInt8.le_iff_toNat_le.1 hc₁.2⟩
        have htwo := htail hc₂
        have hpoint : codePoint [b, c₁, c₂] =
            ((b.toNat - 224) * 64 + (c₁.toNat - 128)) * 64 + (c₂.toNat - 128) := by
          rw [codePoint, if_neg (hnot (k := 128) (by simpa using by omega)),
            if_neg (hnot (k := 224) (by simpa using by omega)), if_pos (UInt8.lt_iff_toNat_lt.2 hlt), List.foldl_cons, List.foldl_cons, List.foldl_nil,
            hlow (by omega), hlow htwo.1, show (224 : UInt8) = UInt8.ofNat 224 from rfl,
            toNat_sub (by decide) hge]
        rw [hpoint, encode, if_neg (by omega), if_neg (by omega), if_pos (by omega),
          ofNat_eq (b := b) (by omega), ofNat_eq (b := c₁) (by omega),
          ofNat_eq (b := c₂) (by omega)]
      · obtain ⟨c₁, _, hc₁, hrest, rfl⟩ := List.forall₂_cons_right_iff.1 hbs
        obtain ⟨c₂, _, hc₂, hlast, rfl⟩ := List.forall₂_cons_right_iff.1 hrest
        obtain ⟨c₃, _, hc₃, hnil, rfl⟩ := List.forall₂_cons_right_iff.1 hlast
        cases hnil
        have hone : r.1.toNat ≤ c₁.toNat ∧ c₁.toNat ≤ r.2.toNat :=
          ⟨UInt8.le_iff_toNat_le.1 hc₁.1, UInt8.le_iff_toNat_le.1 hc₁.2⟩
        have htwo := htail hc₂
        have hthree := htail hc₃
        have hpoint : codePoint [b, c₁, c₂, c₃] =
            (((b.toNat - 240) * 64 + (c₁.toNat - 128)) * 64 + (c₂.toNat - 128)) * 64 +
              (c₃.toNat - 128) := by
          rw [codePoint, if_neg (hnot (k := 128) (by simpa using by omega)),
            if_neg (hnot (k := 224) (by simpa using by omega)),
            if_neg (hnot (k := 240) (by simpa using by omega)), List.foldl_cons, List.foldl_cons,
            List.foldl_cons, List.foldl_nil, hlow (by omega), hlow htwo.1, hlow hthree.1,
            show (240 : UInt8) = UInt8.ofNat 240 from rfl, toNat_sub (by decide) hge]
        rw [hpoint, encode, if_neg (by omega), if_neg (by omega), if_neg (by omega),
          ofNat_eq (b := b) (by omega), ofNat_eq (b := c₁) (by omega),
          ofNat_eq (b := c₂) (by omega), ofNat_eq (b := c₃) (by omega)]

/-- The bytes of a plain text. -/
def ascii (s : String) : List UInt8 := s.toList.map fun c => UInt8.ofNat c.toNat

end Utf8
