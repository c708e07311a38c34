import Clove.BencodeGrammar

/-!
# The node budget

The decoder counts the values it has built against `nodeBudget` and refuses the input that has too
many.  No input has.  At every point of the descent the bytes consumed pay two for each value that
is closed and one for each that is still open (`Paid`), so the budget is the bound that the grammar
already has (`node_budget_suffices`).
-/

namespace Clove.Bencode

open Decimal (digits isDigit)

/-- What a reading ends in: a good result, or an error that is not about the budget. -/
def Ends {α : Type} (P : α → Prop) : Except Error α → Prop
  | .ok a => P a
  | .error e => e.kind ≠ .tooManyNodes

theorem ends_error {α : Type} {P : α → Prop} {offset : Nat} {kind : ErrorKind}
    (h : kind ≠ .tooManyNodes) : Ends P (.error ⟨offset, kind⟩) := h

theorem Ends.bind {α β : Type} {P : α → Prop} {Q : β → Prop} {x : Except Error α}
    {f : α → Except Error β} (hx : Ends P x) (hf : ∀ a, P a → Ends Q (f a)) : Ends Q (x >>= f) := by
  cases x with
  | ok a => exact hf a hx
  | error e => exact hx

theorem Ends.strengthen {α : Type} {P Q : α → Prop} {x : Except Error α} (hx : Ends P x)
    (h : ∀ a, x = .ok a → Q a) : Ends Q x := by
  cases x with
  | ok a => exact h a rfl
  | error e => exact hx

/-- The good result of a reading that ends well. -/
theorem Ends.of_ok {α : Type} {P : α → Prop} {x : Except Error α} (h : Ends P x) {a : α}
    (ha : x = .ok a) : P a := by
  rw [ha] at h
  exact h

/-- The error of a reading is not about the budget. -/
theorem Ends.error_ne {α : Type} {P : α → Prop} {x : Except Error α} (hx : Ends P x) (offset : Nat) :
    x ≠ .error ⟨offset, .tooManyNodes⟩ := by
  rintro rfl
  exact hx rfl

/-! ## Leaves -/

theorem ends_peek (d : Decoder) : Ends (fun _ => True) d.peek := by
  unfold Decoder.peek
  split
  · exact ends_error (by decide)
  · exact trivial

/-- What follows a look at the next byte. -/
theorem ends_peek_bind {α : Type} {P : α → Prop} {d : Decoder} {f : UInt8 → Except Error α}
    (h : ∀ b, d.peek = .ok b → Ends P (f b)) : Ends P (d.peek >>= f) := by
  have hpeek := ends_peek d
  revert hpeek h
  cases d.peek with
  | ok b => exact fun h _ => h b rfl
  | error e => exact fun _ hpeek => hpeek

theorem ends_intDigits (start : Nat) (bs : Bytes) (pos : Nat) (n : Int) (count : Nat) :
    Ends (fun _ => True) (intDigits start bs pos n count) := by
  induction bs generalizing pos n count with
  | nil => exact ends_error (by decide)
  | cons b bs ih =>
      unfold intDigits
      repeat' split
      · exact trivial
      · exact ends_error (by decide)
      · exact ends_error (by decide)
      · exact ends_error (by decide)
      · exact ih _ _ _

theorem ends_intTail (start : Nat) (negative : Bool) (d : Decoder) :
    Ends (fun _ => True) (intTail start negative d) := by
  refine (ends_intDigits _ _ _ _ _).bind fun r _ => ?_
  simp only
  split
  · exact ends_error (by decide)
  · split
    · exact trivial
    · split
      · exact trivial
      · exact ends_error (by decide)

theorem ends_int (d : Decoder) : Ends (fun _ => True) (int d) :=
  (ends_peek _).bind fun _ _ => ends_intTail _ _ _

theorem ends_lenDigits (start : Nat) (bs : Bytes) (pos len count : Nat) :
    Ends (fun _ => True) (lenDigits start bs pos len count) := by
  induction bs generalizing pos len count with
  | nil => exact ends_error (by decide)
  | cons b bs ih =>
      unfold lenDigits
      repeat' split
      · exact trivial
      · exact ends_error (by decide)
      · exact ends_error (by decide)
      · exact ends_error (by decide)
      · exact ih _ _ _

theorem ends_bytes (d : Decoder) : Ends (fun _ => True) (bytes d) := by
  refine (ends_lenDigits _ _ _ _ _).bind fun r _ => ?_
  simp only
  split
  · exact ends_error (by decide)
  · split
    · exact trivial
    · exact ends_error (by decide)

/-! ## What has been paid -/

/-- A cursor over so many bytes has paid for the values closed so far, and for so many open ones. -/
structure Paid (total opened : Nat) (d : Decoder) : Prop where
  nodes : MIN_NODE_BYTES * d.nodes + opened ≤ d.pos
  length : d.pos + d.rest.length = total

variable {total opened budget : Nat} {d e : Decoder}

theorem paid_new (input : Bytes) : Paid input.length 0 (.new input) :=
  ⟨Nat.le_refl 0, Nat.zero_add _⟩

/-- What is read off the input is paid for so many values more. -/
theorem Paid.past (h : Paid total opened d) {x rest : Bytes} (hd : d.rest = x ++ rest) {more : Nat}
    (hmore : more ≤ x.length) : Paid total (opened + more) (d.past x rest) := by
  refine ⟨?_, ?_⟩
  · have hnodes := h.nodes
    simp only [Decoder.past]
    omega
  · have hlength := h.length
    rw [hd, List.length_append] at hlength
    simp only [Decoder.past]
    omega

theorem Paid.advance (h : Paid total opened d) {b : UInt8} (hpeek : d.peek = .ok b) :
    Paid total (opened + 1) (d.advance 1) := by
  obtain ⟨r, hd⟩ := Decoder.peek_ok hpeek
  have hpast := h.past (x := [b]) hd (Nat.le_refl 1)
  rwa [Decoder.past, ← show d.rest.drop 1 = r by rw [hd]; rfl] at hpast

theorem Paid.int (h : Paid total opened d) (hpeek : d.peek = .ok 105) :
    Ends (fun p => Paid total (opened + 2) p.2) (int d) := by
  refine (ends_int d).strengthen fun p hp => ?_
  obtain ⟨r, hd⟩ := Decoder.peek_ok hpeek
  obtain ⟨-, hrest, hpast⟩ := int_ok hd hp
  rw [hpast]
  exact h.past hrest (by simp)

theorem Paid.bytes (h : Paid total opened d) :
    Ends (fun p => Paid total (opened + 2) p.2) (bytes d) := by
  refine (ends_bytes d).strengthen fun p hp => ?_
  obtain ⟨-, hrest, hpast⟩ := bytes_ok hp
  rw [hpast]
  refine h.past hrest ?_
  have hdigits := digits_length_pos p.1.length
  rw [putBytes_length]
  omega

/-- A key is paid for, and is no value. -/
theorem Paid.key (h : Paid total opened d) :
    Ends (fun p => Paid total opened p.2) (Bencode.bytes d) :=
  h.bytes.strengthen fun _ hp =>
    have hread := h.bytes.of_ok hp
    ⟨(Nat.le_add_right _ 2).trans hread.nodes, hread.length⟩

theorem Paid.span (h : Paid total opened d) (span : Option (Nat × Nat)) :
    Paid total opened { d with span := span } := ⟨h.nodes, h.length⟩

/-! ## The loops -/

variable {inner : Decoder → Except Error (Value × Decoder)}

/-- Reading a value closes it, and pays for it. -/
def Pays (total : Nat) (inner : Decoder → Except Error (Value × Decoder)) : Prop :=
  ∀ opened d, Paid total opened d → Ends (fun p => Paid total opened p.2) (inner d)

/-- What a list has paid for after its end mark. -/
theorem Pays.items (hinner : Pays total inner) (fuel : Nat) (acc : List Value)
    (h : Paid total opened d) :
    Ends (fun p => Paid total (opened + 1) p.2) (items inner fuel acc d) := by
  induction fuel generalizing acc d with
  | zero => exact ends_error (by decide)
  | succ fuel ih =>
      unfold Bencode.items
      refine ends_peek_bind fun b hpeek => ?_
      split
      · exact h.advance hpeek
      · exact (hinner opened d h).bind fun p hp => ih _ hp

/-- What a dictionary has paid for after its end mark.  Its keys are no values. -/
theorem Pays.entries (hinner : Pays total inner) (want : Option Bytes) (fuel : Nat)
    (acc : List (Bytes × Value)) (h : Paid total opened d) :
    Ends (fun p => Paid total (opened + 1) p.2) (entries inner want fuel acc d) := by
  induction fuel generalizing acc d with
  | zero => exact ends_error (by decide)
  | succ fuel ih =>
      unfold Bencode.entries
      refine ends_peek_bind fun b hpeek => ?_
      split
      · exact h.advance hpeek
      · refine ends_peek_bind fun b _ => ?_
        split
        · exact ends_error (by decide)
        · refine h.key.bind fun k hk => (hinner opened k.2 hk).bind fun v hv => ?_
          simp only
          split
          · exact ends_error (by decide)
          · refine ih _ ?_
            split
            · exact hv.span _
            · exact hv

/-- What a node has paid for before it is counted. -/
theorem Pays.node (hinner : Pays total inner) (want : Option Bytes) (h : Paid total opened d) :
    Ends (fun p => Paid total (opened + 2) p.2) (node inner want d) := by
  unfold Bencode.node
  refine ends_peek_bind fun b hpeek => ?_
  split
  · rename_i hb
    exact (h.int (hb ▸ hpeek)).bind fun _ hi => hi
  · split
    · exact h.bytes.bind fun _ hs => hs
    · split
      · exact (hinner.items _ [] (h.advance hpeek)).bind fun _ hvs => hvs
      · split
        · exact (hinner.entries want _ [] (h.advance hpeek)).bind fun _ hm => hm
        · exact ends_error (by decide)

/-- A node that is counted is a value closed. -/
theorem Paid.count (h : Paid total (opened + 2) d) :
    Paid total opened { d with nodes := d.nodes + 1 } := by
  have hnodes := h.nodes
  simp only [MIN_NODE_BYTES] at hnodes
  exact ⟨by simp only [MIN_NODE_BYTES]; omega, h.length⟩

/-- No more values are closed than the budget has. -/
theorem Paid.nodes_le (h : Paid total opened d) : d.nodes ≤ nodeBudget total := by
  have hnodes := h.nodes
  have hlength := h.length
  simp only [nodeBudget, MIN_NODE_BYTES] at hnodes ⊢
  omega

theorem pays_value (total levels : Nat) (want : Option Bytes) :
    Pays total (value (nodeBudget total) levels want) := by
  induction levels generalizing want with
  | zero => exact fun _ _ _ => ends_error (by decide)
  | succ levels ih =>
      intro opened d h
      refine ((ih none).node want h).bind fun p hp => ?_
      have hcount := hp.count
      simp only
      split
      · rename_i hover
        exact absurd hcount.nodes_le (Nat.not_le.2 hover)
      · exact hcount

/-! ## The points of the descent -/

/-- The cursors at the head of the loop over a list's items. -/
inductive ItemHead (inner : Decoder → Except Error (Value × Decoder)) (d : Decoder) :
    Decoder → Prop where
  | first : ItemHead inner d d
  | next {e e' : Decoder} {v : Value} (he : ItemHead inner d e) (hread : inner e = .ok (v, e')) :
      ItemHead inner d e'

/-- The cursors at the head of the loop over a dictionary's entries. -/
inductive EntryHead (inner : Decoder → Except Error (Value × Decoder)) (d : Decoder) :
    Decoder → Prop where
  | first : EntryHead inner d d
  | next {e e₁ e' : Decoder} {k : Bytes} {v : Value} (he : EntryHead inner d e)
      (hkey : bytes e = .ok (k, e₁)) (hread : inner e₁ = .ok (v, e')) (span : Option (Nat × Nat)) :
      EntryHead inner d { e' with span := span }

/-- The cursors that the descent from a value comes by, with how many values are open there. -/
inductive Passes (budget : Nat) : Nat → Option Bytes → Decoder → Nat → Decoder → Prop where
  | start (levels : Nat) (want : Option Bytes) (d : Decoder) : Passes budget levels want d 0 d
  | closed {levels : Nat} {want : Option Bytes} {d d' : Decoder} {v : Value}
      (hnode : node (value budget levels none) want d = .ok (v, d')) :
      Passes budget (levels + 1) want d 0 { d' with nodes := d'.nodes + 1 }
  | list {levels : Nat} {want : Option Bytes} {d e : Decoder} (hd : d.peek = .ok 108)
      (he : ItemHead (value budget levels none) (d.advance 1) e) :
      Passes budget (levels + 1) want d 1 e
  | item {levels opened : Nat} {want : Option Bytes} {d e e' : Decoder} (hd : d.peek = .ok 108)
      (he : ItemHead (value budget levels none) (d.advance 1) e)
      (hin : Passes budget levels none e opened e') :
      Passes budget (levels + 1) want d (opened + 1) e'
  | dict {levels : Nat} {want : Option Bytes} {d e : Decoder} (hd : d.peek = .ok 100)
      (he : EntryHead (value budget levels none) (d.advance 1) e) :
      Passes budget (levels + 1) want d 1 e
  | entry {levels opened : Nat} {want : Option Bytes} {d e e₁ e' : Decoder} {k : Bytes}
      (hd : d.peek = .ok 100) (he : EntryHead (value budget levels none) (d.advance 1) e)
      (hkey : bytes e = .ok (k, e₁)) (hin : Passes budget levels none e₁ opened e') :
      Passes budget (levels + 1) want d (opened + 1) e'

theorem Paid.itemHead (h : Paid total opened d) (hinner : Pays total inner)
    (he : ItemHead inner d e) : Paid total opened e := by
  induction he with
  | first => exact h
  | next _ hread ih => exact (hinner _ _ ih).of_ok hread

theorem Paid.entryHead (h : Paid total opened d) (hinner : Pays total inner)
    (he : EntryHead inner d e) : Paid total opened e := by
  induction he with
  | first => exact h
  | next _ hkey hread span ih =>
      exact ((hinner _ _ (ih.key.of_ok hkey)).of_ok hread).span span

/-- Wherever the descent comes by, what is closed and what is open has been paid for. -/
theorem Paid.passes (h : Paid total opened d) {levels more : Nat} {want : Option Bytes}
    (hpass : Passes (nodeBudget total) levels want d more e) : Paid total (opened + more) e := by
  induction hpass generalizing opened with
  | start => exact h
  | closed hnode => exact (((pays_value total _ none).node _ h).of_ok hnode).count
  | list hd he => exact (h.advance hd).itemHead (pays_value total _ none) he
  | item hd he _ ih =>
      have hin := ih ((h.advance hd).itemHead (pays_value total _ none) he)
      rwa [Nat.add_assoc, Nat.add_comm 1] at hin
  | dict hd he => exact (h.advance hd).entryHead (pays_value total _ none) he
  | entry hd he hkey _ ih =>
      have hin := ih (((h.advance hd).entryHead (pays_value total _ none) he).key.of_ok hkey)
      rwa [Nat.add_assoc, Nat.add_comm 1] at hin

/-- The budget is never the reason for a refusal.  Whatever the input, no entry point gives
`tooManyNodes`, and at every point of the descent two bytes are consumed for each value closed. -/
theorem node_budget_suffices (input : Bytes) :
    (∀ key offset, decodeWithEntry input key ≠ .error ⟨offset, .tooManyNodes⟩) ∧
      (∀ offset, decode input ≠ .error ⟨offset, .tooManyNodes⟩) ∧
      (∀ offset, decodePrefix input ≠ .error ⟨offset, .tooManyNodes⟩) ∧
      ∀ want opened d,
        Passes (nodeBudget input.length) MAX_DEPTH want (.new input) opened d →
          MIN_NODE_BYTES * d.nodes ≤ d.pos := by
  have hvalue := fun want => pays_value input.length MAX_DEPTH want 0 _ (paid_new input)
  have hentry : ∀ key, Ends (fun _ => True) (decodeWithEntry input key) := fun key =>
    (hvalue (some key)).bind fun p _ => by
      simp only
      split
      · exact trivial
      · exact ends_error (by decide)
  have hdecode : Ends (fun _ => True) (decode input) := (hentry []).bind fun _ _ => trivial
  have hfront : Ends (fun _ => True) (decodePrefix input) :=
    (hvalue (some [])).bind fun _ _ => trivial
  refine ⟨fun key => (hentry key).error_ne, hdecode.error_ne, hfront.error_ne, ?_⟩
  intro want opened d hpass
  exact (Nat.le_add_right _ _).trans ((paid_new input).passes hpass).nodes

end Clove.Bencode
