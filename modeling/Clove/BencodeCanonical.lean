import Clove.BencodeGrammar

/-!
# Encoding and decoding are inverse

A value that the program can build (`Value.Valid`) and that is not nested too deeply is decoded
from its encoding, in front of any other bytes.  In the other direction the encoding of what was
decoded is the text again if and only if the dictionaries of the text have their keys in order
(`InOrder`); the decoder takes them in any order.
-/

namespace Clove.Bencode

open Decimal (digits)

/-! ## Values of the program -/

mutual

/-- How deeply a value is nested. -/
def height : Value → Nat
  | .bytes _ => 1
  | .int _ => 1
  | .list items => itemsHeight items + 1
  | .dict m => entriesHeight m + 1

def itemsHeight : List Value → Nat
  | [] => 0
  | v :: vs => max (height v) (itemsHeight vs)

def entriesHeight : List (Bytes × Value) → Nat
  | [] => 0
  | (_, v) :: m => max (height v) (entriesHeight m)

end

mutual

/-- What the types of the source promise: integers are `i64`, lengths `usize`, and a dictionary
is a map. -/
def Valid : Value → Prop
  | .bytes b => inUsize b.length = true
  | .int i => inI64 i = true
  | .list items => ItemsValid items
  | .dict m => OrdMap.Sorted m ∧ EntriesValid m

def ItemsValid : List Value → Prop
  | [] => True
  | v :: vs => Valid v ∧ ItemsValid vs

def EntriesValid : List (Bytes × Value) → Prop
  | [] => True
  | (k, v) :: m => inUsize k.length = true ∧ Valid v ∧ EntriesValid m

end

/-- A value is well formed if it is valid and not nested too deeply. -/
theorem wellFormed_of_valid {n : Nat} {v : Value} (hv : Valid v) (hn : height v ≤ n) :
    WellFormed n v := by
  induction n generalizing v with
  | zero => cases v <;> simp [height] at hn
  | succ n ih =>
      have hitems : ∀ vs, ItemsValid vs → itemsHeight vs ≤ n → ItemsWellFormed n vs := by
        intro vs
        induction vs with
        | nil => exact fun _ _ => trivial
        | cons v vs ihvs =>
            intro hvs hle
            rw [itemsHeight, Nat.max_le] at hle
            exact ⟨ih hvs.1 hle.1, ihvs hvs.2 hle.2⟩
      have hentries : ∀ m, EntriesValid m → entriesHeight m ≤ n → EntriesWellFormed n m := by
        intro m
        induction m with
        | nil => exact fun _ _ => trivial
        | cons e m ihm =>
            obtain ⟨k, v⟩ := e
            intro hm hle
            rw [entriesHeight, Nat.max_le] at hle
            exact ⟨hm.1, ih hm.2.1 hle.1, ihm hm.2.2 hle.2⟩
      cases v with
      | bytes b => exact hv
      | int i => exact hv
      | list vs => exact hitems vs hv (Nat.le_of_succ_le_succ hn)
      | dict m => exact ⟨hv.1, hentries m hv.2 (Nat.le_of_succ_le_succ hn)⟩

/-! ## Texts in order -/

/-- A text in order is the encoding of its value. -/
theorem InOrder.encode_eq {n : Nat} {x : Bytes} {v : Value} (h : InOrder n x v) :
    encode v = x := by
  induction h with
  | bytes _ => rfl
  | int _ => rfl
  | @list _ xs _ ih =>
      have hitems : encodeItems (xs.map Prod.snd) = xs.flatMap Prod.fst := by
        rw [encodeItems_eq, List.flatMap_map]
        exact List.flatMap_congr ih
      rw [encode, hitems]
      rfl
  | @dict _ xs _ _ hsorted ih =>
      have hentries : encodeEntries (xs.map fun p => (p.1, p.2.2)) =
          xs.flatMap fun p => putBytes p.1 ++ p.2.1 := by
        rw [encodeEntries_eq, entriesText, List.map_map, List.flatMap_map]
        exact List.flatMap_congr fun p hp => congrArg (putBytes p.1 ++ ·) (ih p hp)
      rw [encode, OrdMap.ofEntries_eq_self hsorted, hentries]
      rfl

/-! ## What is decoded -/

theorem mem_of_mem_ofEntries {xs : List (Bytes × Value)} {e : Bytes × Value}
    (h : e ∈ OrdMap.ofEntries xs) : e ∈ xs := by
  have hgen : ∀ (xs acc : List (Bytes × Value)),
      e ∈ xs.foldl (fun m e => OrdMap.insert e.1 e.2 m) acc → e ∈ acc ∨ e ∈ xs := by
    intro xs
    induction xs with
    | nil => exact fun _ h => .inl h
    | cons a xs ih =>
        intro acc h
        cases ih _ h with
        | inl hacc =>
            cases OrdMap.mem_insert hacc with
            | inl heq => exact .inr (heq ▸ List.mem_cons_self)
            | inr hold => exact .inl hold
        | inr hxs => exact .inr (List.mem_cons_of_mem a hxs)
  exact (hgen xs [] h).resolve_left List.not_mem_nil

/-- What is derived is well formed. -/
theorem Derives.wellFormed {n : Nat} {x : Bytes} {v : Value} (h : Derives n x v) :
    WellFormed n v := by
  induction h with
  | bytes hlen => exact hlen
  | int hint => exact hint
  | @list n xs _ ih =>
      have hitems : ∀ vs, (∀ v ∈ vs, WellFormed n v) → ItemsWellFormed n vs := by
        intro vs
        induction vs with
        | nil => exact fun _ => trivial
        | cons v vs ihvs =>
            intro hvs
            exact ⟨hvs v List.mem_cons_self, ihvs fun w hw => hvs w (List.mem_cons_of_mem v hw)⟩
      refine hitems _ fun v hv => ?_
      obtain ⟨p, hp, rfl⟩ := List.mem_map.1 hv
      exact ih p hp
  | @dict n xs hkeys _ _ ih =>
      refine ⟨OrdMap.sorted_ofEntries _, .of_forall fun e he => ?_⟩
      obtain ⟨p, hp, rfl⟩ := List.mem_map.1 (mem_of_mem_ofEntries he)
      exact ⟨hkeys p hp, ih p hp⟩

/-- Of the texts of a value, its encoding is the one in order. -/
theorem Derives.encode_eq_iff {n : Nat} {x : Bytes} {v : Value} (h : Derives n x v) :
    encode v = x ↔ InOrder n x v :=
  ⟨fun heq => heq ▸ inOrder_encode h.wellFormed, InOrder.encode_eq⟩

/-- Decoding undoes encoding, the decoder accepts the grammar and nothing else, and encoding
undoes decoding for the texts in order. -/
theorem codec_inverse :
    (∀ v, Valid v → height v ≤ MAX_DEPTH → decode (encode v) = .ok v ∧
      ∀ rest, decodePrefix (encode v ++ rest) = .ok (v, (encode v).length)) ∧
    (∀ x v, decode x = .ok v ↔ Derives MAX_DEPTH x v) ∧
    ∀ x v, decode x = .ok v → (encode v = x ↔ InOrder MAX_DEPTH x v) := by
  refine ⟨fun v hv hheight => ?_, fun _ _ => decode_eq_ok_iff, fun x v h => ?_⟩
  · have hwell := wellFormed_of_valid hv hheight
    exact ⟨decode_encode hwell, decodePrefix_encode hwell⟩
  · exact (decode_eq_ok_iff.1 h).encode_eq_iff

end Clove.Bencode
