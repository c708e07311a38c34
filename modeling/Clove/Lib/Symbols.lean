import Clove.Lib.Regroup
import Mathlib.Data.List.GetD

/-!
# Texts of symbols

Bytes are written in symbols of `k` bits, each the symbol at its place in an alphabet.  A reader
takes the bits in through a buffer of 32 bits and puts out a byte when eight are held.  What it
reads is what the symbols spell (`Alphabet.read_eq_some_iff`), and it refuses a text only for a
character that is no symbol or for a bit that is set and is of no byte
(`Alphabet.read_isSome_iff`).
-/

namespace Symbols

open Regroup (Holds Spells)

variable {ins outs : List Nat} {buffer bits k : Nat}

/-- The symbol for a digit. -/
def symbol (alphabet : List UInt8) (digit : Nat) : UInt8 := alphabet.getD digit 0

/-- One symbol of `k` bits: the bytes so far, and the bits that are not a byte yet in the low end
of a 32-bit buffer. -/
def step (alphabet : List UInt8) (k : Nat) (s : List UInt8 × Nat × Nat) (c : UInt8) :
    Option (List UInt8 × Nat × Nat) :=
  let (out, buffer, bits) := s
  (alphabet.idxOf? c).map fun val =>
    let buffer := (buffer * 2 ^ k + val) % 4294967296
    let bits := bits + k
    if 8 ≤ bits then (out ++ [UInt8.ofNat (buffer / 2 ^ (bits - 8))], buffer, bits - 8)
    else (out, buffer, bits)

/-- Read symbols.  The bits that are no byte must be zero. -/
def read (alphabet : List UInt8) (k : Nat) (s : List UInt8) : Option (List UInt8) :=
  (s.foldlM (step alphabet k) ([], 0, 0)).bind fun (out, buffer, bits) =>
    if buffer % 2 ^ bits ≠ 0 then none else some out

/-- An alphabet of the symbols of `k` bits, no wider than a byte. -/
structure Alphabet (alphabet : List UInt8) (k : Nat) : Prop where
  le : k ≤ 8
  length : alphabet.length = 2 ^ k
  nodup : alphabet.Nodup

variable {alphabet : List UInt8}

theorem Alphabet.idxOf?_eq_some_iff (h : Alphabet alphabet k) {c : UInt8} {digit : Nat} :
    alphabet.idxOf? c = some digit ↔ c = symbol alphabet digit ∧ digit < 2 ^ k := by
  rw [List.idxOf?_eq_some_iff, ← h.length]
  constructor
  · rintro ⟨hlt, heq, -⟩
    exact ⟨by rw [symbol, List.getD_eq_getElem _ _ hlt, heq], hlt⟩
  · rintro ⟨rfl, hlt⟩
    refine ⟨hlt, ?_, fun j hj hsame => ?_⟩
    · rw [symbol, List.getD_eq_getElem _ _ hlt]
    · rw [symbol, List.getD_eq_getElem _ _ hlt] at hsame
      exact absurd ((h.nodup.getElem_inj_iff).1 hsame) (Nat.ne_of_lt hj)

/-- A symbol is read as its digit. -/
theorem Alphabet.holds_step (h : Alphabet alphabet k) {groups : List Nat} {out : List UInt8}
    (hheld : Holds k 8 groups (out.map UInt8.toNat) buffer bits) (hfew : bits < 8) {digit : Nat}
    (hdigit : digit < 2 ^ k) :
    ∃ out' buffer' bits',
      step alphabet k (out, buffer, bits) (symbol alphabet digit) = some (out', buffer', bits') ∧
        Holds k 8 (groups ++ [digit]) (out'.map UInt8.toNat) buffer' bits' ∧ bits' < 8 := by
  have hle := h.le
  have hpush := hheld.push hdigit (show bits + k ≤ 32 by omega)
  have hval := h.idxOf?_eq_some_iff.2 ⟨rfl, hdigit⟩
  rw [step]
  simp only [hval, Option.map_some]
  by_cases hfull : 8 ≤ bits + k
  · rw [if_pos hfull]
    obtain ⟨rest, hrest⟩ := Nat.exists_eq_add_of_le' hfull
    have hsub : bits + k - 8 = rest := by omega
    rw [hrest] at hpush
    refine ⟨_, _, _, rfl, ?_, by omega⟩
    have hemit := hpush.emit
    rw [List.map_append, List.map_singleton, UInt8.toNat_ofNat', hsub]
    exact hemit
  · rw [if_neg hfull]
    exact ⟨_, _, _, rfl, hpush, by omega⟩

/-- Symbols are read as their digits. -/
theorem Alphabet.holds_foldlM (h : Alphabet alphabet k) {groups : List Nat}
    (hgroups : ∀ d ∈ groups, d < 2 ^ k) :
    ∃ out buffer bits, (groups.map (symbol alphabet)).foldlM (step alphabet k) ([], 0, 0) =
        some (out, buffer, bits) ∧
      Holds k 8 groups (out.map UInt8.toNat) buffer bits ∧ bits < 8 := by
  induction groups using List.reverseRecOn with
  | nil => exact ⟨[], 0, 0, rfl, Regroup.holds_nil k 8 0, by decide⟩
  | append_singleton groups d ih =>
      obtain ⟨out, buffer, bits, hread, hheld, hfew⟩ :=
        ih fun e he => hgroups e (List.mem_append_left _ he)
      obtain ⟨out', buffer', bits', hstep, hnext⟩ :=
        h.holds_step hheld hfew (hgroups d (by simp))
      refine ⟨out', buffer', bits', ?_, hnext⟩
      rw [List.map_append, List.foldlM_append, hread]
      simpa using hstep

/-- What is read is made of symbols. -/
theorem Alphabet.digits_of_foldlM (h : Alphabet alphabet k) {s : List UInt8} {r r' : List UInt8 × Nat × Nat}
    (hread : s.foldlM (step alphabet k) r = some r') :
    ∃ groups : List Nat, s = groups.map (symbol alphabet) ∧ ∀ d ∈ groups, d < 2 ^ k := by
  induction s generalizing r with
  | nil => exact ⟨[], rfl, by simp⟩
  | cons c s ih =>
      rw [List.foldlM_cons] at hread
      obtain ⟨r₁, hstep, hrest⟩ := Option.bind_eq_some_iff.1 hread
      obtain ⟨digit, hval, -⟩ := Option.map_eq_some_iff.1 hstep
      obtain ⟨rfl, hdigit⟩ := h.idxOf?_eq_some_iff.1 hval
      obtain ⟨groups, rfl, hgroups⟩ := ih hrest
      exact ⟨digit :: groups, rfl, List.forall_mem_cons.2 ⟨hdigit, hgroups⟩⟩

/-- What is read, and from which texts: those whose symbols spell it, with less than a byte of zero
bits after it. -/
theorem Alphabet.read_eq_some_iff (h : Alphabet alphabet k) {s b : List UInt8} :
    read alphabet k s = some b ↔ ∃ (groups : List Nat) (pad : Nat),
      s = groups.map (symbol alphabet) ∧ Spells 8 k (b.map UInt8.toNat) groups pad ∧ pad < 8 := by
  constructor
  · intro hread
    obtain ⟨⟨out, buffer, bits⟩, hfold, hlast⟩ := Option.bind_eq_some_iff.1 hread
    obtain ⟨groups, rfl, hgroups⟩ := h.digits_of_foldlM hfold
    obtain ⟨out', buffer', bits', hfold', hheld, hfew⟩ := h.holds_foldlM hgroups
    obtain ⟨rfl, rfl, rfl⟩ : out' = out ∧ buffer' = buffer ∧ bits' = bits := by
      simpa using hfold'.symm.trans hfold
    simp only at hlast
    split at hlast
    · cases hlast
    · rename_i hzero
      obtain rfl := Option.some.inj hlast
      exact ⟨groups, bits', rfl, hheld.spelled hgroups (not_not.1 hzero), hfew⟩
  · rintro ⟨groups, pad, rfl, hspells, hpad⟩
    obtain ⟨out, buffer, bits, hfold, hheld, hfew⟩ := h.holds_foldlM hspells.digits
    obtain ⟨hsame, hzero⟩ := hspells.read hheld
      (fun d hd => by
        obtain ⟨byte, -, rfl⟩ := List.mem_map.1 hd
        exact byte.toNat_lt) hpad hfew
    have hout : out = b := List.map_injective_iff.2 (fun _ _ => UInt8.toNat_inj.1) hsame
    rw [read, hfold, Option.bind_some, hout]
    simp [hzero]

/-- The bits of a text of symbols that are no byte. -/
def spare (alphabet : List UInt8) (k : Nat) (s : List UInt8) : Nat :=
  Regroup.number k (s.map alphabet.idxOf) % 2 ^ (k * s.length % 8)

theorem Alphabet.idxOf_symbol (h : Alphabet alphabet k) {digit : Nat} (hdigit : digit < 2 ^ k) :
    alphabet.idxOf (symbol alphabet digit) = digit := by
  rw [List.idxOf_eq_getD_idxOf?, h.idxOf?_eq_some_iff.2 ⟨rfl, hdigit⟩, Option.getD_some]

theorem Alphabet.map_idxOf (h : Alphabet alphabet k) {groups : List Nat}
    (hgroups : ∀ d ∈ groups, d < 2 ^ k) :
    (groups.map (symbol alphabet)).map alphabet.idxOf = groups := by
  rw [List.map_map]
  exact (List.map_congr_left fun d hd => h.idxOf_symbol (hgroups d hd)).trans (List.map_id groups)

theorem Alphabet.symbol_mem (h : Alphabet alphabet k) {digit : Nat} (hdigit : digit < 2 ^ k) :
    symbol alphabet digit ∈ alphabet := by
  rw [← h.length] at hdigit
  rw [symbol, List.getD_eq_getElem _ _ hdigit]
  exact List.getElem_mem hdigit

/-- A text is the symbols of its digits, if it is made of symbols. -/
theorem Alphabet.map_symbol (h : Alphabet alphabet k) {s : List UInt8} (hs : ∀ c ∈ s, c ∈ alphabet) :
    (∀ d ∈ s.map alphabet.idxOf, d < 2 ^ k) ∧
      (s.map alphabet.idxOf).map (symbol alphabet) = s := by
  have hlt : ∀ c ∈ s, alphabet.idxOf c < alphabet.length := fun c hc =>
    List.idxOf_lt_length_of_mem (hs c hc)
  refine ⟨fun d hd => ?_, ?_⟩
  · obtain ⟨c, hc, rfl⟩ := List.mem_map.1 hd
    exact h.length ▸ hlt c hc
  · rw [List.map_map]
    refine (List.map_congr_left fun c hc => ?_).trans (List.map_id s)
    rw [Function.comp_apply, symbol, List.getD_eq_getElem _ _ (hlt c hc), List.getElem_idxOf]
    rfl

/-- A text is read if it is made of symbols and the bits that are no byte are zero. -/
theorem Alphabet.read_isSome_iff (h : Alphabet alphabet k) (s : List UInt8) :
    (read alphabet k s).isSome ↔ (∀ c ∈ s, c ∈ alphabet) ∧ spare alphabet k s = 0 := by
  constructor
  · intro hsome
    obtain ⟨b, hread⟩ := Option.isSome_iff_exists.1 hsome
    obtain ⟨groups, pad, rfl, hspells, hpad⟩ := h.read_eq_some_iff.1 hread
    refine ⟨fun c hc => ?_, ?_⟩
    · obtain ⟨d, hd, rfl⟩ := List.mem_map.1 hc
      exact h.symbol_mem (hspells.digits d hd)
    · have hrest : k * groups.length % 8 = pad := by
        rw [hspells.length]
        omega
      rw [spare, h.map_idxOf hspells.digits, List.length_map, hrest, hspells.value,
        Nat.mul_mod_left]
  · rintro ⟨hs, hzero⟩
    obtain ⟨hdigits, hmap⟩ := h.map_symbol hs
    obtain ⟨out, buffer, bits, hfold, hheld, hfew⟩ := h.holds_foldlM hdigits
    have hlength := hheld.length
    rw [List.length_map, List.length_map] at hlength
    have hrest : k * s.length % 8 = bits := by
      rw [hlength]
      omega
    have hbits : buffer % 2 ^ bits = 0 := by
      rwa [spare, hrest, hheld.value, Nat.mul_add_mod_self_right, Nat.mod_mod] at hzero
    rw [hmap] at hfold
    rw [read, hfold, Option.bind_some]
    simp [hbits]

end Symbols
