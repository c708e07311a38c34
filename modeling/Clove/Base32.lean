import Clove.Extension
import Clove.Lib.Symbols
import Clove.Magnet

/-!
# Base32

The model of `base32_encode`, beside its decoder.  Each regroups bits through a buffer of 32 bits,
so what is encoded and leaves no bit over is decoded again (`base32Decode_base32Encode`).
-/

namespace Clove.Addr

open Regroup (Holds Spells)
open Symbols (Alphabet spare symbol)
open Utf8 (ascii)

/-- The character of a group of five bits. -/
def base32Char (idx : Nat) : UInt8 := B32_ALPHABET.getD idx 0

/-- The loop that puts out characters while five bits are held: the characters, and how many bits
are held after them. -/
def base32Emit (buffer : Nat) : Nat → Bytes × Nat
  | bits + 5 =>
      (base32Char (buffer / 2 ^ bits % 32) :: (base32Emit buffer bits).1, (base32Emit buffer bits).2)
  | bits => ([], bits)

/-- One byte: the text so far, the buffer, and the bits held in it. -/
def base32Push (s : Bytes × Nat × Nat) (byte : UInt8) : Bytes × Nat × Nat :=
  let buffer := (s.2.1 * 256 + byte.toNat) % 4294967296
  (s.1 ++ (base32Emit buffer (s.2.2 + 8)).1, buffer, (base32Emit buffer (s.2.2 + 8)).2)

/-- Write lower-case base32 without padding. -/
def base32Encode (data : Bytes) : Bytes :=
  let s := data.foldl base32Push ([], 0, 0)
  if 0 < s.2.2 then s.1 ++ [base32Char (s.2.1 * 2 ^ (5 - s.2.2) % 32)] else s.1

example : base32Encode (Utf8.ascii "foobar") = Utf8.ascii "mzxw6ytboi" := by decide +kernel

/-! ## The encoder -/

variable {ins outs : List Nat} {buffer bits k : Nat}

/-- Characters are put out until fewer than five bits are held. -/
theorem holds_base32Emit (h : Holds 8 5 ins outs buffer bits) :
    ∃ groups, (base32Emit buffer bits).1 = groups.map base32Char ∧
      Holds 8 5 ins (outs ++ groups) buffer (base32Emit buffer bits).2 ∧
      (base32Emit buffer bits).2 < 5 := by
  induction bits using Nat.strong_induction_on generalizing outs with
  | _ bits ih =>
      by_cases hbits : bits < 5
      · have hstop : base32Emit buffer bits = ([], bits) := by
          rw [base32Emit]
          omega
        rw [hstop]
        exact ⟨[], rfl, by simpa using h, hbits⟩
      · obtain ⟨rest, rfl⟩ := Nat.exists_eq_add_of_le' (Nat.le_of_not_lt hbits)
        obtain ⟨groups, htext, hheld, hfew⟩ := ih rest (by omega) h.emit
        refine ⟨buffer / 2 ^ rest % 32 :: groups, ?_, ?_, ?_⟩
        · rw [base32Emit, htext]
          rfl
        · rw [List.append_assoc] at hheld
          exact hheld
        · exact hfew

/-- After any bytes the text is the groups that are complete. -/
theorem holds_foldl_base32Push (data : Bytes) :
    ∃ groups, (data.foldl base32Push ([], 0, 0)).1 = groups.map base32Char ∧
      Holds 8 5 (data.map UInt8.toNat) groups (data.foldl base32Push ([], 0, 0)).2.1
        (data.foldl base32Push ([], 0, 0)).2.2 ∧
      (data.foldl base32Push ([], 0, 0)).2.2 < 5 := by
  induction data using List.reverseRecOn with
  | nil => exact ⟨[], rfl, Regroup.holds_nil 8 5 0, by decide⟩
  | append_singleton data byte ih =>
      obtain ⟨groups, htext, hheld, hfew⟩ := ih
      rw [List.foldl_append, List.map_append]
      generalize data.foldl base32Push ([], 0, 0) = s at *
      obtain ⟨out, buffer, bits⟩ := s
      have hpush := hheld.push (d := byte.toNat) byte.toNat_lt
        (show bits + 8 ≤ 32 by simp only at hfew; omega)
      obtain ⟨more, hmore, hheld, hfew⟩ := holds_base32Emit hpush
      refine ⟨groups ++ more, ?_, hheld, hfew⟩
      rw [List.map_append, ← hmore, ← htext]
      rfl

/-- The encoding spells the bytes. -/
theorem spells_base32Encode (data : Bytes) :
    ∃ groups pad, base32Encode data = groups.map base32Char ∧
      Spells 8 5 (data.map UInt8.toNat) groups pad ∧ pad < 5 := by
  obtain ⟨groups, htext, hheld, hfew⟩ := holds_foldl_base32Push data
  refine ⟨_, _, ?_, hheld.spells hfew, ?_⟩
  · rw [base32Encode]
    split
    · rw [htext, List.map_append]
      rfl
    · exact htext
  · split
    · omega
    · decide

/-! ## Base32 -/

/-- The decoder reads symbols of five bits. -/
theorem base32Decode_eq_read (s : Bytes) : base32Decode s = Symbols.read B32_ALPHABET 5 s := rfl

theorem alphabet_b32 : Alphabet B32_ALPHABET 5 := ⟨by decide, by decide, by decide⟩

/-- An encoding is made of symbols. -/
theorem mem_alphabet_of_base32Encode {b : Bytes} {c : UInt8} (h : c ∈ base32Encode b) :
    c ∈ B32_ALPHABET := by
  obtain ⟨groups, pad, htext, hspells, -⟩ := spells_base32Encode b
  rw [htext] at h
  obtain ⟨d, hd, rfl⟩ := List.mem_map.1 h
  exact Alphabet.symbol_mem alphabet_b32 (hspells.digits d hd)

/-- What is encoded is decoded again. -/
theorem base32Decode_base32Encode (data : Bytes) :
    base32Decode (base32Encode data) = some data := by
  obtain ⟨groups, pad, htext, hspells, hpad⟩ := spells_base32Encode data
  exact (Alphabet.read_eq_some_iff alphabet_b32).2 ⟨groups, pad, htext, hspells, by omega⟩

/-- Bytes that leave no bit over have eight characters for every five of them. -/
theorem length_base32Encode {data : Bytes} (h : 5 ∣ data.length) :
    5 * (base32Encode data).length = 8 * data.length := by
  obtain ⟨groups, pad, htext, hspells, hpad⟩ := spells_base32Encode data
  have hlength := hspells.length
  rw [List.length_map] at hlength
  rw [htext, List.length_map]
  omega

/-- A text that is decoded is the encoding exactly if fewer bits are left over than a character
has. -/
theorem base32Encode_eq_iff {s b : Bytes} (h : base32Decode s = some b) :
    base32Encode b = s ↔ 5 * s.length % 8 < 5 := by
  obtain ⟨groups, pad, rfl, hread, hless⟩ := (Alphabet.read_eq_some_iff alphabet_b32).1 h
  obtain ⟨groups', pad', htext, hspells, hpad⟩ := spells_base32Encode b
  have hlength := hread.length
  rw [List.length_map] at hlength ⊢
  have hrest : 5 * groups.length % 8 = pad := by omega
  rw [hrest, htext]
  constructor
  · intro heq
    have hsame : groups'.length = groups.length := by simpa using congrArg List.length heq
    have hlength' := hspells.length
    rw [List.length_map] at hlength'
    omega
  · intro hfew
    rw [hspells.unique hread hpad hfew]
    rfl

/-- Decoding inverts encoding, and what is decoded is an encoding exactly when no encoding is
refused for its length: a text of 1, 3 or 6 characters past a multiple of eight is decoded though
no bytes are encoded as it, unless it has a character that is none or a spare bit that is set. -/
theorem base32_strict_iff (data s : Bytes) :
    base32Decode (base32Encode data) = some data ∧
      ((∀ b, base32Decode s = some b → base32Encode b = s) ↔
        s.length % 8 ∈ [0, 2, 4, 5, 7] ∨ (∃ c ∈ s, c ∉ B32_ALPHABET) ∨
          spare B32_ALPHABET 5 s ≠ 0) := by
  refine ⟨base32Decode_base32Encode data, ?_⟩
  have hlength : s.length % 8 ∈ [0, 2, 4, 5, 7] ↔ 5 * s.length % 8 < 5 := by
    simp only [List.mem_cons, List.not_mem_nil, or_false]
    omega
  have hsome := Alphabet.read_isSome_iff alphabet_b32 s
  rw [← base32Decode_eq_read] at hsome
  rw [hlength]
  cases hread : base32Decode s with
  | none =>
      rw [hread] at hsome
      refine ⟨fun _ => .inr ?_, fun _ => nofun⟩
      by_contra hneither
      rw [not_or, not_not] at hneither
      refine absurd (hsome.2 ⟨fun c hc => ?_, hneither.2⟩) (by decide)
      by_contra hout
      exact hneither.1 ⟨c, hc, hout⟩
  | some b =>
      rw [hread] at hsome
      obtain ⟨hall, hzero⟩ := hsome.1 rfl
      constructor
      · exact fun hcanonical => .inl ((base32Encode_eq_iff hread).1 (hcanonical b rfl))
      · rintro (hfew | ⟨c, hc, hout⟩ | hset)
        · rintro b' hb
          obtain rfl := Option.some.inj hb
          exact (base32Encode_eq_iff hread).2 hfew
        · exact absurd (hall c hc) hout
        · exact absurd hzero hset

/-- The text `a` is decoded as no bytes, which are encoded as no text. -/
theorem base32_lax :
    base32Decode (ascii "a") = some [] ∧ base32Encode [] ≠ ascii "a" := by decide +kernel

/-! ## The address of a peer -/

/-- The suffix of an address. -/
def B32_SUFFIX : Bytes := ascii ".b32.i2p"

/-- The address that names a hash. -/
def toB32 (hash : DestHash) : Bytes := base32Encode hash.bytes ++ B32_SUFFIX

/-- The hash that an address names, with or without its suffix. -/
def fromB32 (text : Bytes) : Option DestHash :=
  let label := ((Text.trim text).dropSuffix? B32_SUFFIX).getD (Text.trim text)
  (base32Decode label).bind fun bytes =>
    if h : bytes.length = 32 then some ⟨bytes, h⟩ else none

/-- Characters that are decoded as 32 bytes are the encoding of them. -/
theorem base32Encode_of_length {s b : Bytes} (h : base32Decode s = some b) (hlength : b.length = 32) :
    base32Encode b = s := by
  obtain ⟨groups, pad, rfl, hread, hless⟩ := (Alphabet.read_eq_some_iff alphabet_b32).1 h
  refine (base32Encode_eq_iff h).2 ?_
  have hcount := hread.length
  rw [List.length_map, hlength] at hcount
  rw [List.length_map]
  omega

/-- An address names one identity: what is read as a hash is its address, with or without the
suffix, and white space around it. -/
theorem fromB32_eq_some_iff (text : Bytes) (hash : DestHash) :
    fromB32 text = some hash ↔
      Text.trim text = toB32 hash ∨ Text.trim text = base32Encode hash.bytes := by
  have hlabel : ∀ label, (base32Decode label).bind (fun bytes =>
      if h : bytes.length = 32 then some (⟨bytes, h⟩ : DestHash) else none) = some hash ↔
        label = base32Encode hash.bytes := by
    intro label
    constructor
    · intro h
      obtain ⟨bytes, hread, hbytes⟩ := Option.bind_eq_some_iff.1 h
      split at hbytes
      · rename_i hlength
        obtain rfl := Option.some.inj hbytes
        exact (base32Encode_of_length hread hlength).symm
      · cases hbytes
    · rintro rfl
      rw [base32Decode_base32Encode, Option.bind_some, dif_pos hash.length_bytes]
  rw [fromB32, hlabel]
  cases hdrop : (Text.trim text).dropSuffix? B32_SUFFIX with
  | some label =>
      obtain ⟨suffix, htrim, hsuffix⟩ := List.dropSuffix?_eq_some_iff.1 hdrop
      obtain rfl := eq_of_beq hsuffix
      rw [Option.getD_some, htrim, toB32]
      constructor
      · rintro rfl
        exact .inl rfl
      · rintro (heq | heq)
        · exact List.append_cancel_right heq
        · have hdot : (46 : UInt8) ∈ label ++ B32_SUFFIX :=
            List.mem_append_right _ (by decide)
          rw [heq] at hdot
          exact absurd (mem_alphabet_of_base32Encode hdot) (by decide)
  | none =>
      rw [Option.getD_none]
      refine ⟨.inr, fun h => h.resolve_left fun heq => ?_⟩
      have hsome : (Text.trim text).dropSuffix? B32_SUFFIX = some (base32Encode hash.bytes) :=
        List.dropSuffix?_eq_some_iff.2 ⟨B32_SUFFIX, heq, beq_self_eq_true _⟩
      rw [hdrop] at hsome
      cases hsome

end Clove.Addr
