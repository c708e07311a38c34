import Clove.Base32
import Mathlib.Data.List.DropRight

/-!
# Base64

The model of `i2p_base64_encode` and `i2p_base64_decode` (`addr.rs`): base64 in the alphabet of
I2P.  The encoder takes three bytes at a time and fills its last block up with `=`; the decoder
drops every `=` it meets.  Without the `=` at its end, a text that is decoded is the encoding, unless
another `=` stands before that (`base64_strict_iff`).
-/

namespace Clove.Addr

open Regroup (Spells number number_one number_two number_three number_four)
open Symbols (Alphabet spare symbol)
open Utf8 (ascii)

def I2P_B64_ALPHABET : Bytes :=
  ascii "ABCDEFGHIJKLMNOPQRSTUVWXYZabcdefghijklmnopqrstuvwxyz0123456789-~"

/-- The padding, `=`. -/
def PAD : UInt8 := 61

/-- The character of the low six bits. -/
def base64Char (n : Nat) : UInt8 := I2P_B64_ALPHABET.getD (n % 64) 0

/-- Up to three bytes as four characters. -/
def encodeChunk (chunk : Bytes) : Bytes :=
  let b0 := (chunk.getD 0 0).toNat
  let b1 := (chunk.getD 1 0).toNat
  let b2 := (chunk.getD 2 0).toNat
  let n := b0 * 65536 + b1 * 256 + b2
  [base64Char (n / 262144), base64Char (n / 4096),
    if 1 < chunk.length then base64Char (n / 64) else PAD,
    if 2 < chunk.length then base64Char n else PAD]

/-- Write base64 in the alphabet of I2P, with padding. -/
def i2pBase64Encode : Bytes → Bytes
  | b0 :: b1 :: b2 :: rest => encodeChunk [b0, b1, b2] ++ i2pBase64Encode rest
  | [] => []
  | chunk => encodeChunk chunk

/-- The characters of a text that are not padding. -/
def symbols (s : Bytes) : Bytes := s.filter (· ≠ PAD)

/-- Read base64 in the alphabet of I2P. -/
def i2pBase64Decode (s : Bytes) : Option Bytes :=
  let symbols := symbols s
  if symbols.length % 4 = 1 then none else Symbols.read I2P_B64_ALPHABET 6 symbols

example : i2pBase64Encode (ascii "fo") = ascii "Zm8=" := by decide +kernel

/-! ## The encoder -/

theorem alphabet_b64 : Alphabet I2P_B64_ALPHABET 6 := ⟨by decide, by decide +kernel, by decide +kernel⟩

theorem pad_notMem_b64 : PAD ∉ I2P_B64_ALPHABET := by decide +kernel

theorem six_bits (ns : List Nat) : ∀ d ∈ ns.map (· % 64), d < 2 ^ 6 := by
  intro d hd
  obtain ⟨n, -, rfl⟩ := List.mem_map.1 hd
  exact Nat.mod_lt n (by decide)

theorem spells_three (b0 b1 b2 : UInt8) :
    ∃ groups, encodeChunk [b0, b1, b2] = groups.map (symbol I2P_B64_ALPHABET) ∧
      Spells 8 6 ([b0, b1, b2].map UInt8.toNat) groups 0 := by
  let n := b0.toNat * 65536 + b1.toNat * 256 + b2.toNat
  refine ⟨[n / 262144 % 64, n / 4096 % 64, n / 64 % 64, n % 64], rfl, ?_, rfl,
    six_bits [n / 262144, n / 4096, n / 64, n]⟩
  have h0 := b0.toNat_lt
  have h1 := b1.toNat_lt
  have h2 := b2.toNat_lt
  show number 6 _ = number 8 [b0.toNat, b1.toNat, b2.toNat] * 2 ^ 0
  rw [number_four, number_three]
  omega

theorem spells_two (b0 b1 : UInt8) :
    ∃ groups, encodeChunk [b0, b1] = groups.map (symbol I2P_B64_ALPHABET) ++ [PAD] ∧
      Spells 8 6 ([b0, b1].map UInt8.toNat) groups 2 := by
  let n := b0.toNat * 65536 + b1.toNat * 256 + (0 : UInt8).toNat
  refine ⟨[n / 262144 % 64, n / 4096 % 64, n / 64 % 64], rfl, ?_, rfl,
    six_bits [n / 262144, n / 4096, n / 64]⟩
  have h0 := b0.toNat_lt
  have h1 := b1.toNat_lt
  have hzero : (0 : UInt8).toNat = 0 := rfl
  show number 6 _ = number 8 [b0.toNat, b1.toNat] * 2 ^ 2
  rw [number_three, number_two]
  omega

theorem spells_one (b0 : UInt8) :
    ∃ groups, encodeChunk [b0] = groups.map (symbol I2P_B64_ALPHABET) ++ [PAD, PAD] ∧
      Spells 8 6 ([b0].map UInt8.toNat) groups 4 := by
  let n := b0.toNat * 65536 + (0 : UInt8).toNat * 256 + (0 : UInt8).toNat
  refine ⟨[n / 262144 % 64, n / 4096 % 64], rfl, ?_, rfl,
    six_bits [n / 262144, n / 4096]⟩
  have h0 := b0.toNat_lt
  have hzero : (0 : UInt8).toNat = 0 := rfl
  show number 6 _ = number 8 [b0.toNat] * 2 ^ 4
  rw [number_two, number_one]
  omega

/-- The encoding spells the bytes, and is filled up with padding. -/
theorem spells_i2pBase64Encode (data : Bytes) :
    ∃ groups pad fill, i2pBase64Encode data =
        groups.map (symbol I2P_B64_ALPHABET) ++ List.replicate fill PAD ∧
      Spells 8 6 (data.map UInt8.toNat) groups pad ∧ pad < 6 := by
  fun_induction i2pBase64Encode data with
  | case1 b0 b1 b2 rest ih =>
      obtain ⟨groups, pad, fill, htext, hspells, hpad⟩ := ih
      obtain ⟨block, hblock, hthree⟩ := spells_three b0 b1 b2
      refine ⟨block ++ groups, pad, fill, ?_, hthree.append hspells, hpad⟩
      rw [htext, hblock, List.map_append, List.append_assoc]
  | case2 => exact ⟨[], 0, 0, rfl, ⟨rfl, rfl, by simp⟩, by decide⟩
  | case3 chunk hthree hsome =>
      cases chunk with
      | nil => exact absurd rfl hsome
      | cons b0 chunk =>
          cases chunk with
          | nil =>
              obtain ⟨groups, htext, hspells⟩ := spells_one b0
              exact ⟨groups, 4, 2, htext, hspells, by decide⟩
          | cons b1 chunk =>
              cases chunk with
              | nil =>
                  obtain ⟨groups, htext, hspells⟩ := spells_two b0 b1
                  exact ⟨groups, 2, 1, htext, hspells, by decide⟩
              | cons b2 rest => exact absurd rfl (hthree b0 b1 b2 rest)

/-! ## The decoder -/

/-- A text without the padding at its end. -/
def unpadded (s : Bytes) : Bytes := s.rdropWhile (· = PAD)

theorem unpadded_append (s : Bytes) (n : Nat) : unpadded (s ++ List.replicate n PAD) = unpadded s := by
  induction n with
  | zero => rw [List.replicate_zero, List.append_nil]
  | succ n ih =>
      rw [List.replicate_succ', ← List.append_assoc, unpadded, List.rdropWhile_concat_pos _ _ _ (by simp)]
      exact ih

theorem unpadded_of_notMem {s : Bytes} (h : PAD ∉ s) : unpadded s = s :=
  List.rdropWhile_eq_self_iff.2 fun hne hlast => h (by
    have hmem := List.getLast_mem hne
    rwa [of_decide_eq_true hlast] at hmem)

/-- What is not padding is what stands before the padding, if none stands there. -/
theorem symbols_eq_unpadded {s : Bytes} : symbols s = unpadded s ↔ PAD ∉ unpadded s := by
  constructor
  · intro heq
    rw [← heq]
    simp [symbols]
  · intro hnone
    have hsplit : unpadded s ++ s.rtakeWhile (· = PAD) = s := List.rdropWhile_append_rtakeWhile
    have hlast : (s.rtakeWhile (· = PAD)).filter (· ≠ PAD) = [] :=
      List.filter_eq_nil_iff.2 fun c hc => by simpa using List.mem_rtakeWhile_imp hc
    calc symbols s = symbols (unpadded s ++ s.rtakeWhile (· = PAD)) := by rw [hsplit]
      _ = unpadded s := by
        rw [symbols, List.filter_append, hlast, List.append_nil]
        exact List.filter_eq_self.2 fun c hc => by
          simpa using fun heq : c = PAD => hnone (heq ▸ hc)

/-- The symbols of an encoding are what stands before its padding, and spell the bytes. -/
theorem unpadded_i2pBase64Encode (data : Bytes) :
    ∃ groups pad, unpadded (i2pBase64Encode data) = groups.map (symbol I2P_B64_ALPHABET) ∧
      symbols (i2pBase64Encode data) = groups.map (symbol I2P_B64_ALPHABET) ∧
      Spells 8 6 (data.map UInt8.toNat) groups pad ∧ pad < 6 := by
  obtain ⟨groups, pad, fill, htext, hspells, hpad⟩ := spells_i2pBase64Encode data
  have hnone : PAD ∉ groups.map (symbol I2P_B64_ALPHABET) := by
    intro hmem
    obtain ⟨d, hd, heq⟩ := List.mem_map.1 hmem
    exact pad_notMem_b64 (heq ▸ Alphabet.symbol_mem alphabet_b64 (hspells.digits d hd))
  have hfront : unpadded (i2pBase64Encode data) = groups.map (symbol I2P_B64_ALPHABET) := by
    rw [htext, unpadded_append, unpadded_of_notMem hnone]
  refine ⟨groups, pad, hfront, ?_, hspells, hpad⟩
  rw [← hfront]
  exact symbols_eq_unpadded.2 (by rwa [hfront])

/-- What is decoded, and from which symbols: those of its encoding. -/
theorem i2pBase64Decode_eq_some_iff {s b : Bytes} :
    i2pBase64Decode s = some b ↔ symbols s = unpadded (i2pBase64Encode b) := by
  obtain ⟨groups, pad, hfront, -, hspells, hpad⟩ := unpadded_i2pBase64Encode b
  rw [hfront, i2pBase64Decode]
  constructor
  · intro h
    split at h
    · cases h
    · rename_i hfour
      obtain ⟨groups', pad', hsymbols, hspells', hless⟩ :=
        (Alphabet.read_eq_some_iff alphabet_b64).1 h
      have hlength := hspells'.length
      rw [hsymbols, List.length_map] at hfour
      rw [hsymbols, hspells.unique hspells' hpad (by omega)]
  · intro hsymbols
    have hlength := hspells.length
    simp only [hsymbols]
    rw [if_neg (by rw [List.length_map]; omega)]
    exact (Alphabet.read_eq_some_iff alphabet_b64).2 ⟨groups, pad, rfl, hspells, by omega⟩

/-- What is encoded is decoded again. -/
theorem i2pBase64Decode_i2pBase64Encode (data : Bytes) :
    i2pBase64Decode (i2pBase64Encode data) = some data := by
  obtain ⟨groups, pad, hfront, hsymbols, -⟩ := unpadded_i2pBase64Encode data
  exact i2pBase64Decode_eq_some_iff.2 (hsymbols.trans hfront.symm)

/-- A text is decoded if its symbols are not one more than a multiple of four, and they are in the
alphabet, and the bits that are no byte are zero. -/
theorem i2pBase64Decode_isSome_iff (s : Bytes) :
    (i2pBase64Decode s).isSome ↔ (symbols s).length % 4 ≠ 1 ∧
      (∀ c ∈ symbols s, c ∈ I2P_B64_ALPHABET) ∧ spare I2P_B64_ALPHABET 6 (symbols s) = 0 := by
  rw [← Alphabet.read_isSome_iff alphabet_b64, i2pBase64Decode]
  split
  · rename_i hone
    simp [hone]
  · rename_i hone
    simp [hone]

/-- Decoding inverts encoding, and what is decoded is, but for the padding at its end, the encoding
exactly when no padding stands before the end: the decoder drops every `=` wherever it stands,
unless it refuses the text for its symbols. -/
theorem base64_strict_iff (data s : Bytes) :
    i2pBase64Decode (i2pBase64Encode data) = some data ∧
      ((∀ b, i2pBase64Decode s = some b → unpadded s = unpadded (i2pBase64Encode b)) ↔
        PAD ∉ unpadded s ∨ (symbols s).length % 4 = 1 ∨
          (∃ c ∈ symbols s, c ∉ I2P_B64_ALPHABET) ∨
            spare I2P_B64_ALPHABET 6 (symbols s) ≠ 0) := by
  refine ⟨i2pBase64Decode_i2pBase64Encode data, ?_⟩
  have hsome := i2pBase64Decode_isSome_iff s
  cases hread : i2pBase64Decode s with
  | none =>
      rw [hread] at hsome
      refine ⟨fun _ => .inr ?_, fun _ => nofun⟩
      by_contra hneither
      rw [not_or, not_or, not_not] at hneither
      refine absurd (hsome.2 ⟨hneither.1, fun c hc => ?_, hneither.2.2⟩) (by decide)
      by_contra hout
      exact hneither.2.1 ⟨c, hc, hout⟩
  | some b =>
      rw [hread] at hsome
      obtain ⟨hfour, hall, hzero⟩ := hsome.1 rfl
      have hsymbols := i2pBase64Decode_eq_some_iff.1 hread
      constructor
      · intro hcanonical
        exact .inl (symbols_eq_unpadded.1 (hsymbols.trans (hcanonical b rfl).symm))
      · rintro (hnone | hone | ⟨c, hc, hout⟩ | hset)
        · rintro b' hb
          obtain rfl := Option.some.inj hb
          exact (symbols_eq_unpadded.2 hnone).symm.trans hsymbols
        · exact absurd hone hfour
        · exact absurd (hall c hc) hout
        · exact absurd hzero hset

/-- The text `=QQ` is decoded as the byte that is encoded as `QQ==`. -/
theorem base64_lax :
    i2pBase64Decode (ascii "=QQ") = some (ascii "A") ∧
      unpadded (ascii "=QQ") ≠ unpadded (i2pBase64Encode (ascii "A")) := by decide +kernel

end Clove.Addr
