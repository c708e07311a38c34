import Mathlib.Data.List.DropRight
import Mathlib.Data.List.TakeWhile
import Clove.Lib.Hex
import Clove.Lib.Utf8
import Clove.Wire

/-!
# Texts

What the program does to other people's texts before it uses them: the model of `text.rs`, of
the percent escapes of `http.rs`, and of the standard library's `trim`.
-/

namespace Clove.Text

/-! ## Showing -/

/-- Whether a terminal would act on a character rather than draw it. -/
def isActedOn (c : Nat) : Bool :=
  c < 32 || (127 ≤ c && c < 160) || c = 0xad || c = 0x61c || c = 0x180e ||
  (0x200b ≤ c && c ≤ 0x200f) || c = 0x2028 || c = 0x2029 || (0x202a ≤ c && c ≤ 0x202e) ||
  (0x2060 ≤ c && c ≤ 0x2064) || (0x2066 ≤ c && c ≤ 0x206f) || (0xfe00 ≤ c && c ≤ 0xfe0f) ||
  c = 0xfeff || (0xfff9 ≤ c && c ≤ 0xfffb) || (0xe0000 ≤ c && c ≤ 0xe007f)

/-- Every character a terminal would act on, replaced by a full stop. -/
def scrub (text : Bytes) : Bytes :=
  (Utf8.chars text).flatMap fun c => if isActedOn (Utf8.codePoint c) then [46] else c

/-! ## Percent escapes -/

/-- The bytes a percent-encoded text stands for.  What is no escape stands for itself. -/
def percentDecode : Bytes → Bytes
  | [] => []
  | b :: hi :: lo :: rest =>
      if b = 37 then
        match Hex.value hi, Hex.value lo with
        | some hi, some lo => (hi <<< 4 ||| lo) :: percentDecode rest
        | _, _ => b :: percentDecode (hi :: lo :: rest)
      else b :: percentDecode (hi :: lo :: rest)
  | b :: rest => b :: percentDecode rest

/-! ## White space -/

/-- The characters that are white space. -/
def whitespace : List Bytes :=
  [[9], [10], [11], [12], [13], [32], [194, 133], [194, 160], [225, 154, 128], [226, 128, 128],
    [226, 128, 129], [226, 128, 130], [226, 128, 131], [226, 128, 132], [226, 128, 133],
    [226, 128, 134], [226, 128, 135], [226, 128, 136], [226, 128, 137], [226, 128, 138],
    [226, 128, 168], [226, 128, 169], [226, 128, 175], [226, 129, 159], [227, 128, 128]]

/-- A text without the white space around it. -/
def trim (text : Bytes) : Bytes :=
  (((Utf8.chars text).dropWhile (· ∈ whitespace)).rdropWhile (· ∈ whitespace)).flatten

/-- A byte that white space may be made of. -/
def Blank (b : UInt8) : Prop := b ≤ 13 ∨ b = 32 ∨ 128 ≤ b

instance (b : UInt8) : Decidable (Blank b) := inferInstanceAs (Decidable (_ ∨ _))

theorem blank_of_whitespace : ∀ c ∈ whitespace, ∀ b ∈ c, Blank b := by
  have hall : (whitespace.all fun c => c.all fun b => decide (Blank b)) = true := by decide
  simpa only [List.all_eq_true, decide_eq_true_eq] using hall

theorem blank_flatten {cs : List Bytes} (h : ∀ c ∈ cs, c ∈ whitespace) :
    ∀ b ∈ cs.flatten, Blank b := by
  intro b hb
  obtain ⟨c, hc, hbc⟩ := List.mem_flatten.1 hb
  exact blank_of_whitespace c (h c hc) b hbc

/-- Trimming takes white space off both ends. -/
theorem trim_split (text : Bytes) : ∃ before after, text = before ++ trim text ++ after ∧
    (∀ b ∈ before, Blank b) ∧ ∀ b ∈ after, Blank b := by
  let cs := (Utf8.chars text).dropWhile (· ∈ whitespace)
  have hcs : (Utf8.chars text).takeWhile (· ∈ whitespace) ++ cs = Utf8.chars text :=
    List.takeWhile_append_dropWhile
  have hend : cs.rdropWhile (· ∈ whitespace) ++ cs.rtakeWhile (· ∈ whitespace) = cs :=
    List.rdropWhile_append_rtakeWhile
  refine ⟨((Utf8.chars text).takeWhile (· ∈ whitespace)).flatten,
    (cs.rtakeWhile (· ∈ whitespace)).flatten, ?_, ?_, ?_⟩
  · have hflat := congrArg List.flatten hcs
    rw [← hend, List.flatten_append, List.flatten_append, Utf8.flatten_chars,
      ← List.append_assoc] at hflat
    exact hflat.symm
  · exact blank_flatten fun c hc => by simpa using List.mem_takeWhile_imp hc
  · exact blank_flatten fun c hc => by simpa using List.mem_rtakeWhile_imp hc

/-- What is left of a text are characters of it. -/
theorem chars_trim {text : Bytes} (h : Utf8.valid text = true) :
    Utf8.chars (trim text) =
      ((Utf8.chars text).dropWhile (· ∈ whitespace)).rdropWhile (· ∈ whitespace) :=
  (Utf8.chars_flatten fun c hc => Utf8.isChar_of_mem_chars h c
    ((List.dropWhile_sublist _).subset ((List.rdropWhile_prefix _ _).subset hc))).2

/-- White space before a text is no part of what is left of it. -/
theorem trim_cons {text : Bytes} (h : Utf8.valid text = true) {b : UInt8} (hb : [b] ∈ whitespace) :
    trim (b :: text) = trim text := by
  unfold trim
  rw [Utf8.chars_cons h, List.dropWhile_cons_of_pos (by simpa using hb)]

/-- White space after a plain text is no part of what is left of it. -/
theorem trim_append {text after : Bytes} (htext : ∀ b ∈ text, b < 128 ∧ [b] ∉ whitespace)
    (hafter : ∀ b ∈ after, b < 128 ∧ [b] ∈ whitespace) (hne : text ≠ []) :
    trim (text ++ after) = text := by
  have hascii : ∀ b ∈ text ++ after, b < 128 := by
    intro b hb
    rcases List.mem_append.1 hb with hb | hb
    · exact (htext b hb).1
    · exact (hafter b hb).1
  obtain ⟨b, rest, rfl⟩ := List.exists_cons_of_ne_nil hne
  have hfront : ((b :: rest ++ after).map fun c => [c]).dropWhile (· ∈ whitespace) =
      (b :: rest ++ after).map fun c => [c] :=
    List.dropWhile_cons_of_neg (by simpa using (htext b List.mem_cons_self).2)
  have hback : ((b :: rest ++ after).map fun c => [c]).rdropWhile (· ∈ whitespace) =
      (b :: rest).map fun c => [c] := by
    rw [List.rdropWhile, List.map_append, List.reverse_append, List.dropWhile_append_of_pos]
    · rw [← List.rdropWhile, List.rdropWhile_eq_self_iff]
      intro hmap hlast
      obtain ⟨c, hc, heq⟩ := List.mem_map.1 (List.getLast_mem hmap)
      exact (htext c hc).2 (heq ▸ of_decide_eq_true hlast)
    · intro c hc
      obtain ⟨d, hd, rfl⟩ := List.mem_map.1 (List.mem_reverse.1 hc)
      simpa using (hafter d hd).2
  unfold trim
  rw [Utf8.chars_of_ascii hascii, hfront, hback, ← List.flatMap_def]
  exact List.flatMap_singleton' _

end Clove.Text
