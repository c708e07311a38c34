import Clove.Base64

/-!
# Destinations

The model of `destination_bytes` and of the identity that is made of a destination (`addr.rs`).
SAM gives the private key blob of a session in base64, possibly with a suffix; the destination is
the first bytes of it, as many as its certificate says.

The text is cut at the first character whose code point, cut to a byte, is no character of the
alphabet.  A character of another script may pass for one there, and then nothing is decoded
(`destination_cut_iff`).
-/

namespace Clove.Addr

open Utf8 (ascii)

/-- Where the certificate of a destination begins, and how long its header is. -/
def CERT_OFFSET : Nat := 384

def CERT_HEADER : Nat := 3

/-- How many bytes of a blob are the destination.  The sum is far from the limit of a word. -/
def destinationLen (blob : Bytes) : Option Nat :=
  let headerEnd := CERT_OFFSET + CERT_HEADER
  if blob.length < headerEnd then none
  else
    let payload := (blob.getD (CERT_OFFSET + 1) 0).toNat * 256 + (blob.getD (CERT_OFFSET + 2) 0).toNat
    let total := headerEnd + payload
    if total ≤ blob.length then some total else none

/-- Whether a character is taken for one of base64. -/
def taken (c : Bytes) : Bool :=
  c = [PAD] || I2P_B64_ALPHABET.contains (UInt8.ofNat (Utf8.codePoint c))

/-- The destination at the front of a field. -/
def destinationBytes (dest : Bytes) : Option Bytes :=
  let body := ((Utf8.chars (Text.trim dest)).takeWhile taken).flatten
  (i2pBase64Decode body).bind fun bytes => (destinationLen bytes).map fun len => bytes.take len

/-- The identity of a destination. -/
def fromB64Destination (sha256 : Bytes → DestHash) (dest : Bytes) : Option DestHash :=
  (destinationBytes dest).map sha256

/-! ## Destinations and blobs -/

/-- A destination: keys, and a certificate of a kind and a payload. -/
structure Destination where
  keys : Bytes
  kind : UInt8
  payload : Bytes
  length_keys : keys.length = CERT_OFFSET
  length_payload : payload.length < 65536

namespace Destination

/-- A destination with its certificate's header. -/
def bytes (d : Destination) : Bytes :=
  d.keys ++ d.kind :: UInt8.ofNat (d.payload.length / 256) :: UInt8.ofNat d.payload.length ::
    d.payload

theorem length_bytes (d : Destination) :
    d.bytes.length = CERT_OFFSET + CERT_HEADER + d.payload.length := by
  simp only [bytes, List.length_append, List.length_cons, d.length_keys, CERT_HEADER]
  omega

/-- The header says how long the destination is, whatever comes after it. -/
theorem destinationLen_append (d : Destination) (rest : Bytes) :
    destinationLen (d.bytes ++ rest) = some d.bytes.length := by
  have hkeys := d.length_keys
  have hpayload := d.length_payload
  have hlength := d.length_bytes
  have hhigh : (d.bytes ++ rest).getD (CERT_OFFSET + 1) 0 =
      UInt8.ofNat (d.payload.length / 256) := by
    rw [bytes, ← hkeys]
    simp
  have hlow : (d.bytes ++ rest).getD (CERT_OFFSET + 2) 0 = UInt8.ofNat d.payload.length := by
    rw [bytes, ← hkeys]
    simp
  have htotal : CERT_OFFSET + CERT_HEADER +
      ((UInt8.ofNat (d.payload.length / 256)).toNat * 256 + (UInt8.ofNat d.payload.length).toNat) =
        d.bytes.length := by
    rw [hlength, UInt8.toNat_ofNat', UInt8.toNat_ofNat']
    omega
  rw [destinationLen]
  simp only [hhigh, hlow, htotal, List.length_append]
  rw [if_neg (by omega), if_pos (by omega)]

end Destination

/-! ## Cutting -/

/-- A character that is none of base64. -/
def Foreign (c : Bytes) : Prop := c ≠ [PAD] ∧ ∀ a ∈ I2P_B64_ALPHABET, c ≠ [a]

theorem codePoint_of_ascii {b : UInt8} (h : b < 128) : Utf8.codePoint [b] = b.toNat := by
  simp [Utf8.codePoint, h]

theorem ascii_of_b64 {b : UInt8} (h : b = PAD ∨ b ∈ I2P_B64_ALPHABET) :
    b < 128 ∧ [b] ∉ Text.whitespace ∧ taken [b] = true := by
  have hall : ((PAD :: I2P_B64_ALPHABET).all fun b =>
      decide (b < 128) && decide ([b] ∉ Text.whitespace)) = true := by decide +kernel
  have hb := List.all_eq_true.1 hall b (List.mem_cons.2 h)
  rw [Bool.and_eq_true, decide_eq_true_eq, decide_eq_true_eq] at hb
  refine ⟨hb.1, hb.2, ?_⟩
  rw [taken, codePoint_of_ascii hb.1, UInt8.ofNat_toNat]
  cases h with
  | inl hpad => simp [hpad]
  | inr hmem => simp [hmem]

/-- No white space passes for a character of base64. -/
theorem taken_of_whitespace {c : Bytes} (h : c ∈ Text.whitespace) : taken c = false := by
  have hall : (Text.whitespace.all fun c => !taken c) = true := by decide +kernel
  simpa using List.all_eq_true.1 hall c h

/-- What passes for a character of base64 and is none has a byte that is none. -/
theorem Foreign.exists_notMem {c : Bytes} (hc : Utf8.IsChar c) (hforeign : Foreign c)
    (htaken : taken c = true) : ∃ b ∈ c, b ≠ PAD ∧ b ∉ I2P_B64_ALPHABET := by
  have hwide : ∀ b : UInt8, 128 ≤ b → b ≠ PAD ∧ b ∉ I2P_B64_ALPHABET := by
    intro b hb
    have hnot : ¬ (b = PAD ∨ b ∈ I2P_B64_ALPHABET) := fun hin =>
      UInt8.not_lt.2 hb (ascii_of_b64 hin).1
    exact not_or.1 hnot
  rcases hc.ascii_or with ⟨b, rfl, hb⟩ | hbytes
  · -- a character of ASCII is its own code point
    rw [taken, codePoint_of_ascii hb, UInt8.ofNat_toNat, Bool.or_eq_true, decide_eq_true_eq,
      List.contains_iff_mem] at htaken
    rcases htaken with hpad | hmem
    · exact absurd hpad hforeign.1
    · exact absurd rfl (hforeign.2 b hmem)
  · cases hc with
    | intro _ _ =>
        have hb := hbytes _ List.mem_cons_self
        exact ⟨_, List.mem_cons_self, hwide _ hb⟩

/-- What is taken of characters of base64 and a text after them. -/
theorem takeWhile_trim {front suffix : Bytes} (hne : front ≠ [])
    (hfront : ∀ b ∈ front, b = PAD ∨ b ∈ I2P_B64_ALPHABET) (hvalid : Utf8.valid suffix = true) :
    ((Utf8.chars (Text.trim (front ++ suffix))).takeWhile taken).flatten =
      front ++ ((Utf8.chars suffix).takeWhile taken).flatten := by
  have hascii : ∀ b ∈ front, b < 128 := fun b hb => (ascii_of_b64 (hfront b hb)).1
  have hvalidFront := Utf8.valid_of_ascii hascii
  have hsolid : ∀ c ∈ Utf8.chars front, c ∉ Text.whitespace ∧ taken c = true := by
    rw [Utf8.chars_of_ascii hascii]
    intro c hc
    obtain ⟨b, hb, rfl⟩ := List.mem_map.1 hc
    exact (ascii_of_b64 (hfront b hb)).2
  have hstart : (Utf8.chars front ++ Utf8.chars suffix).dropWhile (· ∈ Text.whitespace) =
      Utf8.chars front ++ Utf8.chars suffix := by
    cases hchars : Utf8.chars front with
    | nil =>
        have hflat := Utf8.flatten_chars front
        rw [hchars] at hflat
        exact absurd hflat.symm hne
    | cons c cs =>
        refine List.dropWhile_cons_of_neg ?_
        simpa using (hsolid c (hchars ▸ List.mem_cons_self)).1
  have hblank : ∀ c, taken c = true → decide (c ∈ Text.whitespace) = false := by
    intro c htaken
    refine decide_eq_false fun hin => ?_
    rw [taken_of_whitespace hin] at htaken
    cases htaken
  rw [Text.chars_trim (Utf8.valid_append hvalidFront hvalid),
    Utf8.chars_append hvalidFront hvalid, hstart, Lists.takeWhile_rdropWhile hblank,
    List.takeWhile_append_of_pos fun c hc => (hsolid c hc).2, List.flatten_append,
    Utf8.flatten_chars]

/-- An encoding is made of characters of base64. -/
theorem mem_i2pBase64Encode {data : Bytes} {b : UInt8} (h : b ∈ i2pBase64Encode data) :
    b = PAD ∨ b ∈ I2P_B64_ALPHABET := by
  obtain ⟨groups, pad, fill, htext, hspells, -⟩ := spells_i2pBase64Encode data
  rw [htext] at h
  cases List.mem_append.1 h with
  | inl hsymbol =>
      obtain ⟨d, hd, rfl⟩ := List.mem_map.1 hsymbol
      exact .inr (Symbols.Alphabet.symbol_mem alphabet_b64 (hspells.digits d hd))
  | inr hpad => exact .inl (List.eq_of_mem_replicate hpad)

variable {d : Destination} {rest suffix : Bytes}

theorem encode_ne_nil (d : Destination) (rest : Bytes) : i2pBase64Encode (d.bytes ++ rest) ≠ [] := by
  intro hnil
  have hread := i2pBase64Decode_i2pBase64Encode (d.bytes ++ rest)
  rw [hnil, show i2pBase64Decode [] = some [] from rfl] at hread
  have hlength := congrArg List.length (Option.some.inj hread)
  rw [List.length_append, d.length_bytes, CERT_HEADER, List.length_nil] at hlength
  omega

/-- What comes before a character that is not taken is decoded. -/
theorem destinationBytes_of_cut (hvalid : Utf8.valid suffix = true)
    (hcut : ∀ c ∈ (Utf8.chars suffix).head?, taken c = false) :
    destinationBytes (i2pBase64Encode (d.bytes ++ rest) ++ suffix) = some d.bytes := by
  have hnone : (Utf8.chars suffix).takeWhile taken = [] := by
    cases hchars : Utf8.chars suffix with
    | nil => rfl
    | cons c cs =>
        rw [hchars] at hcut
        exact List.takeWhile_cons_of_neg (by simp [hcut c rfl])
  rw [destinationBytes]
  simp only [takeWhile_trim (encode_ne_nil d rest) (fun b hb => mem_i2pBase64Encode hb) hvalid,
    hnone, List.flatten_nil, List.append_nil, i2pBase64Decode_i2pBase64Encode, Option.bind_some,
    d.destinationLen_append, Option.map_some, List.take_left']

/-- Nothing is decoded with a character that is taken and is none of base64. -/
theorem destinationBytes_of_taken {c : Bytes} (hvalid : Utf8.valid suffix = true)
    (hhead : c ∈ (Utf8.chars suffix).head?) (hforeign : Foreign c) (htaken : taken c = true) :
    destinationBytes (i2pBase64Encode (d.bytes ++ rest) ++ suffix) = none := by
  have hmem : c ∈ Utf8.chars suffix := List.mem_of_head? hhead
  obtain ⟨b, hb, hpad, hout⟩ :=
    hforeign.exists_notMem (Utf8.isChar_of_mem_chars hvalid c hmem) htaken
  have hin : b ∈ ((Utf8.chars suffix).takeWhile taken).flatten := by
    cases hchars : Utf8.chars suffix with
    | nil => rw [hchars] at hmem; cases hmem
    | cons c' cs =>
        rw [hchars] at hhead
        obtain rfl := Option.some.inj hhead
        rw [List.takeWhile_cons_of_pos htaken]
        exact List.mem_flatten.2 ⟨c', List.mem_cons_self, hb⟩
  have hrefused : i2pBase64Decode (i2pBase64Encode (d.bytes ++ rest) ++
      ((Utf8.chars suffix).takeWhile taken).flatten) = none := by
    rw [← Option.not_isSome_iff_eq_none, i2pBase64Decode_isSome_iff]
    rintro ⟨-, hall, -⟩
    exact hout (hall b (List.mem_filter.2 ⟨List.mem_append_right _ hin, by simpa using hpad⟩))
  rw [destinationBytes]
  simp only [takeWhile_trim (encode_ne_nil d rest) (fun b hb => mem_i2pBase64Encode hb) hvalid,
    hrefused, Option.bind_none]

/-- A destination of zeros, with no payload. -/
def Destination.zeros : Destination :=
  ⟨List.replicate CERT_OFFSET 0, 0, [], List.length_replicate, by decide⟩

instance (c : Bytes) : Decidable (Foreign c) := inferInstanceAs (Decidable (_ ∧ _))

/-- A destination's identity is its leading run of base64, exactly if the first character of the
suffix is none even when its code point is cut to a byte; else there is no identity at all.  With
that the private keys after the destination and the suffix count for nothing. -/
theorem destination_cut_iff (sha256 : Bytes → DestHash) (d : Destination) (rest suffix : Bytes)
    (hvalid : Utf8.valid suffix = true)
    (hforeign : ∀ c ∈ (Utf8.chars suffix).head?, Foreign c) :
    (destinationBytes (i2pBase64Encode (d.bytes ++ rest) ++ suffix) = some d.bytes ∧
      fromB64Destination sha256 (i2pBase64Encode (d.bytes ++ rest) ++ suffix) =
        fromB64Destination sha256 (i2pBase64Encode d.bytes)) ↔
    ∀ c ∈ (Utf8.chars suffix).head?, UInt8.ofNat (Utf8.codePoint c) ∉ I2P_B64_ALPHABET := by
  have htaken : ∀ c ∈ (Utf8.chars suffix).head?,
      (taken c = false ↔ UInt8.ofNat (Utf8.codePoint c) ∉ I2P_B64_ALPHABET) := by
    intro c hc
    rw [taken, Bool.or_eq_false_iff]
    simp [(hforeign c hc).1]
  constructor
  · rintro ⟨hsome, -⟩ c hc
    rw [← htaken c hc, ← Bool.not_eq_true]
    intro hin
    rw [destinationBytes_of_taken hvalid hc (hforeign c hc) hin] at hsome
    cases hsome
  · intro hcut
    have hsuffix : destinationBytes (i2pBase64Encode (d.bytes ++ rest) ++ suffix) = some d.bytes :=
      destinationBytes_of_cut hvalid fun c hc => (htaken c hc).2 (hcut c hc)
    have hplain : destinationBytes (i2pBase64Encode (d.bytes ++ []) ++ []) = some d.bytes :=
      destinationBytes_of_cut rfl (by simp [Utf8.chars])
    rw [List.append_nil, List.append_nil] at hplain
    refine ⟨hsuffix, ?_⟩
    rw [fromB64Destination, fromB64Destination, hsuffix, hplain]

theorem destination_cut_iff_zeros :
    (destinationBytes (i2pBase64Encode (Destination.zeros.bytes ++ [7]) ++ ascii " A") =
        some Destination.zeros.bytes ∧
      fromB64Destination (fun _ => ⟨List.replicate 32 0, rfl⟩)
          (i2pBase64Encode (Destination.zeros.bytes ++ [7]) ++ ascii " A") =
        fromB64Destination (fun _ => ⟨List.replicate 32 0, rfl⟩)
          (i2pBase64Encode Destination.zeros.bytes)) ↔
    ∀ c ∈ (Utf8.chars (ascii " A")).head?, UInt8.ofNat (Utf8.codePoint c) ∉ I2P_B64_ALPHABET :=
  destination_cut_iff (fun _ => ⟨List.replicate 32 0, rfl⟩) Destination.zeros [7] (ascii " A")
    (by decide +kernel) (fun c hc => by
      obtain rfl : [32] = c := Option.some.inj hc
      decide +kernel)

/-- The letter U+0141 is none of base64, and its code point cut to a byte is `A`. -/
theorem destination_uncut :
    Utf8.valid [197, 129] = true ∧ Foreign [197, 129] ∧
      destinationBytes (i2pBase64Encode (Destination.zeros.bytes ++ []) ++ [197, 129]) ≠
        some Destination.zeros.bytes := by
  have hvalid : Utf8.valid [197, 129] = true := by decide
  have hforeign : Foreign [197, 129] := by decide +kernel
  refine ⟨hvalid, hforeign, ?_⟩
  rw [destinationBytes_of_taken hvalid (c := [197, 129]) rfl hforeign (by decide +kernel)]
  exact nofun

end Clove.Addr
