import Clove.Lib.Utf8
import Clove.Bitfield
import Clove.BencodeGrammar

/-!
# Resume files

The model of `resume.rs`: what is kept of a torrent between two runs of the daemon, as one
bencoded dictionary.  A file is refused as a whole when any field of it is out of order, and
in particular when `verified` names a piece that `have` does not.  `decode_encode` says which
records come back.
-/

namespace Clove

open Bencode (Value)
open Utf8 (ascii)

namespace Resume

/-- Current resume-format version. -/
def VERSION : Int := 6

/-- The keys a file may have.  `trackers` is retired and still accepted. -/
def KEYS : List Bytes :=
  ["version", "info_hash", "num_pieces", "have", "verified", "priorities", "uploaded",
    "downloaded", "trackers", "paused", "sequential", "added", "pause_reason",
    "seed_ratio_milli"].map ascii

/-- Why a resume file was refused. -/
inductive Error where
  | bencode (e : Bencode.Error)
  /-- Written by a newer clove. -/
  | futureVersion (version : Int)
  /-- Structurally invalid; the text names the field. -/
  | invalid (what : String)
deriving Repr, DecidableEq

end Resume

/-- Everything clove needs to pick a torrent up again. -/
structure Resume where
  infoHash : Bytes
  numPieces : Nat
  have_ : Bytes
  verified : Bytes
  priorities : Bytes
  uploaded : Nat
  downloaded : Nat
  paused : Bool
  sequential : Bool
  added : Nat
  pauseReason : Int
  seedRatioMilli : Nat
deriving Repr, DecidableEq

namespace Resume

/-- `i64::try_from(n).unwrap_or(i64::MAX)`. -/
def saturate (n : Nat) : Nat := min n 9223372036854775807

/-- The dictionary of a record. -/
def entries (r : Resume) : List (Bytes × Value) :=
  OrdMap.ofEntries [
    (ascii "version", .int VERSION),
    (ascii "info_hash", .bytes r.infoHash),
    (ascii "num_pieces", .int r.numPieces),
    (ascii "have", .bytes r.have_),
    (ascii "verified", .bytes r.verified),
    (ascii "priorities", .bytes r.priorities),
    (ascii "uploaded", .int (saturate r.uploaded)),
    (ascii "downloaded", .int (saturate r.downloaded)),
    (ascii "paused", .int (if r.paused then 1 else 0)),
    (ascii "sequential", .int (if r.sequential then 1 else 0)),
    (ascii "added", .int (saturate r.added)),
    (ascii "pause_reason", .int r.pauseReason),
    (ascii "seed_ratio_milli", .int (saturate r.seedRatioMilli))]

/-- The bytes written. -/
def encode (r : Resume) : Bytes := Bencode.encode (.dict r.entries)

/-- `u64::try_from`. -/
def toNat? (i : Int) : Option Nat := if 0 ≤ i then some i.toNat else none

/-- A value, or the error for its absence. -/
def require {α : Type} (what : String) : Option α → Except Error α
  | some a => .ok a
  | none => .error (.invalid what)

/-- A bitfield of the file. -/
def bitfield (root : Value) (key : Bytes) (numPieces : Nat) : Except Error Bytes := do
  let bytes ← require "missing bitfield" ((root.get key).bind (·.asBytes))
  if bytes.length ≠ byteLen numPieces then
    .error (.invalid "bitfield length disagrees with num_pieces")
  else if numPieces % 8 ≠ 0 ∧ bytes.getLast?.any (· &&& spareMask (numPieces % 8) != 0) then
    .error (.invalid "bitfield has bits set past num_pieces")
  else .ok bytes

/-- A byte counter of the file. -/
def counter (root : Value) (key : Bytes) : Except Error Nat :=
  require "bad byte counter" (((root.get key).bind (·.asInt)).bind toNat?)

/-- A flag that older files do not have. -/
def flag (root : Value) (key : Bytes) : Bool := ((root.get key).bind (·.asInt)).any (· ≠ 0)

/-- A number that older files do not have. -/
def number (root : Value) (key : Bytes) : Nat :=
  (((root.get key).bind (·.asInt)).bind toNat?).getD 0

/-- Whether a byte of `verified` has a bit that `have` lacks. -/
def overclaims (verified have_ : Bytes) : Bool :=
  (verified.zip have_).any fun p => p.1 &&& ~~~ p.2 != 0

/-- Read and validate a file. -/
def decode (input : Bytes) : Except Error Resume := do
  let root ← (Bencode.decode input).mapError .bencode
  let dict ← require "top level is not a dictionary" root.asDict
  let version ← require "missing version" ((root.get (ascii "version")).bind (·.asInt))
  if VERSION < version then .error (.futureVersion version)
  else if version < 1 then .error (.invalid "nonsense version")
  else if dict.any (fun e => !KEYS.contains e.1) then
    .error (.invalid "unknown key: version discipline violated")
  else do
    let infoHash ← require "missing info_hash" ((root.get (ascii "info_hash")).bind (·.asBytes))
    let _ ← if infoHash.length = 20 then .ok () else .error (.invalid "info_hash is not 20 bytes")
    let numPieces ← require "bad num_pieces"
      (((((root.get (ascii "num_pieces")).bind (·.asInt)).bind toNat?).filter
        (· < 4294967296)).filter (1 ≤ ·))
    let have_ ← bitfield root (ascii "have") numPieces
    let verified ← bitfield root (ascii "verified") numPieces
    let _ ← if overclaims verified have_ then
      .error (.invalid "verified claims a piece have does not") else .ok ()
    let priorities ← require "missing priorities"
      ((root.get (ascii "priorities")).bind (·.asBytes))
    let _ ← if priorities.any (2 < ·) then .error (.invalid "priority out of range") else .ok ()
    let uploaded ← counter root (ascii "uploaded")
    let downloaded ← counter root (ascii "downloaded")
    return {
      infoHash := infoHash
      numPieces := numPieces
      have_ := have_
      verified := verified
      priorities := priorities
      uploaded := uploaded
      downloaded := downloaded
      paused := flag root (ascii "paused")
      sequential := flag root (ascii "sequential")
      added := number root (ascii "added")
      pauseReason := ((root.get (ascii "pause_reason")).bind (·.asInt)).getD 0
      seedRatioMilli := number root (ascii "seed_ratio_milli") }

/-! ## Reading back -/

/-- The dictionary in the order it is written. -/
theorem entries_eq (r : Resume) : r.entries = [
    (ascii "added", .int (saturate r.added)),
    (ascii "downloaded", .int (saturate r.downloaded)),
    (ascii "have", .bytes r.have_),
    (ascii "info_hash", .bytes r.infoHash),
    (ascii "num_pieces", .int r.numPieces),
    (ascii "pause_reason", .int r.pauseReason),
    (ascii "paused", .int (if r.paused then 1 else 0)),
    (ascii "priorities", .bytes r.priorities),
    (ascii "seed_ratio_milli", .int (saturate r.seedRatioMilli)),
    (ascii "sequential", .int (if r.sequential then 1 else 0)),
    (ascii "uploaded", .int (saturate r.uploaded)),
    (ascii "verified", .bytes r.verified),
    (ascii "version", .int VERSION)] := by
  rfl

/-- Every key written is a key that is read. -/
theorem keys_known (r : Resume) : ∀ e ∈ r.entries, KEYS.contains e.1 = true := by
  have hkeys : r.entries.map Prod.fst = ["added", "downloaded", "have", "info_hash", "num_pieces",
      "pause_reason", "paused", "priorities", "seed_ratio_milli", "sequential", "uploaded",
      "verified", "version"].map ascii := by
    rw [entries_eq]
    rfl
  have hknown : ∀ k ∈ r.entries.map Prod.fst, KEYS.contains k = true := by
    rw [hkeys]
    decide
  exact fun e he => hknown e.1 (List.mem_map_of_mem he)

/-- A byte has no bit that another lacks. -/
theorem and_not_eq_zero (x y : UInt8) :
    x &&& ~~~ y = 0 ↔ ∀ k < 8, x.toNat.testBit k = true → y.toNat.testBit k = true := by
  have hbits : x &&& ~~~ y = 0 ↔ ∀ k (hk : k < 8), (x &&& ~~~ y).toBitVec[k] = false := by
    rw [← UInt8.toBitVec_inj]
    constructor
    · intro h k hk
      rw [h]
      simp
    · intro h
      refine BitVec.eq_of_getElem_eq fun k hk => ?_
      rw [h k hk]
      simp
  have hget : ∀ (z : UInt8) k (hk : k < 8), z.toBitVec[k] = z.toNat.testBit k := fun z k hk => rfl
  rw [hbits]
  refine forall_congr' fun k => forall_congr' fun hk => ?_
  rw [UInt8.toBitVec_and, UInt8.toBitVec_not, BitVec.getElem_and, BitVec.getElem_not, hget, hget]
  cases x.toNat.testBit k <;> cases y.toNat.testBit k <;> simp

/-- The bytewise test is the subset test. -/
theorem overclaims_bits {v b : Bitfield} (hlen : v.len = b.len) :
    overclaims v.bits b.bits = false ↔ ∀ i, v.has i = true → b.has i = true := by
  have hsize : v.bits.length = b.bits.length := by rw [v.length_bits, b.length_bits, hlen]
  have hbytes : overclaims v.bits b.bits = false ↔
      ∀ k, v.bits.getD k 0 &&& ~~~ b.bits.getD k 0 = 0 := by
    unfold overclaims
    rw [List.any_eq_false]
    constructor
    · intro h k
      by_cases hk : k < v.bits.length
      · have hmem : (v.bits[k], b.bits[k]) ∈ v.bits.zip b.bits := by
          rw [List.mem_iff_getElem]
          exact ⟨k, by simp; omega, by simp⟩
        have := h _ hmem
        rw [List.getD_eq_getElem _ _ hk, List.getD_eq_getElem _ _ (hsize ▸ hk)]
        simpa using this
      · rw [List.getD_eq_default _ _ (Nat.le_of_not_lt hk)]
        simp
    · intro h p hp
      obtain ⟨k, hk, rfl⟩ := List.mem_iff_getElem.1 hp
      have hk' : k < v.bits.length ∧ k < b.bits.length := by simpa using hk
      have := h k
      rw [List.getD_eq_getElem _ _ hk'.1, List.getD_eq_getElem _ _ hk'.2] at this
      simpa using this
  rw [hbytes]
  constructor
  · intro h i hi
    have hlt := Bitfield.lt_of_has hi
    simp only [Bitfield.has, hlen, Bool.and_eq_true, decide_eq_true_eq, bitAt_eq] at hi ⊢
    exact ⟨hi.1, (and_not_eq_zero _ _).1 (h (i / 8)) (7 - i % 8) (by omega) hi.2⟩
  · intro h k
    refine (and_not_eq_zero _ _).2 fun j hj hbit => ?_
    -- bit `j` of byte `k` is the bit of this piece
    have hdiv : (8 * k + (7 - j)) / 8 = k := by omega
    have hmod : 7 - (8 * k + (7 - j)) % 8 = j := by omega
    have hv : bitAt v.bits (8 * k + (7 - j)) = true := by rw [bitAt_eq, hdiv, hmod, hbit]
    have hlt : 8 * k + (7 - j) < v.len := by
      by_contra hge
      rw [v.spare _ (Nat.le_of_not_lt hge)] at hv
      cases hv
    have := h (8 * k + (7 - j)) (by simp [Bitfield.has, hlt, hv])
    simp only [Bitfield.has, Bool.and_eq_true, bitAt_eq, hdiv, hmod] at this
    exact this.2

/-- A record whose fields are in order one by one. -/
structure Shaped (r : Resume) : Prop where
  infoHash : r.infoHash.length = 20
  pos : 1 ≤ r.numPieces
  numPieces : r.numPieces < 4294967296
  have_ : ∃ b : Bitfield, b.bits = r.have_ ∧ b.len = r.numPieces
  verified : ∃ b : Bitfield, b.bits = r.verified ∧ b.len = r.numPieces
  priorities : ∀ p ∈ r.priorities, p ≤ 2
  files : Bencode.inUsize r.priorities.length = true
  pauseReason : Bencode.inI64 r.pauseReason = true

/-- The record as the file can hold it. -/
def saturated (r : Resume) : Resume :=
  { r with
    uploaded := saturate r.uploaded
    downloaded := saturate r.downloaded
    added := saturate r.added
    seedRatioMilli := saturate r.seedRatioMilli }

theorem inI64_saturate (n : Nat) : Bencode.inI64 (saturate n) = true := by
  have hle : saturate n ≤ 9223372036854775807 := Nat.min_le_right _ _
  simp only [Bencode.inI64, Bool.and_eq_true, decide_eq_true_eq]
  omega

theorem inI64_flag (b : Bool) : Bencode.inI64 (if b then 1 else 0) = true := by
  cases b <;> rfl

theorem toNat?_ofNat (n : Nat) : toNat? (n : Int) = some n := by
  simp [toNat?]

/-- The bytes of a bitfield of fewer than `2 ^ 32` pieces can be written. -/
theorem inUsize_bits {b : Bitfield} (h : b.len < 4294967296) :
    Bencode.inUsize b.bits.length = true := by
  rw [b.length_bits, byteLen, Bencode.inUsize, decide_eq_true_eq]
  omega

theorem Shaped.wellFormed {r : Resume} (h : r.Shaped) :
    Bencode.WellFormed Bencode.MAX_DEPTH (.dict r.entries) := by
  have hhave : Bencode.inUsize r.have_.length = true := by
    obtain ⟨b, hbits, hlen⟩ := h.have_
    rw [← hbits]
    exact inUsize_bits (hlen ▸ h.numPieces)
  have hverified : Bencode.inUsize r.verified.length = true := by
    obtain ⟨v, hbits, hlen⟩ := h.verified
    rw [← hbits]
    exact inUsize_bits (hlen ▸ h.numPieces)
  have hhash : Bencode.inUsize r.infoHash.length = true := by
    rw [h.infoHash]
    rfl
  have hcount : Bencode.inI64 r.numPieces = true := by
    have := h.numPieces
    simp only [Bencode.inI64, Bool.and_eq_true, decide_eq_true_eq]
    omega
  refine ⟨OrdMap.sorted_ofEntries _, ?_⟩
  rw [entries_eq]
  exact ⟨rfl, inI64_saturate _, rfl, inI64_saturate _, rfl, hhave, rfl, hhash, rfl, hcount,
    rfl, h.pauseReason, rfl, inI64_flag _, rfl, h.files, rfl, inI64_saturate _, rfl,
    inI64_flag _, rfl, inI64_saturate _, rfl, hverified, rfl, rfl, trivial⟩

/-- A bitfield's own bytes are read back. -/
theorem bitfield_bits {root : Value} {key : Bytes} {b : Bitfield}
    (h : (root.get key).bind (·.asBytes) = some b.bits) : bitfield root key b.len = .ok b.bits := by
  have hspare := (spare_iff b.length_bits).1 b.spare
  unfold bitfield
  rw [h]
  simp only [require, Except.ok_bind]
  rw [if_neg (fun hne => hne b.length_bits), if_neg ?_]
  rintro ⟨hused, hany⟩
  rw [List.getLast?_eq_getElem?] at hany
  have hzero := hspare hused
  rw [List.getD_eq_getElem?_getD] at hzero
  cases hlast : b.bits[b.bits.length - 1]? with
  | none => simp [hlast] at hany
  | some x =>
      rw [hlast] at hany hzero
      simp_all

/-- A record in order comes back, unless it verifies a piece it does not have. -/
theorem decode_encode {r : Resume} (h : r.Shaped) :
    decode r.encode = if overclaims r.verified r.have_ then
      .error (.invalid "verified claims a piece have does not") else .ok r.saturated := by
  obtain ⟨b, hbits, hlen⟩ := h.have_
  obtain ⟨v, hvbits, hvlen⟩ := h.verified
  have hroot : Bencode.decode r.encode = .ok (.dict r.entries) :=
    Bencode.decode_encode h.wellFormed
  generalize hdict : Value.dict r.entries = root at hroot
  have hasdict : root.asDict = some r.entries := by
    rw [← hdict]
    rfl
  have hget : ∀ key, root.get key = r.entries.lookup key := by
    intro key
    rw [Value.get, hasdict, Option.bind_some]
  have hkeys : r.entries.any (fun e => !KEYS.contains e.1) = false := by
    simp only [List.any_eq_false, Bool.not_eq_true', Bool.not_eq_false]
    exact r.keys_known
  rw [entries_eq] at hget
  have hversion : (root.get (ascii "version")).bind (·.asInt) = some VERSION := by
    rw [hget]
    rfl
  have hhash : (root.get (ascii "info_hash")).bind (·.asBytes) = some r.infoHash := by
    rw [hget]
    rfl
  have hcount : ((((root.get (ascii "num_pieces")).bind (·.asInt)).bind toNat?).filter
      (· < 4294967296)).filter (1 ≤ ·) = some r.numPieces := by
    have hread : ((root.get (ascii "num_pieces")).bind (·.asInt)).bind toNat? =
        some r.numPieces := by
      rw [hget]
      exact toNat?_ofNat r.numPieces
    simp [hread, Option.filter, h.numPieces, h.pos]
  have hhave : bitfield root (ascii "have") r.numPieces = .ok r.have_ := by
    rw [← hlen, ← hbits]
    refine bitfield_bits ?_
    rw [hget, hbits]
    rfl
  have hverified : bitfield root (ascii "verified") r.numPieces = .ok r.verified := by
    rw [← hvlen, ← hvbits]
    refine bitfield_bits ?_
    rw [hget, hvbits]
    rfl
  have hpriorities : (root.get (ascii "priorities")).bind (·.asBytes) = some r.priorities := by
    rw [hget]
    rfl
  have hlow : r.priorities.any (2 < ·) = false := by
    simpa using h.priorities
  have hcounter : ∀ key n, (root.get key) = some (.int (saturate n)) →
      ((root.get key).bind (·.asInt)).bind toNat? = some (saturate n) := by
    intro key n hkey
    rw [hkey]
    exact toNat?_ofNat _
  have huploaded := hcounter (ascii "uploaded") r.uploaded (by rw [hget]; rfl)
  have hdownloaded := hcounter (ascii "downloaded") r.downloaded (by rw [hget]; rfl)
  have hadded := hcounter (ascii "added") r.added (by rw [hget]; rfl)
  have hratio := hcounter (ascii "seed_ratio_milli") r.seedRatioMilli (by rw [hget]; rfl)
  have hflag : ∀ key b, root.get key = some (.int (if b then 1 else 0)) → flag root key = b := by
    intro key b hkey
    unfold flag
    rw [hkey]
    cases b <;> rfl
  have hpaused := hflag (ascii "paused") r.paused (by rw [hget]; rfl)
  have hsequential := hflag (ascii "sequential") r.sequential (by rw [hget]; rfl)
  have hreason : (root.get (ascii "pause_reason")).bind (·.asInt) = some r.pauseReason := by
    rw [hget]
    rfl
  unfold decode
  rw [hroot]
  simp only [Except.mapError, Except.ok_bind, hasdict, require, hversion, hkeys, hhash, hcount,
    hhave, hverified, hpriorities, h.infoHash, hlow, counter, number, huploaded, hdownloaded,
    hadded, hratio, hpaused, hsequential, hreason, if_true, Bool.false_eq_true, if_false,
    Option.getD_some]
  rw [if_neg (by decide), if_neg (by decide)]
  split
  · rfl
  · rfl

/-- The priorities of a record that was read are in range. -/
theorem priorities_of_decode {input : Bytes} {r : Resume} (h : decode input = .ok r) :
    ∀ p ∈ r.priorities, p ≤ 2 := by
  unfold decode at h
  obtain ⟨root, -, h⟩ := Except.ok_of_bind h
  obtain ⟨dict, -, h⟩ := Except.ok_of_bind h
  obtain ⟨version, -, h⟩ := Except.ok_of_bind h
  split at h
  · cases h
  split at h
  · cases h
  split at h
  · cases h
  obtain ⟨infoHash, -, h⟩ := Except.ok_of_bind h
  simp only [Except.ok_bind, Except.error_bind] at h
  rw [ite_eq_iff] at h
  obtain ⟨-, h⟩ := h.resolve_right (by simp)
  obtain ⟨numPieces, -, h⟩ := Except.ok_of_bind h
  obtain ⟨have_, -, h⟩ := Except.ok_of_bind h
  obtain ⟨verified, -, h⟩ := Except.ok_of_bind h
  rw [ite_eq_iff] at h
  obtain ⟨-, h⟩ := h.resolve_left (by simp)
  obtain ⟨priorities, -, h⟩ := Except.ok_of_bind h
  rw [ite_eq_iff] at h
  obtain ⟨hlow, h⟩ := h.resolve_left (by simp)
  obtain ⟨uploaded, -, h⟩ := Except.ok_of_bind h
  obtain ⟨downloaded, -, h⟩ := Except.ok_of_bind h
  obtain rfl := Except.ok.inj h
  simpa using hlow

end Resume

end Clove
