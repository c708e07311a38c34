import Clove.Resume
import Clove.BencodeCanonical

/-!
# The resume format over its versions

`Reads root r` lists what a dictionary says when it is the file of a record, and `decode`
accepts that and nothing else (`decode_eq_ok_iff`).  The three results on the format read it in
one direction or the other: a record that is `Storable` is read back, what is read is storable,
and a file of an older version is read with the fields it lacks at their defaults
(`format_kept`).
-/

namespace Clove.Resume

open Bencode (Value WellFormed MAX_DEPTH)
open Utf8 (ascii)

/-! ## What a file says -/

/-- The dictionary of a file of this record. -/
structure Reads (root : Value) (r : Resume) : Prop where
  keys : ∃ dict, root.asDict = some dict ∧ ∀ e ∈ dict, KEYS.contains e.1 = true
  version : ∃ v, (root.get (ascii "version")).bind (·.asInt) = some v ∧ 1 ≤ v ∧ v ≤ VERSION
  infoHash : (root.get (ascii "info_hash")).bind (·.asBytes) = some r.infoHash
  length : r.infoHash.length = 20
  numPieces : (root.get (ascii "num_pieces")).bind (·.asInt) = some (r.numPieces : Int)
  pos : 1 ≤ r.numPieces
  small : r.numPieces < 4294967296
  have_ : bitfield root (ascii "have") r.numPieces = .ok r.have_
  verified : bitfield root (ascii "verified") r.numPieces = .ok r.verified
  subset : overclaims r.verified r.have_ = false
  priorities : (root.get (ascii "priorities")).bind (·.asBytes) = some r.priorities
  low : ∀ p ∈ r.priorities, p ≤ 2
  uploaded : (root.get (ascii "uploaded")).bind (·.asInt) = some (r.uploaded : Int)
  downloaded : (root.get (ascii "downloaded")).bind (·.asInt) = some (r.downloaded : Int)
  paused : flag root (ascii "paused") = r.paused
  sequential : flag root (ascii "sequential") = r.sequential
  added : number root (ascii "added") = r.added
  pauseReason : ((root.get (ascii "pause_reason")).bind (·.asInt)).getD 0 = r.pauseReason
  seedRatioMilli : number root (ascii "seed_ratio_milli") = r.seedRatioMilli

theorem toNat?_eq_some {i : Int} {n : Nat} : toNat? i = some n ↔ i = n := by
  unfold toNat?
  split
  · simp only [Option.some.injEq]
    omega
  · simp only [reduceCtorEq, false_iff]
    omega

theorem require_eq_ok {α : Type} {what : String} {o : Option α} {a : α} :
    require what o = .ok a ↔ o = some a := by
  cases o with
  | none => simp [require]
  | some b => simp [require]

theorem counter_eq_ok {root : Value} {key : Bytes} {n : Nat} :
    counter root key = .ok n ↔ (root.get key).bind (·.asInt) = some (n : Int) := by
  unfold counter
  rw [require_eq_ok, Option.bind_eq_some_iff]
  simp only [toNat?_eq_some, exists_eq_right]

theorem count_eq_some {o : Option Int} {n : Nat} :
    (((o.bind toNat?).filter (· < 4294967296)).filter (1 ≤ ·)) = some n ↔
      o = some (n : Int) ∧ n < 4294967296 ∧ 1 ≤ n := by
  simp only [Option.filter_eq_some_iff, Option.bind_eq_some_iff, toNat?_eq_some, exists_eq_right,
    decide_eq_true_eq, and_assoc]

/-- The decoder accepts the files of a record and nothing else. -/
theorem decode_eq_ok_iff {input : Bytes} {r : Resume} :
    decode input = .ok r ↔ ∃ root, Bencode.decode input = .ok root ∧ Reads root r := by
  constructor
  · intro h
    unfold decode at h
    obtain ⟨root, hroot, h⟩ := Except.ok_of_bind h
    obtain ⟨dict, hdict, h⟩ := Except.ok_of_bind h
    obtain ⟨version, hversion, h⟩ := Except.ok_of_bind h
    obtain ⟨-, h⟩ | ⟨hnew, h⟩ := ite_eq_iff.1 h
    · cases h
    obtain ⟨-, h⟩ | ⟨hold, h⟩ := ite_eq_iff.1 h
    · cases h
    obtain ⟨-, h⟩ | ⟨hkeys, h⟩ := ite_eq_iff.1 h
    · cases h
    obtain ⟨infoHash, hhash, h⟩ := Except.ok_of_bind h
    simp only [Except.ok_bind, Except.error_bind] at h
    obtain ⟨hlen, h⟩ | ⟨-, h⟩ := ite_eq_iff.1 h
    swap
    · cases h
    obtain ⟨numPieces, hcount, h⟩ := Except.ok_of_bind h
    obtain ⟨have_, hhave, h⟩ := Except.ok_of_bind h
    obtain ⟨verified, hverified, h⟩ := Except.ok_of_bind h
    obtain ⟨-, h⟩ | ⟨hsubset, h⟩ := ite_eq_iff.1 h
    · cases h
    obtain ⟨priorities, hpriorities, h⟩ := Except.ok_of_bind h
    obtain ⟨-, h⟩ | ⟨hlow, h⟩ := ite_eq_iff.1 h
    · cases h
    obtain ⟨uploaded, huploaded, h⟩ := Except.ok_of_bind h
    obtain ⟨downloaded, hdownloaded, h⟩ := Except.ok_of_bind h
    obtain rfl := Except.ok.inj h
    obtain ⟨hcount, hsmall, hpos⟩ := count_eq_some.1 (require_eq_ok.1 hcount)
    refine ⟨root, Except.ok_of_mapError hroot, ?_⟩
    exact
      { keys := ⟨dict, require_eq_ok.1 hdict, by simpa using hkeys⟩
        version := ⟨version, require_eq_ok.1 hversion, Int.not_lt.1 hold, Int.not_lt.1 hnew⟩
        infoHash := require_eq_ok.1 hhash
        length := hlen
        numPieces := hcount
        pos := hpos
        small := hsmall
        have_ := hhave
        verified := hverified
        subset := Bool.not_eq_true _ ▸ hsubset
        priorities := require_eq_ok.1 hpriorities
        low := by simpa using hlow
        uploaded := counter_eq_ok.1 huploaded
        downloaded := counter_eq_ok.1 hdownloaded
        paused := rfl
        sequential := rfl
        added := rfl
        pauseReason := rfl
        seedRatioMilli := rfl }
  · rintro ⟨root, hroot, h⟩
    obtain ⟨dict, hdict, hkeys⟩ := h.keys
    obtain ⟨version, hversion, hold, hnew⟩ := h.version
    have hany : dict.any (fun e => !KEYS.contains e.1) = false := by
      simpa using hkeys
    have hlow : r.priorities.any (2 < ·) = false := by
      simpa using h.low
    have hcount := count_eq_some.2 ⟨h.numPieces, h.small, h.pos⟩
    unfold decode
    rw [hroot]
    simp only [Except.mapError, Except.ok_bind, require_eq_ok.2 hdict, require_eq_ok.2 hversion,
      Int.not_lt.2 hold, Int.not_lt.2 hnew, hany, require_eq_ok.2 h.infoHash, h.length,
      require_eq_ok.2 hcount, h.have_, h.verified, h.subset, require_eq_ok.2 h.priorities, hlow,
      counter_eq_ok.2 h.uploaded, counter_eq_ok.2 h.downloaded, h.paused, h.sequential, h.added,
      h.pauseReason, h.seedRatioMilli, if_true, if_false, Bool.false_eq_true]
    rfl

/-! ## Records a file can hold -/

/-- Counters are at most `i64::MAX`. -/
def I64_MAX : Nat := 9223372036854775807

/-- A record that a file can hold as it is. -/
structure Storable (r : Resume) : Prop extends Shaped r where
  subset : ∀ i, bitAt r.verified i = true → bitAt r.have_ i = true
  uploaded : r.uploaded ≤ I64_MAX
  downloaded : r.downloaded ≤ I64_MAX
  added : r.added ≤ I64_MAX
  seedRatioMilli : r.seedRatioMilli ≤ I64_MAX

/-- A bitfield is accepted if it has the right length and no bit past its end. -/
theorem bitfield_eq_ok {root : Value} {key bytes : Bytes} {n : Nat} :
    bitfield root key n = .ok bytes ↔ (root.get key).bind (·.asBytes) = some bytes ∧
      ∃ b : Bitfield, b.bits = bytes ∧ b.len = n := by
  constructor
  · intro h
    unfold bitfield at h
    obtain ⟨raw, hraw, h⟩ := Except.ok_of_bind h
    obtain ⟨-, h⟩ | ⟨hlen, h⟩ := ite_eq_iff.1 h
    · cases h
    obtain ⟨-, h⟩ | ⟨hspare, h⟩ := ite_eq_iff.1 h
    · cases h
    obtain rfl := Except.ok.inj h
    have hlen : raw.length = byteLen n := not_not.1 hlen
    refine ⟨require_eq_ok.1 hraw, ⟨raw, n, hlen, (spare_iff hlen).2 fun hused => ?_⟩, rfl, rfl⟩
    rw [List.getD_eq_getElem?_getD, ← List.getLast?_eq_getElem?]
    cases hlast : raw.getLast? with
    | none => simp
    | some x =>
        rw [hlast] at hspare
        simpa [hused] using hspare
  · rintro ⟨hget, b, rfl, rfl⟩
    exact bitfield_bits hget

/-- The bytewise test of a record in shape. -/
theorem Shaped.overclaims_iff {r : Resume} (h : r.Shaped) :
    overclaims r.verified r.have_ = false ↔
      ∀ i, bitAt r.verified i = true → bitAt r.have_ i = true := by
  obtain ⟨b, hb, hblen⟩ := h.have_
  obtain ⟨v, hv, hvlen⟩ := h.verified
  have hhas (b : Bitfield) (i : Nat) : b.has i = bitAt b.bits i := by
    by_cases hi : i < b.len
    · simp [Bitfield.has, hi]
    · simp [Bitfield.has, hi, b.spare i (Nat.le_of_not_lt hi)]
  rw [← hb, ← hv, overclaims_bits (hvlen.trans hblen.symm)]
  simp only [hhas]

theorem saturate_of_le {n : Nat} (h : n ≤ I64_MAX) : saturate n = n := Nat.min_eq_left h

theorem Storable.saturated_eq {r : Resume} (h : r.Storable) : r.saturated = r := by
  rw [saturated, saturate_of_le h.uploaded, saturate_of_le h.downloaded, saturate_of_le h.added,
    saturate_of_le h.seedRatioMilli]

/-- A storable record is read back. -/
theorem Storable.decode_encode {r : Resume} (h : r.Storable) : decode r.encode = .ok r := by
  rw [Resume.decode_encode h.toShaped, h.toShaped.overclaims_iff.2 h.subset, h.saturated_eq]
  rfl

/-- The integers of a file that was decoded are `i64`. -/
theorem inI64_of_get {n : Nat} {root : Value} {key : Bytes} {i : Int}
    (hroot : WellFormed (n + 2) root) (hget : (root.get key).bind (·.asInt) = some i) :
    Bencode.inI64 i = true := by
  obtain ⟨v, hv, hint⟩ := Option.bind_eq_some_iff.1 hget
  have hwell := hroot.get hv
  cases v with
  | int i => exact Option.some.inj hint ▸ hwell
  | bytes b => cases hint
  | list vs => cases hint
  | dict m => cases hint

theorem le_of_inI64 {n : Nat} (h : Bencode.inI64 (n : Int) = true) : n ≤ I64_MAX := by
  simp only [Bencode.inI64, Bool.and_eq_true, decide_eq_true_eq] at h
  unfold I64_MAX
  omega

theorem number_le {n : Nat} {root : Value} {key : Bytes} (hroot : WellFormed (n + 2) root) :
    number root key ≤ I64_MAX := by
  unfold number
  cases hread : ((root.get key).bind (·.asInt)).bind toNat? with
  | none => exact Nat.zero_le _
  | some k =>
      obtain ⟨i, hi, hk⟩ := Option.bind_eq_some_iff.1 hread
      rw [toNat?_eq_some.1 hk] at hi
      exact le_of_inI64 (inI64_of_get hroot hi)

/-- What is read is storable. -/
theorem Reads.storable {n : Nat} {root : Value} {r : Resume} (h : Reads root r)
    (hroot : WellFormed (n + 2) root) : r.Storable := by
  have hshaped : r.Shaped :=
    { infoHash := h.length
      pos := h.pos
      numPieces := h.small
      have_ := (bitfield_eq_ok.1 h.have_).2
      verified := (bitfield_eq_ok.1 h.verified).2
      priorities := h.low
      files := by
        obtain ⟨v, hv, hbytes⟩ := Option.bind_eq_some_iff.1 h.priorities
        have hwell := hroot.get hv
        cases v with
        | bytes b => exact Option.some.inj hbytes ▸ hwell
        | int i => cases hbytes
        | list vs => cases hbytes
        | dict m => cases hbytes
      pauseReason := by
        rw [← h.pauseReason]
        cases hread : (root.get (ascii "pause_reason")).bind (·.asInt) with
        | none => rfl
        | some i => exact inI64_of_get hroot hread }
  exact
    { hshaped with
      subset := hshaped.overclaims_iff.1 h.subset
      uploaded := le_of_inI64 (inI64_of_get hroot h.uploaded)
      downloaded := le_of_inI64 (inI64_of_get hroot h.downloaded)
      added := h.added ▸ number_le hroot
      seedRatioMilli := h.seedRatioMilli ▸ number_le hroot }

theorem storable_of_decode {input : Bytes} {r : Resume} (h : decode input = .ok r) :
    r.Storable := by
  obtain ⟨root, hroot, hreads⟩ := decode_eq_ok_iff.1 h
  exact hreads.storable (Bencode.decode_eq_ok_iff.1 hroot).wellFormed

/-! ## Files of older versions -/

/-- A field that a later version added. -/
inductive OptionalField where
  | paused
  | sequential
  | added
  | pauseReason
  | seedRatioMilli
deriving Repr, DecidableEq

def OptionalField.key : OptionalField → Bytes
  | .paused => ascii "paused"
  | .sequential => ascii "sequential"
  | .added => ascii "added"
  | .pauseReason => ascii "pause_reason"
  | .seedRatioMilli => ascii "seed_ratio_milli"

/-- The version that added it. -/
def OptionalField.since : OptionalField → Int
  | .paused => 2
  | .sequential => 3
  | .added => 4
  | .pauseReason => 5
  | .seedRatioMilli => 5

/-- A record with these fields at their defaults. -/
def without (r : Resume) (dropped : List OptionalField) : Resume :=
  { r with
    paused := if .paused ∈ dropped then false else r.paused
    sequential := if .sequential ∈ dropped then false else r.sequential
    added := if .added ∈ dropped then 0 else r.added
    pauseReason := if .pauseReason ∈ dropped then 0 else r.pauseReason
    seedRatioMilli := if .seedRatioMilli ∈ dropped then 0 else r.seedRatioMilli }

/-- The dictionary of an older file: its version, without some optional keys, and with the
retired one. -/
def olderEntries (r : Resume) (version : Int) (dropped : List OptionalField) (trackers : Value) :
    List (Bytes × Value) :=
  OrdMap.insert (ascii "trackers") trackers
    (OrdMap.insert (ascii "version") (.int version)
      (r.entries.filter fun e => e.1 ∉ dropped.map OptionalField.key))

def olderFile (r : Resume) (version : Int) (dropped : List OptionalField) (trackers : Value) :
    Bytes :=
  Bencode.encode (.dict (r.olderEntries version dropped trackers))

theorem OptionalField.key_injective : Function.Injective OptionalField.key := by
  intro f g h
  cases f <;> cases g <;> first | rfl | exact absurd h (by decide)

theorem lookup_olderEntries (r : Resume) (version : Int) (dropped : List OptionalField)
    (trackers : Value) {key : Bytes} (htrackers : key ≠ ascii "trackers")
    (hversion : key ≠ ascii "version") :
    (r.olderEntries version dropped trackers).lookup key =
      if key ∈ dropped.map OptionalField.key then none else r.entries.lookup key := by
  rw [olderEntries, OrdMap.lookup_insert_ne htrackers, OrdMap.lookup_insert_ne hversion,
    OrdMap.lookup_filter (fun k => k ∉ dropped.map OptionalField.key)]
  by_cases hkey : key ∈ dropped.map OptionalField.key
  · simp [hkey]
  · simp [hkey]

theorem wellFormed_olderEntries {r : Resume} (h : r.Shaped) {version : Int}
    (hversion : Bencode.inI64 version = true) (dropped : List OptionalField) {trackers : Value}
    (htrackers : WellFormed (MAX_DEPTH - 1) trackers) :
    WellFormed MAX_DEPTH (.dict (r.olderEntries version dropped trackers)) := by
  obtain ⟨hold, hfields⟩ := (Bencode.wellFormed_dict (MAX_DEPTH - 1)).1 h.wellFormed
  have hsorted : OrdMap.Sorted (r.olderEntries version dropped trackers) :=
    OrdMap.sorted_insert _ _ (OrdMap.sorted_insert _ _ (hold.filter _))
  have hentries : ∀ e ∈ r.olderEntries version dropped trackers,
      Bencode.inUsize e.1.length = true ∧ WellFormed (MAX_DEPTH - 1) e.2 := by
    intro e he
    rcases OrdMap.mem_insert he with rfl | he
    · exact ⟨(by decide : Bencode.inUsize (ascii "trackers").length = true), htrackers⟩
    · rcases OrdMap.mem_insert he with rfl | he
      · exact ⟨(by decide : Bencode.inUsize (ascii "version").length = true), hversion⟩
      · exact hfields.forall e (List.mem_filter.1 he).1
  exact WellFormed.dict hsorted hentries

/-- The fields every version has. -/
def REQUIRED : List Bytes :=
  ["info_hash", "num_pieces", "have", "verified", "priorities", "uploaded", "downloaded"].map ascii

theorem required_apart : ∀ key ∈ REQUIRED, key ≠ ascii "trackers" ∧ key ≠ ascii "version" ∧
    ∀ f : OptionalField, f.key ≠ key := by
  have hall : ∀ key ∈ REQUIRED, key ≠ ascii "trackers" ∧ key ≠ ascii "version" ∧
      ∀ f ∈ [OptionalField.paused, .sequential, .added, .pauseReason, .seedRatioMilli],
        f.key ≠ key := by decide
  intro key hkey
  obtain ⟨htrackers, hversion, hopt⟩ := hall key hkey
  exact ⟨htrackers, hversion, fun f => hopt f (by cases f <;> decide)⟩

theorem get_dict (m : List (Bytes × Value)) (key : Bytes) :
    (Value.dict m).get key = m.lookup key := rfl

theorem Storable.reads {r : Resume} (h : r.Storable) : Reads (.dict r.entries) r := by
  obtain ⟨root, hroot, hreads⟩ := decode_eq_ok_iff.1 h.decode_encode
  rw [encode, Bencode.decode_encode h.toShaped.wellFormed] at hroot
  exact Except.ok.inj hroot ▸ hreads

/-- An older file says the record, with what it lacks at the defaults. -/
theorem reads_olderEntries {r : Resume} (h : r.Storable) {version : Int} (hfirst : 1 ≤ version)
    (hlast : version ≤ VERSION) (dropped : List OptionalField) (trackers : Value) :
    Reads (.dict (r.olderEntries version dropped trackers)) (r.without dropped) := by
  have hnew := h.reads
  have hrequired (key : Bytes) (hkey : key ∈ REQUIRED) :
      (Value.dict (r.olderEntries version dropped trackers)).get key =
        (Value.dict r.entries).get key := by
    obtain ⟨htrackers, hversion, hopt⟩ := required_apart key hkey
    rw [get_dict, get_dict, lookup_olderEntries r version dropped trackers htrackers hversion,
      if_neg ?_]
    intro hmem
    obtain ⟨f, -, hf⟩ := List.mem_map.1 hmem
    exact hopt f hf
  have hoptional (f : OptionalField) :
      (Value.dict (r.olderEntries version dropped trackers)).get f.key =
        if f ∈ dropped then none else (Value.dict r.entries).get f.key := by
    have htrackers : f.key ≠ ascii "trackers" := by cases f <;> decide
    have hversion : f.key ≠ ascii "version" := by cases f <;> decide
    rw [get_dict, get_dict, lookup_olderEntries r version dropped trackers htrackers hversion]
    simp only [List.mem_map_of_injective OptionalField.key_injective]
  have hversion : (Value.dict (r.olderEntries version dropped trackers)).get (ascii "version") =
      some (.int version) := by
    rw [get_dict, olderEntries, OrdMap.lookup_insert_ne (by decide), OrdMap.lookup_insert_self]
  have hkeys : ∀ e ∈ r.olderEntries version dropped trackers, KEYS.contains e.1 = true := by
    intro e he
    rcases OrdMap.mem_insert he with rfl | he
    · exact (by decide : KEYS.contains (ascii "trackers") = true)
    · rcases OrdMap.mem_insert he with rfl | he
      · exact (by decide : KEYS.contains (ascii "version") = true)
      · exact r.keys_known e (List.mem_filter.1 he).1
  generalize hroot : Value.dict (r.olderEntries version dropped trackers) = root at *
  generalize Value.dict r.entries = new at *
  have hflag (f : OptionalField) :
      flag root f.key = if f ∈ dropped then false else flag new f.key := by
    rw [flag, hoptional]
    split <;> rfl
  have hnumber (f : OptionalField) :
      number root f.key = if f ∈ dropped then 0 else number new f.key := by
    rw [number, hoptional]
    split <;> rfl
  have hfield (key : Bytes) (bits : Bytes) (hkey : key ∈ REQUIRED)
      (hread : bitfield new key r.numPieces = .ok bits) :
      bitfield root key r.numPieces = .ok bits := by
    rw [bitfield_eq_ok, hrequired key hkey]
    exact bitfield_eq_ok.1 hread
  exact
    { keys := ⟨_, hroot ▸ rfl, hkeys⟩
      version := ⟨version, by rw [hversion]; rfl, hfirst, hlast⟩
      infoHash := by
        rw [hrequired _ (by decide)]
        exact hnew.infoHash
      length := hnew.length
      numPieces := by
        rw [hrequired _ (by decide)]
        exact hnew.numPieces
      pos := hnew.pos
      small := hnew.small
      have_ := hfield _ _ (by decide) hnew.have_
      verified := hfield _ _ (by decide) hnew.verified
      subset := hnew.subset
      priorities := by
        rw [hrequired _ (by decide)]
        exact hnew.priorities
      low := hnew.low
      uploaded := by
        rw [hrequired _ (by decide)]
        exact hnew.uploaded
      downloaded := by
        rw [hrequired _ (by decide)]
        exact hnew.downloaded
      paused := by
        rw [without, ← hnew.paused]
        exact hflag .paused
      sequential := by
        rw [without, ← hnew.sequential]
        exact hflag .sequential
      added := by
        rw [without, ← hnew.added]
        exact hnumber .added
      pauseReason := by
        have hread := hoptional .pauseReason
        rw [without, ← hnew.pauseReason]
        change ((root.get (OptionalField.key .pauseReason)).bind (·.asInt)).getD 0 = _
        rw [hread]
        split <;> rfl
      seedRatioMilli := by
        rw [without, ← hnew.seedRatioMilli]
        exact hnumber .seedRatioMilli }

theorem decode_olderFile {r : Resume} (h : r.Storable) {version : Int} (hfirst : 1 ≤ version)
    (hlast : version ≤ VERSION) (dropped : List OptionalField) {trackers : Value}
    (htrackers : WellFormed (MAX_DEPTH - 1) trackers) :
    decode (r.olderFile version dropped trackers) = .ok (r.without dropped) := by
  have hversion : Bencode.inI64 version = true := by
    simp only [Bencode.inI64, Bool.and_eq_true, decide_eq_true_eq]
    unfold VERSION at hlast
    omega
  exact decode_eq_ok_iff.2 ⟨_,
    Bencode.decode_encode (wellFormed_olderEntries h.toShaped hversion dropped htrackers),
    reads_olderEntries h hfirst hlast dropped trackers⟩

/-! ## The format -/

/-- A storable record is read back, what is read is storable, and a file of a version before
the current one is read with what it lacks at the defaults, whatever its trackers are, as long
as the decoder goes that deep. -/
theorem format_kept :
    (∀ r : Resume, r.Storable → decode r.encode = .ok r) ∧
    (∀ input r, decode input = .ok r → r.Storable ∧ decode r.encode = .ok r) ∧
    ∀ (r : Resume) (version : Int) (dropped : List OptionalField) (trackers : Value),
      r.Storable → 1 ≤ version → version < VERSION → (∀ f ∈ dropped, version < f.since) →
      Bencode.Valid trackers → Bencode.height trackers < MAX_DEPTH →
      decode (r.olderFile version dropped trackers) = .ok (r.without dropped) := by
  refine ⟨fun r h => h.decode_encode, fun input r h => ?_, ?_⟩
  · have hstorable := storable_of_decode h
    exact ⟨hstorable, hstorable.decode_encode⟩
  · intro r version dropped trackers h hfirst hlast _ hvalid hheight
    exact decode_olderFile h hfirst hlast.le dropped
      (Bencode.wellFormed_of_valid hvalid (Nat.le_pred_of_lt hheight))

/-- A torrent of one piece that is not there yet. -/
def oneMissing : Resume where
  infoHash := List.replicate 20 7
  numPieces := 1
  have_ := [0]
  verified := [0]
  priorities := [1]
  uploaded := 0
  downloaded := 0
  paused := false
  sequential := false
  added := 0
  pauseReason := 0
  seedRatioMilli := 0

/-- Lists one in the other, `n + 1` deep. -/
def nested : Nat → Value
  | 0 => .list []
  | n + 1 => .list [nested n]

/-- A retired key that is ignored is still decoded. -/
theorem nested_trackers_refused : oneMissing.Storable ∧ Bencode.Valid (nested 31) ∧
    decode (oneMissing.olderFile 5 [] (nested 31)) = .error (.bencode ⟨210, .tooDeep⟩) := by
  have hvalid : ∀ n, Bencode.Valid (nested n) := by
    intro n
    induction n with
    | zero => exact trivial
    | succ n ih => exact ⟨ih, trivial⟩
  have hread : decode oneMissing.encode = .ok oneMissing := by decide +kernel
  exact ⟨storable_of_decode hread, hvalid 31, by decide +kernel⟩

end Clove.Resume
