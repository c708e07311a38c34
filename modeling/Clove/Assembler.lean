import Clove.Extension
import Clove.Lib.Lists
import Clove.Lib.Machine

/-!
# Putting metadata together

The model of `MetadataAssembler` (`metadata.rs`): the pieces of an info dictionary as they come
from a peer, and the dictionary once all are there and its hash is right.

`stripe` is what a piece of some bytes holds.  An assembler that was given the first pieces of
the bytes in order is `filled`, and the last of them makes it the bytes.  After any calls a slot
holds the first data that was accepted for it (`Holds`), so only the hash is trusted
(`assembly_exact`).
-/

namespace Clove

namespace Metadata

/-- Collects the pieces of an info dictionary. -/
structure MetadataAssembler where
  totalSize : Nat
  pieces : List (Option Bytes)
  /-- How many pieces are there. -/
  have_ : Nat
deriving DecidableEq

namespace MetadataAssembler

/-- Start on so many bytes. -/
def new (totalSize : Nat) : Except Error MetadataAssembler :=
  if totalSize = 0 ∨ MAX_METADATA_SIZE < totalSize then .error .badSize
  else
    let numPieces := (totalSize + (METADATA_PIECE_LEN - 1)) / METADATA_PIECE_LEN
    .ok ⟨totalSize, List.replicate numPieces none, 0⟩

def numPieces (asm : MetadataAssembler) : Nat := min asm.pieces.length U32_MAX

/-- How long a piece must be.  The last one is short. -/
def pieceLen (asm : MetadataAssembler) (index : Nat) : Nat :=
  let start := index * METADATA_PIECE_LEN
  if asm.totalSize ≤ start then 0 else min (asm.totalSize - start) METADATA_PIECE_LEN

/-- The pieces still needed. -/
def missing (asm : MetadataAssembler) : List Nat :=
  asm.pieces.zipIdx.filterMap fun p => if p.1.isNone then some (min p.2 U32_MAX) else none

/-- Store a piece. -/
def addPiece (asm : MetadataAssembler) (index : Nat) (data : Bytes) :
    Except Error MetadataAssembler :=
  match asm.pieces[index]? with
  | none => .error .badPiece
  | some slot =>
      if data.length ≠ asm.pieceLen index then .error .badPiece
      else if slot = none then
        .ok { asm with pieces := asm.pieces.set index (some data), have_ := asm.have_ + 1 }
      else .ok asm

def isComplete (asm : MetadataAssembler) : Bool := asm.have_ = asm.pieces.length

/-- The bytes, if they are all there and have the hash. -/
def finish (sha1 : Bytes → Bytes) (asm : MetadataAssembler) (expectedInfoHash : Bytes) :
    Option Bytes :=
  if asm.isComplete then
    (asm.pieces.mapM id).bind fun pieces =>
      if sha1 pieces.flatten = expectedInfoHash then some pieces.flatten else none
  else none

theorem sha1_of_finish {sha1 : Bytes → Bytes} {asm : MetadataAssembler} {hash b : Bytes}
    (h : asm.finish sha1 hash = some b) : sha1 b = hash := by
  unfold finish at h
  split at h
  · obtain ⟨pieces, -, hb⟩ := Option.bind_eq_some_iff.1 h
    split at hb
    · rename_i hhash
      obtain rfl := Option.some.inj hb
      exact hhash
    · cases hb
  · cases h

end MetadataAssembler

/-! ## The pieces of some bytes -/

/-- What a piece of the bytes holds. -/
def stripe (raw : Bytes) (i : Nat) : Bytes := (raw.drop (i * METADATA_PIECE_LEN)).take METADATA_PIECE_LEN

/-- How many pieces the bytes make. -/
def stripes (raw : Bytes) : Nat := (raw.length + (METADATA_PIECE_LEN - 1)) / METADATA_PIECE_LEN

theorem lt_stripes_iff (raw : Bytes) (i : Nat) :
    i < stripes raw ↔ i * METADATA_PIECE_LEN < raw.length := by
  unfold stripes METADATA_PIECE_LEN
  omega

theorem stripes_le {raw : Bytes} {n : Nat} (h : raw.length ≤ n * METADATA_PIECE_LEN) :
    stripes raw ≤ n := by
  unfold METADATA_PIECE_LEN at h
  unfold stripes METADATA_PIECE_LEN
  omega

theorem length_stripe (raw : Bytes) (i : Nat) :
    (stripe raw i).length = min (raw.length - i * METADATA_PIECE_LEN) METADATA_PIECE_LEN := by
  rw [stripe, List.length_take, List.length_drop, Nat.min_comm]

theorem flatten_stripes_take (raw : Bytes) (n : Nat) :
    ((List.range n).map (stripe raw)).flatten = raw.take (n * METADATA_PIECE_LEN) := by
  induction n with
  | zero => simp
  | succ n ih =>
      rw [List.range_succ, List.map_append, List.flatten_append, ih, List.map_singleton,
        List.flatten_singleton, stripe, Nat.succ_mul, List.take_add]

/-- The pieces are the bytes. -/
theorem flatten_stripes (raw : Bytes) :
    ((List.range (stripes raw)).map (stripe raw)).flatten = raw := by
  rw [flatten_stripes_take]
  refine List.take_of_length_le ?_
  unfold stripes METADATA_PIECE_LEN
  omega

namespace MetadataAssembler

/-- The assembler that has the first pieces of the bytes. -/
def filled (raw : Bytes) (n : Nat) : MetadataAssembler :=
  ⟨raw.length, (List.range (stripes raw)).map fun i => if i < n then some (stripe raw i) else none, n⟩

theorem new_eq_filled {raw : Bytes} (hne : raw ≠ []) (hle : raw.length ≤ MAX_METADATA_SIZE) :
    new raw.length = .ok (filled raw 0) := by
  have hpos : raw.length ≠ 0 := fun h => hne (List.length_eq_zero_iff.1 h)
  have hsome : ¬ (raw.length = 0 ∨ MAX_METADATA_SIZE < raw.length) := by omega
  have hpieces : List.replicate (stripes raw) (none : Option Bytes) =
      (List.range (stripes raw)).map fun i => if i < 0 then some (stripe raw i) else none := by
    refine List.ext_getElem? fun i => ?_
    by_cases hi : i < stripes raw
    · simp [hi]
    · simp [hi]
  unfold new
  rw [if_neg hsome]
  exact congrArg (fun l => Except.ok (MetadataAssembler.mk raw.length l 0)) hpieces

@[simp] theorem length_filled (raw : Bytes) (n : Nat) :
    (filled raw n).pieces.length = stripes raw := by
  simp [filled]

theorem numPieces_filled {raw : Bytes} (hle : raw.length ≤ MAX_METADATA_SIZE) (n : Nat) :
    (filled raw n).numPieces = stripes raw := by
  rw [numPieces, length_filled]
  refine Nat.min_eq_left ?_
  unfold MAX_METADATA_SIZE at hle
  unfold stripes METADATA_PIECE_LEN U32_MAX
  omega

theorem isComplete_filled (raw : Bytes) (n : Nat) :
    (filled raw n).isComplete = decide (n = stripes raw) := by
  rw [isComplete, length_filled]
  rfl

/-- The next piece goes in. -/
theorem addPiece_filled {raw : Bytes} {n : Nat} (hn : n < stripes raw) :
    (filled raw n).addPiece n (stripe raw n) = .ok (filled raw (n + 1)) := by
  have hslot : (filled raw n).pieces[n]? = some none := by simp [filled, hn]
  have hstart : n * METADATA_PIECE_LEN < raw.length := (lt_stripes_iff raw n).1 hn
  have hlen : (filled raw n).pieceLen n = (stripe raw n).length := by
    rw [length_stripe]
    exact if_neg (Nat.not_le.2 hstart)
  have hset : (filled raw n).pieces.set n (some (stripe raw n)) = (filled raw (n + 1)).pieces := by
    refine List.ext_getElem? fun i => ?_
    rw [List.getElem?_set, length_filled]
    by_cases hi : n = i
    · subst hi
      simp [filled, hn]
    · rw [if_neg hi]
      by_cases hlt : i < stripes raw
      · have hiff : i < n ↔ i < n + 1 := by omega
        simp [filled, hlt, hiff]
      · simp [filled, hlt]
  unfold addPiece
  simp only [hslot, hlen, ne_eq, not_true_eq_false, if_false, if_true, hset]
  rfl

theorem mapM_map_some (slots : List Bytes) : (slots.map some).mapM id = some slots := by
  induction slots with
  | nil => rfl
  | cons slot slots ih => simp [List.mapM_cons, ih]

/-- With all its pieces it is the bytes. -/
theorem finish_filled (sha1 : Bytes → Bytes) (raw : Bytes) :
    (filled raw (stripes raw)).finish sha1 (sha1 raw) = some raw := by
  have hpieces : (filled raw (stripes raw)).pieces = ((List.range (stripes raw)).map (stripe raw)).map some := by
    rw [List.map_map]
    refine List.map_congr_left fun i hi => ?_
    exact if_pos (List.mem_range.1 hi)
  unfold finish
  rw [isComplete_filled, decide_eq_true rfl, if_pos rfl, hpieces, mapM_map_some, Option.bind_some,
    flatten_stripes, if_pos rfl]

/-! ## Any calls -/

/-- One call, which is rejected or stores a piece. -/
def step (call : Nat × Bytes) (asm : MetadataAssembler) : MetadataAssembler :=
  (asm.addPiece call.1 call.2).toOption.getD asm

/-- What a call logs: itself, if it is accepted. -/
def accepted (call : Nat × Bytes) (asm : MetadataAssembler) : List (Nat × Bytes) :=
  if (asm.addPiece call.1 call.2).isOk then [call] else []

/-- What an assembler holds: the first data accepted for each slot, of the right length. -/
structure Holds (totalSize : Nat) (log : List (Nat × Bytes)) (asm : MetadataAssembler) : Prop where
  totalSize_eq : asm.totalSize = totalSize
  pieces_eq : asm.pieces =
    (List.range ((totalSize + (METADATA_PIECE_LEN - 1)) / METADATA_PIECE_LEN)).map fun i => log.lookup i
  have_eq : asm.have_ = asm.pieces.countP Option.isSome
  lengths : ∀ call ∈ log, call.2.length = asm.pieceLen call.1

/-- What a call does. -/
theorem addPiece_cases (asm : MetadataAssembler) (index : Nat) (data : Bytes) :
    (asm.addPiece index data = .error .badPiece ∧
      (asm.pieces.length ≤ index ∨ data.length ≠ asm.pieceLen index)) ∨
    (asm.pieces[index]? = some none ∧ data.length = asm.pieceLen index ∧
      asm.addPiece index data =
        .ok { asm with pieces := asm.pieces.set index (some data), have_ := asm.have_ + 1 }) ∨
    ∃ held, asm.pieces[index]? = some (some held) ∧ data.length = asm.pieceLen index ∧
      asm.addPiece index data = .ok asm := by
  unfold addPiece
  cases hslot : asm.pieces[index]? with
  | none => exact .inl ⟨rfl, .inl (List.getElem?_eq_none_iff.1 hslot)⟩
  | some slot =>
      by_cases hlength : data.length = asm.pieceLen index
      · cases slot with
        | none => exact .inr (.inl ⟨rfl, hlength, by simp [hlength]⟩)
        | some held => exact .inr (.inr ⟨held, rfl, hlength, by simp [hlength]⟩)
      · exact .inl ⟨by simp [hlength], .inr hlength⟩

/-- A new assembler holds nothing. -/
theorem holds_new {totalSize : Nat} {asm : MetadataAssembler} (h : new totalSize = .ok asm) :
    Holds totalSize [] asm := by
  unfold new at h
  split at h
  · cases h
  · obtain rfl := Except.ok.inj h
    refine ⟨rfl, ?_, ?_, fun _ hmem => absurd hmem List.not_mem_nil⟩
    · exact (List.map_const' ..).symm ▸ by simp
    · rw [List.countP_replicate]
      rfl

/-- What a slot holds is the first that was accepted for it. -/
theorem Holds.getElem? {totalSize : Nat} {log : List (Nat × Bytes)} {asm : MetadataAssembler}
    (h : Holds totalSize log asm) {i : Nat} {slot : Option Bytes}
    (hslot : asm.pieces[i]? = some slot) : log.lookup i = slot := by
  rw [h.pieces_eq, List.getElem?_map] at hslot
  obtain ⟨j, hj, hslot⟩ := Option.map_eq_some_iff.1 hslot
  obtain ⟨hi, hj⟩ := List.getElem?_eq_some_iff.1 hj
  rw [List.getElem_range] at hj
  rw [hj]
  exact hslot

/-- Only the call added last can be the first for its slot where there was none. -/
theorem lookup_snoc (log : List (Nat × Bytes)) (index : Nat) (data : Bytes) (i : Nat) :
    (log ++ [(index, data)]).lookup i =
      (log.lookup i).or (if i = index then some data else none) := by
  rw [List.lookup_append, List.lookup_cons]
  by_cases h : i = index
  · simp [h]
  · have hne : (i == index) = false := by simpa using h
    rw [hne, if_neg h]
    rfl

/-- A call keeps what is held, and adds what it stores. -/
theorem Holds.step {totalSize : Nat} {log : List (Nat × Bytes)} {asm : MetadataAssembler}
    (h : Holds totalSize log asm) (call : Nat × Bytes) :
    Holds totalSize (log ++ accepted call asm) (asm.step call) := by
  obtain ⟨index, data⟩ := call
  have hlengths : ∀ {next : MetadataAssembler}, data.length = asm.pieceLen index →
      next.totalSize = asm.totalSize →
      ∀ c ∈ log ++ [(index, data)], c.2.length = next.pieceLen c.1 := by
    intro next hlength hsize c hc
    have hsame : ∀ i, next.pieceLen i = asm.pieceLen i := fun i => by rw [pieceLen, hsize]; rfl
    rw [hsame]
    rcases List.mem_append.1 hc with hc | hc
    · exact h.lengths c hc
    · rw [List.mem_singleton.1 hc]
      exact hlength
  rcases asm.addPiece_cases index data with ⟨hcall, -⟩ | ⟨hslot, hlength, hcall⟩ |
      ⟨held, hslot, hlength, hcall⟩
  · have hstep : asm.step (index, data) = asm := by rw [MetadataAssembler.step, hcall]; rfl
    have hlog : accepted (index, data) asm = [] := by rw [accepted, hcall]; rfl
    rw [hstep, hlog, List.append_nil]
    exact h
  · have hlog : accepted (index, data) asm = [(index, data)] := by rw [accepted, hcall]; rfl
    have hstep : asm.step (index, data) =
        { asm with pieces := asm.pieces.set index (some data), have_ := asm.have_ + 1 } := by
      rw [MetadataAssembler.step, hcall]
      rfl
    rw [hstep, hlog]
    refine ⟨h.totalSize_eq, ?_, ?_, hlengths hlength rfl⟩
    · have hnone := h.getElem? hslot
      refine List.ext_getElem? fun j => ?_
      rw [List.getElem?_set, h.pieces_eq]
      by_cases hj : index = j
      · subst hj
        have hlt := (List.getElem?_eq_some_iff.1 hslot).1
        rw [h.pieces_eq, List.length_map, List.length_range] at hlt
        simp [hlt, lookup_snoc, hnone]
      · have hother : ∀ held : Option Bytes,
            held.or (if j = index then some data else none) = held := fun held => by
          rw [if_neg (Ne.symm hj), Option.or_none]
        by_cases hlt : j < (totalSize + (METADATA_PIECE_LEN - 1)) / METADATA_PIECE_LEN
        · simp [hj, hlt, lookup_snoc, hother]
        · simp [hj, hlt]
    · obtain ⟨post, hsplit, hset⟩ := Lists.set_split hslot
      have hbefore := congrArg (List.countP Option.isSome) hsplit
      have hafter := congrArg (List.countP Option.isSome) (hset (some data))
      rw [List.countP_append, List.countP_cons_of_neg (by decide)] at hbefore
      rw [List.countP_append, List.countP_cons_of_pos rfl] at hafter
      rw [h.have_eq, hafter, hbefore, Nat.add_assoc]
  · have hstep : asm.step (index, data) = asm := by rw [MetadataAssembler.step, hcall]; rfl
    have hlog : accepted (index, data) asm = [(index, data)] := by rw [accepted, hcall]; rfl
    rw [hstep, hlog]
    refine ⟨h.totalSize_eq, ?_, h.have_eq, hlengths hlength rfl⟩
    rw [h.pieces_eq]
    refine List.map_congr_left fun j _ => ?_
    rw [lookup_snoc]
    by_cases hj : j = index
    · rw [hj, h.getElem? hslot]
      rfl
    · rw [if_neg hj, Option.or_none]

/-- After any calls a slot holds the first data that was accepted for it. -/
theorem holds_run {totalSize : Nat} {asm : MetadataAssembler} (h : new totalSize = .ok asm)
    (calls : List (Nat × Bytes)) :
    Holds totalSize (Machine.logs step accepted calls asm) (Machine.run step calls asm) := by
  have halong : Machine.Along step (fun _ _ => True) calls asm :=
    Machine.along_of_forall (fun _ _ _ => trivial) asm
  have hrun := Machine.logs_induction_along (P := Holds totalSize) (l := [])
    (fun call _ _ _ hheld => hheld.step call) halong (holds_new h)
  rwa [List.nil_append] at hrun

/-- The pieces still needed are the slots that hold nothing. -/
theorem missing_eq {asm : MetadataAssembler} (hfew : asm.pieces.length ≤ U32_MAX) :
    asm.missing = (List.range asm.pieces.length).filter fun i => asm.pieces[i]? = some none := by
  unfold missing
  generalize asm.pieces = pieces at hfew
  induction pieces using List.reverseRecOn with
  | nil => rfl
  | append_singleton pieces slot ih =>
      rw [List.length_append, List.length_singleton] at hfew
      have hfront : ((List.range pieces.length).filter fun i => (pieces ++ [slot])[i]? = some none) =
          (List.range pieces.length).filter fun i => pieces[i]? = some none := by
        refine List.filter_congr fun i hi => ?_
        rw [List.getElem?_append_left (List.mem_range.1 hi)]
      have hmin : min pieces.length U32_MAX = pieces.length := Nat.min_eq_left (by omega)
      rw [List.zipIdx_append, List.filterMap_append, ih (by omega), List.length_append,
        List.length_singleton, List.range_succ, List.filter_append, hfront]
      cases slot with
      | none => simp [hmin]
      | some data => simp

/-- Slots of the right lengths are together as long as they should be. -/
theorem length_flatten_take {totalSize n : Nat} {slots : List Bytes}
    (hslots : ∀ i < n, (slots[i]?.getD []).length =
      min (totalSize - i * METADATA_PIECE_LEN) METADATA_PIECE_LEN) :
    (slots.take n).flatten.length = min totalSize (n * METADATA_PIECE_LEN) := by
  induction n with
  | zero => simp
  | succ n ih =>
      have hlast : slots[n]?.toList.flatten = slots[n]?.getD [] := by
        cases slots[n]? with
        | none => rfl
        | some slot => simp
      rw [List.take_add_one, List.flatten_append, List.length_append, hlast,
        ih fun i hi => hslots i (Nat.lt_succ_of_lt hi), hslots n (Nat.lt_succ_self n), Nat.succ_mul]
      omega

/-- What is held fills the whole. -/
theorem Holds.length_flatten {totalSize : Nat} {log : List (Nat × Bytes)} {asm : MetadataAssembler}
    (h : Holds totalSize log asm) {slots : List Bytes} (hslots : asm.pieces = slots.map some) :
    slots.flatten.length = totalSize := by
  have hcount : slots.length = (totalSize + (METADATA_PIECE_LEN - 1)) / METADATA_PIECE_LEN := by
    have hlength := congrArg List.length (hslots.symm.trans h.pieces_eq)
    simpa using hlength
  have heach : ∀ i < slots.length, (slots[i]?.getD []).length =
      min (totalSize - i * METADATA_PIECE_LEN) METADATA_PIECE_LEN := by
    intro i hi
    have hslot : asm.pieces[i]? = some (some slots[i]) := by
      rw [hslots, List.getElem?_map, List.getElem?_eq_getElem hi]
      rfl
    have hlength := h.lengths _ (OrdMap.mem_of_lookup (h.getElem? hslot))
    have hstart : i * METADATA_PIECE_LEN < totalSize := by
      unfold METADATA_PIECE_LEN at hcount ⊢
      omega
    rw [pieceLen, h.totalSize_eq] at hlength
    rw [List.getElem?_eq_getElem hi, Option.getD_some, hlength]
    exact if_neg (Nat.not_le.2 hstart)
  have hall := length_flatten_take heach
  rw [List.take_length] at hall
  rw [hall, hcount]
  unfold METADATA_PIECE_LEN
  omega

/-- All slots are filled when they count as many. -/
theorem Holds.isComplete_iff {totalSize : Nat} {log : List (Nat × Bytes)} {asm : MetadataAssembler}
    (h : Holds totalSize log asm) :
    asm.isComplete = true ↔ ∃ slots : List Bytes, asm.pieces = slots.map some := by
  rw [isComplete, decide_eq_true_eq, h.have_eq, List.countP_eq_length]
  constructor
  · intro hall
    refine ⟨asm.pieces.map (·.getD []), ?_⟩
    rw [List.map_map]
    refine (List.map_id _).symm.trans (List.map_congr_left fun slot hslot => ?_)
    obtain ⟨data, rfl⟩ := Option.isSome_iff_exists.1 (hall slot hslot)
    rfl
  · rintro ⟨slots, hslots⟩ slot hslot
    rw [hslots] at hslot
    obtain ⟨data, -, rfl⟩ := List.mem_map.1 hslot
    rfl

/-- The bytes are given out exactly when every slot is filled and their hash is right. -/
theorem Holds.finish_iff {totalSize : Nat} {log : List (Nat × Bytes)} {asm : MetadataAssembler}
    (h : Holds totalSize log asm) (sha1 : Bytes → Bytes) (hash b : Bytes) :
    asm.finish sha1 hash = some b ↔ ∃ slots : List Bytes, asm.pieces = slots.map some ∧
      b = slots.flatten ∧ b.length = totalSize ∧ sha1 b = hash := by
  constructor
  · intro hfinish
    have hhash := sha1_of_finish hfinish
    unfold finish at hfinish
    split at hfinish
    · rename_i hcomplete
      obtain ⟨slots, hslots⟩ := h.isComplete_iff.1 hcomplete
      rw [hslots, mapM_map_some, Option.bind_some] at hfinish
      split at hfinish
      · obtain rfl := Option.some.inj hfinish
        exact ⟨slots, hslots, rfl, h.length_flatten hslots, hhash⟩
      · cases hfinish
    · cases hfinish
  · rintro ⟨slots, hslots, rfl, -, hhash⟩
    rw [finish, if_pos (h.isComplete_iff.2 ⟨slots, hslots⟩), hslots, mapM_map_some,
      Option.bind_some, if_pos hhash]

/-- What is filled stays as it is. -/
theorem getElem?_run {totalSize : Nat} {asm : MetadataAssembler} (h : new totalSize = .ok asm)
    (calls more : List (Nat × Bytes)) {i : Nat} {data : Bytes}
    (hslot : (Machine.run step calls asm).pieces[i]? = some (some data)) :
    (Machine.run step more (Machine.run step calls asm)).pieces[i]? = some (some data) := by
  have hbefore := holds_run h calls
  have hafter := holds_run h (calls ++ more)
  have hlt : i < (totalSize + (METADATA_PIECE_LEN - 1)) / METADATA_PIECE_LEN := by
    have hlt := (List.getElem?_eq_some_iff.1 hslot).1
    rwa [hbefore.pieces_eq, List.length_map, List.length_range] at hlt
  rw [← Machine.run_append, hafter.pieces_eq, Machine.logs_append, List.getElem?_map,
    List.getElem?_range hlt, Option.map_some, List.lookup_append, hbefore.getElem? hslot]
  rfl

/-- What an assembler is after any calls: it counts its slots and lists the empty ones, keeps what
is filled, changes nothing when it rejects, gives out the bytes exactly when they are all there and
have the hash, and so gives out the true bytes once the first data accepted for each slot is the true
piece. -/
theorem assembly_exact {totalSize : Nat} {start : MetadataAssembler}
    (h : new totalSize = .ok start) (calls : List (Nat × Bytes)) :
    let asm := Machine.run step calls start
    let log := Machine.logs step accepted calls start
    asm.have_ = asm.pieces.countP Option.isSome ∧
    asm.missing = (List.range asm.pieces.length).filter (fun i => asm.pieces[i]? = some none) ∧
    (∀ (i : Nat) (data : Bytes), asm.pieces[i]? = some (some data) →
      ∀ more, (Machine.run step more asm).pieces[i]? = some (some data)) ∧
    (∀ index data e, asm.addPiece index data = .error e → asm.step (index, data) = asm) ∧
    (∀ sha1 hash b, asm.finish sha1 hash = some b ↔ ∃ slots : List Bytes,
      asm.pieces = slots.map some ∧ b = slots.flatten ∧ b.length = totalSize ∧ sha1 b = hash) ∧
    ∀ sha1 raw, raw.length = totalSize → (∀ i data, log.lookup i = some data → data = stripe raw i) →
      (∀ i < asm.pieces.length, i ∈ log.map Prod.fst) → asm.finish sha1 (sha1 raw) = some raw := by
  intro asm log
  have hheld : Holds totalSize log asm := holds_run h calls
  have hcount : asm.pieces.length = (totalSize + (METADATA_PIECE_LEN - 1)) / METADATA_PIECE_LEN := by
    rw [hheld.pieces_eq, List.length_map, List.length_range]
  have hfew : asm.pieces.length ≤ U32_MAX := by
    rw [hcount]
    unfold new at h
    split at h
    · cases h
    · unfold MAX_METADATA_SIZE at *
      unfold METADATA_PIECE_LEN U32_MAX
      omega
  refine ⟨hheld.have_eq, missing_eq hfew, fun i data hslot more => getElem?_run h calls more hslot,
    fun index data e herror => ?_, hheld.finish_iff, ?_⟩
  · rw [step, herror]
    rfl
  · intro sha1 raw hlength hfirst hall
    have hstripes : asm.pieces = ((List.range (stripes raw)).map (stripe raw)).map some := by
      rw [hheld.pieces_eq, stripes, hlength, List.map_map]
      refine List.map_congr_left fun i hi => ?_
      rw [← hcount, List.mem_range] at hi
      obtain ⟨data, hdata⟩ := Option.isSome_iff_exists.1 (OrdMap.lookup_isSome_of_mem (hall i hi))
      exact hdata.trans (congrArg some (hfirst i data hdata))
    exact (hheld.finish_iff sha1 _ raw).2
      ⟨_, hstripes, (flatten_stripes raw).symm, hlength, rfl⟩

theorem assembly_exact_late :
    (Machine.run step [(1, [9]), (0, [7]), (0, [1, 2, 3]), (0, [4, 5, 6])]
      ⟨3, [none], 0⟩).finish id [1, 2, 3] = some [1, 2, 3] := by
  have hexact := assembly_exact (show new 3 = .ok ⟨3, [none], 0⟩ by decide)
    [(1, [9]), (0, [7]), (0, [1, 2, 3]), (0, [4, 5, 6])]
  exact (hexact.2.2.2.2.1 id [1, 2, 3] [1, 2, 3]).2 ⟨[[1, 2, 3]], by decide, rfl, rfl, rfl⟩

end MetadataAssembler

end Metadata

end Clove
