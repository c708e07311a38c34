import Clove.MetainfoChecks
import Clove.Storage

/-!
# Storage is one flat array

A torrent's files, one after the other, are read as one array of bytes, zero where a file does
not reach yet (`Storage.flat`).  On that array a block write is a `splice`, and a block read is
a stretch of it (`Storage.isFlat`), however the files cut the range: the segments of a range
tile the caller's buffer.  The hash of a piece, taken a block at a time, is the hash of the
whole stretch.
-/

namespace Clove

open Wire (BLOCK_LEN)

/-! ## Arrays -/

namespace Flat

/-- An array with a stretch of it replaced. -/
def splice (a : Nat → UInt8) (start : Nat) (data : Bytes) : Nat → UInt8 := fun g =>
  if start ≤ g ∧ g < start + data.length then data.getD (g - start) 0 else a g

/-- A stretch of an array. -/
def stretch (a : Nat → UInt8) (start len : Nat) : Bytes :=
  (List.range len).map fun j => a (start + j)

@[simp] theorem length_stretch (a : Nat → UInt8) (start len : Nat) :
    (stretch a start len).length = len := by
  simp [stretch]

theorem getElem?_stretch (a : Nat → UInt8) (start : Nat) {len j : Nat} (hj : j < len) :
    (stretch a start len)[j]? = some (a (start + j)) := by
  simp [stretch, hj]

end Flat

open Flat (splice stretch)
open Utf8 (ascii)

/-! ## Segments -/

/-- Segments that tile the buffer from `lo` to `hi`, in order. -/
def Covers : Nat → Nat → List Segment → Prop
  | lo, hi, [] => lo = hi
  | lo, hi, seg :: segs => seg.lo = lo ∧ seg.lo < seg.hi ∧ Covers seg.hi hi segs

theorem Tiled.covers_segments {g : Nat} {rs : List Region} (h : Tiled g rs) {start stop : Nat}
    (hstop : stop ≤ coverEnd g rs) :
    Covers (min stop (max start g) - start) (stop - start) (segments rs start stop) := by
  induction h with
  | @nil g =>
      have hend : stop ≤ g := by simpa [coverEnd] using hstop
      change min stop (max start g) - start = stop - start
      omega
  | @cons r rs _ _ ih =>
      rw [coverEnd_cons] at hstop
      have hrest := ih hstop
      rw [segments_cons]
      cases hseg : segmentIn start stop r with
      | none =>
          rw [Option.toList_none, List.nil_append]
          have hskip : min stop (max start (r.globalStart + r.length)) - start =
              min stop (max start r.globalStart) - start := by
            by_cases hempty : r.length = 0
            · rw [hempty, Nat.add_zero]
            · unfold segmentIn at hseg
              rw [if_neg hempty] at hseg
              simp only [ite_eq_left_iff, reduceCtorEq, imp_false, not_not] at hseg
              omega
          rwa [hskip] at hrest
      | some seg =>
          obtain ⟨-, hlo, hhi, hlt⟩ := segmentIn_some hseg
          have hnext : min stop (max start (r.globalStart + r.length)) - start = seg.hi := by omega
          rw [hnext] at hrest
          rw [Option.toList_some, List.cons_append, List.nil_append]
          exact ⟨by omega, by omega, hrest⟩

/-- A segment lies within its file, and where the range has it. -/
theorem segments_placed {rs : List Region} {start stop : Nat} {seg : Segment}
    (h : seg ∈ segments rs start stop) : ∃ r ∈ rs, r.file = seg.file ∧
      seg.fileOff + (seg.hi - seg.lo) ≤ r.length ∧
      r.globalStart + seg.fileOff = start + seg.lo := by
  obtain ⟨r, hr, hsome⟩ := List.mem_filterMap.1 h
  obtain ⟨hoff, hlo, hhi, hlt⟩ := segmentIn_some hsome
  exact ⟨r, hr, (segmentIn_file hsome).symm, by omega, by omega⟩

/-! ## Writing -/

/-- A file write leaves the array outside it: what it fills in before itself is zero. -/
theorem byteAt_write_getD {d : Disk} {w : FileWrite} {rs : List Region} {g : Nat}
    (hout : ∀ r ∈ rs, r.file = w.file → r.Contains g →
      ¬ (w.off ≤ g - r.globalStart ∧ g - r.globalStart < w.off + w.data.length)) :
    (byteAt (d.write w) rs g).getD 0 = (byteAt d rs g).getD 0 := by
  induction rs with
  | nil => rfl
  | cons r rs ih =>
      by_cases hg : r.globalStart ≤ g ∧ g < r.globalStart + r.length
      · simp only [byteAt, if_pos hg]
        unfold Disk.write
        split
        · rename_i hfile
          have hapart := hout r List.mem_cons_self hfile hg
          rw [getElem?_writeAt]
          split
          · split
            · rfl
            · rename_i hshort
              rw [List.getElem?_eq_none (Nat.le_of_not_lt hshort)]
              rfl
          · rw [if_neg (by omega)]
        · rfl
      · simp only [byteAt, if_neg hg]
        exact ih fun q hq => hout q (List.mem_cons_of_mem _ hq)

namespace Storage

variable {s : Storage}

/-- The torrent as one array; a byte that no file has yet is zero. -/
def flat (s : Storage) (d : Disk) : Nat → UInt8 := fun g => (s.byte d g).getD 0

/-- The file writes of a range splice it. -/
theorem flat_fileWrites {start : Nat} {data : Bytes}
    (hrange : start + data.length ≤ s.layout.totalLength) (d : Disk) :
    s.flat (d.writes (s.fileWrites start data)) = splice (s.flat d) start data := by
  funext g
  by_cases hin : start ≤ g ∧ g < start + data.length
  · have hbyte := (s.tiled.byteAt_writes d start data g).1 hin (s.exists_region (by omega))
    have hflat : s.byte (d.writes (s.fileWrites start data)) g = data[g - start]? := hbyte
    rw [flat, hflat, splice, if_pos hin, List.getD_eq_getElem?_getD]
  · have hout := s.outside_fileWrites hin
    rw [splice, if_neg hin]
    generalize s.fileWrites start data = ws at hout
    unfold flat byte
    induction ws generalizing d with
    | nil => rfl
    | cons w ws ih =>
        have hrest := ih (d.write w) fun v hv => hout v (List.mem_cons_of_mem _ hv)
        exact hrest.trans (byteAt_write_getD (hout w List.mem_cons_self))

/-- A block that is refused is not written. -/
theorem writeBlock_refused (fault : Option Nat) {index begin : Nat} {data : Bytes}
    (h : ¬ s.offsetOf index begin + data.length ≤ s.layout.totalLength) :
    s.writeBlock fault index begin data = ([], .error .rangeOutsideTorrent) := by
  have hrange : ¬ s.inRange (s.offsetOf index begin) data.length = true := by
    simpa [inRange] using h
  unfold writeBlock
  dsimp only
  rw [if_neg hrange]

/-- A block that fits is written, and nothing else. -/
theorem writeBlock_fits {index begin : Nat} {data : Bytes}
    (h : s.offsetOf index begin + data.length ≤ s.layout.totalLength) :
    s.writeBlock none index begin data = (s.fileWrites (s.offsetOf index begin) data, .ok ()) := by
  have hrange : s.inRange (s.offsetOf index begin) data.length = true := by
    simpa [inRange] using h
  unfold writeBlock
  dsimp only
  rw [if_pos hrange]
  cases data with
  | nil =>
      obtain ⟨part, hpart, hlen⟩ := s.writeBlock_writes none index begin []
      obtain rfl : part = [] := List.eq_nil_of_length_eq_zero (Nat.le_zero.1 hlen)
      have hnone : (s.writeBlock none index begin []).1 = [] := by
        unfold writeBlock
        dsimp only
        rw [if_pos hrange]
        rfl
      rw [if_pos rfl, ← hpart, hnone]
  | cons b data => rfl

/-- Where a block write goes stays within its file. -/
theorem writeBlock_within (fault : Option Nat) (index begin : Nat) (data : Bytes) :
    ∀ w ∈ (s.writeBlock fault index begin data).1,
      ∃ r ∈ s.regions, r.file = w.file ∧ w.off + w.data.length ≤ r.length := by
  obtain ⟨part, hpart, -⟩ := s.writeBlock_writes fault index begin data
  rw [hpart]
  intro w hw
  obtain ⟨seg, hseg, rfl⟩ := List.mem_map.1 hw
  obtain ⟨r, hr, hfile, hfit, -⟩ := segments_placed hseg
  refine ⟨r, hr, hfile, ?_⟩
  simp only [Segment.toWrite, List.length_drop, List.length_take]
  omega

/-! ## Reading -/

/-- Bytes that exist are read. -/
theorem readBlock_exists {d : Disk} {index begin len : Nat}
    (hrange : s.offsetOf index begin + len ≤ s.layout.totalLength)
    (hbytes : ∀ j < len, (s.byte d (s.offsetOf index begin + j)).isSome) :
    s.readBlock d false index begin len =
      .ok (stretch (s.flat d) (s.offsetOf index begin) len) := by
  cases hread : s.readBlock d false index begin len with
  | ok bs =>
      obtain ⟨hlen, -, hbs⟩ := readBlock_ok hread
      refine congrArg Except.ok (List.ext_getElem? fun j => ?_)
      by_cases hj : j < len
      · obtain ⟨b, hb⟩ := Option.isSome_iff_exists.1 (hbytes j hj)
        rw [Flat.getElem?_stretch _ _ hj, ← hbs j hj, flat, hb, Option.getD_some]
      · rw [List.getElem?_eq_none (by omega), List.getElem?_eq_none (by simpa using hj)]
  | error e =>
      have hinrange : s.inRange (s.offsetOf index begin) len = true := by
        simpa [inRange] using hrange
      have hne := s.readBlock_ne_eof false hbytes
      rw [hread] at hne
      unfold readBlock at hread
      dsimp only at hread
      rw [if_pos hinrange] at hread
      split at hread
      · cases hread
      · rw [if_neg Bool.false_ne_true] at hread
        obtain ⟨out, hout⟩ := s.tiled.readSegments_of_bytes (d := d) (s.offsetOf index begin)
          (s.offsetOf index begin + len) (List.replicate len 0) fun g hlo hhi _ => by
            have hbyte := hbytes (g - s.offsetOf index begin) (by omega)
            rwa [Nat.add_sub_cancel' hlo] at hbyte
        rw [hout] at hread
        cases hread

/-! ## A run of writes -/

/-- A block that is asked to be written. -/
structure BlockWrite where
  index : Nat
  begin : Nat
  data : Bytes
deriving Repr, DecidableEq

/-- The files after some block writes. -/
def writeBlocks (s : Storage) (d : Disk) (blocks : List BlockWrite) : Disk :=
  blocks.foldl (fun d b => d.writes (s.writeBlock none b.index b.begin b.data).1) d

/-- A block that fits the torrent. -/
def Fits (s : Storage) (b : BlockWrite) : Prop :=
  s.offsetOf b.index b.begin + b.data.length ≤ s.layout.totalLength

instance (s : Storage) : DecidablePred s.Fits := fun _ => inferInstanceAs (Decidable (_ ≤ _))

/-- The array after some block writes: those that fit, one after the other. -/
def spliceBlocks (s : Storage) (a : Nat → UInt8) (blocks : List BlockWrite) : Nat → UInt8 :=
  (blocks.filter fun b => s.Fits b).foldl
    (fun a b => splice a (s.offsetOf b.index b.begin) b.data) a

/-- A run of block writes is a run of splices. -/
theorem flat_writeBlocks (d : Disk) (blocks : List BlockWrite) :
    s.flat (s.writeBlocks d blocks) = s.spliceBlocks (s.flat d) blocks := by
  unfold writeBlocks spliceBlocks
  induction blocks generalizing d with
  | nil => rfl
  | cons b blocks ih =>
      rw [List.foldl_cons, ih]
      by_cases hfit : s.Fits b
      · rw [List.filter_cons_of_pos (by simpa using hfit), List.foldl_cons,
          writeBlock_fits hfit, flat_fileWrites hfit]
      · rw [List.filter_cons_of_neg (by simpa using hfit), writeBlock_refused none hfit]
        rfl

/-- A byte that exists, or that a block that fits has, exists afterwards. -/
theorem isSome_byte_writeBlocks {d : Disk} {blocks : List BlockWrite} {g : Nat}
    (h : (s.byte d g).isSome ∨ ∃ b ∈ blocks, s.Fits b ∧ s.offsetOf b.index b.begin ≤ g ∧
      g < s.offsetOf b.index b.begin + b.data.length) :
    (s.byte (s.writeBlocks d blocks) g).isSome := by
  unfold writeBlocks
  induction blocks generalizing d with
  | nil =>
      rcases h with h | ⟨b, hb, -⟩
      · exact h
      · cases hb
  | cons b blocks ih =>
      rw [List.foldl_cons]
      by_cases hrest : ∃ b ∈ blocks, s.Fits b ∧ s.offsetOf b.index b.begin ≤ g ∧
          g < s.offsetOf b.index b.begin + b.data.length
      · exact ih (.inr hrest)
      · refine ih (.inl ?_)
        by_cases hfit : s.Fits b
        · rw [writeBlock_fits hfit]
          have hwrites := s.tiled.byteAt_writes d (s.offsetOf b.index b.begin) b.data g
          by_cases hin : s.offsetOf b.index b.begin ≤ g ∧
              g < s.offsetOf b.index b.begin + b.data.length
          · have hbyte := hwrites.1 hin (s.exists_region (by unfold Fits at hfit; omega))
            change (byteAt (d.writes (s.fileWrites (s.offsetOf b.index b.begin) b.data))
              s.regions g).isSome
            rw [fileWrites, hbyte, isSome_getElem?]
            omega
          · have hold : (s.byte d g).isSome := by
              rcases h with h | ⟨c, hc, hfits, hg⟩
              · exact h
              · rcases List.mem_cons.1 hc with rfl | hc
                · exact absurd hg hin
                · exact absurd ⟨c, hc, hfits, hg⟩ hrest
            obtain ⟨v, hv⟩ := Option.isSome_iff_exists.1 hold
            exact Option.isSome_iff_exists.2 ⟨v, hwrites.2 hin v hv⟩
        · rw [writeBlock_refused none hfit]
          rcases h with h | ⟨c, hc, hfits, hg⟩
          · exact h
          · rcases List.mem_cons.1 hc with rfl | hc
            · exact absurd hfits hfit
            · exact absurd ⟨c, hc, hfits, hg⟩ hrest

/-! ## Hashing a piece -/

/-- A streaming digest: hashing some chunks one after the other is hashing them together. -/
structure Hasher (sha1 : Bytes → Bytes) where
  State : Type
  new : State
  update : State → Bytes → State
  finalize : State → Bytes
  digest : ∀ chunks : List Bytes, finalize (chunks.foldl update new) = sha1 chunks.flatten

/-- The digest that keeps its chunks until the end. -/
def Hasher.plain (sha1 : Bytes → Bytes) : Hasher sha1 where
  State := Bytes
  new := []
  update := (· ++ ·)
  finalize := sha1
  digest := fun chunks => by
    have hfold : chunks.foldl (· ++ ·) [] = [] ++ (chunks.map id).flatten :=
      List.foldl_append_eq_append
    rw [hfold, List.map_id, List.nil_append]

/-- The loop of `verify_piece_into`. -/
def hashPiece {sha1 : Bytes → Bytes} (s : Storage) (h : Hasher sha1) (d : Disk)
    (fault : Nat → Bool) (index len : Nat) : Nat → Nat → h.State → Except IoError h.State
  | 0, _, hasher => .ok hasher
  | fuel + 1, done, hasher =>
      if done < len then do
        let chunk := min (len - done) BLOCK_LEN
        let scratch ← s.readBlock d (fault (done / BLOCK_LEN)) index done chunk
        hashPiece s h d fault index len fuel (done + chunk) (h.update hasher scratch)
      else .ok hasher

def verifyPieceInto {sha1 : Bytes → Bytes} (s : Storage) (h : Hasher sha1) (d : Disk)
    (fault : Nat → Bool) (index : Nat) : Except IoError Bool :=
  let len := s.layout.pieceLen index
  if len = 0 then .ok false
  else
    match s.pieceHashes[index]? with
    | none => .ok false
    | some expected =>
        match s.hashPiece h d fault index len len 0 h.new with
        | .ok hasher => .ok (expected = h.finalize hasher)
        | .error .unexpectedEof => .ok false
        | .error e => .error e

/-- The loop hashes what `readPiece` reads, and fails as it does. -/
theorem hashPiece_eq {sha1 : Bytes → Bytes} (h : Hasher sha1) (d : Disk) (fault : Nat → Bool)
    (index len fuel done : Nat) (chunks : List Bytes) :
    match s.readPiece d fault index len fuel done chunks.flatten with
    | .ok bytes => ∃ read : List Bytes, read.flatten = bytes ∧
        s.hashPiece h d fault index len fuel done (chunks.foldl h.update h.new) =
          .ok (read.foldl h.update h.new)
    | .error e =>
        s.hashPiece h d fault index len fuel done (chunks.foldl h.update h.new) = .error e := by
  induction fuel generalizing done chunks with
  | zero => exact ⟨chunks, rfl, rfl⟩
  | succ fuel ih =>
      unfold readPiece hashPiece
      by_cases hlt : done < len
      · rw [if_pos hlt, if_pos hlt]
        dsimp only
        cases hread : s.readBlock d (fault (done / BLOCK_LEN)) index done
            (min (len - done) BLOCK_LEN) with
        | ok bytes =>
            have hnext := ih (done + min (len - done) BLOCK_LEN) (chunks ++ [bytes])
            rw [List.flatten_append, List.flatten_singleton, List.foldl_append] at hnext
            exact hnext
        | error e => rfl
      · rw [if_neg hlt, if_neg hlt]
        exact ⟨chunks, rfl, rfl⟩

/-- Hashing a piece a block at a time is hashing it whole. -/
theorem verifyPieceInto_eq {sha1 : Bytes → Bytes} (h : Hasher sha1) (d : Disk)
    (fault : Nat → Bool) (index : Nat) :
    s.verifyPieceInto h d fault index = s.verifyPiece sha1 d fault index := by
  unfold verifyPieceInto verifyPiece
  dsimp only
  have hloop := s.hashPiece_eq h d fault index (s.layout.pieceLen index)
    (s.layout.pieceLen index) 0 []
  rw [List.flatten_nil, List.foldl_nil] at hloop
  by_cases hempty : s.layout.pieceLen index = 0
  · rw [if_pos hempty, if_pos hempty]
  · rw [if_neg hempty, if_neg hempty]
    cases s.pieceHashes[index]? with
    | none => rfl
    | some expected =>
        cases hread : s.readPiece d fault index (s.layout.pieceLen index)
            (s.layout.pieceLen index) 0 [] with
        | ok bytes =>
            rw [hread] at hloop
            obtain ⟨read, rfl, hhash⟩ := hloop
            dsimp only
            rw [hhash, ← h.digest]
        | error e =>
            rw [hread] at hloop
            dsimp only
            rw [hloop]
            cases e <;> rfl

/-- A piece whose bytes all exist is read whole. -/
theorem readPiece_exists {d : Disk} {index : Nat}
    (hbytes : ∀ j < s.layout.pieceLen index, (s.byte d (s.offsetOf index 0 + j)).isSome) :
    s.readPiece d (fun _ => false) index (s.layout.pieceLen index) (s.layout.pieceLen index) 0 [] =
      .ok (stretch (s.flat d) (s.offsetOf index 0) (s.layout.pieceLen index)) := by
  have hend : s.layout.pieceLen index ≠ 0 →
      s.offsetOf index 0 + s.layout.pieceLen index ≤ s.layout.totalLength := by
    intro hne
    unfold Layout.pieceLen at hne ⊢
    unfold offsetOf
    split at hne
    · exact absurd rfl hne
    · rename_i hlt
      rw [if_neg hlt]
      omega
  have hreads : ∀ (fuel done : Nat) (acc : Bytes), ∃ bs,
      s.readPiece d (fun _ => false) index (s.layout.pieceLen index) fuel done acc = .ok bs := by
    intro fuel
    induction fuel with
    | zero => exact fun _ acc => ⟨acc, rfl⟩
    | succ fuel ih =>
        intro done acc
        unfold readPiece
        by_cases hlt : done < s.layout.pieceLen index
        · have hoff (j : Nat) : s.offsetOf index done + j = s.offsetOf index 0 + (done + j) := by
            unfold offsetOf
            omega
          have hrange : s.offsetOf index done + min (s.layout.pieceLen index - done) BLOCK_LEN ≤
              s.layout.totalLength := by
            have := hend (by omega)
            rw [hoff]
            omega
          have hblock := readBlock_exists hrange fun j hj => by
            rw [hoff]
            exact hbytes (done + j) (by omega)
          rw [if_pos hlt]
          dsimp only
          rw [hblock]
          exact ih _ _
        · rw [if_neg hlt]
          exact ⟨acc, rfl⟩
  obtain ⟨bs, hread⟩ := hreads (s.layout.pieceLen index) 0 []
  obtain ⟨hlen, hbs⟩ :=
    readPiece_ok (Nat.le_add_left _ 0) rfl (Nat.zero_le _) (by simp) hread
  rw [hread]
  refine congrArg Except.ok (List.ext_getElem? fun j => ?_)
  by_cases hj : j < s.layout.pieceLen index
  · obtain ⟨b, hb⟩ := Option.isSome_iff_exists.1 (hbytes j hj)
    rw [Flat.getElem?_stretch _ _ hj, ← hbs j hj, flat, hb, Option.getD_some]
  · rw [List.getElem?_eq_none (by omega), List.getElem?_eq_none (by simpa using hj)]

/-! ## One flat array -/

/-- `Storage::piece_len`, with its conversion to `u32`. -/
def pieceLen (s : Storage) (index : Nat) : Nat :=
  if s.layout.totalLength ≤ index * s.layout.pieceLength then 0
  else min (min (s.layout.totalLength - index * s.layout.pieceLength) s.layout.pieceLength) U32_MAX

/-- What it is to be one flat array. -/
structure IsFlat (s : Storage) : Prop where
  /-- A block that fits is written, and the array is as it was but for the block. -/
  write : ∀ (d : Disk) (b : BlockWrite), s.Fits b →
    (s.writeBlock none b.index b.begin b.data).2 = .ok () ∧
      s.flat (d.writes (s.writeBlock none b.index b.begin b.data).1) =
        splice (s.flat d) (s.offsetOf b.index b.begin) b.data
  /-- A block that does not fit is refused, and nothing is written. -/
  refuse : ∀ (fault : Option Nat) (b : BlockWrite), ¬ s.Fits b →
    s.writeBlock fault b.index b.begin b.data = ([], .error .rangeOutsideTorrent)
  /-- No file is written beyond its place. -/
  within : ∀ (fault : Option Nat) (b : BlockWrite),
    ∀ w ∈ (s.writeBlock fault b.index b.begin b.data).1,
      ∃ r ∈ s.regions, r.file = w.file ∧ w.off + w.data.length ≤ r.length
  /-- After any block writes, what is read in a range that exists is what they last wrote. -/
  read : ∀ (d : Disk) (blocks : List BlockWrite) (index begin len : Nat),
    s.offsetOf index begin + len ≤ s.layout.totalLength →
    (∀ j < len, (s.byte d (s.offsetOf index begin + j)).isSome ∨
      ∃ b ∈ blocks, s.Fits b ∧ s.offsetOf b.index b.begin ≤ s.offsetOf index begin + j ∧
        s.offsetOf index begin + j < s.offsetOf b.index b.begin + b.data.length) →
    s.readBlock (s.writeBlocks d blocks) false index begin len =
      .ok (stretch (s.spliceBlocks (s.flat d) blocks) (s.offsetOf index begin) len)
  /-- The segments of a range tile the buffer, each where the range has it in its file. -/
  segments : ∀ start len, start + len ≤ s.layout.totalLength → len ≠ 0 →
    Covers 0 len (segments s.regions start (start + len)) ∧
      ∀ seg ∈ segments s.regions start (start + len), ∃ r ∈ s.regions, r.file = seg.file ∧
        seg.fileOff + (seg.hi - seg.lo) ≤ r.length ∧
        r.globalStart + seg.fileOff = start + seg.lo
  /-- The hash of a piece in chunks is the hash of the piece. -/
  verify : ∀ {sha1 : Bytes → Bytes} (h : Hasher sha1) (d : Disk) (index : Nat)
    (expected : Bytes), s.pieceHashes[index]? = some expected → s.layout.pieceLen index ≠ 0 →
    (∀ j < s.layout.pieceLen index, (s.byte d (s.offsetOf index 0 + j)).isSome) →
    s.verifyPieceInto h d (fun _ => false) index =
      .ok (expected = sha1 (stretch (s.flat d) (s.offsetOf index 0) (s.layout.pieceLen index)))

theorem isFlat (s : Storage) : s.IsFlat where
  write d b hfit := by
    rw [writeBlock_fits hfit]
    exact ⟨rfl, flat_fileWrites hfit d⟩
  refuse fault b hfit := writeBlock_refused fault hfit
  within fault b := s.writeBlock_within fault b.index b.begin b.data
  read d blocks index begin len hrange hbytes := by
    rw [readBlock_exists hrange fun j hj => isSome_byte_writeBlocks (hbytes j hj),
      flat_writeBlocks]
  segments start len hrange hlen := by
    refine ⟨?_, fun seg hseg => segments_placed hseg⟩
    have hcover := @Tiled.covers_segments _ _ s.tiled start (start + len)
      (by rw [s.cover]; exact hrange)
    rwa [show min (start + len) (max start 0) - start = 0 by omega, Nat.add_sub_cancel_left]
      at hcover
  verify h d index expected hexpected hpos hbytes := by
    rw [verifyPieceInto_eq, verifyPiece, if_neg hpos, hexpected,
      readPiece_exists hbytes]

end Storage

/-! ## Torrents that are accepted -/

namespace MetaInfo

/-- How the torrent is cut into pieces. -/
def layout (m : MetaInfo) : Layout := ⟨m.pieces.length, m.pieceLength, m.totalLength⟩

/-- `Storage::create`: the files of a torrent. -/
def storage (m : MetaInfo) (h : m.Geometry) : Storage :=
  Storage.create m.layout (m.files.map (·.length)) m.pieces h.total

/-- Every torrent that is accepted is stored as one flat array, whose pieces are the picker's. -/
theorem storage_isFlat {sha1 toLowercase : Bytes → Bytes} :
    ∀ (input : Bytes) (m : MetaInfo), parse sha1 toLowercase input = .ok m →
      ∃ h : m.Geometry, (m.storage h).IsFlat ∧ ∀ (mode : Mode) (index : Nat),
        (m.storage h).pieceLen index = (Picker.new m.layout mode).pieceLen index := by
  intro input m hparse
  have hgeometry := geometry_of_parse hparse
  refine ⟨hgeometry, (m.storage hgeometry).isFlat, fun mode index => ?_⟩
  have hsmall : m.pieceLength ≤ U32_MAX := hgeometry.le_max.trans (by decide)
  have hfit : ∀ n, min (min n m.pieceLength) U32_MAX = min n m.pieceLength := by
    intro n
    omega
  change (if m.totalLength ≤ index * m.pieceLength then 0 else
    min (min (m.totalLength - index * m.pieceLength) m.pieceLength) U32_MAX) = _
  rw [hfit]
  rfl

/-- The three files, all there. -/
def threeFilesDisk : Disk
  | 0 => List.replicate 16385 1
  | 2 => List.replicate 6 2
  | _ => []

theorem storage_isFlat_threeFiles : ∃ h : threeFilesInfo.Geometry,
    (threeFilesInfo.storage h).IsFlat ∧
      (∀ (mode : Mode) (index : Nat), (threeFilesInfo.storage h).pieceLen index =
        (Picker.new threeFilesInfo.layout mode).pieceLen index) ∧
      (threeFilesInfo.storage h).verifyPieceInto (.plain threeFilesSha1) threeFilesDisk
        (fun _ => false) 1 = .ok true := by
  obtain ⟨h, hflat, hlen⟩ := storage_isFlat threeFiles threeFilesInfo parse_threeFiles
  refine ⟨h, hflat, hlen, ?_⟩
  obtain rfl : h = geometry_of_parse parse_threeFiles := rfl
  rw [hflat.verify (.plain threeFilesSha1) threeFilesDisk 1 (List.replicate 20 7)
    (by decide +kernel) (by decide +kernel) (by decide +kernel)]
  decide +kernel

end MetaInfo

end Clove
