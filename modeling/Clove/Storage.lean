import Clove.Picker

/-!
# Piece storage

The model of `storage.rs`.  A torrent is one linear byte space, its files one after the
other; a region places a file in it.  A write is cut at the file boundaries into file
writes, and a read is put together from the files.  `byteAt` reads the linear space back,
one byte at a time.

A file is its bytes.  Writing past its end fills the gap with zeros, reading past it is an
end of file.  What the operating system may do wrong is a parameter of each call: a write
may stop after some of its bytes, and a read may fail.
-/

namespace Clove

open Wire (BLOCK_LEN)

/-! ## Files -/

/-- The contents of a torrent's files, by their position in its file list. -/
abbrev Disk := Nat → Bytes

/-- `pwrite` of a whole buffer. -/
def writeAt (f : Bytes) (off : Nat) (data : Bytes) : Bytes :=
  f.take off ++ List.replicate (off - f.length) 0 ++ data ++ f.drop (off + data.length)

/-- One positioned write. -/
structure FileWrite where
  file : Nat
  off : Nat
  data : Bytes
deriving Repr, DecidableEq

/-- A disk after one write. -/
def Disk.write (d : Disk) (w : FileWrite) : Disk :=
  fun f => if f = w.file then writeAt (d f) w.off w.data else d f

/-- A disk after some writes. -/
def Disk.writes (d : Disk) (ws : List FileWrite) : Disk := ws.foldl Disk.write d

/-- Why a storage call failed. -/
inductive IoError where
  /-- The range does not fit the torrent. -/
  | rangeOutsideTorrent
  | unexpectedEof
  | other
deriving Repr, DecidableEq

/-! ## Regions -/

/-- One file's placement in the torrent's byte space. -/
structure Region where
  file : Nat
  globalStart : Nat
  length : Nat
deriving Repr, DecidableEq

/-- Regions that lie one after the other from `g` on, each in its own file. -/
inductive Tiled : Nat → List Region → Prop where
  | nil {g : Nat} : Tiled g []
  | cons {r : Region} {rs : List Region} : (∀ q ∈ rs, q.file ≠ r.file) →
      Tiled (r.globalStart + r.length) rs → Tiled r.globalStart (r :: rs)

/-- The offsets the regions cover. -/
def coverEnd (g : Nat) (rs : List Region) : Nat := g + (rs.map (·.length)).sum

/-- The on-disk backing of one torrent: its files fill its byte space, in order. -/
structure Storage where
  regions : List Region
  layout : Layout
  pieceHashes : List Bytes
  tiled : Tiled 0 regions
  cover : coverEnd 0 regions = layout.totalLength

/-- Files of these lengths laid one after the other. -/
def regionsFrom (file globalStart : Nat) : List Nat → List Region
  | [] => []
  | length :: rest =>
      ⟨file, globalStart, length⟩ :: regionsFrom (file + 1) (globalStart + length) rest

/-- A part of a range that lies in one file: the offset in the file, and the bounds within
the caller's buffer. -/
structure Segment where
  file : Nat
  fileOff : Nat
  lo : Nat
  hi : Nat
deriving Repr, DecidableEq

/-- The write of a segment. -/
def Segment.toWrite (data : Bytes) (seg : Segment) : FileWrite :=
  ⟨seg.file, seg.fileOff, (data.take seg.hi).drop seg.lo⟩

/-- The segment of a range in one region, if they meet. -/
def segmentIn (start stop : Nat) (r : Region) : Option Segment :=
  if r.length = 0 then none
  else
    let lo := max start r.globalStart
    let hi := min stop (r.globalStart + r.length)
    if hi ≤ lo then none else some ⟨r.file, lo - r.globalStart, lo - start, hi - start⟩

/-- A global range split at the file boundaries. -/
def segments (regions : List Region) (start stop : Nat) : List Segment :=
  regions.filterMap (segmentIn start stop)

/-- The byte at a global offset, if its file is that long. -/
def byteAt (d : Disk) : List Region → Nat → Option UInt8
  | [], _ => none
  | r :: rs, g =>
      if r.globalStart ≤ g ∧ g < r.globalStart + r.length then (d r.file)[g - r.globalStart]?
      else byteAt d rs g

namespace Storage

/-- Whether a range lies inside the torrent. -/
def inRange (s : Storage) (start len : Nat) : Bool := start + len ≤ s.layout.totalLength

/-- The first byte of a block. -/
def offsetOf (s : Storage) (index begin : Nat) : Nat := index * s.layout.pieceLength + begin

/-- The file writes of a range. -/
def fileWrites (s : Storage) (start : Nat) (data : Bytes) : List FileWrite :=
  (segments s.regions start (start + data.length)).map (·.toWrite data)

/-- Write a block.  With a fault, only that many bytes reach the files. -/
def writeBlock (s : Storage) (fault : Option Nat) (index begin : Nat) (data : Bytes) :
    List FileWrite × Except IoError Unit :=
  let start := s.offsetOf index begin
  if s.inRange start data.length then
    if data = [] then ([], .ok ())
    else match fault with
    | none => (s.fileWrites start data, .ok ())
    | some n => (s.fileWrites start (data.take n), .error .other)
  else ([], .error .rangeOutsideTorrent)

/-- Fill a buffer from the segments of a range. -/
def readSegments (d : Disk) : List Segment → Bytes → Except IoError Bytes
  | [], out => .ok out
  | seg :: segs, out =>
      if seg.fileOff + (seg.hi - seg.lo) ≤ (d seg.file).length then
        readSegments d segs
          (out.take seg.lo ++ ((d seg.file).drop seg.fileOff).take (seg.hi - seg.lo)
            ++ out.drop seg.hi)
      else .error .unexpectedEof

/-- Read `len` bytes of a piece. -/
def readBlock (s : Storage) (d : Disk) (fault : Bool) (index begin len : Nat) :
    Except IoError Bytes :=
  let start := s.offsetOf index begin
  if s.inRange start len then
    if len = 0 then .ok []
    else if fault then .error .other
    else readSegments d (segments s.regions start (start + len)) (List.replicate len 0)
  else .error .rangeOutsideTorrent

/-- The loop of `verify_piece`: read the piece a block at a time from `done` on. -/
def readPiece (s : Storage) (d : Disk) (fault : Nat → Bool) (index len : Nat) :
    Nat → Nat → Bytes → Except IoError Bytes
  | 0, _, acc => .ok acc
  | fuel + 1, done, acc =>
      if done < len then do
        let chunk := min (len - done) BLOCK_LEN
        let bytes ← s.readBlock d (fault (done / BLOCK_LEN)) index done chunk
        readPiece s d fault index len fuel (done + chunk) (acc ++ bytes)
      else .ok acc

/-- Whether piece `index` on disk matches its expected hash.  A piece that reads short is
one we do not hold. -/
def verifyPiece (s : Storage) (sha1 : Bytes → Bytes) (d : Disk) (fault : Nat → Bool)
    (index : Nat) : Except IoError Bool :=
  let len := s.layout.pieceLen index
  if len = 0 then .ok false
  else
    match s.pieceHashes[index]? with
    | none => .ok false
    | some expected =>
        match s.readPiece d fault index len len 0 [] with
        | .ok bytes => .ok (expected = sha1 bytes)
        | .error .unexpectedEof => .ok false
        | .error e => .error e

end Storage

/-! ## The linear byte space -/

theorem tiled_regionsFrom (file g : Nat) (lengths : List Nat) :
    Tiled g (regionsFrom file g lengths) := by
  have hfile : ∀ (lengths : List Nat) (file g : Nat), ∀ q ∈ regionsFrom file g lengths,
      file ≤ q.file := by
    intro lengths
    induction lengths with
    | nil => simp [regionsFrom]
    | cons n lengths ih =>
        intro file g q hq
        rcases List.mem_cons.1 hq with rfl | hq
        · exact le_refl _
        · have := ih (file + 1) (g + n) q hq
          omega
  induction lengths generalizing file g with
  | nil => exact Tiled.nil
  | cons n lengths ih =>
      refine Tiled.cons (r := ⟨file, g, n⟩) ?_ (ih (file + 1) (g + n))
      intro q hq
      have := hfile lengths (file + 1) (g + n) q hq
      simp only
      omega

theorem coverEnd_cons (g : Nat) (r : Region) (rs : List Region) :
    coverEnd g (r :: rs) = coverEnd (g + r.length) rs := by
  simp [coverEnd, Nat.add_assoc]

theorem Tiled.le_globalStart {g : Nat} {rs : List Region} (h : Tiled g rs) :
    ∀ q ∈ rs, g ≤ q.globalStart := by
  induction h with
  | nil => simp
  | cons _ _ ih =>
      intro q hq
      rcases List.mem_cons.1 hq with rfl | hq
      · exact le_refl _
      · have := ih q hq
        omega

theorem getElem?_writeAt (f : Bytes) (off : Nat) (data : Bytes) (i : Nat) :
    (writeAt f off data)[i]? =
      if i < off then (if i < f.length then f[i]? else some 0)
      else if i < off + data.length then data[i - off]?
      else f[i]? := by
  unfold writeAt
  have hlen : (f.take off ++ List.replicate (off - f.length) 0).length = off := by
    simp
    omega
  by_cases h₁ : i < off
  · rw [if_pos h₁, List.append_assoc, List.getElem?_append_left (by omega)]
    by_cases h₂ : i < f.length
    · rw [if_pos h₂, List.getElem?_append_left (by simp; omega), List.getElem?_take_of_lt h₁]
    · rw [if_neg h₂, List.getElem?_append_right (by simp; omega)]
      rw [List.getElem?_replicate_of_lt (by simp; omega)]
  · rw [if_neg h₁, List.append_assoc, List.getElem?_append_right (by omega), hlen]
    by_cases h₂ : i < off + data.length
    · rw [if_pos h₂, List.getElem?_append_left (by omega)]
    · rw [if_neg h₂, List.getElem?_append_right (by omega), List.getElem?_drop]
      congr 1
      omega

theorem coverEnd_regionsFrom (file g : Nat) (lengths : List Nat) :
    coverEnd g (regionsFrom file g lengths) = g + lengths.sum := by
  induction lengths generalizing file g with
  | nil => simp [regionsFrom, coverEnd]
  | cons n lengths ih =>
      rw [regionsFrom, coverEnd_cons, ih]
      simp [Nat.add_assoc]

/-- Lay a torrent's files out. -/
def Storage.create (layout : Layout) (lengths : List Nat) (pieceHashes : List Bytes)
    (h : lengths.sum = layout.totalLength) : Storage where
  regions := regionsFrom 0 0 lengths
  layout := layout
  pieceHashes := pieceHashes
  tiled := tiled_regionsFrom 0 0 lengths
  cover := by rw [coverEnd_regionsFrom, Nat.zero_add, h]

/-- A global offset lies in a region. -/
def Region.Contains (r : Region) (g : Nat) : Prop :=
  r.globalStart ≤ g ∧ g < r.globalStart + r.length

theorem Tiled.exists_contains {g₀ : Nat} {rs : List Region} (h : Tiled g₀ rs) {g : Nat}
    (hlo : g₀ ≤ g) (hhi : g < coverEnd g₀ rs) : ∃ r ∈ rs, r.Contains g := by
  induction h with
  | nil =>
      simp [coverEnd] at hhi
      omega
  | @cons r rs _ _ ih =>
      by_cases hin : g < r.globalStart + r.length
      · exact ⟨r, List.mem_cons_self, hlo, hin⟩
      · rw [coverEnd_cons] at hhi
        obtain ⟨q, hq, hc⟩ := ih (by omega) hhi
        exact ⟨q, List.mem_cons_of_mem _ hq, hc⟩

theorem byteAt_congr {d d' : Disk} {rs : List Region} (h : ∀ r ∈ rs, d r.file = d' r.file)
    (g : Nat) : byteAt d rs g = byteAt d' rs g := by
  induction rs with
  | nil => rfl
  | cons r rs ih =>
      simp only [byteAt, h r List.mem_cons_self,
        ih fun q hq => h q (List.mem_cons_of_mem _ hq)]

/-- Each file is placed once. -/
theorem Tiled.eq_of_file {g₀ : Nat} {rs : List Region} (h : Tiled g₀ rs) {r q : Region}
    (hr : r ∈ rs) (hq : q ∈ rs) (hfile : r.file = q.file) : r = q := by
  induction h with
  | nil => cases hr
  | @cons p rs hother _ ih =>
      rcases List.mem_cons.1 hr with rfl | hr'
      · rcases List.mem_cons.1 hq with rfl | hq'
        · rfl
        · exact absurd hfile.symm (hother q hq')
      · rcases List.mem_cons.1 hq with rfl | hq'
        · exact absurd hfile (hother r hr')
        · exact ih hr' hq'

/-! ## Writing -/

/-- A file write leaves the bytes outside it that exist. -/
theorem byteAt_write_of_outside {d : Disk} {w : FileWrite} {rs : List Region} {g : Nat}
    {v : UInt8} (hout : ∀ r ∈ rs, r.file = w.file → r.Contains g →
      ¬ (w.off ≤ g - r.globalStart ∧ g - r.globalStart < w.off + w.data.length))
    (h : byteAt d rs g = some v) : byteAt (d.write w) rs g = some v := by
  induction rs with
  | nil => cases h
  | cons r rs ih =>
      by_cases hg : r.globalStart ≤ g ∧ g < r.globalStart + r.length
      · simp only [byteAt, if_pos hg] at h ⊢
        unfold Disk.write
        split
        · rename_i hfile
          have hlt : g - r.globalStart < (d r.file).length := by
            by_contra hge
            rw [List.getElem?_eq_none (Nat.le_of_not_lt hge)] at h
            cases h
          have := hout r List.mem_cons_self hfile hg
          rw [getElem?_writeAt, if_pos hlt]
          split
          · exact h
          · rw [if_neg (by omega)]
            exact h
        · exact h
      · simp only [byteAt, if_neg hg] at h ⊢
        exact ih (fun q hq => hout q (List.mem_cons_of_mem _ hq)) h

theorem writes_other {ws : List FileWrite} {f : Nat} (h : ∀ w ∈ ws, w.file ≠ f) (d : Disk) :
    d.writes ws f = d f := by
  induction ws generalizing d with
  | nil => rfl
  | cons w ws ih =>
      have hw : f ≠ w.file := fun heq => h w List.mem_cons_self heq.symm
      rw [Disk.writes, List.foldl_cons]
      exact (ih (fun v hv => h v (List.mem_cons_of_mem _ hv)) (d.write w)).trans
        (by simp [Disk.write, hw])

theorem Disk.writes_append (d : Disk) (ws ws' : List FileWrite) :
    d.writes (ws ++ ws') = (d.writes ws).writes ws' := by
  simp [Disk.writes]

theorem segmentIn_file {start stop : Nat} {r : Region} {seg : Segment}
    (h : segmentIn start stop r = some seg) : seg.file = r.file := by
  unfold segmentIn at h
  split at h
  · cases h
  · simp only at h
    split at h
    · cases h
    · obtain rfl := Option.some.inj h
      rfl

theorem segmentIn_none {start stop : Nat} {r : Region} (h : segmentIn start stop r = none)
    {g : Nat} (hg : r.Contains g) : ¬ (start ≤ g ∧ g < stop) := by
  unfold Region.Contains at hg
  unfold segmentIn at h
  split at h
  · omega
  · simp only at h
    split at h
    · omega
    · cases h

theorem segmentIn_some {start stop : Nat} {r : Region} {seg : Segment}
    (h : segmentIn start stop r = some seg) :
    seg.fileOff = max start r.globalStart - r.globalStart ∧
      seg.lo = max start r.globalStart - start ∧
      seg.hi = min stop (r.globalStart + r.length) - start ∧
      max start r.globalStart < min stop (r.globalStart + r.length) := by
  unfold segmentIn at h
  split at h
  · cases h
  · simp only at h
    split at h
    · cases h
    · obtain rfl := Option.some.inj h
      exact ⟨rfl, rfl, rfl, by omega⟩

theorem segments_cons (r : Region) (rs : List Region) (start stop : Nat) :
    segments (r :: rs) start stop = (segmentIn start stop r).toList ++ segments rs start stop := by
  unfold segments
  rw [List.filterMap_cons]
  cases segmentIn start stop r <;> rfl

theorem segments_file {rs : List Region} {start stop f : Nat} (h : ∀ q ∈ rs, q.file ≠ f) :
    ∀ seg ∈ segments rs start stop, seg.file ≠ f := by
  intro seg hseg
  obtain ⟨q, hq, hsome⟩ := List.mem_filterMap.1 hseg
  rw [segmentIn_file hsome]
  exact h q hq

/-- What a segment's write does to a byte of its region. -/
theorem getElem?_toWrite {start : Nat} {data : Bytes} {r : Region} {seg : Segment}
    (h : segmentIn start (start + data.length) r = some seg) {g : Nat} (hg : r.Contains g)
    (f : Bytes) :
    (writeAt f (seg.toWrite data).off (seg.toWrite data).data)[g - r.globalStart]? =
      if start ≤ g ∧ g < start + data.length then data[g - start]?
      else if g < start then
        (if g - r.globalStart < f.length then f[g - r.globalStart]? else some 0)
      else f[g - r.globalStart]? := by
  obtain ⟨hoff, hlo, hhi, hlt⟩ := segmentIn_some h
  unfold Region.Contains at hg
  have hlen : ((data.take seg.hi).drop seg.lo).length = seg.hi - seg.lo := by
    simp only [List.length_drop, List.length_take]
    omega
  rw [getElem?_writeAt]
  simp only [Segment.toWrite, hlen]
  by_cases hin : start ≤ g ∧ g < start + data.length
  · rw [if_pos hin, if_neg (by omega), if_pos (by omega), List.getElem?_drop,
      List.getElem?_take_of_lt (by omega)]
    congr 1
    omega
  · rw [if_neg hin]
    by_cases hbefore : g < start
    · rw [if_pos hbefore, if_pos (by omega)]
    · rw [if_neg hbefore, if_neg (by omega), if_neg (by omega)]

/-- A write puts its bytes in its range and leaves every byte outside it that exists. -/
theorem Tiled.byteAt_writes {g₀ : Nat} {rs : List Region} (h : Tiled g₀ rs) (d : Disk)
    (start : Nat) (data : Bytes) (g : Nat) :
    (start ≤ g ∧ g < start + data.length → (∃ r ∈ rs, r.Contains g) →
      byteAt (d.writes ((segments rs start (start + data.length)).map (·.toWrite data))) rs g =
        data[g - start]?) ∧
    (¬ (start ≤ g ∧ g < start + data.length) → ∀ b, byteAt d rs g = some b →
      byteAt (d.writes ((segments rs start (start + data.length)).map (·.toWrite data))) rs g =
        some b) := by
  induction h generalizing d with
  | nil => simp [byteAt]
  | @cons r rs hfile htail ih =>
      have hws : ∀ w ∈ (segments rs start (start + data.length)).map (·.toWrite data),
          w.file ≠ r.file := by
        intro w hw
        obtain ⟨seg, hseg, rfl⟩ := List.mem_map.1 hw
        exact segments_file hfile seg hseg
      cases hseg : segmentIn start (start + data.length) r with
      | none =>
          rw [segments_cons, hseg, Option.toList_none, List.nil_append]
          obtain ⟨ihin, ihout⟩ := ih d
          by_cases hg : r.Contains g
          · have hout := segmentIn_none hseg hg
            have hg' : r.globalStart ≤ g ∧ g < r.globalStart + r.length := hg
            refine ⟨fun hin => absurd hin hout, fun _ b hb => ?_⟩
            simp only [byteAt, if_pos hg'] at hb ⊢
            rw [writes_other hws]
            exact hb
          · have hg' : ¬ (r.globalStart ≤ g ∧ g < r.globalStart + r.length) := hg
            simp only [byteAt, if_neg hg']
            refine ⟨fun hin hex => ihin hin ?_, ihout⟩
            obtain ⟨q, hq, hc⟩ := hex
            rcases List.mem_cons.1 hq with rfl | hq
            · exact absurd hc hg
            · exact ⟨q, hq, hc⟩
      | some seg =>
          have hsf : (seg.toWrite data).file = r.file := segmentIn_file hseg
          rw [segments_cons, hseg, Option.toList_some, List.cons_append, List.nil_append,
            List.map_cons]
          have hcons : ∀ ws, d.writes (seg.toWrite data :: ws) =
              (d.write (seg.toWrite data)).writes ws := fun ws => rfl
          rw [hcons]
          obtain ⟨ihin, ihout⟩ := ih (d.write (seg.toWrite data))
          by_cases hg : r.Contains g
          · have hg' : r.globalStart ≤ g ∧ g < r.globalStart + r.length := hg
            simp only [byteAt, if_pos hg']
            rw [writes_other hws]
            simp only [Disk.write, hsf, if_true, getElem?_toWrite hseg hg]
            refine ⟨fun hin _ => by rw [if_pos hin], fun hout b hb => ?_⟩
            rw [if_neg hout]
            have hlt : g - r.globalStart < (d r.file).length := by
              by_contra hge
              rw [List.getElem?_eq_none (Nat.le_of_not_lt hge)] at hb
              cases hb
            rw [if_pos hlt, hb, ite_self]
          · have hg' : ¬ (r.globalStart ≤ g ∧ g < r.globalStart + r.length) := hg
            have hsame : byteAt (d.write (seg.toWrite data)) rs g = byteAt d rs g := by
              refine byteAt_congr (fun q hq => ?_) g
              have : q.file ≠ (seg.toWrite data).file := by
                rw [hsf]
                exact hfile q hq
              simp [Disk.write, this]
            simp only [byteAt, if_neg hg']
            refine ⟨fun hin hex => ihin hin ?_, fun hout b hb => ihout hout b (hsame ▸ hb)⟩
            obtain ⟨q, hq, hc⟩ := hex
            rcases List.mem_cons.1 hq with rfl | hq
            · exact absurd hc hg
            · exact ⟨q, hq, hc⟩

/-! ## Reading -/

/-- A buffer with one stretch of it replaced. -/
theorem getElem?_splice {out bs : Bytes} {lo hi : Nat} (hlo : lo ≤ hi) (hhi : hi ≤ out.length)
    (hbs : bs.length = hi - lo) (j : Nat) :
    (out.take lo ++ bs ++ out.drop hi)[j]? =
      if lo ≤ j ∧ j < hi then bs[j - lo]? else out[j]? := by
  have htake : (out.take lo).length = lo := List.length_take_of_le (by omega)
  have hlen : (out.take lo ++ bs).length = hi := by
    rw [List.length_append, htake, hbs]
    omega
  by_cases h₁ : j < hi
  · rw [List.getElem?_append_left (by omega)]
    by_cases h₂ : j < lo
    · rw [List.getElem?_append_left (by omega), if_neg (by omega), List.getElem?_take_of_lt h₂]
    · rw [List.getElem?_append_right (by omega), if_pos (by omega), htake]
  · rw [List.getElem?_append_right (by omega), if_neg (by omega), hlen, List.getElem?_drop]
    congr 1
    omega

/-- A read that succeeds filled the buffer with the bytes of its range, and left the rest
of the buffer alone. -/
theorem Tiled.readSegments_ok {g₀ : Nat} {rs : List Region} (h : Tiled g₀ rs) {d : Disk}
    {start stop : Nat} {out out' : Bytes} (hout : out.length = stop - start)
    (hread : Storage.readSegments d (segments rs start stop) out = .ok out') :
    out'.length = out.length ∧
      (∀ j < stop - start, (∃ r ∈ rs, r.Contains (start + j)) →
        byteAt d rs (start + j) = out'[j]?) ∧
      (∀ j, start + j < g₀ → out'[j]? = out[j]?) := by
  induction h generalizing out with
  | nil =>
      obtain rfl : out = out' := by simpa [segments, Storage.readSegments] using hread
      simp
  | @cons r rs hfile htail ih =>
      rw [segments_cons] at hread
      cases hseg : segmentIn start stop r with
      | none =>
          rw [hseg, Option.toList_none, List.nil_append] at hread
          obtain ⟨hlen, hbytes, hbefore⟩ := ih hout hread
          refine ⟨hlen, ?_, fun j hj => hbefore j (by omega)⟩
          rintro j hj ⟨q, hq, hc⟩
          by_cases hg : r.Contains (start + j)
          · exact absurd ⟨by omega, by omega⟩ (segmentIn_none hseg hg)
          · have hg' : ¬ (r.globalStart ≤ start + j ∧ start + j < r.globalStart + r.length) := hg
            simp only [byteAt, if_neg hg']
            rcases List.mem_cons.1 hq with rfl | hq
            · exact absurd hc hg
            · exact hbytes j hj ⟨q, hq, hc⟩
      | some seg =>
          rw [hseg, Option.toList_some, List.cons_append, List.nil_append,
            Storage.readSegments] at hread
          obtain ⟨hoff, hlo, hhi, hlt⟩ := segmentIn_some hseg
          have hsf := segmentIn_file hseg
          split at hread
          · rename_i hfit
            have hbs : (((d seg.file).drop seg.fileOff).take (seg.hi - seg.lo)).length =
                seg.hi - seg.lo := by
              rw [List.length_take, List.length_drop]
              omega
            have hsplice := getElem?_splice (by omega) (by omega : seg.hi ≤ out.length) hbs
            have hlen₁ : (out.take seg.lo ++ ((d seg.file).drop seg.fileOff).take
                (seg.hi - seg.lo) ++ out.drop seg.hi).length = stop - start := by
              rw [List.length_append, List.length_append, hbs, List.length_take, List.length_drop]
              omega
            obtain ⟨hlen, hbytes, hbefore⟩ := ih hlen₁ hread
            refine ⟨by omega, ?_, ?_⟩
            · rintro j hj ⟨q, hq, hc⟩
              by_cases hg : r.Contains (start + j)
              · have hg' : r.globalStart ≤ start + j ∧
                    start + j < r.globalStart + r.length := hg
                rw [hbefore j (by omega), hsplice, if_pos (by omega)]
                simp only [byteAt, if_pos hg']
                rw [List.getElem?_take_of_lt (by omega), List.getElem?_drop, hsf]
                congr 1
                omega
              · have hg' : ¬ (r.globalStart ≤ start + j ∧
                    start + j < r.globalStart + r.length) := hg
                simp only [byteAt, if_neg hg']
                rcases List.mem_cons.1 hq with rfl | hq
                · exact absurd hc hg
                · exact hbytes j hj ⟨q, hq, hc⟩
            · intro j hj
              rw [hbefore j (by omega), hsplice, if_neg (by omega)]
          · cases hread

/-- A read of bytes that all exist does not end short. -/
theorem Tiled.readSegments_of_bytes {g₀ : Nat} {rs : List Region} (h : Tiled g₀ rs) {d : Disk}
    (start stop : Nat) (out : Bytes)
    (hbytes : ∀ g, start ≤ g → g < stop → (∃ r ∈ rs, r.Contains g) → (byteAt d rs g).isSome) :
    ∃ out', Storage.readSegments d (segments rs start stop) out = .ok out' := by
  induction h generalizing out with
  | nil => exact ⟨out, rfl⟩
  | @cons r rs hfile htail ih =>
      have hrest : ∀ g, start ≤ g → g < stop → (∃ q ∈ rs, q.Contains g) →
          (byteAt d rs g).isSome := by
        rintro g hlo hhi ⟨q, hq, hc⟩
        have hnot : ¬ (r.globalStart ≤ g ∧ g < r.globalStart + r.length) := by
          have := htail.le_globalStart q hq
          unfold Region.Contains at hc
          omega
        have hbyte := hbytes g hlo hhi ⟨q, List.mem_cons_of_mem _ hq, hc⟩
        simpa only [byteAt, if_neg hnot] using hbyte
      rw [segments_cons]
      cases hseg : segmentIn start stop r with
      | none =>
          rw [Option.toList_none, List.nil_append]
          exact ih out hrest
      | some seg =>
          obtain ⟨hoff, hlo, hhi, hlt⟩ := segmentIn_some hseg
          have hsf := segmentIn_file hseg
          rw [Option.toList_some, List.cons_append, List.nil_append, Storage.readSegments]
          -- the last byte of the segment exists, so the file reaches that far
          have hlast : r.Contains (min stop (r.globalStart + r.length) - 1) := by
            unfold Region.Contains
            omega
          have hlast' : r.globalStart ≤ min stop (r.globalStart + r.length) - 1 ∧
            min stop (r.globalStart + r.length) - 1 < r.globalStart + r.length := hlast
          have hbyte := hbytes _ (by omega) (by omega) ⟨r, List.mem_cons_self, hlast⟩
          simp only [byteAt, if_pos hlast', isSome_getElem?] at hbyte
          rw [if_pos (by rw [hsf]; omega)]
          exact ih _ hrest

namespace Storage

variable {s : Storage}

/-- Every offset inside the torrent lies in a file. -/
theorem exists_region (s : Storage) {g : Nat} (h : g < s.layout.totalLength) :
    ∃ r ∈ s.regions, r.Contains g :=
  s.tiled.exists_contains (Nat.zero_le _) (by rw [s.cover]; exact h)

/-- The byte at a global offset of the torrent. -/
def byte (s : Storage) (d : Disk) (g : Nat) : Option UInt8 := byteAt d s.regions g

/-- What a block read returns are the bytes of its range. -/
theorem readBlock_ok {d : Disk} {fault : Bool} {index begin len : Nat} {bs : Bytes}
    (h : s.readBlock d fault index begin len = .ok bs) :
    bs.length = len ∧ s.offsetOf index begin + len ≤ s.layout.totalLength ∧
      ∀ j < len, s.byte d (s.offsetOf index begin + j) = bs[j]? := by
  unfold readBlock at h
  simp only [inRange, decide_eq_true_eq] at h
  split at h
  · rename_i hrange
    split at h
    · rename_i hzero
      obtain rfl : [] = bs := by simpa using h
      exact ⟨hzero.symm, hrange, by omega⟩
    · split at h
      · cases h
      · obtain ⟨hlen, hbytes, -⟩ := s.tiled.readSegments_ok (by simp) h
        rw [List.length_replicate] at hlen
        refine ⟨hlen, hrange, fun j hj => hbytes j (by omega) ?_⟩
        exact s.exists_region (by omega)
  · cases h

/-- What the verification loop reads are the bytes of the piece. -/
theorem readPiece_ok {d : Disk} {fault : Nat → Bool} {index len fuel done : Nat}
    {acc bs : Bytes} (hfuel : len ≤ done + fuel) (hacc : acc.length = done) (hdone : done ≤ len)
    (hbytes : ∀ j < done, s.byte d (s.offsetOf index 0 + j) = acc[j]?)
    (h : s.readPiece d fault index len fuel done acc = .ok bs) :
    bs.length = len ∧ ∀ j < len, s.byte d (s.offsetOf index 0 + j) = bs[j]? := by
  induction fuel generalizing done acc with
  | zero =>
      obtain rfl : acc = bs := by simpa [readPiece] using h
      have : done = len := by omega
      exact ⟨by omega, fun j hj => hbytes j (by omega)⟩
  | succ fuel ih =>
      unfold readPiece at h
      split at h
      · rename_i hlt
        obtain ⟨chunk, hread, h⟩ := Except.ok_of_bind h
        obtain ⟨hclen, -, hcbytes⟩ := readBlock_ok hread
        have hpos : 0 < min (len - done) BLOCK_LEN := by
          simp only [BLOCK_LEN]
          omega
        refine ih (by omega) (by rw [List.length_append, hclen, hacc]) (by omega) ?_ h
        intro j hj
        by_cases hjd : j < done
        · rw [List.getElem?_append_left (by omega)]
          exact hbytes j hjd
        · rw [List.getElem?_append_right (by omega), hacc, ← hcbytes (j - done) (by omega)]
          congr 1
          simp only [offsetOf]
          omega
      · obtain rfl : acc = bs := by simpa using h
        have : done = len := by omega
        exact ⟨by omega, fun j hj => hbytes j (by omega)⟩

/-- The bytes of piece `index` on disk hash to its entry in the hash list. -/
def Matches (s : Storage) (sha1 : Bytes → Bytes) (d : Disk) (index : Nat) : Prop :=
  ∃ bs, s.pieceHashes[index]? = some (sha1 bs) ∧ bs.length = s.layout.pieceLen index ∧
    ∀ j < s.layout.pieceLen index, s.byte d (s.offsetOf index 0 + j) = bs[j]?

/-- A piece that verifies matches. -/
theorem matches_of_verifyPiece {sha1 : Bytes → Bytes} {d : Disk} {fault : Nat → Bool}
    {index : Nat} (h : s.verifyPiece sha1 d fault index = .ok true) : s.Matches sha1 d index := by
  unfold verifyPiece at h
  simp only at h
  split at h
  · cases h
  · split at h
    · cases h
    · rename_i expected hexp
      split at h
      · rename_i bs hread
        obtain ⟨hlen, hbytes⟩ :=
          readPiece_ok (Nat.le_add_left _ 0) rfl (Nat.zero_le _) (by simp) hread
        refine ⟨bs, ?_, hlen, hbytes⟩
        have : expected = sha1 bs := by simpa using h
        rw [hexp, this]
      · cases h
      · cases h

/-- A block whose bytes all exist does not read short. -/
theorem readBlock_ne_eof {d : Disk} (fault : Bool) {index begin len : Nat}
    (hbytes : ∀ j < len, (s.byte d (s.offsetOf index begin + j)).isSome) :
    s.readBlock d fault index begin len ≠ .error .unexpectedEof := by
  unfold readBlock
  simp only
  split
  · split
    · nofun
    · split
      · nofun
      · obtain ⟨out, hread⟩ := s.tiled.readSegments_of_bytes (d := d) (s.offsetOf index begin)
          (s.offsetOf index begin + len) (List.replicate len 0) fun g hlo hhi _ => by
            have hbyte := hbytes (g - s.offsetOf index begin) (by omega)
            rwa [Nat.add_sub_cancel' hlo] at hbyte
        rw [hread]
        nofun
  · nofun

/-- A piece whose bytes all exist does not read short. -/
theorem readPiece_ne_eof {d : Disk} {fault : Nat → Bool} {index len fuel done : Nat} {acc : Bytes}
    (hbytes : ∀ j < len, (s.byte d (s.offsetOf index 0 + j)).isSome) :
    s.readPiece d fault index len fuel done acc ≠ .error .unexpectedEof := by
  induction fuel generalizing done acc with
  | zero => nofun
  | succ fuel ih =>
      have hblock : ∀ j < min (len - done) BLOCK_LEN,
          (s.byte d (s.offsetOf index done + j)).isSome := by
        intro j hj
        have hoff : s.offsetOf index done + j = s.offsetOf index 0 + (done + j) := by
          unfold offsetOf
          omega
        rw [hoff]
        exact hbytes (done + j) (by omega)
      have hne := readBlock_ne_eof (fault (done / BLOCK_LEN)) hblock
      unfold readPiece
      split
      · simp only
        cases hread : s.readBlock d (fault (done / BLOCK_LEN)) index done
            (min (len - done) BLOCK_LEN) with
        | ok bytes => exact ih
        | error err =>
            rw [hread] at hne
            exact fun heq => hne heq
      · nofun

/-- A piece that matches is not found to fail. -/
theorem verifyPiece_ne_false {sha1 : Bytes → Bytes} {d : Disk} {fault : Nat → Bool} {index : Nat}
    (h : s.Matches sha1 d index) (hpos : 0 < s.layout.pieceLen index) :
    s.verifyPiece sha1 d fault index ≠ .ok false := by
  obtain ⟨bs, hhash, hlen, hbytes⟩ := h
  have hsome : ∀ j < s.layout.pieceLen index,
      (s.byte d (s.offsetOf index 0 + j)).isSome := by
    intro j hj
    rw [hbytes j hj, isSome_getElem?]
    omega
  unfold verifyPiece
  simp only [hhash, if_neg (Nat.pos_iff_ne_zero.1 hpos)]
  split
  · rename_i bytes hread
    obtain ⟨hlen', hbytes'⟩ :=
      readPiece_ok (Nat.le_add_left _ 0) rfl (Nat.zero_le _) (by simp) hread
    have heq : bytes = bs := by
      refine List.ext_getElem? fun j => ?_
      by_cases hj : j < s.layout.pieceLen index
      · rw [← hbytes' j hj, hbytes j hj]
      · rw [List.getElem?_eq_none (by omega), List.getElem?_eq_none (by omega)]
    rw [heq]
    simp
  · rename_i hread
    exact absurd hread (readPiece_ne_eof hsome)
  · nofun

/-- A range and a piece have no byte in common. -/
def Apart (s : Storage) (start len index : Nat) : Prop :=
  ∀ j < s.layout.pieceLen index, ¬ (start ≤ s.offsetOf index 0 + j ∧
    s.offsetOf index 0 + j < start + len)

/-- What a block write puts on disk is a write of a prefix of the block at its place. -/
theorem writeBlock_writes (fault : Option Nat) (index begin : Nat) (data : Bytes) :
    ∃ part : Bytes, (s.writeBlock fault index begin data).1 =
      s.fileWrites (s.offsetOf index begin) part ∧ part.length ≤ data.length := by
  have hnone : s.fileWrites (s.offsetOf index begin) [] = [] := by
    have hseg : ∀ r, segmentIn (s.offsetOf index begin) (s.offsetOf index begin) r = none := by
      intro r
      unfold segmentIn
      split
      · rfl
      · simp only
        split
        · rfl
        · omega
    simp [fileWrites, segments, hseg]
  unfold writeBlock
  simp only
  split
  · split
    · exact ⟨[], hnone.symm, Nat.zero_le _⟩
    · split
      · exact ⟨data, rfl, le_rfl⟩
      · exact ⟨data.take _, rfl, List.length_take_le' _ _⟩
  · exact ⟨[], hnone.symm, Nat.zero_le _⟩

/-- A block that is written is on disk. -/
theorem byte_writeBlock {fault : Option Nat} {index begin : Nat} {data : Bytes}
    (h : (s.writeBlock fault index begin data).2 = .ok ()) (d : Disk) {j : Nat}
    (hj : j < data.length) :
    s.byte (d.writes (s.writeBlock fault index begin data).1) (s.offsetOf index begin + j) =
      data[j]? := by
  unfold writeBlock at h ⊢
  simp only [inRange, decide_eq_true_eq] at h ⊢
  split
  · rename_i hrange
    rw [if_pos hrange] at h
    have hne : data ≠ [] := List.ne_nil_of_length_pos (by omega)
    rw [if_neg hne] at h ⊢
    cases fault with
    | none =>
        have hin := (s.tiled.byteAt_writes d (s.offsetOf index begin) data
          (s.offsetOf index begin + j)).1 ⟨by omega, by omega⟩ (s.exists_region (by omega))
        rwa [Nat.add_sub_cancel_left] at hin
    | some n => cases h
  · rename_i hrange
    rw [if_neg hrange] at h
    cases h

/-- A block write, whole or not, leaves the bytes outside its range. -/
theorem byte_writeBlock_of_outside (fault : Option Nat) {index begin : Nat} {data : Bytes}
    {d : Disk} {g : Nat}
    (hout : ¬ (s.offsetOf index begin ≤ g ∧ g < s.offsetOf index begin + data.length)) {v : UInt8}
    (h : s.byte d g = some v) :
    s.byte (d.writes (s.writeBlock fault index begin data).1) g = some v := by
  obtain ⟨part, heq, hlen⟩ := s.writeBlock_writes fault index begin data
  rw [heq]
  exact (s.tiled.byteAt_writes d (s.offsetOf index begin) part g).2 (by omega) v h

/-- A file write and a piece have no byte in common. -/
def Misses (s : Storage) (w : FileWrite) (index : Nat) : Prop :=
  ∀ r ∈ s.regions, r.file = w.file → ∀ j < s.layout.pieceLen index,
    r.Contains (s.offsetOf index 0 + j) →
      ¬ (w.off ≤ s.offsetOf index 0 + j - r.globalStart ∧
        s.offsetOf index 0 + j - r.globalStart < w.off + w.data.length)

/-- The file writes of a range have no byte outside it. -/
theorem outside_fileWrites {start g : Nat} {data : Bytes}
    (hout : ¬ (start ≤ g ∧ g < start + data.length)) :
    ∀ w ∈ s.fileWrites start data, ∀ r ∈ s.regions, r.file = w.file → r.Contains g →
      ¬ (w.off ≤ g - r.globalStart ∧ g - r.globalStart < w.off + w.data.length) := by
  intro w hw r hr hfile hcontains hmem
  obtain ⟨seg, hseg, rfl⟩ := List.mem_map.1 hw
  obtain ⟨q, hq, hsome⟩ := List.mem_filterMap.1 hseg
  obtain rfl : r = q := s.tiled.eq_of_file hr hq (hfile.trans (segmentIn_file hsome))
  obtain ⟨hoff, hlo, hhi, hlt⟩ := segmentIn_some hsome
  have hlen : ((data.take seg.hi).drop seg.lo).length = seg.hi - seg.lo := by
    simp only [List.length_drop, List.length_take]
    omega
  simp only [Segment.toWrite, hlen] at hmem
  unfold Region.Contains at hcontains
  omega

/-- The file writes of a range apart from a piece miss it. -/
theorem misses_fileWrites {start index : Nat} {data : Bytes}
    (hapart : s.Apart start data.length index) :
    ∀ w ∈ s.fileWrites start data, s.Misses w index :=
  fun w hw r hr hfile j hj => s.outside_fileWrites (hapart j hj) w hw r hr hfile

/-- Writes that miss a piece leave its bytes. -/
theorem byte_writes_of_misses {d : Disk} {index : Nat} {ws : List FileWrite}
    (hmiss : ∀ w ∈ ws, s.Misses w index) {j : Nat} (hj : j < s.layout.pieceLen index)
    {v : UInt8} (h : s.byte d (s.offsetOf index 0 + j) = some v) :
    s.byte (d.writes ws) (s.offsetOf index 0 + j) = some v := by
  induction ws generalizing d with
  | nil => exact h
  | cons w ws ih =>
      refine ih (fun u hu => hmiss u (List.mem_cons_of_mem _ hu)) ?_
      refine byteAt_write_of_outside (fun r hr hfile hcontains => ?_) h
      exact hmiss w List.mem_cons_self r hr hfile j hj hcontains

/-- A piece whose bytes are left matches as it did. -/
theorem Matches.of_bytes {sha1 : Bytes → Bytes} {d d' : Disk} {index : Nat}
    (h : s.Matches sha1 d index)
    (hbytes : ∀ j < s.layout.pieceLen index, ∀ v, s.byte d (s.offsetOf index 0 + j) = some v →
      s.byte d' (s.offsetOf index 0 + j) = some v) : s.Matches sha1 d' index := by
  obtain ⟨bs, hhash, hlen, hmatch⟩ := h
  refine ⟨bs, hhash, hlen, fun j hj => ?_⟩
  have hsome : bs[j]? = some bs[j] := List.getElem?_eq_getElem (by omega)
  rw [hsome]
  exact hbytes j hj _ ((hmatch j hj).trans hsome)

/-- A range within one piece is apart from every other. -/
theorem apart_of_within {start len index other : Nat} (hne : other ≠ index)
    (hwithin : ∀ g, start ≤ g → g < start + len →
      s.offsetOf index 0 ≤ g ∧ g < s.offsetOf index 0 + s.layout.pieceLen index) :
    s.Apart start len other := by
  intro j hj hmem
  have hin := hwithin _ hmem.1 hmem.2
  have hpiece : ∀ i, s.layout.pieceLen i ≤ s.layout.pieceLength := by
    intro i
    unfold Layout.pieceLen
    split <;> omega
  have h₁ := hpiece index
  have h₂ := hpiece other
  unfold offsetOf at hin
  rcases Nat.lt_or_gt_of_ne hne with hlt | hgt
  · have := Nat.mul_le_mul_right s.layout.pieceLength (Nat.succ_le_of_lt hlt)
    rw [Nat.succ_mul] at this
    omega
  · have := Nat.mul_le_mul_right s.layout.pieceLength (Nat.succ_le_of_lt hgt)
    rw [Nat.succ_mul] at this
    omega

end Storage

end Clove
