import Mathlib.Order.Bounds.Basic
import Clove.Daemon.Hosted
import Clove.FlatStorage
import Clove.MetainfoChecks
import Clove.PickerInvariants

/-!
# When a torrent is complete

A piece is worth the most that any file it overlaps is worth (`isGreatest_piecePriorities`).

Whether the pieces asked for are all held is found out in three ways: the registry goes over the
pieces, the picker counts those missing as they come and go, and an announce adds up the lengths
of those missing.  They agree (`completion_agrees`): a piece of an accepted torrent is not empty.
-/

namespace Clove

namespace MetaInfo

/-! ## What a piece is worth -/

/-- Some of these bytes are bytes of piece `i`. -/
def Meets (pieceLength start len i : Nat) : Prop :=
  ∃ g, start ≤ g ∧ g < start + len ∧ g / pieceLength = i

theorem meets_iff {pieceLength start len i : Nat} (hpos : 0 < pieceLength) (hlen : len ≠ 0) :
    Meets pieceLength start len i ↔
      start / pieceLength ≤ i ∧ i ≤ (start + len - 1) / pieceLength := by
  constructor
  · rintro ⟨g, hlo, hhi, rfl⟩
    exact ⟨Nat.div_le_div_right hlo, Nat.div_le_div_right (by omega)⟩
  · rintro ⟨hfirst, hlast⟩
    have hbegin : i * pieceLength ≤ start + len - 1 := (Nat.le_div_iff_mul_le hpos).1 hlast
    by_cases hstart : start ≤ i * pieceLength
    · exact ⟨i * pieceLength, hstart, by omega, Nat.mul_div_cancel i hpos⟩
    · refine ⟨start, le_rfl, by omega, le_antisymm hfirst ?_⟩
      exact (Nat.le_div_iff_mul_le hpos).2 (by omega)

/-- What a file is worth.  Past the end of the list it is normal. -/
def filePriority (perFile : Bytes) (j : Nat) : Nat := (perFile.getD j 1).toNat

variable {pieceLength : Nat} {perFile : Bytes} {s : Nat × List Nat} {j len i : Nat}

theorem length_raise : (raise pieceLength perFile s (j, len)).2.length = s.2.length := by
  unfold raise
  simp only
  split
  · rfl
  · exact List.length_mapIdx

theorem offset_raise : (raise pieceLength perFile s (j, len)).1 = s.1 + len := by
  unfold raise
  simp only
  split <;> rfl

/-- A file raises the pieces it overlaps. -/
theorem raise_of_meets (hpos : 0 < pieceLength) (hi : i < s.2.length)
    (h : Meets pieceLength s.1 len i) :
    (raise pieceLength perFile s (j, len)).2.getD i 0 =
      max (s.2.getD i 0) (filePriority perFile j) := by
  have hlen : len ≠ 0 := by
    obtain ⟨g, hlo, hhi, -⟩ := h
    omega
  have hspan := (meets_iff hpos hlen).1 h
  unfold raise filePriority
  simp only [hlen, or_false]
  split
  · rename_i hskip
    rw [hskip, Nat.max_zero]
  · simp [List.getD_eq_getElem?_getD, hi, hspan]

/-- A file leaves the other pieces alone. -/
theorem raise_of_not_meets (hpos : 0 < pieceLength) (hi : i < s.2.length)
    (h : ¬ Meets pieceLength s.1 len i) :
    (raise pieceLength perFile s (j, len)).2.getD i 0 = s.2.getD i 0 := by
  unfold raise
  simp only
  split
  · rfl
  · rename_i hwanted
    have hlen : len ≠ 0 := fun hlen => hwanted (.inr hlen)
    have hspan : ¬ (s.1 / pieceLength ≤ i ∧ i ≤ (s.1 + len - 1) / pieceLength) :=
      fun hspan => h ((meets_iff hpos hlen).2 hspan)
    rw [List.getD_eq_getElem?_getD, List.getElem?_mapIdx, List.getElem?_eq_getElem hi,
      Option.map_some, if_neg hspan, List.getD_eq_getElem _ _ hi, Option.getD_some]

/-- What the files that a piece overlaps are worth, the first of them at offset `start`. -/
def worths (pieceLength : Nat) (perFile : Bytes) (lengths : List Nat) (k start i : Nat) : Set Nat :=
  {w | ∃ j < lengths.length, Meets pieceLength (start + (lengths.take j).sum) (lengths.getD j 0) i ∧
    filePriority perFile (k + j) = w}

theorem mem_worths_cons {lengths : List Nat} {k start w : Nat} :
    w ∈ worths pieceLength perFile (len :: lengths) k start i ↔
      (Meets pieceLength start len i ∧ filePriority perFile k = w) ∨
        w ∈ worths pieceLength perFile lengths (k + 1) (start + len) i := by
  constructor
  · rintro ⟨j, hj, hmeets, hw⟩
    cases j with
    | zero => exact .inl ⟨hmeets, hw⟩
    | succ j =>
        refine .inr ⟨j, Nat.lt_of_succ_lt_succ hj, ?_, ?_⟩
        · rwa [List.take_succ_cons, List.sum_cons, List.getD_cons_succ, ← Nat.add_assoc] at hmeets
        · rwa [Nat.add_right_comm]
  · rintro (⟨hmeets, hw⟩ | ⟨j, hj, hmeets, hw⟩)
    · exact ⟨0, Nat.succ_pos _, hmeets, hw⟩
    · refine ⟨j + 1, Nat.succ_lt_succ hj, ?_, ?_⟩
      · rwa [List.take_succ_cons, List.sum_cons, List.getD_cons_succ, ← Nat.add_assoc]
      · rwa [Nat.add_right_comm] at hw

/-- The files one after the other: a piece ends up worth the most of what it was worth and of what
the files it overlaps are worth. -/
theorem foldl_raise (perFile : Bytes) (hpos : 0 < pieceLength) (lengths : List Nat) (k : Nat)
    (hi : i < s.2.length) :
    let out := (((lengths.zipIdx k).map fun f => (f.2, f.1)).foldl (raise pieceLength perFile) s).2
    out.length = s.2.length ∧
      IsGreatest (insert (s.2.getD i 0) (worths pieceLength perFile lengths k s.1 i))
        (out.getD i 0) := by
  induction lengths generalizing s k with
  | nil =>
      refine ⟨rfl, .inl rfl, ?_⟩
      rintro w (rfl | ⟨j, hj, -⟩)
      · exact le_rfl
      · exact absurd hj (Nat.not_lt_zero j)
  | cons len lengths ih =>
      intro out
      have hlen : i < (raise pieceLength perFile s (k, len)).2.length := by rwa [length_raise]
      obtain ⟨hout, hmem, hmax⟩ := ih (k + 1) hlen
      rw [offset_raise] at hmem hmax
      refine ⟨hout.trans length_raise, ?_⟩
      by_cases hmeets : Meets pieceLength s.1 len i
      · rw [raise_of_meets hpos hi hmeets] at hmem hmax
        have hraised := hmax (.inl rfl)
        refine ⟨?_, ?_⟩
        · rcases hmem with heq | hmem
          · rcases max_choice (s.2.getD i 0) (filePriority perFile k) with hold | hnew
            · exact .inl (heq.trans hold)
            · exact .inr (mem_worths_cons.2 (.inl ⟨hmeets, (heq.trans hnew).symm⟩))
          · exact .inr (mem_worths_cons.2 (.inr hmem))
        · rintro w (rfl | hw)
          · exact (le_max_left _ _).trans hraised
          · rcases mem_worths_cons.1 hw with ⟨-, rfl⟩ | hw
            · exact (le_max_right _ _).trans hraised
            · exact hmax (.inr hw)
      · rw [raise_of_not_meets hpos hi hmeets] at hmem hmax
        refine ⟨?_, ?_⟩
        · exact hmem.imp_right fun hw => mem_worths_cons.2 (.inr hw)
        · rintro w (rfl | hw)
          · exact hmax (.inl rfl)
          · exact hmax (.inr ((mem_worths_cons.1 hw).resolve_left fun h => hmeets h.1))

/-- Files laid one after the other cover what they are long together. -/
theorem exists_file_of_lt_sum {lengths : List Nat} {g : Nat} (h : g < lengths.sum) :
    ∃ j < lengths.length, (lengths.take j).sum ≤ g ∧
      g < (lengths.take j).sum + lengths.getD j 0 := by
  induction lengths generalizing g with
  | nil => exact absurd h (Nat.not_lt_zero g)
  | cons len lengths ih =>
      rw [List.sum_cons] at h
      by_cases hfirst : g < len
      · exact ⟨0, Nat.succ_pos _, Nat.zero_le _, by simpa using hfirst⟩
      · obtain ⟨j, hj, hlo, hhi⟩ := ih (g := g - len) (by omega)
        refine ⟨j + 1, Nat.succ_lt_succ hj, ?_, ?_⟩
        · rw [List.take_succ_cons, List.sum_cons]
          omega
        · rw [List.take_succ_cons, List.sum_cons, List.getD_cons_succ]
          omega

/-- Where a file starts. -/
def fileStart (m : MetaInfo) (j : Nat) : Nat := ((m.files.map (·.length)).take j).sum

/-- Some byte of file `j` is a byte of piece `i`. -/
def Overlaps (m : MetaInfo) (j i : Nat) : Prop :=
  Meets m.pieceLength (m.fileStart j) ((m.files.map (·.length)).getD j 0) i

/-- Every piece overlaps a file. -/
theorem exists_overlaps {m : MetaInfo} (h : m.Geometry) {i : Nat} (hi : i < m.pieces.length) :
    ∃ j < m.files.length, m.Overlaps j i := by
  have hpos : 0 < m.pieceLength := lt_of_lt_of_le (by decide) h.min_le
  have hbegin : i * m.pieceLength < (m.files.map (·.length)).sum := by
    have hmul : (i + 1) * m.pieceLength ≤ m.totalLength + (m.pieceLength - 1) := by
      rw [← Nat.le_div_iff_mul_le hpos, ← h.count]
      exact hi
    rw [Nat.add_mul, Nat.one_mul] at hmul
    rw [h.total]
    omega
  obtain ⟨j, hj, hlo, hhi⟩ := exists_file_of_lt_sum hbegin
  rw [List.length_map] at hj
  exact ⟨j, hj, i * m.pieceLength, hlo, hhi, Nat.mul_div_cancel i hpos⟩

/-- What each piece of a torrent is worth. -/
def prioritiesOf (m : MetaInfo) (perFile : Bytes) : List Nat :=
  piecePriorities m.pieces.length m.pieceLength (m.files.map (·.length)) perFile

/-- A piece is worth the most that any file it overlaps is worth. -/
theorem isGreatest_prioritiesOf {m : MetaInfo} (h : m.Geometry) (perFile : Bytes) {i : Nat}
    (hi : i < m.pieces.length) :
    (m.prioritiesOf perFile).length = m.pieces.length ∧
      IsGreatest {w | ∃ j < m.files.length, m.Overlaps j i ∧ filePriority perFile j = w}
        ((m.prioritiesOf perFile).getD i 0) := by
  have hpos : 0 < m.pieceLength := lt_of_lt_of_le (by decide) h.min_le
  have hstart : i < ((0, List.replicate m.pieces.length 0) : Nat × List Nat).2.length := by
    rwa [List.length_replicate]
  obtain ⟨hlength, hmem, hmax⟩ := foldl_raise perFile hpos
    (m.files.map (·.length)) 0 hstart
  have hall : m.prioritiesOf perFile = ((((m.files.map (·.length)).zipIdx 0).map
      fun f => (f.2, f.1)).foldl (raise m.pieceLength perFile)
        (0, List.replicate m.pieces.length 0)).2 := if_neg (Nat.pos_iff_ne_zero.1 hpos)
  rw [← hall] at hlength hmem hmax
  have hworths : ∀ w, w ∈ worths m.pieceLength perFile (m.files.map (·.length)) 0 0 i ↔
      ∃ j < m.files.length, m.Overlaps j i ∧ filePriority perFile j = w := by
    intro w
    unfold worths Overlaps fileStart
    simp only [Set.mem_ofPred_eq, List.length_map, Nat.zero_add]
  refine ⟨by rw [hlength, List.length_replicate], ?_, fun w hw => hmax (.inr ((hworths w).2 hw))⟩
  rcases hmem with hzero | hmem
  · -- worth nothing: so are the files it overlaps
    obtain ⟨j, hj, hover⟩ := exists_overlaps h hi
    have hle := hmax (.inr ((hworths _).2 ⟨j, hj, hover, rfl⟩))
    rw [hzero, List.getD_replicate _ hi] at hle ⊢
    exact ⟨j, hj, hover, Nat.le_zero.1 hle⟩
  · exact (hworths _).1 hmem

end MetaInfo

/-! ## The picker -/

namespace Picker

/-- What a picker is told of a torrent that is resumed: which pieces are held, and what each piece
is worth. -/
def Told (l : List Nat) (op : Op) : Prop := (∃ i, op = .setHave i) ∨ op = .setPiecePriorities l

theorem wants_setPiecePriorities {pk : Picker} (h : pk.Tallied) (l : List Nat) {i : Nat}
    (hi : i < pk.numPieces) :
    (pk.setPiecePriorities l).wants i = decide (0 < l.getD i 1) := by
  have hlen : i < pk.priority.length := by rwa [h.priority]
  show decide (0 < (pk.priority.mapIdx fun index _ => l.getD index 1).getD i 0) = _
  rw [List.getD_eq_getElem?_getD, List.getElem?_mapIdx, List.getElem?_eq_getElem hlen]
  rfl

theorem wants_run_told {l : List Nat} {ops : List Op} (hops : ∀ op ∈ ops, Told l op) {pk : Picker}
    (h : pk.Tallied) {i : Nat} (hi : i < pk.numPieces)
    (htold : .setPiecePriorities l ∈ ops ∨ pk.wants i = decide (0 < l.getD i 1)) :
    (Machine.run Picker.apply ops pk).wants i = decide (0 < l.getD i 1) := by
  induction ops generalizing pk with
  | nil => exact htold.resolve_left List.not_mem_nil
  | cons op ops ih =>
      have hlayout := toLayout_apply op pk
      refine ih (fun op hop => hops op (List.mem_cons_of_mem _ hop)) (h.apply op)
        (by rwa [hlayout]) ?_
      rcases hops op List.mem_cons_self with ⟨j, rfl⟩ | rfl
      · refine htold.imp (fun hin => (List.mem_cons.1 hin).resolve_left (by simp)) fun hold => ?_
        rw [← hold]
        show (pk.setHave j).wants i = pk.wants i
        unfold setHave
        split <;> rfl
      · exact .inr (wants_setPiecePriorities h l hi)

theorem has_run_told {l : List Nat} {ops : List Op} (hops : ∀ op ∈ ops, Told l op) {pk : Picker}
    (h : pk.Tallied) {i : Nat} (hi : i < pk.numPieces) :
    (Machine.run Picker.apply ops pk).has i = true ↔ pk.has i = true ∨ .setHave i ∈ ops := by
  induction ops generalizing pk with
  | nil => simp
  | cons op ops ih =>
      have hlayout := toLayout_apply op pk
      rw [Machine.run_cons, ih (fun op hop => hops op (List.mem_cons_of_mem _ hop)) (h.apply op)
        (by rwa [hlayout]), List.mem_cons]
      rcases hops op List.mem_cons_self with ⟨j, rfl⟩ | rfl
      · have hset : (Picker.apply (.setHave j) pk).has i = true ↔ i = j ∨ pk.has i = true := by
          by_cases hj : j < pk.numPieces
          · rw [Picker.apply, has_setHave h.wf hj, Bool.or_eq_true, decide_eq_true_eq]
          · have hne : i ≠ j := fun heq => hj (heq ▸ hi)
            simp [Picker.apply, setHave, hj, hne]
        have hop : Op.setHave i = .setHave j ↔ i = j :=
          ⟨fun heq => by injection heq, fun heq => by rw [heq]⟩
        rw [hset, hop, or_assoc, or_left_comm]
      · have hop : Op.setHave i ≠ .setPiecePriorities l := by simp
        simp only [hop, false_or]
        rfl

end Picker

/-! ## Three ways to be complete -/

theorem length_regionsFrom (file g : Nat) (lengths : List Nat) :
    (regionsFrom file g lengths).map (·.length) = lengths := by
  induction lengths generalizing file g with
  | nil => rfl
  | cons len lengths ih => rw [regionsFrom, List.map_cons, ih]

namespace Daemon

open Torrent (Shared)

namespace Hosted

variable {sh : Shared} {m : MetaInfo}

theorem piecePriorities_eq {hm : m.Geometry} (hstorage : sh.storage = m.storage hm) (h : Hosted) :
    h.piecePriorities sh = m.prioritiesOf h.priorities := by
  unfold piecePriorities Shared.numPieces
  rw [hstorage]
  unfold MetaInfo.storage Storage.create
  simp only [length_regionsFrom]
  rfl

/-- The registry goes over the pieces. -/
theorem isComplete_iff {hm : m.Geometry} (hstorage : sh.storage = m.storage hm) (h : Hosted) :
    h.isComplete sh = true ↔ ∀ i < h.have_.len,
      0 < (m.prioritiesOf h.priorities).getD i 1 → h.have_.has i = true := by
  unfold isComplete wantedAndHeld
  rw [decide_eq_true_eq, List.countP_eq_length, piecePriorities_eq hstorage]
  simp only [List.mem_filter, List.mem_range, decide_eq_true_eq, ne_eq, and_imp,
    Nat.pos_iff_ne_zero]

end Hosted

/-- A torrent that is accepted.  Each piece is worth the most that any file it overlaps is worth.
And whatever is held and however the files are prioritised: told so, in any order, the picker says
that the torrent is complete exactly if the registry does, and exactly if no byte is left. -/
theorem completion_agrees {sha1 toLowercase : Bytes → Bytes} {input : Bytes} {m : MetaInfo}
    (h : MetaInfo.parse sha1 toLowercase input = .ok m) (perFile : Bytes) :
    (m.prioritiesOf perFile).length = m.pieces.length ∧
    (∀ i < m.pieces.length,
      IsGreatest {w | ∃ j < m.files.length, m.Overlaps j i ∧ MetaInfo.filePriority perFile j = w}
        ((m.prioritiesOf perFile).getD i 0)) ∧
    ∀ (hm : m.Geometry) (sh : Shared) (x : Hosted) (mode : Mode) (ops : List Picker.Op),
      sh.storage = m.storage hm → x.priorities = perFile → x.have_.len = m.pieces.length →
      ops.Perm (x.have_.iterPresent.map Picker.Op.setHave ++
        [.setPiecePriorities (m.prioritiesOf perFile)]) →
      let pk := Machine.run Picker.apply ops (Picker.new m.layout mode)
      (x.isComplete sh = true ↔ pk.isComplete = true) ∧
        (pk.isComplete = true ↔ pk.bytesLeft = 0) := by
  have hgeometry := MetaInfo.geometry_of_parse h
  refine ⟨?_, fun i hi => (MetaInfo.isGreatest_prioritiesOf hgeometry perFile hi).2, ?_⟩
  · exact (MetaInfo.isGreatest_prioritiesOf hgeometry perFile hgeometry.pieces_pos).1
  · intro hm sh x mode ops hstorage hpriorities hlen hperm pk
    have htallied : pk.Tallied := Picker.tallied_run ops (.new m.layout mode)
    have hlayout : pk.toLayout = m.layout := Picker.toLayout_run ops _
    have hnum : pk.numPieces = m.pieces.length := by rw [hlayout]; rfl
    have htold : ∀ op ∈ ops, Picker.Told (m.prioritiesOf perFile) op := by
      intro op hop
      rcases List.mem_append.1 (hperm.subset hop) with hop | hop
      · obtain ⟨i, -, rfl⟩ := List.mem_map.1 hop
        exact .inl ⟨i, rfl⟩
      · exact .inr (List.mem_singleton.1 hop)
    have hwants : ∀ i < m.pieces.length,
        (pk.wants i = true ↔ 0 < (m.prioritiesOf perFile).getD i 1) := by
      intro i hi
      have hlast : Picker.Op.setPiecePriorities (m.prioritiesOf perFile) ∈ ops :=
        hperm.symm.subset (List.mem_append_right _ List.mem_cons_self)
      rw [Picker.wants_run_told htold (.new m.layout mode) hi (.inl hlast), decide_eq_true_eq]
    have hhas : ∀ i < m.pieces.length, (pk.has i = true ↔ x.have_.has i = true) := by
      intro i hi
      have hop : Picker.Op.setHave i ∈ ops ↔ x.have_.has i = true := by
        rw [hperm.mem_iff, ← Bitfield.mem_iterPresent]
        simp
      have hnew : (Picker.new m.layout mode).has i = false := Bitfield.has_empty _ _
      rw [Picker.has_run_told htold (.new m.layout mode) hi, hop, hnew]
      simp
    refine ⟨?_, (htallied.bytesLeft_eq_zero_iff ?_).symm⟩
    · rw [Hosted.isComplete_iff hstorage, htallied.isComplete_iff, hnum, hlen, hpriorities]
      refine forall_congr' fun i => forall_congr' fun hi => ?_
      rw [hwants i hi, hhas i hi]
    · rw [hnum, hlayout]
      have hpos : 0 < m.pieceLength := lt_of_lt_of_le (by decide) hgeometry.min_le
      have hcount : m.pieces.length = (m.totalLength + m.pieceLength - 1) / m.pieceLength := by
        rw [Nat.add_sub_assoc hpos]
        exact hgeometry.count
      exact fun i hi => Picker.pieceLen_pos hpos hcount hi

open MetaInfo (threeFilesInfo) in
/-- A torrent of three files: the first is not wanted, and the last has high priority. -/
theorem completion_agrees_threeFiles :
    (threeFilesInfo.prioritiesOf [0, 1, 2]).length = threeFilesInfo.pieces.length ∧
    (∀ i < threeFilesInfo.pieces.length,
      IsGreatest {w | ∃ j < threeFilesInfo.files.length, threeFilesInfo.Overlaps j i ∧
          MetaInfo.filePriority [0, 1, 2] j = w}
        ((threeFilesInfo.prioritiesOf [0, 1, 2]).getD i 0)) ∧
    ∀ (hm : threeFilesInfo.Geometry) (sh : Shared) (x : Hosted) (mode : Mode)
      (ops : List Picker.Op), sh.storage = threeFilesInfo.storage hm →
      x.priorities = [0, 1, 2] → x.have_.len = threeFilesInfo.pieces.length →
      ops.Perm (x.have_.iterPresent.map Picker.Op.setHave ++
        [.setPiecePriorities (threeFilesInfo.prioritiesOf [0, 1, 2])]) →
      let pk := Machine.run Picker.apply ops (Picker.new threeFilesInfo.layout mode)
      (x.isComplete sh = true ↔ pk.isComplete = true) ∧
        (pk.isComplete = true ↔ pk.bytesLeft = 0) :=
  completion_agrees MetaInfo.parse_threeFiles [0, 1, 2]

end Daemon

end Clove
