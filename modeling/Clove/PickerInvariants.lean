import Clove.Lib.Machine
import Clove.PickerAccounting

/-!
# The invariants of the picker

`check_invariants` is what the picker asserts of itself in debug builds.  The count of wanted
pieces not held is kept by `set_have` and `reset_piece`, one up or down at a time, and counted
anew by `set_piece_priorities`; `Tallied` says the count is right and the tables fit.  Every
operation keeps it, with any arguments (`Tallied.apply`), and it gives every assertion.
-/

namespace Clove

namespace Picker

/-! ## What is asserted -/

/-- Wanted pieces not held, counted. -/
def missing (pk : Picker) : Nat := (List.range pk.numPieces).countP fun i => pk.wants i && !pk.has i

/-- Blocks received of a piece. -/
def receivedOf (pk : Picker) (index : Nat) : Nat :=
  ((pk.progress.lookup index).map Progress.receivedCount).getD 0

/-- The assertions of `check_invariants`, in its order. -/
def checkInvariants (pk : Picker) : Bool :=
  pk.availability.length = pk.numPieces &&
  pk.haveField.len = pk.numPieces &&
  (pk.progress.entries.all fun e =>
    e.1 < pk.numPieces && e.2.received.length = pk.blocksInPiece e.1 &&
      e.2.inFlight.length = pk.blocksInPiece e.1 && !pk.has e.1) &&
  pk.priority.length = pk.numPieces &&
  pk.missingWanted = pk.missing &&
  pk.isComplete = ((List.range pk.numPieces).all fun i => !pk.wants i || pk.has i) &&
  (pk.haveField.iterPresent.length ≠ pk.numPieces || pk.isComplete)

/-- An operation of the picker, with any arguments. -/
inductive Op where
  | setPiecePriorities (perPiece : List Nat)
  | setMode (mode : Mode)
  | setEndgameBlocks (blocks : Nat)
  | addBitfield (field : Bitfield)
  | removeBitfield (field : Bitfield)
  | addSingle (index : Nat)
  | setHave (index : Nat)
  | resetPiece (index : Nat)
  | blockReceived (index block : Nat)
  | blockFailed (index block : Nat)
  | pick (peerHas : Bitfield) (want : Nat)

def apply : Op → Picker → Picker
  | .setPiecePriorities l, pk => pk.setPiecePriorities l
  | .setMode m, pk => pk.setMode m
  | .setEndgameBlocks n, pk => pk.setEndgameBlocks n
  | .addBitfield f, pk => pk.addBitfield f
  | .removeBitfield f, pk => pk.removeBitfield f
  | .addSingle i, pk => pk.addSingle i
  | .setHave i, pk => pk.setHave i
  | .resetPiece i, pk => pk.resetPiece i
  | .blockReceived i b, pk => (pk.blockReceived i b).1
  | .blockFailed i b, pk => pk.blockFailed i b
  | .pick f n, pk => (pk.pick f n).1

/-! ## The invariant -/

/-- The tables fit and the count is right. -/
structure Tallied (pk : Picker) : Prop where
  wf : pk.WF
  availability : pk.availability.length = pk.numPieces
  priority : pk.priority.length = pk.numPieces
  count : pk.missingWanted = pk.missing

/-- Nothing the count depends on has changed. -/
structure SameTally (pk pk' : Picker) : Prop where
  toLayout : pk'.toLayout = pk.toLayout
  haveField : pk'.haveField = pk.haveField
  priority : pk'.priority = pk.priority
  missingWanted : pk'.missingWanted = pk.missingWanted
  availability : pk'.availability.length = pk.availability.length

variable {pk pk' : Picker}

theorem SameTally.refl (pk : Picker) : SameTally pk pk := ⟨rfl, rfl, rfl, rfl, rfl⟩

theorem SameTally.trans {pk'' : Picker} (h : SameTally pk pk') (h' : SameTally pk' pk'') :
    SameTally pk pk'' :=
  ⟨h'.toLayout.trans h.toLayout, h'.haveField.trans h.haveField, h'.priority.trans h.priority,
    h'.missingWanted.trans h.missingWanted, h'.availability.trans h.availability⟩

theorem Tallied.of_same (h : pk.Tallied) (hsame : SameTally pk pk') (hwf : pk'.WF) :
    pk'.Tallied where
  wf := hwf
  availability := by rw [hsame.availability, hsame.toLayout, h.availability]
  priority := by rw [hsame.priority, hsame.toLayout, h.priority]
  count := by
    rw [hsame.missingWanted, h.count]
    simp only [missing, wants, Picker.has, hsame.toLayout, hsame.haveField, hsame.priority]

theorem Tallied.new (l : Layout) (m : Mode) : (Picker.new l m).Tallied := by
  refine ⟨.new l m, List.length_replicate, List.length_replicate, ?_⟩
  have hall : ∀ i ∈ List.range l.numPieces,
      ((Picker.new l m).wants i && !(Picker.new l m).has i) = true := by
    intro i hi
    rw [Bool.and_eq_true, Bool.not_eq_true']
    refine ⟨?_, Bitfield.has_empty _ _⟩
    simp [wants, Picker.new, List.mem_range.1 hi]
  exact (List.length_range.symm.trans (List.countP_eq_length.2 hall).symm)

/-! ## Every operation -/

/-- Counting anew. -/
theorem Tallied.setPiecePriorities (h : pk.Tallied) (l : List Nat) :
    (pk.setPiecePriorities l).Tallied := by
  refine ⟨(sameAccounting_setPiecePriorities pk l).wf h.wf, h.availability, ?_, rfl⟩
  exact List.length_mapIdx.trans h.priority

/-- Changing what is held at one piece changes the count by what it changes there. -/
theorem missing_update {i : Nat} (hi : i < pk.numPieces)
    (hlayout : pk'.toLayout = pk.toLayout) (hpriority : pk'.priority = pk.priority)
    (hhas : ∀ j, j ≠ i → pk'.has j = pk.has j) :
    pk'.missing + (if pk.wants i && !pk.has i then 1 else 0) =
      pk.missing + (if pk.wants i && !pk'.has i then 1 else 0) := by
  have hwants : ∀ j, pk'.wants j = pk.wants j := fun j => by rw [wants, wants, hpriority]
  have hcount := Lists.countP_range_update (p := fun j => pk.wants j && !pk.has j)
    (q := fun j => pk'.wants j && !pk'.has j) hi fun j hj => by rw [hwants, hhas j hj]
  rw [hwants i] at hcount
  rw [missing, missing, hlayout]
  exact hcount

theorem Tallied.setHave (h : pk.Tallied) (i : Nat) : (pk.setHave i).Tallied := by
  by_cases hi : i < pk.numPieces
  · have hhas := has_setHave h.wf hi
    have hupdate := @missing_update pk (pk.setHave i) i hi (by rw [Picker.setHave, if_pos hi])
      (by rw [Picker.setHave, if_pos hi]) fun j hj => by rw [hhas]; simp [hj]
    have hcount : (pk.setHave i).missingWanted =
        if pk.wants i && !pk.has i then pk.missingWanted - 1 else pk.missingWanted := by
      rw [Picker.setHave, if_pos hi, Bool.and_comm]
    refine ⟨h.wf.setHave hi, ?_, ?_, ?_⟩
    · rw [Picker.setHave, if_pos hi]
      exact h.availability
    · rw [Picker.setHave, if_pos hi]
      exact h.priority
    · have hnow : (pk.setHave i).has i = true := by rw [hhas]; simp
      rw [hnow, Bool.not_true, Bool.and_false] at hupdate
      rw [hcount, h.count]
      split at hupdate
      · rename_i hmissing
        rw [if_pos hmissing]
        simp only [Bool.false_eq_true, if_false] at hupdate
        omega
      · rename_i hmissing
        rw [if_neg hmissing]
        simp only [Bool.false_eq_true, if_false] at hupdate
        omega
  · rw [Picker.setHave, if_neg hi]
    exact h

theorem Tallied.resetPiece (h : pk.Tallied) (i : Nat) : (pk.resetPiece i).Tallied := by
  by_cases hi : i < pk.numPieces
  · have hhas := fun j => has_resetPiece hi j
    have hupdate := @missing_update pk (pk.resetPiece i) i hi (by rw [Picker.resetPiece, if_pos hi])
      (by rw [Picker.resetPiece, if_pos hi]) fun j hj => by rw [hhas]; simp [hj]
    have hcount : (pk.resetPiece i).missingWanted =
        if pk.has i && pk.wants i then pk.missingWanted + 1 else pk.missingWanted := by
      rw [Picker.resetPiece, if_pos hi]
    refine ⟨h.wf.resetPiece hi, ?_, ?_, ?_⟩
    · rw [Picker.resetPiece, if_pos hi]
      exact h.availability
    · rw [Picker.resetPiece, if_pos hi]
      exact h.priority
    · have hnow : (pk.resetPiece i).has i = false := by rw [hhas]; simp
      rw [hnow] at hupdate
      rw [hcount, h.count]
      cases hwants : pk.wants i <;> cases hheld : pk.has i <;> simp_all
  · rw [Picker.resetPiece, if_neg hi]
    exact h

theorem sameTally_putProgress (pk : Picker) (i : Nat) (prog : Progress) :
    SameTally pk (pk.putProgress i prog) := ⟨rfl, rfl, rfl, rfl, rfl⟩

theorem sameTally_noteSaturation (pk : Picker) (n : Nat) : SameTally pk (pk.noteSaturation n) :=
  ⟨rfl, rfl, rfl, rfl, rfl⟩

theorem Tallied.blockReceived (h : pk.Tallied) (i b : Nat) : (pk.blockReceived i b).1.Tallied := by
  unfold Picker.blockReceived
  split
  · rename_i htrack
    obtain ⟨hreceived, hinFlight⟩ := h.wf.length_progressOf i
    simp only
    split
    · refine h.of_same ((sameTally_putProgress _ _ _).trans (sameTally_noteSaturation _ _)) ?_
      refine (h.wf.putProgress htrack ?_ ?_).noteSaturation _
      · rw [List.length_set]
        exact hreceived
      · rw [List.length_modify]
        exact hinFlight
    · exact h.of_same (sameTally_putProgress _ _ _) (h.wf.putProgress htrack hreceived hinFlight)
  · exact h

theorem Tallied.blockFailed (h : pk.Tallied) (i b : Nat) : (pk.blockFailed i b).Tallied := by
  refine h.of_same ?_ (h.wf.blockFailed i b)
  unfold Picker.blockFailed
  split
  · split
    · exact (sameTally_putProgress _ _ _).trans (sameTally_noteSaturation _ _)
    · exact .refl pk
  · exact .refl pk

theorem sameTally_pick (pk : Picker) (peerHas : Bitfield) (want : Nat) :
    SameTally pk (pk.pick peerHas want).1 := by
  have hpiece : ∀ (endgame : Bool) (s : Picker × List Wire.BlockRequest) (index : Nat),
      SameTally s.1 (pickPiece endgame want s index).1 := by
    intro endgame s index
    unfold pickPiece
    split
    · exact .refl _
    · split
      · exact sameTally_putProgress _ _ _
      · exact .refl _
  have hfold : ∀ (endgame : Bool) (l : List Nat) (s : Picker × List Wire.BlockRequest),
      SameTally s.1 (l.foldl (pickPiece endgame want) s).1 := by
    intro endgame l
    induction l with
    | nil => exact fun s => .refl _
    | cons index l ih => exact fun s => (hpiece endgame s index).trans (ih _)
  unfold pick
  split
  · exact .refl pk
  · exact hfold _ _ (pk, [])

/-- Every operation keeps the tables fitting and the count right. -/
theorem Tallied.apply (h : pk.Tallied) (op : Op) : (Picker.apply op pk).Tallied := by
  cases op with
  | setPiecePriorities l => exact h.setPiecePriorities l
  | setMode m => exact h.of_same ⟨rfl, rfl, rfl, rfl, rfl⟩ ((sameAccounting_setMode pk m).wf h.wf)
  | setEndgameBlocks n =>
      have hsame : SameAccounting pk (pk.setEndgameBlocks n) := ⟨rfl, rfl, rfl, rfl⟩
      exact h.of_same ⟨rfl, rfl, rfl, rfl, rfl⟩ (hsame.wf h.wf)
  | addBitfield f =>
      exact h.of_same ⟨rfl, rfl, rfl, rfl, List.length_mapIdx⟩
        ((sameAccounting_addBitfield pk f).wf h.wf)
  | removeBitfield f =>
      exact h.of_same ⟨rfl, rfl, rfl, rfl, List.length_mapIdx⟩
        ((sameAccounting_removeBitfield pk f).wf h.wf)
  | addSingle i =>
      refine h.of_same ?_ ((sameAccounting_addSingle pk i).wf h.wf)
      unfold Picker.apply addSingle
      simp only
      split
      · exact ⟨rfl, rfl, rfl, rfl, List.length_modify _ _ _⟩
      · exact .refl pk
  | setHave i => exact h.setHave i
  | resetPiece i => exact h.resetPiece i
  | blockReceived i b => exact h.blockReceived i b
  | blockFailed i b => exact h.blockFailed i b
  | pick f n => exact h.of_same (sameTally_pick pk f n) (picks_pick h.wf f n).wf

/-! ## The geometry is fixed -/

/-- No operation changes how the torrent is cut. -/
theorem toLayout_apply (op : Op) (pk : Picker) : (Picker.apply op pk).toLayout = pk.toLayout := by
  cases op with
  | setPiecePriorities l => rfl
  | setMode m => rfl
  | setEndgameBlocks n => rfl
  | addBitfield f => rfl
  | removeBitfield f => rfl
  | addSingle i =>
      unfold Picker.apply addSingle
      simp only
      split <;> rfl
  | setHave i =>
      unfold Picker.apply Picker.setHave
      simp only
      split <;> rfl
  | resetPiece i =>
      unfold Picker.apply Picker.resetPiece
      simp only
      split <;> rfl
  | blockReceived i b =>
      unfold Picker.apply Picker.blockReceived
      simp only
      split
      · split <;> rfl
      · rfl
  | blockFailed i b =>
      unfold Picker.apply Picker.blockFailed
      simp only
      split
      · split <;> rfl
      · rfl
  | pick f n => exact (sameTally_pick pk f n).toLayout

/-- A torrent cut into as many pieces as its length needs has no empty piece. -/
theorem pieceLen_pos {l : Layout} (hpos : 0 < l.pieceLength)
    (hn : l.numPieces = (l.totalLength + l.pieceLength - 1) / l.pieceLength) {i : Nat}
    (hi : i < l.numPieces) : 0 < l.pieceLen i := by
  have hmul : (i + 1) * l.pieceLength ≤ l.totalLength + l.pieceLength - 1 := by
    rw [← Nat.le_div_iff_mul_le hpos, ← hn]
    exact hi
  have hstart : i * l.pieceLength < l.totalLength := by
    rw [Nat.add_mul, Nat.one_mul] at hmul
    omega
  unfold Layout.pieceLen
  rw [if_neg (by omega)]
  exact lt_min (by omega) hpos

/-! ## What the invariant gives -/

/-- A piece has received no more blocks than it has. -/
theorem Tallied.receivedOf_le (h : pk.Tallied) (index : Nat) :
    pk.receivedOf index ≤ pk.blocksInPiece index := by
  unfold receivedOf
  cases hlookup : pk.progress.lookup index with
  | none => exact Nat.zero_le _
  | some prog =>
      rw [Option.map_some, Option.getD_some, ← h.wf.length_received hlookup]
      exact List.countP_le_length

/-- The flag says whether any wanted piece is missing. -/
theorem Tallied.isComplete_iff (h : pk.Tallied) :
    pk.isComplete = true ↔ ∀ i < pk.numPieces, pk.wants i = true → pk.has i = true := by
  unfold isComplete
  rw [decide_eq_true_eq, h.count, missing, List.countP_eq_zero]
  refine ⟨fun hall i hi hwants => ?_, fun hall i hi => ?_⟩
  · have := hall i (List.mem_range.2 hi)
    rw [hwants, Bool.true_and, Bool.not_eq_true', Bool.not_eq_false] at this
    exact this
  · rw [Bool.and_eq_true, Bool.not_eq_true']
    rintro ⟨hwants, hmissing⟩
    rw [hall i (List.mem_range.1 hi) hwants] at hmissing
    exact Bool.noConfusion hmissing

/-- Every entry of the progress table passes its assertions. -/
theorem Tallied.progress_ok (h : pk.Tallied) :
    (pk.progress.entries.all fun e =>
      e.1 < pk.numPieces && e.2.received.length = pk.blocksInPiece e.1 &&
        e.2.inFlight.length = pk.blocksInPiece e.1 && !pk.has e.1) = true := by
  rw [List.all_eq_true]
  rintro ⟨i, prog⟩ hmem
  have hlookup : pk.progress.lookup i = some prog := AList.mem_lookup_iff.2 hmem
  simp [h.wf.lt_numPieces hlookup, h.wf.length_received hlookup, h.wf.length_inFlight hlookup,
    h.wf.not_held hlookup]

/-- Holding every piece is completion under any priorities. -/
theorem Tallied.complete_of_full (h : pk.Tallied)
    (hfull : pk.haveField.iterPresent.length = pk.numPieces) : pk.isComplete = true := by
  rw [h.isComplete_iff]
  intro i hi _
  have hlen : ((List.range pk.haveField.len).filter pk.haveField.has).length =
      (List.range pk.haveField.len).length := by
    rw [List.length_range]
    exact hfull.trans h.wf.len_haveField.symm
  refine List.length_filter_eq_length_iff.1 hlen i ?_
  rw [h.wf.len_haveField]
  exact List.mem_range.2 hi

/-- Every assertion holds. -/
theorem Tallied.checkInvariants (h : pk.Tallied) : pk.checkInvariants = true := by
  have hcomplete : pk.isComplete =
      ((List.range pk.numPieces).all fun i => !pk.wants i || pk.has i) := by
    rw [Bool.eq_iff_iff, h.isComplete_iff, List.all_eq_true]
    simp only [List.mem_range, Bool.or_eq_true, Bool.not_eq_true', ← Bool.not_eq_true]
    exact forall_congr' fun i => forall_congr' fun _ => imp_iff_not_or
  have hfull : (pk.haveField.iterPresent.length ≠ pk.numPieces || pk.isComplete) = true := by
    by_cases hlen : pk.haveField.iterPresent.length = pk.numPieces
    · rw [h.complete_of_full hlen, Bool.or_true]
    · simp [hlen]
  unfold Picker.checkInvariants
  simp only [Bool.and_eq_true, decide_eq_true_eq]
  exact ⟨⟨⟨⟨⟨⟨h.availability, h.wf.len_haveField⟩, h.progress_ok⟩, h.priority⟩, h.count⟩,
    hcomplete⟩, hfull⟩

/-- The assertions are all the invariant says. -/
theorem tallied_of_checkInvariants (h : pk.checkInvariants = true) : pk.Tallied := by
  unfold Picker.checkInvariants at h
  simp only [Bool.and_eq_true, decide_eq_true_eq, List.all_eq_true, Bool.not_eq_true'] at h
  obtain ⟨⟨⟨⟨⟨⟨havail, hlen⟩, hprogress⟩, hpriority⟩, hcount⟩, -⟩, -⟩ := h
  have hentry : ∀ {i prog}, pk.progress.lookup i = some prog →
      ((i < pk.numPieces ∧ prog.received.length = pk.blocksInPiece i) ∧
        prog.inFlight.length = pk.blocksInPiece i) ∧ pk.has i = false :=
    fun hl => hprogress _ (AList.mem_lookup_iff.1 hl)
  exact ⟨⟨hlen, fun hl => (hentry hl).1.1.1, fun hl => (hentry hl).1.1.2,
    fun hl => (hentry hl).1.2, fun hl => (hentry hl).2⟩, havail, hpriority, hcount⟩

/-- Where no piece is empty, nothing is left exactly at completion. -/
theorem Tallied.bytesLeft_eq_zero_iff (h : pk.Tallied)
    (hlen : ∀ i < pk.numPieces, 0 < pk.pieceLen i) :
    pk.bytesLeft = 0 ↔ pk.isComplete = true := by
  unfold bytesLeft
  rw [List.sum_eq_zero_iff, h.isComplete_iff]
  simp only [List.mem_map, List.mem_filter, List.mem_range, Bool.and_eq_true, Bool.not_eq_true']
  refine ⟨fun hall i hi hwants => ?_, ?_⟩
  · by_contra hmissing
    have hzero := hall (pk.pieceLen i) ⟨i, ⟨hi, hwants, Bool.eq_false_iff.2 hmissing⟩, rfl⟩
    have := hlen i hi
    omega
  · rintro hall n ⟨i, ⟨hi, hwants, hmissing⟩, rfl⟩
    rw [hall i hi hwants] at hmissing
    exact Bool.noConfusion hmissing

/-! ## Whole runs -/

theorem tallied_run (ops : List Op) (h : pk.Tallied) : (Machine.run Picker.apply ops pk).Tallied :=
  Machine.run_induction (P := Tallied) (fun op _ h => h.apply op) ops h

theorem toLayout_run (ops : List Op) (pk : Picker) :
    (Machine.run Picker.apply ops pk).toLayout = pk.toLayout :=
  Machine.run_induction (P := fun pk' => pk'.toLayout = pk.toLayout)
    (fun op pk' h => (toLayout_apply op pk').trans h) ops rfl

/-- From a new picker of a torrent cut into as many pieces as its length needs, after any
operations with any arguments, every assertion of `check_invariants` holds, no piece has
received more blocks than it has, and the torrent is complete exactly when no byte is left. -/
theorem invariants_of_run (totalLength pieceLength : Nat) (hpos : 0 < pieceLength) (mode : Mode)
    (ops : List Op) :
    let pk := Machine.run Picker.apply ops
      (Picker.new ⟨(totalLength + pieceLength - 1) / pieceLength, pieceLength, totalLength⟩ mode)
    pk.checkInvariants = true ∧ (∀ index, pk.receivedOf index ≤ pk.blocksInPiece index) ∧
      (pk.isComplete = true ↔ pk.bytesLeft = 0) := by
  intro pk
  have htallied : pk.Tallied := tallied_run ops (.new _ mode)
  have hlayout : pk.toLayout = ⟨_, pieceLength, totalLength⟩ := toLayout_run ops _
  refine ⟨htallied.checkInvariants, htallied.receivedOf_le, (htallied.bytesLeft_eq_zero_iff ?_).symm⟩
  rw [hlayout]
  exact fun i hi => pieceLen_pos hpos rfl hi

/-- Two pieces, the second short: the first held, the second reset in mid-download. -/
theorem invariants_of_run_two :
    let pk := Machine.run Picker.apply
      [.setPiecePriorities [2], .pick (Bitfield.full 2) 3, .blockReceived 1 0, .setHave 0,
        .resetPiece 1, .resetPiece 7]
      (Picker.new ⟨(20 + 16 - 1) / 16, 16, 20⟩ .rarestFirst)
    pk.checkInvariants = true ∧ (∀ index, pk.receivedOf index ≤ pk.blocksInPiece index) ∧
      (pk.isComplete = true ↔ pk.bytesLeft = 0) :=
  invariants_of_run 20 16 (by decide) .rarestFirst _

end Picker

end Clove
