import Clove.Picker

/-!
# What each picker operation does to the accounting

`inFlightOf pk k` is the in-flight count of block `k`, zero where its piece has no
progress.  A block is *settled* when it is received or its piece is held.  The lemmas below
say, operation by operation, how the counts and the settled blocks change.  `Picks` says it
for `pick`: every returned request is one count up, on a block that is not settled.
-/

namespace Clove

open Wire (BLOCK_LEN BlockRequest)

/-- The block a request asks for. -/
def BlockRequest.key (r : BlockRequest) : BlockKey := (r.index, r.begin / BLOCK_LEN)

namespace Picker

/-- The in-flight count of a block. -/
def inFlightOf (pk : Picker) (k : BlockKey) : Nat :=
  match pk.progress.lookup k.1 with
  | some prog => prog.inFlight.getD k.2 0
  | none => 0

/-- A block that is received or whose piece is held. -/
def Settled (pk : Picker) (k : BlockKey) : Prop :=
  pk.isReceived k.1 k.2 = true ∨ pk.has k.1 = true

/-- The tables fit the torrent, and no held piece is in progress. -/
structure WF (pk : Picker) : Prop where
  len_haveField : pk.haveField.len = pk.numPieces
  lt_numPieces : ∀ {i prog}, pk.progress.lookup i = some prog → i < pk.numPieces
  length_received : ∀ {i prog}, pk.progress.lookup i = some prog →
    prog.received.length = pk.blocksInPiece i
  length_inFlight : ∀ {i prog}, pk.progress.lookup i = some prog →
    prog.inFlight.length = pk.blocksInPiece i
  not_held : ∀ {i prog}, pk.progress.lookup i = some prog → pk.has i = false

/-! ## Reading the accounting back -/

theorem inFlightOf_putProgress (pk : Picker) (i : Nat) (prog : Progress) (k : BlockKey) :
    (pk.putProgress i prog).inFlightOf k =
      if k.1 = i then prog.inFlight.getD k.2 0 else pk.inFlightOf k := by
  simp only [inFlightOf, putProgress, Map.lookup_insert]
  by_cases h : k.1 = i
  · simp only [if_pos h]
  · simp only [if_neg h]

theorem isReceived_putProgress (pk : Picker) (i : Nat) (prog : Progress) (j b : Nat) :
    (pk.putProgress i prog).isReceived j b =
      if j = i then prog.received.getD b false else pk.isReceived j b := by
  simp only [isReceived, putProgress, Map.lookup_insert]
  by_cases h : j = i
  · simp only [if_pos h]
  · simp only [if_neg h]

@[simp] theorem inFlightOf_noteSaturation (pk : Picker) (n : Nat) (k : BlockKey) :
    (pk.noteSaturation n).inFlightOf k = pk.inFlightOf k := rfl

@[simp] theorem isReceived_noteSaturation (pk : Picker) (n j b : Nat) :
    (pk.noteSaturation n).isReceived j b = pk.isReceived j b := rfl

theorem saturations_noteSaturation {pk : Picker} {n : Nat} (h : 0 < n) :
    (pk.noteSaturation n).saturations = pk.saturations := by
  have : n ≠ 0 := by omega
  simp [noteSaturation, this]

theorem inFlight_progressOf (pk : Picker) (i b : Nat) :
    (pk.progressOf i).inFlight.getD b 0 = pk.inFlightOf (i, b) := by
  unfold progressOf inFlightOf
  cases pk.progress.lookup i with
  | none => simp [Progress.new]
  | some prog => rfl

theorem received_progressOf (pk : Picker) (i b : Nat) :
    (pk.progressOf i).received.getD b false = pk.isReceived i b := by
  unfold progressOf isReceived
  cases pk.progress.lookup i with
  | none => simp [Progress.new]
  | some prog => rfl

theorem WF.length_progressOf {pk : Picker} (h : pk.WF) (i : Nat) :
    (pk.progressOf i).received.length = pk.blocksInPiece i ∧
      (pk.progressOf i).inFlight.length = pk.blocksInPiece i := by
  unfold progressOf
  cases hl : pk.progress.lookup i with
  | none => simp [Progress.new]
  | some prog => exact ⟨h.length_received hl, h.length_inFlight hl⟩

/-- Storing accounting that fits, for a piece that may have it, keeps the tables fitting. -/
theorem WF.putProgress {pk : Picker} (h : pk.WF) {i : Nat} {prog : Progress}
    (ht : pk.trackable i = true) (hr : prog.received.length = pk.blocksInPiece i)
    (hf : prog.inFlight.length = pk.blocksInPiece i) : (pk.putProgress i prog).WF := by
  simp only [trackable, Bool.and_eq_true, decide_eq_true_eq, Bool.not_eq_true'] at ht
  have hcase : ∀ {j q}, (pk.putProgress i prog).progress.lookup j = some q →
      (j = i ∧ q = prog) ∨ pk.progress.lookup j = some q := by
    intro j q hl
    rw [Picker.putProgress, Map.lookup_insert] at hl
    split at hl
    · rename_i hji
      exact Or.inl ⟨hji, (Option.some.inj hl).symm⟩
    · exact Or.inr hl
  refine ⟨h.len_haveField, ?_, ?_, ?_, ?_⟩
  · intro j q hl
    rcases hcase hl with ⟨rfl, -⟩ | hl
    · exact ht.1
    · exact h.lt_numPieces hl
  · intro j q hl
    rcases hcase hl with ⟨rfl, rfl⟩ | hl
    · exact hr
    · exact h.length_received hl
  · intro j q hl
    rcases hcase hl with ⟨rfl, rfl⟩ | hl
    · exact hf
    · exact h.length_inFlight hl
  · intro j q hl
    rcases hcase hl with ⟨rfl, -⟩ | hl
    · exact ht.2
    · exact h.not_held hl

theorem WF.noteSaturation {pk : Picker} (h : pk.WF) (n : Nat) : (pk.noteSaturation n).WF :=
  ⟨h.len_haveField, h.lt_numPieces, h.length_received, h.length_inFlight, h.not_held⟩

theorem WF.trackable_of_lookup {pk : Picker} (h : pk.WF) {i : Nat} {prog : Progress}
    (hl : pk.progress.lookup i = some prog) : pk.trackable i = true := by
  simp [trackable, h.lt_numPieces hl, h.not_held hl]

/-- A block with a positive count is one its piece has, and its piece is not held. -/
theorem WF.of_inFlightOf_pos {pk : Picker} (h : pk.WF) {k : BlockKey}
    (hpos : 0 < pk.inFlightOf k) : pk.trackable k.1 = true ∧ k.2 < pk.blocksInPiece k.1 := by
  unfold inFlightOf at hpos
  cases hl : pk.progress.lookup k.1 with
  | none => simp [hl] at hpos
  | some prog =>
      rw [hl] at hpos
      refine ⟨h.trackable_of_lookup hl, ?_⟩
      rw [← h.length_inFlight hl]
      by_contra hlt
      simp only [List.getD_eq_default _ _ (Nat.le_of_not_lt hlt)] at hpos
      omega

/-- A received block is one its piece has, and its piece is not held. -/
theorem WF.of_isReceived {pk : Picker} (h : pk.WF) {i b : Nat} (hr : pk.isReceived i b = true) :
    pk.trackable i = true ∧ b < pk.blocksInPiece i := by
  unfold isReceived at hr
  cases hl : pk.progress.lookup i with
  | none => simp [hl] at hr
  | some prog =>
      rw [hl] at hr
      refine ⟨h.trackable_of_lookup hl, ?_⟩
      rw [← h.length_received hl]
      by_contra hlt
      simp only [List.getD_eq_default _ _ (Nat.le_of_not_lt hlt)] at hr
      cases hr

/-! ## Operations that leave the accounting alone -/

/-- Two pickers with the same geometry, pieces and accounting. -/
structure SameAccounting (pk pk' : Picker) : Prop where
  toLayout : pk'.toLayout = pk.toLayout
  haveField : pk'.haveField = pk.haveField
  progress : pk'.progress = pk.progress
  saturations : pk'.saturations = pk.saturations

theorem sameAccounting_setPiecePriorities (pk : Picker) (l : List Nat) :
    SameAccounting pk (pk.setPiecePriorities l) := ⟨rfl, rfl, rfl, rfl⟩

theorem sameAccounting_setMode (pk : Picker) (m : Mode) : SameAccounting pk (pk.setMode m) :=
  ⟨rfl, rfl, rfl, rfl⟩

theorem sameAccounting_addBitfield (pk : Picker) (f : Bitfield) :
    SameAccounting pk (pk.addBitfield f) := ⟨rfl, rfl, rfl, rfl⟩

theorem sameAccounting_removeBitfield (pk : Picker) (f : Bitfield) :
    SameAccounting pk (pk.removeBitfield f) := ⟨rfl, rfl, rfl, rfl⟩

theorem sameAccounting_addSingle (pk : Picker) (i : Nat) : SameAccounting pk (pk.addSingle i) := by
  unfold addSingle
  split <;> exact ⟨rfl, rfl, rfl, rfl⟩

section Same

variable {pk pk' : Picker} (h : SameAccounting pk pk')

include h

theorem SameAccounting.inFlightOf (k : BlockKey) : pk'.inFlightOf k = pk.inFlightOf k := by
  simp only [Picker.inFlightOf, h.progress]

theorem SameAccounting.has (i : Nat) : pk'.has i = pk.has i := by
  simp only [Picker.has, h.haveField]

theorem SameAccounting.settled_iff (k : BlockKey) : pk'.Settled k ↔ pk.Settled k := by
  simp only [Settled, isReceived, h.progress, h.has]

theorem SameAccounting.wf (hwf : pk.WF) : pk'.WF := by
  refine ⟨?_, ?_, ?_, ?_, ?_⟩
  · rw [h.haveField, h.toLayout]
    exact hwf.len_haveField
  · rw [h.progress, h.toLayout]
    exact hwf.lt_numPieces
  · rw [h.progress, h.toLayout]
    exact hwf.length_received
  · rw [h.progress, h.toLayout]
    exact hwf.length_inFlight
  · intro i prog hl
    rw [h.progress] at hl
    rw [h.has]
    exact hwf.not_held hl

end Same

/-! ## Releasing a block -/

theorem inFlightOf_blockFailed {pk : Picker} (i b : Nat) (k : BlockKey) :
    (pk.blockFailed i b).inFlightOf k =
      if k = (i, b) then pk.inFlightOf k - 1 else pk.inFlightOf k := by
  unfold blockFailed
  cases hl : pk.progress.lookup i with
  | none =>
      by_cases hk : k = (i, b)
      · subst hk
        simp [inFlightOf, hl]
      · simp [hk]
  | some prog =>
      simp only
      split
      · rename_i hb
        rw [inFlightOf_noteSaturation, inFlightOf_putProgress]
        simp only [Lists.getD_modify hb]
        obtain ⟨k₁, k₂⟩ := k
        by_cases h₁ : k₁ = i
        · subst h₁
          by_cases h₂ : k₂ = b
          · simp [h₂, inFlightOf, hl]
          · simp [h₂, inFlightOf, hl]
        · simp [h₁]
      · rename_i hb
        split
        · rename_i hk
          subst hk
          simp only [inFlightOf, hl, List.getD_eq_default _ _ (Nat.le_of_not_lt hb)]
        · rfl

theorem isReceived_blockFailed (pk : Picker) (i b j c : Nat) :
    (pk.blockFailed i b).isReceived j c = pk.isReceived j c := by
  unfold blockFailed
  cases hl : pk.progress.lookup i with
  | none => rfl
  | some prog =>
      simp only
      split
      · rw [isReceived_noteSaturation, isReceived_putProgress]
        split
        · rename_i hj
          subst hj
          simp [isReceived, hl]
        · rfl
      · rfl

theorem haveField_blockFailed (pk : Picker) (i b : Nat) :
    (pk.blockFailed i b).haveField = pk.haveField ∧
      (pk.blockFailed i b).toLayout = pk.toLayout := by
  unfold blockFailed
  split
  · split <;> exact ⟨rfl, rfl⟩
  · exact ⟨rfl, rfl⟩

theorem settled_blockFailed {pk : Picker} (i b : Nat) (k : BlockKey) :
    (pk.blockFailed i b).Settled k ↔ pk.Settled k := by
  simp only [Settled, isReceived_blockFailed, Picker.has, (haveField_blockFailed pk i b).1]

theorem WF.blockFailed {pk : Picker} (h : pk.WF) (i b : Nat) : (pk.blockFailed i b).WF := by
  unfold Picker.blockFailed
  cases hl : pk.progress.lookup i with
  | none => exact h
  | some prog =>
      simp only
      split
      · refine (h.putProgress (h.trackable_of_lookup hl) ?_ ?_).noteSaturation _
        · show prog.received.length = _
          exact h.length_received hl
        · simpa using h.length_inFlight hl
      · exact h

/-- Releasing a block that is counted does not saturate. -/
theorem saturations_blockFailed {pk : Picker} {i b : Nat} (hpos : 0 < pk.inFlightOf (i, b)) :
    (pk.blockFailed i b).saturations = pk.saturations := by
  unfold blockFailed
  cases hl : pk.progress.lookup i with
  | none => rfl
  | some prog =>
      have hcount : 0 < prog.inFlight.getD b 0 := by simpa [inFlightOf, hl] using hpos
      simp only
      split
      · rw [saturations_noteSaturation hcount]
        rfl
      · rfl

/-! ## Receiving a block -/

section Received

variable {pk : Picker} (h : pk.WF) {i b : Nat} (hpos : 0 < pk.inFlightOf (i, b))

include h hpos

/-- A counted block takes the branch that records it. -/
theorem blockReceived_eq :
    pk.blockReceived i b =
      let after : Progress :=
        { received := (pk.progressOf i).received.set b true
          inFlight := (pk.progressOf i).inFlight.modify b (· - 1) }
      ((pk.putProgress i after).noteSaturation (pk.inFlightOf (i, b)),
        decide (after.receivedCount = pk.blocksInPiece i)) := by
  obtain ⟨ht, hb⟩ := h.of_inFlightOf_pos hpos
  have hlen := (h.length_progressOf i).1
  simp only at ht hb
  have hlt : b < (pk.progressOf i).received.length := by omega
  simp only [blockReceived, ht, if_true, hlt, inFlight_progressOf]

theorem inFlightOf_blockReceived (k : BlockKey) :
    (pk.blockReceived i b).1.inFlightOf k =
      if k = (i, b) then pk.inFlightOf k - 1 else pk.inFlightOf k := by
  obtain ⟨-, hb⟩ := h.of_inFlightOf_pos hpos
  have hlen := (h.length_progressOf i).2
  simp only at hb
  have hlt : b < (pk.progressOf i).inFlight.length := by omega
  rw [blockReceived_eq h hpos, inFlightOf_noteSaturation, inFlightOf_putProgress]
  obtain ⟨k₁, k₂⟩ := k
  by_cases h₁ : k₁ = i
  · subst h₁
    simp only [Lists.getD_modify hlt, inFlight_progressOf, if_true]
    by_cases h₂ : k₂ = b
    · simp [h₂]
    · simp [h₂]
  · simp [h₁]

theorem isReceived_blockReceived (j c : Nat) :
    (pk.blockReceived i b).1.isReceived j c =
      if (j, c) = (i, b) then true else pk.isReceived j c := by
  obtain ⟨-, hb⟩ := h.of_inFlightOf_pos hpos
  have hlen := (h.length_progressOf i).1
  simp only at hb
  have hlt : b < (pk.progressOf i).received.length := by omega
  rw [blockReceived_eq h hpos, isReceived_noteSaturation, isReceived_putProgress]
  by_cases h₁ : j = i
  · subst h₁
    simp only [Lists.getD_set hlt, received_progressOf, if_true]
    by_cases h₂ : c = b
    · simp [h₂]
    · simp [h₂]
  · simp [h₁]

theorem haveField_blockReceived :
    (pk.blockReceived i b).1.haveField = pk.haveField ∧
      (pk.blockReceived i b).1.toLayout = pk.toLayout ∧
      (pk.blockReceived i b).1.saturations = pk.saturations := by
  rw [blockReceived_eq h hpos]
  exact ⟨rfl, rfl, saturations_noteSaturation hpos⟩

theorem WF.blockReceived : (pk.blockReceived i b).1.WF := by
  obtain ⟨ht, -⟩ := h.of_inFlightOf_pos hpos
  obtain ⟨hr, hf⟩ := h.length_progressOf i
  rw [blockReceived_eq h hpos]
  refine (h.putProgress ht ?_ ?_).noteSaturation _
  · simpa using hr
  · simpa using hf

/-- The piece is complete exactly when every one of its blocks is received. -/
theorem blockReceived_complete (hc : (pk.blockReceived i b).2 = true) :
    ∀ c < pk.blocksInPiece i, (pk.blockReceived i b).1.isReceived i c = true := by
  intro c hlt
  have hlen := (h.length_progressOf i).1
  rw [blockReceived_eq h hpos] at hc ⊢
  have hc := of_decide_eq_true hc
  simp only [Progress.receivedCount] at hc
  have hall : ∀ r ∈ (pk.progressOf i).received.set b true, decide (r = true) = true := by
    rw [← List.countP_eq_length, hc, List.length_set, hlen]
  rw [isReceived_noteSaturation, isReceived_putProgress, if_pos rfl]
  have hmem : c < ((pk.progressOf i).received.set b true).length := by
    rw [List.length_set, hlen]
    exact hlt
  rw [List.getD_eq_getElem _ _ hmem]
  simpa using hall _ (List.getElem_mem hmem)

theorem complete_of_blockReceived
    (hall : ∀ c < pk.blocksInPiece i, (pk.blockReceived i b).1.isReceived i c = true) :
    (pk.blockReceived i b).2 = true := by
  have hlen := (h.length_progressOf i).1
  rw [blockReceived_eq h hpos] at hall ⊢
  refine decide_eq_true ?_
  have hlength : ((pk.progressOf i).received.set b true).length = pk.blocksInPiece i := by
    rw [List.length_set, hlen]
  rw [Progress.receivedCount, ← hlength, List.countP_eq_length]
  intro r hr
  obtain ⟨c, hc, rfl⟩ := List.mem_iff_getElem.1 hr
  have hin := hall c (hlength ▸ hc)
  rw [isReceived_noteSaturation, isReceived_putProgress, if_pos rfl,
    List.getD_eq_getElem _ _ hc] at hin
  exact decide_eq_true hin

end Received

/-! ## Verdicts -/

theorem lookup_erase_cases {pk : Picker} {i j : Nat} {prog : Progress}
    (hl : (pk.progress.erase i).lookup j = some prog) :
    j ≠ i ∧ pk.progress.lookup j = some prog := by
  rw [Map.lookup_erase] at hl
  split at hl
  · cases hl
  · rename_i hji
    exact ⟨hji, hl⟩

theorem inFlightOf_setHave {pk : Picker} {i : Nat} (hi : i < pk.numPieces) (k : BlockKey) :
    (pk.setHave i).inFlightOf k = if k.1 = i then 0 else pk.inFlightOf k := by
  simp only [setHave, hi, if_true, inFlightOf, Map.lookup_erase]
  by_cases h : k.1 = i
  · simp only [if_pos h]
  · simp only [if_neg h]

theorem isReceived_setHave {pk : Picker} {i : Nat} (hi : i < pk.numPieces) (j c : Nat) :
    (pk.setHave i).isReceived j c = if j = i then false else pk.isReceived j c := by
  simp only [setHave, hi, if_true, isReceived, Map.lookup_erase]
  by_cases h : j = i
  · simp only [if_pos h]
  · simp only [if_neg h]

theorem has_setHave {pk : Picker} (h : pk.WF) {i : Nat} (hi : i < pk.numPieces) (j : Nat) :
    (pk.setHave i).has j = (decide (j = i) || pk.has j) := by
  have hlen := h.len_haveField
  simp only [setHave, hi, if_true, has, Bitfield.has_set, hlen, and_true]

theorem WF.setHave {pk : Picker} (h : pk.WF) {i : Nat} (hi : i < pk.numPieces) :
    (pk.setHave i).WF := by
  have hhas := has_setHave h hi
  simp only [Picker.setHave, hi, if_true] at hhas ⊢
  refine ⟨?_, ?_, ?_, ?_, ?_⟩
  · simpa using h.len_haveField
  · intro j prog hl
    exact h.lt_numPieces (lookup_erase_cases hl).2
  · intro j prog hl
    exact h.length_received (lookup_erase_cases hl).2
  · intro j prog hl
    exact h.length_inFlight (lookup_erase_cases hl).2
  · intro j prog hl
    obtain ⟨hji, hl⟩ := lookup_erase_cases hl
    rw [hhas, h.not_held hl]
    simp [hji]

theorem inFlightOf_resetPiece {pk : Picker} {i : Nat} (hi : i < pk.numPieces) (k : BlockKey) :
    (pk.resetPiece i).inFlightOf k = if k.1 = i then 0 else pk.inFlightOf k := by
  simp only [resetPiece, hi, if_true, inFlightOf, Map.lookup_erase]
  by_cases h : k.1 = i
  · simp only [if_pos h]
  · simp only [if_neg h]

theorem isReceived_resetPiece {pk : Picker} {i : Nat} (hi : i < pk.numPieces) (j c : Nat) :
    (pk.resetPiece i).isReceived j c = if j = i then false else pk.isReceived j c := by
  simp only [resetPiece, hi, if_true, isReceived, Map.lookup_erase]
  by_cases h : j = i
  · simp only [if_pos h]
  · simp only [if_neg h]

theorem has_resetPiece {pk : Picker} {i : Nat} (hi : i < pk.numPieces) (j : Nat) :
    (pk.resetPiece i).has j = (decide (j ≠ i) && pk.has j) := by
  simp only [resetPiece, hi, if_true, has, Bitfield.has_clear]

theorem WF.resetPiece {pk : Picker} (h : pk.WF) {i : Nat} (hi : i < pk.numPieces) :
    (pk.resetPiece i).WF := by
  have hhas : ∀ j, _ := has_resetPiece hi
  simp only [Picker.resetPiece, hi, if_true] at hhas ⊢
  refine ⟨?_, ?_, ?_, ?_, ?_⟩
  · simpa using h.len_haveField
  · intro j prog hl
    exact h.lt_numPieces (lookup_erase_cases hl).2
  · intro j prog hl
    exact h.length_received (lookup_erase_cases hl).2
  · intro j prog hl
    exact h.length_inFlight (lookup_erase_cases hl).2
  · intro j prog hl
    rw [hhas, h.not_held (lookup_erase_cases hl).2, Bool.and_false]

theorem WF.new (l : Layout) (m : Mode) : (Picker.new l m).WF := by
  refine ⟨rfl, ?_, ?_, ?_, ?_⟩ <;> · intro i prog hl; simp [Picker.new] at hl

/-! ## Picking -/

/-- What `pick` does: the requests `new` are one count up each, for blocks that are not
settled, and nothing else of the accounting moves. -/
structure Picks (pk pk' : Picker) (new : List BlockRequest) : Prop where
  toLayout : pk'.toLayout = pk.toLayout
  haveField : pk'.haveField = pk.haveField
  saturations : pk'.saturations = pk.saturations
  wf : pk'.WF
  isReceived : ∀ i b, pk'.isReceived i b = pk.isReceived i b
  inFlightOf : ∀ k, pk'.inFlightOf k = pk.inFlightOf k + (new.map BlockRequest.key).count k
  asked : ∀ r ∈ new, pk.trackable r.index = true ∧
    ∃ b < pk.blocksInPiece r.index, r.begin = b * BLOCK_LEN ∧
      r.length = pk.blockLen r.index b ∧ pk.isReceived r.index b = false

theorem Picks.refl {pk : Picker} (h : pk.WF) : Picks pk pk [] :=
  ⟨rfl, rfl, rfl, h, fun _ _ => rfl, fun _ => rfl, by simp⟩

theorem Picks.trans {pk₁ pk₂ pk₃ : Picker} {r₁ r₂ : List BlockRequest} (h₁ : Picks pk₁ pk₂ r₁)
    (h₂ : Picks pk₂ pk₃ r₂) : Picks pk₁ pk₃ (r₁ ++ r₂) where
  toLayout := h₂.toLayout.trans h₁.toLayout
  haveField := h₂.haveField.trans h₁.haveField
  saturations := h₂.saturations.trans h₁.saturations
  wf := h₂.wf
  isReceived := fun i b => (h₂.isReceived i b).trans (h₁.isReceived i b)
  inFlightOf := by
    intro k
    rw [h₂.inFlightOf, h₁.inFlightOf, List.map_append, List.count_append, Nat.add_assoc]
  asked := by
    intro r hr
    rcases List.mem_append.1 hr with hr | hr
    · exact h₁.asked r hr
    · obtain ⟨ht, b, hb, hbegin, hlen, hrec⟩ := h₂.asked r hr
      refine ⟨?_, b, ?_, hbegin, ?_, ?_⟩
      · simpa only [trackable, Picker.has, h₁.toLayout, h₁.haveField] using ht
      · rw [← h₁.toLayout]
        exact hb
      · rw [← h₁.toLayout]
        exact hlen
      · rw [← h₁.isReceived]
        exact hrec

theorem Picks.settled_iff {pk pk' : Picker} {new : List BlockRequest} (h : Picks pk pk' new)
    (k : BlockKey) : pk'.Settled k ↔ pk.Settled k := by
  simp only [Settled, h.isReceived, Picker.has, h.haveField]

/-- A picked block is not settled. -/
theorem Picks.not_settled {pk pk' : Picker} {new : List BlockRequest} (h : Picks pk pk' new)
    {k : BlockKey} (hk : k ∈ new.map BlockRequest.key) : ¬ pk.Settled k := by
  obtain ⟨r, hr, rfl⟩ := List.mem_map.1 hk
  obtain ⟨ht, b, -, hbegin, -, hrec⟩ := h.asked r hr
  have hblock : r.begin / BLOCK_LEN = b := by
    rw [hbegin]
    exact Nat.mul_div_cancel _ (by decide)
  rintro (hset | hset)
  · simp [BlockRequest.key, hblock, hrec] at hset
  · simp only [trackable, Bool.and_eq_true, Bool.not_eq_true'] at ht
    simp [BlockRequest.key, ht.2] at hset

/-- What the inner loop of `pick` does to a piece's accounting. -/
structure BlocksPicked (index blocks plen : Nat) (prog prog' : Progress)
    (new : List BlockRequest) : Prop where
  received : prog'.received = prog.received
  length_inFlight : prog'.inFlight.length = prog.inFlight.length
  inFlight : ∀ b, prog'.inFlight.getD b 0 =
    prog.inFlight.getD b 0 + (new.map BlockRequest.key).count (index, b)
  asked : ∀ r ∈ new, r.index = index ∧ ∃ b < blocks, r.begin = b * BLOCK_LEN ∧
    r.length = min (plen - b * BLOCK_LEN) BLOCK_LEN ∧ prog.received.getD b false = false

theorem BlocksPicked.trans {index blocks plen : Nat} {p₁ p₂ p₃ : Progress}
    {r₁ r₂ : List BlockRequest} (h₁ : BlocksPicked index blocks plen p₁ p₂ r₁)
    (h₂ : BlocksPicked index blocks plen p₂ p₃ r₂) :
    BlocksPicked index blocks plen p₁ p₃ (r₁ ++ r₂) where
  received := h₂.received.trans h₁.received
  length_inFlight := h₂.length_inFlight.trans h₁.length_inFlight
  inFlight := by
    intro b
    rw [h₂.inFlight, h₁.inFlight, List.map_append, List.count_append, Nat.add_assoc]
  asked := by
    intro r hr
    rcases List.mem_append.1 hr with hr | hr
    · exact h₁.asked r hr
    · obtain ⟨hi, b, hb, hbegin, hlen, hrec⟩ := h₂.asked r hr
      exact ⟨hi, b, hb, hbegin, hlen, h₁.received ▸ hrec⟩

/-- One step of the inner loop. -/
theorem blocksPicked_pickBlock (endgame : Bool) (want index plen : Nat) {blocks : Nat}
    (s : Progress × List BlockRequest) (hlen : s.1.inFlight.length = blocks) {block : Nat}
    (hb : block < blocks) :
    ∃ new, (pickBlock endgame want index plen s block).2 = s.2 ++ new ∧
      BlocksPicked index blocks plen s.1 (pickBlock endgame want index plen s block).1 new := by
  have hsame : BlocksPicked index blocks plen s.1 s.1 [] :=
    ⟨rfl, rfl, fun _ => rfl, by simp⟩
  unfold pickBlock
  split
  · exact ⟨[], by simp, hsame⟩
  · split
    · exact ⟨[], by simp, hsame⟩
    · split
      · exact ⟨[], by simp, hsame⟩
      · rename_i hrec _
        have hkey : BlockRequest.key ⟨index, block * BLOCK_LEN,
            min (plen - block * BLOCK_LEN) BLOCK_LEN⟩ = (index, block) := by
          simp only [BlockRequest.key, Prod.mk.injEq, true_and]
          exact Nat.mul_div_cancel _ (by decide)
        refine ⟨_, rfl, rfl, by simp, ?_, ?_⟩
        · intro b
          simp only [Lists.getD_modify (hlen ▸ hb), List.map_cons, List.map_nil, hkey,
            List.count_singleton, beq_iff_eq, Prod.mk.injEq, true_and]
          by_cases hbb : b = block
          · simp [hbb]
          · have : block ≠ b := fun h => hbb h.symm
            simp [hbb, this]
        · intro r hr
          obtain rfl := List.mem_singleton.1 hr
          exact ⟨rfl, block, hb, rfl, rfl, by simpa using hrec⟩

/-- The inner loop. -/
theorem blocksPicked_foldl (endgame : Bool) (want index plen : Nat) {blocks : Nat}
    (bs : List Nat) (hbs : ∀ b ∈ bs, b < blocks) (s : Progress × List BlockRequest)
    (hlen : s.1.inFlight.length = blocks) :
    ∃ new, (bs.foldl (pickBlock endgame want index plen) s).2 = s.2 ++ new ∧
      BlocksPicked index blocks plen s.1 (bs.foldl (pickBlock endgame want index plen) s).1
        new := by
  induction bs generalizing s with
  | nil => exact ⟨[], by simp, rfl, rfl, fun _ => rfl, by simp⟩
  | cons b bs ih =>
      obtain ⟨new₁, hout₁, hpick₁⟩ := blocksPicked_pickBlock endgame want index plen s hlen
        (hbs b List.mem_cons_self)
      obtain ⟨new₂, hout₂, hpick₂⟩ := ih (fun c hc => hbs c (List.mem_cons_of_mem _ hc))
        (pickBlock endgame want index plen s b) (hpick₁.length_inFlight.trans hlen)
      refine ⟨new₁ ++ new₂, ?_, hpick₁.trans hpick₂⟩
      rw [List.foldl_cons, hout₂, hout₁, List.append_assoc]

theorem count_key_of_index_ne {new : List BlockRequest} {index : Nat} {k : BlockKey}
    (h : ∀ r ∈ new, r.index = index) (hk : k.1 ≠ index) :
    (new.map BlockRequest.key).count k = 0 := by
  rw [List.count_eq_zero]
  intro hmem
  obtain ⟨r, hr, rfl⟩ := List.mem_map.1 hmem
  exact hk (h r hr)

theorem blockLen_eq {l : Layout} {i b : Nat} (h : b < l.blocksInPiece i) :
    l.blockLen i b = min (l.pieceLen i - b * BLOCK_LEN) BLOCK_LEN := by
  unfold Layout.blocksInPiece at h
  have hlt : ¬ l.pieceLen i ≤ b * BLOCK_LEN := by
    simp only [BLOCK_LEN] at h ⊢
    omega
  simp only [Layout.blockLen, hlt, if_false]

/-- One piece of the outer loop. -/
theorem picks_pickPiece {pk : Picker} (h : pk.WF) (endgame : Bool) (want : Nat)
    (out : List BlockRequest) (index : Nat) :
    ∃ new, (pickPiece endgame want (pk, out) index).2 = out ++ new ∧
      Picks pk (pickPiece endgame want (pk, out) index).1 new := by
  unfold pickPiece
  split
  · exact ⟨[], by simp, Picks.refl h⟩
  · split
    · rename_i ht
      obtain ⟨hlr, hlf⟩ := h.length_progressOf index
      obtain ⟨new, hout, hp⟩ := blocksPicked_foldl endgame want index (pk.pieceLen index)
        (List.range (pk.blocksInPiece index)) (fun b hb => List.mem_range.1 hb)
        (pk.progressOf index, out) hlf
      refine ⟨new, hout, rfl, rfl, rfl, ?_, ?_, ?_, ?_⟩
      · refine h.putProgress ht ?_ ?_
        · rw [hp.received, hlr]
        · rw [hp.length_inFlight, hlf]
      · intro i b
        rw [isReceived_putProgress, hp.received]
        split
        · rename_i hi
          rw [received_progressOf, hi]
        · rfl
      · intro k
        obtain ⟨i, b⟩ := k
        rw [inFlightOf_putProgress]
        simp only
        split
        · rename_i hi
          subst hi
          rw [hp.inFlight, inFlight_progressOf]
        · rename_i hi
          rw [count_key_of_index_ne (fun r hr => (hp.asked r hr).1) hi, Nat.add_zero]
      · intro r hr
        obtain ⟨hi, b, hb, hbegin, hlen, hrec⟩ := hp.asked r hr
        rw [hi]
        refine ⟨ht, b, hb, hbegin, ?_, ?_⟩
        · rw [hlen, blockLen_eq hb]
        · rw [← received_progressOf]
          exact hrec
    · exact ⟨[], by simp, Picks.refl h⟩

/-- The outer loop. -/
theorem picks_foldl {pk : Picker} (h : pk.WF) (endgame : Bool) (want : Nat)
    (out : List BlockRequest) (is : List Nat) :
    ∃ new, (is.foldl (pickPiece endgame want) (pk, out)).2 = out ++ new ∧
      Picks pk (is.foldl (pickPiece endgame want) (pk, out)).1 new := by
  induction is generalizing pk out with
  | nil => exact ⟨[], by simp, Picks.refl h⟩
  | cons i is ih =>
      obtain ⟨new₁, hout₁, hpick₁⟩ := picks_pickPiece h endgame want out i
      obtain ⟨new₂, hout₂, hpick₂⟩ := ih hpick₁.wf (pickPiece endgame want (pk, out) i).2
      refine ⟨new₁ ++ new₂, ?_, hpick₁.trans hpick₂⟩
      rw [List.foldl_cons, ← List.append_assoc, ← hout₁]
      exact hout₂

/-- What `pick` returns it has marked in flight, and it marks nothing else. -/
theorem picks_pick {pk : Picker} (h : pk.WF) (peerHas : Bitfield) (want : Nat) :
    Picks pk (pk.pick peerHas want).1 (pk.pick peerHas want).2 := by
  unfold pick
  split
  · exact Picks.refl h
  · obtain ⟨new, hout, hpick⟩ :=
      picks_foldl h pk.inEndgame want [] (pk.candidateOrder peerHas)
    rw [hout, List.nil_append]
    exact hpick

end Picker

end Clove
