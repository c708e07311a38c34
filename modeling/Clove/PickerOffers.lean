import Clove.PickerInvariants

/-!
# What the picker offers

`pick` walks the candidate pieces in order and their blocks upwards, and stops at the number
asked for.  `offers` is the whole walk: every block that may be asked of the peer, in order.
`pick_eq` says `pick` returns its first entries.  What is offered, how much of it, in which
order and what is marked all follow from that (`pick_exact`).
-/

namespace Clove

open Wire (BLOCK_LEN BlockRequest)

namespace Picker

/-! ## What may be offered -/

/-- A block of a piece the peer has, that is wanted and not held, and that has not arrived. -/
structure Outstanding (pk : Picker) (peerHas : Bitfield) (k : BlockKey) : Prop where
  lt : k.1 < pk.numPieces
  peer : peerHas.has k.1 = true
  missing : pk.has k.1 = false
  wanted : pk.wants k.1 = true
  block : k.2 < pk.blocksInPiece k.1
  due : pk.isReceived k.1 k.2 = false

/-- A block that may be asked of the peer: outside the endgame nobody owes it. -/
def Offerable (pk : Picker) (peerHas : Bitfield) (k : BlockKey) : Prop :=
  pk.Outstanding peerHas k ∧ (pk.inEndgame = true ∨ pk.inFlightOf k = 0)

/-- The request for a block. -/
def requestFor (pk : Picker) (k : BlockKey) : BlockRequest :=
  ⟨k.1, k.2 * BLOCK_LEN, pk.blockLen k.1 k.2⟩

/-- How many peers hold a piece, where that counts. -/
def rarity (pk : Picker) (i : Nat) : Nat :=
  match pk.mode with
  | .rarestFirst => pk.availability.getD i 0
  | .sequential => 0

/-- The order of pieces: started first, then higher priority, then fewer holders, then lower
index. -/
def PieceBefore (pk : Picker) (i j : Nat) : Prop :=
  (i ∈ pk.progress ∧ j ∉ pk.progress) ∨ ((i ∈ pk.progress ↔ j ∈ pk.progress) ∧
    (pk.priority.getD j 0 < pk.priority.getD i 0 ∨ (pk.priority.getD i 0 = pk.priority.getD j 0 ∧
      (pk.rarity i < pk.rarity j ∨ (pk.rarity i = pk.rarity j ∧ i < j)))))

/-- The order of blocks: by piece, ascending within one. -/
def Before (pk : Picker) (k l : BlockKey) : Prop :=
  pk.PieceBefore k.1 l.1 ∨ (k.1 = l.1 ∧ k.2 < l.2)

/-- The priority table holds bytes. -/
def PriorityBytes (pk : Picker) : Prop := ∀ p ∈ pk.priority, p ≤ 255

instance (pk : Picker) : Decidable pk.PriorityBytes :=
  inferInstanceAs (Decidable (∀ p ∈ pk.priority, p ≤ 255))

/-- Blocks of wanted pieces not held that have not arrived, counted. -/
def unreceived (pk : Picker) : Nat :=
  (((List.range pk.numPieces).filter fun i => pk.wants i && !pk.has i).map fun i =>
    (List.range (pk.blocksInPiece i)).countP fun b => !pk.isReceived i b).sum

/-- The blocks left to come but for one, counted. -/
def unreceivedBut (pk : Picker) (k : BlockKey) : Nat :=
  (((List.range pk.numPieces).filter fun i => pk.wants i && !pk.has i).map fun i =>
    (List.range (pk.blocksInPiece i)).countP fun b => !pk.isReceived i b && (i, b) ≠ k).sum

/-- Whether it is the endgame once this block has come. -/
def endgameBut (pk : Picker) (k : BlockKey) : Bool :=
  0 < pk.endgameBlocks && min (pk.unreceivedBut k) 4294967295 ≤ pk.endgameBlocks

variable {pk : Picker}

/-! ## The endgame -/

theorem receivedOf_add_unreceived (h : pk.WF) (i : Nat) :
    pk.receivedOf i + (List.range (pk.blocksInPiece i)).countP (fun b => !pk.isReceived i b) =
      pk.blocksInPiece i := by
  have hcount : pk.receivedOf i =
      (List.range (pk.blocksInPiece i)).countP fun b => pk.isReceived i b := by
    cases hl : pk.progress.lookup i with
    | none =>
        have hnone : ∀ b ∈ List.range (pk.blocksInPiece i), ¬ pk.isReceived i b = true := by
          simp [isReceived, hl]
        rw [receivedOf, hl, List.countP_eq_zero.2 hnone]
        rfl
    | some prog =>
        simp only [receivedOf, hl, Option.map_some, Option.getD_some, isReceived]
        rw [← h.length_received hl]
        rw [Progress.receivedCount, ← Lists.countP_range_getD prog.received false]
        simp only [Bool.decide_eq_true]
  have hlength := List.length_eq_countP_add_countP (fun b => pk.isReceived i b)
    (l := List.range (pk.blocksInPiece i))
  simp only [List.length_range, Bool.not_eq_true, Bool.decide_eq_false] at hlength
  rw [hcount, ← hlength]

/-- The loop gives up when the count passes the threshold. -/
theorem endgameLoop_eq (h : pk.WF) (is : List Nat) {r : Nat} (hr : r ≤ pk.endgameBlocks) :
    pk.endgameLoop is r = true ↔
      min (r + ((is.filter fun i => pk.wants i && !pk.has i).map fun i =>
        (List.range (pk.blocksInPiece i)).countP fun b => !pk.isReceived i b).sum) 4294967295 ≤
          pk.endgameBlocks := by
  induction is generalizing r with
  | nil => simpa [endgameLoop] using .inl hr
  | cons i is ih =>
      rw [endgameLoop]
      by_cases hskip : (pk.has i || !pk.wants i) = true
      · have hfilter : (pk.wants i && !pk.has i) = false := by
          cases hw : pk.wants i <;> cases hh : pk.has i <;> simp_all
        rw [if_pos hskip, List.filter_cons_of_neg (by simp [hfilter])]
        exact ih hr
      · have hfilter : (pk.wants i && !pk.has i) = true := by
          cases hw : pk.wants i <;> cases hh : pk.has i <;> simp_all
        have hpiece := receivedOf_add_unreceived h i
        rw [if_neg hskip, List.filter_cons_of_pos (by simp [hfilter]), List.map_cons, List.sum_cons]
        rw [receivedOf] at hpiece
        simp only
        split
        · rename_i hpast
          simp only [Bool.false_eq_true, false_iff]
          omega
        · rename_i hwithin
          rw [ih (by omega)]
          omega

/-- The endgame: few enough blocks are left, counted as far as a `u32` goes. -/
theorem inEndgame_iff (h : pk.WF) :
    pk.inEndgame = true ↔
      0 < pk.endgameBlocks ∧ min pk.unreceived 4294967295 ≤ pk.endgameBlocks := by
  rw [inEndgame, Bool.and_eq_true, decide_eq_true_eq, Nat.pos_iff_ne_zero,
    endgameLoop_eq h _ (Nat.zero_le _), Nat.zero_add]
  rfl

/-! ## The order -/

theorem PriorityBytes.getD (h : pk.PriorityBytes) (i : Nat) : pk.priority.getD i 0 ≤ 255 := by
  by_cases hi : i < pk.priority.length
  · rw [List.getD_eq_getElem _ _ hi]
    exact h _ (List.getElem_mem hi)
  · rw [List.getD_eq_default _ _ (Nat.le_of_not_lt hi)]
    omega

theorem pieceBefore_asymm {i j : Nat} (h : pk.PieceBefore i j) : ¬ pk.PieceBefore j i := by
  unfold PieceBefore at *
  by_cases hi : i ∈ pk.progress <;> by_cases hj : j ∈ pk.progress <;>
    simp only [hi, hj, not_true_eq_false, not_false_eq_true, and_true, and_false, true_and,
      false_and, false_or, or_false, iff_false, iff_true] at h ⊢ <;> omega

theorem before_asymm {k l : BlockKey} (h : pk.Before k l) : ¬ pk.Before l k := by
  rintro (hpiece | ⟨heq, hlt⟩)
  · rcases h with h | ⟨heq, -⟩
    · exact pieceBefore_asymm h hpiece
    · rw [heq] at hpiece
      exact pieceBefore_asymm hpiece hpiece
  · rcases h with h | ⟨-, hlt'⟩
    · rw [heq] at h
      exact pieceBefore_asymm h h
    · omega

/-- The sort key orders pieces as it should. -/
theorem pieceBefore_of_candidateKey_le (hbytes : pk.PriorityBytes) {i j : Nat} (hne : i ≠ j)
    (h : pk.candidateKey i ≤ pk.candidateKey j) : pk.PieceBefore i j := by
  have hi := hbytes.getD i
  have hj := hbytes.getD j
  have hkey : ∀ i, pk.candidateKey i =
      [if i ∈ pk.progress then 0 else 1, 255 - pk.priority.getD i 0, pk.rarity i, i] := fun _ => rfl
  have h : ¬ List.Lex (· < ·) (pk.candidateKey j) (pk.candidateKey i) := not_lt.2 h
  simp only [hkey, List.cons_lex_cons_iff, List.not_lex_nil, and_false, or_false] at h
  unfold PieceBefore
  by_cases hpi : i ∈ pk.progress <;> by_cases hpj : j ∈ pk.progress <;>
    simp only [hpi, hpj, if_true, if_false, not_true_eq_false, not_false_eq_true, and_true,
      and_false, true_and, false_and, false_or, or_false, iff_true, iff_false] at h ⊢ <;> omega

instance candidateKey_total (pk : Picker) :
    Std.Total fun i j => pk.candidateKey i ≤ pk.candidateKey j := ⟨fun _ _ => le_total _ _⟩

instance candidateKey_trans (pk : Picker) :
    IsTrans Nat fun i j => pk.candidateKey i ≤ pk.candidateKey j := ⟨fun _ _ _ => le_trans⟩

theorem mem_candidateOrder {peerHas : Bitfield} {i : Nat} :
    i ∈ pk.candidateOrder peerHas ↔
      i < pk.numPieces ∧ peerHas.has i = true ∧ pk.has i = false ∧ pk.wants i = true := by
  simp only [candidateOrder, List.mem_insertionSort, List.mem_filter, List.mem_range,
    Bool.and_eq_true, Bool.not_eq_true', and_assoc]

theorem nodup_candidateOrder (pk : Picker) (peerHas : Bitfield) :
    (pk.candidateOrder peerHas).Nodup :=
  (List.perm_insertionSort _ _).nodup_iff.2 (List.nodup_range.filter _)

theorem pairwise_candidateOrder (hbytes : pk.PriorityBytes) (peerHas : Bitfield) :
    (pk.candidateOrder peerHas).Pairwise pk.PieceBefore := by
  have hsorted := List.pairwise_insertionSort (fun i j => pk.candidateKey i ≤ pk.candidateKey j)
    ((List.range pk.numPieces).filter fun i => peerHas.has i && !pk.has i && pk.wants i)
  refine (hsorted.and (nodup_candidateOrder pk peerHas)).imp ?_
  exact fun h => pieceBefore_of_candidateKey_le hbytes h.2 h.1

/-! ## Everything that may be offered -/

/-- The blocks of a piece that may be asked for, ascending. -/
def freeBlocks (pk : Picker) (endgame : Bool) (i : Nat) : List BlockKey :=
  ((List.range (pk.blocksInPiece i)).filter fun b =>
    !pk.isReceived i b && (endgame || pk.inFlightOf (i, b) = 0)).map (Prod.mk i)

/-- Everything that may be asked of a peer, in order. -/
def offers (pk : Picker) (peerHas : Bitfield) : List BlockKey :=
  (pk.candidateOrder peerHas).flatMap (pk.freeBlocks pk.inEndgame)

theorem mem_freeBlocks {endgame : Bool} {i : Nat} {k : BlockKey} :
    k ∈ pk.freeBlocks endgame i ↔ k.1 = i ∧ k.2 < pk.blocksInPiece i ∧
      pk.isReceived i k.2 = false ∧ (endgame = true ∨ pk.inFlightOf (i, k.2) = 0) := by
  simp only [freeBlocks, List.mem_map, List.mem_filter, List.mem_range, Bool.and_eq_true,
    Bool.not_eq_true', Bool.or_eq_true, decide_eq_true_eq]
  constructor
  · rintro ⟨b, h, rfl⟩
    exact ⟨rfl, h⟩
  · rintro ⟨rfl, h⟩
    exact ⟨k.2, h, rfl⟩

theorem mem_offers {peerHas : Bitfield} {k : BlockKey} :
    k ∈ pk.offers peerHas ↔ pk.Offerable peerHas k := by
  simp only [offers, List.mem_flatMap, mem_candidateOrder, mem_freeBlocks]
  constructor
  · rintro ⟨i, ⟨hlt, hpeer, hmissing, hwanted⟩, rfl, hblock, hdue, hfree⟩
    exact ⟨⟨hlt, hpeer, hmissing, hwanted, hblock, hdue⟩, hfree⟩
  · rintro ⟨h, hfree⟩
    exact ⟨k.1, ⟨h.lt, h.peer, h.missing, h.wanted⟩, rfl, h.block, h.due, hfree⟩

theorem nodup_offers (pk : Picker) (peerHas : Bitfield) : (pk.offers peerHas).Nodup := by
  refine List.nodup_flatMap.2 ⟨fun i _ => ?_, ?_⟩
  · exact (List.nodup_range.filter _).map fun _ _ h => (Prod.mk.inj h).2
  · refine (nodup_candidateOrder pk peerHas).imp fun hne k hk hk' => hne ?_
    exact (mem_freeBlocks.1 hk).1.symm.trans (mem_freeBlocks.1 hk').1

theorem pairwise_offers (hbytes : pk.PriorityBytes) (peerHas : Bitfield) :
    (pk.offers peerHas).Pairwise pk.Before := by
  refine List.pairwise_flatMap.2 ⟨fun i _ => ?_, ?_⟩
  · exact List.Pairwise.map _ (fun b c h => .inr ⟨rfl, h⟩)
      (List.pairwise_lt_range.filter _)
  · refine (pairwise_candidateOrder hbytes peerHas).imp fun h k hk l hl => .inl ?_
    rw [(mem_freeBlocks.1 hk).1, (mem_freeBlocks.1 hl).1]
    exact h

/-! ## What is picked -/

/-- Whether the inner loop takes a block. -/
def takes (endgame : Bool) (prog : Progress) (b : Nat) : Bool :=
  !prog.received.getD b false && (endgame || prog.inFlight.getD b 0 = 0)

theorem pickBlock_of_takes {endgame : Bool} {want index plen : Nat}
    {s : Progress × List BlockRequest} {b : Nat} (hroom : s.2.length < want)
    (htakes : takes endgame s.1 b = true) : pickBlock endgame want index plen s b =
      ({ s.1 with inFlight := s.1.inFlight.modify b (· + 1) },
        s.2 ++ [⟨index, b * BLOCK_LEN, min (plen - b * BLOCK_LEN) BLOCK_LEN⟩]) := by
  simp only [takes, Bool.and_eq_true, Bool.not_eq_true', Bool.or_eq_true, decide_eq_true_eq] at htakes
  have hfree : ¬ (!endgame && decide (0 < s.1.inFlight.getD b 0)) = true := by
    rcases htakes.2 with h | h
    · rw [h]
      exact Bool.false_ne_true
    · rw [h, Bool.and_eq_true, decide_eq_true_eq]
      exact fun hbusy => absurd hbusy.2 (Nat.lt_irrefl 0)
  have hdue : ¬ s.1.received.getD b false = true := Bool.eq_false_iff.1 htakes.1
  rw [pickBlock, if_neg (Nat.not_le.2 hroom), if_neg hdue, if_neg hfree]

theorem pickBlock_of_not_takes {endgame : Bool} {want index plen : Nat}
    {s : Progress × List BlockRequest} {b : Nat} (htakes : takes endgame s.1 b = false) :
    pickBlock endgame want index plen s b = s := by
  unfold pickBlock
  split
  · rfl
  · split
    · rfl
    · rename_i hrec
      have hbusy : (!endgame && decide (0 < s.1.inFlight.getD b 0)) = true := by
        simp only [takes, hrec] at htakes
        cases endgame <;> simp_all
        omega
      rw [if_pos hbusy]

theorem pickBlock_of_full {endgame : Bool} {want index plen : Nat}
    {s : Progress × List BlockRequest} {b : Nat} (hfull : want ≤ s.2.length) :
    pickBlock endgame want index plen s b = s := by
  rw [pickBlock, if_pos hfull]

/-- Taking one block says nothing about another. -/
theorem takes_modify {endgame : Bool} {prog : Progress} {b c : Nat} (hne : c ≠ b) :
    takes endgame { prog with inFlight := prog.inFlight.modify b (· + 1) } c =
      takes endgame prog c := by
  simp only [takes, List.getD_eq_getElem?_getD, List.getElem?_modify_ne _ _ (Ne.symm hne)]

/-- The inner loop takes the first blocks it may. -/
theorem pickBlock_foldl (endgame : Bool) (want index plen : Nat) {bs : List Nat}
    (hnodup : bs.Nodup) (s : Progress × List BlockRequest) :
    (bs.foldl (pickBlock endgame want index plen) s).2 =
      s.2 ++ ((bs.filter (takes endgame s.1)).take (want - s.2.length)).map fun b =>
        ⟨index, b * BLOCK_LEN, min (plen - b * BLOCK_LEN) BLOCK_LEN⟩ := by
  induction bs generalizing s with
  | nil => simp
  | cons b bs ih =>
      rw [List.nodup_cons] at hnodup
      rw [List.foldl_cons]
      by_cases hfull : want ≤ s.2.length
      · rw [pickBlock_of_full hfull, ih hnodup.2, Nat.sub_eq_zero_of_le hfull]
        simp
      · cases htakes : takes endgame s.1 b with
        | false =>
            rw [pickBlock_of_not_takes htakes, ih hnodup.2, List.filter_cons_of_neg (by simp [htakes])]
        | true =>
            have hrest : bs.filter (takes endgame
                { s.1 with inFlight := s.1.inFlight.modify b (· + 1) }) =
                bs.filter (takes endgame s.1) :=
              List.filter_congr fun c hc => takes_modify fun heq => hnodup.1 (heq ▸ hc)
            obtain ⟨n, hn⟩ := Nat.exists_eq_add_of_lt (Nat.not_le.1 hfull)
            have hroom : want - s.2.length = n + 1 := by omega
            have hleft : want - (s.2.length + 1) = n := by omega
            rw [pickBlock_of_takes (Nat.not_le.1 hfull) htakes, ih hnodup.2, hrest,
              List.filter_cons_of_pos htakes, hroom, List.take_succ_cons, List.map_cons,
              List.length_append, List.length_singleton, hleft, List.append_assoc]
            rfl

theorem takes_progressOf (pk : Picker) (endgame : Bool) (i : Nat) :
    takes endgame (pk.progressOf i) =
      fun b => !pk.isReceived i b && (endgame || decide (pk.inFlightOf (i, b) = 0)) := by
  funext b
  rw [takes, received_progressOf, inFlight_progressOf]

/-- One piece of the outer loop gives the first of its free blocks. -/
theorem pickPiece_out {endgame : Bool} {want i : Nat} {out : List BlockRequest}
    (htrack : pk.trackable i = true) : (pickPiece endgame want (pk, out) i).2 =
      out ++ ((pk.freeBlocks endgame i).take (want - out.length)).map pk.requestFor := by
  unfold pickPiece
  split
  · rename_i hfull
    simp [Nat.sub_eq_zero_of_le hfull]
  · simp only [pickBlock_foldl _ _ _ _ List.nodup_range, freeBlocks, takes_progressOf]
    rw [← List.map_take, List.map_map]
    refine congrArg _ (List.map_congr_left fun b hb => ?_)
    have hlt := List.mem_range.1 (List.mem_filter.1 (List.mem_of_mem_take hb)).1
    exact (congrArg (BlockRequest.mk i (b * BLOCK_LEN)) (blockLen_eq hlt)).symm

/-- What is free in one piece does not change while another is walked. -/
theorem freeBlocks_pickPiece (h : pk.WF) {endgame : Bool} {want i j : Nat}
    {out : List BlockRequest} (htrack : pk.trackable i = true) (hne : j ≠ i) :
    (pickPiece endgame want (pk, out) i).1.freeBlocks endgame j = pk.freeBlocks endgame j := by
  obtain ⟨new, hout, hpicks⟩ := picks_pickPiece h endgame want out i
  rw [pickPiece_out htrack, List.append_cancel_left_eq] at hout
  have hcount : ∀ b, (new.map BlockRequest.key).count (j, b) = 0 := by
    intro b
    refine count_key_of_index_ne (fun r hr => ?_) hne
    rw [← hout] at hr
    obtain ⟨k, hk, rfl⟩ := List.mem_map.1 hr
    exact (mem_freeBlocks.1 (List.mem_of_mem_take hk)).1
  simp only [freeBlocks, hpicks.isReceived, hpicks.inFlightOf, hcount, hpicks.toLayout, Nat.add_zero]

/-- The outer loop gives the first of all the free blocks. -/
theorem pickPiece_foldl (h : pk.WF) {endgame : Bool} {want : Nat} {is : List Nat}
    (hnodup : is.Nodup) (htrack : ∀ i ∈ is, pk.trackable i = true) (out : List BlockRequest) :
    (is.foldl (pickPiece endgame want) (pk, out)).2 =
      out ++ ((is.flatMap (pk.freeBlocks endgame)).take (want - out.length)).map pk.requestFor := by
  induction is generalizing pk out with
  | nil => simp
  | cons i is ih =>
      rw [List.nodup_cons] at hnodup
      have hi := htrack i List.mem_cons_self
      obtain ⟨new, -, hpicks⟩ := picks_pickPiece h endgame want out i
      have hrest : is.flatMap ((pickPiece endgame want (pk, out) i).1.freeBlocks endgame) =
          is.flatMap (pk.freeBlocks endgame) := by
        refine List.flatMap_congr fun j hj => freeBlocks_pickPiece h hi fun heq => ?_
        exact hnodup.1 (heq ▸ hj)
      have htrack' : ∀ j ∈ is, (pickPiece endgame want (pk, out) i).1.trackable j = true := by
        intro j hj
        simpa only [trackable, Picker.has, hpicks.toLayout, hpicks.haveField]
          using htrack j (List.mem_cons_of_mem _ hj)
      have hrequest : (pickPiece endgame want (pk, out) i).1.requestFor = pk.requestFor := by
        funext k
        simp only [requestFor, hpicks.toLayout]
      have hstep := ih hpicks.wf hnodup.2 htrack' (pickPiece endgame want (pk, out) i).2
      rw [List.foldl_cons]
      refine hstep.trans ?_
      rw [hrest, hrequest, pickPiece_out hi, List.flatMap_cons, List.take_append, List.append_assoc,
        ← List.map_append, List.length_append, List.length_map, List.length_take]
      have hroom : want - (out.length + min (want - out.length) (pk.freeBlocks endgame i).length) =
          want - out.length - (pk.freeBlocks endgame i).length := by omega
      rw [hroom]

/-- `pick` returns the first of everything it may offer. -/
theorem pick_eq (h : pk.WF) (peerHas : Bitfield) (want : Nat) :
    (pk.pick peerHas want).2 = ((pk.offers peerHas).take want).map pk.requestFor := by
  unfold pick
  split
  · rename_i hzero
    simp [hzero]
  · rw [pickPiece_foldl h (nodup_candidateOrder pk peerHas) fun i hi => ?_, List.nil_append,
      List.length_nil, Nat.sub_zero]
    · rfl
    · obtain ⟨hlt, -, hmissing, -⟩ := mem_candidateOrder.1 hi
      simp [trackable, hlt, hmissing]

/-! ## What is marked -/

theorem mem_progress_putProgress {i j : Nat} {prog : Progress} :
    j ∈ (pk.putProgress i prog).progress ↔ j = i ∨ j ∈ pk.progress := AList.mem_insert _

theorem mem_progress_of_inFlightOf {k : BlockKey} (h : pk.inFlightOf k ≠ 0) :
    k.1 ∈ pk.progress := by
  by_contra hnone
  rw [inFlightOf, AList.lookup_eq_none.2 hnone] at h
  exact h rfl

/-- Every block of a piece never started is free. -/
theorem mem_freeBlocks_of_not_started {endgame : Bool} {i : Nat} (hnew : i ∉ pk.progress)
    (hblocks : 0 < pk.blocksInPiece i) : (i, 0) ∈ pk.freeBlocks endgame i := by
  have hnone := AList.lookup_eq_none.2 hnew
  refine mem_freeBlocks.2 ⟨rfl, hblocks, ?_, .inr ?_⟩
  · simp only [isReceived, hnone]
  · simp only [inFlightOf, hnone]

/-- A piece the loop starts is offered, unless it has no block to offer. -/
theorem started_pickPiece {endgame : Bool} {want i j : Nat} {out : List BlockRequest}
    (hj : j ∈ (pickPiece endgame want (pk, out) i).1.progress) :
    j ∈ pk.progress ∨ pk.blocksInPiece j = 0 ∨
      ∃ r ∈ (pickPiece endgame want (pk, out) i).2, r.index = j := by
  by_cases hfull : want ≤ out.length
  · rw [pickPiece, if_pos hfull] at hj
    exact .inl hj
  cases htrack : pk.trackable i with
  | false =>
      rw [pickPiece, if_neg hfull, if_neg (by simp [htrack])] at hj
      exact .inl hj
  | true =>
      have hput : j = i ∨ j ∈ pk.progress := by
        rw [pickPiece, if_neg hfull, if_pos htrack] at hj
        exact mem_progress_putProgress.1 hj
      refine or_iff_not_imp_left.2 fun hnew => or_iff_not_imp_left.2 fun hblocks => ?_
      obtain rfl := hput.resolve_right hnew
      have hfree : (j, 0) ∈ pk.freeBlocks endgame j :=
        mem_freeBlocks_of_not_started hnew (Nat.pos_of_ne_zero hblocks)
      have hroom : 0 < want - out.length := Nat.sub_pos_of_lt (Nat.not_le.1 hfull)
      obtain ⟨k, ks, hks⟩ := List.exists_cons_of_ne_nil (List.ne_nil_of_mem hfree)
      refine ⟨pk.requestFor k, ?_, ?_⟩
      · rw [pickPiece_out htrack, hks]
        obtain ⟨n, hn⟩ := Nat.exists_eq_succ_of_ne_zero hroom.ne'
        simp [hn]
      · exact (mem_freeBlocks.1 (hks ▸ List.mem_cons_self : k ∈ pk.freeBlocks endgame j)).1

theorem started_foldl (h : pk.WF) {endgame : Bool} {want j : Nat} (is : List Nat)
    (out : List BlockRequest)
    (hj : j ∈ (is.foldl (pickPiece endgame want) (pk, out)).1.progress) :
    j ∈ pk.progress ∨ pk.blocksInPiece j = 0 ∨
      ∃ r ∈ (is.foldl (pickPiece endgame want) (pk, out)).2, r.index = j := by
  induction is generalizing pk out with
  | nil => exact .inl hj
  | cons i is ih =>
      obtain ⟨new, -, hpicks⟩ := picks_pickPiece h endgame want out i
      obtain ⟨more, hmore, -⟩ :=
        picks_foldl hpicks.wf endgame want (pickPiece endgame want (pk, out) i).2 is
      rw [List.foldl_cons] at hj ⊢
      rcases ih hpicks.wf _ hj with hstarted | hblocks | hoffered
      · rcases started_pickPiece hstarted with hold | hblocks | ⟨r, hr, hindex⟩
        · exact .inl hold
        · exact .inr (.inl hblocks)
        · exact .inr (.inr ⟨r, hmore ▸ List.mem_append_left _ hr, hindex⟩)
      · rw [hpicks.toLayout] at hblocks
        exact .inr (.inl hblocks)
      · exact .inr (.inr hoffered)

/-- The blocks offered are marked, and nothing else changes: the tables still fit, each
offered block is owed once more, and a piece is started if it was, if it is offered or, at most,
if it has no block. -/
structure Marks (pk pk' : Picker) (ks : List BlockKey) : Prop where
  rest : pk' = { pk with progress := pk'.progress }
  tables : pk'.checkInvariants = true
  received : ∀ i b, pk'.isReceived i b = pk.isReceived i b
  inFlight : ∀ k, pk'.inFlightOf k = pk.inFlightOf k + if k ∈ ks then 1 else 0
  started : ∀ i, i ∈ pk.progress ∨ (∃ b, (i, b) ∈ ks) → i ∈ pk'.progress
  only : ∀ i ∈ pk'.progress, i ∈ pk.progress ∨ (∃ b, (i, b) ∈ ks) ∨ pk.blocksInPiece i = 0

theorem rest_pickPiece (endgame : Bool) (want : Nat) (s : Picker × List BlockRequest) (i : Nat) :
    (pickPiece endgame want s i).1 =
      { s.1 with progress := (pickPiece endgame want s i).1.progress } := by
  unfold pickPiece
  split
  · rfl
  · split <;> rfl

theorem rest_foldl (endgame : Bool) (want : Nat) (is : List Nat)
    (s : Picker × List BlockRequest) :
    (is.foldl (pickPiece endgame want) s).1 =
      { s.1 with progress := (is.foldl (pickPiece endgame want) s).1.progress } := by
  induction is generalizing s with
  | nil => rfl
  | cons i is ih =>
      rw [List.foldl_cons, ih, rest_pickPiece]

theorem mem_progress_pickPiece {endgame : Bool} {want i j : Nat} {s : Picker × List BlockRequest}
    (hj : j ∈ s.1.progress) : j ∈ (pickPiece endgame want s i).1.progress := by
  unfold pickPiece
  split
  · exact hj
  · split
    · exact mem_progress_putProgress.2 (.inr hj)
    · exact hj

theorem mem_progress_foldl {endgame : Bool} {want j : Nat} (is : List Nat)
    {s : Picker × List BlockRequest} (hj : j ∈ s.1.progress) :
    j ∈ (is.foldl (pickPiece endgame want) s).1.progress := by
  induction is generalizing s with
  | nil => exact hj
  | cons i is ih => exact ih (mem_progress_pickPiece hj)

theorem key_requestFor (pk : Picker) (k : BlockKey) : BlockRequest.key (pk.requestFor k) = k := by
  simp only [BlockRequest.key, requestFor]
  rw [Nat.mul_div_cancel _ (by decide)]

theorem map_key_requestFor (pk : Picker) (ks : List BlockKey) :
    (ks.map pk.requestFor).map BlockRequest.key = ks := by
  rw [List.map_map]
  exact (List.map_congr_left fun k _ => key_requestFor pk k).trans (List.map_id _)

/-! ## The counts alone -/

/-- Nothing but the in-flight counts changed. -/
structure Recounts (pk pk' : Picker) : Prop where
  rest : pk' = { pk with progress := pk'.progress, saturations := pk'.saturations }
  received : ∀ i b, pk'.isReceived i b = pk.isReceived i b
  wf : pk.WF → pk'.WF

namespace Recounts

variable {pk' pk'' : Picker}

theorem refl (pk : Picker) : Recounts pk pk := ⟨rfl, fun _ _ => rfl, id⟩

theorem trans (h₁ : Recounts pk pk') (h₂ : Recounts pk' pk'') : Recounts pk pk'' := by
  refine ⟨?_, fun i b => (h₂.received i b).trans (h₁.received i b), fun h => h₂.wf (h₁.wf h)⟩
  conv_lhs => rw [h₂.rest, h₁.rest]

theorem toLayout (h : Recounts pk pk') : pk'.toLayout = pk.toLayout := by rw [h.rest]

theorem has (h : Recounts pk pk') (i : Nat) : pk'.has i = pk.has i := by rw [h.rest]; rfl

theorem wants (h : Recounts pk pk') (i : Nat) : pk'.wants i = pk.wants i := by rw [h.rest]; rfl

theorem outstanding_iff (h : Recounts pk pk') {peerHas : Bitfield} {k : BlockKey} :
    pk'.Outstanding peerHas k ↔ pk.Outstanding peerHas k := by
  constructor
  · rintro ⟨hlt, hpeer, hmissing, hwanted, hblock, hdue⟩
    rw [h.toLayout] at hlt hblock
    exact ⟨hlt, hpeer, h.has _ ▸ hmissing, h.wants _ ▸ hwanted, hblock, h.received _ _ ▸ hdue⟩
  · rintro ⟨hlt, hpeer, hmissing, hwanted, hblock, hdue⟩
    refine ⟨?_, hpeer, (h.has _).trans hmissing, (h.wants _).trans hwanted, ?_,
      (h.received _ _).trans hdue⟩
    · rw [h.toLayout]
      exact hlt
    · rw [h.toLayout]
      exact hblock

theorem inEndgame (h : Recounts pk pk') (hwf : pk.WF) : pk'.inEndgame = pk.inEndgame := by
  have hcount : pk'.unreceived = pk.unreceived := by
    simp only [unreceived, h.toLayout, h.has, h.wants, h.received]
  have hblocks : pk'.endgameBlocks = pk.endgameBlocks := by rw [h.rest]
  rw [Bool.eq_iff_iff, inEndgame_iff (h.wf hwf), inEndgame_iff hwf, hcount, hblocks]

end Recounts

theorem recounts_blockFailed (pk : Picker) (i b : Nat) : Recounts pk (pk.blockFailed i b) := by
  refine ⟨?_, fun j c => isReceived_blockFailed pk i b j c, fun h => h.blockFailed i b⟩
  unfold blockFailed
  split
  · split <;> rfl
  · rfl

theorem recounts_pick (h : pk.WF) (peerHas : Bitfield) (want : Nat) :
    Recounts pk (pk.pick peerHas want).1 := by
  have hpicks := picks_pick h peerHas want
  refine ⟨?_, fun i b => hpicks.isReceived i b, fun _ => hpicks.wf⟩
  unfold pick
  split
  · rfl
  · rw [rest_foldl]

/-! ## Pickers that offer the same -/

/-- The same apart from the in-flight counts of some blocks. -/
structure Alike (skip : BlockKey → Prop) (pk pk' : Picker) : Prop where
  toLayout : pk'.toLayout = pk.toLayout
  mode : pk'.mode = pk.mode
  endgameBlocks : pk'.endgameBlocks = pk.endgameBlocks
  availability : pk'.availability = pk.availability
  haveField : pk'.haveField = pk.haveField
  priority : pk'.priority = pk.priority
  started : ∀ i, i ∈ pk'.progress ↔ i ∈ pk.progress
  received : ∀ i b, pk'.isReceived i b = pk.isReceived i b
  inFlight : ∀ k, ¬ skip k → pk'.inFlightOf k = pk.inFlightOf k

namespace Alike

variable {pk' pk'' : Picker} {skip : BlockKey → Prop}

theorem refl (pk : Picker) : Alike skip pk pk :=
  ⟨rfl, rfl, rfl, rfl, rfl, rfl, fun _ => .rfl, fun _ _ => rfl, fun _ _ => rfl⟩

theorem trans (h₁ : Alike skip pk pk') (h₂ : Alike skip pk' pk'') : Alike skip pk pk'' where
  toLayout := h₂.toLayout.trans h₁.toLayout
  mode := h₂.mode.trans h₁.mode
  endgameBlocks := h₂.endgameBlocks.trans h₁.endgameBlocks
  availability := h₂.availability.trans h₁.availability
  haveField := h₂.haveField.trans h₁.haveField
  priority := h₂.priority.trans h₁.priority
  started := fun i => (h₂.started i).trans (h₁.started i)
  received := fun i b => (h₂.received i b).trans (h₁.received i b)
  inFlight := fun k hk => (h₂.inFlight k hk).trans (h₁.inFlight k hk)

theorem has (h : Alike skip pk pk') (i : Nat) : pk'.has i = pk.has i := by
  rw [Picker.has, h.haveField]
  rfl

theorem wants (h : Alike skip pk pk') (i : Nat) : pk'.wants i = pk.wants i := by
  rw [Picker.wants, h.priority]
  rfl

theorem inEndgame (h : Alike skip pk pk') (hwf : pk.WF) (hwf' : pk'.WF) :
    pk'.inEndgame = pk.inEndgame := by
  have hcount : pk'.unreceived = pk.unreceived := by
    simp only [unreceived, h.toLayout, h.has, h.wants, h.received]
  rw [Bool.eq_iff_iff, inEndgame_iff hwf', inEndgame_iff hwf, hcount, h.endgameBlocks]

/-- Counts of received blocks do not matter to what is offered. -/
theorem offers (h : Alike skip pk pk') (hwf : pk.WF) (hwf' : pk'.WF)
    (hskip : ∀ k, skip k → pk.isReceived k.1 k.2 = true) (peerHas : Bitfield) :
    pk'.offers peerHas = pk.offers peerHas := by
  have hkey : pk'.candidateKey = pk.candidateKey := by
    funext i
    simp only [candidateKey, h.started, h.priority, h.mode, h.availability]
  have horder : pk'.candidateOrder peerHas = pk.candidateOrder peerHas := by
    simp only [candidateOrder, hkey, h.toLayout, h.has, h.wants]
  have hfree : pk'.freeBlocks pk'.inEndgame = pk.freeBlocks pk.inEndgame := by
    funext i
    simp only [freeBlocks, h.toLayout, h.received, h.inEndgame hwf hwf']
    refine congrArg (List.map (Prod.mk i)) (List.filter_congr fun b _ => ?_)
    cases hreceived : pk.isReceived i b with
    | true => rfl
    | false =>
        rw [h.inFlight (i, b) fun hk => ?_]
        have := hskip (i, b) hk
        simp only [hreceived] at this
        cases this
  rw [Picker.offers, Picker.offers, horder, hfree]

/-- The block whose count may differ arrives. -/
theorem blockReceived {i b : Nat} (h : Alike (· = (i, b)) pk pk') (hwf : pk.WF) (hwf' : pk'.WF)
    (hpos : 0 < pk.inFlightOf (i, b)) (hpos' : 0 < pk'.inFlightOf (i, b)) :
    Alike (· = (i, b)) (pk.blockReceived i b).1 (pk'.blockReceived i b).1 := by
  refine ⟨?_, ?_, ?_, ?_, ?_, ?_, fun j => ?_, fun j c => ?_, fun k hk => ?_⟩
  · rw [(haveField_blockReceived hwf' hpos').2.1, (haveField_blockReceived hwf hpos).2.1, h.toLayout]
  · rw [blockReceived_eq hwf' hpos', blockReceived_eq hwf hpos]
    exact h.mode
  · rw [blockReceived_eq hwf' hpos', blockReceived_eq hwf hpos]
    exact h.endgameBlocks
  · rw [blockReceived_eq hwf' hpos', blockReceived_eq hwf hpos]
    exact h.availability
  · rw [(haveField_blockReceived hwf' hpos').1, (haveField_blockReceived hwf hpos).1, h.haveField]
  · rw [blockReceived_eq hwf' hpos', blockReceived_eq hwf hpos]
    exact h.priority
  · rw [blockReceived_eq hwf' hpos', blockReceived_eq hwf hpos]
    simp only [noteSaturation, mem_progress_putProgress, h.started]
  · rw [isReceived_blockReceived hwf' hpos', isReceived_blockReceived hwf hpos, h.received]
  · rw [inFlightOf_blockReceived hwf' hpos', inFlightOf_blockReceived hwf hpos, h.inFlight k hk]

/-- Counts of a piece that is judged no longer matter. -/
theorem setHave (h : Alike skip pk pk') {i : Nat} (hi : i < pk.numPieces) :
    Alike (fun k => k.1 ≠ i ∧ skip k) (pk.setHave i) (pk'.setHave i) := by
  have hi' : i < pk'.numPieces := by rw [h.toLayout]; exact hi
  refine ⟨?_, ?_, ?_, ?_, ?_, ?_, fun j => ?_, fun j c => ?_, fun k hk => ?_⟩
  · simpa only [Picker.setHave, if_pos hi, if_pos hi'] using h.toLayout
  · simpa only [Picker.setHave, if_pos hi, if_pos hi'] using h.mode
  · simpa only [Picker.setHave, if_pos hi, if_pos hi'] using h.endgameBlocks
  · simpa only [Picker.setHave, if_pos hi, if_pos hi'] using h.availability
  · simp only [Picker.setHave, if_pos hi, if_pos hi', h.haveField]
  · simpa only [Picker.setHave, if_pos hi, if_pos hi'] using h.priority
  · simp only [Picker.setHave, if_pos hi, if_pos hi', AList.mem_erase, h.started]
  · rw [isReceived_setHave hi', isReceived_setHave hi, h.received]
  · rw [inFlightOf_setHave hi', inFlightOf_setHave hi]
    split
    · rfl
    · rename_i hne
      exact h.inFlight k fun hskip => hk ⟨hne, hskip⟩

theorem resetPiece (h : Alike skip pk pk') {i : Nat} (hi : i < pk.numPieces) :
    Alike (fun k => k.1 ≠ i ∧ skip k) (pk.resetPiece i) (pk'.resetPiece i) := by
  have hi' : i < pk'.numPieces := by rw [h.toLayout]; exact hi
  refine ⟨?_, ?_, ?_, ?_, ?_, ?_, fun j => ?_, fun j c => ?_, fun k hk => ?_⟩
  · simpa only [Picker.resetPiece, if_pos hi, if_pos hi'] using h.toLayout
  · simpa only [Picker.resetPiece, if_pos hi, if_pos hi'] using h.mode
  · simpa only [Picker.resetPiece, if_pos hi, if_pos hi'] using h.endgameBlocks
  · simpa only [Picker.resetPiece, if_pos hi, if_pos hi'] using h.availability
  · simp only [Picker.resetPiece, if_pos hi, if_pos hi', h.haveField]
  · simpa only [Picker.resetPiece, if_pos hi, if_pos hi'] using h.priority
  · simp only [Picker.resetPiece, if_pos hi, if_pos hi', AList.mem_erase, h.started]
  · rw [isReceived_resetPiece hi', isReceived_resetPiece hi, h.received]
  · rw [inFlightOf_resetPiece hi', inFlightOf_resetPiece hi]
    split
    · rfl
    · rename_i hne
      exact h.inFlight k fun hskip => hk ⟨hne, hskip⟩

end Alike

/-! ## A block that comes -/

theorem unreceived_blockReceived {i b : Nat} (h : pk.WF) (hpos : 0 < pk.inFlightOf (i, b)) :
    (pk.blockReceived i b).1.unreceived = pk.unreceivedBut (i, b) := by
  obtain ⟨hfield, hlayout, -⟩ := haveField_blockReceived h hpos
  have hhas : ∀ j, (pk.blockReceived i b).1.has j = pk.has j := fun j => congrArg (·.has j) hfield
  have hwants : ∀ j, (pk.blockReceived i b).1.wants j = pk.wants j := fun j => by
    rw [blockReceived_eq h hpos]
    rfl
  have hdue : ∀ j c, (!(pk.blockReceived i b).1.isReceived j c) =
      (!pk.isReceived j c && decide ((j, c) ≠ (i, b))) := by
    intro j c
    rw [isReceived_blockReceived h hpos]
    by_cases hk : (j, c) = (i, b)
    · simp [hk]
    · simp [hk]
  simp only [unreceived, unreceivedBut, hlayout, hhas, hwants, hdue]

theorem inEndgame_blockReceived {i b : Nat} (h : pk.WF) (hpos : 0 < pk.inFlightOf (i, b)) :
    (pk.blockReceived i b).1.inEndgame = pk.endgameBut (i, b) := by
  have hblocks : (pk.blockReceived i b).1.endgameBlocks = pk.endgameBlocks := by
    rw [blockReceived_eq h hpos]
    rfl
  rw [Bool.eq_iff_iff, inEndgame_iff (h.blockReceived hpos), unreceived_blockReceived h hpos,
    hblocks]
  simp [endgameBut]

theorem outstanding_blockReceived {i b : Nat} (h : pk.WF) (hpos : 0 < pk.inFlightOf (i, b))
    {peerHas : Bitfield} {k : BlockKey} : (pk.blockReceived i b).1.Outstanding peerHas k ↔
      pk.Outstanding peerHas k ∧ k ≠ (i, b) := by
  obtain ⟨hfield, hlayout, -⟩ := haveField_blockReceived h hpos
  have hhas : (pk.blockReceived i b).1.has k.1 = pk.has k.1 := congrArg (·.has k.1) hfield
  have hwants : (pk.blockReceived i b).1.wants k.1 = pk.wants k.1 := by
    rw [blockReceived_eq h hpos]
    rfl
  have hdue : (pk.blockReceived i b).1.isReceived k.1 k.2 = false ↔
      pk.isReceived k.1 k.2 = false ∧ k ≠ (i, b) := by
    rw [isReceived_blockReceived h hpos]
    by_cases hk : k = (i, b)
    · simp [hk]
    · simp [hk]
  constructor
  · rintro ⟨hlt, hpeer, hmissing, hwanted, hblock, hcome⟩
    rw [hlayout] at hlt hblock
    exact ⟨⟨hlt, hpeer, hhas ▸ hmissing, hwants ▸ hwanted, hblock, (hdue.1 hcome).1⟩,
      (hdue.1 hcome).2⟩
  · rintro ⟨⟨hlt, hpeer, hmissing, hwanted, hblock, hcome⟩, hne⟩
    refine ⟨?_, hpeer, hhas.trans hmissing, hwants.trans hwanted, ?_, hdue.2 ⟨hcome, hne⟩⟩
    · rw [hlayout]
      exact hlt
    · rw [hlayout]
      exact hblock

/-- A piece with every block received has none left to come, held or not. -/
theorem unreceived_setHave {i : Nat} (h : pk.WF) (hi : i < pk.numPieces)
    (hall : ∀ b < pk.blocksInPiece i, pk.isReceived i b = true) :
    (pk.setHave i).unreceived = pk.unreceived := by
  have hzero : (List.range (pk.blocksInPiece i)).countP (fun b => !pk.isReceived i b) = 0 := by
    refine List.countP_eq_zero.2 fun b hb => ?_
    simp [hall b (List.mem_range.1 hb)]
  have hlayout : (pk.setHave i).toLayout = pk.toLayout := by simp [setHave, hi]
  have hcounts : (fun j => (pk.setHave i).wants j && !(pk.setHave i).has j) =
      fun j => (pk.wants j && !pk.has j) && j ≠ i := by
    funext j
    have hwants : (pk.setHave i).wants j = pk.wants j := by simp [setHave, hi, wants]
    rw [hwants, has_setHave h hi]
    by_cases hj : j = i
    · simp [hj]
    · simp [hj]
  rw [unreceived, hcounts, hlayout]
  refine Lists.sum_filter_ne _ _ hzero fun j hj => ?_
  simp only [isReceived_setHave hi, if_neg hj]

theorem candidateKey_antisymm (pk : Picker) {i j : Nat} (h : pk.candidateKey i ≤ pk.candidateKey j)
    (h' : pk.candidateKey j ≤ pk.candidateKey i) : i = j := by
  have hkey := le_antisymm h h'
  simp only [candidateKey, List.cons.injEq] at hkey
  exact hkey.2.2.2.1

/-- Holding a piece takes it off the candidates. -/
theorem candidateOrder_setHave {i : Nat} (h : pk.WF) (hi : i < pk.numPieces) (peerHas : Bitfield) :
    (pk.setHave i).candidateOrder peerHas = (pk.candidateOrder peerHas).filter (· ≠ i) := by
  have hkey : ∀ j, j ≠ i → (pk.setHave i).candidateKey j = pk.candidateKey j := by
    intro j hj
    have hmem : j ∈ pk.progress.erase i ↔ j ∈ pk.progress := by
      rw [AList.mem_erase]
      exact and_iff_right hj
    simp only [candidateKey, setHave, if_pos hi, hmem]
  have hmem : ∀ j, j ∈ (pk.setHave i).candidateOrder peerHas ↔
      j ∈ (pk.candidateOrder peerHas).filter (· ≠ i) := by
    intro j
    have hlayout : (pk.setHave i).numPieces = pk.numPieces := by simp [setHave, hi]
    have hwants : (pk.setHave i).wants j = pk.wants j := by simp [setHave, hi, wants]
    simp only [List.mem_filter, mem_candidateOrder, has_setHave h hi, hlayout, hwants,
      Bool.or_eq_false_iff, decide_eq_false_iff_not, decide_eq_true_eq, ne_eq]
    tauto
  have hnodup := nodup_candidateOrder (pk.setHave i) peerHas
  have hperm := (List.perm_ext_iff_of_nodup hnodup
    ((nodup_candidateOrder pk peerHas).filter _)).2 hmem
  have hsorted : ((pk.setHave i).candidateOrder peerHas).Pairwise
      fun a b => pk.candidateKey a ≤ pk.candidateKey b := by
    have hsorted := List.pairwise_insertionSort
      (fun a b => (pk.setHave i).candidateKey a ≤ (pk.setHave i).candidateKey b)
      ((List.range (pk.setHave i).numPieces).filter fun j =>
        peerHas.has j && !(pk.setHave i).has j && (pk.setHave i).wants j)
    refine List.Pairwise.imp_of_mem (fun {a b} ha hb hle => ?_) hsorted
    have hne : ∀ {j}, j ∈ (pk.setHave i).candidateOrder peerHas → j ≠ i := fun hj =>
      of_decide_eq_true (List.mem_filter.1 ((hmem _).1 hj)).2
    rw [hkey a (hne ha), hkey b (hne hb)] at hle
    exact hle
  have hfiltered : ((pk.candidateOrder peerHas).filter (· ≠ i)).Pairwise
      fun a b => pk.candidateKey a ≤ pk.candidateKey b :=
    (List.pairwise_insertionSort (fun a b => pk.candidateKey a ≤ pk.candidateKey b) _).filter _
  exact hperm.eq_of_pairwise (fun _ _ _ _ => pk.candidateKey_antisymm) hsorted hfiltered

theorem inEndgame_setHave {i : Nat} (h : pk.WF) (hi : i < pk.numPieces)
    (hall : ∀ b < pk.blocksInPiece i, pk.isReceived i b = true) :
    (pk.setHave i).inEndgame = pk.inEndgame := by
  have hblocks : (pk.setHave i).endgameBlocks = pk.endgameBlocks := by simp [setHave, hi]
  have hcount := unreceived_setHave h hi hall
  rw [Bool.eq_iff_iff, inEndgame_iff (h.setHave hi), inEndgame_iff h, hcount, hblocks]

theorem freeBlocks_setHave {i j : Nat} (hi : i < pk.numPieces) (hj : j ≠ i) (endgame : Bool) :
    (pk.setHave i).freeBlocks endgame j = pk.freeBlocks endgame j := by
  have hlayout : (pk.setHave i).toLayout = pk.toLayout := by simp [setHave, hi]
  simp only [freeBlocks, hlayout, isReceived_setHave hi, inFlightOf_setHave hi, if_neg hj]

theorem freeBlocks_of_received {i : Nat} (hall : ∀ b < pk.blocksInPiece i, pk.isReceived i b = true)
    (endgame : Bool) : pk.freeBlocks endgame i = [] := by
  refine List.eq_nil_iff_forall_not_mem.2 fun k hk => ?_
  obtain ⟨-, hlt, hdue, -⟩ := mem_freeBlocks.1 hk
  rw [hall k.2 hlt] at hdue
  cases hdue

/-- So nothing else is offered when a piece is held of which every block had been received. -/
theorem offers_setHave {i : Nat} (h : pk.WF) (hi : i < pk.numPieces)
    (hall : ∀ b < pk.blocksInPiece i, pk.isReceived i b = true) (peerHas : Bitfield) :
    (pk.setHave i).offers peerHas = pk.offers peerHas := by
  rw [offers, offers, inEndgame_setHave h hi hall, candidateOrder_setHave h hi]
  exact Lists.flatMap_filter_ne _ (freeBlocks_of_received hall _) fun j hj =>
    freeBlocks_setHave hi hj _

/-- Once a piece is put down as held, or begun anew, it does not matter which of its blocks came. -/
theorem alike_blockReceived {i b : Nat} (h : pk.WF) (hi : i < pk.numPieces)
    (hpos : 0 < pk.inFlightOf (i, b)) (skip : BlockKey → Prop) :
    Alike skip (pk.setHave i) ((pk.blockReceived i b).1.setHave i) ∧
      Alike skip (pk.resetPiece i) ((pk.blockReceived i b).1.resetPiece i) := by
  obtain ⟨hfield, hlayout, -⟩ := haveField_blockReceived h hpos
  have hi' : i < (pk.blockReceived i b).1.numPieces := by rw [hlayout]; exact hi
  have hrest : (pk.blockReceived i b).1.mode = pk.mode ∧
      (pk.blockReceived i b).1.endgameBlocks = pk.endgameBlocks ∧
      (pk.blockReceived i b).1.availability = pk.availability ∧
      (pk.blockReceived i b).1.priority = pk.priority := by
    rw [blockReceived_eq h hpos]
    exact ⟨rfl, rfl, rfl, rfl⟩
  have hstarted : ∀ j, j ≠ i →
      (j ∈ (pk.blockReceived i b).1.progress ↔ j ∈ pk.progress) := by
    intro j hj
    rw [blockReceived_eq h hpos]
    simp only [noteSaturation, mem_progress_putProgress, or_iff_right hj]
  have hreceived : ∀ j c, j ≠ i →
      (pk.blockReceived i b).1.isReceived j c = pk.isReceived j c := by
    intro j c hj
    rw [isReceived_blockReceived h hpos, if_neg fun hk => hj (Prod.mk.inj hk).1]
  have hinFlight : ∀ k : BlockKey, k.1 ≠ i →
      (pk.blockReceived i b).1.inFlightOf k = pk.inFlightOf k := by
    intro k hk
    rw [inFlightOf_blockReceived h hpos, if_neg fun heq => hk (congrArg Prod.fst heq)]
  obtain ⟨hmode, hblocks, havailability, hpriority⟩ := hrest
  constructor
  · refine ⟨?_, ?_, ?_, ?_, ?_, ?_, fun j => ?_, fun j c => ?_, fun k _ => ?_⟩
    · simpa only [setHave, if_pos hi, if_pos hi'] using hlayout
    · simpa only [setHave, if_pos hi, if_pos hi'] using hmode
    · simpa only [setHave, if_pos hi, if_pos hi'] using hblocks
    · simpa only [setHave, if_pos hi, if_pos hi'] using havailability
    · simp only [setHave, if_pos hi, if_pos hi', hfield]
    · simpa only [setHave, if_pos hi, if_pos hi'] using hpriority
    · simp only [setHave, if_pos hi, if_pos hi', AList.mem_erase]
      exact and_congr_right fun hj => hstarted j hj
    · rw [isReceived_setHave hi', isReceived_setHave hi]
      split
      · rfl
      · exact hreceived j c ‹_›
    · rw [inFlightOf_setHave hi', inFlightOf_setHave hi]
      split
      · rfl
      · exact hinFlight k ‹_›
  · refine ⟨?_, ?_, ?_, ?_, ?_, ?_, fun j => ?_, fun j c => ?_, fun k _ => ?_⟩
    · simpa only [resetPiece, if_pos hi, if_pos hi'] using hlayout
    · simpa only [resetPiece, if_pos hi, if_pos hi'] using hmode
    · simpa only [resetPiece, if_pos hi, if_pos hi'] using hblocks
    · simpa only [resetPiece, if_pos hi, if_pos hi'] using havailability
    · simp only [resetPiece, if_pos hi, if_pos hi', hfield]
    · simpa only [resetPiece, if_pos hi, if_pos hi'] using hpriority
    · simp only [resetPiece, if_pos hi, if_pos hi', AList.mem_erase]
      exact and_congr_right fun hj => hstarted j hj
    · rw [isReceived_resetPiece hi', isReceived_resetPiece hi]
      split
      · rfl
      · exact hreceived j c ‹_›
    · rw [inFlightOf_resetPiece hi', inFlightOf_resetPiece hi]
      split
      · rfl
      · exact hinFlight k ‹_›

theorem alike_blockFailed (pk : Picker) (i b : Nat) : Alike (· = (i, b)) pk (pk.blockFailed i b) := by
  have hrest := (recounts_blockFailed pk i b).rest
  refine ⟨?_, ?_, ?_, ?_, ?_, ?_, fun j => ?_, fun j c => isReceived_blockFailed pk i b j c,
    fun k hk => ?_⟩
  · rw [hrest]
  · rw [hrest]
  · rw [hrest]
  · rw [hrest]
  · rw [hrest]
  · rw [hrest]
  · unfold blockFailed
    split
    · rename_i prog hl
      have hin : i ∈ pk.progress := AList.lookup_isSome.1 (by rw [hl]; rfl)
      split
      · rw [noteSaturation, mem_progress_putProgress]
        exact or_iff_right_of_imp fun hj => hj ▸ hin
      · rfl
    · rfl
  · rw [inFlightOf_blockFailed, if_neg hk]

/-- What `pick` marks. -/
theorem marks_pick (h : pk.Tallied) (peerHas : Bitfield) (want : Nat) :
    Marks pk (pk.pick peerHas want).1 ((pk.offers peerHas).take want) := by
  have hpicks := picks_pick h.wf peerHas want
  have hinFlight : ∀ k, (pk.pick peerHas want).1.inFlightOf k =
      pk.inFlightOf k + if k ∈ (pk.offers peerHas).take want then 1 else 0 := by
    intro k
    rw [hpicks.inFlightOf, pick_eq h.wf, map_key_requestFor,
      ((nodup_offers pk peerHas).sublist (List.take_sublist _ _)).count]
  refine ⟨?_, (h.apply (.pick peerHas want)).checkInvariants, hpicks.isReceived, hinFlight, ?_, ?_⟩
  · unfold pick
    split
    · rfl
    · exact rest_foldl _ _ _ _
  · rintro i (hold | ⟨b, hb⟩)
    · unfold pick
      split
      · exact hold
      · exact mem_progress_foldl _ hold
    · refine mem_progress_of_inFlightOf (k := (i, b)) ?_
      rw [hinFlight, if_pos hb]
      exact Nat.succ_ne_zero _
  · intro i hi
    have hstarted : i ∈ pk.progress ∨ pk.blocksInPiece i = 0 ∨
        ∃ r ∈ (pk.pick peerHas want).2, r.index = i := by
      unfold pick at hi ⊢
      split at hi
      · exact .inl hi
      · rename_i hwant
        rw [if_neg hwant]
        exact started_foldl h.wf _ _ hi
    rcases hstarted with hold | hblocks | ⟨r, hr, rfl⟩
    · exact .inl hold
    · exact .inr (.inr hblocks)
    · rw [pick_eq h.wf] at hr
      obtain ⟨k, hk, rfl⟩ := List.mem_map.1 hr
      exact .inr (.inl ⟨k.2, hk⟩)

/-! ## The whole of it -/

/-- A block of a piece is not empty and lies inside it. -/
theorem blockLen_fits {l : Layout} {i b : Nat} (h : b < l.blocksInPiece i) :
    0 < l.blockLen i b ∧ b * BLOCK_LEN + l.blockLen i b ≤ l.pieceLen i := by
  rw [blockLen_eq h]
  unfold Layout.blocksInPiece at h
  simp only [BLOCK_LEN] at h ⊢
  omega

/-- What comes before an entry of the first part of an ordered list is in it. -/
theorem mem_take_of_before (hbytes : pk.PriorityBytes) {peerHas : Bitfield} {want : Nat}
    {k l : BlockKey} (hk : k ∈ (pk.offers peerHas).take want) (hl : pk.Offerable peerHas l)
    (hbefore : pk.Before l k) : l ∈ (pk.offers peerHas).take want := by
  have hmem := mem_offers.2 hl
  rw [← List.take_append_drop want (pk.offers peerHas), List.mem_append] at hmem
  rcases hmem with hmem | hmem
  · exact hmem
  · have hpairwise := pairwise_offers hbytes peerHas
    rw [← List.take_append_drop want (pk.offers peerHas), List.pairwise_append] at hpairwise
    exact absurd hbefore (before_asymm (hpairwise.2.2 k hk l hmem))

/-- What `pick` returns, `ks` being the blocks it asks for: distinct ones, no more than wanted,
each one that may be offered and inside its piece; all there are when they are fewer than
wanted; in order, none skipped; and they are marked. -/
structure PickedExactly (pk : Picker) (peerHas : Bitfield) (want : Nat) (ks : List BlockKey) :
    Prop where
  requests : (pk.pick peerHas want).2 = ks.map pk.requestFor
  distinct : (pk.pick peerHas want).2.Nodup
  atMost : (pk.pick peerHas want).2.length ≤ want
  offerable : ∀ k ∈ ks, pk.Offerable peerHas k
  inside : ∀ r ∈ (pk.pick peerHas want).2, 0 < r.length ∧ r.begin + r.length ≤ pk.pieceLen r.index
  all : (pk.pick peerHas want).2.length < want → ∀ k, pk.Offerable peerHas k → k ∈ ks
  ordered : ks.Pairwise pk.Before
  noneSkipped : ∀ k ∈ ks, ∀ l, pk.Offerable peerHas l → pk.Before l k → l ∈ ks
  marks : Marks pk (pk.pick peerHas want).1 ks

theorem pickedExactly (h : pk.Tallied) (hbytes : pk.PriorityBytes) (peerHas : Bitfield)
    (want : Nat) : PickedExactly pk peerHas want ((pk.offers peerHas).take want) := by
  have hpick := pick_eq h.wf peerHas want
  have hnodup := (nodup_offers pk peerHas).sublist (List.take_sublist want _)
  have hoffer : ∀ k ∈ (pk.offers peerHas).take want, pk.Offerable peerHas k :=
    fun k hk => mem_offers.1 (List.mem_of_mem_take hk)
  refine ⟨hpick, ?_, ?_, hoffer, ?_, ?_, ?_, ?_, marks_pick h peerHas want⟩
  · refine List.Nodup.of_map BlockRequest.key ?_
    rw [hpick, map_key_requestFor]
    exact hnodup
  · rw [hpick, List.length_map]
    exact List.length_take_le _ _
  · intro r hr
    rw [hpick] at hr
    obtain ⟨k, hk, rfl⟩ := List.mem_map.1 hr
    exact blockLen_fits (hoffer k hk).1.block
  · intro hfew k hk
    rw [hpick, List.length_map, List.length_take] at hfew
    rw [List.take_of_length_le (by omega)]
    exact mem_offers.2 hk
  · exact (pairwise_offers hbytes peerHas).sublist (List.take_sublist _ _)
  · exact fun k hk l hl hbefore => mem_take_of_before hbytes hk hl hbefore

/-- For a picker whose assertions hold: the endgame is on exactly when its threshold is not zero
and the blocks left, counted as far as a `u32` goes, do not pass it; and `pick` returns exactly
the first blocks that may be offered. -/
theorem pick_exact (hcheck : pk.checkInvariants = true) (hbytes : pk.PriorityBytes) :
    (pk.inEndgame = true ↔
      0 < pk.endgameBlocks ∧ min pk.unreceived 4294967295 ≤ pk.endgameBlocks) ∧
    ∀ (peerHas : Bitfield) (want : Nat), ∃ ks, PickedExactly pk peerHas want ks := by
  have h := tallied_of_checkInvariants hcheck
  exact ⟨inEndgame_iff h.wf, fun peerHas want => ⟨_, pickedExactly h hbytes peerHas want⟩⟩

/-- Two pieces, the second short and started. -/
theorem pick_exact_two :
    let pk := (Picker.new ⟨2, 2 * BLOCK_LEN, 3 * BLOCK_LEN⟩ .rarestFirst).pick
      ((Bitfield.empty 2).set 1) 1 |>.1
    (pk.inEndgame = true ↔
      0 < pk.endgameBlocks ∧ min pk.unreceived 4294967295 ≤ pk.endgameBlocks) ∧
    ∀ (peerHas : Bitfield) (want : Nat), ∃ ks, PickedExactly pk peerHas want ks :=
  pick_exact (by decide) (by decide)

/-! ## Two corners -/

/-- A piece of whole blocks. -/
theorem blocksInPiece_whole {n c i : Nat} (hi : i < n) :
    Layout.blocksInPiece ⟨n, c * BLOCK_LEN, n * (c * BLOCK_LEN)⟩ i = c := by
  have hend : (i + 1) * (c * BLOCK_LEN) ≤ n * (c * BLOCK_LEN) := Nat.mul_le_mul_right _ hi
  rw [Nat.add_mul, Nat.one_mul] at hend
  have hlen : Layout.pieceLen ⟨n, c * BLOCK_LEN, n * (c * BLOCK_LEN)⟩ i = c * BLOCK_LEN := by
    simp only [Layout.pieceLen]
    split <;> omega
  rw [Layout.blocksInPiece, hlen]
  simp only [BLOCK_LEN]
  omega

/-- Nothing of a new picker has arrived. -/
theorem unreceived_new (n c : Nat) (mode : Mode) :
    (Picker.new ⟨n, c * BLOCK_LEN, n * (c * BLOCK_LEN)⟩ mode).unreceived = n * c := by
  have hall : ∀ i ∈ List.range n,
      ((Picker.new ⟨n, c * BLOCK_LEN, n * (c * BLOCK_LEN)⟩ mode).wants i &&
        !(Picker.new ⟨n, c * BLOCK_LEN, n * (c * BLOCK_LEN)⟩ mode).has i) = true := by
    intro i hi
    have hmissing : (Picker.new ⟨n, c * BLOCK_LEN, n * (c * BLOCK_LEN)⟩ mode).has i = false :=
      Bitfield.has_empty _ _
    rw [hmissing, Bool.not_false, Bool.and_true]
    simp [wants, Picker.new, List.mem_range.1 hi]
  have hpiece : ∀ i ∈ List.range n,
      (List.range ((Picker.new ⟨n, c * BLOCK_LEN, n * (c * BLOCK_LEN)⟩ mode).blocksInPiece i)).countP
        (fun b => !(Picker.new ⟨n, c * BLOCK_LEN, n * (c * BLOCK_LEN)⟩ mode).isReceived i b) = c := by
    intro i hi
    refine (List.countP_eq_length.2 fun b _ => ?_).trans ?_
    · simp [isReceived, Picker.new]
    · exact List.length_range.trans (blocksInPiece_whole (List.mem_range.1 hi))
  unfold unreceived
  rw [show (Picker.new ⟨n, c * BLOCK_LEN, n * (c * BLOCK_LEN)⟩ mode).numPieces = n from rfl,
    List.filter_eq_self.2 hall, List.map_congr_left hpiece, List.map_const', List.sum_replicate,
    List.length_range, smul_eq_mul]

/-- With the threshold at the top of its range the endgame is on however much is left; and a
piece of no blocks is started without being offered. -/
theorem pick_inexact :
    (∃ pk : Picker, pk.checkInvariants = true ∧ pk.endgameBlocks = 4294967295 ∧
      pk.inEndgame = true ∧ pk.endgameBlocks < pk.unreceived) ∧
    ∃ pk : Picker, pk.checkInvariants = true ∧ 1 ∉ pk.progress ∧
      1 ∈ (pk.pick (Bitfield.full 2) 2).1.progress ∧
      ∀ r ∈ (pk.pick (Bitfield.full 2) 2).2, r.index ≠ 1 := by
  constructor
  · have h := (Tallied.new ⟨524289, 8192 * BLOCK_LEN, 524289 * (8192 * BLOCK_LEN)⟩
      .rarestFirst).apply (.setEndgameBlocks 4294967295)
    refine ⟨_, h.checkInvariants, rfl, ?_, ?_⟩
    · exact (inEndgame_iff h.wf).2 ⟨by decide, Nat.min_le_right _ _⟩
    · exact (by decide : 4294967295 < 524289 * 8192).trans_eq
        (unreceived_new 524289 8192 .rarestFirst).symm
  · exact ⟨Picker.new ⟨2, BLOCK_LEN, BLOCK_LEN⟩ .rarestFirst, by decide⟩

end Picker

end Clove
