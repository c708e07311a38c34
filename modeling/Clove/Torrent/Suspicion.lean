import Clove.Torrent.Blame
import Clove.FlatStorage
import Clove.Torrent.Expiry
import Clove.Torrent.Flapping

/-!
# Suspicion

A destination that shared in a piece that failed is suspected once more, and once less for each
piece that verifies with its help.  So it is meant; `tally` counts that way over the verdicts of
a run.  But `credit_suppliers` takes one off for each block of the piece, and the two counts
part when somebody suspected twice supplies two blocks of a piece that verifies:
`suspicion_tallies_iff` says that they agree otherwise.
-/

namespace Clove.Torrent

open Wire (BLOCK_LEN BlockRequest Message)

variable {sh : Shared} {e : Engine} {w w' : Work}

/-! ## Credit and blame -/

namespace State

/-- The failures a destination is held to. -/
def suspected (st : State) (d : DestHash) : Nat := (st.suspicion.lookup d).getD 0

/-- The suppliers of these blocks of a piece, one entry for each block. -/
def suppliersOf (st : State) (index : Nat) (blocks : List Nat) : List DestHash :=
  blocks.filterMap fun b => st.suppliers.lookup (index, b)

theorem suspected_of_eq {st st' : State} (h : st'.suspicion = st.suspicion) (d : DestHash) :
    st'.suspected d = st.suspected d := by
  rw [suspected, suspected, h]

/-- A block that is credited takes one off its supplier, and off nobody else. -/
theorem suspected_creditBlock (index : Nat) (st : State) (b : Nat) (d : DestHash) :
    (creditBlock index st b).suspected d = st.suspected d -
      if st.suppliers.lookup (index, b) = some d then 1 else 0 := by
  unfold creditBlock
  cases hsupplier : st.suppliers.lookup (index, b) with
  | none => simp
  | some dest =>
      simp only [Option.some.injEq]
      cases hcount : st.suspicion.lookup dest with
      | none =>
          by_cases hd : dest = d
          · subst hd
            simp [suspected, hcount]
          · simp [suspected, hd]
      | some count =>
          by_cases hd : dest = d
          · subst hd
            by_cases hlast : count - 1 = 0
            · simp [suspected, hcount, hlast]
            · simp [suspected, hcount, hlast]
          · have hne : d ≠ dest := fun heq => hd heq.symm
            by_cases hlast : count - 1 = 0
            · simp [suspected, hlast, hd, hne]
            · simp [suspected, hlast, hd, hne]

theorem suppliers_creditBlock (index : Nat) (st : State) (b : Nat) :
    ∀ k, (creditBlock index st b).suppliers.lookup k =
      if k = (index, b) then none else st.suppliers.lookup k := by
  intro k
  unfold creditBlock
  cases hsupplier : st.suppliers.lookup (index, b) with
  | none =>
      by_cases hk : k = (index, b)
      · rw [if_pos hk, hk, hsupplier]
      · rw [if_neg hk]
  | some dest =>
      simp only
      split <;> exact Map.lookup_erase _ _ _

/-- Crediting the blocks of a piece takes off as many as each supplied. -/
theorem suspected_creditBlocks (index : Nat) {l : List Nat} (hl : l.Nodup) (st : State)
    (d : DestHash) :
    (l.foldl (creditBlock index) st).suspected d =
      st.suspected d - (st.suppliersOf index l).count d := by
  induction l generalizing st with
  | nil => simp [suppliersOf]
  | cons b l ih =>
      obtain ⟨hnew, hl⟩ := List.nodup_cons.1 hl
      have hrest : (creditBlock index st b).suppliersOf index l = st.suppliersOf index l := by
        refine List.filterMap_congr fun c hc => ?_
        have hne : (index, c) ≠ (index, b) := fun heq => hnew ((Prod.mk.inj heq).2 ▸ hc)
        rw [suppliers_creditBlock, if_neg hne]
      rw [List.foldl_cons, ih hl, suspected_creditBlock, hrest, Nat.sub_sub]
      congr 1
      unfold suppliersOf
      cases hsupplier : st.suppliers.lookup (index, b) with
      | none => simp [hsupplier]
      | some dest =>
          by_cases hd : dest = d <;> simp [hsupplier, hd, Nat.add_comm]

theorem nodup_takeSuppliers (index : Nat) (l : List Nat) (st : State) {ds : List DestHash}
    (h : ds.Nodup) : (l.foldl (takeSupplier index) (st, ds)).2.Nodup := by
  induction l generalizing st ds with
  | nil => exact h
  | cons b l ih =>
      rw [List.foldl_cons]
      unfold takeSupplier
      simp only
      split
      · exact ih st h
      · rename_i dest _
        by_cases hin : dest ∈ ds
        · simp only [if_pos hin]
          exact ih _ h
        · simp only [if_neg hin]
          exact ih _ (List.nodup_append.2 ⟨h, List.nodup_singleton _, fun a ha b hb heq =>
            hin (List.mem_singleton.1 hb ▸ heq ▸ ha)⟩)

/-- Each contributor is suspected once more. -/
theorem suspected_suspects {l : List DestHash} (hl : l.Nodup) (st : State) (ds : List DestHash)
    (d : DestHash) :
    (l.foldl suspect (st, ds)).1.suspected d = st.suspected d + if d ∈ l then 1 else 0 := by
  induction l generalizing st ds with
  | nil => rfl
  | cons a l ih =>
      obtain ⟨hnew, hl⟩ := List.nodup_cons.1 hl
      rw [List.foldl_cons]
      refine (ih hl _ _).trans ?_
      unfold suspected
      simp only [Map.lookup_insert]
      by_cases hd : d = a
      · subst hd
        simp [hnew]
      · simp [hd]

/-- Who is banned is not suspected any more; the others are as they were. -/
theorem suspected_bans {ds : List DestHash} {d : DestHash} (hd : d ∉ ds) (st : State) :
    (ds.foldl ban st).suspected d = st.suspected d := by
  induction ds generalizing st with
  | nil => rfl
  | cons a ds ih =>
      rw [List.mem_cons, not_or] at hd
      obtain ⟨hne, hd⟩ := hd
      rw [List.foldl_cons, ih hd]
      unfold suspected ban
      simp only [Map.lookup_erase, if_neg hne]

/-- A piece that failed is held against each of its suppliers that is not banned, if there are
several. -/
theorem suspected_blameSuppliers (st : State) (index : Nat) {d : DestHash}
    (hd : d ∉ (st.blameSuppliers index).banned) :
    let supplied := st.suppliersOf index (List.range (st.picker.blocksInPiece index))
    (st.blameSuppliers index).suspected d =
      st.suspected d + if d ∈ supplied ∧ ∃ d' ∈ supplied, d' ≠ d then 1 else 0 := by
  intro supplied
  obtain ⟨suppliers, heq, -, hmem⟩ :=
    takeSuppliers_inv index (List.range (st.picker.blocksInPiece index)) st []
  have hnodup := nodup_takeSuppliers index (List.range (st.picker.blocksInPiece index)) st
    List.nodup_nil
  have hsupplied : ∀ d, d ∈ ((List.range (st.picker.blocksInPiece index)).foldl
      (takeSupplier index) (st, [])).2 ↔ d ∈ supplied := by
    intro d
    rw [hmem]
    simp only [supplied, suppliersOf, List.not_mem_nil, false_or, List.mem_filterMap]
  simp only [← hsupplied]
  unfold blameSuppliers at hd ⊢
  generalize (List.range (st.picker.blocksInPiece index)).foldl (takeSupplier index) (st, []) = s at *
  obtain ⟨st₁, contributors⟩ := s
  simp only at heq hnodup hd ⊢
  subst heq
  match contributors, hnodup, hd with
  | [], _, _ => simp [suspected]
  | [only], _, hd =>
      simp only [List.foldl_cons, List.foldl_nil] at hd ⊢
      have hne : d ≠ only := fun heq => hd (((bans_foldl [only] _).banned d).2 (.inl (by simp [heq])))
      have hother : d ∉ [only] := by simpa using hne
      have hsame := suspected_bans hother { st with suppliers := suppliers }
      simpa [hne, suspected] using hsame
  | a :: b :: rest, hnodup, hd =>
      simp only at hd ⊢
      have hspared : d ∉ ((a :: b :: rest).foldl suspect
          ({ st with suppliers := suppliers }, [])).2 := fun hin =>
        hd (((bans_foldl _ _).banned d).2 (.inl hin))
      rw [suspected_bans hspared, suspected_suspects hnodup]
      have hother : ∃ d' ∈ a :: b :: rest, d' ≠ d := by
        by_cases ha : a = d
        · refine ⟨b, by simp, fun hb => ?_⟩
          exact (List.nodup_cons.1 hnodup).1 (by simp [ha, hb])
        · exact ⟨a, by simp, ha⟩
      simp only [hother, and_true]
      rfl

end State

/-! ## Handlers that pass no verdict -/

theorem suspicion_foldl {α : Type} {f : Work → α → Work}
    (hf : ∀ w a, (f w a).st.suspicion = w.st.suspicion) (l : List α) (w : Work) :
    (l.foldl f w).st.suspicion = w.st.suspicion := by
  induction l generalizing w with
  | nil => rfl
  | cons a l ih => exact (ih _).trans (hf w a)

theorem suspicion_fillRequests (env : Env) (idx : Nat) (w : Work) :
    (fillRequests env idx w).st.suspicion = w.st.suspicion := by
  unfold fillRequests
  split
  · rfl
  · split
    · rfl
    · simp only
      split <;> rfl

theorem suspicion_cancelElsewhere (idx index begin blockNo : Nat) (w : Work) :
    (cancelElsewhere idx index begin blockNo w).st.suspicion = w.st.suspicion := by
  refine suspicion_foldl (fun w other => ?_) _ w
  unfold cancelAt
  split
  · rfl
  · split
    · rfl
    · split <;> rfl

theorem suspicion_enterBlock (idx index begin : Nat) (dest : DestHash) (length : Nat) (w : Work) :
    (enterBlock idx index begin dest length w).1.st.suspicion = w.st.suspicion :=
  suspicion_cancelElsewhere idx index begin (begin / BLOCK_LEN)
    (recordBlock idx (index, begin / BLOCK_LEN) dest length w)

theorem suspicion_updateInterest (env : Env) (idx : Nat) (w : Work) :
    (updateInterest env idx w).st.suspicion = w.st.suspicion := by
  unfold updateInterest
  split
  · rfl
  · simp only
    split
    · split
      · rfl
      · exact suspicion_fillRequests env idx _
    · split <;> rfl

theorem suspicion_runChoker (w : Work) : (runChoker w).st.suspicion = w.st.suspicion := by
  obtain ⟨⟨peers, choker, heq⟩, -⟩ := runChoker_inv w
  rw [heq]

theorem suspicion_after (env : Env) (w : Work) :
    (recordSent env.now (considerRound env w)).st.suspicion = w.st.suspicion := by
  obtain ⟨peers, heq⟩ := recordSent_inv env.now (considerRound env w)
  rw [heq]
  unfold considerRound
  split
  · exact suspicion_runChoker _
  · rfl

theorem suspicion_replacePieceSet (idx : Nat) (field : Bitfield) (w : Work) :
    (replacePieceSet idx field w).st.suspicion = w.st.suspicion := by
  unfold replacePieceSet
  split <;> rfl

theorem suspicion_sendPex (env : Env) (idx : Nat) (w : Work) :
    (sendPex env idx w).st.suspicion = w.st.suspicion := by
  unfold sendPex
  split
  · rfl
  · split
    · rfl
    · simp only
      split <;> rfl

theorem suspicion_learn (env : Env) (w : Work) (dest : DestHash) :
    (learn env w dest).st.suspicion = w.st.suspicion := by
  obtain ⟨known, heq⟩ := State.rememberPeerFrom_eq w.st env.rank dest .pex
  unfold learn
  simp only [heq]
  split <;> rfl

theorem suspicion_onExtended (sh : Shared) (env : Env) (idx : Nat) (extId : UInt8)
    (payload : Bytes) (w : Work) :
    (onExtended sh env idx extId payload w).st.suspicion = w.st.suspicion := by
  unfold onExtended
  split
  · split
    · rfl
    · simp only
      split
      · rfl
      · exact suspicion_sendPex env idx _
  · split
    · split
      · rfl
      · split
        · rfl
        · exact suspicion_foldl (suspicion_learn env) _ w
    · split
      · split
        · unfold serveMetadata
          split
          · rfl
          · split <;> rfl
        · rfl
      · rfl

/-- Only a block can bring a verdict. -/
theorem suspicion_dispatch (sh : Shared) (env : Env) (idx id : Nat) (first fast : Bool)
    {msg : Message} (hmsg : ∀ index begin block, msg ≠ .piece index begin block) (w : Work) :
    (dispatch sh env idx id first fast msg w).st.suspicion = w.st.suspicion := by
  have hreplace : ∀ field, (updateInterest env idx (replacePieceSet idx field w)).st.suspicion =
      w.st.suspicion := fun field =>
    (suspicion_updateInterest env idx _).trans (suspicion_replacePieceSet idx field w)
  cases msg with
  | keepAlive | cancel _ => rfl
  | choke =>
      unfold dispatch onChoke
      simp only
      split <;> rfl
  | unchoke => exact suspicion_fillRequests env idx _
  | interested =>
      unfold dispatch onInterested
      simp only
      split
      · exact suspicion_runChoker _
      · rfl
  | notInterested =>
      unfold dispatch onNotInterested
      simp only
      split
      · rfl
      · split <;> rfl
  | have_ piece =>
      unfold dispatch onHave
      simp only
      split
      · rfl
      · split
        · exact suspicion_updateInterest env idx _
        · rfl
  | bitfield bytes =>
      unfold dispatch
      simp only
      split
      · split
        · exact hreplace _
        · rfl
      · rfl
  | request req =>
      unfold dispatch serveRequest
      simp only
      split
      · rfl
      · split
        · rfl
        · split <;> rfl
  | piece index begin block => exact absurd rfl (hmsg index begin block)
  | suggestPiece _ | rejectRequest _ | allowedFast _ =>
      unfold dispatch
      simp only
      split <;> rfl
  | haveAll | haveNone =>
      unfold dispatch
      simp only
      split
      · exact hreplace _
      · rfl
  | extended extId payload => exact suspicion_onExtended sh env idx extId payload w

/-! ## Verdicts -/

/-- A piece has been judged: whether it matches, and who supplied each of its blocks. -/
structure Verdict where
  fits : Bool
  supplied : List DestHash
deriving DecidableEq

/-- The block is owed by the peer and goes to disk, and it finishes its piece. -/
def Completing (sh : Shared) (env : Env) (index begin : Nat) (block : Bytes) (peer : Peer)
    (pk : Picker) : Prop :=
  begin % BLOCK_LEN = 0 ∧ index < sh.numPieces ∧ block.length = pk.blockLen index (begin / BLOCK_LEN) ∧
    (index, begin / BLOCK_LEN) ∈ peer.inFlight ∧
    (sh.storage.writeBlock env.writeFault index begin block).2 = .ok () ∧
    Finishes pk index (begin / BLOCK_LEN)

instance (sh : Shared) (env : Env) (index begin : Nat) (block : Bytes) (peer : Peer) (pk : Picker) :
    Decidable (Completing sh env index begin block peer pk) :=
  inferInstanceAs (Decidable (_ ∧ _ ∧ _ ∧ _ ∧ _ ∧ _))

/-- What the files say of a piece that a block finishes. -/
def judgement (sh : Shared) (env : Env) (index begin : Nat) (block : Bytes) (disk : Disk) :
    Except IoError Bool :=
  sh.storage.verifyPiece sh.sha1
    (disk.writes (sh.storage.writeBlock env.writeFault index begin block).1) env.readFault index

/-- The verdict a block leads to, if it leads to one. -/
def Event.verdicts (sh : Shared) : Event → Engine → List Verdict
  | .message env id (.piece index begin block), e =>
      match e.st.peers.find? (·.id = id) with
      | none => []
      | some peer =>
          if Completing sh env index begin block peer e.st.picker then
            match judgement sh env index begin block e.disk with
            | .error _ => []
            | .ok fits =>
                let st := { e.st with
                  suppliers := e.st.suppliers.insert (index, begin / BLOCK_LEN) peer.dest }
                [⟨fits, st.suppliersOf index (List.range (st.picker.blocksInPiece index))⟩]
          else []
  | _, _ => []

theorem Event.verdicts_of_completing {env : Env} {id index begin : Nat} {block : Bytes}
    {peer : Peer} {fits : Bool} (hfind : e.st.peers.find? (·.id = id) = some peer)
    (hcompleting : Completing sh env index begin block peer e.st.picker)
    (hjudged : judgement sh env index begin block e.disk = .ok fits) :
    let st := { e.st with suppliers := e.st.suppliers.insert (index, begin / BLOCK_LEN) peer.dest }
    Event.verdicts sh (.message env id (.piece index begin block)) e =
      [⟨fits, st.suppliersOf index (List.range (st.picker.blocksInPiece index))⟩] := by
  simp only [Event.verdicts, hfind, if_pos hcompleting, hjudged]

/-- A destination's count after one more verdict. -/
def Verdict.count (d : DestHash) (n : Nat) (v : Verdict) : Nat :=
  if d ∈ v.supplied then
    if v.fits then n - 1 else if ∃ d' ∈ v.supplied, d' ≠ d then n + 1 else n
  else n

/-- What the program makes of it: it gives credit for each block. -/
def Verdict.charge (d : DestHash) (n : Nat) (v : Verdict) : Nat :=
  if v.fits then n - v.supplied.count d
  else n + if d ∈ v.supplied ∧ ∃ d' ∈ v.supplied, d' ≠ d then 1 else 0

/-- A destination's count after some verdicts. -/
def tally (verdicts : List Verdict) (d : DestHash) : Nat := verdicts.foldl (Verdict.count d) 0

/-- Nobody that is suspected more than once supplied two blocks of a piece that is found to
match. -/
def Event.Fair (sh : Shared) (ev : Event) (e : Engine) : Prop :=
  ∀ v ∈ ev.verdicts sh e, v.fits = true → ∀ d ∈ v.supplied, d ∉ e.st.banned →
    2 ≤ v.supplied.count d → e.st.suspected d ≤ 1

instance (sh : Shared) (ev : Event) (e : Engine) : Decidable (ev.Fair sh e) :=
  inferInstanceAs (Decidable (∀ _ ∈ _, _))

/-! ## Blocks -/

/-- What a judged piece does to suspicion. -/
theorem suspicion_onComplete (sh : Shared) (env : Env) (index : Nat) (w : Work) {d : DestHash}
    (hd : d ∉ (onComplete sh env index w).st.banned) :
    let supplied := w.st.suppliersOf index (List.range (w.st.picker.blocksInPiece index))
    (onComplete sh env index w).st.suspected d =
      match sh.storage.verifyPiece sh.sha1 w.disk env.readFault index with
      | .ok true => w.st.suspected d - supplied.count d
      | .ok false => w.st.suspected d + if d ∈ supplied ∧ ∃ d' ∈ supplied, d' ≠ d then 1 else 0
      | .error _ => w.st.suspected d := by
  intro supplied
  unfold onComplete at hd ⊢
  cases hverdict : sh.storage.verifyPiece sh.sha1 w.disk env.readFault index with
  | error _ => rfl
  | ok fits =>
      cases fits with
      | true =>
          have hblocks : (w.st.picker.setHave index).blocksInPiece index =
              w.st.picker.blocksInPiece index := by
            unfold Picker.setHave
            split <;> rfl
          refine (State.suspected_creditBlocks index List.nodup_range _ d).trans ?_
          show _ - ((State.suppliersOf _ index
            (List.range ((w.st.picker.setHave index).blocksInPiece index))).count d) = _
          rw [hblocks]
          rfl
      | false =>
          have hblocks : (w.st.picker.resetPiece index).blocksInPiece index =
              w.st.picker.blocksInPiece index := by
            unfold Picker.resetPiece
            split <;> rfl
          rw [hverdict] at hd
          have hblame := State.suspected_blameSuppliers
            (w.modifyPicker fun pk => pk.resetPiece index).st index hd
          simp only [Work.modifyPicker, hblocks] at hblame
          exact hblame

/-- A block that leads to no verdict leaves suspicion alone. -/
theorem suspicion_onBlock {env : Env} {idx index begin : Nat} {block : Bytes} {peer : Peer}
    (h : Balanced sh w []) (hidx : w.st.peers[idx]? = some peer)
    (hnot : ¬ Completing sh env index begin block peer w.st.picker) :
    (onBlock sh env idx index begin block w).st.suspicion = w.st.suspicion := by
  rcases onBlock_cases sh env idx index begin block w with
    heq | ⟨q, hq, hbegin, hi, hlen, ⟨-, heq⟩ | ⟨-, -, heq⟩ | ⟨hreq, hheld, r, hr, heq⟩⟩
  · rw [heq]
  · rw [heq]
    exact suspicion_fillRequests env idx _
  · rw [heq]
    exact suspicion_fillRequests env idx _
  · obtain rfl := Option.some.inj (hidx.symm.trans hq)
    have hrefused : r.1.st.suspicion = w.st.suspicion →
        (onBlock sh env idx index begin block w).st.suspicion = w.st.suspicion := by
      intro hsame
      rw [heq]
      split
      · exact (suspicion_fillRequests env idx _).trans hsame
      · exact hsame
    by_cases hrec : w.st.picker.isReceived index (begin / BLOCK_LEN) = true
    · have hrec : (takeOwed idx (index, begin / BLOCK_LEN) true w).st.picker.isReceived index
          (begin / BLOCK_LEN) = true := hrec
      refine hrefused ?_
      rw [hr]
      unfold onOwedBlock
      simp only [hrec, if_true]
      rfl
    · have howed : Owed sh idx index begin block peer w :=
        ⟨hidx, hbegin, hi, hlen, hreq, hheld, Bool.eq_false_of_not_eq_true hrec⟩
      cases hok : (sh.storage.writeBlock env.writeFault index begin block).2 with
      | ok _ =>
          have hlanded : Landed sh env idx index begin block peer w _ := howed.landed h
          have hincomplete := Bool.eq_false_iff.2 fun hcomplete => hnot
            ⟨hbegin, hi, hlen, hreq, hok, hlanded.finishes.1 hcomplete⟩
          rw [onBlock_owed howed hok]
          simp only [hincomplete, Bool.false_eq_true, if_false]
          exact suspicion_enterBlock _ _ _ _ _ _
      | error err =>
          have hrec : (takeOwed idx (index, begin / BLOCK_LEN) true w).st.picker.isReceived index
              (begin / BLOCK_LEN) = false := howed.notReceived
          refine hrefused ?_
          rw [hr]
          unfold onOwedBlock
          simp only [hrec, Bool.false_eq_true, if_false, hok]
          rfl

/-- A block that finishes its piece brings a verdict on it. -/
theorem suspected_onBlock {env : Env} {idx index begin : Nat} {block : Bytes} {peer : Peer}
    (h : Balanced sh w []) (hidx : w.st.peers[idx]? = some peer)
    (hcompleting : Completing sh env index begin block peer w.st.picker) {d : DestHash}
    (hd : d ∉ (onBlock sh env idx index begin block w).st.banned) :
    let st := { w.st with suppliers := w.st.suppliers.insert (index, begin / BLOCK_LEN) peer.dest }
    let supplied := st.suppliersOf index (List.range (st.picker.blocksInPiece index))
    (onBlock sh env idx index begin block w).st.suspected d =
      match judgement sh env index begin block w.disk with
      | .ok true => w.st.suspected d - supplied.count d
      | .ok false => w.st.suspected d + if d ∈ supplied ∧ ∃ d' ∈ supplied, d' ≠ d then 1 else 0
      | .error _ => w.st.suspected d := by
  intro st supplied
  obtain ⟨hbegin, hi, hlen, howed, hok, hfin⟩ := hcompleting
  have hpos : 0 < w.st.picker.inFlightOf (index, begin / BLOCK_LEN) :=
    Nat.pos_of_ne_zero ((inFlightOf_pos_iff h).2 ⟨peer, List.mem_of_getElem? hidx, howed⟩)
  rw [h.acc.exact] at hpos
  have hunsettled : ¬ w.st.picker.Settled (index, begin / BLOCK_LEN) := fun hsettled =>
    absurd (h.acc.settled _ hsettled) (Nat.pos_iff_ne_zero.1 hpos)
  have hdue : Owed sh idx index begin block peer w := ⟨hidx, hbegin, hi, hlen, howed,
    Bool.eq_false_of_not_eq_true fun hheld => hunsettled (.inr hheld),
    Bool.eq_false_of_not_eq_true fun hrec => hunsettled (.inl hrec)⟩
  have hlanded : Landed sh env idx index begin block peer w _ := hdue.landed h
  have hentered := suspicion_enterBlock idx index begin peer.dest block.length
    (writeOwed sh env idx index begin block w)
  rw [onBlock_owed hdue hok] at hd ⊢
  simp only at hd ⊢
  generalize enterBlock idx index begin peer.dest block.length
    (writeOwed sh env idx index begin block w) = r at *
  rw [if_pos (hlanded.finishes.2 hfin)] at hd ⊢
  have hfilled := leaves_fillRequests [] env idx (onComplete sh env index r.1)
  rw [(hfilled .known (by simp)).known.2.1] at hd
  rw [State.suspected_of_eq (suspicion_fillRequests env idx _), suspicion_onComplete sh env index r.1 hd]
  have hsuppliers : r.1.st.suppliersOf index (List.range (r.1.st.picker.blocksInPiece index)) =
      supplied := by
    have hlayout : r.1.st.picker.toLayout = w.st.picker.toLayout :=
      congrArg Prod.fst (hlanded.stored.rest .held (by simp)).picker
    simp only [supplied, st, State.suppliersOf, hlanded.stored.suppliers]
    rw [hlayout]
  rw [hsuppliers, hlanded.stored.disk, State.suspected_of_eq hentered]
  rfl

/-! ## Critical sections -/

/-- What a section does to suspicion follows from its verdict. -/
def Sways (sh : Shared) (ev : Event) (e : Engine) (st : State) : Prop :=
  ∀ d ∉ st.banned, st.suspected d = (ev.verdicts sh e).foldl (Verdict.charge d) (e.st.suspected d)

theorem sways_onBlock (hseat : e.Seated sh) {env : Env} {id idx index begin : Nat} {block : Bytes}
    {peer : Peer} (hentered : Entered sh e w) (hidx : w.st.peers[idx]? = some peer)
    (hid : peer.id = id) (hsuspicion : w.st.suspicion = e.st.suspicion) :
    Sways sh (.message env id (.piece index begin block)) e
      (onBlock sh env idx index begin block w).st := by
  obtain ⟨q, hfind, hdest, hflights⟩ := find_of_seat hseat hentered hidx hid
  have hsuppliers : w.st.suppliers = e.st.suppliers := (hentered.rest .suppliers (by simp)).books
  have hsame : Completing sh env index begin block q e.st.picker ↔
      Completing sh env index begin block peer w.st.picker := by
    unfold Completing
    rw [hflights, hentered.picker]
  have hverdicts : Event.verdicts sh (.message env id (.piece index begin block)) e =
      if Completing sh env index begin block peer w.st.picker then
        match judgement sh env index begin block w.disk with
        | .error _ => []
        | .ok fits =>
            let st := { w.st with
              suppliers := w.st.suppliers.insert (index, begin / BLOCK_LEN) peer.dest }
            [⟨fits, st.suppliersOf index (List.range (st.picker.blocksInPiece index))⟩]
      else [] := by
    unfold Event.verdicts
    simp only [hfind, hsame, hentered.disk, hentered.picker, hdest, State.suppliersOf, hsuppliers]
  intro d hd
  rw [← State.suspected_of_eq hsuspicion, hverdicts]
  by_cases hcompleting : Completing sh env index begin block peer w.st.picker
  · rw [if_pos hcompleting, suspected_onBlock hentered.balanced hidx hcompleting hd]
    cases judgement sh env index begin block w.disk with
    | error _ => rfl
    | ok fits => cases fits <;> rfl
  · rw [if_neg hcompleting]
    exact State.suspected_of_eq (suspicion_onBlock hentered.balanced hidx hcompleting) d

/-- A section without a verdict that leaves suspicion alone. -/
theorem sways_of_same {ev : Event} {st : State} (hverdicts : ev.verdicts sh e = [])
    (hsuspicion : st.suspicion = e.st.suspicion) : Sways sh ev e st := by
  intro d _
  rw [hverdicts]
  exact State.suspected_of_eq hsuspicion d

theorem sways_handle (hacc : e.Accounts sh) (hseat : e.Seated sh) (env : Env) (id : Nat)
    (msg : Message) {now : Nat} : Sways sh (.message env id msg) e (handle sh env id msg
      { e.enter with st := e.st.modifyId id fun p => { p with lastSeen := now } }).st := by
  have hentered := entered_seen hacc now id
  have hseen : (e.st.modifyId id fun p => { p with lastSeen := now }).suspicion =
      e.st.suspicion := by
    unfold State.modifyId
    split <;> rfl
  rcases handle_cases sh env id msg { e.enter with
    st := e.st.modifyId id fun p => { p with lastSeen := now } } with
    ⟨hnone, heq⟩ | ⟨idx, peer, hidx, hid, heq⟩
  · rw [heq]
    refine sways_of_same ?_ hseen
    have hfind : e.st.peers.find? (·.id = id) = none := by
      refine List.find?_eq_none.2 fun p hp => ?_
      have hmem := List.mem_map_of_mem (f := fun p : Peer => (p.id, p.inFlight)) hp
      rw [← hentered.requests] at hmem
      obtain ⟨q, hq, heq⟩ := List.mem_map.1 hmem
      simpa using (Prod.mk.inj heq).1 ▸ hnone q hq
    cases msg with
    | piece index begin block => simp only [Event.verdicts, hfind]
    | _ => rfl
  · rw [heq]
    have hopened := hentered.opened idx msg
    have hidx := Work.getElem?_modifyPeer hidx fun p => { p with opened := p.opened || opens msg }
    by_cases hmsg : ∃ index begin block, msg = .piece index begin block
    · obtain ⟨index, begin, block, rfl⟩ := hmsg
      exact sways_onBlock hseat hopened hidx hid hseen
    · have hnot : ∀ index begin block, msg ≠ .piece index begin block :=
        fun index begin block heq => hmsg ⟨index, begin, block, heq⟩
      refine sways_of_same ?_ ((suspicion_dispatch sh env idx id _ _ hnot _).trans hseen)
      cases msg with
      | piece index begin block => exact absurd rfl (hnot index begin block)
      | _ => rfl

theorem suspicion_maintain (env : Env) (e : Engine) :
    (maintain env e).1.st.suspicion = e.st.suspicion := by
  have hpeer : ∀ (s : Work × List (Nat × Bool)) idx,
      (maintainPeer env s idx).1.st.suspicion = s.1.st.suspicion := by
    intro s idx
    have hreleased : (releaseLate env idx s.1).st.suspicion = s.1.st.suspicion := by
      unfold releaseLate
      split
      · rfl
      · simp only
        split <;> rfl
    rw [maintainPeer_fst]
    split
    · exact hreleased
    · exact (suspicion_fillRequests env idx _).trans hreleased
  have hturns : ∀ n, (turns env (ticked env e) n).1.st.suspicion = e.st.suspicion := by
    intro n
    induction n with
    | zero =>
        obtain ⟨out, hticked⟩ := ticked_eq env e
        show (ticked env e).1.st.suspicion = _
        rw [hticked]
    | succ n ih =>
        rw [turns_succ]
        exact (hpeer _ n).trans ih
  exact (suspicion_after env _).trans (hturns _)

/-- What a section does to suspicion, whatever the section. -/
theorem sways_step (hacc : e.Accounts sh) (hseat : e.Seated sh) (ev : Event) :
    Sways sh ev e (Engine.step sh ev e).st := by
  cases ev with
  | message env id msg =>
      -- The round that may follow passes no verdict.
      intro d hd
      refine (State.suspected_of_eq (suspicion_after env _) d).trans
        (sways_handle hacc hseat env id msg d fun hin => hd ?_)
      have hbanned := ((leaves_after env (handle sh env id msg { e.enter with
        st := e.st.modifyId id fun p => { p with lastSeen := env.now } })) .known (by simp)).known.2.1
      exact hbanned.symm ▸ hin
  | maintain env => exact sways_of_same rfl (suspicion_maintain env e)
  | register env dest fast =>
      refine sways_of_same rfl ?_
      rcases registerPeer_cases sh env dest fast e.st with ⟨_, heq⟩ | ⟨_, _, _, _, _, heq⟩
      · rw [Engine.step, Engine.modifyState, heq]
      · rw [Engine.step, Engine.modifyState, heq]
  | drop now id forCause =>
      refine sways_of_same rfl ?_
      rcases dropPeer_cases now id forCause e.st with ⟨-, heq⟩ | ⟨peer, rest, -, -, heq⟩
      · rw [Engine.step, Engine.modifyState, heq]
      · rw [Engine.step, Engine.modifyState, heq]
  | addPeers rank peers =>
      obtain ⟨known, heq⟩ := addPeers_eq rank peers e.st
      refine sways_of_same rfl ?_
      rw [Engine.step, Engine.modifyState, heq]
  | _ => exact sways_of_same rfl rfl

/-- A section whose verdict is in favour bans nobody. -/
theorem banned_of_fits (hacc : e.Accounts sh) {ev : Event} {v : Verdict}
    (hv : v ∈ ev.verdicts sh e) (hfits : v.fits = true) {d : DestHash}
    (hd : d ∈ (Engine.step sh ev e).st.banned) : d ∈ e.st.banned := by
  rcases banned_step hacc ev hd with hd | ⟨env, id, index, begin, block, rfl, hjudged, -⟩
  · exact hd
  · have hverdict : judgement sh env index begin block e.disk = .ok false := hjudged.verdict
    unfold Event.verdicts at hv
    simp only [hverdict] at hv
    split at hv
    · cases hv
    · split at hv
      · rw [List.mem_singleton.1 hv] at hfits
        cases hfits
      · cases hv

/-- The two counts part only where somebody suspected twice is given credit twice. -/
theorem charge_eq_count_iff (d : DestHash) (n : Nat) (v : Verdict) :
    Verdict.charge d n v = Verdict.count d n v ↔
      ¬ (v.fits = true ∧ 2 ≤ v.supplied.count d ∧ 2 ≤ n) := by
  unfold Verdict.charge Verdict.count
  by_cases hfits : v.fits = true
  · by_cases hin : d ∈ v.supplied
    · have hpos := List.count_pos_iff.2 hin
      simp only [hfits, hin, if_true, true_and]
      omega
    · have hzero := List.count_eq_zero.2 hin
      simp only [hfits, hin, if_true, if_false, true_and]
      omega
  · by_cases hin : d ∈ v.supplied <;> by_cases hother : ∃ d' ∈ v.supplied, d' ≠ d <;>
      simp [hfits, hin, hother]

theorem verdicts_cases (sh : Shared) (ev : Event) (e : Engine) :
    ev.verdicts sh e = [] ∨ ∃ v, ev.verdicts sh e = [v] := by
  unfold Event.verdicts
  split
  · split
    · exact .inl rfl
    · split
      · split
        · exact .inl rfl
        · exact .inr ⟨_, rfl⟩
      · exact .inl rfl
  · exact .inl rfl

/-- A section keeps the count exactly if it is fair. -/
theorem tallied_step_iff (hacc : e.Accounts sh) (hseat : e.Seated sh) (hbooked : Booked e.st)
    (ev : Event) {log : List Verdict} (h : ∀ d ∉ e.st.banned, e.st.suspected d = tally log d) :
    (∀ d ∉ (Engine.step sh ev e).st.banned,
      (Engine.step sh ev e).st.suspected d = tally (log ++ ev.verdicts sh e) d) ↔ ev.Fair sh e := by
  have hloyal : e.st.banned ⊆ (Engine.step sh ev e).st.banned := by
    rcases loyal_step hbooked hacc ev with hloyal | ⟨dest, -, heq⟩
    · exact hloyal.banned
    · rw [heq]
      exact fun _ hd => hd
  have hsways := sways_step hacc hseat ev
  unfold Event.Fair
  rcases verdicts_cases sh ev e with hnone | ⟨v, hone⟩
  · rw [hnone]
    refine iff_of_true (fun d hd => ?_) (by simp)
    rw [hsways d hd, hnone, List.append_nil]
    exact h d fun hin => hd (hloyal hin)
  · have hafter : ∀ d ∉ (Engine.step sh ev e).st.banned,
        ((Engine.step sh ev e).st.suspected d = tally (log ++ [v]) d ↔
          ¬ (v.fits = true ∧ 2 ≤ v.supplied.count d ∧ 2 ≤ e.st.suspected d)) := by
      intro d hd
      rw [hsways d hd, hone, ← charge_eq_count_iff, tally, List.foldl_append]
      have hbefore := h d fun hin => hd (hloyal hin)
      unfold tally at hbefore
      rw [← hbefore]
      rfl
    rw [hone]
    simp only [List.mem_singleton, forall_eq]
    constructor
    · intro hall hfits d hd hban htwo
      have hstill : d ∉ (Engine.step sh ev e).st.banned := fun hin =>
        hban (banned_of_fits hacc (by simp [hone]) hfits hin)
      by_contra hmany
      exact (hafter d hstill).1 (hall d hstill) ⟨hfits, htwo, by omega⟩
    · intro hall d hd
      refine (hafter d hd).2 fun ⟨hfits, htwo, hmany⟩ => ?_
      have hin : d ∈ v.supplied := List.count_pos_iff.1 (by omega)
      have := hall hfits d hin (fun hin => hd (hloyal hin)) htwo
      omega

/-- In every state of a run each destination that is not banned is suspected as often as the
verdicts so far tally, exactly if every section of the run is fair. -/
theorem suspicion_tallies_iff (sh : Shared) (initialHave : Bitfield) (mode : Mode) (now : Nat)
    (disk : Disk) (events : List Event) :
    let e₀ := Engine.new sh initialHave mode now disk
    (∀ es, es <+: events → ∀ d ∉ (Engine.run sh es e₀).st.banned,
      (Engine.run sh es e₀).st.suspected d =
        tally (Machine.logs (Engine.step sh) (Event.verdicts sh) es e₀) d) ↔
      Machine.Along (Engine.step sh) (Event.Fair sh) events e₀ := by
  intro e₀
  have hbooked : Booked e₀.st := ⟨Nat.zero_le _, fun d hd => absurd hd List.not_mem_nil, nofun,
    Nat.zero_le _, fun _ => Nat.zero_le _⟩
  exact Machine.always_iff_along_logs
    (I := fun e => Engine.Accounts sh e ∧ e.Seated sh ∧ Booked e.st)
    (P := fun log e => ∀ d ∉ e.st.banned, e.st.suspected d = tally log d)
    (fun ev e h => ⟨accounts_step ev h.1, h.2.1.step ev, h.2.2.step h.1 ev⟩)
    (fun ev e log h hlog => tallied_step_iff h.1 h.2.1 h.2.2 ev hlog)
    ⟨accounts_new sh initialHave mode now disk, seated_new sh initialHave mode now disk, hbooked⟩
    (l := []) fun _ _ => rfl

/-! ## A run that forgives twice

The torrent is one piece of two blocks, 16385 zeros.  What a section does with a block is said by
`step_block`; only `verifyPiece_written` looks at its bytes. -/

namespace TwoBlocks

open OneByte (dest env)

def digest : Bytes :=
  [59, 148, 48, 99, 72, 39, 43, 37, 96, 143, 90, 62, 23, 206, 217, 124, 204, 205, 128, 49]

/-- The digest of the content with its last byte 1. -/
def badDigest : Bytes :=
  [117, 144, 119, 94, 75, 50, 25, 177, 196, 224, 74, 47, 35, 200, 142, 42, 79, 16, 76, 22]

/-- `d6:lengthi16385e4:name1:a12:piece lengthi32768e6:pieces20:`, the digest, and `e`. -/
def rawInfo : Bytes :=
  [100, 54, 58, 108, 101, 110, 103, 116, 104, 105, 49, 54, 51, 56, 53, 101, 52, 58, 110, 97, 109,
    101, 49, 58, 97, 49, 50, 58, 112, 105, 101, 99, 101, 32, 108, 101, 110, 103, 116, 104, 105, 51,
    50, 55, 54, 56, 101, 54, 58, 112, 105, 101, 99, 101, 115, 50, 48, 58] ++ digest ++ [101]

def infoHash : Bytes :=
  [212, 158, 47, 103, 80, 217, 247, 213, 228, 141, 182, 175, 136, 29, 212, 44, 186, 200, 12, 96]

def zeros : Bytes := List.replicate 16384 0

def shared : Shared where
  infoHash := infoHash
  peerId := OneByte.shared.peerId
  storage := Storage.create ⟨1, 32768, 16385⟩ [16385] [digest] rfl
  rawInfo := rawInfo
  isPrivate := false
  sha1 := fun bs => if bs = zeros ++ [0] then digest else if bs = zeros ++ [1] then badDigest
    else if bs = rawInfo then infoHash else []

def start : Engine := Engine.new shared (Bitfield.empty 1) .rarestFirst 0 fun _ => []

/-- Two peers connect that have the piece and unchoke us.  Both are asked for both blocks. -/
def joined : List Event :=
  [.register (env 0) (dest 0) false, .register (env 0) (dest 1) false,
    .message (env 0) 0 (.bitfield [128]), .message (env 0) 1 (.bitfield [128]),
    .message (env 0) 0 .unchoke, .message (env 0) 1 .unchoke]

/-- The first peer sends the first block. -/
def first : Event := .message (env 0) 0 (.piece 0 0 zeros)

/-- A peer sends the second. -/
def second (id : Nat) (x : UInt8) : Event := .message (env 0) id (.piece 0 16384 [x])

/-- Twice the second peer sends a wrong byte.  Then the first peer sends both blocks. -/
def forgiving : List Event :=
  joined ++ [first, second 1 1, .maintain (env 0), first, second 1 1, .maintain (env 0), first,
    second 0 0]

theorem length_zeros : zeros.length = 16384 := List.length_replicate

theorem sha1_good : shared.sha1 (zeros ++ [0]) = digest := by simp [shared]

theorem sha1_bad : shared.sha1 (zeros ++ [1]) = badDigest := by simp [shared]

/-- Once both blocks are written, the piece is judged by what it then holds. -/
theorem verifyPiece_written (d : Disk) (x : UInt8) :
    shared.storage.verifyPiece shared.sha1 ((d.writes (shared.storage.writeBlock none 0 0 zeros).1).writes
      (shared.storage.writeBlock none 0 16384 [x]).1) (fun _ => false) 0 =
      .ok (digest = shared.sha1 (zeros ++ [x])) := by
  have hfirst : (shared.storage.writeBlock none 0 0 zeros).2 = .ok () := by
    refine congrArg Prod.snd (Storage.writeBlock_fits ?_)
    rw [length_zeros]
    decide
  have hsecond : (shared.storage.writeBlock none 0 16384 [x]).2 = .ok () :=
    congrArg Prod.snd (Storage.writeBlock_fits (by show _ + 1 ≤ _; decide))
  have hbytes : ∀ j < 16385, shared.storage.byte ((d.writes
      (shared.storage.writeBlock none 0 0 zeros).1).writes
      (shared.storage.writeBlock none 0 16384 [x]).1) (shared.storage.offsetOf 0 0 + j) =
        (zeros ++ [x])[j]? := by
    intro j hj
    by_cases hlt : j < 16384
    · rw [List.getElem?_append_left (by rw [length_zeros]; exact hlt)]
      rw [List.getElem?_eq_getElem (by rw [length_zeros]; exact hlt)]
      refine Storage.byte_writeBlock_of_outside none ?_ ?_
      · rintro ⟨hlo, -⟩
        simp only [Storage.offsetOf] at hlo
        omega
      · rw [Storage.byte_writeBlock hfirst d (by rw [length_zeros]; exact hlt)]
        exact List.getElem?_eq_getElem _
    · obtain rfl : j = 16384 := by omega
      have hlast := Storage.byte_writeBlock hsecond
        (d.writes (shared.storage.writeBlock none 0 0 zeros).1) (j := 0) (by simp)
      rw [List.getElem?_append_right (by rw [length_zeros])]
      rw [length_zeros]
      exact hlast
  generalize (d.writes (shared.storage.writeBlock none 0 0 zeros).1).writes
    (shared.storage.writeBlock none 0 16384 [x]).1 = d' at hbytes ⊢
  have hlen : shared.storage.layout.pieceLen 0 = 16385 := by decide
  have hread := Storage.readPiece_exists (s := shared.storage) (d := d') fun j hj => by
    rw [hlen] at hj
    rw [hbytes j hj, List.getElem?_eq_getElem (by rw [List.length_append, length_zeros]; exact hj)]
    rfl
  obtain ⟨hcount, hbs⟩ := Storage.readPiece_ok (Nat.le_add_left _ 0) rfl (Nat.zero_le _) (by simp) hread
  have hcontent : Flat.stretch (shared.storage.flat d') (shared.storage.offsetOf 0 0)
      (shared.storage.layout.pieceLen 0) = zeros ++ [x] := by
    refine List.ext_getElem? fun j => ?_
    by_cases hj : j < 16385
    · rw [← hbs j (by rw [hlen]; exact hj), hbytes j hj]
    · rw [List.getElem?_eq_none (by rw [hcount, hlen]; omega),
        List.getElem?_eq_none (by rw [List.length_append, length_zeros]; simp; omega)]
  have hexpected : shared.storage.pieceHashes[0]? = some digest := rfl
  unfold Storage.verifyPiece
  simp only
  rw [if_neg (by rw [hlen]; decide), hexpected]
  simp only
  rw [hread, hcontent]

/-- The peer with this id, in the seat of that number, is heard. -/
def seen (id : Nat) (e : Engine) : Work :=
  { e.enter with st := e.st.modifyId id fun p => { p with lastSeen := 0 } }.modifyPeer id
    fun p => { p with opened := p.opened || true }

theorem seen_picker (id : Nat) (e : Engine) : (seen id e).st.picker = e.st.picker :=
  (modifyId_frame e.st id (f := fun p => { p with lastSeen := 0 }) fun _ => rfl).1

/-- Its block is entered. -/
def entering (id begin length : Nat) (block : Bytes) (e : Engine) : Work × Bool :=
  enterBlock id 0 begin (dest id.toUInt8) length
    (writeOwed shared (env 0) id 0 begin block (seen id e))

/-- The section ends. -/
def leave (w : Work) : Engine := ((recordSent 0 (considerRound (env 0) w)).finish []).1

/-- The peer owes the block, and sends it. -/
def Due (id begin : Nat) (e : Engine) : Prop :=
  (e.st.modifyId id fun p => { p with lastSeen := 0 }).peers.findIdx? (·.id = id) = some id ∧
    (∃ p ∈ (seen id e).st.peers[id]?, p.dest = dest id.toUInt8 ∧ (0, begin / BLOCK_LEN) ∈ p.inFlight) ∧
    (seen id e).st.picker.has 0 = false ∧
    (seen id e).st.picker.isReceived 0 (begin / BLOCK_LEN) = false ∧
    (seen id e).st.picker.toLayout = shared.storage.layout

instance (id begin : Nat) (e : Engine) : Decidable (Due id begin e) :=
  inferInstanceAs (Decidable (_ ∧ _ ∧ _ ∧ _ ∧ _))

theorem step_block {id begin : Nat} {block : Bytes} (h : Due id begin e)
    (haligned : begin % BLOCK_LEN = 0)
    (hlen : block.length = shared.storage.layout.blockLen 0 (begin / BLOCK_LEN))
    (hok : (shared.storage.writeBlock none 0 begin block).2 = .ok ()) :
    Engine.step shared (.message (env 0) id (.piece 0 begin block)) e =
      let r := entering id begin block.length block e
      leave (if r.2 then fillRequests (env 0) id (onComplete shared (env 0) 0 r.1) else r.1) := by
  obtain ⟨hfind, ⟨p, hp, hdest, howed⟩, hheld, hrec, hlayout⟩ := h
  have howed : Owed shared id 0 begin block p (seen id e) :=
    ⟨hp, haligned, by decide, hlayout ▸ hlen, howed, hheld, hrec⟩
  have hhandle : handle shared (env 0) id (.piece 0 begin block)
      { e.enter with st := e.st.modifyId id fun p => { p with lastSeen := 0 } } =
        onBlock shared (env 0) id 0 begin block (seen id e) := by
    obtain ⟨hlt, -, -⟩ := List.findIdx?_eq_some_iff_getElem.1 hfind
    unfold handle
    simp only [hfind, List.getElem?_eq_getElem hlt]
    rfl
  have hstep : Engine.step shared (.message (env 0) id (.piece 0 begin block)) e =
      leave (handle shared (env 0) id (.piece 0 begin block)
        { e.enter with st := e.st.modifyId id fun p => { p with lastSeen := 0 } }) := rfl
  rw [hstep, hhandle, onBlock_owed howed hok, hdest]
  rfl

/-- The state after the first block: nothing is judged. -/
def afterFirst (e : Engine) : Engine := leave (entering 0 0 zeros.length zeros e).1

/-- The piece is judged. -/
def judged (x : UInt8) (w : Work) : Work :=
  if x = 0 then
    let w := w.modifyPicker fun pk => pk.setHave 0
    let w := { w with st := w.st.creditSuppliers 0 }
    { w with out := w.out ++ w.st.peers.map fun p => (p.id, .have_ 0) }
  else
    let w := w.modifyPicker fun pk => pk.resetPiece 0
    { w with st := w.st.blameSuppliers 0 }

/-- The state after the second block. -/
def afterSecond (id : Nat) (x : UInt8) (e : Engine) : Engine :=
  leave (fillRequests (env 0) id (judged x (entering id 16384 1 [x] e).1))

theorem step_first (h : Due 0 0 e) (hopen : (entering 0 0 zeros.length zeros e).2 = false) :
    Engine.step shared first e = afterFirst e := by
  have hok : (shared.storage.writeBlock none 0 0 zeros).2 = .ok () := by
    refine congrArg Prod.snd (Storage.writeBlock_fits ?_)
    rw [length_zeros]
    decide
  rw [first, step_block h (by decide) (by rw [length_zeros]; decide) hok]
  simp only [hopen, Bool.false_eq_true, if_false]
  rfl

theorem disk_entering (id begin length : Nat) (block : Bytes) (e : Engine) :
    (entering id begin length block e).1.disk =
      e.disk.writes (shared.storage.writeBlock none 0 begin block).1 := by
  have hleaves := (leaves_recordBlock id (0, begin / BLOCK_LEN) (dest id.toUInt8) length
    (writeOwed shared (env 0) id 0 begin block (seen id e)) .files (by simp)).trans
    (leaves_cancelElsewhere [] id 0 begin (begin / BLOCK_LEN) _ .files (by simp))
  exact congrArg Prod.fst hleaves.books

theorem disk_leave (w : Work) : (leave w).disk = w.disk :=
  congrArg Prod.fst (leaves_after (env 0) w .files (by simp)).books

/-- The second block comes after the first. -/
theorem step_second {id : Nat} {x : UInt8} (hx : x = 0 ∨ x = 1)
    (h : Due id 16384 (afterFirst e))
    (hdone : (entering id 16384 1 [x] (afterFirst e)).2 = true) :
    Engine.step shared (second id x) (afterFirst e) = afterSecond id x (afterFirst e) := by
  have hok : (shared.storage.writeBlock none 0 16384 [x]).2 = .ok () :=
    congrArg Prod.snd (Storage.writeBlock_fits (by show _ + 1 ≤ _; decide))
  have hverdict := verifyPiece_written e.disk x
  rw [← disk_entering 0 0 zeros.length zeros e, ← disk_leave, ← disk_entering id 16384 1 [x]] at hverdict
  rw [second, step_block h (by decide) (by show 1 = _; decide) hok]
  simp only [List.length_singleton, hdone, if_true]
  unfold afterSecond judged onComplete
  have hjudged : shared.storage.verifyPiece shared.sha1 (entering id 16384 1 [x] (afterFirst e)).1.disk
      (env 0).readFault 0 = _ := hverdict
  rw [hjudged]
  rcases hx with rfl | rfl
  · simp only [sha1_good, decide_true, if_true]
  · have hbad : decide (digest = badDigest) = false := by decide
    have hne : ¬ (1 : UInt8) = 0 := by decide
    simp only [sha1_bad, hbad, if_neg hne]

/-- A round can be played: the first peer owes the first block and this one the second. -/
def Round (id : Nat) (x : UInt8) (e : Engine) : Prop :=
  Due 0 0 e ∧ (entering 0 0 zeros.length zeros e).2 = false ∧ ¬ Finishes e.st.picker 0 0 ∧
    Due id 16384 (afterFirst e) ∧ (entering id 16384 1 [x] (afterFirst e)).2 = true ∧
    Finishes (afterFirst e).st.picker 0 1 ∧
    ∃ p ∈ (afterFirst e).st.peers.find? (·.id = id), (0, 1) ∈ p.inFlight ∧
      { (afterFirst e).st with suppliers := (afterFirst e).st.suppliers.insert (0, 1) p.dest
        }.suppliersOf 0 (List.range ((afterFirst e).st.picker.blocksInPiece 0)) =
          [dest 0, dest id.toUInt8]

theorem verdicts_first (h : ¬ Finishes e.st.picker 0 0) : Event.verdicts shared first e = [] := by
  have hnot : ∀ peer, ¬ Completing shared (env 0) 0 0 zeros peer e.st.picker :=
    fun peer hc => h hc.2.2.2.2.2
  unfold first Event.verdicts
  cases hfind : e.st.peers.find? (·.id = 0) with
  | none => simp only [hfind]
  | some peer => simp only [hfind, if_neg (hnot peer)]

theorem verdicts_second {id : Nat} {x : UInt8} (h : Round id x e) :
    Event.verdicts shared (second id x) (afterFirst e) =
      [⟨digest = shared.sha1 (zeros ++ [x]), [dest 0, dest id.toUInt8]⟩] := by
  obtain ⟨-, -, -, ⟨-, -, -, -, hlayout⟩, -, hfin, p, hp, howed, hsupplied⟩ := h
  have hok : (shared.storage.writeBlock none 0 16384 [x]).2 = .ok () :=
    congrArg Prod.snd (Storage.writeBlock_fits (by show _ + 1 ≤ _; decide))
  have hlen : 1 = (afterFirst e).st.picker.blockLen 0 1 := by
    show 1 = (afterFirst e).st.picker.toLayout.blockLen 0 1
    rw [← seen_picker id, hlayout]
    decide
  have hcompleting : Completing shared (env 0) 0 16384 [x] p (afterFirst e).st.picker :=
    ⟨by decide, by decide, hlen, howed, hok, hfin⟩
  have hjudged : judgement shared (env 0) 0 16384 [x] (afterFirst e).disk =
      .ok (digest = shared.sha1 (zeros ++ [x])) := by
    have hverdict := verifyPiece_written e.disk x
    rw [← disk_entering 0 0 zeros.length zeros e, ← disk_leave] at hverdict
    exact hverdict
  have hfind : (afterFirst e).st.peers.find? (·.id = id) = some p := hp
  have hblock : 16384 / BLOCK_LEN = 1 := by decide
  rw [second, Event.verdicts_of_completing hfind hcompleting hjudged, hblock, hsupplied]

theorem run_round {id : Nat} {x : UInt8} (hx : x = 0 ∨ x = 1) (h : Round id x e)
    (rest : List Event) :
    Engine.run shared (first :: second id x :: rest) e =
        Engine.run shared rest (afterSecond id x (afterFirst e)) ∧
      Machine.logs (Engine.step shared) (Event.verdicts shared) (first :: second id x :: rest) e =
        ⟨digest = shared.sha1 (zeros ++ [x]), [dest 0, dest id.toUInt8]⟩ ::
          Machine.logs (Engine.step shared) (Event.verdicts shared) rest
            (afterSecond id x (afterFirst e)) := by
  have hfirst := step_first h.1 h.2.1
  have hsecond := step_second hx h.2.2.2.1 h.2.2.2.2.1
  constructor
  · simp only [Engine.run, Machine.run_cons, hfirst, hsecond]
  · rw [Machine.logs, Machine.logs, verdicts_first h.2.2.1, hfirst, verdicts_second h, hsecond]
    rfl

instance (id : Nat) (x : UInt8) (e : Engine) : Decidable (Round id x e) :=
  inferInstanceAs (Decidable (_ ∧ _ ∧ _ ∧ _ ∧ _ ∧ _ ∧ _))

/-- The state before each round. -/
def before : Nat → Engine
  | 0 => Engine.run shared joined start
  | n + 1 => (maintain (env 0) (afterSecond 1 1 (afterFirst (before n)))).1

theorem rounds : Round 1 1 (before 0) ∧ Round 1 1 (before 1) ∧ Round 0 0 (before 2) := by
  decide +kernel

/-- A round that fails, and the tick after it. -/
theorem run_failed {n : Nat} (h : Round 1 1 (before n)) (rest : List Event) :
    Engine.run shared (first :: second 1 1 :: .maintain (env 0) :: rest) (before n) =
        Engine.run shared rest (before (n + 1)) ∧
      Machine.logs (Engine.step shared) (Event.verdicts shared)
          (first :: second 1 1 :: .maintain (env 0) :: rest) (before n) =
        ⟨false, [dest 0, dest 1]⟩ ::
          Machine.logs (Engine.step shared) (Event.verdicts shared) rest (before (n + 1)) := by
  have hbad : decide (digest = shared.sha1 (zeros ++ [1])) = false := by
    rw [sha1_bad]
    decide
  obtain ⟨hrun, hlogs⟩ := run_round (.inr rfl) h (.maintain (env 0) :: rest)
  constructor
  · rw [hrun, Engine.run, Machine.run_cons]
    rfl
  · rw [hlogs, hbad, Machine.logs]
    rfl

/-- Two rounds fail, the third verifies, and the first peer supplied both its blocks. -/
theorem run_forgiving :
    Engine.run shared forgiving start = afterSecond 0 0 (afterFirst (before 2)) ∧
      Machine.logs (Engine.step shared) (Event.verdicts shared) forgiving start =
        [⟨false, [dest 0, dest 1]⟩, ⟨false, [dest 0, dest 1]⟩, ⟨true, [dest 0, dest 0]⟩] := by
  have hgood : decide (digest = shared.sha1 (zeros ++ [0])) = true := by
    rw [sha1_good]
    decide
  obtain ⟨hfirst, hsecond, hthird⟩ := rounds
  obtain ⟨hrun₁, hlogs₁⟩ := run_failed hfirst
    [first, second 1 1, .maintain (env 0), first, second 0 0]
  obtain ⟨hrun₂, hlogs₂⟩ := run_failed hsecond [first, second 0 0]
  obtain ⟨hrun₃, hlogs₃⟩ := run_round (.inl rfl) hthird []
  constructor
  · rw [forgiving, Engine.run, Machine.run_append]
    exact (hrun₁.trans hrun₂).trans hrun₃
  · have hjoined : Machine.logs (Engine.step shared) (Event.verdicts shared) joined start = [] := rfl
    rw [forgiving, Machine.logs_append, hjoined, List.nil_append]
    refine (hlogs₁.trans (congrArg _ (hlogs₂.trans (congrArg _ hlogs₃)))).trans ?_
    rw [hgood]
    rfl

end TwoBlocks

/-- A piece that verifies takes off more than one failure: two pieces failed with the first peer's
help and one verified, and the state says none. -/
theorem suspicion_forgives_twice :
    let e := Engine.run TwoBlocks.shared TwoBlocks.forgiving TwoBlocks.start
    OneByte.dest 0 ∉ e.st.banned ∧ e.st.suspected (OneByte.dest 0) = 0 ∧
      tally (Machine.logs (Engine.step TwoBlocks.shared) (Event.verdicts TwoBlocks.shared)
        TwoBlocks.forgiving TwoBlocks.start) (OneByte.dest 0) = 1 := by
  rw [TwoBlocks.run_forgiving.1, TwoBlocks.run_forgiving.2]
  refine ⟨?_, ?_, ?_⟩
  · decide +kernel
  · decide +kernel
  · decide

end Clove.Torrent
