import Clove.ExtensionRoundTrip
import Clove.WireRoundTrip
import Clove.Torrent.Accounting
import Clove.Torrent.Delivery
import Clove.Torrent.Slots

/-!
# What a torrent sends

Every message a critical section collects is one that another clove accepts: a request or a
block lies within its piece, an announced piece exists, and an extended message carries a peer
exchange or a metadata reply that its own parser takes.  None of them is a piece set; the only
piece set a peer is sent opens its queue.
-/

namespace Clove.Torrent

open Wire (BLOCK_LEN BlockRequest Message)
open Metadata (MetadataMessage METADATA_PIECE_LEN)

/-! ## Proper messages -/

/-- A range of at most a block that lies within its piece. -/
def InPiece (sh : Shared) (index begin length : Nat) : Prop :=
  index < sh.numPieces ∧ begin + length ≤ sh.storage.layout.pieceLen index ∧ length ≤ BLOCK_LEN

/-- The payload of a peer exchange with few enough peers. -/
def IsPex (payload : Bytes) : Prop :=
  ∃ m : Pex.PexMessage, payload = m.encode ∧ m.added.length + m.dropped.length ≤ Pex.MAX_PEX_PEERS

/-- The payload of a metadata message with at most a piece of bytes. -/
def IsMetadata (payload : Bytes) : Prop :=
  ∃ m : MetadataMessage, payload = m.encode ∧ m.Typed ∧ m.trailer.length ≤ METADATA_PIECE_LEN

/-- What a critical section may send. -/
def Proper (sh : Shared) : Message → Prop
  | .keepAlive => True
  | .choke => True
  | .unchoke => True
  | .interested => True
  | .notInterested => True
  | .have_ index => index < sh.numPieces
  | .request b => InPiece sh b.index b.begin b.length
  | .cancel b => InPiece sh b.index b.begin b.length
  | .piece index begin block => InPiece sh index begin block.length
  | .extended id payload => id ≠ 0 ∧ (IsPex payload ∨ IsMetadata payload)
  | _ => False

/-- No peer listens for an extension on the id of the extension handshake. -/
def Named (st : State) : Prop := ∀ p ∈ st.peers, p.pexId ≠ some 0 ∧ p.metadataId ≠ some 0

/-- What has been collected is proper. -/
structure Polite (sh : Shared) (w : Work) : Prop where
  out : ∀ o ∈ w.out, Proper sh o.2
  named : Named w.st

/-- The picker is cut as the storage is. -/
structure Cut (sh : Shared) (pk : Picker) : Prop where
  wf : pk.WF
  layout : pk.toLayout = sh.storage.layout

variable {sh : Shared} {w w' : Work} {e : Engine} {s s' : System}

theorem Balanced.cut {extra : List BlockKey} (h : Balanced sh w extra) : Cut sh w.st.picker :=
  ⟨h.acc.wf, h.layout⟩

theorem Cut.failAll {pk : Picker} (h : Cut sh pk) (keys : List BlockKey) :
    Cut sh (failAll pk keys) := by
  unfold Torrent.failAll
  induction keys generalizing pk with
  | nil => exact h
  | cons k keys ih =>
      exact ih ⟨h.wf.blockFailed k.1 k.2, (Picker.haveField_blockFailed pk k.1 k.2).2.trans h.layout⟩

/-- A block of a piece lies within it. -/
theorem inPiece_of_block {index block : Nat} (hi : index < sh.numPieces)
    (hb : block < sh.storage.layout.blocksInPiece index) :
    InPiece sh index (block * BLOCK_LEN) (sh.storage.layout.blockLen index block) := by
  have hlen := Picker.blockLen_eq hb
  have hpos : 0 < BLOCK_LEN := by decide
  refine ⟨hi, ?_, hlen ▸ min_le_right _ _⟩
  have hstart : block * BLOCK_LEN < sh.storage.layout.pieceLen index := by
    unfold Layout.blocksInPiece at hb
    have := (Nat.le_div_iff_mul_le hpos).1 hb
    rw [Nat.succ_mul] at this
    omega
  rw [hlen]
  omega

namespace Polite

theorem push (h : Polite sh w) (id : Nat) {m : Message} (hm : Proper sh m) :
    Polite sh (w.push id m) := by
  refine ⟨fun o ho => ?_, h.named⟩
  rcases List.mem_append.1 ho with ho | ho
  · exact h.out o ho
  · rw [List.mem_singleton.1 ho]
    exact hm

theorem modifyPeer (h : Polite sh w) {f : Peer → Peer}
    (hf : ∀ p, (f p).pexId = p.pexId ∧ (f p).metadataId = p.metadataId) (idx : Nat) :
    Polite sh (w.modifyPeer idx f) := by
  refine ⟨h.out, fun p hp => ?_⟩
  rcases Lists.mem_modify hp with hp | ⟨q, hq, rfl⟩
  · exact h.named p hp
  · rw [(hf q).1, (hf q).2]
    exact h.named q (List.mem_of_getElem? hq)

theorem mapPeers (h : Polite sh w) {f : Peer → Peer}
    (hf : ∀ p, (f p).pexId = p.pexId ∧ (f p).metadataId = p.metadataId) :
    Polite sh { w with st := { w.st with peers := w.st.peers.map f } } := by
  refine ⟨h.out, fun p hp => ?_⟩
  obtain ⟨q, hq, rfl⟩ := List.mem_map.1 hp
  rw [(hf q).1, (hf q).2]
  exact h.named q hq

/-- A change of the state outside the table. -/
theorem state (h : Polite sh w) {t : State} (hpeers : t.peers = w.st.peers) :
    Polite sh { w with st := t } :=
  ⟨h.out, fun p hp => h.named p (hpeers ▸ hp)⟩

theorem modifyId (h : Polite sh w) {f : Peer → Peer}
    (hf : ∀ p, (f p).pexId = p.pexId ∧ (f p).metadataId = p.metadataId) (id : Nat) :
    Polite sh { w with st := w.st.modifyId id f } := by
  unfold State.modifyId
  split
  · exact h.modifyPeer hf _
  · exact h

theorem foldl {α : Type} {f : Work → α → Work} (hf : ∀ w a, Polite sh w → Polite sh (f w a))
    (l : List α) (h : Polite sh w) : Polite sh (l.foldl f w) := by
  induction l generalizing w with
  | nil => exact h
  | cons a l ih => exact ih (hf w a h)

end Polite

/-! ## Requests -/

/-- What is asked for was picked. -/
theorem mem_asked {now : Nat} {reqs : List BlockRequest} {f : Filling} {r : BlockRequest}
    (hr : r ∈ (reqs.foldl (askFor now) f).asked) : r ∈ f.asked ∨ r ∈ reqs := by
  induction reqs generalizing f with
  | nil => exact .inl hr
  | cons q reqs ih =>
      rcases ih hr with hr | hr
      · unfold askFor at hr
        simp only at hr
        split at hr
        · exact .inl hr
        · rcases List.mem_append.1 hr with hr | hr
          · exact .inl hr
          · rw [List.mem_singleton.1 hr]
            exact .inr List.mem_cons_self
      · exact .inr (List.mem_cons_of_mem _ hr)

theorem polite_fillRequests (env : Env) (idx : Nat) (hcut : Cut sh w.st.picker)
    (h : Polite sh w) : Polite sh (fillRequests env idx w) := by
  unfold fillRequests
  split
  · exact h
  · rename_i peer hidx
    split
    · exact h
    · simp only
      split
      · exact h
      · have hmarked := h.modifyPeer (f := fun p => { p with inFlight :=
          ((w.st.picker.pick peer.has (PIPELINE_DEPTH - peer.inFlight.keys.length)).2.foldl
            (askFor (env.fillNow idx)) ⟨peer.inFlight, [], []⟩).inFlight })
          (fun _ => ⟨rfl, rfl⟩) idx
        have hpicks := Picker.picks_pick hcut.wf peer.has
          (PIPELINE_DEPTH - peer.inFlight.keys.length)
        refine ⟨fun o ho => ?_, hmarked.named⟩
        rcases List.mem_append.1 ho with ho | ho
        · exact h.out o ho
        · obtain ⟨req, hreq, rfl⟩ := List.mem_map.1 ho
          have hasked := hpicks.asked req ((mem_asked hreq).resolve_left (by simp))
          obtain ⟨htrack, block, hblock, hbegin, hlen, -⟩ := hasked
          have hi : req.index < sh.numPieces := by
            rw [Shared.numPieces, ← hcut.layout]
            exact of_decide_eq_true (Bool.and_eq_true_iff.1 htrack).1
          rw [hcut.layout] at hblock hlen
          show InPiece sh req.index req.begin req.length
          rw [hbegin, hlen]
          exact inPiece_of_block hi hblock


theorem polite_cancelAt {idx index begin blockNo : Nat} (other : Nat)
    (hbal : Balanced sh w [(index, blockNo)]) (hbegin : begin = blockNo * BLOCK_LEN)
    (h : Polite sh w) :
    Polite sh (cancelAt idx index begin blockNo (sh.storage.layout.blockLen index blockNo) w
      other) := by
  unfold cancelAt
  split
  · exact h
  · split
    · exact h
    · rename_i peer _
      split
      · have hreleased := h.modifyPeer (f := fun p =>
          { p with inFlight := p.inFlight.erase (index, blockNo) }) (fun _ => ⟨rfl, rfl⟩) other
        -- the block is counted, so its piece has it
        obtain ⟨htrack, hblock⟩ := hbal.acc.wf.of_inFlightOf_pos hbal.acc.inFlightOf_pos
        have hi : index < sh.numPieces := by
          rw [Shared.numPieces, ← hbal.layout]
          exact of_decide_eq_true (Bool.and_eq_true_iff.1 htrack).1
        rw [hbal.layout] at hblock
        refine Polite.push (w := (w.modifyPeer other _).modifyPicker _)
          ⟨hreleased.out, hreleased.named⟩ peer.id ?_
        show InPiece sh index begin _
        rw [hbegin]
        exact inPiece_of_block hi hblock
      · exact h

theorem polite_cancelElsewhere (idx : Nat) {index begin blockNo : Nat}
    (hbal : Balanced sh w [(index, blockNo)]) (hbegin : begin = blockNo * BLOCK_LEN)
    (h : Polite sh w) : Polite sh (cancelElsewhere idx index begin blockNo w) := by
  unfold cancelElsewhere
  rw [hbal.layout]
  have hloop : ∀ (l : List Nat) (w : Work), Balanced sh w [(index, blockNo)] → Polite sh w →
      Polite sh (l.foldl (cancelAt idx index begin blockNo
        (sh.storage.layout.blockLen index blockNo)) w) := by
    intro l
    induction l with
    | nil => exact fun w _ h => h
    | cons other l ih =>
        exact fun w hbal h => ih _ (balanced_cancelAt other hbal) (polite_cancelAt other hbal hbegin h)
  exact hloop _ w hbal h

theorem polite_maintainRequests (env : Env) {s : Work × List (Nat × Bool)}
    (hbal : Balanced sh s.1 []) (h : Polite sh s.1) : Polite sh (maintainRequests env s).1 := by
  unfold maintainRequests
  generalize List.range s.1.st.peers.length = l
  induction l generalizing s with
  | nil => exact h
  | cons idx l ih =>
      refine ih (balanced_maintainPeer env idx hbal) ?_
      unfold maintainPeer
      split
      · exact h
      · rename_i peer _
        simp only
        split
        · exact polite_fillRequests env idx hbal.cut h
        · have hlate := h.modifyPeer (f := fun p => { p with
            inFlight := (expired s.1.st env.now peer).foldl (fun m k => m.erase k) p.inFlight
            strikes := p.strikes + 1 }) (fun _ => ⟨rfl, rfl⟩) idx
          split
          · exact ⟨hlate.out, hlate.named⟩
          · refine polite_fillRequests env idx ?_ ⟨hlate.out, hlate.named⟩
            exact hbal.cut.failAll _

/-! ## Choking and interest -/

theorem polite_setChoke (choke : Bool) (w : Work) (id : Nat) (h : Polite sh w) :
    Polite sh (setChoke choke w id) := by
  unfold setChoke
  split
  · exact h
  · have hmarked := h.modifyPeer (f := fun p => { p with weChoke := choke }) (fun _ => ⟨rfl, rfl⟩)
    refine (hmarked _).push id ?_
    cases choke <;> exact trivial

theorem polite_runChoker (h : Polite sh w) : Polite sh (runChoker w) := by
  unfold runChoker
  simp only
  have hround := (h.mapPeers (f := fun p =>
    { p with uploadedAtRound := p.uploaded, downloadedAtRound := p.downloaded })
    fun _ => ⟨rfl, rfl⟩).state (t := { w.st with
      peers := w.st.peers.map fun p =>
        { p with uploadedAtRound := p.uploaded, downloadedAtRound := p.downloaded }
      choker := (w.st.choker.plan (w.st.peers.map (snapshot w.st.picker.isComplete))).1 }) rfl
  exact Polite.foldl (polite_setChoke true) _ (Polite.foldl (polite_setChoke false) _ hround)

theorem polite_considerRound (env : Env) (h : Polite sh w) : Polite sh (considerRound env w) := by
  unfold considerRound
  split
  · exact polite_runChoker (h.state rfl)
  · exact h

theorem polite_recordSent (now : Nat) (h : Polite sh w) : Polite sh (recordSent now w) := by
  have hfold : ∀ (out : List Outgoing) (st : State), Named st → Named (out.foldl
      (fun (st : State) (o : Outgoing) => st.modifyId o.1 fun p => { p with lastSent := now }) st) := by
    intro out
    induction out with
    | nil => exact fun st h => h
    | cons o out ih =>
        intro st hst
        have hbefore : Polite sh { w with st := st, out := [] } := ⟨by simp, hst⟩
        exact ih _ (hbefore.modifyId (f := fun p => { p with lastSent := now })
          (fun _ => ⟨rfl, rfl⟩) o.1).named
  exact ⟨h.out, hfold w.out w.st h.named⟩

theorem polite_updateInterest (env : Env) (idx : Nat) (hcut : Cut sh w.st.picker)
    (h : Polite sh w) : Polite sh (updateInterest env idx w) := by
  unfold updateInterest
  split
  · exact h
  · rename_i peer _
    simp only
    split
    · have hsaid := (h.modifyPeer (f := fun p => { p with weInterested := true })
        (fun _ => ⟨rfl, rfl⟩) idx).push peer.id (m := .interested) trivial
      split
      · exact hsaid
      · exact polite_fillRequests env idx hcut hsaid
    · split
      · exact (h.modifyPeer (f := fun p => { p with weInterested := false })
          (fun _ => ⟨rfl, rfl⟩) idx).push peer.id (m := .notInterested) trivial
      · exact h

theorem polite_onInterested (idx : Nat) (h : Polite sh w) : Polite sh (onInterested idx w) := by
  have hmarked := h.modifyPeer (f := fun p => { p with theyInterested := true })
    (fun _ => ⟨rfl, rfl⟩) idx
  unfold onInterested
  simp only
  split
  · exact polite_runChoker hmarked
  · exact hmarked

theorem polite_onNotInterested (idx : Nat) (h : Polite sh w) :
    Polite sh (onNotInterested idx w) := by
  unfold onNotInterested
  split
  · exact h
  · rename_i peer _
    have hmarked := h.modifyPeer (f := fun p => { p with theyInterested := false })
      (fun _ => ⟨rfl, rfl⟩) idx
    simp only
    split
    · exact hmarked
    · exact (hmarked.modifyPeer (f := fun p => { p with weChoke := true })
        (fun _ => ⟨rfl, rfl⟩) idx).push peer.id (m := .choke) trivial

theorem polite_onChoke (idx : Nat) (h : Polite sh w) : Polite sh (onChoke idx w) := by
  unfold onChoke
  split
  · exact h
  · have hmarked := h.modifyPeer (f := fun p => { p with peerChoking := true, inFlight := ∅ })
      (fun _ => ⟨rfl, rfl⟩) idx
    exact ⟨hmarked.out, hmarked.named⟩

/-! ## Piece sets -/

theorem polite_replacePieceSet (idx : Nat) (field : Bitfield) (h : Polite sh w) :
    Polite sh (replacePieceSet idx field w) := by
  unfold replacePieceSet
  split
  · exact h
  · have hmarked := h.modifyPeer (f := fun p => { p with has := field }) (fun _ => ⟨rfl, rfl⟩) idx
    exact ⟨hmarked.out, hmarked.named⟩

theorem Cut.replacePieceSet (h : Cut sh w.st.picker) (idx : Nat) (field : Bitfield) :
    Cut sh (replacePieceSet idx field w).st.picker := by
  unfold Torrent.replacePieceSet
  split
  · exact h
  · rename_i peer _
    exact ⟨(Picker.sameAccounting_addBitfield _ field).wf
      ((Picker.sameAccounting_removeBitfield _ peer.has).wf h.wf), h.layout⟩

theorem polite_onHave (env : Env) (idx piece : Nat) (hcut : Cut sh w.st.picker)
    (h : Polite sh w) : Polite sh (onHave sh env idx piece w) := by
  unfold onHave
  split
  · exact h
  · split
    · have hmarked := h.modifyPeer (f := fun p => { p with has := p.has.set piece })
        (fun _ => ⟨rfl, rfl⟩) idx
      have hsame := Picker.sameAccounting_addSingle w.st.picker piece
      exact polite_updateInterest env idx ⟨hsame.wf hcut.wf, hsame.toLayout.trans hcut.layout⟩
        ⟨hmarked.out, hmarked.named⟩
    · exact h

/-! ## Blocks -/

theorem polite_onComplete (env : Env) {index : Nat} (hi : index < sh.numPieces)
    (h : Polite sh w) : Polite sh (onComplete sh env index w) := by
  unfold onComplete
  split
  · have hcredit := (State.untouched_creditSuppliers
      (w.modifyPicker fun pk => pk.setHave index).st index).peers
    have hjudged := h.state (t := (w.modifyPicker fun pk => pk.setHave index).st.creditSuppliers
      index) hcredit
    refine ⟨fun o ho => ?_, hjudged.named⟩
    rcases List.mem_append.1 ho with ho | ho
    · exact h.out o ho
    · obtain ⟨p, -, rfl⟩ := List.mem_map.1 ho
      exact hi
  · have hblame := (State.untouched_blameSuppliers
      (w.modifyPicker fun pk => pk.resetPiece index).st index).peers
    exact h.state (t := (w.modifyPicker fun pk => pk.resetPiece index).st.blameSuppliers index) hblame
  · exact h.state rfl

theorem polite_onOwedBlock (env : Env) (idx : Nat) {index begin : Nat} (block : Bytes) (dest : DestHash)
    (hi : index < sh.numPieces) (hbegin : begin % BLOCK_LEN = 0)
    (hbal : Balanced sh w [(index, begin / BLOCK_LEN)]) (h : Polite sh w) :
    Polite sh (onOwedBlock sh env idx index begin block dest w).1 := by
  have hstart : begin = begin / BLOCK_LEN * BLOCK_LEN :=
    (Nat.div_mul_cancel (Nat.dvd_of_mod_eq_zero hbegin)).symm
  unfold onOwedBlock
  simp only
  split
  · exact ⟨h.out, h.named⟩
  · split
    · exact ⟨h.out, h.named⟩
    · unfold onWritten
      simp only
      have hwrote := hbal.write (w.disk.writes (sh.storage.writeBlock env.writeFault index begin block).1)
        (sh.storage.offsetOf index begin) block.length w.st.picker.haveField
        (sh.storage.writeBlock env.writeFault index begin block).1
      have hrecorded := (Polite.mk (w := { w with
          disk := w.disk.writes (sh.storage.writeBlock env.writeFault index begin block).1
          trace := w.trace ++ [.write (sh.storage.offsetOf index begin) block.length
            w.st.picker.haveField (sh.storage.writeBlock env.writeFault index begin block).1] })
        h.out h.named).modifyPeer (f := fun p => { p with downloaded := p.downloaded + block.length })
          (fun _ => ⟨rfl, rfl⟩) idx
      have hcancelled := polite_cancelElsewhere idx
        (hwrote.idle (idle_recordBlock idx (index, begin / BLOCK_LEN) dest block.length _)) hstart
        ⟨hrecorded.out, hrecorded.named⟩
      split
      · exact polite_onComplete env hi ⟨hcancelled.out, hcancelled.named⟩
      · exact ⟨hcancelled.out, hcancelled.named⟩

theorem polite_onBlock (env : Env) (idx index begin : Nat) (block : Bytes)
    (hbal : Balanced sh w []) (h : Polite sh w) :
    Polite sh (onBlock sh env idx index begin block w) := by
  rcases onBlock_cases sh env idx index begin block w with heq | ⟨peer, hidx, hbegin, hi, -, hcase⟩
  · rw [heq]
    exact h
  · have htaken : ∀ requested, Polite sh (takeOwed idx (index, begin / BLOCK_LEN) requested w) :=
      fun requested => h.modifyPeer (f := fun p => { p with
        inFlight := p.inFlight.erase (index, begin / BLOCK_LEN)
        strikes := if requested then 0 else p.strikes }) (fun _ => ⟨rfl, rfl⟩) idx
    rcases hcase with ⟨-, heq⟩ | ⟨-, -, heq⟩ | ⟨hreq, -, r, hr, heq⟩
    · rw [heq]
      exact polite_fillRequests env idx hbal.cut (htaken false)
    · rw [heq]
      exact polite_fillRequests env idx hbal.cut (htaken true)
    · obtain ⟨howed, hclear⟩ := balanced_takeOwed hbal hidx hreq
      have hdone := polite_onOwedBlock env idx block peer.dest hi hbegin howed (htaken true)
      rw [heq, hr]
      split
      · exact polite_fillRequests env idx
          (balanced_onOwedBlock env block peer.dest hi howed hclear).cut hdone
      · exact hdone

theorem polite_serveRequest (env : Env) (idx : Nat) (req : BlockRequest)
    (hcut : Cut sh w.st.picker) (hlen : w.st.picker.haveField.len = sh.numPieces)
    (h : Polite sh w) : Polite sh (serveRequest sh env idx req w) := by
  unfold serveRequest
  split
  · exact h
  · rename_i peer _
    split
    · exact h
    · rename_i hserve
      split
      · exact h
      · rename_i data hread
        simp only [Bool.or_eq_true, decide_eq_true_eq, Bool.not_eq_true', not_or, not_lt,
          Bool.not_eq_true, Bool.not_eq_false] at hserve
        obtain ⟨⟨⟨⟨-, -⟩, hblock⟩, hwithin⟩, hhas⟩ := hserve
        obtain ⟨hdata, -⟩ := Storage.readBlock_ok hread
        have hserved := (Polite.mk (w := { w with uploaded := w.uploaded + data.length })
          h.out h.named).modifyPeer (f := fun p => { p with uploaded := p.uploaded + data.length })
            (fun _ => ⟨rfl, rfl⟩) idx
        refine hserved.push peer.id ⟨hlen ▸ Bitfield.lt_of_has hhas, ?_, hdata ▸ hblock⟩
        rw [hdata, ← hcut.layout]
        exact hwithin

/-! ## Extended messages -/

theorem polite_sendPex (env : Env) (idx : Nat) (h : Polite sh w) :
    Polite sh (sendPex env idx w) := by
  unfold sendPex
  split
  · exact h
  · rename_i peer hidx
    split
    · exact h
    · rename_i pexId hpex
      simp only
      split
      · exact h
      · refine h.push peer.id ⟨?_, .inl ⟨_, rfl, ?_⟩⟩
        · rintro rfl
          exact (h.named peer (List.mem_of_getElem? hidx)).1 hpex
        · simp

theorem polite_serveMetadata {piece : Nat} (idx : Nat) (hpiece : piece ≤ U32_MAX)
    (h : Polite sh w) : Polite sh (serveMetadata sh idx piece w) := by
  unfold serveMetadata
  split
  · exact h
  · rename_i peer hidx
    split
    · exact h
    · rename_i metadataId hmeta
      have hcounted := h.modifyPeer (f := fun p =>
        { p with metadataRequests := p.metadataRequests + 1 }) (fun _ => ⟨rfl, rfl⟩) idx
      refine hcounted.push peer.id ⟨?_, .inr ⟨_, rfl, ?_⟩⟩
      · rintro rfl
        exact (h.named peer (List.mem_of_getElem? hidx)).2 hmeta
      · unfold metadataReply
        split
        · exact ⟨⟨hpiece, min_le_right _ _⟩, by simp [MetadataMessage.trailer]⟩
        · exact ⟨hpiece, Nat.zero_le _⟩

theorem polite_learn (env : Env) (w : Work) (dest : DestHash) (h : Polite sh w) :
    Polite sh (learn env w dest) := by
  have hpeers := (State.untouched_rememberPeerFrom w.st env.rank dest .pex).peers
  unfold learn
  simp only
  split
  · exact h.state hpeers
  · exact h.state hpeers

theorem polite_onExtended (env : Env) (idx : Nat) (extId : UInt8) (payload : Bytes)
    (h : Polite sh w) : Polite sh (onExtended sh env idx extId payload w) := by
  unfold onExtended
  split
  · split
    · exact h
    · rename_i hs hparse
      have hlistening : Polite sh (w.modifyPeer idx fun p =>
          { p with pexId := hs.idFor Extension.I2P_PEX
                   metadataId := hs.idFor Extension.UT_METADATA }) := by
        refine ⟨h.out, fun p hp => ?_⟩
        rcases Lists.mem_modify hp with hp | ⟨q, -, rfl⟩
        · exact h.named p hp
        · exact ⟨Extension.Handshake.idFor_ne_zero hparse _, Extension.Handshake.idFor_ne_zero hparse _⟩
      simp only
      split
      · exact hlistening
      · exact polite_sendPex env idx hlistening
  · split
    · split
      · exact h
      · split
        · exact h
        · exact Polite.foldl (polite_learn env) _ h
    · split
      · split
        · rename_i piece hparse
          exact polite_serveMetadata idx (MetadataMessage.typed_of_parse hparse) h
        · exact h
      · exact h

/-! ## Messages -/

theorem polite_dispatch (env : Env) (idx id : Nat) (first fast : Bool) (msg : Message)
    (hbal : Balanced sh w []) (hfit : Fits sh w) (h : Polite sh w) :
    Polite sh (dispatch sh env idx id first fast msg w) := by
  have hviolation : Polite sh (violation id w) := h.state rfl
  have hreplace : ∀ field, Polite sh (updateInterest env idx (replacePieceSet idx field w)) :=
    fun field => polite_updateInterest env idx (hbal.cut.replacePieceSet idx field)
      (polite_replacePieceSet idx field h)
  unfold dispatch
  cases msg with
  | keepAlive => exact h
  | cancel _ => exact h
  | rejectRequest _ =>
      simp only
      split
      · exact h
      · exact hviolation
  | suggestPiece _ =>
      simp only
      split
      · exact h
      · exact hviolation
  | allowedFast _ =>
      simp only
      split
      · exact h
      · exact hviolation
  | extended extId payload => exact polite_onExtended env idx extId payload h
  | choke => exact polite_onChoke idx h
  | unchoke =>
      exact polite_fillRequests env idx hbal.cut
        (h.modifyPeer (f := fun p => { p with peerChoking := false }) (fun _ => ⟨rfl, rfl⟩) idx)
  | interested => exact polite_onInterested idx h
  | notInterested => exact polite_onNotInterested idx h
  | have_ piece => exact polite_onHave env idx piece hbal.cut h
  | bitfield bytes =>
      simp only
      split
      · split
        · exact hreplace _
        · exact hviolation
      · exact hviolation
  | haveAll =>
      simp only
      split
      · exact hreplace _
      · exact hviolation
  | haveNone =>
      simp only
      split
      · exact hreplace _
      · exact hviolation
  | request req => exact polite_serveRequest env idx req hbal.cut hfit.len h
  | piece index begin block => exact polite_onBlock env idx index begin block hbal h

theorem polite_handle (env : Env) (id : Nat) (msg : Message) (hbal : Balanced sh w [])
    (hfit : Fits sh w) (h : Polite sh w) : Polite sh (handle sh env id msg w) := by
  unfold handle
  split
  · exact h
  · rename_i idx _
    split
    · exact h
    · have hopened := h.modifyPeer (f := fun p => { p with opened := p.opened || opens msg })
        (fun _ => ⟨rfl, rfl⟩) idx
      exact polite_dispatch env idx id _ _ msg
        (hbal.idle (idle_modifyPeer (by intro _; rfl) w idx)) ⟨hfit.layout, hfit.len⟩ hopened

theorem polite_tickPeers (env : Env) (keepalive timeout : Nat) (l : List Peer)
    (s : Work × List (Nat × Bool)) (h : Polite sh s.1) :
    Polite sh (l.foldl (tickPeer env keepalive timeout) s).1 := by
  induction l generalizing s with
  | nil => exact h
  | cons p l ih =>
      refine ih _ ?_
      unfold tickPeer
      split
      · exact h
      · split
        · exact h.push p.id (m := .keepAlive) trivial
        · exact h

/-! ## Critical sections -/

/-- A torrent between critical sections. -/
structure Engine.Mannered (sh : Shared) (e : Engine) : Prop where
  accounts : e.Accounts sh
  seated : e.Seated sh
  named : Named e.st

/-- Handling a message sends what is proper. -/
theorem proper_onMessage (env : Env) (id : Nat) (msg : Message) (h : e.Mannered sh) :
    (∀ o ∈ (onMessage sh env id msg e).2.sends, Proper sh o.2) ∧
      Named (onMessage sh env id msg e).1.st := by
  obtain ⟨hpk, hpeers⟩ := modifyId_frame e.st id
    (f := fun p => { p with lastSeen := env.now }) (fun _ => rfl)
  have hbal : Balanced sh { e.enter with
      st := e.st.modifyId id fun p => { p with lastSeen := env.now } } [] := by
    refine h.accounts.enter.idle ⟨?_, hpeers, rfl⟩
    simp only [hpk]
    exact ⟨rfl, rfl, rfl, rfl⟩
  have hstart : Polite sh e.enter := ⟨by simp [Engine.enter], h.named⟩
  have hseen := hstart.modifyId (f := fun p => { p with lastSeen := env.now })
    (fun _ => ⟨rfl, rfl⟩) id
  have hfit := h.seated.fits.shows (quiet_seen env.now id e).shows
  have hhandled := polite_handle env id msg hbal hfit hseen
  have hdone := polite_recordSent env.now (polite_considerRound env hhandled)
  exact ⟨hdone.out, hdone.named⟩

/-- So does a tick. -/
theorem proper_maintain (env : Env) (h : e.Mannered sh) :
    (∀ o ∈ (maintain env e).2.sends, Proper sh o.2) ∧ Named (maintain env e).1.st := by
  have hstart : Polite sh e.enter := ⟨by simp [Engine.enter], h.named⟩
  have hallowed := hstart.mapPeers (f := fun p => { p with metadataRequests := 0 })
    fun _ => ⟨rfl, rfl⟩
  have hbal : Balanced sh { e.enter with st := { e.enter.st with
      peers := e.enter.st.peers.map fun p => { p with metadataRequests := 0 } } } [] := by
    refine h.accounts.enter.idle ⟨⟨rfl, rfl, rfl, rfl⟩, ?_, rfl⟩
    simp [Engine.enter, Function.comp_def]
  have hticked := polite_tickPeers env e.enter.st.keepaliveInterval e.enter.st.idleTimeout
    (e.enter.st.peers.map fun p => { p with metadataRequests := 0 }) (_, []) hallowed
  have hrequests := polite_maintainRequests env
    (hbal.idle (idle_tickPeers env e.enter.st.keepaliveInterval e.enter.st.idleTimeout
      (e.enter.st.peers.map fun p => { p with metadataRequests := 0 }) (_, []))) hticked
  have hdone := polite_recordSent env.now (polite_considerRound env hrequests)
  exact ⟨hdone.out, hdone.named⟩

/-- Whatever a torrent does, it stays so. -/
theorem Engine.Mannered.step (h : e.Mannered sh) (ev : Event) :
    (Engine.step sh ev e).Mannered sh := by
  refine ⟨accounts_step ev h.accounts, h.seated.step ev, ?_⟩
  cases ev with
  | message env id msg => exact (proper_onMessage env id msg h).2
  | maintain env => exact (proper_maintain env h).2
  | register env dest fast =>
      show Named (registerPeer sh env dest fast e.st).1
      rcases registerPeer_cases sh env dest fast e.st with ⟨r, heq⟩ | ⟨known, -, -, -, -, heq⟩
      · rw [heq]
        exact h.named
      · rw [heq]
        intro p hp
        rcases List.mem_append.1 hp with hp | hp
        · exact h.named p hp
        · rw [List.mem_singleton.1 hp]
          exact ⟨nofun, nofun⟩
  | drop now id forCause =>
      show Named (dropPeer now id forCause e.st)
      rcases dropPeer_cases now id forCause e.st with ⟨-, heq⟩ | ⟨peer, rest, hperm, -, heq⟩
      · rw [heq]
        exact h.named
      · rw [heq]
        exact fun p hp => h.named p (hperm.subset (List.mem_cons_of_mem peer hp))
  | addPeers rank peers =>
      show Named (addPeers rank peers e.st)
      obtain ⟨known, heq⟩ := addPeers_eq rank peers e.st
      rw [heq]
      exact h.named
  | _ => exact h.named

theorem mannered_new (sh : Shared) (initialHave : Bitfield) (mode : Mode) (now : Nat)
    (disk : Disk) : (Engine.new sh initialHave mode now disk).Mannered sh :=
  ⟨accounts_new sh initialHave mode now disk, (addressed_new sh initialHave mode now disk).seated,
    by simp [Named, Engine.new, State.new]⟩

/-! ## Queues -/

/-- A queue is an opening with a piece set of the torrent's length, then proper messages. -/
def Queued (sh : Shared) (queue : List Message) : Prop :=
  ∃ theirs field rest, queue = opening sh theirs field ++ rest ∧ field.len = sh.numPieces ∧
    ∀ m ∈ rest, Proper sh m

/-- The ids given out have such a queue, and the others none. -/
def Served (sh : Shared) (next : Nat) (queues : Nat → List Message) : Prop :=
  ∀ id, (next ≤ id → queues id = []) ∧ (id < next → Queued sh (queues id))

/-- Whatever is queued for a peer, or is going to be, is proper. -/
structure System.Mannered (sh : Shared) (s : System) : Prop where
  engine : s.engine.Mannered sh
  addressed : s.Addressed sh
  queues : Served sh s.engine.st.nextId s.queues
  unsent : ∀ o ∈ s.unsent, Proper sh o.2
  attaches : ∀ a ∈ s.attaches, ∀ theirs field, a.phase = .announced theirs field →
    field.len = sh.numPieces

/-- A step keeps manners. -/
theorem System.Mannered.step (h : s.Mannered sh) (a : Action) :
    (System.step sh a s).Mannered sh := by
  have hengine : (System.step sh a s).engine.Mannered sh :=
    engine_induction h.engine (fun ev => h.engine.step ev) a
  have haddr := h.addressed.step a
  have hout := step_outcome a h.addressed.seated
  generalize System.step sh a s = s' at hengine haddr hout
  have hattach : Announces s s' → ∀ a ∈ s'.attaches, ∀ theirs field,
      a.phase = .announced theirs field → field.len = sh.numPieces := by
    intro hann a ha theirs field hphase
    rcases hann a ha theirs field hphase with ⟨b, hb, hphase⟩ | rfl
    · exact h.attaches b hb theirs field hphase
    · exact h.engine.seated.fits.len
  cases hout with
  | same hsame hann =>
      refine ⟨hengine, haddr, ?_, fun o ho => ?_, hattach hann⟩
      · rw [hsame.queues, hsame.nextId]
        exact h.queues
      · rw [System.unsent, hsame.tasks] at ho
        exact h.unsent o ho
  | @ran _ thread r news hruns hsection =>
      refine ⟨hengine, haddr, ?_, fun o ho => ?_, hattach (.refl s)⟩
      · have hnext : (s.leave thread r).engine.st.nextId = s.engine.st.nextId := hsection.nextId
        rw [hnext]
        exact h.queues
      · rw [unsent_leave] at ho
        rcases List.mem_append.1 ho with ho | ho
        · exact h.unsent o ho
        · rcases hruns with ⟨env, id, msg, rfl⟩ | ⟨env, rfl⟩
          · exact (proper_onMessage env id msg h.engine).1 o ho
          · exact (proper_maintain env h.engine).1 o ho
  | @dropped _ id st hdrop =>
      refine ⟨hengine, haddr, ?_, h.unsent, hattach (.refl s)⟩
      show Served sh st.nextId s.queues
      rw [hdrop.nextId]
      exact h.queues
  | @droppedBy _ pos id t t' st htask hsends _ hdrop =>
      refine ⟨hengine, haddr, ?_, fun o ho => ?_, hattach (.refl s)⟩
      · show Served sh st.nextId s.queues
        rw [hdrop.nextId]
        exact h.queues
      · exact h.unsent o ((unsent_setTask_of_eq htask hsends) ▸ ho)
  | @sent pos id thread msg sends htask =>
      obtain ⟨post, hbefore, hafter⟩ := unsent_setTask_of_cons htask ⟨thread, [], sends, none⟩ rfl
      have hnext : (id, msg) ∈ s.unsent := by
        rw [hbefore]
        simp
      refine ⟨hengine, haddr, fun j => ?_, fun o ho => h.unsent o ?_, hattach (.refl s)⟩
      · rw [queues_setQueue]
        obtain ⟨hempty, hopened⟩ := h.queues j
        split
        · rename_i hj
          subst hj
          refine ⟨fun hlate => ?_, fun hlt => ?_⟩
          · exact absurd (h.addressed.sends _ hnext) (Nat.not_lt.2 hlate)
          · obtain ⟨theirs, field, rest, hqueue, hlen, hrest⟩ := hopened hlt
            refine ⟨theirs, field, rest ++ [msg], by rw [hqueue, List.append_assoc], hlen, ?_⟩
            intro m hm
            rcases List.mem_append.1 hm with hm | hm
            · exact hrest m hm
            · rw [List.mem_singleton.1 hm]
              exact h.unsent _ hnext
        · exact ⟨hempty, hopened⟩
      · rw [unsent_setQueue, hafter] at ho
        rw [hbefore]
        rcases List.mem_append.1 ho with ho | ho
        · exact List.mem_append_left _ ho
        · exact List.mem_append_right _ (List.mem_cons_of_mem _ ho)
  | @refused _ pos id thread msg sends htask =>
      obtain ⟨post, hbefore, hafter⟩ := unsent_setTask_of_cons htask ⟨thread, [], sends, some id⟩ rfl
      refine ⟨hengine, haddr, h.queues, fun o ho => h.unsent o ?_, hattach (.refl s)⟩
      rw [hafter] at ho
      rw [hbefore]
      rcases List.mem_append.1 ho with ho | ho
      · exact List.mem_append_left _ ho
      · exact List.mem_append_right _ (List.mem_cons_of_mem _ ho)
  | @registered pos env dest theirs field st hat _ hreg =>
      refine ⟨hengine, haddr, fun id => ?_, h.unsent, hattach ?_⟩
      · have hnext : st.nextId = s.engine.st.nextId + 1 := hreg.nextId
        obtain ⟨hempty, hopened⟩ := h.queues id
        show (st.nextId ≤ id → (if id = s.engine.st.nextId then opening sh theirs field
            else s.queues id) = []) ∧ (id < st.nextId → Queued sh (if id = s.engine.st.nextId then
            opening sh theirs field else s.queues id))
        split
        · rename_i hid
          refine ⟨fun hlate => absurd hlate (by omega), fun _ => ⟨theirs, field, [], by simp, ?_, by simp⟩⟩
          exact h.attaches _ (List.mem_of_getElem? hat) theirs field rfl
        · exact ⟨fun hlate => hempty (by omega), fun hlt => hopened (by omega)⟩
      · exact announces_setPhase (s := s) (by simp)
  | listed =>
      refine ⟨hengine, haddr, h.queues, fun o ho => h.unsent o ?_, hattach (.refl s)⟩
      simpa [System.unsent] using ho

theorem mannered_run (sh : Shared) (initialHave : Bitfield) (mode : Mode) (now : Nat)
    (disk : Disk) (actions : List Action) :
    (System.run sh actions (System.new sh initialHave mode now disk)).Mannered sh := by
  have hnew : (System.new sh initialHave mode now disk).Mannered sh :=
    ⟨mannered_new sh initialHave mode now disk, addressed_new sh initialHave mode now disk,
      fun _ => ⟨fun _ => rfl, fun h => absurd h (Nat.not_lt_zero _)⟩,
      by simp [System.unsent, System.new], by simp [System.new]⟩
  exact Machine.run_induction (P := System.Mannered sh) (fun a _ h => h.step a) actions hnew

end Clove.Torrent
