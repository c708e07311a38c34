import Clove.PickerOffers
import Clove.Torrent.Blocks
import Clove.Torrent.Slots

/-!
# Refills

`fill_requests` asks the picker for as many blocks as the peer has room for, and drops from
the answer what the peer owes already.  `filled_fillRequests` says what it leaves behind, in
terms of what the picker has to offer.  A handler calls it at most once and otherwise adds no
request: `messageRefill` is the state in which it does, if it does, and `maintainRefill` the
one in which a tick calls it for a peer.  `Pipelined` says that no peer owes more blocks than
its pipeline is deep.
-/

namespace Clove.Torrent

open Wire (BLOCK_LEN BlockRequest Message)

variable {sh : Shared} {e : Engine} {w w' w₁ w₂ w₃ : Work}

/-! ## One call -/

/-- The blocks a peer has room for. -/
def Peer.room (p : Peer) : Nat := PIPELINE_DEPTH - p.inFlight.keys.length

/-- The peer may be asked for blocks. -/
def Peer.Askable (p : Peer) : Prop := p.peerChoking = false ∧ p.weInterested = true

instance (p : Peer) : Decidable p.Askable := inferInstanceAs (Decidable (_ ∧ _))

/-- What the picker is asked for gives: the first of its offers. -/
def taken (pk : Picker) (p : Peer) : List BlockKey := (pk.offers p.has).take p.room

/-- And what of it is asked of the peer: the blocks it does not owe already. -/
def fresh (pk : Picker) (p : Peer) : List BlockKey := (taken pk p).filter (· ∉ p.inFlight)

/-- A peer's pipeline has been topped up. -/
structure Filled (now idx : Nat) (peer : Peer) (w w' : Work) : Prop where
  seat : ∃ flights, w'.st.peers[idx]? = some { peer with inFlight := flights } ∧
    ∀ k, flights.lookup k =
      if k ∈ taken w.st.picker peer then some now else peer.inFlight.lookup k
  others : ∀ j, j ≠ idx → w'.st.peers[j]? = w.st.peers[j]?
  picker : Picker.Recounts w.st.picker w'.st.picker
  out : w'.out = w.out ++ (fresh w.st.picker peer).map fun k =>
    (peer.id, .request (w.st.picker.requestFor k))

/-- What is gathered from a list of distinct blocks. -/
theorem askFor_foldl (now : Nat) (pk : Picker) {ks : List BlockKey} (hnodup : ks.Nodup)
    (f : Filling) :
    (∀ k, ((ks.map pk.requestFor).foldl (askFor now) f).inFlight.lookup k =
        if k ∈ ks then some now else f.inFlight.lookup k) ∧
      ((ks.map pk.requestFor).foldl (askFor now) f).asked =
        f.asked ++ (ks.filter (· ∉ f.inFlight)).map pk.requestFor ∧
      ((ks.map pk.requestFor).foldl (askFor now) f).duplicates =
        f.duplicates ++ ks.filter (· ∈ f.inFlight) := by
  induction ks generalizing f with
  | nil => simp
  | cons k ks ih =>
      obtain ⟨hnew, hnodup⟩ := List.nodup_cons.1 hnodup
      obtain ⟨hlookup, hasked, hduplicates⟩ := ih hnodup (askFor now f (pk.requestFor k))
      have hmap : (askFor now f (pk.requestFor k)).inFlight = f.inFlight.insert k now := by
        unfold askFor
        simp only [Picker.key_requestFor]
        split <;> rfl
      have hmem : ∀ j ∈ ks, (j ∈ (askFor now f (pk.requestFor k)).inFlight ↔ j ∈ f.inFlight) := by
        intro j hj
        rw [hmap, AList.mem_insert]
        exact or_iff_right fun heq => hnew (heq ▸ hj)
      have howed : ks.filter (· ∈ (askFor now f (pk.requestFor k)).inFlight) =
          ks.filter (· ∈ f.inFlight) :=
        List.filter_congr fun j hj => decide_eq_decide.2 (hmem j hj)
      have hfree : ks.filter (· ∉ (askFor now f (pk.requestFor k)).inFlight) =
          ks.filter (· ∉ f.inFlight) :=
        List.filter_congr fun j hj => decide_eq_decide.2 (not_congr (hmem j hj))
      rw [List.map_cons, List.foldl_cons]
      refine ⟨fun j => ?_, ?_, ?_⟩
      · rw [hlookup, hmap, Map.lookup_insert]
        by_cases hj : j = k <;> by_cases hks : j ∈ ks <;> simp [hj, hks]
      · rw [hasked, hfree]
        by_cases hk : k ∈ f.inFlight
        · simp [askFor, Picker.key_requestFor, hk]
        · simp [askFor, Picker.key_requestFor, hk]
      · rw [hduplicates, howed]
        by_cases hk : k ∈ f.inFlight
        · simp [askFor, Picker.key_requestFor, hk]
        · simp [askFor, Picker.key_requestFor, hk]

theorem recounts_failAll (pk : Picker) (keys : List BlockKey) :
    Picker.Recounts pk (failAll pk keys) := by
  unfold failAll
  induction keys generalizing pk with
  | nil => exact .refl pk
  | cons k keys ih => exact (Picker.recounts_blockFailed pk k.1 k.2).trans (ih _)

/-- A peer that may not be asked is left alone. -/
theorem fillRequests_of_not_askable (env : Env) {idx : Nat} {peer : Peer}
    (hidx : w.st.peers[idx]? = some peer) (hno : ¬ peer.Askable) : fillRequests env idx w = w := by
  have hguard : (peer.peerChoking || !peer.weInterested) = true := by
    cases hc : peer.peerChoking <;> cases hi : peer.weInterested <;> simp_all [Peer.Askable]
  unfold fillRequests
  simp only [hidx, hguard, if_true]

theorem filled_fillRequests (env : Env) {idx : Nat} {peer : Peer} (h : w.st.picker.WF)
    (hidx : w.st.peers[idx]? = some peer) (hask : peer.Askable) :
    Filled (env.fillNow idx) idx peer w (fillRequests env idx w) := by
  unfold fillRequests
  simp only [hidx, hask.1, hask.2, Bool.not_true, Bool.or_self, Bool.false_eq_true, if_false]
  split
  · rename_i hfull
    have hnone : taken w.st.picker peer = [] := by
      rw [taken, Peer.room, hfull, List.take_zero]
    refine ⟨⟨peer.inFlight, hidx, fun k => ?_⟩, fun _ _ => rfl, .refl _, ?_⟩
    · simp [hnone]
    · simp [fresh, hnone]
  · have hpicked := Picker.pick_eq h peer.has peer.room
    have hnodup : (taken w.st.picker peer).Nodup :=
      (Picker.nodup_offers _ _).sublist (List.take_sublist _ _)
    obtain ⟨hlookup, hasked, hduplicates⟩ :=
      askFor_foldl (env.fillNow idx) w.st.picker hnodup ⟨peer.inFlight, [], []⟩
    rw [taken, ← hpicked] at hlookup hasked hduplicates
    refine ⟨⟨_, Work.getElem?_modifyPeer hidx _, fun k => ?_⟩, fun j hj => ?_, ?_, ?_⟩
    · exact hlookup k
    · simp only [Work.modifyPicker, Work.modifyPeer, List.getElem?_modify_ne _ _ (Ne.symm hj)]
    · exact (Picker.recounts_pick h _ _).trans (recounts_failAll _ _)
    · simp only [Work.modifyPicker, Work.modifyPeer]
      refine congrArg (w.out ++ ·) ?_
      refine (congrArg (List.map _) hasked).trans ?_
      rw [List.nil_append, List.map_map]
      rfl

/-- A refill does nothing, or tops a pipeline up. -/
theorem fillRequests_cases (env : Env) (idx : Nat) (h : w.st.picker.WF) :
    fillRequests env idx w = w ∨ ∃ peer, w.st.peers[idx]? = some peer ∧ peer.Askable ∧
      Filled (env.fillNow idx) idx peer w (fillRequests env idx w) := by
  cases hidx : w.st.peers[idx]? with
  | none =>
      left
      unfold fillRequests
      simp only [hidx]
  | some peer =>
      by_cases hask : peer.Askable
      · exact .inr ⟨peer, rfl, hask, filled_fillRequests env h hidx hask⟩
      · exact .inl (fillRequests_of_not_askable env hidx hask)

/-! ## Handlers that ask for nothing -/

def isRequest : Message → Bool
  | .request _ => true
  | _ => false

/-- Nothing is asked of anyone: what a peer owes it owed before, and no request is queued. -/
structure Lapses (w w' : Work) : Prop where
  ids : w'.st.ids = w.st.ids
  owed : ∀ {j : Nat} {p : Peer}, w'.st.peers[j]? = some p → ∃ q, w.st.peers[j]? = some q ∧
    ∀ k t, p.inFlight.lookup k = some t → q.inFlight.lookup k = some t
  out : (w'.out.filter fun o => isRequest o.2) = w.out.filter fun o => isRequest o.2

namespace Lapses

theorem refl (w : Work) : Lapses w w := ⟨rfl, fun h => ⟨_, h, fun _ _ h => h⟩, rfl⟩

theorem trans (h₁ : Lapses w₁ w₂) (h₂ : Lapses w₂ w₃) : Lapses w₁ w₃ := by
  refine ⟨h₂.ids.trans h₁.ids, fun hj => ?_, h₂.out.trans h₁.out⟩
  obtain ⟨q, hq, hsub⟩ := h₂.owed hj
  obtain ⟨r, hr, hsub'⟩ := h₁.owed hq
  exact ⟨r, hr, fun k t h => hsub' k t (hsub k t h)⟩

theorem foldl {α : Type} {f : Work → α → Work} (hf : ∀ w a, Lapses w (f w a)) (l : List α)
    (w : Work) : Lapses w (l.foldl f w) := by
  induction l generalizing w with
  | nil => exact refl w
  | cons a l ih => exact (hf w a).trans (ih _)

end Lapses

/-- A peer changes and owes no more than it did. -/
theorem lapses_modifyPeer {f : Peer → Peer} (hid : ∀ p, (f p).id = p.id)
    (hf : ∀ p k t, (f p).inFlight.lookup k = some t → p.inFlight.lookup k = some t) (w : Work)
    (idx : Nat) : Lapses w (w.modifyPeer idx f) := by
  refine ⟨Lists.map_modify_of_eq hid _ _, fun {j p} hj => ?_, rfl⟩
  have hj : (w.st.peers.modify idx f)[j]? = some p := hj
  rw [List.getElem?_modify] at hj
  obtain ⟨q, hq, rfl⟩ := Option.map_eq_some_iff.1 hj
  refine ⟨q, hq, fun k t h => ?_⟩
  split at h
  · exact hf q k t h
  · exact h

/-- Something else about a peer changes. -/
theorem lapses_touch {f : Peer → Peer} (hid : ∀ p, (f p).id = p.id)
    (hf : ∀ p, (f p).inFlight = p.inFlight) (w : Work) (idx : Nat) :
    Lapses w (w.modifyPeer idx f) :=
  lapses_modifyPeer hid (fun p _ _ h => hf p ▸ h) w idx

theorem lapses_mapPeers {f : Peer → Peer} (hid : ∀ p, (f p).id = p.id)
    (hf : ∀ p, (f p).inFlight = p.inFlight) (w : Work) :
    Lapses w { w with st := { w.st with peers := w.st.peers.map f } } := by
  refine ⟨?_, fun {j p} hj => ?_, rfl⟩
  · simp [State.ids, Function.comp_def, hid]
  · simp only [List.getElem?_map] at hj
    obtain ⟨q, hq, rfl⟩ := Option.map_eq_some_iff.1 hj
    exact ⟨q, hq, fun _ _ h => hf q ▸ h⟩

/-- The state changes outside the table. -/
theorem lapses_state {st : State} (h : st.peers = w.st.peers) : Lapses w { w with st := st } := by
  refine ⟨?_, fun {j p} hj => ⟨p, ?_, fun _ _ h => h⟩, rfl⟩
  · show st.ids = w.st.ids
    rw [State.ids, State.ids, h]
  · rw [← h]
    exact hj

theorem lapses_modifyPicker (w : Work) (f : Picker → Picker) : Lapses w (w.modifyPicker f) :=
  lapses_state rfl

theorem lapses_collect {extra : List Outgoing} (h : ∀ o ∈ extra, isRequest o.2 = false) (w : Work) :
    Lapses w { w with out := w.out ++ extra } := by
  refine ⟨rfl, fun h => ⟨_, h, fun _ _ h => h⟩, ?_⟩
  have hnone : (extra.filter fun o => isRequest o.2) = [] :=
    List.filter_eq_nil_iff.2 fun o ho => by simp [h o ho]
  simp only [List.filter_append, hnone, List.append_nil]

theorem lapses_push {msg : Message} (h : isRequest msg = false) (w : Work) (id : Nat) :
    Lapses w (w.push id msg) :=
  lapses_collect (by simpa using h) w

theorem lapses_counters (w : Work) (uploaded downloaded : Nat) :
    Lapses w { w with uploaded := uploaded, downloaded := downloaded } :=
  ⟨rfl, fun h => ⟨_, h, fun _ _ h => h⟩, rfl⟩

theorem lapses_files (w : Work) (disk : Disk) (trace : List Access) :
    Lapses w { w with disk := disk, trace := trace } :=
  ⟨rfl, fun h => ⟨_, h, fun _ _ h => h⟩, rfl⟩

/-- A block that is taken off a map was there. -/
theorem lookup_of_erase {m : Map BlockKey Nat} {j k : BlockKey} {t : Nat}
    (h : (m.erase j).lookup k = some t) : m.lookup k = some t := by
  rw [Map.lookup_erase] at h
  split at h
  · cases h
  · exact h

theorem lapses_takeOwed (idx : Nat) (k : BlockKey) (requested : Bool) (w : Work) :
    Lapses w (takeOwed idx k requested w) :=
  lapses_modifyPeer (by intro _; rfl) (fun _ _ _ h => lookup_of_erase h) w idx

theorem lapses_cancelElsewhere (idx index begin blockNo : Nat) (w : Work) :
    Lapses w (cancelElsewhere idx index begin blockNo w) := by
  unfold cancelElsewhere
  refine Lapses.foldl (fun w other => ?_) _ w
  unfold cancelAt
  split
  · exact .refl w
  · split
    · exact .refl w
    · split
      · refine Lapses.trans ?_ (lapses_push rfl _ _)
        refine Lapses.trans ?_ (lapses_modifyPicker _ _)
        exact lapses_modifyPeer (by intro _; rfl) (fun _ _ _ h => lookup_of_erase h) w other
      · exact .refl w

theorem lapses_modifyId {f : Peer → Peer} (hid : ∀ p, (f p).id = p.id)
    (hf : ∀ p, (f p).inFlight = p.inFlight) (w : Work) (id : Nat) :
    Lapses w { w with st := w.st.modifyId id f } := by
  unfold State.modifyId
  split
  · exact lapses_touch hid hf w _
  · exact .refl w

theorem lapses_recordSent (now : Nat) (w : Work) : Lapses w (recordSent now w) := by
  have hfold : ∀ (out : List Outgoing) (w : Work), Lapses w { w with
      st := out.foldl (fun (st : State) (o : Outgoing) =>
        st.modifyId o.1 fun p => { p with lastSent := now }) w.st } := by
    intro out
    induction out with
    | nil => exact fun w => .refl w
    | cons o out ih =>
        exact fun w => (lapses_modifyId (by intro _; rfl) (by intro _; rfl) w o.1).trans (ih _)
  exact hfold w.out w

theorem lapses_setChoke (choke : Bool) (w : Work) (id : Nat) : Lapses w (setChoke choke w id) := by
  unfold setChoke
  split
  · exact .refl w
  · refine (lapses_touch (by intro _; rfl) (by intro _; rfl) w _).trans (lapses_push ?_ _ _)
    cases choke <;> rfl

theorem lapses_runChoker (w : Work) : Lapses w (runChoker w) := by
  unfold runChoker
  refine Lapses.trans ?_ ((Lapses.foldl (lapses_setChoke false) _ _).trans
    (Lapses.foldl (lapses_setChoke true) _ _))
  exact (lapses_mapPeers (by intro _; rfl) (by intro _; rfl) w).trans (lapses_state rfl)

theorem lapses_considerRound (env : Env) (w : Work) : Lapses w (considerRound env w) := by
  unfold considerRound
  split
  · exact (lapses_state (by rfl)).trans (lapses_runChoker _)
  · exact .refl w

theorem lapses_onChoke (idx : Nat) (w : Work) : Lapses w (onChoke idx w) := by
  unfold onChoke
  split
  · exact .refl w
  · refine Lapses.trans ?_ (lapses_modifyPicker _ _)
    exact lapses_modifyPeer (by intro _; rfl) (fun _ _ _ h => by simp at h) w idx

theorem lapses_onInterested (idx : Nat) (w : Work) : Lapses w (onInterested idx w) := by
  have hmark : Lapses w (w.modifyPeer idx fun p => { p with theyInterested := true }) :=
    lapses_touch (by intro _; rfl) (by intro _; rfl) w idx
  unfold onInterested
  simp only
  split
  · exact hmark.trans (lapses_runChoker _)
  · exact hmark

theorem lapses_onNotInterested (idx : Nat) (w : Work) : Lapses w (onNotInterested idx w) := by
  have hmark : Lapses w (w.modifyPeer idx fun p => { p with theyInterested := false }) :=
    lapses_touch (by intro _; rfl) (by intro _; rfl) w idx
  unfold onNotInterested
  split
  · exact .refl w
  · simp only
    split
    · exact hmark
    · refine hmark.trans (Lapses.trans ?_ (lapses_push rfl _ _))
      exact lapses_touch (by intro _; rfl) (by intro _; rfl) _ idx

theorem lapses_replacePieceSet (idx : Nat) (field : Bitfield) (w : Work) :
    Lapses w (replacePieceSet idx field w) := by
  unfold replacePieceSet
  split
  · exact .refl w
  · refine Lapses.trans ?_ (lapses_modifyPicker _ _)
    exact lapses_touch (by intro _; rfl) (by intro _; rfl) w idx

theorem lapses_serveRequest (sh : Shared) (env : Env) (idx : Nat) (req : BlockRequest) (w : Work) :
    Lapses w (serveRequest sh env idx req w) := by
  unfold serveRequest
  split
  · exact .refl w
  · split
    · exact .refl w
    · split
      · exact .refl w
      · rename_i data _
        refine Lapses.trans ?_ (lapses_push rfl _ _)
        refine (lapses_counters w (w.uploaded + data.length) w.downloaded).trans ?_
        exact lapses_touch (by intro _; rfl) (by intro _; rfl) _ idx

theorem lapses_sendPex (env : Env) (idx : Nat) (w : Work) : Lapses w (sendPex env idx w) := by
  unfold sendPex
  split
  · exact .refl w
  · split
    · exact .refl w
    · simp only
      split
      · exact .refl w
      · exact lapses_push rfl w _

theorem lapses_serveMetadata (sh : Shared) (idx piece : Nat) (w : Work) :
    Lapses w (serveMetadata sh idx piece w) := by
  unfold serveMetadata
  split
  · exact .refl w
  · split
    · exact .refl w
    · refine Lapses.trans ?_ (lapses_push rfl _ _)
      exact lapses_touch (by intro _; rfl) (by intro _; rfl) w idx

theorem lapses_learn (env : Env) (w : Work) (dest : DestHash) : Lapses w (learn env w dest) := by
  refine lapses_state ?_
  have hpeers := (State.untouched_rememberPeerFrom w.st env.rank dest .pex).peers
  simp only
  split
  · exact hpeers
  · exact hpeers

theorem lapses_onExtended (sh : Shared) (env : Env) (idx : Nat) (extId : UInt8) (payload : Bytes)
    (w : Work) : Lapses w (onExtended sh env idx extId payload w) := by
  unfold onExtended
  split
  · split
    · exact .refl w
    · simp only
      split
      · exact lapses_touch (by intro _; rfl) (by intro _; rfl) w idx
      · exact (lapses_touch (by intro _; rfl) (by intro _; rfl) w idx).trans (lapses_sendPex _ _ _)
  · split
    · split
      · exact .refl w
      · split
        · exact .refl w
        · exact Lapses.foldl (lapses_learn env) _ w
    · split
      · split
        · exact lapses_serveMetadata sh idx _ w
        · exact .refl w
      · exact .refl w

theorem lapses_onComplete (sh : Shared) (env : Env) (index : Nat) (w : Work) :
    Lapses w (onComplete sh env index w) := by
  unfold onComplete
  split
  · refine Lapses.trans ?_ (lapses_collect (by simp [isRequest]) _)
    refine (lapses_modifyPicker w _).trans (lapses_state ?_)
    exact (State.untouched_creditSuppliers _ index).peers
  · refine (lapses_modifyPicker w _).trans (lapses_state ?_)
    exact (State.untouched_blameSuppliers _ index).peers
  · exact lapses_state rfl

theorem lapses_enterBlock (idx index begin : Nat) (dest : DestHash) (length : Nat) (w : Work) :
    Lapses w (enterBlock idx index begin dest length w).1 := by
  have hrecord : Lapses w (recordBlock idx (index, begin / BLOCK_LEN) dest length w) := by
    refine Lapses.trans ?_ (lapses_state rfl)
    refine (lapses_counters w w.uploaded (w.downloaded + length)).trans ?_
    exact lapses_touch (by intro _; rfl) (by intro _; rfl) _ idx
  have hcancelled := hrecord.trans (lapses_cancelElsewhere idx index begin (begin / BLOCK_LEN) _)
  unfold enterBlock
  simp only
  exact hcancelled.trans (lapses_modifyPicker _ _)

theorem lapses_onWritten (sh : Shared) (env : Env) (idx index begin : Nat) (block : Bytes)
    (dest : DestHash) (w : Work) : Lapses w (onWritten sh env idx index begin block dest w).1 := by
  have hentered := lapses_enterBlock idx index begin dest block.length w
  rw [onWritten_eq]
  simp only
  split
  · exact hentered.trans (lapses_onComplete sh env index _)
  · exact hentered

theorem lapses_onOwedBlock (sh : Shared) (env : Env) (idx index begin : Nat) (block : Bytes)
    (dest : DestHash) (w : Work) : Lapses w (onOwedBlock sh env idx index begin block dest w).1 := by
  unfold onOwedBlock
  simp only
  split
  · exact (lapses_modifyPicker w _).trans (lapses_files _ _ _)
  · split
    · exact (lapses_files w _ _).trans ((lapses_modifyPicker _ _).trans (lapses_state rfl))
    · exact (lapses_files w _ _).trans (lapses_onWritten sh env idx index begin block dest _)

/-! ## Where requests come from -/

/-- The state in which `update_interest` tops the pipeline up, if it does. -/
def interestRefill (idx : Nat) (w : Work) : Option Work :=
  match w.st.peers[idx]? with
  | none => none
  | some peer =>
      let want := peer.has.iterPresent.any fun p => !w.st.picker.has p
      if want && !peer.weInterested && !peer.peerChoking then
        some ((w.modifyPeer idx fun p => { p with weInterested := true }).push peer.id .interested)
      else none

/-- The state in which `on_block` tops the pipeline up, if it does. -/
def blockRefill (sh : Shared) (env : Env) (idx index begin : Nat) (block : Bytes) (w : Work) :
    Option Work :=
  match w.st.peers[idx]? with
  | none => none
  | some peer =>
      let blockNo := begin / BLOCK_LEN
      if begin % BLOCK_LEN ≠ 0 ∨ sh.numPieces ≤ index then none
      else if block.length ≠ w.st.picker.blockLen index blockNo then none
      else
        let requested := decide ((index, blockNo) ∈ peer.inFlight)
        let w := takeOwed idx (index, blockNo) requested w
        if !requested || w.st.picker.has index then some w
        else
          let r := onOwedBlock sh env idx index begin block peer.dest w
          if r.2 then some r.1 else none

/-- The state in which handling a message tops the pipeline of its peer up, if it does. -/
def messageRefill (sh : Shared) (env : Env) (idx : Nat) (first fast : Bool) (msg : Message)
    (w : Work) : Option Work :=
  match msg with
  | .unchoke => some (w.modifyPeer idx fun p => { p with peerChoking := false })
  | .have_ piece =>
      match w.st.peers[idx]? with
      | none => none
      | some peer =>
          if piece < sh.numPieces && !peer.has.has piece then
            interestRefill idx ((w.modifyPeer idx fun p => { p with has := p.has.set piece }
              ).modifyPicker fun pk => pk.addSingle piece)
          else none
  | .bitfield bytes =>
      match Bitfield.fromBytes bytes sh.numPieces with
      | .ok field => if first then interestRefill idx (replacePieceSet idx field w) else none
      | .error _ => none
  | .haveAll =>
      if first && fast then interestRefill idx (replacePieceSet idx (Bitfield.full sh.numPieces) w)
      else none
  | .haveNone =>
      if first && fast then interestRefill idx (replacePieceSet idx (Bitfield.empty sh.numPieces) w)
      else none
  | .piece index begin block => blockRefill sh env idx index begin block w
  | _ => none

/-- A handler tops the pipeline up once, in this state, or not at all, and asks for nothing
besides. -/
def RefillsOnce (env : Env) (idx : Nat) (w w' : Work) : Option Work → Prop
  | some w₁ => Lapses w w₁ ∧ w' = fillRequests env idx w₁
  | none => Lapses w w'

theorem RefillsOnce.after {env : Env} {idx : Nat} {refill : Option Work} (h₁ : Lapses w w₁)
    (h₂ : RefillsOnce env idx w₁ w₂ refill) : RefillsOnce env idx w w₂ refill := by
  cases refill with
  | none => exact h₁.trans h₂
  | some w₃ => exact ⟨h₁.trans h₂.1, h₂.2⟩

theorem refill_updateInterest (env : Env) (idx : Nat) (w : Work) :
    RefillsOnce env idx w (updateInterest env idx w) (interestRefill idx w) := by
  have hflag : ∀ b, Lapses w (w.modifyPeer idx fun p => { p with weInterested := b }) :=
    fun b => lapses_touch (by intro _; rfl) (by intro _; rfl) w idx
  unfold updateInterest interestRefill
  cases hidx : w.st.peers[idx]? with
  | none => exact .refl w
  | some peer =>
      simp only
      cases hwant : peer.has.iterPresent.any fun p => !w.st.picker.has p <;>
        cases hflag' : peer.weInterested <;> cases hchoke : peer.peerChoking
      case true.false.false => exact ⟨(hflag true).trans (lapses_push rfl _ _), rfl⟩
      case true.false.true => exact (hflag true).trans (lapses_push rfl _ _)
      case false.true.false => exact (hflag false).trans (lapses_push rfl _ _)
      case false.true.true => exact (hflag false).trans (lapses_push rfl _ _)
      all_goals exact .refl w

theorem refill_onBlock (sh : Shared) (env : Env) (idx index begin : Nat) (block : Bytes)
    (w : Work) : RefillsOnce env idx w (onBlock sh env idx index begin block w)
      (blockRefill sh env idx index begin block w) := by
  unfold onBlock blockRefill
  cases hidx : w.st.peers[idx]? with
  | none => exact .refl w
  | some peer =>
      simp only
      split
      · exact .refl w
      · split
        · exact .refl w
        · split
          · exact ⟨lapses_takeOwed idx _ _ w, rfl⟩
          · have htaken := (lapses_takeOwed idx (index, begin / BLOCK_LEN)
              (decide ((index, begin / BLOCK_LEN) ∈ peer.inFlight)) w).trans
              (lapses_onOwedBlock sh env idx index begin block peer.dest _)
            split
            · exact ⟨htaken, rfl⟩
            · exact htaken

theorem refill_dispatch (sh : Shared) (env : Env) (idx id : Nat) (first fast : Bool)
    (msg : Message) (w : Work) :
    RefillsOnce env idx w (dispatch sh env idx id first fast msg w)
      (messageRefill sh env idx first fast msg w) := by
  have hviolation : ∀ w, Lapses w (violation id w) := fun w => lapses_state rfl
  have hreplace : ∀ field, RefillsOnce env idx w
      (updateInterest env idx (replacePieceSet idx field w))
      (interestRefill idx (replacePieceSet idx field w)) := fun field =>
    .after (lapses_replacePieceSet idx field w) (refill_updateInterest env idx _)
  cases msg with
  | keepAlive => exact .refl w
  | cancel req => exact .refl w
  | choke => exact lapses_onChoke idx w
  | unchoke => exact ⟨lapses_touch (by intro _; rfl) (by intro _; rfl) w idx, rfl⟩
  | interested => exact lapses_onInterested idx w
  | notInterested => exact lapses_onNotInterested idx w
  | have_ piece =>
      unfold dispatch onHave messageRefill
      cases hidx : w.st.peers[idx]? with
      | none => exact .refl w
      | some peer =>
          simp only
          split
          · refine .after ?_ (refill_updateInterest env idx _)
            refine Lapses.trans ?_ (lapses_modifyPicker _ _)
            exact lapses_touch (by intro _; rfl) (by intro _; rfl) w idx
          · exact .refl w
  | bitfield bytes =>
      unfold dispatch messageRefill
      simp only
      cases Bitfield.fromBytes bytes sh.numPieces with
      | error _ => exact hviolation w
      | ok field =>
          cases first with
          | false => exact hviolation w
          | true => exact hreplace field
  | request req => exact lapses_serveRequest sh env idx req w
  | piece index begin block => exact refill_onBlock sh env idx index begin block w
  | suggestPiece _ | rejectRequest _ | allowedFast _ =>
      cases fast with
      | true => exact .refl w
      | false => exact hviolation w
  | haveAll =>
      unfold dispatch messageRefill
      simp only
      split
      · exact hreplace _
      · exact hviolation w
  | haveNone =>
      unfold dispatch messageRefill
      simp only
      split
      · exact hreplace _
      · exact hviolation w
  | extended extId payload => exact lapses_onExtended sh env idx extId payload w

/-! ## Critical sections -/

/-- The peer that `handle` tops up, and the state in which it does, if it does. -/
def handleRefill (sh : Shared) (env : Env) (id : Nat) (msg : Message) (w : Work) :
    Option (Nat × Work) :=
  match w.st.peers.findIdx? (·.id = id) with
  | none => none
  | some idx =>
      match w.st.peers[idx]? with
      | none => none
      | some peer =>
          let w := w.modifyPeer idx fun p => { p with opened := p.opened || opens msg }
          (messageRefill sh env idx (!peer.opened) peer.fast msg w).map fun w => (idx, w)

/-- The same for the critical section of a message. -/
def sectionRefill (sh : Shared) (env : Env) (id : Nat) (msg : Message) (e : Engine) :
    Option (Nat × Work) :=
  handleRefill sh env id msg
    { e.enter with st := e.st.modifyId id fun p => { p with lastSeen := env.now } }

theorem refill_handle (sh : Shared) (env : Env) (id : Nat) (msg : Message) (w : Work) :
    (handleRefill sh env id msg w = none ∧ Lapses w (handle sh env id msg w)) ∨
    ∃ idx w₁, handleRefill sh env id msg w = some (idx, w₁) ∧ Lapses w w₁ ∧
      (∃ p, w₁.st.peers[idx]? = some p ∧ p.id = id) ∧
      handle sh env id msg w = fillRequests env idx w₁ := by
  unfold handleRefill handle
  cases hfind : w.st.peers.findIdx? (·.id = id) with
  | none => exact .inl ⟨rfl, .refl w⟩
  | some idx =>
      obtain ⟨hlt, hid, -⟩ := List.findIdx?_eq_some_iff_getElem.1 hfind
      have hopened : Lapses w (w.modifyPeer idx fun p => { p with opened := p.opened || opens msg }) :=
        lapses_touch (by intro _; rfl) (by intro _; rfl) w idx
      simp only [List.getElem?_eq_getElem hlt]
      have hrefill := refill_dispatch sh env idx id (!(w.st.peers[idx]).opened)
        (w.st.peers[idx]).fast msg
        (w.modifyPeer idx fun p => { p with opened := p.opened || opens msg })
      cases hpoint : messageRefill sh env idx (!(w.st.peers[idx]).opened) (w.st.peers[idx]).fast msg
          (w.modifyPeer idx fun p => { p with opened := p.opened || opens msg }) with
      | none =>
          rw [hpoint] at hrefill
          exact .inl ⟨rfl, hopened.trans hrefill⟩
      | some w₁ =>
          rw [hpoint] at hrefill
          obtain ⟨hlapse, heq⟩ := hrefill
          have hseat : w₁.st.ids[idx]? = some id := by
            rw [(hopened.trans hlapse).ids, State.ids, List.getElem?_map,
              List.getElem?_eq_getElem hlt]
            exact congrArg some (of_decide_eq_true hid)
          rw [State.ids, List.getElem?_map] at hseat
          exact .inr ⟨idx, w₁, rfl, hopened.trans hlapse, Option.map_eq_some_iff.1 hseat, heq⟩

/-- A message leads to one refill in between of what asks for nothing, or to none. -/
theorem onMessage_refill (sh : Shared) (env : Env) (id : Nat) (msg : Message) (e : Engine) :
    ∃ w₂, onMessage sh env id msg e = w₂.finish [] ∧
      ((sectionRefill sh env id msg e = none ∧ Lapses e.enter w₂) ∨
        ∃ idx w₁, sectionRefill sh env id msg e = some (idx, w₁) ∧ Lapses e.enter w₁ ∧
          (∃ p, w₁.st.peers[idx]? = some p ∧ p.id = id) ∧
          Lapses (fillRequests env idx w₁) w₂) := by
  have hseen : Lapses e.enter { e.enter with
      st := e.st.modifyId id fun p => { p with lastSeen := env.now } } :=
    lapses_modifyId (by intro _; rfl) (by intro _; rfl) e.enter id
  have hafter : ∀ w, Lapses w (recordSent env.now (considerRound env w)) := fun w =>
    (lapses_considerRound env w).trans (lapses_recordSent env.now _)
  refine ⟨_, rfl, ?_⟩
  rcases refill_handle sh env id msg { e.enter with
    st := e.st.modifyId id fun p => { p with lastSeen := env.now } } with
    ⟨hnone, hlapse⟩ | ⟨idx, w₁, hpoint, hlapse, hseat, heq⟩
  · exact .inl ⟨hnone, (hseen.trans hlapse).trans (hafter _)⟩
  · exact .inr ⟨idx, w₁, hpoint, hseen.trans hlapse, hseat, heq ▸ hafter _⟩

/-- What has expired is taken off a peer, at the cost of a strike. -/
def releaseLate (env : Env) (idx : Nat) (w : Work) : Work :=
  match w.st.peers[idx]? with
  | none => w
  | some peer =>
      let late := expired w.st env.now peer
      if late = [] then w
      else
        let w := w.modifyPeer idx fun p =>
          { p with inFlight := late.foldl (fun m k => m.erase k) p.inFlight
                   strikes := p.strikes + 1 }
        w.modifyPicker fun pk => failAll pk late

/-- The peer at a position is out of strikes, or there is none. -/
def outOfStrikes (env : Env) (idx : Nat) (w : Work) : Bool :=
  match w.st.peers[idx]? with
  | none => true
  | some peer => expired w.st env.now peer ≠ [] && REQUEST_STRIKES ≤ peer.strikes + 1

/-- The state in which a tick tops up the peer at a position, if it does. -/
def maintainRefill (env : Env) (s : Work × List (Nat × Bool)) (idx : Nat) : Option (Nat × Work) :=
  let w := ((List.range idx).foldl (maintainPeer env) s).1
  if outOfStrikes env idx w then none else some (idx, releaseLate env idx w)

/-- The tick has looked at who is idle. -/
def ticked (env : Env) (e : Engine) : Work × List (Nat × Bool) :=
  let w := e.enter
  let peers := w.st.peers.map fun p => { p with metadataRequests := 0 }
  let w := { w with st := { w.st with peers := peers } }
  w.st.peers.foldl (tickPeer env w.st.keepaliveInterval w.st.idleTimeout) (w, [])

/-- The calls of `fill_requests` that a critical section makes: for whom, and in what state. -/
def Event.refills (sh : Shared) : Event → Engine → List (Nat × Work)
  | .message env id msg, e => (sectionRefill sh env id msg e).toList
  | .maintain env, e =>
      (List.range (ticked env e).1.st.peers.length).filterMap (maintainRefill env (ticked env e))
  | _, _ => []

theorem maintainPeer_fst (env : Env) (s : Work × List (Nat × Bool)) (idx : Nat) :
    (maintainPeer env s idx).1 =
      if outOfStrikes env idx s.1 then releaseLate env idx s.1
      else fillRequests env idx (releaseLate env idx s.1) := by
  unfold maintainPeer outOfStrikes releaseLate
  cases s.1.st.peers[idx]? with
  | none => rfl
  | some peer =>
      simp only
      by_cases hlate : expired s.1.st env.now peer = []
      · simp [hlate]
      · by_cases hstrikes : REQUEST_STRIKES ≤ peer.strikes + 1 <;> simp [hlate, hstrikes]

theorem lapses_ticked (env : Env) (e : Engine) : Lapses e.enter (ticked env e).1 := by
  have htick : ∀ (l : List Peer) keepalive timeout (s : Work × List (Nat × Bool)),
      Lapses s.1 (l.foldl (tickPeer env keepalive timeout) s).1 := by
    intro l keepalive timeout
    induction l with
    | nil => exact fun s => .refl _
    | cons p l ih =>
        intro s
        refine Lapses.trans ?_ (ih _)
        unfold tickPeer
        split
        · exact .refl _
        · split
          · exact lapses_push rfl _ _
          · exact .refl _
  unfold ticked
  refine Lapses.trans ?_ (htick _ _ _ _)
  exact lapses_mapPeers (by intro _; rfl) (by intro _; rfl) e.enter

/-- Taking blocks off a map leaves the others as they are. -/
theorem lookup_foldl_erase (late : List BlockKey) (m : Map BlockKey Nat) (k : BlockKey) :
    (late.foldl (fun m k => m.erase k) m).lookup k = if k ∈ late then none else m.lookup k := by
  induction late generalizing m with
  | nil => simp
  | cons j late ih =>
      rw [List.foldl_cons, ih, Map.lookup_erase]
      by_cases hj : k = j <;> by_cases hl : k ∈ late <;> simp [hj, hl]

theorem lapses_releaseLate (env : Env) (idx : Nat) (w : Work) : Lapses w (releaseLate env idx w) := by
  unfold releaseLate
  split
  · exact .refl w
  · simp only
    split
    · exact .refl w
    · refine Lapses.trans ?_ (lapses_modifyPicker _ _)
      refine lapses_modifyPeer (by intro _; rfl) (fun p k t h => ?_) w idx
      simp only [lookup_foldl_erase] at h
      split at h
      · cases h
      · exact h

/-! ## The accounts at a refill -/

theorem balanced_interestRefill {idx : Nat} (h : Balanced sh w [])
    (hpoint : interestRefill idx w = some w₁) : Balanced sh w₁ [] := by
  unfold interestRefill at hpoint
  split at hpoint
  · cases hpoint
  · simp only at hpoint
    split at hpoint
    · obtain rfl := Option.some.inj hpoint
      refine h.idle (Idle.trans ?_ (idle_push _ _ _))
      exact idle_modifyPeer (by intro _; rfl) _ _
    · cases hpoint

theorem balanced_blockRefill {env : Env} {idx index begin : Nat} {block : Bytes}
    (h : Balanced sh w []) (hpoint : blockRefill sh env idx index begin block w = some w₁) :
    Balanced sh w₁ [] := by
  unfold blockRefill at hpoint
  cases hidx : w.st.peers[idx]? with
  | none =>
      simp only [hidx] at hpoint
      cases hpoint
  | some peer =>
      simp only [hidx] at hpoint
      split at hpoint
      · cases hpoint
      · rename_i hshape
        rw [not_or, not_not, not_le] at hshape
        split at hpoint
        · cases hpoint
        · by_cases hreq : (index, begin / BLOCK_LEN) ∈ peer.inFlight
          · have howed : Balanced sh (takeOwed idx (index, begin / BLOCK_LEN) true w)
                [(index, begin / BLOCK_LEN)] :=
              ⟨h.acc.replace [(index, begin / BLOCK_LEN)] hidx _
                (fun k => (has1_erase_add hreq k).trans (by simp)), h.layout, h.unique⟩
            have hnot : (takeOwed idx (index, begin / BLOCK_LEN) true w).st.picker.has index = false :=
              Bool.eq_false_iff.2 fun hheld => howed.acc.not_settled (Or.inr hheld)
            have hclear : ClearAt (takeOwed idx (index, begin / BLOCK_LEN) true w)
                (index, begin / BLOCK_LEN) idx := by
              intro p hp
              rw [takeOwed, Work.getElem?_modifyPeer hidx] at hp
              cases hp
              simp
            have hdone := balanced_onOwedBlock env block peer.dest hshape.2 howed hclear
            simp only [hreq, decide_true, Bool.not_true, hnot, Bool.or_self, Bool.false_eq_true,
              if_false] at hpoint
            split at hpoint
            · exact Option.some.inj hpoint ▸ hdone
            · cases hpoint
          · simp only [hreq, decide_false, Bool.not_false, Bool.true_or, if_true] at hpoint
            obtain rfl := Option.some.inj hpoint
            refine ⟨h.acc.replace [] hidx _ (fun k => ?_), h.layout, h.unique⟩
            rw [has1_erase]
            split
            · rename_i hk
              simp [has1, hk, hreq]
            · rfl

theorem balanced_messageRefill {env : Env} {idx : Nat} {first fast : Bool} {msg : Message}
    (h : Balanced sh w []) (hpoint : messageRefill sh env idx first fast msg w = some w₁) :
    Balanced sh w₁ [] := by
  have hreplace : ∀ field, interestRefill idx (replacePieceSet idx field w) = some w₁ →
      Balanced sh w₁ [] := fun field =>
    balanced_interestRefill (h.idle (idle_replacePieceSet idx field w))
  cases msg with
  | unchoke =>
      obtain rfl := Option.some.inj hpoint
      exact h.idle (idle_modifyPeer (by intro _; rfl) _ _)
  | have_ piece =>
      unfold messageRefill at hpoint
      simp only at hpoint
      split at hpoint
      · cases hpoint
      · split at hpoint
        · refine balanced_interestRefill (h.idle (Idle.trans ?_
            (idle_modifyPicker (fun pk => Picker.sameAccounting_addSingle pk piece) _))) hpoint
          exact idle_modifyPeer (by intro _; rfl) _ _
        · cases hpoint
  | bitfield bytes =>
      unfold messageRefill at hpoint
      simp only at hpoint
      split at hpoint
      · split at hpoint
        · exact hreplace _ hpoint
        · cases hpoint
      · cases hpoint
  | haveAll =>
      unfold messageRefill at hpoint
      simp only at hpoint
      split at hpoint
      · exact hreplace _ hpoint
      · cases hpoint
  | haveNone =>
      unfold messageRefill at hpoint
      simp only at hpoint
      split at hpoint
      · exact hreplace _ hpoint
      · cases hpoint
  | piece index begin block => exact balanced_blockRefill h hpoint
  | _ => cases hpoint

theorem balanced_releaseLate (env : Env) (idx : Nat) (h : Balanced sh w []) :
    Balanced sh (releaseLate env idx w) [] := by
  unfold releaseLate
  split
  · exact h
  · rename_i peer hidx
    simp only
    split
    · exact h
    · have hmoved := h.acc.replace (expired w.st env.now peer ++ []) hidx
        (fun p => { p with
          inFlight := (expired w.st env.now peer).foldl (fun m k => m.erase k) p.inFlight
          strikes := p.strikes + 1 })
        (fun k => by simpa using expired_count w.st env.now peer k)
      exact ⟨hmoved.failAll, (toLayout_failAll _ _).trans h.layout, h.unique⟩

theorem balanced_ticked (env : Env) (h : e.Accounts sh) : Balanced sh (ticked env e).1 [] := by
  unfold ticked
  refine Balanced.idle ?_ (idle_tickPeers env _ _ _ _)
  refine h.enter.idle ⟨⟨rfl, rfl, rfl, rfl⟩, ?_, rfl⟩
  simp [Engine.enter, Function.comp_def]

theorem balanced_maintainPeers (env : Env) (l : List Nat) {s : Work × List (Nat × Bool)}
    (h : Balanced sh s.1 []) : Balanced sh (l.foldl (maintainPeer env) s).1 [] := by
  induction l generalizing s with
  | nil => exact h
  | cons idx l ih => exact ih (balanced_maintainPeer env idx h)

/-- Whenever a section calls `fill_requests`, the accounts are in order. -/
theorem balanced_refills {ev : Event} {idx : Nat} (h : e.Accounts sh)
    (hcall : (idx, w) ∈ ev.refills sh e) : Balanced sh w [] := by
  cases ev with
  | message env id msg =>
      have hcall : sectionRefill sh env id msg e = some (idx, w) := Option.mem_toList.1 hcall
      unfold sectionRefill handleRefill at hcall
      split at hcall
      · cases hcall
      · split at hcall
        · cases hcall
        · obtain ⟨w₁, hpoint, heq⟩ := Option.map_eq_some_iff.1 hcall
          obtain ⟨-, rfl⟩ := Prod.mk.inj heq
          exact balanced_messageRefill ((entered_seen h env.now id).opened _ msg).balanced hpoint
  | maintain env =>
      obtain ⟨i, -, hpoint⟩ := List.mem_filterMap.1 hcall
      unfold maintainRefill at hpoint
      simp only at hpoint
      split at hpoint
      · cases hpoint
      · obtain ⟨rfl, rfl⟩ := Prod.mk.inj (Option.some.inj hpoint)
        exact balanced_releaseLate env _ (balanced_maintainPeers env _ (balanced_ticked env h))
  | _ => cases hcall

/-! ## The depth of a pipeline -/

/-- No peer owes more blocks than its pipeline is deep. -/
def Pipelined (st : State) : Prop := ∀ p ∈ st.peers, p.inFlight.keys.length ≤ PIPELINE_DEPTH

/-- A map with fewer entries has fewer keys. -/
theorem length_keys_le {m m' : Map BlockKey Nat}
    (h : ∀ k t, m'.lookup k = some t → m.lookup k = some t) : m'.keys.length ≤ m.keys.length := by
  refine (m'.keys_nodup.subperm fun k hk => ?_).length_le
  obtain ⟨t, ht⟩ := Option.isSome_iff_exists.1 (AList.lookup_isSome.2 (AList.mem_keys.1 hk))
  exact AList.mem_keys.2 (AList.lookup_isSome.1 (by rw [h k t ht]; rfl))

theorem Pipelined.lapses (h : Pipelined w.st) (hlapse : Lapses w w') : Pipelined w'.st := by
  intro p hp
  obtain ⟨j, hj⟩ := List.mem_iff_getElem?.1 hp
  obtain ⟨q, hq, hsub⟩ := hlapse.owed hj
  exact (length_keys_le hsub).trans (h q (List.mem_of_getElem? hq))

/-- A peer owes what it owed and what it is asked for now. -/
theorem mem_filled {now : Nat} {pk : Picker} {p : Peer} {flights : Map BlockKey Nat}
    (h : ∀ k, flights.lookup k = if k ∈ taken pk p then some now else p.inFlight.lookup k)
    {k : BlockKey} : k ∈ flights ↔ k ∈ taken pk p ∨ k ∈ p.inFlight := by
  rw [← AList.lookup_isSome, h, ← AList.lookup_isSome]
  split
  · rename_i hk
    simp [hk]
  · rename_i hk
    simp [hk]

theorem length_filled {now : Nat} {pk : Picker} {p : Peer} {flights : Map BlockKey Nat}
    (h : ∀ k, flights.lookup k = if k ∈ taken pk p then some now else p.inFlight.lookup k) :
    flights.keys.length = p.inFlight.keys.length + (fresh pk p).length := by
  have hnodup : (p.inFlight.keys ++ fresh pk p).Nodup := by
    refine List.nodup_append.2 ⟨p.inFlight.keys_nodup, ?_, ?_⟩
    · exact ((Picker.nodup_offers _ _).sublist (List.take_sublist _ _)).filter _
    · rintro k hk _ hk' rfl
      exact of_decide_eq_true (List.mem_filter.1 hk').2 (AList.mem_keys.1 hk)
  rw [← List.length_append]
  refine ((List.perm_ext_iff_of_nodup flights.keys_nodup hnodup).2 fun k => ?_).length_eq
  rw [← AList.mem_keys, mem_filled h, List.mem_append, ← AList.mem_keys, fresh, List.mem_filter]
  by_cases hk : k ∈ p.inFlight <;> simp [hk]

theorem length_fresh_le (pk : Picker) (p : Peer) : (fresh pk p).length ≤ p.room :=
  (List.length_filter_le _ _).trans (List.length_take_le _ _)

theorem Pipelined.fillRequests (h : Pipelined w.st) (hwf : w.st.picker.WF) (env : Env) (idx : Nat) :
    Pipelined (fillRequests env idx w).st := by
  rcases fillRequests_cases env idx hwf with heq | ⟨peer, hidx, -, hfilled⟩
  · rw [heq]
    exact h
  · intro p hp
    obtain ⟨j, hj⟩ := List.mem_iff_getElem?.1 hp
    by_cases hji : j = idx
    · subst hji
      obtain ⟨flights, hseat, hlookup⟩ := hfilled.seat
      obtain rfl := Option.some.inj (hseat.symm.trans hj)
      have hlength := length_filled hlookup
      have hfresh := length_fresh_le w.st.picker peer
      have hold := h peer (List.mem_of_getElem? hidx)
      unfold Peer.room at hfresh
      show flights.keys.length ≤ _
      omega
    · rw [hfilled.others j hji] at hj
      exact h p (List.mem_of_getElem? hj)

theorem Pipelined.maintainPeers (env : Env) (l : List Nat) {s : Work × List (Nat × Bool)}
    (h : Pipelined s.1.st) (hbal : Balanced sh s.1 []) :
    Pipelined (l.foldl (maintainPeer env) s).1.st := by
  induction l generalizing s with
  | nil => exact h
  | cons idx l ih =>
      refine ih ?_ (balanced_maintainPeer env idx hbal)
      rw [maintainPeer_fst]
      have hreleased := h.lapses (lapses_releaseLate env idx s.1)
      split
      · exact hreleased
      · exact hreleased.fillRequests (balanced_releaseLate env idx hbal).acc.wf env idx

theorem Pipelined.onMessage (h : Pipelined e.st) (hacc : e.Accounts sh) (env : Env) (id : Nat)
    (msg : Message) : Pipelined (onMessage sh env id msg e).1.st := by
  obtain ⟨w₂, heq, ⟨-, hlapse⟩ | ⟨idx, w₁, hpoint, hlapse, -, hafter⟩⟩ :=
    onMessage_refill sh env id msg e
  · rw [heq]
    exact Pipelined.lapses (w := e.enter) h hlapse
  · have hcall : (idx, w₁) ∈ (Event.message env id msg).refills sh e := Option.mem_toList.2 hpoint
    have hbal : Balanced sh w₁ [] := balanced_refills hacc hcall
    rw [heq]
    have hbefore : Pipelined w₁.st := Pipelined.lapses (w := e.enter) h hlapse
    exact (hbefore.fillRequests hbal.acc.wf env idx).lapses hafter

theorem Pipelined.maintain (h : Pipelined e.st) (hacc : e.Accounts sh) (env : Env) :
    Pipelined (maintain env e).1.st := by
  have hticked : Pipelined (ticked env e).1.st :=
    Pipelined.lapses (w := e.enter) h (lapses_ticked env e)
  have hfilled := hticked.maintainPeers env (List.range (ticked env e).1.st.peers.length)
    (balanced_ticked env hacc)
  exact hfilled.lapses ((lapses_considerRound env _).trans (lapses_recordSent env.now _))

/-- Every critical section keeps pipelines within their depth. -/
theorem Pipelined.step (h : Pipelined e.st) (hacc : e.Accounts sh) (ev : Event) :
    Pipelined (Engine.step sh ev e).st := by
  cases ev with
  | register env dest fast =>
      rcases registerPeer_cases sh env dest fast e.st with ⟨_, heq⟩ | ⟨_, _, _, _, _, heq⟩
      · rw [Engine.step, Engine.modifyState, heq]
        exact h
      · rw [Engine.step, Engine.modifyState, heq]
        intro p hp
        rcases List.mem_append.1 hp with hp | hp
        · exact h p hp
        · rw [List.mem_singleton.1 hp]
          exact Nat.zero_le _
  | message env id msg => exact h.onMessage hacc env id msg
  | maintain env => exact h.maintain hacc env
  | drop now id forCause =>
      rcases dropPeer_cases now id forCause e.st with ⟨-, heq⟩ | ⟨peer, rest, hperm, -, heq⟩
      · rw [Engine.step, Engine.modifyState, heq]
        exact h
      · rw [Engine.step, Engine.modifyState, heq]
        exact fun p hp => h p (hperm.mem_iff.1 (List.mem_cons_of_mem _ hp))
  | addPeers rank peers =>
      obtain ⟨known, heq⟩ := addPeers_eq rank peers e.st
      rw [Engine.step, Engine.modifyState, heq]
      exact h
  | _ => exact h

theorem pipelined_run (sh : Shared) (initialHave : Bitfield) (mode : Mode) (now : Nat) (disk : Disk)
    (events : List Event) :
    (Engine.run sh events (Engine.new sh initialHave mode now disk)).Accounts sh ∧
      Pipelined (Engine.run sh events (Engine.new sh initialHave mode now disk)).st :=
  Machine.run_induction (P := fun e : Engine => e.Accounts sh ∧ Pipelined e.st)
    (fun ev _ h => ⟨accounts_step ev h.1, h.2.step h.1 ev⟩) events
    ⟨accounts_new sh initialHave mode now disk, fun _ hp => absurd hp List.not_mem_nil⟩

/-- And whenever a section calls `fill_requests`. -/
theorem pipelined_refills {ev : Event} {idx : Nat} (h : Pipelined e.st) (hacc : e.Accounts sh)
    (hcall : (idx, w) ∈ ev.refills sh e) : Pipelined w.st := by
  cases ev with
  | message env id msg =>
      have hcall : sectionRefill sh env id msg e = some (idx, w) := Option.mem_toList.1 hcall
      obtain ⟨_, -, ⟨hnone, -⟩ | ⟨idx', w₁, hpoint, hlapse, -⟩⟩ := onMessage_refill sh env id msg e
      · rw [hnone] at hcall
        cases hcall
      · obtain ⟨-, rfl⟩ := Prod.mk.inj (Option.some.inj (hpoint.symm.trans hcall))
        exact Pipelined.lapses (w := e.enter) h hlapse
  | maintain env =>
      obtain ⟨i, -, hpoint⟩ := List.mem_filterMap.1 hcall
      unfold maintainRefill at hpoint
      simp only at hpoint
      split at hpoint
      · cases hpoint
      · obtain ⟨rfl, rfl⟩ := Prod.mk.inj (Option.some.inj hpoint)
        have hticked : Pipelined (ticked env e).1.st :=
          Pipelined.lapses (w := e.enter) h (lapses_ticked env e)
        exact (hticked.maintainPeers env _ (balanced_ticked env hacc)).lapses
          (lapses_releaseLate env _ _)
  | _ => cases hcall

end Clove.Torrent
