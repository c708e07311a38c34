import Clove.Torrent.Run

/-!
# Request accounting

The picker counts, block by block, the requests that are out; the peer table records which
peer owes which block.  `Accounted pk peers extra` says the two agree up to the blocks in
`extra`, each of which the picker counts once more than the table.  A handler that moves a
block between the two passes through a state with one block in `extra`; at the end of every
critical section there is none.

A block is *settled* when it is received or its piece is held.  No peer owes a settled
block, which is what makes an in-flight count never too small: neither a decrement at zero
nor the branch of `on_block` for a received block is ever reached.
-/

namespace Clove.Torrent

open Wire (BLOCK_LEN BlockRequest Message)

/-- How many peers owe a block. -/
def owing (peers : List Peer) (k : BlockKey) : Nat := peers.countP fun p => decide (k ∈ p.inFlight)

/-- One if the map has the key. -/
def has1 (m : Map BlockKey Nat) (k : BlockKey) : Nat := if k ∈ m then 1 else 0

/-- The picker counts what the peers owe, and `extra` besides. -/
structure Accounted (pk : Picker) (peers : List Peer) (extra : List BlockKey) : Prop where
  wf : pk.WF
  exact : ∀ k, pk.inFlightOf k = owing peers k + extra.count k
  settled : ∀ k, pk.Settled k → owing peers k + extra.count k = 0
  saturations : pk.saturations = 0

/-! ## The two tables -/

theorem owing_congr {peers peers' : List Peer}
    (h : peers'.map (·.inFlight) = peers.map (·.inFlight)) (k : BlockKey) :
    owing peers' k = owing peers k := by
  have hmap : ∀ l : List Peer, owing l k = (l.map (·.inFlight)).countP fun m => decide (k ∈ m) := by
    intro l
    rw [List.countP_map]
    rfl
  rw [hmap, hmap, h]

theorem owing_modify {peers : List Peer} {idx : Nat} {peer : Peer} (hidx : peers[idx]? = some peer)
    (f : Peer → Peer) (k : BlockKey) :
    owing (peers.modify idx f) k + has1 peer.inFlight k =
      owing peers k + has1 (f peer).inFlight k := by
  obtain ⟨hlt, rfl⟩ := List.getElem?_eq_some_iff.1 hidx
  have := Lists.countP_modify (p := fun p : Peer => decide (k ∈ p.inFlight)) (f := f) hlt
  simpa [owing, has1] using this

theorem owing_perm {peers peers' : List Peer} (h : peers.Perm peers') (k : BlockKey) :
    owing peers k = owing peers' k := h.countP_eq _

theorem count_keys (m : Map BlockKey Nat) (k : BlockKey) : m.keys.count k = has1 m k := by
  unfold has1
  split
  · rename_i h
    exact List.count_eq_one_of_mem m.keys_nodup (AList.mem_keys.1 h)
  · rename_i h
    exact List.count_eq_zero.2 fun hmem => h (AList.mem_keys.2 hmem)

namespace Accounted

variable {pk pk' : Picker} {peers peers' : List Peer} {extra extra' : List BlockKey}

/-- A change of the picker that leaves the accounting alone. -/
theorem same (h : Accounted pk peers extra) (hpk : Picker.SameAccounting pk pk') :
    Accounted pk' peers extra where
  wf := hpk.wf h.wf
  exact := fun k => (hpk.inFlightOf k).trans (h.exact k)
  settled := fun k hk => h.settled k ((hpk.settled_iff k).1 hk)
  saturations := hpk.saturations.trans h.saturations

/-- Tables that owe the same in total. -/
theorem shift (h : Accounted pk peers extra)
    (htotal : ∀ k, owing peers' k + extra'.count k = owing peers k + extra.count k) :
    Accounted pk peers' extra' where
  wf := h.wf
  exact := fun k => (h.exact k).trans (htotal k).symm
  settled := fun k hk => (htotal k).trans (h.settled k hk)
  saturations := h.saturations

/-- Replacing one peer's in-flight map, with the difference in `extra`. -/
theorem replace (h : Accounted pk peers extra) (extra' : List BlockKey) {idx : Nat} {peer : Peer}
    (hidx : peers[idx]? = some peer) (f : Peer → Peer)
    (hcount : ∀ k, has1 (f peer).inFlight k + extra'.count k =
      has1 peer.inFlight k + extra.count k) :
    Accounted pk (peers.modify idx f) extra' := by
  refine h.shift fun k => ?_
  have h₁ := owing_modify hidx f k
  have h₂ := hcount k
  omega

/-- A counted block is not settled. -/
theorem not_settled {k : BlockKey} (h : Accounted pk peers (k :: extra)) : ¬ pk.Settled k := by
  intro hk
  have := h.settled k hk
  simp at this

theorem inFlightOf_pos {k : BlockKey} (h : Accounted pk peers (k :: extra)) :
    0 < pk.inFlightOf k := by
  rw [h.exact k, List.count_cons_self]
  omega

/-- Giving one extra block back. -/
theorem blockFailed {k : BlockKey} (h : Accounted pk peers (k :: extra)) :
    Accounted (pk.blockFailed k.1 k.2) peers extra where
  wf := h.wf.blockFailed k.1 k.2
  exact := by
    intro j
    have hj := h.exact j
    rw [Picker.inFlightOf_blockFailed]
    by_cases hjk : j = k
    · subst hjk
      rw [List.count_cons_self] at hj
      rw [if_pos rfl]
      omega
    · rw [List.count_cons_of_ne (Ne.symm hjk)] at hj
      rw [if_neg hjk]
      exact hj
  settled := by
    intro j hj
    have := h.settled j ((Picker.settled_blockFailed k.1 k.2 j).1 hj)
    rw [List.count_cons] at this
    omega
  saturations := (Picker.saturations_blockFailed h.inFlightOf_pos).trans h.saturations

/-- Giving extra blocks back, one after the other. -/
theorem failAll {keys : List BlockKey} (h : Accounted pk peers (keys ++ extra)) :
    Accounted (failAll pk keys) peers extra := by
  induction keys generalizing pk with
  | nil => exact h
  | cons k keys ih => exact ih h.blockFailed

/-- Picking adds every request to `extra`. -/
theorem pick (h : Accounted pk peers []) (field : Bitfield) (want : Nat) :
    Accounted (pk.pick field want).1 peers ((pk.pick field want).2.map BlockRequest.key) := by
  have hp := Picker.picks_pick h.wf field want
  refine ⟨hp.wf, ?_, ?_, hp.saturations.trans h.saturations⟩
  · intro k
    have := h.exact k
    rw [hp.inFlightOf]
    simp at this
    omega
  · intro k hk
    have hset := (hp.settled_iff k).1 hk
    have hnone : ((pk.pick field want).2.map BlockRequest.key).count k = 0 :=
      List.count_eq_zero.2 fun hmem => hp.not_settled hmem hset
    have := h.settled k hset
    simp at this
    omega

/-- A block that nobody else owes is received. -/
theorem blockReceived {k : BlockKey} (h : Accounted pk peers [k]) (hnone : owing peers k = 0) :
    Accounted (pk.blockReceived k.1 k.2).1 peers [] := by
  have hpos := h.inFlightOf_pos
  have hcount := Picker.inFlightOf_blockReceived h.wf hpos
  obtain ⟨hhave, -, hsat⟩ := Picker.haveField_blockReceived h.wf hpos
  refine ⟨h.wf.blockReceived hpos, ?_, ?_, hsat.trans h.saturations⟩
  · intro j
    have hj := h.exact j
    rw [hcount]
    by_cases hjk : j = k
    · subst hjk
      rw [if_pos rfl, hj, List.count_cons_self]
      simp
    · rw [List.count_cons_of_ne (Ne.symm hjk)] at hj
      rw [if_neg hjk]
      exact hj
  · intro j hj
    by_cases hjk : j = k
    · subst hjk
      simpa using hnone
    · have hset : pk.Settled j := by
        rcases hj with hj | hj
        · rw [Picker.isReceived_blockReceived h.wf hpos] at hj
          have hne : ¬ (j.1, j.2) = (k.1, k.2) := hjk
          rw [if_neg hne] at hj
          exact Or.inl hj
        · right
          simpa only [Picker.has, hhave] using hj
      have := h.settled j hset
      rw [List.count_cons_of_ne (Ne.symm hjk)] at this
      simpa using this

/-- Every block of a piece is received: nobody owes any of it. -/
theorem owing_eq_zero_of_complete (h : Accounted pk peers []) {index : Nat}
    (hall : ∀ c < pk.blocksInPiece index, pk.isReceived index c = true) (c : Nat) :
    owing peers (index, c) = 0 := by
  by_cases hc : c < pk.blocksInPiece index
  · have := h.settled (index, c) (Or.inl (hall c hc))
    simpa using this
  · have hzero : pk.inFlightOf (index, c) = 0 := by
      by_contra hne
      exact hc (h.wf.of_inFlightOf_pos (Nat.pos_of_ne_zero hne)).2
    have := h.exact (index, c)
    simp at this
    omega

/-- A change that clears the accounting of one piece, when nobody owes any of it. -/
theorem verdict (h : Accounted pk peers []) {index : Nat} (hwf : pk'.WF)
    (hnone : ∀ c, owing peers (index, c) = 0) (hsat : pk'.saturations = pk.saturations)
    (hcount : ∀ k, pk'.inFlightOf k = if k.1 = index then 0 else pk.inFlightOf k)
    (hset : ∀ k, k.1 ≠ index → pk'.Settled k → pk.Settled k) : Accounted pk' peers [] := by
  refine ⟨hwf, ?_, ?_, hsat.trans h.saturations⟩
  · rintro ⟨i, c⟩
    have := h.exact (i, c)
    rw [hcount]
    by_cases hi : i = index
    · subst hi
      simpa using (hnone c).symm
    · simpa [hi] using this
  · rintro ⟨i, c⟩ hk
    by_cases hi : i = index
    · subst hi
      simpa using hnone c
    · exact h.settled _ (hset _ hi hk)

theorem setHave (h : Accounted pk peers []) {index : Nat} (hi : index < pk.numPieces)
    (hnone : ∀ c, owing peers (index, c) = 0) : Accounted (pk.setHave index) peers [] := by
  refine h.verdict (h.wf.setHave hi) hnone ?_ (Picker.inFlightOf_setHave hi) ?_
  · simp only [Picker.setHave, hi, if_true]
  · intro k hk hset
    rcases hset with hset | hset
    · rw [Picker.isReceived_setHave hi, if_neg hk] at hset
      exact Or.inl hset
    · rw [Picker.has_setHave h.wf hi] at hset
      simp only [hk, decide_false, Bool.false_or] at hset
      exact Or.inr hset

theorem resetPiece (h : Accounted pk peers []) {index : Nat} (hi : index < pk.numPieces)
    (hnone : ∀ c, owing peers (index, c) = 0) : Accounted (pk.resetPiece index) peers [] := by
  refine h.verdict (h.wf.resetPiece hi) hnone ?_ (Picker.inFlightOf_resetPiece hi) ?_
  · simp only [Picker.resetPiece, hi, if_true]
  · intro k hk hset
    rcases hset with hset | hset
    · rw [Picker.isReceived_resetPiece hi, if_neg hk] at hset
      exact Or.inl hset
    · rw [Picker.has_resetPiece hi] at hset
      simp only [ne_eq, hk, not_false_eq_true, decide_true, Bool.true_and] at hset
      exact Or.inr hset

end Accounted

theorem toLayout_failAll (pk : Picker) (keys : List BlockKey) :
    (failAll pk keys).toLayout = pk.toLayout := by
  induction keys generalizing pk with
  | nil => rfl
  | cons k keys ih => exact (ih _).trans (Picker.haveField_blockFailed pk k.1 k.2).2

/-! ## Critical sections -/

/-- A critical section whose tables agree up to `extra`. -/
structure Balanced (sh : Shared) (w : Work) (extra : List BlockKey) : Prop where
  acc : Accounted w.st.picker w.st.peers extra
  layout : w.st.picker.toLayout = sh.storage.layout
  unique : ∀ k, Access.duplicate k ∉ w.trace

/-- A change outside the accounting. -/
structure Idle (w w' : Work) : Prop where
  picker : Picker.SameAccounting w.st.picker w'.st.picker
  peers : w'.st.peers.map (·.inFlight) = w.st.peers.map (·.inFlight)
  trace : w'.trace = w.trace

variable {sh : Shared} {w w' w₁ w₂ w₃ : Work}

theorem Idle.refl (w : Work) : Idle w w := ⟨⟨rfl, rfl, rfl, rfl⟩, rfl, rfl⟩

theorem Idle.trans (h₁ : Idle w₁ w₂) (h₂ : Idle w₂ w₃) : Idle w₁ w₃ where
  picker :=
    { toLayout := h₂.picker.toLayout.trans h₁.picker.toLayout
      haveField := h₂.picker.haveField.trans h₁.picker.haveField
      progress := h₂.picker.progress.trans h₁.picker.progress
      saturations := h₂.picker.saturations.trans h₁.picker.saturations }
  peers := h₂.peers.trans h₁.peers
  trace := h₂.trace.trans h₁.trace

theorem Balanced.idle {extra : List BlockKey} (h : Balanced sh w extra) (hi : Idle w w') :
    Balanced sh w' extra where
  acc := (h.acc.same hi.picker).shift fun k => by rw [owing_congr hi.peers]
  layout := hi.picker.toLayout.trans h.layout
  unique := by rw [hi.trace]; exact h.unique

theorem Balanced.numPieces (h : Balanced sh w []) : w.st.picker.numPieces = sh.numPieces := by
  rw [Shared.numPieces, ← h.layout]

/-- A fold of changes outside the accounting. -/
theorem idle_foldl {α : Type} {f : Work → α → Work} (hf : ∀ w a, Idle w (f w a)) (l : List α)
    (w : Work) : Idle w (l.foldl f w) := by
  induction l generalizing w with
  | nil => exact Idle.refl w
  | cons a l ih => exact (hf w a).trans (ih _)

theorem idle_modifyPeer {f : Peer → Peer} (hf : ∀ p, (f p).inFlight = p.inFlight) (w : Work)
    (idx : Nat) : Idle w (w.modifyPeer idx f) :=
  ⟨⟨rfl, rfl, rfl, rfl⟩, Lists.map_modify_of_eq hf _ _, rfl⟩

theorem idle_modifyPicker {f : Picker → Picker} (hf : ∀ pk, Picker.SameAccounting pk (f pk))
    (w : Work) : Idle w (w.modifyPicker f) := ⟨hf _, rfl, rfl⟩

theorem idle_push (w : Work) (id : Nat) (msg : Message) : Idle w (w.push id msg) :=
  ⟨⟨rfl, rfl, rfl, rfl⟩, rfl, rfl⟩

/-! ### Handlers outside the accounting -/

theorem idle_setChoke (choke : Bool) (w : Work) (id : Nat) : Idle w (setChoke choke w id) := by
  unfold setChoke
  split
  · exact Idle.refl w
  · refine Idle.trans ?_ (idle_push _ _ _)
    exact idle_modifyPeer (by intro _; rfl) _ _

theorem idle_runChoker (w : Work) : Idle w (runChoker w) := by
  unfold runChoker
  refine Idle.trans ?_ ((idle_foldl (idle_setChoke false) _ _).trans
    (idle_foldl (idle_setChoke true) _ _))
  exact ⟨⟨rfl, rfl, rfl, rfl⟩, by simp [Function.comp_def], rfl⟩

theorem idle_considerRound (env : Env) (w : Work) : Idle w (considerRound env w) := by
  unfold considerRound
  split
  · refine Idle.trans ?_ (idle_runChoker _)
    exact ⟨⟨rfl, rfl, rfl, rfl⟩, rfl, rfl⟩
  · exact Idle.refl w

theorem modifyId_frame (st : State) (id : Nat) {f : Peer → Peer}
    (hf : ∀ p, (f p).inFlight = p.inFlight) :
    (st.modifyId id f).picker = st.picker ∧
      (st.modifyId id f).peers.map (·.inFlight) = st.peers.map (·.inFlight) := by
  unfold State.modifyId
  split
  · exact ⟨rfl, Lists.map_modify_of_eq hf _ _⟩
  · exact ⟨rfl, rfl⟩

theorem idle_recordSent (now : Nat) (w : Work) : Idle w (recordSent now w) := by
  have h : ∀ (l : List Outgoing) (st : State),
      (l.foldl (fun st o => st.modifyId o.1 fun p => { p with lastSent := now }) st).picker =
        st.picker ∧
      (l.foldl (fun st o => st.modifyId o.1 fun p => { p with lastSent := now }) st).peers.map
        (·.inFlight) = st.peers.map (·.inFlight) := by
    intro l
    induction l with
    | nil => intro st; exact ⟨rfl, rfl⟩
    | cons o l ih =>
        intro st
        obtain ⟨hpk, hpeers⟩ := ih (st.modifyId o.1 fun p => { p with lastSent := now })
        obtain ⟨hpk₀, hpeers₀⟩ := modifyId_frame st o.1
          (f := fun p => { p with lastSent := now }) (fun _ => rfl)
        exact ⟨hpk.trans hpk₀, hpeers.trans hpeers₀⟩
  obtain ⟨hpk, hpeers⟩ := h w.out w.st
  refine ⟨?_, hpeers, rfl⟩
  simp only [recordSent, hpk]
  exact ⟨rfl, rfl, rfl, rfl⟩

theorem idle_violation (id : Nat) (w : Work) : Idle w (violation id w) :=
  ⟨⟨rfl, rfl, rfl, rfl⟩, rfl, rfl⟩

theorem idle_replacePieceSet (idx : Nat) (field : Bitfield) (w : Work) :
    Idle w (replacePieceSet idx field w) := by
  unfold replacePieceSet
  split
  · exact Idle.refl w
  · refine Idle.trans ?_ (idle_modifyPicker (by intro _; exact ⟨rfl, rfl, rfl, rfl⟩) _)
    exact idle_modifyPeer (by intro _; rfl) _ _

theorem idle_onInterested (idx : Nat) (w : Work) : Idle w (onInterested idx w) := by
  unfold onInterested
  simp only
  split
  · refine Idle.trans ?_ (idle_runChoker _)
    exact idle_modifyPeer (by intro _; rfl) _ _
  · exact idle_modifyPeer (by intro _; rfl) _ _

theorem idle_onNotInterested (idx : Nat) (w : Work) : Idle w (onNotInterested idx w) := by
  unfold onNotInterested
  split
  · exact Idle.refl w
  · simp only
    split
    · exact idle_modifyPeer (by intro _; rfl) _ _
    · refine Idle.trans ?_ (idle_push _ _ _)
      refine Idle.trans ?_ (idle_modifyPeer (by intro _; rfl) _ _)
      exact idle_modifyPeer (by intro _; rfl) _ _

theorem idle_serveRequest (env : Env) (idx : Nat) (req : BlockRequest) (w : Work) :
    Idle w (serveRequest sh env idx req w) := by
  unfold serveRequest
  split
  · exact Idle.refl w
  · split
    · exact Idle.refl w
    · split
      · exact Idle.refl w
      · refine Idle.trans ?_ (idle_push _ _ _)
        refine Idle.trans ?_ (idle_modifyPeer (by intro _; rfl) _ _)
        exact ⟨⟨rfl, rfl, rfl, rfl⟩, rfl, rfl⟩

theorem idle_sendPex (env : Env) (idx : Nat) (w : Work) : Idle w (sendPex env idx w) := by
  unfold sendPex
  split
  · exact Idle.refl w
  · split
    · exact Idle.refl w
    · simp only
      split
      · exact Idle.refl w
      · exact idle_push _ _ _

theorem idle_serveMetadata (idx piece : Nat) (w : Work) :
    Idle w (serveMetadata sh idx piece w) := by
  unfold serveMetadata
  split
  · exact Idle.refl w
  · split
    · exact Idle.refl w
    · refine Idle.trans ?_ (idle_push _ _ _)
      exact idle_modifyPeer (by intro _; rfl) _ _

theorem idle_learn (env : Env) (w : Work) (dest : DestHash) : Idle w (learn env w dest) := by
  obtain ⟨hpk, hpeers, -⟩ := State.untouched_rememberPeerFrom w.st env.rank dest .pex
  unfold learn
  simp only
  refine ⟨?_, ?_, rfl⟩
  · split <;> simp only [hpk] <;> exact ⟨rfl, rfl, rfl, rfl⟩
  · split <;> simp only [hpeers]

theorem idle_onExtended (env : Env) (idx : Nat) (extId : UInt8) (payload : Bytes) (w : Work) :
    Idle w (onExtended sh env idx extId payload w) := by
  unfold onExtended
  split
  · split
    · exact Idle.refl w
    · simp only
      split
      · exact idle_modifyPeer (by intro _; rfl) _ _
      · refine Idle.trans ?_ (idle_sendPex _ _ _)
        exact idle_modifyPeer (by intro _; rfl) _ _
  · split
    · split
      · exact Idle.refl w
      · split
        · exact Idle.refl w
        · exact idle_foldl (idle_learn env) _ _
    · split
      · split
        · exact idle_serveMetadata _ _ _
        · exact Idle.refl w
      · exact Idle.refl w

/-! ### Requests -/

/-- Each request `fill_requests` looks at ends up in the peer's map or among the
duplicates. -/
theorem askFor_count (now : Nat) (f : Filling) (req : BlockRequest) (k : BlockKey) :
    has1 (askFor now f req).inFlight k + (askFor now f req).duplicates.count k =
      has1 f.inFlight k + f.duplicates.count k + [BlockRequest.key req].count k := by
  have hmem : ∀ m : Map BlockKey Nat, k ∈ m.insert (BlockRequest.key req) now ↔
      k = BlockRequest.key req ∨ k ∈ m := fun m => AList.mem_insert m
  unfold askFor has1
  by_cases hk : k = BlockRequest.key req
  · subst hk
    by_cases hin : BlockRequest.key req ∈ f.inFlight
    · simp [hin]
      omega
    · simp [hin]
      omega
  · have hne : BlockRequest.key req ≠ k := fun h => hk h.symm
    by_cases hin : BlockRequest.key req ∈ f.inFlight
    · simp [hin, hmem, hk, List.count_append, hne]
    · simp [hin, hmem, hk, hne]

theorem askFor_foldl_count (now : Nat) (reqs : List BlockRequest) (f : Filling) (k : BlockKey) :
    has1 (reqs.foldl (askFor now) f).inFlight k + (reqs.foldl (askFor now) f).duplicates.count k =
      has1 f.inFlight k + f.duplicates.count k + (reqs.map BlockRequest.key).count k := by
  induction reqs generalizing f with
  | nil => simp
  | cons r reqs ih =>
      have hstep := askFor_count now f r k
      have hcons : ((r :: reqs).map BlockRequest.key).count k =
          [BlockRequest.key r].count k + (reqs.map BlockRequest.key).count k := by
        rw [List.map_cons, ← List.singleton_append, List.count_append]
      rw [List.foldl_cons, ih, hcons]
      omega

theorem balanced_fillRequests (env : Env) (idx : Nat) (h : Balanced sh w []) :
    Balanced sh (fillRequests env idx w) [] := by
  unfold fillRequests
  split
  · exact h
  · rename_i peer hidx
    split
    · exact h
    · simp only
      split
      · exact h
      · have hpick := h.acc.pick peer.has (PIPELINE_DEPTH - peer.inFlight.keys.length)
        have hlayout := (Picker.picks_pick h.acc.wf peer.has
          (PIPELINE_DEPTH - peer.inFlight.keys.length)).toLayout
        generalize w.st.picker.pick peer.has (PIPELINE_DEPTH - peer.inFlight.keys.length) = picked
          at hpick hlayout
        have hcount := askFor_foldl_count (env.fillNow idx) picked.2 ⟨peer.inFlight, [], []⟩
        generalize picked.2.foldl (askFor (env.fillNow idx)) ⟨peer.inFlight, [], []⟩ = f at hcount
        have hasked := hpick.replace _ hidx (fun p => { p with inFlight := f.inFlight })
          (fun k => (hcount k).trans (by simp))
        refine ⟨?_, ?_, h.unique⟩
        · exact Accounted.failAll (by rw [List.append_nil]; exact hasked)
        · refine Eq.trans ?_ (hlayout.trans h.layout)
          exact toLayout_failAll _ _

theorem has1_erase (m : Map BlockKey Nat) (k j : BlockKey) :
    has1 (m.erase k) j = if j = k then 0 else has1 m j := by
  unfold has1
  by_cases hjk : j = k
  · subst hjk
    simp
  · simp [hjk]

/-- Taking a block out of a peer's map, when it is there, leaves it in `extra`. -/
theorem has1_erase_add {m : Map BlockKey Nat} {k : BlockKey} (hk : k ∈ m) (j : BlockKey) :
    has1 (m.erase k) j + [k].count j = has1 m j := by
  rw [has1_erase]
  by_cases hjk : j = k
  · subst hjk
    simp [has1, hk]
  · have : k ≠ j := fun h => hjk h.symm
    simp [hjk, this]

theorem balanced_cancelAt {idx index begin blockNo length : Nat} (other : Nat)
    (h : Balanced sh w [(index, blockNo)]) :
    Balanced sh (cancelAt idx index begin blockNo length w other) [(index, blockNo)] := by
  unfold cancelAt
  split
  · exact h
  · split
    · exact h
    · rename_i peer hpeer
      split
      · rename_i hin
        have hmoved := h.acc.replace [(index, blockNo), (index, blockNo)] hpeer
          (fun p => { p with inFlight := p.inFlight.erase (index, blockNo) })
          (fun k => by
            have := has1_erase_add hin k
            rw [List.count_cons]
            rw [List.count_cons, List.count_nil] at this
            simp only at this ⊢
            omega)
        refine ⟨hmoved.blockFailed, ?_, h.unique⟩
        exact (Picker.haveField_blockFailed _ _ _).2.trans h.layout
      · exact h

/-- No peer at this position owes the block. -/
def ClearAt (w : Work) (k : BlockKey) (j : Nat) : Prop :=
  ∀ p, w.st.peers[j]? = some p → k ∉ p.inFlight

theorem clearAt_cancelAt {idx index begin blockNo length : Nat} (other j : Nat) (w : Work)
    (h : ClearAt w (index, blockNo) j ∨ (j = other ∧ other ≠ idx)) :
    ClearAt (cancelAt idx index begin blockNo length w other) (index, blockNo) j := by
  unfold cancelAt
  split
  · rename_i heq
    rcases h with h | ⟨-, hne⟩
    · exact h
    · exact absurd heq hne
  · split
    · rename_i hnone
      rcases h with h | ⟨rfl, -⟩
      · exact h
      · intro p hp
        rw [hnone] at hp
        cases hp
    · rename_i peer hpeer
      split
      · intro p hp
        simp only [Work.push, Work.modifyPicker, Work.modifyPeer, List.getElem?_modify] at hp
        by_cases hj : other = j
        · subst hj
          simp only [hpeer, if_true, Option.map_eq_map, Option.map_some,
            Option.some.injEq] at hp
          subst hp
          simp
        · simp only [hj, if_false, Option.map_eq_map, Option.map_id'] at hp
          rcases h with h | ⟨hjo, -⟩
          · exact h p hp
          · exact absurd hjo.symm hj
      · rename_i hnot
        rcases h with h | ⟨rfl, -⟩
        · exact h
        · intro p hp
          rw [hpeer] at hp
          obtain rfl := Option.some.inj hp
          exact hnot

theorem length_peers_cancelAt (idx index begin blockNo length : Nat) (w : Work) (other : Nat) :
    (cancelAt idx index begin blockNo length w other).st.peers.length = w.st.peers.length := by
  unfold cancelAt
  split
  · rfl
  · split
    · rfl
    · split
      · simp [Work.push, Work.modifyPicker, Work.modifyPeer]
      · rfl

/-- After `cancel_elsewhere` nobody owes the block. -/
theorem balanced_cancelElsewhere {idx index blockNo : Nat} (begin : Nat)
    (h : Balanced sh w [(index, blockNo)]) (hself : ClearAt w (index, blockNo) idx) :
    Balanced sh (cancelElsewhere idx index begin blockNo w) [(index, blockNo)] ∧
      owing (cancelElsewhere idx index begin blockNo w).st.peers (index, blockNo) = 0 := by
  unfold cancelElsewhere
  simp only
  generalize w.st.picker.blockLen index blockNo = length
  -- the invariant of the loop: what it has passed, and the sender, owe nothing
  have hloop : ∀ n, Balanced sh ((List.range n).foldl
        (cancelAt idx index begin blockNo length) w) [(index, blockNo)] ∧
      ((List.range n).foldl (cancelAt idx index begin blockNo length) w).st.peers.length =
        w.st.peers.length ∧
      ∀ j, j < n ∨ j = idx → ClearAt ((List.range n).foldl
        (cancelAt idx index begin blockNo length) w) (index, blockNo) j := by
    intro n
    induction n with
    | zero =>
        refine ⟨h, rfl, ?_⟩
        rintro j (hj | rfl)
        · omega
        · exact hself
    | succ n ih =>
        obtain ⟨hbal, hlen, hclear⟩ := ih
        rw [List.range_succ, List.foldl_append]
        refine ⟨balanced_cancelAt n hbal, ?_, ?_⟩
        · rw [List.foldl_cons, List.foldl_nil, length_peers_cancelAt, hlen]
        · intro j hj
          refine clearAt_cancelAt n j _ ?_
          by_cases hjn : j = n
          · by_cases hnidx : n = idx
            · exact Or.inl (hclear j (Or.inr (hjn.trans hnidx)))
            · exact Or.inr ⟨hjn, hnidx⟩
          · refine Or.inl (hclear j ?_)
            omega
  obtain ⟨hbal, hlen, hclear⟩ := hloop w.st.peers.length
  refine ⟨hbal, ?_⟩
  rw [owing, List.countP_eq_zero]
  intro p hp
  obtain ⟨j, hj, rfl⟩ := List.getElem_of_mem hp
  have := hclear j (Or.inl (hlen ▸ hj)) _ (List.getElem?_eq_getElem hj)
  simpa using this

/-! ### Blocks -/

theorem balanced_onComplete (env : Env) {index : Nat} (hi : index < sh.numPieces)
    (h : Balanced sh w []) (hnone : ∀ c, owing w.st.peers (index, c) = 0) :
    Balanced sh (onComplete sh env index w) [] := by
  have hi' : index < w.st.picker.numPieces := by
    rw [h.numPieces]
    exact hi
  unfold onComplete
  split
  · simp only
    obtain ⟨hpk, hpeers, -⟩ := State.untouched_creditSuppliers
      (w.modifyPicker fun pk => pk.setHave index).st index
    refine ⟨?_, ?_, h.unique⟩
    · simp only [hpk, hpeers]
      exact h.acc.setHave hi' hnone
    · simp only [hpk]
      rw [← h.layout]
      simp [Work.modifyPicker, Picker.setHave, hi']
  · simp only
    obtain ⟨hpk, hpeers, -⟩ := State.untouched_blameSuppliers
      (w.modifyPicker fun pk => pk.resetPiece index).st index
    refine ⟨?_, ?_, h.unique⟩
    · simp only [hpk, hpeers]
      exact h.acc.resetPiece hi' hnone
    · simp only [hpk]
      rw [← h.layout]
      simp [Work.modifyPicker, Picker.resetPiece, hi']
  · exact ⟨h.acc, h.layout, h.unique⟩

theorem idle_recordBlock (idx : Nat) (k : BlockKey) (dest : DestHash) (length : Nat) (w : Work) :
    Idle w (recordBlock idx k dest length w) :=
  ⟨⟨rfl, rfl, rfl, rfl⟩, Lists.map_modify_of_eq (by intro _; rfl) _ _, rfl⟩

theorem ClearAt.recordBlock {idx : Nat} {j : BlockKey} (h : ClearAt w j idx) (k : BlockKey)
    (dest : DestHash) (length : Nat) : ClearAt (recordBlock idx k dest length w) j idx := by
  intro p hp
  simp only [Torrent.recordBlock, Work.modifyPeer, List.getElem?_modify_eq] at hp
  obtain ⟨q, hq, rfl⟩ := Option.map_eq_some_iff.1 hp
  exact h q hq

theorem balanced_onWritten (env : Env) {idx index begin : Nat} (block : Bytes) (dest : DestHash)
    (hi : index < sh.numPieces) (h : Balanced sh w [(index, begin / BLOCK_LEN)])
    (hself : ClearAt w (index, begin / BLOCK_LEN) idx) :
    Balanced sh (onWritten sh env idx index begin block dest w).1 [] := by
  unfold onWritten
  simp only
  have hbal := h.idle (idle_recordBlock idx (index, begin / BLOCK_LEN) dest block.length w)
  have hclear := hself.recordBlock (index, begin / BLOCK_LEN) dest block.length
  obtain ⟨hcancel, hnone⟩ := balanced_cancelElsewhere begin hbal hclear
  generalize cancelElsewhere idx index begin (begin / BLOCK_LEN) _ = w₁ at hcancel hnone
  have hpos := hcancel.acc.inFlightOf_pos
  have hrec := hcancel.acc.blockReceived hnone
  have hlayout := (Picker.haveField_blockReceived hcancel.acc.wf hpos).2.1
  have hafter : Balanced sh (w₁.modifyPicker fun _ =>
      (w₁.st.picker.blockReceived index (begin / BLOCK_LEN)).1) [] :=
    ⟨hrec, hlayout.trans hcancel.layout, hcancel.unique⟩
  split
  · rename_i hcomplete
    refine balanced_onComplete env hi hafter fun c => ?_
    have hall := Picker.blockReceived_complete hcancel.acc.wf hpos hcomplete
    refine hrec.owing_eq_zero_of_complete (fun c hc => hall c ?_) c
    rw [hlayout] at hc
    exact hc
  · exact hafter

/-- A block is written. -/
theorem Balanced.write {extra : List BlockKey} (h : Balanced sh w extra) (disk : Disk)
    (start len : Nat) (held : Bitfield) (parts : List FileWrite) :
    Balanced sh { w with disk := disk, trace := w.trace ++ [.write start len held parts] }
      extra := by
  refine ⟨h.acc, h.layout, fun k hk => ?_⟩
  rcases List.mem_append.1 hk with hk | hk
  · exact h.unique k hk
  · cases List.mem_singleton.1 hk

theorem balanced_onOwedBlock (env : Env) {idx index begin : Nat} (block : Bytes) (dest : DestHash)
    (hi : index < sh.numPieces) (h : Balanced sh w [(index, begin / BLOCK_LEN)])
    (hself : ClearAt w (index, begin / BLOCK_LEN) idx) :
    Balanced sh (onOwedBlock sh env idx index begin block dest w).1 [] := by
  unfold onOwedBlock
  simp only
  split
  · -- a block that is owed is not received
    rename_i hrec
    exact absurd (Or.inl hrec) h.acc.not_settled
  · have hw := h.write (w.disk.writes (sh.storage.writeBlock env.writeFault index begin block).1)
      (sh.storage.offsetOf index begin) block.length w.st.picker.haveField
      (sh.storage.writeBlock env.writeFault index begin block).1
    split
    · exact ⟨hw.acc.blockFailed, (Picker.haveField_blockFailed _ _ _).2.trans hw.layout, hw.unique⟩
    · exact balanced_onWritten env block dest hi hw hself

/-- A block that is owed moves from the peer's map to `extra`. -/
theorem balanced_takeOwed {idx : Nat} {peer : Peer} {k : BlockKey} (h : Balanced sh w [])
    (hidx : w.st.peers[idx]? = some peer) (hk : k ∈ peer.inFlight) :
    Balanced sh (takeOwed idx k true w) [k] ∧ ClearAt (takeOwed idx k true w) k idx := by
  refine ⟨⟨h.acc.replace [k] hidx _ (fun j => (has1_erase_add hk j).trans (by simp)), h.layout,
    h.unique⟩, fun p hp => ?_⟩
  rw [takeOwed, Work.getElem?_modifyPeer hidx] at hp
  cases hp
  simp

theorem balanced_onBlock (env : Env) (idx index begin : Nat) (block : Bytes)
    (h : Balanced sh w []) : Balanced sh (onBlock sh env idx index begin block w) [] := by
  rcases onBlock_cases sh env idx index begin block w with heq | ⟨peer, hidx, -, hi, -, hcase⟩
  · rw [heq]
    exact h
  · have howed := fun hreq => balanced_takeOwed (k := (index, begin / BLOCK_LEN)) h hidx hreq
    rcases hcase with ⟨hreq, heq⟩ | ⟨hreq, hheld, -⟩ | ⟨hreq, -, r, hr, heq⟩
    · rw [heq]
      refine balanced_fillRequests env idx ⟨h.acc.replace [] hidx _ (fun k => ?_), h.layout,
        h.unique⟩
      rw [has1_erase]
      split
      · rename_i hk
        simp [has1, hk, hreq]
      · rfl
    · exact absurd (Or.inr hheld) (howed hreq).1.acc.not_settled
    · obtain ⟨hbal, hclear⟩ := howed hreq
      have hdone := balanced_onOwedBlock env block peer.dest hi hbal hclear
      rw [heq, hr]
      split
      · exact balanced_fillRequests env idx hdone
      · exact hdone

/-! ### Messages -/

theorem balanced_onChoke (idx : Nat) (h : Balanced sh w []) : Balanced sh (onChoke idx w) [] := by
  unfold onChoke
  split
  · exact h
  · rename_i peer hidx
    have hmoved := h.acc.replace (peer.inFlight.keys ++ []) hidx
      (fun p => { p with peerChoking := true, inFlight := ∅ })
      (fun k => by simp [count_keys, has1])
    exact ⟨hmoved.failAll, (toLayout_failAll _ _).trans h.layout, h.unique⟩

theorem balanced_updateInterest (env : Env) (idx : Nat) (h : Balanced sh w []) :
    Balanced sh (updateInterest env idx w) [] := by
  unfold updateInterest
  split
  · exact h
  · rename_i peer hidx
    simp only
    split
    · have hbal : Balanced sh ((w.modifyPeer idx fun p => { p with weInterested := true }).push
          peer.id .interested) [] := by
        refine h.idle (Idle.trans ?_ (idle_push _ _ _))
        exact idle_modifyPeer (by intro _; rfl) _ _
      split
      · exact hbal
      · exact balanced_fillRequests env idx hbal
    · split
      · refine h.idle (Idle.trans ?_ (idle_push _ _ _))
        exact idle_modifyPeer (by intro _; rfl) _ _
      · exact h

theorem balanced_onHave (env : Env) (idx piece : Nat) (h : Balanced sh w []) :
    Balanced sh (onHave sh env idx piece w) [] := by
  unfold onHave
  split
  · exact h
  · split
    · refine balanced_updateInterest env idx (h.idle (Idle.trans ?_
        (idle_modifyPicker (fun pk => Picker.sameAccounting_addSingle pk piece) _)))
      exact idle_modifyPeer (by intro _; rfl) _ _
    · exact h

theorem balanced_dispatch (env : Env) (idx id : Nat) (first fast : Bool) (msg : Message)
    (h : Balanced sh w []) : Balanced sh (dispatch sh env idx id first fast msg w) [] := by
  unfold dispatch
  cases msg with
  | keepAlive => exact h
  | cancel _ => exact h
  | rejectRequest _ =>
      simp only
      split
      · exact h
      · exact h.idle (idle_violation id w)
  | suggestPiece _ =>
      simp only
      split
      · exact h
      · exact h.idle (idle_violation id w)
  | allowedFast _ =>
      simp only
      split
      · exact h
      · exact h.idle (idle_violation id w)
  | extended extId payload => exact h.idle (idle_onExtended env idx extId payload w)
  | choke => exact balanced_onChoke idx h
  | unchoke =>
      refine balanced_fillRequests env idx (h.idle ?_)
      exact idle_modifyPeer (by intro _; rfl) _ _
  | interested => exact h.idle (idle_onInterested idx w)
  | notInterested => exact h.idle (idle_onNotInterested idx w)
  | have_ piece => exact balanced_onHave env idx piece h
  | bitfield bytes =>
      simp only
      split
      · split
        · exact balanced_updateInterest env idx (h.idle (idle_replacePieceSet _ _ _))
        · exact h.idle (idle_violation id w)
      · exact h.idle (idle_violation id w)
  | haveAll =>
      simp only
      split
      · exact balanced_updateInterest env idx (h.idle (idle_replacePieceSet _ _ _))
      · exact h.idle (idle_violation id w)
  | haveNone =>
      simp only
      split
      · exact balanced_updateInterest env idx (h.idle (idle_replacePieceSet _ _ _))
      · exact h.idle (idle_violation id w)
  | request req => exact h.idle (idle_serveRequest env idx req w)
  | piece index begin block => exact balanced_onBlock env idx index begin block h

theorem balanced_handle (env : Env) (id : Nat) (msg : Message) (h : Balanced sh w []) :
    Balanced sh (handle sh env id msg w) [] := by
  unfold handle
  split
  · exact h
  · split
    · exact h
    · refine balanced_dispatch env _ id _ _ msg (h.idle ?_)
      exact idle_modifyPeer (by intro _; rfl) _ _

/-! ### The tick -/

theorem mem_foldl_erase (late : List BlockKey) (m : Map BlockKey Nat) (k : BlockKey) :
    k ∈ late.foldl (fun m k => m.erase k) m ↔ k ∈ m ∧ k ∉ late := by
  induction late generalizing m with
  | nil => simp
  | cons j late ih =>
      rw [List.foldl_cons, ih, AList.mem_erase, List.mem_cons]
      tauto

/-- What expired was owed, and is released once. -/
theorem expired_count (st : State) (now : Nat) (peer : Peer) (k : BlockKey) :
    has1 ((expired st now peer).foldl (fun m k => m.erase k) peer.inFlight) k +
      (expired st now peer).count k = has1 peer.inFlight k := by
  have hsub : (expired st now peer).Sublist peer.inFlight.keys :=
    List.filter_sublist.map Sigma.fst
  have hnodup : (expired st now peer).Nodup := hsub.nodup peer.inFlight.keys_nodup
  unfold has1
  simp only [mem_foldl_erase]
  by_cases hk : k ∈ expired st now peer
  · have hin : k ∈ peer.inFlight := AList.mem_keys.2 (hsub.subset hk)
    simp [hk, hin, List.count_eq_one_of_mem hnodup hk]
  · simp [hk, List.count_eq_zero.2 hk]

theorem balanced_maintainPeer (env : Env) {s : Work × List (Nat × Bool)} (idx : Nat)
    (h : Balanced sh s.1 []) : Balanced sh (maintainPeer env s idx).1 [] := by
  unfold maintainPeer
  split
  · exact h
  · rename_i peer hidx
    simp only
    split
    · exact balanced_fillRequests env idx h
    · have hmoved := h.acc.replace (expired s.1.st env.now peer ++ []) hidx
        (fun p => { p with
          inFlight := (expired s.1.st env.now peer).foldl (fun m k => m.erase k) p.inFlight
          strikes := p.strikes + 1 })
        (fun k => by simpa using expired_count s.1.st env.now peer k)
      have hbal : Balanced sh ((s.1.modifyPeer idx fun p => { p with
          inFlight := (expired s.1.st env.now peer).foldl (fun m k => m.erase k) p.inFlight
          strikes := p.strikes + 1 }).modifyPicker fun pk =>
            failAll pk (expired s.1.st env.now peer)) [] :=
        ⟨hmoved.failAll, (toLayout_failAll _ _).trans h.layout, h.unique⟩
      split
      · exact hbal
      · exact balanced_fillRequests env idx hbal

theorem balanced_maintainRequests (env : Env) {s : Work × List (Nat × Bool)}
    (h : Balanced sh s.1 []) : Balanced sh (maintainRequests env s).1 [] := by
  unfold maintainRequests
  generalize List.range s.1.st.peers.length = l
  induction l generalizing s with
  | nil => exact h
  | cons idx l ih => exact ih (balanced_maintainPeer env idx h)

theorem idle_tickPeers (env : Env) (keepalive timeout : Nat) (l : List Peer)
    (s : Work × List (Nat × Bool)) :
    Idle s.1 (l.foldl (tickPeer env keepalive timeout) s).1 := by
  induction l generalizing s with
  | nil => exact Idle.refl _
  | cons p l ih =>
      refine Idle.trans ?_ (ih _)
      unfold tickPeer
      split
      · exact Idle.refl _
      · split
        · exact idle_push _ _ _
        · exact Idle.refl _

/-! ## Every run -/

/-- The invariant of a torrent between critical sections. -/
structure Engine.Accounts (sh : Shared) (e : Engine) : Prop where
  acc : Accounted e.st.picker e.st.peers []
  layout : e.st.picker.toLayout = sh.storage.layout
  unique : ∀ k, Access.duplicate k ∉ e.trace

variable {e : Engine}

theorem Engine.Accounts.enter (h : e.Accounts sh) : Balanced sh e.enter [] :=
  ⟨h.acc, h.layout, h.unique⟩

theorem Balanced.finish (h : Balanced sh w []) (drops : List (Nat × Bool)) :
    (w.finish drops).1.Accounts sh := ⟨h.acc, h.layout, h.unique⟩

theorem accounts_onMessage (env : Env) (id : Nat) (msg : Message) (h : e.Accounts sh) :
    (onMessage sh env id msg e).1.Accounts sh := by
  obtain ⟨hpk, hpeers⟩ := modifyId_frame e.st id
    (f := fun p => { p with lastSeen := env.now }) (fun _ => rfl)
  have hseen : Balanced sh { e.enter with
      st := e.st.modifyId id fun p => { p with lastSeen := env.now } } [] := by
    refine h.enter.idle ⟨?_, hpeers, rfl⟩
    simp only [hpk]
    exact ⟨rfl, rfl, rfl, rfl⟩
  have hhandled := balanced_handle env id msg hseen
  exact ((hhandled.idle (idle_considerRound env _)).idle (idle_recordSent env.now _)).finish []

theorem accounts_maintain (env : Env) (h : e.Accounts sh) :
    (maintain env e).1.Accounts sh := by
  unfold maintain
  simp only
  refine Balanced.finish ?_ _
  refine Balanced.idle ?_ (idle_recordSent env.now _)
  refine Balanced.idle ?_ (idle_considerRound env _)
  refine balanced_maintainRequests env (Balanced.idle ?_ (idle_tickPeers env _ _ _ _))
  refine h.enter.idle ⟨⟨rfl, rfl, rfl, rfl⟩, ?_, rfl⟩
  simp [Engine.enter, Function.comp_def]

theorem accounts_dropPeer (now id : Nat) (forCause : Bool) (h : e.Accounts sh) :
    (e.modifyState (dropPeer now id forCause)).Accounts sh := by
  unfold Engine.modifyState dropPeer
  simp only
  split
  · exact h
  · rename_i pos hpos
    split
    · exact h
    · rename_i peer hpeer
      obtain ⟨hlt, hget⟩ := List.getElem?_eq_some_iff.1 hpeer
      have hperm := Lists.perm_swapRemove hlt
      rw [hget] at hperm
      have hremoved : Accounted e.st.picker (Lists.swapRemove e.st.peers pos)
          (peer.inFlight.keys ++ []) := by
        refine h.acc.shift fun k => ?_
        rw [← owing_perm hperm]
        simp [owing, has1, count_keys, List.countP_cons]
      have hacc := (hremoved.same
        (Picker.sameAccounting_removeBitfield e.st.picker peer.has)).failAll
      have hlayout := toLayout_failAll (e.st.picker.removeBitfield peer.has) peer.inFlight.keys
      split
      · obtain ⟨hpk, hpeers, -⟩ := State.untouched_penalise
          { e.st with
            picker := failAll (e.st.picker.removeBitfield peer.has) peer.inFlight.keys
            peers := Lists.swapRemove e.st.peers pos } peer.dest now
        refine ⟨?_, ?_, h.unique⟩
        · rw [hpk, hpeers]
          exact hacc
        · rw [hpk]
          exact hlayout.trans h.layout
      · exact ⟨hacc, hlayout.trans h.layout, h.unique⟩

theorem accounts_registerPeer (env : Env) (dest : DestHash) (fast : Bool) (h : e.Accounts sh) :
    (e.modifyState fun st => (registerPeer sh env dest fast st).1).Accounts sh := by
  unfold Engine.modifyState registerPeer
  simp only
  split
  · exact h
  · split
    · exact h
    · split
      · exact h
      · obtain ⟨hpk, hpeers, -⟩ := State.untouched_rememberPeerFrom
          { e.st with nextId := e.st.nextId + 1 } env.rank dest .trusted
        refine ⟨?_, ?_, h.unique⟩
        · simp only [hpk, hpeers]
          exact h.acc.shift fun k => by simp [owing, newPeer]
        · simp only [hpk]
          exact h.layout

theorem untouched_addPeers (rank : DestHash → Nat) (peers : List DestHash) (st : State) :
    State.Untouched st (addPeers rank peers st) :=
  State.Untouched.foldl (fun st p => State.untouched_rememberPeerFrom st rank p .trusted) peers st

/-- Every critical section keeps the accounts. -/
theorem accounts_step (ev : Event) (h : e.Accounts sh) : (Engine.step sh ev e).Accounts sh := by
  cases ev with
  | register env dest fast => exact accounts_registerPeer env dest fast h
  | message env id msg => exact accounts_onMessage env id msg h
  | maintain env => exact accounts_maintain env h
  | drop now id forCause => exact accounts_dropPeer now id forCause h
  | setPiecePriorities l =>
      exact ⟨h.acc.same (Picker.sameAccounting_setPiecePriorities _ l), h.layout, h.unique⟩
  | setMode m => exact ⟨h.acc.same (Picker.sameAccounting_setMode _ m), h.layout, h.unique⟩
  | addPeers rank peers =>
      obtain ⟨hpk, hpeers, -⟩ := untouched_addPeers rank peers e.st
      refine ⟨?_, ?_, h.unique⟩
      · simp only [Engine.step, Engine.modifyState, hpk, hpeers]
        exact h.acc
      · simp only [Engine.step, Engine.modifyState, hpk]
        exact h.layout
  | setLocalDest dest => exact ⟨h.acc, h.layout, h.unique⟩
  | setMaxPeers n => exact ⟨h.acc, h.layout, h.unique⟩
  | setChokeInterval n => exact ⟨h.acc, h.layout, h.unique⟩
  | setKeepaliveInterval n => exact ⟨h.acc, h.layout, h.unique⟩
  | setIdleTimeout n => exact ⟨h.acc, h.layout, h.unique⟩
  | setRequestTimeout n => exact ⟨h.acc, h.layout, h.unique⟩

theorem accounted_setHaves (l : List Nat) {pk : Picker} (h : Accounted pk [] []) :
    Accounted (l.foldl Picker.setHave pk) [] [] ∧
      (l.foldl Picker.setHave pk).toLayout = pk.toLayout := by
  induction l generalizing pk with
  | nil => exact ⟨h, rfl⟩
  | cons i l ih =>
      have hstep : Accounted (pk.setHave i) [] [] ∧ (pk.setHave i).toLayout = pk.toLayout := by
        by_cases hi : i < pk.numPieces
        · exact ⟨h.setHave hi fun _ => rfl, by simp [Picker.setHave, hi]⟩
        · have heq : pk.setHave i = pk := by simp [Picker.setHave, hi]
          rw [heq]
          exact ⟨h, rfl⟩
      obtain ⟨hacc, hlayout⟩ := ih hstep.1
      exact ⟨hacc, hlayout.trans hstep.2⟩

theorem accounts_new (sh : Shared) (initialHave : Bitfield) (mode : Mode) (now : Nat)
    (disk : Disk) : (Engine.new sh initialHave mode now disk).Accounts sh := by
  have hnew : Accounted (Picker.new sh.storage.layout mode) [] [] :=
    ⟨Picker.WF.new _ _, fun k => by simp [Picker.inFlightOf, Picker.new, owing],
      fun k _ => by simp [owing], rfl⟩
  obtain ⟨hacc, hlayout⟩ := accounted_setHaves initialHave.iterPresent hnew
  exact ⟨hacc, hlayout, by simp [Engine.new]⟩

/-- The accounts are in order after every run. -/
theorem accounts_run (events : List Event) (h : e.Accounts sh) :
    (Engine.run sh events e).Accounts sh :=
  Machine.run_induction (fun ev _ => accounts_step ev) events h

/-- Request accounting is exact.  After every run, the in-flight count of every block is the
number of peers that owe it; nobody owes a block that is received or whose piece is held; no
decrement of a count met zero; and the branch for a block already received was never
taken. -/
theorem request_accounting_exact (sh : Shared) (initialHave : Bitfield) (mode : Mode) (now : Nat)
    (disk : Disk) (events : List Event) :
    let e := Engine.run sh events (Engine.new sh initialHave mode now disk)
    (∀ k : BlockKey, e.st.picker.inFlightOf k = e.st.peers.countP fun p => decide (k ∈ p.inFlight)) ∧
      (∀ k : BlockKey, e.st.picker.isReceived k.1 k.2 = true ∨ e.st.picker.has k.1 = true →
        ∀ p ∈ e.st.peers, k ∉ p.inFlight) ∧
      e.st.picker.saturations = 0 ∧
      ∀ k, Access.duplicate k ∉ e.trace := by
  intro e
  have h : e.Accounts sh := accounts_run events (accounts_new sh initialHave mode now disk)
  refine ⟨fun k => by simpa [owing] using h.acc.exact k, ?_, h.acc.saturations, h.unique⟩
  intro k hk p hp hin
  have hzero : owing e.st.peers k = 0 := by simpa using h.acc.settled k hk
  rw [owing, List.countP_eq_zero] at hzero
  exact hzero p hp (by simpa using hin)

end Clove.Torrent
