import Clove.Torrent.Accounting
import Clove.Torrent.Slots

/-!
# Availability

The picker keeps, for each piece, how many connected peers have it.  The count is changed one
peer at a time: when a set is replaced, when a piece is announced, and when a peer leaves.
`Counted` says the count is right.  It makes the subtraction of a peer's set exact, since the
peer is one of those counted.

A peer's set is replaced only by the first message of its connection.
-/

namespace Clove

/-! ## The table -/

namespace Picker

variable {pk : Picker} {field : Bitfield}

/-- Availability of a piece. -/
def availabilityOf (pk : Picker) (index : Nat) : Nat := pk.availability.getD index 0

theorem availabilityOf_mapIdx (pk : Picker) (f : Nat → Nat → Nat) (index : Nat) :
    (pk.availability.mapIdx f).getD index 0 =
      if index < pk.availability.length then f index (pk.availabilityOf index) else 0 := by
  unfold availabilityOf
  rw [List.getD_eq_getElem?_getD, List.getElem?_mapIdx, List.getD_eq_getElem?_getD]
  by_cases h : index < pk.availability.length
  · simp [h]
  · simp [h]

theorem availabilityOf_addBitfield (hlen : field.len = pk.availability.length) (index : Nat) :
    (pk.addBitfield field).availabilityOf index =
      pk.availabilityOf index + (if field.has index then 1 else 0) := by
  refine (availabilityOf_mapIdx pk _ index).trans ?_
  by_cases h : index < pk.availability.length
  · rw [if_pos h]
    split <;> rfl
  · have hout : field.has index = false := by
      by_contra hin
      exact h (hlen ▸ Bitfield.lt_of_has (Bool.eq_true_of_not_eq_false hin))
    simp [h, hout, availabilityOf]

theorem availabilityOf_removeBitfield (pk : Picker) (field : Bitfield) (index : Nat) :
    (pk.removeBitfield field).availabilityOf index =
      pk.availabilityOf index - (if field.has index then 1 else 0) := by
  refine (availabilityOf_mapIdx pk _ index).trans ?_
  by_cases h : index < pk.availability.length
  · rw [if_pos h]
    split <;> rfl
  · simp [h, availabilityOf]

theorem availabilityOf_addSingle {piece : Nat} (hlen : pk.availability.length = pk.numPieces)
    (hpiece : piece < pk.numPieces) (index : Nat) :
    (pk.addSingle piece).availabilityOf index =
      pk.availabilityOf index + (if index = piece then 1 else 0) := by
  unfold addSingle availabilityOf
  rw [if_pos hpiece]
  simp only
  rw [Lists.getD_modify (hlen ▸ hpiece)]
  split <;> rfl

end Picker

namespace Torrent

open Wire (Message)

/-- How many peers have a piece. -/
def holders (peers : List Peer) (index : Nat) : Nat := peers.countP fun p => p.has.has index

/-- Every set spans the torrent, and every count is right. -/
structure Counted (sh : Shared) (st : State) : Prop where
  length : st.picker.availability.length = sh.numPieces
  sets : ∀ p ∈ st.peers, p.has.len = sh.numPieces
  exact : ∀ i, st.picker.availabilityOf i = holders st.peers i

variable {sh : Shared} {e : Engine} {w w' : Work}

theorem holders_congr {peers peers' : List Peer} (h : peers'.map (·.has) = peers.map (·.has))
    (index : Nat) : holders peers' index = holders peers index := by
  have hmap : ∀ l : List Peer, holders l index = (l.map (·.has)).countP fun f => f.has index := by
    intro l
    rw [List.countP_map]
    rfl
  rw [hmap, hmap, h]

/-- The counts depend on the sets and on the table of counts. -/
theorem Counted.of_eq {st st' : State} (h : Counted sh st)
    (hpeers : st'.peers.map (·.has) = st.peers.map (·.has))
    (havail : st'.picker.availability = st.picker.availability) : Counted sh st' := by
  refine ⟨by rw [havail]; exact h.length, fun p hp => ?_, fun i => ?_⟩
  · have hmem := List.mem_map_of_mem (f := fun p : Peer => p.has) hp
    rw [hpeers] at hmem
    obtain ⟨q, hq, heq⟩ := List.mem_map.1 hmem
    exact heq ▸ h.sets q hq
  · rw [Picker.availabilityOf, havail, holders_congr hpeers]
    exact h.exact i

theorem Counted.same (h : Counted sh w.st) (hsame : SameIn .sets w w') : Counted sh w'.st :=
  h.of_eq hsame.views hsame.picker

/-- A peer that is counted makes the count positive. -/
theorem Counted.availabilityOf_pos {st : State} (h : Counted sh st) {p : Peer} (hp : p ∈ st.peers)
    {i : Nat} (hi : p.has.has i = true) : 0 < st.picker.availabilityOf i := by
  rw [h.exact i]
  exact List.countP_pos_iff.2 ⟨p, hp, hi⟩

/-- What a peer's set takes away is there. -/
theorem Counted.removeBitfield {st : State} (h : Counted sh st) {p : Peer} (hp : p ∈ st.peers)
    (i : Nat) : (st.picker.removeBitfield p.has).availabilityOf i + (if p.has.has i then 1 else 0) =
      st.picker.availabilityOf i := by
  rw [Picker.availabilityOf_removeBitfield]
  split
  · rename_i hi
    have := h.availabilityOf_pos hp hi
    omega
  · rfl

/-! ## Handlers -/

/-- Replacing one peer's set changes the holders by the difference. -/
theorem holders_modify {peers : List Peer} {idx : Nat} {peer : Peer}
    (hidx : peers[idx]? = some peer) (f : Peer → Peer) (i : Nat) :
    holders (peers.modify idx f) i + (if peer.has.has i then 1 else 0) =
      holders peers i + (if (f peer).has.has i then 1 else 0) := by
  obtain ⟨hlt, rfl⟩ := List.getElem?_eq_some_iff.1 hidx
  exact Lists.countP_modify (p := fun p : Peer => p.has.has i) (f := f) hlt

theorem Counted.replacePieceSet (h : Counted sh w.st) (idx : Nat) {field : Bitfield}
    (hfield : field.len = sh.numPieces) : Counted sh (replacePieceSet idx field w).st := by
  unfold Torrent.replacePieceSet
  split
  · exact h
  · rename_i peer hidx
    have hremove := h.removeBitfield (List.mem_of_getElem? hidx)
    have hlength : (w.st.picker.removeBitfield peer.has).availability.length = sh.numPieces :=
      List.length_mapIdx.trans h.length
    refine ⟨List.length_mapIdx.trans hlength, fun p hp => ?_, fun i => ?_⟩
    · rcases Lists.mem_modify hp with hp | ⟨q, -, rfl⟩
      · exact h.sets p hp
      · exact hfield
    · have hadd := Picker.availabilityOf_addBitfield (hfield.trans hlength.symm) i
      have hholders := holders_modify hidx (fun p => { p with has := field }) i
      have hexact := h.exact i
      have hrem := hremove i
      show ((w.st.picker.removeBitfield peer.has).addBitfield field).availabilityOf i =
        holders (w.st.peers.modify idx fun p => { p with has := field }) i
      simp only at hholders
      omega

theorem Counted.onHave (h : Counted sh w.st) (hpieces : w.st.picker.numPieces = sh.numPieces)
    (env : Env) (idx piece : Nat) : Counted sh (onHave sh env idx piece w).st := by
  unfold Torrent.onHave
  split
  · exact h
  · rename_i peer hidx
    split
    · rename_i hnew
      rw [Bool.and_eq_true, decide_eq_true_eq, Bool.not_eq_true'] at hnew
      refine Counted.same (w := (w.modifyPeer idx fun p => { p with has := p.has.set piece }).modifyPicker
        fun pk => pk.addSingle piece) ?_ (leaves_updateInterest env idx _ .sets (by simp))
      have hlen := h.sets peer (List.mem_of_getElem? hidx)
      refine ⟨?_, fun p hp => ?_, fun i => ?_⟩
      · show (w.st.picker.addSingle piece).availability.length = sh.numPieces
        unfold Picker.addSingle
        split
        · exact (List.length_modify _ _ _).trans h.length
        · exact h.length
      · rcases Lists.mem_modify hp with hp | ⟨q, hq, rfl⟩
        · exact h.sets p hp
        · exact (Bitfield.len_set _ _).trans (h.sets q (List.mem_of_getElem? hq))
      · have hadd := Picker.availabilityOf_addSingle (h.length.trans hpieces.symm)
          (hpieces.symm ▸ hnew.1) i
        have hholders := holders_modify hidx (fun p => { p with has := p.has.set piece }) i
        have hexact := h.exact i
        show (w.st.picker.addSingle piece).availabilityOf i =
          holders (w.st.peers.modify idx fun p => { p with has := p.has.set piece }) i
        simp only [Bitfield.has_set, hlen] at hholders
        by_cases hi : i = piece
        · subst hi
          simp only [hnew.2, hnew.1] at hholders
          simp at hholders hadd
          omega
        · simp only [hi, if_false, decide_false, Bool.false_or, false_and] at hholders hadd
          omega
    · exact h

theorem Counted.dispatch (h : Counted sh w.st) (hpieces : w.st.picker.numPieces = sh.numPieces)
    (env : Env) (idx id : Nat) (first fast : Bool) (msg : Message) :
    Counted sh (dispatch sh env idx id first fast msg w).st := by
  have hreplace : ∀ field : Bitfield, field.len = sh.numPieces →
      Counted sh (updateInterest env idx (Torrent.replacePieceSet idx field w)).st :=
    fun field hfield => (h.replacePieceSet idx hfield).same
      (leaves_updateInterest env idx _ .sets (by simp))
  have hviolation : Counted sh (violation id w).st :=
    h.same (leaves_violation id w .sets (by simp))
  by_cases hmsg : .sets ∈ footprint msg
  · unfold Torrent.dispatch
    cases msg with
    | have_ piece => exact h.onHave hpieces env idx piece
    | bitfield bytes =>
        simp only
        split
        · rename_i field hparse
          split
          · exact hreplace field (Bitfield.fromBytes_ok hparse).2
          · exact hviolation
        · exact hviolation
    | haveAll =>
        simp only
        split
        · exact hreplace _ rfl
        · exact hviolation
    | haveNone =>
        simp only
        split
        · exact hreplace _ rfl
        · exact hviolation
    | _ => simp [footprint, blockAspects] at hmsg
  · exact h.same (leaves_dispatch sh env idx id first fast msg w _ hmsg)

theorem Counted.onMessage (h : Counted sh e.st) (hpieces : e.st.picker.numPieces = sh.numPieces)
    (env : Env) (id : Nat) (msg : Message) : Counted sh (onMessage sh env id msg e).1.st := by
  have hafter : ∀ w : Work, Counted sh w.st →
      Counted sh (recordSent env.now (considerRound env w)).st :=
    fun w hw => hw.same (leaves_after env w .sets (by simp))
  have hseen := leaves_seen [] env.now id e
  have hcounted : Counted sh _ := h.same (w := e.enter) (hseen .sets (by simp))
  have hlayout := congrArg (fun x => x.1.numPieces) (hseen .held (by simp)).picker
  refine Counted.of_eq (hafter (handle sh env id msg _) ?_) rfl rfl
  rcases handle_cases sh env id msg _ with ⟨-, heq⟩ | ⟨idx, peer, -, -, heq⟩
  · rw [heq]
    exact hcounted
  · rw [heq]
    refine Counted.dispatch (hcounted.same (leaves_opened idx msg _ .sets (by simp))) ?_ env idx id
      _ _ msg
    exact hlayout.trans hpieces

theorem Counted.dropPeer (h : Counted sh e.st) (now id : Nat) (forCause : Bool) :
    Counted sh (dropPeer now id forCause e.st) := by
  rcases dropPeer_cases now id forCause e.st with ⟨-, heq⟩ | ⟨peer, rest, hperm, -, heq⟩
  · rw [heq]
    exact h
  · rw [heq]
    have htend := tended_failAll (e.st.picker.removeBitfield peer.has) peer.inFlight.keys
    refine ⟨?_, fun p hp => h.sets p (hperm.subset (List.mem_cons_of_mem _ hp)), fun i => ?_⟩
    · rw [htend.availability]
      exact List.length_mapIdx.trans h.length
    · have hexact := h.exact i
      have hremove := h.removeBitfield (hperm.subset List.mem_cons_self) i
      have hholders : holders e.st.peers i =
          holders rest i + (if peer.has.has i then 1 else 0) := by
        rw [holders, ← hperm.countP_eq, List.countP_cons]
        rfl
      have htended : (failAll (e.st.picker.removeBitfield peer.has)
          peer.inFlight.keys).availabilityOf i =
            (e.st.picker.removeBitfield peer.has).availabilityOf i := by
        rw [Picker.availabilityOf, htend.availability]
        rfl
      simp only
      omega

theorem Counted.registerPeer (h : Counted sh e.st) (env : Env) (dest : DestHash) (fast : Bool) :
    Counted sh (registerPeer sh env dest fast e.st).1 := by
  rcases registerPeer_cases sh env dest fast e.st with ⟨r, heq⟩ | ⟨known, -, -, -, -, heq⟩
  · rw [heq]
    exact h
  · rw [heq]
    refine ⟨h.length, fun p hp => ?_, fun i => ?_⟩
    · rcases List.mem_append.1 hp with hp | hp
      · exact h.sets p hp
      · rw [List.mem_singleton.1 hp]
        rfl
    · refine (h.exact i).trans ?_
      simp [holders, List.countP_append, newPeer]

/-! ## Every run -/

theorem Counted.step (h : Counted sh e.st) (hacc : e.Accounts sh) (ev : Event) :
    Counted sh (Engine.step sh ev e).st := by
  cases ev with
  | register env dest fast => exact h.registerPeer env dest fast
  | message env id msg => exact h.onMessage (congrArg Layout.numPieces hacc.layout) env id msg
  | maintain env =>
      obtain ⟨w, drops, hleaves, heq⟩ := leaves_maintain env e
      have hcounted := h.same (w := e.enter) (hleaves .sets (by simp))
      rw [Engine.step, heq]
      exact hcounted.of_eq rfl rfl
  | drop now id forCause => exact h.dropPeer now id forCause
  | addPeers rank peers =>
      have hone : ∀ w d, Leaves [.known] w { w with st := (w.st.rememberPeerFrom rank d .trusted).1 } :=
        fun w d => leaves_rememberPeerFrom rank d .trusted w
      exact h.same (w := e.enter) (Leaves.foldl_state hone peers e.enter .sets (by simp))
  | setPiecePriorities l => exact h.of_eq rfl rfl
  | setMode m => exact h.of_eq rfl rfl
  | setLocalDest dest => exact h.of_eq rfl rfl
  | setMaxPeers n => exact h.of_eq rfl rfl
  | setChokeInterval n => exact h.of_eq rfl rfl
  | setKeepaliveInterval n => exact h.of_eq rfl rfl
  | setIdleTimeout n => exact h.of_eq rfl rfl
  | setRequestTimeout n => exact h.of_eq rfl rfl

theorem counted_new (sh : Shared) (initialHave : Bitfield) (mode : Mode) (now : Nat) (disk : Disk) :
    Counted sh (Engine.new sh initialHave mode now disk).st := by
  have hset : ∀ (l : List Nat) (pk : Picker),
      (l.foldl Picker.setHave pk).availability = pk.availability := by
    intro l
    induction l with
    | nil => exact fun pk => rfl
    | cons i l ih =>
        intro pk
        refine (ih _).trans ?_
        unfold Picker.setHave
        split <;> rfl
  have havail := hset initialHave.iterPresent (Picker.new sh.storage.layout mode)
  refine ⟨?_, fun p hp => absurd hp List.not_mem_nil, fun i => ?_⟩
  · show (initialHave.iterPresent.foldl Picker.setHave _).availability.length = _
    rw [havail]
    exact List.length_replicate
  · show (initialHave.iterPresent.foldl Picker.setHave _).availabilityOf i = 0
    rw [Picker.availabilityOf, havail]
    exact (Lists.getD_replicate _ 0 0 i).trans (by split <;> rfl)

theorem counted_run (sh : Shared) (initialHave : Bitfield) (mode : Mode) (now : Nat) (disk : Disk)
    (events : List Event) :
    Counted sh (Engine.run sh events (Engine.new sh initialHave mode now disk)).st :=
  (Machine.run_induction (P := fun e : Engine => e.Accounts sh ∧ Counted sh e.st)
    (fun ev _ h => ⟨accounts_step ev h.1, h.2.step h.1 ev⟩) events
    ⟨accounts_new sh initialHave mode now disk, counted_new sh initialHave mode now disk⟩).2

/-! ## Late piece sets -/

/-- Whether a message gives a whole piece set. -/
def isPieceSet : Message → Bool
  | .bitfield _ | .haveAll | .haveNone => true
  | _ => false

/-- The peer with this id, if it is still seated, has opened its connection. -/
def OpenedIn (id : Nat) (st : State) : Prop := ∀ p ∈ st.peers, p.id = id → p.opened = true

theorem OpenedIn.of_sub {id : Nat} {st st' : State} (h : OpenedIn id st)
    (hsub : ∀ p ∈ st'.peers, p.id = id → ∃ q ∈ st.peers, q.id = id ∧ (q.opened = true → p.opened = true)) :
    OpenedIn id st' := by
  intro p hp hid
  obtain ⟨q, hq, hqid, hopen⟩ := hsub p hp hid
  exact hopen (h q hq hqid)

theorem OpenedIn.same {id : Nat} (h : OpenedIn id w.st) (hsame : SameIn .opening w w') :
    OpenedIn id w'.st := by
  refine h.of_sub fun p hp hid => ?_
  have hmem := List.mem_map_of_mem (f := fun p => (p.id, Aspect.opening.ofPeer p)) hp
  rw [hsame.peers] at hmem
  obtain ⟨q, hq, hview⟩ := List.mem_map.1 hmem
  obtain ⟨hqid, hopen⟩ := Prod.mk.inj hview
  exact ⟨q, hq, hqid.trans hid, fun h => (congrArg Prod.fst hopen).symm.trans h⟩

theorem opening_notMem_footprint (msg : Message) : .opening ∉ footprint msg := by
  cases msg <;> simp [footprint, blockAspects]

/-- A connection that is open stays open. -/
theorem OpenedIn.onMessage {id : Nat} (h : OpenedIn id e.st) (env : Env) (id' : Nat) (msg : Message) :
    OpenedIn id (onMessage sh env id' msg e).1.st := by
  have hseen := h.same (w := e.enter) (leaves_seen [] env.now id' e .opening (by simp))
  suffices hhandled : OpenedIn id (handle sh env id' msg { e.enter with
      st := e.st.modifyId id' fun p => { p with lastSeen := env.now } }).st from
    hhandled.same (leaves_after env _ .opening (by simp))
  rcases handle_cases sh env id' msg _ with ⟨-, heq⟩ | ⟨idx, peer, -, -, heq⟩
  · rw [heq]
    exact hseen
  · rw [heq]
    refine OpenedIn.same ?_ (leaves_dispatch sh env idx id' _ _ msg _ _ (opening_notMem_footprint msg))
    refine hseen.of_sub fun p hp hid => ?_
    rcases Lists.mem_modify hp with hp | ⟨q, hq, rfl⟩
    · exact ⟨p, hp, hid, fun h => h⟩
    · exact ⟨q, List.mem_of_getElem? hq, hid, fun h => by simp [h]⟩

/-- After a message that opens it, a connection is open. -/
theorem openedIn_onMessage (hseat : e.Seated sh) (env : Env) {id : Nat} {msg : Message}
    (hopens : opens msg = true) : OpenedIn id (onMessage sh env id msg e).1.st := by
  have hseen := leaves_seen [] env.now id e
  have hnodup := (hseen .table (by simp)).nodup hseat.nodup
  suffices hhandled : OpenedIn id (handle sh env id msg { e.enter with
      st := e.st.modifyId id fun p => { p with lastSeen := env.now } }).st from
    hhandled.same (leaves_after env _ .opening (by simp))
  rcases handle_cases sh env id msg _ with ⟨hnone, heq⟩ | ⟨idx, peer, hidx, hid, heq⟩
  · rw [heq]
    exact fun p hp hid => absurd hid (hnone p hp)
  · rw [heq]
    refine OpenedIn.same ?_ (leaves_dispatch sh env idx id _ _ msg _ _ (opening_notMem_footprint msg))
    intro p hp hpid
    simp only [Work.modifyPeer] at hp
    rw [Lists.modify_eq_map hnodup hidx] at hp
    obtain ⟨q, hq, rfl⟩ := List.mem_map.1 hp
    by_cases hqid : q.id = peer.id
    · simp [hqid, hopens]
    · simp only [if_neg hqid] at hpid ⊢
      exact absurd (hpid.trans hid.symm) hqid

theorem OpenedIn.step {id : Nat} (h : OpenedIn id e.st) (hid : id < e.st.nextId) (ev : Event) :
    OpenedIn id (Engine.step sh ev e).st := by
  cases ev with
  | register env dest fast =>
      unfold Engine.step Engine.modifyState
      rcases registerPeer_cases sh env dest fast e.st with ⟨r, heq⟩ | ⟨known, -, -, -, -, heq⟩
      · simp only [heq]
        exact h
      · simp only [heq]
        intro p hp hpid
        rcases List.mem_append.1 hp with hp | hp
        · exact h p hp hpid
        · rw [List.mem_singleton.1 hp] at hpid
          exact absurd hpid (Nat.ne_of_gt hid)
  | message env id' msg => exact h.onMessage env id' msg
  | maintain env =>
      obtain ⟨w, drops, hleaves, heq⟩ := leaves_maintain env e
      have hopen := h.same (w := e.enter) (hleaves .opening (by simp))
      rw [Engine.step, heq]
      exact hopen
  | drop now id' forCause =>
      unfold Engine.step Engine.modifyState
      rcases dropPeer_cases now id' forCause e.st with ⟨-, heq⟩ | ⟨peer, rest, hperm, -, heq⟩
      · simp only [heq]
        exact h
      · simp only [heq]
        exact fun p hp => h p (hperm.subset (List.mem_cons_of_mem _ hp))
  | addPeers rank peers =>
      have hone : ∀ w d, Leaves [.known] w { w with st := (w.st.rememberPeerFrom rank d .trusted).1 } :=
        fun w d => leaves_rememberPeerFrom rank d .trusted w
      exact h.same (w := e.enter) (Leaves.foldl_state hone peers e.enter .opening (by simp))
  | setPiecePriorities l => exact h
  | setMode m => exact h
  | setLocalDest dest => exact h
  | setMaxPeers n => exact h
  | setChokeInterval n => exact h
  | setKeepaliveInterval n => exact h
  | setIdleTimeout n => exact h
  | setRequestTimeout n => exact h

theorem nextId_step (sh : Shared) (ev : Event) (e : Engine) :
    e.st.nextId ≤ (Engine.step sh ev e).st.nextId := by
  cases ev with
  | register env dest fast =>
      unfold Engine.step Engine.modifyState
      rcases registerPeer_cases sh env dest fast e.st with ⟨r, heq⟩ | ⟨known, -, -, -, -, heq⟩
      · simp only [heq]
        exact le_rfl
      · simp only [heq]
        exact Nat.le_succ _
  | message env id msg =>
      obtain ⟨w, hleaves, heq⟩ := leaves_onMessage sh env id msg e
      have htable := hleaves .table (by cases msg <;> simp [footprint, blockAspects])
      rw [Engine.step, heq]
      exact (congrArg Prod.fst htable.books).ge
  | maintain env =>
      obtain ⟨w, drops, hleaves, heq⟩ := leaves_maintain env e
      rw [Engine.step, heq]
      exact (congrArg Prod.fst (hleaves .table (by simp)).books).ge
  | drop now id forCause =>
      unfold Engine.step Engine.modifyState
      rcases dropPeer_cases now id forCause e.st with ⟨-, heq⟩ | ⟨peer, rest, -, -, heq⟩
      · simp only [heq]
        exact le_rfl
      · simp only [heq]
        exact le_rfl
  | addPeers rank peers =>
      have hsame : State.Untouched e.st (addPeers rank peers e.st) := untouched_addPeers rank peers e.st
      exact hsame.nextId.ge
  | setPiecePriorities l => exact le_rfl
  | setMode m => exact le_rfl
  | setLocalDest dest => exact le_rfl
  | setMaxPeers n => exact le_rfl
  | setChokeInterval n => exact le_rfl
  | setKeepaliveInterval n => exact le_rfl
  | setIdleTimeout n => exact le_rfl
  | setRequestTimeout n => exact le_rfl

/-- A connection that is open stays open through any run. -/
theorem OpenedIn.run {id : Nat} (h : OpenedIn id e.st) (hid : id < e.st.nextId)
    (events : List Event) : OpenedIn id (Engine.run sh events e).st :=
  (Machine.run_induction (P := fun e : Engine => OpenedIn id e.st ∧ id < e.st.nextId)
    (fun ev e h => ⟨h.1.step h.2 ev, lt_of_lt_of_le h.2 (nextId_step sh ev e)⟩) events ⟨h, hid⟩).1

/-- A piece set on an open connection is a violation. -/
theorem handle_late (sh : Shared) {id : Nat} (h : OpenedIn id w.st) (hid : ∃ p ∈ w.st.peers, p.id = id) (env : Env)
    {msg : Message} (hmsg : isPieceSet msg = true) :
    ∃ w', Leaves [.opening] w w' ∧ handle sh env id msg w = violation id w' := by
  rcases handle_cases sh env id msg w with ⟨hnone, -⟩ | ⟨idx, peer, hidx, hpid, heq⟩
  · obtain ⟨p, hp, hpid⟩ := hid
    exact absurd hpid (hnone p hp)
  · refine ⟨_, leaves_opened idx msg w, heq.trans ?_⟩
    rw [h peer (List.mem_of_getElem? hidx) hpid]
    unfold Torrent.dispatch
    cases msg with
    | bitfield bytes =>
        simp only
        split
        · simp only [Bool.not_true, Bool.false_eq_true, if_false]
        · rfl
    | haveAll => simp only [Bool.not_true, Bool.false_and, Bool.false_eq_true, if_false]
    | haveNone => simp only [Bool.not_true, Bool.false_and, Bool.false_eq_true, if_false]
    | _ => cases hmsg

/-- It leaves the counts alone and queues the peer for removal for cause. -/
theorem late_pieceSet {id : Nat} (h : OpenedIn id e.st) (hid : id ∈ e.st.ids) (env : Env)
    {msg : Message} (hmsg : isPieceSet msg = true) :
    (onMessage sh env id msg e).1.st.picker.availability = e.st.picker.availability ∧
      (id, true) ∈ (onMessage sh env id msg e).2.drops := by
  have hseen := leaves_seen [.opening] env.now id e
  have hopen := h.same (w := e.enter) (leaves_seen [] env.now id e .opening (by simp))
  have hseated : ∃ p ∈ (e.st.modifyId id fun p => { p with lastSeen := env.now }).peers,
      p.id = id := by
    have hids : (e.st.modifyId id fun p => { p with lastSeen := env.now }).ids = e.st.ids :=
      (hseen .table (by simp)).ids
    refine List.mem_map.1 (?_ : id ∈ State.ids _)
    rw [hids]
    exact hid
  obtain ⟨w, hleaves, heq⟩ := handle_late sh hopen hseated env hmsg
  have hcounts := (hseen.trans hleaves) .sets (by simp)
  have hafter := leaves_after env (violation id w)
  unfold onMessage
  simp only [heq]
  constructor
  · exact ((hafter .sets (by simp)).picker.trans (leaves_violation id w .sets (by simp)).picker).trans
      hcounts.picker
  · have hdoomed : (recordSent env.now (considerRound env (violation id w))).st.toDrop =
        w.st.toDrop ++ [(id, true)] := (hafter .doomed (by simp)).books
    show (id, true) ∈ [] ++ (recordSent env.now (considerRound env (violation id w))).st.toDrop
    rw [hdoomed]
    simp

/-- Availability is exact.  After any critical sections in any order, the availability of
every piece is the number of connected peers that have it; withdrawing a connected peer's set
takes one from each piece it has, so no subtraction saturates; and once a peer has sent a message
other than a keep-alive or the extension handshake, a piece set from it changes no count and
queues it for removal for cause, whatever came between. -/
theorem availability_exact (sh : Shared) (initialHave : Bitfield) (mode : Mode) (now : Nat)
    (disk : Disk) (events : List Event) :
    let e := Engine.run sh events (Engine.new sh initialHave mode now disk)
    (∀ i, e.st.picker.availabilityOf i = e.st.peers.countP fun p => p.has.has i) ∧
      (∀ p ∈ e.st.peers, ∀ i, (e.st.picker.removeBitfield p.has).availabilityOf i +
        (if p.has.has i then 1 else 0) = e.st.picker.availabilityOf i) ∧
      ∀ id ∈ e.st.ids, ∀ env msg later env' set, opens msg = true → isPieceSet set = true →
        let e' := Engine.run sh (.message env id msg :: later) e
        id ∈ e'.st.ids →
          (onMessage sh env' id set e').1.st.picker.availability = e'.st.picker.availability ∧
            (id, true) ∈ (onMessage sh env' id set e').2.drops := by
  intro e
  have hcounted : Counted sh e.st := counted_run sh initialHave mode now disk events
  have hseat : e.Seated sh := (slotted_run sh initialHave mode now disk events).1
  refine ⟨hcounted.exact, fun p hp => hcounted.removeBitfield hp, ?_⟩
  intro id hid env msg later env' set hopens hset e' hid'
  have hopen : OpenedIn id (Engine.step sh (.message env id msg) e).st :=
    openedIn_onMessage hseat env hopens
  have hfresh := lt_of_lt_of_le (hseat.fresh id hid) (nextId_step sh (.message env id msg) e)
  exact late_pieceSet (hopen.run hfresh later) hid' env' hset

end Torrent

end Clove
