import Clove.Torrent.Destinations

/-!
# Blame

A block that is received has a supplier, the destination it came from, until its piece is judged.
If the piece fails, a destination that supplied all of it is banned.  `Attributed` says where the
bytes of received blocks came from: each is what its supplier delivered.  The deliveries are not
in the source; they are what a run has been told so far.
-/

namespace Clove.Torrent

open Wire (BLOCK_LEN Message)

/-! ## Deliveries -/

/-- A block a peer sent. -/
structure Delivery where
  dest : DestHash
  index : Nat
  begin : Nat
  data : Bytes

/-- The block an event delivers, if it is a block from a seated peer. -/
def delivery : Event → Engine → Option Delivery
  | .message _ id (.piece index begin block), e =>
      (e.st.peers.find? (·.id = id)).map fun p => ⟨p.dest, index, begin, block⟩
  | _, _ => none

/-- The blocks a run delivers. -/
def deliveries (sh : Shared) : List Event → Engine → List Delivery
  | [], _ => []
  | ev :: events, e => (delivery ev e).toList ++ deliveries sh events (Engine.step sh ev e)

/-- Every received block has a supplier, and on disk is what its supplier delivered. -/
structure Attributed (sh : Shared) (past : List Delivery) (st : State) (disk : Disk) : Prop where
  entered : ∀ i b, (st.suppliers.lookup (i, b)).isSome = st.picker.isReceived i b
  faithful : ∀ i b d, st.suppliers.lookup (i, b) = some d → ∃ data,
    ⟨d, i, b * BLOCK_LEN, data⟩ ∈ past ∧ data.length = sh.storage.layout.blockLen i b ∧
      ∀ j < data.length,
        sh.storage.byte disk (sh.storage.offsetOf i (b * BLOCK_LEN) + j) = data[j]?

variable {sh : Shared} {e : Engine} {w w' : Work} {past past' : List Delivery} {st : State}
  {disk : Disk}

theorem Attributed.mono (h : Attributed sh past st disk) (hpast : past ⊆ past') :
    Attributed sh past' st disk := by
  refine ⟨h.entered, fun i b d hd => ?_⟩
  obtain ⟨data, hmem, hlen, hbytes⟩ := h.faithful i b d hd
  exact ⟨data, hpast hmem, hlen, hbytes⟩

/-- A handler that leaves blocks, suppliers and files alone. -/
theorem Attributed.same (h : Attributed sh past w.st w.disk) (hsuppliers : SameIn .suppliers w w')
    (hblocks : SameIn .blocks w w') (hfiles : SameIn .files w w') :
    Attributed sh past w'.st w'.disk := by
  have hsup : w'.st.suppliers = w.st.suppliers := hsuppliers.books
  have hrec : w'.st.picker.isReceived = w.st.picker.isReceived := hblocks.picker
  have hdisk : w'.disk = w.disk := congrArg Prod.fst hfiles.books
  refine ⟨fun i b => ?_, fun i b d hd => ?_⟩
  · rw [hsup, hrec]
    exact h.entered i b
  · rw [hdisk]
    exact h.faithful i b d (hsup ▸ hd)

/-! ## Blocks on disk -/

/-- Different blocks have no byte in common. -/
theorem block_apart (s : Storage) {i b index c j k : Nat} (hne : (i, b) ≠ (index, c))
    (hj : j < s.layout.blockLen i b) (hk : k < s.layout.blockLen index c) :
    s.offsetOf i (b * BLOCK_LEN) + j ≠ s.offsetOf index (c * BLOCK_LEN) + k := by
  have hbound : ∀ i b j, j < s.layout.blockLen i b →
      j < BLOCK_LEN ∧ b * BLOCK_LEN + j < s.layout.pieceLength := by
    intro i b j hj
    unfold Layout.blockLen at hj
    have hpiece : s.layout.pieceLen i ≤ s.layout.pieceLength := by
      unfold Layout.pieceLen
      split <;> omega
    split at hj <;> omega
  obtain ⟨hj₁, hj₂⟩ := hbound i b j hj
  obtain ⟨hk₁, hk₂⟩ := hbound index c k hk
  unfold Storage.offsetOf
  intro heq
  have hi : i = index := by
    rcases Nat.lt_trichotomy i index with hlt | heq | hgt
    · have := Nat.mul_le_mul_right s.layout.pieceLength (Nat.succ_le_of_lt hlt)
      rw [Nat.succ_mul] at this
      omega
    · exact heq
    · have := Nat.mul_le_mul_right s.layout.pieceLength (Nat.succ_le_of_lt hgt)
      rw [Nat.succ_mul] at this
      omega
  subst hi
  refine hne (Prod.ext rfl ?_)
  simp only [BLOCK_LEN] at hj₁ hk₁ heq
  show b = c
  omega

/-- A write to a block that is not received leaves the others, whether it goes through or not. -/
theorem Attributed.wrote (h : Attributed sh past st disk) (fault : Option Nat) {index begin : Nat}
    {block : Bytes} (haligned : begin % BLOCK_LEN = 0)
    (hlen : block.length = sh.storage.layout.blockLen index (begin / BLOCK_LEN))
    (hnone : st.suppliers.lookup (index, begin / BLOCK_LEN) = none) :
    Attributed sh past st (disk.writes (sh.storage.writeBlock fault index begin block).1) := by
  refine ⟨h.entered, fun i b d hd => ?_⟩
  obtain ⟨data, hmem, hdata, hbytes⟩ := h.faithful i b d hd
  refine ⟨data, hmem, hdata, fun j hj => ?_⟩
  have hne : (i, b) ≠ (index, begin / BLOCK_LEN) := by
    intro heq
    rw [heq, hnone] at hd
    cases hd
  have hbegin : begin / BLOCK_LEN * BLOCK_LEN = begin := Nat.div_mul_cancel (Nat.dvd_of_mod_eq_zero haligned)
  rw [List.getElem?_eq_getElem hj]
  refine Storage.byte_writeBlock_of_outside fault ?_ ?_
  · rintro ⟨hlo, hhi⟩
    refine block_apart sh.storage hne (hdata ▸ hj)
      (k := sh.storage.offsetOf i (b * BLOCK_LEN) + j - sh.storage.offsetOf index begin) ?_ ?_
    · omega
    · rw [hbegin]
      omega
  · rw [hbytes j hj, List.getElem?_eq_getElem hj]

/-! ## A block -/

/-- A block that is entered is attributed to the peer that sent it. -/
theorem Attributed.stored {env : Env} {idx index begin : Nat} {block : Bytes} {peer : Peer}
    (h : Attributed sh past w.st w.disk) (hlayout : w.st.picker.toLayout = sh.storage.layout)
    (howed : Owed sh idx index begin block peer w)
    (hwritten : (sh.storage.writeBlock env.writeFault index begin block).2 = .ok ())
    (hstored : Stored sh env index begin block peer.dest w w') :
    Attributed sh (past ++ [⟨peer.dest, index, begin, block⟩]) w'.st w'.disk := by
  have hlen : block.length = sh.storage.layout.blockLen index (begin / BLOCK_LEN) :=
    hlayout ▸ howed.length
  have hbegin : begin / BLOCK_LEN * BLOCK_LEN = begin :=
    Nat.div_mul_cancel (Nat.dvd_of_mod_eq_zero howed.aligned)
  have hnone : w.st.suppliers.lookup (index, begin / BLOCK_LEN) = none := by
    have hentered := h.entered index (begin / BLOCK_LEN)
    rw [howed.notReceived] at hentered
    exact Option.not_isSome_iff_eq_none.1 (by rw [hentered]; exact Bool.false_ne_true)
  have hwrote := (h.wrote env.writeFault howed.aligned hlen hnone).mono
    (List.subset_append_left past [⟨peer.dest, index, begin, block⟩])
  refine ⟨fun i b => ?_, fun i b d hd => ?_⟩
  · rw [hstored.suppliers, hstored.received, Map.lookup_insert]
    split
    · rfl
    · exact h.entered i b
  · rw [hstored.suppliers, Map.lookup_insert] at hd
    rw [hstored.disk]
    split at hd
    · rename_i hkey
      obtain ⟨rfl, rfl⟩ := Prod.mk.inj hkey
      obtain rfl := Option.some.inj hd
      rw [hbegin]
      exact ⟨block, by simp, hlen, fun j hj => Storage.byte_writeBlock hwritten w.disk hj⟩
    · exact hwrote.faithful i b d hd

/-- A piece that is judged has no supplier left, unless it could not be read. -/
theorem Attributed.onComplete (h : Attributed sh past w.st w.disk) (env : Env) {index : Nat}
    (hwf : w.st.picker.WF) (hi : index < w.st.picker.numPieces) :
    Attributed sh past (onComplete sh env index w).st (onComplete sh env index w).disk := by
  -- both verdicts forget the piece's blocks and its suppliers
  have hforgot : ∀ (st' : State), st'.picker.isReceived = (fun j c =>
        if j = index then false else w.st.picker.isReceived j c) →
      (∀ k, st'.suppliers.lookup k = if k.1 = index ∧ k.2 < w.st.picker.blocksInPiece index then none
        else w.st.suppliers.lookup k) → Attributed sh past st' w.disk := by
    intro st' hrec hsup
    have hin : ∀ b, (w.st.suppliers.lookup (index, b)).isSome → b < w.st.picker.blocksInPiece index := by
      intro b hb
      rw [h.entered] at hb
      exact (hwf.of_isReceived hb).2
    refine ⟨fun i b => ?_, fun i b d hd => h.faithful i b d ?_⟩
    · rw [hrec, hsup]
      by_cases hindex : i = index
      · subst hindex
        by_cases hb : b < w.st.picker.blocksInPiece i
        · simp [hb]
        · simp only [hb, and_false, if_false, if_true]
          exact Bool.eq_false_iff.2 fun hsome => hb (hin b hsome)
      · simpa [hindex] using h.entered i b
    · rw [hsup] at hd
      split at hd
      · cases hd
      · exact hd
  unfold Torrent.onComplete
  split
  · obtain ⟨suppliers, suspicion, heq, hlookup⟩ :=
      State.creditSuppliers_inv (w.modifyPicker fun pk => pk.setHave index).st index
    simp only [heq]
    refine hforgot _ (funext fun j => funext fun c => Picker.isReceived_setHave hi j c) fun k => ?_
    have hblocks : (w.st.picker.setHave index).blocksInPiece index =
        w.st.picker.blocksInPiece index := by
      unfold Picker.setHave
      split <;> rfl
    rw [← hblocks]
    exact hlookup k
  · obtain ⟨suppliers, suspicion, contributors, culprits, heq, hlookup, -, -, -⟩ :=
      State.blameSuppliers_inv (w.modifyPicker fun pk => pk.resetPiece index).st index
    have hfold : ∀ (ds : List DestHash) (st : State), (ds.foldl State.ban st).picker = st.picker ∧
        (ds.foldl State.ban st).suppliers = st.suppliers := by
      intro ds
      induction ds with
      | nil => exact fun _ => ⟨rfl, rfl⟩
      | cons d ds ih => exact fun st => ih (st.ban d)
    obtain ⟨hpicker, hsuppliers⟩ := hfold culprits { (w.modifyPicker fun pk =>
      pk.resetPiece index).st with suppliers := suppliers, suspicion := suspicion }
    simp only [heq]
    refine hforgot _ ?_ fun k => ?_
    · rw [hpicker]
      exact funext fun j => funext fun c => Picker.isReceived_resetPiece hi j c
    · have hblocks : (w.st.picker.resetPiece index).blocksInPiece index =
          w.st.picker.blocksInPiece index := by
        unfold Picker.resetPiece
        split <;> rfl
      rw [hsuppliers, ← hblocks]
      exact hlookup k
  · exact ⟨h.entered, h.faithful⟩

theorem Attributed.onBlock (h : Attributed sh past w.st w.disk) (hbal : Balanced sh w [])
    (env : Env) (idx index begin : Nat) (block : Bytes) (hpast : past ⊆ past')
    (hdelivered : ∀ peer, w.st.peers[idx]? = some peer → ⟨peer.dest, index, begin, block⟩ ∈ past') :
    Attributed sh past' (onBlock sh env idx index begin block w).st
      (onBlock sh env idx index begin block w).disk := by
  rcases onBlock_inv env idx index begin block hbal with hsame | ⟨peer, howed, hcase⟩
  · exact (h.same (hsame .suppliers (by simp)) (hsame .blocks (by simp))
      (hsame .files (by simp))).mono hpast
  · have hlayout : w.st.picker.toLayout = sh.storage.layout := hbal.layout
    rcases hcase with ⟨err, -, hfailed, hdisk⟩ | ⟨hwritten, w₁, hstored, hdone⟩
    · have hnone : w.st.suppliers.lookup (index, begin / BLOCK_LEN) = none := by
        have hentered := h.entered index (begin / BLOCK_LEN)
        rw [howed.notReceived] at hentered
        exact Option.not_isSome_iff_eq_none.1 (by rw [hentered]; exact Bool.false_ne_true)
      have hwrote := (h.wrote env.writeFault howed.aligned (hlayout ▸ howed.length) hnone).mono hpast
      have hsup : _ = w.st.suppliers := (hfailed .suppliers (by simp)).books
      have hrec : _ = w.st.picker.isReceived := (hfailed .blocks (by simp)).picker
      refine ⟨fun i b => ?_, fun i b d hd => ?_⟩
      · have hrec := congrFun (congrFun hrec i) b
        exact (congrArg (fun m => (AList.lookup (i, b) m).isSome) hsup).trans
          ((h.entered i b).trans hrec.symm)
      · rw [hdisk]
        exact hwrote.faithful i b d (hsup ▸ hd)
    · have hnew : Attributed sh past' w₁.st w₁.disk := by
        refine (h.stored hlayout howed hwritten hstored).mono fun x hx => ?_
        rcases List.mem_append.1 hx with hx | hx
        · exact hpast hx
        · rw [List.mem_singleton.1 hx]
          exact hdelivered peer howed.seat
      rcases hdone with heq | ⟨-, hafter⟩
      · rw [heq]
        exact hnew
      · have hi : index < w₁.st.picker.numPieces := by
          rw [hstored.balanced.numPieces]
          exact howed.inRange
        exact (hnew.onComplete env hstored.balanced.acc.wf hi).same
          (w := Torrent.onComplete sh env index w₁) (hafter .suppliers (by simp))
          (hafter .blocks (by simp)) (hafter .files (by simp))

/-! ## Critical sections -/

/-- The peer whose message is handled is the first with its id. -/
theorem find_of_seat (hseat : e.Seated sh) {id idx : Nat} {peer : Peer} (hentered : Entered sh e w)
    (hidx : w.st.peers[idx]? = some peer) (hid : peer.id = id) :
    ∃ q, e.st.peers.find? (·.id = id) = some q ∧ q.dest = peer.dest ∧ q.inFlight = peer.inFlight := by
  obtain ⟨q, hq, hqid, hdest⟩ := (hentered.rest .table (by simp)).getElem? hidx
  have hq : e.st.peers[idx]? = some q := hq
  have hflights : q.inFlight = peer.inFlight := by
    have hmap := congrArg (fun l => l[idx]?) hentered.requests
    simp only [List.getElem?_map, hidx, hq, Option.map_some, Option.some.injEq, Prod.mk.injEq] at hmap
    exact hmap.2.symm
  refine ⟨q, ?_, hdest, hflights⟩
  have hq := List.mem_of_getElem? hq
  cases hfind : e.st.peers.find? (·.id = id) with
  | none =>
      have := List.find?_eq_none.1 hfind q hq
      simp [hqid.trans hid] at this
  | some r =>
      have hrid : r.id = id := of_decide_eq_true (List.find?_some hfind :)
      exact congrArg some (List.inj_on_of_nodup_map hseat.nodup (List.mem_of_find?_eq_some hfind) hq
        (hrid.trans (hqid.trans hid).symm))

/-- It is the one the delivery names. -/
theorem delivery_of_seat (hseat : e.Seated sh) {env : Env} {id idx index begin : Nat} {block : Bytes}
    {peer : Peer} (hentered : Entered sh e w) (hidx : w.st.peers[idx]? = some peer)
    (hid : peer.id = id) :
    delivery (.message env id (.piece index begin block)) e =
      some ⟨peer.dest, index, begin, block⟩ := by
  obtain ⟨q, hfind, hdest, -⟩ := find_of_seat hseat hentered hidx hid
  simp only [delivery, hfind, Option.map_some, hdest]

theorem Attributed.onMessage (h : Attributed sh past e.st e.disk) (hacc : e.Accounts sh)
    (hseat : e.Seated sh) (env : Env) (id : Nat) (msg : Message) :
    Attributed sh (past ++ (delivery (.message env id msg) e).toList)
      (onMessage sh env id msg e).1.st (onMessage sh env id msg e).1.disk := by
  obtain ⟨w, w₁, w₂, hentered, hcase, hafter, heq⟩ := onMessage_inv hacc env id msg
  have hw : Attributed sh past w.st w.disk := Attributed.same (w := e.enter) h
    (hentered.rest .suppliers (by simp)) (hentered.rest .blocks (by simp))
    (hentered.rest .files (by simp))
  have hpast := List.subset_append_left past (delivery (.message env id msg) e).toList
  suffices hhandled : Attributed sh (past ++ (delivery (.message env id msg) e).toList) w₁.st
      w₁.disk by
    rw [heq]
    have hdone := hhandled.same (hafter .suppliers (by simp)) (hafter .blocks (by simp))
      (hafter .files (by simp))
    exact ⟨hdone.entered, hdone.faithful⟩
  rcases hcase with ⟨-, rfl⟩ | ⟨idx, peer, first, fast, hidx, hid, rfl⟩
  · exact hw.mono hpast
  · by_cases hmsg : ∃ index begin block, msg = .piece index begin block
    · obtain ⟨index, begin, block, rfl⟩ := hmsg
      refine hw.onBlock hentered.balanced env idx index begin block hpast fun q hq => ?_
      obtain rfl := Option.some.inj (hidx.symm.trans hq)
      rw [delivery_of_seat hseat hentered hidx hid]
      simp
    · have hleaves := leaves_dispatch sh env idx id first fast msg w
      have hnot : .suppliers ∉ footprint msg ∧ .blocks ∉ footprint msg ∧ .files ∉ footprint msg := by
        cases msg with
        | piece index begin block => exact absurd ⟨_, _, _, rfl⟩ hmsg
        | _ => simp [footprint]
      exact (hw.same (hleaves _ hnot.1) (hleaves _ hnot.2.1) (hleaves _ hnot.2.2)).mono hpast

/-- Every critical section keeps the blocks attributed. -/
theorem Attributed.step (h : Attributed sh past e.st e.disk) (hacc : e.Accounts sh)
    (hseat : e.Seated sh) (ev : Event) :
    Attributed sh (past ++ (delivery ev e).toList) (Engine.step sh ev e).st
      (Engine.step sh ev e).disk := by
  have hkeep : ∀ st : State, st.suppliers = e.st.suppliers →
      (∀ i b, st.picker.isReceived i b = e.st.picker.isReceived i b) →
      Attributed sh (past ++ []) st e.disk := by
    intro st hsup hrec
    rw [List.append_nil]
    refine ⟨fun i b => ?_, fun i b d hd => h.faithful i b d (hsup ▸ hd)⟩
    rw [hsup, hrec]
    exact h.entered i b
  cases ev with
  | register env dest fast =>
      rcases registerPeer_cases sh env dest fast e.st with ⟨r, heq⟩ | ⟨known, -, -, -, -, heq⟩
      · simp only [Engine.step, Engine.modifyState, heq]
        exact hkeep _ rfl fun _ _ => rfl
      · simp only [Engine.step, Engine.modifyState, heq]
        exact hkeep _ rfl fun _ _ => rfl
  | message env id msg => exact h.onMessage hacc hseat env id msg
  | maintain env =>
      obtain ⟨w, drops, hleaves, heq⟩ := leaves_maintain env e
      have hdone := Attributed.same (w := e.enter) h (hleaves .suppliers (by simp))
        (hleaves .blocks (by simp)) (hleaves .files (by simp))
      rw [Engine.step, heq]
      exact (Attributed.mono ⟨hdone.entered, hdone.faithful⟩ (List.subset_append_left _ _))
  | drop now id forCause =>
      rcases dropPeer_cases now id forCause e.st with ⟨-, heq⟩ | ⟨peer, rest, -, -, heq⟩
      · simp only [Engine.step, Engine.modifyState, heq]
        exact hkeep _ rfl fun _ _ => rfl
      · simp only [Engine.step, Engine.modifyState, heq]
        refine hkeep _ rfl fun i b => ?_
        exact (tended_failAll (e.st.picker.removeBitfield peer.has) peer.inFlight.keys).isReceived i b
  | addPeers rank peers =>
      obtain ⟨known, heq⟩ := addPeers_eq rank peers e.st
      simp only [Engine.step, Engine.modifyState, heq]
      exact hkeep _ rfl fun _ _ => rfl
  | _ => exact hkeep _ rfl fun _ _ => rfl

/-- Every run keeps the blocks attributed. -/
theorem Attributed.run (h : Attributed sh past e.st e.disk) (hacc : e.Accounts sh)
    (hseat : e.Seated sh) (events : List Event) :
    Attributed sh (past ++ deliveries sh events e) (Engine.run sh events e).st
      (Engine.run sh events e).disk := by
  induction events generalizing past e with
  | nil =>
      simp only [deliveries, List.append_nil]
      exact h
  | cons ev events ih =>
      have hnext := ih (h.step hacc hseat ev) (accounts_step ev hacc) (hseat.step ev)
      rw [List.append_assoc] at hnext
      exact hnext

/-! ## Who is banned -/

/-- A destination that has supplied a block of this piece, or sends one now. -/
def Contributes (e : Engine) (id index : Nat) (dest : DestHash) : Prop :=
  (∃ b, e.st.suppliers.lookup (index, b) = some dest) ∨
    ∃ p ∈ e.st.peers, p.id = id ∧ p.dest = dest

/-- Judging a piece bans only those who supplied it, and only if it fails. -/
theorem banned_onComplete (env : Env) {index : Nat} {d : DestHash}
    (h : d ∈ (onComplete sh env index w).st.banned) :
    d ∈ w.st.banned ∨ sh.storage.verifyPiece sh.sha1 w.disk env.readFault index = .ok false ∧
      ∃ b, w.st.suppliers.lookup (index, b) = some d := by
  unfold onComplete at h
  split at h
  · obtain ⟨suppliers, suspicion, heq, -⟩ :=
      State.creditSuppliers_inv (w.modifyPicker fun pk => pk.setHave index).st index
    simp only [heq] at h
    exact .inl h
  · rename_i hfailed
    obtain ⟨suppliers, suspicion, contributors, culprits, heq, -, hcontributors, hculprits, -⟩ :=
      State.blameSuppliers_inv (w.modifyPicker fun pk => pk.resetPiece index).st index
    simp only [heq] at h
    rcases ((bans_foldl culprits _).banned d).1 h with hd | hd
    · obtain ⟨b, -, hb⟩ := (hcontributors d).1 (hculprits d hd)
      exact .inr ⟨hfailed, b, hb⟩
    · exact .inl hd
  · exact .inl h

/-- A message bans only those who contributed to a piece it makes fail. -/
theorem banned_onMessage (hacc : e.Accounts sh) (env : Env) (id : Nat) (msg : Message)
    {d : DestHash} (h : d ∈ (onMessage sh env id msg e).1.st.banned) :
    d ∈ e.st.banned ∨ ∃ index begin block, msg = .piece index begin block ∧
      Judged sh env id index begin block e false ∧ Contributes e id index d := by
  obtain ⟨w, w₁, w₂, hentered, hcase, hafter, heq⟩ := onMessage_inv hacc env id msg
  rw [heq] at h
  have hbooks := (hentered.rest .known (by simp)).known.2.1
  have h : d ∈ w₁.st.banned := (hafter .known (by simp)).known.2.1 ▸ h
  have hsame : d ∈ w.st.banned → d ∈ e.st.banned := fun hd => hbooks ▸ hd
  rcases hcase with ⟨-, rfl⟩ | ⟨idx, peer, first, fast, hidx, hid, rfl⟩
  · exact .inl (hsame h)
  · by_cases hmsg : ∃ index begin block, msg = .piece index begin block
    · obtain ⟨index, begin, block, rfl⟩ := hmsg
      have h : d ∈ (onBlock sh env idx index begin block w).st.banned := h
      rcases onBlock_inv env idx index begin block hentered.balanced with
        hleaves | ⟨q, howed, hcase⟩
      · exact .inl (hsame ((hleaves .known (by simp)).known.2.1 ▸ h))
      · obtain rfl := Option.some.inj (hidx.symm.trans howed.seat)
        rcases hcase with ⟨err, -, hfailed, -⟩ | ⟨hwritten, w₃, hstored, hdone⟩
        · exact .inl (hsame ((hfailed .known (by simp)).known.2.1 ▸ h))
        · have hstill := (hstored.rest .known (by simp)).known.2.1
          rcases hdone with heq | ⟨hall, hrest⟩
          · rw [heq, hstill] at h
            exact .inl (hsame h)
          · have h : d ∈ (onComplete sh env index w₃).st.banned :=
              (hrest .known (by simp)).known.2.1 ▸ h
            rcases banned_onComplete env h with hd | ⟨hverdict, b, hb⟩
            · exact .inl (hsame (hstill ▸ hd))
            · rw [hstored.disk] at hverdict
              refine .inr ⟨index, begin, block, rfl, howed.judged hentered hid
                (hstored.last howed hall) hwritten hverdict, ?_⟩
              rw [hstored.suppliers, Map.lookup_insert] at hb
              split at hb
              · obtain ⟨r, hr, hrid, hdest⟩ :=
                  (hentered.rest .table (by simp)).seat (List.mem_of_getElem? hidx)
                exact .inr ⟨r, hr, hrid.trans hid, hdest.trans (Option.some.inj hb)⟩
              · have hsup : w.st.suppliers = e.st.suppliers :=
                  (hentered.rest .suppliers (by simp)).books
                exact .inl ⟨b, hsup ▸ hb⟩
    · by_cases hknown : .known ∈ footprint msg
      · have htalk : isTalk msg = true := by
          cases msg with
          | piece index begin block => exact absurd ⟨_, _, _, rfl⟩ hmsg
          | extended extId payload => rfl
          | _ => simp [footprint] at hknown
        rcases destinations_dispatch hentered.balanced env idx id first fast msg with
          ⟨-, -, hlearns⟩ | ⟨ds, hbans, hnone⟩
        · exact .inl (hsame (hlearns.banned ▸ h))
        · rcases (hbans.banned d).1 h with hd | hd
          · rw [hnone htalk] at hd
            cases hd
          · exact .inl (hsame hd)
      · have hleaves := leaves_dispatch sh env idx id first fast msg w _ hknown
        exact .inl (hsame (hleaves.known.2.1 ▸ h))

/-- Every critical section bans only those who contributed to a piece it makes fail. -/
theorem banned_step (hacc : e.Accounts sh) (ev : Event) {d : DestHash}
    (h : d ∈ (Engine.step sh ev e).st.banned) :
    d ∈ e.st.banned ∨ ∃ env id index begin block, ev = .message env id (.piece index begin block) ∧
      Judged sh env id index begin block e false ∧ Contributes e id index d := by
  cases ev with
  | register env dest fast =>
      rcases registerPeer_cases sh env dest fast e.st with ⟨r, heq⟩ | ⟨known, -, -, -, -, heq⟩
      · rw [Engine.step, Engine.modifyState, heq] at h
        exact .inl h
      · rw [Engine.step, Engine.modifyState, heq] at h
        exact .inl h
  | message env id msg =>
      rcases banned_onMessage hacc env id msg h with hd | ⟨index, begin, block, rfl, hjudged⟩
      · exact .inl hd
      · exact .inr ⟨env, id, index, begin, block, rfl, hjudged⟩
  | maintain env =>
      rcases ((bans_maintain env e).banned d).1 h with hd | hd
      · cases hd
      · exact .inl hd
  | drop now id forCause => exact .inl ((books_control sh e (.drop now id forCause) rfl).2 ▸ h)
  | addPeers rank peers => exact .inl ((books_control sh e (.addPeers rank peers) rfl).2 ▸ h)
  | _ => exact .inl h

/-! ## Published content -/

/-- Content with the published digests. -/
structure Published (sh : Shared) (content : Bytes) : Prop where
  length : content.length = sh.storage.layout.totalLength
  digests : ∀ i < sh.numPieces, sh.storage.pieceHashes[i]? = some (sh.sha1
    ((content.drop (sh.storage.offsetOf i 0)).take (sh.storage.layout.pieceLen i)))

/-- The published bytes of a block. -/
def publishedBlock (sh : Shared) (content : Bytes) (index begin : Nat) : Bytes :=
  (content.drop (sh.storage.offsetOf index begin)).take
    (sh.storage.layout.blockLen index (begin / BLOCK_LEN))

theorem getElem?_publishedBlock {content : Bytes} {index b j : Nat}
    (hj : j < sh.storage.layout.blockLen index b) :
    (publishedBlock sh content index (b * BLOCK_LEN))[j]? =
      content[sh.storage.offsetOf index (b * BLOCK_LEN) + j]? := by
  have hdiv : b * BLOCK_LEN / BLOCK_LEN = b := Nat.mul_div_cancel b (by decide)
  rw [publishedBlock, hdiv, List.getElem?_take_of_lt hj, List.getElem?_drop]

/-- A byte of a piece is a byte of one of its blocks. -/
theorem block_of_byte (l : Layout) {index j : Nat} (hj : j < l.pieceLen index) :
    j / BLOCK_LEN < l.blocksInPiece index ∧ j % BLOCK_LEN < l.blockLen index (j / BLOCK_LEN) := by
  have hinside : ¬ l.pieceLen index ≤ j / BLOCK_LEN * BLOCK_LEN := by
    simp only [BLOCK_LEN]
    omega
  unfold Layout.blocksInPiece Layout.blockLen
  rw [if_neg hinside]
  simp only [BLOCK_LEN]
  omega

/-- A piece whose blocks are all as published matches. -/
theorem matches_of_published {content : Bytes} (hpub : Published sh content) {index : Nat}
    (hi : index < sh.numPieces)
    (hblocks : ∀ b < sh.storage.layout.blocksInPiece index,
      ∀ j < sh.storage.layout.blockLen index b,
        sh.storage.byte disk (sh.storage.offsetOf index (b * BLOCK_LEN) + j) =
          (publishedBlock sh content index (b * BLOCK_LEN))[j]?) :
    sh.storage.Matches sh.sha1 disk index := by
  have hend : sh.storage.layout.pieceLen index ≤
      content.length - sh.storage.offsetOf index 0 := by
    rw [hpub.length]
    unfold Layout.pieceLen Storage.offsetOf
    split <;> omega
  refine ⟨_, hpub.digests index hi, ?_, fun j hj => ?_⟩
  · rw [List.length_take, List.length_drop]
    omega
  · obtain ⟨hb, hr⟩ := block_of_byte sh.storage.layout hj
    have hoff : sh.storage.offsetOf index (j / BLOCK_LEN * BLOCK_LEN) + j % BLOCK_LEN =
        sh.storage.offsetOf index 0 + j := by
      have := Nat.div_add_mod j BLOCK_LEN
      unfold Storage.offsetOf
      rw [Nat.mul_comm (j / BLOCK_LEN)]
      omega
    have hbyte := hblocks _ hb _ hr
    rw [getElem?_publishedBlock hr, hoff] at hbyte
    rw [hbyte, List.getElem?_take_of_lt hj, List.getElem?_drop]

theorem deliveries_snoc (sh : Shared) (events : List Event) (ev : Event) (e : Engine) :
    deliveries sh (events ++ [ev]) e =
      deliveries sh events e ++ (delivery ev (Engine.run sh events e)).toList := by
  induction events generalizing e with
  | nil => simp [deliveries, Engine.run]
  | cons a events ih =>
      simp only [List.cons_append, deliveries, ih, List.append_assoc]
      rfl

/-- If a piece fails that one destination supplied, that destination delivered a block of it, and
all of it, that is not as published. -/
theorem bad_delivery (h : Attributed sh past e.st e.disk) (hacc : e.Accounts sh) {content : Bytes}
    (hpub : Published sh content) {env : Env} {id index begin : Nat} {block : Bytes} {d : DestHash}
    (hjudged : Judged sh env id index begin block e false)
    (hsole : ∀ d', Contributes e id index d' → d' = d) :
    ∃ b < sh.storage.layout.blocksInPiece index, ∃ data,
      ⟨d, index, b * BLOCK_LEN, data⟩ ∈
          past ++ (delivery (.message env id (.piece index begin block)) e).toList ∧
        data.length = sh.storage.layout.blockLen index b ∧
          data ≠ publishedBlock sh content index (b * BLOCK_LEN) := by
  by_contra hall
  push Not at hall
  have hbegin : begin / BLOCK_LEN * BLOCK_LEN = begin :=
    Nat.div_mul_cancel (Nat.dvd_of_mod_eq_zero hjudged.aligned)
  have hlayout : e.st.picker.toLayout = sh.storage.layout := hacc.enter.layout
  obtain ⟨p, hp, hid, howed⟩ := hjudged.owed
  -- the piece has this block, so it is not empty
  have hcount : 0 < e.st.picker.inFlightOf (index, begin / BLOCK_LEN) := by
    rw [hacc.acc.exact]
    exact Nat.lt_of_lt_of_le (List.countP_pos_iff.2 ⟨p, hp, decide_eq_true howed⟩)
      (Nat.le_add_right _ _)
  have hb := (hacc.acc.wf.of_inFlightOf_pos hcount).2
  rw [hlayout] at hb
  have hpos : 0 < sh.storage.layout.pieceLen index := by
    by_contra hzero
    have hzero : sh.storage.layout.pieceLen index = 0 := by omega
    simp [Layout.blocksInPiece, hzero, BLOCK_LEN] at hb
  have hnone : e.st.suppliers.lookup (index, begin / BLOCK_LEN) = none := by
    have hentered := h.entered index (begin / BLOCK_LEN)
    rw [hjudged.last _ (hlayout ▸ hb)] at hentered
    exact Option.not_isSome_iff_eq_none.1 (by rw [hentered]; simp)
  have hwrote := h.wrote env.writeFault hjudged.aligned (hlayout ▸ hjudged.length) hnone
  have hsent : delivery (.message env id (.piece index begin block)) e =
      some ⟨d, index, begin, block⟩ := by
    have hfind : ∃ q, e.st.peers.find? (·.id = id) = some q := by
      rw [← Option.isSome_iff_exists, List.find?_isSome]
      exact ⟨p, hp, decide_eq_true hid⟩
    obtain ⟨q, hq⟩ := hfind
    have hqd := hsole q.dest (.inr ⟨q, List.mem_of_find?_eq_some hq,
      of_decide_eq_true (List.find?_some hq :), rfl⟩)
    simp only [delivery, hq, Option.map_some, hqd]
  refine Storage.verifyPiece_ne_false (matches_of_published hpub hjudged.inRange fun b hb j hj => ?_)
    hpos hjudged.verdict
  by_cases hlast : b = begin / BLOCK_LEN
  · subst hlast
    have hlen : block.length = _ := hlayout ▸ hjudged.length
    have hblock := hall _ hb block (by rw [hsent, hbegin]; simp) hlen
    rw [← hblock, hbegin, Storage.byte_writeBlock hjudged.written e.disk (hlen ▸ hj)]
  · have hrec := hjudged.last b (hlayout ▸ hb)
    rw [← h.entered] at hrec
    simp only [ne_eq, hlast, not_false_eq_true, decide_true] at hrec
    obtain ⟨d', hd'⟩ := Option.isSome_iff_exists.1 hrec
    obtain rfl := hsole d' (.inl ⟨b, hd'⟩)
    obtain ⟨data, hmem, hlen, hbytes⟩ := hwrote.faithful index b d' hd'
    rw [hbytes j (hlen ▸ hj)]
    exact congrArg (·[j]?) (hall b hb data (List.mem_append_left _ hmem) hlen)

/-- Blame is sound.  After every run a block has a supplier exactly if it is received, and the
bytes on disk of a received block are those its supplier delivered.  A critical section bans only
contributors of a piece that its block finishes and that fails; and if a piece fails with one
contributor, then for any content with the published digests that destination delivered a whole
block of the piece that differs from it. -/
theorem blame_sound (sh : Shared) (initialHave : Bitfield) (mode : Mode) (now : Nat) (disk : Disk)
    (events : List Event) :
    let e₀ := Engine.new sh initialHave mode now disk
    let e := Engine.run sh events e₀
    (∀ i b, (∃ d, e.st.suppliers.lookup (i, b) = some d) ↔ e.st.picker.isReceived i b = true) ∧
      (∀ i b d, e.st.suppliers.lookup (i, b) = some d → ∃ data,
        ⟨d, i, b * BLOCK_LEN, data⟩ ∈ deliveries sh events e₀ ∧
          data.length = sh.storage.layout.blockLen i b ∧
          ∀ j < data.length,
            sh.storage.byte e.disk (sh.storage.offsetOf i (b * BLOCK_LEN) + j) = data[j]?) ∧
      (∀ ev d, d ∈ (Engine.step sh ev e).st.banned → d ∈ e.st.banned ∨
        ∃ env id index begin block, ev = .message env id (.piece index begin block) ∧
          Judged sh env id index begin block e false ∧ Contributes e id index d) ∧
      ∀ content, Published sh content → ∀ env id index begin block d,
        Judged sh env id index begin block e false →
        (∀ d', Contributes e id index d' → d' = d) →
        ∃ b < sh.storage.layout.blocksInPiece index, ∃ data,
          ⟨d, index, b * BLOCK_LEN, data⟩ ∈
              deliveries sh (events ++ [.message env id (.piece index begin block)]) e₀ ∧
            data.length = sh.storage.layout.blockLen index b ∧
              data ≠ publishedBlock sh content index (b * BLOCK_LEN) := by
  intro e₀ e
  have hnew : Attributed sh [] e₀.st e₀.disk := by
    refine ⟨fun i b => ?_, fun i b d hd => ?_⟩
    · have hset : ∀ (l : List Nat) (pk : Picker), (∀ i b, pk.isReceived i b = false) →
          ∀ i b, (l.foldl Picker.setHave pk).isReceived i b = false := by
        intro l
        induction l with
        | nil => exact fun pk h => h
        | cons a l ih =>
            refine fun pk h => ih _ fun i b => ?_
            by_cases ha : a < pk.numPieces
            · rw [Picker.isReceived_setHave ha]
              split
              · rfl
              · exact h i b
            · rw [Picker.setHave, if_neg ha]
              exact h i b
      exact (hset initialHave.iterPresent (Picker.new sh.storage.layout mode) (fun _ _ => rfl)
        i b).symm
    · cases hd
  have hacc₀ := accounts_new sh initialHave mode now disk
  have hseat₀ := seated_new sh initialHave mode now disk
  have hacc : e.Accounts sh := accounts_run events hacc₀
  have h := hnew.run hacc₀ hseat₀ events
  rw [List.nil_append] at h
  refine ⟨fun i b => ?_, h.faithful, fun ev d hd => banned_step hacc ev hd, ?_⟩
  · rw [← h.entered]
    exact Option.isSome_iff_exists.symm
  · intro content hpub env id index begin block d hjudged hsole
    rw [deliveries_snoc]
    exact bad_delivery h hacc hpub hjudged hsole

end Clove.Torrent
