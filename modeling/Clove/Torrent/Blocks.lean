import Clove.Torrent.Accounting
import Clove.Torrent.Footprint

/-!
# What a block leads to

`on_block` has many ways out.  A block that is not wanted only has requests refilled; a wanted
one is written, and if the write goes through it is entered as received with its supplier, and
if it was the last of its piece the piece is judged.  `onBlock_inv` says this once, in terms of
the state the block finds, for the invariants that are about what blocks do.  `onMessage_inv`
does the same for the critical section of a message.
-/

namespace Clove.Torrent

open Wire (BLOCK_LEN Message)

/-- A block a peer owed, of a piece not held, that is not received yet. -/
structure Owed (sh : Shared) (idx index begin : Nat) (block : Bytes) (peer : Peer) (w : Work) :
    Prop where
  seat : w.st.peers[idx]? = some peer
  aligned : begin % BLOCK_LEN = 0
  inRange : index < sh.numPieces
  length : block.length = w.st.picker.blockLen index (begin / BLOCK_LEN)
  owed : (index, begin / BLOCK_LEN) ∈ peer.inFlight
  notHeld : w.st.picker.has index = false
  notReceived : w.st.picker.isReceived index (begin / BLOCK_LEN) = false

/-- The block is on disk and entered as received, and nothing else shows. -/
structure Stored (sh : Shared) (env : Env) (index begin : Nat) (block : Bytes) (dest : DestHash)
    (w w' : Work) : Prop where
  disk : w'.disk = w.disk.writes (sh.storage.writeBlock env.writeFault index begin block).1
  suppliers : w'.st.suppliers = w.st.suppliers.insert (index, begin / BLOCK_LEN) dest
  received : ∀ i b, w'.st.picker.isReceived i b =
    if (i, b) = (index, begin / BLOCK_LEN) then true else w.st.picker.isReceived i b
  rest : Leaves [.files, .suppliers, .blocks] w w'
  balanced : Balanced sh w' []

variable {sh : Shared} {w w' : Work}

/-- A block that is on disk is entered, and not judged yet.  Gives whether it finishes its piece. -/
def enterBlock (idx index begin : Nat) (dest : DestHash) (length : Nat) (w : Work) : Work × Bool :=
  let w := recordBlock idx (index, begin / BLOCK_LEN) dest length w
  let w := cancelElsewhere idx index begin (begin / BLOCK_LEN) w
  let received := w.st.picker.blockReceived index (begin / BLOCK_LEN)
  (w.modifyPicker fun _ => received.1, received.2)

theorem onWritten_eq (sh : Shared) (env : Env) (idx index begin : Nat) (block : Bytes)
    (dest : DestHash) (w : Work) : onWritten sh env idx index begin block dest w =
      let r := enterBlock idx index begin dest block.length w
      if r.2 then (onComplete sh env index r.1, true) else (r.1, false) := rfl

/-- What entering a block does. -/
theorem enterBlock_inv {idx index begin : Nat} (dest : DestHash) (length : Nat)
    (h : Balanced sh w [(index, begin / BLOCK_LEN)])
    (hself : ClearAt w (index, begin / BLOCK_LEN) idx) :
    let r := enterBlock idx index begin dest length w
    Leaves [.suppliers, .blocks] w r.1 ∧ r.1.disk = w.disk ∧
      r.1.st.suppliers = w.st.suppliers.insert (index, begin / BLOCK_LEN) dest ∧
      (∀ i b, r.1.st.picker.isReceived i b =
        if (i, b) = (index, begin / BLOCK_LEN) then true else w.st.picker.isReceived i b) ∧
      Balanced sh r.1 [] ∧
      (r.2 = true → ∀ b < r.1.st.picker.blocksInPiece index,
        r.1.st.picker.isReceived index b = true) := by
  have hbal := h.idle (idle_recordBlock idx (index, begin / BLOCK_LEN) dest length w)
  have hclear := hself.recordBlock (index, begin / BLOCK_LEN) dest length
  obtain ⟨hcancel, hnone⟩ := balanced_cancelElsewhere begin hbal hclear
  have hrecord := leaves_recordBlock idx (index, begin / BLOCK_LEN) dest length w
  have hleaves := leaves_cancelElsewhere [] idx index begin (begin / BLOCK_LEN)
    (recordBlock idx (index, begin / BLOCK_LEN) dest length w)
  have hwas := (hrecord .blocks (by simp)).trans (hleaves .blocks (by simp))
  have hsuppliers := (hleaves .suppliers (by simp)).books
  have hfiles := (hrecord .files (by simp)).trans (hleaves .files (by simp))
  have hrest : Leaves [.suppliers] w (cancelElsewhere idx index begin (begin / BLOCK_LEN)
      (recordBlock idx (index, begin / BLOCK_LEN) dest length w)) :=
    hrecord.trans (hleaves.mono (by simp))
  unfold enterBlock
  simp only
  generalize cancelElsewhere idx index begin (begin / BLOCK_LEN) _ = w₀ at *
  have hpos := hcancel.acc.inFlightOf_pos
  have hlayout := (Picker.haveField_blockReceived hcancel.acc.wf hpos).2.1
  have hreceived := Picker.isReceived_blockReceived hcancel.acc.wf hpos
  refine ⟨?_, congrArg Prod.fst hfiles.books, hsuppliers, fun i b => ?_,
    ⟨hcancel.acc.blockReceived hnone, hlayout.trans hcancel.layout, hcancel.unique⟩,
    fun hcomplete b hb => ?_⟩
  · refine (hrest.mono (by simp)).trans (leaves_modifyPicker fun a ha => ?_)
    have hheld := (Picker.haveField_blockReceived hcancel.acc.wf hpos).1
    cases a with
    | sets =>
        show (w₀.st.picker.blockReceived index (begin / BLOCK_LEN)).1.availability = _
        unfold Picker.blockReceived
        split
        · simp only
          split <;> rfl
        · rfl
    | held => exact Prod.ext hlayout hheld
    | blocks => simp at ha
    | _ => rfl
  · have hbefore : w₀.st.picker.isReceived i b = w.st.picker.isReceived i b :=
      congrFun (congrFun hwas.picker i) b
    refine (hreceived i b).trans ?_
    rw [hbefore]
  · refine Picker.blockReceived_complete hcancel.acc.wf hpos hcomplete b ?_
    have hb : b < (w₀.st.picker.blockReceived index (begin / BLOCK_LEN)).1.toLayout.blocksInPiece
      index := hb
    rw [hlayout] at hb
    exact hb

/-- What is done with a block that is on disk. -/
theorem onWritten_inv (env : Env) {idx index begin : Nat} (block : Bytes) (dest : DestHash)
    (h : Balanced sh w [(index, begin / BLOCK_LEN)])
    (hself : ClearAt w (index, begin / BLOCK_LEN) idx) :
    ∃ w₁, Leaves [.suppliers, .blocks] w w₁ ∧ w₁.disk = w.disk ∧
      w₁.st.suppliers = w.st.suppliers.insert (index, begin / BLOCK_LEN) dest ∧
      (∀ i b, w₁.st.picker.isReceived i b =
        if (i, b) = (index, begin / BLOCK_LEN) then true else w.st.picker.isReceived i b) ∧
      Balanced sh w₁ [] ∧
      (onWritten sh env idx index begin block dest w = (w₁, false) ∨
        (∀ b < w₁.st.picker.blocksInPiece index, w₁.st.picker.isReceived index b = true) ∧
          onWritten sh env idx index begin block dest w = (onComplete sh env index w₁, true)) := by
  obtain ⟨hleaves, hdisk, hsuppliers, hreceived, hbal, hcomplete⟩ :=
    enterBlock_inv dest block.length h hself
  refine ⟨_, hleaves, hdisk, hsuppliers, hreceived, hbal, ?_⟩
  rw [onWritten_eq]
  simp only
  split
  · rename_i hdone
    exact .inr ⟨hcomplete hdone, rfl⟩
  · exact .inl rfl

/-- What is done with a block that is owed and not received. -/
theorem onOwedBlock_inv (env : Env) {idx index begin : Nat} (block : Bytes) (dest : DestHash)
    (h : Balanced sh w [(index, begin / BLOCK_LEN)])
    (hself : ClearAt w (index, begin / BLOCK_LEN) idx) :
    (∃ err w₁, (sh.storage.writeBlock env.writeFault index begin block).2 = .error err ∧
        onOwedBlock sh env idx index begin block dest w = (w₁, true) ∧ Leaves [.files] w w₁ ∧
        w₁.disk = w.disk.writes (sh.storage.writeBlock env.writeFault index begin block).1) ∨
    ((sh.storage.writeBlock env.writeFault index begin block).2 = .ok () ∧
      ∃ w₁, Stored sh env index begin block dest w w₁ ∧
        (onOwedBlock sh env idx index begin block dest w = (w₁, false) ∨
          (∀ b < w₁.st.picker.blocksInPiece index, w₁.st.picker.isReceived index b = true) ∧
            onOwedBlock sh env idx index begin block dest w =
              (onComplete sh env index w₁, true))) := by
  have hfresh : w.st.picker.isReceived index (begin / BLOCK_LEN) = false :=
    Bool.eq_false_iff.2 fun hrec => h.acc.not_settled (Or.inl hrec)
  unfold onOwedBlock
  simp only [hfresh, Bool.false_eq_true, if_false]
  have hwrite := leaves_files (c := [.files]) (by simp) w
    (w.disk.writes (sh.storage.writeBlock env.writeFault index begin block).1)
    (w.trace ++ [.write (sh.storage.offsetOf index begin) block.length w.st.picker.haveField
      (sh.storage.writeBlock env.writeFault index begin block).1])
  cases hok : (sh.storage.writeBlock env.writeFault index begin block).2 with
  | error err =>
      refine .inl ⟨err, _, rfl, rfl, hwrite.trans ?_, rfl⟩
      refine Leaves.trans (Tended.leaves (tended_blockFailed _ index (begin / BLOCK_LEN)) _)
        (leaves_state ⟨rfl, rfl, rfl⟩ fun a _ => ?_)
      cases a <;> rfl
  | ok _ =>
      right
      have hbal : Balanced sh { w with
          disk := w.disk.writes (sh.storage.writeBlock env.writeFault index begin block).1
          trace := w.trace ++ [.write (sh.storage.offsetOf index begin) block.length
            w.st.picker.haveField (sh.storage.writeBlock env.writeFault index begin block).1] }
          [(index, begin / BLOCK_LEN)] := by
        refine ⟨h.acc, h.layout, fun k hk => ?_⟩
        rcases List.mem_append.1 hk with hk | hk
        · exact h.unique k hk
        · cases List.mem_singleton.1 hk
      obtain ⟨w₁, hleaves, hdisk, hsuppliers, hreceived, hdone, hcase⟩ :=
        onWritten_inv env block dest hbal hself
      refine ⟨rfl, w₁, ⟨hdisk, hsuppliers, hreceived, ?_, hdone⟩, hcase⟩
      exact (hwrite.mono (by simp)).trans (hleaves.mono (by simp))

/-- What a block leads to: nothing that shows, a write that failed, or a block that is on disk
and entered, with the piece judged if it was the last one. -/
theorem onBlock_inv (env : Env) (idx index begin : Nat) (block : Bytes) (h : Balanced sh w []) :
    Leaves [] w (onBlock sh env idx index begin block w) ∨
    ∃ peer, Owed sh idx index begin block peer w ∧
      ((∃ err, (sh.storage.writeBlock env.writeFault index begin block).2 = .error err ∧
          Leaves [.files] w (onBlock sh env idx index begin block w) ∧
          (onBlock sh env idx index begin block w).disk =
            w.disk.writes (sh.storage.writeBlock env.writeFault index begin block).1) ∨
        ((sh.storage.writeBlock env.writeFault index begin block).2 = .ok () ∧
          ∃ w₁, Stored sh env index begin block peer.dest w w₁ ∧
            (onBlock sh env idx index begin block w = w₁ ∨
              (∀ b < w₁.st.picker.blocksInPiece index, w₁.st.picker.isReceived index b = true) ∧
                Leaves [] (onComplete sh env index w₁) (onBlock sh env idx index begin block w)))) := by
  rcases onBlock_cases sh env idx index begin block w with heq | ⟨peer, hidx, hbegin, hi, hlen, hcase⟩
  · rw [heq]
    exact .inl (.refl _ w)
  · have htake := fun requested => leaves_takeOwed [] idx (index, begin / BLOCK_LEN) requested w
    rcases hcase with ⟨-, heq⟩ | ⟨-, -, heq⟩ | ⟨hreq, hnot, r, hr, heq⟩
    · rw [heq]
      exact .inl ((htake false).trans (leaves_fillRequests _ env idx _))
    · rw [heq]
      exact .inl ((htake true).trans (leaves_fillRequests _ env idx _))
    · -- an owed block moves from the peer's map to `extra`
      have howed : Balanced sh (takeOwed idx (index, begin / BLOCK_LEN) true w)
          [(index, begin / BLOCK_LEN)] :=
        ⟨h.acc.replace [(index, begin / BLOCK_LEN)] hidx _
          (fun k => (has1_erase_add hreq k).trans (by simp)), h.layout, h.unique⟩
      have hclear : ClearAt (takeOwed idx (index, begin / BLOCK_LEN) true w)
          (index, begin / BLOCK_LEN) idx := by
        intro p hp
        rw [takeOwed, Work.getElem?_modifyPeer hidx] at hp
        cases hp
        simp
      have hfresh : w.st.picker.isReceived index (begin / BLOCK_LEN) = false :=
        Bool.eq_false_iff.2 fun hrec => howed.acc.not_settled (Or.inl hrec)
      refine .inr ⟨peer, ⟨hidx, hbegin, hi, hlen, hreq, hnot, hfresh⟩, ?_⟩
      rw [heq]
      rcases onOwedBlock_inv env block peer.dest howed hclear with
        ⟨err, w₁, herr, hr₁, hleaves, hdisk⟩ | ⟨hok, w₁, hstored, hdone⟩
      · rw [hr₁] at hr
        rw [hr]
        refine .inl ⟨err, herr, ?_, ?_⟩
        · exact (((htake true).mono (by simp)).trans hleaves).trans (leaves_fillRequests _ env idx _)
        · exact (congrArg Prod.fst (leaves_fillRequests [] env idx w₁ .files (by simp)).books).trans
            hdisk
      · refine .inr ⟨hok, w₁, ⟨hstored.disk, hstored.suppliers, hstored.received,
          ((htake true).mono (by simp)).trans hstored.rest, hstored.balanced⟩, ?_⟩
        rcases hdone with hr₁ | ⟨hall, hr₁⟩
        · rw [hr₁] at hr
          rw [hr]
          exact .inl rfl
        · rw [hr₁] at hr
          rw [hr]
          exact .inr ⟨hall, leaves_fillRequests _ env idx _⟩

/-! ## The critical section of a message -/

/-- A message has been noted and not been acted on. -/
structure Entered (sh : Shared) (e : Engine) (w : Work) : Prop where
  rest : Leaves [.opening] e.enter w
  balanced : Balanced sh w []
  picker : w.st.picker = e.st.picker
  disk : w.disk = e.disk
  requests : (w.st.peers.map fun p => (p.id, p.inFlight)) =
    e.st.peers.map fun p => (p.id, p.inFlight)

theorem entered_seen {e : Engine} (h : e.Accounts sh) (now id : Nat) : Entered sh e { e.enter with
    st := e.st.modifyId id fun p => { p with lastSeen := now } } := by
  obtain ⟨hpicker, hflights⟩ := modifyId_frame e.st id
    (f := fun p => { p with lastSeen := now }) (fun _ => rfl)
  refine ⟨leaves_seen [.opening] now id e, h.enter.idle ⟨?_, hflights, rfl⟩, hpicker, rfl, ?_⟩
  · simp only [hpicker]
    exact ⟨rfl, rfl, rfl, rfl⟩
  · simp only [State.modifyId]
    split
    · exact Lists.map_modify_of_eq (by intro _; rfl) _ _
    · rfl

theorem Entered.opened {e : Engine} (h : Entered sh e w) (idx : Nat) (msg : Message) :
    Entered sh e (w.modifyPeer idx fun p => { p with opened := p.opened || opens msg }) :=
  ⟨h.rest.trans (leaves_opened idx msg w),
    h.balanced.idle (idle_modifyPeer (by intro _; rfl) _ _), h.picker, h.disk,
    (Lists.map_modify_of_eq (by intro _; rfl) _ _).trans h.requests⟩

/-- A message is noted, its handler acts if its peer is seated, and a choke round may follow. -/
theorem onMessage_inv {e : Engine} (h : e.Accounts sh) (env : Env) (id : Nat) (msg : Message) :
    ∃ w w₁ w₂, Entered sh e w ∧
      ((∀ p ∈ w.st.peers, p.id ≠ id) ∧ w₁ = w ∨
        ∃ idx peer first fast, w.st.peers[idx]? = some peer ∧ peer.id = id ∧
          w₁ = dispatch sh env idx id first fast msg w) ∧
      Leaves [.choking] w₁ w₂ ∧ onMessage sh env id msg e = w₂.finish [] := by
  have hseen := entered_seen h env.now id
  rcases handle_cases sh env id msg { e.enter with
    st := e.st.modifyId id fun p => { p with lastSeen := env.now } } with
    ⟨hnone, heq⟩ | ⟨idx, peer, hidx, hid, heq⟩
  · exact ⟨_, _, _, hseen, .inl ⟨hnone, heq⟩, leaves_after env _, rfl⟩
  · have hseat := Work.getElem?_modifyPeer hidx fun p => { p with opened := p.opened || opens msg }
    exact ⟨_, _, _, hseen.opened idx msg, .inr ⟨idx, _, _, _, hseat, hid, heq⟩,
      leaves_after env _, rfl⟩

/-! ## Pieces that are judged -/

/-- This block is owed and the last one of its piece, it reaches the disk, and the piece is then
found to match, or not to match. -/
structure Judged (sh : Shared) (env : Env) (id index begin : Nat) (block : Bytes) (e : Engine)
    (fits : Bool) : Prop where
  owed : ∃ p ∈ e.st.peers, p.id = id ∧ (index, begin / BLOCK_LEN) ∈ p.inFlight
  aligned : begin % BLOCK_LEN = 0
  inRange : index < sh.numPieces
  length : block.length = e.st.picker.blockLen index (begin / BLOCK_LEN)
  notHeld : e.st.picker.has index = false
  last : ∀ b < e.st.picker.blocksInPiece index,
    e.st.picker.isReceived index b = decide (b ≠ begin / BLOCK_LEN)
  written : (sh.storage.writeBlock env.writeFault index begin block).2 = .ok ()
  verdict : sh.storage.verifyPiece sh.sha1
    (e.disk.writes (sh.storage.writeBlock env.writeFault index begin block).1) env.readFault index =
      .ok fits

/-- A block that finishes its piece was the only one missing. -/
theorem Stored.last {env : Env} {idx index begin : Nat} {block : Bytes} {peer : Peer}
    (hstored : Stored sh env index begin block peer.dest w w')
    (howed : Owed sh idx index begin block peer w)
    (hall : ∀ b < w'.st.picker.blocksInPiece index, w'.st.picker.isReceived index b = true) :
    ∀ b < w.st.picker.blocksInPiece index,
      w.st.picker.isReceived index b = decide (b ≠ begin / BLOCK_LEN) := by
  intro b hb
  have hlayout : w'.st.picker.toLayout = w.st.picker.toLayout :=
    congrArg Prod.fst (hstored.rest .held (by simp)).picker
  have hin := hall b (by rw [hlayout]; exact hb)
  rw [hstored.received] at hin
  by_cases hblock : b = begin / BLOCK_LEN
  · rw [hblock, howed.notReceived]
    simp
  · rw [if_neg (fun heq => hblock (Prod.mk.inj heq).2)] at hin
    rw [hin]
    simp [hblock]

/-- What a block is judged by is there before its message is noted. -/
theorem Owed.judged {e : Engine} {env : Env} {id idx index begin : Nat} {block : Bytes} {peer : Peer}
    {fits : Bool} (h : Owed sh idx index begin block peer w) (hentered : Entered sh e w)
    (hid : peer.id = id)
    (hlast : ∀ b < w.st.picker.blocksInPiece index,
      w.st.picker.isReceived index b = decide (b ≠ begin / BLOCK_LEN))
    (hwritten : (sh.storage.writeBlock env.writeFault index begin block).2 = .ok ())
    (hverdict : sh.storage.verifyPiece sh.sha1
      (w.disk.writes (sh.storage.writeBlock env.writeFault index begin block).1) env.readFault
        index = .ok fits) : Judged sh env id index begin block e fits := by
  have hpicker := hentered.picker
  refine ⟨?_, h.aligned, h.inRange, hpicker ▸ h.length, hpicker ▸ h.notHeld, hpicker ▸ hlast,
    hwritten, hentered.disk ▸ hverdict⟩
  have hmem := List.mem_map_of_mem (f := fun p : Peer => (p.id, p.inFlight))
    (List.mem_of_getElem? h.seat)
  rw [hentered.requests] at hmem
  obtain ⟨p, hp, heq⟩ := List.mem_map.1 hmem
  obtain ⟨hpid, hmap⟩ := Prod.mk.inj heq
  exact ⟨p, hp, hpid.trans hid, hmap ▸ h.owed⟩

end Clove.Torrent
