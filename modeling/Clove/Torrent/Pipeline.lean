import Clove.Torrent.Refills
import Clove.Torrent.Threads

/-!
# Full pipelines

`fill_requests` is work-conserving if it leaves the pipeline full, or nothing to fill it with.
The picker does not know what a peer owes, so in the endgame it may spend the room it is given
on blocks the peer owes already: `fillRequests_conserving_iff` says when it does not.
`on_block` leaves the pipeline as it is when the block did not complete its piece:
`onBlock_occupied_iff` says, of the state before the block, when there is nothing to fill it with.
-/

namespace Clove.Torrent

open Wire (BLOCK_LEN BlockRequest Message)

variable {sh : Shared} {e : Engine} {w w' w₁ : Work}

/-! ## Work conservation -/

/-- The pipeline of a peer is full, or every block it could be asked for is in flight: outside the
endgame from somebody, in it from the peer itself. -/
def Conserving (st : State) (p : Peer) : Prop :=
  p.inFlight.keys.length = PIPELINE_DEPTH ∨
    ∀ k, st.picker.Outstanding p.has k →
      if st.picker.inEndgame then k ∈ p.inFlight else ∃ q ∈ st.peers, k ∈ q.inFlight

/-- The pipeline of a peer is full, or it owes every block the picker could offer it. -/
def Occupied (pk : Picker) (p : Peer) : Prop :=
  p.inFlight.keys.length = PIPELINE_DEPTH ∨ ∀ k, pk.Offerable p.has k → k ∈ p.inFlight

/-- No room goes to blocks that are owed already, or there is nothing else it could go to: it is
not the endgame, or the peer owes none of the first offers, or all of the others. -/
def Thrifty (pk : Picker) (p : Peer) : Prop :=
  pk.inEndgame = false ∨ (∀ k ∈ (pk.offers p.has).take p.room, k ∉ p.inFlight) ∨
    ∀ k ∈ (pk.offers p.has).drop p.room, k ∈ p.inFlight

instance (pk : Picker) (p : Peer) : Decidable (Thrifty pk p) := inferInstanceAs (Decidable (_ ∨ _ ∨ _))

/-- A block is in flight exactly if somebody owes it. -/
theorem inFlightOf_pos_iff (h : Balanced sh w []) {k : BlockKey} :
    w.st.picker.inFlightOf k ≠ 0 ↔ ∃ q ∈ w.st.peers, k ∈ q.inFlight := by
  have hcount : w.st.picker.inFlightOf k = owing w.st.peers k := by simpa using h.acc.exact k
  rw [hcount, owing, ← Nat.pos_iff_ne_zero, List.countP_pos_iff]
  simp only [decide_eq_true_eq]

/-- The two ways to say it agree. -/
theorem conserving_iff_occupied (h : Balanced sh w []) {p : Peer} (hp : p ∈ w.st.peers) :
    Conserving w.st p ↔ Occupied w.st.picker p := by
  refine or_congr_right ⟨fun hall k hk => ?_, fun hall k hk => ?_⟩
  · have howed := hall k hk.1
    split at howed
    · exact howed
    · rename_i hendgame
      exact absurd (hk.2.resolve_left hendgame) ((inFlightOf_pos_iff h).2 howed)
  · split
    · rename_i hendgame
      exact hall k ⟨hk, .inl hendgame⟩
    · by_cases hfree : w.st.picker.inFlightOf k = 0
      · exact ⟨p, hp, hall k ⟨hk, .inr hfree⟩⟩
      · exact (inFlightOf_pos_iff h).1 hfree

/-- Where no room went to blocks already owed, the pipeline is full or everything is taken. -/
theorem full_or_all_taken {pk : Picker} {p : Peer} (hroom : p.inFlight.keys.length ≤ PIPELINE_DEPTH)
    (hnew : ∀ k ∈ taken pk p, k ∉ p.inFlight) :
    p.inFlight.keys.length + (fresh pk p).length = PIPELINE_DEPTH ∨
      taken pk p = pk.offers p.has := by
  have hfresh : fresh pk p = taken pk p :=
    List.filter_eq_self.2 fun k hk => decide_eq_true (hnew k hk)
  by_cases hmany : p.room ≤ (pk.offers p.has).length
  · left
    rw [hfresh, taken, List.length_take, Nat.min_eq_left hmany, Peer.room]
    omega
  · exact .inr (List.take_of_length_le (Nat.le_of_not_le hmany))

/-- A refill conserves work exactly if it is thrifty. -/
theorem occupied_filled_iff {now idx : Nat} {peer peer' : Peer} (h : Balanced sh w [])
    (hpipe : Pipelined w.st) (hidx : w.st.peers[idx]? = some peer)
    (hfilled : Filled now idx peer w w') (hidx' : w'.st.peers[idx]? = some peer') :
    Conserving w'.st peer' ↔ Thrifty w.st.picker peer := by
  obtain ⟨flights, hseat, hlookup⟩ := hfilled.seat
  obtain rfl := Option.some.inj (hseat.symm.trans hidx')
  have hroom := hpipe peer (List.mem_of_getElem? hidx)
  have hlength := length_filled hlookup
  have hmem : ∀ k, k ∈ flights ↔ k ∈ taken w.st.picker peer ∨ k ∈ peer.inFlight :=
    fun k => mem_filled hlookup
  have hnodup := Picker.nodup_offers w.st.picker peer.has
  rw [← List.take_append_drop peer.room (w.st.picker.offers peer.has), List.nodup_append] at hnodup
  unfold Conserving
  simp only [hfilled.picker.outstanding_iff, hfilled.picker.inEndgame h.acc.wf]
  cases hendgame : w.st.picker.inEndgame with
  | false =>
      -- What is offered outside the endgame is owed by nobody.
      refine iff_of_true ?_ (.inl hendgame)
      have hnew : ∀ k ∈ taken w.st.picker peer, k ∉ peer.inFlight := by
        intro k hk hin
        have hoffer := Picker.mem_offers.1 (List.mem_of_mem_take hk)
        refine (inFlightOf_pos_iff h).2 ⟨peer, List.mem_of_getElem? hidx, hin⟩ (hoffer.2.resolve_left ?_)
        simp [hendgame]
      rcases full_or_all_taken hroom hnew with hfull | hall
      · exact .inl (hlength.trans hfull)
      · refine .inr fun k hk => ?_
        rw [if_neg (by simp)]
        by_cases hfree : w.st.picker.inFlightOf k = 0
        · refine ⟨_, List.mem_of_getElem? hseat, (hmem k).2 (.inl ?_)⟩
          rw [hall]
          exact Picker.mem_offers.2 ⟨hk, .inr hfree⟩
        · obtain ⟨q, hq, hin⟩ := (inFlightOf_pos_iff h).1 hfree
          obtain ⟨j, hj⟩ := List.mem_iff_getElem?.1 hq
          by_cases hji : j = idx
          · subst hji
            obtain rfl := Option.some.inj (hidx.symm.trans hj)
            exact ⟨_, List.mem_of_getElem? hseat, (hmem k).2 (.inr hin)⟩
          · rw [← hfilled.others j hji] at hj
            exact ⟨q, List.mem_of_getElem? hj, hin⟩
  | true =>
      have hoffers : ∀ k, k ∈ w.st.picker.offers peer.has ↔ w.st.picker.Outstanding peer.has k :=
        fun k => Picker.mem_offers.trans (and_iff_left (.inl hendgame))
      simp only [if_true]
      unfold Thrifty
      simp only [hendgame, Bool.true_eq_false, false_or]
      constructor
      · rintro (hfull | hall)
        · -- The pipeline is full: nothing of what was taken is owed already.
          left
          intro k hk hin
          have hshort : (fresh w.st.picker peer).length < (taken w.st.picker peer).length := by
            refine lt_of_le_of_ne (List.length_filter_le _ _) fun heq => ?_
            have hself := List.filter_eq_self.1 (List.filter_sublist.eq_of_length heq) k hk
            exact of_decide_eq_true hself hin
          have hle : (taken w.st.picker peer).length ≤ peer.room := List.length_take_le _ _
          have hfull : flights.keys.length = PIPELINE_DEPTH := hfull
          unfold Peer.room at hle
          omega
        · right
          intro k hk
          rcases (hmem k).1 (hall k ((hoffers k).1 (List.mem_of_mem_drop hk))) with htaken | hin
          · exact absurd rfl (hnodup.2.2 k htaken k hk)
          · exact hin
      · rintro (hnew | hrest)
        · rcases full_or_all_taken hroom hnew with hfull | hall
          · exact .inl (hlength.trans hfull)
          · refine .inr fun k hk => (hmem k).2 (.inl ?_)
            rw [hall]
            exact (hoffers k).2 hk
        · refine .inr fun k hk => (hmem k).2 ?_
          have hk := (hoffers k).2 hk
          rw [← List.take_append_drop peer.room (w.st.picker.offers peer.has)] at hk
          exact (List.mem_append.1 hk).imp id (hrest k)

/-- `fill_requests`, on a state between critical sections or wherever one calls it, for a peer that
may be asked: it conserves work exactly if it is thrifty, no peer owes more than the depth of a
pipeline, and one request is queued for each block newly owed. -/
theorem fillRequests_conserving_iff (sh : Shared) (initialHave : Bitfield) (mode : Mode) (now : Nat)
    (disk : Disk) (events : List Event) :
    let e := Engine.run sh events (Engine.new sh initialHave mode now disk)
    (∀ p ∈ e.st.peers, p.inFlight.keys.length ≤ PIPELINE_DEPTH) ∧
      ∀ (env : Env) (idx : Nat) (w : Work) (peer : Peer),
        w = e.enter ∨ (∃ ev, (idx, w) ∈ Event.refills sh ev e) →
        w.st.peers[idx]? = some peer → peer.Askable →
        ∃ (peer' : Peer) (news : List BlockKey),
          (fillRequests env idx w).st.peers[idx]? = some peer' ∧
          (Conserving (fillRequests env idx w).st peer' ↔ Thrifty w.st.picker peer) ∧
          (∀ p ∈ (fillRequests env idx w).st.peers, p.inFlight.keys.length ≤ PIPELINE_DEPTH) ∧
          news.Nodup ∧ (∀ k, k ∈ news ↔ k ∈ peer'.inFlight ∧ k ∉ peer.inFlight) ∧
          (fillRequests env idx w).out =
            w.out ++ news.map fun k => (peer.id, .request (w.st.picker.requestFor k)) := by
  intro e
  obtain ⟨hacc, hpipe⟩ := pipelined_run sh initialHave mode now disk events
  refine ⟨hpipe, fun env idx w peer hcall hidx hask => ?_⟩
  have hstate : Balanced sh w [] ∧ Pipelined w.st := by
    rcases hcall with rfl | ⟨ev, hcall⟩
    · exact ⟨hacc.enter, hpipe⟩
    · exact ⟨balanced_refills hacc hcall, pipelined_refills hpipe hacc hcall⟩
  obtain ⟨hbal, hpipe⟩ := hstate
  have hfilled := filled_fillRequests env hbal.acc.wf hidx hask
  obtain ⟨flights, hseat, hlookup⟩ := hfilled.seat
  refine ⟨_, fresh w.st.picker peer, hseat, occupied_filled_iff hbal hpipe hidx hfilled hseat,
    hpipe.fillRequests hbal.acc.wf env idx, ?_, fun k => ?_, hfilled.out⟩
  · exact ((Picker.nodup_offers _ _).sublist (List.take_sublist _ _)).filter _
  · show k ∈ fresh w.st.picker peer ↔ k ∈ flights ∧ k ∉ peer.inFlight
    rw [fresh, List.mem_filter, decide_eq_true_eq, mem_filled hlookup]
    exact and_congr_left fun hnew => (or_iff_left hnew).symm

/-! ## A run that idles

The torrent has nine pieces of two blocks each, the very last of which is a single byte in a
file of its own. -/

namespace NinePairs

open OneByte (digest dest env)

def rawInfo : Bytes :=
  [100, 53, 58, 102, 105, 108, 101, 115, 108, 100, 54, 58, 108, 101, 110, 103, 116, 104, 105, 50, 55,
    56, 53, 50, 56, 101, 52, 58, 112, 97, 116, 104, 108, 49, 58, 97, 101, 101, 100, 54, 58, 108, 101,
    110, 103, 116, 104, 105, 49, 101, 52, 58, 112, 97, 116, 104, 108, 49, 58, 98, 101, 101, 101, 52,
    58, 110, 97, 109, 101, 49, 58, 97, 49, 50, 58, 112, 105, 101, 99, 101, 32, 108, 101, 110, 103,
    116, 104, 105, 51, 50, 55, 54, 56, 101, 54, 58, 112, 105, 101, 99, 101, 115, 49, 56, 48, 58] ++
    (List.replicate 9 digest).flatten ++ [101]

def infoHash : Bytes :=
  [130, 215, 20, 141, 64, 186, 190, 115, 80, 175, 177, 129, 157, 237, 75, 139, 176, 180, 170, 28]

def shared : Shared where
  infoHash := infoHash
  peerId := OneByte.shared.peerId
  storage := Storage.create ⟨9, 32768, 278529⟩ [278528, 1] (List.replicate 9 digest) rfl
  rawInfo := rawInfo
  isPrivate := false
  sha1 := fun bs => if bs = rawInfo then infoHash else []

def start : Engine := Engine.new shared (Bitfield.empty 9) .rarestFirst 0 fun _ => []

/-- A peer connects, has the first four pieces, unchokes us, and has one more. -/
def grown : List Event :=
  [.register (env 0) (dest 0) false, .message (env 0) 0 (.bitfield [240, 0]),
    .message (env 0) 0 .unchoke, .message (env 0) 0 (.have_ 4)]

end NinePairs

/-- The endgame is on from the start.  The peer owes the eight blocks it was asked for first, and a
tick that has room for eight more is offered the same eight again. -/
theorem fillRequests_idles :
    let e := Engine.run NinePairs.shared NinePairs.grown NinePairs.start
    ∃ c ∈ Event.refills NinePairs.shared (.maintain (OneByte.env 0)) e,
      ∃ p ∈ c.2.st.peers, p.Askable ∧
        ∃ p' ∈ (fillRequests (OneByte.env 0) c.1 c.2).st.peers, p'.id = p.id ∧
          ¬ Conserving (fillRequests (OneByte.env 0) c.1 c.2).st p' := by
  intro e
  have hrun : ∃ c ∈ Event.refills NinePairs.shared (.maintain (OneByte.env 0)) e,
      ∃ p ∈ c.2.st.peers, p.Askable ∧
        ∃ p' ∈ (fillRequests (OneByte.env 0) c.1 c.2).st.peers, p'.id = p.id ∧
          p'.inFlight.keys.length ≠ PIPELINE_DEPTH ∧
          (fillRequests (OneByte.env 0) c.1 c.2).st.picker.inEndgame = true ∧
          (4, 0) ∈ (fillRequests (OneByte.env 0) c.1 c.2).st.picker.offers p'.has ∧
          (4, 0) ∉ p'.inFlight := by
    decide +kernel
  obtain ⟨c, hc, p, hp, hask, p', hp', hid, hroom, hendgame, hoffer, hnew⟩ := hrun
  refine ⟨c, hc, p, hp, hask, p', hp', hid, ?_⟩
  rintro (hfull | hall)
  · exact hroom hfull
  · have howed := hall (4, 0) (Picker.mem_offers.1 hoffer).1
    rw [if_pos hendgame] at howed
    exact hnew howed

theorem fillRequests_conserving_grown :
    let e := Engine.run NinePairs.shared NinePairs.grown NinePairs.start
    ∃ peer peer', e.enter.st.peers[0]? = some peer ∧ peer.Askable ∧
      (fillRequests (OneByte.env 0) 0 e.enter).st.peers[0]? = some peer' ∧
      (Conserving (fillRequests (OneByte.env 0) 0 e.enter).st peer' ↔
        Thrifty e.enter.st.picker peer) := by
  intro e
  have hrun : (e.enter.st.peers[0]?).any (fun p => decide p.Askable) = true := by decide +kernel
  obtain ⟨peer, hidx, hask⟩ := (Option.any_eq_true _ _).1 hrun
  obtain ⟨peer', -, hseat, hiff, -⟩ := (fillRequests_conserving_iff NinePairs.shared
    (Bitfield.empty 9) .rarestFirst 0 (fun _ => []) NinePairs.grown).2 (OneByte.env 0) 0 e.enter peer
    (.inl rfl) hidx (of_decide_eq_true hask)
  exact ⟨peer, peer', hidx, of_decide_eq_true hask, hseat, hiff⟩

/-! ## Blocks that arrive -/

/-- The block is the last of its piece to arrive. -/
def Finishes (pk : Picker) (index block : Nat) : Prop :=
  ∀ c < pk.blocksInPiece index, c ≠ block → pk.isReceived index c = true

instance (pk : Picker) (index block : Nat) : Decidable (Finishes pk index block) :=
  inferInstanceAs (Decidable (∀ c < _, _))

/-- The block spoils its piece: with it on disk the piece is read, and is not what it should be. -/
def Spoils (sh : Shared) (env : Env) (index begin : Nat) (block : Bytes) (disk : Disk) : Prop :=
  sh.storage.verifyPiece sh.sha1
    (disk.writes (sh.storage.writeBlock env.writeFault index begin block).1) env.readFault index =
      .ok false

instance (sh : Shared) (env : Env) (index begin : Nat) (block : Bytes) (disk : Disk) :
    Decidable (Spoils sh env index begin block disk) :=
  inferInstanceAs (Decidable (_ = _))

/-- What a peer could be asked for besides the block it sends is owed: by the peer itself if it is
the endgame without that block, and else by anybody. -/
def OwedBut (st : State) (p : Peer) (k : BlockKey) : Prop :=
  ∀ l, st.picker.Outstanding p.has l → l ≠ k →
    if st.picker.endgameBut k then l ∈ p.inFlight else ∃ q ∈ st.peers, l ∈ q.inFlight

/-- The picker once a block is entered and, if it finishes its piece, the piece is judged. -/
def pickerAfter (sh : Shared) (env : Env) (index begin : Nat) (block : Bytes) (w : Work) : Picker :=
  let pk := (w.st.picker.blockReceived index (begin / BLOCK_LEN)).1
  if Finishes w.st.picker index (begin / BLOCK_LEN) then
    match sh.storage.verifyPiece sh.sha1
        (w.disk.writes (sh.storage.writeBlock env.writeFault index begin block).1) env.readFault
        index with
    | .ok true => pk.setHave index
    | .ok false => pk.resetPiece index
    | .error _ => pk
  else pk

/-- Withdrawing a block elsewhere touches neither its sender nor what else is counted. -/
theorem cancelElsewhere_keeps (idx index begin blockNo : Nat) (w : Work) :
    (cancelElsewhere idx index begin blockNo w).st.peers[idx]? = w.st.peers[idx]? ∧
      Picker.Alike (· = (index, blockNo)) w.st.picker
        (cancelElsewhere idx index begin blockNo w).st.picker := by
  unfold cancelElsewhere
  simp only
  generalize w.st.picker.blockLen index blockNo = length
  generalize List.range w.st.peers.length = l
  induction l generalizing w with
  | nil => exact ⟨rfl, .refl _⟩
  | cons other l ih =>
      have hone : (cancelAt idx index begin blockNo length w other).st.peers[idx]? =
            w.st.peers[idx]? ∧
          Picker.Alike (· = (index, blockNo)) w.st.picker
            (cancelAt idx index begin blockNo length w other).st.picker := by
        unfold cancelAt
        split
        · exact ⟨rfl, .refl _⟩
        · rename_i hne
          split
          · exact ⟨rfl, .refl _⟩
          · split
            · refine ⟨?_, Picker.alike_blockFailed _ _ _⟩
              simp only [Work.push, Work.modifyPicker, Work.modifyPeer,
                List.getElem?_modify_ne _ _ hne]
            · exact ⟨rfl, .refl _⟩
      obtain ⟨hseat, halike⟩ := ih (cancelAt idx index begin blockNo length w other)
      exact ⟨hseat.trans hone.1, hone.2.trans halike⟩

/-- A verdict is about the picker, and not about the table. -/
theorem onComplete_frame (sh : Shared) (env : Env) (index : Nat) (w : Work) :
    (onComplete sh env index w).st.peers = w.st.peers ∧
      (onComplete sh env index w).st.picker =
        match sh.storage.verifyPiece sh.sha1 w.disk env.readFault index with
        | .ok true => w.st.picker.setHave index
        | .ok false => w.st.picker.resetPiece index
        | .error _ => w.st.picker := by
  unfold onComplete
  cases sh.storage.verifyPiece sh.sha1 w.disk env.readFault index with
  | error _ => exact ⟨rfl, rfl⟩
  | ok fits =>
      cases fits with
      | true =>
          have hkeep := State.untouched_creditSuppliers
            (w.modifyPicker fun pk => pk.setHave index).st index
          exact ⟨hkeep.peers, hkeep.picker⟩
      | false =>
          have hkeep := State.untouched_blameSuppliers
            (w.modifyPicker fun pk => pk.resetPiece index).st index
          exact ⟨hkeep.peers, hkeep.picker⟩

/-- A state in which a block has been entered, and its piece judged if it is the last. -/
structure Taken (sh : Shared) (env : Env) (idx index begin : Nat) (block : Bytes) (peer : Peer)
    (w w' : Work) : Prop where
  balanced : Balanced sh w' []
  lapses : Lapses w w'
  seat : ∃ p, w'.st.peers[idx]? = some p ∧ p.has = peer.has ∧
    p.inFlight = peer.inFlight.erase (index, begin / BLOCK_LEN) ∧
    (p.Askable ↔ peer.Askable)
  offers : ∀ has, w'.st.picker.offers has = (pickerAfter sh env index begin block w).offers has
  inEndgame : w'.st.picker.inEndgame = (pickerAfter sh env index begin block w).inEndgame

theorem taken_of_alike {env : Env} {idx index begin : Nat} {block : Bytes} {peer : Peer}
    (hbal : Balanced sh w' []) (hlapses : Lapses w w')
    (hseat : ∃ p, w'.st.peers[idx]? = some p ∧ p.has = peer.has ∧
      p.inFlight = peer.inFlight.erase (index, begin / BLOCK_LEN) ∧ (p.Askable ↔ peer.Askable))
    (halike : ∃ skip, Picker.Alike skip (pickerAfter sh env index begin block w) w'.st.picker ∧
      (pickerAfter sh env index begin block w).WF ∧
      ∀ k, skip k → (pickerAfter sh env index begin block w).isReceived k.1 k.2 = true) :
    Taken sh env idx index begin block peer w w' := by
  obtain ⟨skip, halike, hwf, hskip⟩ := halike
  exact ⟨hbal, hlapses, hseat, fun has => halike.offers hwf hbal.acc.wf hskip has,
    halike.inEndgame hwf hbal.acc.wf⟩

/-- An owed block has been taken off its peer and put on disk. -/
def writeOwed (sh : Shared) (env : Env) (idx index begin : Nat) (block : Bytes) (w : Work) : Work :=
  { takeOwed idx (index, begin / BLOCK_LEN) true w with
    disk := w.disk.writes (sh.storage.writeBlock env.writeFault index begin block).1
    trace := w.trace ++ [.write (sh.storage.offsetOf index begin) block.length
      w.st.picker.haveField (sh.storage.writeBlock env.writeFault index begin block).1] }

/-- A block that is owed and written goes on to be entered, and its piece to be judged. -/
theorem onBlock_owed {env : Env} {idx index begin : Nat} {block : Bytes} {peer : Peer}
    (howed : Owed sh idx index begin block peer w)
    (hok : (sh.storage.writeBlock env.writeFault index begin block).2 = .ok ()) :
    onBlock sh env idx index begin block w =
      let r := enterBlock idx index begin peer.dest block.length
        (writeOwed sh env idx index begin block w)
      if r.2 then fillRequests env idx (onComplete sh env index r.1) else r.1 := by
  have hshape : ¬ (begin % BLOCK_LEN ≠ 0 ∨ sh.numPieces ≤ index) := by
    rw [not_or, not_not, not_le]
    exact ⟨howed.aligned, howed.inRange⟩
  have hnot : (takeOwed idx (index, begin / BLOCK_LEN) true w).st.picker.has index = false :=
    howed.notHeld
  have hdue : (takeOwed idx (index, begin / BLOCK_LEN) true w).st.picker.isReceived index
      (begin / BLOCK_LEN) = false := howed.notReceived
  have htaken : onBlock sh env idx index begin block w =
      let r := onWritten sh env idx index begin block peer.dest
        (writeOwed sh env idx index begin block w)
      if r.2 then fillRequests env idx r.1 else r.1 := by
    unfold onBlock onOwedBlock
    simp only [howed.seat, if_neg hshape, if_neg (not_not.2 howed.length), howed.owed, decide_true,
      Bool.not_true, hnot, Bool.or_self, Bool.false_eq_true, if_false, hdue, hok]
    rfl
  rw [htaken, onWritten_eq]
  simp only
  cases (enterBlock idx index begin peer.dest block.length
    (writeOwed sh env idx index begin block w)).2 <;> rfl

/-- The picker has entered the block, and counts what it counted. -/
theorem alike_entered {index block : Nat} (h : Balanced sh w [])
    (hw' : Balanced sh w' [(index, block)]) (hpos : 0 < w.st.picker.inFlightOf (index, block))
    (halike : Picker.Alike (· = (index, block)) w.st.picker w'.st.picker) :
    Picker.Alike (· = (index, block)) (w.st.picker.blockReceived index block).1
        (w'.st.picker.blockReceived index block).1 ∧
      ((w'.st.picker.blockReceived index block).2 = true ↔ Finishes w.st.picker index block) := by
  have hpos' := hw'.acc.inFlightOf_pos
  refine ⟨halike.blockReceived h.acc.wf hw'.acc.wf hpos hpos', ?_⟩
  have hreceived := Picker.isReceived_blockReceived hw'.acc.wf hpos'
  have hblocks : (w'.st.picker.blockReceived index block).1.toLayout = w.st.picker.toLayout :=
    (Picker.haveField_blockReceived hw'.acc.wf hpos').2.1.trans halike.toLayout
  constructor
  · intro hcomplete c hc hne
    have hin := Picker.blockReceived_complete hw'.acc.wf hpos' hcomplete c
      (by rw [halike.toLayout]; exact hc)
    rw [hreceived, if_neg (fun heq => hne (Prod.mk.inj heq).2), halike.received] at hin
    exact hin
  · intro hfin
    refine Picker.complete_of_blockReceived hw'.acc.wf hpos' fun c hc => ?_
    rw [hreceived]
    split
    · rfl
    · rename_i hne
      rw [halike.received]
      exact hfin c (by rw [← halike.toLayout]; exact hc) fun heq => hne (Prod.ext rfl heq)

/-- A block that is owed has been written and entered. -/
structure Landed (sh : Shared) (env : Env) (idx index begin : Nat) (block : Bytes) (peer : Peer)
    (w : Work) (r : Work × Bool) : Prop where
  stored : Stored sh env index begin block peer.dest w r.1
  lapses : Lapses w r.1
  seat : ∃ p, r.1.st.peers[idx]? = some p ∧ p.has = peer.has ∧
    p.inFlight = peer.inFlight.erase (index, begin / BLOCK_LEN) ∧ (p.Askable ↔ peer.Askable)
  alike : Picker.Alike (· = (index, begin / BLOCK_LEN))
    (w.st.picker.blockReceived index (begin / BLOCK_LEN)).1 r.1.st.picker
  finishes : r.2 = true ↔ Finishes w.st.picker index (begin / BLOCK_LEN)
  complete : r.2 = true → ∀ b < r.1.st.picker.blocksInPiece index,
    r.1.st.picker.isReceived index b = true

theorem Owed.inFlightOf_pos {idx index begin : Nat} {block : Bytes} {peer : Peer}
    (howed : Owed sh idx index begin block peer w) (h : Balanced sh w []) :
    0 < w.st.picker.inFlightOf (index, begin / BLOCK_LEN) :=
  Nat.pos_of_ne_zero ((inFlightOf_pos_iff h).2 ⟨peer, List.mem_of_getElem? howed.seat, howed.owed⟩)

theorem Owed.landed {env : Env} {idx index begin : Nat} {block : Bytes} {peer : Peer}
    (howed : Owed sh idx index begin block peer w) (h : Balanced sh w []) :
    Landed sh env idx index begin block peer w (enterBlock idx index begin peer.dest block.length
      (writeOwed sh env idx index begin block w)) := by
  -- The block moves from the peer's map to those counted besides.
  have hmoved : Balanced sh (writeOwed sh env idx index begin block w)
      [(index, begin / BLOCK_LEN)] := by
    refine ⟨h.acc.replace [(index, begin / BLOCK_LEN)] howed.seat _
      (fun k => (has1_erase_add howed.owed k).trans (by simp)), h.layout, fun k hk => ?_⟩
    rcases List.mem_append.1 hk with hk | hk
    · exact h.unique k hk
    · cases List.mem_singleton.1 hk
  have hseat : (writeOwed sh env idx index begin block w).st.peers[idx]? = some { peer with
      inFlight := peer.inFlight.erase (index, begin / BLOCK_LEN), strikes := 0 } :=
    Work.getElem?_modifyPeer howed.seat _
  have hclear : ClearAt (writeOwed sh env idx index begin block w) (index, begin / BLOCK_LEN)
      idx := by
    intro p hp
    obtain rfl := Option.some.inj (hseat.symm.trans hp)
    simp
  have htaken : Lapses w (writeOwed sh env idx index begin block w) :=
    (lapses_takeOwed idx (index, begin / BLOCK_LEN) true w).trans (lapses_files _ _ _)
  have hleaves : Leaves [.files] w (writeOwed sh env idx index begin block w) :=
    ((leaves_takeOwed [] idx (index, begin / BLOCK_LEN) true w).mono (by simp)).trans
      (leaves_files (by simp) _ _ _)
  obtain ⟨hrest, hdisk, hsuppliers, hreceived, hbal, hcomplete⟩ :=
    enterBlock_inv peer.dest block.length hmoved hclear
  obtain ⟨hcancel, -⟩ := balanced_cancelElsewhere begin
    (hmoved.idle (idle_recordBlock idx (index, begin / BLOCK_LEN) peer.dest block.length _))
    (hclear.recordBlock (index, begin / BLOCK_LEN) peer.dest block.length)
  obtain ⟨hkept, halike⟩ := cancelElsewhere_keeps idx index begin (begin / BLOCK_LEN)
    (recordBlock idx (index, begin / BLOCK_LEN) peer.dest block.length
      (writeOwed sh env idx index begin block w))
  have hrecorded : (recordBlock idx (index, begin / BLOCK_LEN) peer.dest block.length
      (writeOwed sh env idx index begin block w)).st.peers[idx]? = some { peer with
        inFlight := peer.inFlight.erase (index, begin / BLOCK_LEN)
        strikes := 0
        downloaded := peer.downloaded + block.length } :=
    Work.getElem?_modifyPeer hseat _
  have halike : Picker.Alike (· = (index, begin / BLOCK_LEN)) w.st.picker _ := halike
  obtain ⟨hentered, hfinishes⟩ := alike_entered h hcancel (howed.inFlightOf_pos h) halike
  exact ⟨⟨hdisk, hsuppliers, hreceived, (hleaves.mono (by simp)).trans (hrest.mono (by simp)), hbal⟩,
    htaken.trans (lapses_enterBlock idx index begin peer.dest block.length _),
    ⟨_, hkept.trans hrecorded, rfl, rfl, .rfl⟩, hentered, hfinishes, hcomplete⟩

/-- A block that is owed and written is taken, and the pipeline is topped up only if it finishes
its piece. -/
theorem onBlock_taken {env : Env} {idx index begin : Nat} {block : Bytes} {peer : Peer}
    (h : Balanced sh w []) (howed : Owed sh idx index begin block peer w)
    (hok : (sh.storage.writeBlock env.writeFault index begin block).2 = .ok ()) :
    ∃ w', Taken sh env idx index begin block peer w w' ∧
      onBlock sh env idx index begin block w =
        if Finishes w.st.picker index (begin / BLOCK_LEN) then fillRequests env idx w' else w' := by
  have hlanded : Landed sh env idx index begin block peer w _ := howed.landed h
  have hpos := howed.inFlightOf_pos h
  have hwf := h.acc.wf.blockReceived hpos
  have hskip : ∀ k, k = (index, begin / BLOCK_LEN) →
      (w.st.picker.blockReceived index (begin / BLOCK_LEN)).1.isReceived k.1 k.2 = true := by
    rintro _ rfl
    rw [Picker.isReceived_blockReceived h.acc.wf hpos, if_pos rfl]
  rw [onBlock_owed howed hok]
  simp only
  generalize enterBlock idx index begin peer.dest block.length
    (writeOwed sh env idx index begin block w) = r at *
  by_cases hfin : Finishes w.st.picker index (begin / BLOCK_LEN)
  · -- The piece is judged, on the files as they are now.
    simp only [hlanded.finishes.2 hfin, if_true, if_pos hfin]
    obtain ⟨hpeers, hpicker⟩ := onComplete_frame sh env index r.1
    have hdone := balanced_onComplete env howed.inRange hlanded.stored.balanced fun c =>
      hlanded.stored.balanced.acc.owing_eq_zero_of_complete
        (hlanded.complete (hlanded.finishes.2 hfin)) c
    have hi : index < (w.st.picker.blockReceived index (begin / BLOCK_LEN)).1.numPieces := by
      rw [(Picker.haveField_blockReceived h.acc.wf hpos).2.1, h.numPieces]
      exact howed.inRange
    have hjudged : ∀ skip : BlockKey → Prop, ∀ k, k.1 ≠ index ∧ k = (index, begin / BLOCK_LEN) →
        skip k := by
      rintro skip _ ⟨hne, rfl⟩
      exact absurd rfl hne
    refine ⟨_, taken_of_alike hdone (hlanded.lapses.trans (lapses_onComplete sh env index r.1))
      (hpeers ▸ hlanded.seat) ?_, rfl⟩
    have hsame : pickerAfter sh env index begin block w = _ := if_pos hfin
    rw [hsame, hpicker, hlanded.stored.disk]
    cases sh.storage.verifyPiece sh.sha1
        (w.disk.writes (sh.storage.writeBlock env.writeFault index begin block).1) env.readFault
        index with
    | error _ => exact ⟨_, hlanded.alike, hwf, hskip⟩
    | ok fits =>
        cases fits with
        | true => exact ⟨_, hlanded.alike.setHave hi, hwf.setHave hi, hjudged _⟩
        | false => exact ⟨_, hlanded.alike.resetPiece hi, hwf.resetPiece hi, hjudged _⟩
  · have hincomplete : r.2 = false := Bool.eq_false_iff.2 fun hcomplete =>
      hfin (hlanded.finishes.1 hcomplete)
    simp only [hincomplete, Bool.false_eq_true, if_false, if_neg hfin]
    refine ⟨_, taken_of_alike hlanded.stored.balanced hlanded.lapses hlanded.seat ?_, rfl⟩
    have hsame : pickerAfter sh env index begin block w = _ := if_neg hfin
    rw [hsame]
    exact ⟨_, hlanded.alike, hwf, hskip⟩

theorem thrifty_congr {pk pk' : Picker} {p : Peer} (hendgame : pk'.inEndgame = pk.inEndgame)
    (hoffers : pk'.offers p.has = pk.offers p.has) : Thrifty pk' p ↔ Thrifty pk p := by
  unfold Thrifty
  rw [hendgame, hoffers]

/-- What is listed once a block has finished its piece is what would be were the piece held before
the block, or begun anew if the block spoils it. -/
theorem thrifty_pickerAfter {env : Env} {idx index begin : Nat} {block : Bytes} {peer p : Peer}
    (h : Balanced sh w []) (howed : Owed sh idx index begin block peer w)
    (hfin : Finishes w.st.picker index (begin / BLOCK_LEN)) :
    Thrifty (pickerAfter sh env index begin block w) p ↔
      Thrifty (if Spoils sh env index begin block w.disk then w.st.picker.resetPiece index
        else w.st.picker.setHave index) p := by
  have hpos := howed.inFlightOf_pos h
  have hi : index < w.st.picker.numPieces := by
    rw [h.numPieces]
    exact howed.inRange
  have hwf := h.acc.wf.blockReceived hpos
  obtain ⟨hhave, hreset⟩ := Picker.alike_blockReceived h.acc.wf hi hpos fun _ => False
  have hi' : index < (w.st.picker.blockReceived index (begin / BLOCK_LEN)).1.numPieces := by
    rw [(Picker.haveField_blockReceived h.acc.wf hpos).2.1]
    exact hi
  have hheld : Thrifty ((w.st.picker.blockReceived index (begin / BLOCK_LEN)).1.setHave index) p ↔
      Thrifty (w.st.picker.setHave index) p :=
    thrifty_congr (hhave.inEndgame (h.acc.wf.setHave hi) (hwf.setHave hi'))
      (hhave.offers (h.acc.wf.setHave hi) (hwf.setHave hi') (fun _ hk => hk.elim) p.has)
  unfold pickerAfter
  rw [if_pos hfin]
  cases hverdict : sh.storage.verifyPiece sh.sha1
      (w.disk.writes (sh.storage.writeBlock env.writeFault index begin block).1) env.readFault
      index with
  | error e =>
      have hspared : ¬ Spoils sh env index begin block w.disk := by simp [Spoils, hverdict]
      rw [if_neg hspared]
      have hall : ∀ c < (w.st.picker.blockReceived index (begin / BLOCK_LEN)).1.blocksInPiece index,
          (w.st.picker.blockReceived index (begin / BLOCK_LEN)).1.isReceived index c = true := by
        intro c hc
        rw [(Picker.haveField_blockReceived h.acc.wf hpos).2.1] at hc
        rw [Picker.isReceived_blockReceived h.acc.wf hpos]
        split
        · rfl
        · rename_i hne
          exact hfin c hc fun heq => hne (Prod.ext rfl heq)
      exact (thrifty_congr (Picker.inEndgame_setHave hwf hi' hall)
        (Picker.offers_setHave hwf hi' hall p.has)).symm.trans hheld
  | ok fits =>
      cases fits with
      | true =>
          have hspared : ¬ Spoils sh env index begin block w.disk := by simp [Spoils, hverdict]
          rw [if_neg hspared]
          exact hheld
      | false =>
          have hspoils : Spoils sh env index begin block w.disk := hverdict
          rw [if_pos hspoils]
          exact thrifty_congr (hreset.inEndgame (h.acc.wf.resetPiece hi) (hwf.resetPiece hi'))
            (hreset.offers (h.acc.wf.resetPiece hi) (hwf.resetPiece hi') (fun _ hk => hk.elim)
              p.has)

/-- What is offered once a block has not finished its piece is what was outstanding besides it. -/
theorem owed_iff_owedBut {idx index begin : Nat} {block : Bytes} {peer : Peer}
    (h : Balanced sh w []) (howed : Owed sh idx index begin block peer w) :
    (∀ k ∈ (w.st.picker.blockReceived index (begin / BLOCK_LEN)).1.offers peer.has,
      k ∈ peer.inFlight.erase (index, begin / BLOCK_LEN)) ↔
        OwedBut w.st peer (index, begin / BLOCK_LEN) := by
  have hpos := howed.inFlightOf_pos h
  have hoffer : ∀ k, k ∈ (w.st.picker.blockReceived index (begin / BLOCK_LEN)).1.offers peer.has ↔
      (w.st.picker.Outstanding peer.has k ∧ k ≠ (index, begin / BLOCK_LEN)) ∧
        (w.st.picker.endgameBut (index, begin / BLOCK_LEN) = true ∨
          w.st.picker.inFlightOf k = 0) := by
    intro k
    rw [Picker.mem_offers, Picker.Offerable, Picker.outstanding_blockReceived h.acc.wf hpos,
      Picker.inEndgame_blockReceived h.acc.wf hpos, Picker.inFlightOf_blockReceived h.acc.wf hpos]
    refine and_congr_right fun hk => ?_
    rw [if_neg hk.2]
  have hmem : ∀ k, k ≠ (index, begin / BLOCK_LEN) →
      (k ∈ peer.inFlight.erase (index, begin / BLOCK_LEN) ↔ k ∈ peer.inFlight) := by
    intro k hk
    rw [AList.mem_erase]
    exact and_iff_right hk
  constructor
  · intro hall l hl hne
    cases hendgame : w.st.picker.endgameBut (index, begin / BLOCK_LEN) with
    | true => exact (hmem l hne).1 (hall l ((hoffer l).2 ⟨⟨hl, hne⟩, .inl hendgame⟩))
    | false =>
        show ∃ q ∈ w.st.peers, l ∈ q.inFlight
        refine (inFlightOf_pos_iff h).1 fun hfree => ?_
        -- free blocks are offered, so the peer owes it after all
        have hin := (hmem l hne).1 (hall l ((hoffer l).2 ⟨⟨hl, hne⟩, .inr hfree⟩))
        exact (inFlightOf_pos_iff h).2 ⟨peer, List.mem_of_getElem? howed.seat, hin⟩ hfree
  · intro hall k hk
    obtain ⟨⟨hout, hne⟩, hfree⟩ := (hoffer k).1 hk
    have hk := hall k hout hne
    cases hendgame : w.st.picker.endgameBut (index, begin / BLOCK_LEN) with
    | true =>
        rw [hendgame, if_pos rfl] at hk
        exact (hmem k hne).2 hk
    | false =>
        rw [hendgame, if_neg Bool.false_ne_true] at hk
        rw [hendgame] at hfree
        exact absurd (hfree.resolve_left Bool.false_ne_true) ((inFlightOf_pos_iff h).2 hk)

theorem entered_enter (h : e.Accounts sh) : Entered sh e e.enter :=
  ⟨.refl _ _, h.enter, rfl, rfl, rfl⟩

/-- A message that has been noted has not made anybody owe more. -/
theorem Pipelined.entered (h : Pipelined e.st) (hentered : Entered sh e w) : Pipelined w.st := by
  intro p hp
  have hmem := List.mem_map_of_mem (f := fun p : Peer => (p.id, p.inFlight)) hp
  rw [hentered.requests] at hmem
  obtain ⟨q, hq, heq⟩ := List.mem_map.1 hmem
  exact (Prod.mk.inj heq).2 ▸ h q hq

/-- A block that arrives from a peer that may be asked, owed by it and written, leaves the pipeline
occupied exactly if it finishes its piece and the refill that follows is thrifty, or if it does
not and whatever else the peer could be asked for is owed already.  All of this is said of the state
before the block: its piece counts as held then, or as begun anew if the block spoils it. -/
theorem onBlock_occupied_iff (sh : Shared) (initialHave : Bitfield) (mode : Mode) (now : Nat)
    (disk : Disk) (events : List Event) :
    let e := Engine.run sh events (Engine.new sh initialHave mode now disk)
    ∀ (env : Env) (idx index begin : Nat) (block : Bytes) (peer : Peer) (w : Work),
      Entered sh e w → Owed sh idx index begin block peer w →
      (sh.storage.writeBlock env.writeFault index begin block).2 = .ok () → peer.Askable →
      ∃ peer', (onBlock sh env idx index begin block w).st.peers[idx]? = some peer' ∧
        (Occupied (onBlock sh env idx index begin block w).st.picker peer' ↔
          if Finishes w.st.picker index (begin / BLOCK_LEN) then
            Thrifty (if Spoils sh env index begin block w.disk then w.st.picker.resetPiece index
              else w.st.picker.setHave index)
              { peer with inFlight := peer.inFlight.erase (index, begin / BLOCK_LEN) }
          else OwedBut w.st peer (index, begin / BLOCK_LEN)) := by
  intro e env idx index begin block peer w hentered howed hok hask
  obtain ⟨-, hpipe⟩ := pipelined_run sh initialHave mode now disk events
  have hpipe : Pipelined w.st := Pipelined.entered (e := e) hpipe hentered
  obtain ⟨w', htaken, heq⟩ := onBlock_taken hentered.balanced howed hok
  obtain ⟨p, hseat, hhas, hflights, hask'⟩ := htaken.seat
  rw [heq]
  by_cases hfin : Finishes w.st.picker index (begin / BLOCK_LEN)
  · simp only [if_pos hfin]
    have hfilled := filled_fillRequests env htaken.balanced.acc.wf hseat (hask'.2 hask)
    obtain ⟨flights, hseat', -⟩ := hfilled.seat
    refine ⟨_, hseat', ?_⟩
    rw [← conserving_iff_occupied (balanced_fillRequests env idx htaken.balanced)
      (List.mem_of_getElem? hseat'), occupied_filled_iff htaken.balanced
      (hpipe.lapses htaken.lapses) hseat hfilled hseat']
    rw [← thrifty_pickerAfter hentered.balanced howed hfin]
    unfold Thrifty Peer.room
    rw [htaken.inEndgame, htaken.offers, hhas, hflights]
  · simp only [if_neg hfin]
    refine ⟨p, hseat, ?_⟩
    -- One block fewer is owed, so there is room.
    have hroom : p.inFlight.keys.length ≠ PIPELINE_DEPTH := by
      have hone := Map.length_erase_of_mem howed.owed
      have hmost := hpipe peer (List.mem_of_getElem? howed.seat)
      rw [hflights]
      omega
    have hsame : pickerAfter sh env index begin block w =
      (w.st.picker.blockReceived index (begin / BLOCK_LEN)).1 := if_neg hfin
    unfold Occupied
    rw [or_iff_right hroom, hhas, hflights, ← owed_iff_owedBut hentered.balanced howed, ← hsame,
      ← htaken.offers]
    simp only [Picker.mem_offers]

namespace NinePairs

/-- The last piece goes first.  A peer that has everything connects and unchokes us, and is asked
for the two blocks of that piece and fourteen others. -/
def started : List Event :=
  [.setPiecePriorities [1, 1, 1, 1, 1, 1, 1, 1, 2], .register (OneByte.env 0) (OneByte.dest 0) false,
    .message (OneByte.env 0) 0 (.bitfield [255, 128]), .message (OneByte.env 0) 0 .unchoke]

theorem owed_started :
    ∃ p, p.Askable ∧ Owed shared 0 8 16384 [97] p (Engine.run shared started start).enter := by
  have hrun : ∃ p, (Engine.run shared started start).st.peers[0]? = some p ∧
      p.Askable ∧ (8, 1) ∈ p.inFlight := by
    have hany : (((Engine.run shared started start).st.peers[0]?).any fun p =>
        decide (p.Askable ∧ (8, 1) ∈ p.inFlight)) = true := by decide +kernel
    obtain ⟨p, hp, hall⟩ := (Option.any_eq_true _ _).1 hany
    exact ⟨p, hp, of_decide_eq_true hall⟩
  obtain ⟨p, hp, hask, howed⟩ := hrun
  exact ⟨p, hask, hp, by decide, by decide, by decide +kernel, howed, by decide +kernel,
    by decide +kernel⟩

end NinePairs

/-- The last block of the torrent arrives.  It does not finish its piece: the peer is left with one
block fewer than it could owe, with three that nobody has been asked for. -/
theorem onBlock_idles :
    let e := Engine.run NinePairs.shared NinePairs.started NinePairs.start
    ∃ p p', p.Askable ∧ Owed NinePairs.shared 0 8 16384 [97] p e.enter ∧
      (NinePairs.shared.storage.writeBlock none 8 16384 [97]).2 = .ok () ∧
      (onBlock NinePairs.shared (OneByte.env 0) 0 8 16384 [97] e.enter).st.peers[0]? = some p' ∧
        ¬ Occupied
          (onBlock NinePairs.shared (OneByte.env 0) 0 8 16384 [97] e.enter).st.picker p' := by
  intro e
  obtain ⟨p, hask, howed⟩ := NinePairs.owed_started
  have hany : ((onBlock NinePairs.shared (OneByte.env 0) 0 8 16384 [97] e.enter).st.peers[0]?.any
      fun p' => decide (p'.inFlight.keys.length ≠ PIPELINE_DEPTH ∧
        (7, 0) ∈ (onBlock NinePairs.shared (OneByte.env 0) 0 8 16384 [97]
          e.enter).st.picker.offers p'.has ∧ (7, 0) ∉ p'.inFlight)) = true := by
    decide +kernel
  obtain ⟨p', hp', hrun⟩ := (Option.any_eq_true _ _).1 hany
  obtain ⟨hroom, hoffer, hnew⟩ := of_decide_eq_true hrun
  refine ⟨p, p', hask, howed, by decide +kernel, hp', ?_⟩
  rintro (hfull | hall)
  · exact hroom hfull
  · exact hnew (hall (7, 0) (Picker.mem_offers.1 hoffer))

theorem onBlock_occupied_started :
    let e := Engine.run NinePairs.shared NinePairs.started NinePairs.start
    ∃ peer peer' : Peer,
      (onBlock NinePairs.shared (OneByte.env 0) 0 8 16384 [97] e.enter).st.peers[0]? = some peer' ∧
        (Occupied (onBlock NinePairs.shared (OneByte.env 0) 0 8 16384 [97] e.enter).st.picker peer' ↔
          if Finishes e.enter.st.picker 8 (16384 / BLOCK_LEN) then
            Thrifty (if Spoils NinePairs.shared (OneByte.env 0) 8 16384 [97] e.enter.disk then
                e.enter.st.picker.resetPiece 8
              else e.enter.st.picker.setHave 8)
              { peer with inFlight := peer.inFlight.erase (8, 16384 / BLOCK_LEN) }
          else OwedBut e.enter.st peer (8, 16384 / BLOCK_LEN)) := by
  intro e
  obtain ⟨p, hask, howed⟩ := NinePairs.owed_started
  have hacc := (pipelined_run NinePairs.shared (Bitfield.empty 9) .rarestFirst 0 (fun _ => [])
    NinePairs.started).1
  obtain ⟨p', hseat, hiff⟩ := onBlock_occupied_iff NinePairs.shared (Bitfield.empty 9) .rarestFirst 0
    (fun _ => []) NinePairs.started (OneByte.env 0) 0 8 16384 [97] p e.enter (entered_enter hacc)
    howed (by decide +kernel) hask
  exact ⟨p, p', hseat, hiff⟩

end Clove.Torrent
