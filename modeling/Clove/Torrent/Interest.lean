import Clove.Torrent.Blocks
import Clove.Torrent.Slots

/-!
# Interest

We are interested in a peer that has a piece we do not hold.  The flag is recomputed, and the
peer told, when the peer's set changes.  It is not recomputed when ours does: a piece that
completes leaves the flag of a peer standing that had nothing else to offer.

`Accurate` says every flag is right, and `Attuned` that every peer has been told, or is about
to be told by its own reader, what its flag says.
-/

namespace Clove.Torrent

open Wire (BLOCK_LEN Message)

/-! ## The flag -/

/-- Whether a piece set has a piece that is not held. -/
def wanted (pk : Picker) (has : Bitfield) : Bool := has.iterPresent.any fun i => !pk.has i

/-- Every flag is right. -/
def Accurate (st : State) : Prop := ∀ p ∈ st.peers, p.weInterested = wanted st.picker p.has

theorem wanted_iff {pk : Picker} {has : Bitfield} :
    wanted pk has = true ↔ ∃ i, has.has i = true ∧ pk.has i = false := by
  simp only [wanted, List.any_eq_true, Bitfield.mem_iterPresent, Bool.not_eq_true']

theorem wanted_congr {pk pk' : Picker} (h : ∀ i, pk'.has i = pk.has i) (has : Bitfield) :
    wanted pk' has = wanted pk has := by
  simp only [wanted, h]

variable {sh : Shared} {e : Engine} {w w' : Work}

theorem SameIn.has (h : SameIn .held w w') (i : Nat) : w'.st.picker.has i = w.st.picker.has i := by
  have hfield : w'.st.picker.haveField = w.st.picker.haveField := congrArg Prod.snd h.picker
  rw [Picker.has, Picker.has, hfield]

/-- What a peer has and whether we are interested in it, after a handler that changes
neither. -/
theorem getElem?_of_same (hsets : SameIn .sets w w') (hinterest : SameIn .interest w w') {j : Nat}
    {p : Peer} (hj : w'.st.peers[j]? = some p) :
    ∃ q, w.st.peers[j]? = some q ∧ q.has = p.has ∧ q.weInterested = p.weInterested := by
  obtain ⟨q, hq, -, hset⟩ := hsets.getElem? hj
  obtain ⟨r, hr, -, hflag⟩ := hinterest.getElem? hj
  obtain rfl : q = r := Option.some.inj (hq.symm.trans hr)
  exact ⟨q, hq, hset, hflag⟩

theorem Accurate.same (h : Accurate w.st) (hsets : SameIn .sets w w')
    (hinterest : SameIn .interest w w') (hhas : ∀ i, w'.st.picker.has i = w.st.picker.has i) :
    Accurate w'.st := by
  intro p hp
  obtain ⟨j, hj⟩ := List.mem_iff_getElem?.1 hp
  obtain ⟨q, hq, hset, hflag⟩ := getElem?_of_same hsets hinterest hj
  rw [wanted_congr hhas, ← hset, ← hflag]
  exact h q (List.mem_of_getElem? hq)

theorem updateInterest_eq (env : Env) {idx : Nat} {peer : Peer}
    (hidx : w.st.peers[idx]? = some peer) :
    updateInterest env idx w =
      if wanted w.st.picker peer.has && !peer.weInterested then
        let w := w.modifyPeer idx fun p => { p with weInterested := true }
        let w := w.push peer.id .interested
        if peer.peerChoking then w else fillRequests env idx w
      else if !wanted w.st.picker peer.has && peer.weInterested then
        (w.modifyPeer idx fun p => { p with weInterested := false }).push peer.id .notInterested
      else w := by
  unfold updateInterest
  simp only [hidx]
  rfl

/-- Recomputing a flag: it is right, or it is set and the peer told. -/
theorem updateInterest_inv (env : Env) {idx : Nat} {peer : Peer}
    (hidx : w.st.peers[idx]? = some peer) :
    (peer.weInterested = wanted w.st.picker peer.has ∧ updateInterest env idx w = w) ∨
    ∃ b, b = wanted w.st.picker peer.has ∧
      Leaves [] ((w.modifyPeer idx fun p => { p with weInterested := b }).push peer.id
        (if b then .interested else .notInterested)) (updateInterest env idx w) := by
  rw [updateInterest_eq env hidx]
  cases hwant : wanted w.st.picker peer.has <;> cases hflag : peer.weInterested
  · exact .inl ⟨rfl, rfl⟩
  · exact .inr ⟨false, rfl, .refl [] _⟩
  · refine .inr ⟨true, rfl, ?_⟩
    simp only [Bool.not_false, Bool.and_self, if_true]
    split
    · exact .refl _ _
    · exact leaves_fillRequests [] env idx _
  · exact .inl ⟨rfl, rfl⟩

/-- Recomputing the flag of one peer makes all of them right if the others were. -/
theorem accurate_updateInterest (env : Env) (idx : Nat)
    (h : ∀ j p, w.st.peers[j]? = some p → j ≠ idx → p.weInterested = wanted w.st.picker p.has) :
    Accurate (updateInterest env idx w).st := by
  cases hidx : w.st.peers[idx]? with
  | none =>
      have heq : updateInterest env idx w = w := by
        unfold updateInterest
        simp only [hidx]
      rw [heq]
      intro p hp
      obtain ⟨j, hj⟩ := List.mem_iff_getElem?.1 hp
      refine h j p hj ?_
      rintro rfl
      rw [hidx] at hj
      cases hj
  | some peer =>
      rcases updateInterest_inv env hidx with ⟨hright, heq⟩ | ⟨b, rfl, hleaves⟩
      · rw [heq]
        intro p hp
        obtain ⟨j, hj⟩ := List.mem_iff_getElem?.1 hp
        by_cases hji : j = idx
        · subst hji
          rw [hidx] at hj
          exact Option.some.inj hj ▸ hright
        · exact h j p hj hji
      · refine Accurate.same ?_ (hleaves .sets (by simp)) (hleaves .interest (by simp))
          (hleaves .held (by simp)).has
        intro p hp
        obtain ⟨j, hj⟩ := List.mem_iff_getElem?.1 hp
        simp only [Work.push, Work.modifyPeer, List.getElem?_modify] at hj
        obtain ⟨q, hq, rfl⟩ := Option.map_eq_some_iff.1 hj
        by_cases hji : idx = j
        · subst hji
          obtain rfl : q = peer := Option.some.inj (hq.symm.trans hidx)
          simp only [if_true]
          rfl
        · simp only [if_neg hji]
          exact h j q hq (Ne.symm hji)

/-! ## Pieces that complete -/

/-- Every connected peer that has a piece has another that is not held. -/
def Spared (index : Nat) (st : State) : Prop :=
  ∀ p ∈ st.peers, p.has.has index = true →
    ∃ j, j ≠ index ∧ p.has.has j = true ∧ st.picker.has j = false

theorem Spared.same {index : Nat} (h : Spared index w.st) (hsets : SameIn .sets w w')
    (hhas : ∀ i, w'.st.picker.has i = w.st.picker.has i) : Spared index w'.st := by
  intro p hp hin
  obtain ⟨i, hi⟩ := List.mem_iff_getElem?.1 hp
  obtain ⟨q, hq, -, hset⟩ := hsets.getElem? hi
  have hset : q.has = p.has := hset
  rw [← hset] at hin ⊢
  obtain ⟨j, hne, hj, hmissing⟩ := h q (List.mem_of_getElem? hq) hin
  exact ⟨j, hne, hj, (hhas j).trans hmissing⟩

/-- Completing a piece nobody depends on leaves every flag right. -/
theorem wanted_complete {pk pk' : Picker} {index : Nat} {has : Bitfield}
    (hhas : ∀ i, pk'.has i = (decide (i = index) || pk.has i))
    (hspared : has.has index = true → ∃ j, j ≠ index ∧ has.has j = true ∧ pk.has j = false) :
    wanted pk' has = wanted pk has := by
  rw [Bool.eq_iff_iff, wanted_iff, wanted_iff]
  constructor
  · rintro ⟨i, hi, hmissing⟩
    rw [hhas, Bool.or_eq_false_iff] at hmissing
    exact ⟨i, hi, hmissing.2⟩
  · rintro ⟨i, hi, hmissing⟩
    by_cases hindex : i = index
    · obtain ⟨j, hne, hj, hmissing⟩ := hspared (hindex ▸ hi)
      exact ⟨j, hj, by simp [hhas, hne, hmissing]⟩
    · exact ⟨i, hi, by simp [hhas, hindex, hmissing]⟩

/-- Judging a piece adds it to those held if it verifies, and changes none otherwise. -/
theorem has_onComplete (env : Env) {index : Nat} (h : Balanced sh w []) (hi : index < sh.numPieces)
    (hnot : w.st.picker.has index = false) :
    (sh.storage.verifyPiece sh.sha1 w.disk env.readFault index = .ok true ∧
      ∀ i, (onComplete sh env index w).st.picker.has i =
        (decide (i = index) || w.st.picker.has i)) ∨
    ∀ i, (onComplete sh env index w).st.picker.has i = w.st.picker.has i := by
  have hi' : index < w.st.picker.numPieces := by
    rw [h.numPieces]
    exact hi
  unfold onComplete
  split
  · rename_i hverify
    refine .inl ⟨hverify, fun i => ?_⟩
    have hpk := (State.untouched_creditSuppliers
      (w.modifyPicker fun pk => pk.setHave index).st index).picker
    simp only [hpk]
    exact Picker.has_setHave h.acc.wf hi' i
  · refine .inr fun i => ?_
    have hpk := (State.untouched_blameSuppliers
      (w.modifyPicker fun pk => pk.resetPiece index).st index).picker
    simp only [hpk]
    refine (Picker.has_resetPiece hi' i).trans ?_
    by_cases hindex : i = index
    · simp [hindex, hnot]
    · simp [hindex]
  · exact .inr fun i => rfl

/-! ## Handlers -/

/-- A block keeps every flag right, unless it completes a piece some peer is wanted for. -/
theorem Accurate.onBlock (h : Accurate w.st) (hbal : Balanced sh w []) (env : Env)
    (idx index begin : Nat) (block : Bytes)
    (hspared : ∀ peer, Owed sh idx index begin block peer w →
      (∀ b < w.st.picker.blocksInPiece index,
        w.st.picker.isReceived index b = decide (b ≠ begin / BLOCK_LEN)) →
      (sh.storage.writeBlock env.writeFault index begin block).2 = .ok () →
      sh.storage.verifyPiece sh.sha1
        (w.disk.writes (sh.storage.writeBlock env.writeFault index begin block).1) env.readFault
          index = .ok true → Spared index w.st) :
    Accurate (onBlock sh env idx index begin block w).st := by
  rcases onBlock_inv env idx index begin block hbal with hnone | ⟨peer, howed, hcase⟩
  · exact h.same (hnone .sets (by simp)) (hnone .interest (by simp)) (hnone .held (by simp)).has
  · rcases hcase with ⟨err, -, hfailed, -⟩ | ⟨hwritten, w₁, hstored, hdone⟩
    · exact h.same (hfailed .sets (by simp)) (hfailed .interest (by simp))
        (hfailed .held (by simp)).has
    · have hsets := hstored.rest .sets (by simp)
      have hflags := hstored.rest .interest (by simp)
      have hheld := hstored.rest .held (by simp)
      rcases hdone with heq | ⟨hall, hafter⟩
      · rw [heq]
        exact h.same hsets hflags hheld.has
      · have hjudged := leaves_onComplete sh env index w₁
        have hnot : w₁.st.picker.has index = false := (hheld.has index).trans howed.notHeld
        have hset' := (hsets.trans (hjudged .sets (by simp [blockAspects]))).trans
          (hafter .sets (by simp))
        have hflag' := (hflags.trans (hjudged .interest (by simp [blockAspects]))).trans
          (hafter .interest (by simp))
        rcases has_onComplete env hstored.balanced howed.inRange hnot with ⟨hverified, hhas⟩ | hhas
        · -- the piece is new: no flag depended on it
          have hlast := hstored.last howed hall
          rw [hstored.disk] at hverified
          have hclear := hspared peer howed hlast hwritten hverified
          intro p hp
          obtain ⟨j, hj⟩ := List.mem_iff_getElem?.1 hp
          obtain ⟨q, hq, hset, hflag⟩ := getElem?_of_same hset' hflag' hj
          have hq := List.mem_of_getElem? hq
          rw [← hset, ← hflag, h q hq]
          refine (wanted_complete (fun i => ?_) (hclear q hq)).symm
          rw [(hafter .held (by simp)).has, hhas, hheld.has]
        · refine h.same hset' hflag' fun i => ?_
          rw [(hafter .held (by simp)).has, hhas, hheld.has]

/-- A change of one peer's set, after which its flag is recomputed. -/
theorem Accurate.replaced (h : Accurate w.st) (env : Env) (idx : Nat) {f : Peer → Peer}
    {g : Picker → Picker} (hg : ∀ i, (g w.st.picker).has i = w.st.picker.has i) :
    Accurate (updateInterest env idx ((w.modifyPeer idx f).modifyPicker g)).st := by
  refine accurate_updateInterest env idx fun j p hj hne => ?_
  have hj : (w.st.peers.modify idx f)[j]? = some p := hj
  simp only [List.getElem?_modify, if_neg (Ne.symm hne), Option.map_eq_map, Option.map_id'] at hj
  exact (h p (List.mem_of_getElem? hj)).trans (wanted_congr hg _).symm

theorem Accurate.onHave (h : Accurate w.st) (env : Env) (idx piece : Nat) :
    Accurate (onHave sh env idx piece w).st := by
  unfold Torrent.onHave
  split
  · exact h
  · split
    · refine h.replaced env idx fun i => ?_
      exact (Picker.sameAccounting_addSingle w.st.picker piece).has i
    · exact h

theorem Accurate.replacePieceSet (h : Accurate w.st) (env : Env) (idx : Nat) (field : Bitfield) :
    Accurate (updateInterest env idx (replacePieceSet idx field w)).st := by
  unfold Torrent.replacePieceSet
  split
  · exact accurate_updateInterest env idx fun j p hj _ => h p (List.mem_of_getElem? hj)
  · exact h.replaced env idx fun i => rfl

/-- Only a block can leave a flag wrong. -/
theorem Accurate.dispatch (h : Accurate w.st) (env : Env) (idx id : Nat) (first fast : Bool)
    {msg : Message} (hmsg : ∀ index begin block, msg ≠ .piece index begin block) :
    Accurate (dispatch sh env idx id first fast msg w).st := by
  have hviolation : Accurate (violation id w).st := h
  have hleaves := leaves_dispatch sh env idx id first fast msg w
  have hsame : .sets ∉ footprint msg → .interest ∉ footprint msg → .held ∉ footprint msg →
      Accurate (Torrent.dispatch sh env idx id first fast msg w).st := fun hs hi hh =>
    h.same (hleaves _ hs) (hleaves _ hi) (hleaves _ hh).has
  cases msg with
  | piece index begin block => exact absurd rfl (hmsg index begin block)
  | have_ piece => exact h.onHave env idx piece
  | bitfield bytes =>
      unfold Torrent.dispatch
      simp only
      split
      · split
        · exact h.replacePieceSet env idx _
        · exact hviolation
      · exact hviolation
  | haveAll =>
      unfold Torrent.dispatch
      simp only
      split
      · exact h.replacePieceSet env idx _
      · exact hviolation
  | haveNone =>
      unfold Torrent.dispatch
      simp only
      split
      · exact h.replacePieceSet env idx _
      · exact hviolation
  | _ => exact hsame (by simp [footprint]) (by simp [footprint]) (by simp [footprint])

/-- A message keeps every flag right if a piece it completes leaves every peer that has it with
another one we want. -/
theorem Accurate.onMessage (h : Accurate e.st) (hacc : e.Accounts sh) (env : Env) (id : Nat)
    (msg : Message)
    (hspared : ∀ index begin block, msg = .piece index begin block →
      Judged sh env id index begin block e true → Spared index e.st) :
    Accurate (onMessage sh env id msg e).1.st := by
  obtain ⟨w, w₁, w₂, hentered, hcase, hafter, heq⟩ := onMessage_inv hacc env id msg
  have hopened : Accurate w.st := Accurate.same (w := e.enter) h (hentered.rest .sets (by simp))
    (hentered.rest .interest (by simp)) (hentered.rest .held (by simp)).has
  suffices hhandled : Accurate w₁.st by
    rw [heq]
    exact hhandled.same (hafter .sets (by simp)) (hafter .interest (by simp))
      (hafter .held (by simp)).has
  rcases hcase with ⟨-, rfl⟩ | ⟨idx, peer, first, fast, hidx, hid, rfl⟩
  · exact hopened
  · by_cases hmsg : ∃ index begin block, msg = .piece index begin block
    · obtain ⟨index, begin, block, rfl⟩ := hmsg
      refine hopened.onBlock hentered.balanced env idx index begin block
        fun q howed hlast hwritten hverified => ?_
      have hqid : q.id = id := Option.some.inj (howed.seat.symm.trans hidx) ▸ hid
      exact Spared.same (w := e.enter) (hspared index begin block rfl
        (howed.judged hentered hqid hlast hwritten hverified)) (hentered.rest .sets (by simp))
        (hentered.rest .held (by simp)).has
    · exact hopened.dispatch env idx id _ _ fun index begin block heq => hmsg ⟨_, _, _, heq⟩

/-! ## What a critical section tells -/

/-- What a peer believes about our interest after one more message. -/
def interestStep (b : Bool) : Message → Bool
  | .interested => true
  | .notInterested => false
  | _ => b

/-- What a peer believes about our interest after some messages. -/
def interestView (b : Bool) (msgs : List Message) : Bool := msgs.foldl interestStep b

/-- Whether a message is about our interest. -/
def isInterest (m : Message) : Bool := Aspect.interest.hears m

theorem interestView_append (b : Bool) (l₁ l₂ : List Message) :
    interestView b (l₁ ++ l₂) = interestView (interestView b l₁) l₂ := List.foldl_append

/-- Only the messages about interest matter. -/
theorem interestView_filter (b : Bool) (l : List Message) :
    interestView b (l.filter isInterest) = interestView b l := by
  induction l generalizing b with
  | nil => rfl
  | cons m l ih =>
      have hstep : isInterest m = false → interestStep b m = b := by
        intro hm
        cases m <;> first | rfl | cases hm
      cases hm : isInterest m with
      | true =>
          rw [List.filter_cons_of_pos hm]
          exact ih _
      | false =>
          rw [List.filter_cons_of_neg (by simp [hm]), ih]
          show interestView b l = interestView (interestStep b m) l
          rw [hstep hm]

theorem interestView_of_plain {l : List Message} (h : ∀ m ∈ l, isInterest m = false) (b : Bool) :
    interestView b l = b := by
  have hnone : l.filter isInterest = [] :=
    List.filter_eq_nil_iff.2 fun m hm => by rw [h m hm]; exact Bool.false_ne_true
  rw [← interestView_filter, hnone]
  rfl

theorem sentTo_filter (id : Nat) (out : List Outgoing) :
    (sentTo id out).filter isInterest = sentTo id (out.filter fun o => isInterest o.2) := by
  simp only [sentTo, List.filter_map, List.filter_filter]
  congr 1
  refine List.filter_congr fun o _ => ?_
  exact Bool.and_comm _ _

/-- The flags after a critical section are what the peers have been told, and only the peer
whose message it was has been told anything. -/
structure Voiced (id : Nat) (e e' : Engine) (sends : List Outgoing) : Prop where
  flags : (e'.st.peers.map fun p => (p.id, p.weInterested)) =
    e.st.peers.map fun p => (p.id, interestView p.weInterested (sentTo p.id sends))
  only : ∀ o ∈ sends, isInterest o.2 = true → o.1 = id

/-- A critical section that leaves the flags alone and says nothing about them. -/
theorem SameIn.voiced (h : SameIn .interest e.enter w) (id : Nat) (drops : List (Nat × Bool)) :
    Voiced id e (w.finish drops).1 (w.finish drops).2.sends := by
  have hnone : ∀ o ∈ w.out, isInterest o.2 = false := by
    intro o ho
    by_contra hin
    exact absurd ((h.mem_out (Bool.eq_true_of_not_eq_false hin)).1 ho) List.not_mem_nil
  refine ⟨h.peers.trans (List.map_congr_left fun p _ => ?_), fun o ho hin => ?_⟩
  · have hview := interestView_of_plain (l := sentTo p.id w.out)
      (fun m hm => hnone _ (mem_sentTo.1 hm)) p.weInterested
    exact Prod.ext rfl hview.symm
  · rw [hnone o ho] at hin
    cases hin

/-- A message about interest goes with a change of the flag. -/
theorem handle_interest (sh : Shared) (env : Env) (id : Nat) (msg : Message) (w : Work) :
    SameIn .interest w (handle sh env id msg w) ∨
    ∃ idx peer w₁ b, SameIn .interest w w₁ ∧ w₁.st.peers[idx]? = some peer ∧ peer.id = id ∧
      SameIn .interest ((w₁.modifyPeer idx fun p => { p with weInterested := b }).push id
        (if b then .interested else .notInterested)) (handle sh env id msg w) := by
  have hupdate : ∀ idx w₁, SameIn .interest w w₁ →
      (∀ peer, w₁.st.peers[idx]? = some peer → peer.id = id) →
      SameIn .interest w (updateInterest env idx w₁) ∨
      ∃ idx' peer w₂ b, SameIn .interest w w₂ ∧ w₂.st.peers[idx']? = some peer ∧ peer.id = id ∧
        SameIn .interest ((w₂.modifyPeer idx' fun p => { p with weInterested := b }).push id
          (if b then .interested else .notInterested)) (updateInterest env idx w₁) := by
    intro idx w₁ hsame hids
    cases hidx : w₁.st.peers[idx]? with
    | none =>
        have heq : updateInterest env idx w₁ = w₁ := by
          unfold updateInterest
          simp only [hidx]
        rw [heq]
        exact .inl hsame
    | some peer =>
        obtain rfl := hids peer hidx
        rcases updateInterest_inv env hidx with ⟨-, heq⟩ | ⟨b, -, hleaves⟩
        · rw [heq]
          exact .inl hsame
        · exact .inr ⟨idx, peer, w₁, b, hsame, hidx, rfl, hleaves _ (by simp)⟩
  rcases handle_cases sh env id msg w with ⟨-, heq⟩ | ⟨idx, peer, hidx, hid, heq⟩
  · rw [heq]
    exact .inl (.refl _ w)
  · have hopen := leaves_opened idx msg w .interest (by simp)
    have hseat := Work.getElem?_modifyPeer hidx fun p => { p with opened := p.opened || opens msg }
    rw [heq]
    generalize w.modifyPeer idx (fun p => { p with opened := p.opened || opens msg }) = w₀ at *
    have hids : ∀ w₁, SameIn .interest w₀ w₁ → ∀ q, w₁.st.peers[idx]? = some q → q.id = id := by
      intro w₁ hsame q hq
      obtain ⟨r, hr, hrid, -⟩ := hsame.getElem? hq
      rw [hseat] at hr
      rw [← hrid, ← Option.some.inj hr]
      exact hid
    have hreplace : ∀ field, _ := fun field =>
      hupdate idx (replacePieceSet idx field w₀)
        (hopen.trans (leaves_replacePieceSet idx field w₀ _ (by simp)))
        (hids _ (leaves_replacePieceSet idx field w₀ _ (by simp)))
    have hviolation : SameIn .interest w (violation id w₀) :=
      hopen.trans (leaves_violation id w₀ _ (by simp))
    by_cases hmsg : .interest ∈ footprint msg
    · unfold Torrent.dispatch
      cases msg with
      | have_ piece =>
          simp only
          unfold onHave
          split
          · exact .inl hopen
          · split
            · have hnote := leaves_noteHave idx piece w₀ .interest (by simp)
              exact hupdate idx _ (hopen.trans hnote) (hids _ hnote)
            · exact .inl hopen
      | bitfield bytes =>
          simp only
          split
          · split
            · exact hreplace _
            · exact .inl hviolation
          · exact .inl hviolation
      | haveAll =>
          simp only
          split
          · exact hreplace _
          · exact .inl hviolation
      | haveNone =>
          simp only
          split
          · exact hreplace _
          · exact .inl hviolation
      | _ => simp [footprint, blockAspects] at hmsg
    · exact .inl (hopen.trans (leaves_dispatch sh env idx id _ _ msg w₀ _ hmsg))

/-- What a peer believes after a critical section in which one message about interest was
collected. -/
theorem interestView_single {id : Nat} {b : Bool} {sends : List Outgoing}
    (h : sends.filter (fun o => isInterest o.2) =
      [(id, if b then .interested else .notInterested)]) (i : Nat) (v : Bool) :
    interestView v (sentTo i sends) = if i = id then b else v := by
  rw [← interestView_filter, sentTo_filter, h]
  by_cases hi : i = id
  · rw [if_pos hi, hi, sentTo_cons_self]
    cases b <;> rfl
  · rw [if_neg hi, sentTo_cons_ne hi]
    rfl

/-- A critical section that sets one flag and tells its peer. -/
theorem SameIn.voiced_one {idx : Nat} {peer : Peer} {b : Bool} (hbefore : SameIn .interest e.enter w)
    (hnodup : e.st.ids.Nodup) (hidx : w.st.peers[idx]? = some peer)
    (hdone : SameIn .interest ((w.modifyPeer idx fun p => { p with weInterested := b }).push peer.id
      (if b then .interested else .notInterested)) w') (drops : List (Nat × Bool)) :
    Voiced peer.id e (w'.finish drops).1 (w'.finish drops).2.sends := by
  have hquiet : w.out.filter (fun o : Outgoing => isInterest o.2) = [] := hbefore.out
  have hsends : w'.out.filter (fun o : Outgoing => isInterest o.2) =
      [(peer.id, if b then .interested else .notInterested)] := by
    refine hdone.out.trans ?_
    show (w.out ++ [_]).filter (fun o : Outgoing => isInterest o.2) = _
    rw [List.filter_append, hquiet, List.nil_append]
    cases b <;> rfl
  refine ⟨?_, fun o ho hin => ?_⟩
  · have hpeers : (w'.st.peers.map fun p => (p.id, p.weInterested)) =
        (w.st.peers.modify idx fun p => { p with weInterested := b }).map fun p =>
          (p.id, p.weInterested) := hdone.peers
    have hids : (w.st.peers.map (·.id)).Nodup := hbefore.nodup hnodup
    have hviews : ((w.st.peers.map fun p => (p.id, p.weInterested)).map fun x =>
          (x.1, if x.1 = peer.id then b else x.2)) =
        (e.st.peers.map fun p => (p.id, p.weInterested)).map fun x =>
          (x.1, if x.1 = peer.id then b else x.2) := congrArg _ hbefore.peers
    rw [Lists.modify_eq_map hids hidx, List.map_map] at hpeers
    rw [List.map_map, List.map_map] at hviews
    refine hpeers.trans (Eq.trans ?_ (hviews.trans ?_))
    · refine List.map_congr_left fun p _ => ?_
      by_cases hp : p.id = peer.id <;> simp [hp]
    · refine List.map_congr_left fun p _ => ?_
      exact Prod.ext rfl (interestView_single hsends p.id p.weInterested).symm
  · have hmem : o ∈ w'.out.filter (fun o : Outgoing => isInterest o.2) :=
      List.mem_filter.2 ⟨ho, hin⟩
    rw [hsends, List.mem_singleton] at hmem
    rw [hmem]

/-- A message from a peer: that peer, and no other, is told about its flag. -/
theorem voiced_onMessage (sh : Shared) (env : Env) (id : Nat) (msg : Message) (hnodup : e.st.ids.Nodup) :
    Voiced id e (onMessage sh env id msg e).1 (onMessage sh env id msg e).2.sends := by
  have hseen := leaves_seen [] env.now id e .interest (by simp)
  have hafter := leaves_after env (handle sh env id msg { e.enter with
    st := e.st.modifyId id fun p => { p with lastSeen := env.now } }) .interest (by simp)
  rcases handle_interest sh env id msg { e.enter with
    st := e.st.modifyId id fun p => { p with lastSeen := env.now } } with
    hsame | ⟨idx, peer, w, b, hsame, hidx, rfl, htold⟩
  · exact ((hseen.trans hsame).trans hafter).voiced id []
  · exact (hseen.trans hsame).voiced_one hnodup hidx (htold.trans hafter) []

theorem voiced_maintain (env : Env) (id : Nat) (e : Engine) :
    Voiced id e (maintain env e).1 (maintain env e).2.sends := by
  obtain ⟨w, drops, hleaves, heq⟩ := leaves_maintain env e
  rw [heq]
  exact (hleaves .interest (by simp)).voiced id drops

/-! ## Critical sections -/

/-- A block that completes a piece leaves every connected peer that has the piece with another
one we want. -/
def Event.StillWanted (sh : Shared) : Event → Engine → Prop
  | .message env id (.piece index begin block), e =>
      Judged sh env id index begin block e true → Spared index e.st
  | _, _ => True

theorem wanted_empty (pk : Picker) (n : Nat) : wanted pk (Bitfield.empty n) = false := by
  rw [Bool.eq_false_iff]
  intro h
  obtain ⟨i, hi, -⟩ := wanted_iff.1 h
  rw [Bitfield.has_empty] at hi
  cases hi

/-- Every flag stays right through a critical section that meets the condition. -/
theorem Accurate.step (h : Accurate e.st) (hacc : e.Accounts sh) (ev : Event)
    (hwanted : ev.StillWanted sh e) : Accurate (Engine.step sh ev e).st := by
  have hkeep : ∀ st : State, st.peers = e.st.peers → (∀ i, st.picker.has i = e.st.picker.has i) →
      Accurate st := by
    intro st hpeers hhas p hp
    rw [wanted_congr hhas]
    exact h p (hpeers ▸ hp)
  cases ev with
  | register env dest fast =>
      rcases registerPeer_cases sh env dest fast e.st with ⟨r, heq⟩ | ⟨known, -, -, -, -, heq⟩
      · rw [Engine.step, Engine.modifyState, heq]
        exact h
      · rw [Engine.step, Engine.modifyState, heq]
        intro p hp
        rcases List.mem_append.1 hp with hp | hp
        · exact h p hp
        · rw [List.mem_singleton.1 hp]
          exact (wanted_empty _ _).symm
  | message env id msg =>
      refine h.onMessage hacc env id msg fun index begin block heq => ?_
      subst heq
      exact hwanted
  | maintain env =>
      obtain ⟨w, drops, hleaves, heq⟩ := leaves_maintain env e
      rw [Engine.step, heq]
      exact Accurate.same (w := e.enter) h (hleaves .sets (by simp)) (hleaves .interest (by simp))
        (hleaves .held (by simp)).has
  | drop now id forCause =>
      rcases dropPeer_cases now id forCause e.st with ⟨-, heq⟩ | ⟨peer, rest, hperm, -, heq⟩
      · rw [Engine.step, Engine.modifyState, heq]
        exact h
      · rw [Engine.step, Engine.modifyState, heq]
        intro p hp
        refine (h p (hperm.subset (List.mem_cons_of_mem _ hp))).trans (wanted_congr (fun i => ?_) _)
        exact ((samePieces_failAll (e.st.picker.removeBitfield peer.has) peer.inFlight.keys).has
          i).symm
  | addPeers rank peers =>
      obtain ⟨known, heq⟩ := addPeers_eq rank peers e.st
      rw [Engine.step, Engine.modifyState, heq]
      exact hkeep _ rfl fun _ => rfl
  | setPiecePriorities l => exact hkeep _ rfl fun _ => rfl
  | setMode m => exact hkeep _ rfl fun _ => rfl
  | setLocalDest dest => exact hkeep _ rfl fun _ => rfl
  | setMaxPeers n => exact hkeep _ rfl fun _ => rfl
  | setChokeInterval n => exact hkeep _ rfl fun _ => rfl
  | setKeepaliveInterval n => exact hkeep _ rfl fun _ => rfl
  | setIdleTimeout n => exact hkeep _ rfl fun _ => rfl
  | setRequestTimeout n => exact hkeep _ rfl fun _ => rfl

/-! ## What peers are told -/

/-- The ids in the table, each with our interest in it. -/
def State.flags (st : State) : List (Nat × Bool) := st.peers.map fun p => (p.id, p.weInterested)

/-- The peers left after a drop. -/
theorem flags_dropPeer (now id : Nat) (forCause : Bool) {st : State} (hnodup : st.ids.Nodup)
    {x : Nat × Bool} (h : x ∈ (dropPeer now id forCause st).flags) : x ∈ st.flags ∧ x.1 ≠ id := by
  obtain ⟨p, hp, rfl⟩ := List.mem_map.1 h
  rcases dropPeer_cases now id forCause st with ⟨hgone, heq⟩ | ⟨peer, rest, hperm, hid, heq⟩
  · rw [heq] at hp
    exact ⟨List.mem_map_of_mem hp, hgone p hp⟩
  · rw [heq] at hp
    refine ⟨List.mem_map_of_mem (hperm.subset (List.mem_cons_of_mem _ hp)), ?_⟩
    have hids := (hperm.map Peer.id).nodup_iff.2 hnodup
    rw [List.map_cons, List.nodup_cons, hid] at hids
    exact fun heq => hids.1 (heq ▸ List.mem_map_of_mem hp)

namespace System

/-- A reader's earlier messages are over and done with when it handles the next. -/
def InTurn (s : System) : Prop :=
  s.tasks.Pairwise fun t u => ∀ id, t.thread = .reader id → u.thread = .reader id → t.done = true

/-- This peer's reader is about to drop it. -/
def GivenUp (s : System) (id : Nat) : Prop :=
  ∃ t ∈ s.tasks, t.thread = .reader id ∧ t.refused = some id

/-- Every peer its reader has not given up ends up believing what our flag says. -/
structure Attuned (s : System) : Prop where
  turns : s.InTurn
  speakers : ∀ t ∈ s.tasks, ∀ o ∈ t.sends, isInterest o.2 = true → t.thread = .reader o.1
  agrees : ∀ x ∈ s.engine.st.flags, s.GivenUp x.1 ∨ interestView false (s.onWay x.1) = x.2

end System

variable {s s' : System}

/-- A message may overtake others if it or they are not about interest. -/
theorem interestView_move {l₁ l₂ : List Message} {m : Message}
    (h : isInterest m = true → ∀ x ∈ l₁, isInterest x = false) (b : Bool) :
    interestView b (m :: (l₁ ++ l₂)) = interestView b (l₁ ++ m :: l₂) := by
  have hcons : ∀ b l, interestView b (m :: l) = interestView (interestView b [m]) l :=
    fun _ _ => rfl
  rw [hcons, interestView_append, interestView_append, hcons (interestView b l₁)]
  cases hm : isInterest m with
  | true => rw [interestView_of_plain (h hm), interestView_of_plain (h hm)]
  | false =>
      have hplain : ∀ b, interestView b [m] = b := interestView_of_plain (by simpa using hm)
      rw [hplain, hplain]

/-- A reader with nothing left to do has given nobody up. -/
theorem not_givenUp {id : Nat} (h : s.busy (.reader id) = false) : ¬ s.GivenUp id := by
  rintro ⟨t, ht, hthread, hrefused⟩
  have hdone := List.any_eq_false.1 h t ht
  simp [hthread, Task.done, hrefused] at hdone

/-- A reader with nothing left to do has no message about interest left for its peer. -/
theorem System.Attuned.sentTo_of_idle (h : s.Attuned) {id : Nat}
    (hidle : s.busy (.reader id) = false) {m : Message} (hm : m ∈ sentTo id s.unsent) :
    isInterest m = false := by
  by_contra hin
  obtain ⟨t, ht, ho⟩ := List.mem_flatMap.1 (mem_sentTo.1 hm)
  have hthread := h.speakers t ht _ ho (Bool.eq_true_of_not_eq_false hin)
  have hdone := List.any_eq_false.1 hidle t ht
  simp only [hthread, decide_true, Bool.true_and, Bool.not_eq_true', Bool.not_eq_false,
    Task.done, Bool.and_eq_true, List.isEmpty_iff] at hdone
  rw [hdone.1.2] at ho
  cases ho

/-- A step that leaves tasks and queues alone and brings no new flag. -/
theorem System.Attuned.of_same (h : s.Attuned) (htasks : s'.tasks = s.tasks)
    (hqueues : s'.queues = s.queues)
    (hflags : ∀ x ∈ s'.engine.st.flags, x ∈ s.engine.st.flags) : s'.Attuned := by
  refine ⟨?_, ?_, fun x hx => ?_⟩
  · rw [System.InTurn, htasks]
    exact h.turns
  · rw [htasks]
    exact h.speakers
  · rw [System.GivenUp, System.onWay, System.unsent, htasks, hqueues]
    exact h.agrees x (hflags x hx)

/-- A thread leaves a critical section. -/
theorem System.Attuned.leave (h : s.Attuned) {thread : Thread} {r : Engine × Job}
    (hturn : ∀ id, thread = .reader id → s.busy (.reader id) = false)
    (hspeak : ∀ o ∈ r.2.sends, isInterest o.2 = true → thread = .reader o.1)
    (hflags : r.1.st.flags = s.engine.st.peers.map fun p =>
      (p.id, interestView p.weInterested (sentTo p.id r.2.sends))) :
    (s.leave thread r).Attuned := by
  refine ⟨?_, fun t ht o ho hin => ?_, fun x hx => ?_⟩
  · refine List.pairwise_append.2 ⟨h.turns, List.pairwise_singleton _ _, fun t ht u hu id hid hid' => ?_⟩
    rw [List.mem_singleton.1 hu] at hid'
    have hdone := List.any_eq_false.1 (hturn id hid') t ht
    simpa [hid] using hdone
  · rcases List.mem_append.1 ht with ht | ht
    · exact h.speakers t ht o ho hin
    · rw [List.mem_singleton.1 ht] at ho ⊢
      exact hspeak o ho hin
  · have hx : x ∈ r.1.st.flags := hx
    rw [hflags] at hx
    obtain ⟨p, hp, rfl⟩ := List.mem_map.1 hx
    rcases h.agrees (p.id, p.weInterested) (List.mem_map_of_mem hp) with
      ⟨t, ht, hgiven⟩ | hview
    · exact .inl ⟨t, List.mem_append_left _ ht, hgiven⟩
    · right
      rw [onWay_leave, interestView_append]
      exact congrArg (interestView · _) hview

/-- A task of a thread moves on. -/
theorem System.InTurn.setTask (h : s.InTurn) {pos : Nat} {t t' : Task}
    (htask : s.tasks[pos]? = some t) (hthread : t'.thread = t.thread) (hbusy : t.done = false) :
    (s.setTask pos t').InTurn := by
  obtain ⟨post, hsplit, hset⟩ := setTask_split htask
  rw [System.InTurn, hsplit, List.pairwise_append, List.pairwise_cons] at h
  rw [System.InTurn, hset, List.pairwise_append, List.pairwise_cons]
  obtain ⟨hpre, ⟨hone, hpost⟩, hcross⟩ := h
  refine ⟨hpre, ⟨fun u hu id hid hid' => ?_, hpost⟩, fun u hu v hv id hid hid' => ?_⟩
  · have hdone := hone u hu id (hthread ▸ hid) hid'
    rw [hbusy] at hdone
    cases hdone
  · rcases List.mem_cons.1 hv with rfl | hv
    · exact hcross u hu t (by simp) id hid (hthread ▸ hid')
    · exact hcross u hu v (by simp [hv]) id hid hid'

theorem mem_setTask {pos : Nat} {t t' u : Task} (htask : s.tasks[pos]? = some t)
    (hu : u ∈ (s.setTask pos t').tasks) : u = t' ∨ u ∈ s.tasks := by
  obtain ⟨post, hsplit, hset⟩ := setTask_split htask
  rw [hset, List.mem_append, List.mem_cons] at hu
  rw [hsplit, List.mem_append, List.mem_cons]
  tauto

theorem givenUp_setTask {pos id : Nat} {t t' : Task} (htask : s.tasks[pos]? = some t)
    (hthread : t'.thread = t.thread) (hrefused : t.refused = some id → t'.refused = some id)
    (h : s.GivenUp id) : (s.setTask pos t').GivenUp id := by
  obtain ⟨post, hsplit, hset⟩ := setTask_split htask
  obtain ⟨u, hu, hid, hmem⟩ := h
  rw [System.GivenUp, hset]
  rw [hsplit] at hu
  rcases List.mem_append.1 hu with hu | hu
  · exact ⟨u, List.mem_append_left _ hu, hid, hmem⟩
  · rcases List.mem_cons.1 hu with rfl | hu
    · exact ⟨t', by simp, hthread.trans hid, hrefused hmem⟩
    · exact ⟨u, by simp [hu], hid, hmem⟩

/-- A thread drops its next peer. -/
theorem System.Attuned.droppedBy (h : s.Attuned) {pos now id : Nat} {forCause : Bool}
    {t t' : Task} (htask : s.tasks[pos]? = some t) (hthread : t'.thread = t.thread)
    (hsends : t'.sends = t.sends) (hbusy : t.done = false)
    (hrefused : t'.refused = t.refused ∨ t.refused = some id) (hnodup : s.engine.st.ids.Nodup) :
    ({ s with engine := s.engine.modifyState (dropPeer now id forCause) }.setTask pos
      t').Attuned := by
  refine ⟨h.turns.setTask htask hthread hbusy, fun u hu o ho hin => ?_, fun x hx => ?_⟩
  · rcases mem_setTask htask hu with rfl | hu
    · exact hthread.trans (h.speakers t (List.mem_of_getElem? htask) o (hsends ▸ ho) hin)
    · exact h.speakers u hu o ho hin
  · obtain ⟨hx, hne⟩ := flags_dropPeer now id forCause hnodup hx
    rcases h.agrees x hx with hgiven | hview
    · refine .inl (givenUp_setTask htask hthread (fun hx => ?_) hgiven)
      rcases hrefused with hsame | hid
      · exact hsame.trans hx
      · exact absurd (Option.some.inj (hx.symm.trans hid)) hne
    · right
      rw [onWay_dropped htask hsends]
      exact hview

/-- A thread hands over its next message. -/
theorem System.Attuned.sent (h : s.Attuned) {pos id : Nat} {thread : Thread} {msg : Message}
    {sends : List Outgoing} (htask : s.tasks[pos]? = some ⟨thread, [], (id, msg) :: sends, none⟩) :
    ((s.setQueue id (s.queues id ++ [msg])).setTask pos ⟨thread, [], sends, none⟩).Attuned := by
  have hspeaks := h.speakers _ (List.mem_of_getElem? htask)
  refine ⟨h.turns.setTask htask rfl rfl, fun u hu o ho hin => ?_, fun x hx => ?_⟩
  · rcases mem_setTask htask hu with rfl | hu
    · exact hspeaks o (List.mem_cons_of_mem _ ho) hin
    · exact h.speakers u hu o ho hin
  · rcases h.agrees x hx with hgiven | hview
    · exact .inl (givenUp_setTask htask rfl nofun hgiven)
    · right
      rw [← hview, System.onWay, System.onWay, unsent_setQueue, queues_setQueue]
      by_cases hid : x.1 = id
      · -- older tasks of the same reader are done, and nobody else speaks to its peer of interest
        obtain ⟨post, hbefore, hafter⟩ :=
          unsent_setTask_of_cons htask ⟨thread, [], sends, none⟩ rfl
        rw [if_pos hid, hafter, hbefore, hid, sentTo_append, sentTo_append, sentTo_cons_self,
          List.append_assoc, interestView_append false (s.queues id),
          interestView_append false (s.queues id), List.singleton_append]
        refine interestView_move (fun hin m hm => ?_) _
        by_contra hm'
        obtain ⟨t, ht, ho⟩ := List.mem_flatMap.1 (mem_sentTo.1 hm)
        have hthread := h.speakers t (List.mem_of_mem_take ht) _ ho
          (Bool.eq_true_of_not_eq_false hm')
        obtain ⟨post', hsplit, -⟩ := setTask_split htask
        have hturns := h.turns
        rw [System.InTurn, hsplit, List.pairwise_append] at hturns
        have hdone := hturns.2.2 t ht _ List.mem_cons_self id hthread
          (hspeaks _ List.mem_cons_self hin)
        simp only [Task.done, Bool.and_eq_true, List.isEmpty_iff] at hdone
        rw [hdone.1.2] at ho
        cases ho
      · rw [if_neg hid, sentTo_setTask htask rfl hid]

/-- A queue refuses a message. -/
theorem System.Attuned.refused (h : s.Attuned) {pos id : Nat} {thread : Thread} {msg : Message}
    {sends : List Outgoing} (htask : s.tasks[pos]? = some ⟨thread, [], (id, msg) :: sends, none⟩) :
    (s.setTask pos ⟨thread, [], sends, some id⟩).Attuned := by
  have hspeaks := h.speakers _ (List.mem_of_getElem? htask)
  refine ⟨h.turns.setTask htask rfl rfl, fun u hu o ho hin => ?_, fun x hx => ?_⟩
  · rcases mem_setTask htask hu with rfl | hu
    · exact hspeaks o (List.mem_cons_of_mem _ ho) hin
    · exact h.speakers u hu o ho hin
  · rcases h.agrees x hx with hgiven | hview
    · exact .inl (givenUp_setTask htask rfl nofun hgiven)
    · by_cases hid : x.1 = id
      · cases hin : isInterest msg with
        | true =>
            -- the reader itself was told that the queue is closed
            obtain ⟨post, -, hset⟩ := setTask_split htask
            refine .inl ⟨⟨thread, [], sends, some id⟩, by simp [hset], ?_, congrArg some hid.symm⟩
            exact hid ▸ hspeaks _ List.mem_cons_self hin
        | false =>
            right
            obtain ⟨post, hbefore, hafter⟩ :=
              unsent_setTask_of_cons htask ⟨thread, [], sends, some id⟩ rfl
            have hplain : ∀ b, interestView b [msg] = b := interestView_of_plain (by simpa using hin)
            rw [← hview, System.onWay, System.onWay, hafter, hbefore, hid, sentTo_append,
              sentTo_append, sentTo_cons_self, interestView_append, interestView_append,
              interestView_append, interestView_append, ← List.singleton_append,
              interestView_append, hplain]
            rfl
      · right
        rw [System.onWay, sentTo_setTask htask rfl hid]
        exact hview

/-- A connection is registered. -/
theorem System.Attuned.registered (h : s.Attuned) (haddr : s.Addressed sh) {pos : Nat} {env : Env}
    {dest : DestHash} {theirs : Wire.Extensions} {field : Bitfield} {known : Map DestHash Source}
    {fast : Bool} :
    (({ s with engine := s.engine.modifyState fun _ => { s.engine.st with
      nextId := s.engine.st.nextId + 1
      knownPeers := known
      peers := s.engine.st.peers ++ [newPeer sh env.now s.engine.st.nextId dest fast] }
      }.setQueue s.engine.st.nextId (opening sh theirs field)).setPhase pos .over).Attuned := by
  refine ⟨h.turns, h.speakers, fun x hx => ?_⟩
  obtain ⟨p, hp, rfl⟩ := List.mem_map.1 hx
  rcases List.mem_append.1 hp with hp | hp
  · have hne : p.id ≠ s.engine.st.nextId :=
      ne_of_lt (haddr.seated.fresh _ (List.mem_map_of_mem hp))
    refine (h.agrees (p.id, p.weInterested) (List.mem_map_of_mem hp)).imp (fun hg => hg) fun hview => ?_
    rw [onWay_seat, if_neg hne]
    exact hview
  · rw [List.mem_singleton.1 hp]
    right
    rw [onWay_seat]
    refine (congrArg _ (if_pos rfl)).trans (interestView_of_plain (fun m hm => ?_) false)
    rcases List.mem_append.1 hm with hm | hm
    · unfold opening at hm
      split at hm <;> simp only [List.mem_cons, List.not_mem_nil, or_false] at hm
      · rcases hm with rfl | rfl <;> rfl
      · rw [hm]
        rfl
    · exact absurd (haddr.sends _ (mem_sentTo.1 hm)) (lt_irrefl _)

/-- The peers to disconnect are listed. -/
theorem System.Attuned.listed (h : s.Attuned) (drops : List (Nat × Bool)) :
    System.Attuned { s with
      stop := .listed
      tasks := s.tasks ++ [⟨.control, drops, [], none⟩] } := by
  refine ⟨?_, fun t ht o ho hin => ?_, fun x hx => ?_⟩
  · refine List.pairwise_append.2 ⟨h.turns, List.pairwise_singleton _ _, fun t _ u hu id _ hid' => ?_⟩
    rw [List.mem_singleton.1 hu] at hid'
    cases hid'
  · rcases List.mem_append.1 ht with ht | ht
    · exact h.speakers t ht o ho hin
    · rw [List.mem_singleton.1 ht] at ho
      cases ho
  · rcases h.agrees x hx with ⟨t, ht, hgiven⟩ | hview
    · exact .inl ⟨t, List.mem_append_left _ ht, hgiven⟩
    · right
      rw [← hview]
      simp [System.onWay, System.unsent]

/-- A control event brings no new flag. -/
theorem flags_control {ev : Event} (hctl : ev.isControl = true) (hnodup : e.st.ids.Nodup)
    {x : Nat × Bool} (h : x ∈ (Engine.step sh ev e).st.flags) : x ∈ e.st.flags := by
  cases ev with
  | register _ _ _ => cases hctl
  | message _ _ _ => cases hctl
  | maintain _ => cases hctl
  | drop now id forCause => exact (flags_dropPeer now id forCause hnodup h).1
  | addPeers rank peers =>
      obtain ⟨known, heq⟩ := addPeers_eq rank peers e.st
      rw [Engine.step, Engine.modifyState, heq] at h
      exact h
  | _ => exact h

/-- Every step keeps peers told of our interest, whatever becomes of it. -/
theorem System.Attuned.step (h : s.Attuned) (haddr : s.Addressed sh) (a : Action) :
    (System.step sh a s).Attuned := by
  have hsame : ∀ attaches stop, System.Attuned { s with attaches := attaches, stop := stop } :=
    fun _ _ => h.of_same rfl rfl fun _ hx => hx
  cases a with
  | message env id msg =>
      unfold System.step
      simp only
      split
      · exact h
      · rename_i hidle
        have hvoiced := voiced_onMessage sh env id msg haddr.seated.nodup
        refine h.leave ?_ (fun o ho hin => ?_) hvoiced.flags
        · rintro _ ⟨⟩
          exact Bool.eq_false_of_not_eq_true hidle
        · rw [hvoiced.only o ho hin]
  | maintain env =>
      unfold System.step
      simp only
      split
      · exact h
      · refine h.leave nofun (fun o ho hin => ?_) (voiced_maintain env 0 s.engine).flags
        -- it says nothing about interest: whoever it is told to, it is nobody
        have hzero := (voiced_maintain env 0 s.engine).only o ho hin
        have hone := (voiced_maintain env 1 s.engine).only o ho hin
        omega
  | control ev =>
      unfold System.step
      simp only
      split
      · rename_i hctl
        refine h.of_same rfl rfl fun x hx => ?_
        exact flags_control hctl haddr.seated.nodup hx
      · exact h
  | drop pos now =>
      unfold System.step System.dropNext
      simp only
      split
      · rename_i htask
        exact h.droppedBy htask rfl rfl rfl (.inl rfl) haddr.seated.nodup
      · rename_i htask
        exact h.droppedBy htask rfl rfl (by simp [Task.done]) (.inr rfl) haddr.seated.nodup
      · exact h
  | send pos taken =>
      unfold System.step System.sendNext
      simp only
      split
      · rename_i htask
        cases taken with
        | true => exact h.sent htask
        | false => exact h.refused htask
      · exact h
  | accept dest theirs =>
      unfold System.step
      simp only
      split
      · exact hsame _ _
      · exact h
  | dial dest =>
      unfold System.step
      simp only
      split
      · exact hsame _ _
      · exact h
  | greet pos theirs =>
      unfold System.step
      simp only
      split
      · split <;> exact hsame _ _
      · exact h
  | abandon pos => exact hsame _ _
  | announce pos =>
      unfold System.step
      simp only
      split
      · exact hsame _ _
      · exact h
  | register pos env =>
      unfold System.step System.registerNext
      simp only
      split
      · rename_i dest theirs field _
        rcases registerPeer_cases sh env dest (theirs.fast && sh.ourHandshake.extensions.fast)
          s.engine.st with ⟨r, heq⟩ | ⟨_, _, _, _, _, heq⟩
        · simp only [heq]
          exact hsame _ _
        · simp only [heq]
          exact h.registered haddr
      · exact h
  | halt =>
      unfold System.step System.haltNext
      simp only
      split
      · exact hsame _ _
      · exact hsame _ _
      · exact h.listed _
      · exact h

/-! ## Every run -/

/-- A block that a reader handles and that completes a piece leaves every connected peer that has
the piece with another one we want. -/
def StillWanted (sh : Shared) : Action → System → Prop
  | .message env id (.piece index begin block), s =>
      s.busy (.reader id) = false → Judged sh env id index begin block s.engine true →
        Spared index s.engine.st
  | _, _ => True

theorem StillWanted.event {a : Action} (h : StillWanted sh a s) {ev : Event}
    (hev : s.event sh a = some ev) : ev.StillWanted sh s.engine := by
  cases a with
  | message env id msg =>
      simp only [System.event] at hev
      split at hev
      · cases hev
      · rename_i hidle
        obtain rfl := Option.some.inj hev
        cases msg with
        | piece index begin block => exact h (Bool.eq_false_of_not_eq_true hidle)
        | _ => trivial
  | maintain env =>
      simp only [System.event] at hev
      split at hev
      · cases hev
      · exact Option.some.inj hev ▸ trivial
  | control ev' =>
      simp only [System.event] at hev
      split at hev
      · rename_i hctl
        obtain rfl := Option.some.inj hev
        cases ev' with
        | message _ _ _ => cases hctl
        | _ => trivial
      · cases hev
  | drop pos now =>
      simp only [System.event] at hev
      split at hev
      · exact Option.some.inj hev ▸ trivial
      · exact Option.some.inj hev ▸ trivial
      · cases hev
  | register pos env =>
      simp only [System.event] at hev
      split at hev
      · exact Option.some.inj hev ▸ trivial
      · cases hev
  | _ => cases hev

/-- Interest is accurate as long as no piece that completes was the last one a connected peer was
wanted for: the flag of a peer is set exactly if it has a piece we do not hold, and while its
reader is between messages the last message about interest on its queue says what the flag
says. -/
theorem interest_accurate_if_still_wanted (sh : Shared) (initialHave : Bitfield) (mode : Mode)
    (now : Nat) (disk : Disk) (actions : List Action)
    (hwanted : Machine.Along (System.step sh) (StillWanted sh) actions
      (System.new sh initialHave mode now disk)) :
    let s := System.run sh actions (System.new sh initialHave mode now disk)
    ∀ p ∈ s.engine.st.peers,
      (p.weInterested = true ↔ ∃ i, p.has.has i = true ∧ s.engine.st.picker.has i = false) ∧
      (s.busy (.reader p.id) = false → interestView false (s.queues p.id) = p.weInterested) := by
  intro s p hp
  let Inv := fun s : System =>
    s.Addressed sh ∧ s.engine.Accounts sh ∧ Accurate s.engine.st ∧ s.Attuned
  have hnew : Inv (System.new sh initialHave mode now disk) := by
    refine ⟨addressed_new sh initialHave mode now disk, accounts_new sh initialHave mode now disk,
      fun q hq => absurd hq List.not_mem_nil, List.Pairwise.nil, ?_, ?_⟩
    · exact fun t ht => absurd ht List.not_mem_nil
    · exact fun x hx => absurd hx List.not_mem_nil
  have hstep : ∀ a s, StillWanted sh a s → Inv s → Inv (System.step sh a s) := by
    rintro a s hstill ⟨haddr, hacc, haccurate, hattuned⟩
    refine ⟨haddr.step a, engine_induction hacc (fun ev => accounts_step ev hacc) a, ?_,
      hattuned.step haddr a⟩
    rw [engine_step]
    cases hev : s.event sh a with
    | none => exact haccurate
    | some ev => exact haccurate.step hacc ev (hstill.event hev)
  obtain ⟨-, -, haccurate, hattuned⟩ : Inv s := Machine.run_induction_along hstep hwanted hnew
  refine ⟨?_, fun hidle => ?_⟩
  · rw [haccurate p hp]
    exact wanted_iff
  · rcases hattuned.agrees (p.id, p.weInterested) (List.mem_map_of_mem hp) with hgiven | hview
    · exact absurd hgiven (not_givenUp hidle)
    · rw [System.onWay, interestView_append,
        interestView_of_plain (fun m hm => hattuned.sentTo_of_idle hidle hm)] at hview
      exact hview

namespace OneByte

/-- A seed connects and we become interested. -/
def courted : List Action :=
  attach 0 ++ [.message (env 0) 0 (.bitfield [128]), .send 0 true]

/-- The seed unchokes us and sends the only block there is. -/
def satisfied : List Action :=
  courted ++ [.message (env 0) 0 .unchoke, .send 1 true, .message (env 0) 0 (.piece 0 0 [97]),
    .send 2 true]

end OneByte

namespace TwoPieces

/-- An empty download. -/
def start : System := System.new shared (Bitfield.empty 2) .rarestFirst 0 fun _ => []

/-- A seed sends the second piece, and the first is still to come. -/
def courted : List Action := (seeded ++ [.send 1 true]) ++ [last, .send 2 true, .send 2 true]

end TwoPieces

/-- No thread has anything left to do, we are interested in the seed and have told it so, and it
has nothing that we do not hold. -/
theorem interest_outlives_piece :
    let s := System.run OneByte.shared OneByte.satisfied OneByte.start
    s.Quiescent ∧ ∃ p ∈ s.engine.st.peers, p.weInterested = true ∧
      interestView false (s.queues p.id) = true ∧
      ¬ ∃ i, p.has.has i = true ∧ s.engine.st.picker.has i = false := by
  intro s
  have hrun : s.Quiescent ∧ ∃ p ∈ s.engine.st.peers, p.weInterested = true ∧
      interestView false (s.queues p.id) = true ∧ ¬ wanted s.engine.st.picker p.has = true := by
    decide +kernel
  obtain ⟨hquiet, p, hp, hflag, hview, hnone⟩ := hrun
  exact ⟨hquiet, p, hp, hflag, hview, fun h => hnone (wanted_iff.2 h)⟩

theorem TwoPieces.along_seeded :
    Machine.Along (System.step shared) (StillWanted shared) (seeded ++ [.send 1 true]) start := by
  refine Machine.along_of_forall (fun a ha s => ?_) start
  simp only [seeded, OneByte.attach, List.cons_append, List.nil_append, List.mem_cons,
    List.not_mem_nil, or_false] at ha
  rcases ha with rfl | rfl | rfl | rfl | rfl | rfl | rfl | rfl <;> trivial

/-- When the second piece arrives the seed has another one. -/
theorem TwoPieces.spared_seeded :
    Spared 1 (System.run shared (seeded ++ [.send 1 true]) start).engine.st := by
  have hall : ∀ p ∈ (System.run shared (seeded ++ [.send 1 true]) start).engine.st.peers,
      p.has.has 0 = true ∧
        (System.run shared (seeded ++ [.send 1 true]) start).engine.st.picker.has 0 = false := by
    decide +kernel
  exact fun p hp _ => ⟨0, by decide, (hall p hp).1, (hall p hp).2⟩

theorem interest_accurate_courted :
    let s := System.run TwoPieces.shared TwoPieces.courted
      (System.new TwoPieces.shared (Bitfield.empty 2) .rarestFirst 0 fun _ => [])
    ∀ p ∈ s.engine.st.peers,
      (p.weInterested = true ↔ ∃ i, p.has.has i = true ∧ s.engine.st.picker.has i = false) ∧
      (s.busy (.reader p.id) = false → interestView false (s.queues p.id) = p.weInterested) :=
  interest_accurate_if_still_wanted TwoPieces.shared (Bitfield.empty 2) .rarestFirst 0 (fun _ => [])
    TwoPieces.courted (Machine.along_append.2 ⟨TwoPieces.along_seeded,
      fun _ _ => TwoPieces.spared_seeded, trivial, trivial, trivial⟩)

end Clove.Torrent
