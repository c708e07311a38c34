import Clove.Torrent.Blocks
import Clove.Torrent.Slots

/-!
# Known and banned destinations

Destinations become known from trackers, connections and peer exchange, and are forgotten to
make room, by a ban, or because they are our own.  A block that fails its piece can ban whoever
sent it, and the peers of a banned destination are queued for removal; nothing else a peer says
removes a destination.

`Learns` and `Bans` say what one message can do to the books, and `Booked` is the invariant
every critical section keeps.
-/

namespace Clove.Torrent

open Wire (BLOCK_LEN Message)

/-! ## The books -/

/-- The books of destinations are in order. -/
structure Booked (st : State) : Prop where
  size : st.knownPeers.keys.length ≤ MAX_KNOWN_PEERS
  banned : ∀ d ∈ st.banned, d ∉ st.knownPeers
  own : ∀ d, st.localDest = some d → d ∉ st.knownPeers
  offences : st.offences.keys.length ≤ MAX_KNOWN_PEERS
  dests : ∀ d, st.peers.countP (·.dest = d) ≤ MAX_CONNECTIONS_PER_DEST

/-- Destinations may have become known, and none is forgotten. -/
structure Learns (st st' : State) (drops : List (Nat × Bool)) : Prop where
  kept : ∀ d source, st.knownPeers.lookup d = some source → st'.knownPeers.lookup d = some source
  fresh : ∀ d ∈ st'.knownPeers, d ∈ st.knownPeers ∨ d ∉ st.banned ∧ st.localDest ≠ some d
  size : st.knownPeers.keys.length ≤ MAX_KNOWN_PEERS →
    st'.knownPeers.keys.length ≤ MAX_KNOWN_PEERS
  banned : st'.banned = st.banned
  localDest : st'.localDest = st.localDest
  offences : st'.offences = st.offences
  queued : st.toDrop ⊆ drops

/-- Some destinations have been banned, and their peers queued for removal. -/
structure Bans (ds : List DestHash) (st st' : State) (drops : List (Nat × Bool)) : Prop where
  lookup : ∀ d, st'.knownPeers.lookup d = if d ∈ ds then none else st.knownPeers.lookup d
  size : st'.knownPeers.keys.length ≤ st.knownPeers.keys.length
  banned : ∀ d, d ∈ st'.banned ↔ d ∈ ds ∨ d ∈ st.banned
  localDest : st'.localDest = st.localDest
  offences : st'.offences = st.offences
  doomed : ∀ p ∈ st.peers, p.dest ∈ ds → (p.id, true) ∈ drops
  queued : st.toDrop ⊆ drops

variable {sh : Shared} {e : Engine} {w w' w₁ : Work} {st st' : State} {ds : List DestHash}
  {drops : List (Nat × Bool)}

/-! ## Remembering a destination -/

/-- A destination is remembered if it is neither banned nor our own.  A trusted one may displace
one learned from a peer; one learned from a peer displaces nothing. -/
theorem rememberPeerFrom_cases (st : State) (rank : DestHash → Nat) (dest : DestHash)
    (source : Source) :
    (st.rememberPeerFrom rank dest source).1 = st ∨
    ∃ known, (st.rememberPeerFrom rank dest source).1 = { st with knownPeers := known } ∧
      dest ∉ st.banned ∧ st.localDest ≠ some dest ∧
      (st.knownPeers.keys.length ≤ MAX_KNOWN_PEERS → known.keys.length ≤ MAX_KNOWN_PEERS) ∧
      known.lookup dest = some source ∧
      (source = .pex → st.knownPeers.lookup dest = none) ∧
      ∀ d, d ≠ dest → known.lookup d = st.knownPeers.lookup d ∨
        source = .trusted ∧ st.knownPeers.lookup d = some .pex ∧ known.lookup d = none := by
  unfold State.rememberPeerFrom
  split
  · exact .inl rfl
  · rename_i hrefused
    obtain ⟨hban, hown⟩ := not_or.1 hrefused
    split
    · rename_i hknown
      cases source with
      | pex => exact .inl rfl
      | trusted =>
          refine .inr ⟨_, rfl, hban, hown, fun hsize => ?_, ?_, nofun, fun d hd => .inl ?_⟩
          · have hpos := List.length_pos_of_mem (AList.mem_keys.1 hknown)
            rw [AList.keys_insert, List.length_cons, List.length_erase_of_mem (AList.mem_keys.1 hknown)]
            omega
          · rw [Map.lookup_insert, if_pos rfl]
          · rw [Map.lookup_insert, if_neg hd]
    · rename_i hunknown
      have hnone : st.knownPeers.lookup dest = none := AList.lookup_eq_none.2 hunknown
      split
      · split
        · exact .inl rfl
        · rename_i hsource
          split
          · exact .inl rfl
          · rename_i victim hfind
            have hvictim : st.knownPeers.lookup victim = some .pex :=
              of_decide_eq_true (List.find?_some hfind :)
            have hmem : victim ∈ st.knownPeers.keys :=
              AList.mem_keys.1 (AList.lookup_isSome.1 (by rw [hvictim]; rfl))
            have htrusted : source = .trusted := by cases source <;> simp_all
            refine .inr ⟨_, rfl, hban, hown, fun hsize => ?_, ?_, fun h => absurd h hsource,
              fun d hd => ?_⟩
            · have hpos := List.length_pos_of_mem hmem
              have hlen := List.length_erase_of_mem hmem
              rw [AList.keys_insert, List.length_cons, AList.keys_erase]
              have := (List.erase_sublist (a := dest) (l := st.knownPeers.keys.erase victim)).length_le
              omega
            · rw [Map.lookup_insert, if_pos rfl]
            · rw [Map.lookup_insert, if_neg hd, Map.lookup_erase]
              by_cases hv : d = victim
              · rw [if_pos hv, hv]
                exact .inr ⟨htrusted, hvictim, rfl⟩
              · rw [if_neg hv]
                exact .inl rfl
      · rename_i hroom
        refine .inr ⟨_, rfl, hban, hown, fun _ => ?_, ?_, fun _ => hnone, fun d hd => .inl ?_⟩
        · rw [AList.keys_insert, List.length_cons]
          have := (List.erase_sublist (a := dest) (l := st.knownPeers.keys)).length_le
          omega
        · rw [Map.lookup_insert, if_pos rfl]
        · rw [Map.lookup_insert, if_neg hd]

theorem Booked.rememberPeerFrom (h : Booked st) (rank : DestHash → Nat) (dest : DestHash)
    (source : Source) : Booked (st.rememberPeerFrom rank dest source).1 := by
  rcases rememberPeerFrom_cases st rank dest source with
    heq | ⟨known, heq, hban, hown, hsize, hlookup, -, hothers⟩
  · rw [heq]
    exact h
  · rw [heq]
    have hnew : ∀ d ∈ known, d = dest ∨ d ∈ st.knownPeers := by
      intro d hd
      by_cases hdest : d = dest
      · exact .inl hdest
      · refine .inr (AList.lookup_isSome.1 ?_)
        have hd := AList.lookup_isSome.2 hd
        rcases hothers d hdest with hsame | ⟨-, -, hgone⟩
        · rw [← hsame]
          exact hd
        · rw [hgone] at hd
          cases hd
    refine ⟨hsize h.size, fun d hd hknown => ?_, fun d hd hknown => ?_, h.offences, h.dests⟩
    · rcases hnew d hknown with rfl | hknown
      · exact hban hd
      · exact h.banned d hd hknown
    · rcases hnew d hknown with rfl | hknown
      · exact hown hd
      · exact h.own d hd hknown

/-- A trusted destination stays known when others are remembered. -/
theorem trusted_rememberPeerFrom {rank : DestHash → Nat} {dest d : DestHash} {source : Source}
    (h : st.knownPeers.lookup d = some .trusted) :
    (st.rememberPeerFrom rank dest source).1.knownPeers.lookup d = some .trusted := by
  rcases rememberPeerFrom_cases st rank dest source with
    heq | ⟨known, heq, -, -, -, hlookup, hpex, hothers⟩
  · rw [heq]
    exact h
  · rw [heq]
    by_cases hd : d = dest
    · subst hd
      cases source with
      | trusted => exact hlookup
      | pex =>
          rw [hpex rfl] at h
          cases h
    · rcases hothers d hd with hsame | ⟨-, hpex, -⟩
      · exact hsame.trans h
      · rw [hpex] at h
        cases h

/-! ## Learning from a peer -/

theorem Learns.refl (st : State) : Learns st st st.toDrop :=
  ⟨fun _ _ h => h, fun _ h => .inl h, fun h => h, rfl, rfl, rfl, fun _ h => h⟩

theorem Learns.trans {st₁ st₂ st₃ : State} (h₁ : Learns st₁ st₂ st₂.toDrop)
    (h₂ : Learns st₂ st₃ drops) : Learns st₁ st₃ drops := by
  refine ⟨fun d source h => h₂.kept d source (h₁.kept d source h), fun d hd => ?_,
    fun h => h₂.size (h₁.size h), h₂.banned.trans h₁.banned, h₂.localDest.trans h₁.localDest,
    h₂.offences.trans h₁.offences, fun x hx => h₂.queued (h₁.queued hx)⟩
  rcases h₂.fresh d hd with hd | hnew
  · exact h₁.fresh d hd
  · rw [h₁.banned, h₁.localDest] at hnew
    exact .inr hnew

theorem learns_learn (env : Env) (w : Work) (dest : DestHash) :
    Learns w.st (learn env w dest).st (learn env w dest).st.toDrop := by
  have hremember : Learns w.st (w.st.rememberPeerFrom env.rank dest .pex).1 w.st.toDrop := by
    rcases rememberPeerFrom_cases w.st env.rank dest .pex with
      heq | ⟨known, heq, hban, hown, hsize, hlookup, hnone, hothers⟩
    · rw [heq]
      exact .refl _
    · rw [heq]
      have hsame : ∀ d, d ≠ dest → known.lookup d = w.st.knownPeers.lookup d := fun d hd =>
        (hothers d hd).resolve_right nofun
      refine ⟨fun d source hd => ?_, fun d hd => ?_, hsize, rfl, rfl, rfl, fun _ hx => hx⟩
      · refine (hsame d ?_).trans hd
        rintro rfl
        rw [hnone rfl] at hd
        cases hd
      · by_cases hdest : d = dest
        · exact .inr ⟨hdest ▸ hban, hdest ▸ hown⟩
        · refine .inl (AList.lookup_isSome.1 ?_)
          rw [← hsame d hdest]
          exact AList.lookup_isSome.2 hd
  have hdrops : (w.st.rememberPeerFrom env.rank dest .pex).1.toDrop = w.st.toDrop := by
    obtain ⟨known, heq⟩ := State.rememberPeerFrom_eq w.st env.rank dest .pex
    rw [heq]
  unfold learn
  simp only
  split
  · refine ⟨hremember.kept, hremember.fresh, hremember.size, hremember.banned,
      hremember.localDest, hremember.offences, ?_⟩
    rw [hdrops]
    exact hremember.queued
  · rw [hdrops]
    exact hremember

theorem learns_foldl (env : Env) (l : List DestHash) (w : Work) :
    Learns w.st (l.foldl (learn env) w).st (l.foldl (learn env) w).st.toDrop := by
  induction l generalizing w with
  | nil => exact .refl _
  | cons dest l ih => exact (learns_learn env w dest).trans (ih _)

/-! ## Bans -/

/-- One destination after another. -/
theorem bans_foldl (ds : List DestHash) (st : State) :
    Bans ds st (ds.foldl State.ban st) (ds.foldl State.ban st).toDrop := by
  induction ds generalizing st with
  | nil => exact ⟨fun d => by simp, le_rfl, by simp, rfl, rfl, by simp, fun _ h => h⟩
  | cons dest ds ih =>
      have h := ih (st.ban dest)
      refine ⟨fun d => ?_, h.size.trans ?_, fun d => ?_, h.localDest, h.offences, fun p hp hd => ?_,
        fun x hx => h.queued (List.mem_append_left _ hx)⟩
      · rw [List.foldl_cons, h.lookup]
        show (if d ∈ ds then none else (st.knownPeers.erase dest).lookup d) = _
        rw [Map.lookup_erase]
        by_cases hdest : d = dest <;> by_cases hds : d ∈ ds <;> simp [hdest, hds]
      · show (st.knownPeers.erase dest).keys.length ≤ _
        rw [AList.keys_erase]
        exact List.erase_sublist.length_le
      · have hbanned : d ∈ (st.ban dest).banned ↔ d = dest ∨ d ∈ st.banned := by
          show d ∈ (if dest ∈ st.banned then st.banned else dest :: st.banned) ↔ _
          split
          · rename_i hin
            exact ⟨.inr, fun hd => hd.elim (fun heq => heq ▸ hin) id⟩
          · exact List.mem_cons
        rw [List.foldl_cons, h.banned, hbanned, List.mem_cons]
        tauto
      · rcases List.mem_cons.1 hd with hd | hd
        · refine h.queued (List.mem_append_right _ (List.mem_map.2 ⟨p, ?_, rfl⟩))
          exact List.mem_filter.2 ⟨hp, decide_eq_true hd⟩
        · exact h.doomed p hp hd

theorem SameIn.known (h : SameIn .known w w') : w'.st.knownPeers = w.st.knownPeers ∧
    w'.st.banned = w.st.banned ∧ w'.st.localDest = w.st.localDest ∧
    w'.st.offences = w.st.offences := by
  have hbooks := Aspect.Known.mk.inj h.books
  exact hbooks

/-- A step that leaves the books alone bans nobody. -/
theorem bans_nil (hknown : SameIn .known w w') (hqueued : w.st.toDrop ⊆ drops) :
    Bans [] w.st w'.st drops := by
  obtain ⟨hpeers, hbanned, hlocal, hoffences⟩ := hknown.known
  refine ⟨fun d => ?_, ?_, fun d => ?_, hlocal, hoffences, by simp, hqueued⟩
  · rw [hpeers]
    simp
  · rw [hpeers]
  · rw [hbanned]
    simp

theorem SameIn.toDrop (h : SameIn .doomed w w') : w'.st.toDrop = w.st.toDrop := h.books

/-- A seated peer was seated before. -/
theorem SameIn.seat (h : SameIn .table w w') {p : Peer} (hp : p ∈ w'.st.peers) :
    ∃ q ∈ w.st.peers, q.id = p.id ∧ q.dest = p.dest := by
  obtain ⟨j, hj⟩ := List.mem_iff_getElem?.1 hp
  obtain ⟨q, hq, hid, hdest⟩ := h.getElem? hj
  exact ⟨q, List.mem_of_getElem? hq, hid, hdest⟩

theorem Bans.before (h : Bans ds w₁.st st' drops) (hknown : SameIn .known w w₁)
    (hdoomed : SameIn .doomed w w₁) (htable : SameIn .table w w₁) : Bans ds w.st st' drops := by
  obtain ⟨hpeers, hbanned, hlocal, hoffences⟩ := hknown.known
  refine ⟨hpeers ▸ h.lookup, hpeers ▸ h.size, hbanned ▸ h.banned, hlocal ▸ h.localDest,
    hoffences ▸ h.offences, fun p hp hd => ?_, hdoomed.toDrop ▸ h.queued⟩
  have hmem := List.mem_map_of_mem (f := fun p : Peer => (p.id, Aspect.table.ofPeer p)) hp
  rw [← htable.peers] at hmem
  obtain ⟨q, hq, heq⟩ := List.mem_map.1 hmem
  obtain ⟨hid, hdest⟩ := Prod.mk.inj heq
  have hdest : q.dest = p.dest := hdest
  rw [← hid]
  exact h.doomed q hq (hdest ▸ hd)

theorem Bans.after (h : Bans ds st w₁.st w₁.st.toDrop) (hknown : SameIn .known w₁ w')
    (hdoomed : SameIn .doomed w₁ w') : Bans ds st w'.st w'.st.toDrop := by
  obtain ⟨hpeers, hbanned, hlocal, hoffences⟩ := hknown.known
  rw [hdoomed.toDrop]
  exact ⟨fun d => by rw [hpeers]; exact h.lookup d, by rw [hpeers]; exact h.size,
    fun d => by rw [hbanned]; exact h.banned d, hlocal.trans h.localDest,
    hoffences.trans h.offences, h.doomed, h.queued⟩

/-- Judging a piece bans some of those who supplied it. -/
theorem bans_onComplete (sh : Shared) (env : Env) (index : Nat) (w : Work) :
    ∃ ds, Bans ds w.st (onComplete sh env index w).st (onComplete sh env index w).st.toDrop := by
  unfold onComplete
  split
  · have hcredit := leaves_creditSuppliers index (w.modifyPicker fun pk => pk.setHave index)
    have hsame := (bans_nil (w := w.modifyPicker fun pk => pk.setHave index)
      (hcredit .known (by simp)) (fun _ hx => hx))
    refine ⟨[], hsame.lookup, hsame.size, hsame.banned, hsame.localDest, hsame.offences, by simp, ?_⟩
    have hdrops := (hcredit .doomed (by simp)).toDrop
    simp only at hdrops ⊢
    rw [hdrops]
    exact hsame.queued
  · obtain ⟨suppliers, suspicion, contributors, culprits, heq, -, -, -, -⟩ :=
      State.blameSuppliers_inv (w.modifyPicker fun pk => pk.resetPiece index).st index
    refine ⟨culprits, ?_⟩
    simp only [heq]
    have h := bans_foldl culprits { (w.modifyPicker fun pk => pk.resetPiece index).st with
      suppliers := suppliers, suspicion := suspicion }
    exact ⟨h.lookup, h.size, h.banned, h.localDest, h.offences, h.doomed, h.queued⟩
  · exact ⟨[], fun d => by simp, le_rfl, by simp, rfl, rfl, by simp, fun _ h => h⟩

theorem bans_onBlock (env : Env) (idx index begin : Nat) (block : Bytes) (h : Balanced sh w []) :
    ∃ ds, Bans ds w.st (onBlock sh env idx index begin block w).st
      (onBlock sh env idx index begin block w).st.toDrop := by
  have hnone : ∀ w', SameIn .known w w' → SameIn .doomed w w' → ∃ ds, Bans ds w.st w'.st w'.st.toDrop :=
    fun w' hknown hdoomed => ⟨[], bans_nil hknown (hdoomed.toDrop ▸ fun _ hx => hx)⟩
  rcases onBlock_inv env idx index begin block h with hsame | ⟨peer, -, hcase⟩
  · exact hnone _ (hsame .known (by simp)) (hsame .doomed (by simp))
  · rcases hcase with ⟨err, -, hfailed, -⟩ | ⟨-, w₁, hstored, hdone⟩
    · exact hnone _ (hfailed .known (by simp)) (hfailed .doomed (by simp))
    · rcases hdone with heq | ⟨-, hafter⟩
      · rw [heq]
        exact hnone _ (hstored.rest .known (by simp)) (hstored.rest .doomed (by simp))
      · obtain ⟨ds, hbans⟩ := bans_onComplete sh env index w₁
        have hdone : Bans ds w.st (onComplete sh env index w₁).st (onComplete sh env index w₁).st.toDrop :=
          hbans.before (hstored.rest .known (by simp)) (hstored.rest .doomed (by simp))
            (hstored.rest .table (by simp))
        exact ⟨ds, hdone.after (hafter .known (by simp)) (hafter .doomed (by simp))⟩

/-! ## Messages -/

/-- Whether a message is an extended one. -/
def isTalk (m : Message) : Bool := Aspect.talk.hears m

/-- An extended message leads to an answer, or to destinations learned on a torrent that is not
private. -/
theorem onExtended_cases (sh : Shared) (env : Env) (idx : Nat) (extId : UInt8) (payload : Bytes)
    (w : Work) : Leaves [.talk] w (onExtended sh env idx extId payload w) ∨
      sh.isPrivate = false ∧ ∃ l : List DestHash,
        onExtended sh env idx extId payload w = l.foldl (learn env) w := by
  have hids : ∀ hs : Extension.Handshake, Leaves [.talk] w (w.modifyPeer idx fun p =>
      { p with pexId := hs.idFor Extension.I2P_PEX
               metadataId := hs.idFor Extension.UT_METADATA }) :=
    fun hs => leaves_modifyPeer (by intro _; rfl) (by intro a _ _; cases a <;> rfl) w idx
  unfold onExtended
  split
  · split
    · exact .inl (.refl _ w)
    · rename_i hs _
      simp only
      split
      · exact .inl (hids hs)
      · exact .inl ((hids hs).trans (leaves_sendPex env idx _))
  · split
    · split
      · exact .inl (.refl _ w)
      · rename_i hprivate
        split
        · exact .inl (.refl _ w)
        · exact .inr ⟨Bool.eq_false_of_not_eq_true hprivate, _, rfl⟩
    · split
      · split
        · exact .inl (leaves_serveMetadata sh idx _ w)
        · exact .inl (.refl _ w)
      · exact .inl (.refl _ w)

/-- A message that is neither a block nor extended leaves the peers queued for removal in the
queue. -/
theorem queued_dispatch (sh : Shared) (env : Env) (idx id : Nat) (first fast : Bool)
    (msg : Message) (w : Work) (hblock : .known ∉ footprint msg) :
    w.st.toDrop ⊆ (dispatch sh env idx id first fast msg w).st.toDrop := by
  have hsame : ∀ w', SameIn .doomed w w' → w.st.toDrop ⊆ w'.st.toDrop := by
    intro w' h
    rw [h.toDrop]
    exact fun _ hx => hx
  have hviolation : w.st.toDrop ⊆ (violation id w).st.toDrop :=
    fun _ hx => List.mem_append_left _ hx
  have hreplace : ∀ field, w.st.toDrop ⊆
      (updateInterest env idx (replacePieceSet idx field w)).st.toDrop := fun field =>
    hsame _ ((leaves_replacePieceSet idx field w .doomed (by simp)).trans
      (leaves_updateInterest env idx _ .doomed (by simp)))
  have hleaves := leaves_dispatch sh env idx id first fast msg w
  by_cases hmsg : .doomed ∈ footprint msg
  · unfold dispatch
    cases msg with
    | bitfield bytes =>
        simp only
        split
        · split
          · exact hreplace _
          · exact hviolation
        · exact hviolation
    | haveAll =>
        simp only
        split
        · exact hreplace _
        · exact hviolation
    | haveNone =>
        simp only
        split
        · exact hreplace _
        · exact hviolation
    | piece _ _ _ => simp [footprint, blockAspects] at hblock
    | rejectRequest _ =>
        simp only
        split
        · exact fun _ hx => hx
        · exact hviolation
    | suggestPiece _ =>
        simp only
        split
        · exact fun _ hx => hx
        · exact hviolation
    | allowedFast _ =>
        simp only
        split
        · exact fun _ hx => hx
        · exact hviolation
    | _ => simp [footprint] at hmsg
  · exact hsame _ (hleaves _ hmsg)

/-- What a message can do to the books: destinations are learned from an extended message, on a
torrent that is not private, or some are banned, by a block. -/
theorem destinations_dispatch (h : Balanced sh w []) (env : Env) (idx id : Nat) (first fast : Bool)
    (msg : Message) :
    (sh.isPrivate = false ∧ isTalk msg = true ∧
      Learns w.st (dispatch sh env idx id first fast msg w).st
        (dispatch sh env idx id first fast msg w).st.toDrop) ∨
    ∃ ds, Bans ds w.st (dispatch sh env idx id first fast msg w).st
        (dispatch sh env idx id first fast msg w).st.toDrop ∧ (isTalk msg = true → ds = []) := by
  by_cases hmsg : .known ∈ footprint msg
  · cases msg with
    | piece index begin block =>
        obtain ⟨ds, hbans⟩ := bans_onBlock env idx index begin block h
        exact .inr ⟨ds, hbans, nofun⟩
    | extended extId payload =>
        rcases onExtended_cases sh env idx extId payload w with hleaves | ⟨hopen, l, heq⟩
        · refine .inr ⟨[], bans_nil (hleaves .known (by simp)) ?_, fun _ => rfl⟩
          have hdrops : (dispatch sh env idx id first fast (.extended extId payload) w).st.toDrop =
            w.st.toDrop := (hleaves .doomed (by simp)).toDrop
          rw [hdrops]
          exact fun _ hx => hx
        · refine .inl ⟨hopen, rfl, ?_⟩
          have heq : dispatch sh env idx id first fast (.extended extId payload) w =
            l.foldl (learn env) w := heq
          rw [heq]
          exact learns_foldl env l w
    | _ => simp [footprint] at hmsg
  · refine .inr ⟨[], bans_nil (leaves_dispatch sh env idx id first fast msg w _ hmsg) ?_,
      fun _ => rfl⟩
    exact queued_dispatch sh env idx id first fast msg w hmsg

theorem Learns.before (h : Learns w₁.st st' drops) (hknown : SameIn .known w w₁)
    (hdoomed : SameIn .doomed w w₁) : Learns w.st st' drops := by
  obtain ⟨hpeers, hbanned, hlocal, hoffences⟩ := hknown.known
  exact ⟨hpeers ▸ h.kept, fun d hd => by rw [← hpeers, ← hbanned, ← hlocal]; exact h.fresh d hd,
    hpeers ▸ h.size, hbanned ▸ h.banned, hlocal ▸ h.localDest, hoffences ▸ h.offences,
    hdoomed.toDrop ▸ h.queued⟩

theorem Learns.after (h : Learns st w₁.st w₁.st.toDrop) (hknown : SameIn .known w₁ w')
    (hdoomed : SameIn .doomed w₁ w') : Learns st w'.st w'.st.toDrop := by
  obtain ⟨hpeers, hbanned, hlocal, hoffences⟩ := hknown.known
  rw [hdoomed.toDrop]
  exact ⟨fun d source hd => by rw [hpeers]; exact h.kept d source hd,
    fun d hd => h.fresh d (by rw [← hpeers]; exact hd), fun hsize => by rw [hpeers]; exact h.size hsize,
    hbanned.trans h.banned, hlocal.trans h.localDest, hoffences.trans h.offences, h.queued⟩

/-- The peers queued for removal go to the thread. -/
theorem Learns.finish (h : Learns st w.st w.st.toDrop) (extra : List (Nat × Bool)) :
    Learns st (w.finish extra).1.st (w.finish extra).2.drops :=
  ⟨h.kept, h.fresh, h.size, h.banned, h.localDest, h.offences,
    fun _ hx => List.mem_append_right _ (h.queued hx)⟩

theorem Bans.finish (h : Bans ds st w.st w.st.toDrop) (extra : List (Nat × Bool)) :
    Bans ds st (w.finish extra).1.st (w.finish extra).2.drops :=
  ⟨h.lookup, h.size, h.banned, h.localDest, h.offences,
    fun p hp hd => List.mem_append_right _ (h.doomed p hp hd),
    fun _ hx => List.mem_append_right _ (h.queued hx)⟩

/-- A critical section that leaves books and queue alone. -/
theorem bans_same (hknown : SameIn .known w w') (hdoomed : SameIn .doomed w w') :
    Bans [] w.st w'.st w'.st.toDrop := by
  refine bans_nil hknown ?_
  rw [hdoomed.toDrop]
  exact fun _ hx => hx

/-- What the critical section of a message can do to the books, and whom it leaves its thread to
drop. -/
theorem destinations_onMessage (hacc : e.Accounts sh) (env : Env) (id : Nat) (msg : Message) :
    (sh.isPrivate = false ∧ isTalk msg = true ∧
      Learns e.st (onMessage sh env id msg e).1.st (onMessage sh env id msg e).2.drops) ∨
    ∃ ds, Bans ds e.st (onMessage sh env id msg e).1.st (onMessage sh env id msg e).2.drops ∧
      (isTalk msg = true → ds = []) := by
  obtain ⟨w, w₁, w₂, hentered, hcase, hafter, heq⟩ := onMessage_inv hacc env id msg
  rw [heq]
  have hknown := hafter .known (by simp)
  have hdoomed := hafter .doomed (by simp)
  have henter := hentered.rest .known (by simp)
  have hdrops := hentered.rest .doomed (by simp)
  rcases hcase with ⟨-, rfl⟩ | ⟨idx, peer, first, fast, -, -, rfl⟩
  · exact .inr ⟨[], (bans_same (w := e.enter) (henter.trans hknown) (hdrops.trans hdoomed)).finish [],
      fun _ => rfl⟩
  · rcases destinations_dispatch hentered.balanced env idx id first fast msg with
      ⟨hopen, htalk, hlearns⟩ | ⟨ds, hbans, htalk⟩
    · exact .inl ⟨hopen, htalk,
        ((hlearns.before (w := e.enter) henter hdrops).after hknown hdoomed).finish []⟩
    · exact .inr ⟨ds, ((hbans.before (w := e.enter) henter hdrops
        (hentered.rest .table (by simp))).after hknown hdoomed).finish [], htalk⟩

theorem bans_maintain (env : Env) (e : Engine) :
    Bans [] e.st (maintain env e).1.st (maintain env e).2.drops := by
  obtain ⟨w, extra, hleaves, heq⟩ := leaves_maintain env e
  rw [heq]
  exact (bans_same (w := e.enter) (hleaves .known (by simp)) (hleaves .doomed (by simp))).finish extra

/-! ## Critical sections -/

/-- Books and seats are in order after bans. -/
theorem Bans.booked (h : Bans ds st st' drops) (hst : Booked st)
    (hdests : ∀ d, st'.peers.countP (·.dest = d) = st.peers.countP (·.dest = d)) : Booked st' := by
  have hknown : ∀ d ∈ st'.knownPeers, d ∉ ds ∧ d ∈ st.knownPeers := by
    intro d hd
    have hd := AList.lookup_isSome.2 hd
    rw [h.lookup] at hd
    split at hd
    · cases hd
    · rename_i hds
      exact ⟨hds, AList.lookup_isSome.1 hd⟩
  refine ⟨h.size.trans hst.size, fun d hd hin => ?_, fun d hd hin => ?_, ?_, fun d => ?_⟩
  · rcases (h.banned d).1 hd with hds | hd
    · exact (hknown d hin).1 hds
    · exact hst.banned d hd (hknown d hin).2
  · exact hst.own d (h.localDest ▸ hd) (hknown d hin).2
  · rw [h.offences]
    exact hst.offences
  · rw [hdests]
    exact hst.dests d

theorem Learns.booked (h : Learns st st' drops) (hst : Booked st)
    (hdests : ∀ d, st'.peers.countP (·.dest = d) = st.peers.countP (·.dest = d)) : Booked st' := by
  refine ⟨h.size hst.size, fun d hd hin => ?_, fun d hd hin => ?_, ?_, fun d => ?_⟩
  · rw [h.banned] at hd
    rcases h.fresh d hin with hin | ⟨hban, -⟩
    · exact hst.banned d hd hin
    · exact hban hd
  · rw [h.localDest] at hd
    rcases h.fresh d hin with hin | ⟨-, hown⟩
    · exact hst.own d hd hin
    · exact hown hd
  · rw [h.offences]
    exact hst.offences
  · rw [hdests]
    exact hst.dests d

/-- Handlers seat nobody. -/
theorem SameIn.dests (h : SameIn .table w w') (d : DestHash) :
    w'.st.peers.countP (·.dest = d) = w.st.peers.countP (·.dest = d) := by
  have hcount : ∀ l : List Peer, l.countP (·.dest = d) = (l.map (·.dest)).countP (· = d) := by
    intro l
    rw [List.countP_map]
    rfl
  have hviews : w'.st.peers.map (·.dest) = w.st.peers.map (·.dest) := h.views
  rw [hcount, hviews, ← hcount]

theorem table_onMessage (sh : Shared) (env : Env) (id : Nat) (msg : Message) (e : Engine) :
    ∃ w, SameIn .table e.enter w ∧ onMessage sh env id msg e = w.finish [] := by
  obtain ⟨w, hleaves, heq⟩ := leaves_onMessage sh env id msg e
  refine ⟨w, hleaves .table ?_, heq⟩
  cases msg <;> simp [footprint, blockAspects]

theorem Booked.onMessage (h : Booked e.st) (hacc : e.Accounts sh) (env : Env) (id : Nat)
    (msg : Message) : Booked (onMessage sh env id msg e).1.st := by
  have hdests : ∀ d, (Torrent.onMessage sh env id msg e).1.st.peers.countP (·.dest = d) =
      e.st.peers.countP (·.dest = d) := by
    obtain ⟨w, htable, heq⟩ := table_onMessage sh env id msg e
    rw [heq]
    exact htable.dests
  rcases destinations_onMessage hacc env id msg with ⟨-, -, hlearns⟩ | ⟨ds, hbans, -⟩
  · exact hlearns.booked h hdests
  · exact hbans.booked h hdests

theorem Booked.maintain (h : Booked e.st) (env : Env) : Booked (maintain env e).1.st := by
  refine (bans_maintain env e).booked h ?_
  obtain ⟨w, extra, hleaves, heq⟩ := leaves_maintain env e
  rw [heq]
  exact (hleaves .table (by simp)).dests

/-- Dropping entries makes a map no larger. -/
theorem length_retain {κ ν : Type} [DecidableEq κ] (m : Map κ ν) (keep : ν → Bool) :
    (State.retain m keep).keys.length ≤ m.keys.length := by
  unfold State.retain
  suffices hfold : ∀ (l : List κ) (m : Map κ ν), (l.foldl
      (fun m k => if (m.lookup k).any keep then m else m.erase k) m).keys.length ≤ m.keys.length from
    hfold m.keys m
  intro l
  induction l with
  | nil => exact fun m => le_rfl
  | cons k l ih =>
      intro m
      refine (ih _).trans ?_
      simp only
      split
      · exact le_rfl
      · rw [AList.keys_erase]
        exact List.erase_sublist.length_le

theorem length_offences_penalise (h : st.offences.keys.length ≤ MAX_KNOWN_PEERS) (dest : DestHash)
    (now : Nat) : (st.penalise dest now).offences.keys.length ≤ MAX_KNOWN_PEERS := by
  have hinsert : ∀ (m : Map DestHash (Nat × Nat)) v, dest ∈ m ∨ m.keys.length < MAX_KNOWN_PEERS →
      m.keys.length ≤ MAX_KNOWN_PEERS → (m.insert dest v).keys.length ≤ MAX_KNOWN_PEERS := by
    intro m v hroom hsize
    rw [AList.keys_insert, List.length_cons]
    rcases hroom with hin | hlt
    · have hpos := List.length_pos_of_mem (AList.mem_keys.1 hin)
      rw [List.length_erase_of_mem (AList.mem_keys.1 hin)]
      omega
    · have := (List.erase_sublist (a := dest) (l := m.keys)).length_le
      omega
  unfold State.penalise
  simp only
  by_cases hfull : (st.offences.keys.length ≥ MAX_KNOWN_PEERS && dest ∉ st.offences) = true
  · simp only [hfull, if_true, Bool.true_and]
    have hretain := (length_retain st.offences fun e => now < e.2).trans h
    split
    · exact hretain
    · rename_i hroom
      exact hinsert _ _ (.inr (by simpa using hroom)) hretain
  · simp only [hfull, if_false, Bool.false_and, Bool.false_eq_true]
    refine hinsert _ _ ?_ h
    simp only [ge_iff_le, Bool.and_eq_true, decide_eq_true_eq, not_and, not_not] at hfull
    by_cases hin : dest ∈ st.offences
    · exact .inl hin
    · exact .inr (lt_of_not_ge fun hge => hin (hfull hge))

theorem Booked.dropPeer (h : Booked st) (now id : Nat) (forCause : Bool) :
    Booked (dropPeer now id forCause st) := by
  rcases dropPeer_cases now id forCause st with ⟨-, heq⟩ | ⟨peer, rest, hperm, -, heq⟩
  · rw [heq]
    exact h
  · rw [heq]
    refine ⟨h.size, h.banned, h.own, ?_, fun d => le_trans ?_ (h.dests d)⟩
    · cases forCause with
      | true => exact length_offences_penalise h.offences peer.dest now
      | false => exact h.offences
    · rw [← hperm.countP_eq, List.countP_cons]
      exact Nat.le_add_right _ _

theorem Booked.registerPeer (h : Booked st) (sh : Shared) (env : Env) (dest : DestHash)
    (fast : Bool) : Booked (registerPeer sh env dest fast st).1 := by
  rcases registerPeer_cases sh env dest fast st with ⟨r, heq⟩ | ⟨known, hknown, -, hdest, -, heq⟩
  · rw [heq]
    exact h
  · have hnext : Booked { st with nextId := st.nextId + 1 } :=
      ⟨h.size, h.banned, h.own, h.offences, h.dests⟩
    have hremember := hnext.rememberPeerFrom env.rank dest .trusted
    obtain ⟨known', heq'⟩ := State.rememberPeerFrom_eq { st with nextId := st.nextId + 1 } env.rank
      dest .trusted
    rw [heq'] at hknown hremember
    rw [heq, hknown]
    refine ⟨hremember.size, hremember.banned, hremember.own, hremember.offences, fun d => ?_⟩
    rw [List.countP_append, List.countP_singleton]
    by_cases hd : dest = d
    · subst hd
      simpa [newPeer] using hdest
    · simpa [newPeer, hd] using h.dests d

theorem Booked.addPeers (h : Booked st) (rank : DestHash → Nat) (l : List DestHash) :
    Booked (addPeers rank l st) := by
  unfold Torrent.addPeers
  induction l generalizing st with
  | nil => exact h
  | cons dest l ih => exact ih (h.rememberPeerFrom rank dest .trusted)

theorem Booked.setLocalDest (h : Booked st) (dest : DestHash) : Booked (setLocalDest dest st) := by
  have herase : ∀ d ∈ st.knownPeers.erase dest, d ≠ dest ∧ d ∈ st.knownPeers := by
    intro d hd
    exact AList.mem_erase.1 hd
  refine ⟨?_, fun d hd hin => ?_, fun d hd hin => ?_, h.offences, h.dests⟩
  · refine le_trans ?_ h.size
    show (st.knownPeers.erase dest).keys.length ≤ _
    rw [AList.keys_erase]
    exact List.erase_sublist.length_le
  · exact h.banned d hd (herase d hin).2
  · exact (herase d hin).1 (Option.some.inj hd).symm

/-- Every critical section keeps the books in order. -/
theorem Booked.step (h : Booked e.st) (hacc : e.Accounts sh) (ev : Event) :
    Booked (Engine.step sh ev e).st := by
  cases ev with
  | register env dest fast => exact h.registerPeer sh env dest fast
  | message env id msg => exact h.onMessage hacc env id msg
  | maintain env => exact h.maintain env
  | drop now id forCause => exact h.dropPeer now id forCause
  | addPeers rank peers => exact h.addPeers rank peers
  | setLocalDest dest => exact h.setLocalDest dest
  | _ => exact ⟨h.size, h.banned, h.own, h.offences, h.dests⟩

/-! ## What a critical section keeps -/

/-- A ban is for good, and a trusted destination is forgotten only by a ban. -/
structure Loyal (st st' : State) : Prop where
  banned : st.banned ⊆ st'.banned
  trusted : ∀ d, st.knownPeers.lookup d = some .trusted →
    st'.knownPeers.lookup d = some .trusted ∨ d ∉ st.banned ∧ d ∈ st'.banned

theorem Loyal.of_eq (hknown : st'.knownPeers = st.knownPeers) (hbanned : st'.banned = st.banned) :
    Loyal st st' := by
  refine ⟨fun _ hd => ?_, fun d hd => .inl ?_⟩
  · rw [hbanned]
    exact hd
  · rw [hknown]
    exact hd

theorem Learns.loyal (h : Learns st st' drops) : Loyal st st' := by
  refine ⟨fun _ hd => ?_, fun d hd => .inl (h.kept d _ hd)⟩
  rw [h.banned]
  exact hd

theorem Bans.loyal (h : Bans ds st st' drops) (hst : Booked st) : Loyal st st' := by
  refine ⟨fun d hd => (h.banned d).2 (.inr hd), fun d hd => ?_⟩
  by_cases hds : d ∈ ds
  · refine .inr ⟨fun hban => hst.banned d hban ?_, (h.banned d).2 (.inl hds)⟩
    exact AList.lookup_isSome.1 (by rw [hd]; rfl)
  · left
    rw [h.lookup, if_neg hds]
    exact hd

theorem loyal_addPeers (rank : DestHash → Nat) (l : List DestHash) (st : State) :
    Loyal st (addPeers rank l st) := by
  have htrusted : ∀ (l : List DestHash) (st : State) (d : DestHash),
      st.knownPeers.lookup d = some .trusted →
      (addPeers rank l st).knownPeers.lookup d = some .trusted := by
    intro l
    induction l with
    | nil => exact fun _ _ h => h
    | cons dest l ih => exact fun st d h => ih _ d (trusted_rememberPeerFrom h)
  refine ⟨fun d hd => ?_, fun d hd => .inl (htrusted l st d hd)⟩
  obtain ⟨known, heq⟩ := addPeers_eq rank l st
  rw [heq]
  exact hd

theorem loyal_registerPeer (sh : Shared) (env : Env) (dest : DestHash) (fast : Bool) (st : State) :
    Loyal st (registerPeer sh env dest fast st).1 := by
  rcases registerPeer_cases sh env dest fast st with ⟨r, heq⟩ | ⟨known, hknown, -, -, -, heq⟩
  · rw [heq]
    exact .of_eq rfl rfl
  · rw [heq]
    refine ⟨fun _ hd => hd, fun d hd => .inl ?_⟩
    rw [hknown]
    exact trusted_rememberPeerFrom hd

/-- Every critical section is loyal, but for our own destination. -/
theorem loyal_step (h : Booked e.st) (hacc : e.Accounts sh) (ev : Event) :
    Loyal e.st (Engine.step sh ev e).st ∨
    ∃ dest, ev = .setLocalDest dest ∧ (Engine.step sh ev e).st = setLocalDest dest e.st := by
  cases ev with
  | register env dest fast => exact .inl (loyal_registerPeer sh env dest fast e.st)
  | message env id msg =>
      rcases destinations_onMessage hacc env id msg with ⟨-, -, hlearns⟩ | ⟨ds, hbans, -⟩
      · exact .inl hlearns.loyal
      · exact .inl (hbans.loyal h)
  | maintain env => exact .inl ((bans_maintain env e).loyal h)
  | drop now id forCause =>
      refine .inl ?_
      show Loyal e.st (dropPeer now id forCause e.st)
      rcases dropPeer_cases now id forCause e.st with ⟨-, heq⟩ | ⟨peer, rest, -, -, heq⟩
      · rw [heq]
        exact .of_eq rfl rfl
      · rw [heq]
        exact .of_eq rfl rfl
  | addPeers rank peers => exact .inl (loyal_addPeers rank peers e.st)
  | setLocalDest dest => exact .inr ⟨dest, rfl, rfl⟩
  | _ => exact .inl (.of_eq rfl rfl)

/-- A control event bans nobody and queues nobody. -/
theorem books_control (sh : Shared) (e : Engine) (ev : Event) (hctl : ev.isControl = true) :
    (Engine.step sh ev e).st.toDrop = e.st.toDrop ∧ (Engine.step sh ev e).st.banned = e.st.banned := by
  cases ev with
  | register _ _ _ => cases hctl
  | message _ _ _ => cases hctl
  | maintain _ => cases hctl
  | drop now id forCause =>
      rcases dropPeer_cases now id forCause e.st with ⟨-, heq⟩ | ⟨peer, rest, -, -, heq⟩
      · rw [Engine.step, Engine.modifyState, heq]
        exact ⟨rfl, rfl⟩
      · rw [Engine.step, Engine.modifyState, heq]
        exact ⟨rfl, rfl⟩
  | addPeers rank peers =>
      obtain ⟨known, heq⟩ := addPeers_eq rank peers e.st
      rw [Engine.step, Engine.modifyState, heq]
      exact ⟨rfl, rfl⟩
  | _ => exact ⟨rfl, rfl⟩

/-- Whom a critical section seats: nobody banned, and nobody above the limit. -/
theorem seats_step (sh : Shared) (ev : Event) (e : Engine) :
    ((Engine.step sh ev e).st.peers.length ≤ e.st.peers.length ∨
      ∀ n, e.st.maxPeers = some n → (Engine.step sh ev e).st.peers.length ≤ n) ∧
    ∀ p ∈ (Engine.step sh ev e).st.peers, p.dest ∈ e.st.banned →
      ∃ q ∈ e.st.peers, q.id = p.id ∧ q.dest = p.dest := by
  have hsame : ∀ st' : State, (st'.peers.map fun p => (p.id, p.dest)) =
      (e.st.peers.map fun p => (p.id, p.dest)) →
      (st'.peers.length ≤ e.st.peers.length ∨
        ∀ n, e.st.maxPeers = some n → st'.peers.length ≤ n) ∧
      ∀ p ∈ st'.peers, p.dest ∈ e.st.banned → ∃ q ∈ e.st.peers, q.id = p.id ∧ q.dest = p.dest := by
    intro st' hpeers
    refine ⟨.inl (le_of_eq ?_), fun p hp _ => ?_⟩
    · simpa using congrArg List.length hpeers
    · have hmem := List.mem_map_of_mem (f := fun p : Peer => (p.id, p.dest)) hp
      rw [hpeers] at hmem
      obtain ⟨q, hq, heq⟩ := List.mem_map.1 hmem
      exact ⟨q, hq, (Prod.mk.inj heq).1, (Prod.mk.inj heq).2⟩
  cases ev with
  | register env dest fast =>
      show _ ∧ ∀ p ∈ (registerPeer sh env dest fast e.st).1.peers, _
      rcases registerPeer_cases sh env dest fast e.st with ⟨r, heq⟩ | ⟨known, -, hban, -, hfull, heq⟩
      · simp only [Engine.step, Engine.modifyState, heq]
        exact hsame e.st rfl
      · simp only [Engine.step, Engine.modifyState, heq]
        refine ⟨.inr fun n hn => ?_, fun p hp hbanned => ?_⟩
        · rw [List.length_append, List.length_singleton]
          exact hfull n hn
        · rcases List.mem_append.1 hp with hp | hp
          · exact ⟨p, hp, rfl, rfl⟩
          · rw [List.mem_singleton.1 hp] at hbanned
            exact absurd hbanned hban
  | message env id msg =>
      obtain ⟨w, htable, heq⟩ := table_onMessage sh env id msg e
      rw [Engine.step, heq]
      exact hsame _ htable.peers
  | maintain env =>
      obtain ⟨w, extra, hleaves, heq⟩ := leaves_maintain env e
      rw [Engine.step, heq]
      exact hsame _ (hleaves .table (by simp)).peers
  | drop now id forCause =>
      rcases dropPeer_cases now id forCause e.st with ⟨-, heq⟩ | ⟨peer, rest, hperm, -, heq⟩
      · simp only [Engine.step, Engine.modifyState, heq]
        exact hsame e.st rfl
      · simp only [Engine.step, Engine.modifyState, heq]
        refine ⟨.inl ?_, fun p hp _ => ⟨p, hperm.subset (List.mem_cons_of_mem _ hp), rfl, rfl⟩⟩
        rw [← hperm.length_eq, List.length_cons]
        exact Nat.le_succ _
  | addPeers rank peers =>
      obtain ⟨known, heq⟩ := addPeers_eq rank peers e.st
      simp only [Engine.step, Engine.modifyState, heq]
      exact hsame _ rfl
  | _ => exact hsame _ rfl

end Clove.Torrent
