import Clove.Torrent.Delivery
import Clove.Torrent.Footprint

/-!
# Choke slots

A slot is given by a choke round and taken back by a round, by the peer losing interest, or
with the peer.  A round decides by id, so what it leaves behind depends on ids being unique:
`Engine.Seated` is carried along, and `Slotted` says that no more peers are unchoked than
there are slots and that all of them are interested.
-/

namespace Clove.Torrent

open Wire (Message BlockRequest)

/-! ## Seats -/

variable {sh : Shared} {e : Engine} {w w' : Work}

theorem Engine.Seated.registerPeer (h : e.Seated sh) (env : Env) (dest : DestHash) (fast : Bool) :
    (e.modifyState fun st => (registerPeer sh env dest fast st).1).Seated sh := by
  cases hreg : (Torrent.registerPeer sh env dest fast e.st).2 with
  | ok id => exact (registered_registerPeer hreg).2.seated h
  | error r =>
      rcases registerPeer_cases sh env dest fast e.st with ⟨_, heq⟩ | ⟨_, _, _, _, _, heq⟩
      · rw [Engine.modifyState, heq]
        exact h
      · rw [heq] at hreg
        cases hreg

/-- A change of the state outside table and id counter that keeps the pieces. -/
theorem Engine.Seated.of_same (h : e.Seated sh) {st : State}
    (hpieces : SamePieces e.st.picker st.picker) (hpeers : st.peers = e.st.peers)
    (hnext : st.nextId = e.st.nextId) : (e.modifyState fun _ => st).Seated sh := by
  have hids : st.ids = e.st.ids := by rw [State.ids, State.ids, hpeers]
  refine ⟨⟨hpieces.toLayout.trans h.fits.layout, hpieces.len.trans h.fits.len⟩, ?_, ?_⟩
  · exact hids.symm ▸ h.nodup
  · show ∀ id ∈ st.ids, id < st.nextId
    rw [hids, hnext]
    exact h.fresh

/-- Every critical section keeps ids unique and below the counter. -/
theorem Engine.Seated.step (h : e.Seated sh) (ev : Event) : (Engine.step sh ev e).Seated sh := by
  cases ev with
  | register env dest fast => exact h.registerPeer env dest fast
  | message env id msg =>
      obtain ⟨news, hsection⟩ := section_onMessage env id msg h
      exact hsection.seated h
  | maintain env =>
      obtain ⟨news, hsection⟩ := section_maintain env h
      exact hsection.seated h
  | drop now id forCause => exact (dropped_dropPeer now id forCause h.nodup).seated h
  | addPeers rank peers =>
      obtain ⟨hpk, hpeers, hnext⟩ : State.Untouched e.st (addPeers rank peers e.st) :=
        State.Untouched.foldl
          (fun st p => State.untouched_rememberPeerFrom st rank p .trusted) peers e.st
      exact h.of_same (.of_eq (congrArg Picker.toLayout hpk) (congrArg Picker.haveField hpk))
        hpeers hnext
  | setPiecePriorities l => exact h.of_same (.of_eq rfl rfl) rfl rfl
  | setMode m => exact h.of_same (.of_eq rfl rfl) rfl rfl
  | setLocalDest dest => exact h.of_same (.refl _) rfl rfl
  | setMaxPeers n => exact h.of_same (.refl _) rfl rfl
  | setChokeInterval n => exact h.of_same (.refl _) rfl rfl
  | setKeepaliveInterval n => exact h.of_same (.refl _) rfl rfl
  | setIdleTimeout n => exact h.of_same (.refl _) rfl rfl
  | setRequestTimeout n => exact h.of_same (.refl _) rfl rfl

/-- A handler that leaves an aspect alone leaves the ids alone. -/
theorem SameIn.nodup {a : Aspect} (h : SameIn a w w') (hnodup : w.st.ids.Nodup) :
    w'.st.ids.Nodup := by
  have hids : w'.st.ids = w.st.ids := h.ids
  rw [hids]
  exact hnodup

/-! ## Slots -/

/-- No more peers are unchoked than there are slots, and all of them are interested. -/
structure Slotted (st : State) : Prop where
  pos : 1 ≤ st.choker.maxUnchoked
  bound : st.peers.countP (fun p => !p.weChoke) ≤ st.choker.maxUnchoked
  interested : ∀ p ∈ st.peers, p.weChoke = false → p.theyInterested = true

/-- Slots depend on who is choked and interested, and on nothing else. -/
theorem Slotted.of_eq {st st' : State} (h : Slotted st)
    (hpeers : (st'.peers.map fun p => (p.weChoke, p.theyInterested)) =
      st.peers.map fun p => (p.weChoke, p.theyInterested))
    (hmax : st'.choker.maxUnchoked = st.choker.maxUnchoked) : Slotted st' := by
  have hcount : ∀ l : List Peer, l.countP (fun p => !p.weChoke) =
      (l.map fun p => (p.weChoke, p.theyInterested)).countP fun x => !x.1 := by
    intro l
    rw [List.countP_map]
    rfl
  refine ⟨hmax ▸ h.pos, ?_, fun p hp hchoke => ?_⟩
  · rw [hcount, hpeers, ← hcount, hmax]
    exact h.bound
  · have hmem := List.mem_map_of_mem (f := fun p : Peer => (p.weChoke, p.theyInterested)) hp
    rw [hpeers] at hmem
    obtain ⟨q, hq, heq⟩ := List.mem_map.1 hmem
    obtain ⟨hc, hi⟩ := Prod.mk.inj heq
    rw [← hi]
    exact h.interested q hq (hc.trans hchoke)

theorem Slotted.same (h : Slotted w.st) (hsame : SameIn .choking w w') : Slotted w'.st :=
  h.of_eq hsame.views hsame.books

/-- The peers after a list of ids has been choked, or unchoked. -/
theorem peers_setChokes (choke : Bool) (l : List Nat) (hnodup : w.st.ids.Nodup) :
    (l.foldl (setChoke choke) w).st.peers =
      w.st.peers.map fun p => if p.id ∈ l then { p with weChoke := choke } else p := by
  induction l generalizing w with
  | nil => simp
  | cons id l ih =>
      have hone : (setChoke choke w id).st.peers =
          w.st.peers.map fun p => if p.id = id then { p with weChoke := choke } else p := by
        unfold setChoke
        split
        · rename_i hnone
          symm
          refine (List.map_congr_left fun p hp => ?_).trans (List.map_id _)
          have := List.findIdx?_eq_none_iff.1 hnone p hp
          simp_all
        · rename_i idx hfind
          obtain ⟨hlt, hid, -⟩ := List.findIdx?_eq_some_iff_getElem.1 hfind
          have hidx : w.st.peers[idx]? = some w.st.peers[idx] := List.getElem?_eq_getElem hlt
          simp only [Work.push, Work.modifyPeer, Lists.modify_eq_map hnodup hidx,
            of_decide_eq_true hid]
      have hids : (setChoke choke w id).st.ids = w.st.ids := (quiet_setChoke choke id hnodup).ids
      rw [List.foldl_cons, ih (hids.symm ▸ hnodup), hone, List.map_map]
      refine List.map_congr_left fun p _ => ?_
      by_cases hp : p.id = id
      · by_cases hl : id ∈ l <;> simp [hp, hl]
      · by_cases hl : p.id ∈ l <;> simp [hp, hl]

/-- The ids a round chooses. -/
def chosenBy (w : Work) : List Nat :=
  Choker.chosen w.st.choker.maxUnchoked (w.st.choker.round + 1)
    (w.st.peers.map (snapshot w.st.picker.isComplete))

/-- A round unchokes the peers it chooses that are choked, and chokes the others. -/
theorem mem_plan (hnodup : w.st.ids.Nodup) {p : Peer} (hp : p ∈ w.st.peers) :
    (p.id ∈ (w.st.choker.plan (w.st.peers.map (snapshot w.st.picker.isComplete))).2.unchoke ↔
        p.id ∈ chosenBy w ∧ p.weChoke = true) ∧
      (p.id ∈ (w.st.choker.plan (w.st.peers.map (snapshot w.st.picker.isComplete))).2.choke ↔
        p.id ∉ chosenBy w ∧ p.weChoke = false) := by
  have hmem : ∀ f : PeerSnapshot → Bool,
      p.id ∈ ((w.st.peers.map (snapshot w.st.picker.isComplete)).filter f).map (·.id) ↔
        f (snapshot w.st.picker.isComplete p) = true := by
    intro f
    constructor
    · intro h
      obtain ⟨s, hs, hid⟩ := List.mem_map.1 h
      obtain ⟨hs, hf⟩ := List.mem_filter.1 hs
      obtain ⟨q, hq, rfl⟩ := List.mem_map.1 hs
      rwa [List.inj_on_of_nodup_map hnodup hq hp hid] at hf
    · intro hf
      exact List.mem_map.2 ⟨_, List.mem_filter.2 ⟨List.mem_map_of_mem hp, hf⟩, rfl⟩
  constructor
  · refine (hmem _).trans ?_
    rw [Bool.and_eq_true]
    exact and_congr decide_eq_true_iff (by simp [snapshot])
  · refine (hmem _).trans ?_
    rw [Bool.and_eq_true]
    exact and_congr decide_eq_true_iff (by simp [snapshot])

/-- After a round the peers with a slot are those it chose. -/
theorem choking_runChoker (hnodup : w.st.ids.Nodup) :
    ((runChoker w).st.peers.map fun p => (p.weChoke, p.theyInterested)) =
      w.st.peers.map fun p => (decide (p.id ∉ chosenBy w), p.theyInterested) := by
  have hround : ({ w with st := { w.st with
      peers := w.st.peers.map fun p =>
        { p with uploadedAtRound := p.uploaded, downloadedAtRound := p.downloaded }
      choker := (w.st.choker.plan (w.st.peers.map (snapshot w.st.picker.isComplete))).1 } }
      : Work).st.ids = w.st.ids := by
    simp [State.ids, Function.comp_def]
  unfold runChoker
  simp only
  rw [peers_setChokes true, peers_setChokes false _ (hround.symm ▸ hnodup)]
  · simp only [List.map_map]
    refine List.map_congr_left fun p hp => ?_
    obtain ⟨hunchoke, hchoke⟩ := mem_plan hnodup hp
    simp only [Function.comp]
    by_cases hin : p.id ∈ chosenBy w
    · cases hc : p.weChoke <;> simp [hunchoke, hchoke, hin, hc]
    · cases hc : p.weChoke <;> simp [hunchoke, hchoke, hin, hc]
  · rw [(quiet_setChokes false _ (hround.symm ▸ hnodup)).ids]
    exact hround.symm ▸ hnodup

theorem maxUnchoked_runChoker (w : Work) :
    (runChoker w).st.choker.maxUnchoked = w.st.choker.maxUnchoked := by
  have hset : ∀ choke (w : Work) id, (setChoke choke w id).st.choker = w.st.choker := by
    intro choke w id
    unfold setChoke
    split <;> rfl
  have hall : ∀ choke (l : List Nat) (w : Work),
      (l.foldl (setChoke choke) w).st.choker = w.st.choker := by
    intro choke l
    induction l with
    | nil => exact fun w => rfl
    | cons id l ih => exact fun w => (ih _).trans (hset choke w id)
  unfold runChoker
  simp only
  rw [hall, hall]
  rfl

/-- Whatever the slots were, a round leaves them in order. -/
theorem slotted_runChoker (hpos : 1 ≤ w.st.choker.maxUnchoked) (hnodup : w.st.ids.Nodup) :
    Slotted (runChoker w).st := by
  have hmax := maxUnchoked_runChoker w
  have hchoking := choking_runChoker hnodup
  refine ⟨hmax ▸ hpos, ?_, fun p hp hchoke => ?_⟩
  · have hcount : (runChoker w).st.peers.countP (fun p => !p.weChoke) =
        (w.st.ids.filter (· ∈ chosenBy w)).length := by
      have hleft : ∀ l : List Peer, l.countP (fun p => !p.weChoke) =
          (l.map fun p => (p.weChoke, p.theyInterested)).countP fun x => !x.1 := by
        intro l
        rw [List.countP_map]
        rfl
      rw [hleft, hchoking, List.countP_map, State.ids, List.filter_map, List.length_map,
        ← List.countP_eq_length_filter]
      refine List.countP_congr fun p _ => ?_
      simp
    rw [hcount, hmax]
    have hsub : (w.st.ids.filter (· ∈ chosenBy w)).length ≤ (chosenBy w).length := by
      refine (List.Nodup.subperm (hnodup.filter _) fun id hid => ?_).length_le
      exact of_decide_eq_true (List.mem_filter.1 hid).2
    exact hsub.trans (Choker.length_chosen hpos)
  · have hmem := List.mem_map_of_mem (f := fun p : Peer => (p.weChoke, p.theyInterested)) hp
    rw [hchoking] at hmem
    obtain ⟨q, hq, heq⟩ := List.mem_map.1 hmem
    obtain ⟨hc, hi⟩ := Prod.mk.inj heq
    rw [hchoke, decide_eq_false_iff_not, not_not] at hc
    obtain ⟨s, hs, hinterested, hid⟩ := Choker.interested_of_mem_chosen hc
    obtain ⟨r, hr, rfl⟩ := List.mem_map.1 hs
    obtain rfl := List.inj_on_of_nodup_map hnodup hr hq hid
    exact hi ▸ hinterested

/-! ## Handlers -/

theorem Slotted.considerRound (h : Slotted w.st) (hnodup : w.st.ids.Nodup) (env : Env) :
    Slotted (considerRound env w).st := by
  unfold Torrent.considerRound
  split
  · exact slotted_runChoker h.pos hnodup
  · exact h

/-- A peer's interest is noted, and if it is lost the peer has no slot. -/
theorem Slotted.markInterested (h : Slotted w.st) (idx : Nat) (b : Bool)
    (hlost : b = false → ∀ p, w.st.peers[idx]? = some p → p.weChoke = true) :
    Slotted (w.modifyPeer idx fun p => { p with theyInterested := b }).st := by
  refine ⟨h.pos, ?_, fun p hp hchoke => ?_⟩
  · have hmap : ∀ l : List Peer, (l.modify idx fun p => { p with theyInterested := b }).map (·.weChoke) =
        l.map (·.weChoke) := fun l => Lists.map_modify_of_eq (by intro _; rfl) _ _
    have hcount : ∀ l : List Peer, l.countP (fun p => !p.weChoke) =
        (l.map (·.weChoke)).countP fun c => !c := by
      intro l
      rw [List.countP_map]
      rfl
    refine le_of_eq_of_le ?_ h.bound
    exact (hcount _).trans ((congrArg _ (hmap _)).trans (hcount _).symm)
  · obtain ⟨j, hj⟩ := List.mem_iff_getElem?.1 hp
    have hj : (w.st.peers.modify idx fun p => { p with theyInterested := b })[j]? = some p := hj
    rw [List.getElem?_modify] at hj
    obtain ⟨q, hq, rfl⟩ := Option.map_eq_some_iff.1 hj
    by_cases hidx : idx = j
    · subst hidx
      simp only [if_true] at hchoke ⊢
      cases b with
      | true => rfl
      | false =>
          rw [hlost rfl q hq] at hchoke
          cases hchoke
    · simp only [if_neg hidx] at hchoke ⊢
      exact h.interested q (List.mem_of_getElem? hq) hchoke

theorem Slotted.onInterested (h : Slotted w.st) (hnodup : w.st.ids.Nodup) (idx : Nat) :
    Slotted (onInterested idx w).st := by
  have hmark := h.markInterested idx true nofun
  unfold Torrent.onInterested
  simp only
  split
  · exact slotted_runChoker hmark.pos
      ((leaves_markInterested true idx w .table (by simp)).nodup hnodup)
  · exact hmark

/-- Choking a peer gives its slot back. -/
theorem Slotted.choke (h : Slotted w.st) (idx : Nat) :
    Slotted (w.modifyPeer idx fun p => { p with weChoke := true }).st := by
  refine ⟨h.pos, ?_, fun p hp hchoke => ?_⟩
  · by_cases hlt : idx < w.st.peers.length
    · have := Lists.countP_modify (p := fun p : Peer => !p.weChoke)
        (f := fun p => { p with weChoke := true }) hlt
      have hbound := h.bound
      simp only [Work.modifyPeer, Bool.not_true, Bool.false_eq_true, if_false] at this ⊢
      omega
    · have heq : w.st.peers.modify idx (fun p => { p with weChoke := true }) = w.st.peers :=
        List.modify_eq_self (by omega)
      show (w.st.peers.modify idx _).countP _ ≤ _
      rw [heq]
      exact h.bound
  · rcases Lists.mem_modify hp with hp | ⟨q, -, rfl⟩
    · exact h.interested p hp hchoke
    · cases hchoke

theorem Slotted.onNotInterested (h : Slotted w.st) (idx : Nat) :
    Slotted (onNotInterested idx w).st := by
  unfold Torrent.onNotInterested
  split
  · exact h
  · rename_i peer hidx
    simp only
    split
    · rename_i hchoked
      refine h.markInterested idx false fun _ p hp => ?_
      rw [hidx] at hp
      exact Option.some.inj hp ▸ hchoked
    · -- losing interest and being choked commute
      have hchoke := h.choke idx
      have hmark := hchoke.markInterested idx false fun _ p hp => by
        rw [Work.getElem?_modifyPeer hidx] at hp
        exact Option.some.inj hp ▸ rfl
      have heq : (w.st.peers.modify idx fun p => { p with weChoke := true }).modify idx
          (fun p => { p with theyInterested := false }) =
          (w.st.peers.modify idx fun p => { p with theyInterested := false }).modify idx
            (fun p => { p with weChoke := true }) := by
        rw [List.modify_modify_eq, List.modify_modify_eq]
        rfl
      exact hmark.of_eq (congrArg (List.map _) heq.symm) rfl

/-- A message that is not about interest leaves the slots alone; one that is keeps them in
order. -/
theorem Slotted.dispatch (h : Slotted w.st) (hnodup : w.st.ids.Nodup) (env : Env) (idx id : Nat)
    (first fast : Bool) (msg : Message) :
    Slotted (dispatch sh env idx id first fast msg w).st := by
  by_cases hmsg : .choking ∈ footprint msg
  · cases msg with
    | interested => exact h.onInterested hnodup idx
    | notInterested => exact h.onNotInterested idx
    | _ => simp [footprint, blockAspects] at hmsg
  · exact h.same (leaves_dispatch sh env idx id first fast msg w _ hmsg)

theorem Slotted.handle (sh : Shared) (h : Slotted w.st) (hnodup : w.st.ids.Nodup) (env : Env) (id : Nat)
    (msg : Message) : Slotted (handle sh env id msg w).st := by
  rcases handle_cases sh env id msg w with ⟨-, heq⟩ | ⟨idx, peer, -, -, heq⟩
  · rw [heq]
    exact h
  · rw [heq]
    have hopen := leaves_opened idx msg w
    exact (h.same (hopen _ (by simp))).dispatch ((hopen .table (by simp)).nodup hnodup) env idx id
      _ _ msg

/-- The end of a critical section. -/
theorem Slotted.after (h : Slotted w.st) (hnodup : w.st.ids.Nodup) (env : Env) :
    Slotted (recordSent env.now (Torrent.considerRound env w)).st :=
  (h.considerRound hnodup env).same (leaves_recordSent [] env.now _ _ (by simp))

theorem table_notMem_footprint (msg : Message) : .table ∉ .opening :: footprint msg := by
  cases msg <;> simp [footprint, blockAspects]

theorem Slotted.onMessage (h : Slotted e.st) (hseat : e.Seated sh) (env : Env) (id : Nat)
    (msg : Message) : Slotted (onMessage sh env id msg e).1.st := by
  have hseen := leaves_seen [] env.now id e
  have hslots := h.same (w := e.enter) (hseen .choking (by simp))
  have hnodup := (hseen .table (by simp)).nodup hseat.nodup
  have hhandled := hslots.handle sh hnodup env id msg
  have hdone := (leaves_handle sh env id msg _ .table (table_notMem_footprint msg)).nodup hnodup
  exact (hhandled.after hdone env).of_eq rfl rfl

theorem Slotted.maintain (h : Slotted e.st) (hseat : e.Seated sh) (env : Env) :
    Slotted (maintain env e).1.st := by
  have hallow := leaves_mapPeers (c := []) (f := fun p => { p with metadataRequests := 0 })
    (by intro _; rfl) (by intro a _ _; cases a <;> rfl) e.enter
  have htick := hallow.trans (leaves_tickPeers [] env e.st.keepaliveInterval e.st.idleTimeout
    (e.st.peers.map fun p => { p with metadataRequests := 0 }) (_, []))
  have hrequests := htick.trans (leaves_maintainRequests [] env _)
  have hslots := h.same (w := e.enter) (hrequests .choking (by simp))
  have hnodup := (hrequests .table (by simp)).nodup hseat.nodup
  exact (hslots.after hnodup env).of_eq rfl rfl

/-! ## Every run -/

/-- A peer leaves, with its slot if it had one. -/
theorem Slotted.dropPeer (h : Slotted e.st) (now id : Nat) (forCause : Bool) :
    Slotted (dropPeer now id forCause e.st) := by
  rcases dropPeer_cases now id forCause e.st with ⟨-, heq⟩ | ⟨peer, rest, hperm, -, heq⟩
  · rw [heq]
    exact h
  · rw [heq]
    refine ⟨h.pos, ?_, fun p hp => h.interested p (hperm.subset (List.mem_cons_of_mem _ hp))⟩
    refine le_trans ?_ h.bound
    rw [← hperm.countP_eq, List.countP_cons]
    exact Nat.le_add_right _ _

/-- A new peer has no slot. -/
theorem Slotted.registerPeer (h : Slotted e.st) (sh : Shared) (env : Env) (dest : DestHash)
    (fast : Bool) : Slotted (registerPeer sh env dest fast e.st).1 := by
  rcases registerPeer_cases sh env dest fast e.st with ⟨r, heq⟩ | ⟨known, -, -, -, -, heq⟩
  · rw [heq]
    exact h
  · rw [heq]
    refine ⟨h.pos, ?_, fun p hp hchoke => ?_⟩
    · simpa [List.countP_append, newPeer] using h.bound
    · rcases List.mem_append.1 hp with hp | hp
      · exact h.interested p hp hchoke
      · rw [List.mem_singleton.1 hp] at hchoke
        cases hchoke

theorem Slotted.step (h : Slotted e.st) (hseat : e.Seated sh) (ev : Event) :
    Slotted (Engine.step sh ev e).st := by
  cases ev with
  | register env dest fast => exact h.registerPeer sh env dest fast
  | message env id msg => exact h.onMessage hseat env id msg
  | maintain env => exact h.maintain hseat env
  | drop now id forCause => exact h.dropPeer now id forCause
  | addPeers rank peers =>
      have hone : ∀ w d, Leaves [.known] w { w with st := (w.st.rememberPeerFrom rank d .trusted).1 } :=
        fun w d => leaves_rememberPeerFrom rank d .trusted w
      exact h.same (w := e.enter) (Leaves.foldl_state hone peers e.enter .choking (by simp))
  | setPiecePriorities l => exact h.of_eq rfl rfl
  | setMode m => exact h.of_eq rfl rfl
  | setLocalDest dest => exact h.of_eq rfl rfl
  | setMaxPeers n => exact h.of_eq rfl rfl
  | setChokeInterval n => exact h.of_eq rfl rfl
  | setKeepaliveInterval n => exact h.of_eq rfl rfl
  | setIdleTimeout n => exact h.of_eq rfl rfl
  | setRequestTimeout n => exact h.of_eq rfl rfl

theorem seated_new (sh : Shared) (initialHave : Bitfield) (mode : Mode) (now : Nat) (disk : Disk) :
    (Engine.new sh initialHave mode now disk).Seated sh :=
  (addressed_new sh initialHave mode now disk).seated

/-- Seats and slots are in order after every run. -/
theorem slotted_run (sh : Shared) (initialHave : Bitfield) (mode : Mode) (now : Nat) (disk : Disk)
    (events : List Event) :
    (Engine.run sh events (Engine.new sh initialHave mode now disk)).Seated sh ∧
      Slotted (Engine.run sh events (Engine.new sh initialHave mode now disk)).st := by
  refine Machine.run_induction (P := fun e : Engine => e.Seated sh ∧ Slotted e.st)
    (fun ev e h => ⟨h.1.step ev, h.2.step h.1 ev⟩) events
    ⟨seated_new sh initialHave mode now disk, ?_, ?_, ?_⟩
  · show 1 ≤ (Choker.new DEFAULT_MAX_UNCHOKED).maxUnchoked
    decide
  · exact Nat.zero_le _
  · exact fun p hp => absurd hp List.not_mem_nil

/-! ## Blocks served -/

/-- A block is served to the peer that asked, if it is unchoked. -/
theorem out_serveRequest (sh : Shared) (env : Env) (idx : Nat) (req : BlockRequest) (w : Work) :
    (serveRequest sh env idx req w).out = w.out ∨
    ∃ peer data, w.st.peers[idx]? = some peer ∧ peer.weChoke = false ∧
      (serveRequest sh env idx req w).out =
        w.out ++ [(peer.id, .piece req.index req.begin data)] := by
  unfold serveRequest
  split
  · exact .inl rfl
  · rename_i peer hidx
    split
    · exact .inl rfl
    · rename_i hserve
      split
      · exact .inl rfl
      · rename_i data _
        simp only [Bool.or_eq_true, not_or, Bool.not_eq_true] at hserve
        exact .inr ⟨peer, data, hidx, hserve.1.1.1.1, rfl⟩

/-- Only a request leads to a block being sent, to the peer that asked and was unchoked. -/
theorem served_onMessage {env : Env} {id id' index begin : Nat} {msg : Message} {data : Bytes}
    (h : (id', Message.piece index begin data) ∈ (onMessage sh env id msg e).2.sends) :
    (∃ req, msg = .request req) ∧ id' = id ∧ ∃ p ∈ e.st.peers, p.id = id ∧ p.weChoke = false := by
  have hseen := leaves_seen [] env.now id e
  generalize hw : ({ e.enter with
    st := e.st.modifyId id fun p => { p with lastSeen := env.now } } : Work) = w at hseen
  -- what is sent of blocks was collected by the handler
  have hsent : (id', Message.piece index begin data) ∈ (handle sh env id msg w).out :=
    ((leaves_after env (handle sh env id msg w) .served (by simp)).mem_out rfl).1 (hw ▸ h)
  have hempty : w.out = [] := hw ▸ rfl
  rcases handle_cases sh env id msg w with ⟨-, heq⟩ | ⟨idx, peer, hidx, hid, heq⟩
  · rw [heq, hempty] at hsent
    cases hsent
  · rw [heq] at hsent
    by_cases hmsg : .served ∈ footprint msg
    · cases msg with
      | request req =>
          rcases out_serveRequest sh env idx req (w.modifyPeer idx fun p =>
              { p with opened := p.opened || opens (.request req) }) with hout | ⟨q, data', hq, hchoke, hout⟩
          · exact absurd (hout ▸ hsent) (hempty ▸ List.not_mem_nil)
          · rw [Work.getElem?_modifyPeer hidx] at hq
            obtain rfl := Option.some.inj hq
            have hsent : _ ∈ w.out ++ [_] := hout ▸ hsent
            rw [hempty, List.nil_append, List.mem_singleton] at hsent
            refine ⟨⟨req, rfl⟩, (Prod.mk.inj hsent).1.trans hid, ?_⟩
            have hmem := List.mem_map_of_mem (f := fun p => (p.id, Aspect.choking.ofPeer p))
              (List.mem_of_getElem? hidx)
            rw [(hseen .choking (by simp)).peers] at hmem
            obtain ⟨p, hp, hview⟩ := List.mem_map.1 hmem
            obtain ⟨hpid, hpview⟩ := Prod.mk.inj hview
            exact ⟨p, hp, hpid.trans hid, (congrArg Prod.fst hpview).trans hchoke⟩
      | _ => simp [footprint, blockAspects] at hmsg
    · have hnone := leaves_dispatch sh env idx id (!peer.opened) peer.fast msg
        (w.modifyPeer idx fun p => { p with opened := p.opened || opens msg }) _ hmsg
      exact absurd ((hnone.mem_out rfl).1 hsent) (hempty ▸ List.not_mem_nil)

/-- A tick sends no block. -/
theorem served_maintain (env : Env) (e : Engine) (id index begin : Nat) (data : Bytes) :
    (id, Message.piece index begin data) ∉ (maintain env e).2.sends := by
  intro h
  obtain ⟨w, drops, hleaves, heq⟩ := leaves_maintain env e
  rw [heq] at h
  exact absurd (((hleaves .served (by simp)).mem_out rfl).1 h) List.not_mem_nil

/-- Choke slots over whole runs.  After any critical sections in any order, no more peers are
unchoked than there are slots, all of them are interested, ids are distinct and below the
counter; and a block is sent only in answer to a request, to the peer that made it, which was
unchoked when it was handled. -/
theorem choke_slots (sh : Shared) (initialHave : Bitfield) (mode : Mode) (now : Nat) (disk : Disk)
    (events : List Event) :
    let e := Engine.run sh events (Engine.new sh initialHave mode now disk)
    e.st.peers.countP (fun p => !p.weChoke) ≤ e.st.choker.maxUnchoked ∧
      (∀ p ∈ e.st.peers, p.weChoke = false → p.theyInterested = true) ∧
      (e.st.peers.map (·.id)).Nodup ∧ (∀ p ∈ e.st.peers, p.id < e.st.nextId) ∧
      (∀ env id msg id' index begin data,
        (id', Message.piece index begin data) ∈ (onMessage sh env id msg e).2.sends →
        (∃ req, msg = .request req) ∧ id' = id ∧ ∃ p ∈ e.st.peers, p.id = id ∧ p.weChoke = false) ∧
      ∀ env id index begin data,
        (id, Message.piece index begin data) ∉ (maintain env e).2.sends := by
  intro e
  obtain ⟨hseat, hslots⟩ := slotted_run sh initialHave mode now disk events
  refine ⟨hslots.bound, hslots.interested, hseat.nodup, fun p hp => ?_, ?_, ?_⟩
  · exact hseat.fresh p.id (List.mem_map_of_mem hp)
  · exact fun env id msg id' index begin data h => served_onMessage h
  · exact fun env => served_maintain env e

end Clove.Torrent
