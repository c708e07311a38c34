import Clove.ChokerRounds
import Clove.Torrent.Slots
import Clove.Torrent.Threads

/-!
# Flapping interest

A peer that loses interest gives its slot back, and when it is interested again it finds one
free: its own, if no other is.  The slot is given by a choke round, and a round moves the
rotation on.  `flip_spares_iff` says when one message about interest chokes nobody else, and
`flapping_spares_iff` the same of any number of them in a row.  `flapping_chokes` is a row
that takes the slot of a peer that did nothing.
-/

namespace Clove.Torrent

open Wire (Message)

variable {sh : Shared} {e : Engine} {w : Work}

/-! ## What a round queues -/

/-- Choking a list of peers changes the table and tells those that are seated. -/
theorem setChokes_inv (choke : Bool) (l : List Nat) (w : Work) :
    (∃ peers, (l.foldl (setChoke choke) w).st = { w.st with peers := peers }) ∧
      (l.foldl (setChoke choke) w).out =
        w.out ++ (l.filter (· ∈ w.st.ids)).map fun id => (id, if choke then .choke else .unchoke) := by
  induction l generalizing w with
  | nil => exact ⟨⟨_, rfl⟩, by simp⟩
  | cons id l ih =>
      obtain ⟨⟨peers, hst⟩, hout⟩ := ih (setChoke choke w id)
      have hids : (setChoke choke w id).st.ids = w.st.ids :=
        (leaves_setChoke choke w id .table (by simp)).ids
      rw [List.foldl_cons, hst, hout, hids]
      unfold setChoke
      cases hfind : w.st.peers.findIdx? (·.id = id) with
      | none =>
          have hout : id ∉ w.st.ids := by
            rintro hin
            obtain ⟨p, hp, rfl⟩ := List.mem_map.1 hin
            simpa using List.findIdx?_eq_none_iff.1 hfind p hp
          exact ⟨⟨peers, rfl⟩, by rw [List.filter_cons_of_neg (by simpa using hout)]⟩
      | some idx =>
          obtain ⟨hlt, hid, -⟩ := List.findIdx?_eq_some_iff_getElem.1 hfind
          have hin : id ∈ w.st.ids :=
            List.mem_map.2 ⟨_, List.getElem_mem hlt, of_decide_eq_true hid⟩
          refine ⟨⟨peers, rfl⟩, ?_⟩
          rw [List.filter_cons_of_pos (by simpa using hin), List.map_cons]
          exact List.append_assoc _ _ _

/-- A round changes the table and the scheduler, and tells those it chokes. -/
theorem runChoker_inv (w : Work) :
    (∃ peers choker, (runChoker w).st = { w.st with peers := peers, choker := choker }) ∧
      ∀ id, (id, Message.choke) ∈ (runChoker w).out ↔ (id, Message.choke) ∈ w.out ∨
        id ∈ (w.st.choker.plan (w.st.peers.map (snapshot w.st.picker.isComplete))).2.choke := by
  unfold runChoker
  simp only
  generalize hplan : w.st.choker.plan (w.st.peers.map (snapshot w.st.picker.isComplete)) = plan
  generalize hw : ({ w with st := { w.st with
    peers := w.st.peers.map fun p =>
      { p with uploadedAtRound := p.uploaded, downloadedAtRound := p.downloaded }
    choker := plan.1 } } : Work) = w₀
  obtain ⟨⟨peers₁, hst₁⟩, hout₁⟩ := setChokes_inv false plan.2.unchoke w₀
  obtain ⟨⟨peers₂, hst₂⟩, hout₂⟩ := setChokes_inv true plan.2.choke
    (plan.2.unchoke.foldl (setChoke false) w₀)
  have hids : (plan.2.unchoke.foldl (setChoke false) w₀).st.ids = w.st.ids := by
    have hround : w₀.st.ids = w.st.ids := by
      rw [← hw]
      simp [State.ids, Function.comp_def]
    exact ((Leaves.foldl (leaves_setChoke false) _ w₀) .table (by simp)).ids.trans hround
  refine ⟨⟨peers₂, plan.1, ?_⟩, fun id => ?_⟩
  · rw [hst₂, hst₁, ← hw]
  · have hseated : id ∈ plan.2.choke → id ∈ w.st.ids := by
      intro hin
      rw [← hplan] at hin
      obtain ⟨-, s, hs, rfl, -⟩ := Choker.mem_choke.1 hin
      obtain ⟨p, hp, rfl⟩ := List.mem_map.1 hs
      exact List.mem_map_of_mem hp
    have hbefore : (id, Message.choke) ∈ w₀.out ↔ (id, Message.choke) ∈ w.out := by rw [← hw]
    rw [hout₂, hout₁, hids, List.append_assoc, List.mem_append, hbefore]
    refine or_congr_right ?_
    simp only [Bool.false_eq_true, if_false, if_true, List.mem_append, List.mem_map, Prod.mk.injEq,
      reduceCtorEq, and_false, exists_false, false_or, and_true, exists_eq_right, List.mem_filter,
      decide_eq_true_eq]
    exact and_iff_left_of_imp hseated

/-! ## One message about interest -/

/-- A peer says whether it is interested. -/
def flip (sh : Shared) (id : Nat) (f : Env × Bool) (e : Engine) : Engine × Job :=
  onMessage sh f.1 id (if f.2 then .interested else .notInterested) e

/-- What a round sees once the peer with this id is interested. -/
def audience (st : State) (id : Nat) : List PeerSnapshot :=
  (st.peers.map (snapshot st.picker.isComplete)).map fun s =>
    { s with interested := s.interested || decide (s.id = id) }

/-- There is no free slot, or every other peer that has one is due one in the next round. -/
def RoundSpares (st : State) (id : Nat) : Prop :=
  st.peers.countP (fun p => !p.weChoke) < st.choker.maxUnchoked →
    ∀ q ∈ st.peers, q.id ≠ id → q.weChoke = false →
      Choker.Earns st.choker.maxUnchoked (st.choker.round + 1) (audience st id)
        (snapshot st.picker.isComplete q)

instance (st : State) (id : Nat) : Decidable (RoundSpares st id) := by
  unfold RoundSpares
  infer_instance

/-- Free slots can be read off the snapshots. -/
theorem countP_unchoked (l : List Peer) :
    l.countP (fun p => !p.weChoke) = (l.map (snapshot false)).countP (·.unchoked) := by
  rw [List.countP_map]
  rfl

/-- A message of a seated peer is handled in a state with the same snapshots. -/
theorem onMessage_seated (sh : Shared) (env : Env) (msg : Message) {id : Nat} (hid : id ∈ e.st.ids) :
    ∃ (idx : Nat) (peer : Peer) (first fast : Bool) (w : Work), w.st.peers[idx]? = some peer ∧
      peer.id = id ∧ w.out = [] ∧ (∃ peers, w.st = { e.st with peers := peers }) ∧
      (∀ seeding, w.st.peers.map (snapshot seeding) = e.st.peers.map (snapshot seeding)) ∧
      onMessage sh env id msg e = (recordSent env.now (considerRound env
        (dispatch sh env idx id first fast msg w))).finish [] := by
  have hseen : (∃ peers, e.st.modifyId id (fun p => { p with lastSeen := env.now }) =
        { e.st with peers := peers }) ∧
      ∀ seeding, (e.st.modifyId id fun p => { p with lastSeen := env.now }).peers.map
        (snapshot seeding) = e.st.peers.map (snapshot seeding) := by
    unfold State.modifyId
    split
    · exact ⟨⟨_, rfl⟩, fun seeding => Lists.map_modify_of_eq (by intro _; rfl) _ _⟩
    · exact ⟨⟨e.st.peers, rfl⟩, fun _ => rfl⟩
  obtain ⟨⟨peers, hst⟩, hviews⟩ := hseen
  rcases handle_cases sh env id msg { e.enter with
    st := e.st.modifyId id fun p => { p with lastSeen := env.now } } with
    ⟨hnone, -⟩ | ⟨idx, peer, hidx, hpeer, heq⟩
  · obtain ⟨p, hp, hpid⟩ := List.mem_map.1 hid
    have hmem := List.mem_map_of_mem (f := snapshot false) hp
    rw [← hviews false] at hmem
    obtain ⟨q, hq, hview⟩ := List.mem_map.1 hmem
    have hqid : q.id = p.id := congrArg PeerSnapshot.id hview
    exact absurd (hqid.trans hpid) (hnone q hq)
  · have hseat := Work.getElem?_modifyPeer hidx fun p => { p with opened := p.opened || opens msg }
    refine ⟨idx, _, !peer.opened, peer.fast, _, hseat, hpeer, rfl, ?_, fun seeding => ?_, ?_⟩
    · exact ⟨_, congrArg (fun st : State => { st with
        peers := st.peers.modify idx fun p => { p with opened := p.opened || opens msg } }) hst⟩
    · exact (Lists.map_modify_of_eq (by intro _; rfl) _ _).trans (hviews seeding)
    · unfold onMessage
      simp only
      rw [heq]

/-- A peer that loses interest is choked, and nobody else. -/
theorem onNotInterested_inv {idx : Nat} {peer : Peer} (hidx : w.st.peers[idx]? = some peer) :
    (∃ peers, (onNotInterested idx w).st = { w.st with peers := peers }) ∧
      ∀ o ∈ (onNotInterested idx w).out, o ∈ w.out ∨ o.1 = peer.id := by
  unfold onNotInterested
  simp only [hidx]
  split
  · exact ⟨⟨_, rfl⟩, fun o ho => .inl ho⟩
  · refine ⟨⟨_, rfl⟩, fun o ho => ?_⟩
    exact (List.mem_append.1 ho).imp_right fun ho => congrArg Prod.fst (List.mem_singleton.1 ho)

/-- A peer that becomes interested leads to a round if there is a free slot. -/
theorem onInterested_inv (hnodup : w.st.ids.Nodup) {idx : Nat} {peer : Peer}
    (hidx : w.st.peers[idx]? = some peer) :
    (∃ peers choker, (onInterested idx w).st = { w.st with peers := peers, choker := choker }) ∧
      ∀ x, (x, Message.choke) ∈ (onInterested idx w).out ↔ (x, Message.choke) ∈ w.out ∨
        w.st.peers.countP (fun p => !p.weChoke) < w.st.choker.maxUnchoked ∧
          x ∈ (w.st.choker.plan (audience w.st peer.id)).2.choke := by
  have hseen : ∀ seeding, (w.modifyPeer idx fun p => { p with theyInterested := true }).st.peers.map
      (snapshot seeding) = (w.st.peers.map (snapshot seeding)).map fun s =>
        { s with interested := s.interested || decide (s.id = peer.id) } := by
    intro seeding
    show (w.st.peers.modify idx _).map _ = _
    rw [Lists.modify_eq_map hnodup hidx, List.map_map, List.map_map]
    refine List.map_congr_left fun p _ => ?_
    by_cases hp : p.id = peer.id <;> simp [snapshot, hp]
  have hfree : (w.modifyPeer idx fun p => { p with theyInterested := true }).st.peers.countP
      (fun p => !p.weChoke) = w.st.peers.countP fun p => !p.weChoke := by
    rw [countP_unchoked, hseen, countP_unchoked, List.countP_map]
    rfl
  obtain ⟨⟨peers, choker, hst⟩, hchoke⟩ :=
    runChoker_inv (w.modifyPeer idx fun p => { p with theyInterested := true })
  rw [hseen] at hchoke
  unfold onInterested
  simp only
  rw [hfree]
  split
  · rename_i hroom
    have hroom : w.st.peers.countP (fun p => !p.weChoke) < w.st.choker.maxUnchoked := hroom
    refine ⟨⟨peers, choker, hst⟩, fun x => (hchoke x).trans ?_⟩
    rw [and_iff_right hroom]
    rfl
  · rename_i hfull
    have hfull : ¬ w.st.peers.countP (fun p => !p.weChoke) < w.st.choker.maxUnchoked := hfull
    refine ⟨⟨_, _, rfl⟩, fun x => ?_⟩
    simp only [hfull, false_and, or_false]
    rfl

/-- What is queued is noted in the table. -/
theorem recordSent_inv (now : Nat) (w : Work) :
    ∃ peers, (recordSent now w).st = { w.st with peers := peers } := by
  have hfold : ∀ (out : List Outgoing) (st : State), ∃ peers,
      out.foldl (fun (st : State) (o : Outgoing) =>
        st.modifyId o.1 fun p => { p with lastSent := now }) st = { st with peers := peers } := by
    intro out
    induction out with
    | nil => exact fun st => ⟨st.peers, rfl⟩
    | cons o out ih =>
        intro st
        obtain ⟨peers, heq⟩ := ih (st.modifyId o.1 fun p => { p with lastSent := now })
        refine ⟨peers, heq.trans ?_⟩
        unfold State.modifyId
        split <;> rfl
  exact hfold w.out w.st

/-- A section after which no round is due of itself. -/
theorem finish_undue {env : Env} {peers : List Peer} {choker : Choker}
    (hst : w.st = { e.st with peers := peers, choker := choker })
    (hundue : env.roundNow - e.st.lastChokeRound < e.st.chokeInterval) :
    ((recordSent env.now (considerRound env w)).finish []).2.sends = w.out ∧
      ((recordSent env.now (considerRound env w)).finish []).1.st.lastChokeRound =
        e.st.lastChokeRound ∧
      ((recordSent env.now (considerRound env w)).finish []).1.st.chokeInterval =
        e.st.chokeInterval := by
  have hround : considerRound env w = w := by
    unfold considerRound
    rw [hst]
    exact if_neg (Nat.not_le.2 hundue)
  obtain ⟨peers', hsent⟩ := recordSent_inv env.now w
  have hlast : w.st.lastChokeRound = e.st.lastChokeRound := by rw [hst]
  have hinterval : w.st.chokeInterval = e.st.chokeInterval := by rw [hst]
  rw [hround]
  refine ⟨rfl, ?_, ?_⟩
  · exact (congrArg State.lastChokeRound hsent).trans hlast
  · exact (congrArg State.chokeInterval hsent).trans hinterval

/-- Whom the round chokes, by rank. -/
theorem spares_iff (hnodup : e.st.ids.Nodup) (hslots : Slotted e.st) (id : Nat) :
    (∀ x ∈ (e.st.choker.plan (audience e.st id)).2.choke, x = id) ↔
      ∀ q ∈ e.st.peers, q.id ≠ id → q.weChoke = false →
        Choker.Earns e.st.choker.maxUnchoked (e.st.choker.round + 1) (audience e.st id)
          (snapshot e.st.picker.isComplete q) := by
  have hids : ((audience e.st id).map (·.id)).Nodup := by
    have : (audience e.st id).map (·.id) = e.st.ids := by
      simp [audience, State.ids, snapshot, Function.comp_def]
    exact this ▸ hnodup
  have hother : ∀ q ∈ e.st.peers, q.id ≠ id →
      snapshot e.st.picker.isComplete q ∈ audience e.st id := by
    intro q hq hne
    refine List.mem_map.2 ⟨_, List.mem_map_of_mem hq, ?_⟩
    simp [snapshot, hne]
  have hrank : ∀ q ∈ e.st.peers, q.id ≠ id → q.weChoke = false →
      (q.id ∈ Choker.chosen e.st.choker.maxUnchoked (e.st.choker.round + 1) (audience e.st id) ↔
        Choker.Earns e.st.choker.maxUnchoked (e.st.choker.round + 1) (audience e.st id)
          (snapshot e.st.picker.isComplete q)) := fun q hq hne hunchoked =>
    Choker.mem_chosen_iff hids (hother q hq hne) (hslots.interested q hq hunchoked)
  constructor
  · intro hspares q hq hne hunchoked
    rw [← hrank q hq hne hunchoked]
    by_contra hnot
    exact hne (hspares q.id (Choker.mem_choke.2
      ⟨hnot, _, hother q hq hne, rfl, by simp [snapshot, hunchoked]⟩))
  · intro hspares x hx
    by_contra hne
    obtain ⟨hnot, s, hs, rfl, hunchoked⟩ := Choker.mem_choke.1 hx
    obtain ⟨s', hs', rfl⟩ := List.mem_map.1 hs
    obtain ⟨q, hq, rfl⟩ := List.mem_map.1 hs'
    have hunchoked : q.weChoke = false := by simpa [snapshot] using hunchoked
    exact hnot ((hrank q hq hne hunchoked).2 (hspares q hq hne hunchoked))

/-- One message about interest.  Unless a round is due of itself, it chokes nobody else exactly
if it is a loss of interest or the round it leads to spares the others. -/
theorem flip_spares_iff (hseat : e.Seated sh) (hslots : Slotted e.st) {id : Nat}
    (hid : id ∈ e.st.ids) {f : Env × Bool}
    (hundue : f.1.roundNow - e.st.lastChokeRound < e.st.chokeInterval) :
    ((∀ o ∈ (flip sh id f e).2.sends, o.2 = .choke → o.1 = id) ↔ (f.2 = true → RoundSpares e.st id)) ∧
      (flip sh id f e).1.st.lastChokeRound = e.st.lastChokeRound ∧
      (flip sh id f e).1.st.chokeInterval = e.st.chokeInterval := by
  obtain ⟨env, b⟩ := f
  obtain ⟨idx, peer, first, fast, w, hidx, rfl, hout, ⟨peers, hst⟩, hviews, heq⟩ :=
    onMessage_seated sh env (if b then .interested else .notInterested) hid
  unfold flip
  simp only
  rw [heq]
  cases b with
  | false =>
      obtain ⟨⟨peers', hst'⟩, hown⟩ := onNotInterested_inv hidx
      rw [hst] at hst'
      have hkept : (onNotInterested idx w).st =
          { e.st with peers := peers', choker := e.st.choker } := hst'
      obtain ⟨hsends, hlast, hinterval⟩ := finish_undue hkept hundue
      refine ⟨⟨fun _ => nofun, fun _ o ho _ => ?_⟩, hlast, hinterval⟩
      rcases hown o (hsends ▸ ho) with hin | hself
      · rw [hout] at hin
        cases hin
      · exact hself
  | true =>
      have hids : w.st.ids = e.st.ids := by
        have := congrArg (List.map PeerSnapshot.id) (hviews false)
        simpa [State.ids, snapshot, Function.comp_def] using this
      have haudience : audience w.st peer.id = audience e.st peer.id := by
        unfold audience
        rw [hviews, hst]
      have hfree : w.st.peers.countP (fun p => !p.weChoke) =
          e.st.peers.countP fun p => !p.weChoke := by
        rw [countP_unchoked, hviews, ← countP_unchoked]
      obtain ⟨⟨peers', choker', hst'⟩, hchoke⟩ := onInterested_inv (hids ▸ hseat.nodup) hidx
      rw [hout, haudience, hfree, hst] at hchoke
      rw [hst] at hst'
      obtain ⟨hsends, hlast, hinterval⟩ := finish_undue hst' hundue
      refine ⟨?_, hlast, hinterval⟩
      unfold RoundSpares
      rw [← spares_iff hseat.nodup hslots]
      constructor
      · intro hspares _ hroom x hx
        exact hspares (x, .choke) (hsends ▸ (hchoke x).2 (.inr ⟨hroom, hx⟩)) rfl
      · rintro hspares ⟨x, _⟩ ho rfl
        rcases (hchoke x).1 (hsends ▸ ho) with hin | ⟨hroom, hx⟩
        · cases hin
        · exact hspares rfl hroom x hx

/-! ## Any number of messages -/

/-- What a row of messages about interest from one peer leads to being queued. -/
def flipSends (sh : Shared) (id : Nat) : List (Env × Bool) → Engine → List Outgoing
  | [], _ => []
  | f :: fs, e => (flip sh id f e).2.sends ++ flipSends sh id fs (flip sh id f e).1

/-- Every message about interest keeps who is seated. -/
theorem ids_flip (sh : Shared) (id : Nat) (f : Env × Bool) (e : Engine) :
    (flip sh id f e).1.st.ids = e.st.ids := by
  obtain ⟨w, hleaves, heq⟩ :=
    leaves_onMessage sh f.1 id (if f.2 then .interested else .notInterested) e
  rw [flip, heq]
  refine (hleaves .table ?_).ids
  cases f.2 <;> simp [footprint]

/-- A peer's messages about interest, with no round due of itself in between, choke nobody else
exactly as long as the round that each of them leads to spares the others: every other peer that
has a slot is due one by its rank, or there was no free slot and so no round. -/
theorem flapping_spares_iff (sh : Shared) (initialHave : Bitfield) (mode : Mode) (now : Nat)
    (disk : Disk) (events : List Event) (id : Nat) (flips : List (Env × Bool)) :
    let e := Engine.run sh events (Engine.new sh initialHave mode now disk)
    id ∈ e.st.ids →
    (∀ f ∈ flips, f.1.roundNow - e.st.lastChokeRound < e.st.chokeInterval) →
    ((∀ o ∈ flipSends sh id flips e, o.2 = .choke → o.1 = id) ↔
      Machine.Along (fun f e => (flip sh id f e).1)
        (fun f e => f.2 = true → RoundSpares e.st id) flips e) := by
  intro e
  obtain ⟨hseat, hslots⟩ := slotted_run sh initialHave mode now disk events
  have hseat : e.Seated sh := hseat
  have hslots : Slotted e.st := hslots
  clear_value e
  induction flips generalizing e with
  | nil => exact fun _ _ => ⟨fun _ => trivial, fun _ o ho => absurd ho List.not_mem_nil⟩
  | cons f fs ih =>
      intro hid hundue
      obtain ⟨hone, hlast, hinterval⟩ :=
        flip_spares_iff hseat hslots hid (hundue f List.mem_cons_self)
      have hrest := ih (flip sh id f e).1 (hseat.step (.message f.1 id _))
        (hslots.onMessage hseat f.1 id _) (by rw [ids_flip]; exact hid)
        (by rw [hlast, hinterval]; exact fun f' hf' => hundue f' (List.mem_cons_of_mem _ hf'))
      rw [Machine.Along, ← hone, ← hrest]
      simp only [flipSends, List.mem_append]
      constructor
      · exact fun h => ⟨fun o ho => h o (.inl ho), fun o ho => h o (.inr ho)⟩
      · rintro ⟨hfirst, hlater⟩ o (ho | ho)
        · exact hfirst o ho
        · exact hlater o ho

namespace OneByte

/-- Five peers connect and become interested, one after the other: the first four get a slot. -/
def crowd : List Event :=
  (List.range 5).map (fun n => .register (env 0) (dest n.toUInt8) false) ++
    (List.range 5).map fun n => .message (env 0) n .interested

/-- The first peer loses interest and regains it, twice. -/
def flapping : List (Env × Bool) := [(env 0, false), (env 0, true), (env 0, false), (env 0, true)]

end OneByte

/-- The second time, it is an optimistic round: the fifth peer takes the slot of the fourth. -/
theorem flapping_chokes :
    let e := Engine.run OneByte.shared OneByte.crowd
      (Engine.new OneByte.shared (Bitfield.empty 1) .rarestFirst 0 fun _ => [])
    0 ∈ e.st.ids ∧
      (∀ f ∈ OneByte.flapping, f.1.roundNow - e.st.lastChokeRound < e.st.chokeInterval) ∧
      ((3, .choke) : Outgoing) ∈ flipSends OneByte.shared 0 OneByte.flapping e := by
  decide +kernel

/-- The first time, nobody else is choked. -/
theorem flapping_spares_once :
    let e := Engine.run OneByte.shared OneByte.crowd
      (Engine.new OneByte.shared (Bitfield.empty 1) .rarestFirst 0 fun _ => [])
    (∀ o ∈ flipSends OneByte.shared 0 (OneByte.flapping.take 2) e, o.2 = .choke → o.1 = 0) ↔
      Machine.Along (fun f e => (flip OneByte.shared 0 f e).1)
        (fun f e => f.2 = true → RoundSpares e.st 0) (OneByte.flapping.take 2) e :=
  flapping_spares_iff OneByte.shared (Bitfield.empty 1) .rarestFirst 0 (fun _ => []) OneByte.crowd 0
    (OneByte.flapping.take 2) (by decide +kernel) (by decide +kernel)

end Clove.Torrent
