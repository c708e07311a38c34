import Clove.Lib.Log
import Clove.Torrent.Pipeline

/-!
# Requests that go unanswered

A peer's in-flight map records with each block an instant.  Meant is the instant at which the
block was last asked for, and `history` is the log of what was asked of whom and when.  But
`fill_requests` enters what the picker hands it before it looks whether the peer owes it, so in
the endgame a refill makes an old request look new.  `requests_expire` is about the runs in
which that does not happen.
-/

namespace Clove.Torrent

open Wire (BLOCK_LEN BlockRequest Message)

variable {sh : Shared} {e : Engine} {w w' w₁ : Work}

/-! ## What was asked, and when -/

/-- What was asked of whom, and when. -/
abbrev Asks := List ((Nat × BlockKey) × Nat)

/-- The entry of a message, if it is a request: the clock is read when the pipeline of the peer
at that position is filled. -/
def asked (ids : List Nat) (fillNow : Nat → Nat) (o : Outgoing) : Option ((Nat × BlockKey) × Nat) :=
  match o.2 with
  | .request req => some ((o.1, BlockRequest.key req), fillNow (ids.idxOf o.1))
  | _ => none

/-- The clock a section fills pipelines by. -/
def Event.fillNow : Event → Nat → Nat
  | .message env _ _, idx => env.fillNow idx
  | .maintain env, idx => env.fillNow idx
  | _, _ => 0

/-- What a section queues for its peers. -/
def Event.sends (sh : Shared) : Event → Engine → List Outgoing
  | .message env id msg, e => (onMessage sh env id msg e).2.sends
  | .maintain env, e => (Torrent.maintain env e).2.sends
  | _, _ => []

/-- The requests a section queues. -/
def Event.asks (sh : Shared) (ev : Event) (e : Engine) : Asks :=
  (ev.sends sh e).filterMap (asked e.st.ids ev.fillNow)

/-- The requests queued in a run. -/
def history (sh : Shared) : List Event → Engine → Asks :=
  Machine.logs (Engine.step sh) (Event.asks sh)

/-- No block that its peer owes since another instant is handed out for it again. -/
def Event.Unrepeated (sh : Shared) (ev : Event) (e : Engine) : Prop :=
  ∀ c ∈ ev.refills sh e, ∀ peer ∈ c.2.st.peers[c.1]?, peer.Askable →
    ∀ k ∈ taken c.2.st.picker peer, ∀ t ∈ peer.inFlight.lookup k, t = ev.fillNow c.1

instance (sh : Shared) (ev : Event) (e : Engine) : Decidable (ev.Unrepeated sh e) :=
  inferInstanceAs (Decidable (∀ _ ∈ _, _))

/-- Each block in flight bears the instant at which it was last asked for. -/
def Recorded (log : Asks) (st : State) : Prop :=
  ∀ p ∈ st.peers, ∀ k t, p.inFlight.lookup k = some t → Log.last log (p.id, k) = some t

/-! ## In a section -/

/-- The same in a section, with what it has queued so far. -/
structure Stamped (log : Asks) (ids : List Nat) (fillNow : Nat → Nat) (w : Work) : Prop where
  seated : w.st.ids = ids
  stamps : Recorded (log ++ w.out.filterMap (asked ids fillNow)) w.st

/-- Only requests are entered. -/
theorem filterMap_asked (ids : List Nat) (fillNow : Nat → Nat) (out : List Outgoing) :
    out.filterMap (asked ids fillNow) =
      (out.filter fun o => isRequest o.2).filterMap (asked ids fillNow) := by
  rw [List.filterMap_filter]
  refine congrArg (fun f => out.filterMap f) (funext fun o => ?_)
  obtain ⟨id, msg⟩ := o
  cases msg <;> rfl

variable {log : Asks} {ids : List Nat} {fillNow : Nat → Nat}

theorem Stamped.lapses (h : Stamped log ids fillNow w) (hlapse : Lapses w w') :
    Stamped log ids fillNow w' := by
  refine ⟨hlapse.ids.trans h.seated, fun p hp k t hk => ?_⟩
  obtain ⟨j, hj⟩ := List.mem_iff_getElem?.1 hp
  obtain ⟨q, hq, hsub⟩ := hlapse.owed hj
  have hid : q.id = p.id := by
    have hids := congrArg (fun l => l[j]?) hlapse.ids
    simp only [State.ids, List.getElem?_map, hj, hq, Option.map_some, Option.some.injEq] at hids
    exact hids.symm
  rw [filterMap_asked, hlapse.out, ← filterMap_asked, ← hid]
  exact h.stamps q (List.mem_of_getElem? hq) k t (hsub k t hk)

/-- The entries of one refill. -/
theorem filterMap_asked_fresh (pk : Picker) (ids : List Nat) (fillNow : Nat → Nat) (id : Nat)
    (keys : List BlockKey) :
    (keys.map fun k => (id, Message.request (pk.requestFor k))).filterMap (asked ids fillNow) =
      (keys.map fun k => (id, k)).map fun j => (j, fillNow (ids.idxOf id)) := by
  induction keys with
  | nil => rfl
  | cons k keys ih => simp [asked, ih, Picker.key_requestFor]

/-- A refill that repeats nothing enters what it asks for with the instant it asks at. -/
theorem Stamped.fillRequests {env : Env} (h : Stamped log ids env.fillNow w) (hnodup : ids.Nodup)
    (hwf : w.st.picker.WF) {idx : Nat}
    (hnew : ∀ peer ∈ w.st.peers[idx]?, peer.Askable → ∀ k ∈ taken w.st.picker peer,
      ∀ t ∈ peer.inFlight.lookup k, t = env.fillNow idx) :
    Stamped log ids env.fillNow (fillRequests env idx w) := by
  rcases fillRequests_cases env idx hwf with heq | ⟨peer, hidx, hask, hfilled⟩
  · rw [heq]
    exact h
  · obtain ⟨flights, hseat, hlookup⟩ := hfilled.seat
    have hplace : ids.idxOf peer.id = idx := by
      obtain ⟨hlt, hget⟩ := List.getElem?_eq_some_iff.1 hidx
      have hlt' : idx < ids.length := by
        rw [← h.seated]
        simpa [State.ids] using hlt
      have hid : ids[idx] = peer.id := by
        simp only [← h.seated, State.ids, List.getElem_map, hget]
      rw [← hid]
      exact hnodup.idxOf_getElem idx hlt'
    have hids : (Torrent.fillRequests env idx w).st.ids = ids :=
      (leaves_fillRequests [] env idx w .table (by simp)).ids.trans h.seated
    refine ⟨hids, fun p hp k t hk => ?_⟩
    rw [hfilled.out, List.filterMap_append, filterMap_asked_fresh, hplace, ← List.append_assoc,
      Log.last_append, Log.last_map_const]
    obtain ⟨j, hj⟩ := List.mem_iff_getElem?.1 hp
    by_cases hji : j = idx
    · subst hji
      obtain rfl := Option.some.inj (hseat.symm.trans hj)
      have hk : flights.lookup k = some t := hk
      rw [hlookup] at hk
      have hmem : (peer.id, k) ∈ (fresh w.st.picker peer).map (fun k => (peer.id, k)) ↔
          k ∈ taken w.st.picker peer ∧ k ∉ peer.inFlight := by
        simp [fresh, List.mem_filter]
      have hold : ∀ t, peer.inFlight.lookup k = some t →
          Log.last (log ++ w.out.filterMap (asked ids env.fillNow)) (peer.id, k) = some t :=
        h.stamps peer (List.mem_of_getElem? hidx) k
      simp only [hmem]
      by_cases htaken : k ∈ taken w.st.picker peer
      · rw [if_pos htaken] at hk
        by_cases howed : k ∈ peer.inFlight
        · -- It was owed already: since this very instant.
          obtain ⟨s, hs⟩ := Option.isSome_iff_exists.1 (AList.lookup_isSome.2 howed)
          have hsame := hnew peer hidx hask k htaken s hs
          rw [if_neg (fun hboth => hboth.2 howed), Option.none_or, hold s hs, hsame]
          exact hk
        · rw [if_pos ⟨htaken, howed⟩]
          exact hk
      · rw [if_neg htaken] at hk
        rw [if_neg (fun hboth => htaken hboth.1), Option.none_or]
        exact hold t hk
    · rw [hfilled.others j hji] at hj
      have hother : (p.id, k) ∉ (fresh w.st.picker peer).map (fun k => (peer.id, k)) := by
        intro hin
        obtain ⟨i, -, heq⟩ := List.mem_map.1 hin
        have hid : w.st.ids[j]? = w.st.ids[idx]? := by
          simp only [State.ids, List.getElem?_map, hj, hidx, Option.map_some]
          exact congrArg some (Prod.mk.inj heq).1.symm
        have hlt : j < w.st.ids.length := by
          simpa [State.ids] using (List.getElem?_eq_some_iff.1 hj).1
        rw [h.seated] at hid hlt
        exact hji ((List.getElem?_inj hlt hnodup).1 hid)
      rw [if_neg hother, Option.none_or]
      exact h.stamps p (List.mem_of_getElem? hj) k t hk

theorem Stamped.maintainPeers {env : Env} {s : Work × List (Nat × Bool)}
    (h : Stamped log ids env.fillNow s.1) (hbal : Balanced sh s.1 []) (hnodup : ids.Nodup) (n : Nat)
    (hnew : ∀ i < n, ∀ c ∈ maintainRefill env s i, ∀ peer ∈ c.2.st.peers[c.1]?, peer.Askable →
      ∀ k ∈ taken c.2.st.picker peer, ∀ t ∈ peer.inFlight.lookup k, t = env.fillNow c.1) :
    Stamped log ids env.fillNow ((List.range n).foldl (maintainPeer env) s).1 := by
  induction n with
  | zero => exact h
  | succ n ih =>
      have hbefore := ih fun i hi => hnew i (Nat.lt_succ_of_lt hi)
      have hreleased := hbefore.lapses (lapses_releaseLate env n _)
      rw [List.range_succ, List.foldl_append, List.foldl_cons, List.foldl_nil, maintainPeer_fst]
      split
      · exact hreleased
      · rename_i hstays
        refine hreleased.fillRequests hnodup (balanced_releaseLate env n
          (balanced_maintainPeers env (List.range n) hbal)).acc.wf ?_
        exact hnew n n.lt_succ_self (n, _) (by simp only [maintainRefill, if_neg hstays]; rfl)

/-! ## In a run -/

theorem Recorded.entered (h : Recorded log e.st) (fillNow : Nat → Nat) :
    Stamped log e.st.ids fillNow e.enter :=
  ⟨rfl, by simpa [Engine.enter] using h⟩

/-- A section that repeats nothing keeps the instants right. -/
theorem Recorded.step (h : Recorded log e.st) (hacc : e.Accounts sh) (hseat : e.Seated sh)
    {ev : Event} (hnew : ev.Unrepeated sh e) :
    Recorded (log ++ ev.asks sh e) (Engine.step sh ev e).st := by
  have hsilent : ∀ {asks : Asks} {st : State}, asks = [] → Recorded log st →
      Recorded (log ++ asks) st := by
    rintro _ st rfl hst
    rwa [List.append_nil]
  cases ev with
  | message env id msg =>
      have hentered := h.entered env.fillNow
      obtain ⟨w₂, heq, ⟨-, hlapse⟩ | ⟨idx, w₁, hpoint, hlapse, -, hafter⟩⟩ :=
        onMessage_refill sh env id msg e
      · have hdone := (hentered.lapses hlapse).stamps
        rw [Event.asks, Event.sends, Engine.step, heq]
        exact hdone
      · have hcall : (idx, w₁) ∈ Event.refills sh (.message env id msg) e :=
          Option.mem_toList.2 hpoint
        have hfilled := (hentered.lapses hlapse).fillRequests hseat.nodup
          (balanced_refills hacc hcall).acc.wf (hnew _ hcall)
        rw [Event.asks, Event.sends, Engine.step, heq]
        exact (hfilled.lapses hafter).stamps
  | maintain env =>
      have hticked := (h.entered env.fillNow).lapses (lapses_ticked env e)
      have hfilled := hticked.maintainPeers (balanced_ticked env hacc) hseat.nodup
        (ticked env e).1.st.peers.length fun i hi c hc =>
          hnew c (List.mem_filterMap.2 ⟨i, List.mem_range.2 hi, hc⟩)
      exact (hfilled.lapses ((lapses_considerRound env _).trans
        (lapses_recordSent env.now _))).stamps
  | register env dest fast =>
      refine hsilent rfl ?_
      rcases registerPeer_cases sh env dest fast e.st with ⟨_, heq⟩ | ⟨_, _, _, _, _, heq⟩
      · rw [Engine.step, Engine.modifyState, heq]
        exact h
      · rw [Engine.step, Engine.modifyState, heq]
        intro p hp k t hk
        rcases List.mem_append.1 hp with hp | hp
        · exact h p hp k t hk
        · rw [List.mem_singleton.1 hp] at hk
          cases hk
  | drop now id forCause =>
      refine hsilent rfl ?_
      rcases dropPeer_cases now id forCause e.st with ⟨-, heq⟩ | ⟨peer, rest, hperm, -, heq⟩
      · rw [Engine.step, Engine.modifyState, heq]
        exact h
      · rw [Engine.step, Engine.modifyState, heq]
        exact fun p hp => h p (hperm.mem_iff.1 (List.mem_cons_of_mem _ hp))
  | addPeers rank peers =>
      obtain ⟨known, heq⟩ := addPeers_eq rank peers e.st
      refine hsilent rfl ?_
      rw [Engine.step, Engine.modifyState, heq]
      exact h
  | _ => exact hsilent rfl h

/-- In a run that repeats nothing, each block in flight bears the instant it was last asked for. -/
theorem recorded_run {events : List Event}
    (hall : Machine.Along (Engine.step sh) (Event.Unrepeated sh) events e) (hacc : e.Accounts sh)
    (hseat : e.Seated sh) (h : Recorded [] e.st) :
    Recorded (history sh events e) (Engine.run sh events e).st :=
  (Machine.logs_induction_along
    (P := fun log e => Engine.Accounts sh e ∧ e.Seated sh ∧ Recorded log e.st)
    (fun ev _ _ hnew h => ⟨accounts_step ev h.1, h.2.1.step ev, h.2.2.step h.1 h.2.1 hnew⟩)
    hall ⟨hacc, hseat, h⟩).2.2

/-! ## What expires -/

theorem mem_expired {st : State} {now : Nat} {p : Peer} {k : BlockKey} :
    k ∈ expired st now p ↔ ∃ t, p.inFlight.lookup k = some t ∧ st.requestTimeout ≤ now - t := by
  unfold expired
  simp only [List.mem_map, List.mem_filter, decide_eq_true_eq]
  constructor
  · rintro ⟨⟨j, t⟩, ⟨hin, hlate⟩, rfl⟩
    exact ⟨t, AList.mem_lookup_iff.2 hin, hlate⟩
  · rintro ⟨t, hin, hlate⟩
    exact ⟨⟨k, t⟩, ⟨AList.mem_lookup_iff.1 hin, hlate⟩, rfl⟩

/-- One peer's turn in a tick touches no other. -/
structure Turn (idx : Nat) (w w' : Work) : Prop where
  others : ∀ j, j ≠ idx → w'.st.peers[j]? = w.st.peers[j]?
  out : w.out <+: w'.out
  timeout : w'.st.requestTimeout = w.st.requestTimeout

theorem Turn.refl (idx : Nat) (w : Work) : Turn idx w w := ⟨fun _ _ => rfl, List.prefix_rfl, rfl⟩

theorem Turn.trans {idx : Nat} {w₂ : Work} (h₁ : Turn idx w w₁) (h₂ : Turn idx w₁ w₂) :
    Turn idx w w₂ :=
  ⟨fun j hj => (h₂.others j hj).trans (h₁.others j hj), h₁.out.trans h₂.out,
    h₂.timeout.trans h₁.timeout⟩

theorem turn_fillRequests (env : Env) (idx : Nat) (w : Work) :
    Turn idx w (fillRequests env idx w) := by
  unfold fillRequests
  split
  · exact .refl idx w
  · split
    · exact .refl idx w
    · simp only
      split
      · exact .refl idx w
      · refine ⟨fun j hj => ?_, List.prefix_append _ _, rfl⟩
        simp only [Work.modifyPicker, Work.modifyPeer, List.getElem?_modify_ne _ _ (Ne.symm hj)]

theorem turn_releaseLate (env : Env) (idx : Nat) (w : Work) :
    Turn idx w (releaseLate env idx w) := by
  unfold releaseLate
  split
  · exact .refl idx w
  · simp only
    split
    · exact .refl idx w
    · refine ⟨fun j hj => ?_, List.prefix_rfl, rfl⟩
      simp only [Work.modifyPicker, Work.modifyPeer, List.getElem?_modify_ne _ _ (Ne.symm hj)]

theorem turn_maintainPeer (env : Env) (s : Work × List (Nat × Bool)) (idx : Nat) :
    Turn idx s.1 (maintainPeer env s idx).1 := by
  rw [maintainPeer_fst]
  split
  · exact turn_releaseLate env idx s.1
  · exact (turn_releaseLate env idx s.1).trans (turn_fillRequests env idx _)

theorem drops_maintainPeer (env : Env) (s : Work × List (Nat × Bool)) (idx : Nat) :
    s.2 <+: (maintainPeer env s idx).2 := by
  unfold maintainPeer
  split
  · exact List.prefix_rfl
  · simp only
    split
    · exact List.prefix_rfl
    · split
      · exact List.prefix_append _ _
      · exact List.prefix_rfl

variable (env : Env) (s : Work × List (Nat × Bool))

/-- The tick after some turns. -/
def turns (n : Nat) : Work × List (Nat × Bool) := (List.range n).foldl (maintainPeer env) s

theorem turns_succ (n : Nat) : turns env s (n + 1) = maintainPeer env (turns env s n) n := by
  rw [turns, List.range_succ, List.foldl_append]
  rfl

theorem timeout_turns (n : Nat) :
    (turns env s n).1.st.requestTimeout = s.1.st.requestTimeout := by
  induction n with
  | zero => rfl
  | succ n ih => rw [turns_succ, (turn_maintainPeer env _ n).timeout, ih]

/-- A peer is as it was until its turn comes. -/
theorem turns_before {i j : Nat} (h : i ≤ j) :
    (turns env s i).1.st.peers[j]? = s.1.st.peers[j]? := by
  induction i with
  | zero => rfl
  | succ i ih =>
      rw [turns_succ, (turn_maintainPeer env _ i).others j (by omega)]
      exact ih (Nat.le_of_succ_le h)

/-- After its turn it is as that left it. -/
theorem turns_after {i n : Nat} (h : i + 1 ≤ n) :
    (turns env s n).1.st.peers[i]? = (turns env s (i + 1)).1.st.peers[i]? ∧
      (turns env s (i + 1)).1.out <+: (turns env s n).1.out ∧
      (turns env s (i + 1)).2 <+: (turns env s n).2 := by
  induction n, h using Nat.le_induction with
  | base => exact ⟨rfl, List.prefix_rfl, List.prefix_rfl⟩
  | succ n hn ih =>
      obtain ⟨hpeer, hout, hdrops⟩ := ih
      have hturn := turn_maintainPeer env (turns env s n) n
      rw [turns_succ]
      exact ⟨(hturn.others i (by omega)).trans hpeer, hout.trans hturn.out,
        hdrops.trans (drops_maintainPeer env _ n)⟩

/-- A peer after what it let expire has been taken off it. -/
theorem releaseLate_seat {idx : Nat} {peer : Peer} (hidx : w.st.peers[idx]? = some peer) :
    (releaseLate env idx w).st.peers[idx]? = some { peer with
      inFlight := (expired w.st env.now peer).foldl (fun m k => m.erase k) peer.inFlight
      strikes := if expired w.st env.now peer = [] then peer.strikes else peer.strikes + 1 } := by
  unfold releaseLate
  simp only [hidx]
  by_cases hlate : expired w.st env.now peer = []
  · simp only [hlate, if_true, List.foldl_nil, hidx]
  · simp only [if_neg hlate]
    exact Work.getElem?_modifyPeer hidx _

/-- What a peer's turn leaves in flight was asked for just now, or has not expired.  If
something has expired it has one strike more, and goes if it has had enough. -/
structure Renewed (peer p : Peer) (late : List BlockKey) (s' : Work × List (Nat × Bool)) :
    Prop where
  id : p.id = peer.id
  owed : ∀ k ∈ p.inFlight, (∃ req, (peer.id, Message.request req) ∈ s'.1.out ∧
    BlockRequest.key req = k) ∨ k ∈ peer.inFlight ∧ k ∉ late
  strikes : late ≠ [] → p.strikes = peer.strikes + 1
  drop : late ≠ [] → REQUEST_STRIKES ≤ p.strikes → (peer.id, true) ∈ s'.2

theorem maintainPeer_seat {idx : Nat} {peer : Peer} (hbal : Balanced sh s.1 [])
    (hidx : s.1.st.peers[idx]? = some peer) :
    ∃ p, (maintainPeer env s idx).1.st.peers[idx]? = some p ∧
      Renewed peer p (expired s.1.st env.now peer) (maintainPeer env s idx) := by
  have hseat := releaseLate_seat env hidx
  have hleft : ∀ k, k ∈ (expired s.1.st env.now peer).foldl (fun m k => m.erase k) peer.inFlight →
      k ∈ peer.inFlight ∧ k ∉ expired s.1.st env.now peer := fun k => (mem_foldl_erase _ _ k).1
  have hdrop : expired s.1.st env.now peer ≠ [] → REQUEST_STRIKES ≤ peer.strikes + 1 →
      (peer.id, true) ∈ (maintainPeer env s idx).2 := by
    intro hlate hstrikes
    unfold maintainPeer
    simp [hidx, hlate, hstrikes]
  have hstrikes : expired s.1.st env.now peer ≠ [] →
      (if expired s.1.st env.now peer = [] then peer.strikes else peer.strikes + 1) =
        peer.strikes + 1 := fun hlate => if_neg hlate
  rw [maintainPeer_fst]
  split
  · exact ⟨_, hseat, rfl, fun k hk => .inr (hleft k hk), hstrikes, fun hlate hmany =>
      hdrop hlate (hstrikes hlate ▸ hmany)⟩
  · rename_i hstays
    rcases fillRequests_cases env idx (balanced_releaseLate env idx hbal).acc.wf with
      heq | ⟨q, hq, hask, hfilled⟩
    · rw [heq]
      exact ⟨_, hseat, rfl, fun k hk => .inr (hleft k hk), hstrikes, fun hlate hmany =>
        hdrop hlate (hstrikes hlate ▸ hmany)⟩
    · obtain rfl := Option.some.inj (hseat.symm.trans hq)
      obtain ⟨flights, hseat', hlookup⟩ := hfilled.seat
      refine ⟨_, hseat', rfl, fun k hk => ?_, hstrikes, fun hlate hmany =>
        hdrop hlate (hstrikes hlate ▸ hmany)⟩
      by_cases howed : k ∈ (expired s.1.st env.now peer).foldl (fun m k => m.erase k) peer.inFlight
      · exact .inr (hleft k howed)
      · have htaken := ((mem_filled hlookup).1 hk).resolve_right howed
        refine .inl ⟨(releaseLate env idx s.1).st.picker.requestFor k, ?_, Picker.key_requestFor _ k⟩
        rw [maintainPeer_fst, if_neg hstays, hfilled.out]
        refine List.mem_append_right _ (List.mem_map.2 ⟨k, ?_, rfl⟩)
        exact List.mem_filter.2 ⟨htaken, decide_eq_true howed⟩

/-- Before the turns, nobody owes more or less. -/
theorem ticked_eq (env : Env) (e : Engine) : ∃ out, (ticked env e).1 = { e.enter with
    st := { e.st with peers := e.st.peers.map fun p => { p with metadataRequests := 0 } }
    out := out } := by
  have hfold : ∀ (l : List Peer) keepalive timeout (s : Work × List (Nat × Bool)),
      ∃ out, (l.foldl (tickPeer env keepalive timeout) s).1 = { s.1 with out := out } := by
    intro l keepalive timeout
    induction l with
    | nil => exact fun s => ⟨s.1.out, rfl⟩
    | cons p l ih =>
        intro s
        obtain ⟨out, heq⟩ := ih (tickPeer env keepalive timeout s p)
        refine ⟨out, heq.trans ?_⟩
        unfold tickPeer
        split
        · rfl
        · split <;> rfl
  exact hfold _ _ _ _

/-- In a tick each peer has one turn. -/
theorem maintainRequests_turn (env : Env) (hacc : e.Accounts sh) {i : Nat} {q : Peer}
    (hq : e.st.peers[i]? = some q) :
    ∃ p, (maintainRequests env (ticked env e)).1.st.peers[i]? = some p ∧
      Renewed q p (expired e.st env.now q) (maintainRequests env (ticked env e)) := by
  obtain ⟨out, hticked⟩ := ticked_eq env e
  have hbal := balanced_ticked env hacc
  have htimeout : (ticked env e).1.st.requestTimeout = e.st.requestTimeout := by rw [hticked]
  have hseat : (ticked env e).1.st.peers[i]? = some { q with metadataRequests := 0 } := by
    rw [hticked]
    simp [hq]
  have hlt : i + 1 ≤ (ticked env e).1.st.peers.length := (List.getElem?_eq_some_iff.1 hseat).1
  obtain ⟨p, hp, hrenewed⟩ := maintainPeer_seat env (turns env (ticked env e) i)
    (balanced_maintainPeers env (List.range i) hbal)
    ((turns_before env (ticked env e) (le_refl i)).trans hseat)
  have hlate : expired (turns env (ticked env e) i).1.st env.now { q with metadataRequests := 0 } =
      expired e.st env.now q := by
    unfold expired
    rw [timeout_turns, htimeout]
  rw [hlate, ← turns_succ] at hrenewed
  rw [← turns_succ] at hp
  -- The turns after it leave the peer alone.
  obtain ⟨hafter, hout, hdrops⟩ := turns_after env (ticked env e) hlt
  refine ⟨p, hafter.trans hp, hrenewed.id, fun k hk => ?_, hrenewed.strikes, fun h₁ h₂ => ?_⟩
  · refine (hrenewed.owed k hk).imp (fun hnew => ?_) id
    obtain ⟨req, hreq, hkey⟩ := hnew
    exact ⟨req, hout.subset hreq, hkey⟩
  · exact hdrops.subset (hrenewed.drop h₁ h₂)

theorem length_maintainRequests (env : Env) (e : Engine) :
    (maintainRequests env (ticked env e)).1.st.peers.length = e.st.peers.length := by
  have hids := (leaves_maintainRequests [] env (ticked env e) .table (by simp)).ids.trans
    (lapses_ticked env e).ids
  simpa [State.ids, Engine.enter] using congrArg List.length hids

/-- What a run asked of its peers, if it repeated nothing: each block in flight bears the instant
at which it was last asked for.  Once a tick has looked through the requests, each block in flight
was asked for just now, or less than the timeout ago.  What had been asked for longer ago has cost
its peer a strike, and the picker counts what is owed now. -/
theorem requests_expire (sh : Shared) (initialHave : Bitfield) (mode : Mode) (now : Nat)
    (disk : Disk) (events : List Event)
    (hall : Machine.Along (Engine.step sh) (Event.Unrepeated sh) events
      (Engine.new sh initialHave mode now disk)) :
    let e := Engine.run sh events (Engine.new sh initialHave mode now disk)
    let log := history sh events (Engine.new sh initialHave mode now disk)
    Recorded log e.st ∧ ∀ env : Env,
      let s := maintainRequests env (ticked env e)
      (∀ p ∈ s.1.st.peers, ∀ k ∈ p.inFlight,
        (∃ req, (p.id, Message.request req) ∈ s.1.out ∧ BlockRequest.key req = k) ∨
          ∃ t, Log.last log (p.id, k) = some t ∧ env.now - t < e.st.requestTimeout) ∧
      (∀ p ∈ e.st.peers, ∀ k ∈ p.inFlight, ∀ t, Log.last log (p.id, k) = some t →
        e.st.requestTimeout ≤ env.now - t →
          ∃ p' ∈ s.1.st.peers, p'.id = p.id ∧ p'.strikes = p.strikes + 1 ∧
            (REQUEST_STRIKES ≤ p'.strikes → (p.id, true) ∈ s.2)) ∧
      ∀ k, s.1.st.picker.inFlightOf k = owing s.1.st.peers k := by
  intro e log
  have hacc : e.Accounts sh := accounts_run events (accounts_new sh initialHave mode now disk)
  have hrecorded : Recorded log e.st := recorded_run hall (accounts_new sh initialHave mode now disk)
    (seated_new sh initialHave mode now disk) fun p hp => absurd hp List.not_mem_nil
  refine ⟨hrecorded, fun env => ?_⟩
  intro s
  refine ⟨fun p hp k hk => ?_, fun p hp k hk t ht hlate => ?_, fun k => ?_⟩
  · obtain ⟨i, hi⟩ := List.mem_iff_getElem?.1 hp
    have hlt : i < e.st.peers.length :=
      length_maintainRequests env e ▸ (List.getElem?_eq_some_iff.1 hi).1
    obtain ⟨p', hp', hrenewed⟩ := maintainRequests_turn env hacc (List.getElem?_eq_getElem hlt)
    obtain rfl := Option.some.inj (hi.symm.trans hp')
    rw [hrenewed.id]
    refine (hrenewed.owed k hk).imp id fun hold => ?_
    obtain ⟨t, ht⟩ := Option.isSome_iff_exists.1 (AList.lookup_isSome.2 hold.1)
    refine ⟨t, hrecorded _ (List.getElem_mem hlt) k t ht, ?_⟩
    by_contra hlong
    exact hold.2 (mem_expired.2 ⟨t, ht, not_lt.1 hlong⟩)
  · obtain ⟨i, hi⟩ := List.mem_iff_getElem?.1 hp
    obtain ⟨p', hp', hrenewed⟩ := maintainRequests_turn env hacc hi
    have hne : expired e.st env.now p ≠ [] := by
      obtain ⟨t', ht'⟩ := Option.isSome_iff_exists.1 (AList.lookup_isSome.2 hk)
      have hsame := Option.some.inj ((hrecorded p hp k t' ht').symm.trans ht)
      exact List.ne_nil_of_mem (mem_expired.2 ⟨t', ht', hsame ▸ hlate⟩)
    exact ⟨p', List.mem_of_getElem? hp', hrenewed.id, hrenewed.strikes hne,
      fun hmany => hrenewed.drop hne hmany⟩
  · simpa using (balanced_maintainRequests env (balanced_ticked env hacc)).acc.exact k

theorem requests_expire_grown :
    let e := Engine.run NinePairs.shared NinePairs.grown NinePairs.start
    Recorded (history NinePairs.shared NinePairs.grown NinePairs.start) e.st :=
  (requests_expire NinePairs.shared (Bitfield.empty 9) .rarestFirst 0 (fun _ => []) NinePairs.grown
    (by decide +kernel)).1

/-- The peer has been silent since it was asked at 0.  A tick at 50000 has room for more, is handed
the same blocks and enters them anew, so the one at 90000 finds nothing expired. -/
theorem requests_linger :
    let events := NinePairs.grown ++ [.maintain (OneByte.env 50000)]
    let e := Engine.run NinePairs.shared events NinePairs.start
    let s := maintainRequests (OneByte.env 90000) (ticked (OneByte.env 90000) e)
    ∃ p ∈ e.st.peers, p.inFlight.lookup (0, 0) = some 50000 ∧
      Log.last (history NinePairs.shared events NinePairs.start) (p.id, (0, 0)) = some 0 ∧
      e.st.requestTimeout ≤ 90000 - 0 ∧
      ∃ p' ∈ s.1.st.peers, p'.id = p.id ∧ (0, 0) ∈ p'.inFlight ∧ p'.strikes = p.strikes ∧
        ∀ o ∈ s.1.out, isRequest o.2 = false := by
  decide +kernel

end Clove.Torrent
