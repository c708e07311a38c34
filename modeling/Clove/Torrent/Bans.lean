import Clove.Torrent.Destinations

/-!
# Bans

The peers of a banned destination stay seated until a thread drops them: `Purging` says that
they are all on their way out, in the queue for removal or in the list a thread took from it.
On a private torrent `Discreet` says that nothing on its way to a peer is a peer exchange.
-/

namespace Clove.Torrent

open Wire (Message)

variable {sh : Shared} {e : Engine} {w : Work}

/-! ## Peers of banned destinations -/

/-- Whom a critical section bans it leaves its thread to drop, with those queued before. -/
structure Removes (e : Engine) (r : Engine × Job) : Prop where
  seats : ∀ p ∈ r.1.st.peers, ∃ q ∈ e.st.peers, q.id = p.id ∧ q.dest = p.dest
  banned : ∀ p ∈ e.st.peers, p.dest ∈ r.1.st.banned →
    p.dest ∈ e.st.banned ∨ (p.id, true) ∈ r.2.drops
  queued : e.st.toDrop ⊆ r.2.drops

theorem removes_onMessage (hacc : e.Accounts sh) (env : Env) (id : Nat) (msg : Message) :
    Removes e (onMessage sh env id msg e) := by
  have hseats : ∀ p ∈ (onMessage sh env id msg e).1.st.peers,
      ∃ q ∈ e.st.peers, q.id = p.id ∧ q.dest = p.dest := by
    obtain ⟨w, htable, heq⟩ := table_onMessage sh env id msg e
    rw [heq]
    exact fun p hp => htable.seat hp
  rcases destinations_onMessage hacc env id msg with ⟨-, -, hlearns⟩ | ⟨ds, hbans, -⟩
  · exact ⟨hseats, fun p _ hd => .inl (hlearns.banned ▸ hd), hlearns.queued⟩
  · refine ⟨hseats, fun p hp hd => ?_, hbans.queued⟩
    rcases (hbans.banned p.dest).1 hd with hds | hd
    · exact .inr (hbans.doomed p hp hds)
    · exact .inl hd

theorem removes_maintain (env : Env) (e : Engine) : Removes e (maintain env e) := by
  have hbans := bans_maintain env e
  refine ⟨?_, fun p _ hd => ?_, hbans.queued⟩
  · obtain ⟨w, extra, hleaves, heq⟩ := leaves_maintain env e
    rw [heq]
    exact fun p hp => (hleaves .table (by simp)).seat hp
  · rcases (hbans.banned p.dest).1 hd with hds | hd
    · cases hds
    · exact .inl hd

namespace System

/-- This peer is queued for removal, or a thread is about to drop it. -/
def Leaving (s : System) (id : Nat) : Prop :=
  ∃ d : Nat × Bool, d.1 = id ∧ (d ∈ s.engine.st.toDrop ∨ ∃ t ∈ s.tasks, d ∈ t.drops)

/-- Every peer of a banned destination is leaving. -/
def Purging (s : System) : Prop :=
  ∀ p ∈ s.engine.st.peers, p.dest ∈ s.engine.st.banned → s.Leaving p.id

end System

variable {s s' : System}

/-- A step that leaves queue and tasks alone, bans nobody and seats nobody banned. -/
theorem System.Purging.of_same (h : s.Purging) (htasks : s'.tasks = s.tasks)
    (hqueue : s'.engine.st.toDrop = s.engine.st.toDrop)
    (hbanned : s'.engine.st.banned = s.engine.st.banned)
    (hseats : ∀ p ∈ s'.engine.st.peers, p.dest ∈ s.engine.st.banned →
      ∃ q ∈ s.engine.st.peers, q.id = p.id ∧ q.dest = p.dest) : s'.Purging := by
  intro p hp hban
  rw [hbanned] at hban
  obtain ⟨q, hq, hid, hdest⟩ := hseats p hp hban
  rw [System.Leaving, htasks, hqueue, ← hid]
  exact h q hq (hdest ▸ hban)

theorem System.Purging.leave (h : s.Purging) {r : Engine × Job} (hr : Removes s.engine r)
    (thread : Thread) : (s.leave thread r).Purging := by
  intro p hp hban
  obtain ⟨q, hq, hid, hdest⟩ := hr.seats p hp
  have hjob : ∀ d ∈ r.2.drops, ∃ t ∈ (s.leave thread r).tasks, d ∈ t.drops := fun d hd =>
    ⟨_, List.mem_append_right _ (List.mem_singleton.2 rfl), hd⟩
  rw [← hid]
  rcases hr.banned q hq (hdest.symm ▸ hban) with hban | hdrop
  · obtain ⟨d, hd, hqueue | ⟨t, ht, hdrops⟩⟩ := h q hq hban
    · exact ⟨d, hd, .inr (hjob d (hr.queued hqueue))⟩
    · exact ⟨d, hd, .inr ⟨t, List.mem_append_left _ ht, hdrops⟩⟩
  · exact ⟨_, rfl, .inr (hjob _ hdrop)⟩

/-- A thread drops its next peer. -/
theorem System.Purging.droppedBy (h : s.Purging) {pos now id : Nat} {forCause : Bool} {t t' : Task}
    (htask : s.tasks[pos]? = some t) (hdrops : ∀ d ∈ t.drops, d.1 = id ∨ d ∈ t'.drops)
    (hnodup : s.engine.st.ids.Nodup) :
    ({ s with engine := s.engine.modifyState (dropPeer now id forCause) }.setTask pos t').Purging := by
  intro p hp hban
  have hbooks : p ∈ s.engine.st.peers ∧ p.id ≠ id ∧ p.dest ∈ s.engine.st.banned ∧
      (dropPeer now id forCause s.engine.st).toDrop = s.engine.st.toDrop := by
    have hp : p ∈ (dropPeer now id forCause s.engine.st).peers := hp
    have hban : p.dest ∈ (dropPeer now id forCause s.engine.st).banned := hban
    rcases dropPeer_cases now id forCause s.engine.st with
      ⟨hgone, heq⟩ | ⟨peer, rest, hperm, hid, heq⟩
    · rw [heq] at hp hban ⊢
      exact ⟨hp, hgone p hp, hban, rfl⟩
    · rw [heq] at hp hban ⊢
      refine ⟨hperm.subset (List.mem_cons_of_mem _ hp), ?_, hban, rfl⟩
      have hids := (hperm.map Peer.id).nodup_iff.2 hnodup
      rw [List.map_cons, List.nodup_cons, hid] at hids
      exact fun heq => hids.1 (heq ▸ List.mem_map_of_mem hp)
  obtain ⟨hp, hne, hban, hqueue⟩ := hbooks
  obtain ⟨d, hd, hin | ⟨u, hu, hin⟩⟩ := h p hp hban
  · exact ⟨d, hd, .inl (hqueue.symm ▸ hin)⟩
  · obtain ⟨post, hsplit, hset⟩ := setTask_split htask
    refine ⟨d, hd, .inr ?_⟩
    show ∃ t ∈ (s.setTask pos t').tasks, d ∈ t.drops
    rw [hset]
    rw [hsplit] at hu
    rcases List.mem_append.1 hu with hu | hu
    · exact ⟨u, List.mem_append_left _ hu, hin⟩
    · rcases List.mem_cons.1 hu with rfl | hu
      · refine ⟨t', by simp, (hdrops d hin).resolve_left fun heq => hne ?_⟩
        exact hd.symm.trans heq
      · exact ⟨u, by simp [hu], hin⟩

/-- A thread moves on to its next message. -/
theorem System.Purging.setTask (h : s.Purging) {pos : Nat} {t t' : Task}
    (htask : s.tasks[pos]? = some t) (hdrops : t'.drops = t.drops) : (s.setTask pos t').Purging := by
  intro p hp hban
  obtain ⟨d, hd, hin | ⟨u, hu, hin⟩⟩ := h p hp hban
  · exact ⟨d, hd, .inl hin⟩
  · obtain ⟨post, hsplit, hset⟩ := setTask_split htask
    refine ⟨d, hd, .inr ?_⟩
    rw [hset]
    rw [hsplit] at hu
    rcases List.mem_append.1 hu with hu | hu
    · exact ⟨u, List.mem_append_left _ hu, hin⟩
    · rcases List.mem_cons.1 hu with rfl | hu
      · exact ⟨t', by simp, hdrops ▸ hin⟩
      · exact ⟨u, by simp [hu], hin⟩

theorem System.Purging.step (h : s.Purging) (hacc : s.engine.Accounts sh)
    (hnodup : s.engine.st.ids.Nodup) (a : Action) : (System.step sh a s).Purging := by
  have hsame : ∀ attaches stop, System.Purging { s with attaches := attaches, stop := stop } :=
    fun _ _ => h
  cases a with
  | message env id msg =>
      unfold System.step
      simp only
      split
      · exact h
      · exact h.leave (removes_onMessage hacc env id msg) _
  | maintain env =>
      unfold System.step
      simp only
      split
      · exact h
      · exact h.leave (removes_maintain env s.engine) _
  | control ev =>
      unfold System.step
      simp only
      split
      · rename_i hctl
        obtain ⟨hqueue, hbanned⟩ := books_control sh s.engine ev hctl
        exact h.of_same rfl hqueue hbanned (seats_step sh ev s.engine).2
      · exact h
  | drop pos now =>
      unfold System.step System.dropNext
      simp only
      split
      · rename_i thread id c drops sends refused htask
        refine h.droppedBy htask (fun d hd => ?_) hnodup
        rcases List.mem_cons.1 hd with rfl | hd
        · exact .inl rfl
        · exact .inr hd
      · rename_i htask
        exact h.droppedBy htask (by simp) hnodup
      · exact h
  | send pos taken =>
      unfold System.step System.sendNext
      simp only
      split
      · rename_i htask
        split
        · exact h.setTask htask rfl
        · exact h.setTask htask rfl
      · exact h
  | accept dest theirs =>
      unfold System.step
      simp only
      split
      · exact hsame _ _
      · exact h
  | dial dest =>
      unfold System.step
      simp only
      split
      · exact hsame _ _
      · exact h
  | greet pos theirs =>
      unfold System.step
      simp only
      split
      · split <;> exact hsame _ _
      · exact h
  | abandon pos => exact hsame _ _
  | announce pos =>
      unfold System.step
      simp only
      split
      · exact hsame _ _
      · exact h
  | register pos env =>
      unfold System.step System.registerNext
      simp only
      split
      · rename_i dest theirs field _
        have hseats := (seats_step sh (.register env dest
          (theirs.fast && sh.ourHandshake.extensions.fast)) s.engine).2
        rcases registerPeer_cases sh env dest (theirs.fast && sh.ourHandshake.extensions.fast)
          s.engine.st with ⟨r, heq⟩ | ⟨_, _, _, _, _, heq⟩
        · simp only [heq]
          exact hsame _ _
        · simp only [Engine.step, Engine.modifyState, heq] at hseats ⊢
          exact h.of_same rfl rfl rfl hseats
      · exact h
  | halt =>
      unfold System.step System.haltNext
      simp only
      split
      · exact hsame _ _
      · exact hsame _ _
      · intro p hp hban
        obtain ⟨d, hd, hin | ⟨u, hu, hin⟩⟩ := h p hp hban
        · exact ⟨d, hd, .inl hin⟩
        · exact ⟨d, hd, .inr ⟨u, List.mem_append_left _ hu, hin⟩⟩
      · exact h

/-! ## Private torrents -/

/-- The second byte of a dictionary belongs to its first key. -/
theorem getElem?_encode_dict {k : Bytes} {c : UInt8} {rest : Bytes}
    (hk : Bencode.putBytes k = c :: rest) (v : Bencode.Value) (m : List (Bytes × Bencode.Value)) :
    (Bencode.encode (.dict ((k, v) :: m)))[1]? = some c := by
  simp [Bencode.encode, Bencode.encodeEntries, hk]

theorem getElem?_encode_pex (m : Pex.PexMessage) : m.encode[1]? = some 53 :=
  getElem?_encode_dict (k := Pex.ADDED) rfl _ _

/-- Not the payload of a peer exchange. -/
def NotPex (payload : Bytes) : Prop := ∀ m : Pex.PexMessage, payload ≠ m.encode

theorem notPex_of_getElem? {payload : Bytes} (h : payload[1]? ≠ some 53) : NotPex payload :=
  fun m heq => h (heq ▸ getElem?_encode_pex m)

theorem notPex_metadata (m : Metadata.MetadataMessage) : NotPex m.encode := by
  have hsecond : m.encode[1]? = some 56 := by cases m <;> rfl
  exact notPex_of_getElem? (by rw [hsecond]; decide)

theorem notPex_handshake (sh : Shared) : NotPex sh.ourExtensionHandshake := by
  have hsecond : sh.ourExtensionHandshake[1]? = some 49 := by
    unfold Shared.ourExtensionHandshake Extension.Handshake.encode
    simp only
    split <;> split <;> rfl
  exact notPex_of_getElem? (by rw [hsecond]; decide)

/-- On a private torrent an extended message is answered with metadata or not at all. -/
theorem out_onExtended (hprivate : sh.isPrivate = true) (env : Env) (idx : Nat) (extId : UInt8)
    (payload : Bytes) (w : Work) : (onExtended sh env idx extId payload w).out = w.out ∨
      ∃ id metadataId, ∃ m : Metadata.MetadataMessage,
        (onExtended sh env idx extId payload w).out = w.out ++ [(id, .extended metadataId m.encode)] := by
  unfold onExtended
  split
  · split
    · exact .inl rfl
    · exact .inl rfl
  · split
    · exact .inl rfl
    · split
      · split
        · unfold serveMetadata
          split
          · exact .inl rfl
          · split
            · exact .inl rfl
            · exact .inr ⟨_, _, _, rfl⟩
        · exact .inl rfl
      · exact .inl rfl

theorem notPex_onMessage (hprivate : sh.isPrivate = true) {env : Env} {id id' : Nat}
    {extId : UInt8} {payload : Bytes} {msg : Message} (hacc : e.Accounts sh)
    (h : (id', Message.extended extId payload) ∈ (onMessage sh env id msg e).2.sends) :
    NotPex payload := by
  obtain ⟨w, w₁, w₂, hentered, hcase, hafter, heq⟩ := onMessage_inv hacc env id msg
  rw [heq] at h
  have hsent := ((hafter .talk (by simp)).mem_out rfl).1 h
  have hempty : (id', Message.extended extId payload) ∉ w.out := fun hmem =>
    absurd (((hentered.rest .talk (by simp)).mem_out rfl).1 hmem) List.not_mem_nil
  rcases hcase with ⟨-, rfl⟩ | ⟨idx, peer, first, fast, -, -, rfl⟩
  · exact absurd hsent hempty
  · by_cases hmsg : .talk ∈ footprint msg
    · cases msg with
      | extended extId' payload' =>
          rcases out_onExtended hprivate env idx extId' payload' w with hout | ⟨i, x, m, hout⟩
          · exact absurd (hout ▸ hsent) hempty
          · have hsent : _ ∈ w.out ++ [_] := hout ▸ hsent
            rcases List.mem_append.1 hsent with hmem | hmem
            · exact absurd hmem hempty
            · have hmem := List.mem_singleton.1 hmem
              have hpayload := (Message.extended.inj (Prod.mk.inj hmem).2).2
              rw [hpayload]
              exact notPex_metadata m
      | _ => simp [footprint, blockAspects] at hmsg
    · have hnone := leaves_dispatch sh env idx id first fast msg w _ hmsg
      exact absurd ((hnone.mem_out rfl).1 hsent) hempty

/-- Nothing on its way to a peer is a peer exchange. -/
def System.Discreet (s : System) : Prop :=
  ∀ id extId payload, Message.extended extId payload ∈ s.onWay id → NotPex payload

theorem System.Discreet.step (h : s.Discreet) (hprivate : sh.isPrivate = true)
    (hseat : s.engine.Seated sh) (hacc : s.engine.Accounts sh) (haddr : s.Addressed sh) (a : Action) :
    (System.step sh a s).Discreet := by
  have hout := step_outcome a hseat
  generalize System.step sh a s = s' at hout
  intro id extId payload hmem
  cases hout with
  | same hsame _ =>
      rw [System.onWay, System.unsent, hsame.tasks, hsame.queues] at hmem
      exact h id extId payload hmem
  | @ran _ thread r news hruns _ =>
      rw [onWay_leave, List.mem_append] at hmem
      rcases hmem with hmem | hmem
      · exact h id extId payload hmem
      · have hmem := mem_sentTo.1 hmem
        rcases hruns with ⟨env, i, msg, rfl⟩ | ⟨env, rfl⟩
        · exact notPex_onMessage hprivate hacc hmem
        · obtain ⟨w, extra, hleaves, heq⟩ := leaves_maintain env s.engine
          rw [heq] at hmem
          exact absurd (((hleaves .talk (by simp)).mem_out rfl).1 hmem) List.not_mem_nil
  | dropped _ => exact h id extId payload hmem
  | droppedBy htask hsends _ _ _ _ =>
      rw [onWay_dropped htask hsends] at hmem
      exact h id extId payload hmem
  | sent htask => exact h id extId payload ((mem_onWay_sent htask id).1 hmem)
  | refused htask => exact h id extId payload (mem_onWay_refused htask hmem)
  | @registered pos env dest theirs field st _ _ _ =>
      rw [onWay_seat] at hmem
      split at hmem
      · rename_i hid
        rcases List.mem_append.1 hmem with hmem | hmem
        · unfold opening at hmem
          split at hmem <;> simp only [List.mem_cons, List.not_mem_nil, or_false] at hmem
          · rcases hmem with hmem | hmem
            · cases hmem
            · rw [(Message.extended.inj hmem).2]
              exact notPex_handshake sh
          · cases hmem
        · exact absurd (haddr.sends _ (mem_sentTo.1 hmem)) (hid ▸ lt_irrefl _)
      · exact h id extId payload hmem
  | listed =>
      refine h id extId payload ?_
      simpa [System.onWay, System.unsent] using hmem

/-! ## Every run -/

/-- A message on a private torrent: nothing becomes known, and only what is banned is forgotten. -/
theorem private_onMessage (hprivate : sh.isPrivate = true) (hbooked : Booked e.st)
    (hacc : e.Accounts sh) (env : Env) (id : Nat) (msg : Message) (d : DestHash) :
    (onMessage sh env id msg e).1.st.knownPeers.lookup d = e.st.knownPeers.lookup d ∨
      d ∉ e.st.banned ∧ d ∈ (onMessage sh env id msg e).1.st.banned ∧
        (onMessage sh env id msg e).1.st.knownPeers.lookup d = none := by
  rcases destinations_onMessage hacc env id msg with ⟨hopen, -, -⟩ | ⟨ds, hbans, -⟩
  · rw [hprivate] at hopen
    cases hopen
  · rw [hbans.lookup]
    by_cases hds : d ∈ ds
    · rw [if_pos hds]
      cases hknown : e.st.knownPeers.lookup d with
      | none => exact .inl rfl
      | some source =>
          refine .inr ⟨fun hban => hbooked.banned d hban ?_, (hbans.banned d).2 (.inl hds), rfl⟩
          exact AList.lookup_isSome.1 (by rw [hknown]; rfl)
    · rw [if_neg hds]
      exact .inl rfl

theorem extended_onMessage (hacc : e.Accounts sh) (env : Env) (id : Nat) (extId : UInt8)
    (payload : Bytes) {d : DestHash} {source : Source}
    (h : e.st.knownPeers.lookup d = some source) :
    (onMessage sh env id (.extended extId payload) e).1.st.knownPeers.lookup d = some source := by
  rcases destinations_onMessage hacc env id (.extended extId payload) with
    ⟨-, -, hlearns⟩ | ⟨ds, hbans, htalk⟩
  · exact hlearns.kept d source h
  · rw [hbans.lookup, htalk rfl]
    simpa using h

/-- Only telling a torrent its own destination is that event. -/
theorem event_setLocalDest {a : Action} {dest : DestHash}
    (h : s.event sh a = some (.setLocalDest dest)) : a = .control (.setLocalDest dest) := by
  cases a with
  | control ev =>
      simp only [System.event] at h
      split at h
      · exact congrArg Action.control (Option.some.inj h)
      · cases h
  | message env id msg =>
      simp only [System.event] at h
      split at h <;> cases h
  | maintain env =>
      simp only [System.event] at h
      split at h <;> cases h
  | drop pos now =>
      simp only [System.event] at h
      split at h <;> cases h
  | register pos env =>
      simp only [System.event] at h
      split at h <;> cases h
  | _ => cases h

/-- Destinations over whole runs.  In every state the books are in order and every peer of a
banned destination is leaving.  Every step keeps bans; a trusted destination is forgotten only by
a ban or because it is our own; the table grows only by a peer that is not banned, and not above
the limit.  An extended message forgets nothing.  On a private torrent a message makes nothing
known and forgets only what it bans, and no peer exchange is ever on its way to a peer. -/
theorem known_peers_and_bans (sh : Shared) (initialHave : Bitfield) (mode : Mode) (now : Nat)
    (disk : Disk) (actions : List Action) :
    let s := System.run sh actions (System.new sh initialHave mode now disk)
    Booked s.engine.st ∧ s.Purging ∧
      (∀ a, let s' := System.step sh a s
        s.engine.st.banned ⊆ s'.engine.st.banned ∧
        (∀ d, s.engine.st.knownPeers.lookup d = some .trusted →
          s'.engine.st.knownPeers.lookup d = some .trusted ∨
            d ∉ s.engine.st.banned ∧ d ∈ s'.engine.st.banned ∨ a = .control (.setLocalDest d)) ∧
        (s'.engine.st.peers.length ≤ s.engine.st.peers.length ∨
          ∀ n, s.engine.st.maxPeers = some n → s'.engine.st.peers.length ≤ n) ∧
        ∀ p ∈ s'.engine.st.peers, p.dest ∈ s.engine.st.banned →
          ∃ q ∈ s.engine.st.peers, q.id = p.id ∧ q.dest = p.dest) ∧
      (∀ env id extId payload d source, s.engine.st.knownPeers.lookup d = some source →
        (System.step sh (.message env id (.extended extId payload)) s).engine.st.knownPeers.lookup d
          = some source) ∧
      (sh.isPrivate = true →
        (∀ env id msg d, let s' := System.step sh (.message env id msg) s
          s'.engine.st.knownPeers.lookup d = s.engine.st.knownPeers.lookup d ∨
            d ∉ s.engine.st.banned ∧ d ∈ s'.engine.st.banned ∧
              s'.engine.st.knownPeers.lookup d = none) ∧
        ∀ id extId payload, Message.extended extId payload ∈ s.onWay id → NotPex payload) := by
  intro s
  let Inv := fun s : System => s.Addressed sh ∧ s.engine.Accounts sh ∧ Booked s.engine.st ∧
    s.Purging ∧ (sh.isPrivate = true → s.Discreet)
  have hnew : Inv (System.new sh initialHave mode now disk) := by
    refine ⟨addressed_new sh initialHave mode now disk, accounts_new sh initialHave mode now disk,
      ⟨Nat.zero_le _, fun d hd => absurd hd List.not_mem_nil, nofun, Nat.zero_le _, ?_⟩, ?_, ?_⟩
    · exact fun d => Nat.zero_le _
    · exact fun p hp => absurd hp List.not_mem_nil
    · exact fun _ id extId payload hmem => absurd hmem List.not_mem_nil
  have hstep : ∀ a s, Inv s → Inv (System.step sh a s) := by
    rintro a s ⟨haddr, hacc, hbooked, hpurge, hdiscreet⟩
    refine ⟨haddr.step a, engine_induction hacc (fun ev => accounts_step ev hacc) a,
      engine_induction (P := fun e => Booked e.st) hbooked (fun ev => hbooked.step hacc ev) a,
      hpurge.step hacc haddr.seated.nodup a, fun hprivate => ?_⟩
    exact (hdiscreet hprivate).step hprivate haddr.seated hacc haddr a
  obtain ⟨haddr, hacc, hbooked, hpurge, hdiscreet⟩ : Inv s :=
    Machine.run_induction hstep actions hnew
  refine ⟨hbooked, hpurge, fun a => ?_, fun env id extId payload d source hd => ?_,
    fun hprivate => ⟨fun env id msg d => ?_, hdiscreet hprivate⟩⟩
  · simp only
    rw [engine_step]
    cases hev : s.event sh a with
    | none =>
        exact ⟨fun _ hd => hd, fun d hd => .inl hd, .inl le_rfl, fun p hp _ => ⟨p, hp, rfl, rfl⟩⟩
    | some ev =>
        obtain ⟨hroom, hseats⟩ := seats_step sh ev s.engine
        rcases loyal_step hbooked hacc ev with hloyal | ⟨dest, rfl, heq⟩
        · exact ⟨hloyal.banned, fun d hd => (hloyal.trusted d hd).imp_right .inl, hroom, hseats⟩
        · refine ⟨?_, fun d hd => ?_, hroom, hseats⟩
          · exact fun _ hd => hd
          · show (s.engine.st.knownPeers.erase dest).lookup d = _ ∨ _
            rw [Map.lookup_erase]
            by_cases hdest : d = dest
            · exact .inr (.inr (hdest ▸ event_setLocalDest hev))
            · rw [if_neg hdest]
              exact .inl hd
  · rw [engine_step]
    simp only [System.event]
    split
    · exact hd
    · exact extended_onMessage hacc env id extId payload hd
  · simp only
    rw [engine_step]
    simp only [System.event]
    split
    · exact .inl rfl
    · exact private_onMessage hprivate hbooked hacc env id msg d

namespace OneByte

/-- The torrent with `private` set. -/
def hiddenInfo : Bytes := rawInfo.dropLast ++ [55, 58, 112, 114, 105, 118, 97, 116, 101, 105, 49, 101, 101]

def hidden : Shared where
  infoHash := [109, 194, 163, 101, 217, 239, 67, 56, 217, 239, 109, 23, 249, 105, 150, 230, 165, 201,
    36, 115]
  peerId := shared.peerId
  storage := shared.storage
  rawInfo := hiddenInfo
  isPrivate := true
  sha1 := fun bs =>
    if bs = [97] then digest
    else if bs = [98] then
      [233, 215, 31, 94, 231, 201, 45, 109, 201, 233, 47, 253, 173, 23, 184, 189, 73, 65, 143, 152]
    else []

/-- A peer connects, says it has the piece and unchokes us. -/
def asked : List Action :=
  attach 0 ++ [.message (env 0) 0 (.bitfield [128]), .send 0 true, .message (env 0) 0 .unchoke,
    .send 1 true]

end OneByte

/-- On a private torrent a peer sends the wrong byte, and is forgotten. -/
theorem block_forgets_destination :
    let s := System.run OneByte.hidden OneByte.asked
      (System.new OneByte.hidden (Bitfield.empty 1) .rarestFirst 0 fun _ => [])
    let s' := System.step OneByte.hidden (.message (OneByte.env 0) 0 (.piece 0 0 [98])) s
    OneByte.hidden.isPrivate = true ∧
      s.engine.st.knownPeers.lookup (OneByte.dest 0) = some .trusted ∧
      s'.engine.st.knownPeers.lookup (OneByte.dest 0) = none := by
  decide +kernel

end Clove.Torrent
