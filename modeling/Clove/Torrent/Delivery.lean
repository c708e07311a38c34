import Clove.Torrent.Threads

/-!
# What peers are told

A message is decided under the lock and placed on a queue later.  What a peer has been told
is what is on its queue; what it is going to be told is what threads still hold for it, in
the order the decisions were made.  A peer whose queue refused a message is condemned: a
thread is about to drop it.
-/

namespace Clove.Torrent

open Wire (Message)

namespace System

/-- The messages threads have still to hand over, in the order they were decided. -/
def unsent (s : System) : List Outgoing := s.tasks.flatMap (·.sends)

/-- What a peer has been told and is going to be told. -/
def onWay (s : System) (id : Nat) : List Message := s.queues id ++ sentTo id s.unsent

/-- This peer's queue refused a message, and a thread is about to drop it. -/
def Condemned (s : System) (id : Nat) : Prop := ∃ t ∈ s.tasks, t.refused = some id

/-- Ids are unique and nothing waits to be sent to an id not given out yet. -/
structure Addressed (sh : Shared) (s : System) : Prop where
  seated : s.engine.Seated sh
  sends : ∀ o ∈ s.unsent, o.1 < s.engine.st.nextId

end System

variable {sh : Shared} {s s' : System}

theorem State.mem_ids {st : State} {id : Nat} : id ∈ st.ids ↔ ∃ b, (id, b) ∈ st.seats := by
  rw [← State.map_fst_seats, List.mem_map]
  constructor
  · rintro ⟨⟨i, b⟩, hmem, rfl⟩
    exact ⟨b, hmem⟩
  · rintro ⟨b, hmem⟩
    exact ⟨(id, b), hmem, rfl⟩

theorem System.Quiescent.unsent (h : s.Quiescent) : s.unsent = [] :=
  List.flatMap_eq_nil_iff.2 fun t ht => (h t ht).1

theorem System.Quiescent.not_condemned (h : s.Quiescent) (id : Nat) : ¬ s.Condemned id := by
  rintro ⟨t, ht, hrefused⟩
  rw [(h t ht).2] at hrefused
  cases hrefused

/-- Once nothing is held back, what a peer has been told is all there is. -/
theorem System.Quiescent.onWay (h : s.Quiescent) (id : Nat) : s.onWay id = s.queues id := by
  simp [System.onWay, h.unsent, sentTo]

/-! ## Tasks -/

theorem unsent_leave (s : System) (thread : Thread) (r : Engine × Job) :
    (s.leave thread r).unsent = s.unsent ++ r.2.sends := by
  simp [System.leave, System.unsent]

theorem onWay_leave (s : System) (thread : Thread) (r : Engine × Job) (id : Nat) :
    (s.leave thread r).onWay id = s.onWay id ++ sentTo id r.2.sends := by
  rw [System.onWay, unsent_leave, sentTo_append, ← List.append_assoc]
  rfl

theorem condemned_append {tasks : List Task} {id : Nat} (h : s.Condemned id)
    (htasks : s'.tasks = s.tasks ++ tasks) : s'.Condemned id := by
  obtain ⟨t, ht, hrefused⟩ := h
  exact ⟨t, htasks ▸ List.mem_append_left _ ht, hrefused⟩

theorem queues_setQueue (s : System) (id pos i : Nat) (queue : List Message) (task : Task) :
    ((s.setQueue id queue).setTask pos task).queues i = if i = id then queue else s.queues i := rfl

theorem unsent_setQueue (s : System) (id pos : Nat) (queue : List Message) (task : Task) :
    ((s.setQueue id queue).setTask pos task).unsent = (s.setTask pos task).unsent := rfl

/-- What is on the way once a new peer has its queue. -/
theorem onWay_seat (s : System) (e : Engine) (id pos i : Nat) (queue : List Message)
    (phase : Phase) :
    (({ s with engine := e }.setQueue id queue).setPhase pos phase).onWay i =
      if i = id then queue ++ sentTo i s.unsent else s.onWay i := by
  show (if i = id then queue else s.queues i) ++ sentTo i s.unsent = _
  split <;> rfl

/-- The tasks before and after one position. -/
theorem setTask_split {pos : Nat} {t : Task} (htask : s.tasks[pos]? = some t) :
    ∃ post, s.tasks = s.tasks.take pos ++ t :: post ∧
      ∀ t', (s.setTask pos t').tasks = s.tasks.take pos ++ t' :: post :=
  Lists.set_split htask

/-- Dropping a peer changes nothing about what is on the way. -/
theorem unsent_setTask_of_eq {pos : Nat} {t t' : Task} (htask : s.tasks[pos]? = some t)
    (hsends : t'.sends = t.sends) : (s.setTask pos t').unsent = s.unsent := by
  obtain ⟨post, hsplit, hset⟩ := setTask_split htask
  rw [System.unsent, System.unsent, hset]
  conv_rhs => rw [hsplit]
  simp [hsends]

theorem onWay_dropped {pos : Nat} {t t' : Task} (htask : s.tasks[pos]? = some t)
    (hsends : t'.sends = t.sends) (e : Engine) (i : Nat) :
    ({ s with engine := e }.setTask pos t').onWay i = s.onWay i :=
  congrArg (s.queues i ++ sentTo i ·) (unsent_setTask_of_eq htask hsends)

/-- Taking the next message of a task. -/
theorem unsent_setTask_of_cons {pos : Nat} {t : Task} {o : Outgoing}
    (htask : s.tasks[pos]? = some t) (t' : Task) (hsends : t.sends = o :: t'.sends) :
    ∃ post, s.unsent = (s.tasks.take pos).flatMap (·.sends) ++ o :: post ∧
      (s.setTask pos t').unsent = (s.tasks.take pos).flatMap (·.sends) ++ post := by
  obtain ⟨post, hsplit, hset⟩ := setTask_split htask
  refine ⟨t'.sends ++ post.flatMap (·.sends), ?_, ?_⟩
  · rw [System.unsent]
    conv_lhs => rw [hsplit]
    simp [hsends]
  · rw [System.unsent, hset]
    simp

/-- A task that moves on condemns nobody less, but for the peer it dropped. -/
theorem condemned_setTask {pos id : Nat} {t t' : Task} (htask : s.tasks[pos]? = some t)
    (hrefused : t.refused = some id → t'.refused = some id) (h : s.Condemned id) :
    (s.setTask pos t').Condemned id := by
  obtain ⟨post, hsplit, hset⟩ := setTask_split htask
  obtain ⟨u, hu, hmem⟩ := h
  rw [System.Condemned, hset]
  rw [hsplit] at hu
  rcases List.mem_append.1 hu with hu | hu
  · exact ⟨u, List.mem_append_left _ hu, hmem⟩
  · rcases List.mem_cons.1 hu with rfl | hu
    · exact ⟨t', by simp, hrefused hmem⟩
    · exact ⟨u, by simp [hu], hmem⟩

theorem condemned_refused {pos id : Nat} {t t' : Task} (htask : s.tasks[pos]? = some t)
    (hrefused : t'.refused = some id) : (s.setTask pos t').Condemned id := by
  obtain ⟨post, -, hset⟩ := setTask_split htask
  exact ⟨t', by simp [hset], hrefused⟩

/-! ## Addresses -/

theorem Same.seated (h : Same s s') (hseat : s.engine.Seated sh) : s'.engine.Seated sh := by
  have hids : s'.engine.st.ids = s.engine.st.ids := by
    rw [← State.map_fst_seats, ← State.map_fst_seats, h.seats]
  refine ⟨⟨h.pieces.toLayout.trans hseat.fits.layout, h.pieces.len.trans hseat.fits.len⟩, ?_, ?_⟩
  · exact hids ▸ hseat.nodup
  · rw [hids, h.nextId]
    exact hseat.fresh

theorem Dropped.seated {e : Engine} {st : State} {id : Nat} (h : Dropped e.st st id)
    (hseat : e.Seated sh) : (e.modifyState fun _ => st).Seated sh := by
  refine ⟨⟨h.pieces.toLayout.trans hseat.fits.layout, h.pieces.len.trans hseat.fits.len⟩,
    h.nodup, fun i hi => ?_⟩
  obtain ⟨b, hmem⟩ := State.mem_ids.1 hi
  show i < st.nextId
  rw [h.nextId]
  exact hseat.fresh i (State.mem_ids.2 ⟨b, ((h.seats _).1 hmem).1⟩)

theorem Registered.seated {e : Engine} {st : State} (h : Registered e.st st)
    (hseat : e.Seated sh) : (e.modifyState fun _ => st).Seated sh := by
  have hids : st.ids = e.st.ids ++ [e.st.nextId] := by
    rw [← State.map_fst_seats, ← State.map_fst_seats, h.seats]
    simp
  refine ⟨⟨h.pieces.toLayout.trans hseat.fits.layout, h.pieces.len.trans hseat.fits.len⟩, ?_,
    fun i hi => ?_⟩
  · show st.ids.Nodup
    rw [hids]
    refine hseat.nodup.append (by simp) ?_
    rintro i hi hnew
    rw [List.mem_singleton.1 hnew] at hi
    exact absurd (hseat.fresh _ hi) (lt_irrefl _)
  · show i < st.nextId
    rw [h.nextId]
    have hi : i ∈ st.ids := hi
    rw [hids, List.mem_append, List.mem_singleton] at hi
    rcases hi with hi | rfl
    · exact Nat.lt_succ_of_lt (hseat.fresh i hi)
    · exact Nat.lt_succ_self _

/-- Every step keeps ids unique and messages addressed. -/
theorem System.Addressed.step (h : s.Addressed sh) (a : Action) : (System.step sh a s).Addressed sh := by
  obtain ⟨hseat, hsends⟩ := h
  have hout := step_outcome a hseat
  generalize System.step sh a s = s' at hout
  cases hout with
  | same hsame _ =>
      refine ⟨hsame.seated hseat, ?_⟩
      rw [System.unsent, hsame.tasks, hsame.nextId]
      exact hsends
  | ran _ hsection =>
      refine ⟨hsection.seated hseat, fun o ho => ?_⟩
      refine lt_of_lt_of_eq ?_ hsection.nextId.symm
      rw [unsent_leave, List.mem_append] at ho
      rcases ho with ho | ho
      · exact hsends o ho
      · exact hseat.fresh _ (hsection.known o ho)
  | dropped hdrop =>
      exact ⟨hdrop.seated hseat, fun o ho => lt_of_lt_of_eq (hsends o ho) hdrop.nextId.symm⟩
  | droppedBy htask hsame _ hdrop =>
      refine ⟨hdrop.seated hseat, fun o ho => lt_of_lt_of_eq (hsends o ?_) hdrop.nextId.symm⟩
      exact unsent_setTask_of_eq htask hsame ▸ ho
  | @sent pos _ thread _ sends htask =>
      obtain ⟨post, hbefore, hafter⟩ := unsent_setTask_of_cons htask ⟨thread, [], sends, none⟩ rfl
      refine ⟨hseat, fun o ho => hsends o ?_⟩
      rw [unsent_setQueue, hafter, List.mem_append] at ho
      rw [hbefore, List.mem_append, List.mem_cons]
      exact ho.imp_right .inr
  | @refused _ pos id thread msg sends htask =>
      obtain ⟨post, hbefore, hafter⟩ :=
        unsent_setTask_of_cons htask ⟨thread, [], sends, some id⟩ rfl
      refine ⟨hseat, fun o ho => hsends o ?_⟩
      rw [hafter, List.mem_append] at ho
      rw [hbefore, List.mem_append, List.mem_cons]
      exact ho.imp_right .inr
  | registered _ _ hreg =>
      exact ⟨hreg.seated hseat, fun o ho =>
        lt_of_lt_of_eq (Nat.lt_succ_of_lt (hsends o ho)) hreg.nextId.symm⟩
  | listed =>
      refine ⟨hseat, fun o ho => hsends o ?_⟩
      simpa [System.unsent] using ho

theorem addressed_new (sh : Shared) (initialHave : Bitfield) (mode : Mode) (now : Nat)
    (disk : Disk) : (System.new sh initialHave mode now disk).Addressed sh := by
  have hset : ∀ (l : List Nat) (pk : Picker),
      (l.foldl Picker.setHave pk).toLayout = pk.toLayout ∧
        (l.foldl Picker.setHave pk).haveField.len = pk.haveField.len := by
    intro l
    induction l with
    | nil => exact fun pk => ⟨rfl, rfl⟩
    | cons i l ih =>
        intro pk
        obtain ⟨hlayout, hlen⟩ := ih (pk.setHave i)
        have hstep : (pk.setHave i).toLayout = pk.toLayout ∧
            (pk.setHave i).haveField.len = pk.haveField.len := by
          unfold Picker.setHave
          split <;> simp
        exact ⟨hlayout.trans hstep.1, hlen.trans hstep.2⟩
  obtain ⟨hlayout, hlen⟩ := hset initialHave.iterPresent (Picker.new sh.storage.layout mode)
  exact ⟨⟨⟨hlayout, hlen⟩, by simp [System.new, Engine.new, State.new, State.ids],
    by simp [System.new, Engine.new, State.new, State.ids]⟩,
    by simp [System.new, System.unsent]⟩

/-! ## Choke state -/

/-- A choke change is placed on a queue only after every older one for that peer. -/
def ChokesInOrder : Action → System → Prop
  | .send pos true, s =>
      match s.tasks[pos]? with
      | some ⟨_, [], (id, msg) :: _, none⟩ =>
          isChoke msg = true →
            ∀ t ∈ s.tasks.take pos, ∀ o ∈ t.sends, o.1 = id → isChoke o.2 = false
      | _ => True
  | _, _ => True

/-- The first messages of a connection are about neither choking nor single pieces. -/
theorem plain_opening {theirs : Wire.Extensions} {field : Bitfield} {m : Message}
    (h : m ∈ opening sh theirs field) : isChoke m = false ∧ isContent m = false := by
  unfold opening at h
  split at h <;> simp only [List.mem_cons, List.not_mem_nil, or_false] at h
  · rcases h with rfl | rfl <;> exact ⟨rfl, rfl⟩
  · rw [h]
    exact ⟨rfl, rfl⟩

/-- Every peer not about to be dropped ends up believing what we hold about it. -/
structure System.Believed (sh : Shared) (s : System) : Prop where
  addressed : s.Addressed sh
  agrees : ∀ x ∈ s.engine.st.seats, s.Condemned x.1 ∨ chokeView true (s.onWay x.1) = x.2

/-- A message may overtake others if it or they are not about choking. -/
theorem chokeView_move {l₁ l₂ : List Message} {m : Message}
    (h : isChoke m = true → ∀ x ∈ l₁, isChoke x = false) (b : Bool) :
    chokeView b (m :: (l₁ ++ l₂)) = chokeView b (l₁ ++ m :: l₂) := by
  have hcons : ∀ b l, chokeView b (m :: l) = chokeView (chokeView b [m]) l := fun _ _ => rfl
  rw [hcons, chokeView_append, chokeView_append, hcons (chokeView b l₁)]
  cases hm : isChoke m with
  | true => rw [chokeView_of_plain (h hm), chokeView_of_plain (h hm)]
  | false =>
      have hplain : ∀ b, chokeView b [m] = b := chokeView_of_plain (by simpa using hm)
      rw [hplain, hplain]

theorem sentTo_cons_self (id : Nat) (msg : Message) (out : List Outgoing) :
    sentTo id ((id, msg) :: out) = msg :: sentTo id out := by
  simp [sentTo]

theorem sentTo_cons_ne {id id' : Nat} (h : id' ≠ id) (msg : Message) (out : List Outgoing) :
    sentTo id' ((id, msg) :: out) = sentTo id' out := by
  simp [sentTo, Ne.symm h]

/-- Taking a message for one peer leaves what is on the way to the others. -/
theorem sentTo_setTask {pos id id' : Nat} {t t' : Task} {msg : Message}
    (htask : s.tasks[pos]? = some t) (hsends : t.sends = (id, msg) :: t'.sends)
    (hne : id' ≠ id) : sentTo id' (s.setTask pos t').unsent = sentTo id' s.unsent := by
  obtain ⟨post, hbefore, hafter⟩ := unsent_setTask_of_cons htask t' hsends
  rw [hbefore, hafter, sentTo_append, sentTo_append, sentTo_cons_ne hne]

theorem System.Believed.step (h : s.Believed sh) (a : Action) (horder : ChokesInOrder a s) :
    (System.step sh a s).Believed sh := by
  obtain ⟨haddr, hagree⟩ := h
  have haddr' := haddr.step a
  have hout := step_outcome a haddr.seated
  generalize System.step sh a s = s' at hout haddr'
  refine ⟨haddr', ?_⟩
  cases hout with
  | same hsame _ =>
      intro x hx
      rw [hsame.seats] at hx
      rw [System.Condemned, System.onWay, System.unsent, hsame.tasks, hsame.queues]
      exact hagree x hx
  | @ran _ thread r news _ hsection =>
      intro x hx
      have hx : x ∈ r.1.st.seats := hx
      rw [hsection.seats, List.mem_map] at hx
      obtain ⟨y, hy, rfl⟩ := hx
      rcases hagree y hy with hdoomed | hview
      · exact .inl (condemned_append hdoomed rfl)
      · right
        rw [onWay_leave, chokeView_append]
        exact congrArg (chokeView · _) hview
  | dropped hdrop =>
      intro x hx
      exact hagree x ((hdrop.seats x).1 hx).1
  | droppedBy htask hsends hrefused hdrop =>
      intro x hx
      obtain ⟨hx, hne⟩ := (hdrop.seats x).1 hx
      rcases hagree x hx with hdoomed | hview
      · refine .inl (condemned_setTask htask (fun hx => ?_) hdoomed)
        rcases hrefused with hsame | hid
        · exact hsame.trans hx
        · exact absurd (Option.some.inj (hx.symm.trans hid)) hne
      · right
        rw [onWay_dropped htask hsends]
        exact hview
  | @sent pos id thread msg sends htask =>
      intro x hx
      rcases hagree x hx with hdoomed | hview
      · exact .inl (condemned_setTask htask (fun h => h) hdoomed)
      · right
        rw [← hview, System.onWay, System.onWay, unsent_setQueue, queues_setQueue]
        by_cases hid : x.1 = id
        · -- the message moves past what older tasks hold for the same peer
          obtain ⟨post, hbefore, hafter⟩ :=
            unsent_setTask_of_cons htask ⟨thread, [], sends, none⟩ rfl
          rw [if_pos hid, hafter, hbefore, hid, sentTo_append, sentTo_append, sentTo_cons_self,
            List.append_assoc, chokeView_append true (s.queues id),
            chokeView_append true (s.queues id), List.singleton_append]
          refine chokeView_move (fun hchoke m hm => ?_) _
          obtain ⟨t, ht, ho⟩ := List.mem_flatMap.1 (mem_sentTo.1 hm)
          rw [ChokesInOrder, htask] at horder
          exact horder hchoke t ht _ ho rfl
        · rw [if_neg hid, sentTo_setTask htask rfl hid]
  | @refused _ pos id thread msg sends htask =>
      intro x hx
      by_cases hid : x.1 = id
      · exact .inl (hid ▸ condemned_refused htask rfl)
      · rcases hagree x hx with hdoomed | hview
        · exact .inl (condemned_setTask htask nofun hdoomed)
        · right
          rw [System.onWay, sentTo_setTask htask rfl hid]
          exact hview
  | @registered pos env dest theirs field st hattach _ hreg =>
      intro x hx
      have hx : x ∈ st.seats := hx
      rw [hreg.seats, List.mem_append, List.mem_singleton] at hx
      rcases hx with hx | rfl
      · have hne : x.1 ≠ s.engine.st.nextId :=
          ne_of_lt (haddr.seated.fresh _ (State.mem_ids.2 ⟨x.2, hx⟩))
        rcases hagree x hx with hdoomed | hview
        · exact .inl hdoomed
        · right
          rw [onWay_seat, if_neg hne]
          exact hview
      · right
        rw [onWay_seat, if_pos rfl]
        refine chokeView_of_plain (fun m hm => ?_) true
        rcases List.mem_append.1 hm with hm | hm
        · exact (plain_opening hm).1
        · exact absurd (haddr.sends _ (mem_sentTo.1 hm)) (lt_irrefl _)
  | listed =>
      intro x hx
      rcases hagree x hx with hdoomed | hview
      · exact .inl (condemned_append hdoomed rfl)
      · right
        rw [← hview]
        simp [System.onWay, System.unsent]

/-- If no choke change overtakes an older one for the same peer, then whenever no thread
holds anything back the last choke change on a peer's queue is what we hold about it. -/
theorem choke_state_agrees_if_in_order (sh : Shared) (initialHave : Bitfield) (mode : Mode)
    (now : Nat) (disk : Disk) (actions : List Action)
    (horder : Machine.Along (System.step sh) ChokesInOrder actions
      (System.new sh initialHave mode now disk)) :
    let s := System.run sh actions (System.new sh initialHave mode now disk)
    s.Quiescent → ∀ p ∈ s.engine.st.peers, chokeView true (s.queues p.id) = p.weChoke := by
  intro s hquiet p hp
  have hnew : (System.new sh initialHave mode now disk).Believed sh :=
    ⟨addressed_new sh initialHave mode now disk, by
      simp [System.new, Engine.new, State.new, State.seats]⟩
  have hs : s.Believed sh := Machine.run_induction_along (P := System.Believed sh)
    (fun a _ ha h => h.step a ha) horder hnew
  rcases hs.agrees (p.id, p.weChoke) (List.mem_map_of_mem hp) with hdoomed | hview
  · exact absurd hdoomed (hquiet.not_condemned p.id)
  · rw [← hquiet.onWay]
    exact hview

namespace OneByte

/-- Five peers, the first four unchoked.  The second tick gives the fifth its turn; before the
maintenance thread hands that over, the fifth stops being interested and its reader hands over
the choke. -/
def overtaken : List Action :=
  attach 0 ++ attach 1 ++ attach 2 ++ attach 3 ++ attach 4 ++
    [.message (env 0) 0 .interested, .send 0 true,
      .message (env 0) 1 .interested, .send 1 true,
      .message (env 0) 2 .interested, .send 2 true,
      .message (env 0) 3 .interested, .send 3 true,
      .message (env 0) 4 .interested,
      .maintain (env 10000),
      .maintain (env 20000),
      .message (env 20000) 4 .notInterested,
      .send 7 true, .send 6 true, .send 6 true]

/-- One peer becomes interested and is unchoked. -/
def unchoked : List Action := attach 0 ++ [.message (env 0) 0 .interested, .send 0 true]

end OneByte

/-- The fifth peer has been told it is unchoked, and we choke it. -/
theorem choke_state_disagrees :
    let s := System.run OneByte.shared OneByte.overtaken OneByte.start
    s.Quiescent ∧ ∃ p ∈ s.engine.st.peers,
      p.id = 4 ∧ p.weChoke = true ∧ chokeView true (s.queues p.id) = false := by
  decide +kernel

theorem choke_state_agrees_unchoked :
    let s := System.run OneByte.shared OneByte.unchoked OneByte.start
    ∀ p ∈ s.engine.st.peers, chokeView true (s.queues p.id) = p.weChoke := by
  refine choke_state_agrees_if_in_order OneByte.shared (Bitfield.empty 1) .rarestFirst 0
    (fun _ => []) OneByte.unchoked ?_ (by decide +kernel)
  exact ⟨trivial, trivial, trivial, trivial, fun _ t ht => absurd ht (by simp), trivial⟩

/-! ## Pieces -/

/-- No piece has been completed since the attach that registers read the piece set, if it is let
in. -/
def NoneMissed : Action → System → Prop
  | .register pos _, s =>
      match s.attaches[pos]? with
      | some ⟨dest, .announced _ field⟩ =>
          s.engine.st.Admits dest →
            ∀ i, s.engine.st.picker.has i = true → field.has i = true
      | _ => True
  | _, _ => True

instance (st : State) (dest : DestHash) : Decidable (st.Admits dest) :=
  decidable_of_iff
    (dest ∉ st.banned ∧ st.peers.countP (·.dest = dest) < MAX_CONNECTIONS_PER_DEST ∧
      ∀ n ∈ st.maxPeers, st.peers.length < n) Iff.rfl

instance (a : Action) (s : System) : Decidable (NoneMissed a s) := by
  have hall : ∀ field : Bitfield, Decidable (∀ i, s.engine.st.picker.has i = true →
      field.has i = true) := fun field =>
    decidable_of_iff (∀ i < s.engine.st.picker.haveField.len,
      s.engine.st.picker.has i = true → field.has i = true)
      ⟨fun h i hi => h i (Bitfield.lt_of_has hi) hi, fun h i _ => h i⟩
  unfold NoneMissed
  split
  · split <;> infer_instance
  · infer_instance

/-- A queue opens with a piece set, and that set and the announcements on the way are the
pieces held, unless the peer is about to be dropped. -/
def System.Informed (sh : Shared) (s : System) (id : Nat) : Prop :=
  ∃ (field : Bitfield) (rest : List Message),
    s.queues id = .bitfield field.bits :: rest ∧ field.len = sh.numPieces ∧
    (∀ i, field.has i = true ∨ .have_ i ∈ s.onWay id → s.engine.st.picker.has i = true) ∧
    (s.Condemned id ∨
      ∀ i, s.engine.st.picker.has i = true → field.has i = true ∨ .have_ i ∈ s.onWay id)

/-- Every peer is informed, and every attach has announced pieces that are held. -/
structure System.Told (sh : Shared) (s : System) : Prop where
  addressed : s.Addressed sh
  attaches : ∀ a ∈ s.attaches, ∀ theirs field, a.phase = .announced theirs field →
    field.len = sh.numPieces ∧ ∀ i, field.has i = true → s.engine.st.picker.has i = true
  peers : ∀ id ∈ s.engine.st.ids, s.Informed sh id

/-- A step that keeps the pieces, a peer's queue and what is on the way keeps it informed. -/
theorem System.Informed.of_same {id : Nat} (h : s.Informed sh id)
    (hhas : ∀ i, s'.engine.st.picker.has i = s.engine.st.picker.has i)
    (hqueue : s'.queues id = s.queues id) (hway : s'.onWay id = s.onWay id)
    (hdoomed : s.Condemned id → s'.Condemned id) : s'.Informed sh id := by
  obtain ⟨field, rest, hopen, hlen, hsound, hcomplete⟩ := h
  refine ⟨field, rest, hqueue.trans hopen, hlen, fun i hi => ?_, ?_⟩
  · rw [hhas]
    exact hsound i (hway ▸ hi)
  · refine hcomplete.imp hdoomed fun hall i hi => ?_
    rw [hway]
    exact hall i (hhas i ▸ hi)

/-- A critical section announces what it completes to everyone. -/
theorem System.Informed.leave {id : Nat} {thread : Thread} {r : Engine × Job} {news : List Nat}
    (h : s.Informed sh id) (hid : id ∈ s.engine.st.ids)
    (hsection : Section s.engine r.1 r.2.sends news) : (s.leave thread r).Informed sh id := by
  obtain ⟨field, rest, hopen, hlen, hsound, hcomplete⟩ := h
  have hway := onWay_leave s thread r id
  have hheld : ∀ i, (s.leave thread r).engine.st.picker.has i = true ↔
      s.engine.st.picker.has i = true ∨ i ∈ news := hsection.held
  have htold : ∀ i, Message.have_ i ∈ sentTo id r.2.sends ↔ i ∈ news := by
    intro i
    rw [mem_sentTo, hsection.told]
    exact and_iff_left hid
  refine ⟨field, rest, hopen, hlen, fun i hi => ?_, ?_⟩
  · rw [hheld]
    rw [hway, List.mem_append, htold, ← or_assoc] at hi
    exact hi.imp_left (hsound i)
  · refine hcomplete.imp (fun hdoomed => condemned_append hdoomed rfl) fun hall i hi => ?_
    rw [hway, List.mem_append, htold, ← or_assoc]
    exact ((hheld i).1 hi).imp_left (hall i)

/-- What is on the way to a peer that a message is handed over to. -/
theorem mem_onWay_sent {pos id : Nat} {thread : Thread} {msg m : Message} {sends : List Outgoing}
    (htask : s.tasks[pos]? = some ⟨thread, [], (id, msg) :: sends, none⟩) (i : Nat) :
    m ∈ ((s.setQueue id (s.queues id ++ [msg])).setTask pos ⟨thread, [], sends, none⟩).onWay i ↔
      m ∈ s.onWay i := by
  obtain ⟨post, hbefore, hafter⟩ := unsent_setTask_of_cons htask ⟨thread, [], sends, none⟩ rfl
  rw [System.onWay, System.onWay, unsent_setQueue, queues_setQueue, hbefore, hafter]
  by_cases hid : i = id
  · rw [if_pos hid, hid]
    simp only [sentTo_append, sentTo_cons_self, List.mem_append, List.mem_cons, List.not_mem_nil,
      or_false]
    tauto
  · rw [if_neg hid]
    simp only [sentTo_append, sentTo_cons_ne hid]

/-- A refused message is on the way no more. -/
theorem mem_onWay_refused {pos id : Nat} {thread : Thread} {msg m : Message}
    {sends : List Outgoing}
    (htask : s.tasks[pos]? = some ⟨thread, [], (id, msg) :: sends, none⟩) {i : Nat}
    (h : m ∈ (s.setTask pos ⟨thread, [], sends, some id⟩).onWay i) : m ∈ s.onWay i := by
  obtain ⟨post, hbefore, hafter⟩ := unsent_setTask_of_cons htask ⟨thread, [], sends, some id⟩ rfl
  have h : m ∈ s.queues i ++ sentTo i (s.setTask pos ⟨thread, [], sends, some id⟩).unsent := h
  rw [hafter, sentTo_append, List.mem_append, List.mem_append] at h
  rw [System.onWay, hbefore, List.mem_append, sentTo_append, List.mem_append]
  refine h.imp_right (Or.imp_right fun h => ?_)
  rw [mem_sentTo] at h ⊢
  exact List.mem_cons_of_mem _ h

/-- A new peer's queue says what the attach announced. -/
theorem informed_new {st : State} {pos : Nat} {theirs : Wire.Extensions} {field : Bitfield}
    (haddr : s.Addressed sh) (hreg : Registered s.engine.st st)
    (hlen : field.len = sh.numPieces)
    (hheld : ∀ i, field.has i = true ↔ s.engine.st.picker.has i = true) :
    (({ s with engine := s.engine.modifyState fun _ => st }.setQueue s.engine.st.nextId
      (opening sh theirs field)).setPhase pos .over).Informed sh s.engine.st.nextId := by
  have hnone : ∀ i, Message.have_ i ∉ (({ s with engine := s.engine.modifyState fun _ => st
      }.setQueue s.engine.st.nextId (opening sh theirs field)).setPhase pos .over).onWay
        s.engine.st.nextId := by
    intro i hi
    rw [onWay_seat, if_pos rfl, List.mem_append] at hi
    rcases hi with hi | hi
    · cases (plain_opening hi).2
    · exact absurd (haddr.sends _ (mem_sentTo.1 hi)) (lt_irrefl _)
  refine ⟨field, _, if_pos rfl, hlen, fun i hi => ?_, .inr fun i hi => .inl ?_⟩
  · rcases hi with hi | hi
    · exact (hreg.pieces.has i).trans ((hheld i).1 hi)
    · exact absurd hi (hnone i)
  · exact (hheld i).2 ((hreg.pieces.has i).symm.trans hi)

theorem System.Told.step (h : s.Told sh) (a : Action) (hmissed : NoneMissed a s) :
    (System.step sh a s).Told sh := by
  obtain ⟨haddr, hattach, hpeers⟩ := h
  have haddr' := haddr.step a
  have hout := step_outcome a haddr.seated
  generalize System.step sh a s = s' at hout haddr'
  refine ⟨haddr', ?_, ?_⟩
  · -- what was announced stays held, and what is announced now is held
    have hkeep : (∀ i, s.engine.st.picker.has i = true → s'.engine.st.picker.has i = true) →
        Announces s s' → ∀ a ∈ s'.attaches, ∀ theirs field, a.phase = .announced theirs field →
          field.len = sh.numPieces ∧ ∀ i, field.has i = true → s'.engine.st.picker.has i = true := by
      intro hmono hann a ha theirs field hphase
      rcases hann a ha theirs field hphase with ⟨b, hb, hphase⟩ | rfl
      · obtain ⟨hlen, hheld⟩ := hattach b hb theirs field hphase
        exact ⟨hlen, fun i hi => hmono i (hheld i hi)⟩
      · exact ⟨haddr.seated.fits.len, hmono⟩
    cases hout with
    | same hsame hann => exact hkeep (fun i hi => (hsame.pieces.has i).trans hi) hann
    | ran _ hsection => exact hkeep (fun i hi => (hsection.held i).2 (.inl hi)) (.refl s)
    | dropped hdrop => exact hkeep (fun i hi => (hdrop.pieces.has i).trans hi) (.refl s)
    | droppedBy _ _ _ hdrop => exact hkeep (fun i hi => (hdrop.pieces.has i).trans hi) (.refl s)
    | sent _ => exact hkeep (fun _ => id) (.refl s)
    | refused _ => exact hkeep (fun _ => id) (.refl s)
    | registered _ _ hreg =>
        refine hkeep (fun i hi => (hreg.pieces.has i).trans hi) ?_
        exact announces_setPhase (s := s) (by simp)
    | listed => exact hkeep (fun _ => id) (.refl s)
  · cases hout with
    | same hsame _ =>
        intro id hid
        have hid : id ∈ s.engine.st.ids := by
          rw [State.mem_ids] at hid ⊢
          rw [hsame.seats] at hid
          exact hid
        refine (hpeers id hid).of_same hsame.pieces.has (by rw [hsame.queues]) ?_ ?_
        · rw [System.onWay, System.onWay, System.unsent, System.unsent, hsame.queues, hsame.tasks]
        · rw [System.Condemned, System.Condemned, hsame.tasks]
          exact fun h => h
    | @ran _ thread r news _ hsection =>
        intro id hid
        have hid : id ∈ s.engine.st.ids := hsection.ids ▸ hid
        exact (hpeers id hid).leave hid hsection
    | dropped hdrop =>
        intro id hid
        obtain ⟨b, hmem⟩ := State.mem_ids.1 hid
        have hid := State.mem_ids.2 ⟨b, ((hdrop.seats _).1 hmem).1⟩
        exact (hpeers id hid).of_same hdrop.pieces.has rfl rfl fun h => h
    | droppedBy htask hsends hrefused hdrop =>
        intro id hid
        obtain ⟨b, hmem⟩ := State.mem_ids.1 hid
        obtain ⟨hmem, hne⟩ := (hdrop.seats _).1 hmem
        refine (hpeers id (State.mem_ids.2 ⟨b, hmem⟩)).of_same hdrop.pieces.has rfl
          (onWay_dropped htask hsends _ id) (condemned_setTask htask fun hx => ?_)
        rcases hrefused with hsame | hid
        · exact hsame.trans hx
        · exact absurd (Option.some.inj (hx.symm.trans hid)) hne
    | @sent pos id thread msg sends htask =>
        intro j hj
        obtain ⟨field, rest, hopen, hlen, hsound, hcomplete⟩ := hpeers j hj
        have hqueue : ∃ rest', ((s.setQueue id (s.queues id ++ [msg])).setTask pos
            ⟨thread, [], sends, none⟩).queues j = .bitfield field.bits :: rest' := by
          rw [queues_setQueue]
          by_cases hid : j = id
          · rw [if_pos hid, ← hid, hopen]
            exact ⟨_, rfl⟩
          · rw [if_neg hid]
            exact ⟨rest, hopen⟩
        obtain ⟨rest', hopen'⟩ := hqueue
        refine ⟨field, rest', hopen', hlen, fun i hi => hsound i ?_, ?_⟩
        · rwa [mem_onWay_sent htask] at hi
        · refine hcomplete.imp (condemned_setTask htask fun h => h) fun hall i hi => ?_
          rw [mem_onWay_sent htask]
          exact hall i hi
    | @refused _ pos id thread msg sends htask =>
        intro j hj
        by_cases hid : j = id
        · obtain ⟨field, rest, hopen, hlen, hsound, -⟩ := hpeers j hj
          refine ⟨field, rest, hopen, hlen, fun i hi => hsound i ?_,
            .inl (hid ▸ condemned_refused htask rfl)⟩
          exact hi.imp_right (mem_onWay_refused htask)
        · refine (hpeers j hj).of_same (fun _ => rfl) rfl ?_ (condemned_setTask htask nofun)
          exact congrArg (s.queues j ++ ·) (sentTo_setTask htask rfl hid)
    | @registered pos env dest theirs field st hat hadmits hreg =>
        intro j hj
        have hj : j ∈ st.ids := hj
        obtain ⟨b, hmem⟩ := State.mem_ids.1 hj
        rw [hreg.seats, List.mem_append, List.mem_singleton] at hmem
        rcases hmem with hmem | hmem
        · have hid := State.mem_ids.2 ⟨b, hmem⟩
          have hne : j ≠ s.engine.st.nextId := ne_of_lt (haddr.seated.fresh _ hid)
          refine (hpeers j hid).of_same hreg.pieces.has (if_neg hne) ?_ fun h => h
          rw [onWay_seat, if_neg hne]
        · obtain rfl : j = s.engine.st.nextId := congrArg Prod.fst hmem
          obtain ⟨hlen, hheld⟩ := hattach _ (List.mem_of_getElem? hat) theirs field rfl
          rw [NoneMissed, hat] at hmissed
          exact informed_new haddr hreg hlen fun i => ⟨hheld i, hmissed hadmits i⟩
    | listed =>
        intro id hid
        refine (hpeers id hid).of_same (fun _ => rfl) rfl ?_ fun h => condemned_append h rfl
        simp [System.onWay, System.unsent]

/-- If no piece completes between an attach's look at the piece set and its registration, then
whenever no thread holds anything back every peer's queue opens with a piece set, and that set
and the announcements after it are the pieces held. -/
theorem pieces_told_if_none_missed (sh : Shared) (initialHave : Bitfield) (mode : Mode)
    (now : Nat) (disk : Disk) (actions : List Action)
    (hmissed : Machine.Along (System.step sh) NoneMissed actions
      (System.new sh initialHave mode now disk)) :
    let s := System.run sh actions (System.new sh initialHave mode now disk)
    s.Quiescent → ∀ p ∈ s.engine.st.peers, ∃ (field : Bitfield) (rest : List Message),
      s.queues p.id = .bitfield field.bits :: rest ∧
        Bitfield.fromBytes field.bits sh.numPieces = .ok field ∧
        ∀ i, s.engine.st.picker.has i = true ↔
          field.has i = true ∨ .have_ i ∈ s.queues p.id := by
  intro s hquiet p hp
  have hnew : (System.new sh initialHave mode now disk).Told sh :=
    ⟨addressed_new sh initialHave mode now disk, by simp [System.new],
      by simp [System.new, Engine.new, State.new, State.ids]⟩
  have hs : s.Told sh := Machine.run_induction_along (P := System.Told sh)
    (fun a _ ha h => h.step a ha) hmissed hnew
  obtain ⟨field, rest, hopen, hlen, hsound, hcomplete⟩ := hs.peers p.id (List.mem_map_of_mem hp)
  rw [hquiet.onWay] at hsound hcomplete
  refine ⟨field, rest, hopen, hlen ▸ Bitfield.fromBytes_bits field, fun i => ⟨fun hi => ?_, hsound i⟩⟩
  rcases hcomplete with hdoomed | hall
  · exact absurd hdoomed (hquiet.not_condemned p.id)
  · exact hall i hi

namespace OneByte

/-- A peer is asked for the only block.  A second connection reads the piece set, the block
arrives and completes the piece, and the second connection registers. -/
def missed : List Action :=
  attach 0 ++
    [.message (env 0) 0 (.bitfield [128]), .send 0 true,
      .message (env 0) 0 .unchoke, .send 1 true,
      .accept (dest 1) ⟨false, false⟩, .announce 1,
      .message (env 0) 0 (.piece 0 0 [97]), .send 2 true,
      .register 1 (env 0)]

end OneByte

namespace TwoPieces

/-- A torrent that has the first piece. -/
def half : Bitfield := (Bitfield.empty 2).set 0

/-- A seed and another peer connect, the seed sends the second piece, and a third peer connects. -/
def told : List Action :=
  seeded ++ OneByte.attach 1 ++ last :: [.send 2 true, .send 2 true, .send 2 true] ++
    OneByte.attach 2

end TwoPieces

/-- The second peer's queue says we hold nothing, and we hold the piece. -/
theorem pieces_told_misses_one :
    let s := System.run OneByte.shared OneByte.missed OneByte.start
    s.Quiescent ∧ s.engine.st.picker.has 0 = true ∧
      ∃ p ∈ s.engine.st.peers, p.id = 1 ∧ s.queues p.id = [.bitfield [0]] := by
  decide +kernel

theorem pieces_told_twoPieces :
    let s := System.run TwoPieces.shared TwoPieces.told
      (System.new TwoPieces.shared TwoPieces.half .rarestFirst 0 fun _ => [])
    ∀ p ∈ s.engine.st.peers, ∃ (field : Bitfield) (rest : List Message),
      s.queues p.id = .bitfield field.bits :: rest ∧
      Bitfield.fromBytes field.bits 2 = .ok field ∧
      ∀ i, s.engine.st.picker.has i = true ↔ field.has i = true ∨ .have_ i ∈ s.queues p.id :=
  pieces_told_if_none_missed TwoPieces.shared TwoPieces.half .rarestFirst 0 (fun _ => [])
    TwoPieces.told (by decide +kernel) (by decide +kernel)

end Clove.Torrent
