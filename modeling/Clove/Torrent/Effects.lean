import Clove.Torrent.Handlers

/-!
# What a critical section shows

Seen from outside, a handler collects messages, completes pieces and writes to the files.
Most do only the first, and say nothing about pieces: they are `Quiet`.  `Does` is the summary
every handler has, the two that move data included: which messages it collected, which pieces
it completed, and that the peers' choke states are what those messages say they are.
-/

namespace Clove.Torrent

open Wire (BLOCK_LEN BlockRequest Message)

/-! ## Messages and seats -/

/-- The messages for one peer, in order. -/
def sentTo (id : Nat) (out : List Outgoing) : List Message :=
  (out.filter (·.1 = id)).map (·.2)

/-- What a peer believes about our choke after one more message. -/
def chokeStep (b : Bool) : Message → Bool
  | .choke => true
  | .unchoke => false
  | _ => b

/-- What a peer believes about our choke after some messages. -/
def chokeView (b : Bool) (msgs : List Message) : Bool := msgs.foldl chokeStep b

/-- The ids in the table, each with whether we choke it. -/
def State.seats (st : State) : List (Nat × Bool) := st.peers.map fun p => (p.id, p.weChoke)

/-- The ids in the table. -/
def State.ids (st : State) : List Nat := st.peers.map (·.id)

/-- A seat after its peer has been sent some messages. -/
def tell (out : List Outgoing) (s : Nat × Bool) : Nat × Bool :=
  (s.1, chokeView s.2 (sentTo s.1 out))

/-- Whether a message changes a peer's choke state. -/
def isChoke : Message → Bool
  | .choke => true
  | .unchoke => true
  | _ => false

/-- Whether a message is about our pieces. -/
def isContent : Message → Bool
  | .have_ _ => true
  | .piece .. => true
  | _ => false

theorem State.map_fst_seats (st : State) : st.seats.map Prod.fst = st.ids := by
  simp [seats, ids, Function.comp_def]

theorem sentTo_append (id : Nat) (out₁ out₂ : List Outgoing) :
    sentTo id (out₁ ++ out₂) = sentTo id out₁ ++ sentTo id out₂ := by
  simp [sentTo]

theorem mem_sentTo {id : Nat} {out : List Outgoing} {m : Message} :
    m ∈ sentTo id out ↔ (id, m) ∈ out := by
  simp only [sentTo, List.mem_map, List.mem_filter, decide_eq_true_eq]
  constructor
  · rintro ⟨⟨i, m'⟩, ⟨h, rfl⟩, rfl⟩
    exact h
  · intro h
    exact ⟨(id, m), ⟨h, rfl⟩, rfl⟩

theorem chokeView_append (b : Bool) (l₁ l₂ : List Message) :
    chokeView b (l₁ ++ l₂) = chokeView (chokeView b l₁) l₂ := List.foldl_append

theorem chokeView_of_plain {l : List Message} (h : ∀ m ∈ l, isChoke m = false) (b : Bool) :
    chokeView b l = b := by
  induction l with
  | nil => rfl
  | cons m l ih =>
      have hm : chokeStep b m = b := by
        have := h m List.mem_cons_self
        cases m <;> first | rfl | cases this
      show chokeView (chokeStep b m) l = b
      rw [hm]
      exact ih fun m' hm' => h m' (List.mem_cons_of_mem _ hm')

theorem tell_append (out₁ out₂ : List Outgoing) (s : Nat × Bool) :
    tell (out₁ ++ out₂) s = tell out₂ (tell out₁ s) := by
  simp [tell, sentTo_append, chokeView_append]

/-- Messages that are not about choking leave every seat as it was. -/
theorem map_tell_of_plain {out : List Outgoing} (h : ∀ o ∈ out, isChoke o.2 = false)
    (l : List (Nat × Bool)) : l.map (tell out) = l := by
  have hid : ∀ s : Nat × Bool, tell out s = s := by
    intro s
    have : chokeView s.2 (sentTo s.1 out) = s.2 :=
      chokeView_of_plain (fun m hm => h _ (mem_sentTo.1 hm)) _
    simp [tell, this]
  exact (List.map_congr_left fun s _ => hid s).trans (List.map_id l)

@[simp] theorem map_tell_nil (l : List (Nat × Bool)) : l.map (tell []) = l :=
  map_tell_of_plain (by simp) l

@[simp] theorem map_fst_tell (out : List Outgoing) (l : List (Nat × Bool)) :
    (l.map (tell out)).map Prod.fst = l.map Prod.fst := by
  simp [tell, Function.comp_def]

/-! ## The summary of a handler -/

/-- The pieces held are as they were. -/
structure SamePieces (pk pk' : Picker) : Prop where
  toLayout : pk'.toLayout = pk.toLayout
  len : pk'.haveField.len = pk.haveField.len
  has : ∀ i, pk'.has i = pk.has i

/-- A handler collected `extra`, and nothing else shows. -/
structure Says (w w' : Work) (extra : List Outgoing) : Prop where
  out : w'.out = w.out ++ extra
  pieces : SamePieces w.st.picker w'.st.picker
  nextId : w'.st.nextId = w.st.nextId
  disk : w'.disk = w.disk
  trace : w'.trace = w.trace
  seats : w'.st.seats = w.st.seats.map (tell extra)
  known : ∀ o ∈ extra, o.1 ∈ w.st.ids
  mild : ∀ o ∈ extra, isContent o.2 = false

/-- Nothing shows of a handler but messages that are not about pieces. -/
def Quiet (w w' : Work) : Prop := ∃ extra, Says w w' extra

/-- A handler collected `extra` and completed the pieces in `news`, telling everyone. -/
structure Does (w w' : Work) (extra : List Outgoing) (news : List Nat) : Prop where
  out : w'.out = w.out ++ extra
  layout : w'.st.picker.toLayout = w.st.picker.toLayout
  len : w'.st.picker.haveField.len = w.st.picker.haveField.len
  nextId : w'.st.nextId = w.st.nextId
  seats : w'.st.seats = w.st.seats.map (tell extra)
  known : ∀ o ∈ extra, o.1 ∈ w.st.ids
  held : ∀ i, w'.st.picker.has i = true ↔ w.st.picker.has i = true ∨ i ∈ news
  told : ∀ id i, (id, Message.have_ i) ∈ extra ↔ i ∈ news ∧ id ∈ w.st.ids

variable {sh : Shared} {w w' w₁ w₂ w₃ : Work} {extra extra₁ extra₂ : List Outgoing}

theorem SamePieces.refl (pk : Picker) : SamePieces pk pk := ⟨rfl, rfl, fun _ => rfl⟩

theorem SamePieces.trans {pk₁ pk₂ pk₃ : Picker} (h₁ : SamePieces pk₁ pk₂)
    (h₂ : SamePieces pk₂ pk₃) : SamePieces pk₁ pk₃ :=
  ⟨h₂.toLayout.trans h₁.toLayout, h₂.len.trans h₁.len, fun i => (h₂.has i).trans (h₁.has i)⟩

/-- The have field is the same, not only what it says. -/
theorem SamePieces.of_eq {pk pk' : Picker} (hlayout : pk'.toLayout = pk.toLayout)
    (hfield : pk'.haveField = pk.haveField) : SamePieces pk pk' :=
  ⟨hlayout, by rw [hfield], fun i => by rw [Picker.has, Picker.has, hfield]⟩

theorem Says.ids (h : Says w w' extra) : w'.st.ids = w.st.ids := by
  rw [← State.map_fst_seats, ← State.map_fst_seats, h.seats, map_fst_tell]

theorem Does.ids {news : List Nat} (h : Does w w' extra news) : w'.st.ids = w.st.ids := by
  rw [← State.map_fst_seats, ← State.map_fst_seats, h.seats, map_fst_tell]

theorem Says.trans (h₁ : Says w₁ w₂ extra₁) (h₂ : Says w₂ w₃ extra₂) :
    Says w₁ w₃ (extra₁ ++ extra₂) where
  out := by rw [h₂.out, h₁.out, List.append_assoc]
  pieces := h₁.pieces.trans h₂.pieces
  nextId := h₂.nextId.trans h₁.nextId
  disk := h₂.disk.trans h₁.disk
  trace := h₂.trace.trans h₁.trace
  seats := by
    rw [h₂.seats, h₁.seats, List.map_map]
    exact List.map_congr_left fun s _ => (tell_append _ _ s).symm
  known := by
    intro o ho
    rcases List.mem_append.1 ho with ho | ho
    · exact h₁.known o ho
    · exact h₁.ids ▸ h₂.known o ho
  mild := by
    intro o ho
    rcases List.mem_append.1 ho with ho | ho
    · exact h₁.mild o ho
    · exact h₂.mild o ho

theorem Says.does (h : Says w w' extra) : Does w w' extra [] where
  out := h.out
  layout := h.pieces.toLayout
  len := h.pieces.len
  nextId := h.nextId
  seats := h.seats
  known := h.known
  held := by simp [h.pieces.has]
  told := by
    intro id i
    simp only [List.not_mem_nil, false_and, iff_false]
    intro hmem
    cases h.mild _ hmem

theorem Does.trans {news₁ news₂ : List Nat} (h₁ : Does w₁ w₂ extra₁ news₁)
    (h₂ : Does w₂ w₃ extra₂ news₂) : Does w₁ w₃ (extra₁ ++ extra₂) (news₁ ++ news₂) where
  out := by rw [h₂.out, h₁.out, List.append_assoc]
  layout := h₂.layout.trans h₁.layout
  len := h₂.len.trans h₁.len
  nextId := h₂.nextId.trans h₁.nextId
  seats := by
    rw [h₂.seats, h₁.seats, List.map_map]
    exact List.map_congr_left fun s _ => (tell_append _ _ s).symm
  known := by
    intro o ho
    rcases List.mem_append.1 ho with ho | ho
    · exact h₁.known o ho
    · exact h₁.ids ▸ h₂.known o ho
  held := by
    intro i
    rw [h₂.held, h₁.held, List.mem_append, or_assoc]
  told := by
    intro id i
    rw [List.mem_append, h₁.told, h₂.told, h₁.ids, List.mem_append, or_and_right]

theorem Quiet.refl (w : Work) : Quiet w w :=
  ⟨[], by simp, .refl _, rfl, rfl, rfl, by simp, by simp, by simp⟩

theorem Quiet.trans (h₁ : Quiet w₁ w₂) (h₂ : Quiet w₂ w₃) : Quiet w₁ w₃ := by
  obtain ⟨extra₁, h₁⟩ := h₁
  obtain ⟨extra₂, h₂⟩ := h₂
  exact ⟨_, h₁.trans h₂⟩

theorem Quiet.ids (h : Quiet w w') : w'.st.ids = w.st.ids := h.choose_spec.ids

theorem Quiet.foldl {α : Type} {f : Work → α → Work} (hf : ∀ w a, Quiet w (f w a)) (l : List α)
    (w : Work) : Quiet w (l.foldl f w) := by
  induction l generalizing w with
  | nil => exact .refl w
  | cons a l ih => exact (hf w a).trans (ih _)

/-! ## Elementary changes -/

theorem quiet_modifyPeer {f : Peer → Peer} (hid : ∀ p, (f p).id = p.id)
    (hchoke : ∀ p, (f p).weChoke = p.weChoke) (w : Work) (idx : Nat) :
    Quiet w (w.modifyPeer idx f) := by
  refine ⟨[], by simp [Work.modifyPeer], .refl _, rfl, rfl, rfl, ?_, by simp, by simp⟩
  rw [map_tell_nil]
  exact Lists.map_modify_of_eq (fun p => by rw [hid, hchoke]) _ _

theorem quiet_modifyPicker {f : Picker → Picker} (hf : SamePieces w.st.picker (f w.st.picker)) :
    Quiet w (w.modifyPicker f) :=
  ⟨[], by simp [Work.modifyPicker], hf, rfl, rfl, rfl, by rw [map_tell_nil]; rfl, by simp,
    by simp⟩

/-- Collecting messages about neither pieces nor choking. -/
theorem quiet_collect {extra : List Outgoing} (hknown : ∀ o ∈ extra, o.1 ∈ w.st.ids)
    (hmild : ∀ o ∈ extra, isContent o.2 = false) (hplain : ∀ o ∈ extra, isChoke o.2 = false) :
    Quiet w { w with out := w.out ++ extra } :=
  ⟨extra, rfl, .refl _, rfl, rfl, rfl, (map_tell_of_plain hplain _).symm, hknown, hmild⟩

theorem quiet_push {id : Nat} {msg : Message} (hknown : id ∈ w.st.ids)
    (hmild : isContent msg = false) (hplain : isChoke msg = false) : Quiet w (w.push id msg) :=
  quiet_collect (by simpa using hknown) (by simpa using hmild) (by simpa using hplain)

theorem State.id_mem {st : State} {idx : Nat} {peer : Peer} (hidx : st.peers[idx]? = some peer) :
    peer.id ∈ st.ids := List.mem_map_of_mem (List.mem_of_getElem? hidx)

/-- A change of a peer, then a message to it. -/
theorem quiet_modifyPush {idx : Nat} {peer : Peer} {f : Peer → Peer} {msg : Message}
    (hidx : w.st.peers[idx]? = some peer) (hid : ∀ p, (f p).id = p.id)
    (hchoke : ∀ p, (f p).weChoke = p.weChoke) (hmild : isContent msg = false)
    (hplain : isChoke msg = false) : Quiet w ((w.modifyPeer idx f).push peer.id msg) := by
  have hmodify := quiet_modifyPeer hid hchoke w idx
  refine hmodify.trans (quiet_push ?_ hmild hplain)
  rw [hmodify.ids]
  exact State.id_mem hidx

/-- A change of the state outside picker, table and id counter. -/
theorem quiet_state {st : State} (h : State.Untouched w.st st) : Quiet w { w with st := st } := by
  refine ⟨[], by simp, SamePieces.of_eq ?_ ?_, h.nextId, rfl, rfl, ?_, by simp, by simp⟩
  · simp only [h.picker]
  · simp only [h.picker]
  · simp only [map_tell_nil, State.seats, h.peers]

/-! ## Quiet handlers -/

theorem samePieces_blockFailed (pk : Picker) (i b : Nat) : SamePieces pk (pk.blockFailed i b) :=
  .of_eq (Picker.haveField_blockFailed pk i b).2 (Picker.haveField_blockFailed pk i b).1

theorem samePieces_failAll (pk : Picker) (keys : List BlockKey) :
    SamePieces pk (failAll pk keys) := by
  unfold failAll
  induction keys generalizing pk with
  | nil => exact .refl pk
  | cons k keys ih => exact (samePieces_blockFailed pk k.1 k.2).trans (ih _)

theorem samePieces_pick (pk : Picker) (peerHas : Bitfield) (want : Nat) :
    SamePieces pk (pk.pick peerHas want).1 := by
  have hpiece : ∀ (endgame : Bool) (s : Picker × List BlockRequest) (index : Nat),
      SamePieces s.1 (Picker.pickPiece endgame want s index).1 := by
    intro endgame s index
    unfold Picker.pickPiece
    split
    · exact .refl _
    · split <;> exact .of_eq rfl rfl
  have hall : ∀ (endgame : Bool) (l : List Nat) (s : Picker × List BlockRequest),
      SamePieces s.1 (l.foldl (Picker.pickPiece endgame want) s).1 := by
    intro endgame l
    induction l with
    | nil => exact fun s => .refl _
    | cons i l ih => exact fun s => (hpiece endgame s i).trans (ih _)
  unfold Picker.pick
  split
  · exact .refl pk
  · exact hall _ _ (pk, [])

theorem quiet_fillRequests (env : Env) (idx : Nat) (w : Work) :
    Quiet w (fillRequests env idx w) := by
  unfold fillRequests
  split
  · exact .refl w
  · rename_i peer hidx
    split
    · exact .refl w
    · simp only
      split
      · exact .refl w
      · have hmark : Quiet w ((w.modifyPeer idx fun p => { p with inFlight :=
            ((w.st.picker.pick peer.has (PIPELINE_DEPTH - peer.inFlight.keys.length)).2.foldl
              (askFor (env.fillNow idx)) ⟨peer.inFlight, [], []⟩).inFlight }).modifyPicker
            fun _ => failAll (w.st.picker.pick peer.has
              (PIPELINE_DEPTH - peer.inFlight.keys.length)).1
              ((w.st.picker.pick peer.has (PIPELINE_DEPTH - peer.inFlight.keys.length)).2.foldl
                (askFor (env.fillNow idx)) ⟨peer.inFlight, [], []⟩).duplicates) := by
          refine Quiet.trans ?_ (quiet_modifyPicker
            ((samePieces_pick _ _ _).trans (samePieces_failAll _ _)))
          exact quiet_modifyPeer (by intro _; rfl) (by intro _; rfl) _ _
        refine hmark.trans (quiet_collect ?_ (by simp [isContent]) (by simp [isChoke]))
        intro o ho
        obtain ⟨req, -, rfl⟩ := List.mem_map.1 ho
        rw [hmark.ids]
        exact State.id_mem hidx

theorem quiet_cancelElsewhere (idx index begin blockNo : Nat) (w : Work) :
    Quiet w (cancelElsewhere idx index begin blockNo w) := by
  refine Quiet.foldl (fun w other => ?_) _ w
  unfold cancelAt
  split
  · exact .refl w
  · split
    · exact .refl w
    · rename_i peer hidx
      split
      · have hrelease : Quiet w ((w.modifyPeer other fun p =>
            { p with inFlight := p.inFlight.erase (index, blockNo) }).modifyPicker
            fun pk => pk.blockFailed index blockNo) := by
          refine Quiet.trans ?_ (quiet_modifyPicker (samePieces_blockFailed _ _ _))
          exact quiet_modifyPeer (by intro _; rfl) (by intro _; rfl) _ _
        refine hrelease.trans (quiet_push ?_ rfl rfl)
        rw [hrelease.ids]
        exact State.id_mem hidx
      · exact .refl w

theorem quiet_maintainRequests (env : Env) (s : Work × List (Nat × Bool)) :
    Quiet s.1 (maintainRequests env s).1 := by
  have hpeer : ∀ (s : Work × List (Nat × Bool)) (idx : Nat),
      Quiet s.1 (maintainPeer env s idx).1 := by
    intro s idx
    unfold maintainPeer
    split
    · exact .refl _
    · rename_i peer hidx
      simp only
      split
      · exact quiet_fillRequests env idx _
      · have hexpire : Quiet s.1 ((s.1.modifyPeer idx fun p => { p with
            inFlight := (expired s.1.st env.now peer).foldl (fun m k => m.erase k) p.inFlight
            strikes := p.strikes + 1 }).modifyPicker fun pk =>
              failAll pk (expired s.1.st env.now peer)) := by
          refine Quiet.trans ?_ (quiet_modifyPicker (samePieces_failAll _ _))
          exact quiet_modifyPeer (by intro _; rfl) (by intro _; rfl) _ _
        split
        · exact hexpire
        · exact hexpire.trans (quiet_fillRequests env idx _)
  unfold maintainRequests
  generalize List.range s.1.st.peers.length = l
  induction l generalizing s with
  | nil => exact .refl _
  | cons idx l ih => exact (hpeer s idx).trans (ih _)

theorem quiet_updateInterest (env : Env) (idx : Nat) (w : Work) :
    Quiet w (updateInterest env idx w) := by
  unfold updateInterest
  split
  · exact .refl w
  · rename_i peer hidx
    simp only
    split
    · have hask : Quiet w ((w.modifyPeer idx fun p => { p with weInterested := true }).push
          peer.id .interested) :=
        quiet_modifyPush hidx (by intro _; rfl) (by intro _; rfl) rfl rfl
      split
      · exact hask
      · exact hask.trans (quiet_fillRequests env idx _)
    · split
      · exact quiet_modifyPush hidx (by intro _; rfl) (by intro _; rfl) rfl rfl
      · exact .refl w

theorem quiet_violation (id : Nat) (w : Work) : Quiet w (violation id w) :=
  quiet_state ⟨rfl, rfl, rfl⟩

theorem quiet_replacePieceSet (idx : Nat) (field : Bitfield) (w : Work) :
    Quiet w (replacePieceSet idx field w) := by
  unfold replacePieceSet
  split
  · exact .refl w
  · refine Quiet.trans ?_ (quiet_modifyPicker (.of_eq rfl rfl))
    exact quiet_modifyPeer (by intro _; rfl) (by intro _; rfl) _ _

theorem quiet_onChoke (idx : Nat) (w : Work) : Quiet w (onChoke idx w) := by
  unfold onChoke
  split
  · exact .refl w
  · refine Quiet.trans ?_ (quiet_modifyPicker (samePieces_failAll _ _))
    exact quiet_modifyPeer (by intro _; rfl) (by intro _; rfl) _ _

theorem quiet_onHave (env : Env) (idx piece : Nat) (w : Work) :
    Quiet w (onHave sh env idx piece w) := by
  unfold onHave
  split
  · exact .refl w
  · split
    · refine Quiet.trans ?_ (quiet_updateInterest env idx _)
      refine Quiet.trans ?_ (quiet_modifyPicker ?_)
      · exact quiet_modifyPeer (by intro _; rfl) (by intro _; rfl) _ _
      · have hsame := Picker.sameAccounting_addSingle w.st.picker piece
        exact .of_eq hsame.toLayout hsame.haveField
    · exact .refl w

theorem quiet_sendPex (env : Env) (idx : Nat) (w : Work) : Quiet w (sendPex env idx w) := by
  unfold sendPex
  split
  · exact .refl w
  · rename_i peer hidx
    split
    · exact .refl w
    · simp only
      split
      · exact .refl w
      · exact quiet_push (State.id_mem hidx) rfl rfl

theorem quiet_serveMetadata (idx piece : Nat) (w : Work) :
    Quiet w (serveMetadata sh idx piece w) := by
  unfold serveMetadata
  split
  · exact .refl w
  · rename_i peer hidx
    split
    · exact .refl w
    · exact quiet_modifyPush hidx (by intro _; rfl) (by intro _; rfl) rfl rfl

theorem quiet_learn (env : Env) (w : Work) (dest : DestHash) : Quiet w (learn env w dest) := by
  have h := State.untouched_rememberPeerFrom w.st env.rank dest .pex
  refine quiet_state ?_
  split
  · exact ⟨h.picker, h.peers, h.nextId⟩
  · exact h

theorem quiet_onExtended (env : Env) (idx : Nat) (extId : UInt8) (payload : Bytes) (w : Work) :
    Quiet w (onExtended sh env idx extId payload w) := by
  unfold onExtended
  split
  · split
    · exact .refl w
    · simp only
      split
      · exact quiet_modifyPeer (by intro _; rfl) (by intro _; rfl) _ _
      · refine Quiet.trans ?_ (quiet_sendPex _ _ _)
        exact quiet_modifyPeer (by intro _; rfl) (by intro _; rfl) _ _
  · split
    · split
      · exact .refl w
      · split
        · exact .refl w
        · exact Quiet.foldl (quiet_learn env) _ _
    · split
      · split
        · exact quiet_serveMetadata _ _ _
        · exact .refl w
      · exact .refl w

theorem quiet_tickPeers (env : Env) (keepalive timeout : Nat) (l : List Peer)
    (s : Work × List (Nat × Bool)) (hknown : ∀ p ∈ l, p.id ∈ s.1.st.ids) :
    Quiet s.1 (l.foldl (tickPeer env keepalive timeout) s).1 := by
  induction l generalizing s with
  | nil => exact .refl _
  | cons p l ih =>
      have hstep : Quiet s.1 (tickPeer env keepalive timeout s p).1 := by
        unfold tickPeer
        split
        · exact .refl _
        · split
          · exact quiet_push (hknown p List.mem_cons_self) rfl rfl
          · exact .refl _
      refine hstep.trans (ih _ fun q hq => ?_)
      rw [hstep.ids]
      exact hknown q (List.mem_cons_of_mem _ hq)

theorem quiet_recordSent (now : Nat) (w : Work) : Quiet w (recordSent now w) := by
  have hone : ∀ (st : State) (id : Nat),
      (st.modifyId id fun p => { p with lastSent := now }).picker = st.picker ∧
      (st.modifyId id fun p => { p with lastSent := now }).nextId = st.nextId ∧
      (st.modifyId id fun p => { p with lastSent := now }).seats = st.seats := by
    intro st id
    unfold State.modifyId
    split
    · exact ⟨rfl, rfl, Lists.map_modify_of_eq (by intro _; rfl) _ _⟩
    · exact ⟨rfl, rfl, rfl⟩
  have hall : ∀ (l : List Outgoing) (st : State),
      (l.foldl (fun st o => st.modifyId o.1 fun p => { p with lastSent := now }) st).picker =
        st.picker ∧
      (l.foldl (fun st o => st.modifyId o.1 fun p => { p with lastSent := now }) st).nextId =
        st.nextId ∧
      (l.foldl (fun st o => st.modifyId o.1 fun p => { p with lastSent := now }) st).seats =
        st.seats := by
    intro l
    induction l with
    | nil => exact fun st => ⟨rfl, rfl, rfl⟩
    | cons o l ih =>
        intro st
        obtain ⟨hpk, hnext, hseats⟩ := ih (st.modifyId o.1 fun p => { p with lastSent := now })
        obtain ⟨hpk₀, hnext₀, hseats₀⟩ := hone st o.1
        exact ⟨hpk.trans hpk₀, hnext.trans hnext₀, hseats.trans hseats₀⟩
  obtain ⟨hpk, hnext, hseats⟩ := hall w.out w.st
  refine ⟨[], by simp [recordSent], .of_eq ?_ ?_, hnext, rfl, rfl, ?_, by simp, by simp⟩
  · exact congrArg Picker.toLayout hpk
  · exact congrArg Picker.haveField hpk
  · rw [map_tell_nil]
    exact hseats

/-! ## Choking

A choke change is told to its peer in the same critical section, so with unique ids the
seats are what the messages say. -/

theorem says_choke (choke : Bool) {idx id : Nat} {peer : Peer} (hnodup : w.st.ids.Nodup)
    (hidx : w.st.peers[idx]? = some peer) (hid : peer.id = id) :
    Says w ((w.modifyPeer idx fun p => { p with weChoke := choke }).push id
      (if choke then .choke else .unchoke)) [(id, if choke then .choke else .unchoke)] := by
  subst hid
  refine ⟨rfl, .refl _, rfl, rfl, rfl, ?_, ?_, ?_⟩
  · unfold State.seats
    simp only [Work.push, Work.modifyPeer, Lists.modify_eq_map hnodup hidx, List.map_map]
    refine List.map_congr_left fun p _ => ?_
    by_cases hp : p.id = peer.id
    · cases choke <;> simp [tell, sentTo, chokeView, chokeStep, hp]
    · have hne : peer.id ≠ p.id := fun h => hp h.symm
      simp [tell, sentTo, chokeView, hp, hne]
  · simpa using State.id_mem hidx
  · cases choke <;> simp [isContent]

theorem quiet_setChoke (choke : Bool) (id : Nat) (hnodup : w.st.ids.Nodup) :
    Quiet w (setChoke choke w id) := by
  unfold setChoke
  split
  · exact .refl w
  · rename_i idx hfind
    obtain ⟨hlt, hid, -⟩ := List.findIdx?_eq_some_iff_getElem.1 hfind
    have hidx : w.st.peers[idx]? = some w.st.peers[idx] := List.getElem?_eq_getElem hlt
    exact ⟨_, says_choke choke hnodup hidx (of_decide_eq_true hid)⟩

theorem quiet_setChokes (choke : Bool) (l : List Nat) (hnodup : w.st.ids.Nodup) :
    Quiet w (l.foldl (setChoke choke) w) := by
  induction l generalizing w with
  | nil => exact .refl w
  | cons id l ih =>
      have hstep := quiet_setChoke choke id hnodup
      exact hstep.trans (ih (hstep.ids ▸ hnodup))

theorem quiet_runChoker (hnodup : w.st.ids.Nodup) : Quiet w (runChoker w) := by
  unfold runChoker
  simp only
  generalize w.st.choker.plan (w.st.peers.map (snapshot w.st.picker.isComplete)) = plan
  have hround : Quiet w { w with st := { w.st with
      peers := w.st.peers.map fun p =>
        { p with uploadedAtRound := p.uploaded, downloadedAtRound := p.downloaded }
      choker := plan.1 } } := by
    refine ⟨[], by simp, .refl _, rfl, rfl, rfl, ?_, by simp, by simp⟩
    simp [State.seats, Function.comp_def, tell, sentTo, chokeView]
  have hunchoke := quiet_setChokes false plan.2.unchoke (hround.ids.symm ▸ hnodup)
  have hchoke := quiet_setChokes true plan.2.choke
    (hunchoke.ids.symm ▸ hround.ids.symm ▸ hnodup)
  exact hround.trans (hunchoke.trans hchoke)

theorem quiet_considerRound (env : Env) (hnodup : w.st.ids.Nodup) :
    Quiet w (considerRound env w) := by
  unfold considerRound
  split
  · refine Quiet.trans ?_ (quiet_runChoker ?_)
    · exact quiet_state ⟨rfl, rfl, rfl⟩
    · exact hnodup
  · exact .refl w

theorem quiet_onInterested (idx : Nat) (hnodup : w.st.ids.Nodup) :
    Quiet w (onInterested idx w) := by
  have hmark : Quiet w (w.modifyPeer idx fun p => { p with theyInterested := true }) :=
    quiet_modifyPeer (by intro _; rfl) (by intro _; rfl) _ _
  unfold onInterested
  simp only
  split
  · exact hmark.trans (quiet_runChoker (hmark.ids.symm ▸ hnodup))
  · exact hmark

theorem quiet_onNotInterested (idx : Nat) (hnodup : w.st.ids.Nodup) :
    Quiet w (onNotInterested idx w) := by
  unfold onNotInterested
  split
  · exact .refl w
  · rename_i peer hidx
    have hmark : Quiet w (w.modifyPeer idx fun p => { p with theyInterested := false }) :=
      quiet_modifyPeer (by intro _; rfl) (by intro _; rfl) _ _
    simp only
    split
    · exact hmark
    · exact hmark.trans ⟨_, says_choke true (hmark.ids.symm ▸ hnodup)
        (Work.getElem?_modifyPeer hidx _) rfl⟩

/-! ## Handlers that move data -/

/-- A handler collected some messages and completed some pieces. -/
def Shows (w w' : Work) : Prop := ∃ extra news, Does w w' extra news

/-- The picker is cut as the storage is. -/
structure Fits (sh : Shared) (w : Work) : Prop where
  layout : w.st.picker.toLayout = sh.storage.layout
  len : w.st.picker.haveField.len = sh.numPieces

theorem Quiet.shows (h : Quiet w w') : Shows w w' := by
  obtain ⟨extra, h⟩ := h
  exact ⟨extra, [], h.does⟩

theorem Shows.trans (h₁ : Shows w₁ w₂) (h₂ : Shows w₂ w₃) : Shows w₁ w₃ := by
  obtain ⟨extra₁, news₁, h₁⟩ := h₁
  obtain ⟨extra₂, news₂, h₂⟩ := h₂
  exact ⟨_, _, h₁.trans h₂⟩

theorem Fits.shows (hfit : Fits sh w) (h : Shows w w') : Fits sh w' := by
  obtain ⟨extra, news, h⟩ := h
  exact ⟨h.layout.trans hfit.layout, h.len.trans hfit.len⟩

theorem Fits.numPieces (hfit : Fits sh w) : w.st.picker.numPieces = sh.numPieces := by
  rw [Shared.numPieces, ← hfit.layout]

/-- What is on disk does not show. -/
theorem shows_disk (w : Work) (disk : Disk) (trace : List Access) :
    Shows w { w with disk := disk, trace := trace } :=
  ⟨[], [], by simp, rfl, rfl, rfl, by simp, by simp, by simp, by simp⟩

theorem samePieces_blockReceived (pk : Picker) (i b : Nat) :
    SamePieces pk (pk.blockReceived i b).1 := by
  unfold Picker.blockReceived
  split
  · simp only
    split <;> exact .of_eq rfl rfl
  · exact .refl pk

theorem shows_serveRequest (env : Env) (idx : Nat) (req : BlockRequest) (w : Work) :
    Shows w (serveRequest sh env idx req w) := by
  unfold serveRequest
  split
  · exact (Quiet.refl w).shows
  · rename_i peer hidx
    split
    · exact (Quiet.refl w).shows
    · split
      · exact (Quiet.refl w).shows
      · rename_i data _
        refine ⟨[(peer.id, .piece req.index req.begin data)], [], rfl, rfl, rfl, rfl, ?_, ?_, ?_, ?_⟩
        · rw [map_tell_of_plain (by simp [isChoke])]
          exact Lists.map_modify_of_eq (by intro _; rfl) _ _
        · simpa using State.id_mem hidx
        · simp [Work.push, Work.modifyPeer]
        · simp

/-- A piece is marked held and everyone is told. -/
theorem does_complete {index : Nat} {st : State} (hfit : Fits sh w) (hi : index < sh.numPieces)
    (h : State.Untouched (w.modifyPicker fun pk => pk.setHave index).st st) :
    Does w { w with st := st, out := w.out ++ st.peers.map fun p => (p.id, .have_ index) }
      (st.peers.map fun p => (p.id, .have_ index)) [index] := by
  obtain ⟨hpk, hpeers, hnext⟩ := h
  have hi' : index < w.st.picker.numPieces := by
    rw [hfit.numPieces]
    exact hi
  refine ⟨rfl, ?_, ?_, hnext, ?_, ?_, ?_, ?_⟩
  · simp [hpk, Work.modifyPicker, Picker.setHave, hi']
  · simp [hpk, Work.modifyPicker, Picker.setHave, hi']
  · rw [map_tell_of_plain (by simp [isChoke])]
    simp only [State.seats, hpeers]
    rfl
  · intro o ho
    obtain ⟨p, hp, rfl⟩ := List.mem_map.1 ho
    rw [hpeers] at hp
    exact List.mem_map_of_mem hp
  · intro i
    simp only [hpk, Work.modifyPicker, Picker.has, Picker.setHave, hi', if_true, Bitfield.has_set,
      hfit.len, hi, and_true, List.mem_singleton, Bool.or_eq_true, decide_eq_true_eq]
    exact or_comm
  · intro id i
    simp only [hpeers, Work.modifyPicker, List.mem_map, Prod.mk.injEq, Message.have_.injEq,
      List.mem_singleton, State.ids]
    constructor
    · rintro ⟨p, hp, rfl, rfl⟩
      exact ⟨rfl, p, hp, rfl⟩
    · rintro ⟨rfl, p, hp, rfl⟩
      exact ⟨p, hp, rfl, rfl⟩

/-- A piece that failed is started over. -/
theorem quiet_failed {index : Nat} (hfit : Fits sh w) (hi : index < sh.numPieces)
    (hnot : w.st.picker.has index = false) :
    Quiet w { w.modifyPicker fun pk => pk.resetPiece index with
      st := (w.modifyPicker fun pk => pk.resetPiece index).st.blameSuppliers index } := by
  have hi' : index < w.st.picker.numPieces := by
    rw [hfit.numPieces]
    exact hi
  refine Quiet.trans (quiet_modifyPicker ⟨?_, ?_, ?_⟩)
    (quiet_state (State.untouched_blameSuppliers _ _))
  · simp [Picker.resetPiece, hi']
  · simp [Picker.resetPiece, hi']
  · intro i
    rw [Picker.has_resetPiece hi']
    by_cases hii : i = index
    · simp [hii, hnot]
    · simp [hii]

theorem shows_onComplete (env : Env) {index : Nat} (hfit : Fits sh w) (hi : index < sh.numPieces)
    (hnot : w.st.picker.has index = false) : Shows w (onComplete sh env index w) := by
  unfold onComplete
  split
  · exact ⟨_, _, does_complete hfit hi (State.untouched_creditSuppliers _ _)⟩
  · exact (quiet_failed hfit hi hnot).shows
  · refine Quiet.shows (quiet_state ?_)
    exact ⟨rfl, rfl, rfl⟩

/-- A block is counted, withdrawn from the others and marked received. -/
theorem quiet_received (idx index begin : Nat) (block : Bytes) (dest : DestHash) (w : Work) :
    Quiet w ((cancelElsewhere idx index begin (begin / BLOCK_LEN)
      (recordBlock idx (index, begin / BLOCK_LEN) dest block.length w)).modifyPicker fun _ =>
        ((cancelElsewhere idx index begin (begin / BLOCK_LEN)
          (recordBlock idx (index, begin / BLOCK_LEN) dest block.length w)).st.picker.blockReceived
            index (begin / BLOCK_LEN)).1) := by
  have hrecord : Quiet w (recordBlock idx (index, begin / BLOCK_LEN) dest block.length w) := by
    refine ⟨[], by simp [recordBlock, Work.modifyPeer], .refl _, rfl, rfl, rfl, ?_, by simp,
      by simp⟩
    rw [map_tell_nil]
    exact Lists.map_modify_of_eq (by intro _; rfl) _ _
  have hcancel := hrecord.trans (quiet_cancelElsewhere idx index begin (begin / BLOCK_LEN) _)
  exact hcancel.trans (quiet_modifyPicker (samePieces_blockReceived _ _ _))

theorem shows_onWritten (env : Env) (idx : Nat) {index : Nat} (begin : Nat) (block : Bytes)
    (dest : DestHash) (hfit : Fits sh w) (hi : index < sh.numPieces)
    (hnot : w.st.picker.has index = false) :
    Shows w (onWritten sh env idx index begin block dest w).1 := by
  have hreceive := quiet_received idx index begin block dest w
  unfold onWritten
  simp only
  split
  · refine hreceive.shows.trans (shows_onComplete env (hfit.shows hreceive.shows) hi ?_)
    obtain ⟨_, hsaid⟩ := hreceive
    rw [hsaid.pieces.has]
    exact hnot
  · exact hreceive.shows

theorem shows_onOwedBlock (env : Env) (idx : Nat) {index : Nat} (begin : Nat) (block : Bytes)
    (dest : DestHash) (hfit : Fits sh w) (hi : index < sh.numPieces) (hnot : w.st.picker.has index = false) :
    Shows w (onOwedBlock sh env idx index begin block dest w).1 := by
  unfold onOwedBlock
  simp only
  split
  · exact (quiet_modifyPicker (samePieces_blockFailed _ _ _)).shows.trans (shows_disk _ _ _)
  · have hwrite := fun parts => shows_disk w (w.disk.writes parts)
      (w.trace ++ [.write (sh.storage.offsetOf index begin) block.length
        w.st.picker.haveField parts])
    replace hwrite := hwrite (sh.storage.writeBlock env.writeFault index begin block).1
    split
    · refine hwrite.trans (Quiet.shows (Quiet.trans (quiet_modifyPicker
        (samePieces_blockFailed _ index (begin / BLOCK_LEN))) (quiet_state ⟨rfl, rfl, rfl⟩)))
    · exact hwrite.trans (shows_onWritten env idx begin block dest (hfit.shows hwrite) hi hnot)

theorem quiet_takeOwed (idx : Nat) (k : BlockKey) (requested : Bool) (w : Work) :
    Quiet w (takeOwed idx k requested w) :=
  quiet_modifyPeer (by intro _; rfl) (by intro _; rfl) w idx

theorem shows_onBlock (env : Env) (idx index begin : Nat) (block : Bytes) (hfit : Fits sh w) :
    Shows w (onBlock sh env idx index begin block w) := by
  rcases onBlock_cases sh env idx index begin block w with heq | ⟨peer, -, -, hi, -, hcase⟩
  · rw [heq]
    exact (Quiet.refl w).shows
  · have htake := fun requested => quiet_takeOwed idx (index, begin / BLOCK_LEN) requested w
    rcases hcase with ⟨-, heq⟩ | ⟨-, -, heq⟩ | ⟨-, hnot, r, hr, heq⟩
    · rw [heq]
      exact ((htake false).trans (quiet_fillRequests env idx _)).shows
    · rw [heq]
      exact ((htake true).trans (quiet_fillRequests env idx _)).shows
    · have howed := (htake true).shows.trans
        (shows_onOwedBlock env idx begin block peer.dest (hfit.shows (htake true).shows) hi hnot)
      rw [heq, hr]
      split
      · exact howed.trans (quiet_fillRequests env idx _).shows
      · exact howed

/-! ## Critical sections -/

/-- Everything but a request for a block and a block is quiet. -/
theorem quiet_dispatch (sh : Shared) (env : Env) (idx id : Nat) (first fast : Bool)
    (msg : Message) (hnodup : w.st.ids.Nodup) :
    Quiet w (dispatch sh env idx id first fast msg w) ∨
      (∃ req, dispatch sh env idx id first fast msg w = serveRequest sh env idx req w) ∨
      ∃ index begin block,
        dispatch sh env idx id first fast msg w = onBlock sh env idx index begin block w := by
  have hviolation := quiet_violation id w
  have hreplace := fun field =>
    (quiet_replacePieceSet idx field w).trans (quiet_updateInterest env idx _)
  unfold dispatch
  cases msg with
  | request req => exact .inr (.inl ⟨req, rfl⟩)
  | piece index begin block => exact .inr (.inr ⟨index, begin, block, rfl⟩)
  | keepAlive => exact .inl (.refl w)
  | cancel _ => exact .inl (.refl w)
  | rejectRequest _ =>
      left
      simp only
      split
      · exact .refl w
      · exact hviolation
  | suggestPiece _ =>
      left
      simp only
      split
      · exact .refl w
      · exact hviolation
  | allowedFast _ =>
      left
      simp only
      split
      · exact .refl w
      · exact hviolation
  | extended extId payload => exact .inl (quiet_onExtended env idx extId payload w)
  | choke => exact .inl (quiet_onChoke idx w)
  | unchoke =>
      refine .inl (Quiet.trans ?_ (quiet_fillRequests env idx _))
      exact quiet_modifyPeer (by intro _; rfl) (by intro _; rfl) _ _
  | interested => exact .inl (quiet_onInterested idx hnodup)
  | notInterested => exact .inl (quiet_onNotInterested idx hnodup)
  | have_ piece => exact .inl (quiet_onHave env idx piece w)
  | bitfield bytes =>
      left
      simp only
      split
      · split
        · exact hreplace _
        · exact hviolation
      · exact hviolation
  | haveAll =>
      left
      simp only
      split
      · exact hreplace _
      · exact hviolation
  | haveNone =>
      left
      simp only
      split
      · exact hreplace _
      · exact hviolation

theorem shows_dispatch (env : Env) (idx id : Nat) (first fast : Bool) (msg : Message)
    (hfit : Fits sh w) (hnodup : w.st.ids.Nodup) :
    Shows w (dispatch sh env idx id first fast msg w) := by
  rcases quiet_dispatch sh env idx id first fast msg hnodup with
    hquiet | ⟨req, heq⟩ | ⟨index, begin, block, heq⟩
  · exact hquiet.shows
  · rw [heq]
    exact shows_serveRequest env idx req w
  · rw [heq]
    exact shows_onBlock env idx index begin block hfit

theorem Shows.ids (h : Shows w w') : w'.st.ids = w.st.ids := by
  obtain ⟨extra, news, h⟩ := h
  exact h.ids

theorem shows_handle (env : Env) (id : Nat) (msg : Message) (hfit : Fits sh w)
    (hnodup : w.st.ids.Nodup) : Shows w (handle sh env id msg w) := by
  unfold handle
  split
  · exact (Quiet.refl w).shows
  · rename_i idx _
    split
    · exact (Quiet.refl w).shows
    · have hopen : Quiet w (w.modifyPeer idx fun p => { p with opened := p.opened || opens msg }) :=
        quiet_modifyPeer (by intro _; rfl) (by intro _; rfl) w idx
      exact hopen.shows.trans (shows_dispatch env idx id _ _ msg (hfit.shows hopen.shows)
        (hopen.ids.symm ▸ hnodup))

/-- An engine whose picker is cut as its storage is and whose peers have ids of their own. -/
structure Engine.Seated (sh : Shared) (e : Engine) : Prop where
  fits : Fits sh e.enter
  nodup : e.st.ids.Nodup
  fresh : ∀ id ∈ e.st.ids, id < e.st.nextId

/-- What a critical section collected and completed. -/
structure Section (e e' : Engine) (sends : List Outgoing) (news : List Nat) : Prop where
  layout : e'.st.picker.toLayout = e.st.picker.toLayout
  len : e'.st.picker.haveField.len = e.st.picker.haveField.len
  nextId : e'.st.nextId = e.st.nextId
  seats : e'.st.seats = e.st.seats.map (tell sends)
  known : ∀ o ∈ sends, o.1 ∈ e.st.ids
  held : ∀ i, e'.st.picker.has i = true ↔ e.st.picker.has i = true ∨ i ∈ news
  told : ∀ id i, (id, Message.have_ i) ∈ sends ↔ i ∈ news ∧ id ∈ e.st.ids

variable {e : Engine}

theorem Section.ids {e' : Engine} {sends : List Outgoing} {news : List Nat}
    (h : Section e e' sends news) : e'.st.ids = e.st.ids := by
  rw [← State.map_fst_seats, ← State.map_fst_seats, h.seats, map_fst_tell]

theorem Section.seated {e' : Engine} {sends : List Outgoing} {news : List Nat}
    (h : Section e e' sends news) (hseat : e.Seated sh) : e'.Seated sh where
  fits := ⟨h.layout.trans hseat.fits.layout, h.len.trans hseat.fits.len⟩
  nodup := h.ids ▸ hseat.nodup
  fresh := by
    rw [h.ids, h.nextId]
    exact hseat.fresh

theorem Shows.finish (h : Shows e.enter w) (drops : List (Nat × Bool)) :
    ∃ news, Section e (w.finish drops).1 (w.finish drops).2.sends news := by
  obtain ⟨extra, news, h⟩ := h
  obtain rfl : w.out = extra := h.out
  exact ⟨news, h.layout, h.len, h.nextId, h.seats, h.known, h.held, h.told⟩

/-- Noting when a peer was last heard. -/
theorem quiet_seen (now id : Nat) (e : Engine) : Quiet e.enter { e.enter with
    st := e.st.modifyId id fun p => { p with lastSeen := now } } := by
  unfold State.modifyId
  split
  · exact quiet_modifyPeer (by intro _; rfl) (by intro _; rfl) e.enter _
  · exact .refl _

theorem section_onMessage (env : Env) (id : Nat) (msg : Message) (hseat : e.Seated sh) :
    ∃ news, Section e (onMessage sh env id msg e).1 (onMessage sh env id msg e).2.sends news := by
  have hseen := quiet_seen env.now id e
  have hhandle := hseen.shows.trans (shows_handle env id msg (hseat.fits.shows hseen.shows)
    (hseen.ids.symm ▸ hseat.nodup))
  have hround := hhandle.trans (quiet_considerRound env (hhandle.ids.symm ▸ hseat.nodup)).shows
  exact (hround.trans (quiet_recordSent env.now _).shows).finish []

/-- A tick is quiet. -/
theorem quiet_maintain (env : Env) (hseat : e.Seated sh) :
    ∃ w drops, Quiet e.enter w ∧ maintain env e = w.finish drops := by
  have hallow : Quiet e.enter { e.enter with st := { e.enter.st with
      peers := e.enter.st.peers.map fun p => { p with metadataRequests := 0 } } } := by
    refine ⟨[], by simp, .refl _, rfl, rfl, rfl, ?_, by simp, by simp⟩
    simp [State.seats, Function.comp_def, tell, sentTo, chokeView]
  have htick := hallow.trans (quiet_tickPeers env e.enter.st.keepaliveInterval
    e.enter.st.idleTimeout (e.enter.st.peers.map fun p => { p with metadataRequests := 0 }) (_, [])
    fun p hp => List.mem_map_of_mem hp)
  have hrequests := htick.trans (quiet_maintainRequests env _)
  have hround := hrequests.trans (quiet_considerRound env (hrequests.ids.symm ▸ hseat.nodup))
  exact ⟨_, _, hround.trans (quiet_recordSent env.now _), rfl⟩

theorem section_maintain (env : Env) (hseat : e.Seated sh) :
    ∃ news, Section e (maintain env e).1 (maintain env e).2.sends news := by
  obtain ⟨w, drops, hquiet, heq⟩ := quiet_maintain env hseat
  rw [heq]
  exact hquiet.shows.finish drops

end Clove.Torrent
