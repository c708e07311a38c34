import Clove.Torrent.Run

/-!
# What a handler may change

The state behind the lock is read from several sides: who is seated, which pieces they have,
who is choked, which pieces are held, and so on.  Each side is an `Aspect`, with its part of a
peer, of the picker and of the books, and the messages that speak of it.  `Leaves c w w'` says
that a handler changed no aspect outside `c`.

There is one lemma for each handler, naming the aspects it may change.  An invariant that reads
some aspects is then proved about the handlers that change them, and about no others.
-/

namespace Clove.Torrent

open Wire (BLOCK_LEN BlockRequest Message)

/-! ## Aspects -/

/-- A side of the state. -/
inductive Aspect where
  /-- Who is seated. -/
  | table
  /-- Which pieces the peers have. -/
  | sets
  /-- Which connections have been opened. -/
  | opening
  /-- Who is choked, and who is interested in us. -/
  | choking
  /-- Whom we are interested in. -/
  | interest
  /-- Which pieces are held. -/
  | held
  /-- Which blocks are received. -/
  | blocks
  /-- Who supplied them. -/
  | suppliers
  /-- Known and banned destinations. -/
  | known
  /-- Peers queued for removal. -/
  | doomed
  /-- The files. -/
  | files
  /-- Blocks served. -/
  | served
  /-- Extended messages. -/
  | talk
deriving DecidableEq

namespace Aspect

def PeerView : Aspect → Type
  | table => DestHash
  | sets => Bitfield
  | opening => Bool × Bool
  | choking => Bool × Bool
  | interest => Bool
  | _ => Unit

/-- The part of a peer, apart from its id. -/
def ofPeer : (a : Aspect) → Peer → a.PeerView
  | table, p => p.dest
  | sets, p => p.has
  | opening, p => (p.opened, p.fast)
  | choking, p => (p.weChoke, p.theyInterested)
  | interest, p => p.weInterested
  | held, _ | blocks, _ | suppliers, _ | known, _ | doomed, _ | files, _ | served, _ | talk, _ => ()

def PickerView : Aspect → Type
  | sets => List Nat
  | held => Layout × Bitfield
  | blocks => Nat → Nat → Bool
  | _ => Unit

/-- The part of the picker. -/
def ofPicker : (a : Aspect) → Picker → a.PickerView
  | sets, pk => pk.availability
  | held, pk => (pk.toLayout, pk.haveField)
  | blocks, pk => pk.isReceived
  | table, _ | opening, _ | choking, _ | interest, _ | suppliers, _ | known, _ | doomed, _
  | files, _ | served, _ | talk, _ => ()

/-- What the books say of known and banned destinations. -/
structure Known where
  knownPeers : Map DestHash Source
  banned : List DestHash
  localDest : Option DestHash
  offences : Map DestHash (Nat × Nat)

def BooksView : Aspect → Type
  | table => Nat × Option Nat
  | choking => Nat
  | suppliers => Map BlockKey DestHash
  | known => Known
  | doomed => List (Nat × Bool)
  | files => Disk × List Access
  | _ => Unit

/-- The part of the rest. -/
def ofBooks : (a : Aspect) → Work → a.BooksView
  | table, w => (w.st.nextId, w.st.maxPeers)
  | choking, w => w.st.choker.maxUnchoked
  | suppliers, w => w.st.suppliers
  | known, w => ⟨w.st.knownPeers, w.st.banned, w.st.localDest, w.st.offences⟩
  | doomed, w => w.st.toDrop
  | files, w => (w.disk, w.trace)
  | sets, _ | opening, _ | interest, _ | held, _ | blocks, _ | served, _ | talk, _ => ()

/-- The messages that speak of an aspect. -/
def hears : Aspect → Message → Bool
  | choking, .choke => true
  | choking, .unchoke => true
  | interest, .interested => true
  | interest, .notInterested => true
  | held, .have_ _ => true
  | served, .piece .. => true
  | talk, .extended .. => true
  | _, _ => false

end Aspect

/-- An aspect is as it was. -/
structure SameIn (a : Aspect) (w w' : Work) : Prop where
  peers : (w'.st.peers.map fun p => (p.id, a.ofPeer p)) = w.st.peers.map fun p => (p.id, a.ofPeer p)
  picker : a.ofPicker w'.st.picker = a.ofPicker w.st.picker
  books : a.ofBooks w' = a.ofBooks w
  out : (w'.out.filter fun o => a.hears o.2) = w.out.filter fun o => a.hears o.2

/-- Every aspect outside `c` is as it was. -/
def Leaves (c : List Aspect) (w w' : Work) : Prop := ∀ a, a ∉ c → SameIn a w w'

variable {c c' : List Aspect} {w w' w₁ w₂ w₃ : Work}

theorem SameIn.refl (a : Aspect) (w : Work) : SameIn a w w := ⟨rfl, rfl, rfl, rfl⟩

theorem SameIn.trans {a : Aspect} (h₁ : SameIn a w₁ w₂) (h₂ : SameIn a w₂ w₃) : SameIn a w₁ w₃ :=
  ⟨h₂.peers.trans h₁.peers, h₂.picker.trans h₁.picker, h₂.books.trans h₁.books,
    h₂.out.trans h₁.out⟩

/-- The peers' parts, without the ids. -/
theorem SameIn.views {a : Aspect} (h : SameIn a w w') :
    w'.st.peers.map a.ofPeer = w.st.peers.map a.ofPeer := by
  have hmap := congrArg (List.map Prod.snd) h.peers
  rw [List.map_map, List.map_map] at hmap
  exact hmap

theorem SameIn.ids {a : Aspect} (h : SameIn a w w') :
    w'.st.peers.map (·.id) = w.st.peers.map (·.id) := by
  have hmap := congrArg (List.map Prod.fst) h.peers
  rw [List.map_map, List.map_map] at hmap
  exact hmap

/-- The peer at a position is the one that was there, as far as the aspect goes. -/
theorem SameIn.getElem? {a : Aspect} (h : SameIn a w w') {j : Nat} {p : Peer}
    (hj : w'.st.peers[j]? = some p) :
    ∃ q, w.st.peers[j]? = some q ∧ q.id = p.id ∧ a.ofPeer q = a.ofPeer p := by
  have hview := congrArg (fun l => l[j]?) h.peers
  simp only [List.getElem?_map, hj, Option.map_some] at hview
  obtain ⟨q, hq, heq⟩ := Option.map_eq_some_iff.1 hview.symm
  obtain ⟨hid, hpeer⟩ := Prod.mk.inj heq
  exact ⟨q, hq, hid, hpeer⟩

/-- A message that speaks of the aspect is new to neither side. -/
theorem SameIn.mem_out {a : Aspect} (h : SameIn a w w') {o : Outgoing} (ho : a.hears o.2 = true) :
    o ∈ w'.out ↔ o ∈ w.out := by
  have hmem : ∀ l : List Outgoing, o ∈ l ↔ o ∈ l.filter fun o => a.hears o.2 :=
    fun l => ⟨fun hl => List.mem_filter.2 ⟨hl, ho⟩, fun hl => (List.mem_filter.1 hl).1⟩
  rw [hmem, h.out, ← hmem]

namespace Leaves

theorem refl (c : List Aspect) (w : Work) : Leaves c w w := fun a _ => .refl a w

theorem trans (h₁ : Leaves c w₁ w₂) (h₂ : Leaves c w₂ w₃) : Leaves c w₁ w₃ :=
  fun a ha => (h₁ a ha).trans (h₂ a ha)

theorem mono (h : Leaves c w w') (hc : c ⊆ c') : Leaves c' w w' := fun a ha => h a fun hmem => ha (hc hmem)

theorem foldl {α : Type} {f : Work → α → Work} (hf : ∀ w a, Leaves c w (f w a)) (l : List α)
    (w : Work) : Leaves c w (l.foldl f w) := by
  induction l generalizing w with
  | nil => exact .refl c w
  | cons a l ih => exact (hf w a).trans (ih _)

/-- A fold that carries something beside the work. -/
theorem foldl_fst {α β : Type} {f : Work × β → α → Work × β}
    (hf : ∀ s a, Leaves c s.1 (f s a).1) (l : List α) (s : Work × β) :
    Leaves c s.1 (l.foldl f s).1 := by
  induction l generalizing s with
  | nil => exact .refl c s.1
  | cons a l ih => exact (hf s a).trans (ih _)

/-- A fold over the state alone. -/
theorem foldl_state {α : Type} {f : State → α → State}
    (hf : ∀ w a, Leaves c w { w with st := f w.st a }) (l : List α) (w : Work) :
    Leaves c w { w with st := l.foldl f w.st } := by
  induction l generalizing w with
  | nil => exact .refl c w
  | cons a l ih => exact (hf w a).trans (ih { w with st := f w.st a })

end Leaves

/-! ## Elementary changes -/

theorem leaves_modifyPeer {f : Peer → Peer} (hid : ∀ p, (f p).id = p.id)
    (hf : ∀ a, a ∉ c → ∀ p, a.ofPeer (f p) = a.ofPeer p) (w : Work) (idx : Nat) :
    Leaves c w (w.modifyPeer idx f) := by
  refine fun a ha => ⟨?_, rfl, ?_, rfl⟩
  · exact Lists.map_modify_of_eq (fun p => by rw [hid, hf a ha]) _ _
  · cases a <;> rfl

/-- A change of every peer. -/
theorem leaves_mapPeers {f : Peer → Peer} (hid : ∀ p, (f p).id = p.id)
    (hf : ∀ a, a ∉ c → ∀ p, a.ofPeer (f p) = a.ofPeer p) (w : Work) :
    Leaves c w { w with st := { w.st with peers := w.st.peers.map f } } := by
  refine fun a ha => ⟨?_, rfl, ?_, rfl⟩
  · simp only [List.map_map]
    exact List.map_congr_left fun p _ => by simp only [Function.comp, hid, hf a ha]
  · cases a <;> rfl

theorem leaves_modifyPicker {f : Picker → Picker}
    (hf : ∀ a, a ∉ c → a.ofPicker (f w.st.picker) = a.ofPicker w.st.picker) :
    Leaves c w (w.modifyPicker f) := by
  refine fun a ha => ⟨rfl, hf a ha, ?_, rfl⟩
  cases a <;> rfl

theorem leaves_collect {extra : List Outgoing}
    (h : ∀ a, a ∉ c → ∀ o ∈ extra, a.hears o.2 = false) :
    Leaves c w { w with out := w.out ++ extra } := by
  refine fun a ha => ⟨rfl, rfl, ?_, ?_⟩
  · cases a <;> rfl
  · have hnone : (extra.filter fun o => a.hears o.2) = [] := by
      refine List.filter_eq_nil_iff.2 fun o ho => ?_
      rw [h a ha o ho]
      exact Bool.false_ne_true
    rw [List.filter_append, hnone, List.append_nil]

theorem leaves_push {msg : Message} (h : ∀ a, a ∉ c → a.hears msg = false) (id : Nat) :
    Leaves c w (w.push id msg) :=
  leaves_collect fun a ha o ho => by rw [List.mem_singleton.1 ho, h a ha]

/-- A change of the state outside table, picker and messages. -/
theorem leaves_state {st : State} (h : State.Untouched w.st st)
    (hbooks : ∀ a, a ∉ c → a.ofBooks { w with st := st } = a.ofBooks w) :
    Leaves c w { w with st := st } := by
  refine fun a ha => ⟨?_, ?_, hbooks a ha, rfl⟩
  · simp only [h.peers]
  · simp only [h.picker]

/-- The files change. -/
theorem leaves_files (hc : .files ∈ c) (w : Work) (disk : Disk) (trace : List Access) :
    Leaves c w { w with disk := disk, trace := trace } := by
  refine fun a ha => ⟨rfl, rfl, ?_, rfl⟩
  cases a with
  | files => exact absurd hc ha
  | _ => rfl

/-- A counter changes. -/
theorem leaves_counters (c : List Aspect) (w : Work) (uploaded downloaded : Nat) :
    Leaves c w { w with uploaded := uploaded, downloaded := downloaded } := by
  refine fun a _ => ⟨rfl, rfl, ?_, rfl⟩
  cases a <;> rfl

/-! ## Requests -/

/-- Only the requests of the picker changed. -/
structure Tended (pk pk' : Picker) : Prop where
  availability : pk'.availability = pk.availability
  toLayout : pk'.toLayout = pk.toLayout
  haveField : pk'.haveField = pk.haveField
  isReceived : ∀ i b, pk'.isReceived i b = pk.isReceived i b

theorem Tended.refl (pk : Picker) : Tended pk pk := ⟨rfl, rfl, rfl, fun _ _ => rfl⟩

theorem Tended.trans {pk₁ pk₂ pk₃ : Picker} (h₁ : Tended pk₁ pk₂) (h₂ : Tended pk₂ pk₃) :
    Tended pk₁ pk₃ :=
  ⟨h₂.availability.trans h₁.availability, h₂.toLayout.trans h₁.toLayout,
    h₂.haveField.trans h₁.haveField, fun i b => (h₂.isReceived i b).trans (h₁.isReceived i b)⟩

theorem Tended.ofPicker {pk pk' : Picker} (h : Tended pk pk') (a : Aspect) :
    a.ofPicker pk' = a.ofPicker pk := by
  cases a with
  | sets => exact h.availability
  | held => exact Prod.ext h.toLayout h.haveField
  | blocks => exact funext fun i => funext fun b => h.isReceived i b
  | _ => rfl

theorem Tended.leaves {f : Picker → Picker} (h : Tended w.st.picker (f w.st.picker))
    (c : List Aspect) : Leaves c w (w.modifyPicker f) :=
  leaves_modifyPicker fun a _ => h.ofPicker a

theorem tended_blockFailed (pk : Picker) (i b : Nat) : Tended pk (pk.blockFailed i b) := by
  refine ⟨?_, (Picker.haveField_blockFailed pk i b).2, (Picker.haveField_blockFailed pk i b).1,
    fun j c => Picker.isReceived_blockFailed pk i b j c⟩
  unfold Picker.blockFailed
  split
  · split <;> rfl
  · rfl

theorem tended_failAll (pk : Picker) (keys : List BlockKey) : Tended pk (failAll pk keys) := by
  unfold failAll
  induction keys generalizing pk with
  | nil => exact .refl pk
  | cons k keys ih => exact (tended_blockFailed pk k.1 k.2).trans (ih _)

/-- Picking blocks of a piece marks none as received. -/
theorem received_pickBlocks (endgame : Bool) (want index plen : Nat) (l : List Nat)
    (s : Progress × List BlockRequest) :
    (l.foldl (Picker.pickBlock endgame want index plen) s).1.received = s.1.received := by
  induction l generalizing s with
  | nil => rfl
  | cons block l ih =>
      refine (ih _).trans ?_
      unfold Picker.pickBlock
      split_ifs <;> rfl

theorem tended_pick (pk : Picker) (peerHas : Bitfield) (want : Nat) :
    Tended pk (pk.pick peerHas want).1 := by
  have hpiece : ∀ (endgame : Bool) (s : Picker × List BlockRequest) (index : Nat),
      Tended s.1 (Picker.pickPiece endgame want s index).1 := by
    intro endgame s index
    unfold Picker.pickPiece
    split
    · exact .refl _
    · split
      · refine ⟨rfl, rfl, rfl, fun j c => ?_⟩
        simp only
        rw [Picker.isReceived_putProgress, received_pickBlocks]
        split
        · rename_i hj
          rw [hj]
          exact Picker.received_progressOf _ _ _
        · rfl
      · exact .refl _
  have hall : ∀ (endgame : Bool) (l : List Nat) (s : Picker × List BlockRequest),
      Tended s.1 (l.foldl (Picker.pickPiece endgame want) s).1 := by
    intro endgame l
    induction l with
    | nil => exact fun s => .refl _
    | cons i l ih => exact fun s => (hpiece endgame s i).trans (ih _)
  unfold Picker.pick
  split
  · exact .refl pk
  · exact hall _ _ (pk, [])

theorem leaves_fillRequests (c : List Aspect) (env : Env) (idx : Nat) (w : Work) :
    Leaves c w (fillRequests env idx w) := by
  unfold fillRequests
  split
  · exact .refl c w
  · rename_i peer hidx
    split
    · exact .refl c w
    · simp only
      split
      · exact .refl c w
      · refine Leaves.trans ?_ (leaves_collect fun a _ o ho => ?_)
        · refine Leaves.trans ?_ (Tended.leaves ((tended_pick _ _ _).trans (tended_failAll _ _)) c)
          exact leaves_modifyPeer (by intro _; rfl) (by intro a _ _; cases a <;> rfl) w idx
        · obtain ⟨req, -, rfl⟩ := List.mem_map.1 ho
          cases a <;> rfl

theorem leaves_cancelElsewhere (c : List Aspect) (idx index begin blockNo : Nat) (w : Work) :
    Leaves c w (cancelElsewhere idx index begin blockNo w) := by
  refine Leaves.foldl (fun w other => ?_) _ w
  unfold cancelAt
  split
  · exact .refl c w
  · split
    · exact .refl c w
    · split
      · have hrelease : Leaves c w ((w.modifyPeer other fun p =>
            { p with inFlight := p.inFlight.erase (index, blockNo) }).modifyPicker
            fun pk => pk.blockFailed index blockNo) := by
          refine Leaves.trans ?_ (Tended.leaves (tended_blockFailed _ _ _) c)
          exact leaves_modifyPeer (by intro _; rfl) (by intro a _ _; cases a <;> rfl) w other
        exact hrelease.trans (leaves_push (by intro a _; cases a <;> rfl) _)
      · exact .refl c w

theorem leaves_maintainRequests (c : List Aspect) (env : Env) (s : Work × List (Nat × Bool)) :
    Leaves c s.1 (maintainRequests env s).1 := by
  refine Leaves.foldl_fst (fun s idx => ?_) _ s
  unfold maintainPeer
  split
  · exact .refl c _
  · rename_i peer hidx
    simp only
    split
    · exact leaves_fillRequests c env idx _
    · have hexpire : Leaves c s.1 ((s.1.modifyPeer idx fun p => { p with
          inFlight := (expired s.1.st env.now peer).foldl (fun m k => m.erase k) p.inFlight
          strikes := p.strikes + 1 }).modifyPicker fun pk =>
            failAll pk (expired s.1.st env.now peer)) := by
        refine Leaves.trans ?_ (Tended.leaves (tended_failAll _ _) c)
        exact leaves_modifyPeer (by intro _; rfl) (by intro a _ _; cases a <;> rfl) _ idx
      split
      · exact hexpire
      · exact hexpire.trans (leaves_fillRequests c env idx _)

theorem leaves_onChoke (c : List Aspect) (idx : Nat) (w : Work) : Leaves c w (onChoke idx w) := by
  unfold onChoke
  split
  · exact .refl c w
  · refine Leaves.trans ?_ (Tended.leaves (tended_failAll _ _) c)
    exact leaves_modifyPeer (by intro _; rfl) (by intro a _ _; cases a <;> rfl) w idx

theorem leaves_takeOwed (c : List Aspect) (idx : Nat) (k : BlockKey) (requested : Bool) (w : Work) :
    Leaves c w (takeOwed idx k requested w) :=
  leaves_modifyPeer (by intro _; rfl) (by intro a _ _; cases a <;> rfl) w idx

/-! ## Bookkeeping -/

theorem leaves_modifyId {f : Peer → Peer} (hid : ∀ p, (f p).id = p.id)
    (hf : ∀ a, a ∉ c → ∀ p, a.ofPeer (f p) = a.ofPeer p) (w : Work) (id : Nat) :
    Leaves c w { w with st := w.st.modifyId id f } := by
  unfold State.modifyId
  split
  · exact leaves_modifyPeer hid hf w _
  · exact .refl c w

theorem leaves_recordSent (c : List Aspect) (now : Nat) (w : Work) :
    Leaves c w (recordSent now w) := by
  refine Leaves.foldl_state (fun w o => ?_) w.out w
  exact leaves_modifyId (by intro _; rfl) (by intro a _ _; cases a <;> rfl) w o.1

theorem leaves_tickPeers (c : List Aspect) (env : Env) (keepalive timeout : Nat) (l : List Peer)
    (s : Work × List (Nat × Bool)) :
    Leaves c s.1 (l.foldl (tickPeer env keepalive timeout) s).1 := by
  refine Leaves.foldl_fst (fun s p => ?_) l s
  unfold tickPeer
  split
  · exact .refl c _
  · split
    · exact leaves_push (by intro a _; cases a <;> rfl) _
    · exact .refl c _

theorem leaves_violation (id : Nat) (w : Work) : Leaves [.doomed] w (violation id w) := by
  unfold violation
  refine leaves_state ⟨rfl, rfl, rfl⟩ fun a ha => ?_
  cases a with
  | doomed => simp at ha
  | _ => rfl

/-! ## Choking and interest -/

theorem leaves_updateInterest (env : Env) (idx : Nat) (w : Work) :
    Leaves [.interest] w (updateInterest env idx w) := by
  have hmark : ∀ b (id : Nat) (msg : Message),
      msg = .interested ∨ msg = .notInterested →
      Leaves [.interest] w ((w.modifyPeer idx fun p => { p with weInterested := b }).push id msg) := by
    intro b id msg hmsg
    refine Leaves.trans (leaves_modifyPeer (by intro _; rfl) ?_ w idx) (leaves_push ?_ id)
    · intro a ha _
      cases a with
      | interest => simp at ha
      | _ => rfl
    · intro a ha
      cases a with
      | interest => simp at ha
      | _ => rcases hmsg with rfl | rfl <;> rfl
  unfold updateInterest
  split
  · exact .refl _ w
  · simp only
    split
    · split
      · exact hmark true _ _ (.inl rfl)
      · exact (hmark true _ _ (.inl rfl)).trans (leaves_fillRequests _ env idx _)
    · split
      · exact hmark false _ _ (.inr rfl)
      · exact .refl _ w

theorem leaves_chokeAt (choke : Bool) (idx id : Nat) (w : Work) :
    Leaves [.choking] w ((w.modifyPeer idx fun p => { p with weChoke := choke }).push id
      (if choke then .choke else .unchoke)) := by
  refine Leaves.trans (leaves_modifyPeer (by intro _; rfl) ?_ w idx) (leaves_push ?_ id)
  · intro a ha _
    cases a with
    | choking => simp at ha
    | _ => rfl
  · intro a ha
    cases a with
    | choking => simp at ha
    | _ => cases choke <;> rfl

theorem leaves_setChoke (choke : Bool) (w : Work) (id : Nat) :
    Leaves [.choking] w (setChoke choke w id) := by
  unfold setChoke
  split
  · exact .refl _ w
  · exact leaves_chokeAt choke _ id w

theorem leaves_runChoker (w : Work) : Leaves [.choking] w (runChoker w) := by
  unfold runChoker
  refine Leaves.trans ?_ ((Leaves.foldl (leaves_setChoke false) _ _).trans
    (Leaves.foldl (leaves_setChoke true) _ _))
  refine Leaves.trans (leaves_mapPeers (by intro _; rfl) (by intro a _ _; cases a <;> rfl) w)
    (leaves_state ⟨rfl, rfl, rfl⟩ fun a ha => ?_)
  cases a with
  | choking => simp at ha
  | _ => rfl

theorem leaves_considerRound (env : Env) (w : Work) : Leaves [.choking] w (considerRound env w) := by
  unfold considerRound
  split
  · refine Leaves.trans ?_ (leaves_runChoker _)
    refine leaves_state ⟨rfl, rfl, rfl⟩ fun a _ => ?_
    cases a <;> rfl
  · exact .refl _ w

theorem leaves_markInterested (b : Bool) (idx : Nat) (w : Work) :
    Leaves [.choking] w (w.modifyPeer idx fun p => { p with theyInterested := b }) := by
  refine leaves_modifyPeer (by intro _; rfl) (fun a ha _ => ?_) w idx
  cases a with
  | choking => simp at ha
  | _ => rfl

theorem leaves_onInterested (idx : Nat) (w : Work) : Leaves [.choking] w (onInterested idx w) := by
  unfold onInterested
  simp only
  split
  · exact (leaves_markInterested true idx w).trans (leaves_runChoker _)
  · exact leaves_markInterested true idx w

theorem leaves_onNotInterested (idx : Nat) (w : Work) :
    Leaves [.choking] w (onNotInterested idx w) := by
  unfold onNotInterested
  split
  · exact .refl _ w
  · simp only
    split
    · exact leaves_markInterested false idx w
    · exact (leaves_markInterested false idx w).trans (leaves_chokeAt true idx _ _)

/-! ## Piece sets -/

theorem leaves_replacePieceSet (idx : Nat) (field : Bitfield) (w : Work) :
    Leaves [.sets] w (replacePieceSet idx field w) := by
  unfold replacePieceSet
  split
  · exact .refl _ w
  · refine Leaves.trans (leaves_modifyPeer (by intro _; rfl) ?_ w idx) (leaves_modifyPicker ?_)
    · intro a ha _
      cases a with
      | sets => simp at ha
      | _ => rfl
    · intro a ha
      cases a with
      | sets => simp at ha
      | _ => rfl

theorem leaves_noteHave (idx piece : Nat) (w : Work) :
    Leaves [.sets] w ((w.modifyPeer idx fun p => { p with has := p.has.set piece }).modifyPicker
      fun pk => pk.addSingle piece) := by
  refine Leaves.trans (leaves_modifyPeer (by intro _; rfl) ?_ w idx) (leaves_modifyPicker ?_)
  · intro a ha _
    cases a with
    | sets => simp at ha
    | _ => rfl
  · intro a ha
    have hsame := Picker.sameAccounting_addSingle
      (w.modifyPeer idx fun p => { p with has := p.has.set piece }).st.picker piece
    cases a with
    | sets => simp at ha
    | held => exact Prod.ext hsame.toLayout hsame.haveField
    | blocks =>
        refine funext fun i => funext fun b => ?_
        simp only [Aspect.ofPicker, Picker.isReceived, hsame.progress]
    | _ => rfl

theorem leaves_onHave (sh : Shared) (env : Env) (idx piece : Nat) (w : Work) :
    Leaves [.sets, .interest] w (onHave sh env idx piece w) := by
  unfold onHave
  split
  · exact .refl _ w
  · split
    · exact ((leaves_noteHave idx piece w).mono (by simp)).trans
        ((leaves_updateInterest env idx _).mono (by simp))
    · exact .refl _ w

/-! ## Blocks -/

theorem leaves_creditSuppliers (index : Nat) (w : Work) :
    Leaves [.suppliers] w { w with st := w.st.creditSuppliers index } := by
  refine Leaves.foldl_state (fun w b => ?_) _ w
  unfold State.creditBlock
  split
  · exact .refl _ w
  · simp only
    split
    all_goals
      refine leaves_state ⟨rfl, rfl, rfl⟩ fun a ha => ?_
      cases a with
      | suppliers => simp at ha
      | _ => rfl

theorem leaves_ban (dest : DestHash) (w : Work) :
    Leaves [.known, .doomed] w { w with st := w.st.ban dest } := by
  refine leaves_state ⟨rfl, rfl, rfl⟩ fun a ha => ?_
  cases a with
  | known => simp at ha
  | doomed => simp at ha
  | _ => rfl

theorem leaves_blameSuppliers (index : Nat) (w : Work) :
    Leaves [.suppliers, .known, .doomed] w { w with st := w.st.blameSuppliers index } := by
  have htake : ∀ (l : List Nat) (s : State × List DestHash),
      Leaves [.suppliers] { w with st := s.1 }
        { w with st := (l.foldl (State.takeSupplier index) s).1 } := by
    intro l
    induction l with
    | nil => exact fun s => .refl _ _
    | cons b l ih =>
        intro s
        refine Leaves.trans ?_ (ih _)
        unfold State.takeSupplier
        split
        · exact .refl _ _
        · refine leaves_state ⟨rfl, rfl, rfl⟩ fun a ha => ?_
          cases a with
          | suppliers => simp at ha
          | _ => rfl
  have hsuspect : ∀ (l : List DestHash) (s : State × List DestHash),
      Leaves [] { w with st := s.1 } { w with st := (l.foldl State.suspect s).1 } := by
    intro l
    induction l with
    | nil => exact fun s => .refl _ _
    | cons d l ih =>
        intro s
        refine Leaves.trans ?_ (ih _)
        refine leaves_state ⟨rfl, rfl, rfl⟩ fun a _ => ?_
        cases a <;> rfl
  have hban : ∀ (l : List DestHash) (st : State),
      Leaves [.known, .doomed] { w with st := st } { w with st := l.foldl State.ban st } :=
    fun l st => Leaves.foldl_state (fun w d => leaves_ban d w) l { w with st := st }
  unfold State.blameSuppliers
  simp only
  refine Leaves.trans ((htake (List.range (w.st.picker.blocksInPiece index)) (w.st, [])).mono
    (by simp)) ?_
  generalize (List.range (w.st.picker.blocksInPiece index)).foldl (State.takeSupplier index)
    (w.st, []) = s
  split
  · exact .refl _ _
  · exact (hban _ s.1).mono (by simp)
  · exact ((hsuspect _ (s.1, [])).mono (by simp)).trans ((hban _ _).mono (by simp))

theorem leaves_recordBlock (idx : Nat) (k : BlockKey) (dest : DestHash) (length : Nat) (w : Work) :
    Leaves [.suppliers] w (recordBlock idx k dest length w) := by
  unfold recordBlock
  refine Leaves.trans (leaves_counters _ w w.uploaded (w.downloaded + length)) ?_
  refine Leaves.trans (leaves_modifyPeer (by intro _; rfl) (by intro a _ _; cases a <;> rfl) _ idx)
    (leaves_state ⟨rfl, rfl, rfl⟩ fun a ha => ?_)
  cases a with
  | suppliers => simp at ha
  | _ => rfl

/-- The aspects a block can change. -/
def blockAspects : List Aspect := [.held, .blocks, .suppliers, .known, .doomed, .files]

theorem leaves_onComplete (sh : Shared) (env : Env) (index : Nat) (w : Work) :
    Leaves blockAspects w (onComplete sh env index w) := by
  have hpicker : ∀ f : Picker → Picker, (f = fun pk => pk.setHave index) ∨
      (f = fun pk => pk.resetPiece index) → Leaves blockAspects w (w.modifyPicker f) := by
    intro f hf
    refine leaves_modifyPicker fun a ha => ?_
    cases a with
    | held => simp [blockAspects] at ha
    | blocks => simp [blockAspects] at ha
    | sets =>
        rcases hf with rfl | rfl
        · unfold Picker.setHave
          simp only
          split <;> rfl
        · unfold Picker.resetPiece
          simp only
          split <;> rfl
    | _ => rfl
  unfold onComplete
  split
  · refine (hpicker _ (.inl rfl)).trans ?_
    refine ((leaves_creditSuppliers index _).mono (by simp [blockAspects])).trans ?_
    refine leaves_collect fun a ha o ho => ?_
    obtain ⟨p, -, rfl⟩ := List.mem_map.1 ho
    cases a with
    | held => simp [blockAspects] at ha
    | _ => rfl
  · exact (hpicker _ (.inr rfl)).trans
      ((leaves_blameSuppliers index _).mono (by simp [blockAspects]))
  · refine leaves_state ⟨rfl, rfl, rfl⟩ fun a _ => ?_
    cases a <;> rfl

theorem leaves_onWritten (sh : Shared) (env : Env) (idx index begin : Nat) (block : Bytes)
    (dest : DestHash) (w : Work) :
    Leaves blockAspects w (onWritten sh env idx index begin block dest w).1 := by
  have hreceive : ∀ w : Work, Leaves blockAspects w
      (w.modifyPicker fun _ => (w.st.picker.blockReceived index (begin / BLOCK_LEN)).1) := by
    intro w
    have hsets : (w.st.picker.blockReceived index (begin / BLOCK_LEN)).1.availability =
        w.st.picker.availability := by
      unfold Picker.blockReceived
      simp only
      split
      · split <;> rfl
      · rfl
    refine leaves_modifyPicker fun a ha => ?_
    cases a with
    | held => simp [blockAspects] at ha
    | blocks => simp [blockAspects] at ha
    | sets => exact hsets
    | _ => rfl
  have hrecord : Leaves blockAspects w (recordBlock idx (index, begin / BLOCK_LEN) dest block.length w) :=
    (leaves_recordBlock _ _ _ _ w).mono (by simp [blockAspects])
  have hcount := hrecord.trans
    (leaves_cancelElsewhere blockAspects idx index begin (begin / BLOCK_LEN) _)
  unfold onWritten
  simp only
  split
  · exact (hcount.trans (hreceive _)).trans (leaves_onComplete sh env index _)
  · exact hcount.trans (hreceive _)

theorem leaves_onOwedBlock (sh : Shared) (env : Env) (idx index begin : Nat) (block : Bytes)
    (dest : DestHash) (w : Work) :
    Leaves blockAspects w (onOwedBlock sh env idx index begin block dest w).1 := by
  unfold onOwedBlock
  simp only
  split
  · exact (Tended.leaves (tended_blockFailed _ _ _) _).trans
      (leaves_files (by simp [blockAspects]) _ _ _)
  · have hwrite := leaves_files (c := blockAspects) (by simp [blockAspects]) w
      (w.disk.writes (sh.storage.writeBlock env.writeFault index begin block).1)
      (w.trace ++ [.write (sh.storage.offsetOf index begin) block.length w.st.picker.haveField
        (sh.storage.writeBlock env.writeFault index begin block).1])
    split
    · refine (hwrite.trans (Tended.leaves (tended_blockFailed _ index (begin / BLOCK_LEN)) _)).trans
        (leaves_state ⟨rfl, rfl, rfl⟩ fun a _ => ?_)
      cases a <;> rfl
    · exact hwrite.trans (leaves_onWritten sh env idx index begin block dest _)

theorem leaves_onBlock (sh : Shared) (env : Env) (idx index begin : Nat) (block : Bytes)
    (w : Work) : Leaves blockAspects w (onBlock sh env idx index begin block w) := by
  rcases onBlock_cases sh env idx index begin block w with heq | ⟨peer, -, -, -, -, hcase⟩
  · rw [heq]
    exact .refl _ w
  · have htake := fun requested =>
      leaves_takeOwed blockAspects idx (index, begin / BLOCK_LEN) requested w
    rcases hcase with ⟨-, heq⟩ | ⟨-, -, heq⟩ | ⟨-, -, r, hr, heq⟩
    · rw [heq]
      exact (htake false).trans (leaves_fillRequests _ env idx _)
    · rw [heq]
      exact (htake true).trans (leaves_fillRequests _ env idx _)
    · have howed := (htake true).trans
        (leaves_onOwedBlock sh env idx index begin block peer.dest _)
      rw [heq, hr]
      split
      · exact howed.trans (leaves_fillRequests _ env idx _)
      · exact howed

theorem leaves_serveRequest (sh : Shared) (env : Env) (idx : Nat) (req : BlockRequest) (w : Work) :
    Leaves [.served] w (serveRequest sh env idx req w) := by
  unfold serveRequest
  split
  · exact .refl _ w
  · split
    · exact .refl _ w
    · split
      · exact .refl _ w
      · rename_i data _
        refine Leaves.trans (leaves_counters _ w (w.uploaded + data.length) w.downloaded) ?_
        refine Leaves.trans (leaves_modifyPeer (by intro _; rfl) ?_ _ idx) (leaves_push ?_ _)
        · intro a _ _
          cases a <;> rfl
        · intro a ha
          cases a with
          | served => simp at ha
          | _ => rfl

/-! ## Extended messages -/

theorem leaves_sendPex (env : Env) (idx : Nat) (w : Work) :
    Leaves [.talk] w (sendPex env idx w) := by
  unfold sendPex
  split
  · exact .refl _ w
  · split
    · exact .refl _ w
    · simp only
      split
      · exact .refl _ w
      · refine leaves_push (fun a ha => ?_) _
        cases a with
        | talk => simp at ha
        | _ => rfl

theorem leaves_serveMetadata (sh : Shared) (idx piece : Nat) (w : Work) :
    Leaves [.talk] w (serveMetadata sh idx piece w) := by
  unfold serveMetadata
  split
  · exact .refl _ w
  · split
    · exact .refl _ w
    · refine Leaves.trans (leaves_modifyPeer (by intro _; rfl) ?_ w idx) (leaves_push ?_ _)
      · intro a _ _
        cases a <;> rfl
      · intro a ha
        cases a with
        | talk => simp at ha
        | _ => rfl

theorem leaves_rememberPeerFrom (rank : DestHash → Nat) (dest : DestHash) (source : Source)
    (w : Work) : Leaves [.known] w { w with st := (w.st.rememberPeerFrom rank dest source).1 } := by
  obtain ⟨known, heq⟩ := State.rememberPeerFrom_eq w.st rank dest source
  rw [heq]
  refine leaves_state ⟨rfl, rfl, rfl⟩ fun a ha => ?_
  cases a with
  | known => simp at ha
  | _ => rfl

theorem leaves_learn (env : Env) (w : Work) (dest : DestHash) :
    Leaves [.known] w (learn env w dest) := by
  refine (leaves_rememberPeerFrom env.rank dest .pex w).trans ?_
  unfold learn
  simp only
  split
  · refine leaves_state ⟨rfl, rfl, rfl⟩ fun a _ => ?_
    cases a <;> rfl
  · exact .refl _ _

theorem leaves_onExtended (sh : Shared) (env : Env) (idx : Nat) (extId : UInt8) (payload : Bytes)
    (w : Work) : Leaves [.known, .talk] w (onExtended sh env idx extId payload w) := by
  have hids : ∀ hs : Extension.Handshake, Leaves [.known, .talk] w (w.modifyPeer idx fun p =>
      { p with pexId := hs.idFor Extension.I2P_PEX
               metadataId := hs.idFor Extension.UT_METADATA }) :=
    fun hs => leaves_modifyPeer (by intro _; rfl) (by intro a _ _; cases a <;> rfl) w idx
  unfold onExtended
  split
  · split
    · exact .refl _ w
    · rename_i hs _
      simp only
      split
      · exact hids hs
      · exact (hids hs).trans ((leaves_sendPex env idx _).mono (by simp))
  · split
    · split
      · exact .refl _ w
      · split
        · exact .refl _ w
        · exact (Leaves.foldl (leaves_learn env) _ w).mono (by simp)
    · split
      · split
        · exact (leaves_serveMetadata sh idx _ w).mono (by simp)
        · exact .refl _ w
      · exact .refl _ w

/-! ## Messages -/

/-- The aspects a message can change. -/
def footprint : Message → List Aspect
  | .keepAlive | .cancel _ | .choke | .unchoke => []
  | .rejectRequest _ | .suggestPiece _ | .allowedFast _ => [.doomed]
  | .extended .. => [.known, .talk]
  | .interested | .notInterested => [.choking]
  | .have_ _ => [.sets, .interest]
  | .bitfield _ | .haveAll | .haveNone => [.sets, .interest, .doomed]
  | .request _ => [.served]
  | .piece .. => blockAspects

theorem leaves_dispatch (sh : Shared) (env : Env) (idx id : Nat) (first fast : Bool)
    (msg : Message) (w : Work) :
    Leaves (footprint msg) w (dispatch sh env idx id first fast msg w) := by
  have hviolation : ∀ c : List Aspect, .doomed ∈ c → Leaves c w (violation id w) :=
    fun c hc => (leaves_violation id w).mono (by simpa using hc)
  have hreplace : ∀ field, Leaves [.sets, .interest, .doomed] w
      (updateInterest env idx (replacePieceSet idx field w)) := fun field =>
    ((leaves_replacePieceSet idx field w).mono (by simp)).trans
      ((leaves_updateInterest env idx _).mono (by simp))
  unfold dispatch
  cases msg with
  | keepAlive => exact .refl _ w
  | cancel _ => exact .refl _ w
  | rejectRequest _ =>
      simp only
      split
      · exact .refl _ w
      · exact hviolation _ (by simp [footprint])
  | suggestPiece _ =>
      simp only
      split
      · exact .refl _ w
      · exact hviolation _ (by simp [footprint])
  | allowedFast _ =>
      simp only
      split
      · exact .refl _ w
      · exact hviolation _ (by simp [footprint])
  | extended extId payload => exact leaves_onExtended sh env idx extId payload w
  | choke => exact leaves_onChoke _ idx w
  | unchoke =>
      refine Leaves.trans ?_ (leaves_fillRequests _ env idx _)
      exact leaves_modifyPeer (by intro _; rfl) (by intro a _ _; cases a <;> rfl) w idx
  | interested => exact leaves_onInterested idx w
  | notInterested => exact leaves_onNotInterested idx w
  | have_ piece => exact leaves_onHave sh env idx piece w
  | bitfield bytes =>
      simp only
      split
      · split
        · exact hreplace _
        · exact hviolation _ (by simp [footprint])
      · exact hviolation _ (by simp [footprint])
  | haveAll =>
      simp only
      split
      · exact hreplace _
      · exact hviolation _ (by simp [footprint])
  | haveNone =>
      simp only
      split
      · exact hreplace _
      · exact hviolation _ (by simp [footprint])
  | request req => exact leaves_serveRequest sh env idx req w
  | piece index begin block => exact leaves_onBlock sh env idx index begin block w

theorem leaves_opened (idx : Nat) (msg : Message) (w : Work) :
    Leaves [.opening] w (w.modifyPeer idx fun p => { p with opened := p.opened || opens msg }) := by
  refine leaves_modifyPeer (by intro _; rfl) (fun a ha _ => ?_) w idx
  cases a with
  | opening => simp at ha
  | _ => rfl

/-- A message is handled by its handler, if its peer is seated. -/
theorem handle_cases (sh : Shared) (env : Env) (id : Nat) (msg : Message) (w : Work) :
    ((∀ p ∈ w.st.peers, p.id ≠ id) ∧ handle sh env id msg w = w) ∨
    ∃ idx peer, w.st.peers[idx]? = some peer ∧ peer.id = id ∧
      handle sh env id msg w = dispatch sh env idx id (!peer.opened) peer.fast msg
        (w.modifyPeer idx fun p => { p with opened := p.opened || opens msg }) := by
  unfold handle
  cases hfind : w.st.peers.findIdx? (·.id = id) with
  | none =>
      refine .inl ⟨fun p hp => ?_, rfl⟩
      simpa using List.findIdx?_eq_none_iff.1 hfind p hp
  | some idx =>
      obtain ⟨hlt, hid, -⟩ := List.findIdx?_eq_some_iff_getElem.1 hfind
      have hidx : w.st.peers[idx]? = some w.st.peers[idx] := List.getElem?_eq_getElem hlt
      refine .inr ⟨idx, _, hidx, of_decide_eq_true hid, ?_⟩
      simp only [hidx]

theorem leaves_handle (sh : Shared) (env : Env) (id : Nat) (msg : Message) (w : Work) :
    Leaves (.opening :: footprint msg) w (handle sh env id msg w) := by
  rcases handle_cases sh env id msg w with ⟨-, heq⟩ | ⟨idx, peer, -, -, heq⟩
  · rw [heq]
    exact .refl _ w
  · rw [heq]
    exact ((leaves_opened idx msg w).mono (by simp)).trans
      ((leaves_dispatch sh env idx id _ _ msg _).mono (by simp))

/-! ## Critical sections -/

theorem leaves_seen (c : List Aspect) (now id : Nat) (e : Engine) : Leaves c e.enter { e.enter with
    st := e.st.modifyId id fun p => { p with lastSeen := now } } :=
  leaves_modifyId (by intro _; rfl) (by intro a _ _; cases a <;> rfl) e.enter id

/-- What is done after a message is handled. -/
theorem leaves_after (env : Env) (w : Work) :
    Leaves [.choking] w (recordSent env.now (considerRound env w)) :=
  (leaves_considerRound env w).trans (leaves_recordSent _ env.now _)

/-- A message changes what its handler changes, and who is choked. -/
theorem leaves_onMessage (sh : Shared) (env : Env) (id : Nat) (msg : Message) (e : Engine) :
    ∃ w, Leaves (.opening :: .choking :: footprint msg) e.enter w ∧
      onMessage sh env id msg e = w.finish [] := by
  refine ⟨_, ?_, rfl⟩
  refine (leaves_seen _ env.now id e).trans ?_
  refine ((leaves_handle sh env id msg _).mono ?_).trans ((leaves_after env _).mono (by simp))
  simp only [List.cons_subset, List.mem_cons, true_or, true_and]
  exact fun a ha => List.mem_cons_of_mem _ (List.mem_cons_of_mem _ ha)

/-- A tick changes who is choked. -/
theorem leaves_maintain (env : Env) (e : Engine) :
    ∃ w drops, Leaves [.choking] e.enter w ∧ maintain env e = w.finish drops := by
  refine ⟨_, _, ?_, rfl⟩
  refine Leaves.trans ?_ (leaves_after env _)
  refine Leaves.trans ?_ (leaves_maintainRequests _ env _)
  refine Leaves.trans ?_ (leaves_tickPeers _ env _ _ _ _)
  exact leaves_mapPeers (by intro _; rfl) (by intro a _ _; cases a <;> rfl) e.enter

end Clove.Torrent
