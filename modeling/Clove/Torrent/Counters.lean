import Clove.Torrent.Footprint
import Clove.Torrent.Threads

/-!
# Byte counters

An engine counts the payload bytes it has served and received.  Two handlers add to the counts,
and nothing ever takes from them (`grown_step`).
-/

namespace Clove.Torrent

open Wire (Message BlockRequest)

/-- Neither count went back. -/
structure Grown (w w' : Work) : Prop where
  uploaded : w.uploaded ≤ w'.uploaded
  downloaded : w.downloaded ≤ w'.downloaded

namespace Grown

variable {w w' w'' : Work}

theorem refl (w : Work) : Grown w w := ⟨le_rfl, le_rfl⟩

theorem trans (h : Grown w w') (h' : Grown w' w'') : Grown w w'' :=
  ⟨h.uploaded.trans h'.uploaded, h.downloaded.trans h'.downloaded⟩

theorem of_eq (hup : w'.uploaded = w.uploaded) (hdown : w'.downloaded = w.downloaded) :
    Grown w w' := ⟨hup.ge, hdown.ge⟩

/-- What grows from where the counts are the same. -/
theorem since (h : Grown w' w'') (hup : w'.uploaded = w.uploaded)
    (hdown : w'.downloaded = w.downloaded) : Grown w w'' := (of_eq hup hdown).trans h

theorem foldl {α : Type} {f : Work → α → Work} (hf : ∀ w a, Grown w (f w a)) (l : List α)
    (w : Work) : Grown w (l.foldl f w) := by
  induction l generalizing w with
  | nil => exact .refl w
  | cons a l ih => exact (hf w a).trans (ih _)

/-- A fold that carries something beside the work. -/
theorem foldl_fst {α β : Type} {f : Work × β → α → Work × β} (hf : ∀ s a, Grown s.1 (f s a).1)
    (l : List α) (s : Work × β) : Grown s.1 (l.foldl f s).1 := by
  induction l generalizing s with
  | nil => exact .refl s.1
  | cons a l ih => exact (hf s a).trans (ih _)

end Grown

/-! ## Requests -/

theorem grown_fillRequests (env : Env) (idx : Nat) (w : Work) :
    Grown w (fillRequests env idx w) := by
  unfold fillRequests
  split
  · exact .refl w
  · split
    · exact .refl w
    · simp only
      split
      · exact .refl w
      · exact .of_eq rfl rfl

theorem grown_cancelElsewhere (idx index begin blockNo : Nat) (w : Work) :
    Grown w (cancelElsewhere idx index begin blockNo w) := by
  refine Grown.foldl (fun w other => ?_) _ w
  unfold cancelAt
  split
  · exact .refl w
  · split
    · exact .refl w
    · split
      · exact .of_eq rfl rfl
      · exact .refl w

theorem grown_maintainRequests (env : Env) (s : Work × List (Nat × Bool)) :
    Grown s.1 (maintainRequests env s).1 := by
  refine Grown.foldl_fst (fun s idx => ?_) _ s
  unfold maintainPeer
  split
  · exact .refl s.1
  · simp only
    split
    · exact grown_fillRequests env idx s.1
    · split
      · exact .of_eq rfl rfl
      · exact Grown.since (grown_fillRequests env idx _) rfl rfl

/-! ## Interest and choking -/

theorem grown_updateInterest (env : Env) (idx : Nat) (w : Work) :
    Grown w (updateInterest env idx w) := by
  unfold updateInterest
  split
  · exact .refl w
  · simp only
    split
    · split
      · exact .of_eq rfl rfl
      · exact Grown.since (grown_fillRequests env idx _) rfl rfl
    · split
      · exact .of_eq rfl rfl
      · exact .refl w

theorem grown_runChoker (w : Work) : Grown w (runChoker w) := by
  have hset : ∀ (choke : Bool) (w : Work) (id : Nat), Grown w (setChoke choke w id) := by
    intro choke w id
    unfold setChoke
    split
    · exact .refl w
    · exact .of_eq rfl rfl
  refine Grown.trans ?_ (Grown.foldl (hset true) _ _)
  exact Grown.since (Grown.foldl (hset false) _ _) rfl rfl

theorem grown_considerRound (env : Env) (w : Work) : Grown w (considerRound env w) := by
  unfold considerRound
  split
  · exact Grown.since (grown_runChoker _) rfl rfl
  · exact .refl w

theorem grown_onInterested (idx : Nat) (w : Work) : Grown w (onInterested idx w) := by
  unfold onInterested
  simp only
  split
  · exact Grown.since (grown_runChoker _) rfl rfl
  · exact .of_eq rfl rfl

theorem grown_onHave (sh : Shared) (env : Env) (idx piece : Nat) (w : Work) :
    Grown w (onHave sh env idx piece w) := by
  unfold onHave
  split
  · exact .refl w
  · split
    · exact Grown.since (grown_updateInterest env idx _) rfl rfl
    · exact .refl w

/-- A piece set is replaced, and our interest in the peer with it. -/
theorem grown_replacePieceSet (env : Env) (idx : Nat) (field : Bitfield) (w : Work) :
    Grown w (updateInterest env idx (replacePieceSet idx field w)) := by
  refine Grown.trans ?_ (grown_updateInterest env idx _)
  unfold replacePieceSet
  split
  · exact .refl w
  · exact .of_eq rfl rfl

/-! ## Blocks -/

/-- A block that is served is counted. -/
theorem grown_serveRequest (sh : Shared) (env : Env) (idx : Nat) (req : BlockRequest) (w : Work) :
    Grown w (serveRequest sh env idx req w) := by
  unfold serveRequest
  split
  · exact .refl w
  · split
    · exact .refl w
    · split
      · exact .refl w
      · exact ⟨Nat.le_add_right _ _, le_rfl⟩

theorem grown_onComplete (sh : Shared) (env : Env) (index : Nat) (w : Work) :
    Grown w (onComplete sh env index w) := by
  unfold onComplete
  split <;> exact .of_eq rfl rfl

/-- A block that is received is counted. -/
theorem grown_onWritten (sh : Shared) (env : Env) (idx index begin : Nat) (block : Bytes)
    (dest : DestHash) (w : Work) :
    Grown w (onWritten sh env idx index begin block dest w).1 := by
  have hrecord : ∀ k : BlockKey, Grown w (recordBlock idx k dest block.length w) :=
    fun k => ⟨le_rfl, Nat.le_add_right _ _⟩
  unfold onWritten
  simp only
  refine (hrecord (index, begin / Wire.BLOCK_LEN)).trans ?_
  refine (grown_cancelElsewhere idx index begin (begin / Wire.BLOCK_LEN) _).trans ?_
  split
  · exact Grown.since (grown_onComplete sh env index _) rfl rfl
  · exact .of_eq rfl rfl

theorem grown_onBlock (sh : Shared) (env : Env) (idx index begin : Nat) (block : Bytes)
    (w : Work) : Grown w (onBlock sh env idx index begin block w) := by
  have howed : ∀ (dest : DestHash) (w : Work),
      Grown w (onOwedBlock sh env idx index begin block dest w).1 := by
    intro dest w
    unfold onOwedBlock
    simp only
    split
    · exact .of_eq rfl rfl
    · split
      · exact .of_eq rfl rfl
      · exact Grown.since (grown_onWritten sh env idx index begin block dest _) rfl rfl
  rcases onBlock_cases sh env idx index begin block w with
    heq | ⟨peer, -, -, -, -, ⟨-, heq⟩ | ⟨-, -, heq⟩ | ⟨-, -, r, rfl, heq⟩⟩
  · rw [heq]
    exact .refl w
  · rw [heq]
    exact Grown.since (grown_fillRequests env idx _) rfl rfl
  · rw [heq]
    exact Grown.since (grown_fillRequests env idx _) rfl rfl
  · rw [heq]
    have htaken : Grown w (takeOwed idx (index, begin / Wire.BLOCK_LEN) true w) := .of_eq rfl rfl
    refine (htaken.trans (howed peer.dest _)).trans ?_
    split
    · exact grown_fillRequests env idx _
    · exact .refl _

/-! ## Messages -/

theorem grown_onExtended (sh : Shared) (env : Env) (idx : Nat) (extId : UInt8) (payload : Bytes)
    (w : Work) : Grown w (onExtended sh env idx extId payload w) := by
  have hpex : ∀ w : Work, Grown w (sendPex env idx w) := by
    intro w
    unfold sendPex
    split
    · exact .refl w
    · split
      · exact .refl w
      · simp only
        split
        · exact .refl w
        · exact .of_eq rfl rfl
  unfold onExtended
  split
  · split
    · exact .refl w
    · simp only
      split
      · exact .of_eq rfl rfl
      · exact Grown.since (hpex _) rfl rfl
  · split
    · split
      · exact .refl w
      · split
        · exact .refl w
        · exact Grown.foldl (f := learn env) (fun w dest => .of_eq rfl rfl) _ w
    · split
      · split
        · unfold serveMetadata
          split
          · exact .refl w
          · split
            · exact .refl w
            · exact .of_eq rfl rfl
        · exact .refl w
      · exact .refl w

theorem grown_dispatch (sh : Shared) (env : Env) (idx id : Nat) (first fast : Bool)
    (msg : Message) (w : Work) : Grown w (dispatch sh env idx id first fast msg w) := by
  have hviolation : ∀ b : Bool, Grown w (if b then w else violation id w) := by
    intro b
    cases b <;> exact .of_eq rfl rfl
  unfold dispatch
  cases msg with
  | keepAlive => exact .refl w
  | cancel _ => exact .refl w
  | rejectRequest _ => exact hviolation fast
  | suggestPiece _ => exact hviolation fast
  | allowedFast _ => exact hviolation fast
  | extended extId payload => exact grown_onExtended sh env idx extId payload w
  | choke =>
      simp only
      unfold onChoke
      split
      · exact .refl w
      · exact .of_eq rfl rfl
  | unchoke => exact Grown.since (grown_fillRequests env idx _) rfl rfl
  | interested => exact grown_onInterested idx w
  | notInterested =>
      simp only
      unfold onNotInterested
      split
      · exact .refl w
      · simp only
        split <;> exact .of_eq rfl rfl
  | have_ piece => exact grown_onHave sh env idx piece w
  | bitfield bytes =>
      simp only
      split
      · split
        · exact grown_replacePieceSet env idx _ w
        · exact .of_eq rfl rfl
      · exact .of_eq rfl rfl
  | haveAll =>
      simp only
      split
      · exact grown_replacePieceSet env idx _ w
      · exact .of_eq rfl rfl
  | haveNone =>
      simp only
      split
      · exact grown_replacePieceSet env idx _ w
      · exact .of_eq rfl rfl
  | request req => exact grown_serveRequest sh env idx req w
  | piece index begin block => exact grown_onBlock sh env idx index begin block w

theorem grown_handle (sh : Shared) (env : Env) (id : Nat) (msg : Message) (w : Work) :
    Grown w (handle sh env id msg w) := by
  rcases handle_cases sh env id msg w with ⟨-, heq⟩ | ⟨idx, peer, -, -, heq⟩
  · rw [heq]
    exact .refl w
  · rw [heq]
    exact Grown.since (grown_dispatch sh env idx id _ _ msg _) rfl rfl

/-! ## Steps -/

theorem grown_engine_step (sh : Shared) (ev : Event) (e : Engine) :
    Grown e.enter (Engine.step sh ev e).enter := by
  cases ev with
  | message env id msg =>
      refine Grown.trans ?_ ((grown_considerRound env _).trans (.of_eq rfl rfl))
      exact Grown.since (grown_handle sh env id msg _) rfl rfl
  | maintain env =>
      have htick : ∀ (keepalive timeout : Nat) (l : List Peer) (s : Work × List (Nat × Bool)),
          Grown s.1 (l.foldl (tickPeer env keepalive timeout) s).1 := by
        intro keepalive timeout l s
        refine Grown.foldl_fst (fun s p => ?_) l s
        unfold tickPeer
        split
        · exact .refl s.1
        · split
          · exact .of_eq rfl rfl
          · exact .refl s.1
      refine Grown.trans ?_ ((grown_considerRound env _).trans (.of_eq rfl rfl))
      exact Grown.since ((htick _ _ _ _).trans (grown_maintainRequests env _)) rfl rfl
  | _ => exact .of_eq rfl rfl

/-- No step of an engine takes from its counts. -/
theorem grown_step (sh : Shared) (a : Action) (s : System) :
    Grown s.engine.enter (System.step sh a s).engine.enter :=
  engine_induction (P := fun e => Grown s.engine.enter e.enter) (.refl _)
    (fun ev => grown_engine_step sh ev s.engine) a

end Clove.Torrent
