import Clove.Torrent.Delivery

/-!
# Verified data

A piece is marked held when its bytes on disk have the published digest, and nothing writes to
a held piece again.  So held pieces stay verified for the whole run, and since blocks are served
from held pieces only, what is served is published content.
-/

namespace Clove.Torrent

open Wire (BLOCK_LEN BlockRequest Message)

/-! ## Held bytes -/

/-- A range lies within one piece. -/
def Within (sh : Shared) (start len index : Nat) : Prop :=
  ∀ g, start ≤ g → g < start + len →
    sh.storage.offsetOf index 0 ≤ g ∧
      g < sh.storage.offsetOf index 0 + sh.storage.layout.pieceLen index

/-- A write, if it is one, is to a piece not held at that moment. -/
def WritesUnheld (sh : Shared) : Access → Prop
  | .write start len held _ => ∃ index, held.has index = false ∧ Within sh start len index
  | .duplicate _ => True

/-- A write, if it is one, misses every piece held. -/
def Spares (sh : Shared) (pk : Picker) (a : Access) : Prop :=
  ∀ part ∈ a.parts, ∀ i, pk.has i = true → sh.storage.Misses part i

/-- A block, if it is one, lies inside a held piece and has the bytes that are on disk. -/
def Serves (sh : Shared) (pk : Picker) (disk : Disk) : Message → Prop
  | .piece index begin block =>
      pk.has index = true ∧ begin + block.length ≤ sh.storage.layout.pieceLen index ∧
        ∀ j < block.length, sh.storage.byte disk (sh.storage.offsetOf index begin + j) = block[j]?
  | _ => True

/-- What is held stays, what becomes held matches, and what is written and sent in between is
in order. -/
structure Keeps (sh : Shared) (w w' : Work) : Prop where
  held : ∀ i, w.st.picker.has i = true → w'.st.picker.has i = true
  fresh : ∀ i, w'.st.picker.has i = true →
    w.st.picker.has i = true ∨ sh.storage.Matches sh.sha1 w'.disk i
  wrote : ∃ extra, w'.trace = w.trace ++ extra ∧
    w'.disk = w.disk.writes (extra.flatMap Access.parts) ∧
      ∀ a ∈ extra, WritesUnheld sh a ∧ Spares sh w.st.picker a
  out : ∀ o ∈ w'.out, o ∈ w.out ∨ Serves sh w'.st.picker w'.disk o.2

variable {sh : Shared} {w w' w₁ w₂ w₃ : Work}

/-- A served block stays a block of a held piece. -/
theorem Serves.mono {pk pk' : Picker} {d d' : Disk} {msg : Message} (h : Serves sh pk d msg)
    (hheld : ∀ i, pk.has i = true → pk'.has i = true)
    (hbytes : ∀ i, pk.has i = true → ∀ j < sh.storage.layout.pieceLen i, ∀ v,
      sh.storage.byte d (sh.storage.offsetOf i 0 + j) = some v →
        sh.storage.byte d' (sh.storage.offsetOf i 0 + j) = some v) : Serves sh pk' d' msg := by
  cases msg with
  | piece index begin block =>
      obtain ⟨hhas, hin, hdata⟩ := h
      refine ⟨hheld _ hhas, hin, fun j hj => ?_⟩
      have hsome : block[j]? = some block[j] := List.getElem?_eq_getElem hj
      have hoff : sh.storage.offsetOf index begin + j =
          sh.storage.offsetOf index 0 + (begin + j) := by
        unfold Storage.offsetOf
        omega
      have hd := hdata j hj
      rw [hsome, hoff] at hd ⊢
      exact hbytes index hhas _ (by omega) _ hd
  | _ => trivial

/-- What is held keeps its bytes. -/
theorem Keeps.bytes (h : Keeps sh w w') (i : Nat) (hi : w.st.picker.has i = true) :
    ∀ j < sh.storage.layout.pieceLen i, ∀ v,
      sh.storage.byte w.disk (sh.storage.offsetOf i 0 + j) = some v →
        sh.storage.byte w'.disk (sh.storage.offsetOf i 0 + j) = some v := by
  intro j hj v hv
  obtain ⟨extra, -, hdisk, hextra⟩ := h.wrote
  rw [hdisk]
  refine Storage.byte_writes_of_misses (fun part hpart => ?_) hj hv
  obtain ⟨a, ha, hpart⟩ := List.mem_flatMap.1 hpart
  exact (hextra a ha).2 part hpart i hi

/-- Nothing written. -/
theorem wrote_nothing (htrace : w'.trace = w.trace) (hdisk : w'.disk = w.disk) :
    ∃ extra, w'.trace = w.trace ++ extra ∧ w'.disk = w.disk.writes (extra.flatMap Access.parts) ∧
      ∀ a ∈ extra, WritesUnheld sh a ∧ Spares sh w.st.picker a :=
  ⟨[], by rw [htrace, List.append_nil], by rw [hdisk]; rfl, by simp⟩

theorem Keeps.refl (sh : Shared) (w : Work) : Keeps sh w w :=
  ⟨fun _ h => h, fun _ h => .inl h, wrote_nothing rfl rfl, fun _ h => .inl h⟩

theorem Keeps.trans (h₁ : Keeps sh w₁ w₂) (h₂ : Keeps sh w₂ w₃) : Keeps sh w₁ w₃ where
  held := fun i hi => h₂.held i (h₁.held i hi)
  fresh := by
    intro i hi
    rcases h₂.fresh i hi with hi₂ | hmatch
    · rcases h₁.fresh i hi₂ with hi₁ | hmatch
      · exact .inl hi₁
      · exact .inr (hmatch.of_bytes (h₂.bytes i hi₂))
    · exact .inr hmatch
  wrote := by
    obtain ⟨extra₁, htrace₁, hdisk₁, hall₁⟩ := h₁.wrote
    obtain ⟨extra₂, htrace₂, hdisk₂, hall₂⟩ := h₂.wrote
    refine ⟨extra₁ ++ extra₂, ?_, ?_, fun a ha => ?_⟩
    · rw [htrace₂, htrace₁, List.append_assoc]
    · rw [hdisk₂, hdisk₁, List.flatMap_append, Disk.writes_append]
    · rcases List.mem_append.1 ha with ha | ha
      · exact hall₁ a ha
      · obtain ⟨hunheld, hspares⟩ := hall₂ a ha
        exact ⟨hunheld, fun part hpart i hi => hspares part hpart i (h₁.held i hi)⟩
  out := by
    intro o ho
    rcases h₂.out o ho with ho | ho
    · exact (h₁.out o ho).imp_right fun hs => hs.mono h₂.held h₂.bytes
    · exact .inr ho

theorem Quiet.keeps (h : Quiet w w') : Keeps sh w w' := by
  obtain ⟨extra, h⟩ := h
  refine ⟨fun i hi => (h.pieces.has i).trans hi,
    fun i hi => .inl ((h.pieces.has i).symm.trans hi), wrote_nothing h.trace h.disk,
    fun o ho => ?_⟩
  rw [h.out, List.mem_append] at ho
  refine ho.imp_right fun ho => ?_
  have hmild := h.mild o ho
  rcases o with ⟨id, msg⟩
  cases msg with
  | piece _ _ _ => cases hmild
  | _ => trivial

/-! ## Blocks -/

theorem keeps_serveRequest (env : Env) (idx : Nat) (req : BlockRequest) (hfit : Fits sh w) :
    Keeps sh w (serveRequest sh env idx req w) := by
  unfold serveRequest
  split
  · exact .refl sh w
  · split
    · exact .refl sh w
    · rename_i hwanted
      split
      · exact .refl sh w
      · rename_i data hread
        obtain ⟨hlen, -, hbytes⟩ := Storage.readBlock_ok hread
        refine ⟨fun _ h => h, fun _ h => .inl h, wrote_nothing rfl rfl, fun o ho => ?_⟩
        refine (List.mem_append.1 ho).imp_right fun ho => ?_
        rw [List.mem_singleton.1 ho]
        simp only [Bool.or_eq_true, not_or, decide_eq_true_eq, Bool.not_eq_true',
          Bool.not_eq_false, not_lt] at hwanted
        refine ⟨hwanted.2, ?_, fun j hj => hbytes j (hlen ▸ hj)⟩
        rw [hlen, ← hfit.layout]
        exact hwanted.1.2

/-- A write of at most a block of a piece that is not held. -/
theorem keeps_write {index start len : Nat} {data : Bytes} {held : Bitfield}
    (hnot : w.st.picker.has index = false) (hheld : held = w.st.picker.haveField)
    (hwithin : Within sh start len index) (hdata : data.length ≤ len) :
    Keeps sh w { w with
      disk := w.disk.writes (sh.storage.fileWrites start data)
      trace := w.trace ++ [.write start len held (sh.storage.fileWrites start data)] } := by
  refine ⟨fun _ h => h, fun _ h => .inl h, ⟨_, rfl, ?_, fun a ha => ?_⟩, fun _ h => .inl h⟩
  · rw [List.flatMap_singleton]
    rfl
  · rw [List.mem_singleton.1 ha]
    refine ⟨⟨index, hheld ▸ hnot, hwithin⟩, fun part hpart i hi => ?_⟩
    have hne : i ≠ index := by
      rintro rfl
      rw [hnot] at hi
      cases hi
    refine Storage.misses_fileWrites (Storage.apart_of_within hne fun g hlo hhi => ?_) part hpart
    exact hwithin g hlo (by omega)

/-- A block lies within its piece. -/
theorem within_block {index begin : Nat} (sh : Shared) (hbegin : begin % BLOCK_LEN = 0) :
    Within sh (sh.storage.offsetOf index begin)
      (sh.storage.layout.blockLen index (begin / BLOCK_LEN)) index := by
  have hmul : begin / BLOCK_LEN * BLOCK_LEN = begin :=
    Nat.div_mul_cancel (Nat.dvd_of_mod_eq_zero hbegin)
  intro g hlo hhi
  unfold Storage.offsetOf at hlo hhi ⊢
  unfold Layout.blockLen at hhi
  rw [hmul] at hhi
  split at hhi <;> omega

theorem keeps_onComplete (env : Env) {index : Nat} (hfit : Fits sh w) (hi : index < sh.numPieces)
    (hnot : w.st.picker.has index = false) : Keeps sh w (onComplete sh env index w) := by
  unfold onComplete
  split
  · rename_i hverify
    have hmatch := Storage.matches_of_verifyPiece hverify
    have hdoes := does_complete hfit hi (State.untouched_creditSuppliers
      (w.modifyPicker fun pk => pk.setHave index).st index)
    refine ⟨fun i hi => (hdoes.held i).2 (.inl hi), fun i hi => ?_, wrote_nothing rfl rfl,
      fun o ho => ?_⟩
    · refine ((hdoes.held i).1 hi).imp_right fun hi => ?_
      rw [List.mem_singleton.1 hi]
      exact hmatch
    · refine (List.mem_append.1 ho).imp_right fun ho => ?_
      obtain ⟨p, -, rfl⟩ := List.mem_map.1 ho
      trivial
  · exact (quiet_failed hfit hi hnot).keeps
  · refine Quiet.keeps (quiet_state ?_)
    exact ⟨rfl, rfl, rfl⟩

theorem keeps_onWritten (env : Env) (idx : Nat) {index : Nat} (begin : Nat) (block : Bytes)
    (dest : DestHash) (hfit : Fits sh w) (hi : index < sh.numPieces)
    (hnot : w.st.picker.has index = false) :
    Keeps sh w (onWritten sh env idx index begin block dest w).1 := by
  have hreceive := quiet_received idx index begin block dest w
  unfold onWritten
  simp only
  split
  · refine hreceive.keeps.trans (keeps_onComplete env (hfit.shows hreceive.shows) hi ?_)
    obtain ⟨_, hsaid⟩ := hreceive
    rw [hsaid.pieces.has]
    exact hnot
  · exact hreceive.keeps

theorem keeps_onOwedBlock (env : Env) (idx : Nat) {index begin : Nat} {block : Bytes}
    (dest : DestHash) (hfit : Fits sh w) (hi : index < sh.numPieces)
    (hnot : w.st.picker.has index = false) (hbegin : begin % BLOCK_LEN = 0)
    (hlen : block.length = w.st.picker.blockLen index (begin / BLOCK_LEN)) :
    Keeps sh w (onOwedBlock sh env idx index begin block dest w).1 := by
  have hwithin : Within sh (sh.storage.offsetOf index begin) block.length index := by
    rw [hlen, hfit.layout]
    exact within_block sh hbegin
  have hwrite : Keeps sh w { w with
      disk := w.disk.writes (sh.storage.writeBlock env.writeFault index begin block).1
      trace := w.trace ++ [.write (sh.storage.offsetOf index begin) block.length
        w.st.picker.haveField (sh.storage.writeBlock env.writeFault index begin block).1] } := by
    obtain ⟨data, hdata, hprefix⟩ :=
      Storage.writeBlock_writes (s := sh.storage) env.writeFault index begin block
    rw [hdata]
    exact keeps_write hnot rfl hwithin hprefix
  unfold onOwedBlock
  simp only
  split
  · refine Keeps.trans (Quiet.keeps (quiet_modifyPicker
      (f := fun pk => pk.blockFailed index (begin / BLOCK_LEN)) (samePieces_blockFailed _ _ _))) ?_
    refine ⟨fun _ h => h, fun _ h => .inl h, ⟨_, rfl, rfl, fun a ha => ?_⟩, fun _ h => .inl h⟩
    rw [List.mem_singleton.1 ha]
    exact ⟨trivial, by simp [Spares, Access.parts]⟩
  · split
    · exact hwrite.trans (Quiet.keeps (Quiet.trans (quiet_modifyPicker
        (samePieces_blockFailed _ index (begin / BLOCK_LEN))) (quiet_state ⟨rfl, rfl, rfl⟩)))
    · exact hwrite.trans (keeps_onWritten env idx begin block dest
        (hfit.shows (shows_disk w _ _)) hi hnot)

theorem keeps_onBlock (env : Env) (idx index begin : Nat) (block : Bytes) (hfit : Fits sh w) :
    Keeps sh w (onBlock sh env idx index begin block w) := by
  rcases onBlock_cases sh env idx index begin block w with
    heq | ⟨peer, -, hbegin, hi, hlen, hcase⟩
  · rw [heq]
    exact .refl sh w
  · have htake := fun requested => quiet_takeOwed idx (index, begin / BLOCK_LEN) requested w
    rcases hcase with ⟨-, heq⟩ | ⟨-, -, heq⟩ | ⟨-, hnot, r, hr, heq⟩
    · rw [heq]
      exact ((htake false).trans (quiet_fillRequests env idx _)).keeps
    · rw [heq]
      exact ((htake true).trans (quiet_fillRequests env idx _)).keeps
    · have howed := (htake true).keeps.trans (keeps_onOwedBlock env idx peer.dest
        (hfit.shows (htake true).shows) hi hnot hbegin hlen)
      rw [heq, hr]
      split
      · exact howed.trans (quiet_fillRequests env idx _).keeps
      · exact howed

/-! ## Critical sections -/

theorem keeps_dispatch (env : Env) (idx id : Nat) (first fast : Bool) (msg : Message)
    (hfit : Fits sh w) (hnodup : w.st.ids.Nodup) :
    Keeps sh w (dispatch sh env idx id first fast msg w) := by
  rcases quiet_dispatch sh env idx id first fast msg hnodup with
    hquiet | ⟨req, heq⟩ | ⟨index, begin, block, heq⟩
  · exact hquiet.keeps
  · rw [heq]
    exact keeps_serveRequest env idx req hfit
  · rw [heq]
    exact keeps_onBlock env idx index begin block hfit

theorem keeps_handle (env : Env) (id : Nat) (msg : Message) (hfit : Fits sh w)
    (hnodup : w.st.ids.Nodup) : Keeps sh w (handle sh env id msg w) := by
  unfold handle
  split
  · exact .refl sh w
  · rename_i idx _
    split
    · exact .refl sh w
    · have hopen : Quiet w (w.modifyPeer idx fun p => { p with opened := p.opened || opens msg }) :=
        quiet_modifyPeer (by intro _; rfl) (by intro _; rfl) w idx
      exact hopen.keeps.trans (keeps_dispatch env idx id _ _ msg (hfit.shows hopen.shows)
        (hopen.ids.symm ▸ hnodup))

/-- Held pieces match, writes went to pieces not held, and the messages in `sent` serve held
bytes. -/
structure Engine.Sound (sh : Shared) (e : Engine) (sent : List Message) : Prop where
  held : ∀ i, e.st.picker.has i = true → sh.storage.Matches sh.sha1 e.disk i
  trace : ∀ a ∈ e.trace, WritesUnheld sh a
  sent : ∀ m ∈ sent, Serves sh e.st.picker e.disk m

variable {e : Engine} {sent : List Message}

/-- A critical section that collects messages keeps what is held. -/
theorem RunsTo.keeps {r : Engine × Job} (h : RunsTo sh e r) (hseat : e.Seated sh) :
    ∃ w drops, Keeps sh e.enter w ∧ r = w.finish drops := by
  rcases h with ⟨env, id, msg, rfl⟩ | ⟨env, rfl⟩
  · have hseen := quiet_seen env.now id e
    have hfit := hseat.fits.shows hseen.shows
    have hnodup := hseen.ids.symm ▸ hseat.nodup
    have hhandle := hseen.keeps.trans (keeps_handle env id msg hfit hnodup)
    have hids := (hseen.shows.trans (shows_handle env id msg hfit hnodup)).ids
    have hround := hhandle.trans (quiet_considerRound env (hids.symm ▸ hseat.nodup)).keeps
    exact ⟨_, [], hround.trans (quiet_recordSent env.now _).keeps, rfl⟩
  · obtain ⟨w, drops, hquiet, heq⟩ := quiet_maintain env hseat
    exact ⟨w, drops, hquiet.keeps, heq⟩

theorem Keeps.finish (h : Keeps sh e.enter w) (hs : e.Sound sh sent) (drops : List (Nat × Bool)) :
    (w.finish drops).1.Sound sh (sent ++ (w.finish drops).2.sends.map (·.2)) := by
  obtain ⟨extra, htrace, -, hextra⟩ := h.wrote
  refine ⟨fun i hi => ?_, fun a ha => ?_, fun m hm => ?_⟩
  · rcases h.fresh i hi with hheld | hmatch
    · exact (hs.held i hheld).of_bytes (h.bytes i hheld)
    · exact hmatch
  · have ha : a ∈ w.trace := ha
    rw [htrace, List.mem_append] at ha
    rcases ha with ha | ha
    · exact hs.trace a ha
    · exact (hextra a ha).1
  · rcases List.mem_append.1 hm with hm | hm
    · exact (hs.sent m hm).mono h.held h.bytes
    · obtain ⟨o, ho, rfl⟩ := List.mem_map.1 hm
      rcases h.out o ho with ho | ho
      · cases ho
      · exact ho

/-! ## Runs -/

/-- Marking one piece held. -/
theorem has_setHave_iff {pk : Picker} (hlen : pk.haveField.len = pk.numPieces) (i j : Nat) :
    (pk.setHave j).haveField.len = (pk.setHave j).numPieces ∧
      (pk.setHave j).numPieces = pk.numPieces ∧
      ((pk.setHave j).has i = true ↔ pk.has i = true ∨ i < pk.numPieces ∧ i = j) := by
  unfold Picker.setHave
  split
  · rename_i hj
    refine ⟨(Bitfield.len_set _ _).trans hlen, rfl, ?_⟩
    simp only [Picker.has, Bitfield.has_set, Bool.or_eq_true, decide_eq_true_eq, hlen]
    constructor
    · rintro (⟨rfl, -⟩ | h)
      · exact .inr ⟨hj, rfl⟩
      · exact .inl h
    · rintro (h | ⟨hi, rfl⟩)
      · exact .inr h
      · exact .inl ⟨rfl, hi⟩
  · rename_i hj
    refine ⟨hlen, rfl, .inl, ?_⟩
    rintro (h | ⟨hi, rfl⟩)
    · exact h
    · exact absurd hi hj

/-- A torrent starts with the pieces it is given, as far as there are such pieces. -/
theorem has_new {initialHave : Bitfield} {mode : Mode} {now i : Nat} :
    (State.new sh initialHave mode now).picker.has i = true ↔
      i < sh.numPieces ∧ initialHave.has i = true := by
  have hfold : ∀ (l : List Nat) (pk : Picker), pk.haveField.len = pk.numPieces →
      ((l.foldl Picker.setHave pk).has i = true ↔
        pk.has i = true ∨ i < pk.numPieces ∧ i ∈ l) := by
    intro l
    induction l with
    | nil =>
        intro pk _
        simp
    | cons j l ih =>
        intro pk hlen
        obtain ⟨hlen', hsame, hhas⟩ := has_setHave_iff hlen i j
        rw [List.foldl_cons, ih _ hlen', hhas, hsame, List.mem_cons, or_assoc, ← and_or_left]
  have hnone : (Picker.new sh.storage.layout mode).has i = false := Bitfield.has_empty _ _
  refine (hfold _ _ rfl).trans ?_
  rw [hnone, Bitfield.mem_iterPresent]
  exact ⟨fun h => h.resolve_left (by simp), .inr⟩

/-- The invariant of a torrent and its threads. -/
structure System.Sound (sh : Shared) (s : System) : Prop where
  addressed : s.Addressed sh
  held : ∀ i, s.engine.st.picker.has i = true → sh.storage.Matches sh.sha1 s.engine.disk i
  trace : ∀ a ∈ s.engine.trace, WritesUnheld sh a
  carries : ∀ id, ∀ m ∈ s.onWay id, Serves sh s.engine.st.picker s.engine.disk m

variable {s s' : System}

/-- A step that leaves files, trace and pieces, and has nothing new on the way but plain
messages. -/
theorem System.Sound.of_same (h : s.Sound sh) (haddr : s'.Addressed sh)
    (hhas : ∀ i, s'.engine.st.picker.has i = s.engine.st.picker.has i)
    (hdisk : s'.engine.disk = s.engine.disk) (htrace : s'.engine.trace = s.engine.trace)
    (hway : ∀ id, ∀ m ∈ s'.onWay id, m ∈ s.onWay id ∨ isContent m = false) : s'.Sound sh := by
  refine ⟨haddr, fun i hi => ?_, fun a ha => h.trace a (htrace ▸ ha), fun id m hm => ?_⟩
  · rw [hdisk]
    exact h.held i (hhas i ▸ hi)
  · rcases hway id m hm with hm | hmild
    · refine (h.carries id m hm).mono (fun i hi => (hhas i).trans hi) fun i _ j _ v hv => ?_
      rw [hdisk]
      exact hv
    · cases m with
      | piece _ _ _ => cases hmild
      | _ => trivial

theorem sound_leave {thread : Thread} {r : Engine × Job} (h : s.Sound sh)
    (haddr : (s.leave thread r).Addressed sh)
    (hrun : ∀ sent, s.engine.Sound sh sent → r.1.Sound sh (sent ++ r.2.sends.map (·.2))) :
    (s.leave thread r).Sound sh := by
  have hnone := hrun [] ⟨h.held, h.trace, by simp⟩
  refine ⟨haddr, hnone.held, hnone.trace, fun id m hm => ?_⟩
  rw [onWay_leave, List.mem_append] at hm
  rcases hm with hm | hm
  · exact (hrun [m] ⟨h.held, h.trace, by simpa using h.carries id m hm⟩).sent m (by simp)
  · exact hnone.sent m (List.mem_map_of_mem (mem_sentTo.1 hm))

/-- Every step keeps the invariant. -/
theorem System.Sound.step (h : s.Sound sh) (a : Action) : (System.step sh a s).Sound sh := by
  have haddr := h.addressed.step a
  have hseat := h.addressed.seated
  have hout := step_outcome a hseat
  generalize System.step sh a s = s' at hout haddr
  cases hout with
  | same hsame _ =>
      refine h.of_same haddr hsame.pieces.has hsame.disk hsame.trace fun id m hm => .inl ?_
      rwa [System.onWay, System.unsent, hsame.queues, hsame.tasks] at hm
  | ran hruns _ =>
      obtain ⟨w, drops, hkeeps, rfl⟩ := hruns.keeps hseat
      exact sound_leave h haddr fun sent hs => hkeeps.finish hs drops
  | dropped hdrop => exact h.of_same haddr hdrop.pieces.has rfl rfl fun _ _ hm => .inl hm
  | droppedBy htask hsends _ hdrop =>
      refine h.of_same haddr hdrop.pieces.has rfl rfl fun id m hm => .inl ?_
      rwa [onWay_dropped htask hsends] at hm
  | sent htask =>
      refine h.of_same haddr (fun _ => rfl) rfl rfl fun id m hm => .inl ?_
      rwa [mem_onWay_sent htask] at hm
  | refused htask =>
      exact h.of_same haddr (fun _ => rfl) rfl rfl fun id m hm => .inl (mem_onWay_refused htask hm)
  | registered _ _ hreg =>
      refine h.of_same haddr hreg.pieces.has rfl rfl fun id m hm => ?_
      rw [onWay_seat] at hm
      split at hm
      · rename_i hid
        refine (List.mem_append.1 hm).elim (fun hm => .inr (plain_opening hm).2) fun hm => .inl ?_
        exact List.mem_append_right _ hm
      · exact .inl hm
  | listed =>
      refine h.of_same haddr (fun _ => rfl) rfl rfl fun id m hm => .inl ?_
      simpa [System.onWay, System.unsent] using hm

/-- Every step keeps what is held, and writes only to what is not. -/
theorem keeps_step (a : Action) (hseat : s.engine.Seated sh) :
    Keeps sh s.engine.enter (System.step sh a s).engine.enter := by
  have hout := step_outcome a hseat
  generalize System.step sh a s = s' at hout
  have hsame : ∀ {t : System}, (∀ i, t.engine.st.picker.has i = s.engine.st.picker.has i) →
      t.engine.disk = s.engine.disk → t.engine.trace = s.engine.trace →
      Keeps sh s.engine.enter t.engine.enter := by
    intro t hhas hdisk htrace
    refine ⟨fun i hi => (hhas i).trans hi, fun i hi => .inl ((hhas i).symm.trans hi),
      wrote_nothing htrace hdisk, fun o ho => ?_⟩
    cases ho
  cases hout with
  | same heq _ => exact hsame heq.pieces.has heq.disk heq.trace
  | ran hruns _ =>
      obtain ⟨w, drops, hkeeps, rfl⟩ := hruns.keeps hseat
      refine ⟨hkeeps.held, hkeeps.fresh, hkeeps.wrote, fun o ho => ?_⟩
      cases ho
  | dropped hdrop => exact hsame hdrop.pieces.has rfl rfl
  | droppedBy _ _ _ hdrop _ _ => exact hsame hdrop.pieces.has rfl rfl
  | sent _ => exact hsame (fun _ => rfl) rfl rfl
  | refused _ => exact hsame (fun _ => rfl) rfl rfl
  | registered _ _ hreg => exact hsame hreg.pieces.has rfl rfl
  | listed => exact hsame (fun _ => rfl) rfl rfl

/-- Verified data stays, and only verified data is served.  If every piece held at the start
matches, then after every run every held piece matches, every write was to a piece not held when
it was made, and every block on a queue lies inside a held piece and is what that piece has on
disk. -/
theorem verified_data_immutable (sh : Shared) (initialHave : Bitfield) (mode : Mode) (now : Nat)
    (disk : Disk) (actions : List Action)
    (hinit : ∀ i < sh.numPieces, initialHave.has i = true → sh.storage.Matches sh.sha1 disk i) :
    let s := System.run sh actions (System.new sh initialHave mode now disk)
    (∀ i, s.engine.st.picker.has i = true → sh.storage.Matches sh.sha1 s.engine.disk i) ∧
      (∀ start len held parts, .write start len held parts ∈ s.engine.trace →
        ∃ index, held.has index = false ∧ ∀ g, start ≤ g → g < start + len →
          sh.storage.offsetOf index 0 ≤ g ∧
            g < sh.storage.offsetOf index 0 + sh.storage.layout.pieceLen index) ∧
      ∀ id index begin block, .piece index begin block ∈ s.queues id →
        s.engine.st.picker.has index = true ∧
          begin + block.length ≤ sh.storage.layout.pieceLen index ∧
          ∀ j < block.length,
            sh.storage.byte s.engine.disk (sh.storage.offsetOf index begin + j) = block[j]? := by
  intro s
  have hnew : (System.new sh initialHave mode now disk).Sound sh := by
    refine ⟨addressed_new sh initialHave mode now disk, fun i hi => ?_,
      by simp [System.new, Engine.new],
      by simp [System.new, System.onWay, System.unsent, sentTo]⟩
    obtain ⟨hlt, hi⟩ := has_new.1 hi
    exact hinit i hlt hi
  have hs : s.Sound sh := Machine.run_induction (P := System.Sound sh)
    (fun a _ h => h.step a) actions hnew
  exact ⟨hs.held, fun _ _ _ _ ha => hs.trace _ ha, fun id index begin block hm =>
    hs.carries id _ (List.mem_append_left _ hm)⟩

namespace OneByte

/-- A peer is unchoked and asks for the only block. -/
def serving : List Action :=
  unchoked ++ [.message (env 0) 0 (.request ⟨0, 0, 1⟩), .send 1 true]

/-- The content on disk. -/
def content : Disk := fun _ => [97]

theorem matches_content : ∀ i < shared.numPieces, (Bitfield.full 1).has i = true →
    shared.storage.Matches shared.sha1 content i := by
  intro i hi _
  obtain rfl : i = 0 := Nat.lt_one_iff.1 hi
  refine ⟨[97], rfl, rfl, fun j hj => ?_⟩
  obtain rfl : j = 0 := Nat.lt_one_iff.1 hj
  rfl

end OneByte

theorem verified_data_immutable_serving :
    let s := System.run OneByte.shared OneByte.serving
      (System.new OneByte.shared (Bitfield.full 1) .rarestFirst 0 OneByte.content)
    .piece 0 0 [97] ∈ s.queues 0 ∧
      (∀ i, s.engine.st.picker.has i = true →
        OneByte.shared.storage.Matches OneByte.shared.sha1 s.engine.disk i) ∧
      OneByte.shared.storage.byte s.engine.disk 0 = some 97 := by
  intro s
  have hserved : .piece 0 0 [97] ∈ s.queues 0 := by decide +kernel
  obtain ⟨hheld, -, hqueues⟩ := verified_data_immutable OneByte.shared (Bitfield.full 1)
    .rarestFirst 0 OneByte.content OneByte.serving OneByte.matches_content
  exact ⟨hserved, hheld, (hqueues 0 0 0 [97] hserved).2.2 0 (by decide)⟩

end Clove.Torrent
