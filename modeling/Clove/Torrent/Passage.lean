import Clove.Torrent.Exchange

/-!
# A fetch under way

What the client has written and the torrent has heard, and what is between the torrent's threads and
the client, in order.  Each move takes something on, and the frames still to come stay within what
the client grants.
-/

namespace Clove.Torrent

open Wire (Message Extensions)
open Metadata (MetadataMessage MetadataAssembler METADATA_PIECE_LEN MAX_METADATA_SIZE stripe stripes)

variable {sh : Shared} {s : System} {p : Peer} {x : Exchange}

namespace Exchange

/-- What is on the client's queue and has not been written. -/
def waiting (x : Exchange) : List Message := (x.host.queues 0).drop x.written

/-- Whether a keep-alive may still fall due before the deadline. -/
def spare (start : Nat) (p : Peer) : Nat :=
  if p.lastSent < start + (METADATA_DEADLINE - DEFAULT_KEEPALIVE_INTERVAL) then 1 else 0

/-- The torrent has heard so many of the messages the client wrote.  What is in flight to the client
and on its queue is `lead` and then `more`, and `answers` is what is to come after `lead`, but for
keep-alives. -/
structure Flow (sh : Shared) (start : Nat) (x : Exchange) (p : Peer) (wrote heard : Nat)
    (flight lead more answers : List Message) : Prop where
  host : Attending x.host p
  lastSent : start ≤ p.lastSent
  lastSeen : start ≤ p.lastSeen
  named : heard ≠ 0 → p.metadataId = some OUR_METADATA_ID
  heard_le : heard ≤ wrote
  wrote_le : wrote ≤ stripes sh.rawInfo + 1
  requested : x.requested = (((script sh).take wrote).drop heard).flatMap Message.encode
  written : x.written ≤ (x.host.queues 0).length
  queued : flight ++ x.waiting = lead ++ more
  answers : (more ++ held x.host).filter (· ≠ .keepAlive) = answers
  single : ((held x.host).filter (· ≠ .keepAlive)).length ≤ 1

/-- How many frames the client may still have to read. -/
def due (sh : Shared) (start : Nat) (x : Exchange) (p : Peer) (heard : Nat) (flight : List Message) :
    Nat :=
  flight.length + x.waiting.length + (held x.host).length +
    2 * (stripes sh.rawInfo + 1 - heard) + spare start p

/-- How much may still happen, but for ticks that send nothing. -/
def load (sh : Shared) (start : Nat) (x : Exchange) (p : Peer) (heard : Nat)
    (flight : List Message) : Nat :=
  flight.length + 2 * x.waiting.length + 3 * (held x.host).length +
    8 * (stripes sh.rawInfo + 1 - heard) + 4 * spare start p

/-- The moves that bring a fetch on. -/
def Helps (x : Exchange) (wrote heard : Nat) : Move → Prop
  | .turn => x.answered ≠ []
  | .write => x.waiting ≠ []
  | .send pos => ∃ t, x.host.tasks[pos]? = some t ∧ t.sends ≠ []
  | .hear _ => heard < wrote ∧ x.host.busy (.reader 0) = false
  | _ => False

theorem spare_le (start : Nat) (p : Peer) : spare start p ≤ 1 := by
  unfold spare
  split <;> omega

variable {sha1 toLowercase : Bytes → Bytes} {dest : DestHash} {start wrote heard : Nat}
  {flight lead more answers : List Message}

namespace Flow

theorem seated (h : Flow sh start x p wrote heard flight lead more answers) : x.seated = true := by
  rw [Exchange.seated, h.host.seat.peers]
  simp [h.host.id]

section

variable (sha1 toLowercase dest)

/-- A tick changes nothing the client could notice, or sends the keep-alive that may still be due. -/
theorem tick (h : Flow sh start x p wrote heard flight lead more answers) {env : Env}
    (htime : Timely start (.tick env)) :
    ∃ p', Flow sh start (x.step sha1 toLowercase sh dest (.tick env)) p' wrote heard flight lead more
        answers ∧
      p'.metadataRequests ≤ p.metadataRequests ∧
      due sh start (x.step sha1 toLowercase sh dest (.tick env)) p' heard flight ≤
        due sh start x p heard flight ∧
      (load sh start (x.step sha1 toLowercase sh dest (.tick env)) p' heard flight <
          load sh start x p heard flight ∨
        load sh start (x.step sha1 toLowercase sh dest (.tick env)) p' heard flight =
            load sh start x p heard flight ∧
          Helps (x.step sha1 toLowercase sh dest (.tick env)) wrote heard = Helps x wrote heard) := by
  obtain ⟨hnow, hlate⟩ : start ≤ env.now ∧ env.now < start + METADATA_DEADLINE := htime
  have hlastSent := h.lastSent
  have hlastSeen := h.lastSeen
  unfold METADATA_DEADLINE at hlate
  have hfresh : env.now - p.lastSeen < DEFAULT_IDLE_TIMEOUT := by
    unfold DEFAULT_IDLE_TIMEOUT
    omega
  rcases h.host.tick sh env hfresh with hsame | ⟨p', sends, hsends, hattending, hheld, hqueues,
    htasks, hmeta, hasked, hsent, hseen⟩
  · have hstep : x.step sha1 toLowercase sh dest (.tick env) = x := by
      rw [Exchange.step, hsame]
    rw [hstep]
    exact ⟨p, h, le_rfl, le_rfl, .inr ⟨rfl, rfl⟩⟩
  · have hquiet : sends.filter (· ≠ .keepAlive) = [] := by
      rw [hsends]
      split <;> rfl
    have hwaiting : (x.step sha1 toLowercase sh dest (.tick env)).waiting = x.waiting := by
      rw [waiting, Exchange.step, hqueues]
      rfl
    have hgrown : held (x.step sha1 toLowercase sh dest (.tick env)).host = held x.host ++ sends :=
      hheld
    -- a keep-alive is sent only while one is due, and then none is
    have hspent : (sends = [] ∧ spare start p' = spare start p) ∨
        (sends.length = 1 ∧ spare start p = 1 ∧ spare start p' = 0) := by
      unfold spare METADATA_DEADLINE
      unfold DEFAULT_KEEPALIVE_INTERVAL at hsends hsent ⊢
      by_cases hdue : 100000 ≤ env.now - p.lastSent
      · rw [if_pos hdue] at hsends hsent
        refine .inr ⟨by rw [hsends]; rfl, if_pos (by omega), if_neg (by omega)⟩
      · rw [if_neg hdue] at hsends hsent
        exact .inl ⟨hsends, by rw [hsent]⟩
    refine ⟨p', ⟨hattending, ?_, hseen ▸ hlastSeen, fun hne => hmeta.trans (h.named hne), h.heard_le,
      h.wrote_le, h.requested, ?_, ?_, ?_, ?_⟩, by omega, ?_, ?_⟩
    · rw [hsent]
      split <;> omega
    · show x.written ≤ _
      exact (congrFun hqueues 0) ▸ h.written
    · exact hwaiting ▸ h.queued
    · rw [hgrown, ← List.append_assoc, List.filter_append, hquiet, List.append_nil]
      exact h.answers
    · rw [hgrown, List.filter_append, hquiet, List.append_nil]
      exact h.single
    · unfold due
      rw [hwaiting, hgrown, List.length_append]
      rcases hspent with ⟨hnone, hspare⟩ | ⟨hone, hbefore, hafter⟩
      · rw [hnone, hspare]
        exact le_rfl
      · omega
    · unfold load
      rw [hwaiting, hgrown, List.length_append]
      rcases hspent with ⟨hnone, hspare⟩ | ⟨hone, hbefore, hafter⟩
      · refine .inr ⟨by rw [hnone, hspare]; rfl, ?_⟩
        funext m
        have hread : (x.step sha1 toLowercase sh dest (.tick env)).answered = x.answered := rfl
        have hhas : (x.step sha1 toLowercase sh dest (.tick env)).host.tasks =
            x.host.tasks ++ [⟨.maintenance, [], [], none⟩] := by
          rw [hnone] at htasks
          exact htasks
        have hbusy : (x.step sha1 toLowercase sh dest (.tick env)).host.busy (.reader 0) =
            x.host.busy (.reader 0) := by
          rw [System.busy, System.busy, hhas, List.any_append]
          simp
        cases m with
        | send pos =>
            simp only [Helps, hhas, eq_iff_iff]
            constructor
            · rintro ⟨t, ht, hne⟩
              rw [List.getElem?_append] at ht
              split at ht
              · exact ⟨t, ht, hne⟩
              · rw [List.getElem?_singleton] at ht
                split at ht
                · rw [← Option.some.inj ht] at hne
                  exact absurd rfl hne
                · cases ht
            · rintro ⟨t, ht, hne⟩
              exact ⟨t, by rw [List.getElem?_append_left (List.getElem?_eq_some_iff.1 ht).1, ht], hne⟩
        | hear env => simp only [Helps, hbusy]
        | write => simp only [Helps, hwaiting]
        | turn => simp only [Helps, hread]
        | _ => rfl
      · left
        omega

/-- The next message of the client is heard, and a request among them answered. -/
theorem hear (h : Flow sh start x p wrote heard flight lead more answers)
    (hfew : stripes sh.rawInfo ≤ U32_MAX) {env : Env} (htime : Timely start (.hear env)) :
    (x.step sha1 toLowercase sh dest (.hear env) = x ∧ ¬ Helps x wrote heard (.hear env)) ∨
    ∃ p', Flow sh start (x.step sha1 toLowercase sh dest (.hear env)) p' wrote (heard + 1) flight lead
        more (answers ++ if heard = 0 then [] else
          [answer sh (p.metadataRequests < MAX_METADATA_REQUESTS_PER_TICK) (heard - 1)]) ∧
      (x.step sha1 toLowercase sh dest (.hear env)).client = x.client ∧
      (x.step sha1 toLowercase sh dest (.hear env)).answered = x.answered ∧
      p'.metadataRequests = p.metadataRequests + (if heard = 0 then 0 else 1) ∧
      due sh start (x.step sha1 toLowercase sh dest (.hear env)) p' (heard + 1) flight ≤
        due sh start x p heard flight ∧
      load sh start (x.step sha1 toLowercase sh dest (.hear env)) p' (heard + 1) flight <
        load sh start x p heard flight := by
  obtain ⟨hnow, -⟩ : start ≤ env.now ∧ env.now < start + METADATA_DEADLINE := htime
  have hheard := h.heard_le
  have hwrote := h.wrote_le
  have hseated := h.seated
  cases hbusy : x.host.busy (.reader 0) with
  | true =>
      refine .inl ⟨?_, fun hhelps => ?_⟩
      · simp [Exchange.step, hearNext, hseated, hbusy]
      · rw [Helps, hbusy] at hhelps
        cases hhelps.2
  | false =>
      rcases Nat.lt_or_ge heard wrote with hlt | hge
      · have hin : heard < (script sh).length := by
          rw [length_script]
          omega
        have hnext : x.requested = (script sh)[heard].encode ++
            (((script sh).take wrote).drop (heard + 1)).flatMap Message.encode := by
          rw [h.requested, List.drop_eq_getElem_cons (by simp; omega), List.flatMap_cons,
            List.getElem_take]
        obtain ⟨hframe, hparse⟩ := heard_script (List.getElem_mem hin) hfew
          ((((script sh).take wrote).drop (heard + 1)).flatMap Message.encode)
        have hstep : x.step sha1 toLowercase sh dest (.hear env) = { x with
            requested := (((script sh).take wrote).drop (heard + 1)).flatMap Message.encode
            host := System.step sh (.message env 0 (script sh)[heard]) x.host } := by
          simp [Exchange.step, hearNext, hseated, hbusy, hnext, hframe, hparse]
        have hquiet := h.host.held_of_not_busy hbusy
        obtain ⟨said, hsaid⟩ : ∃ said, said = if heard = 0 then [] else
            [answer sh (p.metadataRequests < MAX_METADATA_REQUESTS_PER_TICK) (heard - 1)] := ⟨_, rfl⟩
        obtain ⟨p', hattending, hheld, hqueues, hmeta, hasked, hsent, hseen⟩ : ∃ p',
            Attending (System.step sh (.message env 0 (script sh)[heard]) x.host) p' ∧
            held (System.step sh (.message env 0 (script sh)[heard]) x.host) = held x.host ++ said ∧
            (System.step sh (.message env 0 (script sh)[heard]) x.host).queues = x.host.queues ∧
            p'.metadataId = some OUR_METADATA_ID ∧
            p'.metadataRequests = p.metadataRequests + (if heard = 0 then 0 else 1) ∧
            (said = [] ∧ p'.lastSent = p.lastSent ∨ said.length = 1 ∧ p'.lastSent = env.now) ∧
            p'.lastSeen = env.now := by
          cases heard with
          | zero =>
              obtain ⟨p', hattending, hheld, hqueues, hmeta, hasked, hsent, hseen⟩ :=
                h.host.hello sh env hbusy
              exact ⟨p', hattending, by rw [hsaid]; exact hheld.trans (List.append_nil _).symm,
                hqueues, hmeta, hasked, .inl ⟨hsaid, hsent⟩, hseen⟩
          | succ piece =>
              have hpiece : piece ≤ U32_MAX := by omega
              obtain ⟨p', s', rfl, hattending, hheld, hqueues, hmeta, hasked, hsent, hseen⟩ :=
                h.host.request sh env hbusy (h.named (Nat.succ_ne_zero _)) hpiece
              rw [script_succ hin]
              exact ⟨p', hattending, by rw [hsaid]; exact hheld, hqueues, hmeta, hasked,
                .inr ⟨by rw [hsaid]; rfl, hsent⟩, hseen⟩
        have hspare : 3 * said.length + 4 * spare start p' ≤ 7 + 4 * spare start p ∧
            said.length + spare start p' ≤ 2 + spare start p := by
          have hle := spare_le start p'
          rcases hsent with ⟨hnone, hsent⟩ | ⟨hone, -⟩
          · have hsame : spare start p' = spare start p := by rw [spare, spare, hsent]
            rw [hnone, List.length_nil]
            omega
          · omega
        rw [hstep, ← hsaid]
        have hwaiting : ({ x with
            requested := (((script sh).take wrote).drop (heard + 1)).flatMap Message.encode
            host := System.step sh (.message env 0 (script sh)[heard]) x.host } : Exchange).waiting =
            x.waiting := congrArg (List.drop x.written) (congrFun hqueues 0)
        refine .inr ⟨p', ⟨hattending, ?_, hseen ▸ hnow, fun _ => hmeta, hlt, hwrote, rfl, ?_, ?_, ?_, ?_⟩,
          rfl, rfl, hasked, ?_, ?_⟩
        · have hlastSent := h.lastSent
          rcases hsent with ⟨-, hsent⟩ | ⟨-, hsent⟩ <;> omega
        · exact (congrFun hqueues 0) ▸ h.written
        · exact hwaiting ▸ h.queued
        · rw [hheld, ← List.append_assoc, List.filter_append, h.answers]
          refine congrArg (answers ++ ·) (List.filter_eq_self.2 fun m hm => ?_)
          rw [hsaid] at hm
          split at hm
          · cases hm
          · rw [List.mem_singleton.1 hm]
            rfl
        · rw [hheld, List.filter_append, hquiet, List.nil_append]
          refine (List.length_filter_le _ _).trans ?_
          rcases hsent with ⟨hnone, -⟩ | ⟨hone, -⟩
          · rw [hnone]
            exact Nat.zero_le _
          · exact hone.le
        · unfold due
          rw [hwaiting, hheld, List.length_append]
          omega
        · unfold load
          rw [hwaiting, hheld, List.length_append]
          omega
      · refine .inl ⟨?_, fun hhelps => absurd hhelps.1 (Nat.not_lt.2 hge)⟩
        have hnone : x.requested = [] := by
          rw [h.requested, List.drop_eq_nil_of_le (by simp; omega)]
          rfl
        simp [Exchange.step, hearNext, hseated, hbusy, hnone, Wire.readFrame]

/-- A thread hands over its next message while there is room. -/
theorem send (h : Flow sh start x p wrote heard flight lead more answers)
    (hroom : x.waiting.length < OUTGOING_QUEUE) (pos : Nat) :
    (x.step sha1 toLowercase sh dest (.send pos) = x ∧ ¬ Helps x wrote heard (.send pos)) ∨
    ∃ more', Flow sh start (x.step sha1 toLowercase sh dest (.send pos)) p wrote heard flight lead
        more' answers ∧
      due sh start (x.step sha1 toLowercase sh dest (.send pos)) p heard flight =
        due sh start x p heard flight ∧
      load sh start (x.step sha1 toLowercase sh dest (.send pos)) p heard flight <
        load sh start x p heard flight := by
  have htaken : decide ((x.host.queues 0).length - x.written < OUTGOING_QUEUE) = true := by
    rw [waiting, List.length_drop] at hroom
    exact decide_eq_true hroom
  have hstep : x.step sha1 toLowercase sh dest (.send pos) =
      { x with host := System.step sh (.send pos true) x.host } := by
    rw [Exchange.step, htaken]
  rw [hstep]
  rcases h.host.send sh pos with ⟨hsame, hnone⟩ | ⟨before, m, after, hbefore, -, hattending,
    hafter, hqueue⟩
  · refine .inl ⟨by rw [hsame], ?_⟩
    rintro ⟨t, ht, hne⟩
    exact hne (hnone t ht)
  · have hwaiting : ({ x with host := System.step sh (.send pos true) x.host } : Exchange).waiting =
        x.waiting ++ [m] := by
      rw [waiting, hqueue, List.drop_append_of_le_length h.written]
      rfl
    have hanswers := h.answers
    have hsingle := h.single
    rw [hbefore] at hanswers hsingle
    -- what is held is one answer at most, so nothing that says anything is overtaken
    have hfirst : m = .keepAlive ∨ before.filter (· ≠ .keepAlive) = [] := by
      rcases Decidable.em (m = .keepAlive) with hquiet | hsays
      · exact .inl hquiet
      · right
        rw [List.filter_append, List.filter_cons_of_pos (by simpa using hsays), List.length_append,
          List.length_cons] at hsingle
        exact List.length_eq_zero_iff.1 (by omega)
    refine .inr ⟨more ++ [m], ⟨hattending, h.lastSent, h.lastSeen, h.named, h.heard_le, h.wrote_le,
      h.requested, ?_, ?_, ?_, ?_⟩, ?_, ?_⟩
    · show x.written ≤ ((System.step sh (.send pos true) x.host).queues 0).length
      have hwritten := h.written
      rw [hqueue, List.length_append]
      omega
    · rw [hwaiting, ← List.append_assoc, h.queued, List.append_assoc]
    · rw [hafter, ← hanswers]
      simp only [List.filter_append, List.append_assoc]
      rcases hfirst with rfl | hnone
      · rfl
      · rw [hnone, List.filter_cons, List.filter_cons]
        split <;> rfl
    · rw [hafter]
      refine le_trans ?_ hsingle
      simp only [List.filter_append, List.length_append, List.filter_cons]
      split <;> simp
    · unfold due
      rw [hwaiting, hafter, hbefore]
      simp only [List.length_append, List.length_cons, List.length_nil]
      omega
    · unfold load
      rw [hwaiting, hafter, hbefore]
      simp only [List.length_append, List.length_cons, List.length_nil]
      omega

/-- The writer writes the next message of the queue. -/
theorem write (h : Flow sh start x p wrote heard flight lead more answers) :
    (x.step sha1 toLowercase sh dest .write = x ∧ ¬ Helps x wrote heard .write) ∨
    ∃ m, Flow sh start (x.step sha1 toLowercase sh dest .write) p wrote heard (flight ++ [m]) lead more
        answers ∧
      (x.step sha1 toLowercase sh dest .write).client = x.client ∧
      (x.step sha1 toLowercase sh dest .write).answered = x.answered ++ m.encode ∧
      due sh start (x.step sha1 toLowercase sh dest .write) p heard (flight ++ [m]) =
        due sh start x p heard flight ∧
      load sh start (x.step sha1 toLowercase sh dest .write) p heard (flight ++ [m]) <
        load sh start x p heard flight := by
  have hseated := h.seated
  cases hwaiting : x.waiting with
  | nil =>
      have hall : (x.host.queues 0).length ≤ x.written := List.drop_eq_nil_iff.1 hwaiting
      refine .inl ⟨?_, not_not.2 hwaiting⟩
      rw [Exchange.step, writeNext, if_pos hseated, List.getElem?_eq_none hall]
  | cons m rest =>
      have hnext : (x.host.queues 0)[x.written]? = some m := by
        have hhead := congrArg List.head? hwaiting
        rwa [waiting, List.head?_drop] at hhead
      have hlt := (List.getElem?_eq_some_iff.1 hnext).1
      have hstep : x.step sha1 toLowercase sh dest .write =
          { x with answered := x.answered ++ m.encode, written := x.written + 1 } := by
        rw [Exchange.step, writeNext, if_pos hseated, hnext]
      have hrest : ({ x with
          answered := x.answered ++ m.encode, written := x.written + 1 } : Exchange).waiting = rest := by
        have htail := congrArg List.tail hwaiting
        rwa [waiting, List.tail_drop] at htail
      rw [hstep]
      refine .inr ⟨m, ⟨h.host, h.lastSent, h.lastSeen, h.named, h.heard_le, h.wrote_le, h.requested,
        hlt, ?_, h.answers, h.single⟩, rfl, rfl, ?_, ?_⟩
      · rw [hrest, List.append_assoc, List.singleton_append, ← hwaiting]
        exact h.queued
      · unfold due
        rw [hrest, hwaiting]
        simp only [List.length_append, List.length_cons, List.length_nil]
        omega
      · unfold load
        rw [hrest, hwaiting]
        simp only [List.length_append, List.length_cons, List.length_nil]
        omega

end

theorem attach (h : Flow sh start x p wrote heard flight lead more answers) :
    x.step sha1 toLowercase sh dest .attach = x := by
  obtain ⟨dest', hattached⟩ := h.host.attached
  rw [Exchange.step, attachNext, if_pos (.inl (by simp [hattached]))]

theorem announce (h : Flow sh start x p wrote heard flight lead more answers) :
    x.step sha1 toLowercase sh dest .announce = x := by
  rw [Exchange.step, h.host.announce]

theorem register (h : Flow sh start x p wrote heard flight lead more answers) (env : Env) :
    x.step sha1 toLowercase sh dest (.register env) = x := by
  rw [Exchange.step, h.host.register]

theorem drop (h : Flow sh start x p wrote heard flight lead more answers) (pos now : Nat) :
    x.step sha1 toLowercase sh dest (.drop pos now) = x := by
  rw [Exchange.step, h.host.drop]

end Flow

/-! ## How far the client is -/

/-- The whole info dictionary fits in one tick's allowance. -/
def WithinAllowance (sh : Shared) : Prop := stripes sh.rawInfo ≤ MAX_METADATA_REQUESTS_PER_TICK

instance (sh : Shared) : Decidable (WithinAllowance sh) := inferInstanceAs (Decidable (_ ≤ _))

/-- The answer to a request of a client that asks for each piece once, in order, between two ticks. -/
def nthAnswer (sh : Shared) (piece : Nat) : Message :=
  answer sh (piece < MAX_METADATA_REQUESTS_PER_TICK) piece

/-- A piece set that goes into a frame, and into one the client takes if the info dictionary fits in
the allowance. -/
structure Announces (sh : Shared) (bits : Bytes) : Prop where
  lt_max : bits.length < U32_MAX
  lt_frame : WithinAllowance sh → bits.length < METADATA_FRAME

/-- How far the client is, with what it has written, what it has still to read of the handshake, and
what is to come first and then. -/
inductive Stage (sh : Shared) (heard due : Nat) :
    Client → Nat → Bytes → List Message → List Message → Prop where
  | shaking {bits : Bytes} : Announces sh bits → Stage sh heard due .shaking 0
      sh.ourHandshake.encode [.bitfield bits, .extended 0 sh.ourExtensionHandshake] []
  | greeting {bits : Bytes} : Announces sh bits →
      Stage sh heard due (.greeting 64) 1 [] [.bitfield bits, .extended 0 sh.ourExtensionHandshake] []
  | greeted : Stage sh heard due (.greeting 63) 1 [] [.extended 0 sh.ourExtensionHandshake] []
  | fetching {i frames : Nat} : i < stripes sh.rawInfo → i ≤ MAX_METADATA_REQUESTS_PER_TICK →
      i ≤ heard - 1 → due ≤ frames →
      Stage sh heard due (.fetching frames (MetadataAssembler.filled sh.rawInfo i))
        (stripes sh.rawInfo + 1) [] [] ((List.range' i (heard - 1 - i)).map (nthAnswer sh))

theorem Stage.mono {due due' : Nat} {c : Client} {pre : Bytes}
    (h : Stage sh heard due c wrote pre lead answers) (hle : due' ≤ due) :
    Stage sh heard due' c wrote pre lead answers := by
  cases h with
  | shaking hbits => exact .shaking hbits
  | greeting hbits => exact .greeting hbits
  | greeted => exact .greeted
  | fetching hi hmax hheard hframes => exact .fetching hi hmax hheard (hle.trans hframes)

/-- The torrent hears the next message, and nothing changes for the client but what is to come. -/
theorem Stage.hear {due due' : Nat} {c : Client} {pre : Bytes}
    (h : Stage sh heard due c wrote pre lead answers) (hlt : heard < wrote) (hle : due' ≤ due) :
    Stage sh (heard + 1) due' c wrote pre lead
      (answers ++ if heard = 0 then [] else [nthAnswer sh (heard - 1)]) := by
  cases h with
  | shaking _ => exact absurd hlt (Nat.not_lt_zero _)
  | greeting hbits =>
      obtain rfl : heard = 0 := by omega
      exact .greeting hbits
  | greeted =>
      obtain rfl : heard = 0 := by omega
      exact .greeted
  | @fetching i frames hi hmax hheard hframes =>
      cases heard with
      | zero =>
          obtain rfl : i = 0 := by omega
          exact .fetching hi hmax le_rfl (hle.trans hframes)
      | succ piece =>
          have hnext : (List.range' i (piece - i)).map (nthAnswer sh) ++ [nthAnswer sh piece] =
              (List.range' i (piece + 1 - i)).map (nthAnswer sh) := by
            have hcount : piece + 1 - i = piece - i + 1 := by omega
            have hlast : i + (piece - i) = piece := by omega
            rw [hcount, List.range'_1_concat, List.map_append, hlast]
            rfl
          have hstage := @Stage.fetching sh (piece + 2) due' i frames hi hmax (by omega)
            (hle.trans hframes)
          simp only [Nat.add_sub_cancel, Nat.succ_ne_zero, if_false, hnext]
          exact hstage

/-- A torrent of a metainfo, as far as a fetch depends on it. -/
structure Offers (sha1 toLowercase : Bytes → Bytes) (sh : Shared) (m : MetaInfo) : Prop where
  infoHash : sh.infoHash.length = 20
  peerId : sh.peerId.length = 20
  ne : sh.rawInfo ≠ []
  le : sh.rawInfo.length ≤ MAX_METADATA_SIZE
  hash : sh.infoHash = sha1 sh.rawInfo
  parse : MetaInfo.fromInfoDict sha1 toLowercase sh.rawInfo = .ok m

variable {m : MetaInfo}

theorem Offers.few (h : Offers sha1 toLowercase sh m) : stripes sh.rawInfo ≤ 512 := by
  have hle := h.le
  refine Metadata.stripes_le ?_
  unfold MAX_METADATA_SIZE at hle
  unfold METADATA_PIECE_LEN
  omega

theorem Offers.pos (h : Offers sha1 toLowercase sh m) : 0 < stripes sh.rawInfo := by
  have hpos := List.length_pos_of_ne_nil h.ne
  rw [Metadata.lt_stripes_iff]
  omega

/-- The fetch is over, with the torrent exactly if that fits in one tick's allowance. -/
inductive Ended (sh : Shared) (m : MetaInfo) (x : Exchange) : Prop where
  | fetched : WithinAllowance sh → x.client = .done (.ok m) → Ended sh m x
  | failed {e : FetchError} : ¬ WithinAllowance sh → x.client = .done (.error e) → Ended sh m x

/-- A client to which nothing has come goes on waiting. -/
theorem turn_nothing (hanswered : x.answered = [])
    (hclient : (∃ frames, x.client = .greeting (frames + 1)) ∨
      ∃ frames asm, x.client = .fetching (frames + 1) asm) :
    x.step sha1 toLowercase sh dest .turn = x := by
  obtain ⟨client, requested, answered, host, written⟩ := x
  obtain rfl : answered = [] := hanswered
  rcases hclient with ⟨frames, hclient⟩ | ⟨frames, asm, hclient⟩
  · obtain rfl : client = .greeting (frames + 1) := hclient
    simp [Exchange.step, Client.turn, Wire.readFrame]
  · obtain rfl : client = .fetching (frames + 1) asm := hclient
    simp [Exchange.step, Client.turn, Wire.readFrame]

/-- What the state is after a turn of the client. -/
theorem step_turn {t : Pass}
    (h : x.client.turn sha1 toLowercase sh.infoHash false true x.answered = t) :
    x.step sha1 toLowercase sh dest .turn =
      { x with client := t.client, requested := x.requested ++ t.written, answered := t.input } := by
  rw [Exchange.step, h]

namespace Flow

/-- The client has read a message, and written what it did of the script. -/
theorem read {first : Message} (h : Flow sh start x p wrote heard (first :: flight) lead more answers)
    (client : Client) {wrote' : Nat} {said : List Message} (rest : Bytes)
    (hwrote : wrote ≤ wrote') (hle : wrote' ≤ stripes sh.rawInfo + 1)
    (hsaid : (script sh).take wrote' = (script sh).take wrote ++ said) {lead' more' answers' : List Message}
    (hqueued : flight ++ x.waiting = lead' ++ more')
    (hanswers : (more' ++ held x.host).filter (· ≠ .keepAlive) = answers') :
    let x' := { x with
      client := client
      requested := x.requested ++ said.flatMap Message.encode
      answered := rest }
    Flow sh start x' p wrote' heard flight lead' more' answers' ∧
      due sh start x' p heard flight + 1 = due sh start x p heard (first :: flight) ∧
      load sh start x' p heard flight + 1 = load sh start x p heard (first :: flight) := by
  intro x'
  have hheard := h.heard_le
  refine ⟨⟨h.host, h.lastSent, h.lastSeen, h.named, hheard.trans hwrote, hle, ?_, h.written, hqueued,
    hanswers, h.single⟩, ?_, ?_⟩
  · have hlength : heard ≤ ((script sh).take wrote).length := by
      have := h.wrote_le
      simp
      omega
    show x.requested ++ said.flatMap Message.encode = _
    rw [h.requested, hsaid, List.drop_append_of_le_length hlength, List.flatMap_append]
  · unfold due
    show flight.length + x.waiting.length + (held x.host).length + _ + _ + 1 = _
    rw [List.length_cons]
    omega
  · unfold load
    show flight.length + 2 * x.waiting.length + 3 * (held x.host).length + _ + _ + 1 = _
    rw [List.length_cons]
    omega

end Flow

/-- A fetch under way: what passes, how far the client is, and the frames it has left to read. -/
structure Under (sh : Shared) (start : Nat) (x : Exchange) (p : Peer) (wrote heard : Nat) (pre : Bytes)
    (flight : List Message) : Prop where
  flow : ∃ lead more answers, Flow sh start x p wrote heard flight lead more answers ∧
    Stage sh heard (due sh start x p heard flight) x.client wrote pre lead answers
  answered : x.answered = pre ++ flight.flatMap Message.encode
  bound : due sh start x p heard flight ≤ 2 * stripes sh.rawInfo + 5

/-- The client takes the first message in flight, and the fetch goes on. -/
theorem Flow.taken {first : Message}
    (h : Flow sh start x p wrote heard (first :: flight) lead more answers)
    (hbound : due sh start x p heard (first :: flight) ≤ 2 * stripes sh.rawInfo + 5)
    {client : Client} {wrote' : Nat} (said : List Message) {lead' more' answers' : List Message}
    (hturn : x.client.turn sha1 toLowercase sh.infoHash false true x.answered =
      ⟨client, flight.flatMap Message.encode, said.flatMap Message.encode⟩)
    (hwrote : wrote ≤ wrote') (hle : wrote' ≤ stripes sh.rawInfo + 1)
    (hsaid : (script sh).take wrote' = (script sh).take wrote ++ said)
    (hqueued : flight ++ x.waiting = lead' ++ more')
    (hanswers : (more' ++ held x.host).filter (· ≠ .keepAlive) = answers')
    (hstage : ∀ left, left + 1 = due sh start x p heard (first :: flight) →
      Stage sh heard left client wrote' [] lead' answers') (pre : Bytes) :
    ∃ wrote' pre' flight',
      Under sh start (x.step sha1 toLowercase sh dest .turn) p wrote' heard pre' flight' ∧
      load sh start (x.step sha1 toLowercase sh dest .turn) p heard flight' + pre'.length <
        load sh start x p heard (first :: flight) + pre.length := by
  obtain ⟨hflow, hdue, hload⟩ := h.read client (flight.flatMap Message.encode) hwrote hle
    hsaid hqueued hanswers
  have hstep : x.step sha1 toLowercase sh dest .turn = { x with
      client := client
      requested := x.requested ++ said.flatMap Message.encode
      answered := flight.flatMap Message.encode } := step_turn hturn
  rw [hstep]
  refine ⟨wrote', [], flight, ⟨⟨lead', more', answers', hflow, hstage _ hdue⟩, rfl, by omega⟩, ?_⟩
  rw [List.length_nil]
  omega

/-- A turn of the client: nothing has come, or the torrent is there, or the fetch goes on. -/
theorem Under.turn (dest : DestHash) {pre : Bytes} (h : Under sh start x p wrote heard pre flight)
    (hoffers : Offers sha1 toLowercase sh m) :
    (x.step sha1 toLowercase sh dest .turn = x ∧ ¬ Helps x wrote heard .turn) ∨
    Ended sh m (x.step sha1 toLowercase sh dest .turn) ∨
    ∃ wrote' pre' flight',
      Under sh start (x.step sha1 toLowercase sh dest .turn) p wrote' heard pre' flight' ∧
      load sh start (x.step sha1 toLowercase sh dest .turn) p heard flight' + pre'.length <
        load sh start x p heard flight + pre.length := by
  obtain ⟨⟨lead, more, answers, hflow, hstage⟩, hanswered, hbound⟩ := h
  have hpos := hoffers.pos
  generalize hclient : x.client = client at hstage
  cases hstage with
  | @shaking bits hbits =>
      right; right
      have hturn : x.client.turn sha1 toLowercase sh.infoHash false true x.answered =
          ⟨.greeting METADATA_GREETING_FRAMES, flight.flatMap Message.encode,
            Client.ourExtensionHandshake.encode⟩ := by
        rw [hclient, hanswered]
        exact turn_shaking hoffers.infoHash hoffers.peerId _
      have hheard : heard = 0 := Nat.le_zero.1 hflow.heard_le
      rw [step_turn hturn]
      refine ⟨1, [], flight, ⟨⟨_, more, [], ?_, .greeting hbits⟩, rfl, hbound⟩, ?_⟩
      · refine ⟨hflow.host, hflow.lastSent, hflow.lastSeen, hflow.named, ?_, ?_, ?_, hflow.written,
          hflow.queued, hflow.answers, hflow.single⟩
        · omega
        · omega
        · have hrequested := hflow.requested
          rw [hheard] at hrequested ⊢
          show x.requested ++ _ = _
          rw [hrequested]
          simp [script]
      · rw [length_handshake hoffers.infoHash hoffers.peerId]
        show load sh start x p heard flight + 0 < _
        exact Nat.add_lt_add_left (by decide) _
  | @greeting bits hbits =>
      have hqueued := hflow.queued
      cases flight with
      | nil => exact .inl ⟨turn_nothing hanswered (.inl ⟨_, hclient⟩), not_not.2 hanswered⟩
      | cons first flight =>
          right
          obtain ⟨rfl, hrest⟩ := List.cons.inj hqueued
          rcases Nat.lt_or_ge bits.length METADATA_FRAME with hlt | hge
          · right
            refine hflow.taken hbound [] ?_ le_rfl (by omega) (List.append_nil _).symm hrest
              hflow.answers (fun _ _ => .greeted) _
            have hframed : Framed (.bitfield bits) := ⟨trivial, hlt⟩
            rw [hclient, hanswered]
            refine (turn_greeting hframed _).trans ?_
            rw [greet_bitfield]
            rfl
          · -- the piece set alone is too long
            left
            have hread : Wire.readFrame METADATA_FRAME ((Message.bitfield bits).encode ++
                flight.flatMap Message.encode) = .error .oversized :=
              Wire.readFrame_oversized (m := .bitfield bits) hbits.lt_max
                ((Nat.min_le_left _ _).trans_lt (Nat.lt_succ_of_le hge)) _
            have hturn : x.client.turn sha1 toLowercase sh.infoHash false true x.answered =
                ⟨.done (.error .io), x.answered, []⟩ := by
              rw [hclient, hanswered]
              simp [Client.turn, hread]
            rw [step_turn hturn]
            exact .failed (fun hsmall => absurd (hbits.lt_frame hsmall) (Nat.not_lt.2 hge)) rfl
  | greeted =>
      have hqueued := hflow.queued
      cases flight with
      | nil => exact .inl ⟨turn_nothing hanswered (.inl ⟨_, hclient⟩), not_not.2 hanswered⟩
      | cons first flight =>
          right; right
          obtain ⟨rfl, hrest⟩ := List.cons.inj hqueued
          have hheard := hflow.heard_le
          have hturn : x.client.turn sha1 toLowercase sh.infoHash false true x.answered =
              ⟨fetched sha1 toLowercase sh (grant sh) 0, flight.flatMap Message.encode,
                (Client.requests OUR_METADATA_ID (stripes sh.rawInfo)).flatMap Message.encode⟩ := by
            have hlength := length_ourExtensionHandshake_le sh
            have hframed : Framed (.extended 0 sh.ourExtensionHandshake) := by
              refine ⟨trivial, ?_⟩
              show sh.ourExtensionHandshake.length + 2 ≤ METADATA_FRAME
              unfold METADATA_FRAME
              omega
            rw [hclient, hanswered]
            refine (turn_greeting hframed _).trans ?_
            rw [greet_hello hoffers.ne hoffers.le]
            rfl
          refine hflow.taken hbound _ hturn (by omega) le_rfl ?_ hrest hflow.answers
            (fun left hleft => ?_) _
          · rw [List.take_of_length_le (by rw [length_script])]
            rfl
          · rw [fetched_of_ne (by omega)]
            have hgrant : left ≤ grant sh := by
              unfold grant METADATA_FRAME_SLACK
              omega
            have hstage := @Stage.fetching sh heard left 0 (grant sh) hpos (Nat.zero_le _)
              (Nat.zero_le _) hgrant
            have hnone : heard - 1 - 0 = 0 := by omega
            rw [hnone] at hstage
            exact hstage
  | @fetching i frames hi hmax hheard hframes =>
      have hqueued := hflow.queued
      have hanswers := hflow.answers
      -- something is still to come: the torrent has not heard it all, or it holds an answer
      have hdue : 0 < due sh start x p heard flight := by
        unfold due
        by_cases hall : heard = stripes sh.rawInfo + 1
        · have hsome := congrArg List.length hanswers
          have hfilter := List.length_filter_le (· ≠ Message.keepAlive) (more ++ held x.host)
          have hmore := congrArg List.length hqueued
          rw [hsome] at hfilter
          rw [List.length_append, List.nil_append] at hmore
          rw [List.length_map, List.length_range', List.length_append] at hfilter
          omega
        · have hheard := hflow.heard_le
          omega
      obtain ⟨frames, rfl⟩ : ∃ left, frames = left + 1 := ⟨frames - 1, by omega⟩
      cases flight with
      | nil => exact .inl ⟨turn_nothing hanswered (.inr ⟨_, _, hclient⟩), not_not.2 hanswered⟩
      | cons first flight =>
          have hall : (script sh).take (stripes sh.rawInfo + 1) =
              (script sh).take (stripes sh.rawInfo + 1) ++ [] := (List.append_nil _).symm
          rw [List.nil_append] at hqueued
          rw [← hqueued] at hanswers
          rcases Decidable.em (first = .keepAlive) with rfl | hsays
          · right; right
            have hturn : x.client.turn sha1 toLowercase sh.infoHash false true x.answered =
                ⟨fetched sha1 toLowercase sh frames i, flight.flatMap Message.encode, []⟩ := by
              have hframed : Framed .keepAlive := ⟨trivial, Nat.zero_le _⟩
              rw [hclient, hanswered]
              refine (turn_fetching hframed _).trans ?_
              rw [collect_keepAlive]
              rfl
            refine hflow.taken hbound [] hturn le_rfl le_rfl hall (List.nil_append _).symm
              hanswers (fun left hleft => ?_) _
            rw [fetched_of_ne hi.ne]
            exact .fetching hi hmax hheard (by omega)
          · -- the first answer of those to come
            have hfirst : first = nthAnswer sh i ∧ i + 1 ≤ heard - 1 ∧
                ((flight ++ x.waiting) ++ held x.host).filter (· ≠ .keepAlive) =
                  (List.range' (i + 1) (heard - 1 - (i + 1))).map (nthAnswer sh) := by
              rw [List.cons_append, List.cons_append, List.filter_cons_of_pos (by simpa using hsays)]
                at hanswers
              cases hcount : heard - 1 - i with
              | zero =>
                  rw [hcount] at hanswers
                  exact absurd hanswers (List.cons_ne_nil _ _)
              | succ k =>
                  rw [hcount] at hanswers
                  obtain ⟨hhead, htail⟩ := List.cons.inj hanswers
                  have hk : heard - 1 - (i + 1) = k := by omega
                  rw [hk]
                  exact ⟨hhead, by omega, htail⟩
            obtain ⟨rfl, hnext, hrest⟩ := hfirst
            have hfew := hoffers.few
            have hframed : Framed (nthAnswer sh i) := framed_answer sh (by unfold U32_MAX; omega) _
            rcases hmax.lt_or_eq with hless | rfl
            · have hallowed : decide (i < MAX_METADATA_REQUESTS_PER_TICK) = true :=
                decide_eq_true hless
              have hturn : x.client.turn sha1 toLowercase sh.infoHash false true x.answered =
                  ⟨fetched sha1 toLowercase sh frames (i + 1), flight.flatMap Message.encode, []⟩ := by
                rw [hclient, hanswered]
                refine (turn_fetching hframed _).trans ?_
                rw [nthAnswer, hallowed, collect_answer hoffers.le hi]
                rfl
              rcases Nat.lt_or_ge (i + 1) (stripes sh.rawInfo) with hlt | hge
              · right; right
                refine hflow.taken hbound [] hturn le_rfl le_rfl hall
                  (List.nil_append _).symm hrest (fun left hleft => ?_) _
                rw [fetched_of_ne hlt.ne]
                exact .fetching hlt hless hnext (by omega)
              · right; left
                have hlast : i + 1 = stripes sh.rawInfo := by omega
                rw [step_turn hturn, hlast]
                exact .fetched (hlast.ge.trans hless) (fetched_all hoffers.hash hoffers.parse)
            · -- the allowance is used up
              right; left
              have hrefused : decide (MAX_METADATA_REQUESTS_PER_TICK < MAX_METADATA_REQUESTS_PER_TICK)
                  = false := decide_eq_false (lt_irrefl _)
              have hturn : x.client.turn sha1 toLowercase sh.infoHash false true x.answered =
                  ⟨Client.fail "peer rejected a metadata piece", flight.flatMap Message.encode, []⟩ := by
                rw [hclient, hanswered]
                refine (turn_fetching hframed _).trans ?_
                rw [nthAnswer, hrefused, collect_refusal (by decide)]
                rfl
              rw [step_turn hturn]
              exact .failed (Nat.not_le.2 hi) rfl

/-- While a fetch is under way, something always brings it on. -/
theorem Under.helped {pre : Bytes} (h : Under sh start x p wrote heard pre flight) :
    Helps x wrote heard .turn ∨ Helps x wrote heard .write ∨ (∃ pos, Helps x wrote heard (.send pos)) ∨
      ∀ env, Helps x wrote heard (.hear env) := by
  obtain ⟨⟨lead, more, answers, hflow, hstage⟩, hanswered, -⟩ := h
  by_contra! hnot
  obtain ⟨hturn, hwrite, hsend, env, hhear⟩ := hnot
  have hnothing : x.answered = [] := not_not.1 hturn
  have hwaiting : x.waiting = [] := not_not.1 hwrite
  have hsends : ∀ t ∈ x.host.tasks, t.sends = [] := by
    intro t ht
    obtain ⟨pos, hlt, rfl⟩ := List.getElem_of_mem ht
    by_contra hne
    exact hsend pos ⟨_, List.getElem?_eq_getElem hlt, hne⟩
  have hheld : held x.host = [] := by
    rw [held, System.unsent, List.flatMap_eq_nil_iff.2 hsends]
    rfl
  have hbusy : x.host.busy (.reader 0) = false := hflow.host.not_busy fun t ht _ => hsends t ht
  have hheard : ¬ heard < wrote := fun hlt => hhear ⟨hlt, hbusy⟩
  rw [hnothing] at hanswered
  obtain ⟨hpre, hflight⟩ := List.append_eq_nil_iff.1 hanswered.symm
  have hflight : flight = [] := by
    refine List.eq_nil_iff_forall_not_mem.2 fun m hm => ?_
    have hencode := List.flatMap_eq_nil_iff.1 hflight m hm
    exact absurd (List.append_eq_nil_iff.1 hencode).1 (List.cons_ne_nil _ _)
  have hqueued := hflow.queued
  rw [hflight, hwaiting] at hqueued
  generalize x.client = client at hstage
  cases hstage with
  | shaking _ => cases hqueued
  | greeting _ => cases hqueued
  | greeted => cases hqueued
  | @fetching i frames hi hmax hle hframes =>
      -- nothing is to come, so the torrent has heard nothing past the piece it waits for
      have hanswers := congrArg List.length hflow.answers
      have hmore : more = [] := hqueued.symm
      rw [hmore, hheld, List.length_map, List.length_range'] at hanswers
      have hnone : heard - 1 - i = 0 := hanswers.symm
      omega

end Exchange

end Clove.Torrent
