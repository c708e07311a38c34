import Clove.Torrent.Passage

/-!
# The allowance of a tick

A torrent answers so many requests for metadata between two ticks and rejects the rest.  A clove
asks for all the pieces at once.  An exchange whose threads never stop ends with the info dictionary
if it is no larger than the allowance, wherever the ticks fall; a larger one is refused when no tick
comes between (`exchanges_iff`).
-/

namespace Clove.Torrent

open Wire (Message Extensions)
open Bencode (Value)
open Utf8 (ascii)
open Metadata (MetadataMessage MetadataAssembler METADATA_PIECE_LEN MAX_METADATA_SIZE stripe stripes)

variable {sh : Shared} {p : Peer} {x : Exchange}

namespace Exchange

variable {sha1 toLowercase : Bytes → Bytes} {dest : DestHash} {peerId : Bytes} {start wrote heard : Nat}
  {flight lead more answers : List Message} {m : MetaInfo}

/-! ## Before the client is seated -/

/-- A torrent that seats nobody and has nothing to do. -/
structure Before (sh : Shared) (x : Exchange) : Prop where
  vacant : Vacant x.host.engine.st
  field : Announces sh x.host.engine.st.picker.haveField.bits
  idle : ∀ t ∈ x.host.tasks, t.drops = [] ∧ t.sends = [] ∧ t.refused = none
  queue : x.host.queues 0 = []
  running : x.host.stop = .running
  written : x.written = 0

/-- The moves of neither the client nor the attach. -/
def Move.isServing : Move → Bool
  | .turn => false
  | .attach => false
  | .announce => false
  | .register _ => false
  | _ => true

/-- The guest's allowance has been used by what was heard, and renewed only where that is no
matter. -/
structure Charged (sh : Shared) (p : Peer) (heard : Nat) : Prop where
  le : p.metadataRequests ≤ heard - 1
  ge : ¬ WithinAllowance sh → heard - 1 ≤ p.metadataRequests

/-- What the client has made of the torrent's handshake. -/
inductive Meeting (sh : Shared) : Client → Bytes → Bytes → Prop where
  | shaking : Meeting sh .shaking [] sh.ourHandshake.encode
  | greeting : Meeting sh (.greeting METADATA_GREETING_FRAMES) Client.ourExtensionHandshake.encode []

/-- How much may still happen in an exchange, and the moves that bring it on. -/
inductive Waits (sh : Shared) (dest : DestHash) (peerId : Bytes) (start : Nat) :
    ℕ → (Move → Prop) → Exchange → Prop where
  | coming {x : Exchange} : Before sh x → x.host.attaches = [] → x.client = .shaking →
      x.requested = (Client.ourHandshake sh.infoHash peerId).encode → x.answered = [] →
      Waits sh dest peerId start (8 * stripes sh.rawInfo + 116) (· = .attach) x
  | greeted {x : Exchange} : Before sh x → x.host.attaches = [⟨dest, .greeted ⟨true, false⟩⟩] →
      Meeting sh x.client x.requested x.answered →
      Waits sh dest peerId start (8 * stripes sh.rawInfo + 18 + x.answered.length) (· = .announce) x
  | announced {x : Exchange} {field : Bitfield} : Before sh x →
      x.host.attaches = [⟨dest, .announced ⟨true, false⟩ field⟩] →
      Announces sh field.bits → Meeting sh x.client x.requested x.answered →
      Waits sh dest peerId start (8 * stripes sh.rawInfo + 17 + x.answered.length)
        (fun e => ∃ env, e = .register env) x
  | under {x : Exchange} {p : Peer} {wrote heard : Nat} {pre : Bytes} {flight : List Message} :
      Under sh start x p wrote heard pre flight → Charged sh p heard →
      Waits sh dest peerId start (load sh start x p heard flight + pre.length)
        (Helps x wrote heard) x

/-- The client reads what it has of the torrent's handshake. -/
theorem Meeting.turn (sha1 toLowercase : Bytes → Bytes) (dest : DestHash)
    (h : Meeting sh x.client x.requested x.answered)
    (hinfo : sh.infoHash.length = 20) (hpeer : sh.peerId.length = 20) :
    ∃ client requested answered, x.step sha1 toLowercase sh dest .turn =
        { x with client := client, requested := requested, answered := answered } ∧
      Meeting sh client requested answered ∧
      (answered.length < x.answered.length ∨
        client = x.client ∧ requested = x.requested ∧ answered = x.answered) := by
  obtain ⟨client, requested, answered, host, written⟩ := x
  cases h with
  | shaking =>
      have hturn : Client.turn sha1 toLowercase sh.infoHash false true sh.ourHandshake.encode
          .shaking = ⟨.greeting METADATA_GREETING_FRAMES, [],
            Client.ourExtensionHandshake.encode⟩ := by
        simpa only [List.append_nil] using turn_shaking hinfo hpeer []
      refine ⟨_, _, _, step_turn hturn, .greeting, .inl ?_⟩
      show 0 < sh.ourHandshake.encode.length
      rw [length_handshake (h := sh.ourHandshake) hinfo hpeer]
      decide
  | greeting => exact ⟨_, _, _, turn_nothing rfl (.inl ⟨63, rfl⟩), .greeting, .inr ⟨rfl, rfl, rfl⟩⟩

namespace Before

variable (sha1 toLowercase dest)

theorem seated (h : Before sh x) : x.seated = false := by
  rw [Exchange.seated, h.vacant.peers]
  rfl

theorem drop (h : Before sh x) (pos now : Nat) : x.step sha1 toLowercase sh dest (.drop pos now) = x := by
  rw [Exchange.step, drop_of_calm fun t ht => ⟨(h.idle t ht).1, (h.idle t ht).2.2⟩]

theorem send (h : Before sh x) (pos : Nat) : x.step sha1 toLowercase sh dest (.send pos) = x := by
  simp only [Exchange.step, System.step, System.sendNext]
  cases ht : x.host.tasks[pos]? with
  | none => rfl
  | some t =>
      obtain ⟨hdrops, hsends, hrefused⟩ := h.idle t (List.mem_of_getElem? ht)
      obtain ⟨thread, drops, sends, refused⟩ := t
      obtain rfl : drops = [] := hdrops
      obtain rfl : sends = [] := hsends
      rfl

theorem hear (h : Before sh x) (env : Env) : x.step sha1 toLowercase sh dest (.hear env) = x := by
  rw [Exchange.step, hearNext, h.seated]
  rfl

theorem write (h : Before sh x) : x.step sha1 toLowercase sh dest .write = x := by
  rw [Exchange.step, writeNext, h.seated]
  rfl

/-- A tick of a torrent without peers sends nothing. -/
theorem tick (h : Before sh x) (env : Env) : ∃ host,
    x.step sha1 toLowercase sh dest (.tick env) = { x with host := host } ∧
      Before sh { x with host := host } ∧ host.attaches = x.host.attaches := by
  by_cases hbusy : x.host.busy .maintenance = true
  · refine ⟨x.host, ?_, h, rfl⟩
    rw [Exchange.step, System.step, if_pos hbusy]
  · obtain ⟨hjob, hvacant, hfield⟩ := maintain_vacant env h.vacant
    refine ⟨x.host.leave .maintenance (maintain env x.host.engine), ?_,
      ⟨hvacant, hfield ▸ h.field, ?_, h.queue, h.running, h.written⟩, rfl⟩
    · rw [Exchange.step, System.step, if_neg hbusy]
    · intro t ht
      rcases List.mem_append.1 ht with ht | ht
      · exact h.idle t ht
      · rw [List.mem_singleton.1 ht, hjob]
        exact ⟨rfl, rfl, rfl⟩

/-- A move of neither the client nor the attach. -/
theorem serving (h : Before sh x) {e : Move} (he : e.isServing = true) : ∃ host,
    x.step sha1 toLowercase sh dest e = { x with host := host } ∧
      Before sh { x with host := host } ∧ host.attaches = x.host.attaches := by
  cases e with
  | turn => cases he
  | attach => cases he
  | announce => cases he
  | register env => cases he
  | hear env => exact ⟨x.host, h.hear _ _ _ env, h, rfl⟩
  | tick env => exact h.tick sha1 toLowercase dest env
  | drop pos now => exact ⟨x.host, h.drop _ _ _ pos now, h, rfl⟩
  | send pos => exact ⟨x.host, h.send _ _ _ pos, h, rfl⟩
  | write => exact ⟨x.host, h.write _ _ _, h, rfl⟩

/-- The client's handshake is read and answered. -/
theorem attach (h : Before sh x) (hattaches : x.host.attaches = [])
    (hrequested : x.requested = (Client.ourHandshake sh.infoHash peerId).encode)
    (hinfo : sh.infoHash.length = 20) (hpeer : peerId.length = 20) (hne : peerId ≠ sh.peerId) :
    ∃ host, x.step sha1 toLowercase sh dest .attach =
        { x with requested := [], answered := x.answered ++ sh.ourHandshake.encode, host := host } ∧
      Before sh { x with requested := [], answered := x.answered ++ sh.ourHandshake.encode, host := host } ∧
      host.attaches = [⟨dest, .greeted ⟨true, false⟩⟩] := by
  obtain ⟨htake, hdrop⟩ := drop_handshake (h := Client.ourHandshake sh.infoHash peerId) hinfo hpeer []
  have hlength := length_handshake (h := Client.ourHandshake sh.infoHash peerId) hinfo hpeer
  have hparse := Wire.handshake_parse_encode (h := Client.ourHandshake sh.infoHash peerId) hinfo hpeer
  rw [List.append_nil, ← hrequested] at htake hdrop
  rw [← hrequested] at hlength hparse
  have hunbanned : dest ∉ x.host.engine.st.banned := by
    rw [h.vacant.banned]
    exact List.not_mem_nil
  refine ⟨{ x.host with attaches := x.host.attaches ++ [⟨dest, .greeted ⟨true, false⟩⟩] }, ?_,
    ⟨h.vacant, h.field, h.idle, h.queue, h.running, h.written⟩, ?_⟩
  · rw [Exchange.step, attachNext, if_neg (by rw [hattaches, hlength]; simp), htake, hdrop, hparse]
    simp only [Client.ourHandshake, ne_eq, not_true_eq_false, hunbanned, hne, or_self, if_false,
      System.step, h.running, if_true]
  · rw [hattaches]
    rfl

/-- The piece set is read. -/
theorem announce (h : Before sh x) {theirs : Extensions}
    (hattaches : x.host.attaches = [⟨dest, .greeted theirs⟩]) :
    ∃ host field, x.step sha1 toLowercase sh dest .announce = { x with host := host } ∧
      Before sh { x with host := host } ∧ host.attaches = [⟨dest, .announced theirs field⟩] ∧
      Announces sh field.bits := by
  refine ⟨x.host.setPhase 0 (.announced theirs x.host.engine.st.picker.haveField),
    x.host.engine.st.picker.haveField, ?_,
    ⟨h.vacant, h.field, h.idle, h.queue, h.running, h.written⟩, ?_, h.field⟩
  · simp only [Exchange.step, System.step, hattaches, List.getElem?_cons_zero]
  · simp [System.setPhase, hattaches]

/-- The client is seated, and the piece set and the extension handshake are on its queue. -/
theorem register (h : Before sh x) {field : Bitfield}
    (hattaches : x.host.attaches = [⟨dest, .announced ⟨true, false⟩ field⟩]) {env : Env}
    (htime : start ≤ env.now) (hwrote : wrote ≤ stripes sh.rawInfo + 1)
    (hrequested : x.requested = ((script sh).take wrote).flatMap Message.encode) : ∃ host,
    x.step sha1 toLowercase sh dest (.register env) = { x with host := host } ∧
      host.queues 0 = [.bitfield field.bits, .extended 0 sh.ourExtensionHandshake] ∧
      held host = [] ∧
      Flow sh start { x with host := host } (newPeer sh env.now 0 dest false) wrote 0 []
        [.bitfield field.bits, .extended 0 sh.ourExtensionHandshake] [] [] := by
  obtain ⟨hid, hseat⟩ := registerPeer_vacant sh env h.vacant dest false
  obtain ⟨host, hhost⟩ : ∃ host, host = (({ x.host with
      engine := x.host.engine.modifyState fun _ => (registerPeer sh env dest false
        x.host.engine.st).1 } : System).setQueue 0 (opening sh ⟨true, false⟩ field)).setPhase 0 .over :=
    ⟨_, rfl⟩
  have hqueue : host.queues 0 = [.bitfield field.bits, .extended 0 sh.ourExtensionHandshake] := by
    rw [hhost]
    rfl
  have htasks : host.tasks = x.host.tasks := by
    rw [hhost]
    rfl
  have hheld : held host = [] := by
    rw [held, System.unsent, htasks, List.flatMap_eq_nil_iff.2 fun t ht => (h.idle t ht).2.1]
    rfl
  have hattending : Attending host (newPeer sh env.now 0 dest false) := by
    refine ⟨?_, guest_newPeer sh _ _ _ _, rfl, fun t ht => ?_, dest, ?_⟩
    · rw [hhost]
      exact hseat
    · obtain ⟨hdrops, hsends, hrefused⟩ := h.idle t (htasks ▸ ht)
      refine ⟨hdrops, hrefused, ?_⟩
      rw [hsends]
      exact fun o ho => absurd ho List.not_mem_nil
    · rw [hhost]
      simp [System.setPhase, System.setQueue, hattaches]
  have hwaiting : ({ x with host := host } : Exchange).waiting =
      [.bitfield field.bits, .extended 0 sh.ourExtensionHandshake] := by
    rw [waiting, hqueue, h.written]
    rfl
  refine ⟨host, ?_, hqueue, hheld, hattending, htime, htime, fun hne => absurd rfl hne, Nat.zero_le _,
    hwrote, hrequested, ?_, ?_, ?_, ?_⟩
  · simp only [Exchange.step, System.step, System.registerNext, hattaches, List.getElem?_cons_zero,
      Bool.false_and, hid, hhost]
  · show x.written ≤ (host.queues 0).length
    rw [h.written]
    exact Nat.zero_le _
  · rw [hwaiting]
    rfl
  · rw [hheld]
    rfl
  · rw [hheld]
    exact Nat.zero_le _

end Before

/-- What a client that is seated has written and has still to read. -/
theorem Meeting.stage {client : Client} {requested answered : Bytes}
    (h : Meeting sh client requested answered) {bits : Bytes} (hbits : Announces sh bits)
    (due : Nat) : ∃ wrote, wrote ≤ 1 ∧
      requested = ((script sh).take wrote).flatMap Message.encode ∧
      Stage sh 0 due client wrote answered [.bitfield bits, .extended 0 sh.ourExtensionHandshake] [] := by
  cases h with
  | shaking => exact ⟨0, by omega, rfl, .shaking hbits⟩
  | greeting => exact ⟨1, le_rfl, (List.append_nil _).symm, .greeting hbits⟩

/-- A move in time, which finds room on the client's queue, and is no tick where a tick would
matter. -/
structure Allowed (sh : Shared) (start : Nat) (x : Exchange) (e : Move) : Prop where
  timely : Timely start e
  tick : ¬ WithinAllowance sh → ∀ env, e ≠ .tick env
  room : ∀ pos, e = .send pos → x.waiting.length < OUTGOING_QUEUE

/-- A move while a fetch is under way. -/
theorem Under.step {pre : Bytes} (h : Under sh start x p wrote heard pre flight)
    (hcharged : Charged sh p heard) (hoffers : Offers sha1 toLowercase sh m) {e : Move}
    (hallowed : Allowed sh start x e) :
    Machine.Advance (Waits sh dest peerId start) (Ended sh m)
      (load sh start x p heard flight + pre.length) (Helps x wrote heard) e
      (x.step sha1 toLowercase sh dest e) := by
  have hsame : x.step sha1 toLowercase sh dest e = x → ¬ Helps x wrote heard e →
      Machine.Advance (Waits sh dest peerId start) (Ended sh m)
        (load sh start x p heard flight + pre.length) (Helps x wrote heard) e
        (x.step sha1 toLowercase sh dest e) := by
    intro hx hnot
    rw [hx]
    exact .still hnot (.under h hcharged)
  obtain ⟨⟨lead, more, answers, hflow, hstage⟩, hanswered, hbound⟩ := id h
  have hfew := hoffers.few
  cases e with
  | turn =>
      rcases h.turn dest hoffers with ⟨hx, hnot⟩ | hdone | ⟨wrote', pre', flight', hunder, hlt⟩
      · exact hsame hx hnot
      · exact .goal hdone
      · exact .lower hlt (.under hunder hcharged)
  | attach => exact hsame hflow.attach not_false
  | announce => exact hsame hflow.announce not_false
  | register env => exact hsame (hflow.register env) not_false
  | hear env =>
      rcases hflow.hear sha1 toLowercase dest (by unfold U32_MAX; omega) hallowed.timely with
        ⟨hx, hnot⟩ | ⟨p', hflow', hclient, hinput, hcount, hdue, hload⟩
      · exact hsame hx hnot
      · have hle := hflow'.heard_le.trans hflow.wrote_le
        -- the allowance is used up exactly by as many requests
        have hgranted : heard ≠ 0 → decide (p.metadataRequests < MAX_METADATA_REQUESTS_PER_TICK) =
            decide (heard - 1 < MAX_METADATA_REQUESTS_PER_TICK) := by
          intro hne
          have hcount := hcharged.le
          rcases Decidable.em (WithinAllowance sh) with hsmall | hlarge
          · have hsmall : stripes sh.rawInfo ≤ MAX_METADATA_REQUESTS_PER_TICK := hsmall
            rw [decide_eq_true (by omega), decide_eq_true (by omega)]
          · rw [le_antisymm hcount (hcharged.ge hlarge)]
        have hsaid : (if heard = 0 then [] else
            [answer sh (p.metadataRequests < MAX_METADATA_REQUESTS_PER_TICK) (heard - 1)]) =
            if heard = 0 then [] else [nthAnswer sh (heard - 1)] := by
          split
          · rfl
          · rename_i hne
            rw [nthAnswer, hgranted hne]
        rw [hsaid] at hflow'
        refine .lower (Nat.add_lt_add_right hload _) (.under ⟨⟨lead, more, _, hflow', ?_⟩, ?_, ?_⟩ ?_)
        · rw [hclient]
          exact hstage.hear hflow'.heard_le hdue
        · rw [hinput, hanswered]
        · omega
        · refine ⟨?_, fun hlarge => ?_⟩
          · have hused := hcharged.le
            rw [hcount]
            split <;> omega
          · have hused := hcharged.ge hlarge
            rw [hcount]
            split <;> omega
  | tick env =>
      obtain ⟨p', hflow', hfewer, hdue, hload⟩ :=
        hflow.tick sha1 toLowercase dest hallowed.timely
      have hunder : Under sh start (x.step sha1 toLowercase sh dest (.tick env)) p' wrote heard pre
          flight := ⟨⟨lead, more, answers, hflow', hstage.mono hdue⟩, hanswered, by omega⟩
      have hcharged' : Charged sh p' heard :=
        ⟨hfewer.trans hcharged.le, fun hlarge => absurd rfl (hallowed.tick hlarge env)⟩
      rcases hload with hlt | ⟨heq, hhelps⟩
      · exact .lower (Nat.add_lt_add_right hlt _) (.under hunder hcharged')
      · have hwaits : Waits sh dest peerId start _ _ _ := .under hunder hcharged'
        rw [heq, hhelps] at hwaits
        exact .still not_false hwaits
  | drop pos now => exact hsame (hflow.drop pos now) not_false
  | send pos =>
      have hroom := hallowed.room pos rfl
      rcases hflow.send sha1 toLowercase dest hroom pos with
        ⟨hx, hnot⟩ | ⟨more', hflow', hdue, hload⟩
      · exact hsame hx hnot
      · exact .lower (Nat.add_lt_add_right hload _) (.under ⟨⟨lead, more', answers, hflow',
          hstage.mono hdue.le⟩, hanswered, by omega⟩ hcharged)
  | write =>
      rcases hflow.write sha1 toLowercase dest with
        ⟨hx, hnot⟩ | ⟨msg, hflow', hclient, hinput, hdue, hload⟩
      · exact hsame hx hnot
      · refine .lower (Nat.add_lt_add_right hload _) (.under ⟨⟨lead, more, answers, hflow', ?_⟩, ?_,
          by omega⟩ hcharged)
        · rw [hclient]
          exact hstage.mono hdue.le
        · rw [hinput, hanswered, List.flatMap_append, List.append_assoc]
          simp

section

variable (hoffers : Offers sha1 toLowercase sh m) (e : Move)

include hoffers

/-- A move before the client's handshake is read. -/
theorem step_coming (hbefore : Before sh x) (hattaches : x.host.attaches = [])
    (hclient : x.client = .shaking)
    (hrequested : x.requested = (Client.ourHandshake sh.infoHash peerId).encode)
    (hanswered : x.answered = []) (hpeer : peerId.length = 20) (hne : peerId ≠ sh.peerId) :
    Machine.Advance (Waits sh dest peerId start) (Ended sh m)
      (8 * stripes sh.rawInfo + 116) (· = .attach) e (x.step sha1 toLowercase sh dest e) := by
  have hwaits : ∀ host, Before sh { x with host := host } → host.attaches = x.host.attaches →
      Waits sh dest peerId start (8 * stripes sh.rawInfo + 116) (· = .attach)
        { x with host := host } := fun host hbefore hsame =>
    .coming hbefore (hsame.trans hattaches) hclient hrequested hanswered
  cases he : e.isServing with
  | true =>
      obtain ⟨host, hstep, hbefore', hsame⟩ := hbefore.serving sha1 toLowercase dest he
      rw [hstep]
      refine .still ?_ (hwaits host hbefore' hsame)
      rintro rfl
      cases he
  | false =>
      cases e with
      | turn =>
          have hturn : x.client.turn sha1 toLowercase sh.infoHash false true x.answered =
              ⟨x.client, x.answered, []⟩ := by
            rw [hclient, hanswered]
            rfl
          rw [step_turn hturn]
          refine .still (by rintro ⟨⟩) ?_
          simpa using hwaits x.host hbefore rfl
      | attach =>
          obtain ⟨host, hstep, hbefore', hgreeted⟩ := hbefore.attach sha1 toLowercase dest hattaches
            hrequested hoffers.infoHash hpeer hne
          rw [hstep]
          refine .lower ?_ (.greeted hbefore' hgreeted ?_)
          · show _ + 18 + (x.answered ++ sh.ourHandshake.encode).length < _
            rw [hanswered, List.nil_append, length_handshake hoffers.infoHash hoffers.peerId]
            unfold Wire.HANDSHAKE_LEN
            omega
          · rw [hanswered, hclient]
            exact .shaking
      | announce =>
          have hstep : x.step sha1 toLowercase sh dest .announce = x := by
            simp only [Exchange.step, System.step, hattaches, List.getElem?_nil]
          rw [hstep]
          exact .still (by rintro ⟨⟩) (hwaits x.host hbefore rfl)
      | register env =>
          have hstep : x.step sha1 toLowercase sh dest (.register env) = x := by
            simp only [Exchange.step, System.step, System.registerNext, hattaches, List.getElem?_nil]
          rw [hstep]
          exact .still (by rintro ⟨⟩) (hwaits x.host hbefore rfl)
      | _ => cases he

/-- A move after the handshakes. -/
theorem step_greeted (hbefore : Before sh x)
    (hattaches : x.host.attaches = [⟨dest, .greeted ⟨true, false⟩⟩])
    (hmeeting : Meeting sh x.client x.requested x.answered) :
    Machine.Advance (Waits sh dest peerId start) (Ended sh m)
      (8 * stripes sh.rawInfo + 18 + x.answered.length) (· = .announce) e
      (x.step sha1 toLowercase sh dest e) := by
  cases he : e.isServing with
  | true =>
      obtain ⟨host, hstep, hbefore', hsame⟩ := hbefore.serving sha1 toLowercase dest he
      rw [hstep]
      refine .still ?_ (.greeted hbefore' (hsame.trans hattaches) hmeeting)
      rintro rfl
      cases he
  | false =>
      cases e with
      | turn =>
          obtain ⟨client, requested, answered, hstep, hmeeting', hless⟩ := hmeeting.turn
            sha1 toLowercase dest hoffers.infoHash hoffers.peerId
          rw [hstep]
          have hwaits : Waits sh dest peerId start _ _
              { x with client := client, requested := requested, answered := answered } :=
            .greeted ⟨hbefore.vacant, hbefore.field, hbefore.idle, hbefore.queue, hbefore.running,
              hbefore.written⟩ hattaches hmeeting'
          rcases hless with hlt | ⟨rfl, rfl, rfl⟩
          · exact .lower (Nat.add_lt_add_left hlt _) hwaits
          · exact .still (by rintro ⟨⟩) hwaits
      | attach =>
          have hstep : x.step sha1 toLowercase sh dest .attach = x := by
            rw [Exchange.step, attachNext, if_pos (.inl (by simp [hattaches]))]
          rw [hstep]
          exact .still (by rintro ⟨⟩) (.greeted hbefore hattaches hmeeting)
      | announce =>
          obtain ⟨host, field, hstep, hbefore', hannounced, hfield⟩ :=
            hbefore.announce sha1 toLowercase dest hattaches
          rw [hstep]
          exact .lower (Nat.add_lt_add_right (Nat.lt_succ_self _) _)
            (.announced hbefore' hannounced hfield hmeeting)
      | register env =>
          have hstep : x.step sha1 toLowercase sh dest (.register env) = x := by
            simp only [Exchange.step, System.step, System.registerNext, hattaches,
              List.getElem?_cons_zero]
          rw [hstep]
          exact .still (by rintro ⟨⟩) (.greeted hbefore hattaches hmeeting)
      | _ => cases he

/-- A move after the piece set is read. -/
theorem step_announced {field : Bitfield} (hbefore : Before sh x)
    (hattaches : x.host.attaches = [⟨dest, .announced ⟨true, false⟩ field⟩])
    (hfield : Announces sh field.bits)
    (hmeeting : Meeting sh x.client x.requested x.answered) (htime : Timely start e) :
    Machine.Advance (Waits sh dest peerId start) (Ended sh m)
      (8 * stripes sh.rawInfo + 17 + x.answered.length) (fun e => ∃ env, e = .register env) e
      (x.step sha1 toLowercase sh dest e) := by
  cases he : e.isServing with
  | true =>
      obtain ⟨host, hstep, hbefore', hsame⟩ := hbefore.serving sha1 toLowercase dest he
      rw [hstep]
      refine .still ?_ (.announced hbefore' (hsame.trans hattaches) hfield hmeeting)
      rintro ⟨env, rfl⟩
      cases he
  | false =>
      cases e with
      | turn =>
          obtain ⟨client, requested, answered, hstep, hmeeting', hless⟩ := hmeeting.turn
            sha1 toLowercase dest hoffers.infoHash hoffers.peerId
          rw [hstep]
          have hwaits : Waits sh dest peerId start _ _
              { x with client := client, requested := requested, answered := answered } :=
            .announced ⟨hbefore.vacant, hbefore.field, hbefore.idle, hbefore.queue, hbefore.running,
              hbefore.written⟩ hattaches hfield hmeeting'
          rcases hless with hlt | ⟨rfl, rfl, rfl⟩
          · exact .lower (Nat.add_lt_add_left hlt _) hwaits
          · exact .still (by rintro ⟨_, ⟨⟩⟩) hwaits
      | attach =>
          have hstep : x.step sha1 toLowercase sh dest .attach = x := by
            rw [Exchange.step, attachNext, if_pos (.inl (by simp [hattaches]))]
          rw [hstep]
          exact .still (by rintro ⟨_, ⟨⟩⟩) (.announced hbefore hattaches hfield hmeeting)
      | announce =>
          have hstep : x.step sha1 toLowercase sh dest .announce = x := by
            simp only [Exchange.step, System.step, hattaches, List.getElem?_cons_zero]
          rw [hstep]
          exact .still (by rintro ⟨_, ⟨⟩⟩) (.announced hbefore hattaches hfield hmeeting)
      | register env =>
          obtain ⟨wrote, hwrote, hrequested, hstage⟩ := hmeeting.stage hfield
            (2 * stripes sh.rawInfo + 5)
          obtain ⟨host, hstep, hqueue, hheld, hflow⟩ :=
            hbefore.register sha1 toLowercase dest hattaches htime.1 (by omega) hrequested
          have hwaiting : ({ x with host := host } : Exchange).waiting.length = 2 := by
            rw [waiting, hqueue, hbefore.written]
            rfl
          have hspare := spare_le start (newPeer sh env.now 0 dest false)
          have hdue : due sh start { x with host := host } (newPeer sh env.now 0 dest false) 0 [] ≤
              2 * stripes sh.rawInfo + 5 := by
            unfold due
            rw [hwaiting, hheld]
            simp only [List.length_nil]
            omega
          have hload : load sh start { x with host := host } (newPeer sh env.now 0 dest false) 0 [] ≤
              8 * stripes sh.rawInfo + 16 := by
            unfold load
            rw [hwaiting, hheld]
            simp only [List.length_nil]
            omega
          rw [hstep]
          refine .lower ?_ (.under ⟨⟨_, _, _, hflow, hstage.mono hdue⟩, ?_, hdue⟩
            ⟨Nat.zero_le _, fun _ => Nat.zero_le _⟩)
          · show _ + x.answered.length < _
            omega
          · exact (List.append_nil _).symm
      | _ => cases he

/-- A move of an exchange. -/
theorem Waits.step {rank : ℕ} {helps : Move → Prop} (h : Waits sh dest peerId start rank helps x)
    (hpeer : peerId.length = 20) (hne : peerId ≠ sh.peerId) (hallowed : Allowed sh start x e) :
    Machine.Advance (Waits sh dest peerId start) (Ended sh m) rank helps e
      (x.step sha1 toLowercase sh dest e) := by
  cases h with
  | coming hbefore hattaches hclient hrequested hanswered =>
      exact step_coming hoffers e hbefore hattaches hclient hrequested hanswered hpeer hne
  | greeted hbefore hattaches hmeeting => exact step_greeted hoffers e hbefore hattaches hmeeting
  | announced hbefore hattaches hfield hmeeting =>
      exact step_announced hoffers e hbefore hattaches hfield hmeeting hallowed.timely
  | under hunder hcharged => exact hunder.step hcharged hoffers hallowed

end

/-! ## Within the allowance -/

/-- On a fair schedule what helps never runs out. -/
theorem Waits.recurs {schedule : ℕ → Move} {rank : ℕ} {helps : Move → Prop}
    (h : Waits sh dest peerId start rank helps x) (hfair : Fair schedule) :
    Machine.Recurs schedule helps := by
  intro k
  cases h with
  | coming _ _ _ _ _ => exact hfair.attach k
  | greeted _ _ _ => exact hfair.announce k
  | announced _ _ _ _ => exact hfair.register k
  | under hunder _ =>
      rcases hunder.helped with hturn | hwrite | ⟨pos, hsend⟩ | hhear
      · obtain ⟨j, hkj, hj⟩ := hfair.turn k
        exact ⟨j, hkj, by rwa [hj]⟩
      · obtain ⟨j, hkj, hj⟩ := hfair.write k
        exact ⟨j, hkj, by rwa [hj]⟩
      · obtain ⟨j, hkj, hj⟩ := hfair.send pos k
        exact ⟨j, hkj, by rwa [hj]⟩
      · obtain ⟨j, hkj, env, hj⟩ := hfair.hear k
        exact ⟨j, hkj, by rw [hj]; exact hhear env⟩

theorem Before.waiting_nil (h : Before sh x) : x.waiting = [] := by
  rw [waiting, h.queue, List.drop_nil]

/-- So little is asked for that there is always room on the client's queue. -/
theorem Waits.room {rank : ℕ} {helps : Move → Prop} (h : Waits sh dest peerId start rank helps x)
    (hsmall : WithinAllowance sh) : x.waiting.length < OUTGOING_QUEUE := by
  have hempty : Before sh x → x.waiting.length < OUTGOING_QUEUE := by
    intro hbefore
    rw [hbefore.waiting_nil]
    decide
  cases h with
  | coming hbefore _ _ _ _ => exact hempty hbefore
  | greeted hbefore _ _ => exact hempty hbefore
  | announced hbefore _ _ _ => exact hempty hbefore
  | under hunder _ =>
      have hbound := hunder.bound
      have hsmall : stripes sh.rawInfo ≤ MAX_METADATA_REQUESTS_PER_TICK := hsmall
      unfold due at hbound
      unfold MAX_METADATA_REQUESTS_PER_TICK at hsmall
      unfold OUTGOING_QUEUE
      omega

/-- An exchange within the allowance ends. -/
theorem Waits.ended (hoffers : Offers sha1 toLowercase sh m) (hsmall : WithinAllowance sh)
    (hpeer : peerId.length = 20) (hne : peerId ≠ sh.peerId) {schedule : ℕ → Move}
    (htime : ∀ k, Timely start (schedule k)) (hfair : Fair schedule) {rank : ℕ}
    {helps : Move → Prop} (h : Waits sh dest peerId start rank helps x) :
    ∃ k, Ended sh m (Machine.states (Exchange.step sha1 toLowercase sh dest) schedule x k) := by
  refine Machine.reaches (Waits sh dest peerId start) (k := 0)
    (fun rank helps t ht => ht.recurs hfair) (fun rank helps t k ht => ?_) h
  exact ht.step hoffers _ hpeer hne
    ⟨htime k, fun hlarge => absurd hsmall hlarge, fun _ _ => ht.room hsmall⟩

/-! ## Past the allowance -/

/-- What a step of the torrent may put on a queue. -/
theorem queues_step (sh : Shared) (a : Action) (s : System) (id : Nat) :
    (System.step sh a s).queues id = s.queues id ∨
      (∃ pos taken, a = .send pos taken) ∧ (∃ msg, (System.step sh a s).queues id = s.queues id ++ [msg]) ∨
      ∃ theirs field, (System.step sh a s).queues id = opening sh theirs field := by
  cases a with
  | message env from_ msg =>
      left
      rw [System.step]
      split <;> rfl
  | maintain env =>
      left
      rw [System.step]
      split <;> rfl
  | control ev =>
      left
      rw [System.step]
      split <;> rfl
  | drop pos now =>
      left
      simp only [System.step, System.dropNext]
      split <;> rfl
  | send pos taken =>
      simp only [System.step, System.sendNext]
      split
      · split
        · rw [queues_setQueue]
          split
          · right; left
            rename_i heq
            exact ⟨⟨_, _, rfl⟩, _, by rw [heq]⟩
          · exact .inl rfl
        · exact .inl rfl
      · exact .inl rfl
  | accept dest theirs =>
      left
      rw [System.step]
      split <;> rfl
  | dial dest =>
      left
      rw [System.step]
      split <;> rfl
  | greet pos theirs =>
      left
      simp only [System.step]
      split
      · split <;> rfl
      · rfl
  | abandon pos => exact .inl rfl
  | announce pos =>
      left
      simp only [System.step]
      split <;> rfl
  | register pos env =>
      simp only [System.step, System.registerNext]
      split
      · split
        · exact .inl rfl
        · rename_i theirs field _ _ id' _
          by_cases hid : id = id'
          · right; right
            exact ⟨theirs, field, if_pos hid⟩
          · exact .inl (if_neg hid)
      · exact .inl rfl
  | halt =>
      left
      simp only [System.step, System.haltNext]
      split <;> rfl

/-- The client's queue is kept short by a client that reads and a writer that writes before more is
handed over. -/
theorem short_step (h : x.waiting.length ≤ 2) {e : Move} (hsend : ∀ pos, e = .send pos → x.waiting = []) :
    (x.step sha1 toLowercase sh dest e).waiting.length ≤ 2 := by
  have hstep : ∀ a : Action, (∀ pos taken, a = .send pos taken → x.waiting = []) →
      ({ x with host := System.step sh a x.host } : Exchange).waiting.length ≤ 2 := by
    intro a hempty
    rw [waiting, List.length_drop] at h ⊢
    show ((System.step sh a x.host).queues 0).length - x.written ≤ 2
    rcases queues_step sh a x.host 0 with hsame | ⟨⟨pos, taken, heq⟩, msg, hmore⟩ |
      ⟨theirs, field, hnew⟩
    · rw [hsame]
      exact h
    · have hnone := List.drop_eq_nil_iff.1 (hempty pos taken heq)
      rw [hmore, List.length_append, List.length_singleton]
      omega
    · have hlength : (opening sh theirs field).length ≤ 2 := by
        unfold opening
        split <;> simp
      rw [hnew]
      omega
  cases e with
  | turn => exact h
  | attach =>
      rw [Exchange.step, attachNext]
      split
      · exact h
      · split
        · exact h
        · split
          · exact h
          · exact hstep _ (by rintro _ _ ⟨⟩)
  | announce => exact hstep _ (by rintro _ _ ⟨⟩)
  | register env => exact hstep _ (by rintro _ _ ⟨⟩)
  | hear env =>
      rw [Exchange.step, hearNext]
      split
      · exact h
      · split
        · exact h
        · exact h
        · split
          · exact h
          · exact hstep _ (by rintro _ _ ⟨⟩)
  | tick env => exact hstep _ (by rintro _ _ ⟨⟩)
  | drop pos now => exact hstep _ (by rintro _ _ ⟨⟩)
  | send pos => exact hstep _ fun _ _ _ => hsend pos rfl
  | write =>
      rw [Exchange.step, writeNext]
      split
      · split
        · have hlength := h
          rw [waiting, List.length_drop] at hlength ⊢
          show (x.host.queues 0).length - (x.written + 1) ≤ 2
          omega
        · exact h
      · exact h

/-- Something helps that is done in time, is no tick, and hands over a message only once the queue is
written. -/
theorem Waits.urged {rank : ℕ} {helps : Move → Prop} (h : Waits sh dest peerId start rank helps x) :
    ∃ e, helps e ∧ Timely start e ∧ (∀ env, e ≠ .tick env) ∧ ∀ pos, e = .send pos → x.waiting = [] := by
  have hnow : start ≤ (OneByte.env start).now ∧
      (OneByte.env start).now < start + METADATA_DEADLINE :=
    ⟨le_rfl, Nat.lt_add_of_pos_right (by decide)⟩
  cases h with
  | coming _ _ _ _ _ => exact ⟨.attach, rfl, trivial, nofun, nofun⟩
  | greeted _ _ _ => exact ⟨.announce, rfl, trivial, nofun, nofun⟩
  | announced _ _ _ _ => exact ⟨.register (OneByte.env start), ⟨_, rfl⟩, hnow, nofun, nofun⟩
  | @under _ _ wrote heard _ _ hunder _ =>
      rcases Decidable.em (x.waiting = []) with hempty | hsome
      · rcases hunder.helped with hturn | hwrite | ⟨pos, hsend⟩ | hhear
        · exact ⟨.turn, hturn, trivial, nofun, nofun⟩
        · exact ⟨.write, hwrite, trivial, nofun, nofun⟩
        · exact ⟨.send pos, hsend, trivial, nofun, fun _ _ => hempty⟩
        · exact ⟨.hear (OneByte.env start), hhear _, hnow, nofun, nofun⟩
      · exact ⟨.write, hsome, trivial, nofun, nofun⟩

/-- Without a tick, an exchange may end. -/
theorem Waits.leads (hoffers : Offers sha1 toLowercase sh m) (hpeer : peerId.length = 20)
    (hne : peerId ≠ sh.peerId) {rank : ℕ} {helps : Move → Prop}
    (h : Waits sh dest peerId start rank helps x) (hshort : x.waiting.length ≤ 2) :
    ∃ es, (∀ e ∈ es, Timely start e) ∧
      Ended sh m (Machine.run (Exchange.step sha1 toLowercase sh dest) es x) := by
  refine Machine.leads (Waits sh dest peerId start) (P := fun x => x.waiting.length ≤ 2)
    (fun rank helps t ht hshort => ?_) h hshort
  obtain ⟨e, hhelps, htime, htick, hsend⟩ := ht.urged
  refine ⟨e, hhelps, htime, short_step hshort hsend, ht.step hoffers e hpeer hne ⟨htime,
    fun _ => htick, fun _ _ => ?_⟩⟩
  unfold OUTGOING_QUEUE
  omega

/-- Every thread takes its turn, the ticks too. -/
def roundRobin (start : Nat) (k : ℕ) : Move :=
  match k % 9 with
  | 0 => .turn
  | 1 => .attach
  | 2 => .announce
  | 3 => .register (OneByte.env start)
  | 4 => .hear (OneByte.env start)
  | 5 => .tick (OneByte.env start)
  | 6 => .drop (k / 9).unpair.1 start
  | 7 => .send (k / 9).unpair.1
  | _ => .write

theorem roundRobin_comes (pos r k : ℕ) (hr : r < 9) :
    ∃ j, k ≤ j ∧ j % 9 = r ∧ (j / 9).unpair.1 = pos := by
  have hle := Nat.right_le_pair pos k
  refine ⟨9 * Nat.pair pos k + r, by omega, by omega, ?_⟩
  have hdiv : (9 * Nat.pair pos k + r) / 9 = Nat.pair pos k := by omega
  rw [hdiv, Nat.unpair_pair]

theorem timely_roundRobin (start k : ℕ) : Timely start (roundRobin start k) := by
  have hnow : start ≤ (OneByte.env start).now ∧
      (OneByte.env start).now < start + METADATA_DEADLINE :=
    ⟨le_rfl, Nat.lt_add_of_pos_right (by decide)⟩
  unfold roundRobin
  split
  all_goals first | exact trivial | exact hnow

theorem fair_roundRobin (start : Nat) : Fair (roundRobin start) where
  turn k := by
    obtain ⟨j, hkj, hr, -⟩ := roundRobin_comes 0 0 k (by decide)
    exact ⟨j, hkj, by simp only [roundRobin, hr]⟩
  attach k := by
    obtain ⟨j, hkj, hr, -⟩ := roundRobin_comes 0 1 k (by decide)
    exact ⟨j, hkj, by simp only [roundRobin, hr]⟩
  announce k := by
    obtain ⟨j, hkj, hr, -⟩ := roundRobin_comes 0 2 k (by decide)
    exact ⟨j, hkj, by simp only [roundRobin, hr]⟩
  register k := by
    obtain ⟨j, hkj, hr, -⟩ := roundRobin_comes 0 3 k (by decide)
    exact ⟨j, hkj, OneByte.env start, by simp only [roundRobin, hr]⟩
  hear k := by
    obtain ⟨j, hkj, hr, -⟩ := roundRobin_comes 0 4 k (by decide)
    exact ⟨j, hkj, OneByte.env start, by simp only [roundRobin, hr]⟩
  send pos k := by
    obtain ⟨j, hkj, hr, hpos⟩ := roundRobin_comes pos 7 k (by decide)
    exact ⟨j, hkj, by simp only [roundRobin, hr, hpos]⟩
  write k := by
    obtain ⟨j, hkj, hr, -⟩ := roundRobin_comes 0 8 k (by decide)
    exact ⟨j, hkj, by simp only [roundRobin, hr]⟩

theorem Fair.prepend {schedule : ℕ → Move} (h : Fair schedule) (es : List Move) :
    Fair (Machine.prepend es schedule) where
  turn := h.turn.prepend es
  attach := h.attach.prepend es
  announce := h.announce.prepend es
  register := h.register.prepend es
  hear := h.hear.prepend es
  send pos := (h.send pos).prepend es
  write := h.write.prepend es

/-- A fetch that is over stays over. -/
theorem done_stable {r : Except FetchError MetaInfo} (e : Move) (x : Exchange)
    (h : x.client = .done r) : (x.step sha1 toLowercase sh dest e).client = .done r := by
  cases e with
  | turn =>
      rw [Exchange.step, h]
      rfl
  | attach =>
      rw [Exchange.step, attachNext]
      split
      · exact h
      · split
        · exact h
        · split
          · exact h
          · exact h
  | hear env =>
      rw [Exchange.step, hearNext]
      split
      · exact h
      · split
        · exact h
        · exact h
        · split
          · exact h
          · exact h
  | write =>
      rw [Exchange.step, writeNext]
      split
      · split
        · exact h
        · exact h
      · exact h
  | announce => exact h
  | register env => exact h
  | tick env => exact h
  | drop pos now => exact h
  | send pos => exact h

/-! ## A torrent of a metainfo -/

theorem withinAllowance_iff (sh : Shared) : WithinAllowance sh ↔
    sh.rawInfo.length ≤ MAX_METADATA_REQUESTS_PER_TICK * METADATA_PIECE_LEN := by
  unfold WithinAllowance
  rw [← not_lt, Metadata.lt_stripes_iff, not_lt]

variable {input : Bytes}

theorem offers_hosting (hparse : MetaInfo.parse sha1 toLowercase input = .ok m)
    (hsize : m.rawInfo.length ≤ MAX_METADATA_SIZE) (hsha1 : ∀ bs, (sha1 bs).length = 20)
    (hpeer : peerId.length = 20) : Offers sha1 toLowercase (hosting sha1 m peerId)
      { m with trackers := [], skippedTrackers := 0 } := by
  have hconsistent := MetaInfo.consistent_of_parse hparse
  have hpieces := MetaInfo.pieces_le_of_parse hparse
  have hpos := (MetaInfo.geometry_of_parse hparse).pieces_pos
  refine ⟨?_, hpeer, ?_, hsize, hconsistent.infoHash, MetaInfo.fromInfoDict_of_parse hparse⟩
  · show m.infoHash.length = 20
    rw [hconsistent.infoHash]
    exact hsha1 _
  · intro hnil
    have hnil : m.rawInfo = [] := hnil
    rw [hnil, List.length_nil] at hpieces
    omega

/-- A torrent just started seats nobody, and its piece set is as long as its metainfo says. -/
theorem before_start (hparse : MetaInfo.parse sha1 toLowercase input = .ok m) (peerId peerId' : Bytes)
    (initialHave : Bitfield) (mode : Mode) (now : Nat) (disk : Disk) :
    Before (hosting sha1 m peerId) (Exchange.start (hosting sha1 m peerId) peerId'
      (System.new (hosting sha1 m peerId) initialHave mode now disk)) := by
  have haccounts := accounts_new (hosting sha1 m peerId) initialHave mode now disk
  have hpieces := MetaInfo.pieces_le_of_parse hparse
  have hfew := (MetaInfo.geometry_of_parse hparse).few
  have hlength : (Engine.new (hosting sha1 m peerId) initialHave mode now
      disk).st.picker.haveField.bits.length = byteLen m.pieces.length := by
    rw [Bitfield.length_bits, haccounts.acc.wf.len_haveField, haccounts.layout]
    rfl
  refine ⟨vacant_new _ _ _ _, ⟨?_, fun hsmall => ?_⟩, fun t ht => absurd ht List.not_mem_nil, rfl, rfl,
    rfl⟩
  · refine hlength.trans_lt ?_
    unfold Metainfo.MAX_PIECES Wire.MAX_MESSAGE_LEN at hfew
    unfold byteLen U32_MAX
    omega
  · refine hlength.trans_lt ?_
    have hraw : m.rawInfo.length ≤ MAX_METADATA_REQUESTS_PER_TICK * METADATA_PIECE_LEN :=
      (withinAllowance_iff _).1 hsmall
    unfold MAX_METADATA_REQUESTS_PER_TICK METADATA_PIECE_LEN at hraw
    unfold byteLen METADATA_FRAME
    omega

end Exchange

/-- Whatever their threads do in which order, a clove that fetches the metadata of a torrent from
another ends with the info dictionary.  No thread stops, and no deadline passes. -/
def Exchanges (sha1 toLowercase : Bytes → Bytes) (m : MetaInfo) (peerId peerId' : Bytes)
    (initialHave : Bitfield) (mode : Mode) (now start : Nat) (disk : Disk) (dest : DestHash) : Prop :=
  ∀ schedule : ℕ → Exchange.Move, (∀ k, Exchange.Timely start (schedule k)) →
    Exchange.Fair schedule → ∃ k m', (Machine.states
      (Exchange.step sha1 toLowercase (hosting sha1 m peerId') dest) schedule
      (Exchange.start (hosting sha1 m peerId') peerId
        (System.new (hosting sha1 m peerId') initialHave mode now disk)) k).client = .done (.ok m') ∧
      m'.rawInfo = m.rawInfo

section

variable {sha1 toLowercase : Bytes → Bytes} {input peerId peerId' : Bytes} {m : MetaInfo}
  (hsha1 : ∀ bs, (sha1 bs).length = 20) (hparse : MetaInfo.parse sha1 toLowercase input = .ok m)
  (hsize : m.rawInfo.length ≤ MAX_METADATA_SIZE) (hpeer : peerId.length = 20)
  (hpeer' : peerId'.length = 20) (hne : peerId ≠ peerId') (initialHave : Bitfield) (mode : Mode)
  (now start : Nat) (disk : Disk) (dest : DestHash)

include hsha1 hparse hsize hpeer hpeer' hne

theorem exchanges_of_le
    (hsmall : m.rawInfo.length ≤ MAX_METADATA_REQUESTS_PER_TICK * METADATA_PIECE_LEN) :
    Exchanges sha1 toLowercase m peerId peerId' initialHave mode now start disk dest := by
  intro schedule htime hfair
  have hoffers := Exchange.offers_hosting hparse hsize hsha1 hpeer'
  have hbefore := Exchange.before_start hparse peerId' peerId initialHave mode now disk
  have hwaits : Exchange.Waits _ dest peerId start _ _ _ := .coming hbefore rfl rfl rfl rfl
  have hwithin : Exchange.WithinAllowance (hosting sha1 m peerId') :=
    (Exchange.withinAllowance_iff _).2 hsmall
  obtain ⟨k, hended⟩ := hwaits.ended hoffers hwithin hpeer hne htime hfair
  cases hended with
  | fetched _ hdone => exact ⟨k, _, hdone, rfl⟩
  | failed hlarge _ => exact absurd hwithin hlarge

/-- Past the allowance the fetch fails if no tick comes before it is over, whatever comes then. -/
theorem not_exchanges_of_gt
    (hlarge : MAX_METADATA_REQUESTS_PER_TICK * METADATA_PIECE_LEN < m.rawInfo.length) :
    ¬ Exchanges sha1 toLowercase m peerId peerId' initialHave mode now start disk dest := by
  intro hall
  have hoffers := Exchange.offers_hosting hparse hsize hsha1 hpeer'
  have hbefore := Exchange.before_start hparse peerId' peerId initialHave mode now disk
  have hwaits : Exchange.Waits _ dest peerId start _ _ _ := .coming hbefore rfl rfl rfl rfl
  obtain ⟨es, htime, hended⟩ := hwaits.leads hoffers hpeer hne (Nat.zero_le _)
  obtain ⟨k, m', hdone, -⟩ := hall (Machine.prepend es (Exchange.roundRobin start))
    (Machine.prepend_all htime (Exchange.timely_roundRobin start))
    ((Exchange.fair_roundRobin start).prepend es)
  rw [← Machine.states_prepend es (Exchange.roundRobin start)] at hended
  cases hended with
  | fetched hwithin _ => exact Nat.not_le.2 hlarge ((Exchange.withinAllowance_iff _).1 hwithin)
  | failed _ hfailed =>
      -- what is over stays over, so the fetch cannot have ended in two ways
      have hlate := Machine.states_stable (P := fun x : Exchange => x.client = .done (.ok m'))
        Exchange.done_stable (Nat.le_max_left k es.length) hdone
      have herror := Machine.states_stable (P := fun x : Exchange => x.client = .done (.error _))
        Exchange.done_stable (Nat.le_max_right k es.length) hfailed
      cases hlate.symm.trans herror

end

/-! ## A torrent of many pieces -/

namespace ManyPieces

/-- The info dictionary of a file of `n` pieces of sixteen KiB. -/
def info (n : Nat) : Value :=
  .dict [(ascii "length", .int (n * 16384 : Nat)), (ascii "name", .bytes (ascii "a")),
    (ascii "piece length", .int 16384), (ascii "pieces", .bytes (List.replicate (20 * n) 0))]

def torrent (n : Nat) : Bytes := Magnet.torrentBytes (Bencode.encode (info n)) []

def metaInfo (sha1 : Bytes → Bytes) (n : Nat) : MetaInfo where
  infoHash := sha1 (Bencode.encode (info n))
  name := ascii "a"
  pieceLength := 16384
  pieces := Metainfo.hashes n (List.replicate (20 * n) 0)
  files := [⟨[ascii "a"], n * 16384⟩]
  totalLength := n * 16384
  isPrivate := false
  trackers := []
  skippedTrackers := 0
  rawInfo := Bencode.encode (info n)

theorem derives_info {n : Nat} (hn : n ≤ 60000) :
    Bencode.Derives (Bencode.MAX_DEPTH - 1) (Bencode.encode (info n)) (info n) := by
  have hsorted : OrdMap.Sorted [(ascii "length", Value.int (n * 16384 : Nat)),
      (ascii "name", .bytes (ascii "a")), (ascii "piece length", .int 16384),
      (ascii "pieces", .bytes (List.replicate (20 * n) 0))] := by
    have hkeys : ([ascii "length", ascii "name", ascii "piece length", ascii "pieces"]).Pairwise
        (· < ·) := by decide
    exact List.pairwise_map.1 hkeys
  have hkey : ∀ k ∈ [ascii "length", ascii "name", ascii "piece length", ascii "pieces"],
      Bencode.inUsize k.length = true := by decide
  refine (Bencode.derives_encode (n := 2) (Bencode.WellFormed.dict hsorted ?_)).mono (by decide)
  intro e he
  simp only [List.mem_cons, List.not_mem_nil, or_false] at he
  rcases he with rfl | rfl | rfl | rfl
  · refine ⟨hkey _ (by simp), ?_⟩
    simp [Bencode.WellFormed, Bencode.inI64]
    omega
  · exact ⟨hkey _ (by simp), rfl⟩
  · exact ⟨hkey _ (by simp), rfl⟩
  · refine ⟨hkey _ (by simp), ?_⟩
    simp [Bencode.WellFormed, Bencode.inUsize]
    omega

theorem parse_torrent (sha1 toLowercase : Bytes → Bytes) {n : Nat} (hpos : 0 < n) (hn : n ≤ 60000) :
    MetaInfo.parse sha1 toLowercase (torrent n) = .ok (metaInfo sha1 n) := by
  rw [torrent, MetaInfo.parse_torrentBytes_eq (fun _ hu => absurd hu List.not_mem_nil) (derives_info hn)]
  have hlength : (info n).get (ascii "length") = some (.int (n * 16384 : Nat)) := rfl
  have hfiles : (info n).get (ascii "files") = none := rfl
  have hname : (info n).get (ascii "name") = some (.bytes (ascii "a")) := rfl
  have hpiece : (info n).get (ascii "piece length") = some (.int 16384) := rfl
  have hpieces : (info n).get (ascii "pieces") = some (.bytes (List.replicate (20 * n) 0)) := rfl
  have hprivate : (info n).get (ascii "private") = none := rfl
  have hstr : (Value.bytes (ascii "a")).asStr = some (ascii "a") := rfl
  have hcheck : Metainfo.checkComponent (ascii "a") = .ok () := rfl
  have htrackers : Metainfo.parseTrackers
      (MetaInfo.torrentRoot [] (Bencode.encode (info n)) (info n)) = .ok ([], 0) := rfl
  have hparts : Metainfo.parseFiles toLowercase (info n) (ascii "a") =
      .ok ([⟨[ascii "a"], n * 16384⟩], n * 16384) := by
    have hsize : Metainfo.asSize (.int (n * 16384 : Nat)) = some (n * 16384) := by
      rw [Metainfo.asSize, Value.asInt, Option.bind_some, if_pos (Int.natCast_nonneg _),
        Int.toNat_natCast]
    have hsome : Metainfo.refuse (n * 16384 = 0) "single-file torrent of zero bytes" = .ok () := by
      rw [Metainfo.refuse, decide_eq_false (by omega)]
      rfl
    simp only [Metainfo.parseFiles, hlength, hfiles, hsize, Metainfo.require, bind, Except.bind, hsome]
    rfl
  have hcount : (20 * n) / 20 = n := by omega
  have hexpected : (n * 16384 + (16384 - 1)) / 16384 = n := by omega
  have hdict : (info n).asDict.isNone = false := rfl
  have hmultiple : Metainfo.refuse ((List.replicate (20 * n) (0 : UInt8)).isEmpty ||
      (List.replicate (20 * n) (0 : UInt8)).length % 20 ≠ 0) "pieces is not a multiple of 20 bytes" =
      .ok () := by
    rw [Metainfo.refuse, List.length_replicate, List.isEmpty_replicate]
    simp
    omega
  have hfew : Metainfo.refuse (Metainfo.MAX_PIECES < n)
      "more pieces than a bitfield message can carry" = .ok () := by
    rw [Metainfo.refuse, decide_eq_false (by unfold Metainfo.MAX_PIECES Wire.MAX_MESSAGE_LEN; omega)]
    rfl
  have hagree : Metainfo.refuse (n ≠ n) "piece count disagrees with total length" = .ok () := by
    simp [Metainfo.refuse]
  have hrange : Metainfo.refuse ((16384 : Int) < Metainfo.MIN_PIECE_LENGTH ||
      (Metainfo.MAX_PIECE_LENGTH : Int) < 16384) "piece length out of accepted range" = .ok () := rfl
  rw [hdict]
  show Metainfo.parseInfo _ _ _ _ _ = _
  unfold Metainfo.parseInfo
  have hbytes : (Value.bytes (List.replicate (20 * n) 0)).asBytes = some (List.replicate (20 * n) 0) := rfl
  have hint : (Value.int 16384).asInt = some 16384 := rfl
  have hlong : (16384 : Int).toNat = 16384 := rfl
  simp only [hname, hpiece, hpieces, hprivate, Option.bind_some, Option.bind_none, Metainfo.require,
    hstr, hcheck, hint, hbytes, Except.ok_bind, hrange, hmultiple, hparts]
  simp only [List.length_replicate, hcount, MetaInfo.length_hashes, hlong, hexpected, hfew, hagree, htrackers,
    Except.ok_bind]
  rfl

theorem length_info_le {n : Nat} (hn : n ≤ 60000) :
    (Bencode.encode (info n)).length ≤ 20 * n + 100 := by
  have hlength : (Bencode.intText (n * 16384 : Nat)).length ≤ 10 := by
    rw [Bencode.intText, if_neg (Int.not_lt.2 (Int.natCast_nonneg _)), Int.natAbs_natCast]
    exact Decimal.length_digits_le (by omega)
  have hpieces : (Decimal.digits (List.replicate (20 * n) (0 : UInt8)).length).length ≤ 7 := by
    rw [List.length_replicate]
    exact Decimal.length_digits_le (by omega)
  have hkeys : (Bencode.putBytes (ascii "length")).length = 8 ∧
      (Bencode.putBytes (ascii "name")).length = 6 ∧ (Bencode.putBytes (ascii "a")).length = 3 ∧
      (Bencode.putBytes (ascii "piece length")).length = 15 ∧
      (Bencode.putBytes (ascii "pieces")).length = 8 ∧ (Bencode.intText 16384).length = 5 := by
    decide +kernel
  have hbytes : (Bencode.putBytes (List.replicate (20 * n) 0)).length ≤ 20 * n + 8 := by
    rw [Bencode.putBytes, List.length_append, List.length_cons, List.length_replicate]
    rw [List.length_replicate] at hpieces
    omega
  simp only [info, Bencode.encode, Bencode.encodeEntries, List.length_append, List.length_cons,
    List.length_nil, hkeys]
  omega

end ManyPieces

/-- Two cloves exchange metadata up to the allowance of a tick.  Whatever the torrent has, a fetch
from it ends with the info dictionary in every order exactly if the dictionary is no larger than the
pieces a peer may ask for between two ticks. -/
theorem exchanges_iff {sha1 toLowercase : Bytes → Bytes} (hsha1 : ∀ bs, (sha1 bs).length = 20)
    {input : Bytes} {m : MetaInfo} (hparse : MetaInfo.parse sha1 toLowercase input = .ok m)
    (hsize : m.rawInfo.length ≤ MAX_METADATA_SIZE) {peerId peerId' : Bytes}
    (hpeer : peerId.length = 20) (hpeer' : peerId'.length = 20) (hne : peerId ≠ peerId')
    (initialHave : Bitfield) (mode : Mode) (now start : Nat) (disk : Disk) (dest : DestHash) :
    Exchanges sha1 toLowercase m peerId peerId' initialHave mode now start disk dest ↔
      m.rawInfo.length ≤ MAX_METADATA_REQUESTS_PER_TICK * METADATA_PIECE_LEN := by
  constructor
  · intro hall
    by_contra hlarge
    exact not_exchanges_of_gt hsha1 hparse hsize hpeer hpeer' hne initialHave mode now start disk dest
      (Nat.not_le.1 hlarge) hall
  · exact exchanges_of_le hsha1 hparse hsize hpeer hpeer' hne initialHave mode now start disk dest

theorem exchanges_threeFiles : Exchanges MetaInfo.threeFilesSha1 id MetaInfo.threeFilesInfo
    (List.replicate 20 1) (List.replicate 20 2) (Bitfield.empty 2) .rarestFirst 0 0 (fun _ => [])
    (OneByte.dest 1) :=
  (exchanges_iff MetaInfo.length_threeFilesSha1 MetaInfo.parse_threeFiles (by decide +kernel)
    List.length_replicate List.length_replicate (by decide) (Bitfield.empty 2) .rarestFirst 0 0
    (fun _ => []) (OneByte.dest 1)).2 (by decide +kernel)

/-- Not any metadata: a file of 53000 pieces has an info dictionary past the allowance. -/
theorem not_exchanges_manyPieces :
    MetaInfo.parse (fun _ => List.replicate 20 0) id (ManyPieces.torrent 53000) =
        .ok (ManyPieces.metaInfo (fun _ => List.replicate 20 0) 53000) ∧
      (ManyPieces.metaInfo (fun _ => List.replicate 20 0) 53000).rawInfo.length ≤ MAX_METADATA_SIZE ∧
      ¬ Exchanges (fun _ => List.replicate 20 0) id
        (ManyPieces.metaInfo (fun _ => List.replicate 20 0) 53000) (List.replicate 20 1)
        (List.replicate 20 2) (Bitfield.empty 53000) .rarestFirst 0 0 (fun _ => []) (OneByte.dest 1) := by
  have hparse := ManyPieces.parse_torrent (fun _ => List.replicate 20 0) id (n := 53000) (by decide)
    (by decide)
  have hle := ManyPieces.length_info_le (n := 53000) (by decide)
  have hge := MetaInfo.pieces_le_of_parse hparse
  have hcount : (ManyPieces.metaInfo (fun _ => List.replicate 20 0) 53000).pieces.length = 53000 :=
    MetaInfo.length_hashes _ _
  rw [hcount] at hge
  have hsize : (ManyPieces.metaInfo (fun _ => List.replicate 20 0) 53000).rawInfo.length ≤
      MAX_METADATA_SIZE := hle.trans (by decide)
  exact ⟨hparse, hsize, not_exchanges_of_gt (fun _ => List.length_replicate) hparse hsize
    List.length_replicate List.length_replicate (by decide) (Bitfield.empty 53000) .rarestFirst 0 0
    (fun _ => []) (OneByte.dest 1) (lt_of_lt_of_le (by decide) hge)⟩

end Clove.Torrent
