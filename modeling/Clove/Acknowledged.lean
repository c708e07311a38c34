import Clove.Commands

/-!
# What an answer promises

A client of the control API sees the answer and nothing else.  An answer that is a success says
that the command has been done, and what it changed is in the state directory by then
(`acknowledged_done`).  An answer that blames the request says that nothing has been changed
(`refused_unchanged`).
-/

namespace Clove.Control

open Http (Response ServerRequest readRequest)
open Utf8 (ascii)
open Clove.Daemon (ActionError AddError AddOptions Entry Fleet RemoveError Wiped World newRecord
  sharedOf stateFile)
open Clove.Daemon.Answering (Change Recorded)

section Done

variable {F : Type} (d : Daemon F)

/-- A command has been done, and what it changed is on disk. -/
inductive Done : Command → List Turn → Prop
  | status {cs : List Turn} : Done .status cs
  | list {cs : List Turn} : Done .list cs
  /-- The torrent is hosted, and both of its files are written. -/
  | torrentAdded {c c' : Turn} {w : World} {bytes : Bytes} {options : AddOptions} {m : MetaInfo}
      {e : Entry} (hdeed : c.deed = .performed w (.addTorrent bytes options) none)
      (hparse : MetaInfo.parse d.sha1 d.toLowercase bytes = .ok m)
      (hnew : c.before.lookup m.infoHash = none) (he : c.after.lookup m.infoHash = some e)
      (hinfo : e.info = m)
      (hwanted : e.hosted.wanted = if options.paused then .paused .operator else .running)
      (hsequential : e.hosted.sequential = options.sequential)
      (hfile : c.after.registry.dir (stateFile m.infoHash .torrent) = some bytes)
      (hrecord : c.after.registry.dir (stateFile m.infoHash .resume) =
        some (newRecord d.sha1 m w.now options)) : Done (.addTorrent bytes options) [c, c']
  /-- The magnet is there and claimed, and its file is written. -/
  | magnetAdded {c c' : Turn} {uri : Bytes} {m : Magnet} (hparse : Magnet.parse uri = .ok m)
      (hnew : c.before.registry.listed m.infoHash = false)
      (hpending : c.after.registry.pending.has m.infoHash = true)
      (hfile : c.after.registry.dir (stateFile m.infoHash .magnet) = some uri)
      (hclaimed : c'.before.registry.pending.has m.infoHash = true →
        c'.after.registry.claimed m.infoHash = true) : Done (.addMagnet uri) [c, c']
  | detail {cs : List Turn} {reference : Bytes} : Done (.act reference .detail) cs
  /-- The torrent is gone with both its files.  If that was asked for, and only then, each of its
  downloaded files has been set about deleting, whatever came of it. -/
  | removed {c c' c'' : Turn} {w : World} {unlinked : List Bytes → Except IoError Unit}
      {reference h : Bytes} {deleteData : Bool} {e : Entry}
      (hresolve : c.before.registry.resolve reference = .ok h)
      (he : c''.before.lookup h = some e) (hgone : c''.after.lookup h = none)
      (htorrent : c''.after.registry.dir (stateFile h .torrent) = none)
      (hrecord : c''.after.registry.dir (stateFile h .resume) = none)
      (hdata : c''.deed = .performed w (.remove h) (if deleteData then
        some (Clove.Daemon.wipe unlinked e.info) else none)) :
      Done (.act reference (.remove deleteData)) [c, c', c'']
  /-- The magnet is gone with its file, and nothing else. -/
  | magnetRemoved {c c' c'' : Turn} {w : World} {reference h : Bytes} {deleteData : Bool}
      (hresolve : c.before.registry.resolve reference = .ok h)
      (hpending : c''.before.registry.pending.has h = true)
      (hgone : c''.after.registry.pending.has h = false)
      (hfile : c''.after.registry.dir (stateFile h .magnet) = none)
      (hdata : c''.deed = .performed w (.remove h) none) :
      Done (.act reference (.remove deleteData)) [c, c', c'']
  /-- The torrent has the setting, and its record says so. -/
  | changed {c c' c'' : Turn} {reference h : Bytes} {ch : Change} {e e' : Entry}
      (hresolve : c.before.registry.resolve reference = .ok h)
      (he : c''.before.lookup h = some e) (hallowed : ch.refusal e = none)
      (hinfo : e'.info = e.info)
      (hsettings : Clove.Daemon.Answering.settings e'.hosted =
        Clove.Daemon.Answering.settings (ch.apply d.limits e.hosted))
      (hrecorded : Recorded d.sha1 h e' c''.after) : Done (.act reference (.change ch)) [c, c', c'']
  /-- The torrent has what its files hashed to, and its record says so. -/
  | verified {c c' c₁ c₂ : Turn} {w : World} {reference h : Bytes} {found : Bitfield} {e : Entry}
      (hresolve : c.before.registry.resolve reference = .ok h)
      (hdeed : c₂.deed = .performed w (.finishScan h (.ok found)) none)
      (hhalted : ∀ e, c₁.before.lookup h = some e → e.hosted.live = none)
      (he : c₂.before.lookup h = some e)
      (hrecord : c₂.after.registry.dir (stateFile h .resume) =
        some (({ e.hosted with scanning := false, have_ := found, verified := found }).resume
          (sharedOf d.sha1 e.info)).encode) : Done (.act reference .verify) [c, c', c₁, c₂]

end Done

variable {F : Type} {d : Daemon F}

/-! ## Successes -/

theorem status_actionError (e : ActionError) : (d.actionError e).status ∈ [400, 404, 500] := by
  cases e with
  | notFound => exact List.mem_of_elem_eq_true rfl
  | badInput what => exact List.mem_of_elem_eq_true rfl
  | io e => exact List.mem_of_elem_eq_true rfl

theorem status_addTorrentError (e : AddError) :
    (d.addTorrentError e).status ∈ [400, 409, 500] := by
  cases e with
  | parse e => exact List.mem_of_elem_eq_true rfl
  | magnet e => exact List.mem_of_elem_eq_true rfl
  | duplicate => exact List.mem_of_elem_eq_true rfl
  | nameClash name => exact List.mem_of_elem_eq_true rfl
  | io e => exact List.mem_of_elem_eq_true rfl

theorem status_addMagnetError (e : AddError) : (d.addMagnetError e).status ∈ [400, 409, 500] := by
  cases e with
  | parse e => exact List.mem_of_elem_eq_true rfl
  | magnet e => exact List.mem_of_elem_eq_true rfl
  | duplicate => exact List.mem_of_elem_eq_true rfl
  | nameClash name => exact List.mem_of_elem_eq_true rfl
  | io e => exact List.mem_of_elem_eq_true rfl

theorem status_removeError (e : RemoveError) :
    (d.removeResult (.error e)).status ∈ [400, 404, 500] := by
  cases e with
  | notFound => exact List.mem_of_elem_eq_true rfl
  | scanning => exact List.mem_of_elem_eq_true rfl
  | io e => exact List.mem_of_elem_eq_true rfl

/-- An answer that says something is wrong is no success. -/
theorem not_success {answer : Response} {l : List Nat} (hl : ∀ n ∈ l, 400 ≤ n)
    (h : answer.status ∈ l) : ¬ answer.status < 300 := by
  have := hl _ h
  omega

theorem done_addTorrent {w : World} {c c' : Turn} {bytes h : Bytes} {options : AddOptions}
    (hc : Performed d w (.addTorrent bytes options) none c)
    (hresult : (Clove.Daemon.Answering.addTorrent d.sha1 d.toLowercase w bytes options
      c.before).1 = .ok h) : Done d (.addTorrent bytes options) [c, c'] := by
  have hafter : c.after = { c.before with registry := (c.before.registry.addTorrent d.sha1
      d.toLowercase w.faults w.now bytes options).2 } := hc.after
  have hcases : Daemon.Adds d.sha1 d.toLowercase w.faults w.now bytes options c.before.registry _ :=
    Daemon.addTorrent_cases w.faults w.now bytes options c.before.registry
  have hresult : (c.before.registry.addTorrent d.sha1 d.toLowercase w.faults w.now bytes
    options).1 = .ok h := hresult
  generalize c.before.registry.addTorrent d.sha1 d.toLowercase w.faults w.now bytes options = out
    at hafter hresult hcases
  cases hcases with
  | rejected e hold => cases hresult
  | refused hparse htorrent hagree => cases hresult
  | undone hparse hnew hclash hresume hagree => cases hresult
  | @added m dir hparse hnew hclash _ _ hagree =>
      have hlookup : c.after.lookup m.infoHash = some ⟨m, Daemon.Hosted.new (sharedOf d.sha1 m) w.now
          options.paused options.sequential⟩ := by
        rw [hafter]
        exact (OrdMap.Tree.lookup_insert _ _ _ _).trans (if_pos rfl)
      refine .torrentAdded hc.deed hparse (Option.not_isSome_iff_eq_none.1 (Bool.not_eq_true _ ▸ hnew))
        hlookup rfl rfl rfl ?_ ?_
      · rw [hafter]
        refine (hagree _ rfl).trans ?_
        rw [Daemon.put_apply, if_neg fun h => absurd (Daemon.stateFile_inj h).2 (by decide),
          Daemon.put_apply, if_pos rfl]
      · rw [hafter]
        exact (hagree _ rfl).trans ((Daemon.put_apply _ _ _).trans (if_pos rfl))

theorem done_addMagnet {w : World} {c c' : Turn} {uri h : Bytes}
    (hc : Performed d w (.addMagnet uri) none c)
    (hresult : (Clove.Daemon.Answering.addMagnet w uri c.before).1 = .ok h)
    (hclaim : c'.after = { c'.before with registry := (c'.before.registry.claimFetch h).2 }) :
    Done d (.addMagnet uri) [c, c'] := by
  have hafter : c.after =
      { c.before with registry := (c.before.registry.addMagnet w.faults uri).2 } := hc.after
  have hcases := Daemon.addMagnet_cases w.faults uri c.before.registry
  have hresult : (c.before.registry.addMagnet w.faults uri).1 = .ok h := hresult
  generalize c.before.registry.addMagnet w.faults uri = out at hafter hresult hcases
  cases hcases with
  | rejected e => cases hresult
  | refused hagree => cases hresult
  | @added m dir hparse hnew hnew' hagree =>
      obtain rfl := Except.ok.inj hresult
      refine .magnetAdded hparse ?_ ?_ ?_ fun hpending => ?_
      · rw [Daemon.Registry.listed, hnew, hnew']
        rfl
      · rw [hafter]
        simp [OrdMap.Tree.has, OrdMap.Tree.lookup_insert]
      · rw [hafter]
        exact (hagree _ rfl).trans ((Daemon.put_apply _ _ _).trans (if_pos rfl))
      · rw [hclaim]
        obtain ⟨p, hp⟩ := Option.isSome_iff_exists.1 hpending
        unfold Daemon.Registry.claimFetch
        rw [show c'.before.registry.pending.lookup m.infoHash = some p from hp]
        simp only
        split
        · rename_i hclaimed
          simp [Daemon.Registry.claimed, hp, hclaimed]
        · simp [Daemon.Registry.claimed, OrdMap.Tree.lookup_insert]

/-- An action that is answered with a success has been done. -/
theorem done_act {c c' : Turn} {cs : List Turn} {reference h : Bytes} {a : Action}
    {answer : Response} (hresolve : c.before.registry.resolve reference = .ok h)
    (hacts : Acts d h a cs answer) (hsuccess : answer.status < 300) :
    Done d (.act reference a) (c :: c' :: cs) := by
  cases hacts with
  | detail hc => exact .detail
  | @remove w unlinked c'' deleteData result wiped hc hresult =>
      have hcases := Daemon.Answering.remove_cases w unlinked h deleteData c''.before
      have hafter : c''.after = (Daemon.Answering.remove w unlinked h deleteData c''.before).2 :=
        hc.after.trans Daemon.Answering.remove_snd.symm
      have hdeed := hc.deed
      generalize Daemon.Answering.remove w unlinked h deleteData c''.before = out
        at hresult hafter hcases
      cases hcases with
      | refused err hnot =>
          obtain ⟨rfl, -⟩ := Prod.mk.inj hresult
          exact absurd hsuccess (not_success (by decide) (status_removeError err))
      | failed io s' =>
          obtain ⟨rfl, -⟩ := Prod.mk.inj hresult
          exact absurd hsuccess (not_success (by decide) (status_removeError _))
      | magnet hpending hgone hfile =>
          obtain ⟨-, rfl⟩ := Prod.mk.inj hresult
          subst hafter
          exact .magnetRemoved hresolve hpending hgone hfile hdeed
      | torrent hpending he hgone htorrent hrecord =>
          obtain ⟨-, rfl⟩ := Prod.mk.inj hresult
          subst hafter
          exact .removed hresolve he hgone htorrent hrecord hdeed
  | @change w c'' ch result hc hresult =>
      have hafter : c''.after = (Daemon.Answering.make d.sha1 d.limits ch w h c''.before).2 :=
        hc.after.trans (Daemon.Answering.make_snd ch).symm
      cases result with
      | error e => exact absurd hsuccess (not_success (by decide) (status_actionError e))
      | ok u =>
          obtain ⟨e, e', he, hallowed, hinfo, hsettings, hrecorded⟩ :=
            Daemon.Answering.make_ok (by rw [hresult]; rfl)
          exact .changed hresolve he hallowed hinfo hsettings (hafter ▸ hrecorded)
  | unverified hc hresult =>
      exact absurd hsuccess (not_success (by decide) (status_actionError _))
  | @verified w w' c₁ c₂ scanned result hc hbegin hc' hresult =>
      have hafter : c₂.after = (Daemon.Answering.finishScan d.sha1 w' h scanned c₂.before).2 :=
        hc'.after.trans Daemon.Answering.finishScan_snd.symm
      cases result with
      | error e => exact absurd hsuccess (not_success (by decide) (status_actionError e))
      | ok n =>
          obtain ⟨found, e, x, rfl, -, he, rfl, hrecord⟩ := Daemon.Answering.finishScan_ok hresult
          refine .verified hresolve hc'.deed (fun e₁ he₁ => ?_) he (hafter ▸ hrecord)
          unfold Daemon.Answering.beginVerify at hbegin
          rw [he₁] at hbegin
          simp only at hbegin
          split at hbegin
          · cases hbegin
          · rename_i hlive
            exact Option.not_isSome_iff_eq_none.1 hlive

/-- When a client is told that a command has been done, it has: the change has been made, to the
torrent that the client named, and the state directory has it too. -/
theorem acknowledged_done (d : Daemon F) (breaks : Bool) (stream : Bytes) :
    (d.handle breaks stream).Takes fun cs result => (Daemon.answer result).status < 300 →
      ∃ r rest command, readRequest breaks MAX_REQUEST_BODY stream = .ok (r, rest) ∧
        Authentic d r ∧ Spells r command ∧ Done d command cs := by
  refine (takes_handle d breaks stream).mono fun cs result hserved hsuccess => ?_
  cases hserved with
  | unread hread hstatus => omega
  | denied hread hdenied hstatus => omega
  | meaningless hread hauth hnone hlooked hstatus =>
      exact absurd hsuccess (not_success (by decide) hstatus)
  | @carried r rest command cs _ hread hauth hspells hcarries =>
      refine ⟨r, rest, command, hread, hauth, hspells, ?_⟩
      generalize Daemon.answer result = answer at hcarries hsuccess
      cases hcarries with
      | status hc => exact .status
      | list hc => exact .list
      | torrentRefused hc hresult =>
          exact absurd hsuccess (not_success (by decide) (status_addTorrentError _))
      | torrentAdded hc hresult hc' => exact done_addTorrent hc hresult
      | magnetRefused hc hresult =>
          exact absurd hsuccess (not_success (by decide) (status_addMagnetError _))
      | magnetAdded hc hresult hdeed hclaim => exact done_addMagnet hc hresult hclaim
      | unresolved hc hresolve =>
          exact absurd hsuccess (not_success (by decide) (status_resolveError _))
      | pending hc hc' hresolve hpending hkeep =>
          exact absurd hsuccess (not_success (l := [400]) (by decide) (List.mem_of_elem_eq_true rfl))
      | act hc hc' hresolve hready hacts => exact done_act hresolve hacts hsuccess

/-! ## Refusals -/

/-- The data that a turn was to delete, and what became of it. -/
def Deed.wiped : Deed → Option Wiped
  | .performed _ _ wiped => wiped
  | _ => none

/-- A turn that left everything as it was, or only read what the engines say. -/
def Idle (d : Daemon F) (c : Turn) : Prop :=
  c.after = c.before ∨ ∃ w, Performed d w .refresh none c

theorem Looked.idle {c : Turn} (hc : Looked c) : Idle d c ∧ c.deed.wiped = none := by
  refine ⟨.inl hc.after, ?_⟩
  rw [hc.deed]
  rfl

theorem Performed.unwiped {w : World} {op : Fleet.Op} {c : Turn} (hc : Performed d w op none c) :
    c.deed.wiped = none := by
  rw [hc.deed]
  rfl

/-- A torrent is scanned and is not there any more when the scan is done. -/
def Vanished (d : Daemon F) (cs : List Turn) : Prop :=
  ∃ c c' c₁ c₂ reference h w w' scanned, cs = [c, c', c₁, c₂] ∧
    c.before.registry.resolve reference = .ok h ∧ Performed d w (.beginVerify h) none c₁ ∧
    Performed d w' (.finishScan h scanned) none c₂ ∧ c₂.before.lookup h = none

/-- A torrent is not added, by the client's fault, and nothing has changed. -/
theorem idle_addTorrent {w : World} {c : Turn} {bytes : Bytes} {options : AddOptions}
    {e : AddError} (hc : Performed d w (.addTorrent bytes options) none c)
    (hresult : (Clove.Daemon.Answering.addTorrent d.sha1 d.toLowercase w bytes options
      c.before).1 = .error e) (hfault : (d.addTorrentError e).status < 500) : Idle d c := by
  have hafter : c.after = { c.before with registry := (c.before.registry.addTorrent d.sha1
      d.toLowercase w.faults w.now bytes options).2 } := hc.after
  have hcases : Daemon.Adds d.sha1 d.toLowercase w.faults w.now bytes options c.before.registry _ :=
    Daemon.addTorrent_cases w.faults w.now bytes options c.before.registry
  have hresult : (c.before.registry.addTorrent d.sha1 d.toLowercase w.faults w.now bytes
    options).1 = .error e := hresult
  generalize c.before.registry.addTorrent d.sha1 d.toLowercase w.faults w.now bytes options = out
    at hafter hresult hcases
  cases hcases with
  | rejected e hold => exact .inl hafter
  | refused hparse htorrent hagree =>
      obtain rfl := Except.error.inj hresult
      exact absurd hfault (lt_irrefl 500)
  | undone hparse hnew hclash hresume hagree =>
      obtain rfl := Except.error.inj hresult
      exact absurd hfault (lt_irrefl 500)
  | added hparse hnew hclash _ _ hagree => cases hresult

theorem idle_addMagnet {w : World} {c : Turn} {uri : Bytes} {e : AddError}
    (hc : Performed d w (.addMagnet uri) none c)
    (hresult : (Clove.Daemon.Answering.addMagnet w uri c.before).1 = .error e)
    (hfault : (d.addMagnetError e).status < 500) : Idle d c := by
  have hafter : c.after =
      { c.before with registry := (c.before.registry.addMagnet w.faults uri).2 } := hc.after
  have hcases := Daemon.addMagnet_cases w.faults uri c.before.registry
  have hresult : (c.before.registry.addMagnet w.faults uri).1 = .error e := hresult
  generalize c.before.registry.addMagnet w.faults uri = out at hafter hresult hcases
  cases hcases with
  | rejected e => exact .inl hafter
  | refused hagree =>
      obtain rfl := Except.error.inj hresult
      exact absurd hfault (lt_irrefl 500)
  | added hparse hnew hnew' hagree => cases hresult

/-- An action that is answered with an error has deleted nothing, and if the client is at fault it
has changed nothing. -/
theorem refused_act {h : Bytes} {a : Action} {cs : List Turn} {answer : Response}
    (hacts : Acts d h a cs answer) (herror : 400 ≤ answer.status) :
    (∀ c ∈ cs, c.deed.wiped = none) ∧ (answer.status < 500 → (∀ c ∈ cs, Idle d c) ∨
      ∃ c₁ c₂ w w' scanned, cs = [c₁, c₂] ∧ Performed d w (.beginVerify h) none c₁ ∧
        Performed d w' (.finishScan h scanned) none c₂ ∧ c₂.before.lookup h = none) := by
  cases hacts with
  | detail hc =>
      simp only [List.mem_singleton, forall_eq]
      exact ⟨hc.unwiped, fun _ => .inl (.inr ⟨_, hc⟩)⟩
  | @remove w unlinked c deleteData result wiped hc hresult =>
      have hcases := Daemon.Answering.remove_cases w unlinked h deleteData c.before
      have hafter : c.after = (Daemon.Answering.remove w unlinked h deleteData c.before).2 :=
        hc.after.trans Daemon.Answering.remove_snd.symm
      have hdeed := hc.deed
      simp only [List.mem_singleton, forall_eq]
      generalize Daemon.Answering.remove w unlinked h deleteData c.before = out
        at hresult hafter hcases
      cases hcases with
      | refused err hnot =>
          obtain ⟨rfl, rfl⟩ := Prod.mk.inj hresult
          exact ⟨hdeed ▸ rfl, fun _ => .inl (.inl hafter)⟩
      | failed io s' =>
          obtain ⟨rfl, rfl⟩ := Prod.mk.inj hresult
          exact ⟨hdeed ▸ rfl, fun hfault => absurd hfault (lt_irrefl 500)⟩
      | magnet hpending hgone hfile =>
          obtain ⟨rfl, -⟩ := Prod.mk.inj hresult
          exact absurd herror (show ¬ 400 ≤ 200 by decide)
      | torrent hpending he hgone htorrent hrecord =>
          obtain ⟨rfl, -⟩ := Prod.mk.inj hresult
          exact absurd herror (show ¬ 400 ≤ 200 by decide)
  | @change w c ch result hc hresult =>
      have hafter : c.after = (Daemon.Answering.make d.sha1 d.limits ch w h c.before).2 :=
        hc.after.trans (Daemon.Answering.make_snd ch).symm
      simp only [List.mem_singleton, forall_eq]
      refine ⟨hc.unwiped, fun hfault => .inl ?_⟩
      cases result with
      | ok u => exact absurd herror (show ¬ 400 ≤ 200 by decide)
      | error e =>
          obtain ⟨io, rfl⟩ | hsame := Daemon.Answering.make_error hresult
          · exact absurd hfault (lt_irrefl 500)
          · exact .inl (hafter.trans hsame)
  | @unverified w c e hc hresult =>
      have hafter : c.after = (Daemon.Answering.beginVerify h c.before).2 :=
        hc.after.trans Daemon.Answering.beginVerify_snd.symm
      simp only [List.mem_singleton, forall_eq]
      exact ⟨hc.unwiped, fun _ =>
        .inl (.inl (hafter.trans (Daemon.Answering.beginVerify_error hresult)))⟩
  | @verified w w' c₁ c₂ scanned result hc hbegin hc' hresult =>
      refine ⟨fun c hmem => ?_, fun hfault => .inr ⟨c₁, c₂, w, w', scanned, rfl, hc, hc', ?_⟩⟩
      · simp only [List.mem_cons, List.not_mem_nil, or_false] at hmem
        rcases hmem with rfl | rfl
        · exact hc.unwiped
        · exact hc'.unwiped
      · cases result with
        | ok n => exact absurd herror (show ¬ 400 ≤ 200 by decide)
        | error e =>
            refine Option.eq_none_iff_forall_ne_some.2 fun x hx => ?_
            obtain ⟨io, rfl⟩ := Daemon.Answering.finishScan_error hx hresult
            exact absurd hfault (lt_irrefl 500)

/-- When a client is told that something went wrong, no downloaded file has been deleted.  And when
it is told that its request was at fault, nothing at all has been changed, unless a torrent was gone
by the time it had been scanned. -/
theorem refused_unchanged (d : Daemon F) (breaks : Bool) (stream : Bytes) :
    (d.handle breaks stream).Takes fun cs result => 400 ≤ (Daemon.answer result).status →
      (∀ c ∈ cs, c.deed.wiped = none) ∧
      ((Daemon.answer result).status < 500 → (∀ c ∈ cs, Idle d c) ∨ Vanished d cs) := by
  refine (takes_handle d breaks stream).mono fun cs result hserved herror => ?_
  generalize Daemon.answer result = answer at hserved herror
  have hlooked : ∀ cs : List Turn, (∀ c ∈ cs, Looked c) → (∀ c ∈ cs, c.deed.wiped = none) ∧
      (answer.status < 500 → (∀ c ∈ cs, Idle d c) ∨ Vanished d cs) := fun cs hcs =>
    ⟨fun c hc => ((hcs c hc).idle (d := d)).2, fun _ => .inl fun c hc => (hcs c hc).idle.1⟩
  have hone : ∀ {c : Turn}, (c.deed.wiped = none ∧ (answer.status < 500 → Idle d c)) →
      (∀ c' ∈ [c], c'.deed.wiped = none) ∧
      (answer.status < 500 → (∀ c' ∈ [c], Idle d c') ∨ Vanished d [c]) := by
    intro c hc
    simp only [List.mem_singleton, forall_eq]
    exact ⟨hc.1, fun hfault => .inl (hc.2 hfault)⟩
  cases hserved with
  | unread hread hstatus => exact hlooked [] fun c hc => absurd hc List.not_mem_nil
  | denied hread hdenied hstatus => exact hlooked [] fun c hc => absurd hc List.not_mem_nil
  | meaningless hread hauth hnone hcs hstatus => exact hlooked cs hcs
  | carried hread hauth hspells hcarries =>
      cases hcarries with
      | status hc => exact hone ⟨hc.unwiped, fun _ => .inr ⟨_, hc⟩⟩
      | list hc => exact hone ⟨hc.unwiped, fun _ => .inr ⟨_, hc⟩⟩
      | torrentRefused hc hresult => exact hone ⟨hc.unwiped, idle_addTorrent hc hresult⟩
      | torrentAdded hc hresult hc' => exact absurd herror (show ¬ 400 ≤ 201 by decide)
      | magnetRefused hc hresult => exact hone ⟨hc.unwiped, idle_addMagnet hc hresult⟩
      | magnetAdded hc hresult hdeed hclaim => exact absurd herror (show ¬ 400 ≤ 201 by decide)
      | unresolved hc hresolve =>
          exact hlooked _ fun c hmem => List.mem_singleton.1 hmem ▸ hc
      | pending hc hc' hresolve hpending hkeep =>
          refine hlooked _ fun c hmem => ?_
          simp only [List.mem_cons, List.not_mem_nil, or_false] at hmem
          rcases hmem with rfl | rfl
          · exact hc
          · exact hc'
      | @act c c' cs reference h a _ hc hc' hresolve hready hacts =>
          obtain ⟨hwiped, hidle⟩ := refused_act hacts herror
          have hboth : ∀ x ∈ [c, c'], Looked x := by
            intro x hx
            simp only [List.mem_cons, List.not_mem_nil, or_false] at hx
            rcases hx with rfl | rfl
            · exact hc
            · exact hc'
          have hall : ∀ {P : Turn → Prop}, (∀ x ∈ [c, c'], P x) → (∀ x ∈ cs, P x) →
              ∀ x ∈ [c, c'] ++ cs, P x := fun h h' => List.forall_mem_append.2 ⟨h, h'⟩
          refine ⟨hall (fun x hx => ((hboth x hx).idle (d := d)).2) hwiped, fun hfault =>
            (hidle hfault).imp (hall fun x hx => (hboth x hx).idle.1) ?_⟩
          · rintro ⟨c₁, c₂, w, w', scanned, rfl, hbegin, hfinish, hgone⟩
            exact ⟨c, c', c₁, c₂, reference, h, w, w', scanned, rfl, hresolve, hbegin, hfinish,
              hgone⟩

end Clove.Control
