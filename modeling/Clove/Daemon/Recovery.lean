import Clove.Daemon.Answers
import Clove.Daemon.Completion
import Clove.Daemon.Failures
import Clove.Daemon.Names
import Clove.Daemon.Records
import Clove.MetainfoChecks
import Clove.ResumeCompat

/-!
# What a restart finds

Everything the daemon has to remember is in the state directory between any two operations of the
registry.  `Held` says so of one torrent: whatever is done to it or to others, its two files read
back as the torrent that is hosted, with the settings it has.  So the daemon may end at any time,
and the next start hosts the torrent as it was (`restart_recovers`), though it believes in no more
pieces than its last record had verified.

It is the calls on the files of this one torrent that have to work for that; the calls on all
others may fail.
-/

namespace Clove.Daemon

open Torrent (Shared)
open Answering (Settings settings)

/-! ## What is remembered -/

/-- The settings as a record can hold them: numbers are cut off at the end of an `i64`. -/
def Answering.Settings.stored (σ : Settings) : Settings :=
  { σ with seedRatioMilli := Resume.saturate σ.seedRatioMilli }

/-- What is read back has the settings of what is hosted, and no piece it has not. -/
structure Recovers (x y : Hosted) : Prop where
  same : (settings x).stored = (settings y).stored
  fewer : Within x.have_ y.have_

/-- An entry whose record can be read back. -/
structure Loadable (sha1 : Bytes → Bytes) (e : Entry) : Prop where
  sized : Sized (sharedOf sha1 e.info) e.hosted
  within : Within e.hosted.verified e.hosted.have_

/-- What an engine says of itself is about this torrent: whoever reads it later finds no fewer
pieces, and the pieces made safe are among those it has. -/
structure Honest (sha1 : Bytes → Bytes) (w : World) (h : Bytes) (e : Entry) : Prop where
  reads : (w.reads h).have_.len = (sharedOf sha1 e.info).numPieces
  stops : (w.stops h).have_.len = (sharedOf sha1 e.info).numPieces
  durable : ∀ b, (w.stops h).durable = some b → b.len = (sharedOf sha1 e.info).numPieces
  grows : Within e.hosted.have_ (e.hosted.refreshed (w.reads h)).have_
  later : Within (e.hosted.refreshed (w.reads h)).have_ (w.stops h).have_
  safe : ∀ b, (w.stops h).durable = some b → Within b (e.hosted.refreshed (w.reads h)).have_

/-- The calls on the state files of a torrent work. -/
def Spared (f : Faults) (h : Bytes) : Prop :=
  ∀ c n, c.file = some n → n.stem = hex h → f.fails c = false

/-- An operation that meets nothing wrong with one torrent.  A start meets nothing wrong at all,
and a scan that ends is one that was under way. -/
structure Undisturbed (sha1 : Bytes → Bytes) (h : Bytes) (a : World × Fleet.Op) (s : Fleet) :
    Prop where
  spared : Spared a.1.faults h
  honest : ∀ e, s.lookup h = some e → Honest sha1 a.1 h e
  start : ∀ order, a.2 = .start order → Sound a.1.faults ∧ Lists order s.registry.dir
  scan : ∀ found, a.2 = .finishScan h (.ok found) → ∀ e, s.lookup h = some e →
    e.hosted.scanning = true ∧ found.len = (sharedOf sha1 e.info).numPieces

variable {sha1 toLowercase : Bytes → Bytes} {limits : Limits} {w : World} {h : Bytes} {s : Fleet}
  {f : Faults} {d : Dir}

theorem Recovers.refl (x : Hosted) : Recovers x x := ⟨rfl, Within.refl _⟩

/-- What is hosted may change, as long as the settings stay and no piece is lost. -/
theorem Recovers.grow {x y y' : Hosted} (hr : Recovers x y) (hsettings : settings y' = settings y)
    (hpieces : Within y.have_ y'.have_) : Recovers x y' :=
  ⟨hr.same.trans (congrArg Settings.stored hsettings).symm, hr.fewer.trans hpieces⟩

/-- A change of what readings do not depend on. -/
theorem Honest.congr {e : Entry} {y : Hosted} (he : Honest sha1 w h e)
    (hhave : y.have_ = e.hosted.have_) (hlive : y.live = e.hosted.live) :
    Honest sha1 w h { e with hosted := y } := by
  have hshown : (y.refreshed (w.reads h)).have_ = (e.hosted.refreshed (w.reads h)).have_ := by
    unfold Hosted.refreshed
    rw [hlive]
    cases e.hosted.live with
    | none => exact hhave
    | some base => rfl
  exact ⟨he.reads, he.stops, he.durable, by rw [hshown, hhave]; exact he.grows,
    by rw [hshown]; exact he.later, by rw [hshown]; exact he.safe⟩

/-- Once it is refreshed. -/
structure Shown (sha1 : Bytes → Bytes) (w : World) (h : Bytes) (e : Entry) : Prop where
  loadable : Loadable sha1 e
  stops : (w.stops h).have_.len = (sharedOf sha1 e.info).numPieces
  durable : ∀ b, (w.stops h).durable = some b → b.len = (sharedOf sha1 e.info).numPieces
  later : Within e.hosted.have_ (w.stops h).have_
  safe : ∀ b, (w.stops h).durable = some b → Within b e.hosted.have_

namespace Fleet

theorem dir_modify (g : Hosted → Hosted) (k : Bytes) (s : Fleet) :
    (s.modify g k).registry.dir = s.registry.dir := by
  unfold modify
  split
  · rfl
  · rfl

theorem dir_stopLive (w : World) (k : Bytes) (s : Fleet) :
    (s.stopLive w k).registry.dir = s.registry.dir := by
  unfold stopLive
  split
  · rfl
  · split
    · rfl
    · exact dir_modify _ k s

theorem dir_foldl {α : Type} {act : Fleet → α → Fleet}
    (hact : ∀ s a, (act s a).registry.dir = s.registry.dir) (l : List α) (s : Fleet) :
    (l.foldl act s).registry.dir = s.registry.dir := by
  induction l generalizing s with
  | nil => rfl
  | cons a l ih => exact (ih _).trans (hact s a)

end Fleet

/-! ## One entry -/

section Entries

variable {e : Entry} {x : Hosted}

theorem Loadable.congr {y : Hosted} (he : Loadable sha1 e) (hhave : y.have_ = e.hosted.have_)
    (hverified : y.verified = e.hosted.verified) (hpriorities : y.priorities = e.hosted.priorities) :
    Loadable sha1 { e with hosted := y } where
  sized := ⟨hhave ▸ he.sized.have_, hverified ▸ he.sized.verified, hpriorities ▸ he.sized.ranked⟩
  within := by
    show Within y.verified y.have_
    rw [hverified, hhave]
    exact he.within

/-- Stopping takes the pieces of the engine over. -/
theorem Loadable.stopped (he : Loadable sha1 e)
    (hlen : (w.stops h).have_.len = (sharedOf sha1 e.info).numPieces)
    (hdurable : ∀ b, (w.stops h).durable = some b → b.len = (sharedOf sha1 e.info).numPieces)
    (hlater : Within e.hosted.have_ (w.stops h).have_)
    (hsafe : ∀ b, (w.stops h).durable = some b → Within b (w.stops h).have_) :
    Loadable sha1 { e with hosted := e.hosted.stopped (w.stops h) } := by
  unfold Hosted.stopped
  cases hlive : e.hosted.live with
  | none => exact he
  | some base =>
      cases hsome : (w.stops h).durable with
      | none => exact ⟨⟨hlen, he.sized.verified, he.sized.ranked⟩, he.within.trans hlater⟩
      | some b =>
          exact ⟨⟨hlen, hdurable b hsome, he.sized.ranked⟩, hsafe b hsome⟩

theorem within_stopped (hlater : Within e.hosted.have_ (w.stops h).have_) :
    Within e.hosted.have_ (e.hosted.stopped (w.stops h)).have_ := by
  unfold Hosted.stopped
  cases e.hosted.live with
  | none => exact Within.refl _
  | some base => exact hlater

theorem Recovers.stopped (hr : Recovers x e.hosted)
    (hlater : Within e.hosted.have_ (w.stops h).have_) :
    Recovers x (e.hosted.stopped (w.stops h)) :=
  hr.grow (Answering.settings_stopped _ _) (within_stopped hlater)

/-- An entry that is ready to be stopped or refreshed. -/
structure Ready (sha1 : Bytes → Bytes) (w : World) (h : Bytes) (e : Entry) : Prop where
  loadable : Loadable sha1 e
  honest : Honest sha1 w h e

namespace Ready

theorem later (he : Ready sha1 w h e) : Within e.hosted.have_ (w.stops h).have_ :=
  he.honest.grows.trans he.honest.later

theorem safe (he : Ready sha1 w h e) {b : Bitfield} (hb : (w.stops h).durable = some b) :
    Within b (w.stops h).have_ :=
  (he.honest.safe b hb).trans he.honest.later

theorem stopped (he : Ready sha1 w h e) :
    Ready sha1 w h { e with hosted := e.hosted.stopped (w.stops h) } := by
  refine ⟨he.loadable.stopped he.honest.stops he.honest.durable he.later fun b => he.safe, ?_⟩
  cases hlive : e.hosted.live with
  | none =>
      rw [Fleet.stopped_of_none _ hlive]
      exact he.honest
  | some base =>
      have hstopped : (e.hosted.stopped (w.stops h)).have_ = (w.stops h).have_ := by
        unfold Hosted.stopped
        rw [hlive]
      have hshown : ((e.hosted.stopped (w.stops h)).refreshed (w.reads h)).have_ =
          (w.stops h).have_ := by
        unfold Hosted.refreshed
        rw [(e.hosted.stopped_eq (w.stops h)).1]
        exact hstopped
      refine ⟨he.honest.reads, he.honest.stops, he.honest.durable, ?_, ?_, fun b hb => ?_⟩
      · rw [hshown, hstopped]
        exact Within.refl _
      · rw [hshown]
        exact Within.refl _
      · rw [hshown]
        exact he.safe hb

theorem congr {y : Hosted} (he : Ready sha1 w h e) (hhave : y.have_ = e.hosted.have_)
    (hverified : y.verified = e.hosted.verified) (hpriorities : y.priorities = e.hosted.priorities)
    (hlive : y.live = e.hosted.live) : Ready sha1 w h { e with hosted := y } :=
  ⟨he.loadable.congr hhave hverified hpriorities, he.honest.congr hhave hlive⟩

theorem refreshed (he : Ready sha1 w h e) :
    Shown sha1 w h { e with hosted := e.hosted.refreshed (w.reads h) } := by
  refine ⟨?_, he.honest.stops, he.honest.durable, he.honest.later, he.honest.safe⟩
  have hgrows := he.honest.grows
  unfold Hosted.refreshed at hgrows ⊢
  cases hlive : e.hosted.live with
  | none => exact he.loadable.congr rfl rfl rfl
  | some base =>
      rw [hlive] at hgrows
      exact ⟨⟨he.honest.reads, he.loadable.sized.verified, he.loadable.sized.ranked⟩,
        he.loadable.within.trans hgrows⟩

end Ready

namespace Shown

theorem stopped (he : Shown sha1 w h e) :
    Shown sha1 w h { e with hosted := e.hosted.stopped (w.stops h) } := by
  refine ⟨he.loadable.stopped he.stops he.durable he.later fun b hb => (he.safe b hb).trans he.later,
    he.stops, he.durable, ?_, fun b hb => (he.safe b hb).trans (within_stopped he.later)⟩
  show Within (e.hosted.stopped (w.stops h)).have_ (w.stops h).have_
  unfold Hosted.stopped
  cases e.hosted.live with
  | none => exact he.later
  | some base => exact Within.refl _

theorem congr {y : Hosted} (he : Shown sha1 w h e) (hhave : y.have_ = e.hosted.have_)
    (hverified : y.verified = e.hosted.verified) (hpriorities : y.priorities = e.hosted.priorities) :
    Shown sha1 w h { e with hosted := y } := by
  refine ⟨he.loadable.congr hhave hverified hpriorities, he.stops, he.durable, ?_, fun b hb => ?_⟩
  · show Within y.have_ (w.stops h).have_
    rw [hhave]
    exact he.later
  · show Within b y.have_
    rw [hhave]
    exact he.safe b hb

/-- What has been made safe counts as verified. -/
theorem persisted (he : Shown sha1 w h e) : Shown sha1 w h { e with
    hosted := { e.hosted with verified := (w.stops h).durable.getD e.hosted.verified } } := by
  refine ⟨?_, he.stops, he.durable, he.later, he.safe⟩
  cases hsome : (w.stops h).durable with
  | none => exact he.loadable
  | some b =>
      exact ⟨⟨he.loadable.sized.have_, he.durable b hsome, he.loadable.sized.ranked⟩,
        he.safe b hsome⟩

end Shown

end Entries

/-! ## Primitive steps -/

/-- What holds of one torrent: as it is hosted, and between that and what its files hold. -/
structure Held (sha1 toLowercase : Bytes → Bytes) (h : Bytes) (R : Hosted → Hosted → Prop)
    (P : Entry → Prop) (s : Fleet) : Prop where
  named : Named sha1 toLowercase s.registry.dir
  entry : ∀ e, s.lookup h = some e → P e ∧
    ∃ x, hostedOn sha1 toLowercase s.registry.dir h = some ⟨e.info, x⟩ ∧ R x e.hosted

/-- Its files hold the torrent, with whatever settings. -/
abbrev OnFile (sha1 toLowercase : Bytes → Bytes) (h : Bytes) : (Entry → Prop) → Fleet → Prop :=
  Held sha1 toLowercase h fun _ _ => True

/-- Its files hold the torrent as it is. -/
abbrev Remembered (sha1 toLowercase : Bytes → Bytes) (h : Bytes) : (Entry → Prop) → Fleet → Prop :=
  Held sha1 toLowercase h Recovers

namespace Held

variable {R R' : Hosted → Hosted → Prop} {P Q : Entry → Prop} {s' : Fleet} {k : Bytes}

theorem mono (hs : Held sha1 toLowercase h R P s) (hP : ∀ e, P e → Q e)
    (hR : ∀ x y, R x y → R' x y) : Held sha1 toLowercase h R' Q s where
  named := hs.named
  entry := fun e he =>
    have ⟨hPe, x, hx, hRx⟩ := hs.entry e he
    ⟨hP e hPe, x, hx, hR x _ hRx⟩

theorem weaken (hs : Held sha1 toLowercase h R P s) (hP : ∀ e, P e → Q e) :
    Held sha1 toLowercase h R Q s :=
  hs.mono hP fun _ _ => id

/-- Nothing is done to the torrent or its files. -/
theorem congr (hs : Held sha1 toLowercase h R P s) (hlookup : s'.lookup h = s.lookup h)
    (hnamed : Named sha1 toLowercase s'.registry.dir)
    (hfiles : hostedOn sha1 toLowercase s'.registry.dir h =
      hostedOn sha1 toLowercase s.registry.dir h) : Held sha1 toLowercase h R P s' where
  named := hnamed
  entry := by
    rw [hlookup, hfiles]
    exact hs.entry

/-- The entry is changed, if it is there at all, and the files are not. -/
theorem change (hs : Held sha1 toLowercase h R P s) (hdir : s'.registry.dir = s.registry.dir)
    (hlookup : ∀ e', s'.lookup h = some e' → ∃ e y, s.lookup h = some e ∧
      e' = { e with hosted := y } ∧ (P e → Q { e with hosted := y }) ∧
        ∀ x, P e → R x e.hosted → R' x y) : Held sha1 toLowercase h R' Q s' where
  named := hdir ▸ hs.named
  entry := by
    intro e' he'
    obtain ⟨e, y, he, rfl, hQ, hR⟩ := hlookup e' he'
    obtain ⟨hP, x, hx, hRx⟩ := hs.entry e he
    exact ⟨hQ hP, x, hdir ▸ hx, hR x hP hRx⟩

theorem modify (hs : Held sha1 toLowercase h R P s) {g : Hosted → Hosted} (k : Bytes)
    (hP : ∀ e, P e → P { e with hosted := g e.hosted })
    (hR : ∀ e x, P e → R x e.hosted → R x (g e.hosted)) :
    Held sha1 toLowercase h R P (s.modify g k) := by
  have hlookup := congrArg Member.entry (Fleet.member_modify g k h s)
  refine hs.change (Fleet.dir_modify g k s) fun e' he' => ?_
  rw [Fleet.member_entry, he'] at hlookup
  by_cases hk : h = k
  · rw [if_pos hk] at hlookup
    obtain ⟨e, he, rfl⟩ := Option.map_eq_some_iff.1 hlookup.symm
    exact ⟨e, _, he, rfl, hP e, hR e⟩
  · rw [if_neg hk] at hlookup
    exact ⟨e', e'.hosted, hlookup.symm, rfl, id, fun x _ => id⟩

/-- The torrent itself is changed. -/
theorem modify_self (hs : Held sha1 toLowercase h R P s) {g : Hosted → Hosted}
    (hP : ∀ e, P e → Q { e with hosted := g e.hosted }) :
    OnFile sha1 toLowercase h Q (s.modify g h) := by
  have hlookup := congrArg Member.entry (Fleet.member_modify g h h s)
  refine hs.change (Fleet.dir_modify g h s) fun e' he' => ?_
  rw [Fleet.member_entry, he', if_pos rfl] at hlookup
  obtain ⟨e, he, rfl⟩ := Option.map_eq_some_iff.1 hlookup.symm
  exact ⟨e, _, he, rfl, hP e, fun x _ _ => trivial⟩

/-- Another one is changed. -/
theorem modify_other (hs : Held sha1 toLowercase h R P s) (g : Hosted → Hosted) (hk : h ≠ k) :
    Held sha1 toLowercase h R P (s.modify g k) := by
  have hlookup := congrArg Member.entry (Fleet.member_modify g k h s)
  rw [Fleet.member_entry, if_neg hk, Fleet.member_entry] at hlookup
  exact hs.congr hlookup (Fleet.dir_modify g k s ▸ hs.named) (by rw [Fleet.dir_modify])

theorem stopLive (hs : Held sha1 toLowercase h R P s) (w : World) (k : Bytes)
    (hP : ∀ e, P e → P { e with hosted := e.hosted.stopped (w.stops h) })
    (hR : ∀ e x, P e → R x e.hosted → R x (e.hosted.stopped (w.stops h))) :
    Held sha1 toLowercase h R P (s.stopLive w k) := by
  have hlookup := congrArg Member.entry (Fleet.member_stopLive w k h s)
  refine hs.change (Fleet.dir_stopLive w k s) fun e' he' => ?_
  rw [Fleet.member_entry, he'] at hlookup
  by_cases hk : h = k
  · rw [if_pos hk] at hlookup
    obtain ⟨e, he, rfl⟩ := Option.map_eq_some_iff.1 hlookup.symm
    exact ⟨e, _, he, rfl, hk ▸ hP e, hk ▸ hR e⟩
  · rw [if_neg hk] at hlookup
    exact ⟨e', e'.hosted, hlookup.symm, rfl, id, fun x _ => id⟩

/-- The engines are brought in line: the torrent is left alone, started or stopped. -/
theorem reconcile (hs : Held sha1 toLowercase h R P s) (w : World) (hPQ : ∀ e, P e → Q e)
    (hstart : ∀ e, P e → Q { e with hosted := e.hosted.started })
    (hstop : ∀ e, P e → Q { e with hosted := e.hosted.stopped (w.stops h) })
    (hR : ∀ e x, P e → R x e.hosted → R x e.hosted.started ∧ R x (e.hosted.stopped (w.stops h))) :
    Held sha1 toLowercase h R Q (s.reconcile w) := by
  cases hnetwork : s.network with
  | false =>
      have hsame : s.reconcile w = s := if_pos (by simp [hnetwork])
      rw [hsame]
      exact hs.weaken hPQ
  | true =>
      have hmember := congrArg Member.entry (Fleet.member_reconcile w s h hnetwork)
      refine hs.change (Answering.dir_reconcile w s) fun e' he' => ?_
      rw [Fleet.member_entry, he'] at hmember
      cases hlookup : s.lookup h with
      | none =>
          rw [hlookup] at hmember
          simp only [Fleet.member_entry, hlookup] at hmember
          cases hmember
      | some e =>
          rw [hlookup] at hmember
          simp only at hmember
          split at hmember
          · unfold Member.start at hmember
            split at hmember
            · obtain ⟨e₁, he₁, rfl⟩ := Option.map_eq_some_iff.1 hmember.symm
              obtain rfl := Option.some.inj (hlookup.symm.trans he₁)
              exact ⟨e, _, rfl, rfl, hstart e, fun x hPe hRx => (hR e x hPe hRx).1⟩
            · obtain rfl := Option.some.inj (hmember.trans hlookup)
              exact ⟨e', _, rfl, rfl, hPQ e', fun x _ => id⟩
          · obtain ⟨e₁, he₁, rfl⟩ := Option.map_eq_some_iff.1 hmember.symm
            obtain rfl := Option.some.inj (hlookup.symm.trans he₁)
            exact ⟨e, _, rfl, rfl, hstop e, fun x hPe hRx => (hR e x hPe hRx).2⟩

theorem foldl {α : Type} {act : Fleet → α → Fleet}
    (hact : ∀ a s, Held sha1 toLowercase h R P s → Held sha1 toLowercase h R P (act s a))
    (l : List α) (hs : Held sha1 toLowercase h R P s) :
    Held sha1 toLowercase h R P (l.foldl act s) := by
  induction l generalizing s with
  | nil => exact hs
  | cons a l ih => exact ih (hact a s hs)

end Held

/-! ## Writing a record -/

theorem hostedOn_eq_some {m : MetaInfo} {x : Hosted} :
    hostedOn sha1 toLowercase d h = some ⟨m, x⟩ ↔ m.infoHash = h ∧
      (∃ bytes, d (stateFile h .torrent) = some bytes ∧
        MetaInfo.parse sha1 toLowercase bytes = .ok m) ∧
      ∃ record, d (stateFile h .resume) = some record ∧
        loadOne (sharedOf sha1 m) record = .ok x := by
  unfold hostedOn
  constructor
  · intro hhosted
    obtain ⟨bytes, hbytes, hhosted⟩ := Option.bind_eq_some_iff.1 hhosted
    obtain ⟨m', hparse, hhosted⟩ := Option.bind_eq_some_iff.1 hhosted
    split at hhosted
    · cases hhosted
    rename_i hhash
    obtain ⟨record, hrecord, hhosted⟩ := Option.bind_eq_some_iff.1 hhosted
    obtain ⟨x', hload, hhosted⟩ := Option.bind_eq_some_iff.1 hhosted
    cases hhosted
    exact ⟨not_not.1 hhash, ⟨bytes, hbytes, Except.ok_of_toOption hparse⟩, record, hrecord,
      Except.ok_of_toOption hload⟩
  · rintro ⟨hhash, ⟨bytes, hbytes, hparse⟩, record, hrecord, hload⟩
    rw [hbytes]
    simp [hparse, hhash, hrecord, hload, Except.toOption]

/-- A write to a file of another torrent, or of another kind. -/
theorem hostedOn_atomicWrite {n : FileName} (htorrent : stateFile h .torrent ≠ n)
    (hresume : stateFile h .resume ≠ n) (bytes : Bytes) :
    hostedOn sha1 toLowercase (d.atomicWrite f n bytes).2 h = hostedOn sha1 toLowercase d h := by
  obtain ⟨-, d', heq, hbeside⟩ | ⟨-, e, d', heq, hbeside⟩ := atomicWrite_cases f n bytes d
  · rw [heq, hbeside.agree.hostedOn]
    exact hostedOn_congr ((put_apply _ _ _).trans (if_neg htorrent))
      ((put_apply _ _ _).trans (if_neg hresume))
  · rw [heq, hbeside.agree.hostedOn]

theorem Named.writeResume (hd : Named sha1 toLowercase d) (k bytes : Bytes) :
    Named sha1 toLowercase (d.atomicWrite f (stateFile k .resume) bytes).2 := by
  obtain ⟨-, d', heq, hbeside⟩ | ⟨-, e, d', heq, hbeside⟩ :=
    atomicWrite_cases f (stateFile k .resume) bytes d
  · rw [heq]
    exact (hd.put_resume k bytes).agree hbeside.agree
  · rw [heq]
    exact hd.agree hbeside.agree

theorem Spared.not_refused (hf : Spared f h) (kind : Kind) : ¬ Refused f (stateFile h kind) d := by
  intro hrefused
  obtain ⟨c, hc, hfile⟩ := hrefused.exists_call
  rw [hf c _ hfile rfl] at hc
  cases hc

theorem length_of_parseEntries {name : Bytes} {l : List Bencode.Value} {total total' : Nat}
    {files : List FileEntry} (hparse : Metainfo.parseEntries name total l = .ok (files, total')) :
    files.length = l.length := by
  induction l generalizing total total' files with
  | nil =>
      obtain ⟨rfl, rfl⟩ := Prod.mk.inj (Except.ok.inj hparse)
      rfl
  | cons file l ih =>
      obtain ⟨⟨entry, sum⟩, -, hparse⟩ := Except.ok_of_bind hparse
      obtain ⟨⟨entries, sum'⟩, hrest, hparse⟩ := Except.ok_of_bind hparse
      obtain ⟨rfl, rfl⟩ := Prod.mk.inj (Except.ok.inj hparse)
      rw [List.length_cons, List.length_cons, ih hrest]

theorem length_of_parseFiles {info : Bencode.Value} {name : Bytes} {files : List FileEntry}
    {total : Nat} (hparse : Metainfo.parseFiles toLowercase info name = .ok (files, total)) :
    files.length ≤ Metainfo.MAX_FILES := by
  unfold Metainfo.parseFiles at hparse
  split at hparse
  · cases hparse
  · cases hparse
  · obtain ⟨length, -, hparse⟩ := Except.ok_of_bind hparse
    obtain ⟨-, -, hparse⟩ := Except.ok_of_bind hparse
    obtain ⟨rfl, rfl⟩ := Prod.mk.inj (Except.ok.inj hparse)
    exact (by decide : 1 ≤ Metainfo.MAX_FILES)
  · obtain ⟨list, -, hparse⟩ := Except.ok_of_bind hparse
    obtain ⟨-, -, hparse⟩ := Except.ok_of_bind hparse
    obtain ⟨_, hmany, hparse⟩ := Except.ok_of_bind hparse
    obtain ⟨⟨entries, sum⟩, hentries, hparse⟩ := Except.ok_of_bind hparse
    obtain ⟨-, -, hparse⟩ := Except.ok_of_bind hparse
    obtain ⟨-, -, hparse⟩ := Except.ok_of_bind hparse
    obtain ⟨rfl, rfl⟩ := Prod.mk.inj (Except.ok.inj hparse)
    rw [length_of_parseEntries hentries]
    exact Nat.le_of_not_lt (of_decide_eq_false (MetaInfo.not_of_refuse hmany))

theorem length_regions (sha1 : Bytes → Bytes) (m : MetaInfo) :
    (sharedOf sha1 m).storage.regions.length = m.files.length := by
  have hsame := congrArg List.length (length_regionsFrom 0 0 (m.files.map (·.length)))
  rwa [List.length_map, List.length_map] at hsame

/-- What a torrent file is parsed to can be hosted. -/
theorem hostable_of_parse {bytes : Bytes} {m : MetaInfo}
    (hparse : MetaInfo.parse sha1 toLowercase bytes = .ok m) (hlen : m.infoHash.length = 20) : Hostable (sharedOf sha1 m) := by
  have hconsistent := MetaInfo.consistent_of_parse hparse
  obtain ⟨root, info, start, stop, -, -, hparsed⟩ := MetaInfo.parsed_of_parse hparse
  have hfew : m.pieces.length ≤ Metainfo.MAX_PIECES := hconsistent.geometry.few
  refine ⟨hlen, hconsistent.pieces, hfew.trans_lt (by decide), ?_⟩
  · have hfiles := length_of_parseFiles hparsed.files
    rw [length_regions, Bencode.inUsize, decide_eq_true_eq]
    exact hfiles.trans_lt (by decide)

/-- What is written is read back. -/
theorem Recovers.written {sh : Shared} (x : Hosted) (hverified : Within x.verified x.have_) :
    Recovers (fromResume (x.resume sh).saturated x.have_ x.verified) x := by
  refine ⟨?_, hverified⟩
  have hsaturate : ∀ n, Resume.saturate (Resume.saturate n) = Resume.saturate n := fun n =>
    Nat.min_eq_left (Nat.min_le_right _ _)
  have hwanted : (fromResume (x.resume sh).saturated x.have_ x.verified).wanted = x.wanted := by
    unfold fromResume Hosted.resume Resume.saturated
    cases x.wanted with
    | running => rfl
    | paused why => cases why <;> rfl
  simp only [settings, Settings.stored, hwanted]
  congr 1
  exact hsaturate _

namespace Held

variable {R : Hosted → Hosted → Prop} {P : Entry → Prop} {k : Bytes}

theorem writeResume_other (hs : Held sha1 toLowercase h R P s) (hk : h ≠ k) :
    Held sha1 toLowercase h R P (s.writeResume sha1 w k) := by
  have hlookup := congrArg Member.entry (Fleet.member_writeResume sha1 w k h s)
  unfold Fleet.writeResume at hlookup ⊢
  cases hsome : s.lookup k with
  | none => exact hs
  | some e =>
      rw [hsome] at hlookup
      exact hs.congr hlookup (hs.named.writeResume k _)
        (hostedOn_atomicWrite (fun heq => by cases congrArg FileName.kind heq)
          (fun heq => hk (stateFile_inj heq).1) _)

/-- Whatever its record was, it is the torrent's own now. -/
theorem writeResume_self (hs : OnFile sha1 toLowercase h P s) (hh : h.length = 20)
    (hw : Spared w.faults h) (hP : ∀ e, P e → Loadable sha1 e) :
    Remembered sha1 toLowercase h P (s.writeResume sha1 w h) := by
  have hlookup := congrArg Member.entry (Fleet.member_writeResume sha1 w h h s)
  unfold Fleet.writeResume at hlookup ⊢
  cases hsome : s.lookup h with
  | none =>
      refine ⟨hs.named, fun e he => ?_⟩
      rw [hsome] at he
      cases he
  | some e =>
      rw [hsome] at hlookup
      refine ⟨hs.named.writeResume h _, fun e' he' => ?_⟩
      have hsame := hlookup.symm.trans he'
      rw [Fleet.member_entry, hsome] at hsame
      obtain rfl := Option.some.inj hsame
      obtain ⟨hPe, x, hx, -⟩ := hs.entry e hsome
      obtain ⟨hhash, ⟨bytes, hbytes, hparse⟩, -⟩ := hostedOn_eq_some.1 hx
      have hloadable := hP e hPe
      refine ⟨hPe, _, hostedOn_eq_some.2 ⟨hhash, ⟨bytes, ?_, hparse⟩, _, ?_,
        hloadable.sized.loadOne_resume (hostable_of_parse hparse (hhash ▸ hh)) hloadable.within⟩,
        Recovers.written _ hloadable.within⟩
      · obtain ⟨-, d', heq, hbeside⟩ | ⟨hrefused, -⟩ := atomicWrite_cases w.faults
          (stateFile h .resume) (e.hosted.resume (sharedOf sha1 e.info)).encode s.registry.dir
        · simp only [heq]
          exact (hbeside.agree _ rfl).trans (((put_apply _ _ _).trans
            (if_neg fun hsame => by cases congrArg FileName.kind hsame)).trans hbytes)
        · exact absurd hrefused (hw.not_refused .resume)
      · obtain ⟨-, d', heq, hbeside⟩ | ⟨hrefused, -⟩ := atomicWrite_cases w.faults
          (stateFile h .resume) (e.hosted.resume (sharedOf sha1 e.info)).encode s.registry.dir
        · simp only [heq]
          exact (hbeside.agree _ rfl).trans ((put_apply _ _ _).trans (if_pos rfl))
        · exact absurd hrefused (hw.not_refused .resume)

end Held

/-! ## The operations -/

namespace Held

variable {R : Hosted → Hosted → Prop} {P Q : Entry → Prop} {k : Bytes}

/-- What is known of the entry that is there. -/
theorem and (hs : Held sha1 toLowercase h R P s) (hQ : ∀ e, s.lookup h = some e → Q e) :
    Held sha1 toLowercase h R (fun e => P e ∧ Q e) s where
  named := hs.named
  entry := fun e he => ⟨⟨(hs.entry e he).1, hQ e he⟩, (hs.entry e he).2⟩

/-- Settings are changed, and the engines are brought in line or not. -/
theorem reconcile_ready (hs : Held sha1 toLowercase h R (Ready sha1 w h) s)
    (hR : ∀ e x, Ready sha1 w h e → R x e.hosted →
      R x e.hosted.started ∧ R x (e.hosted.stopped (w.stops h))) :
    Held sha1 toLowercase h R (Loadable sha1) (s.reconcile w) :=
  hs.reconcile w (fun _ he => he.loadable) (fun _ he => he.loadable.congr rfl rfl rfl)
    (fun _ he => he.stopped.loadable) hR

theorem recovers_ready {e : Entry} {x : Hosted} (he : Ready sha1 w h e) (hr : Recovers x e.hosted) :
    Recovers x e.hosted.started ∧ Recovers x (e.hosted.stopped (w.stops h)) :=
  ⟨hr.grow rfl (Within.refl _), hr.stopped he.later⟩

theorem refresh (hs : Remembered sha1 toLowercase h (Ready sha1 w h) s) :
    Remembered sha1 toLowercase h (Shown sha1 w h) (s.refresh w) := by
  have hmember := congrArg Member.entry (Fleet.member_foldl
    (fun s j k => Fleet.member_modify (Hosted.refreshed (w.reads j)) j k s)
    (Fleet.nodup_those (fun _ => true) s) s h)
  refine hs.change (Fleet.dir_foldl (fun s j => Fleet.dir_modify _ j s) _ s) fun e' he' => ?_
  have he' := hmember.symm.trans he'
  split at he'
  · obtain ⟨e, he, rfl⟩ := Option.map_eq_some_iff.1 he'
    exact ⟨e, _, he, rfl, fun hP => hP.refreshed, fun x hP hR =>
      hR.grow (by unfold Hosted.refreshed; cases e.hosted.live <;> rfl) hP.honest.grows⟩
  · rename_i hnot
    exact absurd (Fleet.mem_those.2 ⟨e', he', rfl⟩) hnot

theorem recovers_shown {e : Entry} {x : Hosted} (he : Shown sha1 w h e) (hr : Recovers x e.hosted) :
    Recovers x e.hosted.started ∧ Recovers x (e.hosted.stopped (w.stops h)) :=
  ⟨hr.grow rfl (Within.refl _), hr.stopped he.later⟩

theorem stopFor (hs : Remembered sha1 toLowercase h (Shown sha1 w h) s)
    (hh : h.length = 20) (hw : Spared w.faults h) (found : Bytes × Why) :
    Remembered sha1 toLowercase h (Shown sha1 w h) (s.stopFor sha1 w found) := by
  unfold Fleet.stopFor
  simp only
  by_cases hk : h = found.1
  · rw [← hk]
    have hchanged : OnFile sha1 toLowercase h (Shown sha1 w h)
        (s.modify (fun x => { x with wanted := .paused found.2, idleSince := none }) h) :=
      hs.modify_self fun e he => he.congr rfl rfl rfl
    exact (hchanged.stopLive w h (fun e he => he.stopped) fun _ _ _ _ => trivial).writeResume_self
      hh hw fun e he => he.loadable
  · exact ((hs.modify_other _ hk).stopLive w found.1 (fun e he => he.stopped)
      fun e x he hR => (recovers_shown he hR).2).writeResume_other hk

theorem enforceSeedLimits (hs : Remembered sha1 toLowercase h (Shown sha1 w h) s)
    (hh : h.length = 20) (hw : Spared w.faults h) :
    Remembered sha1 toLowercase h (Shown sha1 w h) (s.enforceSeedLimits sha1 limits w) := by
  unfold Fleet.enforceSeedLimits
  refine foldl (fun found s hs => hs.stopFor hh hw found) _ (foldl (fun e s hs => ?_) _ hs)
  exact hs.modify e.1 (fun e he => he.congr rfl rfl rfl)
    fun e x he hR => hR.grow rfl (Within.refl _)

theorem persist (hs : Remembered sha1 toLowercase h (Shown sha1 w h) s)
    (hh : h.length = 20) (hw : Spared w.faults h) (k : Bytes) :
    Remembered sha1 toLowercase h (Shown sha1 w h) (s.persist sha1 w k) := by
  unfold Fleet.persist
  by_cases hk : h = k
  · subst hk
    exact (hs.modify_self (Q := Shown sha1 w h) fun e he => he.persisted).writeResume_self hh hw
      fun e he => he.loadable
  · exact (hs.modify_other _ hk).writeResume_other hk

theorem persistProgress (hs : Remembered sha1 toLowercase h (Ready sha1 w h) s)
    (hh : h.length = 20) (hw : Spared w.faults h) :
    Remembered sha1 toLowercase h (Shown sha1 w h) (s.persistProgress sha1 limits w) := by
  unfold Fleet.persistProgress
  refine foldl (fun k s hs => hs.persist hh hw k) _ ?_
  exact (hs.refresh.enforceSeedLimits hh hw).reconcile w (fun e => id)
    (fun e he => he.congr rfl rfl rfl) (fun e he => he.stopped) fun e x => recovers_shown

theorem detachNetwork (hs : Remembered sha1 toLowercase h (Ready sha1 w h) s)
    (hh : h.length = 20) (hw : Spared w.faults h) :
    Remembered sha1 toLowercase h (Shown sha1 w h) (s.detachNetwork sha1 limits w) := by
  unfold Fleet.detachNetwork
  have hstopped : Remembered sha1 toLowercase h (Ready sha1 w h)
      ((s.those fun _ => true).foldl (fun s h => s.stopLive w h) s) :=
    foldl (fun k s hs => hs.stopLive w k (fun e he => he.stopped)
      fun e x he hR => (recovers_ready he hR).2) _ hs
  generalize (s.those fun _ => true).foldl (fun s h => s.stopLive w h) s = s' at hstopped
  have hoffline : Remembered sha1 toLowercase h (Ready sha1 w h) { s' with network := false } :=
    ⟨hstopped.named, hstopped.entry⟩
  exact hoffline.persistProgress hh hw

/-- A change that is not refused keeps the torrent in order. -/
theorem ready_apply (limits : Limits) {c : Answering.Change} {e : Entry} (he : Ready sha1 w h e)
    (hc : c.refusal e = none) :
    Ready sha1 w h { e with hosted := c.apply limits e.hosted } := by
  cases c with
  | setPaused paused => exact he.congr rfl rfl rfl rfl
  | setSeedRatio milli =>
      simp only [Answering.Change.apply, Hosted.withSeedRatio]
      split
      · exact he.congr rfl rfl rfl rfl
      · exact he.congr rfl rfl rfl rfl
  | setSequential sequential => exact he.congr rfl rfl rfl rfl
  | setPriorities priorities =>
      simp only [Answering.Change.refusal] at hc
      split at hc
      · cases hc
      rename_i hcount
      split at hc
      · cases hc
      rename_i hvalues
      refine ⟨⟨⟨he.loadable.sized.have_, he.loadable.sized.verified, ?_, fun p hp => ?_⟩,
        he.loadable.within⟩, he.honest.congr rfl rfl⟩
      · exact (not_not.1 hcount).trans (length_regions sha1 e.info).symm
      · by_contra hlt
        exact hvalues (List.any_eq_true.2 ⟨p, hp, decide_eq_true (by simpa using hlt)⟩)

theorem make (hs : Remembered sha1 toLowercase h (Ready sha1 w h) s)
    (hh : h.length = 20) (hw : Spared w.faults h) (c : Answering.Change)
    (k : Bytes) :
    Remembered sha1 toLowercase h (Loadable sha1) (Answering.make sha1 limits c w k s).2 := by
  have hsame : Remembered sha1 toLowercase h (Loadable sha1) s := hs.weaken fun e he => he.loadable
  rw [Answering.make_eq]
  cases hlookup : s.lookup k with
  | none => exact hsame
  | some e =>
      simp only
      cases hrefusal : c.refusal e with
      | some what => exact hsame
      | none =>
          simp only [Answering.writeResume_snd, Answering.changed]
          by_cases hk : h = k
          · subst hk
            have hchanged : OnFile sha1 toLowercase h (Ready sha1 w h)
                (s.modify (c.apply limits) h) := by
              refine (hs.and fun e' he' => ?_ : Held sha1 toLowercase h Recovers
                (fun e => Ready sha1 w h e ∧ c.refusal e = none) s).modify_self
                fun e he => ready_apply limits he.1 he.2
              exact Option.some.inj (hlookup.symm.trans he') ▸ hrefusal
            split
            · exact (hchanged.reconcile_ready fun _ _ _ _ => ⟨trivial, trivial⟩).writeResume_self
                hh hw fun e he => he
            · exact (hchanged.weaken fun e he => he.loadable).writeResume_self hh hw fun e he => he
          · have hother := hs.modify_other (c.apply limits) hk
            split
            · exact (hother.reconcile_ready fun e x => recovers_ready).writeResume_other hk
            · exact (hother.weaken fun e he => he.loadable).writeResume_other hk

theorem beginVerify (hs : Remembered sha1 toLowercase h (Loadable sha1) s) (k : Bytes) :
    Remembered sha1 toLowercase h (Loadable sha1) (s.beginVerify k) := by
  unfold Fleet.beginVerify
  split
  · exact hs
  · split
    · exact hs
    · exact hs.modify k (fun e he => he.congr rfl rfl rfl)
        fun e x he hR => hR.grow rfl (Within.refl _)

theorem finishScan_self (hs : Remembered sha1 toLowercase h (Loadable sha1) s)
    (hh : h.length = 20) (hw : Spared w.faults h) {found : Bitfield}
    (hidle : ∀ e, s.lookup h = some e → e.hosted.live = none ∧
      found.len = (sharedOf sha1 e.info).numPieces) :
    Remembered sha1 toLowercase h (Loadable sha1) (s.finishScan sha1 w h (.ok found)) := by
  have hfound : OnFile sha1 toLowercase h (fun e => Loadable sha1 e ∧ e.hosted.live = none)
      ((s.modify (fun x => { x with scanning := false }) h).modify
        (fun x => { x with have_ := found, verified := found }) h) := by
    refine ((hs.and hidle).modify_self (Q := fun e => Loadable sha1 e ∧ e.hosted.live = none ∧
      found.len = (sharedOf sha1 e.info).numPieces) fun e he => ⟨he.1.congr rfl rfl rfl, he.2⟩
      ).modify_self fun e he => ?_
    exact ⟨⟨⟨he.2.2, he.2.2, he.1.sized.ranked⟩, Within.refl _⟩, he.2.1⟩
  have hwritten := hfound.writeResume_self hh hw fun e he => he.1
  unfold Fleet.finishScan
  simp only
  split
  · refine hwritten.reconcile w (fun e he => he.1) (fun e he => he.1.congr rfl rfl rfl)
      (fun e he => ?_) fun e x he hR => ⟨hR.grow rfl (Within.refl _), ?_⟩
    · rw [Fleet.stopped_of_none _ he.2]
      exact he.1
    · rw [Fleet.stopped_of_none _ he.2]
      exact hR
  · exact hwritten.weaken fun e he => he.1

theorem finishScan_other (hs : Remembered sha1 toLowercase h (Ready sha1 w h) s) (hk : h ≠ k)
    (result : Except IoError Bitfield) :
    Remembered sha1 toLowercase h (Loadable sha1) (s.finishScan sha1 w k result) := by
  have hcleared := hs.modify_other (fun x => { x with scanning := false }) hk
  unfold Fleet.finishScan
  cases result with
  | error e => exact hcleared.weaken fun e he => he.loadable
  | ok found =>
      have hwritten := (hcleared.modify_other (fun x => { x with have_ := found, verified := found })
        hk).writeResume_other (w := w) hk
      simp only
      split
      · exact hwritten.reconcile_ready fun e x => recovers_ready
      · exact hwritten.weaken fun e he => he.loadable

/-- Files of another torrent, or a magnet, are removed. -/
theorem hostedOn_drop {n : FileName} (htorrent : stateFile h .torrent ≠ n)
    (hresume : stateFile h .resume ≠ n) :
    hostedOn sha1 toLowercase (d.drop n) h = hostedOn sha1 toLowercase d h :=
  hostedOn_congr ((drop_apply _ _).trans (if_neg htorrent)) ((drop_apply _ _).trans (if_neg hresume))

theorem hostedOn_drop_magnet : hostedOn sha1 toLowercase (d.drop (stateFile k .magnet)) h =
    hostedOn sha1 toLowercase d h :=
  hostedOn_drop (fun heq => by cases congrArg FileName.kind heq)
    fun heq => by cases congrArg FileName.kind heq

theorem hostedOn_drop_other (hk : h ≠ k) (kind : Kind) :
    hostedOn sha1 toLowercase (d.drop (stateFile k kind)) h = hostedOn sha1 toLowercase d h :=
  hostedOn_drop (fun heq => hk (stateFile_inj heq).1) fun heq => hk (stateFile_inj heq).1

theorem remove_other (hs : Remembered sha1 toLowercase h (Ready sha1 w h) s) (hk : h ≠ k)
    (unlinked : List Bytes → Except IoError Unit) (deleteData : Bool) :
    Remembered sha1 toLowercase h (Loadable sha1)
      (Answering.remove w unlinked k deleteData s).2 := by
  have hsame : Remembered sha1 toLowercase h (Loadable sha1) s := hs.weaken fun e he => he.loadable
  have hstopped := hs.stopLive w k (fun e he => he.stopped) fun e x he hR => (recovers_ready he hR).2
  unfold Answering.remove
  split
  · obtain heq | heq := Answering.removeFileOk_cases w.faults (stateFile k .magnet) s.registry.dir
    · rw [heq]
      exact hsame
    · rw [heq]
      exact hsame.congr rfl (hsame.named.drop _) hostedOn_drop_magnet
  split
  · exact hsame
  split
  · exact hsame
  simp only
  have hloadable := hstopped.weaken fun e he => he.loadable
  generalize s.stopLive w k = s' at hstopped hloadable
  obtain heq | heq := Answering.removeFileOk_cases w.faults (stateFile k .torrent) s'.registry.dir
  · rw [heq]
    exact hloadable
  rw [heq]
  simp only
  obtain heq | heq := Answering.removeFileOk_cases w.faults (stateFile k .resume)
    (s'.registry.dir.drop (stateFile k .torrent))
  · rw [heq]
    exact hloadable.congr rfl (hloadable.named.drop _) (hostedOn_drop_other hk _)
  rw [heq]
  refine reconcile_ready ?_ fun e x => recovers_ready
  refine hstopped.congr ?_ ((hstopped.named.drop _).drop _)
    ((hostedOn_drop_other hk _).trans (hostedOn_drop_other hk _))
  exact (OrdMap.Tree.lookup_erase ..).trans (if_neg hk)

theorem remove_self (hs : Remembered sha1 toLowercase h (Ready sha1 w h) s)
    (hw : Spared w.faults h) (unlinked : List Bytes → Except IoError Unit) (deleteData : Bool) :
    Remembered sha1 toLowercase h (Loadable sha1)
      (Answering.remove w unlinked h deleteData s).2 := by
  have hsame : Remembered sha1 toLowercase h (Loadable sha1) s := hs.weaken fun e he => he.loadable
  have hremoves : ∀ kind (d : Dir), d.removeFileOk w.faults (stateFile h kind) =
      (.ok (), d.drop (stateFile h kind)) := fun kind d =>
    if_neg (by rw [hw (.unlink (stateFile h kind)) _ rfl rfl]; decide)
  unfold Answering.remove
  split
  · rw [hremoves]
    exact hsame.congr rfl (hsame.named.drop _) hostedOn_drop_magnet
  split
  · exact hsame
  split
  · exact hsame
  simp only [hremoves]
  generalize hs' : s.stopLive w h = s'
  have hnamed : Named sha1 toLowercase s'.registry.dir := by
    rw [← hs', Fleet.dir_stopLive]
    exact hs.named
  refine ⟨?_, fun e he => ?_⟩
  · rw [Answering.dir_reconcile]
    exact (hnamed.drop _).drop _
  · -- the torrent is gone
    have hgone := Answering.lookup_reconcile w { s' with
      registry := { s'.registry with
        torrents := s'.registry.torrents.erase h
        dir := (s'.registry.dir.drop (stateFile h .torrent)).drop (stateFile h .resume) } } h
    rw [he] at hgone
    simp [Fleet.lookup, OrdMap.Tree.lookup_erase] at hgone

/-! ### Adding and starting -/

theorem loadable_new {m : MetaInfo} (now : Nat) (paused sequential : Bool) :
    Loadable sha1 ⟨m, Hosted.new (sharedOf sha1 m) now paused sequential⟩ where
  sized := ⟨rfl, rfl, List.length_replicate, fun p hp => by
    rw [List.eq_of_mem_replicate hp]
    decide⟩
  within := Within.refl _

theorem hostedOn_put_other (hk : h ≠ k) (kind : Kind) (bytes : Bytes) :
    hostedOn sha1 toLowercase (d.put (stateFile k kind) bytes) h =
      hostedOn sha1 toLowercase d h :=
  hostedOn_congr ((put_apply _ _ _).trans (if_neg fun heq => hk (stateFile_inj heq).1))
    ((put_apply _ _ _).trans (if_neg fun heq => hk (stateFile_inj heq).1))

theorem addTorrent (hs : Remembered sha1 toLowercase h (Loadable sha1) s)
    (hh : h.length = 20) (hw : Spared w.faults h) (now : Nat) (bytes : Bytes)
    (options : AddOptions) : Remembered sha1 toLowercase h (Loadable sha1) { s with
      registry := (s.registry.addTorrent sha1 toLowercase w.faults now bytes options).2 } := by
  have hcases : Adds sha1 toLowercase w.faults now bytes options s.registry _ :=
    addTorrent_cases w.faults now bytes options s.registry
  generalize s.registry.addTorrent sha1 toLowercase w.faults now bytes options = out at hcases
  cases hcases with
  | rejected e hold => exact hs
  | refused hparse htorrent hagree => exact hs.congr rfl (hs.named.agree hagree) (hagree.hostedOn h)
  | @undone m e d hparse hnew hclash hresume hagree =>
      have hk : h ≠ m.infoHash := by
        rintro rfl
        exact hw.not_refused .resume hresume
      refine hs.congr rfl (((hs.named.put_torrent hparse).agree hagree).tryRemove _) ?_
      unfold Dir.tryRemove
      obtain heq | heq := Answering.removeFileOk_cases w.faults (stateFile m.infoHash .torrent) d
      · rw [heq, hagree.hostedOn, hostedOn_put_other hk]
      · rw [heq, hostedOn_drop_other hk, hagree.hostedOn, hostedOn_put_other hk]
  | @added m d hparse hnew hclash _ _ hagree =>
      have hnamed := ((hs.named.put_torrent hparse).put_resume m.infoHash
        (newRecord sha1 m now options)).agree hagree
      by_cases hk : h = m.infoHash
      · subst hk
        refine ⟨hnamed, fun e he => ?_⟩
        have he := (OrdMap.Tree.lookup_insert ..).symm.trans he
        rw [if_pos rfl] at he
        obtain rfl := Option.some.inj he
        have hloadable : Loadable sha1
            ⟨m, Hosted.new (sharedOf sha1 m) now options.paused options.sequential⟩ :=
          loadable_new now options.paused options.sequential
        refine ⟨hloadable, _, hostedOn_eq_some.2 ⟨rfl, ⟨bytes, ?_, hparse⟩, _, ?_,
          hloadable.sized.loadOne_resume (hostable_of_parse hparse hh) hloadable.within⟩,
          Recovers.written _ hloadable.within⟩
        · exact (hagree _ rfl).trans (((put_apply _ _ _).trans
            (if_neg fun heq => by cases congrArg FileName.kind heq)).trans
            ((put_apply _ _ _).trans (if_pos rfl)))
        · exact (hagree _ rfl).trans ((put_apply _ _ _).trans (if_pos rfl))
      · refine hs.congr ?_ hnamed ?_
        · exact (OrdMap.Tree.lookup_insert ..).trans (if_neg hk)
        · rw [hagree.hostedOn, hostedOn_put_other hk, hostedOn_put_other hk]

theorem addMagnet (hs : Remembered sha1 toLowercase h (Loadable sha1) s) (uri : Bytes) :
    Remembered sha1 toLowercase h (Loadable sha1)
      { s with registry := (s.registry.addMagnet w.faults uri).2 } := by
  have hcases := addMagnet_cases w.faults uri s.registry
  generalize s.registry.addMagnet w.faults uri = out at hcases
  cases hcases with
  | rejected e => exact hs
  | refused hagree => exact hs.congr rfl (hs.named.agree hagree) (hagree.hostedOn h)
  | @added m d hparse hnew hnew' hagree =>
      refine hs.congr rfl ((hs.named.put_magnet hparse).agree hagree) ((hagree.hostedOn h).trans ?_)
      exact hostedOn_congr
        ((put_apply _ _ _).trans (if_neg fun heq => by cases congrArg FileName.kind heq))
        ((put_apply _ _ _).trans (if_neg fun heq => by cases congrArg FileName.kind heq))

theorem completeMagnet (hs : Remembered sha1 toLowercase h (Loadable sha1) s)
    (hh : h.length = 20) (hw : Spared w.faults h) (now : Nat) (k bytes : Bytes) :
    Remembered sha1 toLowercase h (Loadable sha1) { s with
      registry := (s.registry.completeMagnet sha1 toLowercase w.faults now k bytes).2 } := by
  have hadded := hs.addTorrent hh hw now bytes ⟨false, false⟩
  unfold Registry.completeMagnet
  cases hout : s.registry.addTorrent sha1 toLowercase w.faults now bytes ⟨false, false⟩ with
  | mk result r =>
      rw [hout] at hadded
      cases result with
      | error e => exact hadded
      | ok added =>
          refine hadded.congr rfl (hadded.named.tryRemove _) ?_
          simp only [Dir.tryRemove]
          obtain heq | heq := Answering.removeFileOk_cases w.faults (stateFile k .magnet) r.dir
          · rw [heq]
          · rw [heq]
            exact hostedOn_drop_magnet

/-- A start hosts what the files hold. -/
theorem start (hd : Named sha1 toLowercase d) (hf : Sound f) {order : List FileName}
    (horder : Lists order d) : Remembered sha1 toLowercase h (Loadable sha1)
      (Fleet.start sha1 toLowercase f order d) := by
  have hstarted := start_spec hf hd horder
  refine ⟨hd.of_sub fun n _ _ => hstarted.sub n, fun e he => ?_⟩
  have hhosted : hostedOn sha1 toLowercase d h = some e := (hstarted.torrents h).symm.trans he
  have hsame : hostedOn sha1 toLowercase (Fleet.start sha1 toLowercase f order d).registry.dir h =
      hostedOn sha1 toLowercase d h :=
    hostedOn_congr (hstarted.beside _ (by simp [stateFile])) (hstarted.beside _ (by simp [stateFile]))
  refine ⟨?_, e.hosted, hsame.trans hhosted, .refl _⟩
  obtain ⟨-, -, record, -, hload⟩ := hostedOn_eq_some.1 hhosted
  obtain ⟨r, have_, verified, hdecode, -, -, hpriorities, -, hverified, heq⟩ := loadOne_ok hload
  have hlen : verified.len = (sharedOf sha1 e.info).numPieces := (Bitfield.fromBytes_ok hverified).2
  rw [show e = ⟨e.info, fromResume r have_ verified⟩ by rw [← heq]]
  exact ⟨⟨hlen, hlen, hpriorities, Resume.priorities_of_decode hdecode⟩, Within.refl _⟩

end Held

/-! ## Runs -/

/-- What every operation keeps. -/
structure Lasting (sha1 toLowercase : Bytes → Bytes) (h : Bytes) (s : Fleet) : Prop where
  onlyWanted : OnlyWanted s
  remembered : Remembered sha1 toLowercase h (Loadable sha1) s

theorem Lasting.step (hs : Lasting sha1 toLowercase h s) (hh : h.length = 20)
    {a : World × Fleet.Op} (ha : Undisturbed sha1 h a s) :
    Lasting sha1 toLowercase h (s.step sha1 toLowercase limits a) := by
  refine ⟨hs.onlyWanted.step a, ?_⟩
  have hr := hs.remembered
  have hready : Remembered sha1 toLowercase h (Ready sha1 a.1 h) s :=
    (hr.and ha.honest).weaken fun e he => ⟨he.1, he.2⟩
  obtain ⟨w, op⟩ := a
  have hw := ha.spared
  have hmake (c : Answering.Change) (k : Bytes) : (Answering.make sha1 limits c w k s).2 =
      s.step sha1 toLowercase limits (w, c.op k) := Answering.make_snd c
  cases op with
  | start order =>
      obtain ⟨hf, horder⟩ := ha.start order rfl
      exact Held.start hr.named hf horder
  | attachNetwork =>
      have honline : Remembered sha1 toLowercase h (Ready sha1 w h) { s with network := true } :=
        ⟨hready.named, hready.entry⟩
      exact honline.reconcile_ready fun e x => Held.recovers_ready
  | detachNetwork => exact (hready.detachNetwork hh hw).weaken fun e he => he.loadable
  | refresh => exact hready.refresh.weaken fun e he => he.loadable
  | persistProgress => exact (hready.persistProgress hh hw).weaken fun e he => he.loadable
  | addTorrent bytes options => exact hr.addTorrent hh hw w.now bytes options
  | addMagnet uri => exact hr.addMagnet uri
  | completeMagnet k bytes => exact hr.completeMagnet hh hw w.now k bytes
  | setPaused k paused => exact hmake (.setPaused paused) k ▸ hready.make hh hw _ k
  | setPriorities k priorities => exact hmake (.setPriorities priorities) k ▸ hready.make hh hw _ k
  | setSequential k sequential => exact hmake (.setSequential sequential) k ▸ hready.make hh hw _ k
  | setSeedRatio k milli => exact hmake (.setSeedRatio milli) k ▸ hready.make hh hw _ k
  | beginVerify k => exact hr.beginVerify k
  | finishScan k result =>
      by_cases hk : h = k
      · subst hk
        cases result with
        | error e =>
            have hcleared : Remembered sha1 toLowercase h (Loadable sha1)
                (s.modify (fun x => { x with scanning := false }) h) :=
              hr.modify h (fun e he => he.congr rfl rfl rfl)
                fun e x he hR => hR.grow rfl (Within.refl _)
            exact hcleared
        | ok found =>
            refine hr.finishScan_self hh hw fun e he => ?_
            obtain ⟨hscanning, hlen⟩ := ha.scan found rfl e he
            refine ⟨Option.not_isSome_iff_eq_none.1 fun hlive => ?_, hlen⟩
            rw [(hs.onlyWanted h e he hlive).2.1] at hscanning
            cases hscanning
      · exact hready.finishScan_other hk result
  | remove k =>
      have hremove : (Answering.remove w (fun _ => .ok ()) k false s).2 = s.remove w k :=
        Answering.remove_snd
      show Remembered sha1 toLowercase h (Loadable sha1) (s.remove w k)
      rw [← hremove]
      by_cases hk : h = k
      · subst hk
        exact hready.remove_self hw _ false
      · exact hready.remove_other hk _ false

/-- The daemon may end whenever no operation is under way: the next start hosts a torrent that was
hosted, as the same torrent with the settings it had, and takes no piece for verified that it had
not.  It is enough that no call on the files of this torrent has failed; what becomes of the others
does not matter. -/
theorem restart_recovers (hh : h.length = 20) (hd : Named sha1 toLowercase d)
    (hf : Sound f) {order : List FileName} (horder : Lists order d) {acts : List (World × Fleet.Op)}
    (hacts : Machine.Along (Fleet.step sha1 toLowercase limits) (Undisturbed sha1 h) acts
      (Fleet.start sha1 toLowercase f order d))
    {e : Entry} (he : (Fleet.run sha1 toLowercase limits acts
      (Fleet.start sha1 toLowercase f order d)).lookup h = some e)
    {f' : Faults} (hf' : Sound f') {order' : List FileName}
    (horder' : Lists order' (Fleet.run sha1 toLowercase limits acts
      (Fleet.start sha1 toLowercase f order d)).registry.dir) :
    ∃ x, (Fleet.start sha1 toLowercase f' order' (Fleet.run sha1 toLowercase limits acts
      (Fleet.start sha1 toLowercase f order d)).registry.dir).lookup h = some ⟨e.info, x⟩ ∧
      Recovers x e.hosted := by
  have hstart : Lasting sha1 toLowercase h (Fleet.start sha1 toLowercase f order d) := by
    refine ⟨fun k e he hlive => ?_, Held.start hd hf horder⟩
    rw [Registry.lookup_start f order d he] at hlive
    cases hlive
  have hlasting : Lasting sha1 toLowercase h (Fleet.run sha1 toLowercase limits acts _) :=
    Machine.run_induction_along (fun a s ha hs => hs.step hh ha) hacts hstart
  obtain ⟨-, x, hx, hR⟩ := hlasting.remembered.entry e he
  exact ⟨x, ((start_spec hf' hlasting.remembered.named horder').torrents h).trans hx, hR⟩

namespace Demo

/-- The engine gets the one piece. -/
def fetching (faults : Faults) : World where
  faults := faults
  now := 0
  creates := fun _ => true
  reads := fun _ => ⟨.full 1, none, 0, 0, 0⟩
  stops := fun _ => ⟨.full 1, none, 0, 0, 0⟩

/-- The torrent file of `Demo` is cut off after three bytes. -/
def diskFull : Faults := ⟨fun c => c = .write (stateFile capitalHash .torrent).tmp, 3⟩

/-- `demo` after a start, with these pieces, this engine and this order. -/
def demoWith (have_ : Bitfield) (live : Option (Nat × Nat)) (sequential : Bool) : Entry :=
  ⟨demoInfo, { Hosted.new (sharedOf digest demoInfo) 0 false sequential with
    have_ := have_, scanning := false, live := live }⟩

/-- `demo` gets its piece and is made sequential, and `Demo` is not added. -/
def changes : List (World × Fleet.Op) :=
  [(fetching .none, .attachNetwork), (fetching .none, .refresh),
    (fetching .none, .setSequential demoHash true),
    (fetching diskFull, .addTorrent (torrentFile "Demo") ⟨false, false⟩)]

/-- `demo` is hosted at a start. -/
def hosted : Fleet := Fleet.start digest lower .none demoOrder demoDir

def attached : Fleet := hosted.attachNetwork (fetching .none)

def filled : Fleet := attached.refresh (fetching .none)

def ordered : Fleet := filled.setSequential digest (fetching .none) demoHash true

theorem spared_diskFull : Spared diskFull demoHash := by
  rintro c n hc hstem
  refine decide_eq_false ?_
  rintro rfl
  obtain rfl := Option.some.inj hc
  exact absurd hstem (by decide)

theorem undisturbed_fetching {f : Faults} (hf : Spared f demoHash) {op : Fleet.Op} {s : Fleet}
    {have_ : Bitfield} {live : Option (Nat × Nat)} {sequential : Bool}
    (hs : s.lookup demoHash = some (demoWith have_ live sequential))
    (hhave : have_ = .empty 1 ∨ live.isSome = true ∧ have_ = .full 1)
    (hstart : ∀ order, op ≠ .start order) (hscan : ∀ result, op ≠ .finishScan demoHash result) :
    Undisturbed digest demoHash (fetching f, op) s := by
  refine ⟨hf, fun e he => ?_, fun order heq => absurd heq (hstart order),
    fun found heq => absurd heq (hscan _)⟩
  obtain rfl := Option.some.inj (hs.symm.trans he)
  have hdurable : ∀ b, ((fetching f).stops demoHash).durable ≠ some b := fun b hb => by cases hb
  have hfull : Within have_ (.full 1) := by
    obtain rfl | ⟨-, rfl⟩ := hhave
    · decide
    · decide
  refine ⟨rfl, rfl, fun b hb => absurd hb (hdurable b), ?_, ?_, fun b hb => absurd hb (hdurable b)⟩
  · cases live with
    | none => exact Within.refl have_
    | some base => exact hfull
  · cases live with
    | none => exact hfull
    | some base => exact Within.refl (.full 1)

theorem lookup_hosted : hosted.lookup demoHash = some (demoWith (.empty 1) none false) := by
  decide +kernel

theorem lookup_attached :
    attached.lookup demoHash = some (demoWith (.empty 1) (some (0, 0)) false) := by
  decide +kernel

theorem lookup_filled :
    filled.lookup demoHash = some (demoWith (.full 1) (some (0, 0)) false) := by
  decide +kernel

theorem lookup_ordered :
    ordered.lookup demoHash = some (demoWith (.full 1) (some (0, 0)) true) := by
  decide +kernel

theorem lookup_changed : (Fleet.run digest lower ⟨false, 0, 0⟩ changes
    (Fleet.start digest lower .none demoOrder demoDir)).lookup demoHash =
      some (demoWith (.full 1) (some (0, 0)) true) := by
  decide +kernel

theorem not_added : (ordered.registry.addTorrent digest lower diskFull 0 (torrentFile "Demo")
    ⟨false, false⟩).1 = .error (.io .other) := by
  decide +kernel

theorem along_changes : Machine.Along (Fleet.step digest lower ⟨false, 0, 0⟩)
    (Undisturbed digest demoHash) changes (Fleet.start digest lower .none demoOrder demoDir) := by
  have hnone : Spared .none demoHash := fun _ _ _ _ => rfl
  refine ⟨undisturbed_fetching hnone lookup_hosted (.inl rfl) ?_ ?_,
    undisturbed_fetching (s := attached) hnone lookup_attached (.inl rfl) ?_ ?_,
    undisturbed_fetching (s := filled) hnone lookup_filled (.inr ⟨rfl, rfl⟩) ?_ ?_,
    undisturbed_fetching (s := ordered) spared_diskFull lookup_ordered (.inr ⟨rfl, rfl⟩) ?_ ?_,
    trivial⟩
  all_goals
    intro _ heq
    cases heq

theorem dir_filled : filled.registry.dir = demoDir := by
  have hattach : ∀ s : Fleet, (s.attachNetwork (fetching .none)).registry.dir = s.registry.dir :=
    fun s => Answering.dir_reconcile _ _
  have hrefresh : ∀ s : Fleet, (s.refresh (fetching .none)).registry.dir = s.registry.dir :=
    fun s => Fleet.dir_foldl (fun s j => Fleet.dir_modify _ j s) _ _
  rw [filled, hrefresh, attached, hattach]
  exact restarted_dir

/-- A record that is written again, or is not. -/
theorem lists_writeResume (w : World) {order : List FileName} {s : Fleet} {k : Bytes}
    (hs : Lists order s.registry.dir) (hk : stateFile k .resume ∈ order) :
    Lists order (s.writeResume digest w k).registry.dir := by
  unfold Fleet.writeResume
  cases s.lookup k with
  | none => exact hs
  | some e =>
      simp only
      obtain ⟨-, d, heq, hbeside⟩ | ⟨-, e', d, heq, hbeside⟩ := atomicWrite_cases w.faults
        (stateFile k .resume) (e.hosted.resume (sharedOf digest e.info)).encode s.registry.dir
      · rw [heq]
        exact (hs.put hk _).agree hbeside.agree
      · rw [heq]
        exact hs.agree hbeside.agree

/-- A torrent file that is not written. -/
theorem lists_addTorrent {order : List FileName} {s : Fleet} {bytes : Bytes} {options : AddOptions}
    (hs : Lists order s.registry.dir) {e : AddError}
    (he : (s.registry.addTorrent digest lower diskFull 0 bytes options).1 = .error e) :
    Lists order (s.addTorrent digest lower (fetching diskFull) bytes options).registry.dir := by
  have hcases : Adds digest lower diskFull 0 bytes options s.registry _ :=
    addTorrent_cases diskFull 0 bytes options s.registry
  show Lists order (s.registry.addTorrent digest lower diskFull 0 bytes options).2.dir
  generalize s.registry.addTorrent digest lower diskFull 0 bytes options = out at hcases he
  cases hcases with
  | rejected e hold => exact hs
  | refused hparse htorrent hagree => exact hs.agree hagree
  | undone hparse hnew hclash hresume hagree =>
      exact absurd hresume (by simp [Refused, diskFull, stateFile, FileName.tmp])
  | added hparse hnew hclash htorrent hresume hagree => cases he

theorem run_changes : Fleet.run digest lower ⟨false, 0, 0⟩ changes
    (Fleet.start digest lower .none demoOrder demoDir) =
      ordered.addTorrent digest lower (fetching diskFull) (torrentFile "Demo") ⟨false, false⟩ :=
  rfl

theorem lists_changed : Lists demoOrder (Fleet.run digest lower ⟨false, 0, 0⟩ changes
    (Fleet.start digest lower .none demoOrder demoDir)).registry.dir := by
  have hordered : Lists demoOrder ordered.registry.dir := by
    rw [ordered, Fleet.setSequential]
    refine lists_writeResume _ ?_ (by decide)
    rw [Fleet.dir_modify, dir_filled]
    exact lists_demo
  rw [run_changes]
  exact lists_addTorrent hordered not_added

/-- A piece that came in and was not recorded is not there after the start, and the order is. -/
theorem restart_recovers_demo : ∃ x, (Fleet.start digest lower .none demoOrder
    (Fleet.run digest lower ⟨false, 0, 0⟩ changes (Fleet.start digest lower .none demoOrder
      demoDir)).registry.dir).lookup demoHash =
      some ⟨(demoWith (.full 1) (some (0, 0)) true).info, x⟩ ∧
        Recovers x (demoWith (.full 1) (some (0, 0)) true).hosted :=
  restart_recovers (by decide) named_demo sound_none lists_demo along_changes lookup_changed
    sound_none lists_changed

end Demo

end Clove.Daemon
