import Clove.Daemon.StateDir

/-!
# A torrent is hosted or pending

Adding a magnet looks at both maps of the registry.  Adding a torrent looks at the hosted
torrents only, so a torrent whose magnet is pending comes to be in both: its prefix is then
ambiguous with itself, and removing it takes the magnet and leaves the torrent
(`removed_torrent_stays`).  In every run in which no torrent is added while its magnet is
pending, except to complete that magnet, the two maps are disjoint, an ambiguous prefix is one
of two torrents, and what was removed is gone and stays gone (`hosted_or_pending`).
-/

namespace Clove.Daemon

variable {sha1 toLowercase : Bytes → Bytes} {f : Faults} {d : Dir} {r : Registry}

/-- A torrent is hosted or pending, and a removal is one. -/
structure Separate (sha1 toLowercase : Bytes → Bytes) (r : Registry) : Prop where
  disjoint : ∀ h, r.torrents.has h = true → r.pending.has h = false
  /-- A prefix is ambiguous between different torrents only. -/
  unambiguous : ∀ text cs, r.resolve text = .error (.ambiguous cs) → ∃ h₁ h₂, h₁ ≠ h₂ ∧
    r.listed h₁ = true ∧ r.listed h₂ = true ∧ text <+: hex h₁ ∧ text <+: hex h₂
  /-- What was removed is not there, and the next start does not find it. -/
  removed : ∀ f left h r', r.remove f left h = (.ok (), r') → r'.listed h = false ∧
    ∀ f order, Sound f → Lists order r'.dir →
      (Registry.start sha1 toLowercase f order r'.dir).listed h = false

/-- The torrent is new, has a name of its own, and nothing stops its two files. -/
def TakesIn (f : Faults) (r : Registry) (m : MetaInfo) : Prop :=
  r.torrents.has m.infoHash = false ∧ r.clashes m = false ∧
    ¬ Refused f (stateFile m.infoHash .torrent) r.dir ∧
    ¬ Refused f (stateFile m.infoHash .resume) r.dir

/-- If the torrent is new and has a name of its own, and its record is not written, then the torrent
file can be removed again. -/
def TakesBack (f : Faults) (r : Registry) (m : MetaInfo) : Prop :=
  r.torrents.has m.infoHash = false → r.clashes m = false →
    Refused f (stateFile m.infoHash .resume) r.dir →
      f.fails (.unlink (stateFile m.infoHash .torrent)) = false

/-- The operations that keep a torrent from being hosted and pending.  A start meets no
failure. -/
def Careful (sha1 toLowercase : Bytes → Bytes) (a : Faults × Registry.Op) (r : Registry) : Prop :=
  match a.2 with
  | .start order => Sound a.1 ∧ Lists order r.dir
  | .addTorrent _ bytes _ => ∀ m, MetaInfo.parse sha1 toLowercase bytes = .ok m →
      (TakesIn a.1 r m → r.pending.has m.infoHash = false) ∧ TakesBack a.1 r m
  | .completeMagnet _ h bytes => ∀ m, MetaInfo.parse sha1 toLowercase bytes = .ok m →
      (TakesIn a.1 r m → (r.pending.has m.infoHash = true → m.infoHash = h) ∧
        a.1.fails (.unlink (stateFile h .magnet)) = false) ∧ TakesBack a.1 r m
  | .addMagnet _ => True
  | .remove _ _ => True
  | .tend _ _ _ => True

/-- The state directory holds nothing the registry does not know of. -/
structure Known (sha1 toLowercase : Bytes → Bytes) (r : Registry) : Prop where
  named : Named sha1 toLowercase r.dir
  hosted : ∀ h, (hostedOn sha1 toLowercase r.dir h).isSome → r.torrents.has h = true
  fetched : ∀ h, (magnetOn r.dir h).isSome → r.pending.has h = true

/-- And a torrent is hosted or pending. -/
structure Apart (sha1 toLowercase : Bytes → Bytes) (r : Registry) : Prop
    extends Known sha1 toLowercase r where
  disjoint : ∀ h, r.torrents.has h = true → r.pending.has h = false

/-! ## What the invariant gives -/

theorem listed_eq_false {h : Bytes} :
    r.listed h = false ↔ r.torrents.has h = false ∧ r.pending.has h = false :=
  Bool.or_eq_false_iff

/-- Two of the torrents a prefix could mean are different. -/
theorem Apart.unambiguous (hr : Apart sha1 toLowercase r) {text : Bytes} {cs : List Candidate}
    (h : r.resolve text = .error (.ambiguous cs)) : ∃ h₁ h₂, h₁ ≠ h₂ ∧
      r.listed h₁ = true ∧ r.listed h₂ = true ∧ text <+: hex h₁ ∧ text <+: hex h₂ := by
  have hnodup : (r.torrents.keys ++ r.pending.keys).Nodup := by
    refine List.nodup_append.2 ⟨r.torrents.nodup_keys, r.pending.nodup_keys, ?_⟩
    rintro a ha b hb rfl
    have hhosted := (r.torrents.mem_keys a).1 ha
    have hpending := (r.pending.mem_keys a).1 hb
    rw [hr.disjoint a hhosted] at hpending
    cases hpending
  have hlisted : ∀ {k}, k ∈ (r.torrents.keys ++ r.pending.keys).filter
      (fun h => text.isPrefixOf (hex h)) → r.listed k = true ∧ text <+: hex k := by
    intro k hk
    obtain ⟨hmem, hprefix⟩ := List.mem_filter.1 hk
    refine ⟨?_, List.isPrefixOf_iff_prefix.1 hprefix⟩
    rw [Registry.listed, Bool.or_eq_true, ← OrdMap.Tree.mem_keys, ← OrdMap.Tree.mem_keys]
    exact List.mem_append.1 hmem
  have hfound := hnodup.filter fun h => text.isPrefixOf (hex h)
  unfold Registry.resolve at h
  split at h
  · cases h
  split at h
  · cases h
  generalize (r.torrents.keys ++ r.pending.keys).filter (fun h => text.isPrefixOf (hex h)) = found
    at h hfound hlisted
  match found with
  | [] => cases h
  | [_] => cases h
  | k₁ :: k₂ :: _ =>
      refine ⟨k₁, k₂, ?_, (hlisted (by simp)).1, (hlisted (by simp)).1, (hlisted (by simp)).2,
        (hlisted (by simp)).2⟩
      rintro rfl
      simp at hfound

/-- What is removed is gone, and nothing of it is left to find. -/
theorem Apart.gone (hr : Apart sha1 toLowercase r) {f : Faults} {left : Hosted} {h : Bytes}
    {r' : Registry} (hok : r.remove f left h = (.ok (), r')) : r'.listed h = false ∧
      (hostedOn sha1 toLowercase r'.dir h).isSome = false ∧
      (magnetOn r'.dir h).isSome = false ∧ Named sha1 toLowercase r'.dir := by
  have hcases := remove_cases f left h r
  rw [hok] at hcases
  obtain ⟨hkeys, hdir⟩ := stopLive_spec left h r
  cases hcases with
  | magnet hpending =>
      have hhosted : r.torrents.has h = false := by
        cases hhosted : r.torrents.has h with
        | false => rfl
        | true =>
            rw [hr.disjoint h hhosted] at hpending
            cases hpending
      refine ⟨listed_eq_false.2 ⟨hhosted, ?_⟩, ?_, ?_, hr.named.drop _⟩
      · simp [OrdMap.Tree.has_erase]
      · have hsame : hostedOn sha1 toLowercase (r.dir.drop (stateFile h .magnet)) h =
            hostedOn sha1 toLowercase r.dir h :=
          hostedOn_congr (by simp [drop_apply, stateFile_eq_iff])
            (by simp [drop_apply, stateFile_eq_iff])
        rw [hsame, ← Bool.not_eq_true]
        exact fun hsome => by rw [hr.hosted h hsome] at hhosted; cases hhosted
      · rw [magnetOn_of_none (by simp [drop_apply])]
        rfl
  | torrent hpending hhosted =>
      refine ⟨listed_eq_false.2 ⟨?_, (hkeys.pending h).trans hpending⟩, ?_, ?_, ?_⟩
      · simp [OrdMap.Tree.has_erase]
      · rw [hostedOn_of_none (by simp [drop_apply])]
        rfl
      · have hsame : magnetOn (((r.stopLive left h).dir.drop (stateFile h .torrent)).drop
            (stateFile h .resume)) h = magnetOn r.dir h :=
          magnetOn_congr (by simp [drop_apply, stateFile_eq_iff, hdir])
        rw [hsame, ← Bool.not_eq_true]
        exact fun hsome => by rw [hr.fetched h hsome] at hpending; cases hpending
      · exact ((hdir ▸ hr.named).drop _).drop _

theorem Apart.separate (hr : Apart sha1 toLowercase r) : Separate sha1 toLowercase r where
  disjoint := hr.disjoint
  unambiguous := fun _ _ h => hr.unambiguous h
  removed := by
    intro f left h r' hok
    obtain ⟨hlisted, hhosted, hmagnet, hnamed⟩ := hr.gone hok
    refine ⟨hlisted, fun f order hf horder => ?_⟩
    rw [(start_spec hf hnamed horder).listed, hhosted, hmagnet]
    rfl

/-! ## Each operation keeps the invariant -/

theorem Known.of_agree (hr : Known sha1 toLowercase r) (h : Agree r.dir d) :
    Known sha1 toLowercase { r with dir := d } where
  named := hr.named.agree h
  hosted := fun k hk => hr.hosted k (h.hostedOn k ▸ hk)
  fetched := fun k hk => hr.fetched k (h.magnetOn k ▸ hk)

/-- A start finds a torrent or a magnet, not both. -/
theorem apart_start (hf : Sound f) (hd : Named sha1 toLowercase d) {order : List FileName}
    (horder : Lists order d) :
    Apart sha1 toLowercase (Registry.start sha1 toLowercase f order d) := by
  have hs := start_spec hf hd horder
  generalize Registry.start sha1 toLowercase f order d = r at hs
  have hhosted : ∀ h, hostedOn sha1 toLowercase r.dir h = hostedOn sha1 toLowercase d h :=
    fun h => hostedOn_congr (hs.beside _ (by simp [stateFile])) (hs.beside _ (by simp [stateFile]))
  refine ⟨⟨hd.of_sub fun n _ _ => hs.sub n, fun h hsome => ?_, fun h hsome => ?_⟩, fun h hh => ?_⟩
  · rw [OrdMap.Tree.has, hs.torrents, ← hhosted h]
    exact hsome
  · have hne : r.dir (stateFile h .magnet) ≠ none := fun hnone => by
      rw [magnetOn_of_none hnone] at hsome
      cases hsome
    have hsame : magnetOn r.dir h = magnetOn d h :=
      magnetOn_congr ((hs.sub _).resolve_left hne)
    rw [hsame] at hsome
    rw [OrdMap.Tree.has, hs.pending, if_neg fun hh => hne (hs.promoted h hsome hh),
      Option.isSome_map]
    exact hsome
  · rw [OrdMap.Tree.has, hs.torrents] at hh
    rw [OrdMap.Tree.has, hs.pending, if_pos hh]
    rfl

/-- Adding a torrent changes nothing else. -/
theorem Known.addTorrent (hr : Known sha1 toLowercase r) {now : Nat} {bytes : Bytes}
    {options : AddOptions} {out : Except AddError Bytes × Registry}
    (hadds : Adds sha1 toLowercase f now bytes options r out)
    (hundo : ∀ m, MetaInfo.parse sha1 toLowercase bytes = .ok m → TakesBack f r m) :
    Known sha1 toLowercase out.2 ∧ out.2.pending = r.pending ∧
      ((∃ e, out.1 = .error e) ∧ (∀ h, out.2.torrents.has h = true → r.torrents.has h = true) ∨
        ∃ m, MetaInfo.parse sha1 toLowercase bytes = .ok m ∧ TakesIn f r m ∧
          out.1 = .ok m.infoHash ∧
          ∀ h, out.2.torrents.has h = true → r.torrents.has h = true ∨ h = m.infoHash) := by
  cases hadds with
  | rejected e _ => exact ⟨hr, rfl, .inl ⟨⟨_, rfl⟩, fun _ => id⟩⟩
  | refused _ _ hagree => exact ⟨hr.of_agree hagree, rfl, .inl ⟨⟨_, rfl⟩, fun _ => id⟩⟩
  | @undone m e d hparse hnew hclash hresume hagree =>
      have hremove : d.tryRemove f (stateFile m.infoHash .torrent) =
          d.drop (stateFile m.infoHash .torrent) := by
        unfold Dir.tryRemove Dir.removeFileOk
        rw [hundo m hparse hnew hclash hresume]
        rfl
      have hnamed := (hr.named.put_torrent hparse).agree hagree
      refine ⟨⟨hnamed.tryRemove _, fun h hsome => ?_, fun h hsome => ?_⟩, rfl,
        .inl ⟨⟨_, rfl⟩, fun _ => id⟩⟩
      · simp only [hremove] at hsome
        by_cases heq : h = m.infoHash
        · rw [heq, hostedOn_of_none (by simp [drop_apply])] at hsome
          cases hsome
        · rw [hostedOn_congr (d := r.dir)
            (by rw [drop_apply, hagree _ rfl]; simp [put_apply, stateFile_eq_iff, heq])
            (by rw [drop_apply, hagree _ rfl]; simp [put_apply, stateFile_eq_iff])] at hsome
          exact hr.hosted h hsome
      · simp only [hremove] at hsome
        rw [magnetOn_congr (d := r.dir)
          (by rw [drop_apply, hagree _ rfl]; simp [put_apply, stateFile_eq_iff])] at hsome
        exact hr.fetched h hsome
  | @added m d hparse hnew hclash htorrent hresume hagree =>
      have hnamed := ((hr.named.put_torrent hparse).put_resume m.infoHash
        (newRecord sha1 m now options)).agree hagree
      refine ⟨⟨hnamed, fun h hsome => ?_, fun h hsome => ?_⟩, rfl,
        .inr ⟨m, hparse, ⟨hnew, hclash, htorrent, hresume⟩, rfl, fun h hh => ?_⟩⟩
      · simp only [OrdMap.Tree.has_insert, Bool.or_eq_true, decide_eq_true_eq]
        by_cases heq : h = m.infoHash
        · exact .inl heq
        · refine .inr (hr.hosted h ?_)
          exact isSome_hostedOn hsome
            ((hagree _ rfl).trans (by simp [put_apply, stateFile_eq_iff, heq]))
            ((hagree _ rfl).trans (by simp [put_apply, stateFile_eq_iff, heq]))
      · refine hr.fetched h ?_
        exact isSome_magnetOn hsome
          ((hagree _ rfl).trans (by simp [put_apply, stateFile_eq_iff]))
      · simp only [OrdMap.Tree.has_insert, Bool.or_eq_true, decide_eq_true_eq] at hh
        exact hh.symm

/-- A magnet that is no longer pending leaves no file. -/
theorem Known.forget (hr : Known sha1 toLowercase r) (h : Bytes) :
    Known sha1 toLowercase
      { r with pending := r.pending.erase h, dir := r.dir.drop (stateFile h .magnet) } := by
  refine ⟨hr.named.drop _, fun k hsome => ?_, fun k hsome => ?_⟩
  · refine hr.hosted k ?_
    exact isSome_hostedOn hsome
      (by simp [drop_apply, stateFile_eq_iff])
      (by simp [drop_apply, stateFile_eq_iff])
  · by_cases heq : k = h
    · rw [heq, magnetOn_of_none (by simp [drop_apply])] at hsome
      cases hsome
    · have hpending : r.pending.has k = true := by
        refine hr.fetched k ?_
        exact isSome_magnetOn hsome
          (by simp [drop_apply, stateFile_eq_iff, heq])
      simp [OrdMap.Tree.has_erase, heq, hpending]

theorem Apart.addMagnet (hr : Apart sha1 toLowercase r) {uri : Bytes}
    {out : Except AddError Bytes × Registry} (hadds : AddsMagnet f uri r out) :
    Apart sha1 toLowercase out.2 := by
  cases hadds with
  | rejected e => exact hr
  | refused hagree => exact ⟨hr.toKnown.of_agree hagree, hr.disjoint⟩
  | @added m d hparse hnew hnew' hagree =>
      refine ⟨⟨(hr.named.put_magnet hparse).agree hagree, fun h hsome => ?_, fun h hsome => ?_⟩,
        fun h hh => ?_⟩
      · refine hr.hosted h ?_
        exact isSome_hostedOn hsome
          ((hagree _ rfl).trans (by simp [put_apply, stateFile_eq_iff]))
          ((hagree _ rfl).trans (by simp [put_apply, stateFile_eq_iff]))
      · simp only [OrdMap.Tree.has_insert, Bool.or_eq_true, decide_eq_true_eq]
        by_cases heq : h = m.infoHash
        · exact .inl heq
        · refine .inr (hr.fetched h ?_)
          exact isSome_magnetOn hsome
            ((hagree _ rfl).trans (by simp [put_apply, stateFile_eq_iff, heq]))
      · have hne : h ≠ m.infoHash := by
          rintro rfl
          rw [hnew] at hh
          cases hh
        simp [OrdMap.Tree.has_insert, hne, hr.disjoint h hh]

/-- A removal takes one torrent or magnet, or leaves all of them. -/
theorem Apart.remove (hr : Apart sha1 toLowercase r) {left : Hosted} {h : Bytes}
    {out : Except RemoveError Unit × Registry}
    (hremoval : Removal f h r (r.stopLive left h) out) : Apart sha1 toLowercase out.2 := by
  obtain ⟨hkeys, hdir⟩ := stopLive_spec left h r
  have hstopped : Apart sha1 toLowercase (r.stopLive left h) := by
    refine ⟨⟨hdir ▸ hr.named, fun k hsome => ?_, fun k hsome => ?_⟩, fun k hk => ?_⟩
    · rw [hdir] at hsome
      exact (hkeys.torrents k).trans (hr.hosted k hsome)
    · rw [hdir] at hsome
      exact (hkeys.pending k).trans (hr.fetched k hsome)
    · exact (hkeys.pending k).trans (hr.disjoint k ((hkeys.torrents k).symm.trans hk))
  cases hremoval with
  | absent _ _ => exact hr
  | scanning _ _ _ => exact hr
  | magnetStays _ _ => exact hr
  | magnet hpending =>
      refine ⟨hr.toKnown.forget h, fun k hk => ?_⟩
      rw [OrdMap.Tree.has_erase, hr.disjoint k hk, Bool.and_false]
  | torrentStays _ _ _ _ => exact hstopped
  | resumeStays _ _ _ _ _ =>
      refine ⟨⟨hstopped.named.drop _, fun k hsome => ?_, fun k hsome => ?_⟩, hstopped.disjoint⟩
      · by_cases heq : k = h
        · rw [heq, hostedOn_of_none (by simp [drop_apply])] at hsome
          cases hsome
        · refine hstopped.hosted k ?_
          exact isSome_hostedOn hsome
            (by simp [drop_apply, stateFile_eq_iff, heq])
            (by simp [drop_apply, stateFile_eq_iff])
      · refine hstopped.fetched k ?_
        exact isSome_magnetOn hsome
          (by simp [drop_apply, stateFile_eq_iff])
  | torrent _ _ =>
      refine ⟨⟨(hstopped.named.drop _).drop _, fun k hsome => ?_, fun k hsome => ?_⟩,
        fun k hk => ?_⟩
      · by_cases heq : k = h
        · rw [heq, hostedOn_of_none (by simp [drop_apply])] at hsome
          cases hsome
        · have hk : (r.stopLive left h).torrents.has k = true := by
            refine hstopped.hosted k ?_
            exact isSome_hostedOn hsome
              (by simp [drop_apply, stateFile_eq_iff, heq])
              (by simp [drop_apply, stateFile_eq_iff, heq])
          simp [OrdMap.Tree.has_erase, heq, hk]
      · refine hstopped.fetched k ?_
        exact isSome_magnetOn hsome
          (by simp [drop_apply, stateFile_eq_iff])
      · rw [OrdMap.Tree.has_erase, Bool.and_eq_true] at hk
        exact hstopped.disjoint k hk.2

theorem Apart.tend (hr : Apart sha1 toLowercase r) (f : Faults) (h : Bytes) (hosted : Hosted)
    (record : Option Bytes) : Apart sha1 toLowercase (Registry.tend f h hosted record r) := by
  unfold Registry.tend
  cases hlookup : r.torrents.lookup h with
  | none => exact hr
  | some e =>
      have hhosted : r.torrents.has h = true := by rw [OrdMap.Tree.has, hlookup]; rfl
      have hhas : ∀ k, (r.torrents.insert h { e with hosted := hosted }).has k =
          r.torrents.has k := by
        intro k
        rw [OrdMap.Tree.has_insert]
        by_cases heq : k = h
        · simp [heq, hhosted]
        · simp [heq]
      have hentry : Apart sha1 toLowercase
          { r with torrents := r.torrents.insert h { e with hosted := hosted } } :=
        ⟨⟨hr.named, fun k hk => (hhas k).trans (hr.hosted k hk), hr.fetched⟩,
          fun k hk => hr.disjoint k ((hhas k).symm.trans hk)⟩
      cases record with
      | none => exact hentry
      | some bytes =>
          obtain ⟨-, d, heq, hbeside⟩ | ⟨-, e', d, heq, hbeside⟩ :=
            atomicWrite_cases f (stateFile h .resume) bytes r.dir
          · simp only [heq]
            have hagree := hbeside.agree
            refine ⟨⟨(hr.named.put_resume h bytes).agree hagree, fun k hsome => ?_,
              fun k hsome => ?_⟩, hentry.disjoint⟩
            · by_cases hk : k = h
              · exact (hhas k).trans (hk ▸ hhosted)
              · refine hentry.hosted k ?_
                exact isSome_hostedOn hsome
                  ((hagree _ rfl).trans (by simp [put_apply, stateFile_eq_iff]))
                  ((hagree _ rfl).trans (by simp [put_apply, stateFile_eq_iff, hk]))
            · refine hr.fetched k ?_
              exact isSome_magnetOn hsome
                ((hagree _ rfl).trans (by simp [put_apply, stateFile_eq_iff]))
          · simp only [heq]
            exact ⟨hentry.toKnown.of_agree hbeside.agree, hentry.disjoint⟩

theorem Apart.step (hr : Apart sha1 toLowercase r) {a : Faults × Registry.Op}
    (ha : Careful sha1 toLowercase a r) :
    Apart sha1 toLowercase (Registry.step sha1 toLowercase a r) := by
  obtain ⟨f, op⟩ := a
  cases op with
  | start order => exact apart_start ha.1 hr.named ha.2
  | addTorrent now bytes options =>
      have hcases : Adds sha1 toLowercase f now bytes options r _ :=
        addTorrent_cases f now bytes options r
      obtain ⟨hknown, hpending, ⟨-, hold⟩ | ⟨m, hparse, htakes, -, hnew⟩⟩ :=
        hr.toKnown.addTorrent hcases fun m hm => (ha m hm).2
      · exact ⟨hknown, fun h hh => (congrArg (·.has h) hpending).trans (hr.disjoint h (hold h hh))⟩
      · refine ⟨hknown, fun h hh => (congrArg (·.has h) hpending).trans ?_⟩
        obtain hh | rfl := hnew h hh
        · exact hr.disjoint h hh
        · exact (ha m hparse).1 htakes
  | addMagnet uri => exact hr.addMagnet (addMagnet_cases f uri r)
  | completeMagnet now h bytes =>
      have hcases : Adds sha1 toLowercase f now bytes ⟨false, false⟩ r _ :=
        addTorrent_cases f now bytes ⟨false, false⟩ r
      have hadded := hr.toKnown.addTorrent hcases fun m hm => (ha m hm).2
      simp only [Registry.step, Registry.completeMagnet]
      generalize Registry.addTorrent sha1 toLowercase f now bytes ⟨false, false⟩ r = out at hadded
      obtain ⟨hknown, hpending, ⟨⟨e, hfailed⟩, hold⟩ | ⟨m, hparse, htakes, hok, hnew⟩⟩ := hadded
      · obtain ⟨result, r₁⟩ := out
        obtain rfl : result = .error e := hfailed
        exact ⟨hknown, fun k hk => (congrArg (·.has k) hpending).trans (hr.disjoint k (hold k hk))⟩
      · obtain ⟨result, r₁⟩ := out
        obtain rfl : result = .ok m.infoHash := hok
        obtain ⟨hself, hunlink⟩ := (ha m hparse).1 htakes
        have hremove : r₁.dir.tryRemove f (stateFile h .magnet) =
            r₁.dir.drop (stateFile h .magnet) := by
          unfold Dir.tryRemove Dir.removeFileOk
          rw [hunlink]
          rfl
        simp only [hremove]
        refine ⟨hknown.forget h, fun k hk => ?_⟩
        by_cases heq : k = h
        · simp [OrdMap.Tree.has_erase, heq]
        · have hpending' : r.pending.has k = false := by
            obtain hk | rfl := hnew k hk
            · exact hr.disjoint k hk
            · exact Bool.eq_false_iff.2 fun hp => heq (hself hp)
          rw [OrdMap.Tree.has_erase, (congrArg (·.has k) hpending).trans hpending', Bool.and_false]
  | remove left h => exact hr.remove (remove_cases f left h r)
  | tend h hosted record => exact hr.tend f h hosted record

/-- If no torrent is added while its magnet is pending, except to complete that magnet, and the
files that are dropped for good are gone, then in every state of the registry a torrent is
hosted or pending and a removal is one. -/
theorem hosted_or_pending (hf : Sound f) (hd : Named sha1 toLowercase d) {order : List FileName}
    (horder : Lists order d) {acts : List (Faults × Registry.Op)}
    (hall : Machine.Along (Registry.step sha1 toLowercase) (Careful sha1 toLowercase) acts
      (Registry.start sha1 toLowercase f order d)) :
    Separate sha1 toLowercase
      (Registry.run sha1 toLowercase acts (Registry.start sha1 toLowercase f order d)) := by
  have happart : Apart sha1 toLowercase
      (Registry.run sha1 toLowercase acts (Registry.start sha1 toLowercase f order d)) :=
    Machine.run_induction_along (fun a r ha hr => hr.step ha) hall (apart_start hf hd horder)
  exact happart.separate

/-! ## The magnet first, then the torrent -/

namespace Demo

/-- The magnet is added, then the torrent file. -/
def both : List (Faults × Registry.Op) :=
  [(Faults.none, .addMagnet link), (Faults.none, .addTorrent 0 (torrentFile "demo") ⟨false, false⟩)]

/-- The torrent when its files have been hashed. -/
def hashed : Hosted :=
  { Hosted.new (sharedOf digest demoInfo) 0 false false with scanning := false }

/-- The magnet is added, fetched, hashed and removed, and another torrent is added. -/
def magnetFirst : List (Faults × Registry.Op) :=
  [(Faults.none, .addMagnet link), (Faults.none, .completeMagnet 0 demoHash (torrentFile "demo")),
    (Faults.none, .tend demoHash hashed none), (Faults.none, .remove hashed demoHash),
    (Faults.none, .addTorrent 1 (torrentFile "Demo") ⟨false, false⟩)]

/-- What a torrent file is parsed to, computed. -/
theorem infoHash_of_parse {bytes h : Bytes} {m : MetaInfo}
    (hhash : (MetaInfo.parse digest lower bytes).toOption.map (·.infoHash) = some h)
    (hparse : MetaInfo.parse digest lower bytes = .ok m) : m.infoHash = h := by
  rw [hparse] at hhash
  exact Option.some.inj hhash

end Demo

open Demo in
/-- The torrent is hosted and pending, its prefix is ambiguous, and removing it leaves it
hosted. -/
theorem removed_torrent_stays :
    ¬ Separate digest lower
      (Registry.run digest lower both (Registry.start digest lower .none [] emptyDir)) := by
  intro h
  have hdisjoint := h.disjoint demoHash (by decide +kernel)
  revert hdisjoint
  decide +kernel

open Demo in
theorem hosted_or_pending_fetched :
    let r := Registry.run digest lower magnetFirst (Registry.start digest lower .none [] emptyDir)
    r.torrents.keys = [capitalHash] ∧ r.pending.keys = [] ∧ Separate digest lower r := by
  refine ⟨by decide +kernel, by decide +kernel, hosted_or_pending sound_none named_empty lists_empty
    ⟨trivial, ?_, trivial, trivial, ?_, trivial⟩⟩
  · intro m hparse
    have hhash : m.infoHash = demoHash := infoHash_of_parse (by decide +kernel) hparse
    exact ⟨fun _ => ⟨fun _ => hhash, rfl⟩, fun _ _ _ => rfl⟩
  · intro m hparse
    have hhash : m.infoHash = capitalHash := infoHash_of_parse (by decide +kernel) hparse
    refine ⟨fun _ => ?_, fun _ _ _ => rfl⟩
    rw [hhash]
    decide +kernel

end Clove.Daemon
