import Clove.Daemon.StateDir

/-!
# Torrents that share a place on disk

Within a torrent no two paths are the same up to letter case, and none is a prefix of another.
Between torrents the registry compares names, and compares them exactly.  Every path begins with
the name of its torrent, and a torrent with the name of a hosted one is refused, so as long as names
that are equal up to letter case are equal, no two torrents have a path in common
(`hosted_paths_apart`).  Torrents whose names differ in case only are both taken in
(`names_clash_in_lower_case`).
-/

namespace Clove.Daemon

variable {sha1 toLowercase : Bytes → Bytes} {f : Faults} {r : Registry}

/-- No path of a hosted torrent is one of another, or begins one, up to letter case. -/
def PathsApart (toLowercase : Bytes → Bytes) (r : Registry) : Prop :=
  ∀ h₁ h₂ e₁ e₂, r.torrents.lookup h₁ = some e₁ → r.torrents.lookup h₂ = some e₂ → h₁ ≠ h₂ →
    ∀ f₁ ∈ e₁.info.files, ∀ f₂ ∈ e₂.info.files,
      ¬ f₁.path.map toLowercase <+: f₂.path.map toLowercase

/-- A hosted torrent that has the name of this one up to letter case has that very name. -/
def SpeltAlike (toLowercase : Bytes → Bytes) (r : Registry) (m : MetaInfo) : Prop :=
  ∀ h e, r.torrents.lookup h = some e → toLowercase e.info.name = toLowercase m.name →
    e.info.name = m.name

/-- The operations after which names equal up to letter case would be equal: additions leave it to
the registry to refuse a name it has.  A start compares no names, so those it loads have to
differ. -/
def Distinguishing (sha1 toLowercase : Bytes → Bytes) (a : Faults × Registry.Op) (r : Registry) :
    Prop :=
  match a.2 with
  | .start _ => ∀ n₁ n₂ h₁ h₂ e₁ e₂,
      Registry.readTorrent sha1 toLowercase a.1 n₁ r.dir = .ok (h₁, e₁) →
      Registry.readTorrent sha1 toLowercase a.1 n₂ r.dir = .ok (h₂, e₂) → h₁ ≠ h₂ →
        toLowercase e₁.info.name ≠ toLowercase e₂.info.name
  | .addTorrent _ bytes _ => ∀ m, MetaInfo.parse sha1 toLowercase bytes = .ok m →
      r.torrents.has m.infoHash = false → SpeltAlike toLowercase r m
  | .completeMagnet _ _ bytes => ∀ m, MetaInfo.parse sha1 toLowercase bytes = .ok m →
      r.torrents.has m.infoHash = false → SpeltAlike toLowercase r m
  | .addMagnet _ => True
  | .remove _ _ => True
  | .tend _ _ _ => True

/-- Every path begins with its torrent's name, and the names differ up to letter case. -/
structure NamesApart (toLowercase : Bytes → Bytes) (r : Registry) : Prop where
  rooted : ∀ h e, r.torrents.lookup h = some e → MetaInfo.Rooted e.info.name e.info.files
  differ : ∀ h₁ h₂ e₁ e₂, r.torrents.lookup h₁ = some e₁ → r.torrents.lookup h₂ = some e₂ →
    h₁ ≠ h₂ → toLowercase e₁.info.name ≠ toLowercase e₂.info.name

theorem NamesApart.pathsApart (hr : NamesApart toLowercase r) : PathsApart toLowercase r := by
  intro h₁ h₂ e₁ e₂ he₁ he₂ hne f₁ hf₁ f₂ hf₂ hprefix
  obtain ⟨rest₁, hpath₁⟩ := hr.rooted h₁ e₁ he₁ f₁ hf₁
  obtain ⟨rest₂, hpath₂⟩ := hr.rooted h₂ e₂ he₂ f₂ hf₂
  rw [hpath₁, hpath₂, List.map_cons, List.map_cons, List.cons_prefix_cons] at hprefix
  exact hr.differ h₁ h₂ e₁ e₂ he₁ he₂ hne hprefix.1

/-- The names depend on what is hosted, and not on how it is doing. -/
theorem NamesApart.of_sub (hr : NamesApart toLowercase r) {r' : Registry}
    (h : ∀ h e', r'.torrents.lookup h = some e' →
      ∃ e, r.torrents.lookup h = some e ∧ e'.info = e.info) : NamesApart toLowercase r' where
  rooted := by
    intro k e' he'
    obtain ⟨e, he, hinfo⟩ := h k e' he'
    exact hinfo ▸ hr.rooted k e he
  differ := by
    intro h₁ h₂ e₁' e₂' he₁' he₂' hne
    obtain ⟨e₁, he₁, hinfo₁⟩ := h h₁ e₁' he₁'
    obtain ⟨e₂, he₂, hinfo₂⟩ := h h₂ e₂' he₂'
    rw [hinfo₁, hinfo₂]
    exact hr.differ h₁ h₂ e₁ e₂ he₁ he₂ hne

theorem NamesApart.same (hr : NamesApart toLowercase r) {r' : Registry}
    (h : r'.torrents = r.torrents) : NamesApart toLowercase r' :=
  hr.of_sub fun _ e' he' => ⟨e', h ▸ he', rfl⟩

theorem NamesApart.insert (hr : NamesApart toLowercase r) {e : Entry} {r' : Registry}
    (hrooted : MetaInfo.Rooted e.info.name e.info.files)
    (hunlike : ∀ k x, r.torrents.lookup k = some x →
      toLowercase x.info.name ≠ toLowercase e.info.name)
    {h : Bytes} (hinsert : r'.torrents = r.torrents.insert h e) : NamesApart toLowercase r' := by
  have hlookup : ∀ k, r'.torrents.lookup k = if k = h then some e else r.torrents.lookup k :=
    fun k => hinsert ▸ OrdMap.Tree.lookup_insert _ _ _ _
  refine ⟨fun k e' he' => ?_, fun h₁ h₂ e₁ e₂ he₁ he₂ hne => ?_⟩
  · rw [hlookup] at he'
    split at he'
    · exact Option.some.inj he' ▸ hrooted
    · exact hr.rooted k e' he'
  · rw [hlookup] at he₁ he₂
    split at he₁
    · rename_i heq₁
      obtain rfl := Option.some.inj he₁
      split at he₂
      · rename_i heq₂
        exact absurd (heq₁.trans heq₂.symm) hne
      · exact (hunlike h₂ e₂ he₂).symm
    · split at he₂
      · obtain rfl := Option.some.inj he₂
        exact hunlike h₁ e₁ he₁
      · exact hr.differ h₁ h₂ e₁ e₂ he₁ he₂ hne

/-! ## Each operation -/

/-- A torrent whose name is hosted is refused, so one that is not refused has a name of its own, up
to letter case. -/
theorem SpeltAlike.name_ne {m : MetaInfo} (h : SpeltAlike toLowercase r m)
    (hclash : r.clashes m = false) (k : Bytes) (e : Entry) (he : r.torrents.lookup k = some e) :
    toLowercase e.info.name ≠ toLowercase m.name := by
  intro hlower
  have hnone := List.any_eq_false.1 hclash (k, e) (OrdMap.Tree.mem_entries he)
  exact hnone (decide_eq_true (h k e he hlower))

theorem NamesApart.addTorrent (hr : NamesApart toLowercase r) {now : Nat} {bytes : Bytes}
    {options : AddOptions} {out : Except AddError Bytes × Registry}
    (hadds : Adds sha1 toLowercase f now bytes options r out)
    (hspelt : ∀ m, MetaInfo.parse sha1 toLowercase bytes = .ok m →
      r.torrents.has m.infoHash = false → SpeltAlike toLowercase r m) :
    NamesApart toLowercase out.2 := by
  cases hadds with
  | rejected _ _ => exact hr
  | refused _ _ _ => exact hr.same rfl
  | undone _ _ _ _ _ => exact hr.same rfl
  | @added m d hparse hnew hclash _ _ _ =>
      refine hr.insert (e := ⟨m, _⟩) (MetaInfo.rooted_of_parse hparse) ?_ rfl
      exact (hspelt m hparse hnew).name_ne hclash

/-- What a start hosts it has read from the state directory. -/
theorem readTorrent_of_start {order : List FileName} {d : Dir} {h : Bytes} {e : Entry}
    (he : (Registry.start sha1 toLowercase f order d).torrents.lookup h = some e) :
    ∃ n, Registry.readTorrent sha1 toLowercase f n d = .ok (h, e) := by
  have hloads : ∀ (l : List FileName) (r : Registry), r.dir = d →
      (∀ h e, r.torrents.lookup h = some e →
        ∃ n, Registry.readTorrent sha1 toLowercase f n d = .ok (h, e)) →
      ∀ h e, (l.foldl (Registry.loadOne sha1 toLowercase f) r).torrents.lookup h = some e →
        ∃ n, Registry.readTorrent sha1 toLowercase f n d = .ok (h, e) := by
    intro l
    induction l with
    | nil => exact fun _ _ hr => hr
    | cons n l ih =>
        intro r hdir hr
        refine ih _ ?_ ?_
        · unfold Registry.loadOne
          split
          · exact hdir
          · exact hdir
        · intro h e he
          unfold Registry.loadOne at he
          split at he
          · exact hr h e he
          · rename_i h' e' hread
            rw [OrdMap.Tree.lookup_insert] at he
            split at he
            · rename_i heq
              obtain rfl := Option.some.inj he
              exact ⟨n, by rw [heq, ← hdir, hread]⟩
            · exact hr h e he
  have hmagnets : ∀ (l : List FileName) (r : Registry),
      (l.foldl (Registry.loadMagnet f) r).torrents = r.torrents := by
    intro l
    induction l with
    | nil => exact fun _ => rfl
    | cons n l ih =>
        intro r
        refine (ih _).trans ?_
        unfold Registry.loadMagnet
        split
        · rfl
        · split
          · rfl
          · rfl
  unfold Registry.start Registry.loadAll at he
  split at he
  · cases he
  · simp only [hmagnets] at he
    exact hloads _ _ rfl (fun _ _ h => by cases h) h e he

theorem rooted_of_readTorrent {n : FileName} {d : Dir} {h : Bytes} {e : Entry}
    (hread : Registry.readTorrent sha1 toLowercase f n d = .ok (h, e)) :
    MetaInfo.Rooted e.info.name e.info.files := by
  unfold Registry.readTorrent at hread
  obtain ⟨bytes, -, hread⟩ := Except.ok_of_bind hread
  obtain ⟨m, hparse, hread⟩ := Except.ok_of_bind hread
  obtain ⟨record, -, hread⟩ := Except.ok_of_bind hread
  obtain ⟨hosted, -, hread⟩ := Except.ok_of_bind hread
  obtain ⟨-, rfl⟩ := Prod.mk.inj (Except.ok.inj hread)
  exact MetaInfo.rooted_of_parse (Except.ok_of_mapError hparse)

/-- A torrent whose entry is changed keeps its name. -/
theorem info_of_insert {h k : Bytes} {e e' : Entry} {hosted : Hosted}
    (he : r.torrents.lookup h = some e)
    (he' : (r.torrents.insert h { e with hosted := hosted }).lookup k = some e') :
    ∃ e, r.torrents.lookup k = some e ∧ e'.info = e.info := by
  rw [OrdMap.Tree.lookup_insert] at he'
  split at he'
  · rename_i heq
    exact ⟨e, heq ▸ he, Option.some.inj he' ▸ rfl⟩
  · exact ⟨e', he', rfl⟩

theorem NamesApart.stopLive (hr : NamesApart toLowercase r) (left : Hosted) (h : Bytes) :
    NamesApart toLowercase (r.stopLive left h) := by
  unfold Registry.stopLive
  cases he : r.torrents.lookup h with
  | none => exact hr
  | some e =>
      simp only
      split
      · exact hr
      · exact hr.of_sub fun _ _ he' => info_of_insert he he'

theorem NamesApart.remove (hr : NamesApart toLowercase r) {left : Hosted} {h : Bytes}
    {out : Except RemoveError Unit × Registry}
    (hremoval : Removal f h r (r.stopLive left h) out) : NamesApart toLowercase out.2 := by
  cases hremoval with
  | absent _ _ => exact hr
  | scanning _ _ _ => exact hr
  | magnetStays _ _ => exact hr
  | magnet _ => exact hr.same rfl
  | torrentStays _ _ _ _ => exact hr.stopLive left h
  | resumeStays _ _ _ _ _ => exact (hr.stopLive left h).same rfl
  | torrent _ _ =>
      refine (hr.stopLive left h).of_sub fun k e he => ⟨e, ?_, rfl⟩
      simp only [OrdMap.Tree.lookup_erase] at he
      split at he
      · cases he
      · exact he

theorem NamesApart.step (hr : NamesApart toLowercase r) {a : Faults × Registry.Op}
    (ha : Distinguishing sha1 toLowercase a r) :
    NamesApart toLowercase (Registry.step sha1 toLowercase a r) := by
  obtain ⟨f, op⟩ := a
  cases op with
  | start order =>
      refine ⟨fun h e he => ?_, fun h₁ h₂ e₁ e₂ he₁ he₂ hne => ?_⟩
      · obtain ⟨n, hread⟩ := readTorrent_of_start he
        exact rooted_of_readTorrent hread
      · obtain ⟨n₁, hread₁⟩ := readTorrent_of_start he₁
        obtain ⟨n₂, hread₂⟩ := readTorrent_of_start he₂
        exact ha n₁ n₂ h₁ h₂ e₁ e₂ hread₁ hread₂ hne
  | addTorrent now bytes options => exact hr.addTorrent (addTorrent_cases f now bytes options r) ha
  | addMagnet uri =>
      have hcases := addMagnet_cases f uri r
      simp only [Registry.step]
      generalize Registry.addMagnet f uri r = out at hcases
      cases hcases with
      | rejected _ => exact hr
      | refused _ => exact hr.same rfl
      | added _ _ _ _ => exact hr.same rfl
  | completeMagnet now h bytes =>
      have hadd : NamesApart toLowercase
          (Registry.addTorrent sha1 toLowercase f now bytes ⟨false, false⟩ r).2 :=
        hr.addTorrent (addTorrent_cases f now bytes ⟨false, false⟩ r) ha
      simp only [Registry.step, Registry.completeMagnet]
      generalize Registry.addTorrent sha1 toLowercase f now bytes ⟨false, false⟩ r = out at hadd
      obtain ⟨result, r₁⟩ := out
      cases result with
      | error e => exact hadd
      | ok added => exact hadd.same rfl
  | remove left h => exact hr.remove (remove_cases f left h r)
  | tend h hosted record =>
      simp only [Registry.step, Registry.tend]
      cases he : r.torrents.lookup h with
      | none => exact hr
      | some e => exact hr.of_sub fun _ _ he' => info_of_insert he he'

/-- As long as names that are equal up to letter case are equal, no two hosted torrents have a path
in common. -/
theorem hosted_paths_apart (d : Dir) {acts : List (Faults × Registry.Op)}
    (hall : Machine.Along (Registry.step sha1 toLowercase) (Distinguishing sha1 toLowercase) acts
      ⟨.empty, .empty, d⟩) :
    PathsApart toLowercase (Registry.run sha1 toLowercase acts ⟨.empty, .empty, d⟩) := by
  have hempty : NamesApart toLowercase ⟨.empty, .empty, d⟩ :=
    ⟨fun _ _ h => (nomatch h), fun _ _ _ _ h => (nomatch h)⟩
  have hnames : NamesApart toLowercase
      (Registry.run sha1 toLowercase acts ⟨.empty, .empty, d⟩) :=
    Machine.run_induction_along (fun a r ha hr => hr.step ha) hall hempty
  exact hnames.pathsApart

/-! ## Names that differ in case -/

namespace Demo

/-- Both torrents are added. -/
def bothCases : List (Faults × Registry.Op) :=
  [(.none, .addTorrent 0 (torrentFile "demo") ⟨false, false⟩),
    (.none, .addTorrent 1 (torrentFile "Demo") ⟨false, false⟩)]

/-- A hosted torrent has a file at a path. -/
theorem exists_file (r : Registry) (k : Bytes) (path : List Bytes)
    (h : (r.torrents.lookup k).map (fun e => e.info.files.map (·.path)) = some [path]) :
    ∃ e, r.torrents.lookup k = some e ∧ ∃ file ∈ e.info.files, file.path = path := by
  obtain ⟨e, he, hpaths⟩ := Option.map_eq_some_iff.1 h
  have hmem : path ∈ e.info.files.map (·.path) := hpaths ▸ List.mem_singleton.2 rfl
  exact ⟨e, he, List.mem_map.1 hmem⟩

/-- `Demo` is taken in beside `demo`. -/
theorem names_clash_in_lower_case :
    ¬ PathsApart lower (Registry.run digest lower bothCases ⟨.empty, .empty, emptyDir⟩) := by
  intro h
  obtain ⟨e₁, he₁, f₁, hf₁, hpath₁⟩ := exists_file
    (Registry.run digest lower bothCases ⟨.empty, .empty, emptyDir⟩) demoHash
    [Utf8.ascii "demo"] (by decide +kernel)
  obtain ⟨e₂, he₂, f₂, hf₂, hpath₂⟩ := exists_file
    (Registry.run digest lower bothCases ⟨.empty, .empty, emptyDir⟩) capitalHash
    [Utf8.ascii "Demo"] (by decide +kernel)
  refine h _ _ e₁ e₂ he₁ he₂ (by decide) f₁ hf₁ f₂ hf₂ ?_
  rw [hpath₁, hpath₂]
  decide +kernel

/-- The info dictionary of another torrent that is called `demo`. -/
def twinDict : Bytes :=
  Utf8.ascii "d6:lengthi16384e4:name4:demo12:piece lengthi16384e6:pieces20:" ++
    List.replicate 20 1 ++ Utf8.ascii "e"

/-- `demo` is added, another torrent of that name is refused, and a third is added. -/
def oneRefused : List (Faults × Registry.Op) :=
  [(.none, .addTorrent 0 (torrentFile "demo") ⟨false, false⟩),
    (.none, .addTorrent 1 (Utf8.ascii "d4:info" ++ twinDict ++ Utf8.ascii "e") ⟨false, false⟩),
    (.none, .addTorrent 2 (torrentFile "other") ⟨false, false⟩)]

/-- What an addition asks of the names, computed. -/
theorem speltAlike_of_all {r : Registry} {bytes : Bytes} (name : String)
    (hname : (MetaInfo.parse digest lower bytes).toOption.map (·.name) = some (Utf8.ascii name))
    (hall : r.torrents.entries.all (fun e =>
      !decide (lower e.2.info.name = lower (Utf8.ascii name)) ||
        decide (e.2.info.name = Utf8.ascii name)) = true) :
    ∀ m, MetaInfo.parse digest lower bytes = .ok m → r.torrents.has m.infoHash = false →
      SpeltAlike lower r m := by
  intro m hparse _ h e he hlower
  rw [hparse] at hname
  have hname : m.name = Utf8.ascii name := Option.some.inj hname
  have hone := List.all_eq_true.1 hall (h, e) (OrdMap.Tree.mem_entries he)
  rw [← hname] at hone
  simpa [hlower] using hone

theorem hosted_paths_apart_two :
    (Registry.run digest lower oneRefused ⟨.empty, .empty, emptyDir⟩).torrents.entries.map
        (·.2.info.name) = [Utf8.ascii "other", Utf8.ascii "demo"] ∧
      PathsApart lower (Registry.run digest lower oneRefused ⟨.empty, .empty, emptyDir⟩) := by
  refine ⟨by decide +kernel, hosted_paths_apart emptyDir ⟨?_, ?_, ?_, trivial⟩⟩
  · exact speltAlike_of_all "demo" (by decide +kernel) (by decide +kernel)
  · exact speltAlike_of_all "demo" (by decide +kernel) (by decide +kernel)
  · exact speltAlike_of_all "other" (by decide +kernel) (by decide +kernel)

end Demo

end Clove.Daemon
