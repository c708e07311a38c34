import Clove.Daemon.Registry

/-!
# What the state directory holds

`hostedOn` and `magnetOn` read off a state directory what a start would find in it for one
info-hash.  Both look at the files named by that info-hash and at no others, and in a directory
whose files are named for what they hold (`Named`) a start finds exactly that (`start_spec`), in
whatever order the directory is listed.
-/

namespace Clove.Daemon

variable {sha1 toLowercase : Bytes → Bytes} {f : Faults} {d d' : Dir}

/-! ## Writing and removing -/

/-- Two directories with the same state files. -/
def Agree (d d' : Dir) : Prop := ∀ n, n.temp = false → d' n = d n

theorem stateFile_inj {h h' : Bytes} {kind kind' : Kind}
    (heq : stateFile h kind = stateFile h' kind') : h = h' ∧ kind = kind' := by
  obtain ⟨hstem, hkind, -⟩ := FileName.mk.inj heq
  exact ⟨Hex.encode_injective hstem, hkind⟩

theorem stateFile_eq_iff {h h' : Bytes} {kind kind' : Kind} :
    stateFile h kind = stateFile h' kind' ↔ h = h' ∧ kind = kind' :=
  ⟨stateFile_inj, by rintro ⟨rfl, rfl⟩; rfl⟩

theorem drop_apply (n m : FileName) : d.drop n m = if m = n then none else d m :=
  Function.update_apply d n none m

theorem put_apply (n m : FileName) (bytes : Bytes) :
    d.put n bytes m = if m = n then some bytes else d m :=
  Function.update_apply d n (some bytes) m

/-- The file through which a state file is written. -/
def FileName.tmp (n : FileName) : FileName := { n with temp := true }

/-- Two directories that differ in one file at most. -/
def Beside (n : FileName) (d d' : Dir) : Prop := ∀ m, m ≠ n → d' m = d m

theorem Beside.agree {n : FileName} (h : Beside n.tmp d d') : Agree d d' := by
  intro m hm
  refine h m ?_
  rintro rfl
  cases hm

/-- The calls through which a file is replaced, and the one thing besides that stops it: a
temporary file that cannot be removed. -/
def Refused (f : Faults) (n : FileName) (d : Dir) : Prop :=
  f.fails (.create n.tmp) ∨ f.fails (.write n.tmp) ∨ f.fails (.sync n.tmp) ∨
    f.fails (.rename n.tmp) ∨ f.fails (.unlink n.tmp) ∧ (d n.tmp).isSome

instance (f : Faults) (n : FileName) (d : Dir) : Decidable (Refused f n d) :=
  inferInstanceAs (Decidable (_ ∨ _))

/-- A file is replaced as a whole, or no state file is touched. -/
theorem atomicWrite_cases (f : Faults) (n : FileName) (bytes : Bytes) (d : Dir) :
    (¬ Refused f n d ∧ ∃ d', d.atomicWrite f n bytes = (.ok (), d') ∧
      Beside n.tmp (d.put n bytes) d') ∨
    (Refused f n d ∧ ∃ e d', d.atomicWrite f n bytes = (.error e, d') ∧ Beside n.tmp d d') := by
  have hclean : Beside n.tmp d (d.tryRemove f n.tmp) := by
    intro m hm
    unfold Dir.tryRemove Dir.removeFileOk
    split
    · rfl
    · exact (drop_apply _ _).trans (if_neg hm)
  have hput : ∀ bytes, Beside n.tmp d ((d.tryRemove f n.tmp).put n.tmp bytes) :=
    fun bytes m hm => ((put_apply _ _ _).trans (if_neg hm)).trans (hclean m hm)
  have hleft : (d.tryRemove f n.tmp n.tmp).isSome = true ↔
      f.fails (.unlink n.tmp) ∧ (d n.tmp).isSome := by
    unfold Dir.tryRemove Dir.removeFileOk
    split
    · rename_i hfails
      simp [hfails]
    · rename_i hfails
      simp [hfails, drop_apply]
  have hwrite : d.atomicWrite f n bytes =
      if f.fails (.create n.tmp) || (d.tryRemove f n.tmp n.tmp).isSome then
        (.error .other, d.tryRemove f n.tmp)
      else if f.fails (.write n.tmp) then
        (.error .other, (d.tryRemove f n.tmp).put n.tmp (bytes.take f.cut))
      else if f.fails (.sync n.tmp) || f.fails (.rename n.tmp) then
        (.error .other, (d.tryRemove f n.tmp).put n.tmp bytes)
      else (.ok (), ((d.tryRemove f n.tmp).drop n.tmp).put n bytes) := rfl
  rw [hwrite]
  unfold Refused
  split
  · rename_i hcreate
    rw [Bool.or_eq_true, hleft] at hcreate
    exact .inr ⟨by tauto, _, _, rfl, hclean⟩
  rename_i hcreate
  rw [Bool.or_eq_true, hleft, not_or] at hcreate
  split
  · rename_i hwrite
    exact .inr ⟨by tauto, _, _, rfl, hput _⟩
  rename_i hwrite
  split
  · rename_i hsync
    rw [Bool.or_eq_true] at hsync
    exact .inr ⟨by tauto, _, _, rfl, hput _⟩
  rename_i hsync
  rw [Bool.or_eq_true, not_or] at hsync
  refine .inl ⟨by tauto, _, rfl, fun m hm => ?_⟩
  rw [put_apply, put_apply, drop_apply, if_neg hm, hclean m hm]

/-! ## What a start would find -/

section Reading

variable (sha1 toLowercase)

/-- The torrent a directory holds for an info-hash. -/
def hostedOn (d : Dir) (infoHash : Bytes) : Option Entry := do
  let bytes ← d (stateFile infoHash .torrent)
  let m ← (MetaInfo.parse sha1 toLowercase bytes).toOption
  if m.infoHash ≠ infoHash then none
  else do
    let record ← d (stateFile infoHash .resume)
    let hosted ← (loadOne (sharedOf sha1 m) record).toOption
    return ⟨m, hosted⟩

/-- The magnet a directory holds for an info-hash. -/
def magnetOn (d : Dir) (infoHash : Bytes) : Option Magnet := do
  let uri ← (d (stateFile infoHash .magnet)).filter Utf8.valid
  let magnet ← (Magnet.parse (Text.trim uri)).toOption
  if magnet.infoHash ≠ infoHash then none else some magnet

/-- Every file is named for the torrent it describes. -/
structure Named (d : Dir) : Prop where
  torrent : ∀ n bytes m, n.kind = .torrent → n.temp = false → d n = some bytes →
    MetaInfo.parse sha1 toLowercase bytes = .ok m → n.stem = hex m.infoHash
  magnet : ∀ n uri m, n.kind = .magnet → n.temp = false → d n = some uri →
    Magnet.parse (Text.trim uri) = .ok m → n.stem = hex m.infoHash

end Reading

theorem hostedOn_congr {h : Bytes} (htorrent : d' (stateFile h .torrent) = d (stateFile h .torrent))
    (hresume : d' (stateFile h .resume) = d (stateFile h .resume)) :
    hostedOn sha1 toLowercase d' h = hostedOn sha1 toLowercase d h := by
  unfold hostedOn
  rw [htorrent, hresume]

theorem magnetOn_congr {h : Bytes} (hmagnet : d' (stateFile h .magnet) = d (stateFile h .magnet)) :
    magnetOn d' h = magnetOn d h := by
  unfold magnetOn
  rw [hmagnet]

/-- What a directory holds, another with the same files of that torrent holds. -/
theorem isSome_hostedOn {h : Bytes} (hsome : (hostedOn sha1 toLowercase d' h).isSome)
    (htorrent : d' (stateFile h .torrent) = d (stateFile h .torrent))
    (hresume : d' (stateFile h .resume) = d (stateFile h .resume)) :
    (hostedOn sha1 toLowercase d h).isSome :=
  hostedOn_congr htorrent hresume ▸ hsome

theorem isSome_magnetOn {h : Bytes} (hsome : (magnetOn d' h).isSome)
    (hmagnet : d' (stateFile h .magnet) = d (stateFile h .magnet)) : (magnetOn d h).isSome :=
  magnetOn_congr hmagnet ▸ hsome

theorem hostedOn_of_none {h : Bytes} (hnone : d (stateFile h .torrent) = none) :
    hostedOn sha1 toLowercase d h = none := by
  unfold hostedOn
  rw [hnone]
  rfl

theorem magnetOn_of_none {h : Bytes} (hnone : d (stateFile h .magnet) = none) :
    magnetOn d h = none := by
  unfold magnetOn
  rw [hnone]
  rfl

/-- What is found for an info-hash has it. -/
theorem infoHash_of_magnetOn {h : Bytes} {m : Magnet} (hm : magnetOn d h = some m) :
    m.infoHash = h := by
  obtain ⟨uri, -, hm⟩ := Option.bind_eq_some_iff.1 hm
  obtain ⟨m', -, hm⟩ := Option.bind_eq_some_iff.1 hm
  by_cases hhash : m'.infoHash = h
  · rw [if_neg (not_not.2 hhash)] at hm
    exact Option.some.inj hm ▸ hhash
  · rw [if_pos hhash] at hm
    cases hm

/-- Directories that agree hold the same. -/
theorem Agree.hostedOn (h : Agree d d') (infoHash : Bytes) :
    hostedOn sha1 toLowercase d' infoHash = hostedOn sha1 toLowercase d infoHash :=
  hostedOn_congr (h _ rfl) (h _ rfl)

theorem Agree.magnetOn (h : Agree d d') (infoHash : Bytes) :
    magnetOn d' infoHash = magnetOn d infoHash :=
  magnetOn_congr (h _ rfl)

theorem Named.of_sub (hd : Named sha1 toLowercase d)
    (h : ∀ n, n.temp = false → n.kind ≠ .resume → d' n = none ∨ d' n = d n) :
    Named sha1 toLowercase d' where
  torrent := by
    intro n bytes m hkind htemp hn hparse
    obtain hnone | hsame := h n htemp (by rw [hkind]; decide)
    · rw [hnone] at hn
      cases hn
    · exact hd.torrent n bytes m hkind htemp (hsame ▸ hn) hparse
  magnet := by
    intro n uri m hkind htemp hn hparse
    obtain hnone | hsame := h n htemp (by rw [hkind]; decide)
    · rw [hnone] at hn
      cases hn
    · exact hd.magnet n uri m hkind htemp (hsame ▸ hn) hparse

theorem Named.agree (hd : Named sha1 toLowercase d) (h : Agree d d') :
    Named sha1 toLowercase d' :=
  hd.of_sub fun n htemp _ => .inr (h n htemp)

theorem Named.drop (hd : Named sha1 toLowercase d) (n : FileName) :
    Named sha1 toLowercase (d.drop n) := by
  refine hd.of_sub fun m _ _ => ?_
  rw [drop_apply]
  split
  · exact .inl rfl
  · exact .inr rfl

theorem Named.tryRemove (hd : Named sha1 toLowercase d) (n : FileName) :
    Named sha1 toLowercase (d.tryRemove f n) := by
  unfold Dir.tryRemove Dir.removeFileOk
  split
  · exact hd
  · exact hd.drop n

theorem Named.put_resume (hd : Named sha1 toLowercase d) (h bytes : Bytes) :
    Named sha1 toLowercase (d.put (stateFile h .resume) bytes) := by
  refine hd.of_sub fun m _ hkind => .inr ?_
  rw [put_apply, if_neg]
  rintro rfl
  exact hkind rfl

theorem Named.put_torrent (hd : Named sha1 toLowercase d) {bytes : Bytes} {m : MetaInfo}
    (hparse : MetaInfo.parse sha1 toLowercase bytes = .ok m) :
    Named sha1 toLowercase (d.put (stateFile m.infoHash .torrent) bytes) where
  torrent := by
    intro n bytes' m' hkind htemp hn hparse'
    rw [put_apply] at hn
    split at hn
    · rename_i heq
      obtain rfl := Option.some.inj hn
      obtain rfl := Except.ok.inj (hparse.symm.trans hparse')
      rw [heq]
      rfl
    · exact hd.torrent n bytes' m' hkind htemp hn hparse'
  magnet := by
    intro n uri m' hkind htemp hn hparse'
    rw [put_apply, if_neg (by rintro rfl; cases hkind)] at hn
    exact hd.magnet n uri m' hkind htemp hn hparse'

/-- A link is read back from the file it is written to. -/
theorem Named.put_magnet (hd : Named sha1 toLowercase d) {uri : Bytes} {m : Magnet}
    (hparse : Magnet.parse uri = .ok m) :
    Named sha1 toLowercase (d.put (stateFile m.infoHash .magnet) uri) where
  torrent := by
    intro n bytes m' hkind htemp hn hparse'
    rw [put_apply, if_neg (by rintro rfl; cases hkind)] at hn
    exact hd.torrent n bytes m' hkind htemp hn hparse'
  magnet := by
    intro n uri' m' hkind htemp hn hparse'
    rw [put_apply] at hn
    split at hn
    · rename_i heq
      obtain rfl := Option.some.inj hn
      obtain ⟨m'', htrim, hhash⟩ := Magnet.infoHash_trim hparse
      obtain rfl := Except.ok.inj (htrim.symm.trans hparse')
      rw [heq, hhash]
      rfl
    · exact hd.magnet n uri' m' hkind htemp hn hparse'

/-! ## Starting -/

/-- Nothing fails. -/
def Sound (f : Faults) : Prop := ∀ c, f.fails c = false

theorem sound_none : Sound Faults.none := fun _ => rfl

/-- A listing of the state files of a directory, and of other files it may have. -/
structure Lists (order : List FileName) (d : Dir) : Prop where
  mem : ∀ n, n.temp = false → (n ∈ order ↔ (d n).isSome)
  nodup : order.Nodup

theorem Lists.agree {order : List FileName} (h : Lists order d) (hagree : Agree d d') :
    Lists order d' :=
  ⟨fun n hn => (h.mem n hn).trans (by rw [hagree n hn]), h.nodup⟩

/-- A file that is listed may be written again. -/
theorem Lists.put {order : List FileName} (h : Lists order d) {n : FileName} (hn : n ∈ order)
    (bytes : Bytes) : Lists order (d.put n bytes) := by
  refine ⟨fun m hm => ?_, h.nodup⟩
  rw [put_apply]
  split
  · rename_i heq
    exact iff_of_true (heq ▸ hn) rfl
  · exact h.mem m hm

/-- A directory that differs from one that can be listed in a few files can be listed. -/
theorem Lists.exists_of_agree {order l : List FileName} (h : Lists order d)
    (hagree : ∀ n, n.temp = false → n ∉ l → d' n = d n) : ∃ order', Lists order' d' := by
  refine ⟨(order ++ l).dedup.filter fun n => (d' n).isSome, fun n hn => ?_,
    (List.nodup_dedup _).filter _⟩
  rw [List.mem_filter, List.mem_dedup, List.mem_append, and_iff_right_iff_imp]
  intro hsome
  by_cases hmem : n ∈ l
  · exact .inr hmem
  · exact .inl ((h.mem n hn).2 (hagree n hn hmem ▸ hsome))

theorem read_sound (hf : Sound f) (n : FileName) : d.read f n = d n :=
  if_neg (by simp [hf _])

theorem tryRemove_sound (hf : Sound f) (n : FileName) : d.tryRemove f n = d.drop n := by
  unfold Dir.tryRemove Dir.removeFileOk
  rw [if_neg (by simp [hf _])]

/-- A file is read as the torrent it is named for, and as what the directory holds for that. -/
theorem readTorrent_iff (hf : Sound f) (hd : Named sha1 toLowercase d) {n : FileName}
    (hkind : n.kind = .torrent) (htemp : n.temp = false) {h : Bytes} {e : Entry} :
    Registry.readTorrent sha1 toLowercase f n d = .ok (h, e) ↔
      n = stateFile h .torrent ∧ hostedOn sha1 toLowercase d h = some e := by
  unfold Registry.readTorrent hostedOn
  constructor
  · intro hread
    obtain ⟨bytes, hbytes, hread⟩ := Except.ok_of_bind hread
    obtain ⟨m, hparse, hread⟩ := Except.ok_of_bind hread
    obtain ⟨record, hrecord, hread⟩ := Except.ok_of_bind hread
    obtain ⟨hosted, hload, hread⟩ := Except.ok_of_bind hread
    obtain ⟨rfl, rfl⟩ : m.infoHash = h ∧ _ = e := Prod.mk.inj (Except.ok.inj hread)
    have hbytes := Except.ok_of_elim hbytes
    have hrecord := Except.ok_of_elim hrecord
    rw [read_sound hf] at hbytes hrecord
    have hparse := Except.ok_of_mapError hparse
    have hname : n = stateFile m.infoHash .torrent := by
      obtain ⟨stem, kind, temp⟩ := n
      obtain rfl : stem = hex m.infoHash := hd.torrent _ bytes m hkind htemp hbytes hparse
      cases hkind
      cases htemp
      rfl
    refine ⟨hname, ?_⟩
    rw [← hname, hbytes]
    simp [hparse, hrecord, Except.ok_of_mapError hload, Except.toOption]
  · rintro ⟨rfl, hhosted⟩
    obtain ⟨bytes, hbytes, hhosted⟩ := Option.bind_eq_some_iff.1 hhosted
    obtain ⟨m, hparse, hhosted⟩ := Option.bind_eq_some_iff.1 hhosted
    split at hhosted
    · cases hhosted
    rename_i hhash
    obtain rfl := not_not.1 hhash
    obtain ⟨record, hrecord, hhosted⟩ := Option.bind_eq_some_iff.1 hhosted
    obtain ⟨hosted, hload, hhosted⟩ := Option.bind_eq_some_iff.1 hhosted
    obtain rfl := Option.some.inj hhosted
    rw [read_sound hf, hbytes]
    simp only [Option.elim, Except.ok_bind, Except.ok_of_toOption hparse, Except.mapError,
      read_sound hf, hrecord, Except.ok_of_toOption hload]
    rfl

theorem readMagnet_iff (hf : Sound f) (hd : Named sha1 toLowercase d) {n : FileName}
    (hkind : n.kind = .magnet) (htemp : n.temp = false) {m : Magnet} :
    Registry.readMagnet f n d = .ok m ↔
      n = stateFile m.infoHash .magnet ∧ magnetOn d m.infoHash = some m := by
  unfold Registry.readMagnet magnetOn
  constructor
  · intro hread
    obtain ⟨uri, huri, hparse⟩ := Except.ok_of_bind hread
    have huri := Except.ok_of_elim huri
    have hparse := Except.ok_of_mapError hparse
    rw [read_sound hf] at huri
    have hname : n = stateFile m.infoHash .magnet := by
      obtain ⟨stem, kind, temp⟩ := n
      obtain rfl : stem = hex m.infoHash :=
        hd.magnet _ uri m hkind htemp (Option.filter_eq_some_iff.1 huri).1 hparse
      cases hkind
      cases htemp
      rfl
    refine ⟨hname, ?_⟩
    rw [← hname, huri]
    simp [hparse, Except.toOption]
  · rintro ⟨rfl, hmagnet⟩
    obtain ⟨uri, huri, hmagnet⟩ := Option.bind_eq_some_iff.1 hmagnet
    obtain ⟨m', hparse, hmagnet⟩ := Option.bind_eq_some_iff.1 hmagnet
    split at hmagnet
    · cases hmagnet
    obtain rfl := Option.some.inj hmagnet
    rw [read_sound hf, huri]
    simp only [Option.elim, Except.ok_bind, Except.ok_of_toOption hparse, Except.mapError]

/-- The torrents of a listing, loaded one after the other. -/
theorem foldl_loadOne (hf : Sound f) {l : List FileName}
    (hl : ∀ n ∈ l, n.kind = .torrent ∧ n.temp = false) {r : Registry}
    (hd : Named sha1 toLowercase r.dir) :
    (l.foldl (Registry.loadOne sha1 toLowercase f) r).dir = r.dir ∧
      (l.foldl (Registry.loadOne sha1 toLowercase f) r).pending = r.pending ∧
      ∀ h, (l.foldl (Registry.loadOne sha1 toLowercase f) r).torrents.lookup h =
        if stateFile h .torrent ∈ l ∧ (hostedOn sha1 toLowercase r.dir h).isSome then
          hostedOn sha1 toLowercase r.dir h
        else r.torrents.lookup h := by
  induction l generalizing r with
  | nil => exact ⟨rfl, rfl, fun h => by simp⟩
  | cons n l ih =>
      obtain ⟨hkind, htemp⟩ := hl n List.mem_cons_self
      have hdir : (Registry.loadOne sha1 toLowercase f r n).dir = r.dir ∧
          (Registry.loadOne sha1 toLowercase f r n).pending = r.pending := by
        unfold Registry.loadOne
        split
        · exact ⟨rfl, rfl⟩
        · exact ⟨rfl, rfl⟩
      have hone : ∀ h, (Registry.loadOne sha1 toLowercase f r n).torrents.lookup h =
          if stateFile h .torrent = n ∧ (hostedOn sha1 toLowercase r.dir h).isSome then
            hostedOn sha1 toLowercase r.dir h
          else r.torrents.lookup h := by
        intro h
        unfold Registry.loadOne
        split
        · rename_i hread
          rw [if_neg]
          rintro ⟨rfl, hsome⟩
          obtain ⟨e, he⟩ := Option.isSome_iff_exists.1 hsome
          rw [(readTorrent_iff hf hd rfl rfl).2 ⟨rfl, he⟩] at hread
          cases hread
        · rename_i h' e hread
          obtain ⟨rfl, he⟩ := (readTorrent_iff hf hd hkind htemp).1 hread
          simp only [OrdMap.Tree.lookup_insert, stateFile_eq_iff, and_true]
          by_cases heq : h = h'
          · subst heq
            simp [he]
          · simp [heq]
      obtain ⟨hdir', hpending', hlookup⟩ := ih (r := Registry.loadOne sha1 toLowercase f r n)
        (fun m hm => hl m (List.mem_cons_of_mem _ hm)) (hdir.1 ▸ hd)
      refine ⟨hdir'.trans hdir.1, hpending'.trans hdir.2, fun h => ?_⟩
      rw [List.foldl_cons, hlookup h, hone h, hdir.1]
      by_cases hsome : (hostedOn sha1 toLowercase r.dir h).isSome = true
      · by_cases hmem : stateFile h .torrent ∈ l
        · simp [hsome, hmem]
        · simp [hsome, hmem]
      · simp [hsome]

/-- What loading magnets does: a magnet whose torrent is hosted loses its file, any other is
pending. -/
structure LoadsMagnets (d : Dir) (l : List FileName) (r r' : Registry) : Prop where
  torrents : r'.torrents = r.torrents
  pending : ∀ h, r'.pending.lookup h =
    if stateFile h .magnet ∈ l ∧ (magnetOn d h).isSome ∧ r.torrents.has h = false then
      (magnetOn d h).map (⟨·, false⟩)
    else r.pending.lookup h
  beside : ∀ n, n ∉ l → r'.dir n = r.dir n
  sub : ∀ n, r'.dir n = none ∨ r'.dir n = r.dir n
  promoted : ∀ h, stateFile h .magnet ∈ l → (magnetOn d h).isSome → r.torrents.has h = true →
    r'.dir (stateFile h .magnet) = none

/-- One file of the listing. -/
theorem loadsMagnets_one (hf : Sound f) (hd : Named sha1 toLowercase d) {n : FileName}
    (hkind : n.kind = .magnet) (htemp : n.temp = false) {r : Registry} (hr : r.dir n = d n) :
    LoadsMagnets d [n] r (Registry.loadMagnet f r n) := by
  have hread : Registry.readMagnet f n r.dir = Registry.readMagnet f n d := by
    unfold Registry.readMagnet
    rw [read_sound hf, read_sound hf, hr]
  have hnone : (∀ m, Registry.readMagnet f n d ≠ .ok m) → ∀ h, stateFile h .magnet = n →
      (magnetOn d h).isSome ≠ true := by
    rintro hskip h rfl hsome
    obtain ⟨m, hm⟩ := Option.isSome_iff_exists.1 hsome
    obtain rfl := infoHash_of_magnetOn hm
    exact hskip m ((readMagnet_iff hf hd rfl rfl).2 ⟨rfl, hm⟩)
  unfold Registry.loadMagnet
  rw [hread]
  cases hm : Registry.readMagnet f n d with
  | error e =>
      have hnone := hnone fun m h => by rw [hm] at h; cases h
      refine ⟨rfl, fun h => ?_, fun _ _ => rfl, fun _ => .inr rfl, fun h hmem hsome => ?_⟩
      · rw [if_neg]
        rintro ⟨hmem, hsome, -⟩
        exact hnone h (List.mem_singleton.1 hmem) hsome
      · exact absurd hsome (hnone h (List.mem_singleton.1 hmem))
  | ok m =>
      obtain ⟨rfl, hmagnet⟩ := (readMagnet_iff hf hd hkind htemp).1 hm
      have hself : ∀ {h : Bytes}, stateFile h .magnet ∈ [stateFile m.infoHash .magnet] →
          h = m.infoHash := fun hmem => (stateFile_inj (List.mem_singleton.1 hmem)).1
      simp only
      split
      · rename_i hhosted
        have hdrop : ∀ n, (r.dir.tryRemove f (stateFile m.infoHash .magnet)) n =
            if n = stateFile m.infoHash .magnet then none else r.dir n := fun n => by
          rw [tryRemove_sound hf, drop_apply]
        refine ⟨rfl, fun h => ?_, fun n hn => ?_, fun n => ?_, fun h hmem _ _ => ?_⟩
        · rw [if_neg]
          rintro ⟨hmem, -, hnot⟩
          rw [hself hmem, hhosted] at hnot
          cases hnot
        · exact (hdrop n).trans (if_neg fun heq => hn (List.mem_singleton.2 heq))
        · by_cases heq : n = stateFile m.infoHash .magnet
          · exact .inl ((hdrop n).trans (if_pos heq))
          · exact .inr ((hdrop n).trans (if_neg heq))
        · exact (hdrop _).trans (if_pos (List.mem_singleton.1 hmem))
      · rename_i hhosted
        refine ⟨rfl, fun h => ?_, fun _ _ => rfl, fun _ => .inr rfl, fun h hmem _ hnot => ?_⟩
        · rw [OrdMap.Tree.lookup_insert]
          by_cases heq : h = m.infoHash
          · rw [heq, if_pos rfl, if_pos ⟨List.mem_singleton.2 rfl, by rw [hmagnet]; rfl, by
              simpa using hhosted⟩, hmagnet]
            rfl
          · rw [if_neg heq, if_neg fun hand => heq (hself hand.1)]
        · rw [hself hmem] at hnot
          exact absurd hnot hhosted

/-- The magnets of a listing, loaded one after the other. -/
theorem foldl_loadMagnet (hf : Sound f) (hd : Named sha1 toLowercase d) {l : List FileName}
    (hl : ∀ n ∈ l, n.kind = .magnet ∧ n.temp = false) (hnodup : l.Nodup) {r : Registry}
    (hr : ∀ n ∈ l, r.dir n = d n) : LoadsMagnets d l r (l.foldl (Registry.loadMagnet f) r) := by
  induction l generalizing r with
  | nil =>
      exact ⟨rfl, fun h => (if_neg fun hand => List.not_mem_nil hand.1).symm, fun _ _ => rfl,
        fun _ => .inr rfl, fun _ hmem => absurd hmem List.not_mem_nil⟩
  | cons n l ih =>
      obtain ⟨hnew, hnodup⟩ := List.nodup_cons.1 hnodup
      have hone := loadsMagnets_one hf hd (hl n List.mem_cons_self).1 (hl n List.mem_cons_self).2
        (hr n List.mem_cons_self)
      have hrest := ih (r := Registry.loadMagnet f r n)
        (fun m hm => hl m (List.mem_cons_of_mem _ hm)) hnodup fun m hm =>
          (hone.beside m fun hmem => hnew (List.mem_singleton.1 hmem ▸ hm)).trans
            (hr m (List.mem_cons_of_mem _ hm))
      refine ⟨hrest.torrents.trans hone.torrents, fun h => ?_, fun m hm => ?_, fun m => ?_,
        fun h hmem hsome hhosted => ?_⟩
      · rw [List.foldl_cons, hrest.pending h, hone.pending h, hone.torrents]
        by_cases hmem : stateFile h .magnet ∈ l
        · by_cases hand : (magnetOn d h).isSome = true ∧ r.torrents.has h = false
          · simp [hmem, hand]
          · simp [hmem, hand]
        · simp [hmem]
      · rw [List.mem_cons, not_or] at hm
        exact (hrest.beside m hm.2).trans
          (hone.beside m fun hmem => hm.1 (List.mem_singleton.1 hmem))
      · obtain hnone | hsame := hrest.sub m
        · exact .inl hnone
        · rw [List.foldl_cons, hsame]
          exact hone.sub m
      · cases List.mem_cons.1 hmem with
        | inl heq =>
            rw [List.foldl_cons, hrest.beside _ (heq ▸ hnew)]
            exact hone.promoted h (List.mem_singleton.2 heq) hsome hhosted
        | inr hmem => exact hrest.promoted h hmem hsome (hone.torrents ▸ hhosted)

/-- A registry that a start on a directory makes. -/
structure Started (sha1 toLowercase : Bytes → Bytes) (d : Dir) (r : Registry) : Prop where
  torrents : ∀ h, r.torrents.lookup h = hostedOn sha1 toLowercase d h
  pending : ∀ h, r.pending.lookup h =
    if (hostedOn sha1 toLowercase d h).isSome then none else (magnetOn d h).map (⟨·, false⟩)
  sub : ∀ n, r.dir n = none ∨ r.dir n = d n
  beside : ∀ n, n.kind ≠ .magnet → r.dir n = d n
  promoted : ∀ h, (magnetOn d h).isSome → (hostedOn sha1 toLowercase d h).isSome →
    r.dir (stateFile h .magnet) = none

/-- A start finds what the directory holds, in whatever order it is listed. -/
theorem start_spec (hf : Sound f) (hd : Named sha1 toLowercase d) {order : List FileName}
    (horder : Lists order d) :
    Started sha1 toLowercase d (Registry.start sha1 toLowercase f order d) := by
  have hkind : ∀ kind, ∀ n ∈ Registry.ofKind kind order, n.kind = kind ∧ n.temp = false := by
    intro kind n hn
    simpa using (List.mem_filter.1 hn).2
  have hlisted : ∀ h kind, d (stateFile h kind) ≠ none →
      stateFile h kind ∈ Registry.ofKind kind order := fun h kind hne =>
    List.mem_filter.2 ⟨(horder.mem _ rfl).2 (Option.isSome_iff_ne_none.2 hne), by simp [stateFile]⟩
  have htorrent : ∀ h, (hostedOn sha1 toLowercase d h).isSome →
      stateFile h .torrent ∈ Registry.ofKind .torrent order := fun h hsome =>
    hlisted h .torrent fun hnone => by rw [hostedOn_of_none hnone] at hsome; cases hsome
  have hmagnet : ∀ h, (magnetOn d h).isSome →
      stateFile h .magnet ∈ Registry.ofKind .magnet order := fun h hsome =>
    hlisted h .magnet fun hnone => by rw [magnetOn_of_none hnone] at hsome; cases hsome
  obtain ⟨hdir, hpending, hlookup⟩ := foldl_loadOne hf (hkind .torrent)
    (r := ⟨.empty, .empty, d⟩) hd
  replace hdir : _ = d := hdir
  generalize hr : (Registry.ofKind .torrent order).foldl (Registry.loadOne sha1 toLowercase f)
    ⟨.empty, .empty, d⟩ = r at hdir hpending hlookup
  have hhosted : ∀ h, r.torrents.lookup h = hostedOn sha1 toLowercase d h := by
    intro h
    rw [hlookup h]
    by_cases hsome : (hostedOn sha1 toLowercase d h).isSome = true
    · rw [if_pos ⟨htorrent h hsome, hsome⟩]
    · rw [if_neg fun hand => hsome hand.2, Option.not_isSome_iff_eq_none.1 hsome]
      rfl
  have hloads := foldl_loadMagnet hf hd (hkind .magnet) (horder.nodup.filter _) (r := r)
    fun n _ => by rw [hdir]
  have hstart : Registry.start sha1 toLowercase f order d =
      (Registry.ofKind .magnet order).foldl (Registry.loadMagnet f) r := by
    unfold Registry.start Registry.loadAll
    rw [if_neg (by simp [hf _]), hr]
  have hhas : ∀ h, r.torrents.has h = (hostedOn sha1 toLowercase d h).isSome := fun h => by
    rw [OrdMap.Tree.has, hhosted]
  rw [hstart]
  refine ⟨fun h => hloads.torrents ▸ hhosted h, fun h => ?_, fun n => ?_, fun n hn => ?_, fun h hm hh => hloads.promoted h (hmagnet h hm) hm ((hhas h).trans hh)⟩
  · rw [hloads.pending h, hhas, hpending]
    cases hm : magnetOn d h with
    | none => simp
    | some m =>
        have hmem := hmagnet h (by rw [hm]; rfl)
        cases hh : (hostedOn sha1 toLowercase d h).isSome with
        | true => simp
        | false => simp [hmem]
  · exact congrFun hdir n ▸ hloads.sub n
  · exact (hloads.beside n fun hmem => hn (hkind .magnet n hmem).1).trans (congrFun hdir n)

variable {r : Registry}

/-- Whether the registry answers to an info-hash. -/
def Registry.listed (r : Registry) (h : Bytes) : Bool := r.torrents.has h || r.pending.has h

/-- A start lists what the directory holds. -/
theorem Started.listed (hr : Started sha1 toLowercase d r) (h : Bytes) :
    r.listed h = ((hostedOn sha1 toLowercase d h).isSome || (magnetOn d h).isSome) := by
  unfold Registry.listed OrdMap.Tree.has
  rw [hr.torrents, hr.pending]
  cases (hostedOn sha1 toLowercase d h).isSome with
  | true => rfl
  | false => simp

/-! ## The operations -/

/-- The record of a torrent just added. -/
def newRecord (sha1 : Bytes → Bytes) (m : MetaInfo) (now : Nat) (options : AddOptions) : Bytes :=
  ((Hosted.new (sharedOf sha1 m) now options.paused options.sequential).resume
    (sharedOf sha1 m)).encode

/-- Whether a hosted torrent has the name of another one. -/
def Registry.clashes (r : Registry) (m : MetaInfo) : Bool :=
  r.torrents.entries.any fun e => e.2.info.name = m.name

/-- What adding a torrent comes to. -/
inductive Adds (sha1 toLowercase : Bytes → Bytes) (f : Faults) (now : Nat) (bytes : Bytes)
    (options : AddOptions) (r : Registry) : Except AddError Bytes × Registry → Prop where
  | rejected (e : AddError) (hold : ∀ m, MetaInfo.parse sha1 toLowercase bytes = .ok m →
      r.torrents.has m.infoHash = true ∨ r.clashes m = true) :
      Adds sha1 toLowercase f now bytes options r (.error e, r)
  /-- The torrent file is not written. -/
  | refused {m : MetaInfo} {e : IoError} {d : Dir}
      (hparse : MetaInfo.parse sha1 toLowercase bytes = .ok m)
      (htorrent : Refused f (stateFile m.infoHash .torrent) r.dir)
      (hagree : Agree r.dir d) :
      Adds sha1 toLowercase f now bytes options r (.error (.io e), { r with dir := d })
  /-- The torrent file is written, the resume file is not, and the former is removed. -/
  | undone {m : MetaInfo} {e : IoError} {d : Dir}
      (hparse : MetaInfo.parse sha1 toLowercase bytes = .ok m)
      (hnew : r.torrents.has m.infoHash = false) (hclash : r.clashes m = false)
      (hresume : Refused f (stateFile m.infoHash .resume) r.dir)
      (hagree : Agree (r.dir.put (stateFile m.infoHash .torrent) bytes) d) :
      Adds sha1 toLowercase f now bytes options r (.error (.io e),
        { r with dir := d.tryRemove f (stateFile m.infoHash .torrent) })
  | added {m : MetaInfo} {d : Dir}
      (hparse : MetaInfo.parse sha1 toLowercase bytes = .ok m)
      (hnew : r.torrents.has m.infoHash = false) (hclash : r.clashes m = false)
      (htorrent : ¬ Refused f (stateFile m.infoHash .torrent) r.dir)
      (hresume : ¬ Refused f (stateFile m.infoHash .resume) r.dir)
      (hagree : Agree ((r.dir.put (stateFile m.infoHash .torrent) bytes).put
        (stateFile m.infoHash .resume) (newRecord sha1 m now options)) d) :
      Adds sha1 toLowercase f now bytes options r (.ok m.infoHash,
        { r with
          torrents := r.torrents.insert m.infoHash
            ⟨m, Hosted.new (sharedOf sha1 m) now options.paused options.sequential⟩
          dir := d })

theorem tmp_stateFile_ne (h : Bytes) {kind kind' : Kind} (hne : kind ≠ kind') :
    (stateFile h kind).tmp ≠ (stateFile h kind').tmp := by
  intro heq
  exact hne (congrArg FileName.kind heq)

theorem stateFile_ne_tmp (h h' : Bytes) (kind kind' : Kind) :
    stateFile h kind ≠ (stateFile h' kind').tmp := by
  intro heq
  cases congrArg FileName.temp heq

/-- Whether a file can be replaced does not depend on any other. -/
theorem refused_congr {n : FileName} (h : d' n.tmp = d n.tmp) : Refused f n d' ↔ Refused f n d := by
  unfold Refused
  rw [h]

theorem Agree.trans {d'' : Dir} (h : Agree d d') (h' : Agree d' d'') : Agree d d'' :=
  fun n hn => (h' n hn).trans (h n hn)

theorem Agree.put (h : Agree d d') (n : FileName) (bytes : Bytes) :
    Agree (d.put n bytes) (d'.put n bytes) := by
  intro m hm
  rw [put_apply, put_apply, h m hm]

theorem addTorrent_cases (f : Faults) (now : Nat) (bytes : Bytes) (options : AddOptions)
    (r : Registry) : Adds sha1 toLowercase f now bytes options r
      (Registry.addTorrent sha1 toLowercase f now bytes options r) := by
  unfold Registry.addTorrent
  cases hparse : MetaInfo.parse sha1 toLowercase bytes with
  | error e => exact .rejected _ fun m hm => by rw [hparse] at hm; cases hm
  | ok m =>
      have hself : ∀ {m'}, MetaInfo.parse sha1 toLowercase bytes = .ok m' → m' = m :=
        fun hm => (Except.ok.inj (hparse.symm.trans hm)).symm
      simp only
      split
      · exact .rejected _ fun m' hm => .inl (hself hm ▸ ‹_›)
      rename_i hnew
      split
      · exact .rejected _ fun m' hm => .inr (hself hm ▸ ‹_›)
      rename_i hclash
      have hclash : r.clashes m = false := by
        unfold Registry.clashes
        simpa using hclash
      obtain ⟨hwritten, d₁, heq, hbeside⟩ | ⟨htorrent, e, d₁, heq, hbeside⟩ :=
        atomicWrite_cases f (stateFile m.infoHash .torrent) bytes r.dir
      · have htmp : d₁ (stateFile m.infoHash .resume).tmp =
            r.dir (stateFile m.infoHash .resume).tmp :=
          (hbeside _ (tmp_stateFile_ne _ (by decide))).trans
            ((put_apply _ _ _).trans (if_neg (stateFile_ne_tmp _ _ _ _).symm))
        obtain ⟨hkept, d₂, heq₂, hbeside₂⟩ | ⟨hresume, e, d₂, heq₂, hbeside₂⟩ :=
          atomicWrite_cases f (stateFile m.infoHash .resume) (newRecord sha1 m now options) d₁
        · unfold newRecord at heq₂
          rw [heq]
          simp only [heq₂]
          exact .added hparse (by simpa using hnew) hclash hwritten
            (fun hresume => hkept ((refused_congr htmp).2 hresume))
            ((hbeside.agree.put _ _).trans hbeside₂.agree)
        · unfold newRecord at heq₂
          rw [heq]
          simp only [heq₂]
          exact .undone hparse (by simpa using hnew) hclash ((refused_congr htmp).1 hresume)
            (hbeside.agree.trans hbeside₂.agree)
      · rw [heq]
        exact .refused hparse htorrent hbeside.agree

/-- What adding a magnet comes to. -/
inductive AddsMagnet (f : Faults) (uri : Bytes) (r : Registry) :
    Except AddError Bytes × Registry → Prop where
  | rejected (e : AddError) : AddsMagnet f uri r (.error e, r)
  | refused {e : IoError} {d : Dir} (hagree : Agree r.dir d) :
      AddsMagnet f uri r (.error (.io e), { r with dir := d })
  | added {m : Magnet} {d : Dir} (hparse : Magnet.parse uri = .ok m)
      (hnew : r.torrents.has m.infoHash = false) (hnew' : r.pending.has m.infoHash = false)
      (hagree : Agree (r.dir.put (stateFile m.infoHash .magnet) uri) d) :
      AddsMagnet f uri r (.ok m.infoHash,
        { r with pending := r.pending.insert m.infoHash ⟨m, false⟩, dir := d })

theorem addMagnet_cases (f : Faults) (uri : Bytes) (r : Registry) :
    AddsMagnet f uri r (Registry.addMagnet f uri r) := by
  unfold Registry.addMagnet
  cases hparse : Magnet.parse uri with
  | error e => exact .rejected _
  | ok m =>
      simp only
      split
      · exact .rejected _
      rename_i hnew
      rw [Bool.or_eq_true, not_or] at hnew
      obtain ⟨-, d, heq, hbeside⟩ | ⟨-, e, d, heq, hbeside⟩ :=
        atomicWrite_cases f (stateFile m.infoHash .magnet) uri r.dir
      · rw [heq]
        exact .added hparse (by simpa using hnew.1) (by simpa using hnew.2) hbeside.agree
      · rw [heq]
        exact .refused hbeside.agree

/-- Registries that host the same torrents and fetch the same magnets. -/
structure SameKeys (r r' : Registry) : Prop where
  torrents : ∀ h, r'.torrents.has h = r.torrents.has h
  pending : ∀ h, r'.pending.has h = r.pending.has h

theorem stopLive_spec (left : Hosted) (h : Bytes) (r : Registry) :
    SameKeys r (r.stopLive left h) ∧ (r.stopLive left h).dir = r.dir := by
  unfold Registry.stopLive
  cases hlookup : r.torrents.lookup h with
  | none => exact ⟨⟨fun _ => rfl, fun _ => rfl⟩, rfl⟩
  | some e =>
      simp only
      split
      · exact ⟨⟨fun _ => rfl, fun _ => rfl⟩, rfl⟩
      · refine ⟨⟨fun h' => ?_, fun _ => rfl⟩, rfl⟩
        rw [OrdMap.Tree.has, OrdMap.Tree.lookup_insert]
        split
        · rename_i heq
          rw [OrdMap.Tree.has, heq, hlookup]
          rfl
        · rfl

/-- Whether a torrent can be stopped: it is hosted and its files are not being hashed. -/
def Registry.stoppable (r : Registry) (h : Bytes) : Bool :=
  (r.torrents.lookup h).any fun e => !e.hosted.scanning

/-- What removing comes to.  `r₁` is the registry once the engine is stopped. -/
inductive Removal (f : Faults) (h : Bytes) (r r₁ : Registry) :
    Except RemoveError Unit × Registry → Prop where
  | absent (hpending : r.pending.has h = false) (hhosted : r.torrents.has h = false) :
      Removal f h r r₁ (.error .notFound, r)
  | scanning (hpending : r.pending.has h = false) (hhosted : r.torrents.has h = true)
      (hstop : r.stoppable h = false) :
      Removal f h r r₁ (.error .scanning, r)
  | magnetStays (e : IoError) (hpending : r.pending.has h = true) :
      Removal f h r r₁ (.error (.io e), r)
  | magnet (hpending : r.pending.has h = true) :
      Removal f h r r₁ (.ok (),
        { r with pending := r.pending.erase h, dir := r.dir.drop (stateFile h .magnet) })
  | torrentStays (e : IoError) (hpending : r.pending.has h = false)
      (hhosted : r.torrents.has h = true)
      (hfails : f.fails (.unlink (stateFile h .torrent)) = true) :
      Removal f h r r₁ (.error (.io e), r₁)
  | resumeStays (e : IoError) (hpending : r.pending.has h = false)
      (hhosted : r.torrents.has h = true) (hstop : r.stoppable h = true)
      (hfails : f.fails (.unlink (stateFile h .resume)) = true) :
      Removal f h r r₁ (.error (.io e), { r₁ with dir := r₁.dir.drop (stateFile h .torrent) })
  | torrent (hpending : r.pending.has h = false) (hhosted : r.torrents.has h = true) :
      Removal f h r r₁ (.ok (),
        { r₁ with
          torrents := r₁.torrents.erase h
          dir := (r₁.dir.drop (stateFile h .torrent)).drop (stateFile h .resume) })

theorem remove_cases (f : Faults) (left : Hosted) (h : Bytes) (r : Registry) :
    Removal f h r (r.stopLive left h) (r.remove f left h) := by
  have hok : ∀ (n : FileName) (d : Dir), (f.fails (.unlink n) = true ∧
      d.removeFileOk f n = (.error .other, d)) ∨
      d.removeFileOk f n = (.ok (), d.drop n) := by
    intro n d
    unfold Dir.removeFileOk
    split
    · exact .inl ⟨‹_›, rfl⟩
    · exact .inr rfl
  unfold Registry.remove
  split
  · rename_i hpending
    obtain ⟨-, heq⟩ | heq := hok (stateFile h .magnet) r.dir
    · rw [heq]
      exact .magnetStays _ hpending
    · rw [heq]
      exact .magnet hpending
  rename_i hpending
  have hpending : r.pending.has h = false := by simpa using hpending
  cases hlookup : r.torrents.lookup h with
  | none => exact .absent hpending (by rw [OrdMap.Tree.has, hlookup]; rfl)
  | some e =>
      have hhosted : r.torrents.has h = true := by rw [OrdMap.Tree.has, hlookup]; rfl
      simp only
      split
      · rename_i hscanning
        exact .scanning hpending hhosted (by
          rw [Registry.stoppable, hlookup, Option.any_some, hscanning]
          rfl)
      rename_i hscanning
      have hstop : r.stoppable h = true := by
        rw [Registry.stoppable, hlookup, Option.any_some]
        simpa using hscanning
      obtain ⟨hfails, heq⟩ | heq := hok (stateFile h .torrent) (r.stopLive left h).dir
      · rw [heq]
        exact .torrentStays _ hpending hhosted hfails
      · rw [heq]
        obtain ⟨hfails, heq'⟩ | heq' := hok (stateFile h .resume)
          ((r.stopLive left h).dir.drop (stateFile h .torrent))
        · simp only [heq']
          exact .resumeStays _ hpending hhosted hstop hfails
        · simp only [heq']
          exact .torrent hpending hhosted

namespace Demo

theorem named_empty : Named digest lower emptyDir where
  torrent := fun _ _ _ _ _ h => by cases h
  magnet := fun _ _ _ _ _ h => by cases h

theorem lists_empty : Lists [] emptyDir where
  mem := fun _ _ => by simp [emptyDir]
  nodup := List.nodup_nil

end Demo

end Clove.Daemon
