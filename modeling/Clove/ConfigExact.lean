import Clove.AnnounceRequest
import Clove.Config
import Clove.MagnetTorrent

/-!
# What a configuration says

A `Setting` is what one line of the file may ask for.  The draft that the parser keeps is that of
the settings read so far, no two of a key (`put_ofSettings`).  So a file is accepted exactly if each
line of it that is no comment sets something, no key is set twice and the SAM address can be
dialled, and a file that is refused is refused for the first line that is wrong (`config_exact`).
`Configured` does not speak of the order of the lines, so it says nothing (`config_sound`).
-/

namespace Clove.Config

open Utf8 (ascii)
open Decimal (isDigit)

/-! ## Settings -/

/-- What a line may ask for. -/
inductive Setting where
  | samAddress (value : Bytes)
  | dataDir (value : Bytes)
  | apiSocket (value : Bytes)
  | ephemeral (flag : Bool)
  | preallocate (flag : Bool)
  | peerLimit (count : Nat)
  | torrentPeerLimit (count : Nat)
  | seedRatio (milli : Nat)
  | seedIdle (minutes : Nat)
  | sandbox (policy : SandboxPolicy)
deriving Repr, DecidableEq

/-- The key it is asked for by. -/
def Setting.key : Setting → String
  | .samAddress _ => "sam_address"
  | .dataDir _ => "data_dir"
  | .apiSocket _ => "api_socket"
  | .ephemeral _ => "ephemeral"
  | .preallocate _ => "preallocate"
  | .peerLimit _ => "peer_limit"
  | .torrentPeerLimit _ => "torrent_peer_limit"
  | .seedRatio _ => "seed_ratio"
  | .seedIdle _ => "seed_idle_minutes"
  | .sandbox _ => "sandbox"

/-- A value that was read, or what is wrong with it. -/
def require {α : Type} (problem : Problem) : Option α → Except Problem α
  | some a => .ok a
  | none => .error problem

/-- What a key and its value ask for. -/
def setting (key value : Bytes) : Except Problem Setting :=
  if key = ascii "sam_address" then
    if looksLikeSamAddress value then .ok (.samAddress value) else .error .badSamAddress
  else if key = ascii "data_dir" then
    if isAbsolute value then .ok (.dataDir value) else .error .relativePath
  else if key = ascii "api_socket" then
    if isAbsolute value then .ok (.apiSocket value) else .error .relativePath
  else if key = ascii "ephemeral" then (require .badBool (parseBool value)).map .ephemeral
  else if key = ascii "preallocate" then (require .badBool (parseBool value)).map .preallocate
  else if key = ascii "peer_limit" then (require .badCount (parseCount value)).map .peerLimit
  else if key = ascii "torrent_peer_limit" then
    (require .badCount (parseCount value)).map .torrentPeerLimit
  else if key = ascii "seed_ratio" then (require .badRatio (parseSeedRatio value)).map .seedRatio
  else if key = ascii "sandbox" then
    (require .badSandboxPolicy (parseSandboxPolicy value)).map .sandbox
  else if key = ascii "seed_idle_minutes" then
    (require .badCount (parseSeedIdle value)).map .seedIdle
  else .error (.unknownKey key)

/-- What a line asks for, if it is neither blank nor a comment. -/
def meaning (raw : Bytes) : Option (Except Problem Setting) :=
  let trimmed := Text.trim raw
  if trimmed = [] || trimmed.head? = some 35 then none
  else
    match splitOnceWhitespace trimmed with
    | some (key, value) =>
        if Text.trim value = [] then some (.error .missingValue)
        else some (setting key (Text.trim value))
    | none => some (.error .missingValue)

/-- What the lines of a text ask for, each with its number. -/
def entries (text : Bytes) : List (Nat × Except Problem Setting) :=
  ((lines text).zipIdx 1).filterMap fun numbered => (meaning numbered.1).map (numbered.2, ·)

/-- The draft with one more setting. -/
def Draft.put (line : Nat) (s : Setting) (d : Draft) : Except Error Draft :=
  match s with
  | .samAddress v => (set d.samAddress line v).map fun slot => { d with samAddress := slot }
  | .dataDir v => (set d.dataDir line v).map fun slot => { d with dataDir := slot }
  | .apiSocket v => (set d.apiSocket line v).map fun slot => { d with apiSocket := slot }
  | .ephemeral v => (set d.ephemeral line v).map fun slot => { d with ephemeral := slot }
  | .preallocate v => (set d.preallocate line v).map fun slot => { d with preallocate := slot }
  | .peerLimit v => (set d.peerLimit line v).map fun slot => { d with peerLimit := slot }
  | .torrentPeerLimit v =>
      (set d.torrentPeerLimit line v).map fun slot => { d with torrentPeerLimit := slot }
  | .seedRatio v =>
      (set d.seedRatioMilli line v).map fun slot => { d with seedRatioMilli := slot }
  | .seedIdle v =>
      (set d.seedIdleMinutes line v).map fun slot => { d with seedIdleMinutes := slot }
  | .sandbox v => (set d.sandbox line v).map fun slot => { d with sandbox := slot }

/-- The setting of one key, and one of the others. -/
theorem recorded_ite {line : Nat} {d : Draft} {c : Prop} [Decidable c]
    {here others : Except Problem Setting} {first rest : Except Error Draft}
    (hfirst : first = (here.mapError (.line line) >>= (d.put line ·)))
    (hrest : rest = (others.mapError (.line line) >>= (d.put line ·))) :
    (if c then first else rest) =
      ((if c then here else others).mapError (.line line) >>= (d.put line ·)) := by
  split
  · exact hfirst
  · exact hrest

/-- A line is recorded as the setting it asks for. -/
theorem accept_eq (line : Nat) (key value : Bytes) (d : Draft) :
    d.accept line key value = ((setting key value).mapError (.line line) >>= (d.put line ·)) := by
  unfold Draft.accept setting absolute
  refine recorded_ite ?_ (recorded_ite ?_ (recorded_ite ?_ (recorded_ite ?_ (recorded_ite ?_
    (recorded_ite ?_ (recorded_ite ?_ (recorded_ite ?_ (recorded_ite ?_
      (recorded_ite ?_ rfl)))))))))
  · cases looksLikeSamAddress value <;> rfl
  · cases isAbsolute value <;> rfl
  · cases isAbsolute value <;> rfl
  · cases parseBool value <;> rfl
  · cases parseBool value <;> rfl
  · cases parseCount value <;> rfl
  · cases parseCount value <;> rfl
  · cases parseSeedRatio value <;> rfl
  · cases parseSandboxPolicy value <;> rfl
  · cases parseSeedIdle value <;> rfl

/-! ## Drafts of settings -/

/-- The first of some settings that has this. -/
@[irreducible] def pick {α : Type} (get : Setting → Option α) (settings : List (Nat × Setting)) :
    Option (Nat × α) :=
  settings.findSome? fun s => (get s.2).map (s.1, ·)

theorem pick_append {α : Type} (get : Setting → Option α) (settings more : List (Nat × Setting)) :
    pick get (settings ++ more) = (pick get settings).or (pick get more) := by
  rw [pick, pick, pick, List.findSome?_append]

/-- The draft that holds some settings. -/
def ofSettings (settings : List (Nat × Setting)) : Draft where
  samAddress := pick (fun s => match s with | .samAddress v => some v | _ => none) settings
  dataDir := pick (fun s => match s with | .dataDir v => some v | _ => none) settings
  apiSocket := pick (fun s => match s with | .apiSocket v => some v | _ => none) settings
  ephemeral := pick (fun s => match s with | .ephemeral v => some v | _ => none) settings
  preallocate := pick (fun s => match s with | .preallocate v => some v | _ => none) settings
  peerLimit := pick (fun s => match s with | .peerLimit v => some v | _ => none) settings
  torrentPeerLimit :=
    pick (fun s => match s with | .torrentPeerLimit v => some v | _ => none) settings
  seedRatioMilli := pick (fun s => match s with | .seedRatio v => some v | _ => none) settings
  seedIdleMinutes := pick (fun s => match s with | .seedIdle v => some v | _ => none) settings
  sandbox := pick (fun s => match s with | .sandbox v => some v | _ => none) settings

/-- The keys that some settings set. -/
def keys (settings : List (Nat × Setting)) : List String := settings.map fun s => s.2.key

/-- A slot is filled exactly if its key is set. -/
theorem pick_isSome {α : Type} {get : Setting → Option α} {key : String}
    (hget : ∀ s, (get s).isSome = true ↔ s.key = key) (settings : List (Nat × Setting)) :
    (pick get settings).isSome = true ↔ key ∈ keys settings := by
  rw [pick, List.findSome?_isSome_iff, keys, List.mem_map]
  constructor
  · rintro ⟨s, hs, hsome⟩
    rw [Option.isSome_map] at hsome
    exact ⟨s, hs, (hget s.2).1 hsome⟩
  · rintro ⟨s, hs, hkey⟩
    exact ⟨s, hs, by rw [Option.isSome_map]; exact (hget s.2).2 hkey⟩

/-- A slot is filled with what is set, unless it is set. -/
theorem set_pick {α : Type} {get : Setting → Option α} {settings : List (Nat × Setting)}
    {s : Setting} {value : α} (hget : ∀ s', (get s').isSome = true ↔ s'.key = s.key)
    (hvalue : get s = some value) (line : Nat) :
    set (pick get settings) line value = if s.key ∈ keys settings then
      .error (.line line .duplicateKey) else .ok (pick get (settings ++ [(line, s)])) := by
  unfold set
  simp only [pick_isSome hget]
  split
  · rfl
  · rename_i hfresh
    have hempty : pick get settings = none := by
      rw [← Option.not_isSome_iff_eq_none, pick_isSome hget]
      exact hfresh
    rw [pick_append, hempty]
    simp [pick, hvalue]

/-- A slot is filled, and the draft is that of the settings with one more. -/
theorem set_ofSettings {α : Type} {get : Setting → Option α} {settings : List (Nat × Setting)}
    {s : Setting} {value : α} {line : Nat} {slot : Option (Nat × α)}
    {fill : Option (Nat × α) → Draft} (hslot : slot = pick get settings)
    (hvalue : get s = some value) (hget : ∀ s', (get s').isSome = true ↔ s'.key = s.key)
    (hfill : fill (pick get (settings ++ [(line, s)])) = ofSettings (settings ++ [(line, s)])) :
    (set slot line value).map fill = if s.key ∈ keys settings then
      .error (.line line .duplicateKey) else .ok (ofSettings (settings ++ [(line, s)])) := by
  rw [hslot, set_pick hget hvalue]
  split
  · rfl
  · rw [← hfill]
    rfl

/-- One more setting is recorded, unless its key is set. -/
theorem put_ofSettings (line : Nat) (s : Setting) (settings : List (Nat × Setting)) :
    (ofSettings settings).put line s = if s.key ∈ keys settings then
      .error (.line line .duplicateKey) else .ok (ofSettings (settings ++ [(line, s)])) := by
  cases s
  all_goals
    simp only [Draft.put]
    refine set_ofSettings rfl ?_ ?_ ?_
    · rfl
    · intro s'
      cases s' <;> simp [Setting.key]
    · simp [ofSettings, pick_append, pick]

/-! ## What is accepted -/

/-- A line is read as what it means. -/
theorem readLine_eq (d : Draft) (raw : Bytes) (line : Nat) : readLine d (raw, line) =
    match meaning raw with
    | none => .ok d
    | some m => m.mapError (.line line) >>= (d.put line ·) := by
  unfold readLine meaning
  by_cases hblank : (Text.trim raw = [] || (Text.trim raw).head? = some 35) = true
  · simp only [hblank, if_true]
  · simp only [hblank]
    cases splitOnceWhitespace (Text.trim raw) with
    | none => rfl
    | some parts =>
        obtain ⟨key, value⟩ := parts
        by_cases hvalue : Text.trim value = []
        · simp only [hvalue, if_true]
          rfl
        · simp only [hvalue]
          exact accept_eq line key _ d

/-- The draft with what a line asks for. -/
def Draft.record (d : Draft) (e : Nat × Except Problem Setting) : Except Error Draft :=
  e.2.mapError (.line e.1) >>= (d.put e.1 ·)

/-- The lines are read as what they mean, one after another. -/
theorem foldlM_readLine (raws : List (Bytes × Nat)) (d : Draft) : raws.foldlM readLine d =
    (raws.filterMap fun numbered => (meaning numbered.1).map (numbered.2, ·)).foldlM
      Draft.record d := by
  induction raws generalizing d with
  | nil => rfl
  | cons raw raws ih =>
      obtain ⟨raw, line⟩ := raw
      rw [List.foldlM_cons, readLine_eq]
      cases hmeaning : meaning raw with
      | none => simp [hmeaning, ih]
      | some m =>
          simp only [List.filterMap_cons, hmeaning, Option.map_some, List.foldlM_cons, ← ih]
          rfl

/-- The settings of some lines, none of them wrong. -/
def settled (settings : List (Nat × Setting)) : List (Nat × Except Problem Setting) :=
  settings.map fun s => (s.1, .ok s.2)

/-- A wrong line after settings that are fine: it sets nothing, or a key that is set. -/
def Wrong (settings : List (Nat × Setting)) (m : Except Problem Setting) (p : Problem) : Prop :=
  m = .error p ∨ ∃ s, m = .ok s ∧ s.key ∈ keys settings ∧ p = .duplicateKey

theorem record_settled {line : Nat} {s : Setting} {settings : List (Nat × Setting)}
    (h : s.key ∉ keys settings) : (ofSettings settings).record (line, .ok s) =
      .ok (ofSettings (settings ++ [(line, s)])) :=
  (put_ofSettings line s settings).trans (if_neg h)

theorem record_wrong {line : Nat} {m : Except Problem Setting} {p : Problem}
    {settings : List (Nat × Setting)} (h : Wrong settings m p) :
    (ofSettings settings).record (line, m) = .error (.line line p) := by
  rcases h with rfl | ⟨s, rfl, hset, rfl⟩
  · rfl
  · exact (put_ofSettings line s settings).trans (if_pos hset)

theorem nodup_snoc {settings : List (Nat × Setting)} (line : Nat) {s : Setting}
    (hnodup : (keys settings).Nodup) (hfresh : s.key ∉ keys settings) :
    (keys (settings ++ [(line, s)])).Nodup := by
  simp only [keys, List.map_append, List.map_cons, List.map_nil]
  exact List.nodup_append.2 ⟨hnodup, List.nodup_singleton _,
    fun a ha b hb heq => hfresh (List.mem_singleton.1 hb ▸ heq ▸ ha)⟩

/-- Settings of different keys are recorded one after another. -/
theorem foldlM_settled (more settings : List (Nat × Setting))
    (hnodup : (keys (settings ++ more)).Nodup) :
    (settled more).foldlM Draft.record (ofSettings settings) =
      .ok (ofSettings (settings ++ more)) := by
  induction more generalizing settings with
  | nil => rw [List.append_nil]; rfl
  | cons s more ih =>
      obtain ⟨line, s⟩ := s
      have hsplit : settings ++ (line, s) :: more = settings ++ [(line, s)] ++ more := by simp
      have hfresh : s.key ∉ keys settings := by
        intro hset
        rw [keys, List.map_append] at hnodup
        exact (List.nodup_append.1 hnodup).2.2 _ hset _ List.mem_cons_self rfl
      have hstep : ((line, s) :: more).map (fun s => (s.1, (.ok s.2 : Except Problem Setting))) =
          (line, .ok s) :: settled more := rfl
      rw [settled, hstep, List.foldlM_cons, record_settled hfresh, Except.ok_bind, hsplit]
      exact ih _ (hsplit ▸ hnodup)

/-- What the lines ask for is fine, or there is a first line that is wrong. -/
theorem settled_or_wrong (es : List (Nat × Except Problem Setting))
    (settings : List (Nat × Setting)) (hnodup : (keys settings).Nodup) :
    (∃ more, es = settled more ∧ (keys (settings ++ more)).Nodup) ∨
    ∃ more line m rest p, es = settled more ++ (line, m) :: rest ∧
      (keys (settings ++ more)).Nodup ∧ Wrong (settings ++ more) m p := by
  induction es generalizing settings with
  | nil => exact .inl ⟨[], rfl, by simpa using hnodup⟩
  | cons e es ih =>
      obtain ⟨line, m⟩ := e
      by_cases hwrong : ∃ p, Wrong settings m p
      · obtain ⟨p, hwrong⟩ := hwrong
        exact .inr ⟨[], line, m, es, p, rfl, by simpa using hnodup, by simpa using hwrong⟩
      · cases m with
        | error p => exact absurd ⟨p, .inl rfl⟩ hwrong
        | ok s =>
            have hfresh : s.key ∉ keys settings := fun hset =>
              hwrong ⟨.duplicateKey, .inr ⟨s, rfl, hset, rfl⟩⟩
            rcases ih _ (nodup_snoc line hnodup hfresh) with ⟨more, rfl, hmore⟩ |
              ⟨more, next, m, rest, p, rfl, hmore, hwrong⟩
            · rw [List.append_assoc] at hmore
              exact .inl ⟨(line, s) :: more, rfl, hmore⟩
            · rw [List.append_assoc] at hmore hwrong
              exact .inr ⟨(line, s) :: more, next, m, rest, p, rfl, hmore, hwrong⟩

/-! ## What is configured -/

/-- What some settings make of a value: the one that is set, or the default. -/
def Says {α : Type} (settings : List Setting) (make : α → Setting) (default value : α) : Prop :=
  make value ∈ settings ∨ (∀ v, make v ∉ settings) ∧ value = default

/-- A configuration is what some settings say, whatever their order. -/
structure Configured (defaults : Defaults) (settings : List Setting) (c : Config) : Prop where
  samAddress : Says settings .samAddress DEFAULT_SAM_ADDRESS c.samAddress
  dataDir : Says settings .dataDir (join defaults.dataHome (ascii "clove")) c.dataDir
  apiSocket : Says settings .apiSocket
    (join (defaults.runtimeDir.getD c.dataDir) (ascii "clove.sock")) c.apiSocket
  ephemeral : Says settings .ephemeral false c.ephemeral
  preallocate : Says settings .preallocate false c.preallocate
  peerLimit : Says settings .peerLimit DEFAULT_PEER_LIMIT c.peerLimit
  torrentPeerLimit :
    Says settings .torrentPeerLimit DEFAULT_TORRENT_PEER_LIMIT c.torrentPeerLimit
  seedRatioMilli : Says settings .seedRatio 0 c.seedRatioMilli
  seedIdleMinutes : Says settings .seedIdle 0 c.seedIdleMinutes
  sandbox : Says settings .sandbox .bestEffort c.sandbox

/-- What is set by a key that is set once is what stands in its slot. -/
theorem pick_iff {α : Type} {get : Setting → Option α} {make : α → Setting}
    {settings : List (Nat × Setting)} (hnodup : (keys settings).Nodup)
    (hget : ∀ s v, get s = some v ↔ s = make v)
    (hkey : ∀ v v', (make v).key = (make v').key) {line : Nat} {v : α} :
    pick get settings = some (line, v) ↔ (line, make v) ∈ settings := by
  have hmem : ∀ line v, pick get settings = some (line, v) → (line, make v) ∈ settings := by
    intro line v hpick
    rw [pick] at hpick
    obtain ⟨s, hs, hmap⟩ := List.exists_of_findSome?_eq_some hpick
    obtain ⟨v', hv', heq⟩ := Option.map_eq_some_iff.1 hmap
    obtain ⟨rfl, rfl⟩ := Prod.mk.inj heq
    rw [← (hget s.2 v').1 hv']
    exact hs
  refine ⟨hmem line v, fun hin => ?_⟩
  cases hpick : pick get settings with
  | none =>
      rw [pick, List.findSome?_eq_none_iff] at hpick
      have hnot := hpick _ hin
      rw [(hget _ _).2 rfl] at hnot
      cases hnot
  | some found =>
      obtain ⟨line', v'⟩ := found
      have hsame := List.inj_on_of_nodup_map hnodup (hmem line' v' hpick) hin (hkey v' v)
      obtain ⟨rfl, hmake⟩ := Prod.mk.inj hsame
      rw [Option.some.inj (((hget _ _).2 rfl).symm.trans ((hget _ _).2 hmake))]

theorem says_iff {α : Type} {get : Setting → Option α} {make : α → Setting}
    {settings : List (Nat × Setting)} (hnodup : (keys settings).Nodup)
    (hget : ∀ s v, get s = some v ↔ s = make v)
    (hkey : ∀ v v', (make v).key = (make v').key) (default value : α) :
    Says (settings.map Prod.snd) make default value ↔
      value = (pick get settings).elim default Prod.snd := by
  have hmem : ∀ v, make v ∈ settings.map Prod.snd ↔
      ∃ line, pick get settings = some (line, v) := by
    intro v
    simp [pick_iff hnodup hget hkey]
  unfold Says
  simp only [hmem]
  cases pick get settings with
  | none => simp
  | some found =>
      obtain ⟨line, v⟩ := found
      simp [eq_comm]

/-- The configuration of a draft, whatever its address. -/
def Draft.config (defaults : Defaults) (d : Draft) : Config where
  samAddress := d.samAddress.elim DEFAULT_SAM_ADDRESS Prod.snd
  dataDir := d.dataDir.elim (join defaults.dataHome (ascii "clove")) Prod.snd
  apiSocket := d.apiSocket.elim (join (defaults.runtimeDir.getD
    (d.dataDir.elim (join defaults.dataHome (ascii "clove")) Prod.snd)) (ascii "clove.sock")) Prod.snd
  ephemeral := d.ephemeral.elim false Prod.snd
  preallocate := d.preallocate.elim false Prod.snd
  peerLimit := d.peerLimit.elim DEFAULT_PEER_LIMIT Prod.snd
  torrentPeerLimit := d.torrentPeerLimit.elim DEFAULT_TORRENT_PEER_LIMIT Prod.snd
  seedRatioMilli := d.seedRatioMilli.elim 0 Prod.snd
  seedIdleMinutes := d.seedIdleMinutes.elim 0 Prod.snd
  sandbox := d.sandbox.elim .bestEffort Prod.snd

theorem finish_eq (defaults : Defaults) (d : Draft) : d.finish defaults =
    match unsupportedSamTransport (d.config defaults).samAddress with
    | some what => .error (.line (d.samAddress.elim 0 Prod.fst) (.unsupportedSamTransport what))
    | none => .ok (d.config defaults) := by
  have hany : ∀ o : Option (Nat × Bool), o.any Prod.snd = o.elim false Prod.snd := by
    intro o
    cases o <;> rfl
  have hsocket : defaults.runtimeDir.elim
      (join (d.dataDir.elim (join defaults.dataHome (ascii "clove")) Prod.snd) (ascii "clove.sock"))
        (join · (ascii "clove.sock")) = join (defaults.runtimeDir.getD
          (d.dataDir.elim (join defaults.dataHome (ascii "clove")) Prod.snd)) (ascii "clove.sock") := by
    cases defaults.runtimeDir <;> rfl
  unfold Draft.finish Draft.config
  simp only [hany, hsocket]
  cases d.samAddress <;> rfl

/-- What some settings make is what they say. -/
theorem configured_iff {defaults : Defaults} {settings : List (Nat × Setting)}
    (hnodup : (keys settings).Nodup) {c : Config} :
    Configured defaults (settings.map Prod.snd) c ↔ c = (ofSettings settings).config defaults := by
  have hsamAddress : ∀ default value, Says (settings.map Prod.snd) .samAddress default value ↔
      value = (ofSettings settings).samAddress.elim default Prod.snd :=
    says_iff hnodup (by rintro (_ | _) v <;> simp) fun _ _ => rfl
  have hdataDir : ∀ default value, Says (settings.map Prod.snd) .dataDir default value ↔
      value = (ofSettings settings).dataDir.elim default Prod.snd :=
    says_iff hnodup (by rintro (_ | _) v <;> simp) fun _ _ => rfl
  have hapiSocket : ∀ default value, Says (settings.map Prod.snd) .apiSocket default value ↔
      value = (ofSettings settings).apiSocket.elim default Prod.snd :=
    says_iff hnodup (by rintro (_ | _) v <;> simp) fun _ _ => rfl
  have hephemeral : ∀ default value, Says (settings.map Prod.snd) .ephemeral default value ↔
      value = (ofSettings settings).ephemeral.elim default Prod.snd :=
    says_iff hnodup (by rintro (_ | _) v <;> simp) fun _ _ => rfl
  have hpreallocate : ∀ default value, Says (settings.map Prod.snd) .preallocate default value ↔
      value = (ofSettings settings).preallocate.elim default Prod.snd :=
    says_iff hnodup (by rintro (_ | _) v <;> simp) fun _ _ => rfl
  have hpeerLimit : ∀ default value, Says (settings.map Prod.snd) .peerLimit default value ↔
      value = (ofSettings settings).peerLimit.elim default Prod.snd :=
    says_iff hnodup (by rintro (_ | _) v <;> simp) fun _ _ => rfl
  have htorrentPeerLimit : ∀ default value, Says (settings.map Prod.snd) .torrentPeerLimit default value ↔
      value = (ofSettings settings).torrentPeerLimit.elim default Prod.snd :=
    says_iff hnodup (by rintro (_ | _) v <;> simp) fun _ _ => rfl
  have hseedRatioMilli : ∀ default value, Says (settings.map Prod.snd) .seedRatio default value ↔
      value = (ofSettings settings).seedRatioMilli.elim default Prod.snd :=
    says_iff hnodup (by rintro (_ | _) v <;> simp) fun _ _ => rfl
  have hseedIdleMinutes : ∀ default value, Says (settings.map Prod.snd) .seedIdle default value ↔
      value = (ofSettings settings).seedIdleMinutes.elim default Prod.snd :=
    says_iff hnodup (by rintro (_ | _) v <;> simp) fun _ _ => rfl
  have hsandbox : ∀ default value, Says (settings.map Prod.snd) .sandbox default value ↔
      value = (ofSettings settings).sandbox.elim default Prod.snd :=
    says_iff hnodup (by rintro (_ | _) v <;> simp) fun _ _ => rfl
  constructor
  · intro h
    have hdir := (hdataDir _ _).1 h.dataDir
    have hsocket := (hapiSocket _ _).1 h.apiSocket
    rw [hdir] at hsocket
    obtain ⟨_, _, _, _, _, _, _, _, _, _⟩ := c
    rw [Draft.config, Config.mk.injEq]
    exact ⟨(hsamAddress _ _).1 h.samAddress, hdir, hsocket, (hephemeral _ _).1 h.ephemeral,
      (hpreallocate _ _).1 h.preallocate, (hpeerLimit _ _).1 h.peerLimit,
      (htorrentPeerLimit _ _).1 h.torrentPeerLimit, (hseedRatioMilli _ _).1 h.seedRatioMilli,
      (hseedIdleMinutes _ _).1 h.seedIdleMinutes, (hsandbox _ _).1 h.sandbox⟩
  · rintro rfl
    exact ⟨(hsamAddress _ _).2 rfl, (hdataDir _ _).2 rfl, (hapiSocket _ _).2 rfl,
      (hephemeral _ _).2 rfl, (hpreallocate _ _).2 rfl, (hpeerLimit _ _).2 rfl,
      (htorrentPeerLimit _ _).2 rfl, (hseedRatioMilli _ _).2 rfl, (hseedIdleMinutes _ _).2 rfl,
      (hsandbox _ _).2 rfl⟩

/-! ## What is accepted -/

theorem ofSettings_nil : ofSettings [] = {} := by
  simp [ofSettings, pick]

theorem parse_eq (text : Bytes) (defaults : Defaults) : parse text defaults =
    ((entries text).foldlM Draft.record (ofSettings []) >>= Draft.finish defaults) := by
  rw [parse, foldlM_readLine, ofSettings_nil]
  rfl

/-- Lines that are fine make the configuration they say, if its address can be dialled. -/
theorem parse_settled {text : Bytes} (defaults : Defaults) {settings : List (Nat × Setting)}
    (hentries : entries text = settled settings) (hnodup : (keys settings).Nodup) :
    parse text defaults = (ofSettings settings).finish defaults := by
  rw [parse_eq, hentries, foldlM_settled settings [] hnodup]
  rfl

/-- A line that is wrong after lines that are fine is what a file is refused for. -/
theorem parse_wrong {text : Bytes} (defaults : Defaults) {settings : List (Nat × Setting)}
    {line : Nat} {m : Except Problem Setting} {rest : List (Nat × Except Problem Setting)}
    {p : Problem} (hentries : entries text = settled settings ++ (line, m) :: rest)
    (hnodup : (keys settings).Nodup) (hwrong : Wrong settings m p) :
    parse text defaults = .error (.line line p) := by
  rw [parse_eq, hentries, List.foldlM_append, foldlM_settled settings [] hnodup, Except.ok_bind,
    List.nil_append, List.foldlM_cons, record_wrong hwrong]
  rfl

/-- Why a file is refused: its first line that is wrong, or an address that cannot be dialled. -/
inductive Refused (text : Bytes) : Error → Prop
  | line {settings : List (Nat × Setting)} {line : Nat} {m : Except Problem Setting}
      {rest : List (Nat × Except Problem Setting)} {p : Problem} :
      entries text = settled settings ++ (line, m) :: rest → (keys settings).Nodup →
      Wrong settings m p → Refused text (.line line p)
  | address {settings : List (Nat × Setting)} {line : Nat} {value : Bytes} {what : String} :
      entries text = settled settings → (keys settings).Nodup →
      (line, .samAddress value) ∈ settings → unsupportedSamTransport value = some what →
      Refused text (.line line (.unsupportedSamTransport what))

/-- The address that is set is the one in its slot. -/
theorem slot_address {settings : List (Nat × Setting)} (hnodup : (keys settings).Nodup) {line : Nat}
    {value : Bytes} : (ofSettings settings).samAddress = some (line, value) ↔
      (line, .samAddress value) ∈ settings :=
  pick_iff hnodup (by rintro (_ | _) v <;> simp) fun _ _ => rfl

theorem parse_ok_iff {text : Bytes} {defaults : Defaults} {c : Config} :
    parse text defaults = .ok c ↔ ∃ settings, entries text = settled settings ∧
      (keys settings).Nodup ∧ Configured defaults (settings.map Prod.snd) c ∧
      unsupportedSamTransport c.samAddress = none := by
  constructor
  · intro h
    rcases settled_or_wrong (entries text) [] List.nodup_nil with ⟨settings, hentries, hnodup⟩ |
      ⟨settings, line, m, rest, p, hentries, hnodup, hwrong⟩
    · rw [parse_settled defaults hentries hnodup, finish_eq] at h
      split at h
      · cases h
      · rename_i hdialled
        obtain rfl := Except.ok.inj h
        exact ⟨settings, hentries, hnodup, (configured_iff hnodup).2 rfl, hdialled⟩
    · rw [parse_wrong defaults hentries hnodup hwrong] at h
      cases h
  · rintro ⟨settings, hentries, hnodup, hconfigured, hdialled⟩
    obtain rfl := (configured_iff hnodup).1 hconfigured
    rw [parse_settled defaults hentries hnodup, finish_eq, hdialled]

theorem parse_error_iff {text : Bytes} {defaults : Defaults} {e : Error} :
    parse text defaults = .error e ↔ Refused text e := by
  constructor
  · intro h
    rcases settled_or_wrong (entries text) [] List.nodup_nil with ⟨settings, hentries, hnodup⟩ |
      ⟨settings, line, m, rest, p, hentries, hnodup, hwrong⟩
    · rw [parse_settled defaults hentries hnodup, finish_eq, Draft.config] at h
      cases hslot : (ofSettings settings).samAddress with
      | none =>
          -- the address that is assumed can be dialled
          have hdialled : unsupportedSamTransport DEFAULT_SAM_ADDRESS = none := by decide
          simp only [hslot, Option.elim_none, hdialled] at h
          cases h
      | some found =>
          obtain ⟨line, value⟩ := found
          simp only [hslot, Option.elim_some] at h
          split at h
          · rename_i what hwhat
            obtain rfl := Except.error.inj h
            exact .address hentries hnodup ((slot_address hnodup).1 hslot) hwhat
          · cases h
    · rw [parse_wrong defaults hentries hnodup hwrong] at h
      obtain rfl := Except.error.inj h
      exact .line hentries hnodup hwrong
  · intro h
    cases h with
    | line hentries hnodup hwrong => exact parse_wrong defaults hentries hnodup hwrong
    | address hentries hnodup hin hwhat =>
        have hslot := (slot_address hnodup).2 hin
        rw [parse_settled defaults hentries hnodup, finish_eq, Draft.config]
        simp only [hslot, Option.elim_some, hwhat]

/-- A file is accepted exactly if every line of it that is no comment sets a key to a good value, no
key is set twice and the address can be dialled; and then it is configured as it says.  It is
refused for the first line that is wrong. -/
theorem config_exact (text : Bytes) (defaults : Defaults) :
    (∀ c, parse text defaults = .ok c ↔ ∃ settings, entries text = settled settings ∧
      (keys settings).Nodup ∧ Configured defaults (settings.map Prod.snd) c ∧
      unsupportedSamTransport c.samAddress = none) ∧
    ∀ e, parse text defaults = .error e ↔ Refused text e :=
  ⟨fun _ => parse_ok_iff, fun _ => parse_error_iff⟩

/-! ## What an accepted configuration is like -/

/-- The digits after the point, as many as are read. -/
theorem padded_eq (n acc : Nat) (digits : Bytes) (h : digits.length ≤ n) :
    padded n acc digits = Decimal.ofDigits acc digits * 10 ^ (n - digits.length) := by
  induction n generalizing acc digits with
  | zero =>
      obtain rfl := List.length_eq_zero_iff.1 (Nat.le_zero.1 h)
      simp [padded]
  | succ n ih =>
      cases digits with
      | nil =>
          rw [padded, List.tail_nil, ih _ [] (Nat.zero_le n)]
          simp [Nat.pow_succ, Nat.mul_comm, Nat.mul_assoc]
      | cons b digits =>
          rw [List.length_cons] at h
          rw [padded, ih _ _ (by simpa using h), Decimal.ofDigits_cons]
          simp

/-- Digits are put together, unless there are too many. -/
theorem ratio_total {whole frac : Bytes} (hwhole : whole.all isDigit = true)
    (hfrac : frac.length ≤ 3) :
    ((if whole = [] then some 0 else Decimal.parse U64_MAX whole).bind fun whole =>
      (checked (whole * 1000)).bind fun thousands =>
        (checked (thousands + padded 3 0 frac)).filter (· ≤ MAX_SEED_RATIO_MILLI)) =
    (some (Decimal.ofDigits 0 whole * 1000 +
      Decimal.ofDigits 0 frac * 10 ^ (3 - frac.length))).filter (· ≤ MAX_SEED_RATIO_MILLI) := by
  have hread : (if whole = [] then some 0 else Decimal.parse U64_MAX whole) =
      checked (Decimal.ofDigits 0 whole) := by
    split
    · rename_i hempty
      rw [hempty]
      rfl
    · rename_i hne
      exact Decimal.parse_digits hne hwhole
  have hlimit : MAX_SEED_RATIO_MILLI ≤ U64_MAX := by decide
  rw [hread, padded_eq 3 0 frac hfrac]
  generalize Decimal.ofDigits 0 whole = w
  generalize Decimal.ofDigits 0 frac * 10 ^ (3 - frac.length) = f
  -- what does not fit in 64 bits is past the largest ratio as well
  by_cases hw : w ≤ U64_MAX
  · by_cases hthousands : w * 1000 ≤ U64_MAX
    · by_cases htotal : w * 1000 + f ≤ U64_MAX
      · simp [checked, hw, hthousands, htotal]
      · simp [checked, hw, hthousands, htotal, Option.filter_some]
        omega
    · simp [checked, hw, hthousands, Option.filter_some]
      omega
  · simp [checked, hw, Option.filter_some]
    omega

/-- The two halves of a ratio, whatever they are. -/
theorem ratio_halves {value : Bytes} {milli : Nat} : parseSeedRatio value = some milli ↔
    ∃ whole frac : Bytes, (Magnet.splitOnce 46 value).getD (value, []) = (whole, frac) ∧
      (whole ≠ [] ∨ frac ≠ []) ∧ (∀ b ∈ whole ++ frac, isDigit b = true) ∧ frac.length ≤ 3 ∧
      milli = Decimal.ofDigits 0 whole * 1000 + Decimal.ofDigits 0 frac * 10 ^ (3 - frac.length) ∧
      milli ≤ MAX_SEED_RATIO_MILLI := by
  unfold parseSeedRatio
  obtain ⟨whole, frac⟩ := (Magnet.splitOnce 46 value).getD (value, [])
  simp only [Prod.mk.injEq]
  constructor
  · intro h
    split at h
    · cases h
    · rename_i hne
      split at h
      · cases h
      · rename_i hdigits
        split at h
        · cases h
        · rename_i hlong
          simp only [Bool.or_eq_true, Bool.not_eq_true', not_or, Bool.not_eq_false] at hdigits
          rw [ratio_total hdigits.1 (by omega), Option.filter_eq_some_iff] at h
          obtain ⟨htotal, hfits⟩ := h
          refine ⟨whole, frac, ⟨rfl, rfl⟩, ?_, ?_, by omega, (Option.some.inj htotal).symm, ?_⟩
          · simpa [← not_and_or] using hne
          · exact List.forall_mem_append.2
              ⟨List.all_eq_true.1 hdigits.1, List.all_eq_true.1 hdigits.2⟩
          · exact of_decide_eq_true hfits
  · rintro ⟨_, _, ⟨rfl, rfl⟩, hne, hdigits, hlong, rfl, hfits⟩
    obtain ⟨hwhole, hfrac⟩ := List.forall_mem_append.1 hdigits
    rw [if_neg (by simpa [← not_and_or] using hne),
      if_neg (by simp [List.all_eq_true.2 hwhole, List.all_eq_true.2 hfrac]), if_neg (by omega),
      ratio_total (List.all_eq_true.2 hwhole) hlong, Option.filter_some,
      if_pos (decide_eq_true hfits)]

/-- A ratio is read as the number its digits write, in thousandths. -/
theorem parseSeedRatio_iff {value : Bytes} {milli : Nat} : parseSeedRatio value = some milli ↔
    ∃ whole frac : Bytes, (value = whole ∧ frac = [] ∨ value = whole ++ 46 :: frac) ∧
      (whole ≠ [] ∨ frac ≠ []) ∧ (∀ b ∈ whole ++ frac, isDigit b = true) ∧ frac.length ≤ 3 ∧
      milli = Decimal.ofDigits 0 whole * 1000 + Decimal.ofDigits 0 frac * 10 ^ (3 - frac.length) ∧
      milli ≤ MAX_SEED_RATIO_MILLI := by
  rw [ratio_halves]
  have hplain : ∀ whole frac : Bytes, (∀ b ∈ whole ++ frac, isDigit b = true) → 46 ∉ whole := by
    intro whole frac hdigits hin
    have := hdigits 46 (List.mem_append_left _ hin)
    exact absurd this (by decide)
  constructor
  · rintro ⟨whole, frac, hsplit, hne, hdigits, hrest⟩
    refine ⟨whole, frac, ?_, hne, hdigits, hrest⟩
    cases hdot : Magnet.splitOnce 46 value with
    | none =>
        rw [hdot, Option.getD_none] at hsplit
        obtain ⟨rfl, rfl⟩ := Prod.mk.inj hsplit
        exact .inl ⟨rfl, rfl⟩
    | some parts =>
        rw [hdot, Option.getD_some] at hsplit
        exact .inr (Magnet.splitOnce_some (hsplit ▸ hdot))
  · rintro ⟨whole, frac, hvalue, hne, hdigits, hrest⟩
    refine ⟨whole, frac, ?_, hne, hdigits, hrest⟩
    rcases hvalue with ⟨rfl, rfl⟩ | rfl
    · have hnone : Magnet.splitOnce 46 value = none := by
        simp [Magnet.splitOnce, TrackerUrl.splitAt, hplain value [] hdigits]
      rw [hnone, Option.getD_none]
    · rw [Tracker.splitOnce_eq_some (hplain whole frac hdigits), Option.getD_some]

/-- An address that can be dialled: a numeric port of this machine. -/
def Local (address : Bytes) : Prop :=
  ∃ host port : Bytes, address = host ++ 58 :: port ∧
    host ∈ [ascii "127.0.0.1", ascii "localhost", ascii "[::1]"] ∧ port ≠ [] ∧
    (∀ b ∈ port, isDigit b = true) ∧ 0 < Decimal.ofDigits 0 port ∧ Decimal.ofDigits 0 port ≤ 65535

/-- What an accepted configuration is like. -/
structure Sound (c : Config) : Prop where
  address : Local c.samAddress
  peerLimit : 1 ≤ c.peerLimit ∧ c.peerLimit ≤ MAX_PEER_LIMIT
  torrentPeerLimit : 1 ≤ c.torrentPeerLimit ∧ c.torrentPeerLimit ≤ MAX_PEER_LIMIT
  seedRatio : c.seedRatioMilli ≤ MAX_SEED_RATIO_MILLI
  seedIdle : c.seedIdleMinutes ≤ MAX_SEED_IDLE_MINUTES

/-- A value that may be set. -/
def Setting.Sound : Setting → Prop
  | .samAddress v => looksLikeSamAddress v = true
  | .dataDir v => isAbsolute v = true
  | .apiSocket v => isAbsolute v = true
  | .peerLimit n => 1 ≤ n ∧ n ≤ MAX_PEER_LIMIT
  | .torrentPeerLimit n => 1 ≤ n ∧ n ≤ MAX_PEER_LIMIT
  | .seedRatio n => n ≤ MAX_SEED_RATIO_MILLI
  | .seedIdle n => n ≤ MAX_SEED_IDLE_MINUTES
  | _ => True

theorem require_ok {α : Type} {p : Problem} {o : Option α} {a : α}
    (h : require p o = .ok a) : o = some a := by
  cases o with
  | none => cases h
  | some b => rw [Except.ok.inj h]

/-- What holds of either choice. -/
theorem of_ite {P : Setting → Prop} {c : Prop} [Decidable c] {x y : Except Problem Setting}
    (hx : ∀ s, x = .ok s → P s) (hy : ∀ s, y = .ok s → P s) :
    ∀ s, (if c then x else y) = .ok s → P s := by
  split
  · exact hx
  · exact hy

theorem count_sound {value : Bytes} {n : Nat} (h : require .badCount (parseCount value) = .ok n) :
    1 ≤ n ∧ n ≤ MAX_PEER_LIMIT := by
  obtain ⟨-, hrange⟩ := Option.filter_eq_some_iff.1 (require_ok h)
  simpa using hrange

/-- What a line sets is a value that may be set. -/
theorem setting_sound (key value : Bytes) : ∀ s, setting key value = .ok s → s.Sound := by
  have hrefused : ∀ {p : Problem} (s : Setting), (.error p : Except Problem Setting) = .ok s →
      s.Sound := by
    intro p s h
    cases h
  unfold setting
  refine of_ite ?_ (of_ite ?_ (of_ite ?_ (of_ite ?_ (of_ite ?_ (of_ite ?_ (of_ite ?_ (of_ite ?_
    (of_ite ?_ (of_ite ?_ hrefused)))))))))
  · split
    · rename_i hshape
      rintro s ⟨⟩
      exact hshape
    · exact hrefused
  · split
    · rename_i habsolute
      rintro s ⟨⟩
      exact habsolute
    · exact hrefused
  · split
    · rename_i habsolute
      rintro s ⟨⟩
      exact habsolute
    · exact hrefused
  all_goals
    intro s h
    obtain ⟨v, hv, rfl⟩ := Except.ok_of_map h
  · trivial
  · trivial
  · exact count_sound hv
  · exact count_sound hv
  · obtain ⟨-, -, -, -, -, -, -, hfits⟩ := parseSeedRatio_iff.1 (require_ok hv)
    exact hfits
  · trivial
  · obtain ⟨-, hfits⟩ := Option.filter_eq_some_iff.1 (require_ok hv)
    exact show v ≤ MAX_SEED_IDLE_MINUTES from of_decide_eq_true hfits

theorem settled_sound {text : Bytes} {settings : List (Nat × Setting)}
    (h : entries text = settled settings) : ∀ s ∈ settings.map Prod.snd, s.Sound := by
  intro s hs
  obtain ⟨⟨line, s⟩, hin, rfl⟩ := List.mem_map.1 hs
  have hentry : (line, .ok s) ∈ entries text := by
    rw [h]
    exact List.mem_map.2 ⟨(line, s), hin, rfl⟩
  obtain ⟨⟨raw, n⟩, -, hmeaning⟩ := List.mem_filterMap.1 hentry
  obtain ⟨m, hm, heq⟩ := Option.map_eq_some_iff.1 hmeaning
  obtain ⟨rfl, rfl⟩ := Prod.mk.inj heq
  simp only [meaning] at hm
  split at hm
  · cases hm
  · split at hm
    · split at hm
      · cases hm
      · exact setting_sound _ _ s (Option.some.inj hm)
    · cases hm

/-- An address of the right shape that can be dialled is one of this machine. -/
theorem local_of {value : Bytes} (hshape : looksLikeSamAddress value = true)
    (hdialled : unsupportedSamTransport value = none) : Local value := by
  unfold unsupportedSamTransport at hdialled
  split at hdialled
  · cases hdialled
  · rename_i hslash
    split at hdialled
    · cases hdialled
    · rename_i hloopback
      rw [looksLikeSamAddress, if_neg hslash] at hshape
      rw [isLoopbackSam, if_neg hslash] at hloopback
      split at hshape
      · rename_i host port hsplit
        obtain ⟨rfl, -⟩ := TrackerUrl.rsplitOnce_eq_some hsplit
        simp only [hsplit, Bool.not_eq_true', Bool.not_eq_false, Bool.or_eq_true,
          decide_eq_true_eq] at hloopback
        simp only [Bool.and_eq_true, decide_eq_true_eq] at hshape
        obtain ⟨⟨-, hport⟩, hsign⟩ := hshape
        obtain ⟨n, hread, hpos⟩ := (Option.any_eq_true _ _).1 hport
        obtain ⟨hne, hdigits, rfl, hle⟩ := Decimal.of_parse hsign hread
        refine ⟨host, port, rfl, ?_, hne, hdigits, Nat.pos_of_ne_zero (of_decide_eq_true hpos), hle⟩
        simpa [or_assoc] using hloopback
      · cases hshape

/-- What is said is the default or a value that may be set. -/
theorem Says.sound {α : Type} {settings : List Setting} {make : α → Setting} {default value : α}
    (h : Says settings make default value) (hsound : ∀ s ∈ settings, s.Sound)
    (hdefault : (make default).Sound) : (make value).Sound := by
  rcases h with hin | ⟨-, rfl⟩
  · exact hsound _ hin
  · exact hdefault

theorem isAbsolute_join {base name : Bytes} (h : isAbsolute base = true) :
    isAbsolute (join base name) = true := by
  cases base with
  | nil => cases h
  | cons b base =>
      unfold join
      split
      · exact h
      · exact h

theorem Says.of_perm {α : Type} {settings settings' : List Setting} {make : α → Setting}
    {default value : α} (hperm : settings.Perm settings') (h : Says settings make default value) :
    Says settings' make default value := by
  unfold Says at h ⊢
  simpa only [hperm.mem_iff] using h

theorem Configured.of_perm {defaults : Defaults} {settings settings' : List Setting} {c : Config}
    (hperm : settings.Perm settings') (h : Configured defaults settings c) :
    Configured defaults settings' c where
  samAddress := h.samAddress.of_perm hperm
  dataDir := h.dataDir.of_perm hperm
  apiSocket := h.apiSocket.of_perm hperm
  ephemeral := h.ephemeral.of_perm hperm
  preallocate := h.preallocate.of_perm hperm
  peerLimit := h.peerLimit.of_perm hperm
  torrentPeerLimit := h.torrentPeerLimit.of_perm hperm
  seedRatioMilli := h.seedRatioMilli.of_perm hperm
  seedIdleMinutes := h.seedIdleMinutes.of_perm hperm
  sandbox := h.sandbox.of_perm hperm

/-- Lines that all set something are those of some settings. -/
theorem exists_settled {es : List (Nat × Except Problem Setting)}
    (h : ∀ e ∈ es, ∃ s, e.2 = .ok s) : ∃ settings, es = settled settings := by
  induction es with
  | nil => exact ⟨[], rfl⟩
  | cons e es ih =>
      obtain ⟨s, hs⟩ := h e List.mem_cons_self
      obtain ⟨settings, rfl⟩ := ih fun e he => h e (List.mem_cons_of_mem _ he)
      exact ⟨(e.1, s) :: settings, congrArg (· :: settled settings) (Prod.ext rfl hs)⟩

/-- What the lines ask for is all that counts, whatever their order. -/
theorem parse_perm {defaults : Defaults} {text text' : Bytes} {c : Config}
    (hperm : ((entries text).map Prod.snd).Perm ((entries text').map Prod.snd))
    (h : parse text defaults = .ok c) : parse text' defaults = .ok c := by
  obtain ⟨settings, hentries, hnodup, hconfigured, hdialled⟩ := parse_ok_iff.1 h
  have hmap : ∀ settings : List (Nat × Setting), (settled settings).map Prod.snd =
      (settings.map Prod.snd).map .ok := by
    intro settings
    simp [settled]
  rw [hentries, hmap] at hperm
  obtain ⟨settings', hentries'⟩ : ∃ settings', entries text' = settled settings' := by
    refine exists_settled fun e he => ?_
    obtain ⟨s, -, hs⟩ := List.mem_map.1 (hperm.mem_iff.2 (List.mem_map_of_mem he))
    exact ⟨s, hs.symm⟩
  rw [hentries', hmap] at hperm
  have hsame : (settings.map Prod.snd).Perm (settings'.map Prod.snd) :=
    (List.map_perm_map_iff fun s s' heq => Except.ok.inj heq).1 hperm
  have hkeys : ∀ settings : List (Nat × Setting), keys settings =
      (settings.map Prod.snd).map Setting.key := by
    intro settings
    simp [keys]
  refine parse_ok_iff.2 ⟨settings', hentries', ?_, hconfigured.of_perm hsame, hdialled⟩
  rw [hkeys] at hnodup ⊢
  exact (hsame.map _).nodup_iff.1 hnodup

theorem parse_sound {defaults : Defaults} {text : Bytes} {c : Config}
    (h : parse text defaults = .ok c) : Sound c := by
  obtain ⟨settings, hentries, -, hconfigured, hdialled⟩ := parse_ok_iff.1 h
  have hsound := settled_sound hentries
  have hlimits : looksLikeSamAddress DEFAULT_SAM_ADDRESS = true ∧
      (1 ≤ DEFAULT_PEER_LIMIT ∧ DEFAULT_PEER_LIMIT ≤ MAX_PEER_LIMIT) ∧
      (1 ≤ DEFAULT_TORRENT_PEER_LIMIT ∧ DEFAULT_TORRENT_PEER_LIMIT ≤ MAX_PEER_LIMIT) := by decide
  constructor
  · exact local_of (hconfigured.samAddress.sound hsound hlimits.1) hdialled
  · exact hconfigured.peerLimit.sound hsound hlimits.2.1
  · exact hconfigured.torrentPeerLimit.sound hsound hlimits.2.2
  · exact hconfigured.seedRatioMilli.sound hsound (Nat.zero_le _)
  · exact hconfigured.seedIdleMinutes.sound hsound (Nat.zero_le _)

/-- The paths are absolute where those of the environment are, which nothing checks. -/
theorem parse_absolute {defaults : Defaults} {text : Bytes} {c : Config}
    (h : parse text defaults = .ok c) (hhome : isAbsolute defaults.dataHome = true) :
    isAbsolute c.dataDir = true ∧
      ((∀ dir ∈ defaults.runtimeDir, isAbsolute dir = true) → isAbsolute c.apiSocket = true) := by
  obtain ⟨settings, hentries, -, hconfigured, -⟩ := parse_ok_iff.1 h
  have hsound := settled_sound hentries
  have hdir : isAbsolute c.dataDir = true :=
    hconfigured.dataDir.sound hsound (isAbsolute_join hhome)
  refine ⟨hdir, fun hruntime => hconfigured.apiSocket.sound hsound (isAbsolute_join ?_)⟩
  cases hrun : defaults.runtimeDir with
  | none => exact hdir
  | some dir => exact hruntime dir hrun

/-- The order of the lines says nothing, nor do comments and blank lines; and what is accepted stays
on this machine and within the limits, with absolute paths where those of the environment are. -/
theorem config_sound (defaults : Defaults) :
    (∀ text text' c, ((entries text).map Prod.snd).Perm ((entries text').map Prod.snd) →
      (parse text defaults = .ok c ↔ parse text' defaults = .ok c)) ∧
    ∀ text c, parse text defaults = .ok c → Sound c ∧ (isAbsolute defaults.dataHome = true →
      isAbsolute c.dataDir = true ∧
        ((∀ dir ∈ defaults.runtimeDir, isAbsolute dir = true) → isAbsolute c.apiSocket = true)) :=
  ⟨fun _ _ _ hperm => ⟨parse_perm hperm, parse_perm hperm.symm⟩,
    fun _ _ h => ⟨parse_sound h, parse_absolute h⟩⟩

/-- Where things are by default. -/
def xdgHome : Defaults where
  dataHome := ascii "/home/u/.local/share"
  runtimeDir := none
  configHome := ascii "/home/u/.config"

/-- What a file of two lines says. -/
def twoLines : Config where
  samAddress := ascii "[::1]:7656"
  dataDir := ascii "/home/u/.local/share/clove"
  apiSocket := ascii "/home/u/.local/share/clove/clove.sock"
  ephemeral := false
  preallocate := false
  peerLimit := 200
  torrentPeerLimit := 50
  seedRatioMilli := 1500
  seedIdleMinutes := 0
  sandbox := .bestEffort

theorem config_sound_twoLines :
    parse (ascii "# a comment\nseed_ratio 1.5\r\nsam_address  [::1]:7656\n") xdgHome = .ok twoLines ∧
      Sound twoLines ∧ isAbsolute twoLines.dataDir = true ∧
        isAbsolute twoLines.apiSocket = true := by
  have hparse : parse (ascii "sam_address [::1]:7656\n\nseed_ratio\t1.5") xdgHome =
      .ok twoLines := by decide +kernel
  refine ⟨((config_sound xdgHome).1 _ _ twoLines ?_).1 hparse, ?_⟩
  · decide +kernel
  · obtain ⟨hsound, habsolute⟩ := (config_sound xdgHome).2 _ twoLines hparse
    obtain ⟨hdata, hsocket⟩ := habsolute (by decide)
    exact ⟨hsound, hdata, hsocket fun dir hdir => by cases hdir⟩

end Clove.Config
