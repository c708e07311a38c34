import Clove.Daemon.Detach
import Clove.Daemon.Records
import Clove.Daemon.Retirement
import Clove.Lib.Log
import Clove.ResumeCompat
import Clove.Torrent.Counters

/-!
# Lifetime byte counts

The registry keeps the bytes a torrent has moved in its lifetime, and every engine counts from
zero.  A start notes the lifetime counts as the engine's base; a refresh, and the body of
`stop_live`, set them to the base and what the engine has counted.

So they are what was loaded and what every engine since had counted when it was last read, cut off
at the end of a `u64` (`lifetime_counts`), and they only go up.  A restart takes them from the
record, which holds an `i64`.
-/

namespace Clove.Daemon

open Torrent (Shared System Grown grown_step)

variable {sh : Shared} {limits : Limits} {h h' : Host}

/-! ## What is read -/

/-- The bytes an engine has served and received. -/
def counted (s : System) : Nat × Nat := (s.engine.uploaded, s.engine.downloaded)

/-- The lifetime counts. -/
def Host.totals (h : Host) : Nat × Nat := (h.hosted.uploaded, h.hosted.downloaded)

/-- Two counts, each in a `u64`. -/
def cap (n : Nat × Nat) : Nat × Nat :=
  (min n.1 18446744073709551615, min n.2 18446744073709551615)

/-- The newest engine, and what it has counted. -/
def Host.newest (h : Host) : List (Nat × (Nat × Nat)) :=
  h.current.toList.map fun s => (h.engines.length - 1, counted s)

/-- What a step reads: a refresh reads the engine that runs, and `stop_live` the one it has
taken. -/
def Host.reads (a : Action) (h : Host) : List (Nat × (Nat × Nat)) :=
  match a with
  | .registry _ _ =>
      match h.agenda with
      | .refresh :: _ => if h.hosted.live.isSome then h.newest else []
      | .snapshot _ :: _ => h.newest
      | _ => []
  | _ => []

/-- What the first engines had counted when each was last read. -/
def readings (log : List (Nat × (Nat × Nat))) (engines : Nat) : Nat × Nat :=
  ((List.range engines).map fun k => (Log.last log k).getD 0).sum

/-- What the engine started from that runs, or that `stop_live` is about to read. -/
def Host.base (h : Host) : Option (Nat × Nat) :=
  match h.hosted.live with
  | some base => some base
  | none =>
      match h.agenda with
      | .unregister :: .flush base :: _ => some base
      | .flush base :: _ => some base
      | .sync (some base) _ _ :: _ => some base
      | .snapshot base :: _ => some base
      | _ => none

theorem base_of_live {base : Nat × Nat} (hlive : h.hosted.live = some base) :
    h.base = some base := by
  simp only [Host.base, hlive]

theorem base_of_plain (hlive : h.hosted.live = none) (hplain : Plain h.agenda) : h.base = none := by
  have hhead : ∀ {i : Instr} {rest : List Instr}, h.agenda = i :: rest → i.isPlain = true :=
    fun hagenda => hplain _ (hagenda ▸ List.mem_cons_self)
  simp only [Host.base, hlive]
  split
  · exact absurd (hhead ‹_›) (by decide)
  · exact absurd (hhead ‹_›) (by simp [Instr.isPlain])
  · exact absurd (hhead ‹_›) (by simp [Instr.isPlain])
  · exact absurd (hhead ‹_›) (by simp [Instr.isPlain])
  · rfl

/-! ## What a step does to the counts -/

/-- Engines that were there are there, and have counted no less. -/
def Onward (h h' : Host) : Prop :=
  ∀ (k : Nat) (s : System), h.engines[k]? = some s →
    ∃ s', h'.engines[k]? = some s' ∧ counted s ≤ counted s'

/-- What a step does to the engines and their base. -/
inductive Counting (h h' : Host) : Prop where
  | same : h'.engines.length = h.engines.length → Onward h h' →
      h'.base = h.base ∨ h'.base = none → Counting h h'
  | started {s : System} : h.base = none → h'.engines = h.engines ++ [s] → counted s = 0 →
      h'.base = some h.totals → Counting h h'

theorem Onward.of_eq (hengines : h'.engines = h.engines) : Onward h h' :=
  fun _ s hs => ⟨s, hengines ▸ hs, le_rfl⟩

theorem onward_modifyCurrent {f : System → System} {s : System} (hcurrent : h.current = some s)
    (hf : counted s ≤ counted (f s)) : Onward h (h.modifyCurrent f) := by
  obtain ⟨old, hengines⟩ := current_eq_some.1 hcurrent
  intro k t ht
  rw [engines_modifyCurrent f hengines]
  rw [hengines] at ht
  by_cases hk : k < old.length
  · rw [List.getElem?_append_left hk] at ht ⊢
    exact ⟨t, ht, le_rfl⟩
  · rw [List.getElem?_append_right (by omega)] at ht ⊢
    cases hdiff : k - old.length with
    | zero =>
        rw [hdiff] at ht
        obtain rfl : s = t := Option.some.inj ht
        exact ⟨f s, rfl, hf⟩
    | succ n =>
        rw [hdiff] at ht
        cases ht

theorem counted_le_step (a : Torrent.Action) (s : System) :
    counted s ≤ counted (System.step sh a s) :=
  ⟨(grown_step sh a s).uploaded, (grown_step sh a s).downloaded⟩

theorem counted_haltNext (s : System) : counted s.haltNext = counted s := by
  unfold System.haltNext
  split <;> rfl

theorem Counting.of_engines (hengines : h'.engines = h.engines)
    (hbase : h'.base = h.base ∨ h'.base = none) : Counting h h' :=
  .same (by rw [hengines]) (.of_eq hengines) hbase

theorem base_plain (hplain : Plain h.agenda) : h.base = h.hosted.live := by
  cases hlive : h.hosted.live with
  | none => exact base_of_plain hlive hplain
  | some base => exact base_of_live hlive

theorem Counting.of_plain {have_ verified : Bitfield} (hplain : Plain h.agenda)
    (hplain' : Plain h'.agenda) (hkept : Kept sh h h' have_ verified) : Counting h h' := by
  refine .of_engines hkept.engines (.inl ?_)
  rw [base_plain hplain, base_plain hplain', hkept.live]

/-- An engine is halted one step further. -/
theorem Counting.halted {s : System} (hcurrent : h.current = some s) (agenda : List Instr)
    (hbase : Host.base { h.modifyCurrent System.haltNext with agenda := agenda } = h.base ∨
      Host.base { h.modifyCurrent System.haltNext with agenda := agenda } = none) :
    Counting h { h.modifyCurrent System.haltNext with agenda := agenda } :=
  .same (List.length_modify _ _ _) (onward_modifyCurrent hcurrent (counted_haltNext s).ge) hbase

/-- A move starts an engine on the lifetime counts, or keeps what the engine started from until it
has been read. -/
theorem Move.counting {a : Action} (hmove : Move sh limits h a h') (ho : Orderly sh h)
    (hcrash : a.isCrash = false) : Counting h h' := by
  cases hmove with
  | noted hplain hplain' hkept => exact .of_plain hplain hplain' hkept
  | refreshed hplain hplain' _ hkept => exact .of_plain hplain hplain' hkept
  | wrote hplain hplain' _ _ =>
      exact .of_engines rfl (.inl ((base_plain hplain').trans (base_plain hplain).symm))
  | @tuned _ ev agenda hplain hplain' hlive hcontrol _ =>
      obtain ⟨s, hcurrent, -⟩ := ho.live hlive
      refine .same (List.length_modify _ _ _)
        (onward_modifyCurrent hcurrent (counted_le_step (.control ev) s)) (.inl ?_)
      exact (base_plain hplain').trans (base_plain hplain).symm
  | @started _ now claimed l agenda hplain hplain' hlive _ _ =>
      exact .started (base_of_plain hlive hplain) rfl rfl (base_of_live rfl)
  | @taken _ base rest hplain hrest hlive =>
      refine .of_engines rfl (.inl ?_)
      rw [base_of_live hlive]
      rfl
  | @persists _ _ rest hagenda hrest hlive =>
      obtain ⟨base, hlive⟩ := Option.isSome_iff_exists.1 hlive
      refine .of_engines rfl (.inl ?_)
      rw [base_of_live hlive]
      exact base_of_live hlive
  | @synced _ closing before file files rest hagenda =>
      refine .of_engines rfl (.inl ?_)
      unfold Host.base
      rw [hagenda]
      cases closing <;> rfl
  | @saved _ before files rest _ hagenda hrest hagenda' hkept =>
      obtain ⟨base, hlive⟩ := Option.isSome_iff_exists.1 (ho.saving hagenda)
      have hlive' : h'.hosted.live = some base ∧ h'.engines = h.engines := by
        rcases hkept with hkept | ⟨-, hkept⟩
        · exact ⟨hkept.live.trans hlive, hkept.engines⟩
        · exact ⟨hkept.live.trans hlive, hkept.engines⟩
      exact .of_engines hlive'.2 (.inl ((base_of_live hlive'.1).trans (base_of_live hlive).symm))
  | @unrouted _ base rest s hagenda hrest hlive hcurrent hstop =>
      refine .halted hcurrent _ (.inl ?_)
      simp only [Host.base, Host.modifyCurrent, hlive, hagenda]
  | @flushes _ base rest hagenda =>
      refine .of_engines rfl (.inl ?_)
      simp only [Host.base, hagenda]
  | @flushed _ base before files rest _ hagenda hagenda' hkept =>
      have hsame : h'.hosted.live = h.hosted.live ∧ h'.engines = h.engines := by
        rcases hkept with hkept | ⟨-, hkept⟩
        · exact ⟨hkept.live, hkept.engines⟩
        · exact ⟨hkept.live, hkept.engines⟩
      refine .of_engines hsame.2 (.inl ?_)
      simp only [Host.base, hagenda, hagenda', hsame.1]
  | @snapped _ base rest _ hagenda hagenda' hkept =>
      refine .of_engines hkept.engines ?_
      cases hlive : h.hosted.live with
      | some b => exact .inl ((base_of_live (hkept.live.trans hlive)).trans (base_of_live hlive).symm)
      | none =>
          refine .inr ?_
          simp only [Host.base, hkept.live, hlive, hagenda']
  | @raised _ rest s hagenda hrest hlive hcurrent hstop =>
      refine .halted hcurrent _ (.inr ?_)
      simp only [Host.base, Host.modifyCurrent, hlive]
  | @listed _ _ rest s hagenda hrest hlive hcurrent hstop =>
      refine .halted hcurrent _ (.inr ?_)
      simp only [Host.base, Host.modifyCurrent, hlive]
  | @ended _ rest s hagenda hrest hlive hcurrent hstopped =>
      exact .of_engines rfl (.inr (base_of_plain hlive hrest))
  | stayed => exact .of_engines rfl (.inl rfl)
  | began hidle hlive =>
      refine .of_engines rfl (.inl ?_)
      simp only [Host.base, hlive, hidle]
  | failed hidle hscanning hscan =>
      exact .of_engines rfl (.inl rfl)
  | published hidle hscan =>
      have hplain : Plain h.agenda := hidle ▸ plain_nil
      refine .of_engines rfl (.inl ?_)
      have hplain' : Plain [.writeOrFail, .reconcile] := by decide
      rw [base_plain hplain]
      exact base_plain hplain'
  | @scanned ok fault =>
      obtain ⟨files, scan, heq, -⟩ := stepScan_eq sh limits h ok fault
      rw [heq]
      exact .of_engines rfl (.inl rfl)
  | @stepped _ k a s hhalt hs =>
      refine .same List.length_set (fun j t ht => ?_) (.inl rfl)
      by_cases hj : k = j
      · subst hj
        obtain rfl : s = t := Option.some.inj (hs.symm.trans ht)
        refine ⟨_, List.getElem?_set_self (List.getElem?_eq_some_iff.1 hs).1, ?_⟩
        exact counted_le_step a (Host.onDisk h.files.disk s)
      · exact ⟨t, by rw [List.getElem?_set_ne hj, ht], le_rfl⟩
  | crashed => cases hcrash

/-- What a step does to the lifetime counts. -/
inductive Totals (h h' : Host) (reads : List (Nat × (Nat × Nat))) : Prop where
  | same : h'.totals = h.totals → reads = [] → Totals h h' reads
  | read {base : Nat × Nat} {s : System} : h.base = some base → h.current = some s →
      reads = [(h.engines.length - 1, counted s)] → h'.totals = cap (base + counted s) →
      h'.engines = h.engines → h'.base = some base ∨ h'.base = none → Totals h h' reads

theorem totals_call (c : Command) : (h.call sh limits c).totals = h.totals := by
  cases c with
  | refresh => rfl
  | persistProgress => rfl
  | setPaused paused =>
      unfold Host.call
      simp only
      split <;> rfl
  | setPriorities priorities =>
      unfold Host.call
      simp only
      split <;> rfl
  | setSequential sequential => rfl
  | setSeedRatio milli =>
      unfold Host.call Host.totals
      simp only
      split <;> rfl
  | beginVerify =>
      unfold Host.call
      simp only
      split <;> rfl
  | finishScan =>
      unfold Host.call
      simp only
      split
      · split <;> rfl
      · rfl
  | attachNetwork => rfl
  | detachNetwork => rfl

theorem totals_counts {s : System} (hcurrent : h.current = some s) (base : Nat × Nat) (x : Hosted) :
    ((h.counts base x).uploaded, (h.counts base x).downloaded) = cap (base + counted s) := by
  unfold Host.counts
  rw [hcurrent]
  rfl

theorem live_counts (h : Host) (base : Nat × Nat) (x : Hosted) :
    (h.counts base x).live = x.live := by
  obtain ⟨up, down, heq⟩ := counts_eq h base x
  rw [heq]

theorem newest_eq {s : System} (hcurrent : h.current = some s) :
    h.newest = [(h.engines.length - 1, counted s)] := by
  unfold Host.newest
  rw [hcurrent]
  rfl

/-- The lifetime counts are the base and what has been counted when an engine is read, and stay
what they are otherwise. -/
theorem step_totals (limits : Limits) (a : Action) (ho : Orderly sh h) (hcrash : a.isCrash = false) :
    Totals h (Host.step sh limits a h) (h.reads a) := by
  cases a with
  | crash keep => cases hcrash
  | engine k a =>
      obtain ⟨engines, files, heq, -⟩ := stepEngine_eq sh k a h
      exact .same (by rw [Host.step, heq]; rfl) rfl
  | command c =>
      refine .same ?_ rfl
      unfold Host.step
      simp only
      split
      · exact totals_call c
      · rfl
  | scan ok fault =>
      obtain ⟨files, scan, heq, -⟩ := stepScan_eq sh limits h ok fault
      exact .same (by rw [Host.step, heq]; rfl) rfl
  | registry ok now =>
      cases hagenda : h.agenda with
      | nil =>
          have hsame : Host.step sh limits (.registry ok now) h = h := by
            unfold Host.step
            simp only [hagenda]
          rw [hsame]
          exact .same rfl (by simp only [Host.reads, hagenda])
      | cons i rest =>
          rw [step_registry ok now hagenda]
          have hnone : (∀ base, i ≠ .snapshot base) → i ≠ .refresh →
              h.reads (.registry ok now) = [] := by
            intro hsnapshot hrefresh
            simp only [Host.reads, hagenda]
            split
            · exact absurd (List.cons.inj ‹_›).1 hrefresh
            · exact absurd (List.cons.inj ‹_›).1 (hsnapshot _)
            · rfl
          have hquiet : (Host.exec sh limits ok now { h with agenda := rest } i).totals = h.totals →
              (∀ base, i ≠ .snapshot base) → i ≠ .refresh → Totals h
                (Host.exec sh limits ok now { h with agenda := rest } i) (h.reads (.registry ok now)) :=
            fun htotals hsnapshot hrefresh => .same htotals (hnone hsnapshot hrefresh)
          cases i with
          | refresh =>
              cases hlive : h.hosted.live with
              | none =>
                  refine .same ?_ (by simp [Host.reads, hagenda, hlive])
                  simp only [Host.exec, hlive]
                  rfl
              | some base =>
                  obtain ⟨s, hcurrent, -⟩ := ho.live (by rw [hlive]; rfl)
                  refine .read (base_of_live hlive) hcurrent ?_ ?_ ?_ ?_
                  · simp [Host.reads, hagenda, hlive, newest_eq hcurrent]
                  · simp only [Host.exec, hlive]
                    exact totals_counts (h := { h with agenda := rest }) hcurrent base _
                  · simp only [Host.exec, hlive]
                    rfl
                  · refine .inl (base_of_live ?_)
                    simp only [Host.exec, hlive]
                    exact (live_counts _ base _).trans hlive
          | snapshot base =>
              obtain ⟨s, pre, tail, hcurrent, hstage, rfl, htail, hlive⟩ :=
                ho.stage rfl hagenda (by simp)
              have hbase : h.base = some base := by simp only [Host.base, hlive, hagenda]
              refine .read hbase hcurrent ?_ ?_ rfl (.inr ?_)
              · simp only [Host.reads, hagenda, newest_eq hcurrent]
              · exact totals_counts (h := { h with agenda := pre ++ tail }) hcurrent base _
              · have hlive' : (Host.exec sh limits ok now { h with agenda := pre ++ tail }
                    (.snapshot base)).hosted.live = none := (live_counts _ base _).trans hlive
                have hagenda' : (Host.exec sh limits ok now { h with agenda := pre ++ tail }
                    (.snapshot base)).agenda = pre ++ tail := rfl
                simp only [Host.base, hlive', hagenda']
                generalize s.stop = stop at hstage
                cases hstage
                rfl
          | enforceSeedLimits =>
              refine hquiet ?_ (by simp) (by simp)
              unfold Host.exec
              simp only
              split <;> rfl
          | reconcile =>
              refine hquiet ?_ (by simp) (by simp)
              unfold Host.exec
              simp only
              split
              · rfl
              · split <;> rfl
          | startLive =>
              refine hquiet ?_ (by simp) (by simp)
              unfold Host.exec Host.startLive
              simp only
              split <;> rfl
          | stopLive =>
              refine hquiet ?_ (by simp) (by simp)
              unfold Host.exec
              simp only
              split <;> rfl
          | persist =>
              refine hquiet ?_ (by simp) (by simp)
              unfold Host.exec
              simp only
              split <;> rfl
          | write => exact hquiet rfl (by simp) (by simp)
          | writeOrFail =>
              refine hquiet ?_ (by simp) (by simp)
              unfold Host.exec
              simp only
              split <;> rfl
          | setPriorities =>
              refine hquiet ?_ (by simp) (by simp)
              unfold Host.exec
              simp only
              split <;> rfl
          | setMode =>
              refine hquiet ?_ (by simp) (by simp)
              unfold Host.exec
              simp only
              split <;> rfl
          | dropNetwork => exact hquiet rfl (by simp) (by simp)
          | unregister => exact hquiet rfl (by simp) (by simp)
          | flush base => exact hquiet rfl (by simp) (by simp)
          | sync closing before files =>
              refine hquiet ?_ (by simp) (by simp)
              unfold Host.exec
              simp only
              cases files with
              | nil => cases closing <;> rfl
              | cons file files =>
                  simp only
                  split
                  · rfl
                  · cases closing <;> rfl
          | requestStop => exact hquiet rfl (by simp) (by simp)
          | disconnectAll => exact hquiet rfl (by simp) (by simp)
          | await =>
              refine hquiet ?_ (by simp) (by simp)
              unfold Host.exec
              simp only
              split <;> rfl

/-! ## Runs -/

/-- The lifetime counts are what was loaded and what was read of every engine, and an engine's base
is what they were when it was started. -/
structure Lifetime (sh : Shared) (loaded : Nat × Nat) (log : List (Nat × (Nat × Nat))) (h : Host) :
    Prop where
  orderly : Orderly sh h
  totals : h.totals = cap (loaded + readings log h.engines.length)
  base : ∀ base, h.base = some base → h.engines.length ≠ 0 ∧
    base = cap (loaded + readings log (h.engines.length - 1))
  unread : ∀ k, h.engines.length ≤ k → Log.last log k = none
  below : ∀ (k : Nat) (s : System), h.engines[k]? = some s → (Log.last log k).getD 0 ≤ counted s

theorem readings_succ (log : List (Nat × (Nat × Nat))) (n : Nat) :
    readings log (n + 1) = readings log n + (Log.last log n).getD 0 := by
  unfold readings
  rw [List.range_succ, List.map_append, List.sum_append, List.map_singleton, List.sum_singleton]

/-- A reading changes what is known of its engine. -/
theorem last_snoc (log : List (Nat × (Nat × Nat))) (n : Nat) (v : Nat × Nat) (k : Nat) :
    Log.last (log ++ [(n, v)]) k = if k = n then some v else Log.last log k := by
  rw [Log.last_append]
  by_cases hk : k = n
  · simp [Log.last, hk]
  · simp [Log.last, hk, Ne.symm hk]

theorem readings_snoc (log : List (Nat × (Nat × Nat))) (n : Nat) (v : Nat × Nat) :
    readings (log ++ [(n, v)]) n = readings log n := by
  unfold readings
  refine congrArg List.sum (List.map_congr_left fun k hk => ?_)
  rw [last_snoc, if_neg (Nat.ne_of_lt (List.mem_range.1 hk))]

theorem cap_cap_add (a b : Nat × Nat) : cap (cap a + b) = cap (a + b) := by
  refine Prod.ext ?_ ?_ <;> simp only [cap, Prod.fst_add, Prod.snd_add] <;> omega

theorem cap_mono {a b : Nat × Nat} (h : a ≤ b) : cap a ≤ cap b :=
  ⟨min_le_min_right _ h.1, min_le_min_right _ h.2⟩

/-- Every step but a crash keeps it, and the counts go up. -/
theorem Lifetime.step {loaded : Nat × Nat} {log : List (Nat × (Nat × Nat))}
    (hl : Lifetime sh loaded log h) (limits : Limits) {a : Action} (hcrash : a.isCrash = false) :
    Lifetime sh loaded (log ++ h.reads a) (Host.step sh limits a h) ∧
      h.totals ≤ (Host.step sh limits a h).totals := by
  have ho := hl.orderly
  have ho' : Orderly sh (Host.step sh limits a h) := ho.step a
  have hcounting := (step_move limits ho a).counting ho hcrash
  have htotals := step_totals limits a ho hcrash
  generalize Host.step sh limits a h = h' at *
  cases htotals with
  | same htotals hreads =>
      rw [hreads, List.append_nil]
      refine ⟨?_, htotals.ge⟩
      cases hcounting with
      | same hlength honward hbase =>
          refine ⟨ho', ?_, ?_, ?_, ?_⟩
          · rw [htotals, hl.totals, hlength]
          · intro base hsome
            rw [hlength]
            refine hl.base base ?_
            rcases hbase with hbase | hbase
            · rw [← hbase, hsome]
            · rw [hbase] at hsome
              cases hsome
          · rw [hlength]
            exact hl.unread
          · intro k s' hs'
            obtain ⟨hk, -⟩ := List.getElem?_eq_some_iff.1 hs'
            rw [hlength] at hk
            obtain ⟨s'', hs'', hle⟩ := honward k _ (List.getElem?_eq_getElem hk)
            obtain rfl : s'' = s' := Option.some.inj (hs''.symm.trans hs')
            exact (hl.below k _ (List.getElem?_eq_getElem hk)).trans hle
      | @started s hbase hengines hzero hbase' =>
          have hlength : h'.engines.length = h.engines.length + 1 := by
            rw [hengines, List.length_append, List.length_singleton]
          have hnone : Log.last log h.engines.length = none := hl.unread _ le_rfl
          refine ⟨ho', ?_, ?_, ?_, ?_⟩
          · rw [htotals, hl.totals, hlength, readings_succ, hnone, Option.getD_none, add_zero]
          · intro base hsome
            rw [hbase'] at hsome
            rw [hlength, ← Option.some.inj hsome]
            exact ⟨Nat.succ_ne_zero _, hl.totals⟩
          · intro k hk
            exact hl.unread k (by omega)
          · intro k t ht
            rw [hengines] at ht
            by_cases hk : k < h.engines.length
            · rw [List.getElem?_append_left hk] at ht
              exact hl.below k t ht
            · rw [hl.unread k (Nat.le_of_not_lt hk)]
              exact ⟨Nat.zero_le _, Nat.zero_le _⟩
  | @read base s hbase hcurrent hreads htotals hengines hbase' =>
      obtain ⟨hne, hstart⟩ := hl.base base hbase
      obtain ⟨n, hn⟩ := Nat.exists_eq_succ_of_ne_zero hne
      rw [hn, Nat.succ_sub_one] at hstart hreads
      have hnew : readings (log ++ h.reads a) (n + 1) = readings log n + counted s := by
        rw [hreads, readings_succ, readings_snoc, last_snoc, if_pos rfl, Option.getD_some]
      have hnext : h'.totals = cap (loaded + (readings log n + counted s)) := by
        rw [htotals, hstart, cap_cap_add, add_assoc]
      have hs : h.engines[n]? = some s := by
        rw [← hcurrent, Host.current, List.getLast?_eq_getElem?, hn, Nat.succ_sub_one]
      refine ⟨⟨ho', ?_, ?_, ?_, ?_⟩, ?_⟩
      · rw [hnext, hengines, hn, hnew]
      · intro base₁ hsome
        have hsame : base₁ = base := by
          rcases hbase' with hbase' | hbase'
          · exact (Option.some.inj (hbase'.symm.trans hsome)).symm
          · rw [hbase'] at hsome
            cases hsome
        rw [hengines, hn, hsame, hstart, hreads, Nat.succ_sub_one, readings_snoc]
        exact ⟨Nat.succ_ne_zero n, rfl⟩
      · intro k hk
        rw [hengines, hn] at hk
        rw [hreads, last_snoc, if_neg (by omega)]
        exact hl.unread k (by omega)
      · intro k t ht
        rw [hengines] at ht
        rw [hreads, last_snoc]
        split
        · rename_i hk
          subst hk
          obtain rfl : s = t := Option.some.inj (hs.symm.trans ht)
          exact le_rfl
        · exact hl.below k t ht
      · rw [hnext, hl.totals, hn, readings_succ]
        have hle := hl.below n s hs
        exact cap_mono ⟨Nat.add_le_add_left (Nat.add_le_add_left hle.1 _) _,
          Nat.add_le_add_left (Nat.add_le_add_left hle.2 _) _⟩

/-- A torrent in a daemon that has not started an engine for it. -/
structure Fresh (sh : Shared) (h : Host) : Prop where
  orderly : Orderly sh h
  engines : h.engines = []
  fits : cap h.totals = h.totals

theorem Fresh.lifetime (hf : Fresh sh h) : Lifetime sh h.totals [] h := by
  have hbase : h.base = none := by
    have hlive : h.hosted.live = none := by
      cases hlive : h.hosted.live with
      | none => rfl
      | some base =>
          obtain ⟨s, hcurrent, -⟩ := hf.orderly.live (by rw [hlive]; rfl)
          rw [Host.current, hf.engines] at hcurrent
          cases hcurrent
    cases hf.orderly.busy with
    | idle hplain => exact base_of_plain hlive hplain
    | saving _ _ hsome =>
        rw [hlive] at hsome
        cases hsome
    | stopping _ _ _ _ hcurrent =>
        rw [Host.current, hf.engines] at hcurrent
        cases hcurrent
  refine ⟨hf.orderly, ?_, ?_, fun _ _ => rfl, ?_⟩
  · rw [hf.engines]
    exact hf.fits.symm
  · intro base hsome
    rw [hbase] at hsome
    cases hsome
  · intro k s hs
    rw [hf.engines] at hs
    cases hs

/-- The steps of one daemon, from its start. -/
theorem Fresh.run (hf : Fresh sh h) (limits : Limits) {actions : List Action}
    (hcrash : ∀ a ∈ actions, a.isCrash = false) :
    Lifetime sh h.totals (Machine.logs (Host.step sh limits) Host.reads actions h)
      (Host.run sh limits actions h) := by
  have hrun := Machine.logs_induction_along (P := Lifetime sh h.totals) (l := [])
    (fun a _ _ hcrash hl => (hl.step limits hcrash).1)
    (Machine.along_of_forall (fun a ha _ => hcrash a ha) h) hf.lifetime
  rwa [List.nil_append] at hrun

/-- The counts go up. -/
theorem Fresh.le_run (hf : Fresh sh h) {actions : List Action}
    (hcrash : ∀ a ∈ actions, a.isCrash = false) {pre : List Action} (hpre : pre <+: actions) :
    (Host.run sh limits pre h).totals ≤ (Host.run sh limits actions h).totals := by
  obtain ⟨post, rfl⟩ := hpre
  induction post using List.reverseRecOn with
  | nil => rw [List.append_nil]
  | append_singleton post a ih =>
      have hbefore : ∀ b ∈ pre ++ post, b.isCrash = false := fun b hb =>
        hcrash b (by rw [← List.append_assoc]; exact List.mem_append_left _ hb)
      have hlast := ((hf.run limits hbefore).step limits (hcrash a (by simp))).2
      have hsnoc : Host.run sh limits (pre ++ (post ++ [a])) h =
          Host.step sh limits a (Host.run sh limits (pre ++ post) h) := by
        rw [← List.append_assoc]
        exact Machine.run_append _ _ _ _
      rw [hsnoc]
      exact (ih hbefore).trans hlast

theorem cap_cap (n : Nat × Nat) : cap (cap n) = cap n := by
  refine Prod.ext ?_ ?_ <;> simp only [cap] <;> omega

theorem cap_of_le {n : Nat × Nat} (hup : n.1 ≤ 18446744073709551615)
    (hdown : n.2 ≤ 18446744073709551615) : cap n = n :=
  Prod.ext (Nat.min_eq_left hup) (Nat.min_eq_left hdown)

/-- A record holds two `i64`. -/
theorem fits_restart (hfits : cap h.totals = h.totals) (keep : Nat → Bool) :
    cap (h.restart sh keep).totals = (h.restart sh keep).totals := by
  unfold Host.restart
  simp only
  split
  · exact hfits
  · rename_i x hload
    obtain ⟨resume, have_, verified, hdecode, -, -, -, -, -, rfl⟩ := loadOne_ok hload
    have hstorable := Resume.storable_of_decode hdecode
    have hmax : Resume.I64_MAX ≤ 18446744073709551615 := by decide
    exact cap_of_le (hstorable.uploaded.trans hmax) (hstorable.downloaded.trans hmax)

/-- A torrent just added. -/
example (now : Nat) (paused sequential network : Bool) (disk : Disk) :
    Fresh sh (Host.new sh now paused sequential network disk) :=
  ⟨orderly_new now paused sequential network disk, rfl, rfl⟩

/-- A daemon that has been started again, over any record. -/
theorem fresh_restart (hfits : cap h.totals = h.totals) (keep : Nat → Bool) :
    Fresh sh (h.restart sh keep) :=
  ⟨orderly_restart keep, engines_restart keep, fits_restart hfits keep⟩

/-- From any start of the daemon, as long as it runs: the lifetime counts are what was loaded and
what each engine since had counted when it was last read, cut off at the end of a `u64`; and they
only go up.  If the daemon is started again when the record says what is in memory, they are loaded
as they were, but for what an `i64` does not hold. -/
theorem lifetime_counts (limits : Limits) {h₀ : Host} (hf : Fresh sh h₀) {actions : List Action}
    (hcrash : ∀ a ∈ actions, a.isCrash = false) :
    let h := Host.run sh limits actions h₀
    h.totals = cap (h₀.totals +
        readings (Machine.logs (Host.step sh limits) Host.reads actions h₀) h.engines.length) ∧
      (∀ pre, pre <+: actions → (Host.run sh limits pre h₀).totals ≤ h.totals) ∧
      ∀ keep, Hostable sh → Sized sh h.hosted → Within h.hosted.verified h.hosted.have_ →
        h.loaded = true → h.record = (h.hosted.resume sh).encode →
        Fresh sh (Host.step sh limits (.crash keep) h) ∧
          (Host.step sh limits (.crash keep) h).totals =
            (min h.totals.1 Resume.I64_MAX, min h.totals.2 Resume.I64_MAX) := by
  intro h
  have htotals : h.totals = _ := (hf.run limits hcrash).totals
  refine ⟨htotals, fun pre hpre => hf.le_run hcrash hpre, ?_⟩
  intro keep hh hsized hwithin hloaded hrecord
  have hstep : Host.step sh limits (.crash keep) h = h.restart sh keep := if_pos hloaded
  have hload : loadOne sh h.record =
      .ok (fromResume (h.hosted.resume sh).saturated h.hosted.have_ h.hosted.verified) := by
    rw [hrecord]
    exact hsized.loadOne_resume hh hwithin
  rw [hstep]
  refine ⟨fresh_restart (by rw [htotals, cap_cap]) keep, ?_⟩
  unfold Host.restart
  simp only [hload]
  rfl

namespace OneByte

open Torrent.OneByte (shared dest)

/-- A peer connects and delivers the piece. -/
def peer : List Action := .engine 0 (.accept (dest 0) ⟨false, false⟩) :: delivers 0 0

/-- A record of a torrent that has received `i64::MAX` bytes. -/
def nearly : Host :=
  { host with
    record := { host.hosted.resume shared with downloaded := Resume.I64_MAX }.encode
    scan := none }

/-- The daemon starts, the piece is downloaded, and the progress is persisted. -/
def oneMore : List Action :=
  .command .attachNetwork :: registry 2 ++ peer ++ .command .persistProgress :: registry 8

/-- The piece is delivered when `stop_live` has read the counts and not raised the stop flag. -/
def late : List Action :=
  scanned ++ peer.take 7 ++ .command (.setPaused true) :: registry 7 ++ peer.drop 7 ++
    registry 2 ++ .engine 0 (.drop 3 0) :: registry 1

/-- After that. -/
def persisted : Host := Host.run shared noLimits oneMore (nearly.restart shared fun _ => true)

/-- After `stop_live` has returned. -/
def stopped : Host := Host.run shared noLimits late host

/-- The counts lose bytes without a crash: a clean restart after a persist takes one that no `i64`
holds, and when `stop_live` has returned, its engine may have counted one that they do not have. -/
theorem lifetime_counts_cut :
    persisted.record = (persisted.hosted.resume shared).encode ∧
      persisted.agenda.isEmpty = true ∧ persisted.totals = (0, 9223372036854775808) ∧
      (Host.step shared noLimits (.crash fun _ => true) persisted).totals =
        (0, 9223372036854775807) ∧
      stopped.hosted.live = none ∧
      stopped.current.map (fun s => s.engine.st.peers.length) = some 0 ∧
      stopped.current.map counted = some (0, 1) ∧ stopped.totals = (0, 0) := by
  decide +kernel

theorem lifetime_counts_persisted :
    persisted.totals = cap ((nearly.restart shared fun _ => true).totals + readings
        (Machine.logs (Host.step shared noLimits) Host.reads oneMore
          (nearly.restart shared fun _ => true)) persisted.engines.length) ∧
      (∀ pre, pre <+: oneMore →
        (Host.run shared noLimits pre (nearly.restart shared fun _ => true)).totals ≤
          persisted.totals) ∧
      ∀ keep, Hostable shared → Sized shared persisted.hosted →
        Within persisted.hosted.verified persisted.hosted.have_ → persisted.loaded = true →
        persisted.record = (persisted.hosted.resume shared).encode →
        Fresh shared (Host.step shared noLimits (.crash keep) persisted) ∧
          (Host.step shared noLimits (.crash keep) persisted).totals =
            (min persisted.totals.1 Resume.I64_MAX, min persisted.totals.2 Resume.I64_MAX) := by
  have hall : oneMore.all (fun a => !a.isCrash) = true := by decide +kernel
  have hup : ∀ a ∈ oneMore, a.isCrash = false := fun a ha => by
    simpa using List.all_eq_true.1 hall a ha
  unfold persisted
  exact lifetime_counts noLimits (fresh_restart rfl fun _ => true) hup

end OneByte

end Clove.Daemon
