import Clove.Daemon.Records

/-!
# Unconfirmed pieces are hashed again

A record may claim pieces that it does not call verified.  `load_one` publishes only what is
verified and hands out a scan, and until the scan is published no engine is started.  The
obligation lives in the difference of the two sets on disk and in the `scanning` flag, and two
things discharge it without a scan: a record written while the scan runs says that nothing is
unconfirmed, and a scan that fails lowers the flag.

If neither happens (`Heeded`), every unconfirmed piece is hashed before the next engine starts.
-/

namespace Clove.Daemon

open Torrent (Shared System)

variable {sh : Shared} {limits : Limits} {h h' : Host}

/-! ## Claims -/

/-- The record claims a piece that it does not call verified. -/
def Claims (record : Bytes) (i : Nat) : Prop :=
  ∃ r, Resume.decode record = .ok r ∧ bitAt r.have_ i = true ∧ bitAt r.verified i = false

/-- Whether the resume file claims a piece that is not published. -/
def Host.unread (h : Host) : Bool :=
  match Resume.decode h.record with
  | .ok r => (List.range (8 * r.have_.length)).any fun i =>
      bitAt r.have_ i && !h.hosted.have_.has i
  | .error _ => false

/-- A piece the file claims is neither forgotten by writing a record while the files are
hashed, nor by a scan that fails. -/
def Heeded : Action → Host → Prop
  | .registry true _, h =>
      match h.agenda with
      | i :: _ => i.isWrite = true → h.hosted.scanning = true → h.unread = false
      | [] => True
  | .command .finishScan, h =>
      match h.scan with
      | some (.done (.error _)) => h.unread = false
      | _ => True
  | _, _ => True

instance (a : Action) (h : Host) : Decidable (Heeded a h) :=
  decidable_of_bool
    (match a with
      | .registry true _ =>
          match h.agenda with
          | i :: _ => !i.isWrite || !h.hosted.scanning || !h.unread
          | [] => true
      | .command .finishScan =>
          match h.scan with
          | some (.done (.error _)) => !h.unread
          | _ => true
      | _ => true) (by
    unfold Heeded
    split
    · split <;> rename_i hagenda
      · cases hwrite : Instr.isWrite _ <;> cases hscanning : h.hosted.scanning <;>
          simp [hagenda, hwrite, hscanning]
      · simp [hagenda]
    · split <;> rename_i hscan <;> simp [hscan]
    · simp)

theorem unread_of_claims {i : Nat} (hclaims : Claims h.record i)
    (hhave : h.hosted.have_.has i = false) : h.unread = true := by
  obtain ⟨r, hdecode, hbit, -⟩ := hclaims
  unfold Host.unread
  rw [hdecode]
  refine List.any_eq_true.2 ⟨i, List.mem_range.2 ?_, by rw [hbit, hhave]; rfl⟩
  by_contra hge
  rw [bitAt_of_byteLen_le (by omega)] at hbit
  cases hbit

/-! ## Hashing -/

/-- Somewhere in the run the piece was hashed, with this result. -/
def Hashed (sh : Shared) (limits : Limits) (h : Host) (acts : List Action) (i : Nat)
    (good : Bool) : Prop :=
  ∃ (before after : List Action) (ok : Bool) (fault : Nat → Bool) (found : Bitfield),
    acts = before ++ .scan ok fault :: after ∧
    (Host.run sh limits before h).scan = some (.hashing i found) ∧
    sh.storage.verifyPiece sh.sha1 (Host.run sh limits before h).files.disk fault i = .ok good

/-- A scan past the piece has hashed it. -/
structure Scanned (sh : Shared) (limits : Limits) (h : Host) (acts : List Action) (i : Nat) :
    Prop where
  hashing : ∀ next found, (Host.run sh limits acts h).scan = some (.hashing next found) →
    found.len = sh.numPieces ∧ (next ≤ i → found.has i = false) ∧
      (i < next → Hashed sh limits h acts i (found.has i))
  done : ∀ found, (Host.run sh limits acts h).scan = some (.done (.ok found)) →
    found.len = sh.numPieces ∧ Hashed sh limits h acts i (found.has i)

theorem run_snoc (acts : List Action) (a : Action) (h : Host) :
    Host.run sh limits (acts ++ [a]) h = Host.step sh limits a (Host.run sh limits acts h) := by
  unfold Host.run
  rw [Machine.run_append]
  rfl

theorem Hashed.snoc {acts : List Action} {i : Nat} {good : Bool}
    (hh : Hashed sh limits h acts i good) (a : Action) :
    Hashed sh limits h (acts ++ [a]) i good := by
  obtain ⟨before, after, ok, fault, found, rfl, hscan, hverify⟩ := hh
  exact ⟨before, after ++ [a], ok, fault, found, by simp, hscan, hverify⟩

theorem Scanned.same {acts : List Action} {i : Nat} (hs : Scanned sh limits h acts i) (a : Action)
    (hscan : (Host.step sh limits a (Host.run sh limits acts h)).scan =
      (Host.run sh limits acts h).scan) : Scanned sh limits h (acts ++ [a]) i := by
  refine ⟨fun next found hnow => ?_, fun found hnow => ?_⟩
  · rw [run_snoc, hscan] at hnow
    obtain ⟨hlen, hnot, hhashed⟩ := hs.hashing next found hnow
    exact ⟨hlen, hnot, fun hlt => (hhashed hlt).snoc a⟩
  · rw [run_snoc, hscan] at hnow
    obtain ⟨hlen, hhashed⟩ := hs.done found hnow
    exact ⟨hlen, hhashed.snoc a⟩

/-- A scan that has not begun to hash. -/
def Unhashed (scan : Option Scan) : Prop := scan = none ∨ scan = some .opening

theorem scanned_of_unhashed {acts : List Action} {i : Nat}
    (hscan : Unhashed (Host.run sh limits acts h).scan) : Scanned sh limits h acts i := by
  refine ⟨fun next found hnow => ?_, fun found hnow => ?_⟩
  · rw [hnow] at hscan
    rcases hscan with hscan | hscan <;> cases hscan
  · rw [hnow] at hscan
    rcases hscan with hscan | hscan <;> cases hscan

/-- A scan that hashes takes the next piece, stops at a read that fails, or is done. -/
theorem stepScan_hashing {next : Nat} {found : Bitfield}
    (hscan : h.scan = some (.hashing next found)) (ok : Bool) (fault : Nat → Bool) :
    (∃ good, next < sh.numPieces ∧
      sh.storage.verifyPiece sh.sha1 h.files.disk fault next = .ok good ∧
      (h.stepScan sh limits ok fault).scan =
        some (.hashing (next + 1) (if good then found.set next else found))) ∨
    (∃ e, (h.stepScan sh limits ok fault).scan = some (.done (.error e))) ∨
    (sh.numPieces ≤ next ∧ (h.stepScan sh limits ok fault).scan = some (.done (.ok found))) := by
  unfold Host.stepScan
  simp only [hscan]
  split
  · rename_i hlt
    split
    · rename_i good hverify
      exact .inl ⟨good, hlt, hverify, rfl⟩
    · exact .inr (.inl ⟨_, rfl⟩)
  · rename_i hge
    exact .inr (.inr ⟨Nat.not_lt.1 hge, rfl⟩)

/-- A scan gets on, and keeps track of what it hashed. -/
theorem Scanned.scan {acts : List Action} {i : Nat} (hs : Scanned sh limits h acts i)
    (hi : i < sh.numPieces) (ok : Bool) (fault : Nat → Bool) :
    Scanned sh limits h (acts ++ [.scan ok fault]) i := by
  cases hscan : (Host.run sh limits acts h).scan with
  | none =>
      refine hs.same _ ?_
      unfold Host.step Host.stepScan
      simp only [hscan]
  | some scan =>
      cases scan with
      | done result =>
          refine hs.same _ ?_
          unfold Host.step Host.stepScan
          simp only [hscan]
      | opening =>
          refine ⟨fun next found hnow => ?_, fun found hnow => ?_⟩
          · rw [run_snoc] at hnow
            unfold Host.step Host.stepScan at hnow
            simp only [hscan] at hnow
            split at hnow
            · cases hnow
              exact ⟨rfl, fun _ => Bitfield.has_empty _ _, fun hlt => absurd hlt (Nat.not_lt_zero i)⟩
            · cases hnow
          · rw [run_snoc] at hnow
            unfold Host.step Host.stepScan at hnow
            simp only [hscan] at hnow
            split at hnow <;> cases hnow
      | hashing next found =>
          obtain ⟨hlen, hnot, hhashed⟩ := hs.hashing next found hscan
          rcases stepScan_hashing hscan ok fault with
            ⟨good, -, hverify, hstep⟩ | ⟨e, hstep⟩ | ⟨hge, hstep⟩
          · refine ⟨fun next' found' hnow => ?_, fun found' hnow => ?_⟩
            · rw [run_snoc, Host.step, hstep] at hnow
              cases hnow
              refine ⟨?_, fun hle => ?_, fun hlt => ?_⟩
              · split
                · exact (Bitfield.len_set _ _).trans hlen
                · exact hlen
              · have hfalse := hnot (by omega)
                split
                · rw [Bitfield.has_set, hfalse, Bool.or_false]
                  simp
                  omega
                · exact hfalse
              · by_cases hthis : i = next
                · subst hthis
                  have hgood : (if good = true then found.set i else found).has i = good := by
                    have hfalse := hnot (Nat.le_refl i)
                    cases good with
                    | true => simp [Bitfield.has_set, hlen, hi]
                    | false => simpa using hfalse
                  rw [hgood]
                  exact ⟨acts, [], ok, fault, found, rfl, hscan, hverify⟩
                · have hsame : (if good = true then found.set next else found).has i =
                      found.has i := by
                    split
                    · simp [Bitfield.has_set, hthis]
                    · rfl
                  rw [hsame]
                  exact (hhashed (by omega)).snoc _
            · rw [run_snoc, Host.step, hstep] at hnow
              cases hnow
          · refine ⟨fun next' found' hnow => ?_, fun found' hnow => ?_⟩ <;>
              rw [run_snoc, Host.step, hstep] at hnow <;> cases hnow
          · refine ⟨fun next' found' hnow => ?_, fun found' hnow => ?_⟩ <;>
              rw [run_snoc, Host.step, hstep] at hnow <;> cases hnow
            exact ⟨hlen, (hhashed (by omega)).snoc _⟩

/-- Somewhere in the run a completed scan was published that had hashed the piece, with this
result. -/
def Confirmed (sh : Shared) (limits : Limits) (h : Host) (acts : List Action) (i : Nat)
    (good : Bool) : Prop :=
  ∃ (before after : List Action) (found : Bitfield),
    acts = before ++ .command .finishScan :: after ∧
    (Host.run sh limits before h).scan = some (.done (.ok found)) ∧ found.has i = good ∧
    Hashed sh limits h before i good

theorem Confirmed.snoc {acts : List Action} {i : Nat} {good : Bool}
    (hc : Confirmed sh limits h acts i good) (a : Action) :
    Confirmed sh limits h (acts ++ [a]) i good := by
  obtain ⟨before, after, found, rfl, hscan, hgood, hhashed⟩ := hc
  exact ⟨before, after ++ [a], found, by simp, hscan, hgood, hhashed⟩

/-! ## The obligation -/

/-- What the file says of a piece: that it is unconfirmed, or what a scan found. -/
def Filed (sh : Shared) (limits : Limits) (h : Host) (acts : List Action) (i : Nat) : Prop :=
  Claims (Host.run sh limits acts h).record i ∨
    ∃ r good, Confirmed sh limits h acts i good ∧
      Resume.decode (Host.run sh limits acts h).record = .ok r ∧ bitAt r.verified i = good

/-- The piece is still to be hashed, or has been. -/
inductive Due (sh : Shared) (limits : Limits) (h : Host) (acts : List Action) (i : Nat) :
    Prop where
  | owed : Claims (Host.run sh limits acts h).record i →
      (Host.run sh limits acts h).hosted.scanning = true →
      (Host.run sh limits acts h).hosted.have_.has i = false → Due sh limits h acts i
  | paid {good : Bool} : Confirmed sh limits h acts i good →
      (Host.run sh limits acts h).hosted.have_.has i = good → Filed sh limits h acts i →
      Due sh limits h acts i

/-- A torrent that no engine has been started for since it was loaded. -/
structure Dormant (sh : Shared) (limits : Limits) (h : Host) (acts : List Action) (i : Nat) :
    Prop where
  orderly : Orderly sh (Host.run sh limits acts h)
  live : (Host.run sh limits acts h).hosted.live = none
  sized : Sized sh (Host.run sh limits acts h).hosted
  same : (Host.run sh limits acts h).hosted.verified = (Host.run sh limits acts h).hosted.have_
  loads : ∃ x, loadOne sh (Host.run sh limits acts h).record = .ok x
  scanned : Scanned sh limits h acts i
  due : Due sh limits h acts i

theorem bitAt_bits (b : Bitfield) (i : Nat) : bitAt b.bits i = b.has i := by
  unfold Bitfield.has
  by_cases hi : i < b.len
  · simp [hi]
  · simp [hi, b.spare i (Nat.le_of_not_lt hi)]

/-- Only plain work is done while no engine has been started. -/
theorem Orderly.plain (ho : Orderly sh h) (hlive : h.hosted.live = none) (hnone : h.engines = []) :
    Plain h.agenda := by
  cases ho.busy with
  | idle hplain => exact hplain
  | saving _ _ hsome =>
      rw [hlive] at hsome
      cases hsome
  | stopping _ _ _ _ hcurrent =>
      rw [Host.current, hnone] at hcurrent
      cases hcurrent

theorem Filed.snoc {acts : List Action} {i : Nat} (hf : Filed sh limits h acts i) (a : Action)
    (hrecord : (Host.step sh limits a (Host.run sh limits acts h)).record =
      (Host.run sh limits acts h).record) : Filed sh limits h (acts ++ [a]) i := by
  unfold Filed
  rw [run_snoc, hrecord]
  rcases hf with hclaims | ⟨r, good, hconfirmed, hdecode, hbit⟩
  · exact .inl hclaims
  · exact .inr ⟨r, good, hconfirmed.snoc a, hdecode, hbit⟩

/-- A step that keeps the file, the pieces and the flag. -/
theorem Due.snoc {acts : List Action} {i : Nat} (hd : Due sh limits h acts i) (a : Action)
    (hrecord : (Host.step sh limits a (Host.run sh limits acts h)).record =
      (Host.run sh limits acts h).record)
    (hhave : (Host.step sh limits a (Host.run sh limits acts h)).hosted.have_ =
      (Host.run sh limits acts h).hosted.have_)
    (hscanning : (Host.run sh limits acts h).hosted.scanning = true →
      (Host.step sh limits a (Host.run sh limits acts h)).hosted.scanning = true) :
    Due sh limits h (acts ++ [a]) i := by
  cases hd with
  | owed hclaims hscan hnot =>
      refine .owed ?_ ?_ ?_
      · rw [run_snoc, hrecord]
        exact hclaims
      · rw [run_snoc]
        exact hscanning hscan
      · rw [run_snoc, hhave]
        exact hnot
  | paid hconfirmed hhas hfiled =>
      refine .paid (hconfirmed.snoc a) ?_ (hfiled.snoc a hrecord)
      rw [run_snoc, hhave]
      exact hhas

/-- A record that claims a piece is loaded with the piece unpublished and the scan due. -/
theorem Claims.load {record : Bytes} {i : Nat} {x : Hosted} (hclaims : Claims record i)
    (hload : loadOne sh record = .ok x) : x.scanning = true ∧ x.have_.has i = false := by
  obtain ⟨r', hdecode', hbit, hnot⟩ := hclaims
  obtain ⟨r, have_, verified, hdecode, -, -, -, hhave, hverified, rfl⟩ := loadOne_ok hload
  obtain rfl : r' = r := Except.ok.inj (hdecode'.symm.trans hdecode)
  rw [← (Bitfield.fromBytes_ok hhave).1, bitAt_bits] at hbit
  rw [← (Bitfield.fromBytes_ok hverified).1, bitAt_bits] at hnot
  refine ⟨decide_eq_true fun heq => ?_, hnot⟩
  rw [heq, hnot] at hbit
  cases hbit

theorem load_has {record : Bytes} {r : Resume} {x : Hosted} (hload : loadOne sh record = .ok x)
    (hdecode : Resume.decode record = .ok r) (i : Nat) : x.have_.has i = bitAt r.verified i := by
  obtain ⟨r', have_, verified, hdecode', -, -, -, -, hverified, rfl⟩ := loadOne_ok hload
  obtain rfl : r = r' := Except.ok.inj (hdecode.symm.trans hdecode')
  rw [← (Bitfield.fromBytes_ok hverified).1, bitAt_bits]
  rfl

/-- What a start from a record that loads leaves. -/
theorem restart_eq {x : Hosted} (keep : Nat → Bool) (hload : loadOne sh h.record = .ok x) :
    h.restart sh keep = { h with
      files := h.files.crash keep
      engines := []
      agenda := []
      network := false
      hosted := x
      scan := if x.scanning then some .opening else none } := by
  unfold Host.restart
  simp only [hload]

/-- Starting again before any engine was started. -/
theorem Dormant.crashed {acts : List Action} {i : Nat} (hd : Dormant sh limits h acts i)
    (keep : Nat → Bool)
    (hstep : Host.step sh limits (.crash keep) (Host.run sh limits acts h) =
      (Host.run sh limits acts h).restart sh keep) :
    Dormant sh limits h (acts ++ [.crash keep]) i := by
  obtain ⟨x, hload⟩ := hd.loads
  obtain ⟨hsized, hsame⟩ := sized_of_load hload
  have hrun : Host.run sh limits (acts ++ [.crash keep]) h = _ :=
    (run_snoc acts (.crash keep) h).trans (hstep.trans (restart_eq keep hload))
  have hrecord : (Host.run sh limits (acts ++ [.crash keep]) h).record =
      (Host.run sh limits acts h).record := by rw [hrun]
  have hhosted : (Host.run sh limits (acts ++ [.crash keep]) h).hosted = x := by rw [hrun]
  refine ⟨?_, ?_, ?_, ?_, ?_, ?_, ?_⟩
  · rw [run_snoc]
    exact hd.orderly.step _
  · rw [hhosted]
    exact loadOne_quiet hload
  · rw [hhosted]
    exact hsized
  · rw [hhosted]
    exact hsame
  · rw [hrecord]
    exact ⟨x, hload⟩
  · refine scanned_of_unhashed ?_
    rw [hrun]
    simp only
    split
    · exact .inr rfl
    · exact .inl rfl
  · have howed : Claims (Host.run sh limits acts h).record i →
        Due sh limits h (acts ++ [.crash keep]) i := by
      intro hclaims
      obtain ⟨hscanning, hnot⟩ := hclaims.load hload
      exact .owed (hrecord ▸ hclaims) (hhosted ▸ hscanning) (hhosted ▸ hnot)
    cases hd.due with
    | owed hclaims _ _ => exact howed hclaims
    | paid _ _ hfiled =>
        rcases hfiled with hclaims | ⟨r, good, hconfirmed, hdecode, hbit⟩
        · exact howed hclaims
        · refine .paid (hconfirmed.snoc _) ?_
            (.inr ⟨r, good, hconfirmed.snoc _, hrecord ▸ hdecode, hbit⟩)
          rw [hhosted, load_has hload hdecode, hbit]

/-- A step that changes little. -/
theorem Dormant.still {acts : List Action} {i : Nat} {a : Action}
    (hd : Dormant sh limits h acts i)
    (hg : Host.step sh limits a (Host.run sh limits acts h) = h')
    (hlive : h'.hosted.live = none) (hranked : Ranked sh h'.hosted.priorities)
    (hhave : h'.hosted.have_ = (Host.run sh limits acts h).hosted.have_)
    (hverified : h'.hosted.verified = (Host.run sh limits acts h).hosted.verified)
    (hrecord : h'.record = (Host.run sh limits acts h).record)
    (hscanned : Scanned sh limits h (acts ++ [a]) i)
    (hdue : Due sh limits h (acts ++ [a]) i) : Dormant sh limits h (acts ++ [a]) i := by
  have hrun : Host.run sh limits (acts ++ [a]) h = h' := (run_snoc acts a h).trans hg
  refine ⟨?_, ?_, ?_, ?_, ?_, hscanned, hdue⟩
  · rw [run_snoc]
    exact hd.orderly.step a
  · rw [hrun]
    exact hlive
  · rw [hrun]
    exact ⟨hhave ▸ hd.sized.have_, hverified ▸ hd.sized.verified, hranked⟩
  · rw [hrun, hhave, hverified]
    exact hd.same
  · rw [hrun, hrecord]
    exact hd.loads

/-- A record is written, which is nothing to forget a claim by. -/
theorem Dormant.wrote {acts : List Action} {i : Nat} {a : Action} {ok : Bool}
    {agenda : List Instr} (hh : Hostable sh) (hd : Dormant sh limits h acts i)
    (hg : Host.step sh limits a (Host.run sh limits acts h) =
      { (Host.run sh limits acts h).writeResume sh ok with agenda := agenda })
    (hheeded : ok = true → (Host.run sh limits acts h).hosted.scanning = true →
      (Host.run sh limits acts h).unread = false) : Dormant sh limits h (acts ++ [a]) i := by
  have hwithin : Within (Host.run sh limits acts h).hosted.verified
      (Host.run sh limits acts h).hosted.have_ := by
    rw [hd.same]
    exact .refl _
  have hload := hd.sized.loadOne_resume hh hwithin
  have hdecode := hd.sized.decode_resume hh hwithin
  have hrun := (run_snoc acts a h).trans hg
  have hscanned : Scanned sh limits h (acts ++ [a]) i := hd.scanned.same a (by rw [hg]; rfl)
  refine ⟨?_, ?_, ?_, ?_, ?_, hscanned, ?_⟩
  · rw [run_snoc]
    exact hd.orderly.step a
  · rw [hrun]
    exact hd.live
  · rw [hrun]
    exact hd.sized
  · rw [hrun]
    exact hd.same
  · rw [hrun]
    cases ok with
    | true => exact ⟨_, hload⟩
    | false => exact hd.loads
  · cases hd.due with
    | owed hclaims hscanning hnot =>
        cases ok with
        | true =>
            have hunread := unread_of_claims hclaims hnot
            rw [hheeded rfl hscanning] at hunread
            cases hunread
        | false =>
            refine .owed ?_ ?_ ?_
            · rw [hrun]
              exact hclaims
            · rw [hrun]
              exact hscanning
            · rw [hrun]
              exact hnot
    | @paid good hconfirmed hhas hfiled =>
        cases ok with
        | true =>
            have hrecord : (Host.run sh limits (acts ++ [a]) h).record =
                (Hosted.resume sh (Host.run sh limits acts h).hosted).encode := by
              rw [hrun]
              rfl
            rw [← hrecord] at hdecode
            refine .paid (hconfirmed.snoc a) ?_ (.inr ⟨_, good, hconfirmed.snoc a, hdecode, ?_⟩)
            · rw [hrun]
              exact hhas
            · rw [← hhas, ← hd.same]
              exact bitAt_bits _ i
        | false =>
            refine .paid (hconfirmed.snoc a) ?_ (hfiled.snoc a (by rw [hg]; rfl))
            rw [hrun]
            exact hhas

/-- A scan is published. -/
theorem Dormant.published {acts : List Action} {i : Nat} {found : Bitfield}
    (hd : Dormant sh limits h acts i)
    (hscan : (Host.run sh limits acts h).scan = some (.done (.ok found)))
    (hg : Host.step sh limits (.command .finishScan) (Host.run sh limits acts h) = h')
    (hlive : h'.hosted.live = none) (hranked : Ranked sh h'.hosted.priorities)
    (hhave : h'.hosted.have_ = found) (hverified : h'.hosted.verified = found)
    (hrecord : h'.record = (Host.run sh limits acts h).record) (hnone : h'.scan = none) :
    Dormant sh limits h (acts ++ [.command .finishScan]) i := by
  have hrun : Host.run sh limits (acts ++ [.command .finishScan]) h = h' :=
    (run_snoc acts _ h).trans hg
  obtain ⟨hlen, hhashed⟩ := hd.scanned.done found hscan
  have hconfirmed : Confirmed sh limits h (acts ++ [.command .finishScan]) i (found.has i) :=
    ⟨acts, [], found, rfl, hscan, rfl, hhashed⟩
  refine ⟨?_, ?_, ?_, ?_, ?_, ?_, ?_⟩
  · rw [run_snoc]
    exact hd.orderly.step _
  · rw [hrun]
    exact hlive
  · rw [hrun]
    exact ⟨hhave ▸ hlen, hverified ▸ hlen, hranked⟩
  · rw [hrun, hhave, hverified]
  · rw [hrun, hrecord]
    exact hd.loads
  · refine scanned_of_unhashed (.inl ?_)
    rw [hrun]
    exact hnone
  · refine .paid hconfirmed ?_ ?_
    · rw [hrun, hhave]
    · cases hd.due with
      | owed hclaims _ _ =>
          refine .inl ?_
          rw [hrun, hrecord]
          exact hclaims
      | paid _ _ hfiled => exact hfiled.snoc _ (by rw [hg]; exact hrecord)

/-- A step that does not start an engine. -/
theorem Dormant.snoc {acts : List Action} {i : Nat} {a : Action} (hh : Hostable sh)
    (hi : i < sh.numPieces) (hd : Dormant sh limits h acts i)
    (hheeded : Heeded a (Host.run sh limits acts h))
    (hnone : (Host.run sh limits acts h).engines = [])
    (hnone' : (Host.run sh limits (acts ++ [a]) h).engines = []) :
    Dormant sh limits h (acts ++ [a]) i := by
  have ho := hd.orderly
  have hplain := ho.plain hd.live hnone
  have hmove := step_move limits ho a
  rw [run_snoc] at hnone'
  generalize hg : Host.step sh limits a (Host.run sh limits acts h) = h' at hmove
  rw [hg] at hnone'
  have hquiet : ¬ (Host.run sh limits acts h).hosted.live.isSome := by
    rw [hd.live]
    simp
  have hcurrent : ∀ s, (Host.run sh limits acts h).current ≠ some s := by
    intro s hs
    rw [Host.current, hnone] at hs
    cases hs
  cases hmove with
  | noted _ _ hkept =>
      refine hd.still hg (hkept.live.trans hd.live) ?_ hkept.have_ hkept.verified hkept.record
        (hd.scanned.same a (by rw [hg]; exact hkept.scan))
        (hd.due.snoc a (by rw [hg]; exact hkept.record) (by rw [hg]; exact hkept.have_)
          (by rw [hg, hkept.scanning]; exact id))
      rcases hkept.priorities with hsame | hranked
      · rw [hsame]
        exact hd.sized.ranked
      · exact hranked
  | refreshed _ _ hlive _ => exact absurd hlive hquiet
  | wrote _ _ hagenda hwrite =>
      refine hd.wrote hh hg fun hok hscanning => ?_
      subst hok
      unfold Heeded at hheeded
      simp only [hagenda] at hheeded
      exact hheeded hwrite hscanning
  | tuned _ _ hlive _ _ => exact absurd hlive hquiet
  | started _ _ _ _ _ => exact absurd hnone' (by simp)
  | taken _ _ hlive => exact absurd (by rw [hlive]; rfl) hquiet
  | persists _ _ hlive => exact absurd hlive hquiet
  | synced hagenda => exact absurd hplain (not_plain rfl hagenda)
  | saved hagenda _ _ _ => exact absurd hplain (not_plain rfl hagenda)
  | unrouted _ _ _ hs _ => exact absurd hs (hcurrent _)
  | flushes hagenda => exact absurd hplain (not_plain rfl hagenda)
  | flushed hagenda _ _ => exact absurd hplain (not_plain rfl hagenda)
  | snapped hagenda _ _ => exact absurd hplain (not_plain rfl hagenda)
  | raised _ _ _ hs _ => exact absurd hs (hcurrent _)
  | listed _ _ _ hs _ => exact absurd hs (hcurrent _)
  | ended _ _ _ hs _ => exact absurd hs (hcurrent _)
  | stayed =>
      exact hd.still hg hd.live hd.sized.ranked rfl rfl rfl (hd.scanned.same a (by rw [hg]))
        (hd.due.snoc a (by rw [hg]) (by rw [hg]) (by rw [hg]; exact id))
  | began _ _ =>
      refine hd.still hg hd.live hd.sized.ranked rfl rfl rfl (scanned_of_unhashed (.inr ?_))
        (hd.due.snoc a (by rw [hg]) (by rw [hg]) (by rw [hg]; exact fun _ => rfl))
      rw [run_snoc, hg]
  | failed _ hscanning hscan =>
      refine hd.still hg hd.live hd.sized.ranked rfl rfl rfl (scanned_of_unhashed (.inl ?_)) ?_
      · rw [run_snoc, hg]
      · cases hd.due with
        | owed hclaims _ hnot =>
            have hunread := unread_of_claims hclaims hnot
            unfold Heeded at hheeded
            simp only [hscan] at hheeded
            rw [hheeded] at hunread
            cases hunread
        | paid hconfirmed hhas hfiled =>
            refine .paid (hconfirmed.snoc _) ?_ (hfiled.snoc _ (by rw [hg]))
            rw [run_snoc, hg]
            exact hhas
  | published _ hscan =>
      exact hd.published hscan hg hd.live hd.sized.ranked rfl rfl rfl rfl
  | scanned =>
      obtain ⟨files, scan, heq, -⟩ := stepScan_eq sh limits (Host.run sh limits acts h) _ _
      rw [heq] at hg
      exact hd.still hg hd.live hd.sized.ranked rfl rfl rfl (hd.scanned.scan hi _ _)
        (hd.due.snoc _ (by rw [hg]) (by rw [hg]) (by rw [hg]; exact id))
  | stepped _ hs =>
      rw [hnone] at hs
      cases hs
  | crashed => exact hd.crashed _ hg

/-! ## The result -/

/-- No engine is started in the run. -/
def Unstarted (sh : Shared) (limits : Limits) (h : Host) (acts : List Action) : Prop :=
  ∀ n, (Host.run sh limits (acts.take n) h).engines = []

instance (h : Host) (acts : List Action) : Decidable (Unstarted sh limits h acts) :=
  decidable_of_iff
    (∀ n ≤ acts.length, (Host.run sh limits (acts.take n) h).engines.isEmpty = true) (by
      refine ⟨fun hall n => ?_, fun hall n _ => by rw [hall n]; rfl⟩
      rcases Nat.le_total n acts.length with hle | hge
      · exact List.isEmpty_iff.1 (hall n hle)
      · rw [List.take_of_length_le hge]
        exact List.isEmpty_iff.1 (List.take_length (l := acts) ▸ hall acts.length (Nat.le_refl _)))

/-- If `a` starts the first engine after `acts`, a completed scan has hashed the piece before,
and the engine begins with the piece exactly if it was found good. -/
def HashedFirst (sh : Shared) (limits : Limits) (h : Host) (acts : List Action) (a : Action)
    (i : Nat) : Prop :=
  Unstarted sh limits h acts →
    ∀ s, (Host.step sh limits a (Host.run sh limits acts h)).engines = [s] →
      ∃ good, Confirmed sh limits h acts i good ∧ s.engine.st.picker.has i = good

/-- Loading a record that claims the piece. -/
theorem Claims.dormant {i : Nat} {x : Hosted} (keep : Nat → Bool)
    (hclaims : Claims h.record i) (hload : loadOne sh h.record = .ok x) :
    Dormant sh limits (h.restart sh keep) [] i := by
  obtain ⟨hsized, hsame⟩ := sized_of_load hload
  obtain ⟨hscanning, hnot⟩ := hclaims.load hload
  have hrun : Host.run sh limits [] (h.restart sh keep) = h.restart sh keep := rfl
  rw [restart_eq keep hload] at hrun ⊢
  refine ⟨?_, loadOne_quiet hload, hsized, hsame, ⟨x, hload⟩, ?_, .owed hclaims hscanning hnot⟩
  · rw [hrun, ← restart_eq keep hload]
    exact orderly_restart keep
  · refine scanned_of_unhashed (.inr ?_)
    rw [hrun]
    exact if_pos hscanning

theorem Dormant.run {i : Nat} (hh : Hostable sh) (hi : i < sh.numPieces) {acts : List Action}
    (hstart : Dormant sh limits h [] i)
    (hheeded : Machine.Along (Host.step sh limits) Heeded acts h)
    (hnone : Unstarted sh limits h acts) : Dormant sh limits h acts i := by
  induction acts using List.reverseRecOn with
  | nil => exact hstart
  | append_singleton acts a ih =>
      obtain ⟨hbefore, hnow⟩ := Machine.along_snoc.1 hheeded
      have htake : ∀ n, n ≤ acts.length → (acts ++ [a]).take n = acts.take n :=
        fun n hn => List.take_append_of_le_length hn
      have hacts : (Host.run sh limits acts h).engines = [] := by
        have := hnone acts.length
        rwa [htake _ (Nat.le_refl _), List.take_length] at this
      have hunstarted : Unstarted sh limits h acts := by
        intro n
        rcases Nat.le_total n acts.length with hle | hge
        · have := hnone n
          rwa [htake n hle] at this
        · rw [List.take_of_length_le hge]
          exact hacts
      have hall : (Host.run sh limits (acts ++ [a]) h).engines = [] := by
        have := hnone (acts ++ [a]).length
        rwa [List.take_length] at this
      exact (ih hbefore hunstarted).snoc hh hi hnow hacts hall

/-- The engine that is started holds what is published. -/
theorem Dormant.started {i : Nat} {acts : List Action} {a : Action} {s : System}
    (hi : i < sh.numPieces) (hd : Dormant sh limits h acts i)
    (hnone : (Host.run sh limits acts h).engines = [])
    (hstart : (Host.step sh limits a (Host.run sh limits acts h)).engines = [s]) :
    (Host.run sh limits acts h).hosted.scanning = false ∧
      s.engine.st.picker.has i = (Host.run sh limits acts h).hosted.have_.has i := by
  have hmove := step_move limits hd.orderly a
  generalize Host.step sh limits a (Host.run sh limits acts h) = h' at hmove hstart
  have hsame : h'.engines ≠ (Host.run sh limits acts h).engines := by
    rw [hstart, hnone]
    simp
  have hquiet : ¬ (Host.run sh limits acts h).hosted.live.isSome := by
    rw [hd.live]
    simp
  have hcurrent : ∀ s, (Host.run sh limits acts h).current ≠ some s := by
    intro s hs
    rw [Host.current, hnone] at hs
    cases hs
  cases hmove with
  | @started _ now _ l _ _ _ _ hscanning _ =>
      refine ⟨hscanning, ?_⟩
      rw [hnone, List.nil_append] at hstart
      obtain rfl := List.singleton_inj.1 hstart
      refine Bool.eq_iff_iff.2 (Iff.trans ?_ (Iff.intro And.right fun hhas => ⟨hi, hhas⟩))
      exact Torrent.has_new
  | noted _ _ hkept => exact absurd hkept.engines hsame
  | tuned _ _ hlive _ _ => exact absurd hlive hquiet
  | saved _ _ _ hkept =>
      rcases hkept with hkept | ⟨-, hkept⟩
      · exact absurd hkept.engines hsame
      · exact absurd hkept.engines hsame
  | flushed _ _ hkept =>
      rcases hkept with hkept | ⟨-, hkept⟩
      · exact absurd hkept.engines hsame
      · exact absurd hkept.engines hsame
  | snapped _ _ hkept => exact absurd hkept.engines hsame
  | refreshed _ _ _ hkept => exact absurd hkept.engines hsame
  | unrouted _ _ _ hs _ => exact absurd hs (hcurrent _)
  | raised _ _ _ hs _ => exact absurd hs (hcurrent _)
  | listed _ _ _ hs _ => exact absurd hs (hcurrent _)
  | scanned =>
      obtain ⟨files, scan, heq, -⟩ := stepScan_eq sh limits (Host.run sh limits acts h) _ _
      rw [heq] at hsame
      exact absurd rfl hsame
  | stepped _ hs =>
      rw [hnone] at hs
      cases hs
  | crashed => exact absurd ((engines_restart _).trans hnone.symm) hsame
  | _ => exact absurd rfl hsame

/-- If no claim of the file is forgotten, every piece that a loaded record claims and does not
call verified is hashed by a completed scan before an engine is started, in this process or a
later one. -/
theorem unconfirmed_pieces_rehashed (hh : Hostable sh) (h : Host) (keep : Nat → Bool)
    (acts : List Action) (a : Action) (i : Nat) (x : Hosted)
    (hload : loadOne sh h.record = .ok x) (hclaims : Claims h.record i)
    (hheeded : Machine.Along (Host.step sh limits) Heeded acts (h.restart sh keep)) :
    HashedFirst sh limits (h.restart sh keep) acts a i := by
  intro hunstarted s hstart
  have hi : i < sh.numPieces := by
    obtain ⟨r', hdecode', hbit, -⟩ := hclaims
    obtain ⟨r, have_, verified, hdecode, -, -, -, hhave, -, -⟩ := loadOne_ok hload
    obtain rfl : r' = r := Except.ok.inj (hdecode'.symm.trans hdecode)
    rw [← (Bitfield.fromBytes_ok hhave).1, bitAt_bits] at hbit
    exact (Bitfield.fromBytes_ok hhave).2 ▸ Bitfield.lt_of_has hbit
  have hd := (hclaims.dormant keep hload).run hh hi hheeded hunstarted
  have hnone : (Host.run sh limits acts (h.restart sh keep)).engines = [] := by
    have := hunstarted acts.length
    rwa [List.take_length] at this
  obtain ⟨hscanning, hhas⟩ := hd.started hi hnone hstart
  cases hd.due with
  | owed _ hscan _ =>
      rw [hscanning] at hscan
      cases hscan
  | paid hconfirmed hgood _ => exact ⟨_, hconfirmed, hhas.trans hgood⟩

namespace OneByte

open Torrent.OneByte (shared)

/-- The piece is downloaded and saved, and its file cannot be synced: the record claims a piece
that it does not call verified. -/
def claimed : List Action :=
  downloaded ++ .command .persistProgress :: registry 5 ++ .registry false 0 :: registry 1

/-- All writes survive. -/
def keepAll : Nat → Bool := fun _ => true

/-- The daemon is back up, and before the scan is done a priority is set and the daemon dies
again.  When it is up once more the network is attached. -/
def forgotten : List Action :=
  .command (.setPriorities [1]) :: registry 2 ++ [.crash keepAll, .command .attachNetwork] ++
    registry 1

def Action.isFinish : Action → Bool
  | .command .finishScan => true
  | _ => false

theorem claims_claimed : Claims (Host.run shared noLimits claimed host).record 0 := by
  have hbits : (match Resume.decode (Host.run shared noLimits claimed host).record with
    | .ok r => bitAt r.have_ 0 && !bitAt r.verified 0
    | .error _ => false) = true := by decide +kernel
  split at hbits
  · rename_i r hdecode
    rw [Bool.and_eq_true, Bool.not_eq_true'] at hbits
    exact ⟨r, hdecode, hbits⟩
  · cases hbits

theorem loads_claimed : ∃ x, loadOne shared (Host.run shared noLimits claimed host).record =
    .ok x := by
  have hloads : (loadOne shared (Host.run shared noLimits claimed host).record).toBool = true := by
    decide +kernel
  cases hload : loadOne shared (Host.run shared noLimits claimed host).record with
  | ok x => exact ⟨x, rfl⟩
  | error e =>
      rw [hload] at hloads
      cases hloads

/-- An engine is started and the piece the file claimed was never hashed. -/
theorem unconfirmed_piece_forgotten :
    let h := Host.run shared noLimits claimed host
    Claims h.record 0 ∧ (∃ x, loadOne shared h.record = .ok x) ∧
      ¬ HashedFirst shared noLimits (h.restart shared keepAll) forgotten (.registry true 0) 0 := by
  refine ⟨claims_claimed, loads_claimed, fun hfirst => ?_⟩
  have hstarted : (Host.step shared noLimits (.registry true 0)
      (Host.run shared noLimits forgotten
        ((Host.run shared noLimits claimed host).restart shared keepAll))).engines.length = 1 := by
    decide +kernel
  obtain ⟨s, hs⟩ := List.length_eq_one_iff.1 hstarted
  obtain ⟨good, ⟨before, after, found, hacts, -⟩, -⟩ := hfirst (by decide +kernel) s hs
  have hmem : forgotten.any Action.isFinish = true := by
    rw [hacts, List.any_append]
    simp [Action.isFinish]
  revert hmem
  decide

/-- The scan is done and published before the network is attached. -/
def rescanned : List Action :=
  List.replicate 3 (.scan true fun _ => false) ++ .command .finishScan :: registry 2 ++
    .command .attachNetwork :: registry 1

theorem unconfirmed_piece_rehashed :
    HashedFirst shared noLimits
      ((Host.run shared noLimits claimed host).restart shared keepAll) rescanned
      (.registry true 0) 0 := by
  obtain ⟨x, hload⟩ := loads_claimed
  exact unconfirmed_pieces_rehashed ⟨by decide, by decide, by decide, by decide⟩ _ keepAll _ _ 0 x
    hload claims_claimed (by decide +kernel)

end OneByte

end Clove.Daemon
