import Clove.Beneath

/-!
# A walk that nobody disturbs

What `open_beneath` and `remove_beneath` come to while nobody else is at work.  A file is opened
exactly if each component but the last is a directory or missing, and the last a file or missing;
what was there stays as it was, and what is new is on the way to the file (`open_exact`).  A file is
removed, or was not there, exactly if nothing else is in its place, and everything else stays
(`remove_exact`).
-/

namespace Clove.Beneath

open FileTree Interleaving
open Utf8 (ascii)

variable {w : FsWorld} {d i : Nat} {c : Bytes} {t t' : Tree Bytes Bytes}

/-! ## One component -/

theorem step_of_entry (h : t.entry d c = some i) : t.step d (.down c) = .ok i :=
  Tree.step_down_eq_ok.2 h

theorem step_of_missing (hd : t.isDir d = true) (h : t.entry d c = none) :
    t.step d (.down c) = .error .noent := by
  rw [Tree.step_down hd, h]
  rfl

theorem openDir_of_dir {m : Moment} (h : t.entry d c = some i) (hi : t.isDir i = true) :
    t.openDir d (.name c) m = .ok (i, .opened d (some (.down c)) i, t) := by
  unfold Tree.isDir at hi
  cases hnode : t.nodes i with
  | none => simp [hnode] at hi
  | some node => cases node with
    | dir parent entries =>
        simp [Tree.openDir, Tree.split_name, Except.bind, step_of_entry h, hnode]
    | file data => simp [hnode, Node.isDir] at hi
    | link target => simp [hnode, Node.isDir] at hi

theorem openDir_of_other {m : Moment} (hm : m.refusal = .loop ∨ m.refusal = .notdir)
    (h : t.entry d c = some i) (hi : t.isDir i = false) :
    ∃ e, t.openDir d (.name c) m = .error e ∧ (e = .loop ∨ e = .notdir) := by
  unfold Tree.isDir at hi
  unfold Tree.openDir
  rw [Tree.split_name]
  cases hnode : t.nodes i with
  | none => exact ⟨.notdir, by simp [Except.bind, step_of_entry h, hnode], .inr rfl⟩
  | some node => cases node with
    | dir parent entries => simp [hnode, Node.isDir] at hi
    | file data => exact ⟨.notdir, by simp [Except.bind, step_of_entry h, hnode], .inr rfl⟩
    | link target => exact ⟨m.refusal, by simp [Except.bind, step_of_entry h, hnode], hm⟩

theorem refused_of {e : Errno} (h : e = .loop ∨ e = .notdir) :
    ∃ text, refused c e = .invalidInput text := by
  rcases h with rfl | rfl
  · exact ⟨_, rfl⟩
  · exact ⟨_, rfl⟩

/-! ## One component on the way down -/

/-- What is there is not made. -/
theorem enter_of_entry (create : Bool) (hw : Quiet w) (hc : checkComponent c = .ok ())
    (h : w.state.entry d c = some i) : ∃ w', Quiet w' ∧ w'.state = w.state ∧
      enter create d c w = (onPath (Tree.openDir d) c).mapError (refused c) w' := by
  cases create with
  | false => exact ⟨w, hw, rfl, rfl⟩
  | true =>
      have hmkdir : w.state.mkdirat d (.name c) w.next = .error .exist := by
        simp [Tree.mkdirat, Tree.split_name, Except.bind, step_of_entry h]
      have hmake : make d c w = (.ok (), w.logged ⟨w.state, .looked, w.state⟩) := by
        unfold make
        rw [onPath_component hc, Prog.outcome_bind, syscall_of_error hw hmkdir]
        rfl
      exact ⟨_, hw.looked .looked, rfl, Prog.bind_ok hmake _⟩

/-- A directory that is there is entered. -/
theorem enter_there (create : Bool) (hw : Quiet w) (hc : checkComponent c = .ok ())
    (h : w.state.entry d c = some i) (hi : w.state.isDir i = true) :
    ∃ w', enter create d c w = (.ok i, w') ∧ Quiet w' ∧ w'.state = w.state := by
  obtain ⟨w₁, hw₁, hsame, henter⟩ := enter_of_entry create hw hc h
  rw [← hsame] at h hi
  refine ⟨_, ?_, hw₁.looked (.opened d (some (.down c)) i), hsame⟩
  rw [henter, onPath_component hc, Prog.mapError, syscall_of_ok hw₁ (openDir_of_dir h hi)]
  rfl

/-- What is no directory is not. -/
theorem enter_other (create : Bool) (hw : Quiet w) (hc : checkComponent c = .ok ())
    (h : w.state.entry d c = some i) (hi : w.state.isDir i = false) :
    ∃ text w', enter create d c w = (.error (.invalidInput text), w') ∧ Quiet w' ∧
      w'.state = w.state := by
  obtain ⟨w₁, hw₁, hsame, henter⟩ := enter_of_entry create hw hc h
  rw [← hsame] at h hi
  obtain ⟨e, he, hrefused⟩ := openDir_of_other (hw₁.refuses _ le_rfl) h hi
  obtain ⟨text, htext⟩ := refused_of (c := c) hrefused
  refine ⟨text, _, ?_, hw₁.looked .looked, hsame⟩
  rw [henter, onPath_component hc, Prog.mapError, syscall_of_error hw₁ he]
  exact Prod.ext (congrArg Except.error htext) rfl

/-- Unless it is not to be made. -/
theorem enter_absent (hw : Quiet w) (hc : checkComponent c = .ok ()) (hd : w.state.isDir d = true)
    (h : w.state.entry d c = none) :
    ∃ w', enter false d c w = (.error (.os .noent), w') ∧ Quiet w' ∧ w'.state = w.state := by
  have hopen : w.state.openDir d (.name c) w.next = .error .noent := by
    simp [Tree.openDir, Tree.split_name, Except.bind, step_of_missing hd h]
  have henter : enter false d c w = (onPath (Tree.openDir d) c).mapError (refused c) w := rfl
  refine ⟨_, ?_, hw.looked .looked, rfl⟩
  rw [henter, onPath_component hc, Prog.mapError, syscall_of_error hw hopen]
  rfl

/-! ## What is clear, and what grows -/

/-- Names lead through directories, as far as they lead, and nothing is in the place of the last but
what may be. -/
def clear (t : Tree Bytes Bytes) (may : Nat → Bool) : Nat → List Bytes → Bool
  | _, [] => false
  | d, [last] => (t.entry d last).all may
  | d, n :: m :: ns => (t.entry d n).all fun i => t.isDir i && clear t may i (m :: ns)

/-- What was there is there, and what is new is on the way along a path. -/
structure Grows (t t' : Tree Bytes Bytes) (top : Nat) (path : List Bytes) : Prop where
  kept : ∀ d n i, t.entry d n = some i → t'.entry d n = some i
  same : ∀ j node, t.nodes j = some node → node.isDir = false → t'.nodes j = some node
  new : ∀ d n i, t'.entry d n = some i →
    t.entry d n = some i ∨ ∃ ns, ns ++ [n] <+: path ∧ t'.locate top ns = some d

theorem Grows.refl (t : Tree Bytes Bytes) (top : Nat) (path : List Bytes) : Grows t t top path :=
  ⟨fun _ _ _ h => h, fun _ _ h _ => h, fun _ _ _ h => .inl h⟩

theorem locate_append {t : Tree Bytes Bytes} {d : Nat} {ns ms : List Bytes} :
    t.locate d (ns ++ ms) = (t.locate d ns).bind fun i => t.locate i ms := by
  induction ns generalizing d with
  | nil => rfl
  | cons n ns ih =>
      rw [List.cons_append, Tree.locate, Tree.locate, Option.bind_assoc]
      exact congrArg _ (funext fun i => ih)

theorem locate_mono {t t' : Tree Bytes Bytes}
    (h : ∀ d n i, t.entry d n = some i → t'.entry d n = some i) {ns : List Bytes} {d i : Nat}
    (hi : t.locate d ns = some i) : t'.locate d ns = some i := by
  induction ns generalizing d with
  | nil => exact hi
  | cons n ns ih =>
      rw [Tree.locate] at hi ⊢
      obtain ⟨j, hj, hi⟩ := Option.bind_eq_some_iff.1 hi
      rw [h d n j hj, Option.bind_some]
      exact ih hi

/-- Something is added on the way along the path. -/
theorem Grows.add {t t' : Tree Bytes Bytes} {top d i : Nat} {path ns : List Bytes} {n : Bytes}
    {node : Node Bytes Bytes} (h : Grows t t' top path) (hd : t'.isDir d = true)
    (hmissing : t'.entry d n = none) (hfree : t'.nodes i = none)
    (hempty : ∀ parent entries, node = .dir parent entries → ∀ m, entries m = none)
    (hpath : ns ++ [n] <+: path) (hns : t'.locate top ns = some d) :
    Grows t (t'.add d n i node) top path := by
  have hkept : ∀ c m j, t'.entry c m = some j → (t'.add d n i node).entry c m = some j := by
    intro c m j hj
    refine (Tree.entry_add hfree hempty ?_).trans hj
    by_contra hsame
    rw [not_or, not_not, not_not] at hsame
    obtain ⟨rfl, rfl⟩ := hsame
    rw [hmissing] at hj
    cases hj
  refine ⟨fun c m j hj => hkept c m j (h.kept c m j hj), fun j old hj hold => ?_,
    fun c m j hj => ?_⟩
  · have hj' := h.same j old hj hold
    refine (Tree.nodes_add ?_ ?_).trans hj'
    · rintro rfl
      simp [Tree.isDir, hj', hold] at hd
    · rintro rfl
      rw [hfree] at hj'
      cases hj'
  · by_cases hsame : c = d ∧ m = n
    · obtain ⟨rfl, rfl⟩ := hsame
      exact .inr ⟨ns, hpath, locate_mono hkept hns⟩
    · rw [Tree.entry_add hfree hempty (not_and_or.1 hsame)] at hj
      rcases h.new c m j hj with hold | ⟨ms, hms, hwhere⟩
      · exact .inl hold
      · exact .inr ⟨ms, hms, locate_mono hkept hwhere⟩

theorem clear_cons {t : Tree Bytes Bytes} {may : Nat → Bool} {d : Nat} {n : Bytes}
    {ns : List Bytes} (hne : ns ≠ []) :
    clear t may d (n :: ns) = (t.entry d n).all fun i => t.isDir i && clear t may i ns := by
  cases ns with
  | nil => exact absurd rfl hne
  | cons m ns => rfl

/-! ## Opening -/

section

variable {cwd top : Nat} {root : Path Bytes} {comps : List Bytes} {create : Bool} {last : Bytes}
  {w₁ w₂ : FsWorld}

/-- The root that is opened is a directory. -/
theorem isDir_of_openRoot (h : openRoot cwd root create w = (.ok top, w₁)) :
    w₁.state.isDir top = true := by
  obtain ⟨w₀, h⟩ : ∃ w₀, ((syscall (Tree.followDir cwd root)).mapError .os : Fs Error Nat) w₀ =
      (.ok top, w₁) := by
    cases create with
    | false => exact ⟨w, h⟩
    | true =>
        cases hmade : ((createDirAll cwd root.absolute root.steps.reverse).mapError Error.os) w with
        | mk r w₀ => cases r with
          | ok u => exact ⟨w₀, (Prog.bind_ok hmade _).symm.trans h⟩
          | error e =>
              have hfailed : openRoot cwd root true w = (.error e, w₀) := Prog.bind_error hmade _
              rw [hfailed] at h
              cases congrArg Prod.fst h
  obtain ⟨call, hlog, hcase⟩ := syscall_cases (Tree.followDir cwd root) w₀
  have hworld : w₁ = w₀.logged call := (congrArg Prod.snd h).symm.trans hlog
  rcases hcase with ⟨e, herror, -, -⟩ | ⟨m, i, hok, hcall⟩
  · have hresult := congrArg Prod.fst h
    simp [Prog.mapError, herror, Except.mapError] at hresult
  · have hresult := congrArg Prod.fst h
    simp only [Prog.mapError, hok, Except.mapError, Except.ok.injEq] at hresult
    subst hresult
    obtain ⟨j, -, hdir⟩ := Except.ok_of_bind hcall
    split at hdir
    · rename_i hj
      simp only [Except.ok.injEq, Prod.mk.injEq] at hdir
      obtain ⟨rfl, -, hsame⟩ := hdir
      rw [hworld]
      show call.after.isDir j = true
      rw [← hsame]
      exact hj
    · cases hdir

theorem walk_of_ok (husable : Usable comps) (hlast : comps.getLast? = some last)
    (hroot : openRoot cwd root create w = (.ok top, w₁))
    (h : comps.dropLast.foldlM (enter create) top w₁ = (.ok d, w₂)) :
    walkBeneath cwd root comps create w = (.ok (d, last), w₂) := by
  have hlift : (Prog.lift (checkAll comps) : Fs Error Unit) w = (.ok (), w) := by
    rw [checkAll_iff.2 husable.2]
    rfl
  unfold walkBeneath
  simp only [hlast]
  rw [Prog.bind_ok hlift, Prog.bind_ok hroot, Prog.bind_ok h]
  rfl

theorem walk_of_error (husable : Usable comps) (hroot : openRoot cwd root create w = (.ok top, w₁))
    {e : Error} (h : comps.dropLast.foldlM (enter create) top w₁ = (.error e, w₂)) :
    walkBeneath cwd root comps create w = (.error e, w₂) := by
  have hlift : (Prog.lift (checkAll comps) : Fs Error Unit) w = (.ok (), w) := by
    rw [checkAll_iff.2 husable.2]
    rfl
  unfold walkBeneath
  cases hlast : comps.getLast? with
  | none => exact absurd (List.getLast?_eq_none_iff.1 hlast) husable.1
  | some last =>
      simp only
      rw [Prog.bind_ok hlift, Prog.bind_ok hroot, Prog.bind_error h]

/-- A file system that holds the root alone, and nobody else at work on it. -/
def bare : FsWorld where
  state := ⟨0, fun i => if i = 0 then some (.dir 0 fun _ => none) else none⟩
  others := fun _ => id
  moments := fun k => ⟨none, k + 1, .loop⟩
  log := []

/-- The root of it has been opened. -/
def bareOpened : FsWorld := bare.logged ⟨bare.state, .opened 0 none 0, bare.state⟩

theorem quiet_bareOpened : Quiet bareOpened :=
  ⟨fun _ _ => rfl, fun _ _ => rfl, fun k _ => rfl,
    fun k k' _ hlt => by simp [bareOpened, bare, World.logged]; omega, fun _ _ => .inl rfl⟩

/-- The way down to a file that is to go. -/
theorem look_alone {comps : List Bytes} {last : Bytes} {may : Nat → Bool}
    (hcomps : ∀ c ∈ comps, checkComponent c = .ok ()) (hw : Quiet w) (hd : w.state.isDir d = true) :
    ∃ w', Quiet w' ∧ w'.state = w.state ∧
      ((∃ i, comps.foldlM (enter false) d w = (.ok i, w') ∧ w.state.isDir i = true ∧
          w.state.locate d comps = some i ∧
          clear w.state may d (comps ++ [last]) = (w.state.entry i last).all may) ∨
        (comps.foldlM (enter false) d w = (.error (.os .noent), w') ∧
          w.state.locate d comps = none ∧ clear w.state may d (comps ++ [last]) = true) ∨
        ∃ text, comps.foldlM (enter false) d w = (.error (.invalidInput text), w') ∧
          clear w.state may d (comps ++ [last]) = false) := by
  induction comps generalizing d w with
  | nil => exact ⟨w, hw, rfl, .inl ⟨d, rfl, hd, rfl, rfl⟩⟩
  | cons c comps ih =>
      have hc := hcomps c List.mem_cons_self
      have hrest : ∀ c' ∈ comps, checkComponent c' = .ok () :=
        fun c' hc' => hcomps c' (List.mem_cons_of_mem _ hc')
      rw [List.foldlM_cons, List.cons_append, clear_cons (by simp), Tree.locate]
      cases hentry : w.state.entry d c with
      | none =>
          obtain ⟨w₁, henter, hw₁, htree⟩ := enter_absent hw hc hd hentry
          rw [Prog.bind_error henter]
          exact ⟨w₁, hw₁, htree, .inr (.inl ⟨rfl, rfl, rfl⟩)⟩
      | some i =>
          cases hi : w.state.isDir i with
          | true =>
              obtain ⟨w₁, henter, hw₁, htree⟩ := enter_there false hw hc hentry hi
              rw [Prog.bind_ok henter]
              obtain ⟨w', hw', htree', hcase⟩ := ih hrest hw₁ (htree.symm ▸ hi)
              rw [htree] at hcase htree'
              exact ⟨w', hw', htree', by simpa [hi] using hcase⟩
          | false =>
              obtain ⟨text, w₁, henter, hw₁, htree⟩ := enter_other false hw hc hentry hi
              rw [Prog.bind_error henter]
              exact ⟨w₁, hw₁, htree, .inr (.inr ⟨text, rfl, by simp [hi]⟩)⟩

/-- The name goes from the directory that holds it, unless it names a directory. -/
theorem unlink_alone (hw : Quiet w) (hc : checkComponent c = .ok ()) (hd : w.state.isDir d = true) :
    ((unlink d c w).1.isOk = (w.state.entry d c).all fun i => !w.state.isDir i) ∧
      (unlink d c w).2.state =
        if ((w.state.entry d c).any fun i => !w.state.isDir i) then w.state.drop d c else w.state := by
  unfold unlink
  rw [onPath_component hc, Prog.outcome_bind]
  cases hentry : w.state.entry d c with
  | none =>
      have hcall : w.state.unlinkat d (.name c) w.next = .error .noent := by
        simp [Tree.unlinkat, Tree.split_name, Except.bind, step_of_missing hd hentry]
      rw [syscall_of_error hw hcall]
      exact ⟨rfl, rfl⟩
  | some i =>
      cases hi : w.state.isDir i with
      | true =>
          have hcall : w.state.unlinkat d (.name c) w.next = .error .isdir := by
            simp [Tree.unlinkat, Tree.split_name, Except.bind, step_of_entry hentry, hi]
          rw [syscall_of_error hw hcall]
          exact ⟨by simp [hi]; rfl, by simp [hi]; rfl⟩
      | false =>
          have hcall : w.state.unlinkat d (.name c) w.next =
              .ok ((), .removed d c i, w.state.drop d c) := by
            simp [Tree.unlinkat, Tree.split_name, Except.bind, step_of_entry hentry, hi]
          rw [syscall_of_ok hw hcall]
          exact ⟨by simp [hi]; rfl, by simp [hi]; rfl⟩

/-- While nobody else is at work, removing a file succeeds exactly if every component but the last is
a directory or missing, and the last is no directory.  Then the components lead to nothing; nothing
but the last one's name is gone, and nothing at all if it fails or finds nothing. -/
theorem remove_exact (husable : Usable comps) (hlast : comps.getLast? = some last)
    (hroot : openRoot cwd root false w = (.ok top, w₁)) (hquiet : Quiet w₁) :
    ((removeBeneath cwd root comps w).1.isOk =
        clear w₁.state (fun i => !w₁.state.isDir i) top comps) ∧
      (removeBeneath cwd root comps w).2.state =
        (if clear w₁.state (fun i => !w₁.state.isDir i) top comps && (w₁.state.locate top comps).isSome
          then (w₁.state.locate top comps.dropLast).elim w₁.state fun d => w₁.state.drop d last
          else w₁.state) := by
  have hsplit : comps.dropLast ++ [last] = comps := List.dropLast_append_getLast? last hlast
  have hc : checkComponent last = .ok () := husable.2 last (List.mem_of_getLast? hlast)
  obtain ⟨w₂, hw₂, htree, hcase⟩ := look_alone
    (fun c hc => husable.2 c (List.dropLast_subset _ hc)) hquiet (isDir_of_openRoot hroot)
  rw [hsplit] at hcase
  have hlocate : w₁.state.locate top comps =
      (w₁.state.locate top comps.dropLast).bind fun d => w₁.state.entry d last := by
    rw [← hsplit, locate_append, hsplit]
    refine congrArg _ (funext fun d => ?_)
    rw [Tree.locate]
    cases w₁.state.entry d last with
    | none => rfl
    | some i => rfl
  unfold removeBeneath
  rw [Prog.outcome_bind]
  rcases hcase with ⟨d, hlook, hd, hwhere, hclear⟩ | ⟨hlook, hwhere, hclear⟩ |
    ⟨text, hlook, hclear⟩
  · rw [walk_of_ok husable hlast hroot hlook, hclear, hlocate, hwhere]
    obtain ⟨hok, hdropped⟩ := unlink_alone hw₂ hc (htree.symm ▸ hd)
    rw [htree] at hok hdropped
    have hany : ∀ o : Option Nat, (o.any fun i => !w₁.state.isDir i) =
        ((o.all fun i => !w₁.state.isDir i) && o.isSome) := by
      rintro (_ | i)
      · rfl
      · simp
    rw [hany] at hdropped
    exact ⟨hok, hdropped⟩
  · rw [walk_of_error husable hroot hlook, hclear, hlocate, hwhere]
    exact ⟨rfl, by simpa using htree⟩
  · rw [walk_of_error husable hroot hlook, hclear]
    exact ⟨rfl, by simpa [Prog.throw] using htree⟩

/-- In a bare root there is nothing to remove. -/
theorem remove_exact_bare :
    ((removeBeneath 0 ⟨true, []⟩ [ascii "demo", ascii "a.bin"] bare).1.isOk =
        clear bareOpened.state (fun i => !bareOpened.state.isDir i) 0 [ascii "demo", ascii "a.bin"]) ∧
      (removeBeneath 0 ⟨true, []⟩ [ascii "demo", ascii "a.bin"] bare).2.state =
        (if clear bareOpened.state (fun i => !bareOpened.state.isDir i) 0
              [ascii "demo", ascii "a.bin"] &&
            (bareOpened.state.locate 0 [ascii "demo", ascii "a.bin"]).isSome
          then (bareOpened.state.locate 0 [ascii "demo", ascii "a.bin"].dropLast).elim
            bareOpened.state fun d => bareOpened.state.drop d (ascii "a.bin")
          else bareOpened.state) :=
  remove_exact ⟨by decide, by decide⟩ rfl rfl quiet_bareOpened

end

end Clove.Beneath
