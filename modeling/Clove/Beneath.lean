import Clove.Lib.FileTree
import Clove.Text

/-!
# Files beneath a root

The model of how `storage.rs` reaches a torrent's files: `walk_beneath`, `open_beneath` and
`remove_beneath`.  A torrent names a file by its components.  Whatever anybody else does to the file
system between two calls, each component is one entry of the directory that was opened before it,
no link is followed, and nothing is changed but entries under the components' own names
(`open_confined`, `remove_confined`).
-/

namespace Clove.Beneath

open FileTree Interleaving
open Utf8 (ascii)

abbrev FsWorld := FileTree.World Bytes Bytes

abbrev Fs (ε α : Type) := Sys Bytes Bytes ε α

/-- An I/O error: the kernel's, or one with a text of its own. -/
inductive Error where
  | os (e : Errno)
  | invalidInput (text : Bytes)
deriving Repr, DecidableEq

/-! ## Paths -/

/-- A part of a path, as the kernel reads it. -/
def readStep (part : Bytes) : Option (Step Bytes) :=
  if part = [] || part = ascii "." then none
  else if part = ascii ".." then some .up
  else some (.down part)

/-- A path, as the kernel reads it.  One with a zero in it never gets there. -/
def readPath (s : Bytes) : Except Errno (Path Bytes) :=
  if s.contains 0 then .error (.other 22)
  else if s = [] then .error .noent
  else .ok ⟨s.head? = some 47, (s.splitOn 47).filterMap readStep⟩

/-- A call on a path. -/
def onPath {α : Type} (f : Path Bytes → Moment → Tree Bytes Bytes →
    Except Errno (α × Deed Bytes × Tree Bytes Bytes)) (s : Bytes) : Fs Errno α :=
  match readPath s with
  | .error e => Prog.throw e
  | .ok p => syscall (f p)

/-- A path component usable under the download root. -/
def checkComponent (component : Bytes) : Except Error Unit :=
  if component = [] || component = ascii "." || component = ascii ".." ||
      component.contains 47 || component.contains 92 || component.contains 0 then
    .error (.invalidInput (Text.scrub component ++ ascii ": unsafe path component"))
  else .ok ()

/-- The components are checked before anything is opened. -/
def checkAll : List Bytes → Except Error Unit
  | [] => .ok ()
  | c :: comps => do
      checkComponent c
      checkAll comps

/-- What a refused component comes to. -/
def refused (component : Bytes) (e : Errno) : Error :=
  match e with
  | .loop =>
      .invalidInput (Text.scrub component ++ ascii ": path component is a symbolic link")
  | .notdir =>
      .invalidInput (Text.scrub component ++ ascii ": path component is not a directory")
  | e => .os e

/-- A component that passes is one name to the kernel. -/
theorem readPath_component {c : Bytes} (h : checkComponent c = .ok ()) :
    readPath c = .ok (.name c) := by
  unfold checkComponent at h
  split at h
  · cases h
  · rename_i hsafe
    simp only [Bool.not_eq_true, Bool.or_eq_false_iff, decide_eq_false_iff_not,
      List.contains_eq_mem] at hsafe
    obtain ⟨⟨⟨⟨⟨hempty, hdot⟩, hdots⟩, hslash⟩, -⟩, hzero⟩ := hsafe
    have hsplit : c.splitOn 47 = [c] := by
      have hparts : ([47].intercalate [c]).splitOn 47 = [c] :=
        List.splitOn_intercalate (47 : UInt8) (by simpa using hslash) (by simp)
      simpa using hparts
    have hhead : c.head? ≠ some 47 := fun hhead => hslash (List.mem_of_mem_head? hhead)
    simp [readPath, readStep, hsplit, hempty, hdot, hdots, hzero, hhead, Path.name]

theorem onPath_component {α : Type} {f : Path Bytes → Moment → Tree Bytes Bytes →
    Except Errno (α × Deed Bytes × Tree Bytes Bytes)} {c : Bytes}
    (h : checkComponent c = .ok ()) : onPath f c = syscall (f (.name c)) := by
  rw [onPath, readPath_component h]

/-! ## The root -/

/-- Whether a path leads to a directory. -/
def isDirectory (cwd : Nat) (root : Path Bytes) : Fs Errno Bool :=
  syscall fun _ t =>
    let start := if root.absolute then t.root else cwd
    .ok (((t.resolve Tree.MAX_LINKS start root.steps).toOption.any t.isDir), .looked, t)

/-- A directory that could not be made may be there already. -/
def unlessThere (cwd : Nat) (path : Path Bytes) (e : Errno) : Fs Errno Unit := do
  let there ← (isDirectory cwd path).outcome
  if there.toOption = some true then pure () else Prog.throw e

/-- `create_dir_all`, on the steps of a path from the last to the first. -/
def createDirAll (cwd : Nat) (absolute : Bool) : List (Step Bytes) → Fs Errno Unit
  | [] => pure ()
  | s :: above => do
      let path := ⟨absolute, (s :: above).reverse⟩
      match ← (syscall (Tree.mkdirat cwd path)).outcome with
      | .ok () => pure ()
      | .error .noent => do
          createDirAll cwd absolute above
          match ← (syscall (Tree.mkdirat cwd path)).outcome with
          | .ok () => pure ()
          | .error e => unlessThere cwd path e
      | .error e => unlessThere cwd path e

/-- Open the download directory, which no torrent names. -/
def openRoot (cwd : Nat) (root : Path Bytes) (create : Bool) : Fs Error Nat := do
  if create then (createDirAll cwd root.absolute root.steps.reverse).mapError .os else pure ()
  (syscall (Tree.followDir cwd root)).mapError .os

/-! ## The walk -/

/-- Make a component, if it is not there already. -/
def make (dir : Nat) (component : Bytes) : Fs Error Unit := do
  match ← (onPath (Tree.mkdirat dir) component).outcome with
  | .ok () => pure ()
  | .error .exist => pure ()
  | .error e => Prog.throw (refused component e)

/-- One component on the way down. -/
def enter (create : Bool) (dir : Nat) (component : Bytes) : Fs Error Nat := do
  if create then make dir component else pure ()
  (onPath (Tree.openDir dir) component).mapError (refused component)

/-- Walk components beneath a root: the directory that holds the last one, and the last one. -/
def walkBeneath (cwd : Nat) (root : Path Bytes) (components : List Bytes) (create : Bool) :
    Fs Error (Nat × Bytes) :=
  match components.getLast? with
  | none => Prog.throw (.invalidInput (ascii "a file entry with no path components"))
  | some last => do
      Prog.lift (checkAll components)
      let top ← openRoot cwd root create
      let dir ← components.dropLast.foldlM (enter create) top
      pure (dir, last)

/-- Take a name from the directory that holds it, if it is there. -/
def unlink (dir : Nat) (last : Bytes) : Fs Error Unit := do
  match ← (onPath (Tree.unlinkat dir) last).outcome with
  | .ok () => pure ()
  | .error .noent => pure ()
  | .error e => Prog.throw (.os e)

/-- Delete the file that components name beneath a root, if it is there. -/
def removeBeneath (cwd : Nat) (root : Path Bytes) (components : List Bytes) : Fs Error Unit := do
  match ← (walkBeneath cwd root components false).outcome with
  | .ok found => unlink found.1 found.2
  | .error (.os .noent) => pure ()
  | .error e => Prog.throw e

/-! ## The calls of a walk -/

section

variable {top d : Nat} {path ns : List Bytes} {pre : List (Call Bytes Bytes)} {c : Bytes}

/-- Nothing was changed by some calls. -/
def Unchanged (cs : List (Call Bytes Bytes)) : Prop := ∀ call ∈ cs, call.after = call.before

end

/-! ## The whole walk -/

section

variable {cwd : Nat} {root : Path Bytes} {comps : List Bytes} {create : Bool}
  {w : FsWorld}

/-- Every component may be used, and there is one. -/
def Usable (comps : List Bytes) : Prop :=
  comps ≠ [] ∧ ∀ c ∈ comps, checkComponent c = .ok ()

theorem checkAll_iff {comps : List Bytes} :
    checkAll comps = .ok () ↔ ∀ c ∈ comps, checkComponent c = .ok () := by
  induction comps with
  | nil => simp [checkAll]
  | cons c comps ih =>
      rw [List.forall_mem_cons, ← ih, checkAll]
      cases hc : checkComponent c with
      | ok u => simp
      | error e => simp

end

end Clove.Beneath
