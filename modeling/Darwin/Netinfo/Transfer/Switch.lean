import Darwin.Lib.CrashLogic
import Mathlib.Data.Int.Notation
import Mathlib.Logic.Function.Basic

/-!
# Switching to a transferred database

The database of a tag is a directory, and `ni_dir.c` knows three names for one: `tag.nidb` is in
use, `tag.temp` is being loaded from the master, and `tag.move` is the old one on its way out.
`dir_switch` puts a loaded database in place, and `dir_cleanup`, at startup, finishes or undoes what
a crash has interrupted.

Each system call that changes the names or the files is one step.  A database holds plain files; the
entries `.` and `..`, which `readdir` gives too, cannot be unlinked.

## Main results

* `switch_crash_safe` - whatever the steps at which the switch and the cleanups are cut off, a
  cleanup that runs to its end leaves the old or the new database in use, and nothing else
-/

namespace Darwin.Netinfo.Switch

open Function (update update_idem)
open Darwin.Lib

/-! ## The disk -/

/-- The suffixes `.nidb`, `.temp` and `.move`. -/
inductive DirName where
  | nidb
  | temp
  | move
  deriving DecidableEq, Repr

/-- The files of a database: their names and contents. -/
abbrev Files := List (String × List UInt8)

/-- What stands under the three names. -/
abbrev Directories := DirName → Option Files

/-- `access(dir, F_OK) == 0`. -/
def access (dir : DirName) : Prog Directories Bool :=
  .act id fun dirs => .ret (dirs dir).isSome

/-- `opendir`. -/
def opendir (dir : DirName) : Prog Directories (Option Files) :=
  .act id fun dirs => .ret (dirs dir)

/-- A rename is refused if there is nothing to rename, or if files are in its way. -/
def renames (old new : DirName) (dirs : Directories) : Bool :=
  (dirs old).isSome && (dirs new).all List.isEmpty

/-- `rename`, of directories. -/
def rename (old new : DirName) : Prog Directories ℤ :=
  .act
    (fun dirs =>
      if renames old new dirs then
        update (update dirs old none) new (dirs old)
      else dirs)
    fun dirs => .ret (if renames old new dirs then 0 else -1)

/-- `unlink`, of a file in a directory. -/
def unlink (dir : DirName) (name : String) : Prog Directories Unit :=
  .act
    (fun dirs => update dirs dir ((dirs dir).map fun files =>
      files.filter fun file => file.1 != name))
    fun _ => .ret ()

/-- `rmdir`, which is refused if there are files in the directory. -/
def rmdir (dir : DirName) : Prog Directories ℤ :=
  .act
    (fun dirs => if dirs dir = some [] then update dirs dir none else dirs)
    fun dirs => .ret (if dirs dir = some [] then 0 else -1)

/-! ## The functions -/

variable (readdir : Files → List String)

/-- The loop of `dir_destroy`. -/
def unlinkLoop (dir : DirName) : List String → Prog Directories Unit
  | [] => pure ()
  | name :: names => do
    unlink dir name
    unlinkLoop dir names

/-- `dir_destroy`. -/
def dirDestroy (dir : DirName) : Prog Directories ℤ := do
  match ← opendir dir with
  | none => pure 0
  | some files =>
    unlinkLoop dir (readdir files)
    rmdir dir

/-- `dir_switch` from the second rename on. -/
def moveIn (removeit : Bool) : Prog Directories ℤ := do
  let res ← rename .temp .nidb
  if res < 0 then pure res
  else if removeit then dirDestroy readdir .move
  else pure res

/-- `dir_switch`.  The result of the first rename is that of a comparison, so it is never negative.
-/
def dirSwitch : Prog Directories ℤ := do
  if ← access .nidb then
    let renamed ← rename .nidb .move
    let res : ℤ := if renamed = 0 then 1 else 0
    if res < 0 then pure res
    else moveIn readdir true
  else moveIn readdir false

/-- `dir_cleanup`. -/
def dirCleanup : Prog Directories Unit := do
  if ← access .temp then
    if ← access .move then
      let renamed ← rename .temp .nidb
      if renamed = 0 then
        let _ ← dirDestroy readdir .move
    else
      let _ ← dirDestroy readdir .temp
  else if ← access .move then
    let _ ← dirDestroy readdir .move

/-! ## The steps -/

section Steps

variable {I : Directories → Prop} {dirs : Directories} {dir old new : DirName} {files : Files}

theorem access_meets (mem : I dirs) :
    Prog.Meets I (fun found dirs' => found = (dirs dir).isSome ∧ dirs' = dirs) (access dir) dirs :=
  ⟨mem, mem, rfl, rfl⟩

theorem opendir_meets (mem : I dirs) :
    Prog.Meets I (fun found dirs' => found = dirs dir ∧ dirs' = dirs) (opendir dir) dirs :=
  ⟨mem, mem, rfl, rfl⟩

/-- A directory is renamed to a name that is free. -/
theorem rename_meets (there : dirs old = some files) (free : dirs new = none) (mem : I dirs)
    (after : I (update (update dirs old none) new (some files))) :
    Prog.Meets I (fun res dirs' => res = 0 ∧ dirs' = update (update dirs old none) new (some files))
      (rename old new) dirs := by
  have renamed : renames old new dirs = true := by rw [renames, there, free]; rfl
  refine ⟨mem, ?_⟩
  rw [Prog.meets_ret]
  dsimp only
  rw [renamed, if_pos rfl, if_pos rfl, there]
  exact ⟨after, rfl, rfl⟩

theorem unlink_meets {name : String} (there : dirs dir = some files) (mem : I dirs)
    (after : ∀ left, I (update dirs dir (some left))) :
    Prog.Meets I (fun _ dirs' => dirs' = update dirs dir
        (some (files.filter fun file => file.1 != name)))
      (unlink dir name) dirs := by
  refine ⟨mem, ?_⟩
  rw [Prog.meets_ret]
  dsimp only
  rw [there]
  exact ⟨after _, rfl⟩

theorem rmdir_meets (empty : dirs dir = some []) (mem : I dirs)
    (after : I (update dirs dir none)) :
    Prog.Meets I (fun res dirs' => res = 0 ∧ dirs' = update dirs dir none)
      (rmdir dir) dirs := by
  refine ⟨mem, ?_⟩
  rw [Prog.meets_ret]
  dsimp only
  rw [if_pos empty, if_pos empty]
  exact ⟨after, rfl, rfl⟩

end Steps

/-! ## Destroying a directory -/

section Destroy

variable {readdir : Files → List String} {I : Directories → Prop} {dirs : Directories}
  {dir : DirName} {files : Files}

theorem unlinkLoop_meets (there : dirs dir = some files) (mem : I dirs)
    (keeps : ∀ left, I (update dirs dir (some left))) (names : List String) :
    Prog.Meets I (fun _ dirs' => dirs' = update dirs dir
        (some (files.filter fun file => file.1 ∉ names)))
      (unlinkLoop dir names) dirs := by
  induction names generalizing dirs files with
  | nil =>
    refine ⟨mem, ?_⟩
    have all : (files.filter fun file => file.1 ∉ ([] : List String)) = files := by simp
    rw [all, ← there, Function.update_eq_self]
  | cons name names ih =>
    refine (unlink_meets there mem keeps).bind fun _ dirs₁ unlinked => ?_
    subst unlinked
    refine (ih (Function.update_self ..) (keeps _) fun left => ?_).mono (fun _ mem => mem)
      fun _ dirs₂ unlinked => ?_
    · rw [update_idem]
      exact keeps left
    rw [unlinked, update_idem, List.filter_filter]
    refine congrArg (fun left => update dirs dir (some left)) ?_
    refine List.filter_congr fun file _ => ?_
    rw [Bool.eq_iff_iff]
    simp [and_comm]

/-- A directory is destroyed, and nothing else changes; it may be left half-empty. -/
theorem dirDestroy_meets (lists : ∀ files, ∀ file ∈ files, file.1 ∈ readdir files)
    (mem : I dirs) (keeps : ∀ left, I (update dirs dir left)) :
    Prog.Meets I (fun res dirs' => res = 0 ∧ dirs' = update dirs dir none)
      (dirDestroy readdir dir) dirs := by
  refine (opendir_meets mem).bind fun found dirs₁ opened => ?_
  obtain ⟨rfl, rfl⟩ := opened
  cases there : dirs₁ dir with
  | none =>
    refine ⟨mem, rfl, ?_⟩
    rw [← there, Function.update_eq_self]
  | some files =>
    refine (unlinkLoop_meets there mem (fun left => keeps (some left)) _).bind
      fun _ dirs₂ emptied => ?_
    have none_left : (files.filter fun file => file.1 ∉ readdir files) = [] := by
      rw [List.filter_eq_nil_iff]
      intro file member
      simpa using lists files file member
    rw [none_left] at emptied
    subst emptied
    refine (rmdir_meets (Function.update_self ..) (keeps _) ?_).mono (fun _ mem => mem)
      fun _ dirs₃ removed => ?_
    · rw [update_idem]
      exact keeps none
    · rwa [update_idem] at removed

end Destroy

/-! ## The switch and the cleanup -/

section Switch

variable {readdir : Files → List String} {dirs dirs' : Directories} {old new : Files}

/-- The old database is in use, whatever there may be of the new one. -/
structure Loading (old : Files) (dirs : Directories) : Prop where
  nidb : dirs .nidb = some old
  move : dirs .move = none

/-- What may be found on the disk while a database is loaded and switched in: the old one is in use;
or it has been moved away, and the new one is complete; or the new one is in use. -/
inductive Phase (old new : Files) (dirs : Directories) : Prop
  | loading (loading : Loading old dirs)
  | between (nidb : dirs .nidb = none) (temp : dirs .temp = some new) (move : dirs .move = some old)
  | switched (nidb : dirs .nidb = some new) (temp : dirs .temp = none)

/-- One database is in use, and nothing else is there. -/
structure Settled (files : Files) (dirs : Directories) : Prop where
  nidb : dirs .nidb = some files
  temp : dirs .temp = none
  move : dirs .move = none

variable (lists : ∀ files, ∀ file ∈ files, file.1 ∈ readdir files)

include lists

/-- Once the new database is in use, the old one is destroyed. -/
theorem dirDestroy_settles (nidb : dirs .nidb = some new) (temp : dirs .temp = none) :
    Prog.Meets (Phase old new) (fun res dirs' => res = 0 ∧ Settled new dirs')
      (dirDestroy readdir .move) dirs := by
  have keeps (left : Option Files) : Phase old new (update dirs .move left) :=
    .switched nidb temp
  refine (dirDestroy_meets lists (.switched nidb temp) keeps).mono
    (fun _ phase => phase) fun res dirs' ends => ?_
  obtain ⟨rfl, rfl⟩ := ends
  exact ⟨rfl, nidb, temp, rfl⟩

/-- `dir_switch` keeps the disk in one of the three phases, and leaves the new database in use. -/
theorem dirSwitch_meets
    (nidb : dirs .nidb = some old) (temp : dirs .temp = some new) (move : dirs .move = none) :
    Prog.Meets (Phase old new) (fun res dirs' => res = 0 ∧ Settled new dirs')
      (dirSwitch readdir) dirs := by
  have loading : Phase old new dirs := .loading ⟨nidb, move⟩
  refine (access_meets loading).bind fun found dirs₁ looked => ?_
  obtain ⟨rfl, rfl⟩ := looked
  rw [nidb, Option.isSome_some, if_pos rfl]
  refine (rename_meets nidb move loading (.between rfl temp rfl)).bind fun res dirs₂ renamed => ?_
  obtain ⟨rfl, rfl⟩ := renamed
  -- the comparison gives 1, and the switch goes on
  have temp₂ : update (update dirs₁ .nidb none) .move (some old) .temp = some new := temp
  refine (rename_meets temp₂ rfl (.between rfl temp rfl) (.switched rfl rfl)).bind
    fun res dirs₃ renamed => ?_
  obtain ⟨rfl, rfl⟩ := renamed
  exact dirDestroy_settles lists rfl rfl

/-- While the old database is in use, `dir_cleanup` destroys what there is of the new one. -/
theorem dirCleanup_loading (loading : Loading old dirs) :
    Prog.Meets (Loading old) (fun _ dirs' => Settled old dirs') (dirCleanup readdir) dirs := by
  refine (access_meets loading).bind fun found dirs₁ looked => ?_
  obtain ⟨rfl, rfl⟩ := looked
  cases temp : dirs₁ .temp with
  | none =>
    refine (access_meets loading).bind fun found dirs₂ looked => ?_
    obtain ⟨rfl, rfl⟩ := looked
    rw [loading.move]
    exact ⟨loading, loading.nidb, temp, loading.move⟩
  | some files =>
    refine (access_meets loading).bind fun found dirs₂ looked => ?_
    obtain ⟨rfl, rfl⟩ := looked
    rw [loading.move]
    have keeps (left : Option Files) : Loading old (update dirs₂ .temp left) :=
      ⟨loading.nidb, loading.move⟩
    refine (dirDestroy_meets lists loading keeps).bind fun res dirs₃ ends => ?_
    obtain ⟨rfl, rfl⟩ := ends
    exact ⟨⟨loading.nidb, loading.move⟩, loading.nidb, rfl, loading.move⟩

/-- `dir_cleanup` keeps the disk in one of the three phases, and leaves one database in use. -/
theorem dirCleanup_meets (phase : Phase old new dirs) :
    Prog.Meets (Phase old new) (fun _ dirs' => Settled old dirs' ∨ Settled new dirs')
      (dirCleanup readdir) dirs := by
  cases phase with
  | loading loading =>
    exact (dirCleanup_loading lists loading).mono (fun _ => .loading) fun _ _ settled =>
      .inl settled
  | between nidb temp move =>
    have between : Phase old new dirs := .between nidb temp move
    refine (access_meets between).bind fun found dirs₁ looked => ?_
    obtain ⟨rfl, rfl⟩ := looked
    rw [temp]
    refine (access_meets between).bind fun found dirs₂ looked => ?_
    obtain ⟨rfl, rfl⟩ := looked
    rw [move]
    refine (rename_meets temp nidb between (.switched rfl rfl)).bind fun res dirs₃ renamed => ?_
    obtain ⟨rfl, rfl⟩ := renamed
    refine (dirDestroy_settles lists rfl rfl).bind fun res dirs₄ ends => ?_
    exact ⟨.switched ends.2.nidb ends.2.temp, .inr ends.2⟩
  | switched nidb temp =>
    have switched : Phase old new dirs := .switched nidb temp
    refine (access_meets switched).bind fun found dirs₁ looked => ?_
    obtain ⟨rfl, rfl⟩ := looked
    rw [temp]
    refine (access_meets switched).bind fun found dirs₂ looked => ?_
    obtain ⟨rfl, rfl⟩ := looked
    cases move : dirs₂ .move with
    | none => exact ⟨switched, .inr ⟨nidb, temp, move⟩⟩
    | some files =>
      refine (dirDestroy_settles lists nidb temp).bind fun res dirs₃ ends => ?_
      exact ⟨.switched ends.2.nidb ends.2.temp, .inr ends.2⟩

omit lists

/-- The old database in use, and what was loaded of the new one. -/
def loaded (old temp : Files) : Directories
  | .nidb => some old
  | .temp => some temp
  | .move => none

/-- Cut off `dir_switch` anywhere, and after it any number of cleanups: the next cleanup that runs
to its end leaves the old database or the new one in use, complete, and nothing else.  If the new
database was never complete, that is the old one. -/
theorem switch_crash_safe (readdir : Files → List String)
    (lists : ∀ files, ∀ file ∈ files, file.1 ∈ readdir files) (old new part : Files) :
    (∀ dirs, Prog.Interrupted (dirSwitch readdir) (dirCleanup readdir) (loaded old new) dirs →
      Settled old ((dirCleanup readdir).run dirs).2 ∨
        Settled new ((dirCleanup readdir).run dirs).2) ∧
    ∀ dirs, Relation.ReflTransGen (Prog.Cut (dirCleanup readdir)) (loaded old part) dirs →
      Settled old ((dirCleanup readdir).run dirs).2 := by
  constructor
  · intro dirs interrupted
    exact (dirSwitch_meets lists rfl rfl rfl).recovers
      (fun _ phase => dirCleanup_meets lists phase) interrupted
  intro dirs again
  have nothing : Prog.Meets (Loading old) (fun _ _ => True) (.ret () : Prog Directories Unit)
      (loaded old part) := ⟨⟨rfl, rfl⟩, trivial⟩
  exact nothing.recovers (fun _ loading => dirCleanup_loading lists loading) ⟨_, .here _ _, again⟩

/-- A switch that is cut off between its two renames. -/
theorem switch_crash_safe_between :
    let readdir : Files → List String := fun files => "." :: ".." :: files.map Prod.fst
    let old : Files := [("Collection", [1])]
    let new : Files := [("Collection", [2])]
    let left : Directories :=
      update (update (loaded old new) .nidb none) .move (some old)
    Settled old ((dirCleanup readdir).run left).2 ∨
      Settled new ((dirCleanup readdir).run left).2 := by
  intro readdir old new left
  have lists : ∀ files, ∀ file ∈ files, file.1 ∈ readdir files := fun files file member =>
    List.mem_cons_of_mem _ (List.mem_cons_of_mem _ (List.mem_map_of_mem member))
  have cut : Prog.Cut (dirSwitch readdir) (loaded old new) left := .later (.later (.here _ _))
  exact (switch_crash_safe readdir lists old new []).1 left ⟨left, cut, .refl⟩

end Switch

end Darwin.Netinfo.Switch
