import PackageRename.Proofs.Tree.Reshaping

/-!
# What a move asks of the file system

A procedure is a part of a move written down as data: the next call to the file
system, and how it goes on after each answer.  The move of a package directory
is written down in this form, and carried out on a tree it is the move itself.
The form shows every call that may be made, whatever the file system answers.
-/

namespace PackageRename

/-! ### Calls -/

inductive Call where
  | isDirectory (path : Path)
  | pathExists (path : Path)
  | createDirectories (path : Path)
  | removeDirectory (path : Path)
  | rename (source target : Path)
deriving DecidableEq

namespace Call

abbrev Answer : Call → Type
  | isDirectory _ | pathExists _ => Bool
  | createDirectories _ | removeDirectory _ | rename _ _ => Except Fault Unit

def paths : Call → List Path
  | isDirectory path | pathExists path | createDirectories path
  | removeDirectory path => [path]
  | rename source target => [source, target]

/-- The answer of a change to a tree, which stays as it is if the change is
refused. -/
def settle (tree : Tree) : Except Fault Tree → Except Fault Unit × Tree
  | .ok changed => (.ok (), changed)
  | .error fault => (.error fault, tree)

def perform : (call : Call) → Tree → call.Answer × Tree
  | isDirectory path, tree => (tree.isDirectory path, tree)
  | pathExists path, tree => (tree.pathExists path, tree)
  | createDirectories path, tree => tree.createDirectories path
  | removeDirectory path, tree => settle tree (tree.removeDirectory path)
  | rename source target, tree => settle tree (tree.rename source target)

end Call

/-! ### Procedures -/

inductive Procedure (α : Type) where
  | done (value : α)
  | ask (call : Call) (next : call.Answer → Procedure α)

namespace Procedure

variable {α β : Type}

def bind : Procedure α → (α → Procedure β) → Procedure β
  | done value, goesOn => goesOn value
  | ask call next, goesOn => ask call fun answer => (next answer).bind goesOn

instance : Monad Procedure where
  pure := done
  bind := bind

def request (call : Call) : Procedure call.Answer :=
  ask call done

/-- What a procedure ends with on a tree, and the tree it leaves. -/
def run : Procedure α → Tree → α × Tree
  | done value, tree => (value, tree)
  | ask call next, tree =>
      (next (call.perform tree).1).run (call.perform tree).2

/-- The calls that a procedure makes on a tree, in turn. -/
def calls : Procedure α → Tree → List Call
  | done _, _ => []
  | ask call next, tree =>
      call :: (next (call.perform tree).1).calls (call.perform tree).2

/-- Every call that the procedure makes after some answers has a property. -/
def AllCalls (property : Call → Prop) : Procedure α → Prop
  | done _ => True
  | ask call next => property call ∧ ∀ answer, (next answer).AllCalls property

/-- The procedure ends with a value after some answers. -/
def MayEnd (value : α) : Procedure α → Prop
  | done ending => ending = value
  | ask _ next => ∃ answer, (next answer).MayEnd value

/-- Carry out a procedure that ends with an answer and what it logs. -/
def carryOut (procedure : Procedure (Except FileError α × List LogRecord))
    (tree : Tree) : Effect α :=
  let ((answer, log), reached) := procedure.run tree
  { answer, tree := reached, log }

/-! ### Running and collecting calls -/

variable {procedure : Procedure α} {goesOn : α → Procedure β}
variable {property : Call → Prop}

theorem run_bind (procedure : Procedure α) (goesOn : α → Procedure β)
    (tree : Tree) :
    (procedure >>= goesOn).run tree =
      (goesOn (procedure.run tree).1).run (procedure.run tree).2 := by
  induction procedure generalizing tree with
  | done value => rfl
  | ask call next induction => exact induction _ _

theorem calls_bind (procedure : Procedure α) (goesOn : α → Procedure β)
    (tree : Tree) :
    (procedure >>= goesOn).calls tree =
      procedure.calls tree ++
        (goesOn (procedure.run tree).1).calls (procedure.run tree).2 := by
  induction procedure generalizing tree with
  | done value => rfl
  | ask call next induction => exact congrArg (call :: ·) (induction _ _)

theorem run_request (call : Call) (tree : Tree) :
    (request call).run tree = call.perform tree :=
  rfl

theorem allCalls_bind :
    (procedure >>= goesOn).AllCalls property ↔
      procedure.AllCalls property ∧
        ∀ value, procedure.MayEnd value →
          (goesOn value).AllCalls property := by
  induction procedure with
  | done value =>
      constructor
      · exact fun all => ⟨trivial, fun _ ends => ends ▸ all⟩
      · exact fun ⟨_, all⟩ => all value rfl
  | ask call next induction =>
      constructor
      · rintro ⟨holds, all⟩
        refine ⟨⟨holds, fun answer => ?_⟩, fun value ⟨answer, ends⟩ => ?_⟩
        · exact ((induction answer).mp (all answer)).1
        · exact ((induction answer).mp (all answer)).2 value ends
      · rintro ⟨⟨holds, all⟩, further⟩
        exact ⟨holds, fun answer => (induction answer).mpr
          ⟨all answer, fun value ends => further value ⟨answer, ends⟩⟩⟩

theorem mayEnd_bind {value : β} :
    (procedure >>= goesOn).MayEnd value ↔
      ∃ ending, procedure.MayEnd ending ∧ (goesOn ending).MayEnd value := by
  induction procedure with
  | done ending =>
      constructor
      · exact fun ends => ⟨ending, rfl, ends⟩
      · rintro ⟨_, rfl, ends⟩
        exact ends
  | ask call next induction =>
      constructor
      · rintro ⟨answer, ends⟩
        obtain ⟨ending, first, second⟩ := (induction answer).mp ends
        exact ⟨ending, ⟨answer, first⟩, second⟩
      · rintro ⟨ending, ⟨answer, first⟩, second⟩
        exact ⟨answer, (induction answer).mpr ⟨ending, first, second⟩⟩

theorem allCalls_request {call : Call} :
    (request call).AllCalls property ↔ property call :=
  and_iff_left fun _ => trivial

theorem mayEnd_request (call : Call) (answer : call.Answer) :
    (request call).MayEnd answer :=
  ⟨answer, rfl⟩

/-- The calls made on a tree are among those that may be made. -/
theorem AllCalls.of_mem_calls (all : procedure.AllCalls property)
    {tree : Tree} {call : Call} (member : call ∈ procedure.calls tree) :
    property call := by
  induction procedure generalizing tree with
  | done value => cases member
  | ask first next induction =>
      rcases List.mem_cons.mp member with isFirst | later
      · exact isFirst ▸ all.1
      · exact induction _ (all.2 _) later

/-! ### The move of a package directory -/

/-- Make the directories on the way to a path. -/
def createParent (target : Path) : Procedure (Except Fault Unit) :=
  match target.parent? with
  | some parent => request (.createDirectories parent)
  | none => pure (.ok ())

def placeDirectory (source target : Path) :
    Procedure (Except Fault Unit) := do
  match ← createParent target with
  | .error fault => return .error fault
  | .ok () => request (.rename source target)

def pruneAlong (base : Path) : List Path → Procedure Unit
  | [] => return
  | directory :: above => do
      if directory.isStrictlyBelow base then
        match ← request (.removeDirectory directory) with
        | .ok () => pruneAlong base above
        | .error _ => return
      else
        return

def pruneAbove (base moved : Path) : Procedure Unit :=
  pruneAlong base moved.ancestors

/-- The place beside the packages of a base at which a directory is parked. -/
def staging (base : Path) : Path :=
  base.join (Path.ofString stagingName)

/-- Place a parked directory at its new path, or else back at its old one. -/
def placeParked (base old new : Path) :
    Procedure (Except FileError Bool × List LogRecord) := do
  match ← placeDirectory (staging base) new with
  | .ok () => return (.ok true, [])
  | .error fault =>
      match ← placeDirectory (staging base) old with
      | .ok () => return (.error (.move old new fault), [])
      | .error stuck =>
          return (.error (.move old new fault), [⟨.error,
            s!"Unable to restore {old.display} from " ++
              s!"{(staging base).display}: {stuck.message}"⟩])

/-- Move a directory by way of the place to park at. -/
def moveParked (base old new : Path) :
    Procedure (Except FileError Bool × List LogRecord) := do
  if ← request (.pathExists (staging base)) then
    return (.error (.move old (staging base) .stagingOccupied), [])
  else
    match ← request (.rename old (staging base)) with
    | .error fault => return (.error (.move old (staging base) fault), [])
    | .ok () =>
        pruneAbove base old
        placeParked base old new

/-- Move a directory at once. -/
def moveDirectly (base old new : Path) :
    Procedure (Except FileError Bool × List LogRecord) := do
  match ← placeDirectory old new with
  | .ok () =>
      pruneAbove base old
      return (.ok true, [])
  | .error fault => return (.error (.move old new fault), [])

def movePackage (base : Path) (source target : Identifier) :
    Procedure (Except FileError Bool × List LogRecord) := do
  let old := source.directoryIn base
  let new := target.directoryIn base
  if ← request (.isDirectory old) then
    if source.isAncestorOf target || target.isAncestorOf source then
      moveParked base old new
    else
      moveDirectly base old new
  else
    return (.ok false, [])

/-! ### Carrying out the move -/

theorem run_rename (source target : Path) (tree : Tree) :
    (request (.rename source target)).run tree =
      match tree.rename source target with
      | .ok renamed => (.ok (), renamed)
      | .error fault => (.error fault, tree) := by
  rw [run_request, Call.perform]
  cases tree.rename source target <;> rfl

theorem run_createParent (target : Path) (tree : Tree) :
    (createParent target).run tree = tree.withParent target := by
  rw [createParent, Tree.withParent]
  cases target.parent? <;> rfl

theorem run_placeDirectory (source target : Path) (tree : Tree) :
    (placeDirectory source target).run tree =
      PackageRename.placeDirectory source target tree := by
  rw [placeDirectory, Tree.placeDirectory_eq, run_bind, run_createParent]
  rcases tree.withParent target with ⟨fault | made, reached⟩
  · rfl
  · exact run_rename source target reached

theorem run_pruneAlong (base : Path) (directories : List Path) (tree : Tree) :
    (pruneAlong base directories).run tree =
      ((), PackageRename.pruneAlong base directories tree) := by
  induction directories generalizing tree with
  | nil => rfl
  | cons directory above induction =>
      rw [pruneAlong, PackageRename.pruneAlong]
      split
      · rw [run_bind, run_request, Call.perform]
        cases tree.removeDirectory directory with
        | error fault => rfl
        | ok removed => exact induction removed
      · rfl

theorem run_pruneAbove (base moved : Path) (tree : Tree) :
    (pruneAbove base moved).run tree =
      ((), PackageRename.pruneAbove base moved tree) :=
  run_pruneAlong base moved.ancestors tree

/-- Carried out on a tree, the procedure is the move of a package directory. -/
theorem carryOut_movePackage (base : Path) (source target : Identifier)
    (tree : Tree) :
    (movePackage base source target).carryOut tree =
      PackageRename.movePackage base source target tree := by
  rw [carryOut, movePackage, PackageRename.movePackage]
  dsimp only
  rw [← staging]
  generalize source.directoryIn base = old
  generalize target.directoryIn base = new
  rw [run_bind, run_request, Call.perform]
  cases tree.isDirectory old with
  | false => rfl
  | true =>
      simp only [if_true]
      split
      case isFalse =>
        rw [moveDirectly, run_bind, run_placeDirectory]
        rcases PackageRename.placeDirectory old new tree with
          ⟨fault | moved, reached⟩
        · rfl
        · simp only [run_bind, run_pruneAbove]
          rfl
      rw [moveParked, run_bind, run_request, Call.perform]
      cases tree.pathExists (staging base) with
      | true => rfl
      | false =>
          simp only [Bool.false_eq_true, if_false]
          rw [run_bind, run_rename]
          cases tree.rename old (staging base) with
          | error fault => rfl
          | ok parked =>
              simp only [run_bind, run_pruneAbove, placeParked,
                run_placeDirectory]
              rcases PackageRename.placeDirectory (staging base) new
                (PackageRename.pruneAbove base old parked) with
                ⟨fault | moved, reached⟩
              · simp only [run_bind, run_placeDirectory]
                rcases PackageRename.placeDirectory (staging base) old reached
                  with ⟨stuck | restored, back⟩ <;> rfl
              · rfl

/-! ### The calls of the move -/

section Calls

variable {base old new : Path}

theorem allCalls_createParent {target : Path} :
    (createParent target).AllCalls property ↔
      ∀ parent ∈ target.parent?, property (.createDirectories parent) := by
  rw [createParent]
  cases target.parent? with
  | none => exact iff_of_true trivial nofun
  | some parent =>
      simp only [Option.mem_def, Option.some.injEq, forall_eq']
      exact allCalls_request

theorem mayEnd_createParent (target : Path) :
    (createParent target).MayEnd (.ok ()) := by
  rw [createParent]
  cases target.parent? with
  | none => rfl
  | some parent => exact mayEnd_request _ _

theorem allCalls_placeDirectory :
    (placeDirectory old new).AllCalls property ↔
      (∀ parent ∈ new.parent?, property (.createDirectories parent)) ∧
        property (.rename old new) := by
  rw [placeDirectory, allCalls_bind, allCalls_createParent]
  refine and_congr_right fun _ => ⟨fun all => ?_, fun holds value _ => ?_⟩
  · exact allCalls_request.mp (all (.ok ()) (mayEnd_createParent new))
  · cases value with
    | error fault => trivial
    | ok made => exact allCalls_request.mpr holds

theorem mayEnd_placeDirectory (old new : Path) (value : Except Fault Unit) :
    (placeDirectory old new).MayEnd value :=
  mayEnd_bind.mpr ⟨.ok (), mayEnd_createParent new, mayEnd_request _ _⟩

theorem allCalls_pruneAlong {directories : List Path}
    (holds : ∀ directory ∈ directories, directory.isStrictlyBelow base = true →
      property (.removeDirectory directory)) :
    (pruneAlong base directories).AllCalls property := by
  induction directories with
  | nil => trivial
  | cons directory above induction =>
      rw [pruneAlong]
      split
      · rename_i isBelow
        refine allCalls_bind.mpr ⟨allCalls_request.mpr
          (holds directory List.mem_cons_self isBelow), fun value _ => ?_⟩
        cases value with
        | error fault => trivial
        | ok removed =>
            exact induction fun further member =>
              holds further (List.mem_cons_of_mem _ member)
      · trivial

theorem mayEnd_pruneAlong (base : Path) (directories : List Path) :
    (pruneAlong base directories).MayEnd () := by
  cases directories with
  | nil => rfl
  | cons directory above =>
      rw [pruneAlong]
      split
      · exact mayEnd_bind.mpr ⟨.error .notEmpty, mayEnd_request _ _, rfl⟩
      · rfl

theorem allCalls_moveDirectly :
    (moveDirectly base old new).AllCalls property ↔
      (placeDirectory old new).AllCalls property ∧
        (pruneAbove base old).AllCalls property := by
  rw [moveDirectly, allCalls_bind]
  refine and_congr_right fun _ => ⟨fun all => ?_, fun prunes value _ => ?_⟩
  · exact (allCalls_bind.mp
      (all (.ok ()) (mayEnd_placeDirectory old new _))).1
  · cases value with
    | error fault => trivial
    | ok moved => exact allCalls_bind.mpr ⟨prunes, fun _ _ => trivial⟩

theorem allCalls_placeParked :
    (placeParked base old new).AllCalls property ↔
      (placeDirectory (staging base) new).AllCalls property ∧
        (placeDirectory (staging base) old).AllCalls property := by
  rw [placeParked, allCalls_bind]
  refine and_congr_right fun _ => ⟨fun all => ?_, fun restores value _ => ?_⟩
  · exact (allCalls_bind.mp
      (all (.error .notFound) (mayEnd_placeDirectory _ new _))).1
  · cases value with
    | ok moved => trivial
    | error fault =>
        refine allCalls_bind.mpr ⟨restores, fun restored _ => ?_⟩
        cases restored <;> trivial

theorem allCalls_moveParked :
    (moveParked base old new).AllCalls property ↔
      property (.pathExists (staging base)) ∧
        property (.rename old (staging base)) ∧
        (pruneAbove base old).AllCalls property ∧
        (placeParked base old new).AllCalls property := by
  rw [moveParked, allCalls_bind, allCalls_request]
  refine and_congr_right fun _ => ⟨fun all => ?_, fun moves value _ => ?_⟩
  · obtain ⟨renames, further⟩ :=
      allCalls_bind.mp (all false (mayEnd_request _ _))
    obtain ⟨prunes, places⟩ :=
      allCalls_bind.mp (further (.ok ()) (mayEnd_request _ _))
    exact ⟨allCalls_request.mp renames, prunes,
      places () (mayEnd_pruneAlong base _)⟩
  · obtain ⟨renames, prunes, places⟩ := moves
    cases value with
    | true => trivial
    | false =>
        refine allCalls_bind.mpr ⟨allCalls_request.mpr renames,
          fun renamed _ => ?_⟩
        cases renamed with
        | error fault => trivial
        | ok parked => exact allCalls_bind.mpr ⟨prunes, fun _ _ => places⟩

theorem allCalls_movePackage {source target : Identifier} :
    (movePackage base source target).AllCalls property ↔
      property (.isDirectory (source.directoryIn base)) ∧
        if source.isAncestorOf target || target.isAncestorOf source then
          (moveParked base (source.directoryIn base)
            (target.directoryIn base)).AllCalls property
        else
          (moveDirectly base (source.directoryIn base)
            (target.directoryIn base)).AllCalls property := by
  rw [movePackage, allCalls_bind, allCalls_request]
  generalize (source.isAncestorOf target || target.isAncestorOf source) = nested
  refine and_congr_right fun _ => ⟨fun all => ?_, fun moves value _ => ?_⟩
  · have found := all true (mayEnd_request _ _)
    cases nested <;> exact found
  · cases value with
    | false => trivial
    | true => cases nested <;> exact moves

end Calls

end Procedure

end PackageRename
