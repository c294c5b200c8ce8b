import PackageRename.Proofs.Identifier
import PackageRename.Proofs.Relocation.Calls
import PackageRename.Proofs.Relocation.Moving
import PackageRename.Proofs.Text.Boundaries
import PackageRename.Proofs.Tree.Finding
import PackageRename.Proofs.Tree.Inside

/-!
# Staying inside a base

The directory of a package is meant to lie inside the base at which it is asked
for.  It does unless the name opens with a dot or a slash: the path form is then
absolute and takes the place of the base.  A move asks for nothing outside the
base exactly if both its directories lie inside, and then it changes nothing
outside.
-/

namespace PackageRename

namespace Identifier

variable {base : Path} {identifier : Identifier}

/-- The directory of the package lies inside the base: its name opens with
neither a dot nor a slash, or its path form leads into the base by itself. -/
def LeadsInside (identifier : Identifier) (base : Path) : Prop :=
  (∃ first ∈ identifier.name.toList.head?, first ≠ '.' ∧ first ≠ '/') ∨
    (Path.ofString identifier.path).LiesInside base

theorem isAbsolute_path_iff :
    (Path.ofString identifier.path).isAbsolute = true ↔
      ∃ first ∈ identifier.name.toList.head?, first = '.' ∨ first = '/' := by
  have isSlash : String.utf8EncodeChar '/' = [slash] := by decide
  have opens : (Path.ofString identifier.path).isAbsolute = true ↔
      ['/'] <+: identifier.path.toList := by
    rw [Path.isAbsolute, beq_iff_eq, ← List.singleton_prefix_iff_head?_eq_some,
      Path.ofString, Utf8.encode_eq_flatMap]
    constructor
    · intro starts
      apply Utf8.prefix_of_flatMap_encodeChar
      rwa [List.flatMap_singleton, isSlash]
    · intro starts
      have encoded := starts.flatMap String.utf8EncodeChar
      rwa [List.flatMap_singleton, isSlash] at encoded
  rw [opens, path, String.toList_map]
  cases identifier.name.toList with
  | nil => simp
  | cons first rest =>
      by_cases isDot : first = '.' <;> simp [isDot, eq_comm]

theorem bytes_path_eq_nil_iff :
    (Path.ofString identifier.path).bytes = [] ↔
      identifier.name.toList = [] := by
  rw [Path.ofString, encode_path, List.map_eq_nil_iff, Utf8.encode_eq_flatMap]
  cases identifier.name.toList with
  | nil => simp
  | cons first rest => simp [String.utf8EncodeChar_ne_nil]

/-- The directory of a package lies inside a base just when its name tells so. -/
theorem liesInside_directoryIn :
    (identifier.directoryIn base).LiesInside base ↔
      identifier.LeadsInside base := by
  rw [directoryIn, LeadsInside]
  cases absolute : (Path.ofString identifier.path).isAbsolute with
  | true =>
      obtain ⟨first, isFirst, marked⟩ := isAbsolute_path_iff.mp absolute
      rw [Path.join_of_absolute absolute]
      refine ⟨.inr, fun leads => leads.resolve_left ?_⟩
      rintro ⟨other, isOther, unmarked⟩
      cases Option.mem_unique isFirst isOther
      exact not_or.mpr unmarked marked
  | false =>
      cases isName : identifier.name.toList with
      | nil =>
          have isPath : Path.ofString identifier.path = ⟨[]⟩ :=
            Path.ext_bytes (bytes_path_eq_nil_iff.mpr isName)
          rw [isPath]
          refine iff_of_false
            (Path.not_liesInside_of_components base.components_join_nil) ?_
          rintro (⟨first, isFirst, -⟩ | ⟨names, nonempty, isComponents⟩)
          · cases isFirst
          · have isEmpty := List.append_eq_nil_iff.mp isComponents.symm
            exact nonempty (List.map_eq_nil_iff.mp isEmpty.2)
      | cons first rest =>
          have unmarked : first ≠ '.' ∧ first ≠ '/' := by
            rw [← not_or]
            intro marked
            rw [← Bool.not_eq_true, isAbsolute_path_iff, isName] at absolute
            exact absolute ⟨first, rfl, marked⟩
          have written : (Path.ofString identifier.path).bytes ≠ [] := by
            rw [ne_eq, bytes_path_eq_nil_iff, isName]
            exact List.cons_ne_nil _ _
          exact iff_of_true
            (Path.liesInside_join absolute written identifier.dot_not_mem_path)
            (.inl ⟨first, rfl, unmarked⟩)

end Identifier

/-- A call names paths within the base only, and what it renames or removes lies
inside. -/
def Call.StaysWithin (base : Path) : Call → Prop
  | isDirectory path | pathExists path | createDirectories path =>
      path.LiesWithin base
  | removeDirectory path => path.LiesInside base
  | rename source target => source.LiesInside base ∧ target.LiesInside base

theorem Call.StaysWithin.startsWith {base : Path} {call : Call}
    (stays : call.StaysWithin base) :
    ∀ path ∈ call.paths, path.startsWith base = true := by
  intro path member
  cases call with
  | isDirectory named | pathExists named | createDirectories named =>
      rw [List.mem_singleton.mp member]
      exact Path.LiesWithin.startsWith stays
  | removeDirectory named =>
      rw [List.mem_singleton.mp member]
      exact (Path.LiesInside.liesWithin stays).startsWith
  | rename source target =>
      rcases List.mem_pair.mp member with isSource | isTarget
      · exact isSource ▸ stays.1.liesWithin.startsWith
      · exact isTarget ▸ stays.2.liesWithin.startsWith

namespace Procedure

variable {base old new : Path} {source target : Identifier}

/-! ### What stays within the base -/

theorem liesInside_staging (base : Path) : (staging base).LiesInside base := by
  refine ⟨[Tree.parkName], List.cons_ne_nil _ _, ?_⟩
  exact Path.components_join_name Tree.parkName_isLegal.plain

theorem placeDirectory_staysWithin_iff (base : Path) :
    (placeDirectory old new).AllCalls (Call.StaysWithin base) ↔
      old.LiesInside base ∧ new.LiesInside base := by
  rw [allCalls_placeDirectory]
  constructor
  · exact fun stays => stays.2
  · intro inside
    exact ⟨fun parent isParent => inside.2.parent isParent, inside⟩

theorem pruneAbove_staysWithin (inside : old.LiesInside base) :
    (pruneAbove base old).AllCalls (Call.StaysWithin base) :=
  allCalls_pruneAlong fun _ member below =>
    inside.liesWithin.ancestor member below

theorem moveDirectly_staysWithin_iff :
    (moveDirectly base old new).AllCalls (Call.StaysWithin base) ↔
      old.LiesInside base ∧ new.LiesInside base := by
  rw [allCalls_moveDirectly, placeDirectory_staysWithin_iff]
  exact and_iff_left_of_imp fun inside => pruneAbove_staysWithin inside.1

theorem moveParked_staysWithin_iff :
    (moveParked base old new).AllCalls (Call.StaysWithin base) ↔
      old.LiesInside base ∧ new.LiesInside base := by
  have parks := liesInside_staging base
  rw [allCalls_moveParked, allCalls_placeParked, placeDirectory_staysWithin_iff,
    placeDirectory_staysWithin_iff]
  constructor
  · rintro ⟨-, -, -, ⟨-, newInside⟩, -, oldInside⟩
    exact ⟨oldInside, newInside⟩
  · rintro ⟨oldInside, newInside⟩
    exact ⟨parks.liesWithin, ⟨oldInside, parks⟩,
      pruneAbove_staysWithin oldInside, ⟨parks, newInside⟩, parks, oldInside⟩

theorem movePackage_staysWithin_iff :
    (movePackage base source target).AllCalls (Call.StaysWithin base) ↔
      source.LeadsInside base ∧ target.LeadsInside base := by
  rw [allCalls_movePackage, moveParked_staysWithin_iff,
    moveDirectly_staysWithin_iff, ite_self, Identifier.liesInside_directoryIn,
    Identifier.liesInside_directoryIn]
  refine and_iff_right_of_imp fun inside => ?_
  exact (Identifier.liesInside_directoryIn.mpr inside.1).liesWithin

/-! ### What stays the same outside -/

open PackageRename.Tree

/-- A call that stays within the base changes nothing outside the ground. -/
theorem hasStayed_perform {tree : Tree} {place : Place}
    (ground : tree.IsGround base place) {call : Call}
    (stays : call.StaysWithin base) :
    tree.HasStayed base place (call.perform tree).2 := by
  cases call with
  | isDirectory path | pathExists path => exact ground.hasStayed
  | createDirectories path =>
      apply ground.hasStayed_createAlong
      intro between member
      apply Path.LiesWithin.inside_or_above stays
      rcases List.mem_cons.mp member with isPath | above
      · exact isPath ▸ List.prefix_rfl
      · exact Path.components_prefix_of_mem_ancestors above
  | removeDirectory path =>
      rw [Call.perform]
      cases removed : tree.removeDirectory path with
      | error fault => exact ground.hasStayed
      | ok reached => exact .of_removeDirectory ground stays removed
  | rename source target =>
      rw [Call.perform]
      cases renamed : tree.rename source target with
      | error fault => exact ground.hasStayed
      | ok reached => exact .of_rename ground stays.1 stays.2 renamed

/-- So does a procedure of such calls, from one call to the next. -/
theorem hasStayed_run {α : Type} {procedure : Procedure α} {tree : Tree}
    {place : Place} (ground : tree.IsGround base place)
    (stays : procedure.AllCalls (Call.StaysWithin base)) :
    tree.HasStayed base place (procedure.run tree).2 := by
  induction procedure generalizing tree with
  | done value => exact ground.hasStayed
  | ask call next induction =>
      have first := hasStayed_perform ground stays.1
      exact first.trans (induction _ first.ground (stays.2 _))

theorem tree_run_movePackage (base : Path) (source target : Identifier)
    (tree : Tree) :
    ((movePackage base source target).run tree).2 =
      (PackageRename.movePackage base source target tree).tree :=
  congrArg Effect.tree (carryOut_movePackage base source target tree)

/-- A move asks for nothing outside its base, whatever the file system answers,
exactly if the directories of both packages lie inside the base.  It then
changes nothing outside the directory that the base leads to, and leaves that
directory where it is. -/
theorem movePackage_stays_inside (base : Path) (source target : Identifier) :
    ((movePackage base source target).AllCalls (Call.StaysWithin base) ↔
      source.LeadsInside base ∧ target.LeadsInside base) ∧
    ∀ tree : Tree,
      (movePackage base source target).carryOut tree =
        PackageRename.movePackage base source target tree ∧
      (source.LeadsInside base → target.LeadsInside base →
        (∀ call ∈ (movePackage base source target).calls tree,
          call.StaysWithin base ∧
            ∀ path ∈ call.paths, path.startsWith base = true) ∧
        ∀ place, tree.IsGround base place → tree.HasStayed base place
          (PackageRename.movePackage base source target tree).tree) := by
  refine ⟨movePackage_staysWithin_iff, fun tree =>
    ⟨carryOut_movePackage base source target tree, fun leads leadsTo => ?_⟩⟩
  have stays := movePackage_staysWithin_iff.mpr ⟨leads, leadsTo⟩
  refine ⟨fun call member => ?_, fun place ground => ?_⟩
  · have stay := stays.of_mem_calls member
    exact ⟨stay, stay.startsWith⟩
  · rw [← tree_run_movePackage]
    exact hasStayed_run ground stays

/-- Doubled and final dots and slashes of a name do not lead out of a base. -/
theorem movePackage_stays_inside_crooked :
    (Identifier.LeadsInside ⟨"com..app."⟩ (Path.ofString "l/smali/") ∧
      Identifier.LeadsInside ⟨"org//app."⟩ (Path.ofString "l/smali/") ∧
      linkedPackage.IsGround (Path.ofString "l/smali/")
        [Utf8.encode "p", Utf8.encode "smali"]) ∧
    (PackageRename.movePackage (Path.ofString "l/smali/") ⟨"com..app."⟩
      ⟨"org//app."⟩ linkedPackage).answer = .ok true ∧
    linkedPackage.HasStayed (Path.ofString "l/smali/")
      [Utf8.encode "p", Utf8.encode "smali"]
      (PackageRename.movePackage (Path.ofString "l/smali/") ⟨"com..app."⟩
        ⟨"org//app."⟩ linkedPackage).tree := by
  have source : Identifier.LeadsInside ⟨"com..app."⟩
      (Path.ofString "l/smali/") :=
    .inl ⟨'c', rfl, by decide⟩
  have target : Identifier.LeadsInside ⟨"org//app."⟩
      (Path.ofString "l/smali/") :=
    .inl ⟨'o', rfl, by decide⟩
  refine ⟨⟨source, target, linkedPackage_isGround⟩, by decide +kernel, ?_⟩
  exact ((movePackage_stays_inside _ _ _).2 linkedPackage).2 source target |>.2
    _ linkedPackage_isGround

/-- A name that opens with a dot leads out of the base: the directory of the
package is moved to another place of the whole tree. -/
theorem movePackage_leaves_base :
    ¬ ∀ (base : Path) (source target : Identifier) (tree : Tree),
      source.name ≠ "" → target.name ≠ "" → source ≠ target →
        ∀ call ∈ (movePackage base source target).calls tree,
          ∀ path ∈ call.paths, path.startsWith base = true := by
  intro stays
  have stay := stays (Path.ofString "p/smali") ⟨"com.app"⟩ ⟨".tmp.app"⟩
    lonePackage (by decide) (by decide) (by decide)
  revert stay
  decide +kernel

example :
    (PackageRename.movePackage (Path.ofString "p/smali") ⟨"com.app"⟩
      ⟨".tmp.app"⟩ lonePackage).tree.hasDirectory
        [Utf8.encode "tmp", Utf8.encode "app"] = true := by
  decide +kernel

end Procedure

end PackageRename
