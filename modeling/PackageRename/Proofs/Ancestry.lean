import PackageRename.Proofs.Identifier
import PackageRename.Proofs.Path.Within
import PackageRename.Proofs.Relocation.Calls
import PackageRename.Proofs.Text.Boundaries
import PackageRename.Proofs.Tree.Finding

/-!
# Nested packages and nested directories

One package is nested in another when the segments of its path form go on where
those of the other end.  This is a strict order of names of any kind.  Where the
segments can name directories, it is the order of the directories, and it tells
a move whether it can rename a package directory at once.
-/

namespace PackageRename

/-- Neither of two paths lies inside the other. -/
def Path.AreApart (first second : Path) : Prop :=
  ¬ second.LiesInside first ∧ ¬ first.LiesInside second

namespace Identifier

variable {identifier outer inner : Identifier} {base : Path}

/-! ### Segments of the path form -/

/-- What stands between the slashes of the path form. -/
def pathSegments (identifier : Identifier) : List (List Char) :=
  identifier.path.toList.splitOn '/'

/-- The segments as they name directories. -/
def pathNames (identifier : Identifier) : List Name :=
  identifier.pathSegments.map (·.flatMap String.utf8EncodeChar)

/-- Every segment of the path form can name a directory.  No dot and no slash is
left in it, so that it only has to be written and free of NULs. -/
def HasNamingSegments (identifier : Identifier) : Prop :=
  ∀ segment ∈ identifier.pathSegments,
    segment ≠ [] ∧ Char.ofNat 0 ∉ segment

instance (identifier : Identifier) : Decidable identifier.HasNamingSegments :=
  inferInstanceAs (Decidable (∀ _ ∈ _, _))

theorem pieces_ofString_path (identifier : Identifier) :
    (Path.ofString identifier.path).pieces = identifier.pathNames := by
  rw [Path.pieces, Path.ofString, Utf8.encode_eq_flatMap]
  exact Utf8.splitOn_flatMap_encodeChar '/' (by decide) _

theorem pathNames_ne_nil (identifier : Identifier) :
    identifier.pathNames ≠ [] := by
  rw [← pieces_ofString_path]
  exact Path.pieces_ne_nil _

theorem dot_not_mem_of_mem_pathNames {name : Name}
    (member : name ∈ identifier.pathNames) : dot ∉ name := by
  rw [← pieces_ofString_path] at member
  intro isDot
  exact identifier.dot_not_mem_path
    ((Path.mem_bytes_iff (by decide)).mpr ⟨name, member, isDot⟩)

theorem HasNamingSegments.plain (naming : identifier.HasNamingSegments) :
    Path.ArePlain identifier.pathNames := by
  intro name member
  have dotless := dot_not_mem_of_mem_pathNames member
  obtain ⟨segment, isSegment, rfl⟩ := List.mem_map.mp member
  obtain ⟨written, nulless⟩ := naming segment isSegment
  rw [← pieces_ofString_path] at member
  refine ⟨?_, ?_, ?_, Path.slash_not_mem_of_mem_pieces member, ?_⟩
  · obtain ⟨first, rest, rfl⟩ := List.exists_cons_of_ne_nil written
    simp [String.utf8EncodeChar_ne_nil]
  · exact fun isCurrent => dotless (by simp [isCurrent])
  · exact fun isParent => dotless (by simp [isParent])
  · intro nul
    obtain ⟨character, inSegment, isNul⟩ := List.mem_flatMap.mp nul
    apply nulless
    rwa [← Utf8.eq_of_mem_encodeChar (Char.ofNat 0) (by decide) isNul]

/-- The directory of the package lies at the segments of its path form. -/
theorem directoryIn_eq_below_pathNames (naming : identifier.HasNamingSegments)
    (base : Path) :
    identifier.directoryIn base = base.below identifier.pathNames := by
  have plain := naming.plain
  rw [directoryIn, ← Path.ofPieces_pieces (Path.ofString identifier.path),
    pieces_ofString_path]
  obtain ⟨first, rest, isNames⟩ :=
    List.exists_cons_of_ne_nil identifier.pathNames_ne_nil
  rw [isNames] at plain ⊢
  exact Path.join_ofPieces plain

/-! ### The order of packages -/

theorem isAncestorOf_iff_pathNames : outer.isAncestorOf inner = true ↔
    outer.pathNames <+: inner.pathNames ∧ outer.pathNames ≠ inner.pathNames := by
  rw [isAncestorOf_iff_slashed, ← pieces_ofString_path, ← pieces_ofString_path]
  exact splitOn_goes_on_iff.symm

/-- Segments are told apart by the bytes they are written in. -/
theorem flatMap_encodeChar_injective :
    Function.Injective fun segment : List Char =>
      segment.flatMap String.utf8EncodeChar := by
  intro first second same
  have longer : first <+: second :=
    Utf8.prefix_of_flatMap_encodeChar ⟨[], (List.append_nil _).trans same⟩
  have shorter : second <+: first :=
    Utf8.prefix_of_flatMap_encodeChar ⟨[], (List.append_nil _).trans same.symm⟩
  exact longer.eq_of_length_le shorter.length_le

theorem isAncestorOf_iff_pathSegments : outer.isAncestorOf inner = true ↔
    outer.pathSegments <+: inner.pathSegments ∧
      outer.pathSegments ≠ inner.pathSegments := by
  rw [isAncestorOf_iff_pathNames, pathNames, pathNames,
    List.prefix_map_iff_of_injective flatMap_encodeChar_injective, ne_eq,
    List.map_inj_right fun _ _ same => flatMap_encodeChar_injective same]

/-- The byte that has to be a slash is only looked at where there is one. -/
theorem isAncestorOf_eq (outer inner : Identifier) :
    outer.isAncestorOf inner =
      if _longer : (Utf8.encode outer.path).length <
          (Utf8.encode inner.path).length then
        (Utf8.encode outer.path).isPrefixOf (Utf8.encode inner.path) &&
          (Utf8.encode inner.path)[(Utf8.encode outer.path).length] == slash
      else false := by
  rw [isAncestorOf]
  split
  · rename_i longer
    simp [longer]
  · rename_i shorter
    simp [shorter]

theorem isAncestorOf_irrefl (identifier : Identifier) :
    ¬ identifier.isAncestorOf identifier = true :=
  fun nested => (isAncestorOf_iff_pathSegments.mp nested).2 rfl

theorem isAncestorOf_asymm (nested : outer.isAncestorOf inner = true) :
    ¬ inner.isAncestorOf outer = true := by
  intro around
  obtain ⟨longer, different⟩ := isAncestorOf_iff_pathSegments.mp nested
  have shorter := (isAncestorOf_iff_pathSegments.mp around).1
  exact different (longer.eq_of_length_le shorter.length_le)

theorem isAncestorOf_trans {middle : Identifier}
    (first : outer.isAncestorOf middle = true)
    (second : middle.isAncestorOf inner = true) :
    outer.isAncestorOf inner = true := by
  obtain ⟨longer, different⟩ := isAncestorOf_iff_pathSegments.mp first
  obtain ⟨further, -⟩ := isAncestorOf_iff_pathSegments.mp second
  refine isAncestorOf_iff_pathSegments.mpr ⟨longer.trans further, ?_⟩
  intro same
  rw [← same] at further
  exact different (longer.eq_of_length_le further.length_le)

/-! ### Directories -/

/-- What lies below a base lies inside something else below it when its names
go on. -/
theorem liesInside_below_iff {names others : List Name}
    (plain : Path.ArePlain names) (othersPlain : Path.ArePlain others) :
    (base.below others).LiesInside (base.below names) ↔
      names <+: others ∧ names ≠ others := by
  rw [Path.LiesInside, Path.components_below plain,
    Path.components_below othersPlain]
  constructor
  · rintro ⟨more, nonempty, isComponents⟩
    rw [List.append_assoc, ← List.map_append, List.append_cancel_left_eq,
      List.map_inj_right fun _ _ => Component.name.inj] at isComponents
    rw [isComponents]
    exact ⟨List.prefix_append _ _, by simp [nonempty]⟩
  · rintro ⟨⟨more, rfl⟩, different⟩
    refine ⟨more, fun empty => different (by simp [empty]), ?_⟩
    rw [List.map_append, List.append_assoc]

/-- One package is nested in another when its directory lies inside that of the
other, wherever the two are looked for. -/
theorem isAncestorOf_iff_liesInside (outerNaming : outer.HasNamingSegments)
    (innerNaming : inner.HasNamingSegments) (base : Path) :
    outer.isAncestorOf inner = true ↔
      (inner.directoryIn base).LiesInside (outer.directoryIn base) := by
  rw [directoryIn_eq_below_pathNames outerNaming,
    directoryIn_eq_below_pathNames innerNaming,
    liesInside_below_iff outerNaming.plain innerNaming.plain]
  exact isAncestorOf_iff_pathNames

/-- In a base without links the directories are the places they stand at. -/
theorem isAncestorOf_iff_inside (outerNaming : outer.HasNamingSegments)
    (innerNaming : inner.HasNamingSegments) {tree : Tree}
    {place outerPlace innerPlace : Place} (leads : tree.LeadsInto base place)
    (outerFound : tree.resolve (outer.directoryIn base) = .ok outerPlace)
    (innerFound : tree.resolve (inner.directoryIn base) = .ok innerPlace) :
    outer.isAncestorOf inner = true ↔ Tree.Inside outerPlace innerPlace := by
  rw [directoryIn_eq_below_pathNames outerNaming,
    leads.resolve_iff outerNaming.plain] at outerFound
  rw [directoryIn_eq_below_pathNames innerNaming,
    leads.resolve_iff innerNaming.plain] at innerFound
  rw [outerFound.2.1, innerFound.2.1, Tree.Inside,
    List.prefix_append_right_inj, ne_eq, List.append_cancel_left_eq,
    isAncestorOf_iff_pathNames, ne_comm]

end Identifier

/-! ### Moves -/

/-- A call of a move that does without a place to park at: nothing is looked for
there, and nothing is renamed but the old directory to the new one. -/
def Call.GoesStraight (old new : Path) : Call → Prop
  | pathExists _ => False
  | rename first second => first = old ∧ second = new
  | isDirectory _ | createDirectories _ | removeDirectory _ => True

namespace Procedure

variable {base old new : Path} {source target : Identifier} {tree : Tree}

theorem moveDirectly_goesStraight :
    (moveDirectly base old new).AllCalls (Call.GoesStraight old new) :=
  allCalls_moveDirectly.mpr
    ⟨allCalls_placeDirectory.mpr ⟨fun _ _ => trivial, rfl, rfl⟩,
      allCalls_pruneAlong fun _ _ _ => trivial⟩

theorem pathExists_mem_moveParked :
    Call.pathExists (staging base) ∈ (moveParked base old new).calls tree :=
  List.mem_cons_self

/-- A package directory that is there is moved by way of the place to park at or
at once. -/
theorem calls_movePackage
    (isDirectory : tree.isDirectory (source.directoryIn base) = true) :
    (movePackage base source target).calls tree =
      .isDirectory (source.directoryIn base) ::
        (if source.isAncestorOf target || target.isAncestorOf source then
          moveParked base (source.directoryIn base) (target.directoryIn base)
        else
          moveDirectly base (source.directoryIn base)
            (target.directoryIn base)).calls tree := by
  rw [movePackage, calls_bind, run_request, Call.perform, isDirectory]
  generalize (source.isAncestorOf target || target.isAncestorOf source) = nested
  cases nested <;> rfl

/-- It is moved at once just when neither package is nested in the other. -/
theorem calls_movePackage_iff
    (isDirectory : tree.isDirectory (source.directoryIn base) = true) :
    (movePackage base source target).calls tree =
        .isDirectory (source.directoryIn base) ::
          (moveDirectly base (source.directoryIn base)
            (target.directoryIn base)).calls tree ↔
      ¬ source.isAncestorOf target = true ∧
        ¬ target.isAncestorOf source = true := by
  rw [calls_movePackage isDirectory, List.cons_inj_right, ← not_or,
    ← Bool.or_eq_true]
  constructor
  · intro same nested
    have asked := @pathExists_mem_moveParked base (source.directoryIn base)
      (target.directoryIn base) tree
    rw [if_pos nested] at same
    rw [same] at asked
    exact moveDirectly_goesStraight.of_mem_calls asked
  · intro apart
    rw [if_neg apart]

/-- Otherwise not all of its calls are those of a move at once. -/
theorem goesStraight_movePackage_iff
    (isDirectory : tree.isDirectory (source.directoryIn base) = true) :
    (∀ call ∈ (movePackage base source target).calls tree,
        call.GoesStraight (source.directoryIn base)
          (target.directoryIn base)) ↔
      ¬ source.isAncestorOf target = true ∧
        ¬ target.isAncestorOf source = true := by
  rw [calls_movePackage isDirectory, List.forall_mem_cons, ← not_or,
    ← Bool.or_eq_true]
  constructor
  · rintro ⟨-, straight⟩ nested
    rw [if_pos nested] at straight
    exact straight _ pathExists_mem_moveParked
  · intro apart
    rw [if_neg apart]
    exact ⟨trivial, fun call member =>
      moveDirectly_goesStraight.of_mem_calls member⟩

end Procedure

/-! ### Ancestry -/

namespace Identifier

/-- Ancestry is the strict order by segments of the path form, for names of any
kind.  For names whose segments can name directories it is the order of the
directories, and a package directory that is there is renamed at once just when
neither directory lies inside the other. -/
theorem isAncestorOf_nests :
    (∀ outer inner : Identifier,
      (outer.isAncestorOf inner = true ↔
        outer.pathSegments <+: inner.pathSegments ∧
          outer.pathSegments ≠ inner.pathSegments) ∧
      outer.isAncestorOf inner =
        if _longer : (Utf8.encode outer.path).length <
            (Utf8.encode inner.path).length then
          (Utf8.encode outer.path).isPrefixOf (Utf8.encode inner.path) &&
            (Utf8.encode inner.path)[(Utf8.encode outer.path).length] == slash
        else false) ∧
    (∀ identifier : Identifier, ¬ identifier.isAncestorOf identifier = true) ∧
    (∀ outer inner : Identifier, outer.isAncestorOf inner = true →
      ¬ inner.isAncestorOf outer = true) ∧
    (∀ outer middle inner : Identifier, outer.isAncestorOf middle = true →
      middle.isAncestorOf inner = true → outer.isAncestorOf inner = true) ∧
    ∀ outer inner : Identifier, outer.HasNamingSegments →
      inner.HasNamingSegments → ∀ base : Path,
      (outer.isAncestorOf inner = true ↔
        (inner.directoryIn base).LiesInside (outer.directoryIn base)) ∧
      (∀ (tree : Tree) (place outerPlace innerPlace : Place),
        tree.LeadsInto base place →
        tree.resolve (outer.directoryIn base) = .ok outerPlace →
        tree.resolve (inner.directoryIn base) = .ok innerPlace →
        (outer.isAncestorOf inner = true ↔
          Tree.Inside outerPlace innerPlace)) ∧
      ∀ tree : Tree, tree.isDirectory (outer.directoryIn base) = true →
        ((Procedure.movePackage base outer inner).calls tree =
            .isDirectory (outer.directoryIn base) ::
              (Procedure.moveDirectly base (outer.directoryIn base)
                (inner.directoryIn base)).calls tree ↔
          (outer.directoryIn base).AreApart (inner.directoryIn base)) ∧
        ((∀ call ∈ (Procedure.movePackage base outer inner).calls tree,
            call.GoesStraight (outer.directoryIn base)
              (inner.directoryIn base)) ↔
          (outer.directoryIn base).AreApart (inner.directoryIn base)) := by
  refine ⟨fun outer inner => ⟨isAncestorOf_iff_pathSegments,
    isAncestorOf_eq outer inner⟩, isAncestorOf_irrefl,
    fun _ _ => isAncestorOf_asymm, fun _ _ _ => isAncestorOf_trans, ?_⟩
  intro outer inner outerNaming innerNaming base
  refine ⟨isAncestorOf_iff_liesInside outerNaming innerNaming base, ?_, ?_⟩
  · intro tree place outerPlace innerPlace leads outerFound innerFound
    exact isAncestorOf_iff_inside outerNaming innerNaming leads outerFound
      innerFound
  · intro tree isDirectory
    rw [Path.AreApart, ← isAncestorOf_iff_liesInside outerNaming innerNaming,
      ← isAncestorOf_iff_liesInside innerNaming outerNaming]
    exact ⟨Procedure.calls_movePackage_iff isDirectory,
      Procedure.goesStraight_movePackage_iff isDirectory⟩

/-- An empty segment leads nowhere, so that one name is nested in the other and
no directory in another. -/
example : (Identifier.mk "com").isAncestorOf ⟨"com."⟩ = true ∧
    ((Identifier.mk "com.").directoryIn (Path.ofString "smali")).components =
      ((Identifier.mk "com").directoryIn (Path.ofString "smali")).components := by
  decide +kernel

/-- In a package with a link to it, a directory is nested in the other through
the link, and the move into a neighbour with a longer name of more bytes goes
straight. -/
theorem isAncestorOf_nests_linkedPackage :
    Tree.Inside (["p", "smali", "com", "app"].map Utf8.encode)
        (["p", "smali", "com", "app", "ui"].map Utf8.encode) ∧
      (Identifier.mk "com.app").isAncestorOf ⟨"com.app.ui"⟩ = true ∧
      ¬ (Identifier.mk "com.app").isAncestorOf ⟨"com.appé"⟩ = true ∧
      ∀ call ∈ (Procedure.movePackage (Path.ofString "l/smali/") ⟨"com.app"⟩
          ⟨"com.appé"⟩).calls Tree.linkedPackage,
        call.GoesStraight (Path.ofString "l/smali/com/app")
          (Path.ofString "l/smali/com/appé") := by
  obtain ⟨bySegments, -, -, -, ofDirectories⟩ := isAncestorOf_nests
  have outerNaming : (Identifier.mk "com.app").HasNamingSegments := by
    decide +kernel
  have innerNaming : (Identifier.mk "com.app.ui").HasNamingSegments := by
    decide +kernel
  have otherNaming : (Identifier.mk "com.appé").HasNamingSegments := by
    decide +kernel
  have nested : (Identifier.mk "com.app").isAncestorOf ⟨"com.app.ui"⟩ = true :=
    (bySegments _ _).1.mpr (by decide +kernel)
  have apart : ¬ (Identifier.mk "com.app").isAncestorOf ⟨"com.appé"⟩ = true :=
    mt (bySegments _ _).1.mp (by decide +kernel)
  refine ⟨?_, nested, apart, ?_⟩
  · obtain ⟨-, inPlace, -⟩ := ofDirectories _ _ outerNaming innerNaming
      (Path.ofString "l/smali/")
    exact (inPlace Tree.linkedPackage _ _ _
      Tree.linkedPackage_isGround.toLeadsInto (by decide +kernel)
      (by decide +kernel)).mp nested
  · have notAround : ¬ (Identifier.mk "com.appé").isAncestorOf
        ⟨"com.app"⟩ = true := mt (bySegments _ _).1.mp (by decide +kernel)
    obtain ⟨isInside, -, moves⟩ := ofDirectories _ _ outerNaming otherNaming
      (Path.ofString "l/smali/")
    obtain ⟨isAround, -⟩ := ofDirectories _ _ otherNaming outerNaming
      (Path.ofString "l/smali/")
    have isOld : (Identifier.mk "com.app").directoryIn
        (Path.ofString "l/smali/") = Path.ofString "l/smali/com/app" := by
      decide +kernel
    have isNew : (Identifier.mk "com.appé").directoryIn
        (Path.ofString "l/smali/") = Path.ofString "l/smali/com/appé" := by
      decide +kernel
    rw [← isOld, ← isNew]
    exact (moves Tree.linkedPackage (by decide +kernel)).2.mpr
      ⟨mt isInside.mpr apart, mt isAround.mpr notAround⟩

end Identifier

end PackageRename
