import PackageRename.Proofs.Path.Components

/-!
# Paths relative to a base

What a path comes to relative to a base, joined to the base again, has the same
components as the path.  It also ends the same way, unless the path is another
spelling of the base.
-/

namespace PackageRename

namespace Path

variable {path base back : Path}

/-! ### Relative paths -/

theorem startsWith_iff :
    path.startsWith base = true ↔ base.components <+: path.components :=
  List.isPrefixOf_iff_prefix

/-- The pieces behind the components of a base. -/
def piecesBehind (base path : Path) : List Name :=
  if path.lead?.isSome then
    dropComponents (base.components.length - 1) path.body
  else dropComponents base.components.length path.body

theorem relativeTo_eq (written : base.bytes ≠ [])
    (starts : base.components <+: path.components) :
    path.relativeTo base =
      ofPieces (trimEnd ((piecesBehind base path).dropWhile isSpelling)) := by
  rw [relativeTo, if_pos (startsWith_iff.mpr starts), piecesBehind]
  cases isLength : base.components.length with
  | zero =>
      exact absurd (components_eq_nil_iff.mp (List.length_eq_zero_iff.mp isLength))
        written
  | succ count => rfl

theorem filterMap_piecesBehind (written : base.bytes ≠ []) :
    (piecesBehind base path).filterMap Component.ofPiece? =
      path.components.drop base.components.length := by
  have positive : 0 < base.components.length :=
    List.length_pos_iff.mpr (mt components_eq_nil_iff.mp written)
  have isPath : path.components = path.lead?.toList ++
      path.body.filterMap Component.ofPiece? := rfl
  rw [piecesBehind, isPath]
  cases isLead : path.lead? with
  | none =>
      simp only [Option.isSome_none, Bool.false_eq_true, if_false]
      rw [filterMap_dropComponents]
      rfl
  | some component =>
      simp only [Option.isSome_some, if_true]
      rw [filterMap_dropComponents, Option.toList_some, List.singleton_append]
      obtain ⟨count, isCount⟩ := Nat.exists_eq_succ_of_ne_zero
        (Nat.ne_of_gt positive)
      rw [isCount, List.drop_succ_cons, Nat.succ_sub_one]

theorem exists_core (written : base.bytes ≠ [])
    (starts : base.components <+: path.components) :
    ∃ core, IsCore core ∧ path.relativeTo base = ofPieces core ∧
      path.components =
        base.components ++ core.filterMap Component.ofPiece? := by
  have slashless : ∀ piece ∈ piecesBehind base path, slash ∉ piece := by
    intro piece member
    have inBody : piece ∈ path.body := by
      rw [piecesBehind] at member
      split at member <;>
        exact (dropComponents_suffix _ _).subset member
    exact slash_not_mem_of_mem_pieces (mem_pieces_of_mem_body inBody)
  refine ⟨_, isCore_trim slashless, relativeTo_eq written starts, ?_⟩
  obtain ⟨more, isComponents⟩ := starts
  rw [filterMap_eq_filterMap_steps, steps_trimEnd, steps_dropWhile,
    ← filterMap_eq_filterMap_steps, filterMap_piecesBehind written,
    ← isComponents, List.drop_left]

/-- A path that starts with the base has its components again when it is joined
to the base, and ends in a slash only if there is nothing behind the base. -/
theorem join_relativeTo_of_startsWith (written : base.bytes ≠ [])
    (starts : base.components <+: path.components) :
    (base.join (path.relativeTo base)).components = path.components ∧
      (EndsInSpelling (base.join (path.relativeTo base)).pieces ↔
        path.components = base.components) := by
  obtain ⟨core, isCore, isRelative, isComponents⟩ := exists_core written starts
  have isPieces := @pieces_join base (ofPieces core) isCore.isAbsolute
  rw [isRelative, components_join written isCore.isAbsolute, isComponents]
  by_cases empty : core = []
  · rw [empty] at isPieces ⊢
    refine ⟨by rfl, ?_⟩
    rw [isPieces]
    change EndsInSpelling (base.stem ++ [[]]) ↔ _
    rw [endsInSpelling_concat]
    exact iff_of_true rfl (List.append_nil _)
  · rw [isPieces, isCore.pieces_ofPieces empty]
    refine ⟨rfl, ?_⟩
    rw [endsInSpelling_append empty, List.append_right_eq_self,
      ← isCore.eq_nil_iff]
    exact iff_of_false isCore.ends empty

/-! ### Leading back -/

theorem relativeTo_of_empty (empty : base.bytes = []) :
    path.relativeTo base = spell path.lead? (trimEnd path.body) := by
  have none := components_eq_nil_iff.mpr empty
  rw [relativeTo, if_pos, none]
  · rfl
  · rw [startsWith_iff, none]
    exact List.nil_prefix

/-- What is behind the base leads back when it is joined to the base. -/
theorem components_join_relativeTo
    (starts : base.components <+: path.components) :
    (base.join (path.relativeTo base)).components = path.components := by
  by_cases empty : base.bytes = []
  · rw [join_of_empty empty, relativeTo_of_empty empty, components_trimmed]
  · exact (join_relativeTo_of_startsWith empty starts).1

/-- It leads back to another spelling of the path. -/
example : (Path.ofString "p//").join
    ((Path.ofString "p/./a").relativeTo (Path.ofString "p//")) =
      Path.ofString "p//a" := by
  decide +kernel

theorem relativeTo_of_outside
    (outside : ¬ base.components <+: path.components) :
    path.relativeTo base = path := by
  apply relativeTo_eq_self
  rwa [← Bool.not_eq_true, startsWith_iff]

/-- What is joined to a base lies behind it unless it is absolute. -/
theorem isAbsolute_of_outside
    (outside : ¬ base.components <+: (base.join back).components) :
    back.isAbsolute = true := by
  cases relative : back.isAbsolute with
  | true => rfl
  | false =>
      refine absurd ?_ outside
      by_cases empty : base.bytes = []
      · rw [components_eq_nil_iff.mpr empty]
        exact List.nil_prefix
      · rw [components_join empty relative]
        exact List.prefix_append _ _

/-- Whatever is joined to a base is shown by a path that leads back to it: it is
behind the base, or the base has no part in it. -/
theorem components_join_shown (base back : Path) :
    (base.join ((base.join back).relativeTo base)).components =
      (base.join back).components := by
  by_cases starts : base.components <+: (base.join back).components
  · exact components_join_relativeTo starts
  · rw [relativeTo_of_outside starts]
    have absolute := isAbsolute_of_outside starts
    rw [join_of_absolute absolute, join_of_absolute absolute]

/-! ### What is joined to a base -/

/-- What is processed is named by what is joined to the base: it is a name and
not the spelling of a directory, unless it is nothing or the base itself. -/
def IsNamed (base back : Path) : Prop :=
  ¬ EndsInSpelling (base.join back).pieces ∨ back.bytes = [] ∨
    back.bytes = [dot]

/-- The text goes on below the base as it is written. -/
def IsStraight (back : Path) : Prop :=
  back.isAbsolute = false ∧ back.pieces.head? ≠ some [dot]

/-- How a path is written that ends like that of a directory. -/
theorem bytes_of_endsInSpelling (ends : EndsInSpelling path.pieces) :
    path.bytes = [] ∨ path.bytes = [dot] ∨ [slash] <:+ path.bytes ∨
      [slash, dot] <:+ path.bytes := by
  obtain ⟨first, rest, isPieces⟩ :=
    List.exists_cons_of_ne_nil path.pieces_ne_nil
  have isBytes : path.bytes = first ++ rest.flatMap (slash :: ·) := by
    rw [← bytes_ofPieces_cons, ← isPieces, ofPieces_pieces]
  rw [isPieces] at ends
  rcases List.eq_nil_or_concat rest with rfl | ⟨more, last, isRest⟩
  · obtain ⟨last, isLast, spelling⟩ := ends
    cases isLast
    rw [List.flatMap_nil, List.append_nil] at isBytes
    rw [isBytes]
    exact (isSpelling_iff.mp spelling).imp_right Or.inl
  · rw [List.concat_eq_append] at isRest
    rw [isRest, ← List.cons_append, endsInSpelling_concat] at ends
    have written : path.bytes =
        (first ++ more.flatMap (slash :: ·)) ++ slash :: last := by
      rw [isBytes, isRest, List.flatMap_append, List.append_assoc,
        List.flatMap_singleton]
    rw [written]
    rcases isSpelling_iff.mp ends with rfl | rfl
    · exact .inr (.inr (.inl (List.suffix_append _ _)))
    · exact .inr (.inr (.inr (List.suffix_append _ _)))

/-- A path that is written without a slash or `/.` at its end names what it is
joined for. -/
theorem isNamed_of_not_suffix (notSlash : ¬ [slash] <:+ back.bytes)
    (notDotted : ¬ [slash, dot] <:+ back.bytes) : base.IsNamed back := by
  by_cases ends : EndsInSpelling back.pieces
  · right
    rcases bytes_of_endsInSpelling ends with empty | isDot | slashed | dotted
    · exact .inl empty
    · exact .inr isDot
    · exact absurd slashed notSlash
    · exact absurd dotted notDotted
  · left
    cases isAbsolute : back.isAbsolute with
    | true => rwa [join_of_absolute isAbsolute]
    | false =>
        rwa [pieces_join isAbsolute, endsInSpelling_append back.pieces_ne_nil]

/-- A path with a name at its end has a body to trim. -/
theorem trimEnd_body (closed : ¬ EndsInSpelling path.pieces) :
    trimEnd path.body = path.body := by
  apply trimEnd_of_not_endsInSpelling
  rw [body]
  split
  · rename_i leads
    cases isPieces : path.pieces with
    | nil => exact absurd isPieces path.pieces_ne_nil
    | cons first rest =>
        cases rest with
        | nil => simp [EndsInSpelling]
        | cons second more =>
            rw [isPieces, ← List.singleton_append,
              endsInSpelling_append (List.cons_ne_nil _ _)] at closed
            exact closed
  · exact closed

theorem relativeTo_empty_eq_self (empty : base.bytes = [])
    (named : base.IsNamed path) : path.relativeTo base = path := by
  rw [relativeTo_of_empty empty]
  rcases named with closed | isEmpty | isDot
  · rw [join_of_empty empty] at closed
    rw [trimEnd_body closed, spell_body]
  · have isPath : path = ⟨[]⟩ := ext_bytes isEmpty
    rw [isPath]
    decide
  · have isPath : path = ⟨[dot]⟩ := ext_bytes isDot
    rw [isPath]
    decide

/-- A processed path has the components of what is joined for its event, and
ends the same way unless it is another spelling of the base. -/
theorem join_relativeTo_join (named : base.IsNamed back) :
    (base.join ((base.join back).relativeTo base)).components =
        (base.join back).components ∧
      ((EndsInSpelling (base.join ((base.join back).relativeTo base)).pieces ↔
          EndsInSpelling (base.join back).pieces) ∨
        (base.join back).components = base.components) := by
  refine ⟨components_join_shown base back, ?_⟩
  by_cases empty : base.bytes = []
  · left
    rw [join_of_empty empty, join_of_empty empty,
      relativeTo_empty_eq_self empty named]
  by_cases starts : base.components <+: (base.join back).components
  · obtain ⟨-, ends⟩ := join_relativeTo_of_startsWith empty starts
    by_cases sameBase : (base.join back).components = base.components
    · exact .inr sameBase
    · left
      rw [ends]
      refine iff_of_false sameBase ?_
      rcases named with closed | isEmpty | isDot
      · exact closed
      · rw [components_join empty (by rw [isAbsolute, isEmpty]; rfl), pieces,
          isEmpty] at sameBase
        exact absurd (List.append_nil _) sameBase
      · rw [components_join empty (by rw [isAbsolute, isDot]; rfl), pieces,
          isDot] at sameBase
        exact absurd (List.append_nil _) sameBase
  · left
    have absolute := isAbsolute_of_outside starts
    rw [relativeTo_of_outside starts, join_of_absolute absolute,
      join_of_absolute absolute]

/-- A straight path is the one that is joined for its event. -/
theorem join_relativeTo_of_straight (straight : back.IsStraight)
    (closed : ¬ EndsInSpelling (base.join back).pieces ∨ back.bytes = []) :
    base.join ((base.join back).relativeTo base) = base.join back := by
  obtain ⟨relative, notCurrent⟩ := straight
  by_cases empty : base.bytes = []
  · have named : base.IsNamed back :=
      closed.imp_right fun isEmpty => .inl isEmpty
    rw [join_of_empty empty, join_of_empty empty,
      relativeTo_empty_eq_self empty named]
  have starts : base.components <+: (base.join back).components := by
    rw [components_join empty relative]
    exact List.prefix_append _ _
  have isStem : base.components =
      base.lead?.toList ++ base.stemBody.filterMap Component.ofPiece? :=
    components_eq_stemBody base
  -- what is dropped ends with the last component of the base
  have isBehind : ∃ gap, (∀ piece ∈ gap, isSpelling piece = true) ∧
      piecesBehind base (base.join back) = gap ++ back.pieces := by
    obtain ⟨gap, areSpelling, isDropped⟩ :=
      @dropComponents_append base.stemBody back.pieces
    refine ⟨gap, areSpelling, ?_⟩
    rw [piecesBehind, body_join empty relative, lead?_join empty relative,
      isStem]
    cases isLead : base.lead? with
    | none => exact isDropped
    | some component =>
        rw [Option.toList_some, List.singleton_append, List.length_cons,
          Nat.add_sub_cancel]
        exact isDropped
  obtain ⟨gap, areSpelling, isBehind⟩ := isBehind
  rw [relativeTo_eq empty starts, isBehind]
  have skipped : (gap ++ back.pieces).dropWhile isSpelling =
      back.pieces.dropWhile isSpelling := by
    rw [List.dropWhile_append_of_pos areSpelling]
  rw [skipped]
  by_cases isEmpty : back.bytes = []
  · have isBack : back = ⟨[]⟩ := ext_bytes isEmpty
    rw [isBack]
    rfl
  · have ends := closed.resolve_right isEmpty
    rw [pieces_join relative, endsInSpelling_append back.pieces_ne_nil] at ends
    have unskipped : back.pieces.dropWhile isSpelling = back.pieces := by
      cases isPieces : back.pieces with
      | nil => rfl
      | cons first rest =>
          apply List.dropWhile_cons_of_neg
          rw [isSpelling_iff]
          rintro (isFirst | isFirst)
          · have heads := back.takeWhile_eq_head_pieces
            rw [isPieces, isFirst, List.head?_cons, Option.some_inj] at heads
            cases isBytes : back.bytes with
            | nil => exact isEmpty isBytes
            | cons byte more =>
                rw [isAbsolute, isBytes, List.head?_cons,
                  beq_eq_false_iff_ne] at relative
                rw [isBytes, List.takeWhile_cons_of_pos] at heads
                · cases heads
                · simpa using relative
          · rw [isPieces, isFirst] at notCurrent
            exact notCurrent rfl
    rw [unskipped, trimEnd_of_not_endsInSpelling ends, ofPieces_pieces]

/-- A name in the base is what an event shows of it. -/
theorem relativeTo_join_name {name : Name} (plain : name.IsPlain) :
    (base.join ⟨name⟩).relativeTo base = ⟨name⟩ := by
  have closed : ¬ EndsInSpelling (base.join ⟨name⟩).pieces := by
    rw [pieces_join_name plain, endsInSpelling_concat, plain.not_isSpelling]
    exact Bool.false_ne_true
  by_cases empty : base.bytes = []
  · rw [join_of_empty empty] at closed ⊢
    exact relativeTo_empty_eq_self empty
      (.inl (by rwa [join_of_empty empty]))
  have straight : IsStraight ⟨name⟩ := by
    refine ⟨isAbsolute_name plain, ?_⟩
    rw [plain.pieces, List.head?_cons, ne_eq, Option.some_inj]
    exact plain.notCurrent
  have starts : base.components <+: (base.join ⟨name⟩).components := by
    rw [components_join empty (isAbsolute_name plain)]
    exact List.prefix_append _ _
  obtain ⟨core, isCore, isRelative, -⟩ := exists_core empty starts
  have relative : ((base.join ⟨name⟩).relativeTo base).isAbsolute = false := by
    rw [isRelative]
    exact isCore.isAbsolute
  have joined := congrArg bytes (join_relativeTo_of_straight straight
    (.inl closed))
  rw [bytes_join relative, bytes_join_name plain] at joined
  apply ext_bytes
  split at joined
  · exact (List.cons.inj (List.append_cancel_left joined)).2
  · exact List.append_cancel_left joined

end Path

end PackageRename
