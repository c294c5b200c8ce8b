import PackageRename.Proofs.Path.Below

/-!
# Components of paths

Of the pieces between its slashes, a path has those as components that are more
than spelling.  What two paths have in common as components, they have in common
as paths: where they lead, and what comes of them when they are joined.
-/

namespace PackageRename

/-- The piece that a component is written as. -/
def Component.piece : Component → Name
  | .root => []
  | .current => [dot]
  | .parent => [dot, dot]
  | .name entry => entry

namespace Path

variable {path other base back : Path} {pieces : List Name}

/-! ### Pieces that count -/

theorem isSpelling_iff {piece : Name} :
    isSpelling piece = true ↔ piece = [] ∨ piece = [dot] := by
  rw [isSpelling, Component.ofPiece?]
  split
  · rename_i empty
    simp [empty]
  · split
    · rename_i current
      simp [current]
    · split <;> simp [*]

/-- The pieces that are not spelling only. -/
def steps (pieces : List Name) : List Name :=
  pieces.filter fun piece => !isSpelling piece

theorem steps_append (front back : List Name) :
    steps (front ++ back) = steps front ++ steps back :=
  List.filter_append ..

theorem steps_steps (pieces : List Name) :
    steps (steps pieces) = steps pieces := by
  simp [steps]

/-- The last piece is spelling only, so that the pieces lead to a directory. -/
def EndsInSpelling (pieces : List Name) : Prop :=
  ∃ piece ∈ pieces.getLast?, isSpelling piece = true

instance (pieces : List Name) : Decidable (EndsInSpelling pieces) :=
  decidable_of_iff (pieces.getLast?.any isSpelling = true)
    (by rw [EndsInSpelling, Option.any_eq_true]; exact Iff.rfl)

theorem endsInSpelling_concat {piece : Name} :
    EndsInSpelling (pieces ++ [piece]) ↔ isSpelling piece = true := by
  simp [EndsInSpelling]

theorem endsInSpelling_append {more : List Name} (nonempty : more ≠ []) :
    EndsInSpelling (pieces ++ more) ↔ EndsInSpelling more := by
  obtain ⟨front, last, isMore⟩ :=
    (List.eq_nil_or_concat more).resolve_left nonempty
  rw [List.concat_eq_append] at isMore
  rw [isMore, ← List.append_assoc, endsInSpelling_concat,
    endsInSpelling_concat]

theorem filterMap_eq_filterMap_steps (pieces : List Name) :
    pieces.filterMap Component.ofPiece? =
      (steps pieces).filterMap Component.ofPiece? := by
  induction pieces with
  | nil => rfl
  | cons piece rest induction =>
      rw [steps, List.filter_cons]
      cases isComponent : Component.ofPiece? piece with
      | none =>
          have spelling : isSpelling piece = true := by
            rw [isSpelling, isComponent]
            rfl
          rw [List.filterMap_cons_none isComponent, spelling, induction]
          rfl
      | some component =>
          have notSpelling : isSpelling piece = false := by
            rw [isSpelling, isComponent]
            rfl
          rw [List.filterMap_cons_some isComponent, notSpelling, induction]
          simp [steps, isComponent]

theorem map_piece_filterMap (pieces : List Name) :
    (pieces.filterMap Component.ofPiece?).map Component.piece =
      steps pieces := by
  induction pieces with
  | nil => rfl
  | cons piece rest induction =>
      rw [steps, List.filter_cons]
      cases isComponent : Component.ofPiece? piece with
      | none =>
          have spelling : isSpelling piece = true := by
            rw [isSpelling, isComponent]
            rfl
          rw [List.filterMap_cons_none isComponent, spelling, induction]
          rfl
      | some component =>
          have notSpelling : isSpelling piece = false := by
            rw [isSpelling, isComponent]
            rfl
          have isPiece : component.piece = piece := by
            rw [Component.ofPiece?] at isComponent
            split at isComponent
            · cases isComponent
            · split at isComponent
              · cases isComponent
              · split at isComponent
                · rename_i isParent
                  cases isComponent
                  exact isParent.symm
                · cases isComponent
                  rfl
          rw [List.filterMap_cons_some isComponent, List.map_cons, induction,
            isPiece, notSpelling]
          rfl

/-! ### Components tell where a path leads -/

theorem spelling_of_lead? {first : Name} {rest : List Name}
    (isPieces : path.pieces = first :: rest) (leads : path.lead?.isSome) :
    isSpelling first = true := by
  have heads := path.takeWhile_eq_head_pieces
  rw [isPieces, List.head?_cons, Option.some_inj] at heads
  rw [isSpelling_iff]
  rw [lead?] at leads
  split at leads
  · rename_i absolute
    left
    rw [isAbsolute, beq_iff_eq] at absolute
    rw [← heads]
    cases isBytes : path.bytes with
    | nil => rfl
    | cons byte more =>
        rw [isBytes, List.head?_cons, Option.some_inj] at absolute
        simp [absolute]
  · split at leads
    · rename_i current
      right
      rw [← heads, current]
    · cases leads

/-- A path without a lead opens with a piece that counts. -/
theorem not_isSpelling_of_lead? {first : Name} {rest : List Name}
    (written : path.bytes ≠ []) (isPieces : path.pieces = first :: rest)
    (leadless : path.lead? = none) : isSpelling first = false := by
  have heads := path.takeWhile_eq_head_pieces
  rw [isPieces, List.head?_cons, Option.some_inj] at heads
  rw [Bool.eq_false_iff, ne_eq, isSpelling_iff]
  rw [lead?] at leadless
  split at leadless
  · cases leadless
  rename_i relative
  split at leadless
  · cases leadless
  rename_i notCurrent
  rintro (empty | current)
  · cases isBytes : path.bytes with
    | nil => exact written isBytes
    | cons byte more =>
        rw [isAbsolute, isBytes, List.head?_cons] at relative
        rw [empty, isBytes, List.takeWhile_cons] at heads
        split at heads
        · cases heads
        · rename_i isSlash
          simp at isSlash
          simp [isSlash] at relative
  · exact notCurrent (heads.trans current)

theorem steps_body (path : Path) : steps path.body = steps path.pieces := by
  rw [body]
  split
  · rename_i leads
    cases isPieces : path.pieces with
    | nil => rfl
    | cons first rest =>
        have spelling := spelling_of_lead? isPieces leads
        rw [List.tail_cons, steps, steps, List.filter_cons, spelling]
        rfl
  · rfl

theorem root_not_mem_filterMap (pieces : List Name) :
    Component.root ∉ pieces.filterMap Component.ofPiece? ∧
      Component.current ∉ pieces.filterMap Component.ofPiece? := by
  have noLead : ∀ piece component,
      Component.ofPiece? piece = some component →
      component ≠ .root ∧ component ≠ .current := by
    intro piece component isComponent
    rw [Component.ofPiece?] at isComponent
    split at isComponent
    · cases isComponent
    · split at isComponent
      · cases isComponent
      · split at isComponent <;> cases isComponent <;> simp
  constructor
  · intro member
    obtain ⟨piece, -, isComponent⟩ := List.mem_filterMap.mp member
    exact (noLead piece _ isComponent).1 rfl
  · intro member
    obtain ⟨piece, -, isComponent⟩ := List.mem_filterMap.mp member
    exact (noLead piece _ isComponent).2 rfl

theorem isAbsolute_iff : path.isAbsolute = true ↔
    Component.root ∈ path.components := by
  rw [components, List.mem_append,
    or_iff_left (root_not_mem_filterMap path.body).1, Option.mem_toList, lead?]
  split
  · simp [*]
  · split <;> simp [*]

theorem isAbsolute_eq_of_components
    (same : path.components = other.components) :
    path.isAbsolute = other.isAbsolute := by
  rw [Bool.eq_iff_iff, isAbsolute_iff, isAbsolute_iff, same]

/-- The pieces that count are those of the components. -/
theorem steps_pieces (path : Path) :
    steps path.pieces = steps (path.components.map Component.piece) := by
  have leadless : steps (path.lead?.toList.map Component.piece) = [] := by
    rw [lead?]
    split
    · rfl
    · split <;> rfl
  rw [components, List.map_append, map_piece_filterMap, steps_append, leadless,
    steps_steps, steps_body, List.nil_append]

theorem steps_eq_of_components (same : path.components = other.components) :
    steps path.pieces = steps other.pieces := by
  rw [steps_pieces path, steps_pieces other, same]

theorem components_eq_nil_iff : path.components = [] ↔ path.bytes = [] := by
  constructor
  · intro none
    rw [components, List.append_eq_nil_iff] at none
    have leadless : path.lead? = .none := by simpa using none.1
    apply Classical.byContradiction
    intro written
    cases isPieces : path.pieces with
    | nil => exact absurd isPieces path.pieces_ne_nil
    | cons first rest =>
        have counts := not_isSpelling_of_lead? written isPieces leadless
        have noSteps := none.2
        rw [body, leadless, isPieces] at noSteps
        rw [isSpelling] at counts
        cases isComponent : Component.ofPiece? first with
        | none => simp [isComponent] at counts
        | some component => simp [isComponent] at noSteps
  · intro empty
    rw [components, lead?, body, lead?, isAbsolute, pieces, empty]
    decide

/-! ### Joining -/

theorem join_of_absolute (absolute : back.isAbsolute = true) :
    base.join back = back :=
  if_pos absolute

theorem join_assoc (base back path : Path) :
    (base.join back).join path = base.join (back.join path) := by
  by_cases absolute : path.isAbsolute = true
  · simp only [join_of_absolute absolute]
  have relative : path.isAbsolute = false := by simpa using absolute
  by_cases empty : back.bytes = []
  · have isBack : back = ⟨[]⟩ := ext_bytes empty
    have open_ : ¬ (base.join ⟨[]⟩).IsClosed := by
      rintro ⟨written, notSlash⟩
      rw [bytes_join rfl] at written notSlash
      split at notSlash
      · simp at notSlash
      · rename_i opened
        rw [List.append_nil] at notSlash
        rw [if_neg opened, List.append_nil] at written
        exact opened ⟨written, notSlash⟩
    rw [isBack, @join_of_empty ⟨[]⟩ rfl]
    apply ext_bytes
    rw [bytes_join relative, bytes_join relative, if_neg open_,
      bytes_join rfl]
    split <;> simp
  · by_cases backAbsolute : back.isAbsolute = true
    · have joinedAbsolute : (back.join path).isAbsolute = true := by
        rw [isAbsolute_join empty relative, backAbsolute]
      rw [join_of_absolute backAbsolute, join_of_absolute joinedAbsolute]
    · have backRelative : back.isAbsolute = false := by simpa using backAbsolute
      have joinedRelative : (back.join path).isAbsolute = false := by
        rw [isAbsolute_join empty relative, backRelative]
      have sameEnd : (base.join back).IsClosed ↔ back.IsClosed := by
        have last : (base.join back).bytes.getLast? = back.bytes.getLast? := by
          rw [bytes_join backRelative]
          obtain ⟨front, byte, isBytes⟩ :=
            (List.eq_nil_or_concat back.bytes).resolve_left empty
          rw [List.concat_eq_append] at isBytes
          split <;> simp [isBytes, List.getLast?_cons]
        rw [IsClosed, IsClosed, last]
        refine and_congr_left fun _ => iff_of_true ?_ empty
        intro none
        rw [none] at last
        exact empty (List.getLast?_eq_none_iff.mp last.symm)
      apply ext_bytes
      rw [bytes_join relative, bytes_join joinedRelative,
        bytes_join backRelative, bytes_join relative]
      simp only [sameEnd]
      split <;> split <;> simp

theorem below_join (base back : Path) (names : List Name) :
    (base.join back).below names = base.join (back.below names) := by
  induction names generalizing back with
  | nil => rfl
  | cons name rest induction =>
      rw [below_cons, below_cons, join_assoc, induction]

theorem components_join (written : base.bytes ≠ [])
    (relative : back.isAbsolute = false) :
    (base.join back).components =
      base.components ++ back.pieces.filterMap Component.ofPiece? := by
  rw [components, lead?_join written relative, body_join written relative,
    components_eq_stemBody, List.filterMap_append, List.append_assoc]

/-! ### Dropping a base -/

theorem filterMap_dropComponents (count : Nat) (pieces : List Name) :
    (dropComponents count pieces).filterMap Component.ofPiece? =
      (pieces.filterMap Component.ofPiece?).drop count := by
  induction pieces generalizing count with
  | nil => cases count <;> simp [dropComponents]
  | cons piece rest induction =>
      cases count with
      | zero => rfl
      | succ count =>
          rw [dropComponents, isSpelling]
          cases isComponent : Component.ofPiece? piece with
          | none =>
              rw [List.filterMap_cons_none isComponent]
              simp only [Option.isNone_none, if_true]
              exact induction (count + 1)
          | some component =>
              rw [List.filterMap_cons_some isComponent, List.drop_succ_cons]
              simp only [Option.isNone_some, Bool.false_eq_true, if_false]
              exact induction count

theorem dropComponents_suffix (count : Nat) (pieces : List Name) :
    dropComponents count pieces <:+ pieces := by
  induction pieces generalizing count with
  | nil => cases count <;> exact List.suffix_refl []
  | cons piece rest induction =>
      cases count with
      | zero => exact List.suffix_refl _
      | succ count =>
          rw [dropComponents]
          split
          · exact (induction (count + 1)).trans (List.suffix_cons piece rest)
          · exact (induction count).trans (List.suffix_cons piece rest)

/-- Dropping the components of a front leaves what follows it, perhaps behind
some spelling. -/
theorem dropComponents_append {front back : List Name} :
    ∃ gap, (∀ piece ∈ gap, isSpelling piece = true) ∧
      dropComponents (front.filterMap Component.ofPiece?).length
        (front ++ back) = gap ++ back := by
  induction front with
  | nil => exact ⟨[], nofun, by cases back <;> rfl⟩
  | cons piece rest induction =>
      obtain ⟨gap, areSpelling, isDropped⟩ := induction
      cases isComponent : Component.ofPiece? piece with
      | none =>
          have spelling : isSpelling piece = true := by
            rw [isSpelling, isComponent]
            rfl
          rw [List.filterMap_cons_none isComponent, List.cons_append]
          cases isCount : (rest.filterMap Component.ofPiece?).length with
          | zero =>
              rw [isCount, dropComponents] at isDropped
              refine ⟨piece :: gap, ?_, ?_⟩
              · exact List.forall_mem_cons.mpr ⟨spelling, areSpelling⟩
              · rw [dropComponents, isDropped, List.cons_append]
          | succ count =>
              refine ⟨gap, areSpelling, ?_⟩
              rw [dropComponents, if_pos spelling, ← isCount, isDropped]
      | some component =>
          have notSpelling : isSpelling piece = false := by
            rw [isSpelling, isComponent]
            rfl
          refine ⟨gap, areSpelling, ?_⟩
          rw [List.filterMap_cons_some isComponent, List.length_cons,
            List.cons_append, dropComponents, notSpelling,
            if_neg Bool.false_ne_true, isDropped]

/-! ### Trimming -/

theorem steps_dropWhile (pieces : List Name) :
    steps (pieces.dropWhile isSpelling) = steps pieces := by
  induction pieces with
  | nil => rfl
  | cons piece rest induction =>
      rw [List.dropWhile_cons]
      split
      · rename_i spelling
        rw [induction, steps, steps, List.filter_cons, spelling]
        rfl
      · rfl

theorem steps_trimEnd (pieces : List Name) :
    steps (trimEnd pieces) = steps pieces := by
  have isReversed : ∀ pieces : List Name,
      steps pieces.reverse = (steps pieces).reverse := fun pieces =>
    List.filter_reverse ..
  rw [trimEnd, isReversed, steps_dropWhile, isReversed, List.reverse_reverse]

theorem filterMap_trimEnd (pieces : List Name) :
    (trimEnd pieces).filterMap Component.ofPiece? =
      pieces.filterMap Component.ofPiece? := by
  rw [filterMap_eq_filterMap_steps, steps_trimEnd,
    ← filterMap_eq_filterMap_steps]

theorem trimEnd_starts (pieces : List Name) : trimEnd pieces <+: pieces := by
  rw [trimEnd, ← List.reverse_suffix, List.reverse_reverse]
  exact List.dropWhile_suffix _

theorem not_endsInSpelling_trimEnd (pieces : List Name) :
    ¬ EndsInSpelling (trimEnd pieces) := by
  rintro ⟨piece, isLast, spelling⟩
  rw [trimEnd, List.getLast?_reverse] at isLast
  have stopped := List.head?_dropWhile_not isSpelling pieces.reverse
  rw [isLast] at stopped
  simp [spelling] at stopped

theorem trimEnd_of_not_endsInSpelling (closed : ¬ EndsInSpelling pieces) :
    trimEnd pieces = pieces := by
  rcases List.eq_nil_or_concat pieces with empty | ⟨front, last, isPieces⟩
  · rw [empty]
    rfl
  · rw [List.concat_eq_append] at isPieces
    rw [isPieces, endsInSpelling_concat] at closed
    rw [isPieces, trimEnd, List.reverse_append, List.reverse_singleton,
      List.singleton_append, List.dropWhile_cons_of_neg closed,
      List.reverse_cons, List.reverse_reverse]

/-- A list of pieces that neither starts nor ends in spelling. -/
structure IsCore (pieces : List Name) : Prop where
  starts : ∀ piece ∈ pieces.head?, isSpelling piece = false
  ends : ¬ EndsInSpelling pieces
  slashless : ∀ piece ∈ pieces, slash ∉ piece

theorem isCore_trim (slashless : ∀ piece ∈ pieces, slash ∉ piece) :
    IsCore (trimEnd (pieces.dropWhile isSpelling)) := by
  refine ⟨?_, not_endsInSpelling_trimEnd _, ?_⟩
  · intro piece isFirst
    obtain ⟨more, isSplit⟩ := trimEnd_starts (pieces.dropWhile isSpelling)
    have stopped := List.head?_dropWhile_not isSpelling pieces
    rw [← isSplit, List.head?_append, Option.mem_def.mp isFirst] at stopped
    simpa using stopped
  · intro piece member
    apply slashless
    rw [trimEnd, List.mem_reverse] at member
    have inMiddle := (List.dropWhile_suffix _).subset member
    rw [List.mem_reverse] at inMiddle
    exact (List.dropWhile_suffix _).subset inMiddle

theorem IsCore.isAbsolute {core : List Name} (isCore : IsCore core) :
    (ofPieces core).isAbsolute = false := by
  cases core with
  | nil => rfl
  | cons first rest =>
      have notSpelling := isCore.starts first rfl
      have slashless := isCore.slashless first List.mem_cons_self
      rw [Path.isAbsolute, bytes_ofPieces_cons, beq_eq_false_iff_ne]
      cases isFirst : first with
      | nil =>
          rw [isFirst] at notSpelling
          exact absurd notSpelling (by decide)
      | cons byte more =>
          rw [isFirst, List.mem_cons, not_or] at slashless
          simpa using Ne.symm slashless.1

theorem IsCore.pieces_ofPieces {core : List Name} (isCore : IsCore core)
    (nonempty : core ≠ []) : (ofPieces core).pieces = core :=
  List.splitOn_intercalate slash isCore.slashless nonempty

theorem IsCore.eq_nil_iff {core : List Name} (isCore : IsCore core) :
    core = [] ↔ core.filterMap Component.ofPiece? = [] := by
  constructor
  · intro empty
    rw [empty]
    rfl
  · intro none
    cases core with
    | nil => rfl
    | cons first rest =>
        have notSpelling := isCore.starts first rfl
        rw [isSpelling] at notSpelling
        cases isComponent : Component.ofPiece? first with
        | none => simp [isComponent] at notSpelling
        | some component => simp [isComponent] at none

/-! ### Spelling a path -/

theorem mem_pieces_of_mem_body {piece : Name} (member : piece ∈ path.body) :
    piece ∈ path.pieces := by
  rw [body] at member
  split at member
  · exact List.mem_of_mem_tail member
  · exact member

theorem lead?_cases (path : Path) :
    path.lead? = none ∨ path.lead? = some .root ∨ path.lead? = some .current := by
  rw [lead?]
  split
  · exact .inr (.inl rfl)
  · split
    · exact .inr (.inr rfl)
    · exact .inl rfl

/-- A path without a lead opens with a piece that counts, and so does what is
left of its first pieces. -/
theorem isCore_trimEnd_of_starts {front : List Name}
    (leadless : path.lead? = none) (written : path.bytes ≠ [])
    (opens : front <+: path.body) : IsCore (trimEnd front) := by
  have starts : trimEnd front <+: path.pieces := by
    have early := (trimEnd_starts front).trans opens
    rwa [body, leadless] at early
  refine ⟨fun piece isFirst => ?_, not_endsInSpelling_trimEnd _,
    fun piece member => slash_not_mem_of_mem_pieces (starts.mem member)⟩
  obtain ⟨more, isPieces⟩ := starts
  obtain ⟨rest, isFront⟩ := List.head?_eq_some_iff.mp isFirst
  rw [isFront, List.cons_append] at isPieces
  exact not_isSpelling_of_lead? written isPieces.symm leadless

theorem components_ofPieces (isCore : IsCore pieces) :
    (ofPieces pieces).components = pieces.filterMap Component.ofPiece? := by
  by_cases empty : pieces = []
  · rw [empty]
    rfl
  · have isPieces := isCore.pieces_ofPieces empty
    have heads := (ofPieces pieces).takeWhile_eq_head_pieces
    have isLead : (ofPieces pieces).lead? = none := by
      rw [lead?, isCore.isAbsolute, if_neg Bool.false_ne_true, if_neg]
      intro isDot
      rw [isDot, isPieces] at heads
      exact absurd (isCore.starts [dot] heads.symm) (by decide)
    rw [components, body, isLead, isPieces]
    rfl

theorem components_spell_root (slashless : ∀ piece ∈ pieces, slash ∉ piece) :
    (spell (some .root) pieces).components =
      .root :: pieces.filterMap Component.ofPiece? := by
  have isBody : (spell (some .root) pieces).body = (ofPieces pieces).pieces :=
    congrArg List.tail (@List.splitOn_append_cons_self _ _ _ slash []
      (ofPieces pieces).bytes)
  have isLead : (spell (some .root) pieces).lead? = some .root := rfl
  rw [components, isLead, isBody]
  by_cases empty : pieces = []
  · rw [empty]
    rfl
  · rw [Path.pieces, ofPieces, List.splitOn_intercalate slash slashless empty]
    rfl

theorem components_spell_current (slashless : ∀ piece ∈ pieces, slash ∉ piece) :
    (spell (some .current) pieces).components =
      .current :: pieces.filterMap Component.ofPiece? := by
  have isPieces : (ofPieces ([dot] :: pieces)).pieces = [dot] :: pieces := by
    refine List.splitOn_intercalate slash ?_ (List.cons_ne_nil _ _)
    exact List.forall_mem_cons.mpr ⟨by decide, slashless⟩
  have isLead : (ofPieces ([dot] :: pieces)).lead? = some .current := by
    have heads := (ofPieces ([dot] :: pieces)).takeWhile_eq_head_pieces
    rw [isPieces, List.head?_cons, Option.some_inj] at heads
    rw [lead?, if_neg, if_pos heads]
    rw [isAbsolute, bytes_ofPieces_cons]
    change ¬ (some dot == some slash) = true
    decide
  change (ofPieces ([dot] :: pieces)).components = _
  rw [components, body, isLead, isPieces]
  rfl

/-- A path that is spelled with the lead and the first pieces of another has the
components of these. -/
theorem components_spell_front {front : List Name} (written : path.bytes ≠ [])
    (opens : front <+: path.body) :
    (spell path.lead? (trimEnd front)).components =
      path.lead?.toList ++ front.filterMap Component.ofPiece? := by
  have slashless : ∀ piece ∈ trimEnd front, slash ∉ piece :=
    fun piece member => slash_not_mem_of_mem_pieces
      (mem_pieces_of_mem_body (opens.mem ((trimEnd_starts front).mem member)))
  rw [← filterMap_trimEnd]
  rcases path.lead?_cases with leadless | absolute | current
  · rw [leadless]
    exact components_ofPieces
      (isCore_trimEnd_of_starts leadless written opens)
  · rw [absolute]
    exact components_spell_root slashless
  · rw [current]
    exact components_spell_current slashless

/-- The spelling at the end of a path is none of its components. -/
theorem components_trimmed (path : Path) :
    (spell path.lead? (trimEnd path.body)).components = path.components := by
  by_cases empty : path.bytes = []
  · have isPath : path = ⟨[]⟩ := ext_bytes empty
    rw [isPath]
    decide
  · exact components_spell_front empty (List.prefix_refl _)

end Path

end PackageRename
