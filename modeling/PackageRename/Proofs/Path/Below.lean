import PackageRename.Identifier

/-!
# Paths below a base

A walk, a package directory and a bytecode root are all reached by joining plain
names to a base one after the other.  Such a path has the components of its base
followed by its names, its parents are the paths below the same base with fewer
names, and its pieces are those of the base followed by its names.
-/

namespace PackageRename

/-- A name that stands for an entry of a directory and nothing else. -/
structure Name.IsPlain (name : Name) : Prop where
  nonempty : name ≠ []
  notCurrent : name ≠ [dot]
  notParent : name ≠ [dot, dot]
  slashless : slash ∉ name
  nulless : (0 : UInt8) ∉ name

instance (name : Name) : Decidable name.IsPlain :=
  decidable_of_iff
    (name ≠ [] ∧ name ≠ [dot] ∧ name ≠ [dot, dot] ∧ slash ∉ name ∧
      (0 : UInt8) ∉ name)
    ⟨fun ⟨nonempty, notCurrent, notParent, slashless, nulless⟩ =>
      ⟨nonempty, notCurrent, notParent, slashless, nulless⟩,
    fun plain => ⟨plain.nonempty, plain.notCurrent, plain.notParent,
      plain.slashless, plain.nulless⟩⟩

namespace Name.IsPlain

variable {name : Name}

theorem ofPiece? (plain : name.IsPlain) :
    Component.ofPiece? name = some (.name name) := by
  simp [Component.ofPiece?, plain.nonempty, plain.notCurrent, plain.notParent]

theorem not_isSpelling (plain : name.IsPlain) :
    Path.isSpelling name = false := by
  simp [Path.isSpelling, plain.ofPiece?]

theorem undotted (plain : name.IsPlain) : ¬ (name = [] ∨ name = [dot]) :=
  not_or.mpr ⟨plain.nonempty, plain.notCurrent⟩

theorem head?_ne_slash (plain : name.IsPlain) : name.head? ≠ some slash := by
  intro leading
  exact plain.slashless (List.mem_of_mem_head? (by simp [leading]))

theorem getLast?_ne_slash (plain : name.IsPlain) :
    name.getLast? ≠ some slash := by
  intro trailing
  exact plain.slashless (List.mem_of_getLast? trailing)

theorem pieces (plain : name.IsPlain) : Path.pieces ⟨name⟩ = [name] :=
  List.splitOn_eq_singleton plain.slashless

end Name.IsPlain

/-- What stands between separators holds none. -/
theorem separator_not_mem_of_mem_splitOn {α : Type} [DecidableEq α]
    {separator : α} {items piece : List α}
    (member : piece ∈ items.splitOn separator) : separator ∉ piece := by
  induction items generalizing piece with
  | nil =>
      rw [List.splitOn_nil, List.mem_singleton] at member
      simp [member]
  | cons head rest induction =>
      rw [List.splitOn_cons_eq_if_modifyHead] at member
      split at member
      · rcases List.mem_cons.mp member with first | later
        · simp [first]
        · exact induction later
      · rename_i different
        rw [beq_iff_eq] at different
        obtain ⟨first, more, isSplit⟩ :=
          List.exists_cons_of_ne_nil (List.splitOn_ne_nil separator rest)
        rw [isSplit] at induction member
        rw [List.modifyHead_cons, List.mem_cons] at member
        rcases member with isFirst | later
        · have kept := induction (List.mem_cons_self (a := first) (l := more))
          rw [isFirst, List.mem_cons, not_or]
          exact ⟨fun same => different same.symm, kept⟩
        · exact induction (List.mem_cons_of_mem _ later)

namespace Path

theorem ext_bytes {left right : Path} (same : left.bytes = right.bytes) :
    left = right := by
  cases left
  cases right
  exact congrArg Path.mk same

/-! ### Pieces -/

@[simp]
theorem ofPieces_pieces (path : Path) : ofPieces path.pieces = path :=
  ext_bytes (List.intercalate_splitOn slash)

theorem pieces_ne_nil (path : Path) : path.pieces ≠ [] :=
  List.splitOn_ne_nil _ _

theorem slash_not_mem_of_mem_pieces {path : Path} {piece : Name}
    (member : piece ∈ path.pieces) : slash ∉ piece :=
  separator_not_mem_of_mem_splitOn member

/-! ### Closed paths -/

/-- A path that a further name is set off from by a slash. -/
def IsClosed (path : Path) : Prop :=
  path.bytes ≠ [] ∧ path.bytes.getLast? ≠ some slash

instance (path : Path) : Decidable path.IsClosed :=
  inferInstanceAs (Decidable (_ ∧ _))

/-- The pieces that stand before a name joined to the path. -/
def stem (path : Path) : List Name :=
  if path.IsClosed then path.pieces else path.pieces.dropLast

theorem IsClosed.stem {path : Path} (closed : path.IsClosed) :
    path.stem = path.pieces :=
  if_pos closed

/-- A path that is not closed ends in an empty piece. -/
theorem pieces_of_not_isClosed {path : Path} (opened : ¬ path.IsClosed) :
    path.pieces = path.stem ++ [[]] := by
  rw [stem, if_neg opened]
  obtain ⟨bytes⟩ := path
  rcases List.eq_nil_or_concat bytes with empty | ⟨front, last, isBytes⟩
  · subst empty
    rfl
  · rw [List.concat_eq_append] at isBytes
    subst isBytes
    have isSlash : last = slash := by
      apply Classical.byContradiction
      intro different
      exact opened ⟨by simp, by simpa using different⟩
    subst isSlash
    change (front ++ [slash]).splitOn slash = _
    rw [pieces, List.splitOn_append_cons_self, List.splitOn_nil,
      List.dropLast_concat]

theorem isAbsolute_name {name : Name} (plain : name.IsPlain) :
    (Path.mk name).isAbsolute = false := by
  rw [isAbsolute, beq_eq_false_iff_ne]
  exact plain.head?_ne_slash

theorem bytes_join {base back : Path} (relative : back.isAbsolute = false) :
    (base.join back).bytes =
      if base.IsClosed then base.bytes ++ slash :: back.bytes
      else base.bytes ++ back.bytes := by
  rw [join, if_neg (by simp [relative])]
  by_cases closed : base.IsClosed
  · rw [if_pos closed, if_neg]
    rintro (empty | trailing)
    · exact closed.1 empty
    · exact closed.2 trailing
  · rw [if_neg closed, if_pos]
    apply Classical.byContradiction
    intro neither
    exact closed ⟨fun empty => neither (Or.inl empty),
      fun trailing => neither (Or.inr trailing)⟩

/-- The bytes of a base with a name joined to it. -/
theorem bytes_join_name {base : Path} {name : Name} (plain : name.IsPlain) :
    (base.join ⟨name⟩).bytes =
      if base.IsClosed then base.bytes ++ slash :: name
      else base.bytes ++ name :=
  bytes_join (isAbsolute_name plain)

/-- The pieces of a joined path come after those of the base. -/
theorem pieces_join {base back : Path} (relative : back.isAbsolute = false) :
    (base.join back).pieces = base.stem ++ back.pieces := by
  have bytes := @bytes_join base back relative
  by_cases closed : base.IsClosed
  · rw [if_pos closed] at bytes
    rw [pieces, bytes, List.splitOn_append_cons_self, closed.stem]
    rfl
  · rw [if_neg closed] at bytes
    rw [pieces, bytes]
    have isBase := pieces_of_not_isClosed closed
    rcases List.eq_nil_or_concat base.bytes with empty | ⟨front, last, isBytes⟩
    · have noStem : base.stem = [] := by
        rw [stem, if_neg closed, pieces, empty, List.splitOn_nil]
        rfl
      rw [empty, noStem, List.nil_append, List.nil_append]
      rfl
    · rw [List.concat_eq_append] at isBytes
      have isSlash : last = slash := by
        apply Classical.byContradiction
        intro different
        exact closed ⟨by simp [isBytes], by simpa [isBytes] using different⟩
      subst isSlash
      rw [pieces, isBytes, List.splitOn_append_cons_self,
        List.splitOn_nil] at isBase
      rw [isBytes, List.append_assoc, List.singleton_append,
        List.splitOn_append_cons_self, List.append_cancel_right isBase]
      rfl

theorem pieces_join_name {base : Path} {name : Name} (plain : name.IsPlain) :
    (base.join ⟨name⟩).pieces = base.stem ++ [name] := by
  rw [pieces_join (isAbsolute_name plain), plain.pieces]

theorem isClosed_join_name {base : Path} {name : Name} (plain : name.IsPlain) :
    (base.join ⟨name⟩).IsClosed := by
  have last : (base.join ⟨name⟩).bytes.getLast? = name.getLast? := by
    rw [bytes_join_name plain]
    cases isLast : name.getLast? with
    | none => exact absurd (List.getLast?_eq_none_iff.mp isLast) plain.nonempty
    | some byte => split <;> simp [List.getLast?_append, List.getLast?_cons, isLast]
  refine ⟨?_, last ▸ plain.getLast?_ne_slash⟩
  intro empty
  rw [empty, List.getLast?_nil] at last
  exact plain.nonempty (List.getLast?_eq_none_iff.mp last.symm)

theorem bytes_ofPieces_cons (name : Name) (names : List Name) :
    (ofPieces (name :: names)).bytes =
      name ++ names.flatMap (fun piece => slash :: piece) := by
  induction names generalizing name with
  | nil => simp [ofPieces]
  | cons first rest induction =>
      have isRest : [slash].intercalate (first :: rest) = _ := induction first
      rw [ofPieces, List.intercalate_cons_cons, isRest]
      simp

/-- What is written between the slashes stands in a piece. -/
theorem mem_bytes_iff {path : Path} {byte : UInt8} (different : byte ≠ slash) :
    byte ∈ path.bytes ↔ ∃ piece ∈ path.pieces, byte ∈ piece := by
  obtain ⟨first, rest, isPieces⟩ := List.exists_cons_of_ne_nil
    path.pieces_ne_nil
  have isBytes : path.bytes = first ++ rest.flatMap (slash :: ·) := by
    rw [← bytes_ofPieces_cons, ← isPieces, ofPieces_pieces]
  simp [isBytes, isPieces, different]

/-! ### Components -/

theorem stem_eq_nil_iff {path : Path} : path.stem = [] ↔ path.bytes = [] := by
  constructor
  · intro noStem
    by_cases closed : path.IsClosed
    · rw [closed.stem] at noStem
      exact absurd noStem path.pieces_ne_nil
    · have isPieces := pieces_of_not_isClosed closed
      rw [noStem, List.nil_append] at isPieces
      have isPath := congrArg Path.bytes path.ofPieces_pieces
      rw [isPieces] at isPath
      exact isPath.symm
  · intro empty
    have opened : ¬ path.IsClosed := fun closed => closed.1 empty
    rw [stem, if_neg opened, pieces, empty, List.splitOn_nil]
    rfl

theorem takeWhile_eq_head_pieces (path : Path) :
    some (path.bytes.takeWhile (· ≠ slash)) = path.pieces.head? := by
  obtain ⟨bytes⟩ := path
  change some (bytes.takeWhile (· ≠ slash)) = (bytes.splitOn slash).head?
  induction bytes with
  | nil => rfl
  | cons head rest induction =>
      rw [List.splitOn_cons_eq_if_modifyHead]
      by_cases isSlash : head = slash
      · simp [isSlash]
      · have kept : (head == slash) = false := by simpa using isSlash
        rw [List.takeWhile_cons_of_pos (by simpa using isSlash), kept,
          if_neg Bool.false_ne_true]
        cases isSplit : rest.splitOn slash with
        | nil => exact absurd isSplit (List.splitOn_ne_nil _ _)
        | cons first more =>
            rw [isSplit] at induction
            simpa using induction

theorem head?_stem {path : Path} (written : path.bytes ≠ []) :
    path.stem.head? = path.pieces.head? := by
  by_cases closed : path.IsClosed
  · rw [closed.stem]
  · rw [pieces_of_not_isClosed closed]
    cases isStem : path.stem with
    | nil => exact absurd (stem_eq_nil_iff.mp isStem) written
    | cons first rest => rfl

theorem isAbsolute_join {base back : Path} (written : base.bytes ≠ [])
    (relative : back.isAbsolute = false) :
    (base.join back).isAbsolute = base.isAbsolute := by
  rw [isAbsolute, isAbsolute, bytes_join relative]
  cases isBytes : base.bytes with
  | nil => exact absurd isBytes written
  | cons first rest => split <;> rfl

theorem lead?_join {base back : Path} (written : base.bytes ≠ [])
    (relative : back.isAbsolute = false) :
    (base.join back).lead? = base.lead? := by
  have heads : (base.join back).bytes.takeWhile (· ≠ slash) = [dot] ↔
      base.bytes.takeWhile (· ≠ slash) = [dot] := by
    rw [← Option.some_inj, takeWhile_eq_head_pieces, pieces_join relative,
      ← Option.some_inj (a := base.bytes.takeWhile _), takeWhile_eq_head_pieces,
      ← head?_stem written]
    cases isStem : base.stem with
    | nil => exact absurd (stem_eq_nil_iff.mp isStem) written
    | cons first rest => rfl
  rw [lead?, lead?, isAbsolute_join written relative]
  simp only [heads]

/-- What is joined to the empty path stays what it is. -/
theorem join_of_empty {base : Path} (empty : base.bytes = []) (back : Path) :
    base.join back = back := by
  rw [join]
  split
  · rfl
  · rw [if_pos (.inl empty), empty]
    rfl

theorem lead?_name {name : Name} (plain : name.IsPlain) :
    (Path.mk name).lead? = none := by
  have heads := takeWhile_eq_head_pieces ⟨name⟩
  rw [plain.pieces, List.head?_cons, Option.some_inj] at heads
  rw [lead?, isAbsolute_name plain, if_neg Bool.false_ne_true, heads,
    if_neg plain.notCurrent]

@[simp]
theorem isAbsolute_join_name {base : Path} {name : Name}
    (plain : name.IsPlain) : (base.join ⟨name⟩).isAbsolute = base.isAbsolute := by
  by_cases empty : base.bytes = []
  · rw [join_of_empty empty, isAbsolute_name plain, isAbsolute, empty]
    rfl
  · exact isAbsolute_join empty (isAbsolute_name plain)

@[simp]
theorem lead?_join_name {base : Path} {name : Name} (plain : name.IsPlain) :
    (base.join ⟨name⟩).lead? = base.lead? := by
  by_cases empty : base.bytes = []
  · rw [join_of_empty empty, lead?_name plain, lead?, isAbsolute, empty]
    rfl
  · exact lead?_join empty (isAbsolute_name plain)

/-- The pieces after the lead that stand before a name joined to the path. -/
def stemBody (path : Path) : List Name :=
  if path.lead?.isSome then path.stem.tail else path.stem

theorem bytes_ne_nil_of_lead? {path : Path} (leads : path.lead?.isSome) :
    path.bytes ≠ [] := by
  intro empty
  simp [lead?, isAbsolute, empty] at leads

theorem body_join {base back : Path} (written : base.bytes ≠ [])
    (relative : back.isAbsolute = false) :
    (base.join back).body = base.stemBody ++ back.pieces := by
  rw [body, stemBody, lead?_join written relative, pieces_join relative]
  split
  · cases isStem : base.stem with
    | nil => exact absurd (stem_eq_nil_iff.mp isStem) written
    | cons first rest => rfl
  · rfl

theorem body_join_name {base : Path} {name : Name} (plain : name.IsPlain) :
    (base.join ⟨name⟩).body = base.stemBody ++ [name] := by
  rw [body, stemBody, lead?_join_name plain, pieces_join_name plain]
  split
  · rename_i leads
    cases isStem : base.stem with
    | nil =>
        exact absurd (stem_eq_nil_iff.mp isStem) (bytes_ne_nil_of_lead? leads)
    | cons first rest => rfl
  · rfl

theorem IsClosed.stemBody {path : Path} (closed : path.IsClosed) :
    path.stemBody = path.body := by
  rw [Path.stemBody, Path.body, closed.stem]

theorem body_of_not_isClosed {path : Path} (opened : ¬ path.IsClosed) :
    path.body = path.stemBody ++ [[]] := by
  rw [body, stemBody, pieces_of_not_isClosed opened]
  split
  · rename_i leads
    cases isStem : path.stem with
    | nil =>
        exact absurd (stem_eq_nil_iff.mp isStem) (bytes_ne_nil_of_lead? leads)
    | cons first rest => rfl
  · rfl

theorem components_eq_stemBody (path : Path) :
    path.components =
      path.lead?.toList ++ path.stemBody.filterMap Component.ofPiece? := by
  rw [components]
  by_cases closed : path.IsClosed
  · rw [closed.stemBody]
  · rw [body_of_not_isClosed closed, List.filterMap_append]
    simp [Component.ofPiece?]

theorem components_join_name {base : Path} {name : Name}
    (plain : name.IsPlain) :
    (base.join ⟨name⟩).components = base.components ++ [.name name] := by
  rw [components, lead?_join_name plain, body_join_name plain,
    components_eq_stemBody, List.filterMap_append, List.append_assoc]
  simp [plain.ofPiece?]

/-! ### Parents -/

theorem spell_body (path : Path) : spell path.lead? path.body = path := by
  have isPath := path.ofPieces_pieces
  cases isLead : path.lead? with
  | none => simp [body, isLead, spell]
  | some component =>
      have leads : path.lead?.isSome := by simp [isLead]
      rw [body, if_pos leads]
      have heads := path.takeWhile_eq_head_pieces
      cases isPieces : path.pieces with
      | nil => exact absurd isPieces path.pieces_ne_nil
      | cons first rest =>
          rw [isPieces, List.head?_cons, Option.some_inj] at heads
          rw [isPieces] at isPath
          unfold lead? at isLead
          split at isLead
          · rename_i absolute
            cases isLead
            have isEmpty : first = [] := by
              rw [isAbsolute, beq_iff_eq] at absolute
              rw [← heads]
              cases isBytes : path.bytes with
              | nil => rfl
              | cons byte more =>
                  rw [isBytes, List.head?_cons, Option.some_inj] at absolute
                  simp [absolute]
            subst isEmpty
            rw [spell, List.tail_cons]
            cases rest with
            | nil =>
                apply absurd absolute
                rw [← isPath]
                decide
            | cons second more =>
                rw [← isPath]
                rfl
          · split at isLead
            · rename_i current
              cases isLead
              rw [current] at heads
              rw [spell, List.tail_cons, heads, isPath]
              rintro ⟨⟩
            · cases isLead

theorem trimEnd_concat_of_plain {front : List Name} {name : Name}
    (plain : name.IsPlain) : trimEnd (front ++ [name]) = front ++ [name] := by
  simp [trimEnd, plain.not_isSpelling]

/-! ### Several names -/

/-- The path that leads from a base through some names. -/
def below (base : Path) (names : List Name) : Path :=
  names.foldl (fun path name => path.join ⟨name⟩) base

@[simp]
theorem below_nil (base : Path) : base.below [] = base := rfl

theorem below_cons (base : Path) (name : Name) (names : List Name) :
    base.below (name :: names) = (base.join ⟨name⟩).below names := rfl

theorem below_append (base : Path) (front back : List Name) :
    base.below (front ++ back) = (base.below front).below back :=
  List.foldl_append

theorem below_concat (base : Path) (names : List Name) (name : Name) :
    base.below (names ++ [name]) = (base.below names).join ⟨name⟩ :=
  below_append base names [name]

/-- Names that each stand for an entry of a directory. -/
def ArePlain (names : List Name) : Prop :=
  ∀ name ∈ names, name.IsPlain

instance (names : List Name) : Decidable (ArePlain names) :=
  inferInstanceAs (Decidable (∀ _ ∈ _, _))

theorem ArePlain.append {front back : List Name} (frontPlain : ArePlain front)
    (backPlain : ArePlain back) : ArePlain (front ++ back) := by
  intro name member
  rcases List.mem_append.mp member with inFront | inBack
  · exact frontPlain name inFront
  · exact backPlain name inBack

theorem ArePlain.left {front back : List Name}
    (plain : ArePlain (front ++ back)) : ArePlain front :=
  fun name member => plain name (List.mem_append_left _ member)

theorem ArePlain.right {front back : List Name}
    (plain : ArePlain (front ++ back)) : ArePlain back :=
  fun name member => plain name (List.mem_append_right _ member)

theorem ArePlain.head {name : Name} {names : List Name}
    (plain : ArePlain (name :: names)) : name.IsPlain :=
  plain name List.mem_cons_self

theorem ArePlain.tail {name : Name} {names : List Name}
    (plain : ArePlain (name :: names)) : ArePlain names :=
  fun other member => plain other (List.mem_cons_of_mem _ member)

theorem ArePlain.last {names : List Name} {name : Name}
    (plain : ArePlain (names ++ [name])) : name.IsPlain :=
  plain name (List.mem_append_right _ List.mem_cons_self)

theorem arePlain_singleton {name : Name} (plain : name.IsPlain) :
    ArePlain [name] := by
  intro other member
  exact List.mem_singleton.mp member ▸ plain

theorem IsClosed.below {base : Path} (closed : base.IsClosed)
    {names : List Name} (plain : ArePlain names) :
    (base.below names).IsClosed := by
  rcases List.eq_nil_or_concat names with empty | ⟨front, last, isNames⟩
  · subst empty
    exact closed
  · rw [List.concat_eq_append] at isNames
    subst isNames
    rw [below_concat]
    exact isClosed_join_name plain.last

theorem stem_below_concat {base : Path} {names : List Name} {name : Name}
    (plain : ArePlain (names ++ [name])) :
    (base.below (names ++ [name])).stem = base.stem ++ (names ++ [name]) := by
  have closed : (base.below (names ++ [name])).IsClosed := by
    rw [below_concat]
    exact isClosed_join_name plain.last
  rw [closed.stem]
  induction names generalizing base with
  | nil => exact pieces_join_name plain.last
  | cons first rest induction =>
      have firstPlain : first.IsPlain := plain.left.head
      have restPlain : ArePlain (rest ++ [name]) := by
        rw [List.cons_append] at plain
        exact plain.tail
      have closedBelow := (@isClosed_join_name base first firstPlain).below
        restPlain
      rw [List.cons_append, below_cons, induction restPlain closedBelow,
        (isClosed_join_name firstPlain).stem, pieces_join_name firstPlain,
        List.append_assoc, List.singleton_append]

/-- Below a base there are its own pieces and then the names. -/
theorem pieces_below {base : Path} {names : List Name} (some : names ≠ [])
    (plain : ArePlain names) :
    (base.below names).pieces = base.stem ++ names := by
  rcases List.eq_nil_or_concat names with empty | ⟨front, last, isNames⟩
  · exact absurd empty some
  · rw [List.concat_eq_append] at isNames
    subst isNames
    have closed : (base.below (front ++ [last])).IsClosed := by
      rw [below_concat]
      exact isClosed_join_name plain.last
    rw [← closed.stem, stem_below_concat plain]

theorem components_below {base : Path} {names : List Name}
    (plain : ArePlain names) :
    (base.below names).components =
      base.components ++ names.map Component.name := by
  induction names generalizing base with
  | nil => simp
  | cons first rest induction =>
      rw [below_cons, induction plain.tail, components_join_name plain.head,
        List.append_assoc]
      rfl

/-- Different names lead to different paths. -/
theorem below_injective {base : Path} {names others : List Name}
    (plain : ArePlain names) (othersPlain : ArePlain others)
    (same : base.below names = base.below others) : names = others := by
  have components := congrArg Path.components same
  rw [components_below plain, components_below othersPlain,
    List.append_cancel_left_eq] at components
  exact (List.map_inj_right fun _ _ equal =>
    Component.name.inj equal).mp components

@[simp]
theorem isAbsolute_below {base : Path} {names : List Name}
    (plain : ArePlain names) :
    (base.below names).isAbsolute = base.isAbsolute := by
  induction names generalizing base with
  | nil => rfl
  | cons first rest induction =>
      rw [below_cons, induction plain.tail, isAbsolute_join_name plain.head]

/-- Only the base itself is not strictly below the base. -/
theorem isStrictlyBelow_below {base : Path} {names : List Name}
    (plain : ArePlain names) :
    (base.below names).isStrictlyBelow base = true ↔ names ≠ [] := by
  rw [isStrictlyBelow, components_below plain]
  simp

/-- Every name makes the path longer. -/
theorem length_below (base : Path) {names : List Name}
    (plain : ArePlain names) :
    base.bytes.length + names.length ≤ (base.below names).bytes.length := by
  induction names generalizing base with
  | nil => simp
  | cons first rest induction =>
      have longer := induction (base.join ⟨first⟩) plain.tail
      have written : 0 < first.length :=
        List.length_pos_iff.mpr plain.head.nonempty
      have isLength : base.bytes.length + first.length ≤
          (base.join ⟨first⟩).bytes.length := by
        rw [bytes_join_name plain.head]
        split
        · simp only [List.length_append, List.length_cons]
          omega
        · exact Nat.le_of_eq List.length_append.symm
      rw [below_cons, List.length_cons]
      omega

theorem length_below_le_append {base : Path} {front back : List Name}
    (plain : ArePlain (front ++ back)) :
    (base.below front).bytes.length ≤
      (base.below (front ++ back)).bytes.length := by
  have longer := length_below (base.below front) plain.right
  rw [below_append]
  omega

theorem bytes_below_of_isClosed {base : Path} (closed : base.IsClosed)
    {names : List Name} (plain : ArePlain names) :
    (base.below names).bytes =
      base.bytes ++ names.flatMap (fun piece => slash :: piece) := by
  induction names generalizing base with
  | nil => simp
  | cons first rest induction =>
      rw [below_cons, induction (isClosed_join_name plain.head) plain.tail,
        bytes_join_name plain.head, if_pos closed]
      simp

/-- Joining names written with slashes between them is joining each. -/
theorem join_ofPieces {base : Path} {name : Name} {names : List Name}
    (plain : ArePlain (name :: names)) :
    base.join (ofPieces (name :: names)) = base.below (name :: names) := by
  have relative : (ofPieces (name :: names)).isAbsolute = false := by
    rw [isAbsolute, bytes_ofPieces_cons, beq_eq_false_iff_ne]
    cases isName : name with
    | nil => exact absurd isName plain.head.nonempty
    | cons byte rest => simpa [isName] using plain.head.head?_ne_slash
  apply ext_bytes
  rw [below_cons, bytes_below_of_isClosed (isClosed_join_name plain.head)
    plain.tail, bytes_join_name plain.head, bytes_join relative,
    bytes_ofPieces_cons]
  split <;> simp

end Path

end PackageRename
