import PackageRename.Proofs.Path.Relative

/-!
# Parents of paths

However a base is spelled, the parents of a path below it are the paths below
the base with fewer names, and last the base itself without the spelling at its
end.  The parent of any path is the path without its last component.
-/

namespace PackageRename.Path

variable {base path : Path} {names : List Name} {name : Name}

/-! ### Paths below a base -/

theorem lead?_below (plain : ArePlain names) :
    (base.below names).lead? = base.lead? := by
  induction names generalizing base with
  | nil => rfl
  | cons first rest induction =>
      rw [below_cons, induction plain.tail, lead?_join_name plain.head]

theorem body_below (nonempty : names ≠ []) (plain : ArePlain names) :
    (base.below names).body = base.stemBody ++ names := by
  rw [body, stemBody, lead?_below plain, pieces_below nonempty plain]
  split
  · rename_i leads
    cases isStem : base.stem with
    | nil =>
        exact absurd (stem_eq_nil_iff.mp isStem) (bytes_ne_nil_of_lead? leads)
    | cons first rest => rfl
  · rfl

theorem bytes_below_ne_nil (nonempty : names ≠ []) (plain : ArePlain names) :
    (base.below names).bytes ≠ [] := by
  intro empty
  have longer := length_below base plain
  rw [empty, List.length_nil, Nat.le_zero, Nat.add_eq_zero_iff] at longer
  exact nonempty (List.length_eq_zero_iff.mp longer.2)

/-! ### The base as a parent -/

/-- A base as it is written where it is the parent of a path below. -/
def home (base : Path) : Path :=
  spell base.lead? (trimEnd base.stemBody)

/-- The path that leads from a base through some names, as it is written where
it is the parent of a path further below. -/
def under (base : Path) (names : List Name) : Path :=
  if names = [] then base.home else base.below names

theorem under_of_ne_nil (nonempty : names ≠ []) :
    base.under names = base.below names :=
  if_neg nonempty

theorem parent?_below (plain : ArePlain (names ++ [name])) :
    (base.below (names ++ [name])).parent? = some (base.under names) := by
  have isBody : trimEnd (base.below (names ++ [name])).body =
      base.stemBody ++ names ++ [name] := by
    rw [body_below (by simp) plain, ← List.append_assoc,
      trimEnd_concat_of_plain plain.last]
  have isFront : spell base.lead? (trimEnd (base.stemBody ++ names)) =
      base.under names := by
    rcases List.eq_nil_or_concat names with empty | ⟨front, last, isNames⟩
    · rw [empty, List.append_nil]
      rfl
    · rw [List.concat_eq_append] at isNames
      have nonempty : names ≠ [] := by simp [isNames]
      have isTrimmed : trimEnd (base.stemBody ++ names) =
          (base.below names).body := by
        rw [body_below nonempty plain.left, isNames, ← List.append_assoc]
        exact trimEnd_concat_of_plain (isNames ▸ plain.left).last
      rw [under_of_ne_nil nonempty, isTrimmed, ← lead?_below plain.left,
        spell_body]
  rw [parent?, isBody]
  cases isPieces : base.stemBody ++ names ++ [name] with
  | nil => simp at isPieces
  | cons piece rest =>
      simp only [← isPieces, List.dropLast_concat, lead?_below plain, isFront]

/-! ### Spelling at the end of the base -/

theorem isClosed_of_not_endsInSpelling
    (ends : ¬ EndsInSpelling base.pieces) : base.IsClosed := by
  apply Classical.byContradiction
  intro opened
  rw [pieces_of_not_isClosed opened, endsInSpelling_concat] at ends
  exact ends rfl

theorem home_of_not_endsInSpelling (ends : ¬ EndsInSpelling base.pieces) :
    base.home = base := by
  have closed := isClosed_of_not_endsInSpelling ends
  have bodyEnds : ¬ EndsInSpelling base.body := by
    intro bodyEnds
    rw [body] at bodyEnds
    split at bodyEnds
    · cases isPieces : base.pieces with
      | nil => exact base.pieces_ne_nil isPieces
      | cons first rest =>
          rw [isPieces] at bodyEnds ends
          apply ends
          by_cases empty : rest = []
          · obtain ⟨piece, isLast, -⟩ := bodyEnds
            rw [List.tail_cons, empty] at isLast
            cases isLast
          · exact (@endsInSpelling_append [first] rest empty).mpr bodyEnds
    · exact ends bodyEnds
  rw [home, closed.stemBody, trimEnd_of_not_endsInSpelling bodyEnds, spell_body]

theorem stemBody_starts (base : Path) : base.stemBody <+: base.body := by
  by_cases closed : base.IsClosed
  · exact ⟨[], by rw [List.append_nil, closed.stemBody]⟩
  · exact ⟨[[]], (body_of_not_isClosed closed).symm⟩

theorem components_home (written : base.bytes ≠ []) :
    base.home.components = base.components := by
  rw [home, components_spell_front written base.stemBody_starts,
    components_eq_stemBody]

theorem bytes_home_ne_nil (written : base.bytes ≠ []) :
    base.home.bytes ≠ [] := by
  rwa [ne_eq, ← components_eq_nil_iff, components_home written,
    components_eq_nil_iff]

theorem endsInSpelling_of_home (ends : EndsInSpelling base.home.pieces) :
    EndsInSpelling base.pieces := by
  apply Classical.byContradiction
  intro closed
  rw [home_of_not_endsInSpelling closed] at ends
  exact closed ends

theorem length_ofPieces_le (front back : List Name) :
    (ofPieces front).bytes.length ≤ (ofPieces (front ++ back)).bytes.length := by
  cases front with
  | nil => exact Nat.zero_le _
  | cons first rest =>
      rw [List.cons_append, bytes_ofPieces_cons, bytes_ofPieces_cons,
        List.flatMap_append, ← List.append_assoc]
      simp

theorem length_home_le (base : Path) :
    base.home.bytes.length ≤ base.bytes.length := by
  obtain ⟨gap, isBody⟩ :=
    (trimEnd_starts base.stemBody).trans base.stemBody_starts
  have isLength : base.bytes.length =
      (spell base.lead? (trimEnd base.stemBody ++ gap)).bytes.length := by
    rw [isBody, spell_body]
  rw [isLength, home]
  rcases base.lead?_cases with leads | leads | leads <;> rw [leads]
  · exact length_ofPieces_le _ gap
  · exact Nat.succ_le_succ (length_ofPieces_le _ gap)
  · exact length_ofPieces_le ([dot] :: trimEnd base.stemBody) gap

theorem components_under (written : base.bytes ≠ []) (plain : ArePlain names) :
    (base.under names).components =
      base.components ++ names.map Component.name := by
  by_cases empty : names = []
  · rw [empty, under, if_pos rfl, components_home written]
    exact (List.append_nil _).symm
  · rw [under_of_ne_nil empty, components_below plain]

theorem ancestors_below (written : base.bytes ≠ [])
    (plain : ArePlain (names ++ [name])) :
    (base.below (names ++ [name])).ancestors =
      base.under names :: (base.under names).ancestors := by
  have isLength : (base.below (names ++ [name])).components.length =
      (base.under names).components.length + 1 := by
    rw [components_below plain, components_under written plain.left]
    simp [Nat.add_assoc]
  rw [ancestors, isLength, ancestorsUpTo, parent?_below plain]
  rfl

/-- Only the base itself is not strictly below the base. -/
theorem isStrictlyBelow_under (written : base.bytes ≠ [])
    (plain : ArePlain names) :
    (base.under names).isStrictlyBelow base = true ↔ names ≠ [] := by
  rw [isStrictlyBelow, components_under written plain]
  simp

/-! ### Parents of any path -/

/-- The last piece that counts stands for the last component. -/
theorem components_eq_concat {front : List Name} {last : Name}
    (isBody : trimEnd path.body = front ++ [last]) :
    ∃ component, path.components =
      (path.lead?.toList ++ front.filterMap Component.ofPiece?) ++
        [component] := by
  have counts : isSpelling last = false := by
    have closed := not_endsInSpelling_trimEnd path.body
    rw [isBody, endsInSpelling_concat] at closed
    exact Bool.eq_false_iff.mpr closed
  rw [isSpelling, Option.isNone_eq_false_iff] at counts
  obtain ⟨component, isComponent⟩ := Option.isSome_iff_exists.mp counts
  refine ⟨component, ?_⟩
  rw [components, ← filterMap_trimEnd, isBody, List.filterMap_append,
    List.filterMap_cons_some isComponent, List.append_assoc]
  rfl

/-- The parent of a path has the same components except for the last. -/
theorem components_of_parent? {parent : Path}
    (isParent : path.parent? = some parent) :
    ∃ last, path.components = parent.components ++ [last] := by
  rw [parent?] at isParent
  split at isParent
  · rename_i none
    split at isParent
    · rename_i current
      cases isParent
      refine ⟨.current, ?_⟩
      rw [components, current, ← filterMap_trimEnd, none]
      rfl
    · cases isParent
  · rename_i first rest isTrimmed
    cases isParent
    have opens : (first :: rest).dropLast <+: path.body :=
      (List.dropLast_prefix _).trans (isTrimmed ▸ trimEnd_starts path.body)
    have written : path.bytes ≠ [] := by
      intro empty
      rw [body, lead?, isAbsolute, pieces, empty] at isTrimmed
      cases isTrimmed
    have isConcat :=
      (List.dropLast_concat_getLast (List.cons_ne_nil first rest)).symm
    rw [components_spell_front written opens]
    exact components_eq_concat (isTrimmed.trans isConcat)

theorem components_prefix_of_mem_ancestorsUpTo {ancestor : Path} {count : Nat}
    (member : ancestor ∈ path.ancestorsUpTo count) :
    ancestor.components <+: path.components := by
  induction count generalizing path with
  | zero => cases member
  | succ count induction =>
      rw [ancestorsUpTo] at member
      split at member
      · cases member
      · rename_i parent isParent
        obtain ⟨last, isComponents⟩ := components_of_parent? isParent
        have nearer : parent.components <+: path.components :=
          isComponents ▸ List.prefix_append _ _
        rcases List.mem_cons.mp member with isNearest | further
        · exact isNearest ▸ nearer
        · exact (induction further).trans nearer

/-- The ancestors of a path lie on the way to it. -/
theorem components_prefix_of_mem_ancestors {ancestor : Path}
    (member : ancestor ∈ path.ancestors) :
    ancestor.components <+: path.components :=
  components_prefix_of_mem_ancestorsUpTo member

end PackageRename.Path
