import PackageRename.Proofs.Path.Relative
import PackageRename.Proofs.Tree.Entering

/-!
# Pieces of a lookup

A lookup follows the pieces of a path one after the other, whatever links are on
the way.  It splits where its pieces do, and what it leads to depends on the
components of the path and on whether the path ends like that of a directory, not
on how it is spelled.
-/

namespace PackageRename

open PackageRename.Path

namespace Tree

variable {tree : Tree} {pieces front back : List Name}

/-! ### Pieces without spelling -/

/-- The pieces that count, and an empty one if there is spelling at the end. -/
def normal (pieces : List Name) : List Name :=
  if EndsInSpelling pieces then steps pieces ++ [[]] else steps pieces

theorem steps_cons_of_spelling {piece : Name}
    (spelling : isSpelling piece = true) (rest : List Name) :
    steps (piece :: rest) = steps rest := by
  rw [steps, List.filter_cons, spelling]
  rfl

theorem steps_cons {piece : Name} (counts : isSpelling piece = false)
    (rest : List Name) : steps (piece :: rest) = piece :: steps rest := by
  rw [steps, List.filter_cons, counts]
  rfl

theorem endsInSpelling_cons {piece : Name} {rest : List Name}
    (nonempty : rest ≠ []) :
    EndsInSpelling (piece :: rest) ↔ EndsInSpelling rest :=
  @endsInSpelling_append [piece] rest nonempty

theorem normal_cons_of_spelling {piece : Name}
    (spelling : isSpelling piece = true) (rest : List Name) :
    normal (piece :: rest) = if rest = [] then [[]] else normal rest := by
  split
  · rename_i isLast
    have ends : EndsInSpelling [piece] := ⟨piece, rfl, spelling⟩
    rw [isLast, normal, if_pos ends, steps_cons_of_spelling spelling]
    rfl
  · rename_i goesOn
    simp only [normal, endsInSpelling_cons goesOn,
      steps_cons_of_spelling spelling]

theorem normal_cons {piece : Name} (counts : isSpelling piece = false)
    (rest : List Name) : normal (piece :: rest) = piece :: normal rest := by
  cases rest with
  | nil =>
      have closed : ¬ EndsInSpelling [piece] := by
        rw [← List.nil_append [piece], endsInSpelling_concat, counts]
        exact Bool.false_ne_true
      rw [normal, if_neg closed, steps_cons counts]
      rfl
  | cons next more =>
      simp only [normal, endsInSpelling_cons (List.cons_ne_nil next more),
        steps_cons counts]
      split <;> rfl

theorem endsInSpelling_steps (pieces : List Name) :
    ¬ EndsInSpelling (steps pieces) := by
  rintro ⟨last, isLast, spelling⟩
  have member := List.mem_of_getLast? isLast
  rw [steps, List.mem_filter, spelling] at member
  exact absurd member.2 (by decide)

theorem endsInSpelling_normal :
    EndsInSpelling (normal pieces) ↔ EndsInSpelling pieces := by
  rw [normal]
  split
  · rename_i ends
    rw [endsInSpelling_concat]
    exact iff_of_true rfl ends
  · rename_i closed
    exact iff_of_false (endsInSpelling_steps pieces) closed

theorem steps_normal : steps (normal pieces) = steps pieces := by
  rw [normal]
  split
  · rw [steps_append, steps_steps]
    exact List.append_nil _
  · exact steps_steps pieces

theorem normal_eq_nil_iff : normal pieces = [] ↔ pieces = [] := by
  constructor
  · intro none
    cases pieces with
    | nil => rfl
    | cons piece rest =>
        exfalso
        induction rest generalizing piece with
        | nil =>
            cases isPiece : isSpelling piece with
            | true => simp [normal_cons_of_spelling isPiece] at none
            | false => simp [normal_cons isPiece] at none
        | cons next more induction =>
            cases isPiece : isSpelling piece with
            | true =>
                rw [normal_cons_of_spelling isPiece,
                  if_neg (List.cons_ne_nil _ _)] at none
                exact induction next none
            | false => simp [normal_cons isPiece] at none
  · intro empty
    rw [empty]
    rfl

theorem normal_eq_of_steps (sameSteps : steps front = steps back)
    (sameEnd : EndsInSpelling front ↔ EndsInSpelling back) :
    normal front = normal back := by
  simp only [normal, sameSteps, sameEnd]

/-- Spelling inside a list of pieces does not matter. -/
theorem normal_append_normal (front back : List Name) :
    normal (front ++ normal back) = normal (front ++ back) := by
  apply normal_eq_of_steps
  · rw [steps_append, steps_append, steps_normal]
  · by_cases empty : back = []
    · rw [empty]
      rfl
    · rw [endsInSpelling_append empty,
        endsInSpelling_append (mt normal_eq_nil_iff.mp empty),
        endsInSpelling_normal]

/-! ### Following pieces -/

variable {limit : Option Nat}
variable {onLink : Trail → Path → List Name → Except Fault Trail}

theorem descend_normal
    (respects : ∀ trail target rest,
      onLink trail target (normal rest) = onLink trail target rest)
    (trail : Trail) (pieces : List Name) :
    tree.descend limit onLink trail (normal pieces) =
      tree.descend limit onLink trail pieces := by
  induction pieces generalizing trail with
  | nil => rfl
  | cons piece rest induction =>
      cases isPiece : isSpelling piece with
      | true =>
          have skipped := isSpelling_iff.mp isPiece
          rw [normal_cons_of_spelling isPiece]
          cases rest with
          | nil =>
              rw [if_pos rfl]
              cases isReached : tree.reached trail <;>
                simp [descend, isReached, skipped]
          | cons next more =>
              rw [if_neg (List.cons_ne_nil _ _), induction]
              cases isReached : tree.reached trail <;>
                simp [descend, isReached, skipped]
      | false =>
          rw [normal_cons isPiece, descend, descend]
          simp only [induction, respects]

/-- Pieces lead where they lead without their spelling. -/
theorem descendThrough_normal (links : Nat) (trail : Trail)
    (pieces : List Name) :
    tree.descendThrough limit links trail (normal pieces) =
      tree.descendThrough limit links trail pieces := by
  induction links generalizing trail pieces with
  | zero => exact descend_normal (fun _ _ _ => rfl) trail pieces
  | succ links induction =>
      refine descend_normal (fun trail target rest => ?_) trail pieces
      simp only
      rw [← induction _ (target.pieces ++ normal rest), normal_append_normal,
        induction]

/-! ### Where a lookup splits -/

/-- How following some pieces goes on with more of them: it fails as it did, or
it goes on from where they have led, with the links that are left. -/
def Splits (tree : Tree) (limit : Option Nat) (back : List Name)
    (first whole : Except Fault Trail) : Prop :=
  (∃ fault, first = .error fault ∧ whole = .error fault) ∨
    ∃ trail left, first = .ok trail ∧ Trail.Leads tree trail ∧
      whole = tree.descendThrough limit left trail back

theorem descend_splits
    (here : ∀ trail, ∃ left,
      tree.descend limit onLink trail back = tree.descendThrough limit left trail back)
    (onward : ∀ {trail}, Trail.Leads tree trail → ∀ target rest,
      tree.Splits limit back (onLink trail target rest)
        (onLink trail target (rest ++ back)))
    {trail : Trail} (leads : Trail.Leads tree trail) (front : List Name) :
    tree.Splits limit back (tree.descend limit onLink trail front)
      (tree.descend limit onLink trail (front ++ back)) := by
  induction front generalizing trail with
  | nil =>
      obtain ⟨left, isBack⟩ := here trail
      exact .inr ⟨trail, left, rfl, leads, isBack⟩
  | cons piece rest induction =>
      rw [List.cons_append, descend, descend]
      cases isReached : tree.reached trail with
      | file present | link target share => exact .inl ⟨_, rfl, rfl⟩
      | directory mode entries =>
          dsimp only
          split
          · exact induction leads
          split
          · exact induction leads.tail
          split
          · exact .inl ⟨_, rfl, rfl⟩
          cases isEntry : entries.lookup piece with
          | none => exact .inl ⟨_, rfl, rfl⟩
          | some inner =>
              have further : Trail.Leads tree ((piece, inner) :: trail) :=
                ⟨leads, by rw [isReached]; exact isEntry⟩
              cases inner with
              | link target share => exact onward leads target rest
              | directory _ _ | file _ => exact induction further

/-- A lookup splits where its pieces do. -/
theorem descendThrough_splits (links : Nat) {trail : Trail}
    (leads : Trail.Leads tree trail) (front back : List Name) :
    tree.Splits limit back (tree.descendThrough limit links trail front)
      (tree.descendThrough limit links trail (front ++ back)) := by
  induction links generalizing trail front with
  | zero =>
      refine descend_splits (fun _ => ⟨0, rfl⟩) ?_ leads front
      exact fun _ _ _ => .inl ⟨_, rfl, rfl⟩
  | succ links induction =>
      refine descend_splits (fun _ => ⟨links + 1, rfl⟩) ?_ leads front
      intro trail leads target rest
      split
      · exact .inl ⟨_, rfl, rfl⟩
      · rw [← List.append_assoc]
        refine induction ?_ _
        split
        · exact trivial
        · exact leads

/-- What a piece is followed from is a directory, and what it names is there. -/
theorem descendThrough_cons_eq_ok {links : Nat} {trail reached : Trail}
    (leads : Trail.Leads tree trail) {piece : Name} {rest : List Name}
    (found : tree.descendThrough limit links trail (piece :: rest) = .ok reached) :
    tree.hasDirectory trail.place = true ∧
      ∃ next, tree.TakesTo trail.place piece next := by
  obtain ⟨onLink, isDescent⟩ := tree.exists_descend limit links
  rw [isDescent, descend] at found
  split at found
  case h_2 => cases found
  rename_i mode entries isReached
  refine ⟨leads.hasDirectory isReached, ?_⟩
  split at found
  · rename_i spelling
    exact ⟨_, .stay spelling⟩
  rename_i undotted
  split at found
  · rename_i isParent
    exact ⟨_, .rise isParent⟩
  rename_i notParent
  split at found
  · cases found
  rename_i fits
  have short : ¬ nameLimit < piece.length := by
    simp [Trail.overruns] at fits
    omega
  refine ⟨_, .enter undotted notParent (Nat.le_of_not_lt short) ?_⟩
  rw [leads.node?_concat, isReached, Subtree.entries]
  cases isEntry : entries.lookup piece with
  | none =>
      rw [isEntry] at found
      cases found
  | some inner => rfl

/-- An empty piece at the end asks for a directory and leads no further. -/
theorem descendThrough_concat_nil {reached : Trail} {links : Nat}
    {trail : Trail} (leads : Trail.Leads tree trail) {pieces : List Name}
    (found : tree.descendThrough limit links trail (pieces ++ [[]]) = .ok reached) :
    tree.descendThrough limit links trail pieces = .ok reached := by
  rcases descendThrough_splits links leads pieces [[]] with
    ⟨fault, -, failed⟩ | ⟨last, left, isLast, -, goesOn⟩
  · rw [failed] at found
    cases found
  · obtain ⟨onLink, isDescent⟩ := tree.exists_descend limit left
    rw [goesOn, isDescent, descend] at found
    split at found
    · rw [if_pos (.inl rfl), descend] at found
      rw [isLast, found]
    · cases found

/-- Below a place without links, names meet none. -/
theorem meetsNoLink_of_linkless {place : Place}
    (linkless : ∀ names target share,
      tree.node? (place ++ names) ≠ some (.link target share))
    {names : List Name} (plain : ArePlain names) :
    tree.MeetsNoLink place names := by
  intro front piece isPrefix reached entered target share
  have frontPlain : ArePlain front := fun name member =>
    plain name (isPrefix.subset (List.mem_append_left [piece] member))
  rw [(enter_eq_ok frontPlain entered).1, List.append_assoc]
  exact linkless _ target share

/-! ### Paths -/

variable {path other : Path} {place home : Place}

theorem followWithin_eq_of_normal
    (sameStart : path.isAbsolute = other.isAbsolute)
    (same : normal front = normal back) :
    tree.followWithin limit path front =
      tree.followWithin limit other back := by
  simp only [followWithin, sameStart]
  cases Trail.extend? [] tree.top
      (if other.isAbsolute then [] else tree.origin) with
  | none => rfl
  | some trail =>
      simp only
      rw [← descendThrough_normal, same, descendThrough_normal]

theorem follow_eq_of_normal (sameStart : path.isAbsolute = other.isAbsolute)
    (same : normal front = normal back) :
    tree.follow path front = tree.follow other back :=
  followWithin_eq_of_normal sameStart same

theorem follow_eq_ok : tree.follow path pieces = .ok place ↔
    ∃ start reached, Trail.extend? [] tree.top
        (if path.isAbsolute then [] else tree.origin) = some start ∧
      tree.descendThrough none linkLimit start pieces = .ok reached ∧
      reached.place = place := by
  simp only [follow, followWithin]
  cases Trail.extend? [] tree.top
      (if path.isAbsolute then [] else tree.origin) with
  | none => simp [throw, throwThe, MonadExceptOf.throw]
  | some start =>
      simp only [Option.some.injEq, exists_and_left, exists_eq_left']
      cases tree.descendThrough none linkLimit start pieces with
      | error fault => simp [bind, Except.bind]
      | ok reached => simp [bind, Except.bind, pure, Except.pure]

theorem follow_concat_nil
    (found : tree.follow path (pieces ++ [[]]) = .ok place) :
    tree.follow path pieces = .ok place := by
  obtain ⟨start, reached, isStart, isReached, isPlace⟩ := follow_eq_ok.mp found
  have atTop : Trail.Leads tree [] := trivial
  have leads := (extend?_eq_some atTop rfl isStart).1
  exact follow_eq_ok.mpr ⟨start, reached, isStart,
    descendThrough_concat_nil leads isReached, isPlace⟩

theorem follow_eq_map {start : Trail} (isStart : Trail.extend? [] tree.top
      (if path.isAbsolute then [] else tree.origin) = some start) :
    tree.follow path pieces =
      (tree.descendThrough none linkLimit start pieces).map Trail.place := by
  rw [follow, followWithin]
  simp only [isStart]
  cases tree.descendThrough none linkLimit start pieces <;> rfl

/-- What is found behind the pieces of a path is found from where the path
leads. -/
theorem exists_stem_trail (found : tree.follow path path.pieces = .ok place) :
    ∃ start trail, Trail.extend? [] tree.top
        (if path.isAbsolute then [] else tree.origin) = some start ∧
      Trail.Leads tree trail ∧ trail.place = place ∧
      ∀ back, ∃ left, tree.descendThrough none linkLimit start (path.stem ++ back) =
        tree.descendThrough none left trail back := by
  obtain ⟨start, trail, isStart, isReached, isPlace⟩ := follow_eq_ok.mp found
  have atTop : Trail.Leads tree [] := trivial
  obtain ⟨leads, -⟩ := extend?_eq_some atTop rfl isStart
  have isStem : tree.descendThrough none linkLimit start path.stem = .ok trail := by
    by_cases closed : path.IsClosed
    · rwa [closed.stem]
    · rw [pieces_of_not_isClosed closed] at isReached
      exact descendThrough_concat_nil leads isReached
  have splits : ∀ back, tree.Splits none back _ _ :=
    fun back => descendThrough_splits linkLimit leads path.stem back
  simp only [Splits, isStem] at splits
  have trailLeads : Trail.Leads tree trail := by
    rcases splits [] with ⟨fault, failed, -⟩ | ⟨other, left, same, leads, -⟩
    · cases failed
    · cases same
      exact leads
  refine ⟨start, trail, isStart, trailLeads, isPlace, fun back => ?_⟩
  rcases splits back with ⟨fault, failed, -⟩ | ⟨other, left, same, -, goesOn⟩
  · cases failed
  · cases same
    exact ⟨left, goesOn⟩

/-- A NUL byte stands in a piece that counts or nowhere. -/
theorem nul_mem_iff : (0 : UInt8) ∈ path.bytes ↔
    ∃ piece ∈ steps path.pieces, (0 : UInt8) ∈ piece := by
  rw [mem_bytes_iff (by decide)]
  constructor
  · rintro ⟨piece, isPiece, nul⟩
    refine ⟨piece, List.mem_filter.mpr ⟨isPiece, ?_⟩, nul⟩
    rw [Bool.not_eq_true', Bool.eq_false_iff, ne_eq, isSpelling_iff]
    rintro (rfl | rfl)
    · cases nul
    · revert nul
      decide
  · rintro ⟨piece, isStep, nul⟩
    exact ⟨piece, (List.mem_filter.mp isStep).1, nul⟩

theorem checkPath_eq_of_components (same : path.components = other.components)
    (sameFit : path.bytes.length ≤ pathLimit ↔
      other.bytes.length ≤ pathLimit) :
    checkPath path = checkPath other := by
  have sameNul : path.bytes.contains 0 = other.bytes.contains 0 := by
    rw [Bool.eq_iff_iff, List.contains_iff_mem, List.contains_iff_mem,
      nul_mem_iff, nul_mem_iff, steps_eq_of_components same]
  have sameEmpty : path.bytes = [] ↔ other.bytes = [] := by
    rw [← components_eq_nil_iff, ← components_eq_nil_iff, same]
  rw [checkPath, checkPath, checkWritten, checkWritten, sameNul]
  simp only [sameEmpty, ← Nat.not_le, sameFit]

/-- Two spellings of a path lead to the same place. -/
theorem resolve_eq_of_components (same : path.components = other.components)
    (sameEnd : EndsInSpelling path.pieces ↔ EndsInSpelling other.pieces)
    (sameFit : path.bytes.length ≤ pathLimit ↔
      other.bytes.length ≤ pathLimit) :
    tree.resolve path = tree.resolve other := by
  rw [resolve, resolve, checkPath_eq_of_components same sameFit,
    follow_eq_of_normal (isAbsolute_eq_of_components same)
      (normal_eq_of_steps (steps_eq_of_components same) sameEnd)]

theorem resolve_eq_ok_iff : tree.resolve path = .ok place ↔
    checkPath path = .ok () ∧ tree.follow path path.pieces = .ok place := by
  rw [resolve]
  cases checkPath path with
  | error fault => simp [bind, Except.bind]
  | ok done => simp [bind, Except.bind]

/-- Pieces lead where those that count lead. -/
theorem follow_steps (found : tree.follow path pieces = .ok place) :
    tree.follow path (steps pieces) = .ok place := by
  by_cases ends : EndsInSpelling pieces
  · apply follow_concat_nil
    rw [← found]
    apply follow_eq_of_normal rfl
    apply normal_eq_of_steps
    · rw [steps_append, steps_steps]
      exact List.append_nil _
    · rw [endsInSpelling_concat]
      exact iff_of_true rfl ends
  · rw [← found]
    exact follow_eq_of_normal rfl (normal_eq_of_steps (steps_steps _)
      (iff_of_false (endsInSpelling_steps _) ends))

theorem resolve_steps (found : tree.resolve path = .ok place) :
    tree.follow path (steps path.pieces) = .ok place :=
  follow_steps (resolve_eq_ok_iff.mp found).2

/-- Wherever spellings of one path lead, it is the same place. -/
theorem place_eq_of_components (same : path.components = other.components)
    (found : tree.resolve path = .ok place)
    (otherFound : tree.resolve other = .ok home) : place = home := by
  have follows := resolve_steps found
  rw [steps_eq_of_components same, follow_eq_of_normal
    (isAbsolute_eq_of_components same) rfl, resolve_steps otherFound] at follows
  exact (Except.ok.inj follows).symm

end Tree

end PackageRename
