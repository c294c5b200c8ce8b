import PackageRename.Proofs.Tree.Pieces

/-!
# Slots

The slot of a path is found by following all but its last name.  A path that
leads somewhere has a slot, in the directory that its last piece is followed
from.
-/

namespace PackageRename

namespace Tree

variable {tree : Tree} {path : Path} {place : Place} {slot : Slot}

/-! ### Checks that have passed -/

theorem bind_eq_ok {α β : Type} {action : Except Fault α}
    {next : α → Except Fault β} {value : β} :
    (action >>= next) = .ok value ↔
      ∃ found, action = .ok found ∧ next found = .ok value := by
  cases action with
  | error fault => simp [bind, Except.bind]
  | ok found => simp [bind, Except.bind]

/-- A check that refuses something has let it pass. -/
theorem check_eq_ok {α : Type} {refused : Prop} [Decidable refused]
    {fault : Fault} {next : PUnit → Except Fault α} {value : α} :
    (if refused then (throw fault : Except Fault PUnit) >>= next else next ()) =
        .ok value ↔
      ¬ refused ∧ next () = .ok value := by
  split
  · rename_i isRefused
    exact iff_of_false nofun fun passes => passes.1 isRefused
  · rename_i passes
    exact (and_iff_right passes).symm

/-! ### Slots -/

/-- The pieces of a path without the slashes at its end. -/
def unslashed (pieces : List Name) : List Name :=
  (pieces.reverse.dropWhile (· = [])).reverse

theorem unslashed_subset (pieces : List Name) :
    ∀ piece ∈ unslashed pieces, piece ∈ pieces := by
  intro piece member
  rw [unslashed, List.mem_reverse] at member
  exact List.mem_reverse.mp ((List.dropWhile_sublist _).subset member)

/-- The pieces of a path are those in front of its last name, that name, and
what the slashes behind it leave. -/
theorem exists_unslashed (path : Path) :
    ∃ more, path.pieces = (unslashed path.pieces).dropLast ++
        (unslashed path.pieces).getLast?.getD [] :: more ∧
      (path.pieces.length ≤ (unslashed path.pieces).length → more = []) := by
  obtain ⟨gap, isPieces, areEmpty⟩ : ∃ gap,
      path.pieces = unslashed path.pieces ++ gap ∧ ∀ piece ∈ gap, piece = [] := by
    refine ⟨(path.pieces.reverse.takeWhile (· = [])).reverse, ?_, ?_⟩
    · rw [unslashed, ← List.reverse_append, List.takeWhile_append_dropWhile,
        List.reverse_reverse]
    · intro piece member
      simpa using List.all_eq_true.mp List.all_takeWhile piece
        (List.mem_reverse.mp member)
  have noGap : path.pieces.length ≤ (unslashed path.pieces).length →
      gap = [] := by
    intro whole
    have lengths := congrArg List.length isPieces
    rw [List.length_append] at lengths
    exact List.length_eq_zero_iff.mp (by omega)
  rcases List.eq_nil_or_concat (unslashed path.pieces) with
    empty | ⟨front, last, isConcat⟩
  · rw [empty, List.nil_append] at isPieces
    obtain ⟨name, more, isGap⟩ :=
      List.exists_cons_of_ne_nil (isPieces ▸ path.pieces_ne_nil)
    refine ⟨more, ?_, fun whole => ?_⟩
    · rw [empty, isPieces, isGap, areEmpty name (isGap ▸ List.mem_cons_self)]
      rfl
    · rw [noGap whole] at isGap
      cases isGap
  · rw [List.concat_eq_append] at isConcat
    refine ⟨gap, isPieces.trans ?_, noGap⟩
    rw [isConcat]
    simp

/-- What is known of the slot of a path. -/
structure Slot.IsOf (tree : Tree) (path : Path) (slot : Slot) : Prop where
  checked : checkPath path = .ok ()
  follows : tree.follow path (unslashed path.pieces).dropLast = .ok slot.parent
  directory : tree.hasDirectory slot.parent = true
  name : slot.name = (unslashed path.pieces).getLast?.getD []
  trailing : slot.trailing =
    decide ((unslashed path.pieces).length < path.pieces.length)

theorem Slot.isOf (found : tree.slot path = .ok slot) : slot.IsOf tree path := by
  obtain ⟨⟨⟩, checked, found⟩ := bind_eq_ok.mp found
  obtain ⟨parent, follows, found⟩ := bind_eq_ok.mp found
  split at found
  · rename_i directory
    cases found
    exact ⟨checked, follows, directory, rfl, rfl⟩
  · cases found

theorem Slot.IsOf.found (isOf : slot.IsOf tree path) :
    tree.slot path = .ok slot := by
  obtain ⟨parent, name, trailing⟩ := slot
  refine bind_eq_ok.mpr ⟨(), isOf.checked, bind_eq_ok.mpr
    ⟨parent, isOf.follows, ?_⟩⟩
  obtain rfl := isOf.name
  obtain rfl := isOf.trailing
  rw [if_pos isOf.directory]
  rfl

/-- The name in a slot is legal if it is no dotted one and not too long. -/
theorem Slot.IsOf.isLegal (isOf : slot.IsOf tree path)
    (undotted : slot.isDotted = false)
    (fits : slot.name.length ≤ nameLimit) : slot.name.IsLegal := by
  simp only [Slot.isDotted, Bool.or_eq_false_iff, decide_eq_false_iff_not]
    at undotted
  have isPiece : slot.name ∈ path.pieces := by
    apply unslashed_subset
    have isName := isOf.name
    cases isLast : (unslashed path.pieces).getLast? with
    | none =>
        rw [isLast] at isName
        exact absurd isName undotted.1.1
    | some last =>
        rw [isLast] at isName
        exact isName ▸ List.mem_of_getLast? isLast
  refine ⟨⟨undotted.1.1, undotted.1.2, undotted.2,
    Path.slash_not_mem_of_mem_pieces isPiece,
    fun nul => (checkPath_eq_ok.mp isOf.checked).1
      ((Path.mem_bytes_iff (by decide)).mpr ⟨_, isPiece, nul⟩)⟩, fits⟩

theorem nodeIn?_eq_ok {node : Option Node} :
    tree.nodeIn? slot = .ok node ↔
      slot.name.length ≤ nameLimit ∧ tree.node? slot.place = node := by
  rw [nodeIn?]
  split
  · rename_i long
    simp [Nat.not_le.mpr long]
  · rename_i short
    simp [Nat.le_of_not_lt short]

/-- A path that leads somewhere has a slot, whose name goes on from there. -/
theorem exists_slot (resolved : tree.resolve path = .ok place) :
    ∃ (slot : Slot) (next : Place), slot.IsOf tree path ∧
      tree.TakesTo slot.parent slot.name next := by
  obtain ⟨checked, follows⟩ := resolve_eq_ok_iff.mp resolved
  obtain ⟨more, isPieces, -⟩ := exists_unslashed path
  generalize isName : (unslashed path.pieces).getLast?.getD [] = name
    at isPieces
  rw [isPieces] at follows
  obtain ⟨start, reached, isStart, isReached, -⟩ := follow_eq_ok.mp follows
  have atTop : Trail.Leads tree [] := trivial
  obtain ⟨startLeads, -⟩ := extend?_eq_some atTop rfl isStart
  rcases descendThrough_splits linkLimit startLeads _ (name :: more) with
    ⟨fault, -, failed⟩ | ⟨trail, left, isFront, leads, goesOn⟩
  · rw [isReached] at failed
    cases failed
  · rw [isReached] at goesOn
    obtain ⟨directory, next, takes⟩ :=
      descendThrough_cons_eq_ok leads goesOn.symm
    exact ⟨⟨trail.place, name, _⟩, next, ⟨checked,
      follow_eq_ok.mpr ⟨start, trail, isStart, isFront, rfl⟩, directory,
      isName.symm, rfl⟩, takes⟩

/-- A name with no slash behind it is followed from the directory it stands
in. -/
theorem Slot.IsOf.pieces (isOf : slot.IsOf tree path)
    (untrailed : slot.trailing = false) :
    path.pieces = (unslashed path.pieces).dropLast ++ [slot.name] := by
  obtain ⟨more, isPieces, isLast⟩ := exists_unslashed path
  rw [isOf.trailing, decide_eq_false_iff_not, Nat.not_lt] at untrailed
  rw [← isOf.name, isLast untrailed] at isPieces
  exact isPieces

end Tree

end PackageRename
