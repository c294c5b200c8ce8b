import PackageRename.Proofs.Tree.Layout
import PackageRename.Proofs.Tree.Pieces

/-!
# Where a file can be replaced

A new file takes the place of another by absolute paths, so none of the places
on the way may have one that is too long.  A lookup that keeps to this leads
where it leads without the limit; and where no links are on the way, it is the
names of the path that decide whether it does, not the tree.
-/

namespace PackageRename

open PackageRename.Path

theorem Place.spelledLength_append (front back : Place) :
    (front ++ back).spelledLength =
      front.spelledLength + back.spelledLength := by
  induction front with
  | nil => exact (Nat.zero_add _).symm
  | cons name rest induction =>
      rw [List.cons_append, spelledLength, spelledLength, induction]
      omega

namespace Tree

variable {tree other : Tree} {path second : Path} {place home : Place}
variable {limit links : Nat} {pieces : List Name} {strategy : WriteStrategy}

/-! ### With a limit and without -/

theorem Trail.overruns_of_limited {trail : Trail} {name : Name}
    (fits : ¬ trail.overruns (some limit) name = true) :
    ¬ trail.overruns none name = true := by
  simp only [overruns, Option.any_some, Option.any_none, Bool.or_false,
    Bool.or_eq_true, not_or] at fits ⊢
  exact fits.1

theorem descend_of_limited
    {onLink unlimited : Trail → Path → List Name → Except Fault Trail}
    (goesOn : ∀ {trail target rest reached},
      onLink trail target rest = .ok reached →
      unlimited trail target rest = .ok reached) {trail reached : Trail}
    (found : tree.descend (some limit) onLink trail pieces = .ok reached) :
    tree.descend none unlimited trail pieces = .ok reached := by
  induction pieces generalizing trail with
  | nil => exact found
  | cons piece rest induction =>
      rw [descend] at found ⊢
      cases isReached : tree.reached trail with
      | file present | link target share =>
          rw [isReached] at found
          cases found
      | directory mode entries =>
          rw [isReached] at found
          dsimp only at found ⊢
          split at found
          · rename_i spelling
            rw [if_pos spelling]
            exact induction found
          rename_i undotted
          rw [if_neg undotted]
          split at found
          · rename_i isParent
            rw [if_pos isParent]
            exact induction found
          rename_i notParent
          rw [if_neg notParent]
          split at found
          · cases found
          rename_i fits
          rw [if_neg (Trail.overruns_of_limited fits)]
          cases isEntry : entries.lookup piece with
          | none =>
              rw [isEntry] at found
              cases found
          | some inner =>
              rw [isEntry] at found
              cases inner with
              | link target share => exact goesOn found
              | directory _ _ | file _ => exact induction found

/-- A lookup that succeeds within a limit goes the same way without it. -/
theorem descendThrough_of_limited {trail reached : Trail}
    (found : tree.descendThrough (some limit) links trail pieces =
      .ok reached) :
    tree.descendThrough none links trail pieces = .ok reached := by
  induction links generalizing trail reached pieces with
  | zero =>
      refine descend_of_limited (fun onward => ?_) found
      cases onward
  | succ links induction =>
      refine descend_of_limited (fun {_ target _ _} onward => ?_) found
      by_cases written : target.bytes = []
      · rw [if_pos written] at onward
        cases onward
      · rw [if_neg written] at onward ⊢
        exact induction onward

theorem follow_of_canonical (canonical : tree.canonical path = .ok place) :
    tree.follow path path.pieces = .ok place := by
  rw [Tree.canonical] at canonical
  cases written : checkWritten path with
  | error fault =>
      rw [written] at canonical
      cases canonical
  | ok done =>
      rw [written] at canonical
      change tree.followWithin (some pathLimit) path path.pieces = _ at canonical
      rw [follow, followWithin] at *
      cases extended : Trail.extend? [] tree.top
          (if path.isAbsolute then [] else tree.origin) with
      | none =>
          rw [extended] at canonical
          cases canonical
      | some start =>
          simp only [extended] at canonical ⊢
          cases isReached : tree.descendThrough (some pathLimit) linkLimit start
              path.pieces with
          | error fault =>
              rw [isReached] at canonical
              cases canonical
          | ok reached =>
              rw [isReached] at canonical
              rw [descendThrough_of_limited isReached]
              exact canonical

/-- Looked up by absolute paths, a path leads where it leads anyway. -/
theorem place_eq_of_canonical (canonical : tree.canonical path = .ok home)
    (resolved : tree.resolve path = .ok place) : home = place := by
  have follows := follow_of_canonical canonical
  rw [(resolve_eq_ok_iff.mp resolved).2] at follows
  exact (Except.ok.inj follows).symm

/-! ### What a file that is to be replaced depends on -/

/-- A temporary file can be made in the directory of the place. -/
def HasRoom (place : Place) : Prop :=
  Place.spelledLength place.dropLast + 1 + temporaryLength ≤ pathLimit

theorem replacedBy_eq_ok : tree.replacedBy path = .ok place ↔
    tree.canonical path = .ok place ∧ HasRoom place := by
  rw [replacedBy, HasRoom]
  cases tree.canonical path with
  | error fault => simp [bind, Except.bind]
  | ok home =>
      simp only [bind, Except.bind, Except.ok.injEq]
      by_cases long : pathLimit <
          Place.spelledLength home.dropLast + 1 + temporaryLength
      · rw [if_pos long]
        refine iff_of_false nofun ?_
        rintro ⟨rfl, short⟩
        omega
      · rw [if_neg long]
        constructor
        · intro same
          obtain rfl := Except.ok.inj same
          exact ⟨rfl, Nat.le_of_not_lt long⟩
        · rintro ⟨rfl, -⟩
          rfl

/-- The way of writing can be used for what a path leads to: in place always,
and otherwise if a new file can take its place. -/
def CanWrite (tree : Tree) (strategy : WriteStrategy) (path : Path) : Prop :=
  strategy = .atomic → (tree.replacedBy path).isOk = true

instance (tree : Tree) (strategy : WriteStrategy) (path : Path) :
    Decidable (tree.CanWrite strategy path) :=
  inferInstanceAs (Decidable (_ → _))

theorem replacedBy_of_layout (same : tree.layout = other.layout)
    (path : Path) : tree.replacedBy path = other.replacedBy path :=
  eq_of_layout (fun tree => tree.replacedBy path)
    (fun tree change => by rw [replacedBy, replacedBy, canonical_mapFiles])
    same

theorem canWrite_of_layout (same : tree.layout = other.layout) :
    tree.CanWrite strategy path ↔ other.CanWrite strategy path := by
  rw [CanWrite, CanWrite, replacedBy_of_layout same]

theorem checkWritten_eq_of_components
    (same : path.components = second.components) :
    checkWritten path = checkWritten second := by
  have sameNul : path.bytes.contains 0 = second.bytes.contains 0 := by
    rw [Bool.eq_iff_iff, List.contains_iff_mem, List.contains_iff_mem,
      nul_mem_iff, nul_mem_iff, steps_eq_of_components same]
  have sameEmpty : path.bytes = [] ↔ second.bytes = [] := by
    rw [← components_eq_nil_iff, ← components_eq_nil_iff, same]
  rw [checkWritten, checkWritten, sameNul]
  simp only [sameEmpty]

/-- How the path is spelled does not matter. -/
theorem replacedBy_eq_of_components
    (same : path.components = second.components)
    (sameEnd : EndsInSpelling path.pieces ↔ EndsInSpelling second.pieces) :
    tree.replacedBy path = tree.replacedBy second := by
  rw [replacedBy, replacedBy, canonical, canonical,
    checkWritten_eq_of_components same,
    followWithin_eq_of_normal (isAbsolute_eq_of_components same)
      (normal_eq_of_steps (steps_eq_of_components same) sameEnd)]

/-! ### Where no links are on the way -/

/-- The places that pieces name one after the other, if there are no links. -/
def named : Place → List Name → List Place
  | _, [] => []
  | place, piece :: rest =>
      if piece = [] ∨ piece = [dot] then named place rest
      else if piece = [dot, dot] then named place.dropLast rest
      else (place ++ [piece]) :: named (place ++ [piece]) rest

/-- No place on the way has an absolute path that is too long. -/
def IsNear (start : Place) (pieces : List Name) : Prop :=
  ∀ inner ∈ named start pieces, inner.spelledLength ≤ pathLimit

/-- A file at the place can be replaced, once the lookup has come to where its
directory stands. -/
def IsReplaceable (place : Place) : Prop :=
  place.spelledLength ≤ pathLimit ∧ HasRoom place

instance (place : Place) : Decidable (IsReplaceable place) :=
  inferInstanceAs (Decidable (_ ≤ _ ∧ _ ≤ _))

/-- Where the front pieces lead to, the others go on. -/
theorem named_append {start : Place} {front : List Name}
    (entered : tree.enter start front = .ok place) (back : List Name) :
    named start (front ++ back) = named start front ++ named place back := by
  induction front generalizing start with
  | nil =>
      cases entered
      rfl
  | cons piece rest induction =>
      obtain ⟨-, next, takes, onward⟩ := enter_cons_eq_ok.mp entered
      have goesOn := induction onward
      rw [List.cons_append, named, named]
      cases takes with
      | stay spelling =>
          rw [if_pos spelling, if_pos spelling]
          exact goesOn
      | rise isParent =>
          subst isParent
          rw [if_neg (by decide), if_pos rfl, if_neg (by decide), if_pos rfl]
          exact goesOn
      | enter undotted notParent _ _ =>
          rw [if_neg undotted, if_neg notParent, if_neg undotted,
            if_neg notParent, List.cons_append, goesOn]

/-- Of the places that plain names lead through, the last has the longest
path. -/
theorem isNear_plain {names : List Name} (plain : ArePlain names)
    (nonempty : names ≠ []) :
    IsNear place names ↔ (place ++ names).spelledLength ≤ pathLimit := by
  induction names generalizing place with
  | nil => exact absurd rfl nonempty
  | cons name rest induction =>
      have isName := plain name List.mem_cons_self
      have isSplit : place ++ name :: rest = (place ++ [name]) ++ rest := by simp
      rw [IsNear, named,
        if_neg (not_or.mpr ⟨isName.nonempty, isName.notCurrent⟩),
        if_neg isName.notParent, List.forall_mem_cons, isSplit]
      by_cases isLast : rest = []
      · rw [isLast, List.append_nil]
        simp [named]
      · have further := @induction (place ++ [name])
          (fun other member => plain other (List.mem_cons_of_mem _ member))
          isLast
        refine (and_congr_right fun _ => further).trans
          ⟨And.right, fun short => ⟨?_, short⟩⟩
        rw [Place.spelledLength_append] at short
        omega

theorem descend_limited_iff (free : tree.IsLinkFree)
    {onLink unlimited : Trail → Path → List Name → Except Fault Trail}
    {trail reached : Trail} (leads : Trail.Leads tree trail) :
    tree.descend (some pathLimit) onLink trail pieces = .ok reached ↔
      tree.descend none unlimited trail pieces = .ok reached ∧
        IsNear trail.place pieces := by
  induction pieces generalizing trail with
  | nil => simp [descend, IsNear, named]
  | cons piece rest induction =>
      rw [descend, descend, IsNear, named]
      cases isReached : tree.reached trail with
      | file present | link target share => simp
      | directory mode entries =>
          dsimp only
          split
          · exact induction leads
          split
          · rw [← Trail.place_tail]
            exact induction leads.tail
          rw [List.forall_mem_cons]
          by_cases long : nameLimit < piece.length
          · simp [Trail.overruns, long]
          by_cases deep :
              pathLimit < Place.spelledLength (trail.place ++ [piece])
          · rw [if_pos (by simp [Trail.overruns, deep])]
            refine iff_of_false (by simp) ?_
            rintro ⟨-, near, -⟩
            exact Nat.not_le.mpr deep near
          rw [if_neg (by simp [Trail.overruns, long, deep]),
            if_neg (by simp [long])]
          cases isEntry : entries.lookup piece with
          | none => simp
          | some inner =>
              have further := leads.cons isReached isEntry
              have goesOn := induction further
              rw [Trail.place_cons] at goesOn
              have near : Place.spelledLength (trail.place ++ [piece]) ≤
                  pathLimit := Nat.le_of_not_lt deep
              cases inner with
              | directory _ _ | file _ => exact goesOn.trans (by simp [near, IsNear])
              | link target share =>
                  have isNode := leads.node?_concat piece
                  rw [isReached, Subtree.entries, isEntry] at isNode
                  exact absurd isNode (free.linkless _ _ _)

/-- Where a path leads in a tree without links, it leads by absolute paths if
they are short enough. -/
theorem canonical_iff_isNear (free : tree.IsLinkFree)
    (resolved : tree.resolve path = .ok place) :
    tree.canonical path = .ok place ↔
      IsNear (tree.startOf path) path.pieces := by
  obtain ⟨checked, follows⟩ := resolve_eq_ok_iff.mp resolved
  have written : checkWritten path = .ok () := by
    rw [checkPath] at checked
    cases isWritten : checkWritten path with
    | error fault =>
        rw [isWritten] at checked
        cases checked
    | ok done => rfl
  obtain ⟨start, reached, isStart, isReached, rfl⟩ := follow_eq_ok.mp follows
  have atTop : Trail.Leads tree [] := trivial
  obtain ⟨leads, isPlace⟩ := extend?_eq_some atTop rfl isStart
  obtain ⟨onLink, isLimited⟩ := tree.exists_descend (some pathLimit) linkLimit
  obtain ⟨unlimited, isUnlimited⟩ := tree.exists_descend none linkLimit
  have limited := fun reached => @descend_limited_iff tree path.pieces free
    onLink unlimited start reached leads
  rw [← isUnlimited, ← isLimited, isReached, isPlace] at limited
  rw [canonical, written]
  change tree.followWithin (some pathLimit) path path.pieces = _ ↔ _
  rw [followWithin]
  simp only [isStart]
  constructor
  · intro found
    cases isLimitedReached : tree.descendThrough (some pathLimit) linkLimit start
        path.pieces with
    | error fault =>
        rw [isLimitedReached] at found
        cases found
    | ok other => exact ((limited other).mp isLimitedReached).2
  · intro near
    rw [(limited reached).mpr ⟨rfl, near⟩]
    rfl

/-- A file in a tree without links can be written wherever its path leads, if
absolute paths do not become too long. -/
theorem canWrite_iff_isNear (free : tree.IsLinkFree)
    (resolved : tree.resolve path = .ok place) :
    tree.CanWrite strategy path ↔ (strategy = .atomic →
      IsNear (tree.startOf path) path.pieces ∧ HasRoom place) := by
  rw [CanWrite, ← canonical_iff_isNear free resolved]
  refine imp_congr_right fun _ => ?_
  cases replaces : tree.replacedBy path with
  | error fault =>
      refine iff_of_false nofun fun can => ?_
      rw [replacedBy_eq_ok.mpr can] at replaces
      cases replaces
  | ok home =>
      have can := replacedBy_eq_ok.mp replaces
      rw [place_eq_of_canonical can.1 resolved] at can
      exact iff_of_true rfl can

/-- What stands elsewhere in the tree does not matter. -/
theorem canWrite_congr (free : tree.IsLinkFree) (otherFree : other.IsLinkFree)
    (origin : other.origin = tree.origin)
    (resolved : tree.resolve path = .ok place)
    (otherResolved : other.resolve path = .ok place) :
    other.CanWrite strategy path ↔ tree.CanWrite strategy path := by
  rw [canWrite_iff_isNear free resolved,
    canWrite_iff_isNear otherFree otherResolved, startOf, startOf, origin]

end Tree

end PackageRename
