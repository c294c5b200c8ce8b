import PackageRename.Proofs.Tree.Deciding

/-!
# Lookups that come through links

What a lookup comes to, step by step: a directory it stays in or goes up from, a
name it enters, a link it goes on from.  A lookup goes the same way in every tree
that has the same nodes where it comes by.  So a directory without links is a
ground as soon as its own path comes by nothing inside it.
-/

namespace PackageRename

namespace Tree

variable {tree other : Tree} {seen : Place → Prop}
variable {place goal : Place} {piece : Name} {rest pieces : List Name}
variable {links : Nat}

/-- From a place, pieces lead to a goal through at most so many links, and
whatever the lookup comes by is seen. -/
inductive Finds (tree : Tree) (seen : Place → Prop) :
    Nat → Place → List Name → Place → Prop
  | arrive {links : Nat} {place : Place} :
      Finds tree seen links place [] place
  | stay {links : Nat} {place goal : Place} {piece : Name}
      {rest : List Name} :
      seen place → tree.hasDirectory place = true →
      piece = [] ∨ piece = [dot] →
      Finds tree seen links place rest goal →
      Finds tree seen links place (piece :: rest) goal
  | rise {links : Nat} {place goal : Place} {rest : List Name} :
      seen place → tree.hasDirectory place = true →
      Finds tree seen links place.dropLast rest goal →
      Finds tree seen links place ([dot, dot] :: rest) goal
  | enter {links : Nat} {place goal : Place} {piece : Name}
      {rest : List Name} {node : Node} :
      piece.IsLegal → seen (place ++ [piece]) →
      tree.node? (place ++ [piece]) = some node → node.kind ≠ .link →
      Finds tree seen links (place ++ [piece]) rest goal →
      Finds tree seen links place (piece :: rest) goal
  | jump {links : Nat} {place goal : Place} {piece : Name}
      {rest : List Name} {target : Path} {share : Option Nat} :
      piece.IsLegal → seen (place ++ [piece]) →
      tree.node? (place ++ [piece]) = some (.link target share) →
      target.bytes ≠ [] →
      Finds tree seen links (if target.isAbsolute then [] else place)
        (target.pieces ++ rest) goal →
      Finds tree seen (links + 1) place (piece :: rest) goal

namespace Finds

/-- What a lookup comes by decides where it leads. -/
theorem transfer (finds : tree.Finds seen links place pieces goal)
    (same : ∀ place, seen place → other.node? place = tree.node? place) :
    other.Finds seen links place pieces goal := by
  induction finds with
  | arrive => exact .arrive
  | stay isSeen directory spelling _ induction =>
      refine .stay isSeen ?_ spelling induction
      rw [hasDirectory, same _ isSeen]
      exact directory
  | rise isSeen directory _ induction =>
      refine .rise isSeen ?_ induction
      rw [hasDirectory, same _ isSeen]
      exact directory
  | enter legal isSeen isNode unlinked _ induction =>
      exact .enter legal isSeen ((same _ isSeen).trans isNode) unlinked
        induction
  | jump legal isSeen isLink written _ induction =>
      exact .jump legal isSeen ((same _ isSeen).trans isLink) written induction

/-- What stands in a directory has an entry, and a trail goes on to it. -/
private theorem exists_entry {trail : Trail} {node : Node}
    (leads : Trail.Leads tree trail)
    (isNode : tree.node? (trail.place ++ [piece]) = some node) :
    ∃ mode entries inner, tree.reached trail = .directory mode entries ∧
      entries.lookup piece = some inner ∧ inner.node = node ∧
      Trail.Leads tree ((piece, inner) :: trail) := by
  obtain ⟨mode, entries, isReached, next⟩ := leads.exists_entries
    (hasDirectory_of_append (by rw [isNode]; rfl) (List.cons_ne_nil _ _))
  rw [next] at isNode
  obtain ⟨inner, isEntry, isInner⟩ := Option.map_eq_some_iff.mp isNode
  exact ⟨mode, entries, inner, isReached, isEntry, isInner,
    leads.cons isReached isEntry⟩

/-- A lookup leads where it is found to lead. -/
theorem descendThrough (finds : tree.Finds seen links place pieces goal)
    {trail : Trail} (leads : Trail.Leads tree trail)
    (isPlace : trail.place = place) :
    ∃ reached, tree.descendThrough none links trail pieces = .ok reached ∧
      reached.place = goal := by
  induction finds generalizing trail with
  | @arrive links place =>
      obtain ⟨onLink, isDescent⟩ := tree.exists_descend none links
      exact ⟨trail, by rw [isDescent, descend], isPlace⟩
  | @stay links place goal piece rest isSeen directory spelling _ induction =>
      obtain ⟨onLink, isDescent⟩ := tree.exists_descend none links
      subst isPlace
      obtain ⟨mode, entries, isReached, -⟩ := leads.exists_entries directory
      obtain ⟨reached, isRest, isGoal⟩ := induction leads rfl
      refine ⟨reached, ?_, isGoal⟩
      rw [isDescent] at isRest ⊢
      simp only [descend, isReached, if_pos spelling, isRest]
  | @rise links place goal rest isSeen directory _ induction =>
      obtain ⟨onLink, isDescent⟩ := tree.exists_descend none links
      subst isPlace
      obtain ⟨mode, entries, isReached, -⟩ := leads.exists_entries directory
      obtain ⟨reached, isRest, isGoal⟩ :=
        induction leads.tail (Trail.place_tail trail)
      refine ⟨reached, ?_, isGoal⟩
      rw [isDescent] at isRest ⊢
      have undotted : ¬ (([dot, dot] : Name) = [] ∨ [dot, dot] = [dot]) := by
        decide
      simp only [descend, isReached, if_neg undotted, ↓reduceIte, isRest]
  | @enter links place goal piece rest node legal isSeen isNode unlinked _
      induction =>
      obtain ⟨onLink, isDescent⟩ := tree.exists_descend none links
      subst isPlace
      obtain ⟨mode, entries, inner, isReached, isEntry, isInner, further⟩ :=
        exists_entry leads isNode
      obtain ⟨reached, isRest, isGoal⟩ :=
        induction further (Trail.place_cons _ _ _)
      refine ⟨reached, ?_, isGoal⟩
      rw [isDescent] at isRest ⊢
      rw [descend]
      simp only [isReached, if_neg legal.plain.undotted,
        if_neg legal.plain.notParent, Trail.overruns_none, decide_eq_true_iff,
        if_neg (Nat.not_lt.mpr legal.fits), isEntry]
      cases inner with
      | directory _ _ | file _ => exact isRest
      | link target share =>
          subst isInner
          exact absurd rfl unlinked
  | @jump links place goal piece rest target share legal isSeen isLink written _
      induction =>
      subst isPlace
      obtain ⟨mode, entries, inner, isReached, isEntry, isInner, -⟩ :=
        exists_entry leads isLink
      have startLeads :
          Trail.Leads tree (if target.isAbsolute then [] else trail) := by
        split
        · exact trivial
        · exact leads
      obtain ⟨reached, isRest, isGoal⟩ := induction startLeads (by
        split <;> rfl)
      refine ⟨reached, ?_, isGoal⟩
      rw [Tree.descendThrough, descend]
      simp only [isReached, if_neg legal.plain.undotted,
        if_neg legal.plain.notParent, Trail.overruns_none, decide_eq_true_iff,
        if_neg (Nat.not_lt.mpr legal.fits), isEntry]
      cases inner with
      | directory _ _ | file _ => cases isInner
      | link other otherShare =>
          obtain ⟨rfl, rfl⟩ := Node.link.inj isInner
          simp only [if_neg written, isRest]

/-- A path leads where its pieces are found to lead. -/
theorem resolve {path : Path} (checked : checkPath path = .ok ())
    (present : (tree.node? (tree.startOf path)).isSome)
    (finds : tree.Finds seen linkLimit (tree.startOf path) path.pieces goal) :
    tree.resolve path = .ok goal := by
  refine resolve_eq_ok_iff.mpr ⟨checked, follow_eq_ok.mpr ?_⟩
  cases isStart : Trail.extend? [] tree.top (tree.startOf path) with
  | none =>
      rw [node?, subtree?, extend?_eq_none isStart] at present
      cases present
  | some start =>
      have atTop : Trail.Leads tree [] := trivial
      obtain ⟨leads, isPlace⟩ := extend?_eq_some atTop rfl isStart
      obtain ⟨reached, isReached, isGoal⟩ :=
        finds.descendThrough leads isPlace
      exact ⟨start, reached, isStart, isReached, isGoal⟩

end Finds

/-- A directory is a ground if its path comes by nothing inside it. -/
theorem LeadsInto.isGround {base : Path} (leads : tree.LeadsInto base place)
    (startSeen : ¬ Inside place (tree.startOf base))
    (present : (tree.node? (tree.startOf base)).isSome)
    (finds : tree.Finds (¬ Inside place ·) linkLimit (tree.startOf base)
      base.pieces place) : tree.IsGround base place where
  toLeadsInto := leads
  steady := by
    intro other origin same _
    have isStart := startOf_eq origin base
    have checked := (resolve_eq_ok_iff.mp leads.resolved).1
    refine Finds.resolve checked ?_ (isStart ▸ finds.transfer same)
    rw [isStart, same _ startSeen]
    exact present

/-! ### Grounds that can be evaluated -/

theorem leadsInto_of_nodes {base : Path}
    (resolved : tree.resolve base = .ok place)
    (directory : tree.hasDirectory place = true)
    (unlinked : ∀ entry ∈ tree.nodes, place <+: entry.1 →
      entry.2.kind ≠ .link)
    (legal : ∀ entry ∈ tree.nodes, ∀ name ∈ entry.1, name.IsLegal) :
    tree.LeadsInto base place where
  resolved := resolved
  directory := directory
  linkless := by
    intro names target share isLink
    by_cases atTop : place ++ names = []
    · rw [atTop, node?_nil] at isLink
      cases isLink
    · exact unlinked _ (mem_nodes isLink atTop) (List.prefix_append _ _) rfl
  legal := by
    intro names present name member
    exact hasLegalNames_of_nodes legal _ present name
      (List.mem_append_right _ member)

/-- A tree with a directory that is found through a link beside it.  A file in
it has two names. -/
def linkedPackage : Tree :=
  (Tree.holding [("p/smali/com/app/Main.smali", "a"),
    ("p/smali/com/app/ui/View.smali", "b"), ("p/smali/org/Lib.smali", "c")]).edit
    ⟨[], [(Path.ofString "p/smali/com/app/Same.smali",
        .hardLink (Path.ofString "p/smali/com/app/Main.smali")),
      (Path.ofString "p/smali/com/app/ui/none", .directory),
      (Path.ofString "l", .link (Path.ofString "p"))]⟩

theorem linkedPackage_isGround :
    linkedPackage.IsGround (Path.ofString "l/smali/")
      [Utf8.encode "p", Utf8.encode "smali"] := by
  have isPieces : (Path.ofString "l/smali/").pieces =
      [Utf8.encode "l", Utf8.encode "smali", []] := by
    decide +kernel
  have isTarget : (Path.ofString "p").pieces = [Utf8.encode "p"] := by
    decide +kernel
  have isLink : linkedPackage.node? ([] ++ [Utf8.encode "l"]) =
      some (.link (Path.ofString "p") none) := by
    decide +kernel
  have isFirst : linkedPackage.node? ([] ++ [Utf8.encode "p"]) =
      some .made := by
    decide +kernel
  have isSecond : linkedPackage.node?
      ([] ++ [Utf8.encode "p"] ++ [Utf8.encode "smali"]) =
        some .made := by
    decide +kernel
  refine (leadsInto_of_nodes ?_ ?_ ?_ ?_).isGround ?_ ?_ ?_
  iterate 6 decide +kernel
  rw [isPieces]
  refine .jump (by decide) (by decide) isLink (by decide) ?_
  rw [isTarget]
  refine .enter (by decide) (by decide) isFirst nofun ?_
  refine .enter (by decide) (by decide) isSecond nofun ?_
  exact .stay (by decide) (by decide +kernel) (.inl rfl) .arrive

/-- One package, whose directory has nothing beside it. -/
def lonePackage : Tree :=
  .holding [("p/smali/com/app/Main.smali", "")]

/-- A package below another, in a directory that only its owner may enter. -/
def guardedPackage : Tree :=
  (((Tree.holding [("p/smali/com/app/Main.smali", "")]).edit
    ⟨[], [(Path.ofString "p/smali/com/app/x", .directory)]⟩).replace
      [Utf8.encode "p", Utf8.encode "smali", Utf8.encode "com",
        Utf8.encode "app", Utf8.encode "x"] (.directory 0o700)).edit
    ⟨[], [(Path.ofString "p/smali/com/app/x/ui", .directory)]⟩

end Tree

end PackageRename
