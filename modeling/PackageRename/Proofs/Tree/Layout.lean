import PackageRename.Tree.Lemmas
import PackageRename.Tree.Operations
import PackageRename.Tree.Walk

/-!
# The layout of a tree

The layout is what is left of a tree when its files are blank: names,
directories and links.  Paths are followed, directories are listed and walks are
steered by the layout alone, so an operation that only changes files changes
none of this.
-/

namespace PackageRename

namespace Tree

variable {tree other : Tree} {change : File → File}

/-! ### Lookups in a tree with changed files -/

/-- A trail into the tree with changed files. -/
def Trail.mapFiles (change : File → File) (trail : Trail) : Trail :=
  trail.map fun step => (step.1, step.2.mapFiles change)

@[simp]
theorem Trail.place_mapFiles (trail : Trail) :
    (trail.mapFiles change).place = trail.place := by
  simp [Trail.place, Trail.mapFiles]

theorem Trail.extend?_mapFiles (trail : Trail) (subtree : Subtree)
    (place : Place) :
    Trail.extend? (trail.mapFiles change) (subtree.mapFiles change) place =
      (Trail.extend? trail subtree place).map (Trail.mapFiles change) := by
  induction place generalizing trail subtree with
  | nil => rfl
  | cons name rest induction =>
      cases subtree with
      | directory mode entries =>
          rw [Trail.extend?, Trail.extend?, Subtree.mapFiles]
          simp only [Subtree.entries, Entries.lookup_mapEntries]
          cases entries.lookup name with
          | none => rfl
          | some inner => exact induction ((name, inner) :: trail) inner
      | file present => rfl
      | link target share => rfl

@[simp]
theorem Trail.overruns_mapFiles (limit : Option Nat) (trail : Trail)
    (name : Name) :
    (trail.mapFiles change).overruns limit name = trail.overruns limit name := by
  rw [Trail.overruns, Trail.overruns, Trail.place_mapFiles]

theorem reached_mapFiles (trail : Trail) :
    (tree.mapFiles change).reached (trail.mapFiles change) =
      (tree.reached trail).mapFiles change := by
  cases trail <;> rfl

theorem descend_mapFiles {limit : Option Nat}
    {onLink onLink' : Trail → Path → List Name → Except Fault Trail}
    (links : ∀ trail target rest,
      onLink' (trail.mapFiles change) target rest =
        (onLink trail target rest).map (Trail.mapFiles change))
    (trail : Trail) (pieces : List Name) :
    (tree.mapFiles change).descend limit onLink' (trail.mapFiles change)
        pieces =
      (tree.descend limit onLink trail pieces).map (Trail.mapFiles change) := by
  induction pieces generalizing trail with
  | nil => rfl
  | cons piece rest induction =>
      rw [descend, descend, reached_mapFiles]
      cases tree.reached trail with
      | directory mode entries =>
          simp only [Subtree.mapFiles, Entries.lookup_mapEntries,
            Trail.overruns_mapFiles]
          split
          · exact induction trail
          · split
            · have isTail : Trail.mapFiles change trail.tail =
                  (trail.mapFiles change).tail := by
                cases trail <;> rfl
              rw [← isTail]
              exact induction trail.tail
            · split
              · rfl
              · cases entries.lookup piece with
                | none => rfl
                | some inner =>
                    cases inner with
                    | directory innerMode more =>
                        exact induction
                          ((piece, .directory innerMode more) :: trail)
                    | file present =>
                        exact induction ((piece, .file present) :: trail)
                    | link target share => exact links trail target rest
      | file present => rfl
      | link target share => rfl

theorem descendThrough_mapFiles (limit : Option Nat) (links : Nat)
    (trail : Trail) (pieces : List Name) :
    (tree.mapFiles change).descendThrough limit links (trail.mapFiles change)
        pieces =
      (tree.descendThrough limit links trail pieces).map
        (Trail.mapFiles change) := by
  induction links generalizing trail pieces with
  | zero => exact descend_mapFiles (fun _ _ _ => rfl) trail pieces
  | succ links induction =>
      refine descend_mapFiles ?_ trail pieces
      intro trail target rest
      dsimp only
      split
      · rfl
      · cases target.isAbsolute
        · exact induction trail (target.pieces ++ rest)
        · exact induction [] (target.pieces ++ rest)

@[simp]
theorem followWithin_mapFiles (limit : Option Nat) (path : Path)
    (pieces : List Name) :
    (tree.mapFiles change).followWithin limit path pieces =
      tree.followWithin limit path pieces := by
  have extended := @Trail.extend?_mapFiles change [] tree.top
    (if path.isAbsolute then [] else tree.origin)
  change Trail.extend? [] (tree.mapFiles change).top
    (if path.isAbsolute then [] else (tree.mapFiles change).origin) = _
    at extended
  simp only [followWithin, extended]
  cases Trail.extend? [] tree.top
    (if path.isAbsolute then [] else tree.origin) with
  | none => rfl
  | some trail =>
      simp only [Option.map_some, descendThrough_mapFiles]
      cases tree.descendThrough limit linkLimit trail pieces with
      | error fault => rfl
      | ok reached => exact congrArg Except.ok (Trail.place_mapFiles reached)

@[simp]
theorem follow_mapFiles (path : Path) (pieces : List Name) :
    (tree.mapFiles change).follow path pieces = tree.follow path pieces :=
  followWithin_mapFiles none path pieces

@[simp]
theorem resolve_mapFiles (path : Path) :
    (tree.mapFiles change).resolve path = tree.resolve path := by
  simp [resolve]

@[simp]
theorem canonical_mapFiles (path : Path) :
    (tree.mapFiles change).canonical path = tree.canonical path := by
  simp [canonical]

@[simp]
theorem hasDirectory_mapFiles (place : Place) :
    (tree.mapFiles change).hasDirectory place = tree.hasDirectory place := by
  rw [hasDirectory, hasDirectory, node?_mapFiles]
  cases tree.node? place with
  | none => rfl
  | some node => cases node <;> rfl

@[simp]
theorem isDirectory_mapFiles (path : Path) :
    (tree.mapFiles change).isDirectory path = tree.isDirectory path := by
  simp [isDirectory]

@[simp]
theorem slot_mapFiles (path : Path) :
    (tree.mapFiles change).slot path = tree.slot path := by
  simp [slot]

theorem mapFile_eq_file {node : Option Node} {file : File} :
    node.map (Node.mapFile change) = some (.file file) ↔
      ∃ before, node = some (.file before) ∧ file = change before := by
  constructor
  · intro isFile
    obtain ⟨inner, isInner, isChanged⟩ := Option.map_eq_some_iff.mp isFile
    cases inner with
    | directory mode => cases isChanged
    | link target share => cases isChanged
    | file before =>
        cases isChanged
        exact ⟨before, isInner, rfl⟩
  · rintro ⟨before, isNode, isChanged⟩
    rw [isNode, isChanged]
    rfl

theorem kind_eq_file {node : Option Node} :
    node.map Node.kind = some .file ↔ ∃ file, node = some (.file file) := by
  constructor
  · intro isFile
    obtain ⟨inner, isInner, isKind⟩ := Option.map_eq_some_iff.mp isFile
    cases inner with
    | directory mode => cases isKind
    | link target share => cases isKind
    | file present => exact ⟨present, isInner⟩
  · rintro ⟨file, isNode⟩
    rw [isNode]
    rfl

theorem mapFile_eq_link {node : Option Node} {target : Path}
    {share : Option Nat} :
    node.map (Node.mapFile change) = some (.link target share) ↔
      node = some (.link target share) := by
  cases node with
  | none => simp
  | some present => cases present <;> simp [Node.mapFile]

theorem kind_mapFile (node : Node) : (node.mapFile change).kind = node.kind := by
  cases node <;> rfl

@[simp]
theorem kindOf_mapFiles (path : Path) :
    (tree.mapFiles change).kindOf path = tree.kindOf path := by
  have kinds : ∀ place, ((tree.mapFiles change).node? place).map Node.kind =
      (tree.node? place).map Node.kind := by
    intro place
    rw [node?_mapFiles, Option.map_map]
    congr 1
    funext node
    exact kind_mapFile node
  simp only [kindOf, slot_mapFiles, resolve_mapFiles, nodeIn?, kinds]
  cases tree.slot path with
  | error fault => rfl
  | ok slot =>
      simp only [bind, Except.bind]
      split
      · rfl
      · by_cases long : nameLimit < slot.name.length
        · simp [long]
        · have kind := kinds slot.place
          simp only [if_neg long]
          cases isMapped : (tree.mapFiles change).node? slot.place with
          | none =>
              cases isNode : tree.node? slot.place with
              | none => rfl
              | some node => simp [isMapped, isNode] at kind
          | some mapped =>
              cases isNode : tree.node? slot.place with
              | none => simp [isMapped, isNode] at kind
              | some node =>
                  rw [isMapped, isNode] at kind
                  exact congrArg Except.ok (Option.some.inj kind)

theorem childrenOf_mapFiles (place : Place) :
    (tree.mapFiles change).childrenOf place =
      (tree.childrenOf place).map fun child =>
        (child.1, child.2.mapFile change) := by
  have isTop : (tree.mapFiles change).top = tree.top.mapFiles change := rfl
  have isEntries : ∀ entries : Entries,
      (Subtree.mapEntries change entries).map
          (fun entry => (entry.1, entry.2.node)) =
        (entries.map fun entry => (entry.1, entry.2.node)).map fun child =>
          (child.1, child.2.mapFile change) := by
    intro entries
    induction entries with
    | nil => rfl
    | cons head rest induction =>
        rw [Subtree.mapEntries, List.map_cons, List.map_cons, List.map_cons,
          induction, Subtree.node_mapFiles]
  rw [childrenOf, childrenOf, subtree?, subtree?, isTop, Subtree.at?_mapFiles]
  cases tree.top.at? place with
  | none => rfl
  | some subtree =>
      cases subtree with
      | directory mode entries => exact isEntries entries
      | file present => rfl
      | link target share => rfl

@[simp]
theorem list_mapFiles (path : Path) :
    (tree.mapFiles change).list path = tree.list path := by
  simp [list, childrenOf_mapFiles, Function.comp_def, kind_mapFile]

@[simp]
theorem leadsTo_mapFiles (path : Path) (place : Place) :
    (tree.mapFiles change).leadsTo path place = tree.leadsTo path place := by
  simp [leadsTo]

@[simp]
theorem classify_mapFiles (above : List Path) (path : Path) (kind : Kind) :
    (tree.mapFiles change).classify above path kind =
      tree.classify above path kind := by
  cases kind <;> simp [classify]

/-! ### Trees with one layout -/

/-- The tree with blank files. -/
def layout (tree : Tree) : Tree :=
  tree.mapFiles fun _ => File.fresh [] 0

@[simp]
theorem node?_layout (place : Place) :
    tree.layout.node? place =
      (tree.node? place).map (Node.mapFile fun _ => File.fresh [] 0) :=
  node?_mapFiles tree _ place

@[simp]
theorem follow_layout (path : Path) (pieces : List Name) :
    tree.layout.follow path pieces = tree.follow path pieces :=
  follow_mapFiles path pieces

@[simp]
theorem resolve_layout (path : Path) :
    tree.layout.resolve path = tree.resolve path :=
  resolve_mapFiles path

@[simp]
theorem hasDirectory_layout (place : Place) :
    tree.layout.hasDirectory place = tree.hasDirectory place :=
  hasDirectory_mapFiles place

@[simp]
theorem isDirectory_layout (path : Path) :
    tree.layout.isDirectory path = tree.isDirectory path :=
  isDirectory_mapFiles path

@[simp]
theorem kindOf_layout (path : Path) :
    tree.layout.kindOf path = tree.kindOf path :=
  kindOf_mapFiles path

/-- What does not look into files is the same in trees with one layout. -/
theorem eq_of_layout {α : Type} (look : Tree → α)
    (blind : ∀ tree change, look (tree.mapFiles change) = look tree)
    (same : tree.layout = other.layout) : look tree = look other := by
  calc
    look tree = look tree.layout := (blind tree _).symm
    _ = look other.layout := by rw [same]
    _ = look other := blind other _

theorem resolve_of_layout (same : tree.layout = other.layout) (path : Path) :
    tree.resolve path = other.resolve path :=
  eq_of_layout (fun tree => tree.resolve path)
    (fun _ _ => resolve_mapFiles path) same

theorem isDirectory_of_layout (same : tree.layout = other.layout)
    (path : Path) : tree.isDirectory path = other.isDirectory path :=
  eq_of_layout (fun tree => tree.isDirectory path)
    (fun _ _ => isDirectory_mapFiles path) same

theorem kindOf_of_layout (same : tree.layout = other.layout) (path : Path) :
    tree.kindOf path = other.kindOf path :=
  eq_of_layout (fun tree => tree.kindOf path)
    (fun _ _ => kindOf_mapFiles path) same

theorem list_of_layout (same : tree.layout = other.layout) (path : Path) :
    tree.list path = other.list path :=
  eq_of_layout (fun tree => tree.list path)
    (fun _ _ => list_mapFiles path) same

theorem classify_of_layout (same : tree.layout = other.layout)
    (above : List Path) (path : Path) (kind : Kind) :
    tree.classify above path kind = other.classify above path kind :=
  eq_of_layout (fun tree => tree.classify above path kind)
    (fun _ _ => classify_mapFiles above path kind) same

theorem node?_of_layout (same : tree.layout = other.layout) (place : Place) :
    (tree.node? place).map (Node.mapFile fun _ => File.fresh [] 0) =
      (other.node? place).map (Node.mapFile fun _ => File.fresh [] 0) := by
  rw [← node?_mapFiles, ← node?_mapFiles]
  exact congrArg (fun tree => tree.node? place) same

theorem layout_eq_of_node? (origin : tree.origin = other.origin)
    (same : ∀ place,
      (tree.node? place).map (Node.mapFile fun _ => File.fresh [] 0) =
        (other.node? place).map (Node.mapFile fun _ => File.fresh [] 0)) :
    tree.layout = other.layout := by
  refine eq_of_node? origin ?_
  intro place
  rw [layout, layout, node?_mapFiles, node?_mapFiles]
  exact same place

@[simp]
theorem layout_mapFiles : (tree.mapFiles change).layout = tree.layout := by
  refine layout_eq_of_node? rfl ?_
  intro place
  rw [node?_mapFiles, Option.map_map]
  congr 1
  funext node
  cases node <;> rfl

/-! ### Writing a file -/

/-- A place with a node below the top lies in a directory. -/
theorem hasDirectory_of_node?_concat {parent : Place} {name : Name}
    {node : Node} (found : tree.node? (parent ++ [name]) = some node) :
    tree.hasDirectory parent = true := by
  cases closed : tree.hasDirectory parent with
  | true => rfl
  | false =>
      rw [node?_append_of_not_directory closed (by simp)] at found
      cases found

theorem place_eq_concat_of_file {place : Place} {file : File}
    (found : tree.node? place = some (.file file)) :
    ∃ parent name, place = parent ++ [name] := by
  rcases List.eq_nil_or_concat place with atTop | ⟨parent, name, isPlace⟩
  · rw [atTop, node?_nil] at found
    cases found
  · exact ⟨parent, name, by rw [isPlace, List.concat_eq_append]⟩

/-- A file put in place of another leaves all other places alone. -/
theorem node?_replace_file {place : Place} {file written : File}
    (found : tree.node? place = some (.file file)) (other : Place) :
    (tree.replace place (.file written)).node? other =
      if other = place then some (.file written) else tree.node? other := by
  obtain ⟨parent, name, isPlace⟩ := place_eq_concat_of_file found
  subst isPlace
  rw [node?_replace (hasDirectory_of_node?_concat found)]
  by_cases same : other = parent ++ [name]
  · rw [if_pos same, if_pos same]
  · rw [if_neg same, if_neg same]
    split
    · rename_i below
      obtain ⟨rest, isOther⟩ := below
      subst isOther
      have closed : tree.hasDirectory (parent ++ [name]) = false := by
        rw [hasDirectory, found]
        rfl
      rw [node?_append_of_not_directory closed]
      intro empty
      rw [empty, List.append_nil] at same
      exact same rfl
    · rfl

theorem origin_replace (place : Place) (node : Node) :
    (tree.replace place node).origin = tree.origin := by
  rw [replace]
  split <;> rfl

theorem layout_replace_file {place : Place} {file written : File}
    (found : tree.node? place = some (.file file)) :
    (tree.replace place (.file written)).layout = tree.layout := by
  apply layout_eq_of_node? (origin_replace _ _)
  intro other
  rw [node?_replace_file found]
  split
  · rename_i same
    rw [same, found]
    rfl
  · rfl

theorem layout_changeFile {place : Place} {file : File}
    (found : tree.node? place = some (.file file)) :
    (tree.changeFile place file change).layout = tree.layout := by
  rw [changeFile]
  split
  · exact layout_replace_file found
  · exact layout_mapFiles

/-- Writing a file keeps the layout. -/
theorem layout_writeAt {place : Place} {file : File}
    (found : tree.node? place = some (.file file)) (contents : List UInt8)
    (strategy : WriteStrategy) :
    (tree.writeAt place file contents strategy).layout = tree.layout := by
  cases strategy with
  | atomic => exact layout_replace_file found
  | inPlace => exact layout_changeFile found

theorem node?_of_fileAt {path : Path} {place : Place} {file : File}
    (found : tree.fileAt path = .ok (place, file)) :
    tree.resolve path = .ok place ∧ tree.node? place = some (.file file) := by
  rw [fileAt] at found
  cases isPlace : tree.resolve path with
  | error fault =>
      rw [isPlace] at found
      cases found
  | ok reached =>
      rw [isPlace] at found
      simp only [bind, Except.bind] at found
      split at found
      · rename_i isFile
        cases found
        exact ⟨rfl, isFile⟩
      · cases found
      · cases found
      · cases found

end Tree

end PackageRename
