import PackageRename.Proofs.Tree.Visits

/-!
# Walks as a relation

A walk goes into each directory that can be listed, and what it comes upon there
it goes into in turn.  No measure is part of this description: a link back to a
directory being walked is a failure, and whatever else a walk may go round in,
its paths become longer until they cannot be listed.  The visits that are read
off a tree are the only ones that fit the description.
-/

namespace PackageRename

namespace Tree

mutual

/-- The visits to something that a walk has come upon inside the directories
`above`, and to what lies in it. -/
inductive Walks (tree : Tree) : List Path → Visited → List Visited → Prop
  | file (above : List Path) (path : Path) :
      Walks tree above (.file path) [.file path]
  | failure (above : List Path) (path : Path) (fault : Fault) :
      Walks tree above (.failure path fault) [.failure path fault]
  | unlisted {above : List Path} {path : Path} {fault : Fault}
      (misses : tree.list path = .error fault) :
      Walks tree above (.directory path) [.directory path, .failure path fault]
  | listed {above : List Path} {path : Path} {children : List (Name × Kind)}
      {inside : List Visited} (lists : tree.list path = .ok children)
      (inner : WalksIn tree (path :: above) path children inside) :
      Walks tree above (.directory path) (.directory path :: inside)

/-- The visits to the entries of a directory. -/
inductive WalksIn (tree : Tree) :
    List Path → Path → List (Name × Kind) → List Visited → Prop
  | nil (above : List Path) (path : Path) : WalksIn tree above path [] []
  | cons {above : List Path} {path : Path} {name : Name} {kind : Kind}
      {rest : List (Name × Kind)} {front back : List Visited}
      (first : Walks tree above
        (tree.classify above (path.join ⟨name⟩) kind) front)
      (later : WalksIn tree above path rest back) :
      WalksIn tree above path ((name, kind) :: rest) (front ++ back)

end

/-- The visits of a walk at and below a path. -/
inductive IsWalk (tree : Tree) (root : Path) : List Visited → Prop
  | missing {fault : Fault} (misses : tree.kindOf root = .error fault) :
      IsWalk tree root [.failure root fault]
  | found {kind : Kind} {visits : List Visited}
      (isKind : tree.kindOf root = .ok kind)
      (walks : Walks tree [] (tree.classify [] root kind) visits) :
      IsWalk tree root visits

/-! ### The visits that are read off a tree -/

variable {tree : Tree} {depth : Nat} {above : List Path} {path : Path}
variable {visited : Visited} {visits : List Visited}

theorem checkWritten_of_list {children : List (Name × Kind)}
    (listed : tree.list path = .ok children) : checkWritten path = .ok () := by
  rw [Tree.list, resolve, checkPath] at listed
  cases written : checkWritten path with
  | error fault =>
      rw [written] at listed
      cases listed
  | ok done => rfl

theorem list_of_long (written : checkWritten path = .ok ())
    (long : pathLimit < path.bytes.length) :
    tree.list path = .error .nameTooLong := by
  rw [Tree.list, resolve, checkPath, written]
  simp [bind, Except.bind, throw, throwThe, MonadExceptOf.throw, if_pos long]

theorem exists_of_list {children : List (Name × Kind)}
    (listed : tree.list path = .ok children) :
    ∃ place, children =
      (tree.childrenOf place).map fun child => (child.1, child.2.kind) := by
  rw [Tree.list] at listed
  cases resolved : tree.resolve path with
  | error fault =>
      rw [resolved] at listed
      cases listed
  | ok place =>
      rw [resolved] at listed
      change ite (tree.hasDirectory place = true) _ _ = _ at listed
      split at listed
      · exact ⟨place, (Except.ok.inj listed).symm⟩
      · cases listed

/-- What a directory lists has a legal name. -/
theorem HasLegalNames.of_list (legal : tree.HasLegalNames)
    {children : List (Name × Kind)} (listed : tree.list path = .ok children)
    {entry : Name × Kind} (member : entry ∈ children) : entry.1.IsLegal := by
  obtain ⟨place, rfl⟩ := exists_of_list listed
  obtain ⟨child, isChild, rfl⟩ := List.mem_map.mp member
  have present := mem_childrenOf.mp isChild
  exact legal _ (by rw [present]; rfl) _
    (List.mem_append_right _ List.mem_cons_self)

theorem checkWritten_eq_ok :
    checkWritten path = .ok () ↔ (0 : UInt8) ∉ path.bytes ∧ path.bytes ≠ [] := by
  rw [checkWritten]
  split
  · rename_i nul
    refine iff_of_false (by simp only [reduceCtorEq, not_false_eq_true]) ?_
    rintro ⟨nulless, -⟩
    exact nulless (List.contains_iff_mem.mp nul)
  · rename_i nulless
    rw [List.contains_iff_mem] at nulless
    split
    · rename_i empty
      refine iff_of_false (by simp only [reduceCtorEq, not_false_eq_true]) ?_
      rintro ⟨-, written⟩
      exact written empty
    · rename_i written
      exact iff_of_true rfl ⟨nulless, written⟩

/-- With so many levels left a walk does not come to its last but where a path
is too long to be listed. -/
def IsDeep (depth : Nat) (path : Path) : Prop :=
  pathLimit < path.bytes.length + depth ∧
    (depth = 0 → checkWritten path = .ok ())

theorem IsDeep.join {name : Name} (deep : IsDeep (depth + 1) path)
    (written : checkWritten path = .ok ()) (legal : name.IsLegal) :
    IsDeep depth (path.join ⟨name⟩) := by
  have longer := Path.length_below path (Path.arePlain_singleton legal.plain)
  rw [Path.below_cons, Path.below_nil, List.length_singleton] at longer
  have long := deep.1
  refine ⟨by omega, fun _ => checkWritten_eq_ok.mpr ⟨?_, ?_⟩⟩
  · obtain ⟨nulless, -⟩ := checkWritten_eq_ok.mp written
    rw [Path.bytes_join_name legal.plain]
    split <;> simp [nulless, legal.plain.nulless, slash]
  · intro empty
    rw [empty, List.length_nil] at longer
    omega

theorem walksIn_iff {children : List (Name × Kind)}
    (each : ∀ name kind, (name, kind) ∈ children → ∀ visits,
      tree.Walks above (tree.classify above (path.join ⟨name⟩) kind) visits ↔
        visits = tree.visitsFrom depth above
          (tree.classify above (path.join ⟨name⟩) kind)) :
    tree.WalksIn above path children visits ↔
      visits = children.flatMap fun (name, kind) =>
        tree.visitsFrom depth above
          (tree.classify above (path.join ⟨name⟩) kind) := by
  induction children generalizing visits with
  | nil =>
      refine ⟨fun walks => by cases walks; rfl, ?_⟩
      rintro rfl
      exact .nil _ _
  | cons child rest induction =>
      obtain ⟨name, kind⟩ := child
      have first := each name kind List.mem_cons_self
      have later : ∀ back, tree.WalksIn above path rest back ↔ _ :=
        fun back => induction fun name kind member =>
          each name kind (List.mem_cons_of_mem _ member)
      constructor
      · intro walks
        cases walks with
        | cons front back =>
            rw [List.flatMap_cons, (first _).mp front, (later _).mp back]
      · rintro rfl
        rw [List.flatMap_cons]
        exact .cons ((first _).mpr rfl) ((later _).mpr rfl)

theorem walks_leaf_iff (leaf : ∀ path, visited ≠ .directory path) :
    tree.Walks above visited visits ↔ visits = [visited] := by
  cases visited with
  | directory path => exact absurd rfl (leaf path)
  | file path =>
      refine ⟨fun walks => by cases walks; rfl, ?_⟩
      rintro rfl
      exact .file _ _
  | failure path fault =>
      refine ⟨fun walks => by cases walks; rfl, ?_⟩
      rintro rfl
      exact .failure _ _ _

theorem walks_unlisted_iff {fault : Fault}
    (misses : tree.list path = .error fault) :
    tree.Walks above (.directory path) visits ↔
      visits = [.directory path, .failure path fault] := by
  constructor
  · intro walks
    cases walks with
    | unlisted missesToo =>
        cases misses.symm.trans missesToo
        rfl
    | listed lists => cases misses.symm.trans lists
  · rintro rfl
    exact .unlisted misses

theorem walks_listed_iff {children : List (Name × Kind)}
    (lists : tree.list path = .ok children) :
    tree.Walks above (.directory path) visits ↔
      ∃ inside, tree.WalksIn (path :: above) path children inside ∧
        visits = .directory path :: inside := by
  constructor
  · intro walks
    cases walks with
    | unlisted misses => cases misses.symm.trans lists
    | listed listsToo inner =>
        cases lists.symm.trans listsToo
        exact ⟨_, inner, rfl⟩
  · rintro ⟨inside, inner, rfl⟩
    exact .listed lists inner

theorem path_classify (tree : Tree) (above : List Path) (path : Path)
    (kind : Kind) : (tree.classify above path kind).path = path := by
  cases kind with
  | file => rfl
  | directory => rfl
  | link =>
      rw [classify]
      split
      · rfl
      split
      · split <;> rfl
      · rfl

/-- From far enough up, the visits that are read off a tree are those of a
walk, and no others are. -/
theorem walks_iff (legal : tree.HasLegalNames)
    (deep : IsDeep depth visited.path) :
    tree.Walks above visited visits ↔
      visits = tree.visitsFrom depth above visited := by
  induction depth generalizing above visited visits with
  | zero =>
      cases visited with
      | file path => exact walks_leaf_iff nofun
      | failure path fault => exact walks_leaf_iff nofun
      | directory path =>
          obtain ⟨long, written⟩ := deep
          exact walks_unlisted_iff (list_of_long (written rfl) long)
  | succ depth induction =>
      cases visited with
      | file path => exact walks_leaf_iff nofun
      | failure path fault => exact walks_leaf_iff nofun
      | directory path =>
          rw [visitsFrom]
          cases lists : tree.list path with
          | error fault => exact walks_unlisted_iff lists
          | ok children =>
              have each : ∀ name kind, (name, kind) ∈ children → ∀ visits,
                  tree.Walks (path :: above) (tree.classify (path :: above)
                      (path.join ⟨name⟩) kind) visits ↔
                    visits = tree.visitsFrom depth (path :: above)
                      (tree.classify (path :: above) (path.join ⟨name⟩)
                        kind) := by
                intro name kind member visits
                refine induction ?_
                rw [path_classify]
                exact deep.join (checkWritten_of_list lists)
                  (legal.of_list lists member)
              rw [walks_listed_iff lists]
              simp only [walksIn_iff each, exists_eq_left]

theorem checkWritten_of_kindOf {root : Path} {kind : Kind}
    (isKind : tree.kindOf root = .ok kind) : checkWritten root = .ok () := by
  rw [kindOf, slot, checkPath] at isKind
  cases written : checkWritten root with
  | error fault =>
      rw [written] at isKind
      cases isKind
  | ok done => rfl

/-- Every path has one walk: the visits that are read off the tree. -/
theorem isWalk_iff (legal : tree.HasLegalNames) (root : Path) :
    tree.IsWalk root visits ↔ visits = tree.visits root := by
  rw [Tree.visits]
  cases isKind : tree.kindOf root with
  | error fault =>
      constructor
      · intro walk
        cases walk with
        | missing misses =>
            cases misses.symm.trans isKind
            rfl
        | found isKindToo _ => cases isKindToo.symm.trans isKind
      · rintro rfl
        exact .missing isKind
  | ok kind =>
      have deep : IsDeep pathLimit (tree.classify [] root kind).path := by
        rw [path_classify]
        have written := (checkWritten_eq_ok.mp (checkWritten_of_kindOf isKind)).2
        have nonempty := List.length_pos_iff.mpr written
        exact ⟨by omega, fun isLast => by cases isLast⟩
      have walks := @walks_iff tree pathLimit [] (tree.classify [] root kind)
        visits legal deep
      rw [← walks]
      constructor
      · intro walk
        cases walk with
        | missing misses => cases misses.symm.trans isKind
        | found isKindToo walks =>
            cases isKindToo.symm.trans isKind
            exact walks
      · exact .found isKind

/-! ### No file is come upon twice -/

def Visited.file? : Visited → Option Path
  | .file path => some path
  | .directory _ => none
  | .failure _ _ => none

/-- The files among visits. -/
def files (visits : List Visited) : List Path :=
  visits.filterMap Visited.file?

/-- The files that are come upon in a directory are those that are come upon in
its entries. -/
theorem files_visitsFrom_directory (tree : Tree) (depth : Nat)
    (above : List Path) (path : Path) :
    files (tree.visitsFrom depth above (.directory path)) = [] ∨
      ∃ further children, depth = further + 1 ∧ tree.list path = .ok children ∧
        files (tree.visitsFrom depth above (.directory path)) =
          children.flatMap fun (name, kind) =>
            files (tree.visitsFrom further (path :: above)
              (tree.classify (path :: above) (path.join ⟨name⟩) kind)) := by
  cases depth with
  | zero => exact .inl rfl
  | succ depth =>
      rw [visitsFrom]
      cases lists : tree.list path with
      | error fault => exact .inl rfl
      | ok children =>
          exact .inr ⟨depth, children, rfl, rfl, List.filterMap_flatMap⟩

/-- Each file that is come upon lies at or below what the walk starts from. -/
theorem exists_below_of_mem_files (legal : tree.HasLegalNames) {file : Path}
    (member : file ∈ files (tree.visitsFrom depth above visited)) :
    ∃ names, Path.ArePlain names ∧ file = visited.path.below names := by
  induction depth generalizing above visited with
  | zero =>
      cases visited with
      | file path => exact ⟨[], nofun, List.mem_singleton.mp member⟩
      | failure path fault => cases member
      | directory path => cases member
  | succ depth induction =>
      cases visited with
      | file path => exact ⟨[], nofun, List.mem_singleton.mp member⟩
      | failure path fault => cases member
      | directory path =>
          rcases tree.files_visitsFrom_directory (depth + 1) above path with
            none | ⟨further, children, same, lists, areFiles⟩
          · rw [none] at member
            cases member
          · cases same
            rw [areFiles] at member
            obtain ⟨⟨name, kind⟩, isChild, inside⟩ := List.mem_flatMap.mp member
            obtain ⟨names, plain, isFile⟩ := induction inside
            rw [path_classify] at isFile
            exact ⟨name :: names, List.forall_mem_cons.mpr
              ⟨(legal.of_list lists isChild).plain, plain⟩, isFile⟩

/-- A walk comes upon a file alone or upon files strictly below where it
begins. -/
theorem files_visits_cases (legal : tree.HasLegalNames) (root : Path) :
    files (tree.visits root) = [root] ∨
      ∀ file ∈ files (tree.visits root),
        ∃ names, names ≠ [] ∧ Path.ArePlain names ∧ file = root.below names := by
  rw [visits]
  cases tree.kindOf root with
  | error fault => exact .inr (List.forall_mem_nil _)
  | ok kind =>
      dsimp only
      have isPath := tree.path_classify [] root kind
      cases isVisited : tree.classify [] root kind with
      | failure path fault => exact .inr (List.forall_mem_nil _)
      | file path =>
          rw [isVisited] at isPath
          exact .inl (congrArg ([·]) isPath)
      | directory path =>
          right
          intro file member
          obtain rfl : path = root := by rw [isVisited] at isPath; exact isPath
          rcases tree.files_visitsFrom_directory pathLimit [] path with
            none | ⟨further, children, -, lists, areFiles⟩
          · rw [none] at member
            cases member
          · rw [areFiles] at member
            obtain ⟨⟨name, kind⟩, isChild, inside⟩ :=
              List.mem_flatMap.mp member
            obtain ⟨names, plain, isFile⟩ :=
              exists_below_of_mem_files legal inside
            rw [path_classify] at isFile
            exact ⟨name :: names, List.cons_ne_nil _ _, List.forall_mem_cons.mpr
              ⟨(legal.of_list lists isChild).plain, plain⟩, isFile⟩

theorem nodup_files_visitsFrom (legal : tree.HasLegalNames) (depth : Nat)
    (above : List Path) (visited : Visited) :
    (files (tree.visitsFrom depth above visited)).Nodup := by
  induction depth generalizing above visited with
  | zero =>
      cases visited with
      | file path => exact List.nodup_singleton path
      | failure path fault => exact List.nodup_nil
      | directory path => exact List.nodup_nil
  | succ depth induction =>
      cases visited with
      | file path => exact List.nodup_singleton path
      | failure path fault => exact List.nodup_nil
      | directory path =>
          rcases tree.files_visitsFrom_directory (depth + 1) above path with
            none | ⟨further, children, same, lists, areFiles⟩
          · rw [none]
            exact List.nodup_nil
          cases same
          rw [areFiles, List.nodup_flatMap]
          refine ⟨fun child _ => induction _ _, ?_⟩
          have namesDiffer : children.Pairwise
              fun first second => first.1 ≠ second.1 := by
            obtain ⟨place, rfl⟩ := exists_of_list lists
            have nodup := nodup_childrenOf tree place
            rw [List.Nodup, List.pairwise_map] at nodup
            rw [List.pairwise_map]
            exact nodup
          refine (List.Pairwise.and_mem.mp namesDiffer).imp ?_
          rintro ⟨name, kind⟩ ⟨other, otherKind⟩ ⟨isChild, isOther, differ⟩
            file member memberToo
          -- Paths that go on with different names stay different.
          obtain ⟨names, plain, isFile⟩ := exists_below_of_mem_files legal member
          obtain ⟨others, othersPlain, isFileToo⟩ :=
            exists_below_of_mem_files legal memberToo
          rw [path_classify] at isFile isFileToo
          have same : path.below (name :: names) =
              path.below (other :: others) := isFile.symm.trans isFileToo
          have namesPlain : Path.ArePlain (name :: names) :=
            List.forall_mem_cons.mpr ⟨(legal.of_list lists isChild).plain, plain⟩
          have allPlain : Path.ArePlain (other :: others) :=
            List.forall_mem_cons.mpr
              ⟨(legal.of_list lists isOther).plain, othersPlain⟩
          exact differ (List.cons.inj
            (Path.below_injective namesPlain allPlain same)).1

/-- No file is visited twice under one path. -/
theorem nodup_files_visits (legal : tree.HasLegalNames) (root : Path) :
    (files (tree.visits root)).Nodup := by
  rw [visits]
  split
  · exact List.nodup_nil
  · exact nodup_files_visitsFrom legal _ _ _

end Tree

end PackageRename
