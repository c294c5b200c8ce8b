import PackageRename.Proofs.Job.Journal

/-!
# Trees that a job meets

A condition on the trees that a plan meets is carried from step to step: what it
is at the start, what is known of each moment, and what it is at the end unless
the plan fails.
-/

namespace PackageRename

namespace Plan

variable {α β : Type} {context : JobContext} {names : Renaming}
variable {before middle after : Tree → Prop} {each : Moment → Prop}

/-- Run from a tree with one property, the plan comes to moments of a kind, and
ends with a tree that has the other property if it does not fail. -/
def Meets (context : JobContext) (names : Renaming) (before : Tree → Prop)
    (each : Moment → Prop) (after : Tree → Prop) (plan : Plan α) : Prop :=
  ∀ state : JobState, before state.world.tree →
    (∀ moment ∈ plan.journal context names state, each moment) ∧
      ∀ value, (plan.run context names state).1 = .ok value →
        after (plan.run context names state).2.world.tree

theorem meets_done {value : α} (goesOn : ∀ tree, before tree → after tree) :
    Meets context names before each after (.done value) :=
  fun _ starts => ⟨List.forall_mem_nil _, fun _ _ => goesOn _ starts⟩

theorem meets_fail {reason : FailureReason} :
    Meets context names before each after (.fail reason : Plan α) :=
  fun _ _ => ⟨List.forall_mem_nil _, fun _ isOk => by cases isOk⟩

theorem Meets.check {next : Plan α}
    (later : Meets context names before each after next) :
    Meets context names before each after (.check next) := by
  intro state starts
  rw [journal, run]
  split
  · exact ⟨List.forall_mem_nil _, fun _ isOk => by cases isOk⟩
  · exact later state starts

theorem Meets.mono {start final : Tree → Prop} {plan : Plan α}
    (meets : Meets context names before each after plan)
    (starts : ∀ tree, start tree → before tree)
    (ends : ∀ tree, after tree → final tree) :
    Meets context names start each final plan := by
  intro state start
  obtain ⟨moments, ending⟩ := meets state (starts _ start)
  exact ⟨moments, fun value isEnd => ends _ (ending value isEnd)⟩

/-- A plan that looks at the tree knows which tree it starts from. -/
theorem Meets.look_at {next : Tree → Plan α}
    (later : ∀ tree, before tree →
      Meets context names (· = tree) each after (next tree)) :
    Meets context names before each after (.look next) :=
  fun state starts => later state.world.tree starts state rfl

theorem Meets.look {next : Tree → Plan α}
    (later : ∀ tree, before tree →
      Meets context names before each after (next tree)) :
    Meets context names before each after (.look next) :=
  fun state starts => later state.world.tree starts state starts

theorem Meets.note {severity : Severity} {message : String} {next : Plan α}
    (later : Meets context names before each after next) :
    Meets context names before each after (.note severity message next) :=
  fun _ starts => later _ starts

theorem Meets.warn {path : Path} {message : String} {next : Plan α}
    (later : Meets context names before each after next) :
    Meets context names before each after (.warn path message next) :=
  fun _ starts => later _ starts

theorem Meets.act {task : Task}
    {next : Except FileError task.stage.Answer → Plan α}
    (now : ∀ state, before state.world.tree → each ⟨state, task⟩)
    (leaves : ∀ state, before state.world.tree →
      middle (task.carriedOut context names state).world.tree)
    (later : ∀ answer, Meets context names middle each after (next answer)) :
    Meets context names before each after (.act task next) := by
  intro state starts
  obtain ⟨moments, ends⟩ := later _ _ (leaves state starts)
  exact ⟨List.forall_mem_cons.mpr ⟨now state starts, moments⟩, ends⟩

theorem Meets.bind {plan : Plan α} {goesOn : α → Plan β}
    (first : Meets context names before each middle plan)
    (later : ∀ value, Meets context names middle each after (goesOn value)) :
    Meets context names before each after (plan >>= goesOn) := by
  intro state starts
  obtain ⟨moments, ends⟩ := first state starts
  rw [journal_bind, run_bind]
  rcases isRun : plan.run context names state with ⟨ending, reached⟩
  rw [isRun] at ends
  cases ending with
  | error reason =>
      rw [List.append_nil]
      exact ⟨moments, fun _ isOk => by cases isOk⟩
  | ok value =>
      obtain ⟨laterMoments, laterEnds⟩ := later value reached (ends value rfl)
      exact ⟨List.forall_mem_append.mpr ⟨moments, laterMoments⟩, laterEnds⟩

theorem Meets.forM {items : List β} {plan : β → Plan Unit}
    (all : ∀ item ∈ items,
      Meets context names before each before (plan item)) :
    Meets context names before each before (items.forM plan) := by
  induction items with
  | nil => exact meets_done fun _ starts => starts
  | cons head rest induction =>
      exact (all head List.mem_cons_self).bind fun _ =>
        induction fun item member => all item (List.mem_cons_of_mem _ member)

/-- A walk meets what its visits meet; `allowed` is what it can come upon. -/
theorem Meets.walk {allowed : Tree.Visited → Prop}
    {visit : Tree.Visited → Plan Unit} {root : Path}
    (all : ∀ visited, allowed visited →
      Meets context names before each before (visit visited))
    (starts : ∀ tree kind, before tree → tree.kindOf root = .ok kind →
      allowed (tree.classify [] root kind))
    (misses : ∀ fault, allowed (.failure root fault))
    (enters : ∀ tree later above path children entry, before tree →
      before later → allowed (.directory path) →
      tree.list path = .ok children → entry ∈ children →
      allowed (later.classify above (path.join ⟨entry.1⟩) entry.2))
    (stops : ∀ path fault, allowed (.directory path) →
      allowed (.failure path fault)) :
    Meets context names before each before (Tree.walk tree visit root) :=
  walk_induction _ (meets_done fun _ starts => starts)
    (fun first next => first.bind fun _ => next) Meets.look all starts
    (fun _ fault _ _ => misses fault) enters stops

end Plan

end PackageRename
