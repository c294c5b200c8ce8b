import PackageRename.Job.Run
import PackageRename.Tree.Edit

/-!
# Scripted observers

A script says what an observer does at which of a job's events, counted from
zero: edit the tree, ask the job to stop, or run another job to its end, which
may have a script of its own.
-/

namespace PackageRename

inductive Script where
  | done
  | edit (index : Nat) (change : Tree.Edit) (rest : Script)
  | cancel (index : Nat) (rest : Script)
  | launch (index : Nat) (job : Job) (cancelled : Bool) (inner : Script)
      (rest : Script)
deriving Inhabited

namespace Script

/-- What the script does at one event, in the order in which it is written. -/
def reply : Script → (index : Nat) → World → Reply
  | done, _, world => .unchanged world
  | edit wanted change rest, index, world =>
      if wanted = index then
        rest.reply index { world with tree := world.tree.edit change }
      else
        rest.reply index world
  | cancel wanted rest, index, world =>
      let later := rest.reply index world
      { later with cancels := wanted = index || later.cancels }
  | launch wanted job cancelled inner rest, index, world =>
      if wanted = index then
        let observer : Observer := fun events world =>
          inner.reply (events.length - 1) world
        let (report, reached) := job.run observer cancelled world
        let later := rest.reply index reached
        { later with nested := report :: later.nested }
      else
        rest.reply index world

def observer (script : Script) : Observer := fun events world =>
  script.reply (events.length - 1) world

end Script

end PackageRename
