import PackageRename.CommandLine
import PackageRename.Disk
import PackageRename.FileUpdate
import PackageRename.Identifier
import PackageRename.Job.Replay
import PackageRename.Job.Run
import PackageRename.Job.Script
import PackageRename.Job.Stages
import PackageRename.Job.State
import PackageRename.Job.World
import PackageRename.Json.Basic
import PackageRename.Json.Fields
import PackageRename.Json.Lexer
import PackageRename.Json.Reader
import PackageRename.Log
import PackageRename.Main
import PackageRename.Manifest
import PackageRename.Options
import PackageRename.Path
import PackageRename.Relocation
import PackageRename.Report
import PackageRename.Serialization
import PackageRename.Substitution
import PackageRename.Text.Alphanumeric
import PackageRename.Text.Replacement
import PackageRename.Text.Utf8
import PackageRename.Tree.Basic
import PackageRename.Tree.Edit
import PackageRename.Tree.Fault
import PackageRename.Tree.Lemmas
import PackageRename.Tree.Lookup
import PackageRename.Tree.Node
import PackageRename.Tree.Operations
import PackageRename.Tree.Subtree
import PackageRename.Tree.Walk
import PackageRename.Worker
import PackageRename.Proofs.Job.Running
import PackageRename.Proofs.Path.Below
import PackageRename.Proofs.Tree.Entering
import PackageRename.Proofs.FileUpdate
import PackageRename.Proofs.Identifier
import PackageRename.Proofs.Job.Bytecode
import PackageRename.Proofs.Job.Package
import PackageRename.Proofs.Declaration
import PackageRename.Proofs.Job.Agreement
import PackageRename.Proofs.Job.Reference
import PackageRename.Proofs.Job.Return
import PackageRename.Proofs.Path.Components
import PackageRename.Proofs.Path.Relative
import PackageRename.Proofs.Tree.Spelling
import PackageRename.Proofs.Job.Cancelling
import PackageRename.Proofs.Job.Endings
import PackageRename.Proofs.Job.Grammar
import PackageRename.Proofs.Job.Meeting
import PackageRename.Proofs.Job.Replaying
import PackageRename.Proofs.Job.Visiting
import PackageRename.Proofs.Clearing
import PackageRename.Proofs.Occurrences
import PackageRename.Proofs.Relocation.Outline
import PackageRename.Proofs.Job.Idling
import PackageRename.Proofs.Job.Opening
import PackageRename.Proofs.Job.Registry
import PackageRename.Proofs.Job.Repeating
import PackageRename.Proofs.Job.Resources
import PackageRename.Proofs.Job.Strategies
import PackageRename.Proofs.Worker
import PackageRename.Proofs.Thread
import PackageRename.Proofs.Json.Reading
import PackageRename.Proofs.Serialization
import PackageRename.Proofs.Path.Parents
import PackageRename.Proofs.Path.Within
import PackageRename.Proofs.Tree.Ground
import PackageRename.Proofs.Tree.Inside
import PackageRename.Proofs.Relocation.Calls
import PackageRename.Proofs.Relocation.Confinement
import PackageRename.Proofs.Relocation.Exactness
import PackageRename.Proofs.Relocation.Restoring
import PackageRename.Proofs.Relocation.Reversal
import PackageRename.Proofs.Descriptors
import PackageRename.Proofs.FileUpdate.Contract
import PackageRename.Proofs.Manifest.Grammar
import PackageRename.Proofs.Manifest.Renaming
import PackageRename.Proofs.Ancestry
import PackageRename.Proofs.Job.Account
