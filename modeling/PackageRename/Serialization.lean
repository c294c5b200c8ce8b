import PackageRename.Identifier
import PackageRename.Json.Fields
import PackageRename.Json.Reader
import PackageRename.Options
import PackageRename.Report

/-!
# Serialized values

The JSON form of the values a rename takes and reports.  A path is written as
text, so a value with a path that is not text has no JSON form.
-/

namespace PackageRename

/-- Why a value has no JSON form. -/
def unserializable : String := "path contains invalid UTF-8 characters"

namespace Path

def toJson? (path : Path) : Option Json :=
  path.text?.map Json.string

def ofJson? (json : Json) : Option Path :=
  json.text?.map ofString

end Path

namespace Identifier

def toJson (identifier : Identifier) : Json :=
  .string identifier.name

def ofJson? (json : Json) : Option Identifier :=
  json.text?.map mk

end Identifier

namespace Stage

def name : Stage → String
  | resources => "Resources"
  | manifest => "Manifest"
  | bytecode => "Bytecode"
  | directoryStructure => "DirectoryStructure"

def toJson (stage : Stage) : Json :=
  .string stage.name

def ofName? : String → Option Stage
  | "Resources" => some resources
  | "Manifest" => some manifest
  | "Bytecode" => some bytecode
  | "DirectoryStructure" => some directoryStructure
  | _ => none

def ofJson? (json : Json) : Option Stage := do
  let (name, content) ← json.variant?
  guard (Json.isBare content)
  ofName? name

end Stage

namespace ProgressEvent

def toJson? (event : ProgressEvent) : Option Json := do
  let path ← event.path.toJson?
  return .record [("stage", event.stage.toJson),
    ("description", .string event.description), ("path", path)]

def ofJson? (json : Json) : Option ProgressEvent := do
  match ← json.fields? ["stage", "description", "path"] .complete with
  | [some stage, some description, some path] =>
      return ⟨← Stage.ofJson? stage, ← description.text?, ← Path.ofJson? path⟩
  | _ => none

end ProgressEvent

namespace Outcome

def toJson : Outcome → Json
  | changed replacements =>
      .record [("Changed", .record [("replacements", .natural replacements)])]
  | unchanged => .string "Unchanged"

def ofJson? (json : Json) : Option Outcome := do
  match ← json.variant? with
  | ("Changed", some content) =>
      match ← content.fields? ["replacements"] .complete with
      | [some replacements] => return changed (← replacements.counter?)
      | _ => none
  | ("Unchanged", content) =>
      guard (Json.isBare content)
      return unchanged
  | _ => none

end Outcome

namespace Warning

def toJson? (warning : Warning) : Option Json := do
  let path ← warning.path.toJson?
  return .record [("path", path), ("message", .string warning.message)]

def ofJson? (json : Json) : Option Warning := do
  match ← json.fields? ["path", "message"] .complete with
  | [some path, some message] =>
      return ⟨← Path.ofJson? path, ← message.text?⟩
  | _ => none

end Warning

namespace Stats

def toJson (stats : Stats) : Json :=
  .record [("files_visited", .natural stats.filesVisited),
    ("files_changed", .natural stats.filesChanged),
    ("replacements", .natural stats.replacements),
    ("directories_moved", .natural stats.directoriesMoved)]

def ofJson? (json : Json) : Option Stats := do
  let names :=
    ["files_visited", "files_changed", "replacements", "directories_moved"]
  match ← json.fields? names .complete with
  | [some visited, some changed, some replacements, some moved] =>
      return ⟨← visited.counter?, ← changed.counter?,
        ← replacements.counter?, ← moved.counter?⟩
  | _ => none

end Stats

namespace FailureReason

/-- A failure that reports one path. -/
def located? (variant : String) (path : Path) (message : String) :
    Option Json := do
  let path ← path.toJson?
  return .record [(variant,
    .record [("path", path), ("message", .string message)])]

def toJson? : FailureReason → Option Json
  | invalidJob message => some (.record [("InvalidJob", .string message)])
  | busy path => path.toJson?.map fun path => .record [("Busy", path)]
  | packageRoot path message => located? "PackageRoot" path message
  | manifest path message => located? "Manifest" path message
  | bytecodeFile path message => located? "BytecodeFile" path message
  | directoryMove source target message => do
      let source ← source.toJson?
      let target ← target.toJson?
      return .record [("DirectoryMove", .record [("from", source),
        ("to", target), ("message", .string message)])]
  | worker message => some (.record [("Worker", .string message)])
  | cancelled => some (.string "Cancelled")

/-- The path and message of a failure that reports one path. -/
def location? (content : Json) : Option (Path × String) := do
  match ← content.fields? ["path", "message"] .complete with
  | [some path, some message] =>
      return (← Path.ofJson? path, ← message.text?)
  | _ => none

def move? (content : Json) : Option FailureReason := do
  match ← content.fields? ["from", "to", "message"] .complete with
  | [some source, some target, some message] =>
      return directoryMove (← Path.ofJson? source) (← Path.ofJson? target)
        (← message.text?)
  | _ => none

def ofVariant? : String → Option Json → Option FailureReason
  | "InvalidJob", some content => content.text?.map invalidJob
  | "Busy", some content => (Path.ofJson? content).map busy
  | "PackageRoot", some content =>
      (location? content).map fun (path, message) => packageRoot path message
  | "Manifest", some content =>
      (location? content).map fun (path, message) => manifest path message
  | "BytecodeFile", some content =>
      (location? content).map fun (path, message) => bytecodeFile path message
  | "DirectoryMove", some content => move? content
  | "Worker", some content => content.text?.map worker
  | "Cancelled", content => if Json.isBare content then some cancelled else none
  | _, _ => none

def ofJson? (json : Json) : Option FailureReason := do
  let (name, content) ← json.variant?
  ofVariant? name content

end FailureReason

namespace JobResult

def failureToJson? : Option FailureReason → Option Json
  | none => some .null
  | some reason => reason.toJson?

def toJson? (result : JobResult) : Option Json := do
  let failure ← failureToJson? result.failure
  let warnings ← result.warnings.mapM Warning.toJson?
  return .record [("success", .bool result.success), ("failure", failure),
    ("warnings", .array warnings), ("stats", result.stats.toJson)]

/-- A missing failure and a null are the same. -/
def failureOfJson? : Option Json → Option (Option FailureReason)
  | none => some none
  | some (.scalar .null) => some none
  | some json => (FailureReason.ofJson? json).map some

def ofJson? (json : Json) : Option JobResult := do
  let names := ["success", "failure", "warnings", "stats"]
  match ← json.fields? names .complete with
  | [some success, failure, some warnings, some stats] =>
      return ⟨← success.bool?, ← failureOfJson? failure,
        ← (← warnings.items?).mapM Warning.ofJson?, ← Stats.ofJson? stats⟩
  | _ => none

end JobResult

namespace WriteStrategy

def toJson : WriteStrategy → Json
  | atomic => .string "Atomic"
  | inPlace => .string "InPlace"

def ofName? : String → Option WriteStrategy
  | "Atomic" => some atomic
  | "InPlace" => some inPlace
  | _ => none

def ofJson? (json : Json) : Option WriteStrategy := do
  let (name, content) ← json.variant?
  guard (Json.isBare content)
  ofName? name

end WriteStrategy

namespace Options

def toJson (options : Options) : Json :=
  .record [("resource_dir", .string options.resourceDirectory),
    ("manifest_file", .string options.manifestFile),
    ("bytecode_prefix", .string options.bytecodePrefix),
    ("write_strategy", options.writeStrategy.toJson)]

/-- A field that may be left out. -/
def fieldOr? {α : Type} (standard : α) (read? : Json → Option α) :
    Option Json → Option α
  | none => some standard
  | some json => read? json

/-- Every field that is not given has its standard value. -/
def ofJson? (json : Json) : Option Options := do
  let names :=
    ["resource_dir", "manifest_file", "bytecode_prefix", "write_strategy"]
  match ← json.fields? names .partly with
  | [resources, manifest, bytecode, strategy] =>
      return {
        resourceDirectory :=
          ← fieldOr? standard.resourceDirectory Json.text? resources
        manifestFile := ← fieldOr? standard.manifestFile Json.text? manifest
        bytecodePrefix :=
          ← fieldOr? standard.bytecodePrefix Json.text? bytecode
        writeStrategy :=
          ← fieldOr? standard.writeStrategy WriteStrategy.ofJson? strategy }
  | _ => none

end Options

end PackageRename
