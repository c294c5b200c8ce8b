import PackageRename.Proofs.Json.Fields
import PackageRename.Serialization

/-!
# Reading serialized values back

Every type of serialized values has one format: how a value becomes JSON, how
JSON becomes a value, and which paths and counters stand in a value.  A format
is faithful if it serializes exactly the values whose paths are text, and what
it serializes is written out and read back as the same value.
-/

namespace PackageRename

/-! ### Formats -/

/-- How the values of a type are serialized and read back, and which paths and
counters stand in a value. -/
structure Format (α : Type) where
  toJson? : α → Option Json
  ofJson? : Json → Option α
  paths : α → List Path
  counters : α → List Nat

namespace Format

variable {α : Type} (format : Format α)

/-- The text a value is serialized to. -/
def write? (value : α) : Option String :=
  (format.toJson? value).map Json.render

/-- The value a text is read as. -/
def read? (text : String) : Option α := do
  let json ← Json.read? text
  format.ofJson? json

/-- Every path in the value is text. -/
def IsTextual (value : α) : Prop :=
  ∀ path ∈ format.paths value, path.text?.isSome

/-- No counter in the value is too large to be read. -/
def IsCounted (value : α) : Prop :=
  ∀ counter ∈ format.counters value, counter ≤ Json.counterLimit

/-- Exactly the textual values are serialized, and what is serialized is
restored. -/
structure IsFaithful : Prop where
  serializes : ∀ value,
    (format.toJson? value).isSome ↔ format.IsTextual value
  written : ∀ value json, format.toJson? value = some json → json.IsWritten
  restores : ∀ value json, format.IsCounted value →
    format.toJson? value = some json → format.ofJson? json = some value

variable {format}

theorem IsFaithful.read?_write? {value : α} (faithful : format.IsFaithful)
    (textual : format.IsTextual value) (counted : format.IsCounted value) :
    ∃ text, format.write? value = some text ∧
      format.read? text = some value := by
  obtain ⟨json, serialized⟩ :=
    Option.isSome_iff_exists.mp ((faithful.serializes value).mpr textual)
  refine ⟨json.render, ?_, ?_⟩
  · rw [write?, serialized]
    rfl
  · have isRead := Json.read?_render (faithful.written value json serialized)
    have isRestored := faithful.restores value json counted serialized
    rw [read?, isRead]
    exact isRestored

theorem IsFaithful.write?_eq_none {value : α} (faithful : format.IsFaithful)
    (untextual : ¬ format.IsTextual value) : format.write? value = none := by
  have unserialized : format.toJson? value = none :=
    Option.not_isSome_iff_eq_none.mp fun serialized =>
      untextual ((faithful.serializes value).mp serialized)
  rw [write?, unserialized]
  rfl

/-- Values without paths or counters that always serialize. -/
def plain (toJson : α → Json) (ofJson? : Json → Option α) : Format α where
  toJson? value := some (toJson value)
  ofJson? := ofJson?
  paths _ := []
  counters _ := []

theorem isFaithful_plain {toJson : α → Json} {ofJson? : Json → Option α}
    (written : ∀ value, (toJson value).IsWritten)
    (restores : ∀ value, ofJson? (toJson value) = some value) :
    (plain toJson ofJson?).IsFaithful where
  serializes _ := by simp [plain, IsTextual]
  written := by
    rintro value _ ⟨⟩
    exact written value
  restores := by
    rintro value _ - ⟨⟩
    exact restores value

end Format

/-! ### The serialized types -/

namespace Path

theorem toJson?_eq_some {path : Path} {json : Json} :
    path.toJson? = some json ↔
      ∃ text, path.text? = some text ∧ json = .string text := by
  simp [toJson?, eq_comm]

theorem isWritten_of_toJson? {path : Path} {json : Json}
    (serialized : path.toJson? = some json) : json.IsWritten := by
  obtain ⟨text, -, rfl⟩ := toJson?_eq_some.mp serialized
  exact Json.isWritten_string

theorem ofJson?_of_toJson? {path : Path} {json : Json}
    (serialized : path.toJson? = some json) : ofJson? json = some path := by
  obtain ⟨text, isText, rfl⟩ := toJson?_eq_some.mp serialized
  exact congrArg some (ofString_of_text? isText)

end Path

namespace Identifier

def format : Format Identifier :=
  .plain toJson ofJson?

theorem isFaithful : format.IsFaithful :=
  Format.isFaithful_plain (fun _ => Json.isWritten_string) fun _ => rfl

end Identifier

namespace Stage

def format : Format Stage :=
  .plain toJson ofJson?

theorem ofJson?_toJson (stage : Stage) :
    ofJson? stage.toJson = some stage := by
  cases stage <;> rfl

theorem isFaithful : format.IsFaithful :=
  Format.isFaithful_plain (fun _ => Json.isWritten_string) ofJson?_toJson

end Stage

namespace WriteStrategy

def format : Format WriteStrategy :=
  .plain toJson ofJson?

theorem ofJson?_toJson (strategy : WriteStrategy) :
    ofJson? strategy.toJson = some strategy := by
  cases strategy <;> rfl

theorem isWritten_toJson (strategy : WriteStrategy) :
    strategy.toJson.IsWritten := by
  cases strategy <;> exact Json.isWritten_string

theorem isFaithful : format.IsFaithful :=
  Format.isFaithful_plain isWritten_toJson ofJson?_toJson

end WriteStrategy

namespace Options

def format : Format Options :=
  .plain toJson ofJson?

theorem ofJson?_toJson (options : Options) :
    ofJson? options.toJson = some options := by
  have fields : options.toJson.fields?
      ["resource_dir", "manifest_file", "bytecode_prefix", "write_strategy"]
      .partly = some [some (.string options.resourceDirectory),
        some (.string options.manifestFile),
        some (.string options.bytecodePrefix),
        some options.writeStrategy.toJson] :=
    Json.fields?_record (by simp)
  have strategy := WriteStrategy.ofJson?_toJson options.writeStrategy
  simp [ofJson?, fields, fieldOr?, strategy]

theorem isFaithful : format.IsFaithful :=
  Format.isFaithful_plain (fun options => Json.isWritten_record (by
    simp [WriteStrategy.isWritten_toJson])) ofJson?_toJson

end Options

namespace Stats

def format : Format Stats where
  toJson? stats := some stats.toJson
  ofJson? := ofJson?
  paths _ := []
  counters stats := [stats.filesVisited, stats.filesChanged,
    stats.replacements, stats.directoriesMoved]

theorem isWritten_toJson (stats : Stats) : stats.toJson.IsWritten :=
  Json.isWritten_record (by simp)

theorem ofJson?_toJson {stats : Stats} (counted : format.IsCounted stats) :
    ofJson? stats.toJson = some stats := by
  have fields : stats.toJson.fields?
      ["files_visited", "files_changed", "replacements", "directories_moved"]
      .complete = some [some (.natural stats.filesVisited),
        some (.natural stats.filesChanged),
        some (.natural stats.replacements),
        some (.natural stats.directoriesMoved)] :=
    Json.fields?_record (by simp)
  simp only [Format.IsCounted, format, List.forall_mem_cons,
    List.not_mem_nil, false_implies, implies_true, and_true] at counted
  obtain ⟨visited, changed, replacements, moved⟩ := counted
  simp [ofJson?, fields, Json.counter?_natural visited,
    Json.counter?_natural changed, Json.counter?_natural replacements,
    Json.counter?_natural moved]

theorem isFaithful : format.IsFaithful where
  serializes _ := by simp [format, Format.IsTextual]
  written := by
    rintro stats _ ⟨⟩
    exact isWritten_toJson stats
  restores := by
    rintro stats _ counted ⟨⟩
    exact ofJson?_toJson counted

end Stats

namespace Outcome

def format : Format Outcome where
  toJson? outcome := some outcome.toJson
  ofJson? := ofJson?
  paths _ := []
  counters
    | changed replacements => [replacements]
    | unchanged => []

theorem isWritten_toJson (outcome : Outcome) : outcome.toJson.IsWritten := by
  cases outcome with
  | changed replacements =>
      refine Json.isWritten_record ?_
      simp [Json.isWritten_record]
  | unchanged => exact Json.isWritten_string

theorem ofJson?_toJson {outcome : Outcome}
    (counted : format.IsCounted outcome) :
    ofJson? outcome.toJson = some outcome := by
  cases outcome with
  | changed replacements =>
      have small : replacements ≤ Json.counterLimit :=
        counted replacements List.mem_cons_self
      have isVariant : (changed replacements).toJson.variant? =
          some ("Changed",
            some (.record [("replacements", .natural replacements)])) := rfl
      have fields : (Json.record
          [("replacements", .natural replacements)]).fields?
          ["replacements"] .complete = some [some (.natural replacements)] :=
        Json.fields?_record (by simp)
      simp [ofJson?, isVariant, fields, Json.counter?_natural small]
  | unchanged => rfl

theorem isFaithful : format.IsFaithful where
  serializes _ := by simp [format, Format.IsTextual]
  written := by
    rintro outcome _ ⟨⟩
    exact isWritten_toJson outcome
  restores := by
    rintro outcome _ counted ⟨⟩
    exact ofJson?_toJson counted

end Outcome

namespace Warning

def format : Format Warning where
  toJson? := toJson?
  ofJson? := ofJson?
  paths warning := [warning.path]
  counters _ := []

theorem toJson?_eq_some {warning : Warning} {json : Json} :
    warning.toJson? = some json ↔ ∃ path, warning.path.toJson? = some path ∧
      json = .record [("path", path), ("message", .string warning.message)] := by
  simp [toJson?, Option.bind_eq_some_iff, @eq_comm _ json]

theorem isFaithful : format.IsFaithful where
  serializes warning := by
    cases isText : warning.path.text? <;>
      simp [format, Format.IsTextual, toJson?, Path.toJson?, isText]
  written := by
    intro warning json serialized
    obtain ⟨path, isPath, rfl⟩ := toJson?_eq_some.mp serialized
    refine Json.isWritten_record ?_
    simp [Path.isWritten_of_toJson? isPath]
  restores := by
    intro warning json _ serialized
    obtain ⟨path, isPath, rfl⟩ := toJson?_eq_some.mp serialized
    have fields : (Json.record [("path", path),
        ("message", .string warning.message)]).fields?
        ["path", "message"] .complete =
          some [some path, some (.string warning.message)] :=
      Json.fields?_record (by simp)
    simp [format, ofJson?, fields, Path.ofJson?_of_toJson? isPath]

end Warning

namespace ProgressEvent

def format : Format ProgressEvent where
  toJson? := toJson?
  ofJson? := ofJson?
  paths event := [event.path]
  counters _ := []

theorem toJson?_eq_some {event : ProgressEvent} {json : Json} :
    event.toJson? = some json ↔ ∃ path, event.path.toJson? = some path ∧
      json = .record [("stage", event.stage.toJson),
        ("description", .string event.description), ("path", path)] := by
  simp [toJson?, Option.bind_eq_some_iff, @eq_comm _ json]

theorem isFaithful : format.IsFaithful where
  serializes event := by
    cases isText : event.path.text? <;>
      simp [format, Format.IsTextual, toJson?, Path.toJson?, isText]
  written := by
    intro event json serialized
    obtain ⟨path, isPath, rfl⟩ := toJson?_eq_some.mp serialized
    refine Json.isWritten_record ?_
    simp [Path.isWritten_of_toJson? isPath, Stage.toJson]
  restores := by
    intro event json _ serialized
    obtain ⟨path, isPath, rfl⟩ := toJson?_eq_some.mp serialized
    have fields : (Json.record [("stage", event.stage.toJson),
        ("description", .string event.description), ("path", path)]).fields?
        ["stage", "description", "path"] .complete =
          some [some event.stage.toJson, some (.string event.description),
            some path] :=
      Json.fields?_record (by simp)
    simp [format, ofJson?, fields, Path.ofJson?_of_toJson? isPath,
      Stage.ofJson?_toJson]

end ProgressEvent

namespace FailureReason

/-- The paths a failure reports. -/
def paths : FailureReason → List Path
  | invalidJob _ => []
  | busy path => [path]
  | packageRoot path _ => [path]
  | manifest path _ => [path]
  | bytecodeFile path _ => [path]
  | directoryMove source target _ => [source, target]
  | worker _ => []
  | cancelled => []

def format : Format FailureReason where
  toJson? := toJson?
  ofJson? := ofJson?
  paths := paths
  counters _ := []

theorem variant?_record {name : String} {content : Json} :
    (Json.record [(name, content)]).variant? = some (name, some content) :=
  rfl

theorem located?_eq_some {variant : String} {path : Path} {message : String}
    {json : Json} :
    located? variant path message = some json ↔
      ∃ isAt, path.toJson? = some isAt ∧ json = .record [(variant,
        .record [("path", isAt), ("message", .string message)])] := by
  simp [located?, Option.bind_eq_some_iff, @eq_comm _ json]

theorem isSome_located? {variant : String} {path : Path} {message : String} :
    (located? variant path message).isSome = path.text?.isSome := by
  cases isText : path.text? <;> simp [located?, Path.toJson?, isText]

theorem isWritten_located? {variant : String} {path : Path} {message : String}
    {json : Json} (serialized : located? variant path message = some json) :
    json.IsWritten := by
  obtain ⟨isAt, isPath, rfl⟩ := located?_eq_some.mp serialized
  refine Json.isWritten_record ?_
  simp [Json.isWritten_record, Path.isWritten_of_toJson? isPath]

theorem location?_record {path : Path} {isAt : Json} {message : String}
    (isPath : path.toJson? = some isAt) :
    location? (.record [("path", isAt), ("message", .string message)]) =
      some (path, message) := by
  have fields : (Json.record [("path", isAt),
      ("message", .string message)]).fields? ["path", "message"] .complete =
        some [some isAt, some (.string message)] :=
    Json.fields?_record (by simp)
  simp [location?, fields, Path.ofJson?_of_toJson? isPath]

theorem move?_record {source target : Path} {isFrom isTo : Json}
    {message : String} (isSource : source.toJson? = some isFrom)
    (isTarget : target.toJson? = some isTo) :
    move? (.record [("from", isFrom), ("to", isTo),
      ("message", .string message)]) =
        some (directoryMove source target message) := by
  have fields : (Json.record [("from", isFrom), ("to", isTo),
      ("message", .string message)]).fields? ["from", "to", "message"]
      .complete =
        some [some isFrom, some isTo, some (.string message)] :=
    Json.fields?_record (by simp)
  simp [move?, fields, Path.ofJson?_of_toJson? isSource,
    Path.ofJson?_of_toJson? isTarget]

theorem ofVariant?_of_located? {variant : String} {path : Path}
    {message : String} {json : Json} {make : Path → String → FailureReason}
    (reads : ∀ content, ofVariant? variant (some content) =
      (location? content).map fun (path, message) => make path message)
    (serialized : located? variant path message = some json) :
    ofJson? json = some (make path message) := by
  obtain ⟨isAt, isPath, rfl⟩ := located?_eq_some.mp serialized
  simp [ofJson?, variant?_record, reads, location?_record isPath]

theorem directoryMove_eq_some {source target : Path} {message : String}
    {json : Json} :
    (directoryMove source target message).toJson? = some json ↔
      ∃ isFrom, source.toJson? = some isFrom ∧
        ∃ isTo, target.toJson? = some isTo ∧
          json = .record [("DirectoryMove", .record [("from", isFrom),
            ("to", isTo), ("message", .string message)])] := by
  simp [toJson?, Option.bind_eq_some_iff, @eq_comm _ json]

theorem isFaithful : format.IsFaithful where
  serializes reason := by
    cases reason with
    | directoryMove source target message =>
        cases isSource : source.text? <;> cases isTarget : target.text? <;>
          simp [format, Format.IsTextual, paths, toJson?, Path.toJson?,
            isSource, isTarget]
    | _ =>
        simp [format, Format.IsTextual, paths, toJson?, isSome_located?,
          Path.toJson?]
  written := by
    intro reason json serialized
    cases reason with
    | invalidJob message | worker message =>
        cases serialized
        exact Json.isWritten_record (by simp)
    | busy path =>
        obtain ⟨isAt, isPath, rfl⟩ := Option.map_eq_some_iff.mp serialized
        refine Json.isWritten_record ?_
        simp [Path.isWritten_of_toJson? isPath]
    | packageRoot path message | manifest path message
    | bytecodeFile path message => exact isWritten_located? serialized
    | directoryMove source target message =>
        obtain ⟨isFrom, isSource, isTo, isTarget, rfl⟩ :=
          directoryMove_eq_some.mp serialized
        refine Json.isWritten_record ?_
        simp [Json.isWritten_record, Path.isWritten_of_toJson? isSource,
          Path.isWritten_of_toJson? isTarget]
    | cancelled =>
        cases serialized
        exact Json.isWritten_string
  restores := by
    intro reason json _ serialized
    cases reason with
    | invalidJob message | worker message =>
        cases serialized
        rfl
    | busy path =>
        obtain ⟨isAt, isPath, rfl⟩ := Option.map_eq_some_iff.mp serialized
        have isVariant := @variant?_record "Busy" isAt
        simp [format, ofJson?, isVariant, ofVariant?,
          Path.ofJson?_of_toJson? isPath]
    | packageRoot path message | manifest path message
    | bytecodeFile path message =>
        exact ofVariant?_of_located? (fun _ => rfl) serialized
    | directoryMove source target message =>
        obtain ⟨isFrom, isSource, isTo, isTarget, rfl⟩ :=
          directoryMove_eq_some.mp serialized
        have isMove := @move?_record source target isFrom isTo message isSource
          isTarget
        simp [format, ofJson?, variant?_record, ofVariant?, isMove]
    | cancelled =>
        cases serialized
        rfl

end FailureReason

namespace JobResult

/-- The paths of the failure and of the warnings. -/
def paths (result : JobResult) : List Path :=
  result.failure.toList.flatMap FailureReason.paths ++
    result.warnings.map Warning.path

def format : Format JobResult where
  toJson? := toJson?
  ofJson? := ofJson?
  paths := paths
  counters result := Stats.format.counters result.stats

theorem toJson?_eq_some {result : JobResult} {json : Json} :
    result.toJson? = some json ↔
      ∃ failure, failureToJson? result.failure = some failure ∧
        ∃ warnings, result.warnings.mapM Warning.toJson? = some warnings ∧
          json = .record [("success", .bool result.success),
            ("failure", failure), ("warnings", .array warnings),
            ("stats", result.stats.toJson)] := by
  simp [toJson?, Option.bind_eq_some_iff, @eq_comm _ json]

theorem isSome_failureToJson? {failure : Option FailureReason} :
    (failureToJson? failure).isSome ↔
      ∀ reason ∈ failure, FailureReason.format.IsTextual reason := by
  cases failure with
  | none => simp [failureToJson?]
  | some reason =>
      have isSerialized : reason.toJson?.isSome ↔
          FailureReason.format.IsTextual reason :=
        FailureReason.isFaithful.serializes reason
      simpa [failureToJson?] using isSerialized

theorem isWritten_failureToJson? {failure : Option FailureReason} {json : Json}
    (serialized : failureToJson? failure = some json) : json.IsWritten := by
  cases failure with
  | none =>
      cases serialized
      exact Json.isWritten_null
  | some reason => exact FailureReason.isFaithful.written reason json serialized

/-- No failure is written as a null. -/
theorem failureOfJson?_of_toJson? {failure : Option FailureReason} {json : Json}
    (serialized : failureToJson? failure = some json) :
    failureOfJson? (some json) = some failure := by
  cases failure with
  | none =>
      cases serialized
      rfl
  | some reason =>
      have isRestored : FailureReason.ofJson? json = some reason :=
        FailureReason.isFaithful.restores reason json nofun serialized
      simp only [failureOfJson?]
      split
      · rename_i isMissing
        cases isMissing
      · rename_i isNull
        cases isNull
        cases isRestored
      · rename_i present _ isPresent
        cases isPresent
        rw [isRestored]
        rfl

theorem isWritten_warnings {warnings : List Warning} {jsons : List Json}
    (serialized : warnings.mapM Warning.toJson? = some jsons) :
    ∀ json ∈ jsons, json.IsWritten := by
  have all := Json.mapM_eq_some_iff.mp serialized
  clear serialized
  induction all with
  | nil => simp
  | cons isFirst _ induction =>
      exact List.forall_mem_cons.mpr
        ⟨Warning.isFaithful.written _ _ isFirst, induction⟩

theorem mapM_ofJson?_warnings {warnings : List Warning} {jsons : List Json}
    (serialized : warnings.mapM Warning.toJson? = some jsons) :
    jsons.mapM Warning.ofJson? = some warnings := by
  have all := Json.mapM_eq_some_iff.mp serialized
  refine Json.mapM_eq_some_iff.mpr (all.flip.imp fun json warning isWarning => ?_)
  exact Warning.isFaithful.restores warning json nofun isWarning

theorem isFaithful : format.IsFaithful where
  serializes result := by
    have isSome : result.toJson?.isSome ↔
        (failureToJson? result.failure).isSome ∧
          (result.warnings.mapM Warning.toJson?).isSome := by
      cases isFailure : failureToJson? result.failure <;>
        cases isWarnings : result.warnings.mapM Warning.toJson? <;>
        simp [toJson?, isFailure, isWarnings]
    have warnings : ∀ warning : Warning,
        warning.toJson?.isSome ↔ warning.path.text?.isSome := by
      intro warning
      simpa [Format.IsTextual, Warning.format] using
        Warning.isFaithful.serializes warning
    rw [format, isSome, isSome_failureToJson?, Json.isSome_mapM]
    simp only [warnings, Format.IsTextual, paths, List.forall_mem_append,
      List.forall_mem_flatMap, List.forall_mem_map, Option.mem_toList,
      FailureReason.format, Option.mem_def]
  written := by
    intro result json serialized
    obtain ⟨failure, isFailure, warnings, isWarnings, rfl⟩ :=
      toJson?_eq_some.mp serialized
    refine Json.isWritten_record ?_
    simp [isWritten_failureToJson? isFailure, Stats.isWritten_toJson,
      Json.isWritten_array (isWritten_warnings isWarnings)]
  restores := by
    intro result json counted serialized
    obtain ⟨failure, isFailure, warnings, isWarnings, rfl⟩ :=
      toJson?_eq_some.mp serialized
    have fields : (Json.record [("success", .bool result.success),
        ("failure", failure), ("warnings", .array warnings),
        ("stats", result.stats.toJson)]).fields?
        ["success", "failure", "warnings", "stats"] .complete =
          some [some (.bool result.success), some failure,
            some (.array warnings), some result.stats.toJson] :=
      Json.fields?_record (by simp)
    have stats := Stats.ofJson?_toJson counted
    simp [format, ofJson?, fields, failureOfJson?_of_toJson? isFailure,
      Json.items?, mapM_ofJson?_warnings isWarnings, stats]

end JobResult

/-! ### All of them -/

/-- A type of serialized values. -/
inductive Serial where
  | identifier
  | stage
  | progressEvent
  | outcome
  | warning
  | stats
  | failureReason
  | jobResult
  | writeStrategy
  | options

namespace Serial

def Value : Serial → Type
  | identifier => Identifier
  | stage => Stage
  | progressEvent => ProgressEvent
  | outcome => Outcome
  | warning => Warning
  | stats => Stats
  | failureReason => FailureReason
  | jobResult => JobResult
  | writeStrategy => WriteStrategy
  | options => Options

def format : (serial : Serial) → Format serial.Value
  | identifier => Identifier.format
  | stage => Stage.format
  | progressEvent => ProgressEvent.format
  | outcome => Outcome.format
  | warning => Warning.format
  | stats => Stats.format
  | failureReason => FailureReason.format
  | jobResult => JobResult.format
  | writeStrategy => WriteStrategy.format
  | options => Options.format

theorem isFaithful : (serial : Serial) → serial.format.IsFaithful
  | identifier => Identifier.isFaithful
  | stage => Stage.isFaithful
  | progressEvent => ProgressEvent.isFaithful
  | outcome => Outcome.isFaithful
  | warning => Warning.isFaithful
  | stats => Stats.isFaithful
  | failureReason => FailureReason.isFaithful
  | jobResult => JobResult.isFaithful
  | writeStrategy => WriteStrategy.isFaithful
  | options => Options.isFaithful

/-- A value of which every path is text is serialized to a text that is read as
that value, and any other value is not serialized.  An identifier comes back
with the path form of its name. -/
theorem reads_back (serial : Serial) (value : serial.Value)
    (counted : serial.format.IsCounted value) :
    (serial.format.IsTextual value →
      ∃ text, serial.format.write? value = some text ∧
        serial.format.read? text = some value) ∧
    (¬ serial.format.IsTextual value → serial.format.write? value = none) ∧
    ∀ named : Identifier, ∃ text restored,
      Identifier.format.write? named = some text ∧
        Identifier.format.read? text = some restored ∧
        restored.name = named.name ∧
        restored.path.toList = named.name.toList.map fun character =>
          if character = '.' then '/' else character := by
  refine ⟨fun textual => ?_, fun untextual => ?_, fun named => ?_⟩
  · exact serial.isFaithful.read?_write? textual counted
  · exact serial.isFaithful.write?_eq_none untextual
  · obtain ⟨text, isWritten, isRead⟩ :=
      @Format.IsFaithful.read?_write? _ _ named Identifier.isFaithful nofun nofun
    refine ⟨text, named, isWritten, isRead, rfl, ?_⟩
    rw [Identifier.path, String.toList_map]

/-- A failed move with two warnings, where text needs every kind of escape and
the counters are as large as they may be. -/
def crowdedResult : JobResult where
  success := false
  failure := some (.directoryMove (.ofString "smali/com/ap\"p")
    (.ofString "smali/org/😀") "ends\nhere \\ \u0000")
  warnings := [⟨.ofString "res/\t.xml", "\u001f\u007f\u00e9"⟩,
    ⟨.ofString "", ""⟩]
  stats := ⟨2 ^ 64 - 1, 0, 10, 2 ^ 64 - 1⟩

/-- A failure at a path that is no text. -/
def unreadable : FailureReason :=
  .busy ⟨[0x70, 0x2F, 0xFF]⟩

theorem reads_back_crowded :
    JobResult.format.IsCounted crowdedResult ∧
    FailureReason.format.IsCounted unreadable ∧
    (∃ text, JobResult.format.write? crowdedResult = some text ∧
      JobResult.format.read? text = some crowdedResult) ∧
    FailureReason.format.write? unreadable = none := by
  have counted : JobResult.format.IsCounted crowdedResult := by
    unfold Format.IsCounted
    decide
  have uncounted : FailureReason.format.IsCounted unreadable := nofun
  have textual : JobResult.format.IsTextual crowdedResult := by
    simp [Format.IsTextual, JobResult.format, JobResult.paths, crowdedResult,
      FailureReason.paths]
  have untextual : ¬ FailureReason.format.IsTextual unreadable := by
    unfold Format.IsTextual
    decide
  exact ⟨counted, uncounted,
    (reads_back .jobResult crowdedResult counted).1 textual,
    (reads_back .failureReason unreadable uncounted).2.1 untextual⟩

end Serial

end PackageRename
