import PackageRename.Json.Basic

/-!
# Records and variants in JSON

A record is an object, or an array of its fields in order.  In an object, keys
that name no field are ignored, and no field may be given twice.  A variant is
its name, or an object whose only key is the name.
-/

namespace PackageRename.Json

/-- The values given for one key. -/
def valuesOf (members : List (Option String × Json)) (key : String) :
    List Json :=
  members.filterMap fun (present, value) =>
    if present = some key then some value else none

/-- Whether an array may stop before the last field. -/
inductive ArrayForm where
  | complete
  | partly
deriving DecidableEq

/-- The fields of a record in order; `none` for one that is not given. -/
def fields? (names : List String) (form : ArrayForm) :
    Json → Option (List (Option Json))
  | .scalar _ => none
  | .array items =>
      if items.length = names.length ∨
          (form = .partly ∧ items.length < names.length) then
        some (items.map some ++
          List.replicate (names.length - items.length) none)
      else
        none
  | .object members =>
      if members.any fun (key, _) => key.isNone then none
      else
        names.mapM fun name =>
          match valuesOf members name with
          | [] => some none
          | [value] => some (some value)
          | _ => none

/-- The name of a variant and what it carries. -/
def variant? : Json → Option (String × Option Json)
  | .scalar (.string (some name)) => some (name, none)
  | .object [(some name, content)] => some (name, some content)
  | _ => none

/-- A variant that carries nothing, spelled with or without a null. -/
def isBare : Option Json → Bool
  | none => true
  | some (.scalar .null) => true
  | some _ => false

def bool? : Json → Option Bool
  | .scalar (.bool value) => some value
  | _ => none

def text? : Json → Option String
  | .scalar (.string text) => text
  | _ => none

/-- The largest counter that is read. -/
def counterLimit : Nat := 0xFFFFFFFFFFFFFFFF

def counter? : Json → Option Nat
  | .scalar (.natural value) =>
      if value ≤ counterLimit then some value else none
  | _ => none

def items? : Json → Option (List Json)
  | .array items => some items
  | _ => none

end PackageRename.Json
