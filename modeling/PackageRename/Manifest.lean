import PackageRename.Text.Alphanumeric

/-!
# The package a manifest declares

Of a manifest only the opening of its first `<manifest` element is read: the
attributes that follow it, up to the first text that is no attribute.  The
declared package is the value of the first one named `package`.
-/

namespace PackageRename.Manifest

structure Attribute where
  name : List Char
  value : List Char
deriving DecidableEq

def isBlank (character : Char) : Bool :=
  character = ' ' || character = '\t' || character = '\r' || character = '\n'

def isNameCharacter (character : Char) : Bool :=
  Text.isAlphanumeric character || character = ':' || character = '_' ||
    character = '-' || character = '.'

/-- The element whose attributes are read. -/
def opening : List Char := "<manifest".toList

/-- The name of the attribute that declares the package. -/
def packageAttribute : List Char := "package".toList

/-- What follows the first place where the sought text stands. -/
def afterFirst (sought : List Char) : List Char → Option (List Char)
  | [] => if sought = [] then some [] else none
  | head :: tail =>
      if sought.isPrefixOf (head :: tail) then
        some ((head :: tail).drop sought.length)
      else
        afterFirst sought tail

/-- A value between two equal quotes, and what follows it. -/
def quoted? : List Char → Option (List Char × List Char)
  | [] => none
  | quote :: text =>
      if quote = '"' ∨ quote = '\'' then
        match text.dropWhile (· != quote) with
        | [] => none
        | _ :: rest => some (text.takeWhile (· != quote), rest)
      else
        none

/-- One attribute with the white space before it, and what follows it. -/
def attribute? (text : List Char) : Option (Attribute × List Char) :=
  let named := text.dropWhile isBlank
  let name := named.takeWhile isNameCharacter
  if text.takeWhile isBlank = [] ∨ name = [] then none
  else
    match (named.dropWhile isNameCharacter).dropWhile isBlank with
    | '=' :: valued =>
        (quoted? (valued.dropWhile isBlank)).map fun (value, rest) =>
          (⟨name, value⟩, rest)
    | _ => none

private theorem length_dropWhile_le {α : Type} (test : α → Bool)
    (items : List α) : (items.dropWhile test).length ≤ items.length :=
  (List.dropWhile_sublist test).length_le

theorem quoted?_shortens {text value rest : List Char}
    (found : quoted? text = some (value, rest)) :
    rest.length < text.length := by
  cases text with
  | nil => cases found
  | cons quote tail =>
      have bound := length_dropWhile_le (· != quote) tail
      rw [quoted?] at found
      by_cases isQuote : quote = '"' ∨ quote = '\''
      · rw [if_pos isQuote] at found
        cases closed : tail.dropWhile (· != quote) with
        | nil => simp [closed] at found
        | cons close after =>
            simp only [closed, Option.some.injEq, Prod.mk.injEq] at found
            rw [closed, List.length_cons, found.2] at bound
            rw [List.length_cons]
            omega
      · simp [isQuote] at found

theorem attribute?_shortens {text rest : List Char} {item : Attribute}
    (found : attribute? text = some (item, rest)) :
    rest.length < text.length := by
  unfold attribute? at found
  simp only at found
  split at found
  · cases found
  · split at found
    · rename_i valued dropped
      rcases Option.map_eq_some_iff.mp found with
        ⟨⟨value, after⟩, isQuoted, same⟩
      cases same
      have afterQuote := quoted?_shortens isQuoted
      have afterBlank := length_dropWhile_le isBlank valued
      have afterName := length_dropWhile_le isBlank
        ((text.dropWhile isBlank).dropWhile isNameCharacter)
      have inName := length_dropWhile_le isNameCharacter
        (text.dropWhile isBlank)
      have inBlank := length_dropWhile_le isBlank text
      rw [dropped, List.length_cons] at afterName
      dsimp only at afterQuote ⊢
      omega
    · cases found

/-- The attributes at the front of the text. -/
def attributes (text : List Char) : List Attribute :=
  match found : attribute? text with
  | none => []
  | some (item, rest) =>
      have : rest.length < text.length := attribute?_shortens found
      item :: attributes rest
termination_by text.length

/-- The value of the first `package` attribute of the first manifest
element. -/
def declaredPackage (xml : String) : Option String := do
  let rest ← afterFirst opening xml.toList
  let declaration ← (attributes rest).find? (·.name = packageAttribute)
  return String.ofList declaration.value

end PackageRename.Manifest
