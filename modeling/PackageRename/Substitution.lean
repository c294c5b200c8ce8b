import PackageRename.Text.Replacement
import PackageRename.Text.Utf8

/-!
# Substitutions

A substitution exchanges one literal text for another.  A list of them is
applied in order, each to the outcome of the one before; one that seeks the
empty text does nothing.
-/

namespace PackageRename

structure Substitution where
  sought : String
  replacement : String
deriving DecidableEq

namespace Substitution

/-- Number of places where the substitution applies. -/
def count (substitution : Substitution) (text : String) : Nat :=
  if substitution.sought = "" then 0
  else Text.count substitution.sought.toList text.toList

/-- The text with the substitution made wherever it applies. -/
def apply (substitution : Substitution) (text : String) : String :=
  if substitution.sought = "" then text
  else
    String.ofList <|
      Text.replace substitution.sought.toList
        substitution.replacement.toList text.toList

/-- Apply each substitution in turn, with the number of replacements made. -/
def applyAll : List Substitution → String → String × Nat
  | [], text => (text, 0)
  | substitution :: rest, text =>
      let (final, replacements) := applyAll rest (substitution.apply text)
      (final, substitution.count text + replacements)

/-- Whether the sought text stands in the bytes.  The empty text is never
found. -/
def occursInBytes (substitution : Substitution) (bytes : List UInt8) : Bool :=
  substitution.sought != "" &&
    Text.occursIn (Utf8.encode substitution.sought) bytes

@[simp]
theorem applyAll_nil (text : String) : applyAll [] text = (text, 0) := rfl

theorem apply_eq_self_of_count_eq_zero
    {substitution : Substitution} {text : String}
    (absent : substitution.count text = 0) :
    substitution.apply text = text := by
  unfold count at absent
  unfold apply
  split
  · rfl
  · rename_i nonempty
    rw [if_neg nonempty] at absent
    rw [Text.replace_eq_self_of_count_eq_zero absent, String.ofList_toList]

end Substitution

end PackageRename
