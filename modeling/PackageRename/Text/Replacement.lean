/-!
# Literal replacement

Search for a fixed pattern proceeds from left to right, and a match is passed
over whole before the search goes on, so matches never overlap.  Counting and
replacing are separate scans over the same matches.
-/

namespace PackageRename.Text

variable {α : Type} [DecidableEq α]

/-- Whether the pattern stands somewhere in the text. -/
def occursIn (pattern : List α) : List α → Bool
  | [] => pattern.isPrefixOf []
  | head :: tail =>
      pattern.isPrefixOf (head :: tail) || occursIn pattern tail

/-- Matches from here on, when the next `skip` places still belong to the last
match. -/
def countFrom (pattern : List α) : (skip : Nat) → List α → Nat
  | _, [] => 0
  | skip + 1, _ :: tail => countFrom pattern skip tail
  | 0, head :: tail =>
      if pattern.isPrefixOf (head :: tail) then
        countFrom pattern (pattern.length - 1) tail + 1
      else
        countFrom pattern 0 tail

/-- The text from here on with every match exchanged, when the next `skip`
places still belong to the last match. -/
def replaceFrom (pattern replacement : List α) :
    (skip : Nat) → List α → List α
  | _, [] => []
  | skip + 1, _ :: tail => replaceFrom pattern replacement skip tail
  | 0, head :: tail =>
      if pattern.isPrefixOf (head :: tail) then
        replacement ++
          replaceFrom pattern replacement (pattern.length - 1) tail
      else
        head :: replaceFrom pattern replacement 0 tail

/-- Number of non-overlapping matches of a non-empty pattern. -/
def count (pattern text : List α) : Nat :=
  countFrom pattern 0 text

/-- Exchange every non-overlapping match of a non-empty pattern. -/
def replace (pattern replacement text : List α) : List α :=
  replaceFrom pattern replacement 0 text

theorem replace_eq_self_of_count_eq_zero
    {pattern replacement text : List α}
    (absent : count pattern text = 0) :
    replace pattern replacement text = text := by
  unfold count at absent
  unfold replace
  induction text with
  | nil => rfl
  | cons head tail induction =>
      rw [countFrom] at absent
      rw [replaceFrom]
      split at absent
      · exact absurd absent (Nat.succ_ne_zero _)
      · rename_i noMatch
        rw [if_neg noMatch, induction absent]

end PackageRename.Text
