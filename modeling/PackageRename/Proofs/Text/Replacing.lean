import Mathlib.Data.List.Infix
import PackageRename.Text.Replacement

/-!
# What replacing does to a text

A text either does not hold the pattern, and is left as it is, or it splits at
the first match, where the replacement goes in and the search starts anew.  From
this it follows when replacing can be undone, and when two replacements do not
meet.
-/

namespace PackageRename.Text

variable {α : Type} {pattern replacement text before after : List α}

/-! ### The first match -/

/-- No match starts in the text when the pattern follows it. -/
def ComesFirst (pattern before : List α) : Prop :=
  ∀ early, early ≠ [] → early <:+ before → ¬ pattern <+: early ++ pattern

theorem ComesFirst.tail {head : α}
    (first : ComesFirst pattern (head :: before)) :
    ComesFirst pattern before :=
  fun early nonempty isSuffix =>
    first early nonempty (isSuffix.trans (List.suffix_cons _ _))

theorem exists_first (occurs : pattern <:+: text) :
    ∃ before after, text = before ++ (pattern ++ after) ∧
      ComesFirst pattern before := by
  induction text with
  | nil =>
      rw [List.infix_nil] at occurs
      subst occurs
      refine ⟨[], [], rfl, fun early nonempty isSuffix => ?_⟩
      exact absurd (List.suffix_nil.mp isSuffix) nonempty
  | cons head tail induction =>
      by_cases isPrefix : pattern <+: head :: tail
      · obtain ⟨after, isText⟩ := isPrefix
        refine ⟨[], after, isText.symm, fun early nonempty isSuffix => ?_⟩
        exact absurd (List.suffix_nil.mp isSuffix) nonempty
      · have later : pattern <:+: tail :=
          (List.infix_cons_iff.mp occurs).resolve_left isPrefix
        obtain ⟨before, after, isTail, first⟩ := induction later
        refine ⟨head :: before, after, by rw [isTail, List.cons_append], ?_⟩
        intro early nonempty isSuffix matched
        rcases List.suffix_cons_iff.mp isSuffix with whole | inTail
        · apply isPrefix
          rw [isTail, ← List.cons_append, ← whole, ← List.append_assoc]
          exact matched.trans (List.prefix_append _ _)
        · exact first early nonempty inTail matched

/-- What holds of texts without a match, and of a text with a first match if it
holds behind that match, holds of all texts. -/
theorem first_match_induction (nonempty : pattern ≠ [])
    {property : List α → Prop}
    (absent : ∀ text, ¬ pattern <:+: text → property text)
    (found : ∀ before after, ComesFirst pattern before → property after →
      property (before ++ (pattern ++ after)))
    (text : List α) : property text := by
  by_cases occurs : pattern <:+: text
  · obtain ⟨before, after, isText, first⟩ := exists_first occurs
    have shorter : after.length < text.length := by
      have written := List.length_pos_iff.mpr nonempty
      rw [isText, List.length_append, List.length_append]
      omega
    rw [isText]
    exact found before after first
      (first_match_induction nonempty absent found after)
  · exact absent text occurs
termination_by text.length

/-! ### Words that do not meet -/

/-- No part of the word stands at its start and at its end. -/
def NoBorder (word : List α) : Prop :=
  ∀ border, border ≠ [] → border ≠ word → border <+: word → ¬ border <:+ word

instance [DecidableEq α] (word : List α) : Decidable (NoBorder word) :=
  decidable_of_iff (∀ border ∈ word.inits, border ≠ [] → border ≠ word →
    ¬ border <:+ word) (by
      simp only [List.mem_inits]
      exact ⟨fun none border some proper isPrefix =>
        none border isPrefix some proper, fun none border isPrefix some proper =>
        none border some proper isPrefix⟩)

theorem comesFirst_of_noBorder {word : List α} (noBorder : NoBorder word)
    (absent : ¬ word <:+: before) : ComesFirst word before := by
  intro early nonempty isSuffix isMatch
  by_cases short : word.length ≤ early.length
  · have inside := List.prefix_of_prefix_length_le isMatch
      (List.prefix_append early word) short
    exact absent (inside.isInfix.trans isSuffix.isInfix)
  · obtain ⟨border, isWord⟩ := List.prefix_of_prefix_length_le
      (List.prefix_append early word) isMatch (Nat.le_of_not_le short)
    have isPrefix : border <+: word := by
      rw [← List.prefix_append_right_inj early, isWord]
      exact isMatch
    refine noBorder border ?_ ?_ isPrefix ⟨early, isWord⟩
    · intro empty
      rw [empty, List.append_nil] at isWord
      exact short (isWord ▸ Nat.le_refl _)
    · intro same
      rw [same] at isWord
      exact nonempty (List.self_eq_append_left.mp isWord.symm)

/-- Neither word contains the other, and neither ends where the other
starts. -/
structure Separate (first second : List α) : Prop where
  notWithin : ¬ first <:+: second
  notAround : ¬ second <:+: first
  notInto : ∀ shared, shared ≠ [] → shared <:+ first → ¬ shared <+: second
  notFrom : ∀ shared, shared ≠ [] → shared <:+ second → ¬ shared <+: first

instance [DecidableEq α] (first second : List α) :
    Decidable (Separate first second) :=
  decidable_of_iff (¬ first <:+: second ∧ ¬ second <:+: first ∧
    (∀ shared ∈ first.tails, shared ≠ [] → ¬ shared <+: second) ∧
    ∀ shared ∈ second.tails, shared ≠ [] → ¬ shared <+: first) (by
      simp only [List.mem_tails]
      exact ⟨fun ⟨notWithin, notAround, notInto, notFrom⟩ =>
        ⟨notWithin, notAround,
          fun shared some isSuffix => notInto shared isSuffix some,
          fun shared some isSuffix => notFrom shared isSuffix some⟩,
        fun separate => ⟨separate.notWithin, separate.notAround,
          fun shared isSuffix some => separate.notInto shared some isSuffix,
          fun shared isSuffix some => separate.notFrom shared some isSuffix⟩⟩)

theorem Separate.symm {first second : List α}
    (separate : Separate first second) : Separate second first :=
  ⟨separate.notAround, separate.notWithin, separate.notFrom, separate.notInto⟩

/-- Words that have no letter in common do not meet. -/
theorem separate_of_disjoint {first second : List α} (written : first ≠ [])
    (otherWritten : second ≠ []) (disjoint : ∀ letter ∈ second, letter ∉ first) :
    Separate first second := by
  have noShared : ∀ shared, shared ≠ [] → shared ⊆ first →
      ¬ shared ⊆ second := by
    intro shared sharedWritten inFirst inSecond
    obtain ⟨letter, others, isShared⟩ :=
      List.exists_cons_of_ne_nil sharedWritten
    have member : letter ∈ shared := isShared ▸ List.mem_cons_self
    exact disjoint letter (inSecond member) (inFirst member)
  refine ⟨fun within => ?_, fun around => ?_, fun shared written into outOf => ?_,
    fun shared written outOf into => ?_⟩
  · exact noShared first written (List.Subset.refl _) within.subset
  · exact noShared second otherWritten around.subset (List.Subset.refl _)
  · exact noShared shared written into.subset outOf.subset
  · exact noShared shared written into.subset outOf.subset

/-- A word does not meet a letter that is not in it. -/
theorem separate_singleton {word : List α} {letter : α} (nonempty : word ≠ [])
    (absent : letter ∉ word) : Separate word [letter] :=
  separate_of_disjoint nonempty (List.cons_ne_nil _ _)
    (List.forall_mem_singleton.mpr absent)

variable {word rest : List α}

/-- No match starts inside the word. -/
theorem Separate.not_prefix (separate : Separate pattern word)
    (nonempty : rest ≠ []) (isSuffix : rest <:+ word) :
    ¬ pattern <+: rest ++ after := by
  intro isMatch
  by_cases short : pattern.length ≤ rest.length
  · have inside := List.prefix_of_prefix_length_le isMatch
      (List.prefix_append rest after) short
    exact separate.notWithin (inside.isInfix.trans isSuffix.isInfix)
  · exact separate.notFrom rest nonempty isSuffix
      (List.prefix_of_prefix_length_le (List.prefix_append rest after) isMatch
        (Nat.le_of_not_le short))

/-- A match that starts before the word ends before it. -/
theorem Separate.prefix_of_append (separate : Separate pattern word)
    (isMatch : pattern <+: before ++ (word ++ after)) : pattern <+: before := by
  by_cases short : pattern.length ≤ before.length
  · exact List.prefix_of_prefix_length_le isMatch (List.prefix_append _ _) short
  · obtain ⟨reach, isPattern⟩ := List.prefix_of_prefix_length_le
      (List.prefix_append before (word ++ after)) isMatch
      (Nat.le_of_not_le short)
    have nonempty : reach ≠ [] := by
      intro empty
      rw [empty, List.append_nil] at isPattern
      exact short (isPattern ▸ Nat.le_refl _)
    rw [← isPattern, List.prefix_append_right_inj] at isMatch
    by_cases within : reach.length ≤ word.length
    · exact absurd (List.prefix_of_prefix_length_le isMatch
        (List.prefix_append _ _) within)
        (separate.notInto reach nonempty ⟨before, isPattern⟩)
    · have around := List.prefix_of_prefix_length_le (List.prefix_append _ _)
        isMatch (Nat.le_of_not_le within)
      exact absurd (around.isInfix.trans ⟨before, [], by simpa using isPattern⟩)
        separate.notAround

theorem Separate.not_infix_append (separate : Separate pattern word)
    (notBefore : ¬ pattern <:+: before) (notAfter : ¬ pattern <:+: after) :
    ¬ pattern <:+: before ++ (word ++ after) := by
  have behind : ∀ rest, rest <:+ word → ¬ pattern <:+: rest ++ after := by
    intro rest isSuffix
    induction rest with
    | nil => exact notAfter
    | cons head tail induction =>
        rw [List.cons_append, List.infix_cons_iff, not_or]
        exact ⟨separate.not_prefix (List.cons_ne_nil _ _) isSuffix,
          induction ((List.suffix_cons _ _).trans isSuffix)⟩
  induction before with
  | nil => exact behind word (List.suffix_refl _)
  | cons head tail induction =>
      rw [List.infix_cons_iff, not_or] at notBefore
      rw [List.cons_append, List.infix_cons_iff, not_or]
      refine ⟨fun isMatch => notBefore.1 (separate.prefix_of_append isMatch),
        induction notBefore.2⟩

/-! ### Replacing -/

variable [DecidableEq α]

theorem occursIn_eq_true_iff :
    occursIn pattern text = true ↔ pattern <:+: text := by
  induction text with
  | nil => rw [occursIn, List.isPrefixOf_iff_prefix, List.prefix_nil, List.infix_nil]
  | cons head tail induction =>
      rw [occursIn, Bool.or_eq_true, induction, List.isPrefixOf_iff_prefix,
        List.infix_cons_iff]

theorem occursIn_eq_false_iff :
    occursIn pattern text = false ↔ ¬ pattern <:+: text := by
  rw [← Bool.not_eq_true, occursIn_eq_true_iff]

theorem replaceFrom_length (skipped : List α) (replacement : List α) :
    replaceFrom pattern replacement skipped.length (skipped ++ text) =
      replaceFrom pattern replacement 0 text := by
  induction skipped with
  | nil => rfl
  | cons head tail induction =>
      rw [List.length_cons, List.cons_append, replaceFrom, induction]

@[simp]
theorem replace_nil : replace pattern replacement [] = [] := by
  simp [replace, replaceFrom]

/-- A match is exchanged, and the search goes on behind it. -/
theorem replace_append (nonempty : pattern ≠ []) :
    replace pattern replacement (pattern ++ text) =
      replacement ++ replace pattern replacement text := by
  cases pattern with
  | nil => exact absurd rfl nonempty
  | cons head tail =>
      have isMatch : (head :: tail).isPrefixOf (head :: (tail ++ text)) =
          true := by
        rw [List.isPrefixOf_iff_prefix, ← List.cons_append]
        exact List.prefix_append _ _
      rw [replace, List.cons_append, replaceFrom, if_pos isMatch,
        List.length_cons, Nat.add_sub_cancel, replaceFrom_length]
      rfl

theorem replace_self (nonempty : pattern ≠ []) :
    replace pattern replacement pattern = replacement := by
  have replaced := @replace_append α pattern replacement [] _ nonempty
  rwa [List.append_nil, replace_nil, List.append_nil] at replaced

theorem replace_cons {head : α} (noMatch : ¬ pattern <+: head :: text) :
    replace pattern replacement (head :: text) =
      head :: replace pattern replacement text := by
  rw [replace, replaceFrom, if_neg (by
    rwa [List.isPrefixOf_iff_prefix])]
  rfl

theorem replace_of_absent (absent : ¬ pattern <:+: text) :
    replace pattern replacement text = text := by
  induction text with
  | nil => exact replace_nil
  | cons head tail induction =>
      rw [replace_cons fun isPrefix => absent isPrefix.isInfix,
        induction fun inside => absent (inside.trans (List.suffix_cons _ _).isInfix)]

/-- The first match is exchanged, and the search goes on behind it. -/
theorem replace_first (nonempty : pattern ≠ [])
    (first : ComesFirst pattern before) :
    replace pattern replacement (before ++ (pattern ++ after)) =
      before ++ (replacement ++ replace pattern replacement after) := by
  induction before with
  | nil => exact replace_append nonempty
  | cons head tail induction =>
      rw [List.cons_append, replace_cons, induction first.tail,
        List.cons_append]
      intro isPrefix
      apply first (head :: tail) (List.cons_ne_nil _ _) (List.suffix_refl _)
      rw [← List.cons_append, ← List.append_assoc] at isPrefix
      refine List.prefix_of_prefix_length_le isPrefix (List.prefix_append _ _)
        ?_
      rw [List.length_append]
      exact Nat.le_add_left _ _

theorem replace_ne_nil (nonempty : pattern ≠ []) (written : replacement ≠ [])
    (textWritten : text ≠ []) : replace pattern replacement text ≠ [] := by
  by_cases occurs : pattern <:+: text
  · obtain ⟨front, back, isText, first⟩ := exists_first occurs
    rw [isText, replace_first nonempty first]
    simp [written]
  · rwa [replace_of_absent occurs]

/-- A letter that was not there comes in with the replacement only. -/
theorem not_mem_replace {letter : α} (nonempty : pattern ≠ [])
    (notNew : letter ∉ replacement) (absent : letter ∉ text) :
    letter ∉ replace pattern replacement text := by
  induction text using first_match_induction nonempty with
  | absent text noMatch => rwa [replace_of_absent noMatch]
  | found front back first induction =>
      simp only [List.mem_append, not_or] at absent
      rw [replace_first nonempty first, List.mem_append, List.mem_append,
        not_or, not_or]
      exact ⟨absent.1, notNew, induction absent.2.2⟩

/-- A replacement goes on behind a word that its matches do not meet. -/
theorem Separate.replace_word (separate : Separate pattern word)
    (isSuffix : rest <:+ word) :
    replace pattern replacement (rest ++ after) =
      rest ++ replace pattern replacement after := by
  induction rest with
  | nil => rfl
  | cons head tail induction =>
      have noMatch : ¬ pattern <+: head :: (tail ++ after) :=
        separate.not_prefix (List.cons_ne_nil _ _) isSuffix
      rw [List.cons_append, replace_cons noMatch,
        induction ((List.suffix_cons _ _).trans isSuffix), List.cons_append]

/-- A replacement goes on before and behind a word that its matches do not
meet. -/
theorem Separate.replace_append (separate : Separate pattern word)
    (nonempty : pattern ≠ []) (before after : List α) :
    replace pattern replacement (before ++ (word ++ after)) =
      replace pattern replacement before ++
        (word ++ replace pattern replacement after) := by
  induction before using first_match_induction nonempty with
  | absent text absent =>
      rw [replace_of_absent absent]
      induction text with
      | nil => exact separate.replace_word (List.suffix_refl _)
      | cons head tail induction =>
          rw [List.infix_cons_iff, not_or] at absent
          have noMatch : ¬ pattern <+: head :: (tail ++ (word ++ after)) :=
            fun isMatch => absent.1 (separate.prefix_of_append isMatch)
          rw [List.cons_append, replace_cons noMatch, induction absent.2,
            List.cons_append]
  | found before rest first induction =>
      rw [List.append_assoc, List.append_assoc, replace_first nonempty first,
        induction, replace_first nonempty first]
      simp only [List.append_assoc]

/-- What a replacement does not bring in and was not there is not there
afterwards. -/
theorem Separate.not_infix_replace (separate : Separate word replacement)
    (nonempty : pattern ≠ []) (absent : ¬ word <:+: text) :
    ¬ word <:+: replace pattern replacement text := by
  induction text using first_match_induction nonempty with
  | absent text noMatch => rwa [replace_of_absent noMatch]
  | found before rest first induction =>
      rw [replace_first nonempty first]
      refine separate.not_infix_append ?_ (induction ?_)
      · exact fun inside => absent (inside.trans
          (List.prefix_append before _).isInfix)
      · exact fun inside => absent (inside.trans
          ((List.suffix_append pattern rest).trans
            (List.suffix_append before _)).isInfix)

/-- A pattern does not survive a replacement that does not meet it. -/
theorem Separate.not_infix_replace_self
    (separate : Separate pattern replacement) (nonempty : pattern ≠ []) :
    ¬ pattern <:+: replace pattern replacement text := by
  induction text using first_match_induction nonempty with
  | absent text absent =>
      rw [replace_of_absent absent]
      exact absent
  | found before after first induction =>
      rw [replace_first nonempty first]
      refine separate.not_infix_append ?_ induction
      rintro ⟨skipped, rest, isBefore⟩
      refine first (pattern ++ rest) ?_ ⟨skipped, ?_⟩ ?_
      · simp [nonempty]
      · rw [← isBefore, List.append_assoc]
      · rw [List.append_assoc]
        exact List.prefix_append _ _

/-! ### Undoing replacements -/

section Undoing

/-- Replacing back undoes a replacement by a word that was not there. -/
theorem replace_replace (nonempty : pattern ≠ []) (written : replacement ≠ [])
    (noBorder : NoBorder replacement) (absent : ¬ replacement <:+: text) :
    replace replacement pattern (replace pattern replacement text) = text := by
  induction text using first_match_induction nonempty with
  | absent text noMatch =>
      rw [replace_of_absent noMatch, replace_of_absent absent]
  | found before rest first induction =>
      have notBefore : ¬ replacement <:+: before := fun inside =>
        absent (inside.trans (List.prefix_append before _).isInfix)
      have notAfter : ¬ replacement <:+: rest := fun inside =>
        absent (inside.trans ((List.suffix_append pattern rest).trans
          (List.suffix_append before _)).isInfix)
      rw [replace_first nonempty first, replace_first written
        (comesFirst_of_noBorder noBorder notBefore), induction notAfter]

variable {inner newInner outer newOuter : List α}

/-- Two replacements are undone in the order in which they were made, if the
words of the second do not meet those of the first. -/
theorem replace_pair_replace_pair (outerWritten : outer ≠ [])
    (newOuterWritten : newOuter ≠ []) (innerWritten : inner ≠ [])
    (newInnerWritten : newInner ≠ []) (outerNoBorder : NoBorder newOuter)
    (innerNoBorder : NoBorder newInner)
    (innerNewOuter : Separate inner newOuter)
    (newInnerNewOuter : Separate newInner newOuter)
    (newInnerOuter : Separate newInner outer)
    (noOuter : ¬ newOuter <:+: text) (noInner : ¬ newInner <:+: text) :
    replace newInner inner (replace newOuter outer
      (replace inner newInner (replace outer newOuter text))) = text := by
  induction text using first_match_induction outerWritten with
  | absent text noMatch =>
      rw [replace_of_absent noMatch, replace_of_absent
        (newInnerNewOuter.symm.not_infix_replace innerWritten noOuter),
        replace_replace innerWritten newInnerWritten innerNoBorder noInner]
  | found before rest first induction =>
      have isBefore : before <:+: before ++ (outer ++ rest) :=
        (List.prefix_append before _).isInfix
      have isRest : rest <:+: before ++ (outer ++ rest) :=
        ((List.suffix_append outer rest).trans
          (List.suffix_append before _)).isInfix
      have noOuterBefore : ¬ newOuter <:+: replace inner newInner before :=
        newInnerNewOuter.symm.not_infix_replace innerWritten
          fun inside => noOuter (inside.trans isBefore)
      rw [replace_first outerWritten first,
        innerNewOuter.replace_append innerWritten,
        replace_first newOuterWritten
          (comesFirst_of_noBorder outerNoBorder noOuterBefore),
        newInnerOuter.replace_append newInnerWritten,
        replace_replace innerWritten newInnerWritten innerNoBorder
          fun inside => noInner (inside.trans isBefore),
        induction (fun inside => noOuter (inside.trans isRest))
          fun inside => noInner (inside.trans isRest)]

end Undoing

end PackageRename.Text
