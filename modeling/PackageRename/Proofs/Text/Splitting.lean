import PackageRename.Proofs.Text.Replacing

/-!
# Splitting a text

The occurrences of a word that are found from left to right, none of which
overlaps the one before, split a text into pieces.  Counting and replacing are
both read off these pieces, and both go on piece by piece over a text that is
put together of parts which no match joins.
-/

namespace PackageRename.Text

variable {α : Type} {pattern word text front back before after : List α}

/-! ### The first occurrence -/

/-- The word stands in the text between two parts, and nowhere earlier. -/
structure SplitsFirst (word text before after : List α) : Prop where
  isText : text = before ++ (word ++ after)
  earliest : ∀ earlier later, text = earlier ++ (word ++ later) →
    before.length ≤ earlier.length

theorem splitsFirst_iff : SplitsFirst word text before after ↔
    text = before ++ (word ++ after) ∧ ComesFirst word before := by
  constructor
  · rintro ⟨isText, earliest⟩
    refine ⟨isText, fun early nonempty isSuffix isMatch => ?_⟩
    obtain ⟨earlier, isBefore⟩ := isSuffix
    have further : word <+: early ++ (word ++ after) :=
      isMatch.trans ((List.prefix_append_right_inj _).mpr
        (List.prefix_append _ _))
    obtain ⟨later, isLater⟩ := further
    have bound := earliest earlier later (by
      rw [isText, isLater, ← isBefore, List.append_assoc])
    have positive := List.length_pos_iff.mpr nonempty
    rw [← isBefore, List.length_append] at bound
    omega
  · rintro ⟨isText, first⟩
    refine ⟨isText, fun earlier later isOther => ?_⟩
    apply Nat.le_of_not_lt
    intro shorter
    have same := isText.symm.trans isOther
    rcases List.append_eq_append_iff.mp same with
      ⟨between, isEarlier, -⟩ | ⟨early, isBefore, isMatch⟩
    · rw [isEarlier, List.length_append] at shorter
      omega
    · have nonempty : early ≠ [] := by
        intro empty
        rw [isBefore, empty, List.append_nil] at shorter
        exact Nat.lt_irrefl _ shorter
      refine first early nonempty ⟨earlier, isBefore.symm⟩ ?_
      have isPrefix : word <+: (early ++ word) ++ after := by
        rw [List.append_assoc, ← isMatch]
        exact List.prefix_append _ _
      refine List.prefix_of_prefix_length_le isPrefix (List.prefix_append _ _) ?_
      rw [List.length_append]
      exact Nat.le_add_left _ _

theorem SplitsFirst.comesFirst (splits : SplitsFirst word text before after) :
    ComesFirst word before :=
  (splitsFirst_iff.mp splits).2

theorem ComesFirst.splitsFirst (first : ComesFirst word before)
    (after : List α) :
    SplitsFirst word (before ++ (word ++ after)) before after :=
  splitsFirst_iff.mpr ⟨rfl, first⟩

theorem splitsFirst_nil_iff {before after : List α} :
    SplitsFirst word (word ++ text) before after ↔ before = [] ∧ after = text := by
  constructor
  · intro splits
    have atFront : before.length ≤ 0 :=
      splits.earliest [] text (List.nil_append _).symm
    have isEmpty := List.eq_nil_of_length_eq_zero (Nat.le_zero.mp atFront)
    have isText := splits.isText
    rw [isEmpty, List.nil_append] at isText
    exact ⟨isEmpty, (List.append_cancel_left isText).symm⟩
  · rintro ⟨rfl, rfl⟩
    exact ⟨rfl, fun _ _ _ => Nat.zero_le _⟩

theorem splitsFirst_cons_iff {head : α} (noMatch : ¬ word <+: head :: text) :
    SplitsFirst word (head :: text) before after ↔
      ∃ later, before = head :: later ∧ SplitsFirst word text later after := by
  constructor
  · intro splits
    have isText := splits.isText
    cases before with
    | nil => exact absurd ⟨after, isText.symm⟩ noMatch
    | cons first later =>
        obtain ⟨rfl, isTail⟩ := List.cons.inj isText
        exact ⟨later, rfl, splitsFirst_iff.mpr ⟨isTail, splits.comesFirst.tail⟩⟩
  · rintro ⟨later, rfl, splits⟩
    refine ⟨by rw [splits.isText, List.cons_append], fun earlier more isOther => ?_⟩
    cases earlier with
    | nil => exact absurd ⟨more, isOther.symm⟩ noMatch
    | cons first others =>
        exact Nat.succ_le_succ
          (splits.earliest others more (List.cons.inj isOther).2)

theorem SplitsFirst.unique {otherBefore otherAfter : List α}
    (splits : SplitsFirst word text before after)
    (other : SplitsFirst word text otherBefore otherAfter) :
    before = otherBefore ∧ after = otherAfter := by
  have sameLength : before.length = otherBefore.length :=
    Nat.le_antisymm (splits.earliest _ _ other.isText)
      (other.earliest _ _ splits.isText)
  have same := splits.isText.symm.trans other.isText
  obtain ⟨sameBefore, rest⟩ := List.append_inj same sameLength
  exact ⟨sameBefore, List.append_cancel_left rest⟩

theorem comesFirst_nil : ComesFirst word [] :=
  fun _ nonempty isSuffix _ => nonempty (List.suffix_nil.mp isSuffix)

theorem ComesFirst.of_suffix (first : ComesFirst word before)
    (isSuffix : after <:+ before) : ComesFirst word after :=
  fun early nonempty inAfter => first early nonempty (inAfter.trans isSuffix)

/-- The word is not in what stands before its first occurrence. -/
theorem ComesFirst.not_infix (first : ComesFirst word before)
    (nonempty : word ≠ []) : ¬ word <:+: before := by
  rintro ⟨skipped, rest, isBefore⟩
  refine first (word ++ rest) (by simp [nonempty]) ⟨skipped, ?_⟩ ?_
  · rw [← isBefore, List.append_assoc]
  · rw [List.append_assoc]
    exact List.prefix_append _ _

instance [DecidableEq α] (word before : List α) :
    Decidable (ComesFirst word before) :=
  decidable_of_iff (∀ early ∈ before.tails, early ≠ [] →
      ¬ word <+: early ++ word) (by
    simp only [List.mem_tails]
    exact ⟨fun first early nonempty isSuffix => first early isSuffix nonempty,
      fun first early isSuffix nonempty => first early nonempty isSuffix⟩)

/-! ### All occurrences -/

/-- The pieces of a text between the occurrences of a word, found from left to
right. -/
inductive SplitsInto (word : List α) : List α → List (List α) → Prop where
  | whole {text : List α} (absent : ¬ word <:+: text) :
      SplitsInto word text [text]
  | next {text before after : List α} {pieces : List (List α)}
      (first : SplitsFirst word text before after)
      (later : SplitsInto word after pieces) :
      SplitsInto word text (before :: pieces)

namespace SplitsInto

variable {pieces : List (List α)}

theorem ne_nil (splits : SplitsInto word text pieces) : pieces ≠ [] := by
  cases splits <;> exact List.cons_ne_nil _ _

theorem exists_of_nonempty (nonempty : word ≠ []) (text : List α) :
    ∃ pieces, SplitsInto word text pieces := by
  induction text using first_match_induction nonempty with
  | absent text absent => exact ⟨[text], .whole absent⟩
  | found before after first induction =>
      obtain ⟨pieces, later⟩ := induction
      exact ⟨before :: pieces, .next (first.splitsFirst after) later⟩

theorem unique {others : List (List α)}
    (splits : SplitsInto word text pieces)
    (other : SplitsInto word text others) : pieces = others := by
  induction splits generalizing others with
  | whole absent =>
      cases other with
      | whole _ => rfl
      | next first _ =>
          rw [first.isText] at absent
          exact absurd (List.infix_append _ _ _) (by
            rwa [List.append_assoc])
  | next first _ induction =>
      cases other with
      | whole absent =>
          rw [first.isText] at absent
          exact absurd (List.infix_append _ _ _) (by
            rwa [List.append_assoc])
      | next otherFirst otherLater =>
          obtain ⟨sameBefore, sameAfter⟩ := first.unique otherFirst
          subst sameBefore sameAfter
          rw [induction otherLater]

end SplitsInto

/-! ### Parts that no match joins -/

/-- No match of the pattern starts in one part and ends in the other. -/
def NoMatchAcross (pattern front back : List α) : Prop :=
  ∀ reach rest, pattern = reach ++ rest → reach ≠ [] → rest ≠ [] →
    reach <:+ front → ¬ rest <+: back

namespace NoMatchAcross

theorem of_suffix (across : NoMatchAcross pattern front back)
    (isSuffix : after <:+ front) : NoMatchAcross pattern after back :=
  fun reach rest isPattern reaches goesOn inAfter =>
    across reach rest isPattern reaches goesOn (inAfter.trans isSuffix)

theorem prefix_of_append (across : NoMatchAcross pattern front back)
    (nonempty : front ≠ []) (isMatch : pattern <+: front ++ back) :
    pattern <+: front := by
  by_cases short : pattern.length ≤ front.length
  · exact List.prefix_of_prefix_length_le isMatch (List.prefix_append _ _) short
  · obtain ⟨rest, isPattern⟩ := List.prefix_of_prefix_length_le
      (List.prefix_append front back) isMatch (Nat.le_of_not_le short)
    have goesOn : rest ≠ [] := by
      intro empty
      rw [empty, List.append_nil] at isPattern
      exact short (isPattern ▸ Nat.le_refl _)
    rw [← isPattern, List.prefix_append_right_inj] at isMatch
    exact absurd isMatch
      (across front rest isPattern.symm nonempty goesOn (List.suffix_refl _))

end NoMatchAcross

theorem ComesFirst.noMatchAcross (first : ComesFirst word before)
    (after : List α) : NoMatchAcross word before (word ++ after) := by
  intro reach rest isWord reaches _ isSuffix isPrefix
  have isMatch : word <+: (reach ++ word) ++ after := by
    rw [List.append_assoc]
    exact (congrArg (· <+: reach ++ (word ++ after)) isWord).mpr
      ((List.prefix_append_right_inj _).mpr isPrefix)
  refine first reach reaches isSuffix (List.prefix_of_prefix_length_le isMatch
    (List.prefix_append _ _) ?_)
  rw [List.length_append]
  exact Nat.le_add_left _ _

variable [DecidableEq α] {replacement : List α}

/-! ### Counting and replacing -/

theorem countFrom_length (skipped : List α) :
    countFrom pattern skipped.length (skipped ++ text) =
      countFrom pattern 0 text := by
  induction skipped with
  | nil => rfl
  | cons head tail induction =>
      rw [List.length_cons, List.cons_append, countFrom, induction]

/-- A match counts once, and the search goes on behind it. -/
theorem count_append (nonempty : pattern ≠ []) :
    count pattern (pattern ++ text) = count pattern text + 1 := by
  cases pattern with
  | nil => exact absurd rfl nonempty
  | cons head tail =>
      have isMatch : (head :: tail).isPrefixOf (head :: (tail ++ text)) =
          true := by
        rw [List.isPrefixOf_iff_prefix, ← List.cons_append]
        exact List.prefix_append _ _
      rw [count, List.cons_append, countFrom, if_pos isMatch,
        List.length_cons, Nat.add_sub_cancel, countFrom_length]
      rfl

theorem count_cons {head : α} (noMatch : ¬ pattern <+: head :: text) :
    count pattern (head :: text) = count pattern text := by
  rw [count, countFrom, if_neg (by
    rwa [List.isPrefixOf_iff_prefix])]
  rfl

theorem count_of_absent (absent : ¬ pattern <:+: text) :
    count pattern text = 0 := by
  induction text with
  | nil => simp [count, countFrom]
  | cons head tail induction =>
      rw [count_cons fun isPrefix => absent isPrefix.isInfix]
      exact induction fun inside =>
        absent (inside.trans (List.suffix_cons _ _).isInfix)

namespace NoMatchAcross

/-- Replacing and counting go on over two parts that no match joins. -/
theorem scan_append (across : NoMatchAcross pattern front back)
    (nonempty : pattern ≠ []) (replacement : List α) :
    replace pattern replacement (front ++ back) =
        replace pattern replacement front ++
          replace pattern replacement back ∧
      count pattern (front ++ back) =
        count pattern front + count pattern back := by
  generalize isLength : front.length = length
  induction length using Nat.strong_induction_on generalizing front with
  | h length induction =>
  by_cases isMatch : pattern <+: front
  · obtain ⟨after, isFront⟩ := isMatch
    have shorter : after.length < length := by
      have positive := List.length_pos_iff.mpr nonempty
      rw [← isLength, ← isFront, List.length_append]
      omega
    obtain ⟨replaced, counted⟩ := induction _ shorter
      (across.of_suffix ⟨pattern, isFront⟩) rfl
    rw [← isFront, List.append_assoc, replace_append nonempty,
      replace_append nonempty, count_append nonempty, count_append nonempty,
      replaced, counted, List.append_assoc]
    exact ⟨rfl, by omega⟩
  · cases front with
    | nil => exact ⟨by simp, by simp [count, countFrom]⟩
    | cons head tail =>
        have noMatch : ¬ pattern <+: head :: (tail ++ back) := fun joined =>
          isMatch (across.prefix_of_append (List.cons_ne_nil _ _) joined)
        have shorter : tail.length < length := by
          rw [← isLength]
          exact Nat.lt_succ_self _
        obtain ⟨replaced, counted⟩ := induction _ shorter
          (across.of_suffix (List.suffix_cons _ _)) rfl
        rw [List.cons_append, replace_cons noMatch, replace_cons isMatch,
          count_cons noMatch, count_cons isMatch, replaced, counted]
        exact ⟨rfl, rfl⟩

theorem count_append (across : NoMatchAcross pattern front back)
    (nonempty : pattern ≠ []) :
    count pattern (front ++ back) =
      count pattern front + count pattern back :=
  (across.scan_append nonempty []).2

end NoMatchAcross

namespace SplitsInto

variable {pieces : List (List α)}

/-- Replacing puts the replacement between the pieces. -/
theorem replace_eq (splits : SplitsInto pattern text pieces)
    (nonempty : pattern ≠ []) (replacement : List α) :
    replace pattern replacement text = replacement.intercalate pieces := by
  induction splits with
  | whole absent => rw [replace_of_absent absent, List.intercalate_singleton]
  | next first later induction =>
      rw [first.isText, replace_first nonempty first.comesFirst, induction,
        List.intercalate_cons_of_ne_nil later.ne_nil, List.append_assoc]

/-- There is one piece more than there are occurrences. -/
theorem count_eq (splits : SplitsInto pattern text pieces)
    (nonempty : pattern ≠ []) : count pattern text + 1 = pieces.length := by
  induction splits with
  | whole absent => rw [count_of_absent absent]; rfl
  | next first later induction =>
      rw [first.isText,
        (first.comesFirst.noMatchAcross _).count_append nonempty,
        count_of_absent (first.comesFirst.not_infix nonempty),
        Text.count_append nonempty, induction, List.length_cons]
      omega

end SplitsInto

theorem count_eq_zero_iff (nonempty : pattern ≠ []) :
    count pattern text = 0 ↔ ¬ pattern <:+: text := by
  obtain ⟨pieces, splits⟩ := SplitsInto.exists_of_nonempty nonempty text
  refine ⟨fun uncounted => ?_, count_of_absent⟩
  have isLength := splits.count_eq nonempty
  cases splits with
  | whole absent => exact absent
  | next first later =>
      have some := List.length_pos_iff.mpr later.ne_nil
      rw [List.length_cons] at isLength
      omega

end PackageRename.Text
