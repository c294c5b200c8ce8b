import Mathlib.Algebra.GroupWithZero.Nat
import PackageRename.Proofs.Renaming
import PackageRename.Proofs.Text.Splitting

/-!
# Descriptors that have come in

In the bytecode the dotted name is sought in the text that the exchange of the
descriptors has left.  It finds nothing in a new descriptor, nor at its seams,
in any text exactly when no part of the name can stand there.
-/

namespace PackageRename

namespace Text

variable {α : Type} {old fresh word text gap back : List α}

/-- A word is not met where a fresh text takes the place of an old one: it is
not in the fresh text, it does not start where that ends, and behind none of
its fronts in which the old text is not found sooner does it go on as the fresh
text starts. -/
structure KeepsClear (old fresh word : List α) : Prop where
  notWithin : ¬ word <:+: fresh
  notFrom : ∀ shared, shared ≠ [] → shared <:+ fresh → ¬ shared <+: word
  notInto : ∀ reach rest, word = reach ++ rest → rest ≠ [] →
    ComesFirst old reach → ¬ rest <+: fresh ∧ ¬ fresh <+: rest

instance [DecidableEq α] (old fresh word : List α) :
    Decidable (KeepsClear old fresh word) :=
  decidable_of_iff (¬ word <:+: fresh ∧
    (∀ shared ∈ fresh.tails, shared ≠ [] → ¬ shared <+: word) ∧
    ∀ reach ∈ word.inits, word.drop reach.length ≠ [] →
      ComesFirst old reach → ¬ word.drop reach.length <+: fresh ∧
        ¬ fresh <+: word.drop reach.length) (by
      simp only [List.mem_tails, List.mem_inits]
      constructor
      · rintro ⟨notWithin, notFrom, notInto⟩
        refine ⟨notWithin, fun shared some isSuffix =>
          notFrom shared isSuffix some, ?_⟩
        rintro reach rest rfl goesOn first
        have kept := notInto reach (List.prefix_append _ _)
        rw [List.drop_left] at kept
        exact kept goesOn first
      · intro clear
        refine ⟨clear.notWithin, fun shared isSuffix some =>
          clear.notFrom shared some isSuffix, ?_⟩
        rintro reach ⟨rest, rfl⟩ goesOn first
        rw [List.drop_left] at goesOn ⊢
        exact clear.notInto reach rest rfl goesOn first)

namespace KeepsClear

variable (clear : KeepsClear old fresh word)
include clear

theorem noMatchInto (first : ComesFirst old gap) (back : List α) :
    NoMatchAcross word gap (fresh ++ back) := by
  intro reach rest isWord _ goesOn isSuffix isPrefix
  obtain ⟨notAlong, notAround⟩ := clear.notInto reach rest isWord goesOn
    (first.of_suffix isSuffix)
  exact (List.prefix_or_prefix_of_prefix isPrefix
    (List.prefix_append fresh back)).elim notAlong notAround

theorem noMatchFrom (back : List α) : NoMatchAcross word fresh back := by
  intro reach rest isWord reaches _ isSuffix _
  exact clear.notFrom reach reaches isSuffix ⟨rest, isWord.symm⟩

variable [DecidableEq α] {replacement : List α} {pieces : List (List α)}

/-- The search for the word goes on before and behind the fresh text. -/
theorem scan_around (nonempty : word ≠ []) (first : ComesFirst old gap)
    (replacement back : List α) :
    replace word replacement (gap ++ (fresh ++ back)) =
        replace word replacement gap ++
          (fresh ++ replace word replacement back) ∧
      count word (gap ++ (fresh ++ back)) = count word gap + count word back := by
  obtain ⟨replaced, counted⟩ :=
    (clear.noMatchInto first back).scan_append nonempty replacement
  obtain ⟨replacedBehind, countedBehind⟩ :=
    (clear.noMatchFrom back).scan_append nonempty replacement
  rw [replaced, counted, replacedBehind, countedBehind,
    replace_of_absent clear.notWithin, count_of_absent clear.notWithin]
  exact ⟨rfl, by rw [Nat.zero_add]⟩

/-- Between fresh texts the word is sought piece by piece. -/
theorem scan_intercalate (nonempty : word ≠ [])
    (splits : SplitsInto old text pieces) (replacement : List α) :
    replace word replacement (fresh.intercalate pieces) =
        fresh.intercalate (pieces.map (replace word replacement)) ∧
      count word (fresh.intercalate pieces) =
        (pieces.map (count word)).sum := by
  induction splits with
  | whole absent => simp
  | next first later induction =>
      have some := later.ne_nil
      obtain ⟨replaced, counted⟩ := induction
      obtain ⟨replacedHere, countedHere⟩ :=
        clear.scan_around nonempty first.comesFirst replacement
          (fresh.intercalate _)
      rw [List.intercalate_cons_of_ne_nil some, List.append_assoc,
        replacedHere, countedHere, replaced, counted, List.map_cons,
        List.map_cons, List.sum_cons,
        List.intercalate_cons_of_ne_nil (by simpa using some),
        List.append_assoc]
      exact ⟨rfl, rfl⟩

end KeepsClear

/-- A word that is never found but in one of the parts around a fresh text
keeps clear of it. -/
theorem keepsClear_of_untouched (nonempty : word ≠ []) (written : fresh ≠ [])
    (longer : word.length < old.length)
    (untouched : ∀ front back, ComesFirst old front → ¬ old <:+: back →
      ¬ word <:+: front → ¬ word <:+: back →
      ¬ word <:+: front ++ (fresh ++ back)) :
    KeepsClear old fresh word := by
  have isShort : ∀ {whole part : List α}, part.length < whole.length →
      ¬ whole <:+: part := fun shorter inside =>
    Nat.not_le_of_gt shorter inside.length_le
  have wordLength := List.length_pos_iff.mpr nonempty
  have freshLength := List.length_pos_iff.mpr written
  refine ⟨fun within => ?_, fun shared some isSuffix isPrefix => ?_,
    fun reach rest isWord goesOn first => ⟨fun along => ?_, fun around => ?_⟩⟩
  · refine untouched [] [] comesFirst_nil (isShort ?_) (isShort ?_) (isShort ?_)
      ?_
    · exact Nat.lt_trans wordLength longer
    · exact wordLength
    · exact wordLength
    · simpa using within
  · obtain ⟨front, isFresh⟩ := isSuffix
    obtain ⟨rest, isWord⟩ := isPrefix
    have sharedLength := List.length_pos_iff.mpr some
    have isLength := congrArg List.length isWord
    rw [List.length_append] at isLength
    refine untouched [] rest comesFirst_nil (isShort ?_) (isShort ?_)
      (isShort ?_) ⟨front, [], ?_⟩
    · omega
    · exact wordLength
    · omega
    · rw [← isWord, ← isFresh]
      simp
  · obtain ⟨more, isFresh⟩ := along
    have restLength := List.length_pos_iff.mpr goesOn
    have isLength := congrArg List.length isWord
    rw [List.length_append] at isLength
    refine untouched reach [] first (isShort ?_) (isShort ?_) (isShort ?_)
      ⟨[], more, ?_⟩
    · exact Nat.lt_trans wordLength longer
    · omega
    · exact wordLength
    · rw [isWord, ← isFresh]
      simp
  · obtain ⟨more, isRest⟩ := around
    have isLength := congrArg List.length isWord
    rw [← isRest, List.length_append, List.length_append] at isLength
    refine untouched reach more first (isShort ?_) (isShort ?_) (isShort ?_)
      ⟨[], [], ?_⟩
    · omega
    · omega
    · omega
    · rw [isWord, ← isRest]
      simp

end Text

open Text

namespace Renaming

variable {names : Renaming} {text : String}

/-- Every new descriptor comes out of the bytecode substitutions as it went in:
between the places where the old descriptor was found, each gap is what the
dotted substitution alone makes of it, and nothing else is counted. -/
def KeepsInserted (names : Renaming) (text : String) : Prop :=
  ∃ gaps : List String,
    SplitsInto names.source.descriptor.toList text.toList
        (gaps.map String.toList) ∧
      (Substitution.applyAll names.inBytecode text).1 =
        names.target.descriptor.intercalate
          (gaps.map fun gap => (Substitution.applyAll names.inText gap).1) ∧
      (Substitution.applyAll names.inBytecode text).2 + 1 =
        gaps.length +
          (gaps.map fun gap => (Substitution.applyAll names.inText gap).2).sum

theorem toList_intercalate_inText (sourceWritten : names.source.name ≠ "")
    (separator : String) (gaps : List String) :
    (separator.intercalate (gaps.map fun gap =>
        (Substitution.applyAll names.inText gap).1)).toList =
      separator.toList.intercalate ((gaps.map String.toList).map
        (replace names.source.name.toList names.target.name.toList)) := by
  rw [String.toList_intercalate, List.map_map, List.map_map]
  congr 2
  funext gap
  exact (toList_applyAll_inText sourceWritten gap).1

theorem sum_inText (sourceWritten : names.source.name ≠ "")
    (gaps : List String) :
    (gaps.map fun gap => (Substitution.applyAll names.inText gap).2).sum =
      ((gaps.map String.toList).map (count names.source.name.toList)).sum := by
  rw [List.map_map]
  congr 2
  funext gap
  exact (toList_applyAll_inText sourceWritten gap).2

/-- The new descriptors are kept on pieces of a text: the dotted name is
replaced and counted in these, as if there were no descriptors between them. -/
def KeepsPieces (names : Renaming) (pieces : List (List Char)) : Prop :=
  replace names.source.name.toList names.target.name.toList
      (names.target.descriptor.toList.intercalate pieces) =
    names.target.descriptor.toList.intercalate (pieces.map
      (replace names.source.name.toList names.target.name.toList)) ∧
  count names.source.name.toList
      (names.target.descriptor.toList.intercalate pieces) =
    (pieces.map (count names.source.name.toList)).sum

theorem keepsPieces_iff (sourceWritten : names.source.name ≠ "")
    {gaps : List String}
    (splits : SplitsInto names.source.descriptor.toList text.toList
      (gaps.map String.toList)) :
    names.KeepsPieces (gaps.map String.toList) ↔
      (Substitution.applyAll names.inBytecode text).1 =
          names.target.descriptor.intercalate (gaps.map fun gap =>
            (Substitution.applyAll names.inText gap).1) ∧
        (Substitution.applyAll names.inBytecode text).2 + 1 =
          gaps.length + (gaps.map fun gap =>
            (Substitution.applyAll names.inText gap).2).sum := by
  have descriptorWritten := toList_ne_nil (descriptor_ne_empty names.source)
  obtain ⟨replaced, counted⟩ := toList_applyAll_inBytecode sourceWritten text
  have isLength := splits.count_eq descriptorWritten
  rw [List.length_map] at isLength
  rw [← String.toList_inj, replaced, counted,
    toList_intercalate_inText sourceWritten, sum_inText sourceWritten,
    splits.replace_eq descriptorWritten]
  refine and_congr_right fun _ => ?_
  omega

theorem keepsInserted_iff_pieces (sourceWritten : names.source.name ≠ "") :
    names.KeepsInserted text ↔ ∃ pieces,
      SplitsInto names.source.descriptor.toList text.toList pieces ∧
        names.KeepsPieces pieces := by
  constructor
  · rintro ⟨gaps, splits, kept⟩
    exact ⟨gaps.map String.toList, splits,
      (keepsPieces_iff sourceWritten splits).mpr kept⟩
  · rintro ⟨pieces, splits, kept⟩
    have isPieces : (pieces.map String.ofList).map String.toList = pieces := by
      simp [Function.comp_def]
    rw [← isPieces] at splits kept
    exact ⟨pieces.map String.ofList, splits,
      (keepsPieces_iff sourceWritten splits).mp kept⟩

theorem length_descriptor (identifier : Identifier) :
    identifier.descriptor.toList.length = identifier.name.toList.length + 1 := by
  simp [Identifier.descriptor, Identifier.path]

/-- Whatever the text, new descriptors are kept exactly when no part of the old
name can stand in one or at one of its seams. -/
theorem keepsInserted_iff (sourceWritten : names.source.name ≠ "") :
    (∀ text, names.KeepsInserted text) ↔
      KeepsClear names.source.descriptor.toList
        names.target.descriptor.toList names.source.name.toList := by
  have nonempty := toList_ne_nil sourceWritten
  constructor
  · intro kept
    refine keepsClear_of_untouched nonempty
      (toList_ne_nil (descriptor_ne_empty names.target)) ?_ ?_
    · rw [length_descriptor]
      exact Nat.lt_succ_self _
    · intro front back first notBehind notInFront notInBack
      -- a text with one descriptor to exchange, between the two parts
      obtain ⟨pieces, splits, -, counted⟩ :=
        (keepsInserted_iff_pieces sourceWritten).mp (kept (String.ofList
          (front ++ (names.source.descriptor.toList ++ back))))
      rw [String.toList_ofList] at splits
      have isPieces := splits.unique
        (.next (first.splitsFirst back) (.whole notBehind))
      rw [isPieces] at counted
      simp only [List.intercalate_cons_cons, List.intercalate_singleton,
        List.append_assoc, List.map_cons, List.map_nil, List.sum_cons,
        List.sum_nil, count_of_absent notInFront, count_of_absent notInBack]
        at counted
      exact (count_eq_zero_iff nonempty).mp counted
  · intro clear text
    obtain ⟨pieces, splits⟩ := SplitsInto.exists_of_nonempty
      (toList_ne_nil (descriptor_ne_empty names.source)) text.toList
    obtain ⟨replaced, counted⟩ := clear.scan_intercalate nonempty splits
      names.target.name.toList
    exact (keepsInserted_iff_pieces sourceWritten).mpr
      ⟨pieces, splits, replaced, counted⟩

theorem keepsInserted_subpackage :
    "com.app" ≠ "" ∧
      ∀ text, (⟨⟨"com.app"⟩, ⟨"com.app.clone"⟩⟩ :
        Renaming).KeepsInserted text := by
  have sourceWritten : "com.app" ≠ "" := by decide
  exact ⟨sourceWritten, (keepsInserted_iff sourceWritten).mpr
    (by decide +kernel)⟩

/-- A name of one segment that the new name ends in is found again in the
descriptor that has just come in. -/
theorem not_keepsInserted_last_segment :
    ¬ ∀ names : Renaming, names.source.name ≠ "" → names.target.name ≠ "" →
      names.source ≠ names.target → ∀ text, names.KeepsInserted text := by
  intro always
  obtain ⟨pieces, splits, -, counted⟩ :=
    (keepsInserted_iff_pieces (by decide)).mp (always ⟨⟨"app"⟩, ⟨"com.app"⟩⟩
      (by decide) (by decide) (by decide) "Lapp/Main;")
  have isPieces : pieces = [[], "/Main;".toList] :=
    splits.unique (.next
      (splitsFirst_iff.mpr ⟨by decide +kernel, comesFirst_nil⟩)
      (.whole (by decide +kernel)))
  rw [isPieces] at counted
  exact absurd counted (by decide +kernel)

end Renaming

end PackageRename
