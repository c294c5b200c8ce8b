import PackageRename.Proofs.FileUpdate.Contract
import PackageRename.Proofs.Renaming
import PackageRename.Proofs.Text.Splitting

/-!
# Occurrences that are replaced, counted and found

The occurrences of a word that are found from left to right leave gaps in a
text, and there is one way only to split it so.  A list of substitutions puts
its replacements between such gaps, one after the other.  It counts anything at
all exactly when one of the words stands in the text, and so in its bytes, before
the first replacement is made.
-/

namespace PackageRename

open Text

namespace Text

variable {α : Type} {word text : List α} {gaps : List (List α)}

/-- The gaps around the occurrences of a word, read from left to right: each gap
but the last ends where the word is first found from the start of that gap on,
and the word is not in the last one. -/
structure AreGaps (word text : List α) (gaps : List (List α)) : Prop where
  nonempty : gaps ≠ []
  isText : text = word.intercalate gaps
  first : ∀ front gap back, gaps = front ++ gap :: back → back ≠ [] →
    SplitsFirst word (word.intercalate (gap :: back)) gap
      (word.intercalate back)
  last : ∀ gap ∈ gaps.getLast?, ¬ word <:+: gap

theorem AreGaps.splitsInto (areGaps : AreGaps word text gaps) :
    SplitsInto word text gaps := by
  induction gaps generalizing text with
  | nil => exact absurd rfl areGaps.nonempty
  | cons gap back induction =>
      have isText := areGaps.isText
      by_cases atEnd : back = []
      · subst atEnd
        rw [List.intercalate_singleton] at isText
        subst isText
        exact .whole (areGaps.last _ rfl)
      · have first := areGaps.first [] gap back rfl atEnd
        rw [← isText] at first
        refine .next first (induction ⟨atEnd, rfl, ?_, ?_⟩)
        · intro front next rest isBack more
          exact areGaps.first (gap :: front) next rest
            (congrArg (gap :: ·) isBack) more
        · intro last isLast
          apply areGaps.last last
          rw [List.getLast?_cons, Option.mem_def.mp isLast]
          rfl

theorem SplitsInto.areGaps (splits : SplitsInto word text gaps) :
    AreGaps word text gaps := by
  induction splits with
  | whole absent =>
      refine ⟨List.cons_ne_nil _ _, (List.intercalate_singleton ..).symm,
        fun front gap back isGaps more => ?_, fun gap isLast => ?_⟩
      · have isLength := congrArg List.length isGaps
        have positive := List.length_pos_iff.mpr more
        simp only [List.length_append, List.length_cons, List.length_nil]
          at isLength
        omega
      · cases isLast
        exact absent
  | @next text before after pieces first later induction =>
      have isText : text = word.intercalate (before :: pieces) := by
        rw [List.intercalate_cons_of_ne_nil induction.nonempty,
          ← induction.isText, List.append_assoc]
        exact first.isText
      refine ⟨List.cons_ne_nil _ _, isText, fun front gap back isGaps more => ?_,
        fun gap isLast => ?_⟩
      · cases front with
        | nil =>
            obtain ⟨rfl, rfl⟩ := List.cons.inj isGaps
            rw [← isText, ← induction.isText]
            exact first
        | cons head others =>
            exact induction.first others gap back (List.cons.inj isGaps).2 more
      · obtain ⟨last, isPiecesLast⟩ := Option.isSome_iff_exists.mp
          (List.getLast?_isSome.mpr induction.nonempty)
        rw [List.getLast?_cons, isPiecesLast] at isLast
        exact induction.last gap (isPiecesLast.trans isLast)

theorem areGaps_iff : AreGaps word text gaps ↔ SplitsInto word text gaps :=
  ⟨AreGaps.splitsInto, SplitsInto.areGaps⟩

end Text

namespace Substitution

variable {substitution : Substitution} {substitutions : List Substitution}
variable {text : String} {gaps : List String}

/-! ### One replacement after the other -/

/-- The occurrences of a word leave the gaps in the text. -/
def LeavesGaps (word text : String) (gaps : List String) : Prop :=
  AreGaps word.toList text.toList (gaps.map String.toList)

theorem existsUnique_leavesGaps {word : String} (written : word ≠ "")
    (text : String) : ∃! gaps, LeavesGaps word text gaps := by
  obtain ⟨pieces, splits⟩ :=
    SplitsInto.exists_of_nonempty (Renaming.toList_ne_nil written) text.toList
  have isPieces : (pieces.map String.ofList).map String.toList = pieces := by
    simp [Function.comp_def]
  refine ⟨pieces.map String.ofList, areGaps_iff.mpr (isPieces.symm ▸ splits),
    fun others leaves => ?_⟩
  have same := (areGaps_iff.mp leaves).unique splits
  rw [← same, List.map_map]
  simp [Function.comp_def]

/-- Replacing puts the replacement between the gaps, and counting tells how
often. -/
theorem apply_and_count_of_gaps (seeks : substitution.sought ≠ "")
    (leaves : LeavesGaps substitution.sought text gaps) :
    substitution.apply text = substitution.replacement.intercalate gaps ∧
      substitution.count text + 1 = gaps.length := by
  have splits := areGaps_iff.mp leaves
  have nonempty := Renaming.toList_ne_nil seeks
  constructor
  · apply String.toList_injective
    rw [toList_apply seeks, splits.replace_eq nonempty,
      String.toList_intercalate]
  · rw [count, if_neg seeks, splits.count_eq nonempty, List.length_map]

/-- Substitutions made one after the other, each between the gaps that it finds
in the text that the one before has left.  One that seeks nothing is passed
over. -/
inductive Replaces : List Substitution → String → String → Nat → Prop where
  | done (text : String) : Replaces [] text text 0
  | passed {substitution : Substitution} {rest : List Substitution}
      {text final : String} {total : Nat}
      (idle : substitution.sought = "") (later : Replaces rest text final total) :
      Replaces (substitution :: rest) text final total
  | replaced {substitution : Substitution} {rest : List Substitution}
      {text final : String} {gaps : List String} {found total : Nat}
      (seeks : substitution.sought ≠ "")
      (leaves : LeavesGaps substitution.sought text gaps)
      (isFound : gaps.length = found + 1)
      (later : Replaces rest (substitution.replacement.intercalate gaps) final
        total) :
      Replaces (substitution :: rest) text final (found + total)

theorem apply_and_count_of_idle (idle : substitution.sought = "")
    (text : String) :
    substitution.apply text = text ∧ substitution.count text = 0 :=
  ⟨if_pos idle, if_pos idle⟩

theorem applyAll_cons_eq (rest : List Substitution) :
    applyAll (substitution :: rest) text =
      ((applyAll rest (substitution.apply text)).1,
        substitution.count text +
          (applyAll rest (substitution.apply text)).2) := rfl

theorem replaces_applyAll (substitutions : List Substitution) (text : String) :
    Replaces substitutions text (applyAll substitutions text).1
      (applyAll substitutions text).2 := by
  induction substitutions generalizing text with
  | nil => exact .done text
  | cons substitution rest induction =>
      have later := induction (substitution.apply text)
      rw [applyAll_cons_eq]
      by_cases idle : substitution.sought = ""
      · obtain ⟨isText, isZero⟩ := apply_and_count_of_idle idle text
        rw [isText] at later ⊢
        rw [isZero, Nat.zero_add]
        exact .passed idle later
      · obtain ⟨gaps, leaves, -⟩ := existsUnique_leavesGaps idle text
        obtain ⟨isApplied, isCount⟩ := apply_and_count_of_gaps idle leaves
        rw [isApplied] at later ⊢
        exact .replaced idle leaves isCount.symm later

theorem Replaces.eq_applyAll {final : String} {total : Nat}
    (replaces : Replaces substitutions text final total) :
    applyAll substitutions text = (final, total) := by
  induction replaces with
  | done text => rfl
  | passed idle _ induction =>
      obtain ⟨isText, isZero⟩ := apply_and_count_of_idle idle _
      rw [applyAll_cons_eq, isText, isZero, induction, Nat.zero_add]
  | replaced seeks leaves isFound _ induction =>
      obtain ⟨isApplied, isCount⟩ := apply_and_count_of_gaps seeks leaves
      have sameFound := Nat.succ_injective (isCount.trans isFound)
      rw [applyAll_cons_eq, isApplied, induction, sameFound]

/-- A list of substitutions replaces one after the other what each finds from
left to right.  The gaps are determined by the text, and what is counted is what
is replaced. -/
theorem applyAll_replaces (substitutions : List Substitution) (text : String) :
    (∀ final total, applyAll substitutions text = (final, total) ↔
      Replaces substitutions text final total) ∧
    (∀ word, word ≠ "" → ∀ current, ∃! gaps, LeavesGaps word current gaps) ∧
    (∀ substitution : Substitution, substitution.sought ≠ "" →
      ∀ current gaps, LeavesGaps substitution.sought current gaps →
        substitution.apply current =
            substitution.replacement.intercalate gaps ∧
          substitution.count current + 1 = gaps.length) := by
  refine ⟨fun final total => ⟨fun isApplied => ?_, Replaces.eq_applyAll⟩,
    fun word written => existsUnique_leavesGaps written,
    fun substitution seeks current gaps => apply_and_count_of_gaps seeks⟩
  have replaces := replaces_applyAll substitutions text
  rwa [isApplied] at replaces

theorem leavesGaps_overlapping :
    LeavesGaps "é.é" "é.é.é, é.é" ["", ".é, ", ""] :=
  areGaps_iff.mpr
    (.next (splitsFirst_iff.mpr ⟨rfl, comesFirst_nil⟩)
      (.next (splitsFirst_iff.mpr ⟨rfl, by decide⟩) (.whole (by decide))))

/-- Of two occurrences that overlap, the first is replaced and counted. -/
theorem applyAll_replaces_overlapping :
    "é.é" ≠ "" ∧ LeavesGaps "é.é" "é.é.é, é.é" ["", ".é, ", ""] ∧
      Substitution.apply ⟨"é.é", "o"⟩ "é.é.é, é.é" =
        "o".intercalate ["", ".é, ", ""] ∧
      Substitution.count ⟨"é.é", "o"⟩ "é.é.é, é.é" + 1 = 3 := by
  have seeks : "é.é" ≠ "" := by decide
  exact ⟨seeks, leavesGaps_overlapping,
    (applyAll_replaces [⟨"é.é", "o"⟩] "é.é.é, é.é").2.2 ⟨"é.é", "o"⟩ seeks _ _
      leavesGaps_overlapping⟩

/-! ### Whether anything is found -/

theorem count_eq_zero_iff :
    substitution.count text = 0 ↔ substitution.sought = "" ∨
      ¬ substitution.sought.toList <:+: text.toList := by
  rw [count]
  by_cases idle : substitution.sought = ""
  · simp [idle]
  · rw [if_neg idle, Text.count_eq_zero_iff (Renaming.toList_ne_nil idle),
      or_iff_right idle]

/-- Up to the first substitution that finds something the text stays as it is,
so whether there is one is seen in the text itself. -/
theorem count_applyAll_eq_zero_iff :
    (applyAll substitutions text).2 = 0 ↔
      ∀ substitution ∈ substitutions, substitution.count text = 0 := by
  induction substitutions generalizing text with
  | nil => simp
  | cons first rest induction =>
      rw [applyAll, Nat.add_eq_zero_iff, List.forall_mem_cons]
      refine and_congr_right fun absent => ?_
      rw [apply_eq_self_of_count_eq_zero absent, induction]

/-- The bytes of a text are searched with the same answer as the text. -/
theorem any_occursInBytes_iff_counted {bytes : List UInt8}
    (decoded : Utf8.decode? bytes = some text) :
    substitutions.any (·.occursInBytes bytes) = true ↔
      0 < (applyAll substitutions text).2 := by
  rw [any_occursInBytes_iff, Nat.pos_iff_ne_zero, ne_eq,
    count_applyAll_eq_zero_iff, ← Utf8.encode_of_decode? decoded, IsSoughtIn]
  simp only [count_eq_zero_iff, Utf8.encode_infix_iff, not_forall, not_or,
    not_not, exists_prop, ne_eq]

/-- Bytes are searched for just what a text would have replaced in it: a file
that is no text cannot be updated exactly when the search that is counted for a
text finds something in its bytes. -/
theorem occursInBytes_as_counted (substitutions : List Substitution)
    (bytes : List UInt8) :
    (∀ text, Utf8.decode? bytes = some text →
      (substitutions.any (·.occursInBytes bytes) = true ↔
        0 < (applyAll substitutions text).2)) ∧
    (Utf8.decode? bytes = none → ∀ (tree : Tree) (path : Path) strategy,
      tree.contentsAt path = .ok bytes →
      ((updateFile path substitutions strategy tree).answer =
          .error (.undecodable path) ↔
        substitutions.any (·.occursInBytes bytes) = true)) := by
  refine ⟨fun text => any_occursInBytes_iff_counted, ?_⟩
  intro noText tree path strategy isRead
  rw [any_occursInBytes_iff,
    (Tree.updateFile_exits path substitutions strategy tree).undecodable_iff rfl]
  constructor
  · rintro ⟨-, contents, isContents, -, sought⟩
    cases isRead.symm.trans isContents
    exact sought
  · exact fun sought => ⟨rfl, bytes, isRead, noText, sought⟩

/-- A tree with a file that is no text but for the two bytes of a letter. -/
def brokenTree : Tree :=
  (Tree.holding []).edit ⟨[], [(Path.ofString "a",
    .file (0xC3 :: Utf8.encode "ä") File.ownerMode)]⟩

/-- A word that comes in with a replacement is not sought in the bytes, and
neither is the empty one. -/
theorem occursInBytes_as_counted_broken :
    (Utf8.decode? (Utf8.encode "ä") = some "ä" ∧
      ([⟨"", "o"⟩, ⟨"ä", "bc"⟩, ⟨"bc", "d"⟩].any fun substitution =>
          occursInBytes substitution (Utf8.encode "ä")) = true ∧
      0 < (applyAll [⟨"", "o"⟩, ⟨"ä", "bc"⟩, ⟨"bc", "d"⟩] "ä").2) ∧
    (Utf8.decode? (0xC3 :: Utf8.encode "ä") = none ∧
      brokenTree.contentsAt (Path.ofString "a") =
        .ok (0xC3 :: Utf8.encode "ä") ∧
      (updateFile (Path.ofString "a") [⟨"", "o"⟩, ⟨"ä", "bc"⟩, ⟨"bc", "d"⟩]
          .atomic brokenTree).answer =
        .error (.undecodable (Path.ofString "a"))) := by
  have isText := Utf8.decode?_encode "ä"
  have noText : Utf8.decode? (0xC3 :: Utf8.encode "ä") = none := by
    decide +kernel
  have isRead : brokenTree.contentsAt (Path.ofString "a") =
      .ok (0xC3 :: Utf8.encode "ä") := by decide +kernel
  have inText := (occursInBytes_as_counted
    [⟨"", "o"⟩, ⟨"ä", "bc"⟩, ⟨"bc", "d"⟩] _).1 _ isText
  have inBytes := (occursInBytes_as_counted
    [⟨"", "o"⟩, ⟨"ä", "bc"⟩, ⟨"bc", "d"⟩] _).2 noText _ _ .atomic isRead
  refine ⟨⟨isText, ?_, inText.mp ?_⟩, noText, isRead, inBytes.mpr ?_⟩ <;>
    decide +kernel

end Substitution

end PackageRename
