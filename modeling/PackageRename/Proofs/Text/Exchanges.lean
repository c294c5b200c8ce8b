import Mathlib.Data.List.Shortlex
import PackageRename.Proofs.Text.Replacing

/-!
# When exchanges leave a text as it is

Replacements that all turn their pattern into something later in one order turn
every text that they change into a later one.  One after the other they cannot
come back to where they began, so they leave a text as it is only when none of
their patterns is in it.
-/

namespace PackageRename.Text

variable {α : Type}

/-- An order in which a text grows when something in it grows. -/
structure IsExchangeOrder (before : List α → List α → Prop) : Prop where
  irrefl : ∀ text, ¬ before text text
  trans : ∀ {first second third}, before first second → before second third →
    before first third
  within : ∀ {pattern replacement}, before pattern replacement →
    ∀ front back, before (front ++ (pattern ++ back))
      (front ++ (replacement ++ back))

variable {order : List α → List α → Prop}

theorem IsExchangeOrder.flip (exchange : IsExchangeOrder order) :
    IsExchangeOrder fun first second => order second first where
  irrefl := exchange.irrefl
  trans first second := exchange.trans second first
  within grows front back := exchange.within grows front back

/-! ### Texts by length and rank -/

/-- Shorter texts come first, texts of one length go by the rank of what they
are made of. -/
def RanksBelow (rank : α → Nat) (first second : List α) : Prop :=
  List.Shortlex (· < ·) (first.map rank) (second.map rank)

theorem lex_append {first second : List Nat}
    (sameLength : first.length = second.length)
    (below : List.Lex (· < ·) first second) (back : List Nat) :
    List.Lex (· < ·) (first ++ back) (second ++ back) := by
  induction below with
  | nil => cases sameLength
  | cons further induction =>
      exact .cons (induction (Nat.succ.inj sameLength))
  | rel smaller => exact .rel smaller

theorem shortlex_append {first second : List Nat}
    (below : List.Shortlex (· < ·) first second) (back : List Nat) :
    List.Shortlex (· < ·) (first ++ back) (second ++ back) := by
  rcases List.shortlex_def.mp below with shorter | ⟨sameLength, lex⟩
  · apply List.Shortlex.of_length_lt
    rw [List.length_append, List.length_append]
    omega
  · apply List.Shortlex.of_lex
    · rw [List.length_append, List.length_append, sameLength]
    · exact lex_append sameLength lex back

theorem shortlex_trans {first second third : List Nat}
    (below : List.Shortlex (· < ·) first second)
    (further : List.Shortlex (· < ·) second third) :
    List.Shortlex (· < ·) first third := by
  rcases List.shortlex_def.mp below with shorter | ⟨sameLength, lex⟩ <;>
    rcases List.shortlex_def.mp further with alsoShorter | ⟨alsoSame, alsoLex⟩
  · exact .of_length_lt (shorter.trans alsoShorter)
  · exact .of_length_lt (alsoSame ▸ shorter)
  · exact .of_length_lt (sameLength ▸ alsoShorter)
  · refine .of_lex (sameLength.trans alsoSame) ?_
    exact List.lt_trans lex alsoLex

theorem isExchangeOrder_ranksBelow (rank : α → Nat) :
    IsExchangeOrder (RanksBelow rank) where
  irrefl text := irrefl_of (List.Shortlex (· < ·)) (text.map rank)
  trans := shortlex_trans
  within grows front back := by
    simp only [RanksBelow, List.map_append]
    exact (shortlex_append grows (back.map rank)).append_left (front.map rank)

theorem ranksBelow_or_eq_or (rank : α → Nat) (first second : List α) :
    RanksBelow rank first second ∨ first.map rank = second.map rank ∨
      RanksBelow rank second first :=
  trichotomous_of (List.Shortlex (· < ·)) (first.map rank) (second.map rank)

/-! ### Replacements in a row -/

variable [DecidableEq α] {pattern replacement text : List α}

/-- A replacement leaves a text as it is, or makes it grow. -/
theorem grows_replace (exchange : IsExchangeOrder order)
    (nonempty : pattern ≠ []) (grows : order pattern replacement)
    (text : List α) :
    ¬ pattern <:+: text ∧ replace pattern replacement text = text ∨
      order text (replace pattern replacement text) := by
  induction text using first_match_induction nonempty with
  | absent text absent => exact .inl ⟨absent, replace_of_absent absent⟩
  | found front back first induction =>
      right
      rw [replace_first nonempty first]
      have here := exchange.within grows front back
      rcases induction with ⟨-, same⟩ | further
      · rw [same]
        exact here
      · have there := exchange.within further (front ++ replacement) []
        simp only [List.append_nil, List.append_assoc] at there
        exact exchange.trans here there

/-- Replacements one after the other. -/
def replaceAll (exchanges : List (List α × List α)) (text : List α) : List α :=
  exchanges.foldl (fun text exchange => replace exchange.1 exchange.2 text) text

variable {exchanges : List (List α × List α)}

theorem replaceAll_cons (exchange : List α × List α) :
    replaceAll (exchange :: exchanges) text =
      replaceAll exchanges (replace exchange.1 exchange.2 text) := rfl

theorem replaceAll_append (more : List (List α × List α)) :
    replaceAll (exchanges ++ more) text =
      replaceAll more (replaceAll exchanges text) :=
  List.foldl_append

theorem replaceAll_of_absent
    (absent : ∀ exchange ∈ exchanges, ¬ exchange.1 <:+: text) :
    replaceAll exchanges text = text := by
  induction exchanges with
  | nil => rfl
  | cons exchange rest induction =>
      rw [replaceAll_cons,
        replace_of_absent (absent exchange List.mem_cons_self)]
      exact induction fun other member =>
        absent other (List.mem_cons_of_mem _ member)

theorem grows_replaceAll (isOrder : IsExchangeOrder order)
    (written : ∀ exchange ∈ exchanges, exchange.1 ≠ [])
    (grows : ∀ exchange ∈ exchanges, order exchange.1 exchange.2)
    (text : List α) :
    (∀ exchange ∈ exchanges, ¬ exchange.1 <:+: text) ∨
      order text (replaceAll exchanges text) := by
  induction exchanges generalizing text with
  | nil => exact .inl nofun
  | cons exchange rest induction =>
      have goesOn := induction
        (fun other member => written other (List.mem_cons_of_mem _ member))
        (fun other member => grows other (List.mem_cons_of_mem _ member))
        (replace exchange.1 exchange.2 text)
      rw [replaceAll_cons]
      rcases grows_replace isOrder (written exchange List.mem_cons_self)
        (grows exchange List.mem_cons_self) text with ⟨absent, same⟩ | grown
      · rw [same] at goesOn ⊢
        exact goesOn.imp_left fun others => List.forall_mem_cons.mpr
          ⟨absent, others⟩
      · right
        rcases goesOn with absent | grownFurther
        · rwa [replaceAll_of_absent absent]
        · exact isOrder.trans grown grownFurther

/-- Growing replacements leave a text as it is only when they find nothing. -/
theorem replaceAll_eq_self_iff (isOrder : IsExchangeOrder order)
    (written : ∀ exchange ∈ exchanges, exchange.1 ≠ [])
    (grows : ∀ exchange ∈ exchanges, order exchange.1 exchange.2) :
    replaceAll exchanges text = text ↔
      ∀ exchange ∈ exchanges, ¬ exchange.1 <:+: text := by
  constructor
  · intro same
    rcases grows_replaceAll isOrder written grows text with absent | grown
    · exact absent
    · rw [same] at grown
      exact absurd grown (isOrder.irrefl text)
  · exact replaceAll_of_absent

/-- Replacements go on before and behind a word that their matches do not
meet. -/
theorem replaceAll_around {word : List α}
    (written : ∀ exchange ∈ exchanges, exchange.1 ≠ [])
    (separate : ∀ exchange ∈ exchanges, Separate exchange.1 word)
    (front back : List α) :
    replaceAll exchanges (front ++ (word ++ back)) =
      replaceAll exchanges front ++ (word ++ replaceAll exchanges back) := by
  induction exchanges generalizing front back with
  | nil => rfl
  | cons exchange rest induction =>
      simp only [replaceAll_cons]
      rw [(separate exchange List.mem_cons_self).replace_append
        (written exchange List.mem_cons_self)]
      exact induction
        (fun other member => written other (List.mem_cons_of_mem _ member))
        (fun other member => separate other (List.mem_cons_of_mem _ member))
        _ _

end PackageRename.Text
