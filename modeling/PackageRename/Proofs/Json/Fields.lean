import Mathlib.Data.List.Forall2
import PackageRename.Json.Fields
import PackageRename.Proofs.Json.Reading

/-!
# The fields of a written record

A record whose keys differ gives each of its fields back, and it is written
back as it is if its fields are.
-/

namespace PackageRename.Json

variable {members : List (String × Json)}

theorem valuesOf_cons {key name : String} {value : Json}
    {more : List (Option String × Json)} :
    valuesOf ((some key, value) :: more) name =
      if key = name then value :: valuesOf more name
      else valuesOf more name := by
  simp only [valuesOf, List.filterMap_cons, Option.some.injEq]
  split
  · rename_i isNone
    split at isNone
    · cases isNone
    · rename_i differs
      rw [if_neg differs]
  · rename_i found isSome
    split at isSome
    · rename_i same
      cases isSome
      rw [if_pos same]
    · cases isSome

/-- What the members give for one key. -/
def keyed (members : List (String × Json)) : List (Option String × Json) :=
  members.map fun (key, value) => (some key, value)

theorem valuesOf_keyed_of_not_mem {name : String}
    (absent : name ∉ members.map Prod.fst) :
    valuesOf (keyed members) name = [] := by
  induction members with
  | nil => rfl
  | cons member members induction =>
      rw [List.map_cons, List.mem_cons, not_or] at absent
      rw [keyed, List.map_cons, valuesOf_cons, if_neg (Ne.symm absent.1)]
      exact induction absent.2

theorem valuesOf_keyed {key : String} {value : Json}
    (distinct : (members.map Prod.fst).Nodup) (isIn : (key, value) ∈ members) :
    valuesOf (keyed members) key = [value] := by
  induction members with
  | nil => cases isIn
  | cons member members induction =>
      rw [List.map_cons, List.nodup_cons] at distinct
      rw [keyed, List.map_cons, valuesOf_cons]
      cases List.mem_cons.mp isIn with
      | inl isFirst =>
          subst isFirst
          rw [if_pos rfl]
          exact congrArg (value :: ·) (valuesOf_keyed_of_not_mem distinct.1)
      | inr isLater =>
          have isKey : key ∈ members.map Prod.fst :=
            List.mem_map_of_mem isLater
          have differs : member.1 ≠ key := by
            rintro rfl
            exact distinct.1 isKey
          rw [if_neg differs]
          exact induction distinct.2 isLater

/-- Every item of a list is read, and each gives its own result. -/
theorem mapM_eq_some_iff {α β : Type} {read? : α → Option β} {values : List α}
    {results : List β} :
    values.mapM read? = some results ↔
      List.Forall₂ (fun value result => read? value = some result)
        values results := by
  induction values generalizing results with
  | nil => simp [eq_comm]
  | cons first more induction =>
      simp only [List.mapM_cons, List.forall₂_cons_left_iff,
        Option.bind_eq_bind, Option.bind_eq_some_iff, Option.pure_def,
        Option.some.injEq, induction, @eq_comm _ _ results]
      constructor
      · rintro ⟨result, isFirst, later, isLater, isAll⟩
        exact ⟨result, later, isFirst, isLater, isAll⟩
      · rintro ⟨result, later, isFirst, isLater, isAll⟩
        exact ⟨result, isFirst, later, isLater, isAll⟩

theorem isSome_mapM {α β : Type} {read? : α → Option β} {values : List α} :
    (values.mapM read?).isSome ↔ ∀ value ∈ values, (read? value).isSome := by
  induction values with
  | nil => simp
  | cons first more induction =>
      rw [List.forall_mem_cons, ← induction, List.mapM_cons]
      cases read? first <;> cases more.mapM read? <;> simp

/-- A record with distinct keys has its values as the fields it names. -/
theorem fields?_record {form : ArrayForm}
    (distinct : (members.map Prod.fst).Nodup) :
    fields? (members.map Prod.fst) form (record members) =
      some (members.map fun member => some member.2) := by
  have hasKeys : ∀ isMissing : Option String × Json → Bool,
      (∀ key value, isMissing (some key, value) = false) →
      (keyed members).any isMissing = false := by
    intro isMissing named
    simp [keyed, named]
  rw [record, fields?, ← keyed, hasKeys _ fun _ _ => rfl]
  refine mapM_eq_some_iff.mpr ?_
  rw [List.forall₂_map_left_iff, List.forall₂_map_right_iff,
    List.forall₂_same]
  intro member isIn
  rw [valuesOf_keyed distinct isIn]

@[simp]
theorem isWritten_string {text : String} : (string text).IsWritten :=
  .scalar trivial

@[simp]
theorem isWritten_natural {value : Nat} : (natural value).IsWritten :=
  .scalar trivial

@[simp]
theorem isWritten_bool {value : Bool} : (bool value).IsWritten :=
  .scalar trivial

@[simp]
theorem isWritten_null : null.IsWritten :=
  .scalar trivial

theorem isWritten_record (written : ∀ member ∈ members, member.2.IsWritten) :
    (record members).IsWritten := by
  refine .object ?_ ?_
  · intro member isIn
    obtain ⟨_, _, rfl⟩ := List.mem_map.mp isIn
    rfl
  · intro member isIn
    obtain ⟨original, isOriginal, rfl⟩ := List.mem_map.mp isIn
    exact written original isOriginal

theorem isWritten_array {items : List Json}
    (written : ∀ item ∈ items, item.IsWritten) : (array items).IsWritten :=
  .array written

@[simp]
theorem text?_string {text : String} : (string text).text? = some text :=
  rfl

@[simp]
theorem bool?_bool {value : Bool} : (bool value).bool? = some value :=
  rfl

theorem counter?_natural {value : Nat} (small : value ≤ counterLimit) :
    (natural value).counter? = some value :=
  if_pos small

end PackageRename.Json
