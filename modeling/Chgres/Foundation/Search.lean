import Mathlib

/-! # First matches in lists

Searching a list for the first element that passes a test, with the parts of
the list before and after it.
-/

namespace Chgres

/-- Split a list at its first element with `test`. -/
def splitFirst {α : Type} (test : α → Prop) [DecidablePred test] :
    List α → Option (List α × α × List α)
  | [] => none
  | value :: rest =>
      if test value then some ([], value, rest)
      else (splitFirst test rest).map fun found => (value :: found.1, found.2)

/-- The match is the first one: what stands before it fails the test. -/
example : splitFirst (fun n => 2 < n) [1, 5, 2, 7] = some ([1], 5, [2, 7]) := by decide

/-- Where only one element passes the test every splitting at a match is the same. -/
theorem split_only {α : Type} {test : α → Prop} {values front front' back back' : List α}
    {found found' : α}
    (split : values = front ++ found :: back) (noneFront : ∀ value ∈ front, ¬test value)
    (noneBack : ∀ value ∈ back, ¬test value) (split' : values = front' ++ found' :: back')
    (holds' : test found') : front = front' ∧ found = found' ∧ back = back' := by
  rw [split] at split'
  rcases List.append_eq_append_iff.mp split' with ⟨gap, left, right⟩ | ⟨gap, left, right⟩
  · cases gap with
    | nil => simp_all
    | cons value gap =>
        have member : found' ∈ back := by simp_all
        exact absurd holds' (noneBack found' member)
  · cases gap with
    | nil => simp_all
    | cons value gap =>
        have member : found' ∈ front := by simp_all
        exact absurd holds' (noneFront found' member)

variable {α : Type} {test : α → Prop} [DecidablePred test]

theorem splitFirst_eq_none {values : List α} :
    splitFirst test values = none ↔ ∀ value ∈ values, ¬test value := by
  induction values with
  | nil => simp [splitFirst]
  | cons value rest induction =>
      by_cases passes : test value
      · simp [splitFirst, passes]
      · simp [splitFirst, passes, induction]

theorem splitFirst_eq_some {values front back : List α} {found : α} :
    splitFirst test values = some (front, found, back) ↔
      values = front ++ found :: back ∧ test found ∧ ∀ value ∈ front, ¬test value := by
  induction values generalizing front with
  | nil => simp [splitFirst]
  | cons value rest induction =>
      by_cases passes : test value
      · cases front with
        | nil => simp +contextual [splitFirst, passes, and_comm, eq_comm]
        | cons first more =>
            simp only [splitFirst, passes, if_true, Option.some.injEq, Prod.mk.injEq,
              List.cons_append, List.cons.injEq, List.mem_cons]
            constructor
            · simp
            · rintro ⟨⟨rfl, _⟩, _, fails⟩
              exact absurd passes (fails value (.inl rfl))
      · cases front with
        | nil =>
            simp only [splitFirst, passes, if_false, Option.map_eq_some_iff]
            constructor
            · rintro ⟨found, _, equal⟩
              simp at equal
            · rintro ⟨equal, holds, _⟩
              simp only [List.nil_append, List.cons.injEq] at equal
              exact absurd (equal.1 ▸ holds) passes
        | cons first more =>
            simp only [splitFirst, passes, if_false, Option.map_eq_some_iff,
              Prod.exists, Prod.mk.injEq, List.cons.injEq, List.cons_append,
              List.mem_cons, forall_eq_or_imp]
            constructor
            · rintro ⟨a, b, c, equal, ⟨rfl, rfl⟩, rfl, rfl⟩
              rcases induction.mp equal with ⟨whole, holds, fails⟩
              exact ⟨⟨rfl, whole⟩, holds, passes, fails⟩
            · rintro ⟨⟨rfl, whole⟩, holds, _, fails⟩
              exact ⟨more, found, back, induction.mpr ⟨whole, holds, fails⟩,
                ⟨rfl, rfl⟩, rfl, rfl⟩

/-- Every list either has no match or splits at its first one. -/
theorem splitFirst_cases (test : α → Prop) [DecidablePred test] (values : List α) :
    (∀ value ∈ values, ¬test value) ∨
      ∃ front found back, values = front ++ found :: back ∧ test found ∧
        ∀ value ∈ front, ¬test value := by
  cases result : splitFirst test values with
  | none => exact .inl (splitFirst_eq_none.mp result)
  | some split =>
      rcases split with ⟨front, found, back⟩
      exact .inr ⟨front, found, back, splitFirst_eq_some.mp result⟩

/-- Behind the only match there is no other. -/
theorem none_behind_only {values front back : List α} {found : α}
    (only : (values.filter fun value => test value).length ≤ 1)
    (split : values = front ++ found :: back) (holds : test found) :
    ∀ value ∈ back, ¬test value := by
  intro value member holdsToo
  have positive : 0 < (back.filter fun value => test value).length := by
    apply List.length_pos_of_mem
    exact List.mem_filter.mpr ⟨member, decide_eq_true holdsToo⟩
  rw [split] at only
  simp only [List.filter_append, List.filter_cons, holds, decide_true, if_true,
    List.length_append, List.length_cons] at only
  omega

/-- Two splittings at a first match are the same. -/
theorem splitFirst_unique {values front front' back back' : List α} {found found' : α}
    (split : values = front ++ found :: back) (holds : test found)
    (fails : ∀ value ∈ front, ¬test value)
    (split' : values = front' ++ found' :: back') (holds' : test found')
    (fails' : ∀ value ∈ front', ¬test value) :
    front = front' ∧ found = found' ∧ back = back' := by
  have left := splitFirst_eq_some.mpr ⟨split, holds, fails⟩
  have right := splitFirst_eq_some.mpr ⟨split', holds', fails'⟩
  rw [left] at right
  simpa using right

end Chgres
