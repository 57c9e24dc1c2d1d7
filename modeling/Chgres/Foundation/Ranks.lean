import Mathlib

/-! # Ranks in a list

The elements of a kind are counted along a list. The rank of such an element is the number of
those before it, and leads back to it.
-/

namespace Chgres

variable {α : Type} {holds : α → Bool}

/-- An element of the kind stands at its rank among those of the kind. -/
theorem filter_getElem?_rank (front back : List α) {element : α} (own : holds element = true) :
    ((front ++ element :: back).filter holds)[front.countP holds]? = some element := by
  rw [List.filter_append, List.filter_cons_of_pos own, List.countP_eq_length_filter,
    List.getElem?_append_right (le_refl _), Nat.sub_self]
  rfl

/-- What stands at a rank has that rank. -/
theorem rank_of_filter_getElem? {list : List α} {rank : Nat} {element : α}
    (found : (list.filter holds)[rank]? = some element) :
    holds element = true ∧
      ∃ front back, list = front ++ element :: back ∧ front.countP holds = rank := by
  induction list generalizing rank with
  | nil => exact absurd found (by simp)
  | cons first list induction =>
      by_cases own : holds first = true
      · rw [List.filter_cons_of_pos own] at found
        cases rank with
        | zero =>
            rw [List.getElem?_cons_zero, Option.some.injEq] at found
            subst found
            exact ⟨own, [], list, rfl, rfl⟩
        | succ rank =>
            rw [List.getElem?_cons_succ] at found
            rcases induction found with ⟨holds', front, back, split, count⟩
            refine ⟨holds', first :: front, back, by rw [split, List.cons_append], ?_⟩
            rw [List.countP_cons_of_pos own, count]
      · rw [List.filter_cons_of_neg own] at found
        rcases induction found with ⟨holds', front, back, split, count⟩
        refine ⟨holds', first :: front, back, by rw [split, List.cons_append], ?_⟩
        rw [List.countP_cons_of_neg own, count]

/-- The numbers below a bound, up to one of them. -/
theorem take_finRange {size : Nat} (i : Fin size) :
    ∃ back, List.finRange size = (List.finRange size).take i ++ i :: back ∧
      (List.finRange size).take (i + 1) = (List.finRange size).take i ++ [i] := by
  have bound : i.val < (List.finRange size).length := by
    rw [List.length_finRange]
    exact i.isLt
  have here : (List.finRange size)[i.val] = i := by simp
  refine ⟨(List.finRange size).drop (i + 1), ?_, ?_⟩
  · have rest := List.getElem_cons_drop bound
    rw [here] at rest
    rw [rest, List.take_append_drop]
  · rw [List.take_succ_eq_append_getElem bound, here]

end Chgres
