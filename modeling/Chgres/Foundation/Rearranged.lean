import Mathlib

/-! # Rearranging a part of a table

The elements of a table, by their place. A rearrangement of the places from `lo` to `hi`
leaves all other places alone, so that a property of all elements there stays one.
-/

namespace Chgres

variable {α : Type}

/-- `after` holds the elements of `before`, those from `lo` to `hi` in some order. -/
def Rearranged (lo hi : Nat) (before after : Nat → α) : Prop :=
  ∃ places : Equiv.Perm Nat, (∀ i, i < lo ∨ hi < i → places i = i) ∧ after = before ∘ places

namespace Rearranged

variable {lo hi lo' hi' i j : Nat} {before middle after : Nat → α}

theorem refl (lo hi : Nat) (cells : Nat → α) : Rearranged lo hi cells cells :=
  ⟨Equiv.refl Nat, fun _ _ => rfl, rfl⟩

theorem trans (first : Rearranged lo hi before middle) (second : Rearranged lo hi middle after) :
    Rearranged lo hi before after := by
  rcases first with ⟨places, fixed, rfl⟩
  rcases second with ⟨places', fixed', rfl⟩
  refine ⟨places'.trans places, fun i outside => ?_, rfl⟩
  rw [Equiv.trans_apply, fixed' i outside, fixed i outside]

/-- A rearrangement of fewer places is one of more places. -/
theorem widen (rearranged : Rearranged lo hi before after) (lower : lo' ≤ lo) (upper : hi ≤ hi') :
    Rearranged lo' hi' before after := by
  rcases rearranged with ⟨places, fixed, same⟩
  exact ⟨places, fun i outside => fixed i (by omega), same⟩

theorem outside (rearranged : Rearranged lo hi before after) (away : i < lo ∨ hi < i) :
    after i = before i := by
  rcases rearranged with ⟨places, fixed, rfl⟩
  rw [Function.comp_apply, fixed i away]

/-- What is at a place between `lo` and `hi` was at such a place before. -/
theorem inside (rearranged : Rearranged lo hi before after) (lower : lo ≤ i) (upper : i ≤ hi) :
    ∃ place, lo ≤ place ∧ place ≤ hi ∧ after i = before place := by
  rcases rearranged with ⟨places, fixed, rfl⟩
  refine ⟨places i, ?_, ?_, rfl⟩
  all_goals
    by_contra away
    have moved : places (places i) = places i := fixed _ (by omega)
    have stays := places.injective moved
    omega

/-- A property of all elements between `lo` and `hi` is kept. -/
theorem every {Holds : α → Prop} (rearranged : Rearranged lo hi before after)
    (holds : ∀ i, lo ≤ i → i ≤ hi → Holds (before i)) (lower : lo ≤ i) (upper : i ≤ hi) :
    Holds (after i) := by
  rcases rearranged.inside lower upper with ⟨place, lower', upper', same⟩
  rw [same]
  exact holds place lower' upper'

/-- A property of all elements of a table is kept, wherever the table is rearranged. -/
theorem throughout {count : Nat} (rearranged : Rearranged lo hi before after)
    (Holds : α → Prop) (within : hi < count)
    (holds : ∀ i < count, Holds (before i)) : ∀ i < count, Holds (after i) := by
  intro i bound
  by_cases away : i < lo ∨ hi < i
  · rw [rearranged.outside away]
    exact holds i bound
  · exact rearranged.every (fun i _ upper => holds i (by omega)) (by omega) (by omega)

/-- A rearranged table lists the same elements. -/
theorem perm {count : Nat} (rearranged : Rearranged lo hi before after) (within : hi < count) :
    ((List.range count).map after).Perm ((List.range count).map before) := by
  rcases rearranged with ⟨places, fixed, rfl⟩
  rw [← List.map_map]
  apply List.Perm.map
  have keeps : ∀ i, places i < count ↔ i < count := by
    intro i
    constructor
    · intro bound
      by_contra beyond
      rw [fixed i (by omega)] at bound
      exact beyond bound
    · intro bound
      by_contra beyond
      have stays := places.injective (fixed (places i) (by omega))
      omega
  rw [List.perm_ext_iff_of_nodup (List.nodup_range.map places.injective) List.nodup_range]
  intro i
  simp only [List.mem_map, List.mem_range]
  constructor
  · rintro ⟨place, bound, rfl⟩
    exact (keeps place).mpr bound
  · intro bound
    refine ⟨places.symm i, ?_, places.apply_symm_apply i⟩
    rw [← keeps, places.apply_symm_apply]
    exact bound

end Rearranged

/-! ## Two elements change places -/

def swapCells (cells : Nat → α) (first second : Nat) : Nat → α :=
  cells ∘ Equiv.swap first second

section Swap

variable (cells : Nat → α) {first second i : Nat}

@[simp] theorem swapCells_first : swapCells cells first second first = cells second := by
  rw [swapCells, Function.comp_apply, Equiv.swap_apply_left]

@[simp] theorem swapCells_second : swapCells cells first second second = cells first := by
  rw [swapCells, Function.comp_apply, Equiv.swap_apply_right]

theorem swapCells_other (notFirst : i ≠ first) (notSecond : i ≠ second) :
    swapCells cells first second i = cells i := by
  rw [swapCells, Function.comp_apply, Equiv.swap_apply_of_ne_of_ne notFirst notSecond]

theorem swapCells_rearranged {lo hi : Nat} (first_ge : lo ≤ first) (first_le : first ≤ hi)
    (second_ge : lo ≤ second) (second_le : second ≤ hi) :
    Rearranged lo hi cells (swapCells cells first second) :=
  ⟨Equiv.swap first second,
    fun _ away => Equiv.swap_apply_of_ne_of_ne (by omega) (by omega), rfl⟩

end Swap

/-! ## An element moves down to an earlier place -/

/-- The element at `last` moves to the place `first`, and those from there on move up by
one. -/
def moveDown (cells : Nat → α) (first last : Nat) : Nat → α := fun i =>
  if i = first then cells last
  else if first < i ∧ i ≤ last then cells (i - 1)
  else cells i

theorem moveDown_step (cells : Nat → α) {first last : Nat} (within : first ≤ last) :
    moveDown cells first (last + 1) = moveDown (swapCells cells last (last + 1)) first last := by
  funext i
  simp only [moveDown]
  by_cases isFirst : i = first
  · rw [if_pos isFirst, if_pos isFirst, swapCells_first]
  · rw [if_neg isFirst, if_neg isFirst]
    by_cases isLast : i = last + 1
    · subst isLast
      rw [if_pos (by omega), if_neg (by omega), swapCells_second, Nat.add_sub_cancel]
    · by_cases between : first < i ∧ i ≤ last
      · rw [if_pos (by omega), if_pos between, swapCells_other cells (by omega) (by omega)]
      · rw [if_neg (by omega), if_neg between, swapCells_other cells (by omega) (by omega)]

theorem moveDown_self (cells : Nat → α) (place : Nat) : moveDown cells place place = cells := by
  funext i
  simp only [moveDown]
  by_cases here : i = place
  · rw [if_pos here, here]
  · rw [if_neg here, if_neg (by omega)]

theorem moveDown_rearranged (cells : Nat → α) {first last : Nat} (within : first ≤ last) :
    Rearranged first last cells (moveDown cells first last) := by
  induction last, within using Nat.le_induction generalizing cells with
  | base =>
      rw [moveDown_self]
      exact Rearranged.refl _ _ _
  | succ last within induction =>
      rw [moveDown_step cells within]
      apply Rearranged.trans
      · exact swapCells_rearranged cells (by omega) (by omega) (by omega) (le_refl _)
      · exact (induction _).widen (le_refl _) (Nat.le_succ last)

end Chgres
