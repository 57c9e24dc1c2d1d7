import Mathlib

/-! # Loops over independent slots

A state is seen through slots. A loop body that works on one slot, and leaves the
others as they are, works on each slot of the loop once.
-/

namespace Chgres.Slots

variable {State Slot Value : Type}

/-- `body` works on slot `i` of the state by `work i` and on no other slot. -/
structure Works (view : State → Slot → Value) (body : State → Slot → State)
    (work : Slot → Value → Value) : Prop where
  own : ∀ state i, view (body state i) i = work i (view state i)
  other : ∀ state i j, j ≠ i → view (body state i) j = view state j

variable {view : State → Slot → Value} {body : State → Slot → State}
  {work : Slot → Value → Value}

theorem Works.foldl_absent (works : Works view body work) {slots : List Slot} {i : Slot}
    (absent : i ∉ slots) (state : State) : view (slots.foldl body state) i = view state i := by
  induction slots generalizing state with
  | nil => rfl
  | cons slot slots induction =>
      rw [List.mem_cons, not_or] at absent
      rw [List.foldl_cons, induction absent.2, works.other state slot i absent.1]

theorem Works.foldl (works : Works view body work) {slots : List Slot} (once : slots.Nodup)
    {i : Slot} (member : i ∈ slots) (state : State) :
    view (slots.foldl body state) i = work i (view state i) := by
  induction slots generalizing state with
  | nil => exact absurd member (by simp)
  | cons slot slots induction =>
      rw [List.nodup_cons] at once
      rw [List.foldl_cons]
      rcases List.mem_cons.mp member with rfl | member
      · rw [works.foldl_absent once.1, works.own]
      · have different : i ≠ slot := fun same => once.1 (same ▸ member)
        rw [induction once.2 member, works.other state slot i different]

/-- A view that no body changes is not changed by the loop. -/
theorem foldl_fixed {Seen : Type} (see : State → Seen)
    (fixed : ∀ state i, see (body state i) = see state) (slots : List Slot) (state : State) :
    see (slots.foldl body state) = see state := by
  induction slots generalizing state with
  | nil => rfl
  | cons slot slots induction => rw [List.foldl_cons, induction, fixed]

/-! ## The highest slot of a kind -/

/-- The loop that goes down from the last slot and stops at the first that `holds`. -/
def highest {size : Nat} (holds : Fin size → Bool) : Option (Fin size) :=
  (List.finRange size).reverse.find? holds

theorem highest_eq_none {size : Nat} {holds : Fin size → Bool} :
    highest holds = none ↔ ∀ i, holds i = false := by
  simp [highest]

theorem highest_eq_some {size : Nat} {holds : Fin size → Bool} {i : Fin size} :
    highest holds = some i ↔ holds i = true ∧ ∀ j, i < j → holds j = false := by
  have sorted : (List.finRange size).reverse.Pairwise (· > ·) := by
    rw [List.pairwise_reverse]
    exact List.pairwise_lt_finRange size
  rw [highest, List.find?_eq_some_iff_append]
  constructor
  · rintro ⟨own, above, below, split, others⟩
    refine ⟨own, fun j greater => ?_⟩
    rw [split, List.pairwise_append] at sorted
    have member : j ∈ above ++ i :: below := by
      rw [← split]
      simp
    rcases List.mem_append.mp member with inside | inside
    · simpa using others j inside
    · rcases List.mem_cons.mp inside with rfl | inside
      · exact absurd greater (lt_irrefl _)
      · have smaller := List.rel_of_pairwise_cons sorted.2.1 inside
        exact absurd greater (lt_asymm smaller)
  · rintro ⟨own, others⟩
    have member : i ∈ (List.finRange size).reverse := by simp
    rcases List.append_of_mem member with ⟨above, below, split⟩
    refine ⟨own, above, below, split, fun j inside => ?_⟩
    rw [split, List.pairwise_append] at sorted
    have greater := sorted.2.2 j inside i List.mem_cons_self
    rw [others j greater]
    rfl

/-! ## The cells of a vector -/

variable {α : Type} {size : Nat}

/-- An index that is in range by its type needs no proof. -/
instance cellOfFin : GetElem (Vector α size) (Fin size) α fun _ _ => True where
  getElem cells i _ := cells.get i

@[simp] theorem cell_eq (cells : Vector α size) (i : Fin size) : cells[i] = cells[i.val] := rfl

theorem set_same (cells : Vector α size) (i : Fin size) (value : α) :
    (cells.set i value i.isLt)[i] = value := by
  simp

theorem set_self (cells : Vector α size) (i : Fin size) :
    cells.set i cells[i] i.isLt = cells := by
  simp

theorem set_other (cells : Vector α size) {i j : Fin size} (different : j ≠ i) (value : α) :
    (cells.set i value i.isLt)[j] = cells[j] := by
  have apart : i.val ≠ j.val := fun same => different (Fin.ext same.symm)
  simp [apart]

end Chgres.Slots
