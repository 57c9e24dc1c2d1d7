import Chgres.Foundation.Outcome
import Chgres.Foundation.Rearranged
import Chgres.Foundation.Sorter

/-! # `qsort`

The `qsort` of the C library that the program is linked with. Places of the table are counted in
elements, which `SWAP` and the last loop move byte by byte. A comparison outside the
table makes the outcome wild.
-/

namespace Chgres.Libcmini

variable {α : Type}

/-- `MAX_THRESH` -/
def maxThresh : Nat := 4

/-- The entries of `stack` that `PUSH` can fill; the first of the `STACK_SIZE` ones stays
unused. -/
def stackRoom : Nat := 31

variable (compar : α → α → Int)

/-- `while (compar(left_ptr, pivot) < 0) left_ptr += width;` with `room` elements from
`left` to the end of the table. -/
def scanUp (cells : Nat → α) (pivot : α) : (room left : Nat) → Outcome Nat
  | 0, _ => .wild
  | room + 1, left =>
      if Before compar (cells left) pivot then scanUp cells pivot room (left + 1)
      else .done left

/-- `while (compar(pivot, right_ptr) < 0) right_ptr -= width;` -/
def scanDown (cells : Nat → α) (pivot : α) : (right : Nat) → Outcome Nat
  | 0 => if Before compar pivot (cells 0) then .wild else .done 0
  | right + 1 =>
      if Before compar pivot (cells (right + 1)) then scanDown cells pivot right
      else .done (right + 1)

/-- The table and the bounds of its two partitions. -/
structure Walls (α : Type) where
  cells : Nat → α
  left : Nat
  right : Nat

/-- The "collapse the walls" section. -/
def collapse (nel : Nat) (pivot : α) : (fuel : Nat) → (walls : Walls α) → Outcome (Walls α)
  | 0, _ => .wild
  | fuel + 1, walls =>
      (scanUp compar walls.cells pivot (nel - walls.left) walls.left).bind fun left =>
        (scanDown compar walls.cells pivot walls.right).bind fun right =>
          if left < right then
            let next : Walls α := ⟨swapCells walls.cells left right, left + 1, right - 1⟩
            if next.left ≤ next.right then collapse nel pivot fuel next else .done next
          else if left = right then .done ⟨walls.cells, left + 1, right - 1⟩
          else .done ⟨walls.cells, left, right⟩

/-- "Select median value from among LO, MID, and HI." -/
def medianOfThree (cells : Nat → α) (lo mid hi : Nat) : Nat → α :=
  let cells := if Before compar (cells mid) (cells lo) then swapCells cells mid lo else cells
  if Before compar (cells hi) (cells mid) then
    let cells := swapCells cells mid hi
    if Before compar (cells mid) (cells lo) then swapCells cells mid lo else cells
  else cells

/-- One partition: the elements from `lo` to `hi` part around the pivot. -/
def partition (nel : Nat) (cells : Nat → α) (lo hi : Nat) : Outcome (Walls α) :=
  if hi < nel then
    let mid := lo + (hi - lo) / 2
    let cells := medianOfThree compar cells lo mid hi
    collapse compar nel (cells mid) nel ⟨cells, lo + 1, hi - 1⟩
  else .wild

/-- `(size_t) (last - first) <= max_thresh` -/
def Small (first last : Nat) : Prop := first ≤ last ∧ last - first ≤ maxThresh

instance (first last : Nat) : Decidable (Small first last) :=
  inferInstanceAs (Decidable (_ ∧ _))

/-- The loop `while (STACK_NOT_EMPTY)`, with the partition it works on and those on the
stack. -/
def partitions (nel : Nat) : (fuel : Nat) → (cells : Nat → α) → (lo hi : Nat) →
    (stack : List (Nat × Nat)) → Outcome (Nat → α)
  | 0, _, _, _, _ => .wild
  | fuel + 1, cells, lo, hi, stack =>
      (partition compar nel cells lo hi).bind fun walls =>
        if Small lo walls.right then
          if Small walls.left hi then
            match stack with
            | [] => .done walls.cells
            | (lo, hi) :: stack => partitions nel fuel walls.cells lo hi stack
          else partitions nel fuel walls.cells walls.left hi stack
        else if Small walls.left hi then partitions nel fuel walls.cells lo walls.right stack
        else if stackRoom ≤ stack.length then .wild
        else if (walls.right : Int) - lo > (hi : Int) - walls.left then
          partitions nel fuel walls.cells walls.left hi ((lo, walls.right) :: stack)
        else partitions nel fuel walls.cells lo walls.right ((walls.left, hi) :: stack)

/-! ## The insertion sort -/

/-- The place of the smallest element from place 0 to `thresh`. -/
def smallest (cells : Nat → α) (thresh : Nat) : Nat :=
  (List.range' 1 thresh).foldl
    (fun tmp run => if Before compar (cells run) (cells tmp) then run else tmp) 0

/-- The element at `run` is inserted into the elements before it. -/
def insertRun (cells : Nat → α) (run : Nat) : Outcome (Nat → α) :=
  (scanDown compar cells (cells run) (run - 1)).bind fun tmp =>
    .done (if tmp + 1 ≠ run then moveDown cells (tmp + 1) run else cells)

/-- "Insertion sort, running from left-hand-side up to right-hand-side." -/
def insertionSort (nel : Nat) (cells : Nat → α) : Outcome (Nat → α) :=
  let tmp := smallest compar cells (min (nel - 1) maxThresh)
  let cells := if tmp ≠ 0 then swapCells cells tmp 0 else cells
  .forEach (insertRun compar) (List.range' 2 (nel - 2)) cells

/-- `qsort`, given whether `malloc` has a pivot buffer for it. Only the partitions use the
buffer. -/
def qsort (buffer : Bool) (table : List α) : Outcome (List α) :=
  match table with
  | [] => .done []
  | first :: _ =>
      let nel := table.length
      let cells : Nat → α := fun i => table.getD i first
      let parted : Outcome (Nat → α) :=
        if maxThresh < nel then
          if buffer then partitions compar nel nel cells 0 (nel - 1) [] else .wild
        else .done cells
      parted.bind fun cells => (insertionSort compar nel cells).bind fun cells =>
        .done ((List.range nel).map cells)

example : qsort (fun left right : Int => left - right) true [3, 9, 1, 7, 5, 8, 2, 6, 4] =
    .done [1, 2, 3, 4, 5, 6, 7, 8, 9] := by decide +kernel

end Chgres.Libcmini
