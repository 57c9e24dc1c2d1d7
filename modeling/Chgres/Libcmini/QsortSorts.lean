import Chgres.Libcmini.Qsort

/-! # `qsort` sorts

The partitions leave the smallest element near the start of the table. It ends the scans of the
insertion sort, which would sort any table. Neither the scans nor the stack leave their
bounds.
-/

namespace Chgres.Libcmini

variable {α : Type} {compar : α → α → Int}

/-! ## The scans -/

section Scans

variable {cells : Nat → α} {pivot : α}

/-- A scan upwards ends where there is an element that is not before the pivot. -/
theorem scanUp_done (room : Nat) {left stop : Nat} (lower : left ≤ stop) (bound : stop < left + room)
    (stops : ¬ Before compar (cells stop) pivot) :
    ∃ place, scanUp compar cells pivot room left = .done place ∧ left ≤ place ∧ place ≤ stop ∧
      ¬ Before compar (cells place) pivot ∧
      ∀ i, left ≤ i → i < place → Before compar (cells i) pivot := by
  induction room generalizing left with
  | zero => exact absurd bound (by omega)
  | succ room induction =>
      rw [scanUp]
      by_cases before : Before compar (cells left) pivot
      · have different : left ≠ stop := by
          rintro rfl
          exact stops before
        rcases @induction (left + 1) (by omega) (by omega) with
          ⟨place, ends, first, last, here, between⟩
        refine ⟨place, by rw [if_pos before, ends], by omega, last, here, fun i lower upper => ?_⟩
        rcases Nat.eq_or_lt_of_le lower with rfl | later
        · exact before
        · exact between i later upper
      · exact ⟨left, if_neg before, le_refl _, lower, before, fun i lower upper => by omega⟩

/-- A scan downwards ends where there is an element that the pivot is not before. -/
theorem scanDown_done {right stop : Nat} (upper : stop ≤ right)
    (stops : ¬ Before compar pivot (cells stop)) :
    ∃ place, scanDown compar cells pivot right = .done place ∧ stop ≤ place ∧ place ≤ right ∧
      ¬ Before compar pivot (cells place) ∧
      ∀ i, place < i → i ≤ right → Before compar pivot (cells i) := by
  induction right with
  | zero =>
      have here : stop = 0 := Nat.le_zero.mp upper
      subst here
      exact ⟨0, if_neg stops, le_refl _, le_refl _, stops, fun i lower upper => by omega⟩
  | succ right induction =>
      rw [scanDown]
      by_cases before : Before compar pivot (cells (right + 1))
      · have different : stop ≠ right + 1 := by
          rintro rfl
          exact stops before
        rcases induction (by omega) with ⟨place, ends, first, last, here, between⟩
        refine ⟨place, by rw [if_pos before, ends], first, by omega, here,
          fun i lower upper => ?_⟩
        rcases Nat.eq_or_lt_of_le upper with rfl | earlier
        · exact before
        · exact between i lower (by omega)
      · exact ⟨right + 1, if_neg before, upper, le_refl _, before, fun i lower upper => by omega⟩

end Scans

/-! ## One partition -/

/-- The elements before `left` do not come after the pivot, and those behind `right` do not
come before it. -/
structure Parting (compar : α → α → Int) (cells : Nat → α) (lo hi : Nat) (pivot : α)
    (left right : Nat) : Prop where
  lower : lo < left
  upper : right < hi
  below : ∀ i, lo ≤ i → i < left → ¬ Before compar pivot (cells i)
  above : ∀ i, right < i → i ≤ hi → ¬ Before compar (cells i) pivot

/-- The walls have passed each other and are still inside the partition. -/
structure Parted (compar : α → α → Int) (lo hi : Nat) (pivot : α) (walls : Walls α) : Prop where
  parting : Parting compar walls.cells lo hi pivot walls.left walls.right
  passed : walls.right < walls.left
  leftInside : walls.left ≤ hi
  rightInside : lo ≤ walls.right

/-- Where the scans stop, two elements on the wrong side change places. -/
theorem Parting.swap {cells : Nat → α} {lo hi left right : Nat} {pivot : α}
    (lower : lo < left) (upper : right < hi) (order : left < right)
    (below : ∀ i, lo ≤ i → i < left → ¬ Before compar pivot (cells i))
    (above : ∀ i, right < i → i ≤ hi → ¬ Before compar (cells i) pivot)
    (large : ¬ Before compar (cells left) pivot) (small : ¬ Before compar pivot (cells right)) :
    Parting compar (swapCells cells left right) lo hi pivot (left + 1) (right - 1) where
  lower := by omega
  upper := by omega
  below i first last := by
    rcases Nat.eq_or_lt_of_le (Nat.le_of_lt_succ last) with rfl | earlier
    · rw [swapCells_first]
      exact small
    · rw [swapCells_other cells (by omega) (by omega)]
      exact below i first earlier
  above i first last := by
    by_cases here : i = right
    · subst here
      rw [swapCells_second]
      exact large
    · rw [swapCells_other cells (by omega) here]
      exact above i (by omega) last

section Order

variable (order : IsStrictWeakOrder α (Before compar))
include order

/-- The walls collapse: what is already parted stops each scan on the other side. -/
theorem collapse_done {nel lo hi : Nat} (fuel : Nat) {pivot : α} (walls : Walls α)
    (parting : Parting compar walls.cells lo hi pivot walls.left walls.right)
    (within : hi < nel) (apart : walls.left ≤ walls.right)
    (enough : walls.right < walls.left + fuel) :
    ∃ after, collapse compar nel pivot fuel walls = .done after ∧
      Rearranged (lo + 1) hi walls.cells after.cells ∧ Parted compar lo hi pivot after := by
  induction fuel generalizing walls with
  | zero => exact absurd enough (by omega)
  | succ fuel induction =>
      rcases parting with ⟨lower, upper, below, above⟩
      rcases scanUp_done (nel - walls.left) (by omega : walls.left ≤ walls.right + 1)
        (by omega) (above _ (by omega) (by omega)) with
        ⟨left, upEnds, left_ge, left_le, large, smaller⟩
      rcases scanDown_done (by omega : walls.left - 1 ≤ walls.right)
        (below _ (by omega) (by omega)) with
        ⟨right, downEnds, right_ge, right_le, small, larger⟩
      -- the elements that the scans have passed are on the right side
      have below' : ∀ i, lo ≤ i → i < left → ¬ Before compar pivot (walls.cells i) := by
        intro i first last
        by_cases scanned : walls.left ≤ i
        · exact (smaller i scanned last).asymm order
        · exact below i first (by omega)
      have above' : ∀ i, right < i → i ≤ hi → ¬ Before compar (walls.cells i) pivot := by
        intro i first last
        by_cases scanned : i ≤ walls.right
        · exact (larger i first scanned).asymm order
        · exact above i (by omega) last
      rw [collapse, upEnds, Outcome.done_bind, downEnds, Outcome.done_bind]
      by_cases before : left < right
      · rw [if_pos before]
        have next := Parting.swap (by omega) (by omega) before below' above' large small
        have swapped : Rearranged (lo + 1) hi walls.cells (swapCells walls.cells left right) :=
          swapCells_rearranged _ (by omega) (by omega) (by omega) (by omega)
        by_cases more : left + 1 ≤ right - 1
        · simp only [if_pos more]
          rcases induction ⟨swapCells walls.cells left right, left + 1, right - 1⟩ next more
            (show right - 1 < left + 1 + fuel by omega) with ⟨after, ends, rearranged, parted⟩
          exact ⟨after, ends, swapped.trans rearranged, parted⟩
        · simp only [if_neg more]
          exact ⟨_, rfl, swapped, next, show right - 1 < left + 1 by omega,
            show left + 1 ≤ hi by omega, show lo ≤ right - 1 by omega⟩
      · rw [if_neg before]
        by_cases meet : left = right
        · subst meet
          rw [if_pos rfl]
          refine ⟨_, rfl, Rearranged.refl _ _ _, ⟨?_, ?_, ?_, ?_⟩, ?_, ?_, ?_⟩
          · exact show lo < left + 1 by omega
          · exact show left - 1 < hi by omega
          · intro i first last
            rcases Nat.eq_or_lt_of_le (Nat.le_of_lt_succ last) with rfl | earlier
            · exact small
            · exact below' i first earlier
          · intro i first last
            by_cases here : i = left
            · rw [here]
              exact large
            · exact above' i (by simp only at first; omega) last
          · exact show left - 1 < left + 1 by omega
          · exact show left + 1 ≤ hi by omega
          · exact show lo ≤ left - 1 by omega
        · rw [if_neg meet]
          refine ⟨_, rfl, Rearranged.refl _ _ _, ⟨?_, ?_, below', above'⟩, ?_, ?_, ?_⟩
          · exact show lo < left by omega
          · exact show right < hi by omega
          · exact show right < left by omega
          · exact show left ≤ hi by omega
          · exact show lo ≤ right by omega

/-- The pivot is the median of three elements. -/
theorem medianOfThree_median (cells : Nat → α) {lo mid hi : Nat} (first : lo < mid)
    (last : mid < hi) :
    Rearranged lo hi cells (medianOfThree compar cells lo mid hi) ∧
      ¬ Before compar (medianOfThree compar cells lo mid hi mid)
        (medianOfThree compar cells lo mid hi lo) ∧
      ¬ Before compar (medianOfThree compar cells lo mid hi hi)
        (medianOfThree compar cells lo mid hi mid) := by
  rw [medianOfThree]
  generalize started : (if Before compar (cells mid) (cells lo) then swapCells cells mid lo
    else cells) = cells'
  have first' : Rearranged lo hi cells cells' ∧ ¬ Before compar (cells' mid) (cells' lo) := by
    subst started
    split
    case isTrue before =>
      refine ⟨swapCells_rearranged _ (by omega) (by omega) (by omega) (by omega), ?_⟩
      rw [swapCells_first, swapCells_second]
      exact before.asymm order
    case isFalse notBefore => exact ⟨Rearranged.refl _ _ _, notBefore⟩
  rcases first' with ⟨rearranged, ordered⟩
  clear started
  simp only
  split
  case isFalse notBefore => exact ⟨rearranged, ordered, notBefore⟩
  case isTrue before =>
    have swapped : Rearranged lo hi cells (swapCells cells' mid hi) :=
      rearranged.trans (swapCells_rearranged _ (by omega) (by omega) (by omega) (by omega))
    have low : swapCells cells' mid hi lo = cells' lo :=
      swapCells_other _ (by omega) (by omega)
    split
    case isFalse notBefore =>
      refine ⟨swapped, notBefore, ?_⟩
      rw [swapCells_first, swapCells_second]
      exact before.asymm order
    case isTrue before' =>
      refine ⟨swapped.trans
        (swapCells_rearranged _ (by omega) (by omega) (by omega) (by omega)), ?_, ?_⟩
      · rw [swapCells_first, swapCells_second]
        exact before'.asymm order
      · rw [swapCells_other _ (by omega) (by omega), swapCells_second, swapCells_first, low]
        exact ordered

omit order in
/-- An element that nothing is before stays first. -/
theorem medianOfThree_first (cells : Nat → α) {lo mid hi : Nat} (first : lo < mid) (last : mid < hi)
    (least : ∀ i, lo ≤ i → i ≤ hi → ¬ Before compar (cells i) (cells lo)) :
    medianOfThree compar cells lo mid hi lo = cells lo := by
  have low : swapCells cells mid hi lo = cells lo := swapCells_other _ (by omega) (by omega)
  rw [medianOfThree, if_neg (least mid (by omega) (by omega))]
  simp only
  split
  case isFalse => rfl
  case isTrue =>
    rw [if_neg ?_]
    · exact low
    · rw [swapCells_first, low]
      exact least hi (by omega) (le_refl _)

/-- What a partition leaves: no element behind the right wall is before one up to it. -/
structure Partitioned (compar : α → α → Int) (cells : Nat → α) (lo hi : Nat) (walls : Walls α) :
    Prop where
  rearranged : Rearranged lo hi cells walls.cells
  passed : walls.right < walls.left
  lower : lo < walls.left
  upper : walls.right < hi
  leftInside : walls.left ≤ hi
  rightInside : lo ≤ walls.right
  cut : ∀ i j, lo ≤ i → i ≤ walls.right → walls.right < j → j ≤ hi →
    ¬ Before compar (walls.cells j) (walls.cells i)
  first : (∀ i, lo ≤ i → i ≤ hi → ¬ Before compar (cells i) (cells lo)) →
    walls.cells lo = cells lo

theorem partition_done {nel lo hi : Nat} (cells : Nat → α) (large : lo + maxThresh ≤ hi)
    (within : hi < nel) :
    ∃ walls, partition compar nel cells lo hi = .done walls ∧
      Partitioned compar cells lo hi walls := by
  rw [maxThresh] at large
  rw [partition, if_pos within]
  simp only
  have first : lo < lo + (hi - lo) / 2 := by omega
  have last : lo + (hi - lo) / 2 < hi := by omega
  generalize lo + (hi - lo) / 2 = mid at first last
  rcases medianOfThree_median order cells first last with ⟨median, low, high⟩
  have start := @medianOfThree_first _ compar cells _ _ _ first last
  generalize medianOfThree compar cells lo mid hi = cells' at median low high start
  have parting : Parting compar cells' lo hi (cells' mid) (lo + 1) (hi - 1) := by
    refine ⟨by omega, by omega, fun i lower upper => ?_, fun i lower upper => ?_⟩
    · rw [show i = lo by omega]
      exact low
    · rw [show i = hi by omega]
      exact high
  rcases collapse_done order nel ⟨cells', lo + 1, hi - 1⟩ parting within
    (show lo + 1 ≤ hi - 1 by omega) (show hi - 1 < lo + 1 + nel by omega) with
    ⟨walls, ends, rearranged, parted⟩
  refine ⟨walls, ends, ?_⟩
  rcases parted with ⟨⟨lower, upper, below, above⟩, passed, leftInside, rightInside⟩
  exact {
    rearranged := median.trans (rearranged.widen (Nat.le_succ lo) (le_refl _))
    passed := passed
    lower := lower
    upper := upper
    leftInside := leftInside
    rightInside := rightInside
    cut := fun i j first last first' last' => by
      -- the pivot is between the two
      exact notBefore_trans order (below i first (by omega)) (above j first' last')
    first := fun least => by
      rw [rearranged.outside (by omega)]
      exact start least }

end Order

/-! ## All partitions -/

/-- Nothing behind `edge` is before anything up to it. -/
def Cut (compar : α → α → Int) (nel : Nat) (cells : Nat → α) (edge : Nat) : Prop :=
  ∀ i j, i ≤ edge → edge < j → j < nel → ¬ Before compar (cells j) (cells i)

/-- The start of the table is cut off: it is small, or it is a segment that is still to be
parted. The other segments are behind it. -/
def Fronted (compar : α → α → Int) (nel : Nat) (cells : Nat → α)
    (segments : List (Nat × Nat)) : Prop :=
  ∃ edge < nel, Cut compar nel cells edge ∧ (edge ≤ maxThresh ∨ (0, edge) ∈ segments) ∧
    ∀ segment ∈ segments, segment = (0, edge) ∨ edge < segment.1

/-- No two segments overlap. -/
def Apart (segments : List (Nat × Nat)) : Prop :=
  segments.Pairwise fun left right => left.2 < right.1 ∨ right.2 < left.1

/-- Each segment is at most half as long as what was left when the next one was pushed. -/
def Halves (nel : Nat) : (segments : List (Nat × Nat)) → Prop
  | [] => True
  | (lo, hi) :: segments => (hi - lo + 1) * 2 ^ segments.length ≤ nel ∧ Halves nel segments

/-- A segment that is worth parting. -/
def Large (nel : Nat) (segment : Nat × Nat) : Prop :=
  segment.1 + maxThresh ≤ segment.2 ∧ segment.2 < nel

/-- The partition that is worked on, and those on the stack. -/
structure Pending (compar : α → α → Int) (nel : Nat) (cells : Nat → α)
    (segments : List (Nat × Nat)) : Prop where
  large : ∀ segment ∈ segments, Large nel segment
  fronted : Fronted compar nel cells segments
  apart : Apart segments
  halves : Halves nel segments

/-- How much there is to part. -/
def extent (segments : List (Nat × Nat)) : Nat :=
  (segments.map fun segment => segment.2 - segment.1).sum

section Partitions

variable {nel lo hi : Nat} {cells : Nat → α} {walls : Walls α} {stack : List (Nat × Nat)}

/-- What a partition leaves to be parted. -/
structure Children (lo hi : Nat) (walls : Walls α) (children : List (Nat × Nat)) : Prop where
  parts : ∀ child ∈ children, child = (lo, walls.right) ∨ child = (walls.left, hi)
  keeps : walls.right ≤ lo + maxThresh ∨ (lo, walls.right) ∈ children

/-- The first segment is parted, and what is left of it takes its place. -/
theorem Fronted.step (fronted : Fronted compar nel cells ((lo, hi) :: stack))
    (apart : Apart ((lo, hi) :: stack)) (within : hi < nel)
    (partitioned : Partitioned compar cells lo hi walls) (children : List (Nat × Nat))
    (left : Children lo hi walls children) :
    Fronted compar nel walls.cells (children ++ stack) := by
  rcases fronted with ⟨edge, bound, cut, kept, others⟩
  rcases partitioned with ⟨rearranged, passed, lower, upper, leftInside, rightInside, parts, _⟩
  rcases others _ List.mem_cons_self with isFirst | behind
  · -- the start of the table itself is parted
    cases isFirst
    refine ⟨walls.right, by omega, ?_, ?_, ?_⟩
    · intro i j first last inTable
      by_cases inside : j ≤ hi
      · exact parts i j (Nat.zero_le i) first last inside
      · rcases rearranged.inside (Nat.zero_le i) (by omega : i ≤ hi) with ⟨place, _, upper', same⟩
        rw [same, rearranged.outside (by omega)]
        exact cut place j upper' (by omega) inTable
    · rcases left.keeps with small | member
      · exact .inl (by simpa using small)
      · exact .inr (List.mem_append_left stack member)
    · intro segment member
      rcases List.mem_append.mp member with child | stacked
      · rcases left.parts segment child with rfl | rfl
        · exact .inl rfl
        · exact .inr passed
      · rcases others segment (List.mem_cons_of_mem _ stacked) with rfl | behind
        · have different := List.rel_of_pairwise_cons apart stacked
          simp only at different
          exact absurd different (by omega)
        · exact .inr (by omega)
  · refine ⟨edge, bound, ?_, ?_, ?_⟩
    · simp only at behind
      intro i j first last inTable
      rw [rearranged.outside (by omega : i < lo ∨ hi < i)]
      by_cases away : j < lo ∨ hi < j
      · rw [rearranged.outside away]
        exact cut i j first last inTable
      · rcases rearranged.inside (by omega : lo ≤ j) (by omega) with ⟨place, lower', _, same⟩
        rw [same]
        exact cut i place first (by omega) (by omega)
    · rcases kept with small | member
      · exact .inl small
      · rcases List.mem_cons.mp member with isFirst | stacked
        · cases isFirst
          exact absurd behind (by simp)
        · exact .inr (List.mem_append_right children stacked)
    · intro segment member
      rcases List.mem_append.mp member with child | stacked
      · simp only at behind
        rcases left.parts segment child with rfl | rfl
        · exact .inr behind
        · exact .inr (by simp only; omega)
      · exact others segment (List.mem_cons_of_mem _ stacked)

/-- Two parts of a segment are apart from what the segment was apart from. -/
theorem Apart.step (apart : Apart ((lo, hi) :: stack))
    (partitioned : Partitioned compar cells lo hi walls) {segment : Nat × Nat}
    (part : segment = (lo, walls.right) ∨ segment = (walls.left, hi)) :
    Apart (segment :: stack) := by
  rcases List.pairwise_cons.mp apart with ⟨others, rest⟩
  refine List.pairwise_cons.mpr ⟨fun other member => ?_, rest⟩
  have away := others other member
  have lower := partitioned.lower
  have upper := partitioned.upper
  simp only at away
  rcases part with rfl | rfl
  · simp only
    omega
  · simp only
    omega

theorem Apart.stepBoth (apart : Apart ((lo, hi) :: stack))
    (partitioned : Partitioned compar cells lo hi walls) :
    Apart ((walls.left, hi) :: (lo, walls.right) :: stack) ∧
      Apart ((lo, walls.right) :: (walls.left, hi) :: stack) := by
  have left := apart.step partitioned (.inl rfl)
  have right := apart.step partitioned (.inr rfl)
  have passed := partitioned.passed
  rw [Apart, List.pairwise_cons] at left right
  constructor
  all_goals
    rw [Apart, List.pairwise_cons]
    refine ⟨fun other member => ?_, List.pairwise_cons.mpr (by assumption)⟩
    rcases List.mem_cons.mp member with rfl | member
  · exact .inr passed
  · exact right.1 other member
  · exact .inl passed
  · exact left.1 other member

/-- The shorter part of a segment is at most half of it. -/
theorem Halves.push (halves : Halves nel ((lo, hi) :: stack)) {shorter longer : Nat × Nat}
    (order : shorter.2 - shorter.1 ≤ longer.2 - longer.1)
    (together : shorter.2 - shorter.1 + 1 + (longer.2 - longer.1 + 1) ≤ hi - lo + 1) :
    Halves nel (shorter :: longer :: stack) := by
  rcases halves with ⟨whole, rest⟩
  refine ⟨?_, ?_, rest⟩
  · have double : (shorter.2 - shorter.1 + 1) * 2 ≤ hi - lo + 1 := by omega
    calc (shorter.2 - shorter.1 + 1) * 2 ^ (stack.length + 1)
        = (shorter.2 - shorter.1 + 1) * 2 * 2 ^ stack.length := by ring
      _ ≤ (hi - lo + 1) * 2 ^ stack.length := Nat.mul_le_mul_right _ double
      _ ≤ nel := whole
  · have part : longer.2 - longer.1 + 1 ≤ hi - lo + 1 := by omega
    exact (Nat.mul_le_mul_right _ part).trans whole

theorem Halves.shorten (halves : Halves nel ((lo, hi) :: stack)) {segment : Nat × Nat}
    (part : segment.2 - segment.1 ≤ hi - lo) : Halves nel (segment :: stack) :=
  ⟨(Nat.mul_le_mul_right _ (by omega)).trans halves.1, halves.2⟩

/-- The stack has room for one more segment while the table fits into memory. -/
theorem Halves.room (halves : Halves nel ((lo, hi) :: stack)) (large : lo + maxThresh ≤ hi)
    (fits : nel < 2 ^ 32) : stack.length < stackRoom := by
  have whole := halves.1
  by_contra full
  rw [stackRoom, not_lt] at full
  have power : 2 ^ 31 ≤ 2 ^ stack.length := Nat.pow_le_pow_right (by decide) full
  rw [maxThresh] at large
  have product : 5 * 2 ^ 31 ≤ (hi - lo + 1) * 2 ^ stack.length :=
    Nat.mul_le_mul (by omega) power
  omega

/-- A partition that is left to the insertion sort, or that is parted further. -/
theorem large_of_not_small {first last : Nat} (order : first ≤ last) (notSmall : ¬ Small first last)
    (within : last < nel) : Large nel (first, last) := by
  rw [Small] at notSmall
  refine ⟨?_, within⟩
  simp only
  omega

/-- When nothing is left to be parted, the smallest elements are at the start. -/
def CutSoon (compar : α → α → Int) (nel : Nat) (cells : Nat → α) : Prop :=
  ∃ edge < nel, edge ≤ maxThresh ∧ Cut compar nel cells edge

/-- The first element is one that nothing is before. -/
def Least (compar : α → α → Int) (nel : Nat) (cells : Nat → α) : Prop :=
  ∀ i < nel, ¬ Before compar (cells i) (cells 0)

theorem Partitioned.first_kept (partitioned : Partitioned compar cells lo hi walls)
    (within : hi < nel) (least : Least compar nel cells) : walls.cells 0 = cells 0 := by
  rcases Nat.eq_zero_or_pos lo with rfl | positive
  · exact partitioned.first fun i _ upper => least i (by omega)
  · exact partitioned.rearranged.outside (.inl positive)

theorem Least.kept {before after : Nat → α} {last : Nat} (least : Least compar nel before)
    (rearranged : Rearranged lo last before after) (within : last < nel)
    (first : after 0 = before 0) : Least compar nel after := by
  intro i bound
  rw [first]
  exact rearranged.throughout (fun element => ¬ Before compar element (before 0)) within least
    i bound

/-- What the loop over the partitions does to the table. -/
structure PartedOut (compar : α → α → Int) (nel : Nat) (cells after : Nat → α) : Prop where
  rearranged : Rearranged 0 (nel - 1) cells after
  cutSoon : CutSoon compar nel after
  first : Least compar nel cells → after 0 = cells 0

/-- The loop ends: each partition leaves less to be parted. -/
theorem partitions_done (order : IsStrictWeakOrder α (Before compar)) {fuel : Nat}
    (fits : nel < 2 ^ 32) (pending : Pending compar nel cells ((lo, hi) :: stack))
    (enough : extent ((lo, hi) :: stack) < fuel) :
    ∃ after, partitions compar nel fuel cells lo hi stack = .done after ∧
      PartedOut compar nel cells after := by
  induction fuel generalizing cells lo hi stack with
  | zero => exact absurd enough (Nat.not_lt_zero _)
  | succ fuel induction =>
      rcases pending with ⟨large, fronted, apart, halves⟩
      have own := large _ List.mem_cons_self
      rcases partition_done order cells own.1 own.2 with ⟨walls, ends, partitioned⟩
      have within : hi < nel := own.2
      have wide : lo + maxThresh ≤ hi := own.1
      rw [maxThresh] at wide
      have stacked : ∀ segment ∈ stack, Large nel segment := fun segment member =>
        large segment (List.mem_cons_of_mem _ member)
      rw [extent, List.map_cons, List.sum_cons] at enough
      -- what the rest of the loop does comes after this partition
      have combine : ∀ {lo' hi' : Nat} {stack' : List (Nat × Nat)},
          Pending compar nel walls.cells ((lo', hi') :: stack') →
          extent ((lo', hi') :: stack') < fuel →
          ∃ after, partitions compar nel fuel walls.cells lo' hi' stack' = .done after ∧
            PartedOut compar nel cells after := by
        intro lo' hi' stack' pending' enough'
        rcases induction pending' enough' with ⟨after, ends', rearranged, cutSoon, first⟩
        have here : Rearranged 0 (nel - 1) cells walls.cells :=
          partitioned.rearranged.widen (Nat.zero_le lo) (by omega)
        refine ⟨after, ends', here.trans rearranged, cutSoon, fun least => ?_⟩
        have kept := partitioned.first_kept within least
        rw [first (least.kept here (by omega) kept), kept]
      have passed := partitioned.passed
      have lower := partitioned.lower
      have upper := partitioned.upper
      have leftInside := partitioned.leftInside
      have rightInside := partitioned.rightInside
      have step := fronted.step apart within partitioned
      rw [partitions, ends, Outcome.done_bind]
      by_cases leftSmall : Small lo walls.right
      · have keeps : walls.right ≤ lo + maxThresh := by
          rw [Small] at leftSmall
          omega
        rw [if_pos leftSmall]
        by_cases rightSmall : Small walls.left hi
        · rw [if_pos rightSmall]
          have fronted' := step [] ⟨by simp, .inl keeps⟩
          cases stack with
          | nil =>
              rcases fronted' with ⟨edge, bound, cut, kept, _⟩
              refine ⟨_, rfl, partitioned.rearranged.widen (Nat.zero_le lo) (by omega), ?_,
                partitioned.first_kept within⟩
              exact ⟨edge, bound, by simpa using kept, cut⟩
          | cons segment stack =>
              rw [List.map_cons, List.sum_cons] at enough
              apply combine ⟨stacked, fronted', (List.pairwise_cons.mp apart).2, halves.2⟩
              rw [extent, List.map_cons, List.sum_cons]
              simp only
              omega
        · rw [if_neg rightSmall]
          have own' := large_of_not_small leftInside rightSmall within
          apply combine
          · exact {
              large := List.forall_mem_cons.mpr ⟨own', stacked⟩
              fronted := step [(walls.left, hi)] ⟨by simp, .inl keeps⟩
              apart := apart.step partitioned (.inr rfl)
              halves := halves.shorten (show hi - walls.left ≤ hi - lo by omega) }
          · rw [extent, List.map_cons, List.sum_cons]
            simp only
            omega
      · have ownLeft := large_of_not_small rightInside leftSmall (upper.trans within)
        rw [if_neg leftSmall]
        by_cases rightSmall : Small walls.left hi
        · rw [if_pos rightSmall]
          apply combine
          · exact {
              large := List.forall_mem_cons.mpr ⟨ownLeft, stacked⟩
              fronted := step [(lo, walls.right)] ⟨by simp, .inr (by simp)⟩
              apart := apart.step partitioned (.inl rfl)
              halves := halves.shorten (show walls.right - lo ≤ hi - lo by omega) }
          · rw [extent, List.map_cons, List.sum_cons]
            simp only
            omega
        · have ownRight := large_of_not_small leftInside rightSmall within
          have apartBoth := apart.stepBoth partitioned
          rw [if_neg rightSmall, if_neg (not_le.mpr (halves.room own.1 fits))]
          split
          case isTrue longer =>
            apply combine
            · exact {
                large := List.forall_mem_cons.mpr
                  ⟨ownRight, List.forall_mem_cons.mpr ⟨ownLeft, stacked⟩⟩
                fronted := step [(walls.left, hi), (lo, walls.right)]
                  ⟨by simp, .inr (by simp)⟩
                apart := apartBoth.1
                halves := halves.push (by simp only; omega) (by simp only; omega) }
            · rw [extent, List.map_cons, List.sum_cons, List.map_cons, List.sum_cons]
              simp only
              omega
          case isFalse shorter =>
            apply combine
            · exact {
                large := List.forall_mem_cons.mpr
                  ⟨ownLeft, List.forall_mem_cons.mpr ⟨ownRight, stacked⟩⟩
                fronted := step [(lo, walls.right), (walls.left, hi)]
                  ⟨by simp, .inr (by simp)⟩
                apart := apartBoth.2
                halves := halves.push (by simp only; omega) (by simp only; omega) }
            · rw [extent, List.map_cons, List.sum_cons, List.map_cons, List.sum_cons]
              simp only
              omega

end Partitions

/-! ## The insertion sort -/

section Insertion

variable (order : IsStrictWeakOrder α (Before compar))

/-- The elements of the first `count` places are in order. -/
def SortedTo (compar : α → α → Int) (count : Nat) (cells : Nat → α) : Prop :=
  ∀ i j, i < j → j < count → ¬ Before compar (cells j) (cells i)

include order in
/-- `smallest` finds an element that none of the first ones is before. -/
theorem smallest_least (cells : Nat → α) (thresh : Nat) :
    smallest compar cells thresh ≤ thresh ∧
      ∀ i ≤ thresh, ¬ Before compar (cells i) (cells (smallest compar cells thresh)) := by
  induction thresh with
  | zero =>
      refine ⟨le_refl _, fun i bound => ?_⟩
      rw [Nat.le_zero.mp bound]
      exact order.irrefl (cells 0)
  | succ thresh induction =>
      rcases induction with ⟨bound, least⟩
      rw [smallest] at bound least ⊢
      rw [List.range'_1_concat, List.foldl_append, List.foldl_cons, List.foldl_nil]
      generalize (List.range' 1 thresh).foldl _ 0 = tmp at bound least ⊢
      rw [Nat.add_comm 1 thresh]
      split
      case isTrue before =>
        refine ⟨le_refl _, fun i upper => ?_⟩
        rcases Nat.eq_or_lt_of_le upper with rfl | earlier
        · exact order.irrefl _
        · exact notBefore_trans order (before.asymm order) (least i (by omega))
      case isFalse notBefore =>
        refine ⟨by omega, fun i upper => ?_⟩
        rcases Nat.eq_or_lt_of_le upper with rfl | earlier
        · exact notBefore
        · exact least i (by omega)

/-- The search only leaves the first element for one that is before it. -/
theorem smallest_first (cells : Nat → α) (thresh : Nat)
    (least : ∀ i ≤ thresh, ¬ Before compar (cells i) (cells 0)) :
    smallest compar cells thresh = 0 := by
  induction thresh with
  | zero => rfl
  | succ thresh induction =>
      have before := induction fun i bound => least i (by omega)
      rw [smallest] at before ⊢
      rw [List.range'_1_concat, List.foldl_append, List.foldl_cons, List.foldl_nil, before,
        Nat.add_comm 1 thresh]
      exact if_neg (least (thresh + 1) (le_refl _))

include order in
/-- Inserting an element sorts one place more. The first element stops the search for its
place. -/
theorem insertRun_done {nel run : Nat} {cells : Nat → α} (positive : 0 < run) (within : run < nel)
    (least : Least compar nel cells) (sorted : SortedTo compar run cells) :
    ∃ after, insertRun compar cells run = .done after ∧ Rearranged 1 run cells after ∧
      SortedTo compar (run + 1) after := by
  rcases scanDown_done (Nat.zero_le (run - 1)) (least run within) with
    ⟨tmp, ends, _, tmp_le, stops, passed⟩
  refine ⟨moveDown cells (tmp + 1) run, ?_, ?_, ?_⟩
  · rw [insertRun, ends, Outcome.done_bind]
    split
    case isTrue => rfl
    case isFalse same =>
      rw [not_not] at same
      rw [same, moveDown_self]
  · exact (moveDown_rearranged cells (by omega)).widen (by omega) (le_refl _)
  · intro i j earlier bound
    simp only [moveDown]
    by_cases jHere : j = tmp + 1
    · -- what is before the inserted element is not after it
      rw [if_pos jHere, if_neg (by omega), if_neg (by omega)]
      rcases Nat.eq_or_lt_of_le (by omega : i ≤ tmp) with rfl | less
      · exact stops
      · exact notBefore_trans order (sorted i tmp less (by omega)) stops
    · rw [if_neg jHere]
      by_cases jMoved : tmp + 1 < j ∧ j ≤ run
      · rw [if_pos jMoved]
        by_cases iHere : i = tmp + 1
        · rw [if_pos iHere]
          exact (passed (j - 1) (by omega) (by omega)).asymm order
        · rw [if_neg iHere]
          split
          case isTrue => exact sorted (i - 1) (j - 1) (by omega) (by omega)
          case isFalse => exact sorted i (j - 1) (by omega) (by omega)
      · rw [if_neg jMoved, if_neg (by omega), if_neg (by omega)]
        exact sorted i j earlier (by omega)

include order in
theorem forEach_insertRun {nel : Nat} (count : Nat) {start : Nat} {cells : Nat → α}
    (positive : 0 < start) (within : start + count = nel) (least : Least compar nel cells)
    (sorted : SortedTo compar start cells) :
    ∃ after, Outcome.forEach (insertRun compar) (List.range' start count) cells = .done after ∧
      Rearranged 1 (nel - 1) cells after ∧ SortedTo compar nel after := by
  induction count generalizing start cells with
  | zero =>
      rw [Nat.add_zero] at within
      subst within
      exact ⟨cells, rfl, Rearranged.refl _ _ _, sorted⟩
  | succ count induction =>
      rcases insertRun_done order positive (by omega : start < nel) least sorted with
        ⟨middle, ends, moved, sorted'⟩
      have least' := least.kept moved (by omega) (moved.outside (.inl Nat.zero_lt_one))
      rcases induction (Nat.succ_pos start) (by omega) least' sorted' with
        ⟨after, ends', moved', sorted''⟩
      refine ⟨after, ?_, ?_, sorted''⟩
      · rw [List.range'_succ, Outcome.forEach, ends, Outcome.done_bind, ends']
      · exact (moved.widen (le_refl _) (by omega)).trans moved'

include order in
/-- The smallest of the first elements is the smallest of all. -/
theorem CutSoon.least {nel : Nat} {cells : Nat → α} (cutSoon : CutSoon compar nel cells) :
    ∀ i < nel, ¬ Before compar (cells i)
      (cells (smallest compar cells (min (nel - 1) maxThresh))) := by
  rcases cutSoon with ⟨edge, bound, soon, cut⟩
  rcases smallest_least order cells (min (nel - 1) maxThresh) with ⟨_, least⟩
  generalize smallest compar cells (min (nel - 1) maxThresh) = tmp at least
  intro i inside
  by_cases scanned : i ≤ min (nel - 1) maxThresh
  · exact least i scanned
  · exact notBefore_trans order (least edge (by omega))
      (cut edge i (le_refl _) (by omega) inside)

include order in
theorem insertionSort_done {nel : Nat} {cells : Nat → α} (cutSoon : CutSoon compar nel cells) :
    ∃ after, insertionSort compar nel cells = .done after ∧
      Rearranged 0 (nel - 1) cells after ∧ SortedTo compar nel after ∧
      (Least compar nel cells → after 0 = cells 0) := by
  have positive : 0 < nel := by
    rcases cutSoon with ⟨edge, bound, _⟩
    omega
  have least := cutSoon.least order
  have few := (smallest_least order cells (min (nel - 1) maxThresh)).1
  rw [insertionSort]
  generalize started : (if smallest compar cells (min (nel - 1) maxThresh) ≠ 0 then
    swapCells cells (smallest compar cells (min (nel - 1) maxThresh)) 0 else cells) = cells'
  have start : Rearranged 0 (nel - 1) cells cells' ∧
      cells' 0 = cells (smallest compar cells (min (nel - 1) maxThresh)) := by
    subst started
    split
    case isTrue =>
      exact ⟨swapCells_rearranged _ (by omega) (by omega) (by omega) (by omega),
        swapCells_second _⟩
    case isFalse same =>
      rw [not_not] at same
      exact ⟨Rearranged.refl _ _ _, by rw [same]⟩
  have least' : Least compar nel cells' := by
    intro i inside
    rw [start.2]
    exact start.1.throughout
      (fun element => ¬ Before compar element
        (cells (smallest compar cells (min (nel - 1) maxThresh)))) (by omega) least i inside
  have first : Least compar nel cells → cells' 0 = cells 0 := by
    intro ownLeast
    rw [start.2, smallest_first cells _ fun i bound => ownLeast i (by omega)]
  clear started
  by_cases single : nel = 1
  · subst single
    refine ⟨cells', rfl, start.1, fun i j earlier bound => ?_, first⟩
    omega
  · have sorted : SortedTo compar 2 cells' := by
      intro i j earlier bound
      rw [show i = 0 by omega]
      exact least' j (by omega)
    rcases forEach_insertRun order (nel - 2) (by omega) (by omega) least' sorted with
      ⟨after, ends, moved, sorted'⟩
    refine ⟨after, ends, start.1.trans (moved.widen (Nat.zero_le 1) (le_refl _)), sorted',
      fun ownLeast => ?_⟩
    rw [moved.outside (.inl Nat.zero_lt_one), first ownLeast]

end Insertion

/-! ## The whole function -/

/-- The table as it is read from its cells. -/
theorem map_range_getD (table : List α) (first : α) :
    ((List.range table.length).map fun i => table.getD i first) = table := by
  apply List.ext_getElem
  · simp
  · intro i bound bound'
    simp [List.getD_eq_getElem?_getD, bound']

theorem inOrder_of_sortedTo {nel : Nat} {cells : Nat → α} (sorted : SortedTo compar nel cells) :
    InOrder compar ((List.range nel).map cells) := by
  rw [InOrder, List.pairwise_map, List.pairwise_iff_getElem]
  intro i j boundI boundJ earlier
  rw [List.getElem_range, List.getElem_range]
  rw [List.length_range] at boundJ
  exact sorted i j earlier boundJ

theorem least_of_inOrder (order : IsStrictWeakOrder α (Before compar)) {nel : Nat}
    {cells : Nat → α} (inOrder : InOrder compar ((List.range nel).map cells)) :
    Least compar nel cells := by
  intro i bound
  rw [InOrder, List.pairwise_map, List.pairwise_iff_getElem] at inOrder
  rcases Nat.eq_zero_or_pos i with rfl | positive
  · exact order.irrefl _
  · have ordered := inOrder 0 i (by rw [List.length_range]; omega)
      (by rwa [List.length_range]) positive
    rwa [List.getElem_range, List.getElem_range] at ordered

theorem head_map_range {nel : Nat} (positive : 0 < nel) (cells : Nat → α) :
    ((List.range nel).map cells).head? = some (cells 0) := by
  rcases Nat.exists_eq_succ_of_ne_zero (Nat.ne_of_gt positive) with ⟨count, rfl⟩
  rw [List.range_succ_eq_map]
  rfl

/-- A table is parted from one end to the other, if it is not left to the insertion sort. -/
theorem parted_done (order : IsStrictWeakOrder α (Before compar)) {nel : Nat}
    (positive : 0 < nel) (fits : nel < 2 ^ 32) (cells : Nat → α) :
    ∃ middle,
      (if maxThresh < nel then partitions compar nel nel cells 0 (nel - 1) [] else .done cells) =
        .done middle ∧ PartedOut compar nel cells middle := by
  have untouched : Cut compar nel cells (nel - 1) := fun i j _ above bound => by omega
  split
  case isTrue many =>
    rw [maxThresh] at many
    apply partitions_done order fits
    · exact {
        large := List.forall_mem_singleton.mpr ⟨by rw [maxThresh]; omega, by simp only; omega⟩
        fronted := ⟨nel - 1, by omega, untouched, .inr List.mem_cons_self,
          List.forall_mem_singleton.mpr (.inl rfl)⟩
        apart := List.pairwise_singleton _ _
        halves := ⟨by simp only [List.length_nil, pow_zero, mul_one]; omega, trivial⟩ }
    · rw [extent, List.map_singleton, List.sum_singleton]
      simp only
      omega
  case isFalse few =>
    rw [maxThresh] at few
    exact ⟨cells, rfl, Rearranged.refl _ _ _,
      ⟨nel - 1, by omega, by rw [maxThresh]; omega, untouched⟩, fun _ => rfl⟩

theorem qsort_done (order : IsStrictWeakOrder α (Before compar)) {buffer : Bool} {table : List α}
    (fits : table.length < 2 ^ 32) (ready : maxThresh < table.length → buffer = true) :
    ∃ sorted, qsort compar buffer table = .done sorted ∧ sorted.Perm table ∧
      InOrder compar sorted ∧ (InOrder compar table → sorted.head? = table.head?) := by
  cases table with
  | nil => exact ⟨[], rfl, List.Perm.refl [], List.Pairwise.nil, fun _ => rfl⟩
  | cons first rest =>
      have same := map_range_getD (first :: rest) first
      have positive : 0 < (first :: rest).length := Nat.succ_pos _
      rw [qsort]
      generalize (first :: rest).length = nel at fits ready same positive
      generalize (fun i => (first :: rest).getD i first) = cells at same
      have buffered : (if maxThresh < nel then
          if buffer = true then partitions compar nel nel cells 0 (nel - 1) [] else .wild
        else .done cells) =
          if maxThresh < nel then partitions compar nel nel cells 0 (nel - 1) [] else .done cells := by
        split
        case isTrue many => rw [if_pos (ready many)]
        case isFalse => rfl
      rcases parted_done order positive fits cells with ⟨middle, ends, rearranged, cutSoon, kept⟩
      rcases insertionSort_done order cutSoon with ⟨after, ends', moved, sorted, kept'⟩
      have within : nel - 1 < nel := by omega
      rw [buffered, ends, Outcome.done_bind, ends', Outcome.done_bind, ← same]
      refine ⟨_, rfl, (rearranged.trans moved).perm within, inOrder_of_sortedTo sorted,
        fun inOrder => ?_⟩
      have least := least_of_inOrder order inOrder
      rw [head_map_range positive, head_map_range positive,
        kept' (least.kept rearranged within (kept least)), kept least]

/-- Without a pivot buffer the partitions write to nowhere. -/
theorem qsort_wild (compar : α → α → Int) {table : List α} (many : maxThresh < table.length) :
    qsort compar false table = .wild := by
  cases table with
  | nil => exact absurd many (Nat.not_lt_zero _)
  | cons first rest =>
      rw [qsort]
      simp only [if_pos many, Bool.false_eq_true, if_false, Outcome.wild_bind]

/-- The library's `qsort` sorts by every comparison function that can be sorted by. A table
that does not fit into memory is none that it is given. -/
def libcminiQSort (α : Type) : SteadyQSort α where
  sort compar table :=
    if table.length < 2 ^ 32 then (qsort compar true table).getD table
    else (insertionQSort α).sort compar table
  perm {compar} order table := by
    split
    case isTrue fits =>
      rcases qsort_done order fits fun _ => rfl with ⟨sorted, ends, perm, _⟩
      rw [ends]
      exact perm
    case isFalse => exact (insertionQSort α).perm order table
  inOrder {compar} order table := by
    split
    case isTrue fits =>
      rcases qsort_done order fits fun _ => rfl with ⟨sorted, ends, _, inOrder, _⟩
      rw [ends]
      exact inOrder
    case isFalse => exact (insertionQSort α).inOrder order table
  keeps_first {compar} order table inOrder := by
    split
    case isTrue fits =>
      rcases qsort_done order fits fun _ => rfl with ⟨sorted, ends, _, _, kept⟩
      rw [ends]
      exact kept inOrder
    case isFalse => exact (insertionQSort α).keeps_first order table inOrder

/-- A table of any length that fits into memory comes out sorted by any comparison function
whose negative values order the elements, whatever its other values are. Scans and stack
stay inside their bounds, and the first element of a sorted table stays where it is. -/
theorem qsort_sorts (order : IsStrictWeakOrder α (Before compar)) (buffer : Bool)
    (table : List α) (fits : table.length < 2 ^ 32) :
    ((∃ sorted, qsort compar buffer table = .done sorted) ↔
        buffer = true ∨ table.length ≤ maxThresh) ∧
      ∀ sorted, qsort compar buffer table = .done sorted → sorted.Perm table ∧
        InOrder compar sorted ∧ (InOrder compar table → sorted.head? = table.head?) := by
  by_cases ready : buffer = true ∨ table.length ≤ maxThresh
  · have ready' : maxThresh < table.length → buffer = true := fun many =>
      ready.resolve_right (not_le.mpr many)
    rcases qsort_done order fits ready' with ⟨sorted, ends, result⟩
    refine ⟨iff_of_true ⟨sorted, ends⟩ ready, fun other ends' => ?_⟩
    cases ends.symm.trans ends'
    exact result
  · rw [not_or, Bool.not_eq_true, not_le] at ready
    rw [ready.1, qsort_wild compar ready.2]
    exact ⟨iff_of_false (by simp) (by simp [ready.2]), by simp⟩

/-- Numbers that tie in their tens, which no comparison tells apart. -/
theorem qsort_sorts_sample :
    ∃ sorted, qsort (fun left right : Int => if left / 10 < right / 10 then -1 else 1) true
        [31, 12, 35, 11, 24, 13] = .done sorted ∧
      sorted.Perm [31, 12, 35, 11, 24, 13] ∧
      InOrder (fun left right : Int => if left / 10 < right / 10 then -1 else 1) sorted := by
  have order : IsStrictWeakOrder Int
      (Before fun left right : Int => if left / 10 < right / 10 then -1 else 1) := by
    apply before_order_of_keys fun number : Int => -(number / 10)
    intro left right
    rw [Before]
    split <;> omega
  have sorts := qsort_sorts order true [31, 12, 35, 11, 24, 13] (by decide)
  rcases sorts.1.mpr (.inl rfl) with ⟨sorted, ends⟩
  exact ⟨sorted, ends, (sorts.2 sorted ends).1, (sorts.2 sorted ends).2.1⟩

end Chgres.Libcmini
