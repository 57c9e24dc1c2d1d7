import Mathlib

/-! # Sorting by a comparison function

A comparison function puts one element before another by returning a negative number.
Nothing else that it returns counts for the order. Its contract says what else it should
return. -/

namespace Chgres

variable {α : Type}

/-- `compar` puts the first element before the second one. -/
def Before (compar : α → α → Int) (first second : α) : Prop := compar first second < 0

instance (compar : α → α → Int) : DecidableRel (Before compar) :=
  fun first second => inferInstanceAs (Decidable (compar first second < 0))

/-- No element of the table is before an earlier one. -/
def InOrder (compar : α → α → Int) (table : List α) : Prop :=
  table.Pairwise fun earlier later => ¬ Before compar later earlier

instance (compar : α → α → Int) (table : List α) : Decidable (InOrder compar table) :=
  inferInstanceAs (Decidable (table.Pairwise _))

/-- A comparison by keys, the greater key first, is one that can be sorted by. -/
theorem before_order_of_keys {Key : Type} [LinearOrder Key] {compar : α → α → Int}
    (key : α → Key) (compares : ∀ first second, Before compar first second ↔
      key second < key first) : IsStrictWeakOrder α (Before compar) where
  irrefl element before := lt_irrefl _ ((compares element element).mp before)
  trans first second third left right := by
    rw [compares] at *
    exact right.trans left
  incomp_trans first second third left right := by
    simp only [compares, not_lt] at *
    exact ⟨left.1.trans right.1, right.2.trans left.2⟩

section Order

variable {compar : α → α → Int}

theorem Before.asymm (order : IsStrictWeakOrder α (Before compar)) {first second : α}
    (before : Before compar first second) : ¬ Before compar second first := fun back =>
  order.irrefl first (order.trans first second first before back)

/-- What is not behind something is not behind what that is not behind. -/
theorem notBefore_trans (order : IsStrictWeakOrder α (Before compar)) {first second third : α}
    (left : ¬ Before compar second first) (right : ¬ Before compar third second) :
    ¬ Before compar third first := by
  intro back
  rcases Decidable.em (Before compar first second) with before | tied
  · exact right (order.trans third first second back before)
  · rcases Decidable.em (Before compar second third) with before | tied'
    · exact left (order.trans second third first before back)
    · exact (order.incomp_trans first second third ⟨tied, left⟩ ⟨tied', right⟩).2 back

end Order

/-! ## The contract of a comparison function -/

/-- The first element is not after the second one. -/
def NotAfter (compar : α → α → Int) (first second : α) : Prop := compar first second ≤ 0

/-- Swapped, the elements compare with the opposite sign, or both times with zero. -/
def Swapped (compar : α → α → Int) (first second : α) : Prop :=
  (compar second first).sign = -(compar first second).sign

/-- What the contract of a comparison function says about three elements. -/
structure Consistent (compar : α → α → Int) (first second third : α) : Prop where
  swapped : Swapped compar first second
  same : compar first first = 0
  trans : NotAfter compar first second → NotAfter compar second third →
    NotAfter compar first third

/-- A comparison function that never finds two elements equal. -/
def NeverEqual (compar : α → α → Int) : Prop :=
  ∀ first second, compar first second = -1 ∨ compar first second = 1

section NeverEqual

variable {compar : α → α → Int} {first second third : α}

theorem NeverEqual.notAfter_iff (never : NeverEqual compar) :
    NotAfter compar first second ↔ Before compar first second := by
  rw [NotAfter, Before]
  rcases never first second with value | value <;> simp [value]

/-- Nothing else than behind is left. -/
theorem NeverEqual.behind (never : NeverEqual compar)
    (notBefore : ¬ Before compar first second) : compar first second = 1 := by
  rw [Before] at notBefore
  rcases never first second with value | value
  · rw [value] at notBefore
    exact absurd (by decide) notBefore
  · exact value

/-- Of two elements that tie, each is told to be behind the other one. -/
theorem NeverEqual.swapped_iff (never : NeverEqual compar)
    (order : IsStrictWeakOrder α (Before compar)) :
    Swapped compar first second ↔ Before compar first second ∨ Before compar second first := by
  have asymm : Before compar first second → ¬ Before compar second first :=
    fun before => before.asymm order
  rw [Before, Before] at *
  rw [Swapped]
  rcases never first second with value | value <;>
    rcases never second first with back | back <;>
    simp [value, back] at asymm ⊢

theorem NeverEqual.trans (never : NeverEqual compar)
    (order : IsStrictWeakOrder α (Before compar)) (left : NotAfter compar first second)
    (right : NotAfter compar second third) : NotAfter compar first third := by
  rw [never.notAfter_iff] at *
  exact order.trans first second third left right

end NeverEqual

/-! ## `qsort` -/

/-- A `qsort` that sorts by every comparison function that it can sort by. -/
structure QSort (α : Type) where
  sort : (compar : α → α → Int) → (table : List α) → List α
  perm : ∀ {compar}, IsStrictWeakOrder α (Before compar) →
    ∀ table, (sort compar table).Perm table
  inOrder : ∀ {compar}, IsStrictWeakOrder α (Before compar) →
    ∀ table, InOrder compar (sort compar table)

/-- A `qsort` that leaves the first element of a table in its place when the table is in
order already. -/
structure SteadyQSort (α : Type) extends QSort α where
  keeps_first : ∀ {compar}, IsStrictWeakOrder α (Before compar) →
    ∀ table, InOrder compar table → (sort compar table).head? = table.head?

namespace QSort

variable (qsort : QSort α) {compar : α → α → Int}

theorem mem_sort (order : IsStrictWeakOrder α (Before compar)) {table : List α} {element : α} :
    element ∈ qsort.sort compar table ↔ element ∈ table :=
  (qsort.perm order table).mem_iff

/-- An element that is before all others comes first. -/
theorem sort_head_of_least (order : IsStrictWeakOrder α (Before compar)) {table : List α}
    {first : α} (member : first ∈ table)
    (least : ∀ element ∈ table, element ≠ first → Before compar first element) :
    (qsort.sort compar table).head? = some first := by
  have sorted := qsort.inOrder order table
  have present : first ∈ qsort.sort compar table := (qsort.mem_sort order).mpr member
  cases result : qsort.sort compar table with
  | nil => rw [result] at present; exact absurd present (by simp)
  | cons head rest =>
      rw [result] at sorted present
      rcases List.mem_cons.mp present with rfl | behind
      · rfl
      · have headMember : head ∈ table := by
          rw [← qsort.mem_sort order, result]
          exact List.mem_cons_self
        have notBefore := List.rel_of_pairwise_cons sorted behind
        by_cases same : head = first
        · rw [same]
          rfl
        · exact absurd (least head headMember same) notBefore

end QSort

/-- The first element of a table is one that a steady `qsort` leaves first. -/
def HeadFirst (compar : α → α → Int) (table : List α) : Prop :=
  InOrder compar table ∨
    ∀ head ∈ table.head?, ∀ other ∈ table, other ≠ head → Before compar head other

theorem SteadyQSort.head_kept (qsort : SteadyQSort α) {compar : α → α → Int}
    (order : IsStrictWeakOrder α (Before compar)) {table : List α}
    (first : HeadFirst compar table) : (qsort.sort compar table).head? = table.head? := by
  rcases first with sorted | least
  · exact qsort.keeps_first order table sorted
  · cases table with
    | nil => exact qsort.keeps_first order [] List.Pairwise.nil
    | cons head table =>
        exact qsort.sort_head_of_least order List.mem_cons_self (least head rfl)

/-! ## Insertion sort -/

/-- Insertion sort, which is stable. -/
def insertionQSort (α : Type) : SteadyQSort α where
  sort compar table := table.insertionSort fun first second => ¬ Before compar second first
  perm _ table := List.perm_insertionSort _ table
  inOrder {compar} order table := by
    have total : Std.Total fun first second : α => ¬ Before compar second first :=
      ⟨fun first second => by
        rcases Decidable.em (Before compar second first) with before | notBefore
        · exact .inr (before.asymm order)
        · exact .inl notBefore⟩
    have trans : IsTrans α fun first second => ¬ Before compar second first :=
      ⟨fun _ _ _ left right => notBefore_trans order left right⟩
    exact List.pairwise_insertionSort _ table
  keeps_first _ table sorted := by
    rw [List.Pairwise.insertionSort_eq sorted]

end Chgres
