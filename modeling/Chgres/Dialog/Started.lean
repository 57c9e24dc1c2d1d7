import Chgres.Dialog.Start

/-! # The lists that `init_res` leaves

`init_res` sorts the best depth's list twice, and keeps its head in `res_tab` from the first
time. With a `qsort` that leaves a sorted list's head alone both agree.
-/

namespace Chgres

variable {Ptr : Type} [Fintype Ptr] [DecidableEq Ptr]

/-- The current mode is among the loaded ones of a depth. -/
def Loaded.HasCurrent (loaded : Loaded Ptr) (currez vmode : Int16) (i : Fin maxDepths) : Prop :=
  ∃ res ∈ loaded.nodes i, isCurrent currez vmode (loaded.pool.mode res) = true

/-- The two sorts of the best depth's list leave it with the same head: the first one has
its memory, or neither has, or the head is in its place anyhow; or the current mode is found,
and the head does not matter. -/
def StartKeeps (memory : SortMemory) (loaded : Loaded Ptr) (currez vmode : Int16) : Prop :=
  ∀ i, bestDepth loaded.possible = some i →
    memory.best = true ∨ memory.each i = false ∨
      HeadFirst loaded.pool.compar (loaded.nodes i) ∨ ∃ j, loaded.HasCurrent currez vmode j

omit [Fintype Ptr] [DecidableEq Ptr] in
theorem holdsCurrent_iff {loaded : Loaded Ptr} {table : Fin maxDepths → List Ptr}
    {currez vmode : Int16} (perm : ∀ i, (table i).Perm (loaded.nodes i)) (i : Fin maxDepths) :
    holdsCurrent loaded currez vmode table i = true ↔ loaded.HasCurrent currez vmode i := by
  rw [holdsCurrent, firstCurrent, List.find?_isSome]
  constructor
  · rintro ⟨res, member, current⟩
    exact ⟨res, (perm i).mem_iff.mp member, current⟩
  · rintro ⟨res, member, current⟩
    exact ⟨res, (perm i).mem_iff.mpr member, current⟩

section CurrentDepth

variable {loaded : Loaded Ptr} {table : Fin maxDepths → List Ptr} {currez vmode : Int16}
  {i : Fin maxDepths}

omit [Fintype Ptr] [DecidableEq Ptr] in
/-- The highest depth with the current mode on its list. -/
theorem currentDepth_some (perm : ∀ i, (table i).Perm (loaded.nodes i))
    (found : Slots.highest (holdsCurrent loaded currez vmode table) = some i) :
    loaded.HasCurrent currez vmode i ∧ ∀ j, i < j → ¬ loaded.HasCurrent currez vmode j := by
  rcases Slots.highest_eq_some.mp found with ⟨holds, above⟩
  refine ⟨(holdsCurrent_iff perm i).mp holds, fun j greater has => ?_⟩
  have here := (holdsCurrent_iff perm j).mpr has
  rw [above j greater] at here
  exact Bool.noConfusion here

omit [Fintype Ptr] [DecidableEq Ptr] in
theorem currentDepth_none (perm : ∀ i, (table i).Perm (loaded.nodes i)) :
    Slots.highest (holdsCurrent loaded currez vmode table) = none ↔
      ∀ i, ¬ loaded.HasCurrent currez vmode i := by
  rw [Slots.highest_eq_none]
  apply forall_congr'
  intro i
  rw [← holdsCurrent_iff perm, Bool.not_eq_true]

omit [Fintype Ptr] [DecidableEq Ptr] in
theorem bestDepth_none (best : bestDepth loaded.possible = none) (i : Fin maxDepths) :
    loaded.nodes i = [] := by
  have empty := Slots.highest_eq_none.mp best i
  rw [Option.isSome_eq_false_iff, Option.isNone_iff_eq_none] at empty
  exact (loaded.holds.none_iff i).mp empty

omit [Fintype Ptr] [DecidableEq Ptr] in
/-- The best depth is the highest one that has modes. -/
theorem bestDepth_some (best : bestDepth loaded.possible = some i) :
    loaded.nodes i ≠ [] ∧ ∀ j, i < j → loaded.nodes j = [] := by
  rcases Slots.highest_eq_some.mp best with ⟨present, above⟩
  constructor
  · intro empty
    rw [(loaded.holds.none_iff i).mpr empty] at present
    exact Bool.noConfusion present
  · intro j greater
    have empty := above j greater
    rw [Option.isSome_eq_false_iff, Option.isNone_iff_eq_none] at empty
    exact (loaded.holds.none_iff j).mp empty

end CurrentDepth

omit [Fintype Ptr] [DecidableEq Ptr] in
theorem finalLists_inOrder (qsort : QSort Ptr) (loaded : Loaded Ptr) (i : Fin maxDepths) :
    InOrder loaded.pool.compar (finalLists qsort .ample loaded i) := by
  rw [finalLists, sortedOn, if_pos (List.mem_finRange i)]
  exact qsort.inOrder loaded.pool.compar_order _

omit [Fintype Ptr] [DecidableEq Ptr] in
theorem finalLists_head (qsort : SteadyQSort Ptr) {memory : SortMemory} {loaded : Loaded Ptr}
    {i : Fin maxDepths} (best : bestDepth loaded.possible = some i)
    (keeps : memory.best = true ∨ memory.each i = false ∨
      HeadFirst loaded.pool.compar (loaded.nodes i)) :
    (finalLists qsort.toQSort memory loaded i).head? =
      (bestSorted qsort.toQSort memory loaded i).head? := by
  rw [finalLists, sortedOn, if_pos (List.mem_finRange i)]
  have order := loaded.pool.compar_order
  cases again : memory.each i with
  | false => rfl
  | true =>
      apply qsort.head_kept order
      rw [bestSorted_best best]
      cases first : memory.best with
      | true => exact .inl (qsort.inOrder order _)
      | false =>
          rw [first, again] at keeps
          rcases keeps with absurd | absurd | headFirst
          · exact Bool.noConfusion absurd
          · exact Bool.noConfusion absurd
          · exact headFirst

/-- `res_tab` is the list of the current depth. -/
theorem initRes_resTab (qsort : SteadyQSort Ptr) {memory : SortMemory} {loaded : Loaded Ptr}
    {currez vmode : Int16} (keeps : StartKeeps memory loaded currez vmode) {s : Globals Ptr}
    (ends : initRes qsort.toQSort memory currez vmode loaded.pool loaded.possible = .done s) :
    s.resTab = s.possible[s.bppIndex] := by
  rcases initRes_done qsort.toQSort memory loaded currez vmode with ⟨s', ends', built, _, last⟩
  cases ends.symm.trans ends'
  rw [built.holds.head_eq]
  cases found : Slots.highest
      (holdsCurrent loaded currez vmode (finalLists qsort.toQSort memory loaded)) with
  | some i =>
      rw [found] at last
      rw [last.2.2, last.2.1]
  | none =>
      rw [found] at last
      have nowhere : ¬ ∃ j, loaded.HasCurrent currez vmode j :=
        not_exists.mpr ((currentDepth_none built.perm).mp found)
      have takes := last.2
      rw [Globals.TakesBest] at takes
      cases best : bestDepth loaded.possible with
      | some i =>
          rw [best] at takes
          rw [takes.1, takes.2, finalLists_head qsort best]
          have given := keeps i best
          tauto
      | none =>
          rw [best] at takes
          have final := built.perm 0
          rw [bestDepth_none best] at final
          rw [takes.1, takes.2, final.eq_nil]
          rfl

omit [Fintype Ptr] [DecidableEq Ptr] in
/-- No loaded mode is selected, so that what is selected was found. -/
theorem selected_iff_first {loaded : Loaded Ptr} {table : Fin maxDepths → List Ptr}
    {currez vmode : Int16} {s : Globals Ptr} (built : s.Built loaded table)
    (selected : ∀ res, (s.pool.mode res).selected = true ↔
      (loaded.pool.mode res).selected = true ∨
        ∃ i, firstCurrent loaded currez vmode (table i) = some res)
    {i : Fin maxDepths} {res : Ptr} (member : res ∈ table i) :
    (s.pool.mode res).selected = true ↔
      firstCurrent loaded currez vmode (table i) = some res := by
  have fresh := (loaded.created i res ((built.perm i).mem_iff.mp member)).selected
  rw [selected, fresh]
  constructor
  · rintro (chosen | ⟨j, first⟩)
    · exact Bool.noConfusion chosen
    · have member' := List.mem_of_find?_eq_some first
      by_cases same : j = i
      · rw [← same]
        exact first
      · exact absurd member (built.holds.apart j i same res member')
  · exact fun first => .inr ⟨i, first⟩

/-- With memory available, whatever lists there are and whatever the current mode is: the
lists are sorted; `res_tab` is the list of the current depth; the highest depth that has the
current mode is taken, and in each list its first occurrence is selected and nothing else;
and without the current mode nothing is selected, and the highest depth that has modes is
taken. -/
theorem initRes_selects (qsort : SteadyQSort Ptr) (loaded : Loaded Ptr) (currez vmode : Int16) :
    ∃ s table,
      initRes qsort.toQSort .ample currez vmode loaded.pool loaded.possible = .done s ∧
      s.Built loaded table ∧
      (∀ i, InOrder s.pool.compar (table i)) ∧
      s.resTab = s.possible[s.bppIndex] ∧
      (∀ i, ∀ res ∈ table i, (s.pool.mode res).selected = true ↔
        firstCurrent loaded currez vmode (table i) = some res) ∧
      ((∃ i, loaded.HasCurrent currez vmode i) →
        loaded.HasCurrent currez vmode s.bppIndex ∧
          (∀ j, s.bppIndex < j → ¬ loaded.HasCurrent currez vmode j) ∧
          ∃ res, s.curRes = some res ∧
            firstCurrent loaded currez vmode (table s.bppIndex) = some res) ∧
      ((∀ i, ¬ loaded.HasCurrent currez vmode i) →
        s.curRes = none ∧ (∀ i, ∀ res ∈ table i, (s.pool.mode res).selected = false) ∧
          ((∃ i, loaded.nodes i ≠ []) → loaded.nodes s.bppIndex ≠ [] ∧
            ∀ j, s.bppIndex < j → loaded.nodes j = [])) := by
  rcases initRes_done qsort.toQSort .ample loaded currez vmode with
    ⟨s, ends, built, selected, last⟩
  have own := fun i res => @selected_iff_first _ _ _ _ _ _ built selected i res
  refine ⟨s, finalLists qsort.toQSort .ample loaded, ends, built, ?_,
    initRes_resTab qsort (fun _ _ => .inl rfl) ends, own, ?_, ?_⟩
  · intro i
    rw [built.modes.compar_eq]
    exact finalLists_inOrder qsort.toQSort loaded i
  · rintro ⟨i, has⟩
    cases found : Slots.highest
        (holdsCurrent loaded currez vmode (finalLists qsort.toQSort .ample loaded)) with
    | none => exact absurd has ((currentDepth_none built.perm).mp found i)
    | some i =>
        rw [found] at last
        rcases currentDepth_some built.perm found with ⟨here, above⟩
        rcases Option.isSome_iff_exists.mp (Slots.highest_eq_some.mp found).1 with ⟨res, first⟩
        rw [last.2.1]
        exact ⟨here, above, res, last.1.trans first, first⟩
  · intro nowhere
    have nothing := (currentDepth_none built.perm).mpr nowhere
    rw [nothing] at last
    refine ⟨last.1, ?_, ?_⟩
    · intro i res member
      rw [Bool.eq_false_iff]
      intro chosen
      have holds := Slots.highest_eq_none.mp nothing i
      rw [holdsCurrent, (own i res member).mp chosen] at holds
      exact Bool.noConfusion holds
    · rintro ⟨i, present⟩
      have takes := last.2
      rw [Globals.TakesBest] at takes
      cases best : bestDepth loaded.possible with
      | none => exact absurd (bestDepth_none best i) present
      | some j =>
          rw [best] at takes
          rw [takes.1]
          exact bestDepth_some best

/-! ## A start -/

/-- A TT with a colour monitor, in the low resolution of an ST. -/
def ttVideo : Video where
  vdo := 2
  rez := 0
  ttShiftMode := 0
  monitor := 1
  videlMode := 0

def ttLists : ModeLists := (initresHardware 0 ttVideo noModes).lists

def ttLoaded : Loaded (Place ttLists) :=
  .ofLists ttLists ((initresHardware_every 0 ttVideo noModes_every).weaken
    fun _ => Res.OfShifter.created)

def ttSort : SteadyQSort (Place ttLists) := insertionQSort _

def ttStart : Outcome (Globals (Place ttLists)) :=
  initRes ttSort.toQSort .ample 2 0 ttLoaded.pool ttLoaded.possible

theorem ttStart_isDone : ttStart.isDone = true := by decide +kernel

def ttGlobals : Globals (Place ttLists) :=
  ttStart.getD ⟨ttLoaded.pool, ttLoaded.possible, 0, none, none⟩

end Chgres
