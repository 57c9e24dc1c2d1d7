import Chgres.Dialog.Controls

/-! # The mode lists during the dialog

`show_info` sorts the list of `res_tab` and keeps the new head in `res_tab` alone. As long
as the head stays what it was, `possible_resolutions` still leads to every list.
-/

namespace Chgres

variable {Ptr : Type} [Fintype Ptr] [DecidableEq Ptr]

/-- The lists are all there, and the list that is shown is the one of its depth. -/
structure Intact (qsort : QSort Ptr) (loaded : Loaded Ptr) (s : Dialog Ptr) : Prop where
  shown : s.resTab = s.possible[s.bppIndex]
  reached : ∀ i : Fin maxDepths, ∃ nodes,
    Chain s.pool.next s.possible[i] nodes ∧ nodes.Perm (loaded.nodes i)
  /-- A change of the depth and the way back lead to the same list, with the same modes in
  it and the same mode selected. -/
  comesBack : ∀ there back away again, hdlObj qsort (.colors there) s = .done away →
    away.bppIndex ≠ s.bppIndex → hdlObj qsort (.colors back) away = .done again →
    again.bppIndex = s.bppIndex →
      again.pool = s.pool ∧ again.resTab = s.resTab ∧
        ∃ nodes, Chain s.pool.next s.resTab nodes ∧ again.curRes = selectedItem s.pool nodes

/-- The head of the list is still in its place once the virtual size of the current mode is
changed, or the table for sorting is not there. -/
def KeepsHead (s : Dialog Ptr) : Event Ptr → Prop
  | .info (some (virtHres, virtVres)) mallocSucceeds =>
      mallocSucceeds = true → ∀ res, s.curRes = some res →
        ∀ nodes, Chain s.pool.next s.resTab nodes →
          HeadFirst (s.pool.edit res virtHres virtVres).compar nodes
  | _ => True

/-! ## The invariant -/

/-- The heads lead to all lists, whatever their order. -/
structure ListsHeld (loaded : Loaded Ptr) (s : Dialog Ptr) (table : Fin maxDepths → List Ptr) :
    Prop where
  holds : HoldsLists s.pool s.possible table
  perm : ∀ i, (table i).Perm (loaded.nodes i)
  shown : s.resTab = s.possible[s.bppIndex]

section Steps

variable {loaded : Loaded Ptr} {s after : Dialog Ptr} {table : Fin maxDepths → List Ptr}

theorem ListsHeld.listBox (held : ListsHeld loaded s table) {click : LboxDo Ptr}
    (result : lboxDo click s = .done after) : ListsHeld loaded after table := by
  rw [lboxDo] at result
  split at result
  · exact absurd result (by simp)
  case h_2 nodes _ =>
    rcases foldl_selectItem_eq click.calls
      { s with pool := s.pool.reselect nodes click.selected } with ⟨ok, info, curRes, called⟩
    simp only [called] at result
    cases result
    exact ⟨held.holds.with_mode _, held.perm, held.shown⟩

omit [DecidableEq Ptr] in
theorem ListsHeld.colors (held : ListsHeld loaded s table) {index : Int}
    (result : changeDepth index s = .done after) : ListsHeld loaded after table := by
  rcases changeDepth_cases result with rfl | ⟨newBppIndex, nodes, _, _, buttons⟩
  · exact held
  · rcases Dialog.withButtons_eq {
      s with
      bppIndex := newBppIndex
      resTab := s.possible[newBppIndex]
      items := s.possible[newBppIndex]
      curRes := selectedItem s.pool nodes } with ⟨ok, info, changed⟩
    rw [buttons, changed]
    exact ⟨held.holds, held.perm, rfl⟩

omit [Fintype Ptr] [DecidableEq Ptr] in
/-- A list that is sorted with its head in place is stored as it was. -/
theorem resorted_head (qsort : SteadyQSort Ptr) {mallocSucceeds : Bool} {pool : Pool Ptr}
    {nodes : List Ptr} (first : mallocSucceeds = true → HeadFirst pool.compar nodes) :
    (resorted qsort.toQSort mallocSucceeds pool nodes).head? = nodes.head? := by
  cases mallocSucceeds with
  | false => rfl
  | true => exact qsort.head_kept pool.compar_order (first rfl)

/-- An edit that leaves the head in its place leaves the stored head right. -/
theorem ListsHeld.info (qsort : SteadyQSort Ptr) (held : ListsHeld loaded s table)
    {answer : InfoAnswer} {mallocSucceeds : Bool}
    (keeps : KeepsHead s (.info answer mallocSucceeds))
    (result : showInfo qsort.toQSort answer mallocSucceeds s = .done after) :
    ∃ table, ListsHeld loaded after table := by
  rw [showInfo] at result
  split at result
  · exact absurd result (by simp)
  case h_2 res current =>
    split at result
    · cases result
      exact ⟨table, held⟩
    case h_2 virtHres virtVres =>
      have chain := held.holds.chain s.bppIndex
      rw [← held.shown] at chain
      have first := fun memory => keeps memory res current _ chain
      have edited : HoldsLists (s.pool.edit res virtHres virtVres) s.possible table :=
        held.holds.with_mode _
      generalize s.pool.edit res virtHres virtVres = pool at result first edited
      have here : Chain pool.next s.resTab (table s.bppIndex) := by
        rw [held.shown]
        exact edited.chain s.bppIndex
      by_cases empty : table s.bppIndex = []
      · rw [empty] at here
        rw [sortRestab_empty qsort.toQSort mallocSucceeds here] at result
        cases mallocSucceeds with
        | true => exact absurd result (by simp)
        | false =>
            cases result
            exact ⟨table, edited, held.perm, held.shown⟩
      · rcases sortRestab_done qsort.toQSort mallocSucceeds here empty with
          ⟨next, ends, sorted, others⟩
        have permuted := @resorted_perm _ qsort.toQSort mallocSucceeds pool (table s.bppIndex)
        have head := resorted_head qsort first
        have stored := edited.store permuted sorted others
        rw [head, ← edited.head_eq, Slots.set_self] at stored
        rw [ends] at result
        cases result
        refine ⟨_, stored, fun i => ?_, ?_⟩
        · by_cases same : i = s.bppIndex
          · subst same
            rw [Function.update_self]
            exact permuted.trans (held.perm _)
          · rw [Function.update_of_ne same]
            exact held.perm i
        · exact head.trans (edited.head_eq s.bppIndex).symm

theorem ListsHeld.step (qsort : SteadyQSort Ptr) (held : ListsHeld loaded s table)
    {event : Event Ptr} (keeps : KeepsHead s event)
    (result : hdlObj qsort.toQSort event s = .done after) :
    ∃ table, ListsHeld loaded after table := by
  cases event with
  | listBox click =>
      rw [hdlObj] at result
      cases clicked : lboxDo click s with
      | wild =>
          rw [clicked] at result
          exact absurd result (by simp)
      | done next =>
          have held' := held.listBox clicked
          rw [clicked] at result
          cases result
          refine ⟨table, ?_⟩
          split
          · exact ⟨held'.holds, held'.perm, held'.shown⟩
          · exact held'
  | colors index => exact ⟨table, held.colors result⟩
  | info answer mallocSucceeds => exact held.info qsort keeps result
  | closed | message | ok | cancel | other =>
      cases result
      exact ⟨table, held.holds, held.perm, held.shown⟩

omit [DecidableEq Ptr] in
/-- The way to another depth and back. -/
theorem ListsHeld.comesBack (held : ListsHeld loaded s table) {there back : Int}
    {away again : Dialog Ptr} (leaves : changeDepth there s = .done away)
    (elsewhere : away.bppIndex ≠ s.bppIndex) (returns : changeDepth back away = .done again)
    (same : again.bppIndex = s.bppIndex) :
    again.pool = s.pool ∧ again.resTab = s.resTab ∧
      ∃ nodes, Chain s.pool.next s.resTab nodes ∧
        again.curRes = selectedItem s.pool nodes := by
  rcases changeDepth_moves leaves elsewhere with ⟨pool, possible, _, _⟩
  have moves : again.bppIndex ≠ away.bppIndex := by
    rw [same]
    exact elsewhere.symm
  rcases changeDepth_moves returns moves with ⟨pool', _, resTab, nodes, listed, curRes⟩
  have shown : again.resTab = s.resTab := by
    rw [resTab, held.shown, possible]
    exact congrArg (fun i : Fin maxDepths => s.possible[i]) same
  refine ⟨pool'.trans pool, shown, table s.bppIndex, ?_, ?_⟩
  · rw [held.shown]
    exact held.holds.chain s.bppIndex
  · have chain := held.holds.chain s.bppIndex
    rw [← held.shown, ← shown] at chain
    rw [pool, Pool.list_eq chain] at listed
    cases listed
    rw [curRes, pool]

end Steps

/-! ## Whole sessions -/

omit [Fintype Ptr] [DecidableEq Ptr] in
theorem selectRes_held {loaded : Loaded Ptr} {table : Fin maxDepths → List Ptr}
    {start : Globals Ptr} (built : start.Built loaded table)
    (shown : start.resTab = start.possible[start.bppIndex]) (ok info : Button) :
    ListsHeld loaded (selectRes ok info start) table := by
  rcases selectRes_eq ok info start with ⟨ok', info', same⟩
  rw [same]
  exact ⟨built.holds, built.perm, shown⟩

/-- In every session in which each edit keeps the head of its list in place, no mode is
lost, and every depth leads to its list. -/
theorem lists_intact (qsort : SteadyQSort Ptr) {memory : SortMemory} {loaded : Loaded Ptr}
    {currez vmode : Int16} (keeps : StartKeeps memory loaded currez vmode)
    {start : Globals Ptr}
    (starts : initRes qsort.toQSort memory currez vmode loaded.pool loaded.possible =
      .done start)
    (ok info : Button) {s : Dialog Ptr}
    (reaches : Reaches (hdlObj qsort.toQSort) KeepsHead (selectRes ok info start) s) :
    Intact qsort.toQSort loaded s := by
  rcases initRes_done qsort.toQSort memory loaded currez vmode with ⟨start', starts', built, _⟩
  cases starts.symm.trans starts'
  have shown := initRes_resTab qsort keeps starts
  have held : ∃ table, ListsHeld loaded s table := by
    apply reaches.invariant
    · exact ⟨_, selectRes_held built shown ok info⟩
    · rintro before after event ⟨table, held⟩ keeps result
      exact held.step qsort keeps result
  rcases held with ⟨table, held⟩
  exact {
    shown := held.shown
    reached := fun i => ⟨table i, held.holds.chain i, held.perm i⟩
    comesBack := fun there back away again leaves elsewhere returns same =>
      held.comesBack leaves elsewhere returns same }

/-! ### An edit that moves the head -/

/-- After the edit, a change of the depth and the way back show one mode of two, and no
mode is selected. -/
theorem edit_loses_mode :
    ∃ start s, initRes ttSort.toQSort .ample 2 0 ttLoaded.pool ttLoaded.possible = .done start ∧
      Reaches (hdlObj ttSort.toQSort) Sends (selectRes plainButton plainButton start) s ∧
      (s.pool.list s.resTab).map List.length = some 1 ∧ s.curRes = none ∧
      (ttLoaded.nodes s.bppIndex).length = 2 ∧ ¬ Intact ttSort.toQSort ttLoaded s := by
  have shows : (ttBack.pool.list ttBack.resTab).map List.length = some 1 := by decide +kernel
  have two : (ttLoaded.nodes ttBack.bppIndex).length = 2 := by decide +kernel
  refine ⟨ttGlobals, ttBack, Outcome.eq_done_getD ttStart_isDone _, ?_, shows,
    by decide +kernel, two, ?_⟩
  · exact ttBack_reaches
  · intro intact
    rcases intact.reached ttBack.bppIndex with ⟨nodes, chain, perm⟩
    rw [← intact.shown] at chain
    rw [Pool.list_eq chain] at shows
    have length := perm.length_eq
    rw [two] at length
    rw [Option.map_some, length] at shows
    exact absurd shows (by decide)

/-- A smaller virtual size leaves the list in order. -/
def ttSmallEdit : Event (Place ttLists) := .info (some (512, 400)) true

theorem ttSmallEdit_keeps : KeepsHead ttDialog ttSmallEdit := by
  have inOrder : ∀ res ∈ ttDialog.curRes, ∀ nodes ∈ ttDialog.pool.list ttDialog.resTab,
      InOrder (ttDialog.pool.edit res 512 400).compar nodes := by decide +kernel
  intro _ res current nodes chain
  exact .inl (inOrder res current nodes (Pool.list_eq chain))

theorem lists_intact_sample :
    Intact ttSort.toQSort ttLoaded (ttStep (.colors 3) (ttStep ttSmallEdit ttDialog)) := by
  have starts : initRes ttSort.toQSort .ample 2 0 ttLoaded.pool ttLoaded.possible =
      .done ttGlobals := Outcome.eq_done_getD ttStart_isDone _
  have edited : Reaches (hdlObj ttSort.toQSort) KeepsHead ttDialog
      (ttStep ttSmallEdit ttDialog) :=
    .step .start ttSmallEdit_keeps (Outcome.eq_done_getD (by decide +kernel) ttDialog)
  have away : Reaches (hdlObj ttSort.toQSort) KeepsHead ttDialog
      (ttStep (.colors 3) (ttStep ttSmallEdit ttDialog)) :=
    edited.step (show KeepsHead _ (.colors 3) from trivial)
      (Outcome.eq_done_getD (by decide +kernel) (ttStep ttSmallEdit ttDialog))
  exact lists_intact ttSort (fun _ _ => .inl rfl) starts plainButton plainButton away

end Chgres
