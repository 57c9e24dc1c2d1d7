import Chgres.Dialog.InMemory

/-! # `init_res`

Once the lists are there, `init_res` sorts them, takes the best depth, and looks for the
current mode.
-/

namespace Chgres

variable {Ptr : Type} [Fintype Ptr] [DecidableEq Ptr]

/-- The variables of `chgres.c` that lead to the modes. -/
structure Globals (Ptr : Type) where
  pool : Pool Ptr
  /-- `possible_resolutions` -/
  possible : Vector (Option Ptr) maxDepths
  bppIndex : Fin maxDepths
  resTab : Option Ptr
  curRes : Option Ptr

/-- Which calls of `Malloc` get their memory: the one for the best depth, and the later
one for each depth. -/
structure SortMemory where
  best : Bool
  each : Fin maxDepths → Bool

/-- Nothing runs out of memory. -/
def SortMemory.ample : SortMemory := ⟨true, fun _ => true⟩

def Res.withSelected (r : Res) (selected : Bool) : Res := { r with selected := selected }

def Pool.setSelected (pool : Pool Ptr) (res : Ptr) (selected : Bool) : Pool Ptr :=
  { pool with mode := Function.update pool.mode res ((pool.mode res).withSelected selected) }

/-- The depth that `init_res` takes to be the best one. -/
def bestDepth (possible : Vector (Option Ptr) maxDepths) : Option (Fin maxDepths) :=
  Slots.highest fun i : Fin maxDepths => possible[i].isSome

/-- "default to best available resolution" -/
def selectBest (qsort : QSort Ptr) (memory : Bool) (s : Globals Ptr) : Outcome (Globals Ptr) :=
  match bestDepth s.possible with
  | none => .done s
  | some i => (sortRestab qsort memory s.pool s.possible[i]).bind fun sorted => .done {
      s with
      pool := sorted.2
      possible := s.possible.set i sorted.1 i.isLt
      bppIndex := i
      resTab := sorted.1 }

def isCurrent (currez vmode : Int16) (r : Res) : Bool := r.rez = currez ∧ r.vmode = vmode

/-- "try to find and select current resolution", for one depth. -/
def selectCurrent (qsort : QSort Ptr) (memory : Bool) (currez vmode : Int16) (i : Fin maxDepths)
    (s : Globals Ptr) : Outcome (Globals Ptr) :=
  if s.possible[i] = none then .done s
  else (sortRestab qsort memory s.pool s.possible[i]).bind fun sorted =>
    let s := { s with pool := sorted.2, possible := s.possible.set i sorted.1 i.isLt }
    match sorted.2.list sorted.1 with
    | none => .wild
    | some nodes =>
        match nodes.find? fun res => isCurrent currez vmode (sorted.2.mode res) with
        | none => .done s
        | some res => .done {
            s with
            pool := sorted.2.setSelected res true
            bppIndex := i
            resTab := sorted.1
            curRes := some res }

/-- `init_res`, from where the lists are there. -/
def initRes (qsort : QSort Ptr) (memory : SortMemory) (currez vmode : Int16) (pool : Pool Ptr)
    (possible : Vector (Option Ptr) maxDepths) : Outcome (Globals Ptr) :=
  let s : Globals Ptr := {
    pool := pool
    possible := possible
    bppIndex := 0
    resTab := none
    curRes := none }
  (selectBest qsort memory.best s).bind <|
    .forEach (fun s i => selectCurrent qsort (memory.each i) currez vmode i s)
      (List.finRange maxDepths)

/-! ## What a step leaves -/

/-- The modes of the pool are those of `base`, apart from their selection. -/
def Pool.SameModes (pool base : Pool Ptr) : Prop :=
  ∀ res, ∃ selected, pool.mode res = (base.mode res).withSelected selected

omit [Fintype Ptr] [DecidableEq Ptr] in
theorem Pool.SameModes.compar_eq {pool base : Pool Ptr} (same : pool.SameModes base) :
    pool.compar = base.compar := by
  funext res1 res2
  rcases same res1 with ⟨selected1, mode1⟩
  rcases same res2 with ⟨selected2, mode2⟩
  rw [compar, mode1, mode2]
  rfl

section SetSelected

omit [Fintype Ptr]

variable (pool : Pool Ptr) (selected : Bool)

theorem Pool.setSelected_same (res : Ptr) :
    (pool.setSelected res selected).mode res = (pool.mode res).withSelected selected :=
  Function.update_self _ _ _

theorem Pool.setSelected_other {res other : Ptr} (different : other ≠ res) :
    (pool.setSelected res selected).mode other = pool.mode other :=
  Function.update_of_ne different _ _

end SetSelected

omit [Fintype Ptr] in
theorem Pool.SameModes.setSelected {pool base : Pool Ptr} (same : pool.SameModes base)
    (res : Ptr) (selected : Bool) : (pool.setSelected res selected).SameModes base := by
  intro other
  rcases same other with ⟨before, mode⟩
  by_cases here : other = res
  · subst here
    refine ⟨selected, ?_⟩
    rw [Pool.setSelected_same, mode]
    rfl
  · refine ⟨before, ?_⟩
    rw [Pool.setSelected_other _ _ here, mode]

/-- The lists are those of the table: the loaded ones, in some order. -/
structure Globals.Built (loaded : Loaded Ptr) (table : Fin maxDepths → List Ptr)
    (s : Globals Ptr) : Prop where
  holds : HoldsLists s.pool s.possible table
  perm : ∀ i, (table i).Perm (loaded.nodes i)
  modes : s.pool.SameModes loaded.pool

/-- The first mode of a list that is the current one. -/
def firstCurrent (loaded : Loaded Ptr) (currez vmode : Int16) (nodes : List Ptr) : Option Ptr :=
  nodes.find? fun res => isCurrent currez vmode (loaded.pool.mode res)

/-- What is found in a list becomes the current mode. -/
def Globals.Follows (s before : Globals Ptr) (i : Fin maxDepths) (nodes : List Ptr) :
    (found : Option Ptr) → Prop
  | none => s.curRes = before.curRes ∧ s.bppIndex = before.bppIndex ∧ s.resTab = before.resTab
  | some res => s.curRes = some res ∧ s.bppIndex = i ∧ s.resTab = nodes.head?

section Steps

variable {loaded : Loaded Ptr} {table : Fin maxDepths → List Ptr} {s : Globals Ptr}

omit [Fintype Ptr] [DecidableEq Ptr] in
theorem Globals.Built.resorted_eq (built : s.Built loaded table) (qsort : QSort Ptr)
    (memory : Bool) (nodes : List Ptr) :
    resorted qsort memory s.pool nodes = resorted qsort memory loaded.pool nodes := by
  rw [resorted, resorted, built.modes.compar_eq]

/-- A list is sorted and its head stored. -/
theorem Globals.Built.sort (built : s.Built loaded table) (qsort : QSort Ptr) (memory : Bool)
    {i : Fin maxDepths} {sorted : List Ptr}
    (result : sorted = resorted qsort memory loaded.pool (table i)) (nonempty : table i ≠ []) :
    ∃ pool, sortRestab qsort memory s.pool s.possible[i] = .done (sorted.head?, pool) ∧
      Chain pool.next sorted.head? sorted ∧ pool.mode = s.pool.mode ∧
      HoldsLists pool (s.possible.set i sorted.head? i.isLt) (Function.update table i sorted) := by
  rcases sortRestab_done qsort memory (built.holds.chain i) nonempty with
    ⟨next, ends, chain, others⟩
  rw [built.resorted_eq, ← result] at ends chain
  refine ⟨_, ends, chain, rfl, built.holds.store ?_ chain others⟩
  rw [result]
  exact resorted_perm qsort memory

omit [Fintype Ptr] [DecidableEq Ptr] in
/-- A depth's list stays a permutation of the loaded one. -/
theorem Globals.Built.perm_update (built : s.Built loaded table) (qsort : QSort Ptr)
    (memory : Bool) (i j : Fin maxDepths) :
    (Function.update table i (resorted qsort memory loaded.pool (table i)) j).Perm
      (loaded.nodes j) := by
  by_cases same : j = i
  · subst same
    rw [Function.update_self]
    exact (resorted_perm qsort memory).trans (built.perm j)
  · rw [Function.update_of_ne same]
    exact built.perm j

omit [Fintype Ptr] [DecidableEq Ptr] in
theorem resorted_nil (qsort : QSort Ptr) (memory : Bool) (pool : Pool Ptr) :
    resorted qsort memory pool [] = [] :=
  (resorted_perm qsort memory).eq_nil

omit [Fintype Ptr] [DecidableEq Ptr] in
/-- The search looks at what the modes were made with. -/
theorem firstCurrent_eq (currez vmode : Int16) {pool : Pool Ptr} (same : pool.SameModes loaded.pool)
    (nodes : List Ptr) :
    (nodes.find? fun res => isCurrent currez vmode (pool.mode res)) =
      firstCurrent loaded currez vmode nodes := by
  have alike : (fun res => isCurrent currez vmode (pool.mode res)) =
      fun res => isCurrent currez vmode (loaded.pool.mode res) := by
    funext res
    rcases same res with ⟨selected, mode⟩
    rw [mode]
    rfl
  rw [alike, firstCurrent]

/-- One depth: its list is sorted, the first current mode of it is selected, and the current
mode follows. -/
theorem selectCurrent_done (built : s.Built loaded table) (qsort : QSort Ptr) (memory : Bool)
    (currez vmode : Int16) (i : Fin maxDepths) {sorted : List Ptr}
    (result : sorted = resorted qsort memory loaded.pool (table i)) :
    ∃ after, selectCurrent qsort memory currez vmode i s = .done after ∧
      after.Built loaded (Function.update table i sorted) ∧
      (∀ res, (after.pool.mode res).selected = true ↔
        (s.pool.mode res).selected = true ∨ firstCurrent loaded currez vmode sorted = some res) ∧
      after.Follows s i sorted (firstCurrent loaded currez vmode sorted) := by
  by_cases empty : table i = []
  · have nothing : sorted = [] := by rw [result, empty, resorted_nil]
    subst nothing
    refine ⟨s, ?_, ?_, ?_, ?_⟩
    · rw [selectCurrent, if_pos ((built.holds.none_iff i).mpr empty)]
    · rw [← empty, Function.update_eq_self]
      exact built
    · simp [firstCurrent]
    · exact ⟨rfl, rfl, rfl⟩
  · rcases built.sort qsort memory result empty with ⟨pool, ends, chain, kept, holds⟩
    have modes : pool.SameModes loaded.pool := by
      intro res
      rw [kept]
      exact built.modes res
    have perm := built.perm_update qsort memory i
    rw [← result] at perm
    have present : s.possible[i] ≠ none := fun none => empty ((built.holds.none_iff i).mp none)
    rw [selectCurrent, if_neg present, ends]
    simp only [Outcome.done_bind, Pool.list_eq chain, firstCurrent_eq currez vmode modes]
    cases found : firstCurrent loaded currez vmode sorted with
    | none =>
        refine ⟨_, rfl, ⟨holds, perm, modes⟩, ?_, rfl, rfl, rfl⟩
        simp [kept]
    | some res =>
        refine ⟨_, rfl, ⟨holds.with_mode _, perm, modes.setSelected res true⟩, ?_, rfl, rfl, rfl⟩
        intro other
        by_cases same : other = res
        · subst same
          simp only [Pool.setSelected_same]
          simp [Res.withSelected]
        · simp only [Pool.setSelected_other _ _ same]
          simp [kept, Ne.symm same]

/-! ## The loop over the depths -/

/-- The lists when the loop has been over some depths. -/
def sortedOn (qsort : QSort Ptr) (memory : SortMemory) (loaded : Loaded Ptr)
    (depths : List (Fin maxDepths)) (table : Fin maxDepths → List Ptr) (i : Fin maxDepths) :
    List Ptr :=
  if i ∈ depths then resorted qsort (memory.each i) loaded.pool (table i) else table i

/-- The current mode is on the list of a depth. -/
def holdsCurrent (loaded : Loaded Ptr) (currez vmode : Int16)
    (table : Fin maxDepths → List Ptr) (i : Fin maxDepths) : Bool :=
  (firstCurrent loaded currez vmode (table i)).isSome

/-- What is found in the last of some depths becomes the current mode. -/
def Globals.FollowsLast (loaded : Loaded Ptr) (currez vmode : Int16)
    (table : Fin maxDepths → List Ptr) (s before : Globals Ptr) :
    (last : Option (Fin maxDepths)) → Prop
  | none => s.curRes = before.curRes ∧ s.bppIndex = before.bppIndex ∧ s.resTab = before.resTab
  | some i =>
      s.curRes = firstCurrent loaded currez vmode (table i) ∧ s.bppIndex = i ∧
        s.resTab = (table i).head?

omit [Fintype Ptr] [DecidableEq Ptr] in
theorem sortedOn_cons (qsort : QSort Ptr) (memory : SortMemory) {i : Fin maxDepths}
    {depths : List (Fin maxDepths)} (absent : i ∉ depths) :
    sortedOn qsort memory loaded depths
        (Function.update table i (resorted qsort (memory.each i) loaded.pool (table i))) =
      sortedOn qsort memory loaded (i :: depths) table := by
  funext j
  simp only [sortedOn]
  by_cases same : j = i
  · subst same
    rw [if_neg absent, if_pos List.mem_cons_self, Function.update_self]
  · rw [Function.update_of_ne same]
    simp [same]

/-- The loop sorts the lists one after the other, selects the first current mode of each,
and ends with the last one of these. -/
theorem forEach_selectCurrent (qsort : QSort Ptr) (memory : SortMemory) (currez vmode : Int16)
    {depths : List (Fin maxDepths)} (once : depths.Nodup) (built : s.Built loaded table)
    {sorted : Fin maxDepths → List Ptr}
    (result : sorted = sortedOn qsort memory loaded depths table) :
    ∃ after,
      Outcome.forEach (fun s i => selectCurrent qsort (memory.each i) currez vmode i s) depths s =
        .done after ∧
      after.Built loaded sorted ∧
      (∀ res, (after.pool.mode res).selected = true ↔ (s.pool.mode res).selected = true ∨
        ∃ i ∈ depths, firstCurrent loaded currez vmode (sorted i) = some res) ∧
      after.FollowsLast loaded currez vmode sorted s
        (depths.reverse.find? (holdsCurrent loaded currez vmode sorted)) := by
  induction depths generalizing s table with
  | nil =>
      have unchanged : sorted = table := by
        rw [result]
        funext i
        simp [sortedOn]
      subst unchanged
      exact ⟨s, rfl, built, by simp, rfl, rfl, rfl⟩
  | cons i depths induction =>
      rw [List.nodup_cons] at once
      rcases selectCurrent_done built qsort (memory.each i) currez vmode i rfl with
        ⟨middle, step, built', selected, follows⟩
      rcases induction once.2 built' (result.trans (sortedOn_cons qsort memory once.1).symm) with
        ⟨after, rest, built'', selected', last⟩
      -- the rest of the loop leaves this list as it is now
      have here : sorted i = resorted qsort (memory.each i) loaded.pool (table i) := by
        rw [result, sortedOn, if_pos List.mem_cons_self]
      rw [← here] at selected follows
      refine ⟨after, ?_, built'', ?_, ?_⟩
      · rw [Outcome.forEach, step, Outcome.done_bind, rest]
      · intro res
        rw [selected', selected]
        simp [or_assoc]
      · rw [List.reverse_cons, List.find?_append]
        cases found : depths.reverse.find? (holdsCurrent loaded currez vmode sorted) with
        | some j =>
            rw [found] at last
            exact last
        | none =>
            rw [found] at last
            rcases last with ⟨cur, bpp, tab⟩
            cases first : firstCurrent loaded currez vmode (sorted i) with
            | none =>
                rw [first] at follows
                simp only [List.find?_singleton, holdsCurrent, first, Option.isSome_none]
                exact ⟨cur.trans follows.1, bpp.trans follows.2.1, tab.trans follows.2.2⟩
            | some res =>
                rw [first] at follows
                simp only [List.find?_singleton, holdsCurrent, first, Option.isSome_some]
                refine ⟨?_, bpp.trans follows.2.1, tab.trans follows.2.2⟩
                rw [cur, follows.1, first]

end Steps

/-! ## The start -/

/-- The lists when the best one has been sorted. -/
def bestSorted (qsort : QSort Ptr) (memory : SortMemory) (loaded : Loaded Ptr) :
    Fin maxDepths → List Ptr :=
  match bestDepth loaded.possible with
  | none => loaded.nodes
  | some i => Function.update loaded.nodes i
      (resorted qsort memory.best loaded.pool (loaded.nodes i))

/-- The lists that `init_res` leaves. -/
def finalLists (qsort : QSort Ptr) (memory : SortMemory) (loaded : Loaded Ptr) :
    Fin maxDepths → List Ptr :=
  sortedOn qsort memory loaded (List.finRange maxDepths) (bestSorted qsort memory loaded)

/-- Without a current mode the best depth is taken. -/
def Globals.TakesBest (qsort : QSort Ptr) (memory : SortMemory) (loaded : Loaded Ptr)
    (s : Globals Ptr) : Prop :=
  match bestDepth loaded.possible with
  | none => s.bppIndex = 0 ∧ s.resTab = none
  | some i => s.bppIndex = i ∧ s.resTab = (bestSorted qsort memory loaded i).head?

section InitRes

variable (qsort : QSort Ptr) (memory : SortMemory) (loaded : Loaded Ptr)

omit [Fintype Ptr] [DecidableEq Ptr] in
theorem bestSorted_best {qsort : QSort Ptr} {memory : SortMemory} {loaded : Loaded Ptr}
    {i : Fin maxDepths} (best : bestDepth loaded.possible = some i) :
    bestSorted qsort memory loaded i =
      resorted qsort memory.best loaded.pool (loaded.nodes i) := by
  simp only [bestSorted, best, Function.update_self]

theorem selectBest_done {s : Globals Ptr} (pool : s.pool = loaded.pool)
    (possible : s.possible = loaded.possible) (bpp : s.bppIndex = 0) (tab : s.resTab = none) :
    ∃ after, selectBest qsort memory.best s = .done after ∧
      after.Built loaded (bestSorted qsort memory loaded) ∧ after.pool.mode = s.pool.mode ∧
      after.curRes = s.curRes ∧ after.TakesBest qsort memory loaded := by
  have built : s.Built loaded loaded.nodes := by
    refine ⟨?_, fun i => List.Perm.refl _, ?_⟩
    · rw [pool, possible]
      exact loaded.holds
    · intro res
      rw [pool]
      exact ⟨(loaded.pool.mode res).selected, rfl⟩
  rw [selectBest, possible]
  unfold bestSorted Globals.TakesBest
  cases best : bestDepth loaded.possible with
  | none => exact ⟨s, rfl, built, rfl, rfl, bpp, tab⟩
  | some i =>
      have present := (Slots.highest_eq_some.mp best).1
      have nonempty : loaded.nodes i ≠ [] := by
        intro empty
        rw [(loaded.holds.none_iff i).mpr empty] at present
        exact absurd present (by simp)
      rcases built.sort qsort memory.best rfl nonempty with ⟨sorted, ends, _, kept, holds⟩
      rw [possible] at ends
      simp only [ends, Outcome.done_bind]
      refine ⟨_, rfl, ⟨?_, built.perm_update qsort memory.best i, ?_⟩, kept, rfl, rfl, ?_⟩
      · rw [possible] at holds
        exact holds
      · intro res
        rw [kept]
        exact built.modes res
      · rw [bestSorted_best best]

/-- `init_res` comes to its end with any lists, whichever calls of `Malloc` fail. -/
theorem initRes_done (currez vmode : Int16) :
    ∃ s, initRes qsort memory currez vmode loaded.pool loaded.possible = .done s ∧
      s.Built loaded (finalLists qsort memory loaded) ∧
      (∀ res, (s.pool.mode res).selected = true ↔ (loaded.pool.mode res).selected = true ∨
        ∃ i, firstCurrent loaded currez vmode (finalLists qsort memory loaded i) = some res) ∧
      match Slots.highest (holdsCurrent loaded currez vmode (finalLists qsort memory loaded)) with
      | none => s.curRes = none ∧ s.TakesBest qsort memory loaded
      | some i =>
          s.curRes = firstCurrent loaded currez vmode (finalLists qsort memory loaded i) ∧
            s.bppIndex = i ∧ s.resTab = (finalLists qsort memory loaded i).head? := by
  let start : Globals Ptr := ⟨loaded.pool, loaded.possible, 0, none, none⟩
  rcases @selectBest_done _ _ _ qsort memory loaded start rfl rfl rfl rfl with
    ⟨middle, first, built, kept, cur, best⟩
  rcases forEach_selectCurrent qsort memory currez vmode (List.nodup_finRange maxDepths) built
    rfl with ⟨s, second, built', selected, last⟩
  refine ⟨s, ?_, built', ?_, ?_⟩
  · rw [initRes, first, Outcome.done_bind, second]
  · intro res
    rw [selected, kept]
    simp [start, finalLists]
  · change s.FollowsLast loaded currez vmode (finalLists qsort memory loaded) middle
      (Slots.highest (holdsCurrent loaded currez vmode (finalLists qsort memory loaded))) at last
    cases found : Slots.highest
        (holdsCurrent loaded currez vmode (finalLists qsort memory loaded)) with
    | none =>
        rw [found] at last
        refine ⟨last.1.trans cur, ?_⟩
        unfold Globals.TakesBest at best ⊢
        rw [last.2.1, last.2.2]
        exact best
    | some i =>
        rw [found] at last
        exact last

end InitRes

end Chgres
