import Chgres.Dialog.Sorting
import Chgres.Modes.Created

/-! # The mode lists in memory

`possible_resolutions` holds the heads of the lists. Each list is a chain of modes, and no
mode is on two of them.
-/

namespace Chgres

variable {Ptr : Type}

/-- The heads lead to the lists of the table. -/
structure HoldsLists (pool : Pool Ptr) (possible : Vector (Option Ptr) maxDepths)
    (table : Fin maxDepths → List Ptr) : Prop where
  chain : ∀ i : Fin maxDepths, Chain pool.next possible[i] (table i)
  apart : ∀ i j : Fin maxDepths, i ≠ j → ∀ res ∈ table i, res ∉ table j

/-- The mode lists as the `initres_*` functions leave them. -/
structure Loaded (Ptr : Type) where
  pool : Pool Ptr
  possible : Vector (Option Ptr) maxDepths
  nodes : Fin maxDepths → List Ptr
  holds : HoldsLists pool possible nodes
  created : ∀ i, ∀ res ∈ nodes i, (pool.mode res).Created

namespace HoldsLists

variable {pool : Pool Ptr} {possible : Vector (Option Ptr) maxDepths}
  {table : Fin maxDepths → List Ptr}

theorem head_eq (holds : HoldsLists pool possible table) (i : Fin maxDepths) :
    possible[i] = (table i).head? :=
  (holds.chain i).head_eq

theorem none_iff (holds : HoldsLists pool possible table) (i : Fin maxDepths) :
    possible[i] = none ↔ table i = [] := by
  rw [holds.head_eq, List.head?_eq_none_iff]

theorem with_mode (holds : HoldsLists pool possible table) (mode : Ptr → Res) :
    HoldsLists { pool with mode := mode } possible table :=
  ⟨holds.chain, holds.apart⟩

/-- One list is linked anew, and its head is stored. -/
theorem store (holds : HoldsLists pool possible table) {i : Fin maxDepths}
    {next : Ptr → Option Ptr} {sorted : List Ptr} (permuted : sorted.Perm (table i))
    (chain : Chain next sorted.head? sorted)
    (others : ∀ other, other ∉ table i → next other = pool.next other) :
    HoldsLists { pool with next := next } (possible.set i sorted.head? i.isLt)
      (Function.update table i sorted) where
  chain j := by
    by_cases same : j = i
    · subst same
      rw [Slots.set_same, Function.update_self]
      exact chain
    · rw [Slots.set_other _ same, Function.update_of_ne same]
      exact (holds.chain j).congr fun res member => others res (holds.apart j i same res member)
  apart j k different res member member' := by
    have back : ∀ l, res ∈ Function.update table i sorted l → res ∈ table l := by
      intro l inside
      by_cases same : l = i
      · subst same
        rw [Function.update_self] at inside
        exact permuted.mem_iff.mp inside
      · rwa [Function.update_of_ne same] at inside
    exact holds.apart j k different res (back j member) (back k member')

end HoldsLists

/-! ## Lists that are put into memory -/

/-- The addresses of the modes of some lists: the list, and the place in it. -/
abbrev Place (lists : ModeLists) : Type := (i : Fin maxDepths) × Fin lists[i].length

/-- The place behind another one. -/
def nextPlace (lists : ModeLists) (place : Place lists) : Option (Place lists) :=
  if bound : place.2.val + 1 < lists[place.1].length then
    some ⟨place.1, ⟨place.2.val + 1, bound⟩⟩
  else none

def firstPlace (lists : ModeLists) (i : Fin maxDepths) : Option (Place lists) :=
  if bound : 0 < lists[i].length then some ⟨i, ⟨0, bound⟩⟩ else none

def places (lists : ModeLists) (i : Fin maxDepths) : List (Place lists) :=
  (List.finRange lists[i].length).map fun k => ⟨i, k⟩

theorem places_length (lists : ModeLists) (i : Fin maxDepths) :
    (places lists i).length = lists[i].length := by
  rw [places, List.length_map, List.length_finRange]

theorem places_getElem (lists : ModeLists) (i : Fin maxDepths) {k : Nat}
    (bound : k < (places lists i).length) (below : k < lists[i].length) :
    (places lists i)[k] = ⟨i, ⟨k, below⟩⟩ := by
  simp only [places, List.getElem_map, List.getElem_finRange]
  rfl

/-- The places of a list from one of them on. -/
theorem places_chain (lists : ModeLists) (i : Fin maxDepths) (k : Nat)
    (bound : k ≤ lists[i].length) :
    Chain (nextPlace lists)
      (if below : k < lists[i].length then some ⟨i, ⟨k, below⟩⟩ else none)
      ((places lists i).drop k) := by
  induction left : lists[i].length - k generalizing k with
  | zero =>
      have done : ¬ k < lists[i].length := by omega
      rw [dif_neg done, List.drop_of_length_le (by rw [places_length]; omega)]
      rfl
  | succ left induction =>
      have below : k < lists[i].length := by omega
      rw [dif_pos below, List.drop_eq_getElem_cons (by rwa [places_length]),
        places_getElem lists i _ below]
      exact ⟨rfl, induction (k + 1) (by omega) (by omega)⟩

/-- Lists of created modes in memory. -/
def Loaded.ofLists (lists : ModeLists) (created : Every Res.Created lists) :
    Loaded (Place lists) where
  pool := { mode := fun place => lists[place.1][place.2], next := nextPlace lists }
  possible := Vector.ofFn fun i => firstPlace lists i
  nodes := places lists
  holds := {
    chain := by
      intro i
      have chain := places_chain lists i 0 (Nat.zero_le _)
      simpa [firstPlace] using chain
    apart := by
      intro i j different res member member'
      simp only [places, List.mem_map] at member member'
      rcases member with ⟨k, _, rfl⟩
      rcases member' with ⟨k', _, same⟩
      exact different (congrArg Sigma.fst same).symm }
  created := by
    intro i res member
    simp only [places, List.mem_map] at member
    rcases member with ⟨k, _, rfl⟩
    exact created i _ (List.getElem_mem _)

/-- The lists are all there. -/
theorem Loaded.ofLists_modes (lists : ModeLists) (created : Every Res.Created lists)
    (i : Fin maxDepths) :
    ((Loaded.ofLists lists created).nodes i).map (Loaded.ofLists lists created).pool.mode =
      lists[i] := by
  simp only [ofLists, places, List.map_map]
  apply List.ext_getElem
  · simp
  · intro k bound bound'
    simp

end Chgres
