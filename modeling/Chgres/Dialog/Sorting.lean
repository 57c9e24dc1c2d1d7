import Chgres.Foundation.Chain
import Chgres.Foundation.Sorter
import Chgres.Modes.Lists

/-! # The order of the mode lists

The modes in memory, the order that `cmp_res` puts them in, and `sort_restab`, which links
a list anew in that order. `cmp_res` has an answer for modes of the same keys that the
contract of a comparison function does not allow.
-/

namespace Chgres

/-! ## Modes in memory -/

/-- The modes in memory, by their addresses, with the `next` links between them. -/
structure Pool (Ptr : Type) where
  mode : Ptr → Res
  next : Ptr → Option Ptr

variable {Ptr : Type}

/-- The modes that `while (res != NULL) { …; res = res->base.next; }` visits. A list that
comes to an end has no more modes than there are. -/
def Pool.list [Fintype Ptr] (pool : Pool Ptr) (res : Option Ptr) : Option (List Ptr) :=
  walk pool.next (Fintype.card Ptr) res

theorem Pool.list_eq [Fintype Ptr] {pool : Pool Ptr} {res : Option Ptr} {nodes : List Ptr}
    (chain : Chain pool.next res nodes) : pool.list res = some nodes :=
  chain.walk_eq chain.length_le

/-! ## `cmp_res` -/

def cmpRes (r1 r2 : Res) : Int :=
  if r1.virtHres > r2.virtHres ∨
      (r1.virtHres ≥ r2.virtHres ∧
        (r1.virtVres > r2.virtVres ∨
          (r1.virtVres ≥ r2.virtVres ∧
            (r1.hres > r2.hres ∨
              (r1.hres ≥ r2.hres ∧
                (r1.vres > r2.vres ∨
                  (r1.vres ≥ r2.vres ∧
                    r1.HasInfo ∧ (¬ r2.HasInfo ∨ r1.freq > r2.freq)))))))) then -1
  else 1

/-- Whether there is a frequency, and the frequency. Without `FLAG_INFO` it does not
count. -/
def Res.lastKeys (r : Res) : Bool ×ₗ Int :=
  toLex (decide r.HasInfo, if r.HasInfo then r.freq.toInt else 0)

/-- The keys of a mode, the most significant one first. -/
def Res.keys (r : Res) : Int ×ₗ Int ×ₗ Int ×ₗ Int ×ₗ Bool ×ₗ Int :=
  toLex (r.virtHres.toInt, toLex (r.virtVres.toInt, toLex (r.hres.toInt,
    toLex (r.vres.toInt, r.lastKeys))))

/-- One key of `cmp_res`: the mode with the greater value comes first, and with the same
value the remaining keys decide. -/
theorem key_iff (left right : Int16) (rest : Prop) :
    (left > right ∨ (left ≥ right ∧ rest)) ↔
      (right.toInt < left.toInt ∨ right.toInt = left.toInt ∧ rest) := by
  rw [gt_iff_lt, ge_iff_le, Int16.lt_iff_toInt_lt, Int16.le_iff_toInt_le]
  constructor
  · rintro (greater | ⟨least, holds⟩)
    · exact .inl greater
    · rcases Int.lt_or_eq_of_le least with greater | same
      · exact .inl greater
      · exact .inr ⟨same, holds⟩
  · rintro (greater | ⟨same, holds⟩)
    · exact .inl greater
    · exact .inr ⟨same.le, holds⟩

/-- The last keys of `cmp_res`. -/
theorem lastKeys_iff (r1 r2 : Res) :
    (r1.HasInfo ∧ (¬ r2.HasInfo ∨ r1.freq > r2.freq)) ↔
      r2.lastKeys < r1.lastKeys := by
  rw [Res.lastKeys, Res.lastKeys, Prod.Lex.toLex_lt_toLex, gt_iff_lt, Int16.lt_iff_toInt_lt]
  by_cases info1 : r1.HasInfo <;> by_cases info2 : r2.HasInfo <;> simp [info1, info2]

theorem cmpRes_before_iff (r1 r2 : Res) : Before cmpRes r1 r2 ↔ r2.keys < r1.keys := by
  unfold Before cmpRes
  simp only [key_iff, lastKeys_iff]
  simp only [Res.keys, Prod.Lex.toLex_lt_toLex]
  split
  case isTrue condition => exact iff_of_true (by decide) condition
  case isFalse condition => exact iff_of_false (by decide) condition

theorem cmpRes_order : IsStrictWeakOrder Res (Before cmpRes) := by
  exact before_order_of_keys Res.keys cmpRes_before_iff

/-! ## The contract of `cmp_res` -/

/-- The modes have all keys in common: sizes, and the frequency if `FLAG_INFO` makes it
count. -/
structure SameKeys (r1 r2 : Res) : Prop where
  virtHres : r1.virtHres = r2.virtHres
  virtVres : r1.virtVres = r2.virtVres
  hres : r1.hres = r2.hres
  vres : r1.vres = r2.vres
  info : r1.HasInfo ↔ r2.HasInfo
  freq : r1.HasInfo → r1.freq = r2.freq

theorem lastKeys_eq_iff (r1 r2 : Res) :
    r1.lastKeys = r2.lastKeys ↔
      (r1.HasInfo ↔ r2.HasInfo) ∧ (r1.HasInfo → r1.freq = r2.freq) := by
  simp only [Res.lastKeys, toLex_inj, Prod.mk.injEq, decide_eq_decide]
  apply and_congr_right
  intro both
  by_cases info : r1.HasInfo
  · rw [if_pos info, if_pos (both.mp info), Int16.toInt_inj]
    simp [info]
  · rw [if_neg info, if_neg (mt both.mpr info)]
    exact iff_of_true rfl (absurd · info)

theorem keys_eq_iff (r1 r2 : Res) : r1.keys = r2.keys ↔ SameKeys r1 r2 := by
  simp only [Res.keys, toLex_inj, Prod.mk.injEq, Int16.toInt_inj, lastKeys_eq_iff]
  constructor
  · rintro ⟨virtHres, virtVres, hres, vres, info, freq⟩
    exact ⟨virtHres, virtVres, hres, vres, info, freq⟩
  · intro same
    exact ⟨same.virtHres, same.virtVres, same.hres, same.vres, same.info, same.freq⟩

theorem cmpRes_neverEqual : NeverEqual cmpRes := by
  intro r1 r2
  rw [cmpRes]
  split
  case isTrue => exact .inl rfl
  case isFalse => exact .inr rfl

/-- The order of the keys is linear, so that only modes of the same keys tie. -/
theorem cmpRes_swapped_iff (r1 r2 : Res) : Swapped cmpRes r1 r2 ↔ ¬SameKeys r1 r2 := by
  rw [cmpRes_neverEqual.swapped_iff cmpRes_order, cmpRes_before_iff, cmpRes_before_iff,
    ← keys_eq_iff, ← ne_eq, ne_iff_lt_or_gt, or_comm]

/-- Two modes compare with opposite signs exactly if a key tells them apart. A mode is
always told to be behind itself, so no modes at all meet the contract, although "not after"
and "not before" are transitive. -/
theorem cmpRes_breaks_contract (r1 r2 r3 : Res) :
    ¬Consistent cmpRes r1 r2 r3 ∧
      (Swapped cmpRes r1 r2 ↔ ¬SameKeys r1 r2) ∧
      (SameKeys r1 r2 → cmpRes r1 r2 = 1 ∧ cmpRes r2 r1 = 1) ∧
      (NotAfter cmpRes r1 r2 → NotAfter cmpRes r2 r3 → NotAfter cmpRes r1 r3) ∧
      (¬Before cmpRes r2 r1 → ¬Before cmpRes r3 r2 → ¬Before cmpRes r3 r1) := by
  refine ⟨?_, cmpRes_swapped_iff r1 r2, ?_, cmpRes_neverEqual.trans cmpRes_order,
    notBefore_trans cmpRes_order⟩
  · intro consistent
    have behind := cmpRes_neverEqual.behind (cmpRes_order.irrefl r1)
    rw [consistent.same] at behind
    exact absurd behind (by decide)
  · intro same
    rw [← keys_eq_iff] at same
    have left : ¬Before cmpRes r1 r2 := by
      rw [cmpRes_before_iff, same]
      exact lt_irrefl _
    have right : ¬Before cmpRes r2 r1 := by
      rw [cmpRes_before_iff, same]
      exact lt_irrefl _
    exact ⟨cmpRes_neverEqual.behind left, cmpRes_neverEqual.behind right⟩

/-- The list of a depth holds modes that tie: `initres_falc` makes one mode twice. -/
theorem falcon_modes_tie :
    ∃ first between second, (falcVga noModes)[(0 : Fin maxDepths)] = [first, between, second] ∧
      cmpRes first second = 1 ∧ cmpRes second first = 1 ∧
      ¬Consistent cmpRes first second first := by
  refine ⟨_, _, _, rfl, by decide, by decide, ?_⟩
  intro consistent
  exact absurd consistent.swapped (by rw [Swapped]; decide)

/-! ## `sort_restab` -/

/-- The comparison function of the table of pointers. -/
def Pool.compar (pool : Pool Ptr) (res1 res2 : Ptr) : Int :=
  cmpRes (pool.mode res1) (pool.mode res2)

theorem Pool.compar_order (pool : Pool Ptr) : IsStrictWeakOrder Ptr (Before pool.compar) := by
  apply before_order_of_keys fun res => (pool.mode res).keys
  intro res1 res2
  exact cmpRes_before_iff _ _

variable [Fintype Ptr] [DecidableEq Ptr]

/-- `sort_restab`. `count_res` and the loop that fills the table both go along the list; the
table of an empty list has no first entry. -/
def sortRestab (qsort : QSort Ptr) (mallocSucceeds : Bool) (pool : Pool Ptr)
    (res : Option Ptr) : Outcome (Option Ptr × Pool Ptr) :=
  match pool.list res with
  | none => .wild
  | some entries =>
      if mallocSucceeds then
        match qsort.sort pool.compar entries with
        | [] => .wild
        | first :: table =>
            .done (some first, { pool with next := relink pool.next (first :: table) })
      else .done (res, pool)

/-- The order in which `sort_restab` leaves a list. -/
def resorted (qsort : QSort Ptr) (mallocSucceeds : Bool) (pool : Pool Ptr)
    (nodes : List Ptr) : List Ptr :=
  if mallocSucceeds then qsort.sort pool.compar nodes else nodes

section SortRestab

variable (qsort : QSort Ptr) (mallocSucceeds : Bool) {pool : Pool Ptr} {res : Option Ptr}
  {nodes : List Ptr}

omit [Fintype Ptr] [DecidableEq Ptr] in
theorem resorted_perm : (resorted qsort mallocSucceeds pool nodes).Perm nodes := by
  rw [resorted]
  split
  case isTrue => exact qsort.perm pool.compar_order nodes
  case isFalse => exact List.Perm.refl nodes

/-- What `sort_restab` does: the list is linked in its new order, and no other link
changes. -/
theorem sortRestab_done (chain : Chain pool.next res nodes) (nonempty : nodes ≠ []) :
    ∃ next, sortRestab qsort mallocSucceeds pool res = .done
        ((resorted qsort mallocSucceeds pool nodes).head?, { pool with next := next }) ∧
      Chain next (resorted qsort mallocSucceeds pool nodes).head?
        (resorted qsort mallocSucceeds pool nodes) ∧
      ∀ other, other ∉ nodes → next other = pool.next other := by
  rw [sortRestab, Pool.list_eq chain]
  cases mallocSucceeds with
  | false => exact ⟨pool.next, by rw [chain.head_eq]; rfl, chain.head_eq ▸ chain, fun _ _ => rfl⟩
  | true =>
      have permuted := qsort.perm pool.compar_order nodes
      have once := permuted.nodup_iff.mpr chain.nodup
      refine ⟨relink pool.next (qsort.sort pool.compar nodes), ?_, relink_chain once _, ?_⟩
      · cases table : qsort.sort pool.compar nodes with
        | nil =>
            rw [table] at permuted
            exact absurd permuted.nil_eq.symm nonempty
        | cons first rest => simp [resorted, table]
      · intro other absent
        apply relink_other
        rwa [permuted.mem_iff]

/-- The table of an empty list has no first entry. -/
theorem sortRestab_empty (chain : Chain pool.next res []) :
    sortRestab qsort mallocSucceeds pool res =
      if mallocSucceeds then .wild else .done (res, pool) := by
  have nothing : qsort.sort pool.compar [] = [] := (qsort.perm pool.compar_order []).eq_nil
  simp only [sortRestab, Pool.list_eq chain, nothing]

end SortRestab

/-- The list of `res`, whatever its length, comes back sorted: the same modes, each once,
linked in an order that `cmp_res` agrees with. -/
theorem sortRestab_sorts (qsort : QSort Ptr) (pool : Pool Ptr) (res : Ptr)
    (nodes : List Ptr) (chain : Chain pool.next (some res) nodes) :
    IsStrictWeakOrder Res (Before cmpRes) ∧
      (∀ r1 r2, cmpRes r1 r2 < 0 ↔ r2.keys < r1.keys) ∧
      (∃ head sorted table, sortRestab qsort true pool (some res) = .done (head, sorted) ∧
        Chain sorted.next head table ∧ table.Nodup ∧ table.Perm nodes ∧
        sorted.mode = pool.mode ∧
        (∀ other, other ∉ nodes → sorted.next other = pool.next other) ∧
        InOrder sorted.compar table) ∧
      sortRestab qsort false pool (some res) = .done (some res, pool) := by
  refine ⟨cmpRes_order, cmpRes_before_iff, ?_, ?_⟩
  · have nonempty : nodes ≠ [] := by
      rintro rfl
      exact absurd chain (by simp [Chain])
    rcases sortRestab_done qsort true chain nonempty with ⟨next, result, sorted, others⟩
    refine ⟨_, _, _, result, sorted, sorted.nodup, resorted_perm qsort true, rfl, others, ?_⟩
    exact qsort.inOrder pool.compar_order nodes
  · rw [sortRestab, Pool.list_eq chain]
    rfl

/-- Two modes, the smaller one first. -/
def samplePool : Pool (Fin 2) where
  mode := ![
    ⟨false, 2, 0, flagInfo, 320, 200, 320, 200, 4, 60, 0⟩,
    ⟨false, 6, 0, flagInfo, 640, 480, 640, 480, 4, 60, 0⟩]
  next := ![some 1, none]

theorem sortRestab_sorts_sample :
    ∃ head sorted table,
      sortRestab (insertionQSort (Fin 2)).toQSort true samplePool (some 0) = .done (head, sorted) ∧
        Chain sorted.next head table ∧ table.Nodup ∧ table.Perm [0, 1] ∧
        sorted.mode = samplePool.mode ∧
        (∀ other, other ∉ [0, 1] → sorted.next other = samplePool.next other) ∧
        InOrder sorted.compar table :=
  (sortRestab_sorts _ samplePool 0 [0, 1] ⟨rfl, rfl, rfl⟩).2.2.1

end Chgres
