import Mathlib

/-! # Chains of nodes

A list in memory: each node holds a link to the next one, and the last node's link leads
nowhere. -/

namespace Chgres

variable {Node : Type}

/-- From `head` on, the links lead through `nodes` and end there. -/
def Chain (next : Node → Option Node) (head : Option Node) : (nodes : List Node) → Prop
  | [] => head = none
  | node :: nodes => head = some node ∧ Chain next (next node) nodes

namespace Chain

variable {next other : Node → Option Node} {head : Option Node} {nodes : List Node}

theorem head_eq (chain : Chain next head nodes) : head = nodes.head? := by
  cases nodes with
  | nil => exact chain
  | cons node nodes => exact chain.1

theorem unique {left right : List Node} (leftChain : Chain next head left)
    (rightChain : Chain next head right) : left = right := by
  induction left generalizing head right with
  | nil =>
      cases right with
      | nil => rfl
      | cons node right => exact absurd (leftChain.symm.trans rightChain.1) (by simp)
  | cons node left induction =>
      cases right with
      | nil => exact absurd (rightChain.symm.trans leftChain.1) (by simp)
      | cons node' right =>
          have same : node = node' :=
            Option.some.inj (leftChain.1.symm.trans rightChain.1)
          subst same
          rw [induction leftChain.2 rightChain.2]

/-- From every node on the way, the rest of the chain is a chain. -/
theorem from_mem (chain : Chain next head nodes) {node : Node} (member : node ∈ nodes) :
    ∃ before after, nodes = before ++ node :: after ∧
      Chain next (some node) (node :: after) := by
  induction nodes generalizing head with
  | nil => exact absurd member (by simp)
  | cons first nodes induction =>
      rcases List.mem_cons.mp member with rfl | member
      · exact ⟨[], nodes, rfl, rfl, chain.2⟩
      · rcases induction chain.2 member with ⟨before, after, split, rest⟩
        exact ⟨first :: before, after, by rw [split, List.cons_append], rest⟩

/-- A chain that ends has no way back. -/
theorem nodup (chain : Chain next head nodes) : nodes.Nodup := by
  induction nodes generalizing head with
  | nil => exact List.nodup_nil
  | cons node nodes induction =>
      refine List.nodup_cons.mpr ⟨fun member => ?_, induction chain.2⟩
      rcases chain.2.from_mem member with ⟨before, after, split, rest⟩
      have same := (chain.2).unique rest.2
      have lengths := congrArg List.length (split.symm.trans same)
      simp only [List.length_append, List.length_cons] at lengths
      omega

theorem congr (chain : Chain next head nodes)
    (same : ∀ node ∈ nodes, other node = next node) : Chain other head nodes := by
  induction nodes generalizing head with
  | nil => exact chain
  | cons node nodes induction =>
      refine ⟨chain.1, ?_⟩
      rw [same node List.mem_cons_self]
      exact induction chain.2 fun follower member =>
        same follower (List.mem_cons_of_mem node member)

/-- When the nodes of a table are linked anew, a chain leads on as before up to the table,
and then through a part of it. -/
theorem rejoin (chain : Chain next head nodes) {start : Option Node} {table : List Node}
    (linked : Chain other start table) (same : ∀ node, node ∉ table → other node = next node) :
    ∃ rest, Chain other head rest ∧ ∀ node ∈ rest, node ∈ nodes ∨ node ∈ table := by
  induction nodes generalizing head with
  | nil => exact ⟨[], chain, fun _ member => absurd member (by simp)⟩
  | cons node nodes induction =>
      by_cases member : node ∈ table
      · rcases linked.from_mem member with ⟨before, after, split, rest⟩
        refine ⟨node :: after, by rw [chain.1]; exact rest, fun follower inside => .inr ?_⟩
        rw [split]
        exact List.mem_append_right before inside
      · rcases induction chain.2 with ⟨rest, linked', within⟩
        refine ⟨node :: rest, ⟨chain.1, ?_⟩, ?_⟩
        · rw [same node member]
          exact linked'
        · intro follower inside
          rcases List.mem_cons.mp inside with rfl | inside
          · exact .inl List.mem_cons_self
          · rcases within follower inside with old | new
            · exact .inl (List.mem_cons_of_mem _ old)
            · exact .inr new

theorem length_le [Fintype Node] (chain : Chain next head nodes) :
    nodes.length ≤ Fintype.card Node :=
  chain.nodup.length_le_card

end Chain

/-! ## Walking along a chain -/

/-- The nodes that a loop along the links visits, if it ends after no more than `fuel`
of them. -/
def walk (next : Node → Option Node) : (fuel : Nat) → (head : Option Node) →
    Option (List Node)
  | _, none => some []
  | 0, some _ => none
  | fuel + 1, some node => (walk next fuel (next node)).map (node :: ·)

theorem Chain.walk_eq {next : Node → Option Node} {head : Option Node} {nodes : List Node}
    (chain : Chain next head nodes) {fuel : Nat} (enough : nodes.length ≤ fuel) :
    walk next fuel head = some nodes := by
  induction nodes generalizing head fuel with
  | nil =>
      rw [show head = none from chain]
      cases fuel <;> rfl
  | cons node nodes induction =>
      rw [chain.1]
      cases fuel with
      | zero => exact absurd enough (by simp)
      | succ fuel =>
          rw [walk, induction chain.2 (by simpa using enough)]
          rfl

/-! ## Linking nodes anew -/

variable [DecidableEq Node]

/-- The nodes of a table are linked in their order there. -/
def relink (next : Node → Option Node) : (table : List Node) → Node → Option Node
  | [] => next
  | [last] => Function.update next last none
  | node :: follower :: table =>
      relink (Function.update next node (some follower)) (follower :: table)

theorem relink_other {table : List Node} {node : Node} (absent : node ∉ table)
    (next : Node → Option Node) : relink next table node = next node := by
  induction table generalizing next with
  | nil => rfl
  | cons first table induction =>
      rw [List.mem_cons, not_or] at absent
      cases table with
      | nil => exact Function.update_of_ne absent.1 _ _
      | cons follower table =>
          rw [relink, induction absent.2]
          exact Function.update_of_ne absent.1 _ _

theorem relink_chain {table : List Node} (once : table.Nodup) (next : Node → Option Node) :
    Chain (relink next table) table.head? table := by
  induction table generalizing next with
  | nil => rfl
  | cons first table induction =>
      rw [List.nodup_cons] at once
      refine ⟨rfl, ?_⟩
      cases table with
      | nil => exact Function.update_self _ _ _
      | cons follower table =>
          rw [relink, relink_other once.1, Function.update_self]
          exact induction once.2 _

end Chgres
