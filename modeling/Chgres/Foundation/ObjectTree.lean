import Mathlib

/-! # Trees in an array

The nodes of a tree stand in an array and are linked by their indices: a node knows its
first child, its last child and its next sibling, and the last child leads back to the
parent. Nothing here depends on what else the nodes hold.
-/

namespace Chgres.ObjectTree

structure Links where
  next : Int
  head : Int
  tail : Int
  deriving DecidableEq, Repr

/-- The index of no node. -/
def noNode : Int := -1

/-- The node at an index, if it lies in the array. -/
def nodeAt (nodes : List Links) (index : Int) : Option Links :=
  if 0 ≤ index then nodes[index.toNat]? else none

theorem nodeAt_noNode (nodes : List Links) : nodeAt nodes noNode = none := rfl

/-! ## The walk -/

inductive Move where
  | enter (index : Int)
  | leave (index : Int)
  deriving DecidableEq, Repr

/-- The nodes that the walk enters until it leaves `root`. There is no such list if a link
leads out of the array or `steps` do not suffice. -/
def walk (nodes : List Links) (root : Int) : (steps : Nat) → Move → Option (List Int)
  | 0, _ => none
  | steps + 1, .enter index =>
      match nodeAt nodes index with
      | none => none
      | some node =>
          let next := if node.head = noNode then .leave index else .enter node.head
          (walk nodes root steps next).map (index :: ·)
  | steps + 1, .leave index =>
      if index = root then some []
      else
        match nodeAt nodes index with
        | none => none
        | some node =>
            match nodeAt nodes node.next with
            | none => none
            | some other =>
                -- `next` of a last child is the parent, of any other child a sibling
                walk nodes root steps
                  (if other.tail = index then .leave node.next else .enter node.next)

/-! ## The tree that the links describe -/

/-- The children of a node, each with its own children. -/
inductive Forest where
  | nil
  | node (index : Int) (children siblings : Forest)
  deriving DecidableEq, Repr

namespace Forest

def firstOr (default : Int) : Forest → Int
  | nil => default
  | node index _ _ => index

def last : Forest → Int
  | nil => noNode
  | node index _ nil => index
  | node _ _ (node index children siblings) => (node index children siblings).last

def preorder : Forest → List Int
  | nil => []
  | node index children siblings => index :: (children.preorder ++ siblings.preorder)

/-- The links of the nodes below `parent` are those of the forest. -/
def Linked (nodes : List Links) : (parent : Int) → Forest → Prop
  | _, nil => True
  | parent, node index children siblings =>
      nodeAt nodes index =
          some ⟨siblings.firstOr parent, children.firstOr noNode, children.last⟩ ∧
        Linked nodes index children ∧ Linked nodes parent siblings

theorem last_cases : ∀ forest : Forest, forest.last = noNode ∨ forest.last ∈ forest.preorder
  | nil => .inl rfl
  | node index _ nil => by simp [last, preorder]
  | node index children (node next more siblings) => by
      rcases last_cases (node next more siblings) with none | member
      · exact .inl none
      · exact .inr (by
          rw [last, preorder]
          exact List.mem_cons_of_mem _ (List.mem_append_right _ member))

/-- Where the walk goes from the node above the forest. -/
def start (parent : Int) : Forest → Move
  | nil => .leave parent
  | node index _ _ => .enter index

theorem Linked.start_eq {nodes : List Links} {parent : Int} {forest : Forest}
    (linked : Linked nodes parent forest) :
    (if forest.firstOr noNode = noNode then Move.leave parent
      else .enter (forest.firstOr noNode)) = forest.start parent := by
  cases forest with
  | nil => rfl
  | node index children siblings =>
      have isNode : index ≠ noNode := by
        rintro rfl
        have found := linked.1
        rw [nodeAt_noNode] at found
        cases found
      rw [firstOr, if_neg isNode, start]

end Forest

open Forest

variable {nodes : List Links} {root : Int}

theorem walk_enter {steps : Nat} {index : Int} {node : Links}
    (found : nodeAt nodes index = some node) :
    walk nodes root (steps + 1) (.enter index) =
      (walk nodes root steps
        (if node.head = noNode then .leave index else .enter node.head)).map (index :: ·) := by
  simp only [walk, found]

theorem walk_leave {steps : Nat} {index : Int} {node other : Links} (notRoot : index ≠ root)
    (found : nodeAt nodes index = some node) (foundNext : nodeAt nodes node.next = some other) :
    walk nodes root (steps + 1) (.leave index) =
      walk nodes root steps
        (if other.tail = index then .leave node.next else .enter node.next) := by
  simp only [walk, if_neg notRoot, found, foundNext]

/-- The walk enters the nodes of a forest in order and leaves the parent. -/
theorem walk_forest : ∀ {forest : Forest} {parent : Int} {up : Links} {steps : Nat},
    Linked nodes parent forest → nodeAt nodes parent = some up → up.tail = forest.last →
    forest.preorder.Nodup → root ∉ forest.preorder →
    walk nodes root (steps + 2 * forest.preorder.length) (forest.start parent) =
      (walk nodes root steps (.leave parent)).map (forest.preorder ++ ·)
  | nil, _, _, steps, _, _, _, _, _ => by simp [preorder, start]
  | node index children siblings, parent, up, steps, linked, isUp, isLast, nodup,
      notRoot => by
      rcases linked with ⟨found, linkedChildren, linkedSiblings⟩
      rw [preorder, List.nodup_cons, List.nodup_append] at nodup
      rcases nodup with ⟨fresh, nodupChildren, nodupSiblings, _⟩
      simp only [preorder, List.mem_cons, List.mem_append, not_or] at notRoot fresh
      rcases notRoot with ⟨rootApart, rootChildren, rootSiblings⟩
      have apart : index ≠ root := Ne.symm rootApart
      -- behind the children the walk leaves `index` and goes on with the siblings
      have leaves : walk nodes root (steps + 2 * siblings.preorder.length + 1) (.leave index) =
          (walk nodes root steps (.leave parent)).map (siblings.preorder ++ ·) := by
        cases siblings with
        | nil =>
            have atEnd : up.tail = index := isLast
            rw [walk_leave apart found isUp, if_pos atEnd]
            simp [preorder, firstOr]
        | node next more rest =>
            have foundNext := linkedSiblings.1
            have notTail : more.last ≠ index := by
              intro equal
              rcases last_cases more with none | member
              · rw [equal] at none
                rw [none, nodeAt_noNode] at found
                cases found
              · rw [equal] at member
                exact fresh.2 (by simp [preorder, member])
            rw [walk_leave apart found foundNext, if_neg notTail]
            exact walk_forest linkedSiblings isUp isLast nodupSiblings rootSiblings
      have size : steps + 2 * (node index children siblings).preorder.length =
          (steps + 2 * siblings.preorder.length + 1) + 2 * children.preorder.length + 1 := by
        simp only [preorder, List.length_cons, List.length_append]
        omega
      rw [size, start, walk_enter found, linkedChildren.start_eq,
        walk_forest linkedChildren found rfl nodupChildren rootChildren, leaves]
      simp [preorder, Option.map_map, Function.comp_def]

/-- The nodes form a tree: the root has no sibling, and no node stands in two places. -/
structure IsTree (nodes : List Links) (root : Int) (children : Forest) : Prop where
  atRoot : nodeAt nodes root = some ⟨noNode, children.firstOr noNode, children.last⟩
  linked : children.Linked nodes root
  nodup : (root :: children.preorder).Nodup

/-- A walk from the root enters every node of the tree once, in order, and comes back. -/
theorem IsTree.walk_eq {children : Forest} (tree : IsTree nodes root children) :
    walk nodes root (2 * children.preorder.length + 2) (.enter root) =
      some (root :: children.preorder) := by
  have parts := List.nodup_cons.mp tree.nodup
  have size : 2 * children.preorder.length + 2 =
      (1 + 2 * children.preorder.length) + 1 := by omega
  rw [size, walk_enter tree.atRoot, tree.linked.start_eq,
    walk_forest tree.linked tree.atRoot rfl parts.2 parts.1]
  simp [walk]

end Chgres.ObjectTree
