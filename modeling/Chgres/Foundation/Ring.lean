import Chgres.Foundation.Outcome

/-! # Rings of nodes

Nodes that point at their neighbours on both sides form a ring with a node that is its head. An
edit between two nodes of a ring changes the pointers of these two alone.
-/

namespace Chgres

variable {Node : Type}

/-! ## Chains with a first and a last node -/

namespace Fenced

variable {first last : Node} {before old new after : List Node} {R : Node → Node → Prop}

/-- A list after a first node ends in its last member, or in that node. -/
theorem eq_append_getLastD (first : Node) (before : List Node) :
    ∃ front, first :: before = front ++ [before.getLastD first] := by
  induction before generalizing first with
  | nil => exact ⟨[], rfl⟩
  | cons node before induction =>
      rcases induction node with ⟨front, ends⟩
      exact ⟨first :: front, by rw [List.getLastD_cons, ends, List.cons_append]⟩

/-- A list before a last node begins with its first member, or with that node. -/
theorem eq_headD_cons (last : Node) (after : List Node) :
    ∃ back, after ++ [last] = after.headD last :: back := by
  cases after with
  | nil => exact ⟨[], rfl⟩
  | cons right after => exact ⟨after ++ [last], rfl⟩

theorem getLastD_mem (first : Node) (before : List Node) :
    before.getLastD first ∈ first :: before := by
  rcases eq_append_getLastD first before with ⟨front, ends⟩
  rw [ends]
  exact List.mem_append_right front (List.mem_singleton_self _)

theorem headD_mem (last : Node) (after : List Node) : after.headD last ∈ last :: after := by
  cases after with
  | nil => exact List.mem_singleton_self last
  | cons right after => exact List.mem_cons_of_mem last List.mem_cons_self

/-- The parts of a chain before and after some of its nodes. -/
theorem parts (chain : (first :: (before ++ old ++ after) ++ [last]).IsChain R) :
    (first :: before).IsChain R ∧ (after ++ [last]).IsChain R := by
  rw [← List.cons_append, ← List.cons_append, List.append_assoc, List.append_assoc,
    List.isChain_append, List.isChain_append] at chain
  exact ⟨chain.1, chain.2.1.2.1⟩

/-- The nodes on both sides of a place in a chain. -/
theorem between (chain : (first :: (before ++ after) ++ [last]).IsChain R) :
    R (before.getLastD first) (after.headD last) := by
  rcases eq_append_getLastD first before with ⟨front, ends⟩
  rcases eq_headD_cons last after with ⟨back, starts⟩
  rw [← List.cons_append, ends, List.append_assoc, starts, List.append_assoc] at chain
  exact (List.isChain_append_cons_cons.mp chain).2.1

/-- Other nodes between two parts of a chain. -/
theorem glue (left : (first :: before).IsChain R) (right : (after ++ [last]).IsChain R)
    (arc : (before.getLastD first :: new ++ [after.headD last]).IsChain R) :
    (first :: (before ++ new ++ after) ++ [last]).IsChain R := by
  rcases eq_append_getLastD first before with ⟨front, ends⟩
  rcases eq_headD_cons last after with ⟨back, starts⟩
  rw [starts] at right
  rw [ends] at left
  rw [← List.cons_append, ← List.cons_append, List.append_assoc, List.append_assoc, starts, ends,
    List.append_assoc, List.singleton_append, List.isChain_split]
  exact ⟨left, List.isChain_split.mpr ⟨arc, right⟩⟩

end Fenced

/-! ## Rings -/

/-- The pointers of the nodes. -/
structure Links (Node : Type) where
  next : Node → Node
  prev : Node → Node

namespace Links

variable {links links' : Links Node} {head : Node} {before old new after : List Node}

/-- `right` comes right after `left`. -/
def Joined (links : Links Node) (left right : Node) : Prop :=
  links.next left = right ∧ links.prev right = left

/-- The members of a ring after its head, in the order of the ring. -/
structure Ring (links : Links Node) (head : Node) (members : List Node) : Prop where
  joined : (head :: members ++ [head]).IsChain links.Joined
  nodup : (head :: members).Nodup

/-- Nodes stay joined when the pointers from each to the next one do. -/
theorem joined_congr {nodes : List Node} (joined : nodes.IsChain links.Joined)
    (nexts : ∀ node ∈ nodes.dropLast, links'.next node = links.next node)
    (prevs : ∀ node ∈ nodes.tail, links'.prev node = links.prev node) :
    nodes.IsChain links'.Joined := by
  induction nodes with
  | nil => exact .nil
  | cons left nodes induction =>
      cases nodes with
      | nil => exact .singleton left
      | cons right nodes =>
          rw [List.isChain_cons_cons] at joined ⊢
          have atLeft := nexts left (by simp)
          have atRight := prevs right (by simp)
          refine ⟨⟨atLeft.trans joined.1.1, atRight.trans joined.1.2⟩, induction joined.2 ?_ ?_⟩
          · exact fun node member => nexts node (List.mem_cons_of_mem left member)
          · exact fun node member => prevs node (List.mem_of_mem_tail member)

open Fenced

namespace Ring

/-- The nodes on both sides of a place of the ring are joined. -/
theorem between (ring : links.Ring head (before ++ after)) :
    links.Joined (before.getLastD head) (after.headD head) := Fenced.between ring.joined

/-- A ring stays one when the pointers of its nodes do. -/
theorem congr {members : List Node} (ring : links.Ring head members)
    (nexts : ∀ node ∈ head :: members, links'.next node = links.next node)
    (prevs : ∀ node ∈ head :: members, links'.prev node = links.prev node) :
    links'.Ring head members := by
  refine ⟨joined_congr ring.joined (fun node member => ?_) (fun node member => ?_), ring.nodup⟩
  · rw [List.dropLast_concat] at member
    exact nexts node member
  · rw [List.cons_append, List.tail_cons] at member
    exact prevs node (by simpa [or_comm] using member)

/-- The nodes between two places of a ring are replaced. -/
theorem splice (ring : links.Ring head (before ++ old ++ after))
    (fresh : (head :: (before ++ new ++ after)).Nodup)
    (nexts : ∀ node ∈ head :: (before ++ after), node ≠ before.getLastD head →
      links'.next node = links.next node)
    (prevs : ∀ node ∈ head :: (before ++ after), node ≠ after.headD head →
      links'.prev node = links.prev node)
    (arc : (before.getLastD head :: new ++ [after.headD head]).IsChain links'.Joined) :
    links'.Ring head (before ++ new ++ after) := by
  refine ⟨?_, fresh⟩
  have joined := parts ring.joined
  simp only [List.nodup_cons, List.nodup_append, List.mem_append, not_or] at fresh
  rcases fresh with ⟨⟨⟨notBefore, -⟩, notAfter⟩, ⟨beforeOnce, -, -⟩, afterOnce, apart⟩
  -- The left part keeps all pointers but the last one forward, the right part all but the first
  -- one back.
  have leftPart : (head :: before).IsChain links'.Joined := by
    refine joined_congr joined.1 (fun node member => ?_) (fun node member => ?_)
    · have once : (head :: before).Nodup := List.nodup_cons.mpr ⟨notBefore, beforeOnce⟩
      have here := List.dropLast_subset _ member
      rcases eq_append_getLastD head before with ⟨front, ends⟩
      rw [ends, List.dropLast_concat] at member
      rw [ends, List.nodup_append] at once
      refine nexts node ?_ (once.2.2 node member _ (List.mem_singleton_self _))
      exact List.cons_subset_cons head (List.subset_append_left before after) here
    · refine prevs node (List.mem_cons_of_mem head (List.mem_append_left after member)) ?_
      intro same
      rcases List.mem_cons.mp (headD_mem head after) with atHead | inside
      · exact notBefore (atHead ▸ same ▸ member)
      · exact apart node (Or.inl member) _ inside same
  have rightPart : (after ++ [head]).IsChain links'.Joined := by
    refine joined_congr joined.2 (fun node member => ?_) (fun node member => ?_)
    · rw [List.dropLast_concat] at member
      refine nexts node (List.mem_cons_of_mem head (List.mem_append_right before member)) ?_
      intro same
      rcases List.mem_cons.mp (getLastD_mem head before) with atHead | inside
      · exact notAfter (atHead ▸ same ▸ member)
      · exact apart _ (Or.inl inside) node member same.symm
    · cases after with
      | nil => exact absurd member (by simp)
      | cons right after =>
          have once := (List.nodup_cons.mp afterOnce).1
          simp only [List.cons_append, List.tail_cons, List.mem_append,
            List.mem_singleton] at member
          refine prevs node ?_ ?_
          · rcases member with member | rfl <;> simp [*]
          · rintro rfl
            rcases member with member | same
            · exact once member
            · exact notAfter (same ▸ List.mem_cons_self)
  exact glue leftPart rightPart arc

end Ring

/-! ## Walks along a ring -/

/-- The first node from `node` on at which `stop` holds. A walk of more than `fuel` steps goes
round for ever. -/
def seek (next : Node → Node) (stop : Node → Bool) : (fuel : Nat) → Node → Outcome Node
  | 0, _ => .wild
  | fuel + 1, node => if stop node then .done node else seek next stop fuel (next node)

theorem seek_joined {target : Node} {back : List Node} {stop : Node → Bool} {fuel : Nat}
    (joined : (before ++ target :: back).IsChain links.Joined)
    (passed : ∀ node ∈ before, stop node = false) (stops : stop target = true)
    (short : before.length < fuel) :
    seek links.next stop fuel (before.headD target) = .done target := by
  induction before generalizing fuel with
  | nil =>
      cases fuel with
      | zero => omega
      | succ fuel => simp [seek, stops]
  | cons node before induction =>
      cases fuel with
      | zero => omega
      | succ fuel =>
          have further := induction (List.isChain_cons.mp joined).2
            (fun node member => passed node (List.mem_cons_of_mem _ member))
            (Nat.lt_of_succ_lt_succ short)
          have onward : links.next node = before.headD target := by
            have first := (List.isChain_cons.mp joined).1 (before.headD target)
            cases before with
            | nil => exact (first rfl).1
            | cons right before => exact (first rfl).1
          rw [List.headD_cons, seek, passed node List.mem_cons_self, if_neg Bool.false_ne_true,
            onward, further]

namespace Ring

/-- The walk from the head stops at the first member that it does not pass, or is back at the
head. -/
theorem seek_eq {stop : Node → Bool} {fuel : Nat} (ring : links.Ring head (before ++ after))
    (passed : ∀ node ∈ before, stop node = false) (stops : stop (after.headD head) = true)
    (short : before.length < fuel) :
    seek links.next stop fuel (links.next head) = .done (after.headD head) := by
  rcases eq_headD_cons head after with ⟨back, starts⟩
  have joined := ring.joined
  rw [List.cons_append, List.append_assoc, starts, List.isChain_cons] at joined
  have onward : links.next head = before.headD (after.headD head) := by
    cases before with
    | nil => exact (joined.1 _ rfl).1
    | cons right before => exact (joined.1 _ rfl).1
  rw [onward]
  exact seek_joined joined.2 passed stops short

end Ring

end Links

end Chgres
