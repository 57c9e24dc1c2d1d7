import Chgres.Libcmini.Chunks

/-! # The chunks as the memory has them

The headers and the ring in memory stand for a list of chunks. An edit of the memory stands for
an edit of the list where it writes to nothing but the chunks that are edited and the pointers
of the two nodes around them.
-/

namespace Chgres.Libcmini

structure Chunk.Header (memory : Memory) (chunk : Chunk) : Prop where
  valid : memory.get chunk.address .valid = chunk.kind.valid
  size : memory.get chunk.address .size = chunk.size
  room : chunk.kind = .sbrk →
    memory.get chunk.address .sbrkSize = chunk.top - chunk.base - sbrkExtra

/-- The memory stands for the chunks. -/
structure Shows (head : Nat) (memory : Memory) (chunks : List Chunk) : Prop where
  ring : memory.links.Ring head (listed chunks)
  headers : ∀ chunk ∈ chunks, chunk.Header memory

/-- The node before a place. -/
def leftNode (head : Nat) (before : List Chunk) : Nat := (listed before).getLastD head

/-- The node after a place. -/
def rightNode (head : Nat) (after : List Chunk) : Nat := (listed after).headD head

/-- The memory differs at most in the chunks `edited` and where `left` and `right` point
towards them. -/
def Confined (left right : Nat) (edited : List Chunk) (memory memory' : Memory) : Prop :=
  ∀ address, address ≠ left + Field.next.offset → address ≠ right + Field.prev.offset →
    (∀ chunk ∈ edited, address < chunk.address ∨ chunk.stop ≤ address) →
    memory' address = memory address

section

variable {place : Statics} {memory memory' : Memory} {before old new after : List Chunk}

theorem leftNode_mem (head : Nat) (before after : List Chunk) :
    leftNode head before ∈ head :: listed (before ++ after) := by
  rw [listed_append]
  exact List.cons_subset_cons head (List.subset_append_left _ _) (Fenced.getLastD_mem head _)

theorem rightNode_mem (head : Nat) (before after : List Chunk) :
    rightNode head after ∈ head :: listed (before ++ after) := by
  rw [listed_append]
  exact List.cons_subset_cons head (List.subset_append_right _ _) (Fenced.headD_mem head _)

/-- Nodes elsewhere keep their pointers, but for those towards the place. -/
theorem Confined.node
    (confined : Confined (leftNode place.head before) (rightNode place.head after) (old ++ new)
      memory memory')
    (tiled : Tiled place (before ++ old ++ after)) (tiled' : Tiled place (before ++ new ++ after))
    {node : Nat} (isNode : node ∈ place.head :: listed (before ++ after)) {field : Field}
    (inHeader : field.offset < allocExtra)
    (left : ¬ (node = leftNode place.head before ∧ field = .next))
    (right : ¬ (node = rightNode place.head after ∧ field = .prev)) :
    memory'.get node field = memory.get node field := by
  have isLeft := leftNode_mem place.head before after
  have isRight := rightNode_mem place.head before after
  have awayLeft := tiled.nodes_apart (Tiled.mem_around old isNode) (Tiled.mem_around old isLeft)
  have awayRight := tiled.nodes_apart (Tiled.mem_around old isNode) (Tiled.mem_around old isRight)
  refine confined _ ?_ ?_ fun chunk member => ?_
  · rcases awayLeft with same | away
    · rw [same]
      intro clash
      exact left ⟨same, by cases field <;> simp [Field.offset] at clash ⊢⟩
    · simp only [Field.offset, allocExtra] at *
      omega
  · rcases awayRight with same | away
    · rw [same]
      intro clash
      exact right ⟨same, by cases field <;> simp [Field.offset] at clash ⊢⟩
    · simp only [Field.offset, allocExtra] at *
      omega
  · have around : node + allocExtra ≤ chunk.address ∨ chunk.stop ≤ node := by
      rcases List.mem_append.mp member with inOld | inNew
      · exact tiled.node_around isNode inOld
      · exact tiled'.node_around isNode inNew
    omega

theorem Confined.header
    (confined : Confined (leftNode place.head before) (rightNode place.head after) (old ++ new)
      memory memory')
    (tiled : Tiled place (before ++ old ++ after)) (tiled' : Tiled place (before ++ new ++ after))
    {chunk : Chunk} (member : chunk ∈ before ++ after) (header : chunk.Header memory) :
    chunk.Header memory' := by
  have member' : chunk ∈ before ++ old ++ after := by
    simp only [List.mem_append] at member ⊢
    tauto
  have fits := tiled.fits chunk member'
  have awayLeft := tiled.node_apart
    (Tiled.mem_around old (leftNode_mem place.head before after)) member'
  have awayRight := tiled.node_apart
    (Tiled.mem_around old (rightNode_mem place.head before after)) member'
  -- The longwords of a header other than the pointers.
  have kept : ∀ field : Field, field ≠ .next → field ≠ .prev →
      chunk.address + field.offset < chunk.stop →
      memory'.get chunk.address field = memory.get chunk.address field := by
    intro field notNext notPrev inside
    have size := fits.header
    refine confined _ ?_ ?_ fun other edited => ?_
    · cases field <;> simp [Field.offset, allocExtra] at * <;> omega
    · cases field <;> simp [Field.offset, allocExtra] at * <;> omega
    · have around : chunk.stop ≤ other.address ∨ other.stop ≤ chunk.address := by
        rcases List.mem_append.mp edited with inOld | inNew
        · exact tiled.around member inOld
        · exact tiled'.around member inNew
      omega
  have size := fits.header
  unfold Chunk.stop allocExtra at *
  constructor
  · rw [kept .valid (by decide) (by decide) (by simp [Field.offset]; omega), header.valid]
  · rw [kept .size (by decide) (by decide) (by simp [Field.offset]; omega), header.size]
  · intro sbrk
    have long := (fits.sbrk sbrk).2.1
    rw [kept .sbrkSize (by decide) (by decide) (by simp [Field.offset, sbrkExtra, *]),
      header.room sbrk]

theorem Shows.splice (shows : Shows place.head memory (before ++ old ++ after))
    (tiled : Tiled place (before ++ old ++ after)) (tiled' : Tiled place (before ++ new ++ after))
    (confined : Confined (leftNode place.head before) (rightNode place.head after) (old ++ new)
      memory memory')
    (arc : (leftNode place.head before :: listed new ++ [rightNode place.head after]).IsChain
      memory'.links.Joined)
    (headers : ∀ chunk ∈ new, chunk.Header memory') :
    Shows place.head memory' (before ++ new ++ after) := by
  have isLeft := leftNode_mem place.head before after
  have isRight := rightNode_mem place.head before after
  constructor
  · have ring := shows.ring
    have fresh := tiled'.nodup
    rw [listed_append, listed_append] at ring fresh ⊢
    refine ring.splice fresh (fun node isNode different => ?_) (fun node isNode different => ?_) arc
    · refine confined.node tiled tiled' (listed_append before after ▸ isNode) (by decide) ?_ ?_
      · exact fun same => different same.1
      · exact fun same => Field.noConfusion same.2
    · refine confined.node tiled tiled' (listed_append before after ▸ isNode) (by decide) ?_ ?_
      · exact fun same => Field.noConfusion same.2
      · exact fun same => different same.1
  · intro chunk member
    by_cases inNew : chunk ∈ new
    · exact headers chunk inNew
    · have around : chunk ∈ before ++ after := by
        simp only [List.mem_append] at member ⊢
        tauto
      exact confined.header tiled tiled' around (shows.headers chunk (by simp at around ⊢; tauto))

/-- An address that neither the ring nor a header has. -/
structure Quiet (place : Statics) (chunks : List Chunk) (address : Nat) : Prop where
  head : address < place.head ∨ place.head + allocExtra ≤ address
  chunks : ∀ chunk ∈ chunks, address < chunk.address ∨ chunk.stop ≤ address ∨
    (chunk.listed = false ∧ chunk.address + allocExtra ≤ address)

theorem Quiet.append {left right : List Chunk} {address : Nat} :
    Quiet place (left ++ right) address ↔
      Quiet place left address ∧ Quiet place right address := by
  constructor
  · intro quiet
    exact ⟨⟨quiet.head, fun chunk member => quiet.chunks chunk (List.mem_append_left _ member)⟩,
      ⟨quiet.head, fun chunk member => quiet.chunks chunk (List.mem_append_right _ member)⟩⟩
  · rintro ⟨inLeft, inRight⟩
    refine ⟨inLeft.head, fun chunk member => ?_⟩
    rcases List.mem_append.mp member with member | member
    · exact inLeft.chunks chunk member
    · exact inRight.chunks chunk member

/-- The longwords of a node are not quiet. -/
theorem Quiet.node {chunks : List Chunk} {node address : Nat} (quiet : Quiet place chunks address)
    (tiled : Tiled place chunks) (isNode : node ∈ place.head :: listed chunks) :
    address < node ∨ node + allocExtra ≤ address := by
  rcases List.mem_cons.mp isNode with rfl | inRing
  · exact quiet.head
  · rcases mem_listed.mp inRing with ⟨chunk, member, isListed, rfl⟩
    have header := (tiled.fits chunk member).header
    have away := quiet.chunks chunk member
    rw [isListed] at away
    unfold Chunk.stop at away
    simp only [Bool.true_eq_false, false_and, or_false] at away
    omega

/-- What is quiet and lies outside of the chunks that are edited stays as it is. -/
theorem Confined.quiet
    (confined : Confined (leftNode place.head before) (rightNode place.head after) (old ++ new)
      memory memory')
    (tiled : Tiled place (before ++ old ++ after)) {address : Nat}
    (quiet : Quiet place (before ++ old ++ after) address)
    (outside : ∀ chunk ∈ old ++ new, address < chunk.address ∨ chunk.stop ≤ address) :
    memory' address = memory address := by
  have left := quiet.node tiled (Tiled.mem_around old (leftNode_mem place.head before after))
  have right := quiet.node tiled (Tiled.mem_around old (rightNode_mem place.head before after))
  simp only [allocExtra] at left right
  refine confined address ?_ ?_ outside
  · simp only [Field.offset]
    omega
  · simp only [Field.offset]
    omega

/-- The chunk of a block that is handed out. -/
theorem mem_blocks {chunks : List Chunk} {block : Extent} : block ∈ blocks chunks ↔
    ∃ chunk ∈ chunks, chunk.kind = .alloc block.size ∧ chunk.address + allocExtra = block.start := by
  rw [blocks, List.mem_filterMap]
  constructor
  · rintro ⟨chunk, member, same⟩
    refine ⟨chunk, member, ?_⟩
    cases kind : chunk.kind <;> simp [Chunk.data, kind] at same
    rw [← same]
    exact ⟨rfl, rfl⟩
  · rintro ⟨chunk, member, kind, start⟩
    exact ⟨chunk, member, by simp [Chunk.data, kind, start]⟩

/-- An address in a block that is handed out, or one that is not the heap's at all. -/
def Theirs (place : Statics) (blocks hunks : List Extent) (address : Nat) : Prop :=
  (∃ block ∈ blocks, block.Holds address) ∨
    ((address < place.head ∨ place.head + allocExtra ≤ address) ∧
      ∀ hunk ∈ hunks, ¬ hunk.Holds address)

theorem Theirs.quiet {chunks : List Chunk} {address : Nat}
    (theirs : Theirs place (blocks chunks) (hunks chunks) address) (tiled : Tiled place chunks) :
    Quiet place chunks address := by
  rcases theirs with ⟨block, isBlock, holds⟩ | ⟨notHead, notHunk⟩
  · rcases mem_blocks.mp isBlock with ⟨chunk, member, isAlloc, start⟩
    have room := (tiled.fits chunk member).room block.size isAlloc
    have away := tiled.head_apart member
    have inside := place.inside
    simp only [Extent.Holds, Extent.stop, Chunk.stop] at holds away
    refine ⟨?_, fun other member' => ?_⟩
    · simp only [allocExtra] at *
      omega
    · rcases tiled.apart member member' with rfl | apart
      · exact Or.inr (Or.inr ⟨by simp [Chunk.listed, isAlloc, Kind.listed], start ▸ holds.1⟩)
      · simp only [Chunk.stop, allocExtra] at *
        omega
  · refine ⟨notHead, fun chunk member => ?_⟩
    have away := notHunk _ (tiled.hunk_mem member)
    have within := (tiled.fits chunk member).within
    simp only [Extent.Holds, Extent.stop] at away
    omega

/-- The node of a chunk and its neighbours. -/
theorem Shows.neighbours {chunk : Chunk}
    (shows : Shows place.head memory (before ++ [chunk] ++ after)) (inRing : chunk.listed) :
    memory.links.Joined (leftNode place.head before) chunk.address ∧
      memory.links.Joined chunk.address (rightNode place.head after) := by
  have ring := shows.ring
  have node : listed [chunk] = [chunk.address] := by
    rw [listed_cons, if_pos (show chunk.kind.listed = true from inRing), listed_nil]
  rw [listed_append, listed_append, node] at ring
  constructor
  · rw [List.append_assoc] at ring
    exact ring.between
  · have joined := ring.between
    rw [List.getLastD_concat] at joined
    exact joined

end

end Chgres.Libcmini
