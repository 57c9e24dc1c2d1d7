import Chgres.Libcmini.HeapCalls

/-! # What a call of `free` does to the heap -/

namespace Chgres.Libcmini

variable {place : Statics} {memory : Memory} {chunks before after : List Chunk} {chunk : Chunk}

theorem Makes.refl (tiled : Tiled place chunks) (shows : Shows place.head memory chunks) :
    Makes place memory chunks memory chunks :=
  ⟨shows, tiled, fun _ quiet => ⟨quiet, rfl⟩⟩

theorem Makes.trans {memory' memory'' : Memory} {chunks' chunks'' : List Chunk}
    (first : Makes place memory chunks memory' chunks')
    (second : Makes place memory' chunks' memory'' chunks'') :
    Makes place memory chunks memory'' chunks'' := by
  refine ⟨second.shows, second.tiled, fun address quiet => ?_⟩
  have middle := first.quiet address quiet
  have last := second.quiet address middle.1
  exact ⟨last.1, last.2.trans middle.2⟩

/-- The chunks on one side of a free chunk, once it is merged with them. -/
structure Side (chunks chunks' : List Chunk) : Prop where
  blocks : blocks chunks' = Libcmini.blocks chunks
  hunks : hunks chunks' = Libcmini.hunks chunks
  merged : Merged chunks'
  subset : chunks' ⊆ chunks

theorem Side.refl (merged : Merged chunks) : Side chunks chunks :=
  ⟨rfl, rfl, merged, List.Subset.refl chunks⟩

theorem mergeAfter_does (tiled : Tiled place (before ++ [chunk] ++ after))
    (shows : Shows place.head memory (before ++ [chunk] ++ after)) (isFree : chunk.kind = .free)
    (merged : Merged after) :
    ∃ chunk' after', Makes place memory (before ++ [chunk] ++ after)
        (mergeAfter chunk.address (rightNode place.head after) memory)
        (before ++ [chunk'] ++ after') ∧
      chunk'.address = chunk.address ∧ chunk'.kind = .free ∧ Side after after' ∧
      Taken after'.head? := by
  by_cases absorbs : ∃ right after', after = right :: after' ∧ right.kind = .free
  · rcases absorbs with ⟨right, after', rfl, isFree'⟩
    have again : before ++ [chunk] ++ right :: after' = before ++ [chunk, right] ++ after' := by simp
    have node : rightNode place.head (right :: after') = right.address := by
      simp [rightNode, isFree', Kind.listed]
    rw [again] at tiled shows ⊢
    rw [node]
    refine ⟨_, after', mergeAfter_merges tiled shows isFree isFree', rfl, isFree, ⟨?_, ?_, ?_, ?_⟩, ?_⟩
    · simp [Chunk.data, isFree']
    · simp [Chunk.hunk, isFree']
    · exact merged.tail
    · exact List.subset_cons_self right after'
    · intro found isFirst other
      rcases List.head?_eq_some_iff.mp isFirst with ⟨rest, rfl⟩
      exact (List.isChain_cons_cons.mp merged).1 ⟨isFree', other⟩
  · have taken : Taken after.head? := by
      intro found isFirst other
      rcases List.head?_eq_some_iff.mp isFirst with ⟨rest, rfl⟩
      exact absorbs ⟨found, rest, rfl, other⟩
    rw [mergeAfter_stays tiled shows taken]
    exact ⟨chunk, after, .refl tiled shows, rfl, isFree, .refl merged, taken⟩

theorem mergeBefore_does (tiled : Tiled place (before ++ [chunk] ++ after))
    (shows : Shows place.head memory (before ++ [chunk] ++ after)) (isFree : chunk.kind = .free)
    (merged : Merged before) :
    ∃ memory' chunk' before', mergeBefore place.head chunk.address memory =
        (memory', chunk'.address) ∧
      Makes place memory (before ++ [chunk] ++ after) memory' (before' ++ [chunk'] ++ after) ∧
      chunk'.kind = .free ∧ Side before before' ∧ Taken before'.getLast? := by
  by_cases absorbs : ∃ before' left, before = before' ++ [left] ∧ left.kind = .free
  · rcases absorbs with ⟨before', left, rfl, isFree'⟩
    have again : before' ++ [left] ++ [chunk] ++ after = before' ++ [left, chunk] ++ after := by simp
    rw [again] at tiled shows ⊢
    rcases mergeBefore_merges tiled shows isFree' isFree with ⟨memory', merges, makes⟩
    refine ⟨memory', left.absorb chunk, before', merges, makes, isFree', ⟨?_, ?_, ?_, ?_⟩, ?_⟩
    · simp [Chunk.data, isFree']
    · simp [Chunk.hunk, isFree']
    · exact merged.left_of_append
    · exact List.subset_append_left before' [left]
    · intro found isLast other
      exact (List.isChain_append.mp merged).2.2 found isLast left rfl ⟨other, isFree'⟩
  · have taken : Taken before.getLast? := by
      intro found isLast other
      rcases List.getLast?_eq_some_iff.mp isLast with ⟨front, rfl⟩
      exact absorbs ⟨front, found, rfl, other⟩
    rw [mergeBefore_stays tiled shows (by simp [Chunk.listed, isFree, Kind.listed]) taken]
    exact ⟨memory, chunk, before, rfl, .refl tiled shows, isFree, .refl merged, taken⟩

/-- The blocks of GEMDOS after a call of `free`. -/
def Release.Leaves (result : Release) (hunks hunks' : List Extent) : Prop :=
  match result.mfree with
  | none => hunks' = hunks
  | some base => ∃ size, hunks.Perm (⟨base, size⟩ :: hunks')

theorem giveBack_does (tiled : Tiled place (before ++ [chunk] ++ after))
    (shows : Shows place.head memory (before ++ [chunk] ++ after)) (isFree : chunk.kind = .free)
    (merged : Merged before) (merged' : Merged after) (taken : Taken before.getLast?)
    (taken' : Taken after.head?)
    (partly : ∀ other ∈ before ++ after, other.kind = .free → ¬ other.Whole) :
    ∃ result chunks', giveBack place.head chunk.address memory = result ∧
      Settled place result.memory chunks' ∧ blocks chunks' = blocks (before ++ after) ∧
      result.Leaves (hunks (before ++ after)) (hunks chunks') ∧
      ∀ address, Quiet place (before ++ [chunk] ++ after) address →
        result.memory address = memory address := by
  by_cases whole : chunk.Whole
  · rcases tiled.start_of_whole (by simp [isFree]) whole with ⟨front, start, rfl, isStart⟩
    have again : front ++ [start] ++ [chunk] ++ after = front ++ [start, chunk] ++ after := by simp
    have next := tiled.starts_after whole.2
    rw [again] at tiled shows ⊢
    rcases giveBack_gives tiled shows isStart isFree whole with ⟨memory', gives, makes⟩
    refine ⟨_, front ++ [] ++ after, gives, ⟨makes.tiled, makes.shows, ?_, ?_⟩, ?_, ?_,
      fun address quiet => (makes.quiet address quiet).2⟩
    · rw [List.append_nil, Merged, List.isChain_append]
      refine ⟨merged.left_of_append, merged', fun _ _ right isFirst both => ?_⟩
      exact Kind.noConfusion ((next right isFirst).1.symm.trans both.2)
    · exact fun other member => partly other (by simp at member ⊢; tauto)
    · simp [Chunk.data, isStart]
    · refine ⟨start.top - start.base, ?_⟩
      have atBase := ((tiled.fits start (by simp)).sbrk isStart).1
      simp only [hunks_append, hunks_cons, Chunk.hunk, isStart, Option.toList, List.append_nil,
        List.append_assoc, List.singleton_append, atBase]
      exact List.perm_middle
  · rw [giveBack_stays tiled shows isFree whole]
    refine ⟨_, before ++ [chunk] ++ after, rfl, ⟨tiled, shows, merged.alone merged' taken taken',
      ?_⟩, ?_, ?_, fun _ _ => rfl⟩
    · intro other member
      by_cases same : other = chunk
      · exact fun _ => same ▸ whole
      · exact partly other (by simp [same] at member ⊢; tauto)
    · simp [Chunk.data, isFree]
    · simp [Release.Leaves, Chunk.hunk, isFree]

/-- The chunk that is freed keeps its place in the walk along the ring. -/
theorem notBefore_freed {n : Nat} (tiled : Tiled place (before ++ [chunk] ++ after))
    (shows : Shows place.head memory (before ++ [chunk] ++ after))
    (isAlloc : chunk.kind = .alloc n) :
    notBefore place.head chunk.address (memory.set chunk.address .valid valFree) =
      .done (rightNode place.head after) := by
  have nodes : listed (before ++ [chunk] ++ after) = listed (before ++ after) := by
    simp [isAlloc, Kind.listed]
  have header := (tiled.fits chunk (by simp)).header
  have ring : (memory.set chunk.address .valid valFree).links.Ring place.head
      (listed (before ++ [chunk] ++ after)) := by
    refine shows.ring.congr (fun node isNode => ?_) (fun node isNode => ?_)
    all_goals
      rw [nodes] at isNode
      have away := tiled.node_around isNode (List.mem_singleton_self chunk)
      refine Memory.get_set_other _ _ ?_
      simp only [Chunk.stop, Field.offset, allocExtra] at *
      omega
  have node : rightNode place.head ([chunk] ++ after) = rightNode place.head after := by
    simp [rightNode, isAlloc, Kind.listed]
  rw [List.append_assoc] at tiled ring
  rw [← node]
  refine notBefore_eq chunk.address tiled ring (fun other member => ?_) (fun other member => ?_)
  · have lower : other.stop ≤ chunk.address := tiled.le_of_mem member (by simp)
    have long := (tiled.fits other (by simp [member])).header
    simp only [Chunk.stop, allocExtra] at *
    omega
  · rcases List.mem_cons.mp member with rfl | member
    · exact le_rfl
    · rw [← List.append_assoc] at tiled
      have lower : chunk.stop ≤ other.address := tiled.le_of_mem (by simp) member
      simp only [Chunk.stop] at lower
      omega

theorem free_does {block : Extent} (settled : Settled place memory chunks)
    (member : block ∈ blocks chunks) :
    ∃ result chunks', free place.head block.start memory = .done result ∧
      Settled place result.memory chunks' ∧ (blocks chunks).Perm (block :: blocks chunks') ∧
      result.Leaves (hunks chunks) (hunks chunks') ∧
      ∀ address, Theirs place (blocks chunks') (hunks chunks) address →
        result.memory address = memory address := by
  rcases mem_blocks.mp member with ⟨chunk, member', isAlloc, start⟩
  rcases List.append_of_mem member' with ⟨before, after, rfl⟩
  rw [List.append_cons] at settled ⊢
  have tiled := settled.tiled
  have within := (tiled.fits chunk (by simp)).within
  have bounds := (tiled.fits chunk (by simp)).bounds
  have room := (tiled.fits chunk (by simp)).room _ isAlloc
  have parts := settled.merged.parts
  have tiled' := tiled.freed isAlloc
  have inserted := insert_makes tiled settled.shows isAlloc
  rcases mergeAfter_does tiled' inserted.1 rfl parts.2.2 with
    ⟨chunk₁, after', makes, sameStart, isFree, side, taken⟩
  rcases mergeBefore_does makes.tiled makes.shows isFree parts.1 with
    ⟨memory', chunk₂, before', merges, makes', isFree', side', taken'⟩
  have partly : ∀ other ∈ before' ++ after', other.kind = .free → ¬ other.Whole := by
    intro other inSides
    refine settled.partly other ?_
    rcases List.mem_append.mp inSides with left | right
    · simp [side'.subset left]
    · simp [side.subset right]
  rcases giveBack_does makes'.tiled makes'.shows isFree' side'.merged side.merged taken' taken partly
    with ⟨result, chunks', gives, settled', inUse, leaves, quiet⟩
  have pointer : minus block.start allocExtra = chunk.address := by
    rw [← start, minus_eq (Nat.le_add_left _ _)]
    · simp
    · simp only [Chunk.stop] at within
      omega
  have called : free place.head block.start memory = .done result := by
    rw [← gives]
    refine free_eq ?_ pointer ?_ (notBefore_freed tiled settled.shows isAlloc) (sameStart ▸ merges)
    · rw [← start]
      exact Nat.succ_ne_zero _
    · rw [(settled.shows.headers chunk (by simp)).valid, isAlloc, Kind.valid]
  have rest : blocks chunks' = blocks before ++ blocks after := by
    rw [inUse, blocks_append, side'.blocks, side.blocks]
  have sameHunks : hunks (before ++ [chunk] ++ after) = hunks (before' ++ after') := by
    have none : chunk.hunk = none := by simp [Chunk.hunk, isAlloc]
    rw [hunks_append, hunks_append, hunks_cons, none, hunks_append, side'.hunks, side.hunks]
    simp
  refine ⟨result, chunks', called, settled', ?_, sameHunks ▸ leaves, fun address theirs => ?_⟩
  · have data : chunk.data = some block := by simp [Chunk.data, isAlloc, start]
    rw [rest, blocks_append, blocks_append, blocks_cons, data]
    simp only [Option.toList, blocks_nil, List.append_nil, List.append_assoc,
      List.singleton_append]
    exact List.perm_middle
  · have freed : Theirs place (blocks (before ++ [chunk.freed] ++ after))
        (hunks (before ++ [chunk.freed] ++ after)) address := by
      have blocks' : blocks (before ++ [chunk.freed] ++ after) = blocks chunks' := by
        rw [rest]
        simp [Chunk.freed, Chunk.data]
      have hunks' : hunks (before ++ [chunk.freed] ++ after) =
          hunks (before ++ [chunk] ++ after) := by
        simp [Chunk.freed, Chunk.hunk, isAlloc]
      rw [blocks', hunks']
      exact theirs
    have quiet₀ := freed.quiet tiled'
    have quiet₁ := makes.quiet address quiet₀
    have quiet₂ := makes'.quiet address quiet₁.1
    exact (quiet address quiet₂.1).trans
      (quiet₂.2.trans (quiet₁.2.trans (inserted.2 address quiet₀)))

end Chgres.Libcmini
