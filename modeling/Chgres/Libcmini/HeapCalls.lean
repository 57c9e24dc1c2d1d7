import Chgres.Libcmini.FreeSteps

/-! # What a call does to the heap

Between two calls no free chunk comes right after another one, and none is all of its block.
-/

namespace Chgres.Libcmini

variable {place : Statics} {memory : Memory} {chunks before after : List Chunk} {chunk : Chunk}

/-- The heap as it is between two calls. -/
structure Settled (place : Statics) (memory : Memory) (chunks : List Chunk) : Prop where
  tiled : Tiled place chunks
  shows : Shows place.head memory chunks
  merged : Merged chunks
  partly : ∀ chunk ∈ chunks, chunk.kind = .free → ¬ chunk.Whole

/-- The chunk, if any, is not free. -/
def Taken (chunk : Option Chunk) : Prop := ∀ found, chunk = some found → found.kind ≠ .free

theorem Merged.parts {old : List Chunk} (merged : Merged (before ++ old ++ after)) :
    Merged before ∧ Merged old ∧ Merged after := by
  rw [Merged, List.isChain_append, List.isChain_append] at merged
  exact ⟨merged.1.1, merged.1.2.1, merged.2.1⟩

/-- A free chunk between others that are taken. -/
theorem Merged.alone (left : Merged before) (right : Merged after) (taken : Taken before.getLast?)
    (taken' : Taken after.head?) : Merged (before ++ [chunk] ++ after) := by
  rw [Merged, List.isChain_append, List.isChain_append]
  refine ⟨⟨left, List.isChain_singleton chunk, ?_⟩, right, ?_⟩
  · exact fun found isLast _ _ both => taken found isLast both.1
  · exact fun _ _ found isFirst both => taken' found isFirst both.2

theorem Merged.taken (merged : Merged (before ++ [chunk] ++ after)) (isFree : chunk.kind = .free) :
    Taken before.getLast? ∧ Taken after.head? := by
  rw [Merged, List.isChain_append, List.isChain_append] at merged
  constructor
  · intro found isLast other
    exact merged.1.2.2 found isLast chunk rfl ⟨other, isFree⟩
  · intro found isFirst other
    exact merged.2.2 chunk (by simp) found isFirst ⟨isFree, other⟩

/-- A chunk that is not free between any others. -/
theorem Merged.wall (left : Merged before) (right : Merged after) (inUse : chunk.kind ≠ .free) :
    Merged (before ++ [chunk] ++ after) := by
  rw [Merged, List.isChain_append, List.isChain_append]
  refine ⟨⟨left, List.isChain_singleton chunk, ?_⟩, right, ?_⟩
  · rintro _ _ _ ⟨⟩ both
    exact inUse both.2
  · intro found isLast _ _ both
    rw [List.getLast?_concat] at isLast
    cases isLast
    exact inUse both.1

/-! ## `malloc` -/

theorem Merged.carve (n request : Nat) (merged : Merged (before ++ [chunk] ++ after))
    (isFree : chunk.kind = .free) : Merged (before ++ chunk.carve n request ++ after) := by
  have parts := merged.parts
  have taken := merged.taken isFree
  unfold Chunk.carve
  split
  case isTrue =>
    rw [List.append_cons, List.append_assoc (before ++ _)]
    exact parts.1.alone (@Merged.wall [] after _ .nil parts.2.2 (by simp)) taken.1
      (by simp [Taken])
  case isFalse => exact parts.1.wall parts.2.2 (by simp)

theorem partly_carve (n request : Nat) (tiled : Tiled place (before ++ [chunk] ++ after))
    (long : 0 < n) (partly : ∀ other ∈ before ++ after, other.kind = .free → ¬ other.Whole) :
    ∀ other ∈ before ++ chunk.carve n request ++ after, other.kind = .free → ¬ other.Whole := by
  intro other member isFree
  rw [List.append_assoc, List.mem_append, List.mem_append] at member
  rcases member with member | member | member
  · exact partly other (List.mem_append_left after member) isFree
  · have within := (tiled.fits chunk (by simp)).within
    unfold Chunk.carve at member
    split at member
    case isTrue cut =>
      simp only [List.mem_cons, List.not_mem_nil, or_false] at member
      rcases member with rfl | rfl
      · simp only [Chunk.Whole, Chunk.stop, allocExtra] at *
        omega
      · exact Kind.noConfusion isFree
    case isFalse =>
      rw [List.mem_singleton.mp member] at isFree
      exact Kind.noConfusion isFree
  · exact partly other (List.mem_append_right before member) isFree

theorem blocks_carve (n request : Nat) (isFree : chunk.kind = .free) :
    (blocks (before ++ chunk.carve n request ++ after)).Perm
      (⟨chunk.carved n + allocExtra, request⟩ :: blocks (before ++ [chunk] ++ after)) := by
  have new : blocks (chunk.carve n request) = [⟨chunk.carved n + allocExtra, request⟩] := by
    unfold Chunk.carve Chunk.carved
    split <;> simp [Chunk.data, isFree]
  have old : blocks [chunk] = [] := by simp [Chunk.data, isFree]
  rw [blocks_append, blocks_append, blocks_append, blocks_append, new, old, List.append_nil,
    List.append_assoc, List.singleton_append]
  exact List.perm_middle

theorem hunks_carve (n request : Nat) (isFree : chunk.kind = .free) :
    hunks (before ++ chunk.carve n request ++ after) = hunks (before ++ [chunk] ++ after) := by
  have new : hunks (chunk.carve n request) = hunks [chunk] := by
    unfold Chunk.carve
    split <;> simp [Chunk.hunk, isFree]
  rw [hunks_append, hunks_append, hunks_append, hunks_append, new]

/-- A walk along the ring that passes all nodes before a place, but not the one after it. -/
theorem Tiled.seek {stop : Nat → Bool} (tiled : Tiled place (before ++ after))
    (ring : memory.links.Ring place.head (listed (before ++ after)))
    (passed : ∀ chunk ∈ before, chunk.listed → stop chunk.address = false)
    (stops : stop (rightNode place.head after) = true) :
    Links.seek memory.links.next stop addressSpace (memory.get place.head .next) =
      .done (rightNode place.head after) := by
  rw [listed_append] at ring
  refine ring.seek_eq (fun node inRing => ?_) stops ?_
  · rcases mem_listed.mp inRing with ⟨chunk, member, isListed, rfl⟩
    exact passed chunk member isListed
  · have short := tiled.length_lt
    rw [listed_append, List.length_append] at short
    omega

theorem Tiled.address_ne_head (tiled : Tiled place chunks) (member : chunk ∈ chunks) :
    chunk.address ≠ place.head := by
  have away := tiled.head_apart member
  have header := (tiled.fits chunk member).header
  have inside := place.inside
  simp only [Chunk.stop, allocExtra] at *
  omega

/-- A free chunk with room for `n` bytes. -/
def Chunk.roomy (n : Nat) (chunk : Chunk) : Bool := chunk.kind = .free && n ≤ chunk.size

theorem firstFit_eq (n : Nat) (tiled : Tiled place chunks)
    (shows : Shows place.head memory chunks) :
    (firstFit place.head n memory = .done place.head ∧
        ∀ chunk ∈ chunks, chunk.roomy n = false) ∨
      ∃ before chunk after, chunks = before ++ [chunk] ++ after ∧ chunk.roomy n = true ∧
        firstFit place.head n memory = .done chunk.address := by
  have passed : ∀ chunk ∈ chunks, chunk.listed → chunk.roomy n = false →
      (decide (chunk.address = place.head) || !(memory.get chunk.address .size < n ||
        memory.get chunk.address .valid = valSbrk)) = false := by
    intro chunk member isListed small
    have header := shows.headers chunk member
    have notHead := tiled.address_ne_head member
    rw [header.size, header.valid]
    cases kind : chunk.kind with
    | sbrk => simp [notHead, Kind.valid]
    | free => simpa [notHead, Chunk.roomy, kind, Kind.valid, valFree, valSbrk] using small
    | alloc request => simp [Chunk.listed, kind, Kind.listed] at isListed
  cases found : chunks.find? (Chunk.roomy n) with
  | none =>
      have none := List.find?_eq_none.mp found
      refine Or.inl ⟨?_, fun chunk member => by simpa using none chunk member⟩
      rw [← List.append_nil chunks] at tiled shows
      refine tiled.seek shows.ring (fun chunk member isListed => ?_) ?_
      · exact passed chunk member isListed (by simpa using none chunk member)
      · simp [rightNode]
  | some chunk =>
      rcases List.find?_eq_some_iff_append.mp found with ⟨roomy, before, after, rfl, small⟩
      refine Or.inr ⟨before, chunk, after, by simp, roomy, ?_⟩
      have isFree : chunk.kind = .free ∧ n ≤ chunk.size := by simpa [Chunk.roomy] using roomy
      have node : rightNode place.head (chunk :: after) = chunk.address := by
        simp [rightNode, isFree, Kind.listed]
      rw [← node]
      refine tiled.seek shows.ring (fun other member isListed => ?_) ?_
      · exact passed other (by simp [member]) isListed (by simpa using small other member)
      · have header := shows.headers chunk (by simp)
        rw [node, header.size, header.valid, isFree.1]
        simpa [Kind.valid, valFree, valSbrk] using Or.inr isFree.2

/-- The place of an address among the chunks. -/
theorem notBefore_eq (q : Nat) (tiled : Tiled place (before ++ after))
    (ring : memory.links.Ring place.head (listed (before ++ after)))
    (below : ∀ chunk ∈ before, chunk.address < q) (above : ∀ chunk ∈ after, q ≤ chunk.address) :
    notBefore place.head q memory = .done (rightNode place.head after) := by
  refine tiled.seek ring (fun chunk member _ => ?_) ?_
  · simp [below chunk member, tiled.address_ne_head (List.mem_append_left after member)]
  · rcases List.mem_cons.mp (Fenced.headD_mem place.head (listed after)) with atHead | inRing
    · rw [rightNode, atHead, decide_eq_true rfl, Bool.true_or]
    · rcases mem_listed.mp inRing with ⟨chunk, member, -, same⟩
      rw [rightNode, ← same]
      simp [above chunk member]

/-- The most that `malloc` can be asked for. -/
def maxRequest : Nat := addressSpace - pageSize - sbrkExtra - allocExtra

theorem chunkSize_spec {n : Nat} (request : n ≤ maxRequest) :
    n + allocExtra ≤ chunkSize n ∧ chunkSize n % 4 = 0 ∧
      chunkSize n + sbrkExtra + pageSize ≤ addressSpace := by
  simp only [maxRequest, chunkSize, plus, addressSpace, pageSize, sbrkExtra, allocExtra] at *
  omega

theorem hunkSize_spec {minHunk n : Nat} (limit : minHunk ≤ maxHunk * 2)
    (small : n + sbrkExtra + pageSize ≤ addressSpace) :
    n + sbrkExtra ≤ (hunkSize minHunk n).1 ∧ (hunkSize minHunk n).1 % 4 = 0 ∧
      (hunkSize minHunk n).2 ≤ maxHunk * 2 := by
  have exact : plus n sbrkExtra = n + sbrkExtra := plus_eq (by
    simp only [sbrkExtra, pageSize] at *
    omega)
  unfold hunkSize
  rw [exact]
  split
  case isTrue =>
    simp only [pages, plus, addressSpace, pageSize, sbrkExtra, maxHunk] at *
    omega
  case isFalse =>
    refine ⟨?_, ?_, ?_⟩
    · simp only [pages, plus, addressSpace, pageSize, sbrkExtra, maxHunk] at *
      omega
    · simp only [pages, plus, addressSpace, pageSize, sbrkExtra, maxHunk] at *
      omega
    · split <;> simp only [plus, addressSpace, maxHunk] at * <;> omega

/-- The block of GEMDOS that a call of `malloc` got. -/
def Allocation.gained (gemdos : Nat → Nat) (result : Allocation) : List Extent :=
  match result.asked with
  | some sz => if gemdos sz = 0 then [] else [⟨gemdos sz, sz⟩]
  | none => []

/-- What GEMDOS may answer to a `Malloc`. -/
def Answers (place : Statics) (hunks : List Extent) (gemdos : Nat → Nat) : Prop :=
  ∀ sz, gemdos sz = 0 ∨ Fresh place hunks ⟨gemdos sz, sz⟩

/-- The chunks that `carve` leaves are settled. -/
theorem carve_settles {n request : Nat} (tiled : Tiled place (before ++ [chunk] ++ after))
    (shows : Shows place.head memory (before ++ [chunk] ++ after))
    (merged : Merged (before ++ [chunk] ++ after))
    (partly : ∀ other ∈ before ++ after, other.kind = .free → ¬ other.Whole)
    (isFree : chunk.kind = .free) (enough : n ≤ chunk.size) (aligned : n % 4 = 0)
    (room : request + allocExtra ≤ n) :
    ∃ memory', carve n chunk.address memory = (memory', chunk.carved n) ∧
      Settled place memory' (before ++ chunk.carve n request ++ after) ∧
      plus (chunk.carved n) allocExtra = chunk.carved n + allocExtra ∧
      ∀ address, Quiet place (before ++ [chunk] ++ after) address →
        memory' address = memory address := by
  rcases carve_makes tiled shows isFree enough aligned room with ⟨memory', carved, makes⟩
  have long : 0 < n := by
    simp only [allocExtra] at room
    omega
  refine ⟨memory', carved, ⟨makes.tiled, makes.shows, merged.carve n request isFree,
    partly_carve n request tiled long partly⟩, ?_, fun address quiet => (makes.quiet address quiet).2⟩
  have fits := tiled.fits chunk (by simp)
  have within := fits.within
  have bounds := fits.bounds
  refine plus_eq ?_
  unfold Chunk.carved
  split
  all_goals
    simp only [Chunk.stop, allocExtra] at *
    omega

/-- The chunks before an address and those from it on. -/
theorem Tiled.split_at (tiled : Tiled place chunks) (q : Nat) :
    ∃ before after, chunks = before ++ after ∧ (∀ chunk ∈ before, chunk.address < q) ∧
      ∀ chunk ∈ after, q ≤ chunk.address := by
  have sorted := tiled.pairwise
  clear tiled
  induction chunks with
  | nil => exact ⟨[], [], rfl, by simp, by simp⟩
  | cons first chunks induction =>
      rw [List.pairwise_cons] at sorted
      by_cases below : first.address < q
      · rcases induction sorted.2 with ⟨before, after, rfl, lower, upper⟩
        exact ⟨first :: before, after, rfl, List.forall_mem_cons.mpr ⟨below, lower⟩, upper⟩
      · refine ⟨[], first :: chunks, rfl, by simp, fun chunk member => ?_⟩
        rcases List.mem_cons.mp member with rfl | member
        · omega
        · have above := sorted.1 chunk member
          simp only [Chunk.stop] at above
          omega

/-- What a call of `malloc` does when it hands out a block. -/
structure Served (place : Statics) (gemdos : Nat → Nat) (n : Nat) (memory : Memory)
    (chunks : List Chunk) (result : Allocation) (chunks' : List Chunk) : Prop where
  value : result.value ≠ 0
  settled : Settled place result.heap.memory chunks'
  blocks : (blocks chunks').Perm (⟨result.value, n⟩ :: Libcmini.blocks chunks)
  hunks : (hunks chunks').Perm (result.gained gemdos ++ Libcmini.hunks chunks)
  quiet : ∀ address, Quiet place chunks address →
    (∀ hunk ∈ result.gained gemdos, ¬ hunk.Holds address) →
    result.heap.memory address = memory address

/-- The first chunk of a new block, and the one that the block is carved from. -/
def hunkStart (q sz : Nat) : Chunk := ⟨q, sbrkExtra, .sbrk, q, q + sz⟩

def hunkRest (q sz : Nat) : Chunk := ⟨q + sbrkExtra, sz - sbrkExtra, .free, q, q + sz⟩

theorem append_newHunk (q sz : Nat) : before ++ newHunk q sz ++ after =
    (before ++ [hunkStart q sz]) ++ [hunkRest q sz] ++ after := by
  simp [newHunk, hunkStart, hunkRest]

/-- A block is carved from a new block of GEMDOS. -/
theorem grow_settles {n request q sz : Nat} (settled : Settled place memory chunks)
    (fresh : Fresh place (hunks chunks) ⟨q, sz⟩) (words : sz % 4 = 0)
    (enough : n + sbrkExtra ≤ sz) (aligned : n % 4 = 0) (room : request + allocExtra ≤ n) :
    ∃ p added carved chunks', notBefore place.head q memory = .done p ∧
      addHunk p q sz memory = added ∧ carve n added.2 added.1 = carved ∧
      Settled place carved.1 chunks' ∧
      (blocks chunks').Perm (⟨plus carved.2 allocExtra, request⟩ :: blocks chunks) ∧
      (hunks chunks').Perm (⟨q, sz⟩ :: hunks chunks) ∧ plus carved.2 allocExtra ≠ 0 ∧
      ∀ address, Quiet place chunks address → ¬ Extent.Holds ⟨q, sz⟩ address →
        carved.1 address = memory address := by
  rcases settled.tiled.split_at q with ⟨before, after, rfl, below, above⟩
  have bounds := fresh.bounds
  have long : sbrkExtra + allocExtra ≤ sz := by omega
  have tiled := settled.tiled.addHunk fresh words long below above
  rcases addHunk_makes settled.tiled settled.shows tiled long bounds.2 with
    ⟨memory', adds, shows, quiet⟩
  rw [append_newHunk] at tiled shows
  have merged : Merged ((before ++ [hunkStart q sz]) ++ [hunkRest q sz] ++ after) := by
    have whole := settled.merged
    rw [← List.append_nil before] at whole
    have walled := @Merged.wall before [] (hunkStart q sz) whole.parts.1 .nil (by simp [hunkStart])
    rw [List.append_nil] at walled
    refine walled.alone whole.parts.2.2 (by simp [Taken, hunkStart]) fun right isFirst => ?_
    have stop : (hunkRest q sz).stop = (hunkRest q sz).top := by
      simp only [Chunk.stop, hunkRest]
      omega
    rw [(tiled.starts_after stop right isFirst).1]
    exact Kind.noConfusion
  have partly : ∀ other ∈ (before ++ [hunkStart q sz]) ++ after, other.kind = .free →
      ¬ other.Whole := by
    intro other member isFree
    simp only [List.mem_append, List.mem_singleton] at member
    rcases member with (member | rfl) | member
    · exact settled.partly other (List.mem_append_left after member) isFree
    · exact Kind.noConfusion isFree
    · exact settled.partly other (List.mem_append_right before member) isFree
  rcases carve_settles tiled shows merged partly rfl (by simp only [hunkRest]; omega) aligned room
    with ⟨memory'', carved, settled', value, quiet'⟩
  refine ⟨_, _, _, _, notBefore_eq q settled.tiled settled.shows.ring below above, adds, carved,
    settled', ?_, ?_, value.trans_ne (Nat.succ_ne_zero _), fun address isQuiet away => ?_⟩
  · simp only [value]
    refine (blocks_carve n request rfl).trans (List.Perm.cons _ (List.Perm.of_eq ?_))
    simp [hunkStart, hunkRest, Chunk.data]
  · rw [hunks_carve n request rfl]
    have start : (hunkStart q sz).hunk = some ⟨q, sz⟩ := by simp [Chunk.hunk, hunkStart]
    have rest : (hunkRest q sz).hunk = none := rfl
    simp only [hunks_append, hunks_cons, hunks_nil, start, rest, Option.toList, List.append_nil,
      List.append_assoc, List.singleton_append]
    exact List.perm_middle
  · have first := quiet address isQuiet (by
      simp only [newHunk, List.mem_cons, List.not_mem_nil, or_false, forall_eq_or_imp, forall_eq,
        Chunk.stop, Extent.Holds, Extent.stop] at away ⊢
      omega)
    rw [append_newHunk] at first
    exact (quiet' address first.1).trans first.2

theorem malloc_does {gemdos : Nat → Nat} {n : Nat} {heap : Heap}
    (settled : Settled place heap.memory chunks) (limit : heap.minHunk ≤ maxHunk * 2)
    (request : n ≤ maxRequest) (answers : Answers place (hunks chunks) gemdos) :
    ∃ result, malloc place.head gemdos n heap = .done result ∧
      result.heap.minHunk ≤ maxHunk * 2 ∧
      ((result.value = 0 ∧ result.heap.memory = heap.memory ∧
          ∃ sz, result.asked = some sz ∧ gemdos sz = 0) ∨
        ∃ chunks', Served place gemdos n heap.memory chunks result chunks') := by
  have size := chunkSize_spec request
  rcases firstFit_eq (chunkSize n) settled.tiled settled.shows with
    ⟨full, -⟩ | ⟨before, chunk, after, rfl, roomy, found⟩
  · have hunk := @hunkSize_spec _ (chunkSize n) limit size.2.2
    by_cases refused : gemdos (hunkSize heap.minHunk (chunkSize n)).1 = 0
    · exact ⟨_, malloc_refused full refused, hunk.2.2, Or.inl ⟨rfl, rfl, _, rfl, refused⟩⟩
    · rcases grow_settles settled ((answers _).resolve_left refused) hunk.2.1 hunk.1 size.2.1 size.1
        with ⟨p, added, carved, chunks', here, adds, carves, settled', inUse, owned, value, quiet⟩
      refine ⟨_, malloc_grown full rfl refused here adds carves, hunk.2.2, Or.inr ⟨chunks', value,
        settled', inUse, ?_, ?_⟩⟩
      · simpa only [Allocation.gained, if_neg refused, List.singleton_append] using owned
      · intro address isQuiet away
        refine quiet address isQuiet (away _ ?_)
        simp only [Allocation.gained, if_neg refused, List.mem_singleton]
  · have isFree : chunk.kind = .free ∧ chunkSize n ≤ chunk.size := by
      simpa [Chunk.roomy] using roomy
    have partly : ∀ other ∈ before ++ after, other.kind = .free → ¬ other.Whole :=
      fun other member => settled.partly other (by simp at member ⊢; tauto)
    rcases carve_settles settled.tiled settled.shows settled.merged partly isFree.1 isFree.2 size.2.1
      size.1 with ⟨memory', carved, settled', value, quiet⟩
    refine ⟨_, malloc_found found (settled.tiled.address_ne_head (by simp)) carved, limit,
      Or.inr ⟨_, ?_, settled', ?_, ?_, fun address isQuiet _ => quiet address isQuiet⟩⟩
    · exact value.trans_ne (Nat.succ_ne_zero _)
    · simp only [value]
      exact blocks_carve _ n isFree.1
    · rw [hunks_carve _ n isFree.1]
      exact .refl _

end Chgres.Libcmini
