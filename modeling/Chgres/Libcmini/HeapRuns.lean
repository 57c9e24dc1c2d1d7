import Chgres.Libcmini.HeapFrees

/-! # Runs of the heap

What the program relies on of `malloc` and `free`, after any calls of them and whatever is written
to the blocks that are handed out and to the memory around the heap.
-/

namespace Chgres.Libcmini

variable {place : Statics} {memory memory' : Memory} {chunks before after : List Chunk}
variable {chunk : Chunk}

/-- The heap, the blocks that `malloc` handed out and those that GEMDOS gave to it. -/
structure World where
  heap : Heap
  blocks : List Extent
  hunks : List Extent

def without (start : Nat) (extents : List Extent) : List Extent :=
  extents.filter fun extent => extent.start ≠ start

namespace World

/-- After a call of `malloc` for `n` bytes. -/
def allocated (world : World) (gemdos : Nat → Nat) (n : Nat) (result : Allocation) : World where
  heap := result.heap
  blocks := if result.value = 0 then world.blocks else ⟨result.value, n⟩ :: world.blocks
  hunks := result.gained gemdos ++ world.hunks

/-- After a call of `free`. -/
def released (world : World) (param : Nat) (result : Release) : World where
  heap := { world.heap with memory := result.memory }
  blocks := without param world.blocks
  hunks := match result.mfree with
    | some base => without base world.hunks
    | none => world.hunks

/-- What may be given to `free`: a block that is handed out, `NULL`, or what does not look like
such a block, as the table of `sort_restab` that comes from GEMDOS. -/
def MayFree (world : World) (param : Nat) : Prop :=
  (∃ block ∈ world.blocks, block.start = param) ∨ param = 0 ∨
    world.heap.memory.get (minus param allocExtra) .valid ≠ valAlloc

/-- The steps of the program, as the heap sees them. -/
inductive Step (place : Statics) : World → World → Prop
  | malloc {world gemdos n result} (request : n ≤ maxRequest)
      (answers : Answers place world.hunks gemdos)
      (call : malloc place.head gemdos n world.heap = .done result) :
      Step place world (world.allocated gemdos n result)
  | free {world param result} (mayFree : world.MayFree param)
      (call : free place.head param world.heap.memory = .done result) :
      Step place world (world.released param result)
  | others {world memory}
      (same : ∀ address, ¬ Theirs place world.blocks world.hunks address →
        memory address = world.heap.memory address) :
      Step place world { world with heap := { world.heap with memory := memory } }

/-- The chunks behind what the program sees. -/
structure Behind (place : Statics) (world : World) (chunks : List Chunk) : Prop where
  settled : Settled place world.heap.memory chunks
  blocks : world.blocks.Perm (Libcmini.blocks chunks)
  hunks : world.hunks.Perm (Libcmini.hunks chunks)
  limit : world.heap.minHunk ≤ maxHunk * 2

end World

/-! ## The blocks -/

theorem blocks_pairwise (tiled : Tiled place chunks) :
    (blocks chunks).Pairwise fun left right => left.stop + allocExtra ≤ right.start := by
  have sorted : chunks.Pairwise fun left right =>
      left.stop ≤ right.address ∧ left.Fits place :=
    tiled.pairwise.imp_of_mem fun {left _} member _ below => ⟨below, tiled.fits left member⟩
  refine sorted.filterMap _ fun left right below block isBlock block' isBlock' => ?_
  cases kind : left.kind <;> simp [Chunk.data, kind] at isBlock
  cases kind' : right.kind <;> simp [Chunk.data, kind'] at isBlock'
  have room := below.2.room _ kind
  have order := below.1
  subst isBlock isBlock'
  simp only [Extent.stop, Chunk.stop] at *
  omega

theorem hunks_pairwise (tiled : Tiled place chunks) :
    (hunks chunks).Pairwise fun left right => left.start < right.start := by
  have sorted : chunks.Pairwise fun left right =>
      left.stop ≤ right.address ∧ left.Fits place ∧ right.Fits place :=
    tiled.pairwise.imp_of_mem fun {left right} member member' below =>
      ⟨below, tiled.fits left member, tiled.fits right member'⟩
  refine sorted.filterMap _ fun left right below hunk isHunk hunk' isHunk' => ?_
  cases kind : left.kind <;> simp [Chunk.hunk, kind] at isHunk
  cases kind' : right.kind <;> simp [Chunk.hunk, kind'] at isHunk'
  have start := below.2.1.sbrk kind
  have start' := below.2.2.sbrk kind'
  have order := below.1
  subst isHunk isHunk'
  simp only [Chunk.stop, sbrkExtra, allocExtra] at *
  omega

/-- A block that is handed out lies in one of GEMDOS, on a longword of it. -/
theorem block_inside (tiled : Tiled place chunks) {block : Extent}
    (member : block ∈ blocks chunks) :
    ∃ hunk ∈ hunks chunks, block.Inside hunk ∧ block.start % 4 = hunk.start % 4 := by
  rcases mem_blocks.mp member with ⟨chunk, member', isAlloc, start⟩
  have fits := tiled.fits chunk member'
  have within := fits.within
  have room := fits.room _ isAlloc
  have words := fits.aligned
  refine ⟨_, tiled.hunk_mem member', ?_⟩
  simp only [Extent.Inside, Extent.stop, Chunk.stop, allocExtra] at *
  omega

/-- What `malloc` got of GEMDOS lies outside of what GEMDOS had given before. -/
theorem gained_fresh {gemdos : Nat → Nat} {hunks : List Extent} {result : Allocation}
    (answers : Answers place hunks gemdos) {hunk : Extent}
    (member : hunk ∈ result.gained gemdos) : Fresh place hunks hunk := by
  unfold Allocation.gained at member
  split at member
  · split at member
    case isTrue => exact absurd member List.not_mem_nil
    case isFalse given =>
      rw [List.mem_singleton.mp member]
      exact (answers _).resolve_left given
  · exact absurd member List.not_mem_nil

theorem without_perm {extents rest : List Extent} {start size : Nat}
    (distinct : extents.Pairwise fun left right => left.start ≠ right.start)
    (perm : extents.Perm (⟨start, size⟩ :: rest)) : (without start extents).Perm rest := by
  have apart := (perm.pairwise_iff (fun different => Ne.symm different)).mp distinct
  rw [List.pairwise_cons] at apart
  have others : ∀ extent ∈ rest, decide (extent.start ≠ start) = true :=
    fun extent member => decide_eq_true (Ne.symm (apart.1 extent member))
  have filtered := perm.filter fun extent => decide (extent.start ≠ start)
  rw [List.filter_cons_of_neg (by simp), List.filter_eq_self.mpr others] at filtered
  exact filtered

/-- With no block handed out there is no block of GEMDOS either. -/
theorem Settled.returned (settled : Settled place memory chunks) (none : blocks chunks = []) :
    chunks = [] := by
  have tiled := settled.tiled
  have notAlloc : ∀ chunk ∈ chunks, ∀ n, chunk.kind ≠ .alloc n := by
    intro chunk member n isAlloc
    have isBlock : ⟨chunk.address + allocExtra, n⟩ ∈ blocks chunks :=
      mem_blocks.mpr ⟨chunk, member, isAlloc, rfl⟩
    rw [none] at isBlock
    exact absurd isBlock List.not_mem_nil
  cases chunks with
  | nil => rfl
  | cons first rest =>
      exfalso
      have starts : first.kind = .sbrk := @Tiled.between place [] _ tiled
      have atBase := (tiled.fits first (by simp)).sbrk starts
      have onward : Chunk.Meets (some first) rest.head? := @Tiled.between place [first] rest tiled
      simp only [sbrkExtra, allocExtra] at atBase
      cases rest with
      | nil =>
          simp only [List.head?_nil, Chunk.Meets, Chunk.stop] at onward
          omega
      | cons second rest =>
          simp only [List.head?_cons, Chunk.Meets] at onward
          split at onward
          case isTrue =>
            simp only [Chunk.stop] at onward
            omega
          case isFalse inner =>
            have isFree : second.kind = .free := by
              cases kind : second.kind with
              | sbrk => exact absurd kind inner
              | free => rfl
              | alloc n => exact absurd kind (notAlloc second (by simp) n)
            refine settled.partly second (by simp) isFree ⟨?_, ?_⟩
            · simp only [Chunk.stop, sbrkExtra] at *
              omega
            · have last : Chunk.Meets (some second) rest.head? :=
                @Tiled.between place [first, second] rest tiled
              cases rest with
              | nil => exact last
              | cons third rest =>
                  simp only [List.head?_cons, Chunk.Meets] at last
                  split at last
                  case isTrue => exact last.1
                  case isFalse inner' =>
                    exfalso
                    have merged := (List.isChain_cons_cons.mp settled.merged).2
                    cases kind : third.kind with
                    | sbrk => exact inner' kind
                    | free => exact (List.isChain_cons_cons.mp merged).1 ⟨isFree, kind⟩
                    | alloc n => exact notAlloc third (by simp) n kind

/-! ## What others write -/

/-- What is written to blocks that are handed out, and around the heap, leaves the heap alone. -/
theorem Shows.others (shows : Shows place.head memory chunks) (tiled : Tiled place chunks)
    (same : ∀ address, ¬ Theirs place (blocks chunks) (hunks chunks) address →
      memory' address = memory address) : Shows place.head memory' chunks := by
  have pointers : ∀ node ∈ place.head :: listed chunks, ∀ field : Field,
      field.offset < allocExtra → memory'.get node field = memory.get node field := by
    intro node isNode field inHeader
    refine same _ fun theirs => ?_
    have away := (theirs.quiet tiled).node tiled isNode
    omega
  refine ⟨shows.ring.congr (fun node isNode => ?_) (fun node isNode => ?_), fun chunk member => ?_⟩
  · exact pointers node isNode .next (by decide)
  · exact pointers node isNode .prev (by decide)
  · have header := shows.headers chunk member
    have fits := tiled.fits chunk member
    have long := fits.header
    have kept : ∀ field : Field, chunk.address + field.offset < chunk.stop →
        (chunk.listed = true ∨ field.offset < allocExtra) →
        memory'.get chunk.address field = memory.get chunk.address field := by
      intro field inside isHeader
      refine same _ fun theirs => ?_
      have away := (theirs.quiet tiled).chunks chunk member
      rcases isHeader with isListed | inHeader
      · simp only [isListed, Bool.true_eq_false, false_and, or_false] at away
        omega
      · omega
    simp only [Chunk.stop, allocExtra] at *
    refine ⟨?_, ?_, fun starts => ?_⟩
    · rw [kept .valid (by simp only [Field.offset]; omega) (Or.inr (by decide)), header.valid]
    · rw [kept .size (by simp only [Field.offset]; omega) (Or.inr (by decide)), header.size]
    · have atBase := fits.sbrk starts
      rw [kept .sbrkSize (by simp only [Field.offset, atBase.2.1, sbrkExtra]; omega)
        (Or.inl (by simp [Chunk.listed, starts, Kind.listed])), header.room starts]

/-! ## Steps -/

theorem Extent.Apart.symm {left right : Extent} (apart : left.Apart right) : right.Apart left :=
  Or.symm apart

theorem Answers.congr {gemdos : Nat → Nat} {hunks hunks' : List Extent}
    (answers : Answers place hunks gemdos) (same : hunks.Perm hunks') :
    Answers place hunks' gemdos := by
  intro sz
  refine (answers sz).imp_right fun fresh => ⟨fresh.bounds, fresh.clear, fun hunk member => ?_⟩
  exact fresh.apart hunk (same.mem_iff.mpr member)

theorem Theirs.congr {blocks blocks' hunks hunks' : List Extent} {address : Nat}
    (theirs : Theirs place blocks hunks address) (same : blocks.Perm blocks')
    (same' : hunks.Perm hunks') : Theirs place blocks' hunks' address := by
  refine theirs.imp ?_ (And.imp_right fun away hunk member => ?_)
  · rintro ⟨block, member, holds⟩
    exact ⟨block, same.mem_iff.mp member, holds⟩
  · exact away hunk (same'.mem_iff.mpr member)

namespace World

variable {world world' : World}

theorem Behind.malloc {gemdos : Nat → Nat} {n : Nat} (behind : world.Behind place chunks)
    (request : n ≤ maxRequest) (answers : Answers place world.hunks gemdos) :
    ∃ result chunks', Libcmini.malloc place.head gemdos n world.heap = .done result ∧
      (world.allocated gemdos n result).Behind place chunks' ∧
      (result.value = 0 → ∃ sz, result.asked = some sz ∧ gemdos sz = 0) ∧
      ∀ address, Theirs place world.blocks (result.gained gemdos ++ world.hunks) address →
        result.heap.memory address = world.heap.memory address := by
  rcases malloc_does behind.settled behind.limit request (answers.congr behind.hunks) with
    ⟨result, call, limit, ⟨null, sameMemory, sz, asked, refused⟩ | ⟨chunks', served⟩⟩
  · have gained : result.gained gemdos = [] := by simp [Allocation.gained, asked, refused]
    refine ⟨result, chunks, call, ⟨?_, ?_, ?_, limit⟩, fun _ => ⟨sz, asked, refused⟩, ?_⟩
    · exact sameMemory ▸ behind.settled
    · simpa only [allocated, if_pos null] using behind.blocks
    · simpa only [allocated, gained, List.nil_append] using behind.hunks
    · exact fun address _ => congrFun sameMemory address
  · have tiled := behind.settled.tiled
    refine ⟨result, chunks', call, ⟨served.settled, ?_, ?_, limit⟩, fun null => absurd null
      served.value, fun address theirs => served.quiet address ?_ fun hunk gained holds => ?_⟩
    · simp only [allocated, if_neg served.value]
      exact (List.Perm.cons _ behind.blocks).trans served.blocks.symm
    · exact (List.Perm.append_left _ behind.hunks).trans served.hunks.symm
    · refine Theirs.quiet (Theirs.congr ?_ behind.blocks behind.hunks) tiled
      exact theirs.imp_right (And.imp_right fun away hunk member =>
        away hunk (List.mem_append_right _ member))
    · -- The new block of GEMDOS lies outside of the blocks that were handed out before.
      rcases theirs with ⟨block, member, inBlock⟩ | ⟨-, away⟩
      · rcases block_inside tiled (behind.blocks.mem_iff.mp member) with ⟨own, isHunk, inside, -⟩
        have apart := (gained_fresh answers gained).apart own (behind.hunks.mem_iff.mpr isHunk)
        simp only [Extent.Apart, Extent.Inside, Extent.Holds] at *
        omega
      · exact away hunk (List.mem_append_left _ gained) holds

theorem Behind.free {param : Nat} (behind : world.Behind place chunks)
    (mayFree : world.MayFree param) :
    ∃ result chunks', Libcmini.free place.head param world.heap.memory = .done result ∧
      (world.released param result).Behind place chunks' ∧
      (∀ base, result.mfree = some base → ∃ hunk ∈ world.hunks, hunk.start = base) ∧
      ∀ address, Theirs place (without param world.blocks) world.hunks address →
        result.memory address = world.heap.memory address := by
  have tiled := behind.settled.tiled
  have distinct : world.blocks.Pairwise fun left right => left.start ≠ right.start := by
    refine (behind.blocks.pairwise_iff (fun different => Ne.symm different)).mpr
      ((blocks_pairwise tiled).imp fun below => ?_)
    simp only [Extent.stop, allocExtra] at below
    omega
  by_cases isBlock : ∃ block ∈ world.blocks, block.start = param
  · rcases isBlock with ⟨block, member, rfl⟩
    rcases free_does behind.settled (behind.blocks.mem_iff.mp member) with
      ⟨result, chunks', call, settled, inUse, leaves, quiet⟩
    have rest : (without block.start world.blocks).Perm (Libcmini.blocks chunks') :=
      without_perm distinct (behind.blocks.trans inUse)
    refine ⟨result, chunks', call, ⟨settled, rest, ?_, behind.limit⟩, ?_, fun address theirs =>
      quiet address (theirs.congr rest behind.hunks)⟩
    · simp only [released]
      cases mfree : result.mfree with
      | none =>
          simp only [Release.Leaves, mfree] at leaves
          exact leaves ▸ behind.hunks
      | some base =>
          simp only [Release.Leaves, mfree] at leaves
          rcases leaves with ⟨size, leaves⟩
          refine without_perm ?_ (behind.hunks.trans leaves)
          exact (behind.hunks.pairwise_iff (fun different => Ne.symm different)).mpr
            ((hunks_pairwise tiled).imp Nat.ne_of_lt)
    · intro base mfree
      simp only [Release.Leaves, mfree] at leaves
      rcases leaves with ⟨size, leaves⟩
      exact ⟨⟨base, size⟩, (behind.hunks.trans leaves).mem_iff.mpr List.mem_cons_self, rfl⟩
  · have foreign := mayFree.resolve_left isBlock
    have same : without param world.blocks = world.blocks :=
      List.filter_eq_self.mpr fun block member =>
        decide_eq_true fun same => isBlock ⟨block, member, same⟩
    refine ⟨_, chunks, free_foreign foreign, ⟨behind.settled, ?_, behind.hunks, behind.limit⟩,
      fun base other => by simp at other, fun _ _ => rfl⟩
    simpa only [released, same] using behind.blocks

/-- Every step leaves chunks behind what the program sees. -/
theorem Behind.step (behind : world.Behind place chunks) (step : Step place world world') :
    ∃ chunks', world'.Behind place chunks' := by
  cases step with
  | malloc request answers call =>
      rcases behind.malloc request answers with ⟨result, chunks', call', behind', -⟩
      rw [call] at call'
      cases call'
      exact ⟨chunks', behind'⟩
  | free mayFree call =>
      rcases behind.free mayFree with ⟨result, chunks', call', behind', -⟩
      rw [call] at call'
      cases call'
      exact ⟨chunks', behind'⟩
  | others same =>
      refine ⟨chunks, ⟨⟨behind.settled.tiled, ?_, behind.settled.merged, behind.settled.partly⟩,
        behind.blocks, behind.hunks, behind.limit⟩⟩
      refine behind.settled.shows.others behind.settled.tiled fun address notTheirs => ?_
      exact same address fun theirs =>
        notTheirs (theirs.congr behind.blocks behind.hunks)

/-- `_mchunk_free_list` and `MINHUNK` as the program starts. -/
def Starts (place : Statics) (heap : Heap) : Prop :=
  heap.memory.get place.head .next = place.head ∧ heap.memory.get place.head .prev = place.head ∧
    heap.minHunk = 8192

theorem Starts.behind {heap : Heap} (starts : Starts place heap) :
    (⟨heap, [], []⟩ : World).Behind place [] := by
  refine ⟨⟨⟨?_, by simp⟩, ⟨⟨?_, by simp⟩, by simp⟩, .nil, by simp⟩, .nil, .nil, ?_⟩
  · exact List.isChain_pair.mpr trivial
  · exact List.isChain_pair.mpr ⟨starts.1, starts.2.1⟩
  · rw [starts.2.2]
    decide

/-- What the program relies on. -/
structure Serves (place : Statics) (world : World) : Prop where
  apart : world.blocks.Pairwise Extent.Apart
  inside : ∀ block ∈ world.blocks, ∃ hunk ∈ world.hunks, block.Inside hunk ∧
    block.start % 4 = hunk.start % 4
  returned : world.blocks = [] → world.hunks = []
  malloc : ∀ gemdos n, n ≤ maxRequest → Answers place world.hunks gemdos →
    ∃ result, Libcmini.malloc place.head gemdos n world.heap = .done result ∧
      (result.value = 0 → ∃ sz, result.asked = some sz ∧ gemdos sz = 0) ∧
      ∀ address, Theirs place world.blocks (result.gained gemdos ++ world.hunks) address →
        result.heap.memory address = world.heap.memory address
  free : ∀ param, world.MayFree param →
    ∃ result, Libcmini.free place.head param world.heap.memory = .done result ∧
      (∀ base, result.mfree = some base → ∃ hunk ∈ world.hunks, hunk.start = base) ∧
      ∀ address, Theirs place (without param world.blocks) world.hunks address →
        result.memory address = world.heap.memory address
  foreign : ∀ param, world.MayFree param → (∀ block ∈ world.blocks, block.start ≠ param) →
    Libcmini.free place.head param world.heap.memory = .done ⟨world.heap.memory, none⟩

theorem Behind.serves (behind : world.Behind place chunks) : world.Serves place := by
  have tiled := behind.settled.tiled
  constructor
  · refine (behind.blocks.pairwise_iff (fun apart => apart.symm)).mpr
      ((blocks_pairwise tiled).imp fun below => Or.inl ?_)
    exact (Nat.le_add_right _ _).trans below
  · intro block member
    rcases block_inside tiled (behind.blocks.mem_iff.mp member) with ⟨hunk, isHunk, inside⟩
    exact ⟨hunk, behind.hunks.mem_iff.mpr isHunk, inside⟩
  · intro none
    have noBlocks : Libcmini.blocks chunks = [] := (none ▸ behind.blocks).nil_eq.symm
    have noChunks := behind.settled.returned noBlocks
    have noHunks := behind.hunks
    rw [noChunks] at noHunks
    exact noHunks.eq_nil
  · intro gemdos n request answers
    rcases behind.malloc request answers with ⟨result, chunks', call, -, null, quiet⟩
    exact ⟨result, call, null, quiet⟩
  · intro param mayFree
    rcases behind.free mayFree with ⟨result, chunks', call, -, mfree, quiet⟩
    exact ⟨result, call, mfree, quiet⟩
  · intro param mayFree notOurs
    refine free_foreign (mayFree.resolve_left ?_)
    rintro ⟨block, member, same⟩
    exact notOurs block member same

end World

open World in
/-- The heap serves the program, whatever the calls, the answers of GEMDOS and the writes. -/
theorem heap_serves {place : Statics} {heap : Heap} {world : World}
    (starts : Starts place heap)
    (run : Relation.ReflTransGen (Step place) ⟨heap, [], []⟩ world) : world.Serves place := by
  have behind : ∃ chunks, world.Behind place chunks := by
    induction run with
    | refl => exact ⟨[], starts.behind⟩
    | tail _ step induction =>
        rcases induction with ⟨chunks, behind⟩
        exact behind.step step
  rcases behind with ⟨chunks, behind⟩
  exact behind.serves

/-! ### A run -/

/-- Nothing in memory but an empty ring at 1000. -/
def firstMemory : Memory :=
  Memory.set (Memory.set (fun _ => 0) 1000 .next 1000) 1000 .prev 1000

/-- A GEMDOS with 64 KB to give. -/
def firstAnswers (sz : Nat) : Nat := if sz ≤ 65536 then 65536 else 0

def firstPlace : Statics := ⟨500, 1000, by decide⟩

theorem firstAnswers_answers : Answers firstPlace [] firstAnswers := by
  intro sz
  unfold firstAnswers
  split
  case isTrue small =>
    refine Or.inr ⟨⟨(by decide : 0 < 65536), ?_⟩, Or.inr (by simp [firstPlace, allocExtra]),
      by simp⟩
    simp only [Extent.stop, addressSpace]
    omega
  case isFalse => exact Or.inl rfl

def firstCall : Outcome Allocation := malloc 1000 firstAnswers 100 ⟨firstMemory, 8192⟩

def firstResult : Allocation := firstCall.getD ⟨0, ⟨firstMemory, 0⟩, none⟩

/-- GEMDOS has no more to give, and the block of the first call is large enough. -/
def secondCall : Outcome Allocation := malloc 1000 (fun _ => 0) 40 firstResult.heap

def secondResult : Allocation := secondCall.getD firstResult

/-- The first block is given back. -/
def thirdCall : Outcome Release := free 1000 firstResult.value secondResult.heap.memory

def thirdResult : Release := thirdCall.getD ⟨firstMemory, none⟩

theorem firstResults :
    firstResult.value = 73628 ∧ firstResult.gained firstAnswers = [⟨65536, 8192⟩] ∧
      secondResult.value = 73572 ∧ secondResult.gained (fun _ => 0) = [] ∧
      thirdResult.mfree = none := by
  decide +kernel

open World in
/-- Two blocks are handed out, and the first one is given back. -/
theorem heap_serves_sample : ∃ world : World,
    Relation.ReflTransGen (Step firstPlace) ⟨⟨firstMemory, 8192⟩, [], []⟩ world ∧
      world.blocks = [⟨73572, 40⟩] ∧ world.hunks = [⟨65536, 8192⟩] ∧
      world.Serves firstPlace := by
  have starts : Starts firstPlace ⟨firstMemory, 8192⟩ := ⟨rfl, rfl, rfl⟩
  rcases firstResults with ⟨first, gained, second, gained', kept⟩
  let start : World := ⟨⟨firstMemory, 8192⟩, [], []⟩
  let one := start.allocated firstAnswers 100 firstResult
  let two := one.allocated (fun _ => 0) 40 secondResult
  have step : Step firstPlace start one :=
    .malloc (by decide) firstAnswers_answers (Outcome.eq_done_getD (by decide +kernel) _)
  have step' : Step firstPlace one two :=
    .malloc (by decide) (fun _ => .inl rfl) (Outcome.eq_done_getD (by decide +kernel) _)
  have mayFree : two.MayFree firstResult.value := by
    refine .inl ⟨⟨firstResult.value, 100⟩, ?_, rfl⟩
    simp [start, one, two, allocated, first, second]
  have step'' : Step firstPlace two (two.released firstResult.value thirdResult) :=
    .free mayFree (Outcome.eq_done_getD (by decide +kernel) _)
  have run := ((Relation.ReflTransGen.refl.tail step).tail step').tail step''
  refine ⟨_, run, ?_, ?_, heap_serves starts run⟩
  · simp [start, one, two, released, allocated, without, first, second]
  · simp [start, one, two, released, allocated, kept, gained, gained']

end Chgres.Libcmini
