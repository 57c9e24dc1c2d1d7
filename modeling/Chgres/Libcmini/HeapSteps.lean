import Chgres.Libcmini.HeapChunks

/-! # The steps of `malloc` and `free`

What each step does to the chunks.
-/

namespace Chgres.Libcmini

variable {place : Statics} {memory : Memory} {before after : List Chunk} {chunk : Chunk}

/-- What a step makes of the memory, when it makes the chunks `chunks'` out of `chunks`. -/
structure Makes (place : Statics) (memory : Memory) (chunks : List Chunk) (memory' : Memory)
    (chunks' : List Chunk) : Prop where
  shows : Shows place.head memory' chunks'
  tiled : Tiled place chunks'
  quiet : ∀ address, Quiet place chunks address →
    Quiet place chunks' address ∧ memory' address = memory address

/-- An edit of chunks of the ring, which stays within them. -/
theorem Makes.of_confined {old new : List Chunk} {memory' : Memory}
    (tiled : Tiled place (before ++ old ++ after)) (tiled' : Tiled place (before ++ new ++ after))
    (shows : Shows place.head memory (before ++ old ++ after))
    (confined : Confined (leftNode place.head before) (rightNode place.head after) (old ++ new)
      memory memory')
    (arc : (leftNode place.head before :: listed new ++ [rightNode place.head after]).IsChain
      memory'.links.Joined)
    (headers : ∀ chunk ∈ new, chunk.Header memory')
    (inRing : ∀ chunk ∈ old, chunk.listed = true)
    (within : ∀ chunk ∈ new, ∀ address, chunk.address ≤ address → address < chunk.stop →
      ∃ whole ∈ old, whole.address ≤ address ∧ address < whole.stop) :
    Makes place memory (before ++ old ++ after) memory' (before ++ new ++ after) := by
  refine ⟨shows.splice tiled tiled' confined arc headers, tiled', fun address quiet => ?_⟩
  have parts := quiet
  rw [Quiet.append, Quiet.append] at parts
  have outsideOld : ∀ chunk ∈ old, address < chunk.address ∨ chunk.stop ≤ address := by
    intro chunk member
    have away := parts.1.2.chunks chunk member
    rw [inRing chunk member] at away
    simpa using away
  have outsideNew : ∀ chunk ∈ new, address < chunk.address ∨ chunk.stop ≤ address := by
    intro chunk member
    by_contra inside
    rcases within chunk member address (by omega) (by omega) with ⟨whole, member', lower, upper⟩
    have away := outsideOld whole member'
    omega
  constructor
  · rw [Quiet.append, Quiet.append]
    refine ⟨⟨parts.1.1, parts.2.head, fun chunk member => ?_⟩, parts.2⟩
    exact (outsideNew chunk member).imp_right Or.inl
  · refine confined.quiet tiled quiet fun chunk member => ?_
    rcases List.mem_append.mp member with inOld | inNew
    · exact outsideOld chunk inOld
    · exact outsideNew chunk inNew

/-! ## `carve` -/

/-- A chunk of `n` bytes is cut off the end of a free chunk, for a caller who wants `request`
bytes. -/
def Chunk.carve (n request : Nat) (chunk : Chunk) : List Chunk :=
  if n + allocExtra < chunk.size then
    [{ chunk with size := chunk.size - n },
      { chunk with address := chunk.address + (chunk.size - n), size := n,
                   kind := .alloc request }]
  else [{ chunk with kind := .alloc request }]

def Chunk.carved (n : Nat) (chunk : Chunk) : Nat :=
  if n + allocExtra < chunk.size then chunk.address + (chunk.size - n) else chunk.address

theorem Tiled.carve {n request : Nat} (tiled : Tiled place (before ++ [chunk] ++ after))
    (isFree : chunk.kind = .free) (enough : n ≤ chunk.size) (aligned : n % 4 = 0)
    (room : request + allocExtra ≤ n) :
    Tiled place (before ++ chunk.carve n request ++ after) := by
  have fits := tiled.fits chunk (by simp)
  have behind := fits.behind (by simp [isFree])
  have inside := fits.within
  have words := fits.aligned
  have meets := tiled.neighbours
  unfold Chunk.carve
  split
  case isTrue long =>
    refine tiled.splice ?_ ?_
    · simp only [List.map_cons, List.map_nil, List.cons_append, List.nil_append,
        List.isChain_cons_cons, List.IsChain.singleton, and_true]
      refine ⟨meets.1.congr_right (by simp [isFree]) rfl rfl rfl, ?_,
        meets.2.congr_left ?_ rfl rfl⟩
      · simp [Chunk.Meets, Chunk.stop]
      · simp only [Chunk.stop]
        omega
    · simp only [Chunk.stop, allocExtra] at *
      simp only [List.mem_cons, List.not_mem_nil, or_false, forall_eq_or_imp, forall_eq]
      constructor
      · refine ⟨?_, ?_, ?_, fits.bounds, fits.clear, ?_, fun _ => behind, ?_⟩
        · simp only [allocExtra]
          omega
        · simp only
          omega
        · simp only [Chunk.stop]
          omega
        · simp [isFree]
        · simp [isFree]
      · refine ⟨?_, ?_, ?_, fits.bounds, fits.clear, ?_, ?_, ?_⟩
        · simp only [allocExtra]
          omega
        · simp only
          omega
        · simp only [Chunk.stop]
          omega
        · simp
        · simp only
          omega
        · rintro m ⟨⟩
          exact room
  case isFalse short =>
    refine tiled.splice ?_ ?_
    · simp only [List.map_cons, List.map_nil, List.cons_append, List.nil_append,
        List.isChain_cons_cons, List.IsChain.singleton, and_true]
      exact ⟨meets.1.congr_right (by simp [isFree]) rfl rfl rfl, meets.2.congr_left rfl rfl rfl⟩
    · simp only [List.mem_cons, List.not_mem_nil, or_false, forall_eq]
      refine ⟨fits.header, fits.aligned, fits.within, fits.bounds, fits.clear, by simp,
        fun _ => behind, ?_⟩
      rintro m ⟨⟩
      exact room.trans enough

/-- A chunk between its neighbours, with all that lies apart there. -/
structure Spot (place : Statics) (memory : Memory) (before : List Chunk) (chunk : Chunk)
    (after : List Chunk) : Prop where
  next : memory.get chunk.address .next = rightNode place.head after
  prev : memory.get chunk.address .prev = leftNode place.head before
  size : memory.get chunk.address .size = chunk.size
  left : leftNode place.head before + 16 ≤ chunk.address ∨
    chunk.address + chunk.size ≤ leftNode place.head before
  right : rightNode place.head after + 16 ≤ chunk.address ∨
    chunk.address + chunk.size ≤ rightNode place.head after
  sides : leftNode place.head before = rightNode place.head after ∨
    leftNode place.head before + 16 ≤ rightNode place.head after ∨
    rightNode place.head after + 16 ≤ leftNode place.head before
  header : 16 ≤ chunk.size
  bounds : chunk.address + chunk.size < addressSpace

theorem spot (tiled : Tiled place (before ++ [chunk] ++ after))
    (shows : Shows place.head memory (before ++ [chunk] ++ after)) (inRing : chunk.listed = true) :
    Spot place memory before chunk after := by
  have neighbours := shows.neighbours inRing
  have fits := tiled.fits chunk (by simp)
  have isLeft := leftNode_mem place.head before after
  have isRight := rightNode_mem place.head before after
  constructor
  · exact neighbours.2.1
  · exact neighbours.1.2
  · exact (shows.headers chunk (by simp)).size
  · exact tiled.node_around isLeft (List.mem_singleton_self chunk)
  · exact tiled.node_around isRight (List.mem_singleton_self chunk)
  · exact tiled.nodes_apart (Tiled.mem_around _ isLeft) (Tiled.mem_around _ isRight)
  · exact fits.header
  · exact fits.within.2.trans_lt fits.bounds.2

/-- "split, leave part of free list" -/
theorem split_makes {n request : Nat} (tiled : Tiled place (before ++ [chunk] ++ after))
    (shows : Shows place.head memory (before ++ [chunk] ++ after)) (isFree : chunk.kind = .free)
    (long : n + allocExtra < chunk.size) (aligned : n % 4 = 0) (room : request + allocExtra ≤ n) :
    Makes place memory (before ++ [chunk] ++ after)
      (((memory.set chunk.address .size (chunk.size - n)).set
        (chunk.address + (chunk.size - n)) .size n).set
        (chunk.address + (chunk.size - n)) .valid valAlloc)
      (before ++ chunk.carve n request ++ after) := by
  have inRing : chunk.listed = true := by simp [Chunk.listed, isFree, Kind.listed]
  have tiled' := tiled.carve isFree (by omega) aligned room
  have spot := spot tiled shows inRing
  have header := spot.header
  have left := spot.left
  have right := spot.right
  have valid := (shows.headers chunk (by simp)).valid
  have neighbours := shows.neighbours inRing
  have split : chunk.carve n request = [{ chunk with size := chunk.size - n },
      { chunk with address := chunk.address + (chunk.size - n), size := n,
                   kind := .alloc request }] := by rw [Chunk.carve, if_pos long]
  rw [split] at tiled' ⊢
  simp only [allocExtra] at long room
  refine .of_confined tiled tiled' shows ?_ ?_ ?_ (by simp [inRing]) ?_
  · intro address _ _ outside
    have away := outside chunk (by simp)
    unfold Chunk.stop at away
    rw [Memory.set_other, Memory.set_other, Memory.set_other]
    all_goals
      simp only [Field.offset]
      omega
  · have nodes : listed [{ chunk with size := chunk.size - n },
        { chunk with address := chunk.address + (chunk.size - n), size := n,
                     kind := .alloc request }] = [chunk.address] := by
      simp [isFree, Kind.listed]
    rw [nodes]
    simp only [List.cons_append, List.nil_append, List.isChain_cons_cons, List.IsChain.singleton,
      and_true, Links.Joined, Memory.links_next, Memory.links_prev] at neighbours ⊢
    simp (disch := (simp only [Field.offset]; omega)) only [Memory.get_set_other]
    exact neighbours
  · simp only [List.mem_cons, List.not_mem_nil, or_false, forall_eq_or_imp, forall_eq]
    constructor
    · refine ⟨?_, ?_, by simp [isFree]⟩
      · simp (disch := (simp only [Field.offset]; omega)) only [Memory.get_set_other, valid]
      · simp (disch := (simp only [Field.offset]; omega)) only [Memory.get_set_other,
          Memory.get_set_same]
    · exact ⟨by simp [Kind.valid], by simp, by simp⟩
  · simp only [List.mem_cons, List.not_mem_nil, or_false, forall_eq_or_imp, forall_eq,
      exists_eq_left, Chunk.stop]
    constructor
    · intro address lower upper
      omega
    · intro address lower upper
      omega

/-- "just unlink it" -/
theorem unlink_makes {n request : Nat} (tiled : Tiled place (before ++ [chunk] ++ after))
    (shows : Shows place.head memory (before ++ [chunk] ++ after)) (isFree : chunk.kind = .free)
    (short : ¬ n + allocExtra < chunk.size) (enough : n ≤ chunk.size) (aligned : n % 4 = 0)
    (room : request + allocExtra ≤ n) :
    Makes place memory (before ++ [chunk] ++ after)
      (((memory.set (rightNode place.head after) .prev (leftNode place.head before)).set
        (leftNode place.head before) .next (rightNode place.head after)).set
        chunk.address .valid valAlloc)
      (before ++ chunk.carve n request ++ after) := by
  have inRing : chunk.listed = true := by simp [Chunk.listed, isFree, Kind.listed]
  have tiled' := tiled.carve isFree enough aligned room
  have spot := spot tiled shows inRing
  have header := spot.header
  have left := spot.left
  have right := spot.right
  have sides := spot.sides
  have size := spot.size
  have whole : chunk.carve n request = [{ chunk with kind := .alloc request }] := by
    rw [Chunk.carve, if_neg short]
  rw [whole] at tiled' ⊢
  refine .of_confined tiled tiled' shows ?_ ?_ ?_ (by simp [inRing]) ?_
  · intro address notNext notPrev outside
    have away := outside chunk (by simp)
    unfold Chunk.stop at away
    rw [Memory.set_other, Memory.set_other _ _ notNext, Memory.set_other _ _ notPrev]
    simp only [Field.offset]
    omega
  · simp only [listed_cons, listed_nil, Kind.listed, Bool.false_eq_true, if_false,
      List.cons_append, List.nil_append, List.isChain_cons_cons, List.IsChain.singleton,
      and_true, Links.Joined, Memory.links_next, Memory.links_prev]
    simp (disch := (simp only [Field.offset]; omega)) only [Memory.get_set_other,
      Memory.get_set_same, and_self]
  · simp only [List.mem_cons, List.not_mem_nil, or_false, forall_eq]
    refine ⟨by simp [Kind.valid], ?_, by simp⟩
    simp (disch := (simp only [Field.offset]; omega)) only [Memory.get_set_other, size]
  · simp only [List.mem_cons, List.not_mem_nil, or_false, forall_eq, exists_eq_left, Chunk.stop]
    exact fun address lower upper => ⟨lower, upper⟩

theorem carve_makes {n request : Nat} (tiled : Tiled place (before ++ [chunk] ++ after))
    (shows : Shows place.head memory (before ++ [chunk] ++ after)) (isFree : chunk.kind = .free)
    (enough : n ≤ chunk.size) (aligned : n % 4 = 0) (room : request + allocExtra ≤ n) :
    ∃ memory', carve n chunk.address memory = (memory', chunk.carved n) ∧
      Makes place memory (before ++ [chunk] ++ after) memory'
        (before ++ chunk.carve n request ++ after) := by
  have inRing : chunk.listed = true := by simp [Chunk.listed, isFree, Kind.listed]
  have tiled' := tiled.carve isFree enough aligned room
  have spot := spot tiled shows inRing
  have small := spot.bounds
  have high := (tiled.fits chunk (by simp)).behind (by simp [isFree])
  have fit : plus n allocExtra = n + allocExtra := by
    refine plus_eq ?_
    simp only [allocExtra, sbrkExtra] at *
    omega
  unfold Libcmini.carve Chunk.carved
  rw [spot.size, spot.next, spot.prev, fit]
  split
  case isTrue long =>
    have rest : minus chunk.size n = chunk.size - n := minus_eq enough (by omega)
    have start : plus chunk.address (chunk.size - n) = chunk.address + (chunk.size - n) :=
      plus_eq (by omega)
    simp only [rest, Memory.get_set_same, start]
    exact ⟨_, rfl, split_makes tiled shows isFree long aligned room⟩
  case isFalse short =>
    have left := spot.left
    have right := spot.right
    have header := spot.header
    simp (disch := (simp only [Field.offset]; omega)) only [Memory.get_set_other, spot.prev,
      spot.next]
    exact ⟨_, rfl, unlink_makes tiled shows isFree short enough aligned room⟩

/-! ## `addHunk` -/

/-- The chunks in a new block of GEMDOS of `sz` bytes. -/
def newHunk (q sz : Nat) : List Chunk :=
  [⟨q, sbrkExtra, .sbrk, q, q + sz⟩, ⟨q + sbrkExtra, sz - sbrkExtra, .free, q, q + sz⟩]

/-- Bytes that GEMDOS may give to the program beside the blocks that it already has. -/
structure Fresh (place : Statics) (hunks : List Extent) (extent : Extent) : Prop where
  bounds : 0 < extent.start ∧ extent.stop < addressSpace
  clear : extent.stop ≤ place.basepage ∨ place.head + allocExtra ≤ extent.start
  apart : ∀ hunk ∈ hunks, extent.Apart hunk

theorem Tiled.addHunk {q sz : Nat} (tiled : Tiled place (before ++ after))
    (fresh : Fresh place (hunks (before ++ after)) ⟨q, sz⟩) (aligned : sz % 4 = 0)
    (long : sbrkExtra + allocExtra ≤ sz) (below : ∀ chunk ∈ before, chunk.address < q)
    (above : ∀ chunk ∈ after, q ≤ chunk.address) :
    Tiled place (before ++ newHunk q sz ++ after) := by
  have apart : ∀ chunk ∈ before ++ after, q + sz ≤ chunk.base ∨ chunk.top ≤ q := by
    intro chunk member
    have away := fresh.apart _ (tiled.hunk_mem member)
    have within := (tiled.fits chunk member).within
    simp only [Extent.Apart, Extent.stop] at away
    unfold Chunk.stop at within
    omega
  simp only [sbrkExtra, allocExtra] at long
  -- No block reaches across the new one.
  have ends : ∀ left, before.getLast? = some left → left.top ≤ q ∧
      ∀ right, after.head? = some right → right.kind = .sbrk := by
    intro left isLast
    have member := List.mem_of_getLast? isLast
    have fits := tiled.fits left (List.mem_append_left after member)
    have away := apart left (List.mem_append_left after member)
    have start := below left member
    refine ⟨by have within := fits.within; omega, fun right isFirst => ?_⟩
    have member' := List.mem_of_head? isFirst
    have within := (tiled.fits right (List.mem_append_right before member')).within
    have meets := tiled.between
    rw [isLast, isFirst, Chunk.Meets] at meets
    by_contra inner
    rw [if_neg inner] at meets
    have start' := above right member'
    unfold Chunk.stop at within
    have header := (tiled.fits right (List.mem_append_right before member')).header
    simp only [allocExtra] at header
    have within' := fits.within
    omega
  have starts : ∀ right, after.head? = some right → right.kind = .sbrk := by
    intro right isFirst
    have meets := tiled.between
    cases isLast : before.getLast? with
    | none => rwa [isLast, isFirst] at meets
    | some left => exact (ends left isLast).2 right isFirst
  have meets := tiled.between
  rw [← List.append_nil before] at tiled
  refine tiled.splice ?_ ?_
  · simp only [newHunk, List.map_cons, List.map_nil, List.cons_append, List.nil_append,
      List.isChain_cons_cons, List.IsChain.singleton, and_true]
    refine ⟨?_, by simp [Chunk.Meets, Chunk.stop], ?_⟩
    · cases isLast : before.getLast? with
      | none => rfl
      | some left =>
          have last := ends left isLast
          cases isFirst : after.head? with
          | none =>
              rw [isLast, isFirst] at meets
              exact ⟨meets, last.1⟩
          | some right =>
              rw [isLast, isFirst, Chunk.Meets, if_pos (last.2 right isFirst)] at meets
              exact ⟨meets.1, last.1⟩
    · cases isFirst : after.head? with
      | none =>
          simp only [Chunk.Meets, Chunk.stop, sbrkExtra]
          omega
      | some right =>
          have member := List.mem_of_head? isFirst
          have away := apart right (List.mem_append_right before member)
          have fits := tiled.fits right (by simp [member])
          have start := fits.sbrk (starts right isFirst)
          have within := fits.within
          have lower := above right member
          have header := fits.header
          rw [Chunk.Meets, if_pos (starts right isFirst)]
          simp only [Chunk.stop, sbrkExtra, allocExtra] at *
          omega
  · have bounds := fresh.bounds
    have clear := fresh.clear
    simp only [Extent.stop] at bounds clear
    simp only [newHunk, List.mem_cons, List.not_mem_nil, or_false, forall_eq_or_imp, forall_eq]
    constructor
    · refine ⟨(by decide : allocExtra ≤ sbrkExtra), ⟨(by decide : sbrkExtra % 4 = 0), rfl⟩,
        ⟨le_rfl, ?_⟩, bounds, clear, fun _ => ⟨rfl, rfl, ?_⟩, fun other => absurd rfl other,
        fun n other => Kind.noConfusion other⟩
      · simp only [Chunk.stop, sbrkExtra]
        omega
      · simp only [sbrkExtra, allocExtra]
        omega
    · refine ⟨?_, ?_, ⟨Nat.le_add_right q _, ?_⟩, bounds, clear, fun other => Kind.noConfusion other,
        fun _ => le_rfl, fun n other => Kind.noConfusion other⟩
      · simp only [sbrkExtra, allocExtra]
        omega
      · simp only [sbrkExtra]
        omega
      · simp only [Chunk.stop, sbrkExtra]
        omega

/-- Chunks come in between two others. -/
theorem Shows.add {new : List Chunk} {memory' : Memory}
    (shows : Shows place.head memory (before ++ after)) (tiled : Tiled place (before ++ after))
    (tiled' : Tiled place (before ++ new ++ after))
    (confined : Confined (leftNode place.head before) (rightNode place.head after) new
      memory memory')
    (arc : (leftNode place.head before :: listed new ++ [rightNode place.head after]).IsChain
      memory'.links.Joined)
    (headers : ∀ chunk ∈ new, chunk.Header memory') :
    Shows place.head memory' (before ++ new ++ after) ∧
      ∀ address, Quiet place (before ++ after) address →
        (∀ chunk ∈ new, address < chunk.address ∨ chunk.stop ≤ address) →
        Quiet place (before ++ new ++ after) address ∧ memory' address = memory address := by
  have nothing : before ++ [] ++ after = before ++ after := by rw [List.append_nil]
  rw [← nothing] at tiled shows
  refine ⟨shows.splice tiled tiled' confined arc headers, fun address quiet outside => ?_⟩
  have parts := Quiet.append.mp quiet
  refine ⟨?_, confined.quiet tiled (nothing ▸ quiet) outside⟩
  rw [Quiet.append, Quiet.append]
  refine ⟨⟨parts.1, quiet.head, fun chunk member => ?_⟩, parts.2⟩
  exact (outside chunk member).imp_right Or.inl

theorem addHunk_makes {q sz : Nat} (tiled : Tiled place (before ++ after))
    (shows : Shows place.head memory (before ++ after))
    (tiled' : Tiled place (before ++ newHunk q sz ++ after)) (long : sbrkExtra + allocExtra ≤ sz)
    (bound : q + sz < addressSpace) :
    ∃ memory', addHunk (rightNode place.head after) q sz memory = (memory', q + sbrkExtra) ∧
      Shows place.head memory' (before ++ newHunk q sz ++ after) ∧
      ∀ address, Quiet place (before ++ after) address →
        (∀ chunk ∈ newHunk q sz, address < chunk.address ∨ chunk.stop ≤ address) →
        Quiet place (before ++ newHunk q sz ++ after) address ∧
          memory' address = memory address := by
  simp only [sbrkExtra, allocExtra] at long
  have isLeft := leftNode_mem place.head before after
  have isRight := rightNode_mem place.head before after
  have sides := tiled.nodes_apart isLeft isRight
  have left := tiled'.node_around isLeft List.mem_cons_self
  have left' := tiled'.node_around isLeft (List.mem_cons_of_mem _ (List.mem_singleton_self _))
  have right := tiled'.node_around isRight List.mem_cons_self
  have right' := tiled'.node_around isRight (List.mem_cons_of_mem _ (List.mem_singleton_self _))
  simp only [Chunk.stop, sbrkExtra, allocExtra] at sides left left' right right'
  have between : memory.links.Joined (leftNode place.head before) (rightNode place.head after) := by
    have ring := shows.ring
    rw [listed_append] at ring
    exact ring.between
  have room : minus sz sbrkExtra = sz - sbrkExtra := minus_eq (by simp only [sbrkExtra]; omega)
    (by omega)
  have start : plus q sbrkExtra = q + sbrkExtra := plus_eq (by simp only [sbrkExtra]; omega)
  unfold addHunk
  have prev : memory.get (rightNode place.head after) .prev = leftNode place.head before :=
    between.2
  simp (disch := (simp only [Field.offset, sbrkExtra]; omega)) only [room, start,
    Memory.get_set_other, Memory.get_set_same, prev]
  refine ⟨_, rfl, shows.add tiled tiled' ?_ ?_ ?_⟩
  · intro address notNext notPrev outside
    simp only [newHunk, List.mem_cons, List.not_mem_nil, or_false, forall_eq_or_imp, forall_eq,
      Chunk.stop, sbrkExtra] at outside
    simp only [Field.offset] at notNext notPrev
    simp (disch := (simp only [Field.offset, sbrkExtra]; omega)) only [Memory.set_other]
  · simp only [newHunk, listed_cons, listed_nil, Kind.listed, if_true, List.cons_append,
      List.nil_append, List.isChain_cons_cons, List.IsChain.singleton, and_true, Links.Joined,
      Memory.links_next, Memory.links_prev]
    simp (disch := (simp only [Field.offset, sbrkExtra]; omega)) only [Memory.get_set_other,
      Memory.get_set_same, and_self]
  · simp only [newHunk, List.mem_cons, List.not_mem_nil, or_false, forall_eq_or_imp, forall_eq]
    constructor
    · refine ⟨?_, ?_, fun _ => ?_⟩
      all_goals
        simp (disch := (simp only [Field.offset, sbrkExtra]; omega)) only [Memory.get_set_other,
          Memory.get_set_same, Kind.valid]
      simp only [sbrkExtra]
      omega
    · refine ⟨?_, ?_, fun other => Kind.noConfusion other⟩
      all_goals
        simp (disch := (simp only [Field.offset, sbrkExtra]; omega)) only [Memory.get_set_other,
          Memory.get_set_same, Kind.valid]

end Chgres.Libcmini
