import Chgres.Libcmini.HeapSteps

/-! # The steps of `free`

The chunk comes back into the ring and is merged with the free chunks on both sides of it.
-/

namespace Chgres.Libcmini

variable {place : Statics} {memory : Memory} {before after : List Chunk} {chunk right : Chunk}

/-- The chunk as it is when it is free. -/
def Chunk.freed (chunk : Chunk) : Chunk := { chunk with kind := .free }

/-- The chunk together with the one after it. -/
def Chunk.absorb (chunk right : Chunk) : Chunk := { chunk with size := chunk.size + right.size }

theorem Tiled.freed {n : Nat} (tiled : Tiled place (before ++ [chunk] ++ after))
    (isAlloc : chunk.kind = .alloc n) : Tiled place (before ++ [chunk.freed] ++ after) := by
  have fits := tiled.fits chunk (by simp)
  have meets := tiled.neighbours
  refine tiled.splice ?_ ?_
  · simp only [List.map_cons, List.map_nil, List.cons_append, List.nil_append,
      List.isChain_cons_cons, List.IsChain.singleton, and_true]
    exact ⟨meets.1.congr_right (by simp [Chunk.freed, isAlloc]) rfl rfl rfl,
      meets.2.congr_left rfl rfl rfl⟩
  · simp only [List.mem_singleton, forall_eq]
    exact ⟨fits.header, fits.aligned, fits.within, fits.bounds, fits.clear,
      fun other => Kind.noConfusion other, fun _ => fits.behind (by simp [isAlloc]),
      fun _ other => Kind.noConfusion other⟩

/-- Two chunks, the second right after the first, with their neighbours. -/
theorem Tiled.pair (tiled : Tiled place (before ++ [chunk, right] ++ after)) :
    Chunk.Meets before.getLast? (some chunk) ∧ Chunk.Meets (some chunk) (some right) ∧
      Chunk.Meets (some right) after.head? := by
  have first : before ++ [chunk, right] ++ after = before ++ [chunk] ++ (right :: after) := by simp
  have second : before ++ [chunk, right] ++ after = (before ++ [chunk]) ++ [right] ++ after := by
    simp
  exact ⟨(first ▸ tiled).neighbours.1, (first ▸ tiled).neighbours.2,
    (second ▸ tiled).neighbours.2⟩

theorem Shows.pair (shows : Shows place.head memory (before ++ [chunk, right] ++ after))
    (inRing : chunk.listed) (inRing' : right.listed) :
    memory.links.Joined (leftNode place.head before) chunk.address ∧
      memory.links.Joined chunk.address right.address ∧
      memory.links.Joined right.address (rightNode place.head after) := by
  have first : before ++ [chunk, right] ++ after = before ++ [chunk] ++ (right :: after) := by simp
  have second : before ++ [chunk, right] ++ after = (before ++ [chunk]) ++ [right] ++ after := by
    simp
  have node : rightNode place.head (right :: after) = right.address := by
    rw [rightNode, listed_cons, if_pos (show right.kind.listed = true from inRing'),
      List.headD_cons]
  exact ⟨((first ▸ shows).neighbours inRing).1, node ▸ ((first ▸ shows).neighbours inRing).2,
    ((second ▸ shows).neighbours inRing').2⟩

theorem Tiled.absorb (tiled : Tiled place (before ++ [chunk, right] ++ after))
    (isFree : chunk.kind = .free) (isFree' : right.kind = .free) :
    Tiled place (before ++ [chunk.absorb right] ++ after) := by
  have fits := tiled.fits chunk (by simp)
  have fits' := tiled.fits right (by simp)
  rcases tiled.pair with ⟨left, between, onward⟩
  simp only [Chunk.Meets, isFree', reduceCtorEq, if_false] at between
  have header := fits.header
  have within := fits'.within
  have words := fits.aligned
  have words' := fits'.aligned
  simp only [Chunk.stop] at between within
  refine tiled.splice ?_ ?_
  · simp only [List.map_cons, List.map_nil, List.cons_append, List.nil_append,
      List.isChain_cons_cons, List.IsChain.singleton, and_true]
    refine ⟨left.congr_right Iff.rfl rfl rfl rfl, onward.congr_left ?_ between.2.1 between.2.2⟩
    simp only [Chunk.stop, Chunk.absorb]
    omega
  · simp only [List.mem_singleton, forall_eq]
    refine ⟨?_, ⟨?_, words.2⟩, ⟨fits.within.1, ?_⟩, fits.bounds, fits.clear, ?_, fits.behind, ?_⟩
    · exact header.trans (Nat.le_add_right _ _)
    · simp only [Chunk.absorb]
      omega
    · simp only [Chunk.stop, Chunk.absorb]
      omega
    · exact fun other => Kind.noConfusion (isFree.symm.trans other)
    · exact fun _ other => Kind.noConfusion (isFree.symm.trans other)

/-- The writes of both merges. -/
theorem absorb_makes (tiled : Tiled place (before ++ [chunk, right] ++ after))
    (shows : Shows place.head memory (before ++ [chunk, right] ++ after))
    (isFree : chunk.kind = .free) (isFree' : right.kind = .free) :
    Makes place memory (before ++ [chunk, right] ++ after)
      (((memory.set chunk.address .size (chunk.size + right.size)).set chunk.address .next
        (rightNode place.head after)).set (rightNode place.head after) .prev chunk.address)
      (before ++ [chunk.absorb right] ++ after) := by
  have inRing : chunk.listed = true := by simp [Chunk.listed, isFree, Kind.listed]
  have inRing' : right.listed = true := by simp [Chunk.listed, isFree', Kind.listed]
  have isLeft := leftNode_mem place.head before after
  have isRight := rightNode_mem place.head before after
  have left := tiled.node_around isLeft List.mem_cons_self
  have next := tiled.node_around isRight List.mem_cons_self
  have sides := tiled.nodes_apart (Tiled.mem_around _ isLeft) (Tiled.mem_around _ isRight)
  have header := (tiled.fits chunk (by simp)).header
  have meets := tiled.pair.2.1
  have joined := shows.pair inRing inRing'
  have valid := (shows.headers chunk (by simp)).valid
  simp only [Chunk.stop, allocExtra] at left next sides header
  simp only [Chunk.Meets, isFree', reduceCtorEq, if_false, Chunk.stop] at meets
  refine .of_confined tiled (tiled.absorb isFree isFree') shows ?_ ?_ ?_ ?_ ?_
  · intro address notNext notPrev outside
    have away := outside chunk (by simp)
    simp only [Chunk.stop] at away
    simp only [Field.offset] at notNext notPrev
    simp (disch := (simp only [Field.offset]; omega)) only [Memory.set_other]
  · simp only [Chunk.absorb, listed_cons, listed_nil, isFree, Kind.listed, if_true,
      List.cons_append, List.nil_append, List.isChain_cons_cons, List.IsChain.singleton, and_true,
      Links.Joined, Memory.links_next, Memory.links_prev] at joined ⊢
    simp (disch := (simp only [Field.offset]; omega)) only [Memory.get_set_other,
      Memory.get_set_same, joined, and_self]
  · simp only [List.mem_singleton, forall_eq]
    refine ⟨?_, ?_, fun other => Kind.noConfusion (isFree.symm.trans other)⟩
    all_goals
      simp (disch := (simp only [Field.offset]; omega)) only [Memory.get_set_other,
        Memory.get_set_same, valid, Chunk.absorb]
  · simp [inRing, inRing']
  · simp only [List.mem_cons, List.not_mem_nil, or_false, forall_eq, exists_eq_or_imp,
      exists_eq_left, Chunk.absorb, Chunk.stop]
    intro address lower upper
    omega

/-! ## `insert` -/

theorem insert_makes {n : Nat} (tiled : Tiled place (before ++ [chunk] ++ after))
    (shows : Shows place.head memory (before ++ [chunk] ++ after))
    (isAlloc : chunk.kind = .alloc n) :
    Shows place.head (insert chunk.address (rightNode place.head after)
        (memory.set chunk.address .valid valFree)) (before ++ [chunk.freed] ++ after) ∧
      ∀ address, Quiet place (before ++ [chunk.freed] ++ after) address →
        insert chunk.address (rightNode place.head after) (memory.set chunk.address .valid valFree)
          address = memory address := by
  have isLeft := leftNode_mem place.head before after
  have isRight := rightNode_mem place.head before after
  have left := tiled.node_around isLeft (List.mem_singleton_self chunk)
  have right := tiled.node_around isRight (List.mem_singleton_self chunk)
  have sides := tiled.nodes_apart (Tiled.mem_around _ isLeft) (Tiled.mem_around _ isRight)
  have header := (tiled.fits chunk (by simp)).header
  have size := (shows.headers chunk (by simp)).size
  simp only [Chunk.stop, allocExtra] at left right sides header
  have between : memory.links.Joined (leftNode place.head before) (rightNode place.head after) := by
    have ring := shows.ring
    rw [listed_append, listed_append, listed_cons, isAlloc] at ring
    simp only [Kind.listed, Bool.false_eq_true, if_false, listed_nil, List.append_nil] at ring
    exact ring.between
  have tiled' := tiled.freed isAlloc
  have prev : memory.get (rightNode place.head after) .prev = leftNode place.head before :=
    between.2
  have plain : insert chunk.address (rightNode place.head after)
      (memory.set chunk.address .valid valFree) =
      ((((memory.set chunk.address .valid valFree).set chunk.address .next
        (rightNode place.head after)).set chunk.address .prev (leftNode place.head before)).set
        (leftNode place.head before) .next chunk.address).set (rightNode place.head after) .prev
        chunk.address := by
    unfold insert
    simp (disch := (simp only [Field.offset]; omega)) only [Memory.get_set_other,
      Memory.get_set_same, prev]
  rw [plain]
  have confined : Confined (leftNode place.head before) (rightNode place.head after)
      ([chunk] ++ [chunk.freed]) memory
      (((((memory.set chunk.address .valid valFree).set chunk.address .next
        (rightNode place.head after)).set chunk.address .prev (leftNode place.head before)).set
        (leftNode place.head before) .next chunk.address).set (rightNode place.head after) .prev
        chunk.address) := by
    intro address notNext notPrev outside
    have away := outside chunk (by simp)
    simp only [Chunk.stop] at away
    simp only [Field.offset] at notNext notPrev
    simp (disch := (simp only [Field.offset]; omega)) only [Memory.set_other]
  constructor
  · refine shows.splice tiled tiled' confined ?_ ?_
    · simp only [Chunk.freed, listed_cons, listed_nil, Kind.listed, if_true, List.cons_append,
        List.nil_append, List.isChain_cons_cons, List.IsChain.singleton, and_true, Links.Joined,
        Memory.links_next, Memory.links_prev]
      simp (disch := (simp only [Field.offset]; omega)) only [Memory.get_set_other,
        Memory.get_set_same, and_self]
    · simp only [List.mem_singleton, forall_eq]
      refine ⟨?_, ?_, fun other => Kind.noConfusion other⟩
      all_goals
        simp (disch := (simp only [Field.offset]; omega)) only [Memory.get_set_other,
          Memory.get_set_same, size, Chunk.freed, Kind.valid]
  · intro address quiet
    have parts := Quiet.append.mp quiet
    have outside : address < chunk.address ∨ chunk.stop ≤ address := by
      have away := (Quiet.append.mp parts.1).2.chunks chunk.freed (by simp)
      simp only [Chunk.freed, Chunk.listed, Kind.listed, Bool.true_eq_false, false_and,
        or_false] at away
      exact away
    have quiet' : Quiet place (before ++ [chunk] ++ after) address := by
      rw [Quiet.append, Quiet.append]
      exact ⟨⟨(Quiet.append.mp parts.1).1, quiet.head, by simp; tauto⟩, parts.2⟩
    refine confined.quiet tiled quiet' ?_
    simp only [List.cons_append, List.nil_append, List.mem_cons, List.not_mem_nil, or_false,
      forall_eq_or_imp, forall_eq]
    exact ⟨outside, outside⟩

/-! ## The merges -/

theorem Kind.valid_free {kind : Kind} : kind.valid = valFree ↔ kind = .free := by
  cases kind <;> simp [Kind.valid, valFree, valSbrk, valAlloc]

theorem Kind.valid_sbrk {kind : Kind} : kind.valid = valSbrk ↔ kind = .sbrk := by
  cases kind <;> simp [Kind.valid, valFree, valSbrk, valAlloc]

/-- The chunk that starts where one ends comes right after it. -/
theorem Tiled.head_of_stop (tiled : Tiled place (before ++ [chunk] ++ after))
    (member : right ∈ after) (stop : chunk.stop = right.address) : after.head? = some right := by
  rcases List.append_of_mem member with ⟨front, back, rfl⟩
  cases front with
  | nil => rfl
  | cons first front =>
      have header := (tiled.fits first (by simp)).header
      have lower : chunk.stop ≤ first.address := tiled.le_of_mem (by simp) (by simp)
      have again : before ++ [chunk] ++ (first :: front ++ right :: back) =
          (before ++ [chunk] ++ first :: front) ++ right :: back := by simp
      have upper : first.stop ≤ right.address := (again ▸ tiled).le_of_mem (by simp) (by simp)
      simp only [Chunk.stop, allocExtra] at *
      omega

/-- The chunk that ends where one starts comes right before it. -/
theorem Tiled.getLast_of_stop (tiled : Tiled place (before ++ [chunk] ++ after)) {left : Chunk}
    (member : left ∈ before) (stop : left.stop = chunk.address) : before.getLast? = some left := by
  rcases List.append_of_mem member with ⟨front, back, rfl⟩
  rcases List.eq_nil_or_concat back with rfl | ⟨back, last, rfl⟩
  · exact List.getLast?_concat
  · have header := (tiled.fits last (by simp)).header
    have again : front ++ left :: back.concat last ++ [chunk] ++ after =
        (front ++ [left]) ++ (back ++ [last] ++ [chunk] ++ after) := by simp
    have lower : left.stop ≤ last.address := (again ▸ tiled).le_of_mem (by simp) (by simp)
    have again' : front ++ left :: back.concat last ++ [chunk] ++ after =
        (front ++ left :: back ++ [last]) ++ ([chunk] ++ after) := by simp
    have upper : last.stop ≤ chunk.address := (again' ▸ tiled).le_of_mem (by simp) (by simp)
    simp only [Chunk.stop, allocExtra] at *
    omega

theorem mergeAfter_merges (tiled : Tiled place (before ++ [chunk, right] ++ after))
    (shows : Shows place.head memory (before ++ [chunk, right] ++ after))
    (isFree : chunk.kind = .free) (isFree' : right.kind = .free) :
    Makes place memory (before ++ [chunk, right] ++ after)
      (mergeAfter chunk.address right.address memory)
      (before ++ [chunk.absorb right] ++ after) := by
  have inRing : chunk.listed = true := by simp [Chunk.listed, isFree, Kind.listed]
  have inRing' : right.listed = true := by simp [Chunk.listed, isFree', Kind.listed]
  have header := shows.headers chunk (by simp)
  have header' := shows.headers right (by simp)
  have next := (shows.pair inRing inRing').2.2.1
  rw [Memory.links_next] at next
  have fits := tiled.fits chunk (by simp)
  have fits' := tiled.fits right (by simp)
  have within := fits'.within
  have bounds := fits'.bounds
  have meets := tiled.pair.2.1
  have long := fits.header
  simp only [Chunk.Meets, isFree', reduceCtorEq, if_false] at meets
  simp only [Chunk.stop, allocExtra] at meets within long
  have stop : plus chunk.address chunk.size = right.address :=
    (plus_eq (by omega)).trans meets.1
  have size : plus chunk.size right.size = chunk.size + right.size := plus_eq (by omega)
  have makes := absorb_makes tiled shows isFree isFree'
  unfold mergeAfter
  rw [header.size, stop, header'.valid, isFree', if_pos ⟨rfl, rfl⟩]
  simp (disch := (simp only [Field.offset]; omega)) only [Memory.get_set_other, header'.size, next,
    size]
  exact makes

theorem mergeAfter_stays (tiled : Tiled place (before ++ [chunk] ++ after))
    (shows : Shows place.head memory (before ++ [chunk] ++ after))
    (last : ∀ right, after.head? = some right → right.kind ≠ .free) :
    mergeAfter chunk.address (rightNode place.head after) memory = memory := by
  have fits := tiled.fits chunk (by simp)
  have bounds := fits.within.2.trans_lt fits.bounds.2
  have stop : plus chunk.address chunk.size = chunk.stop := plus_eq bounds
  unfold mergeAfter
  rw [(shows.headers chunk (by simp)).size, stop, if_neg]
  rintro ⟨ends, isFree⟩
  rcases List.mem_cons.mp (Fenced.headD_mem place.head (listed after)) with atHead | inRing
  · have away := tiled.head_apart (List.mem_append_left after
      (List.mem_append_right before (List.mem_singleton_self chunk)))
    have inside := place.inside
    rw [rightNode, atHead] at ends
    simp only [Chunk.stop, allocExtra] at *
    omega
  · rcases mem_listed.mp inRing with ⟨right, member, -, same⟩
    rw [rightNode, ← same] at ends isFree
    rw [(shows.headers right (by simp [member])).valid, Kind.valid_free] at isFree
    exact last right (tiled.head_of_stop member ends) isFree

theorem mergeBefore_merges {left : Chunk} (tiled : Tiled place (before ++ [left, chunk] ++ after))
    (shows : Shows place.head memory (before ++ [left, chunk] ++ after))
    (isFree : left.kind = .free) (isFree' : chunk.kind = .free) :
    ∃ memory', mergeBefore place.head chunk.address memory = (memory', left.address) ∧
      Makes place memory (before ++ [left, chunk] ++ after) memory'
        (before ++ [left.absorb chunk] ++ after) := by
  have inRing : left.listed = true := by simp [Chunk.listed, isFree, Kind.listed]
  have inRing' : chunk.listed = true := by simp [Chunk.listed, isFree', Kind.listed]
  have header := shows.headers left (by simp)
  have header' := shows.headers chunk (by simp)
  have joined := shows.pair inRing inRing'
  have prev : memory.get chunk.address .prev = left.address := joined.2.1.2
  have next : memory.get chunk.address .next = rightNode place.head after := joined.2.2.1
  have fits := tiled.fits left (by simp)
  have fits' := tiled.fits chunk (by simp)
  have within := fits'.within
  have bounds := fits'.bounds
  have meets := tiled.pair.2.1
  have long := fits.header
  have away := tiled.head_apart (List.mem_append_left after
    (List.mem_append_right before (List.mem_cons_self)))
  have inside := place.inside
  simp only [Chunk.Meets, isFree', reduceCtorEq, if_false] at meets
  simp only [Chunk.stop, allocExtra] at meets within long away
  have stop : plus left.address left.size = chunk.address := (plus_eq (by omega)).trans meets.1
  have size : plus left.size chunk.size = left.size + chunk.size := plus_eq (by omega)
  have makes := absorb_makes tiled shows isFree isFree'
  unfold mergeBefore
  simp only [prev, header.size, stop, header.valid, isFree, Kind.valid, and_true]
  rw [if_pos (by omega)]
  simp (disch := (simp only [Field.offset]; omega)) only [Memory.get_set_other, header'.size, next,
    size]
  exact ⟨_, rfl, makes⟩

theorem mergeBefore_stays (tiled : Tiled place (before ++ [chunk] ++ after))
    (shows : Shows place.head memory (before ++ [chunk] ++ after)) (inRing : chunk.listed)
    (first : ∀ left, before.getLast? = some left → left.kind ≠ .free) :
    mergeBefore place.head chunk.address memory = (memory, chunk.address) := by
  have prev : memory.get chunk.address .prev = leftNode place.head before :=
    (shows.neighbours inRing).1.2
  unfold mergeBefore
  simp only [prev]
  rw [if_neg]
  rintro ⟨notHead, isFree, ends⟩
  rcases List.mem_cons.mp (Fenced.getLastD_mem place.head (listed before)) with atHead | inRing'
  · exact notHead atHead
  · rcases mem_listed.mp inRing' with ⟨left, member, -, same⟩
    have fits := tiled.fits left (by simp [member])
    have stop : plus left.address left.size = left.stop :=
      plus_eq (fits.within.2.trans_lt fits.bounds.2)
    rw [leftNode, ← same] at ends isFree
    rw [(shows.headers left (by simp [member])).valid, Kind.valid_free] at isFree
    rw [(shows.headers left (by simp [member])).size, stop] at ends
    exact first left (tiled.getLast_of_stop member ends) isFree

/-! ## `giveBack` -/

/-- A chunk that is all of its block comes right after the start of it. -/
theorem Tiled.start_of_whole (tiled : Tiled place (before ++ [chunk] ++ after))
    (inner : chunk.kind ≠ .sbrk) (whole : chunk.Whole) :
    ∃ front start, before = front ++ [start] ∧ start.kind = .sbrk := by
  have meets := tiled.neighbours.1
  cases isLast : before.getLast? with
  | none =>
      rw [isLast] at meets
      exact absurd meets inner
  | some left =>
      rw [isLast, Chunk.Meets, if_neg inner] at meets
      rcases List.getLast?_eq_some_iff.mp isLast with ⟨front, rfl⟩
      refine ⟨front, left, rfl, ?_⟩
      by_contra other
      have fits := tiled.fits left (by simp)
      have behind := fits.behind other
      have header := fits.header
      have start := whole.1
      simp only [Chunk.stop, allocExtra, sbrkExtra] at *
      omega

/-- The start of a block with just the room of a chunk is that of the chunk. -/
theorem Tiled.whole_of_room (tiled : Tiled place (before ++ [chunk] ++ after)) {start : Chunk}
    (inner : chunk.kind ≠ .sbrk) (member : start ∈ before) (isStart : start.kind = .sbrk)
    (last : start.address = leftNode place.head before)
    (room : start.top - start.base - sbrkExtra = chunk.size) : chunk.Whole := by
  have fits := tiled.fits chunk (by simp)
  have behind := fits.behind inner
  have within := fits.within
  have atBase := (tiled.fits start (by simp [member])).sbrk isStart
  rw [List.append_assoc] at tiled
  rcases (List.pairwise_append.mp tiled.hunks_apart).2.2 start member chunk (by simp) with
    away | same
  · -- The start of the chunk's own block would come after the last one before the chunk.
    rcases tiled.start_mem inner with ⟨own, member', isStart', base, top⟩
    have atBase' := (tiled.fits own (by simp [member'])).sbrk isStart'
    have sorted := tiled.sorted
    rw [listed_append, List.pairwise_append] at sorted
    have inRing : own.address ∈ listed before :=
      mem_listed.mpr ⟨own, member', by simp [Chunk.listed, isStart', Kind.listed], rfl⟩
    have upper := Tiled.le_getLastD sorted.1 inRing place.head
    rw [leftNode] at last
    simp only [allocExtra, sbrkExtra] at atBase
    omega
  · simp only [Chunk.Whole, Chunk.stop, sbrkExtra] at *
    omega

theorem Tiled.giveBack {start : Chunk} (tiled : Tiled place (before ++ [start, chunk] ++ after))
    (isStart : start.kind = .sbrk) (whole : chunk.Whole) : Tiled place (before ++ [] ++ after) := by
  have meets := tiled.pair
  refine tiled.splice ?_ (by simp)
  simp only [List.map_nil, List.nil_append, List.cons_append, List.isChain_cons_cons,
    List.IsChain.singleton, and_true]
  have again : before ++ [start, chunk] ++ after = (before ++ [start]) ++ [chunk] ++ after := by simp
  have onward := (again ▸ tiled).starts_after whole.2
  have toStart := meets.1
  have between := meets.2.1
  have low := (tiled.fits start (by simp)).within
  have atBase := (tiled.fits chunk (by simp)).within
  cases isLast : before.getLast? with
  | none =>
      cases isFirst : after.head? with
      | none => trivial
      | some right => exact (onward right isFirst).1
  | some left =>
      rw [isLast, Chunk.Meets, if_pos isStart] at toStart
      cases isFirst : after.head? with
      | none => exact toStart.1
      | some right =>
          have starts := onward right isFirst
          rw [Chunk.Meets, if_pos starts.1]
          have below : start.top ≤ chunk.top := by
            simp only [Chunk.Meets] at between
            split at between
            case isTrue =>
              exact between.2.trans (atBase.1.trans ((Nat.le_add_right _ _).trans atBase.2))
            case isFalse => exact between.2.2.le
          have top := low.1.trans ((Nat.le_add_right _ _).trans low.2)
          exact ⟨toStart.1, by omega⟩

theorem giveBack_gives {start : Chunk} (tiled : Tiled place (before ++ [start, chunk] ++ after))
    (shows : Shows place.head memory (before ++ [start, chunk] ++ after))
    (isStart : start.kind = .sbrk) (isFree : chunk.kind = .free) (whole : chunk.Whole) :
    ∃ memory', giveBack place.head chunk.address memory = ⟨memory', some start.address⟩ ∧
      Makes place memory (before ++ [start, chunk] ++ after) memory' (before ++ [] ++ after) := by
  have inRing : start.listed = true := by simp [Chunk.listed, isStart, Kind.listed]
  have inRing' : chunk.listed = true := by simp [Chunk.listed, isFree, Kind.listed]
  have isLeft := leftNode_mem place.head before after
  have isRight := rightNode_mem place.head before after
  have left := tiled.node_around isLeft List.mem_cons_self
  have left' := tiled.node_around isLeft (List.mem_cons_of_mem _ (List.mem_singleton_self chunk))
  have sides := tiled.nodes_apart (Tiled.mem_around _ isLeft) (Tiled.mem_around _ isRight)
  have away := tiled.head_apart (List.mem_append_left after
    (List.mem_append_right before (List.mem_cons_self)))
  have inside := place.inside
  have header := shows.headers start (by simp)
  have header' := shows.headers chunk (by simp)
  have long := (tiled.fits start (by simp)).header
  have long' := (tiled.fits chunk (by simp)).header
  have joined := shows.pair inRing inRing'
  have prev : memory.get chunk.address .prev = start.address := joined.2.1.2
  have next : memory.get chunk.address .next = rightNode place.head after := joined.2.2.1
  have prev' : memory.get start.address .prev = leftNode place.head before := joined.1.2
  simp only [Chunk.stop, allocExtra] at left left' sides away long long'
  have room : start.top - start.base - sbrkExtra = chunk.size := by
    have meets := tiled.pair.2.1
    simp only [Chunk.Meets, isFree, reduceCtorEq, if_false, Chunk.stop] at meets
    simp only [Chunk.Whole, Chunk.stop, sbrkExtra] at *
    omega
  unfold Libcmini.giveBack
  simp only [prev, header.valid, isStart, Kind.valid, header.room isStart, header'.size, room,
    and_true]
  rw [if_pos (by omega)]
  simp (disch := (simp only [Field.offset]; omega)) only [Memory.get_set_other, prev', next]
  refine ⟨_, rfl, .of_confined tiled (tiled.giveBack isStart whole) shows ?_ ?_ ?_ ?_ ?_⟩
  · intro address notNext notPrev outside
    simp only [Field.offset] at notNext notPrev
    simp (disch := (simp only [Field.offset]; omega)) only [Memory.set_other]
  · simp only [listed_nil, List.cons_append, List.nil_append, List.isChain_cons_cons,
      List.IsChain.singleton, and_true, Links.Joined, Memory.links_next, Memory.links_prev]
    simp (disch := (simp only [Field.offset]; omega)) only [Memory.get_set_other,
      Memory.get_set_same, and_self]
  · simp
  · simp [inRing, inRing']
  · simp

theorem giveBack_stays (tiled : Tiled place (before ++ [chunk] ++ after))
    (shows : Shows place.head memory (before ++ [chunk] ++ after)) (isFree : chunk.kind = .free)
    (partly : ¬ chunk.Whole) : giveBack place.head chunk.address memory = ⟨memory, none⟩ := by
  have inRing : chunk.listed = true := by simp [Chunk.listed, isFree, Kind.listed]
  have prev : memory.get chunk.address .prev = leftNode place.head before :=
    (shows.neighbours inRing).1.2
  unfold giveBack
  simp only [prev]
  rw [if_neg]
  rintro ⟨notHead, isStart, room⟩
  rcases List.mem_cons.mp (Fenced.getLastD_mem place.head (listed before)) with atHead | inRing'
  · exact notHead atHead
  · rcases mem_listed.mp inRing' with ⟨start, member, -, same⟩
    have header := shows.headers start (by simp [member])
    rw [leftNode, ← same] at isStart room
    rw [header.valid, Kind.valid_sbrk] at isStart
    rw [header.room isStart, (shows.headers chunk (by simp)).size] at room
    exact partly (tiled.whole_of_room (by simp [isFree]) member isStart same room)

end Chgres.Libcmini
