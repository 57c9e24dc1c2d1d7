import Chgres.Libcmini.Heap

/-! # The chunks of the heap

What the heap is made of, whatever the memory says: the blocks of GEMDOS, and the chunks that
each is cut into, in the order of their addresses.
-/

namespace Chgres.Libcmini

/-- Bytes from `start` on. -/
structure Extent where
  start : Nat
  size : Nat
  deriving DecidableEq, Repr

namespace Extent

def stop (extent : Extent) : Nat := extent.start + extent.size

def Apart (left right : Extent) : Prop := left.stop ≤ right.start ∨ right.stop ≤ left.start

def Inside (inner outer : Extent) : Prop := outer.start ≤ inner.start ∧ inner.stop ≤ outer.stop

def Holds (extent : Extent) (address : Nat) : Prop :=
  extent.start ≤ address ∧ address < extent.stop

end Extent

/-- What a chunk is: the start of a block of GEMDOS, free, or handed out for `n` bytes. -/
inductive Kind where
  | sbrk
  | free
  | alloc (n : Nat)
  deriving DecidableEq, Repr

def Kind.valid : Kind → Nat
  | .sbrk => valSbrk
  | .free => valFree
  | .alloc _ => valAlloc

/-- Whether chunks of the kind are in the ring. -/
def Kind.listed : Kind → Bool
  | .alloc _ => false
  | _ => true

/-- Where the program keeps `_mchunk_free_list`: not at the start of its memory. -/
structure Statics where
  basepage : Nat
  head : Nat
  inside : basepage < head

/-- A chunk in the block of GEMDOS from `base` to `top`. -/
structure Chunk where
  address : Nat
  size : Nat
  kind : Kind
  base : Nat
  top : Nat
  deriving DecidableEq, Repr

namespace Chunk

def stop (chunk : Chunk) : Nat := chunk.address + chunk.size

/-- A chunk that is in the ring. -/
def listed (chunk : Chunk) : Bool := chunk.kind.listed

/-- What the caller of `malloc` has of the chunk. -/
def data (chunk : Chunk) : Option Extent :=
  match chunk.kind with
  | .alloc n => some ⟨chunk.address + allocExtra, n⟩
  | _ => none

/-- The block of GEMDOS that the chunk starts. -/
def hunk (chunk : Chunk) : Option Extent :=
  match chunk.kind with
  | .sbrk => some ⟨chunk.base, chunk.top - chunk.base⟩
  | _ => none

/-- The chunk lies in its block, away from the program's own memory. -/
structure Fits (place : Statics) (chunk : Chunk) : Prop where
  header : allocExtra ≤ chunk.size
  aligned : chunk.size % 4 = 0 ∧ chunk.address % 4 = chunk.base % 4
  within : chunk.base ≤ chunk.address ∧ chunk.stop ≤ chunk.top
  bounds : 0 < chunk.base ∧ chunk.top < addressSpace
  clear : chunk.top ≤ place.basepage ∨ place.head + allocExtra ≤ chunk.base
  sbrk : chunk.kind = .sbrk → chunk.address = chunk.base ∧ chunk.size = sbrkExtra ∧
    chunk.base + sbrkExtra + allocExtra ≤ chunk.top
  behind : chunk.kind ≠ .sbrk → chunk.base + sbrkExtra ≤ chunk.address
  room : ∀ n, chunk.kind = .alloc n → n + allocExtra ≤ chunk.size

/-- All of its block but the start. -/
def Whole (chunk : Chunk) : Prop :=
  chunk.address = chunk.base + sbrkExtra ∧ chunk.stop = chunk.top

/-- The chunk `right`, if any, may come right after the chunk `left`, if any. -/
def Meets : (left right : Option Chunk) → Prop
  | none, none => True
  | none, some right => right.kind = .sbrk
  | some left, none => left.stop = left.top
  | some left, some right =>
      if right.kind = .sbrk then left.stop = left.top ∧ left.top ≤ right.base
      else left.stop = right.address ∧ left.base = right.base ∧ left.top = right.top

theorem Meets.le {place : Statics} {left right : Chunk} (meets : Meets (some left) (some right))
    (fits : right.Fits place) : left.stop ≤ right.address := by
  simp only [Meets] at meets
  split at meets
  case isTrue sbrk => exact (fits.sbrk sbrk).1 ▸ meets.1.trans_le meets.2
  case isFalse inner => exact meets.1.le

variable {neighbour : Option Chunk} {chunk chunk' : Chunk}

theorem Meets.congr_right (meets : Meets neighbour (some chunk))
    (start : chunk'.kind = .sbrk ↔ chunk.kind = .sbrk) (address : chunk'.address = chunk.address)
    (base : chunk'.base = chunk.base) (top : chunk'.top = chunk.top) :
    Meets neighbour (some chunk') := by
  cases neighbour with
  | none => exact start.mpr meets
  | some left => simpa only [Meets, start, address, base, top] using meets

theorem Meets.congr_left (meets : Meets (some chunk) neighbour) (stop : chunk'.stop = chunk.stop)
    (base : chunk'.base = chunk.base) (top : chunk'.top = chunk.top) :
    Meets (some chunk') neighbour := by
  cases neighbour with
  | none => exact (stop.trans meets).trans top.symm
  | some right => simpa only [Meets, stop, base, top] using meets

end Chunk

/-- The chunks fill the blocks of GEMDOS, without a gap. -/
structure Tiled (place : Statics) (chunks : List Chunk) : Prop where
  meets : (none :: chunks.map some ++ [none]).IsChain Chunk.Meets
  fits : ∀ chunk ∈ chunks, chunk.Fits place

/-- No free chunk comes right after another one. -/
def Merged (chunks : List Chunk) : Prop :=
  chunks.IsChain fun left right => ¬ (left.kind = .free ∧ right.kind = .free)

/-- The nodes of the ring. -/
def listed (chunks : List Chunk) : List Nat := (chunks.filter Chunk.listed).map Chunk.address

/-- The blocks that are handed out. -/
def blocks (chunks : List Chunk) : List Extent := chunks.filterMap Chunk.data

/-- The blocks of GEMDOS. -/
def hunks (chunks : List Chunk) : List Extent := chunks.filterMap Chunk.hunk

section

variable (before after : List Chunk) (chunk : Chunk)

@[simp] theorem listed_nil : listed [] = [] := rfl

@[simp] theorem listed_cons : listed (chunk :: after) =
    if chunk.kind.listed then chunk.address :: listed after else listed after := by
  by_cases inRing : chunk.kind.listed
  · simp [listed, Chunk.listed, inRing]
  · simp [listed, Chunk.listed, inRing]

@[simp] theorem listed_append : listed (before ++ after) = listed before ++ listed after := by
  simp [listed]

@[simp] theorem blocks_nil : blocks [] = [] := rfl

@[simp] theorem blocks_cons : blocks (chunk :: after) = chunk.data.toList ++ blocks after := by
  rw [blocks, List.filterMap_cons]
  cases chunk.data <;> rfl

@[simp] theorem hunks_nil : hunks [] = [] := rfl

@[simp] theorem hunks_cons : hunks (chunk :: after) = chunk.hunk.toList ++ hunks after := by
  rw [hunks, List.filterMap_cons]
  cases chunk.hunk <;> rfl

@[simp] theorem blocks_append : blocks (before ++ after) = blocks before ++ blocks after :=
  List.filterMap_append

@[simp] theorem hunks_append : hunks (before ++ after) = hunks before ++ hunks after :=
  List.filterMap_append

end

theorem mem_listed {chunks : List Chunk} {node : Nat} :
    node ∈ listed chunks ↔ ∃ chunk ∈ chunks, chunk.listed ∧ chunk.address = node := by
  simp [listed, and_assoc]

theorem getLastD_some (chunks : List Chunk) :
    (chunks.map some).getLastD none = chunks.getLast? := by
  rw [List.getLastD_eq_getLast?, List.getLast?_map]
  cases chunks.getLast? <;> rfl

theorem headD_some (chunks : List Chunk) : (chunks.map some).headD none = chunks.head? := by
  cases chunks <;> rfl

namespace Tiled

variable {place : Statics} {chunks before old new after : List Chunk} {chunk other : Chunk}

/-- The chunks on both sides of a place meet there. -/
theorem between (tiled : Tiled place (before ++ after)) :
    Chunk.Meets before.getLast? after.head? := by
  have meets := tiled.meets
  rw [List.map_append] at meets
  rw [← getLastD_some, ← headD_some]
  exact Fenced.between meets

/-- The chunks between two places are replaced. -/
theorem splice (tiled : Tiled place (before ++ old ++ after))
    (arc : (before.getLast? :: new.map some ++ [after.head?]).IsChain Chunk.Meets)
    (fits : ∀ chunk ∈ new, chunk.Fits place) : Tiled place (before ++ new ++ after) := by
  constructor
  · have meets := tiled.meets
    rw [← getLastD_some, ← headD_some] at arc
    rw [List.map_append, List.map_append] at meets ⊢
    exact Fenced.glue (Fenced.parts meets).1 (Fenced.parts meets).2 arc
  · intro chunk member
    rw [List.mem_append, List.mem_append] at member
    rcases member with (member | member) | member
    · exact tiled.fits chunk (by simp [member])
    · exact fits chunk member
    · exact tiled.fits chunk (by simp [member])

/-- A chunk meets its neighbours. -/
theorem neighbours (tiled : Tiled place (before ++ [chunk] ++ after)) :
    Chunk.Meets before.getLast? (some chunk) ∧ Chunk.Meets (some chunk) after.head? := by
  constructor
  · rw [List.append_assoc] at tiled
    exact tiled.between
  · have meets := tiled.between
    rw [List.getLast?_concat] at meets
    exact meets

/-- After the end of a block comes the start of another one. -/
theorem starts_after (tiled : Tiled place (before ++ [chunk] ++ after))
    (stop : chunk.stop = chunk.top) :
    ∀ right, after.head? = some right → right.kind = .sbrk ∧ chunk.top ≤ right.base := by
  intro right isFirst
  have onward := tiled.neighbours.2
  have fits := tiled.fits right (by simp [List.mem_of_head? isFirst])
  rw [isFirst, Chunk.Meets] at onward
  split at onward
  case isTrue starts => exact ⟨starts, onward.2⟩
  case isFalse inner =>
    have header := fits.header
    have within := fits.within
    simp only [Chunk.stop, allocExtra] at *
    omega

/-- The chunks are in the order of their addresses. -/
theorem pairwise (tiled : Tiled place chunks) :
    chunks.Pairwise fun left right => left.stop ≤ right.address := by
  have meets := tiled.meets.left_of_append.tail
  rw [List.tail_cons, List.isChain_map] at meets
  have chain : chunks.IsChain fun left right => left.stop ≤ right.address :=
    meets.imp_of_mem_imp fun left right _ member joined => joined.le (tiled.fits right member)
  have passes : Trans (fun left right : Chunk => left.stop ≤ right.address)
      (fun left right : Chunk => left.stop ≤ right.address)
      (fun left right : Chunk => left.stop ≤ right.address) :=
    ⟨fun {_ middle _} first second =>
      (first.trans (Nat.le_add_right middle.address middle.size)).trans second⟩
  exact List.isChain_iff_pairwise.mp chain

theorem le_of_mem (tiled : Tiled place (before ++ after)) (left : chunk ∈ before)
    (right : other ∈ after) : chunk.stop ≤ other.address :=
  (List.pairwise_append.mp tiled.pairwise).2.2 chunk left other right

/-- The start of the block of a chunk comes before it. -/
theorem start_mem (tiled : Tiled place (before ++ chunk :: after)) (inner : chunk.kind ≠ .sbrk) :
    ∃ start ∈ before, start.kind = .sbrk ∧ start.base = chunk.base ∧ start.top = chunk.top := by
  induction before using List.reverseRecOn generalizing chunk after with
  | nil =>
      have starts : chunk.kind = .sbrk := @between place [] _ tiled
      exact absurd starts inner
  | append_singleton before left induction =>
      have meets := tiled.between
      rw [List.getLast?_concat, List.head?_cons, Chunk.Meets, if_neg inner] at meets
      by_cases starts : left.kind = .sbrk
      · exact ⟨left, by simp, starts, meets.2⟩
      · rw [List.append_assoc] at tiled
        rcases induction tiled starts with ⟨start, member, isStart, base, top⟩
        exact ⟨start, List.mem_append_left _ member, isStart, base.trans meets.2.1,
          top.trans meets.2.2⟩

/-- The block of GEMDOS of a chunk is one of those that the chunks fill. -/
theorem hunk_mem (tiled : Tiled place chunks) (member : chunk ∈ chunks) :
    ⟨chunk.base, chunk.top - chunk.base⟩ ∈ hunks chunks := by
  rcases List.append_of_mem member with ⟨before, after, rfl⟩
  by_cases starts : chunk.kind = .sbrk
  · simp [hunks, Chunk.hunk, starts]
  · rcases tiled.start_mem starts with ⟨start, member, isStart, base, top⟩
    rw [← base, ← top]
    exact List.mem_filterMap.mpr ⟨start, by simp [member], by simp [Chunk.hunk, isStart]⟩

/-- Chunks further on are in the same block or in one further on. -/
theorem hunks_apart (tiled : Tiled place chunks) :
    chunks.Pairwise fun left right =>
      left.top ≤ right.base ∨ (left.base = right.base ∧ left.top = right.top) := by
  have meets := tiled.meets.left_of_append.tail
  rw [List.tail_cons, List.isChain_map] at meets
  have chain : chunks.IsChain fun left right => right.base ≤ right.top ∧
      (left.top ≤ right.base ∨ (left.base = right.base ∧ left.top = right.top)) := by
    refine meets.imp_of_mem_imp fun left right _ member joined => ?_
    have within := (tiled.fits right member).within
    refine ⟨within.1.trans ((Nat.le_add_right _ _).trans within.2), ?_⟩
    simp only [Chunk.Meets] at joined
    split at joined
    case isTrue => exact Or.inl joined.2
    case isFalse => exact Or.inr joined.2
  have passes : Trans
      (fun left right : Chunk => right.base ≤ right.top ∧
        (left.top ≤ right.base ∨ (left.base = right.base ∧ left.top = right.top)))
      (fun left right : Chunk => right.base ≤ right.top ∧
        (left.top ≤ right.base ∨ (left.base = right.base ∧ left.top = right.top)))
      (fun left right : Chunk => right.base ≤ right.top ∧
        (left.top ≤ right.base ∨ (left.base = right.base ∧ left.top = right.top))) :=
    ⟨fun first second => ⟨second.1, by omega⟩⟩
  exact (List.isChain_iff_pairwise.mp chain).imp And.right

/-- Two chunks are the same one or lie apart. -/
theorem apart (tiled : Tiled place chunks) (member : chunk ∈ chunks) (member' : other ∈ chunks) :
    chunk = other ∨ chunk.stop ≤ other.address ∨ other.stop ≤ chunk.address := by
  rcases List.append_of_mem member with ⟨before, after, rfl⟩
  rcases List.mem_append.mp member' with inBefore | inAfter
  · exact Or.inr (Or.inr (tiled.le_of_mem inBefore List.mem_cons_self))
  · rcases List.mem_cons.mp inAfter with same | inAfter
    · exact Or.inl same.symm
    · rw [List.append_cons] at tiled
      exact Or.inr (Or.inl (tiled.le_of_mem (by simp) inAfter))

/-- The head of the ring lies outside of all chunks. -/
theorem head_apart (tiled : Tiled place chunks) (member : chunk ∈ chunks) :
    chunk.stop ≤ place.basepage ∨ place.head + allocExtra ≤ chunk.address := by
  have fits := tiled.fits chunk member
  rcases fits.clear with below | above
  · exact Or.inl (fits.within.2.trans below)
  · exact Or.inr (above.trans fits.within.1)

/-- A node of the ring lies outside of every chunk but its own. -/
theorem node_apart (tiled : Tiled place chunks) {node : Nat}
    (isNode : node ∈ place.head :: listed chunks) (member : chunk ∈ chunks) :
    node = chunk.address ∨ node + allocExtra ≤ chunk.address ∨ chunk.stop ≤ node := by
  rcases List.mem_cons.mp isNode with rfl | isNode
  · have inside := place.inside
    have away := tiled.head_apart member
    omega
  · rcases mem_listed.mp isNode with ⟨other, member', -, rfl⟩
    have header := (tiled.fits other member').header
    have away := tiled.apart member' member
    unfold Chunk.stop at away ⊢
    rcases away with rfl | away
    · exact Or.inl rfl
    · omega

/-- Chunks around a place lie outside of those at that place. -/
theorem around (tiled : Tiled place (before ++ old ++ after)) (member : chunk ∈ before ++ after)
    (member' : other ∈ old) : chunk.stop ≤ other.address ∨ other.stop ≤ chunk.address := by
  rcases List.mem_append.mp member with left | right
  · rw [List.append_assoc] at tiled
    exact Or.inl (tiled.le_of_mem left (List.mem_append_left after member'))
  · exact Or.inr (tiled.le_of_mem (List.mem_append_right before member') right)

theorem node_around (tiled : Tiled place (before ++ old ++ after)) {node : Nat}
    (isNode : node ∈ place.head :: listed (before ++ after)) (member : chunk ∈ old) :
    node + allocExtra ≤ chunk.address ∨ chunk.stop ≤ node := by
  rcases List.mem_cons.mp isNode with rfl | inRing
  · have inside := place.inside
    have away := @head_apart place _ chunk tiled (by simp [member])
    omega
  · rcases mem_listed.mp inRing with ⟨other, member', -, rfl⟩
    have header := (tiled.fits other (by simp at member' ⊢; tauto)).header
    have away := tiled.around member' member
    unfold Chunk.stop at *
    omega

/-- Two nodes of the ring are the same one or lie apart. -/
theorem nodes_apart (tiled : Tiled place chunks) {node node' : Nat}
    (isNode : node ∈ place.head :: listed chunks) (isNode' : node' ∈ place.head :: listed chunks) :
    node = node' ∨ node + allocExtra ≤ node' ∨ node' + allocExtra ≤ node := by
  rcases List.mem_cons.mp isNode' with rfl | inRing
  · rcases List.mem_cons.mp isNode with rfl | inRing
    · exact Or.inl rfl
    · rcases mem_listed.mp inRing with ⟨chunk, member, -, rfl⟩
      have inside := place.inside
      have header := (tiled.fits chunk member).header
      have away := tiled.head_apart member
      unfold Chunk.stop at away
      omega
  · rcases mem_listed.mp inRing with ⟨chunk, member, -, rfl⟩
    have header := (tiled.fits chunk member).header
    have away := tiled.node_apart isNode member
    unfold Chunk.stop at away
    omega

/-- The nodes around a place are nodes of the whole ring. -/
theorem mem_around {head node : Nat} (old : List Chunk)
    (isNode : node ∈ head :: listed (before ++ after)) :
    node ∈ head :: listed (before ++ old ++ after) := by
  simp only [listed_append, List.mem_cons, List.mem_append] at isNode ⊢
  tauto

/-- The nodes of the ring are in the order of their addresses. -/
theorem sorted (tiled : Tiled place chunks) : (listed chunks).Pairwise (· < ·) := by
  refine List.Pairwise.map _ (fun left right below => below) (List.Pairwise.filter _ ?_)
  refine tiled.pairwise.imp_of_mem fun {left right} member _ below => ?_
  have header := (tiled.fits left member).header
  unfold Chunk.stop allocExtra at *
  omega

theorem nodup (tiled : Tiled place chunks) : (place.head :: listed chunks).Nodup := by
  refine List.nodup_cons.mpr ⟨fun inRing => ?_, tiled.sorted.imp Nat.ne_of_lt⟩
  rcases mem_listed.mp inRing with ⟨chunk, member, -, same⟩
  have inside := place.inside
  have header := (tiled.fits chunk member).header
  have away := tiled.head_apart member
  unfold Chunk.stop allocExtra at *
  omega

/-- A walk along the ring has fewer nodes than there are addresses. -/
theorem length_lt (tiled : Tiled place chunks) : (listed chunks).length < addressSpace := by
  have within : ∀ node ∈ listed chunks, 0 < node ∧ node < addressSpace := by
    intro node inRing
    rcases mem_listed.mp inRing with ⟨chunk, member, -, rfl⟩
    have fits := tiled.fits chunk member
    have bounds := fits.bounds
    have inside := fits.within
    have header := fits.header
    unfold Chunk.stop allocExtra at *
    omega
  have distinct : (0 :: listed chunks).Nodup :=
    List.nodup_cons.mpr ⟨fun inRing => absurd (within 0 inRing).1 (Nat.lt_irrefl 0),
      tiled.sorted.imp Nat.ne_of_lt⟩
  have subset : 0 :: listed chunks ⊆ List.range addressSpace := by
    intro node member
    rcases List.mem_cons.mp member with rfl | inRing
    · exact List.mem_range.mpr (Nat.two_pow_pos 32)
    · exact List.mem_range.mpr (within node inRing).2
  have length := (distinct.subperm subset).length_le
  rw [List.length_cons, List.length_range] at length
  exact length

/-- The node before a place is the last one of those before it. -/
theorem le_getLastD {nodes : List Nat} (sorted : nodes.Pairwise (· < ·)) {node : Nat}
    (member : node ∈ nodes) (head : Nat) : node ≤ nodes.getLastD head := by
  rcases List.eq_nil_or_concat nodes with rfl | ⟨front, last, rfl⟩
  · exact absurd member List.not_mem_nil
  · rw [List.concat_eq_append] at member sorted ⊢
    rw [List.getLastD_concat]
    rcases List.mem_append.mp member with earlier | here
    · exact ((List.pairwise_append.mp sorted).2.2 node earlier last (by simp)).le
    · exact (List.mem_singleton.mp here).le

end Tiled

end Chgres.Libcmini
