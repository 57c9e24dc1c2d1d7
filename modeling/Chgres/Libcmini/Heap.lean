import Chgres.Foundation.Ring

/-! # `malloc` and `free`

The heap of the C library that the program is linked with. Its chunks lie in blocks of memory
of GEMDOS, each of which starts with a chunk of its own. These and the free chunks form a ring
with `_mchunk_free_list`, in the order of their addresses.
-/

namespace Chgres.Libcmini

/-! ## Longwords -/

/-- Addresses and sizes are longwords. -/
def addressSpace : Nat := 2 ^ 32

def plus (left right : Nat) : Nat := (left + right) % addressSpace

def minus (left right : Nat) : Nat := (left + (addressSpace - right)) % addressSpace

theorem plus_eq {left right : Nat} (small : left + right < addressSpace) :
    plus left right = left + right := Nat.mod_eq_of_lt small

theorem minus_eq {left right : Nat} (le : right ≤ left) (small : left < addressSpace) :
    minus left right = left - right := by
  unfold minus addressSpace at *
  omega

/-! ## Chunks in memory -/

/-- The longwords of `struct mem_chunk`, and `SBRK_SIZE` after them. -/
inductive Field where
  | valid
  | next
  | prev
  | size
  | sbrkSize
  deriving DecidableEq, Repr

def Field.offset : Field → Nat
  | .valid => 0
  | .next => 4
  | .prev => 8
  | .size => 12
  | .sbrkSize => 16

def valFree : Nat := 0xf4ee0abc

def valAlloc : Nat := 0xa11c0abc

def valSbrk : Nat := 0xb04d0abc

/-- `ALLOC_EXTRA` -/
def allocExtra : Nat := 16

/-- `SBRK_EXTRA` -/
def sbrkExtra : Nat := 20

/-- The longwords of the memory, by their addresses. -/
abbrev Memory := Nat → Nat

namespace Memory

def get (memory : Memory) (chunk : Nat) (field : Field) : Nat := memory (chunk + field.offset)

def set (memory : Memory) (chunk : Nat) (field : Field) (value : Nat) : Memory :=
  Function.update memory (chunk + field.offset) value

/-- The pointers of the ring. -/
def links (memory : Memory) : Links Nat where
  next chunk := memory.get chunk .next
  prev chunk := memory.get chunk .prev

variable (memory : Memory) (chunk other value : Nat) (field field' : Field)

theorem get_set : (memory.set chunk field value).get other field' =
    if other + field'.offset = chunk + field.offset then value else memory.get other field' := by
  simp only [get, set, Function.update_apply]

@[simp] theorem get_set_same : (memory.set chunk field value).get chunk field = value := by
  rw [get_set, if_pos rfl]

variable {chunk other field field'}

theorem get_set_other (apart : other + field'.offset ≠ chunk + field.offset) :
    (memory.set chunk field value).get other field' = memory.get other field' := by
  rw [get_set, if_neg apart]

@[simp] theorem get_set_field (different : field' ≠ field) :
    (memory.set chunk field value).get chunk field' = memory.get chunk field' := by
  refine get_set_other memory value fun same => different ?_
  revert same
  cases field <;> cases field' <;> simp [Field.offset]

theorem set_other {address : Nat} (apart : address ≠ chunk + field.offset) :
    memory.set chunk field value address = memory address := by
  rw [set, Function.update_of_ne apart]

@[simp] theorem links_next : memory.links.next chunk = memory.get chunk .next := rfl

@[simp] theorem links_prev : memory.links.prev chunk = memory.get chunk .prev := rfl

end Memory

/-! ## `malloc` -/

/-- The heap: the memory and `MINHUNK`. -/
structure Heap where
  memory : Memory
  minHunk : Nat

/-- "add a mem_chunk to required size and round up" -/
def chunkSize (n : Nat) : Nat := plus allocExtra (plus n 3 / 4 * 4)

/-- `MAXHUNK` -/
def maxHunk : Nat := 32 * 1024

def pageSize : Nat := 8192

/-- `(sz + page_size - 1) & -page_size` -/
def pages (sz : Nat) : Nat := plus sz (pageSize - 1) / pageSize * pageSize

/-- `sz`, for a chunk of `n` bytes, and the `MINHUNK` after it. -/
def hunkSize (minHunk n : Nat) : Nat × Nat :=
  if minHunk < plus n sbrkExtra then (pages (plus n sbrkExtra), minHunk)
  else (pages minHunk, if minHunk < maxHunk then plus minHunk minHunk else minHunk)

/-- "look for first block big enough in free list" -/
def firstFit (head n : Nat) (memory : Memory) : Outcome Nat :=
  Links.seek memory.links.next
    (fun q => q = head || !(memory.get q .size < n || memory.get q .valid = valSbrk))
    addressSpace (memory.get head .next)

/-- The first chunk of the ring that does not lie before `q`. -/
def notBefore (head q : Nat) (memory : Memory) : Outcome Nat :=
  Links.seek memory.links.next (fun p => p = head || !(p < q)) addressSpace
    (memory.get head .next)

/-- The `sz` bytes of GEMDOS at `q` come into the ring before `p`, as one free chunk. -/
def addHunk (p q sz : Nat) (memory : Memory) : Memory × Nat :=
  let memory := memory.set q .size sbrkExtra
  let sz := minus sz sbrkExtra
  let memory := memory.set q .valid valSbrk
  let memory := memory.set q .sbrkSize sz
  let s := plus q sbrkExtra
  let memory := memory.set q .next s
  let memory := memory.set q .prev (memory.get p .prev)
  let memory := memory.set (memory.get q .prev) .next q
  let memory := memory.set (memory.get q .next) .prev q
  let memory := memory.set s .size sz
  let memory := memory.set s .valid valFree
  let memory := memory.set s .next p
  let memory := memory.set (memory.get s .next) .prev s
  (memory, s)

/-- "split, leave part of free list", or "just unlink it" -/
def carve (n q : Nat) (memory : Memory) : Memory × Nat :=
  if plus n allocExtra < memory.get q .size then
    let memory := memory.set q .size (minus (memory.get q .size) n)
    let q := plus q (memory.get q .size)
    let memory := memory.set q .size n
    (memory.set q .valid valAlloc, q)
  else
    let memory := memory.set (memory.get q .next) .prev (memory.get q .prev)
    let memory := memory.set (memory.get q .prev) .next (memory.get q .next)
    (memory.set q .valid valAlloc, q)

/-- What `malloc` returns and leaves behind, and how much it asked GEMDOS for. -/
structure Allocation where
  value : Nat
  heap : Heap
  asked : Option Nat

/-- `malloc`, with the answers of GEMDOS to `Malloc`. -/
def malloc (head : Nat) (gemdos : Nat → Nat) (n : Nat) (heap : Heap) : Outcome Allocation :=
  let n := chunkSize n
  (firstFit head n heap.memory).bind fun q =>
    if q = head then
      let (sz, minHunk) := hunkSize heap.minHunk n
      let q := gemdos sz
      if q = 0 then .done ⟨0, ⟨heap.memory, minHunk⟩, some sz⟩
      else
        (notBefore head q heap.memory).bind fun p =>
          let (memory, q) := addHunk p q sz heap.memory
          let (memory, q) := carve n q memory
          .done ⟨plus q allocExtra, ⟨memory, minHunk⟩, some sz⟩
    else
      let (memory, q) := carve n q heap.memory
      .done ⟨plus q allocExtra, ⟨memory, heap.minHunk⟩, none⟩

section

variable {head n p q : Nat} {gemdos : Nat → Nat} {heap : Heap} {carved : Memory × Nat}

theorem malloc_found (found : firstFit head (chunkSize n) heap.memory = .done q)
    (isChunk : q ≠ head) (carves : carve (chunkSize n) q heap.memory = carved) :
    malloc head gemdos n heap =
      .done ⟨plus carved.2 allocExtra, ⟨carved.1, heap.minHunk⟩, none⟩ := by
  simp only [malloc, found, Outcome.done_bind, if_neg isChunk, carves]

theorem malloc_refused (full : firstFit head (chunkSize n) heap.memory = .done head)
    (refused : gemdos (hunkSize heap.minHunk (chunkSize n)).1 = 0) :
    malloc head gemdos n heap =
      .done ⟨0, ⟨heap.memory, (hunkSize heap.minHunk (chunkSize n)).2⟩,
        some (hunkSize heap.minHunk (chunkSize n)).1⟩ := by
  simp only [malloc, full, Outcome.done_bind, if_true, if_pos refused]

theorem malloc_grown {sz : Nat} {added : Memory × Nat}
    (full : firstFit head (chunkSize n) heap.memory = .done head)
    (size : (hunkSize heap.minHunk (chunkSize n)).1 = sz) (given : gemdos sz ≠ 0)
    (here : notBefore head (gemdos sz) heap.memory = .done p)
    (adds : addHunk p (gemdos sz) sz heap.memory = added)
    (carves : carve (chunkSize n) added.2 added.1 = carved) :
    malloc head gemdos n heap =
      .done ⟨plus carved.2 allocExtra, ⟨carved.1, (hunkSize heap.minHunk (chunkSize n)).2⟩,
        some sz⟩ := by
  subst size
  simp only [malloc, full, Outcome.done_bind, if_true, if_neg given, here, adds, carves]

end

/-! ## `free` -/

/-- "stick it into free list", before `next` -/
def insert (r next : Nat) (memory : Memory) : Memory :=
  let memory := memory.set r .next next
  let memory := memory.set r .prev (memory.get next .prev)
  let memory := memory.set (memory.get r .prev) .next r
  memory.set (memory.get r .next) .prev r

/-- "merge after if possible" -/
def mergeAfter (r next : Nat) (memory : Memory) : Memory :=
  if plus r (memory.get r .size) = next ∧ memory.get next .valid = valFree then
    let memory := memory.set r .size (plus (memory.get r .size) (memory.get next .size))
    let memory := memory.set r .next (memory.get next .next)
    memory.set (memory.get next .next) .prev r
  else memory

/-- "merge before if possible" -/
def mergeBefore (head r : Nat) (memory : Memory) : Memory × Nat :=
  let prev := memory.get r .prev
  if prev ≠ head ∧ memory.get prev .valid = valFree ∧ plus prev (memory.get prev .size) = r then
    let memory := memory.set prev .size (plus (memory.get prev .size) (memory.get r .size))
    let memory := memory.set prev .next (memory.get r .next)
    (memory.set (memory.get r .next) .prev prev, prev)
  else (memory, r)

/-- What `free` leaves behind, and the block that it gave back to GEMDOS. -/
structure Release where
  memory : Memory
  mfree : Option Nat

/-- A chunk that takes up all of its block goes back to GEMDOS. -/
def giveBack (head r : Nat) (memory : Memory) : Release :=
  let prev := memory.get r .prev
  if prev ≠ head ∧ memory.get prev .valid = valSbrk ∧
      memory.get prev .sbrkSize = memory.get r .size then
    let memory := memory.set (memory.get prev .prev) .next (memory.get r .next)
    ⟨memory.set (memory.get r .next) .prev (memory.get prev .prev), some prev⟩
  else ⟨memory, none⟩

/-- `free` -/
def free (head param : Nat) (memory : Memory) : Outcome Release :=
  if param = 0 then .done ⟨memory, none⟩
  else
    let r := minus param allocExtra
    if memory.get r .valid ≠ valAlloc then .done ⟨memory, none⟩
    else
      let memory := memory.set r .valid valFree
      (notBefore head r memory).bind fun next =>
        let memory := insert r next memory
        let memory := mergeAfter r next memory
        let merged := mergeBefore head r memory
        .done (giveBack head merged.2 merged.1)

section

variable {head param : Nat} {memory : Memory}

/-- `free(NULL)`, and a pointer to something that `malloc` did not hand out. -/
theorem free_foreign
    (foreign : param = 0 ∨ memory.get (minus param allocExtra) .valid ≠ valAlloc) :
    free head param memory = .done ⟨memory, none⟩ := by
  unfold free
  by_cases null : param = 0
  · exact if_pos null
  · rw [if_neg null]
    exact if_pos (foreign.resolve_left null)

theorem free_eq {r next : Nat} {merged : Memory × Nat} (notNull : param ≠ 0)
    (chunk : minus param allocExtra = r) (isAlloc : memory.get r .valid = valAlloc)
    (here : notBefore head r (memory.set r .valid valFree) = .done next)
    (merges : mergeBefore head r
      (mergeAfter r next (insert r next (memory.set r .valid valFree))) = merged) :
    free head param memory = .done (giveBack head merged.2 merged.1) := by
  subst chunk
  unfold free
  rw [if_neg notNull]
  refine (if_neg (not_not.mpr isAlloc)).trans ?_
  refine (congrArg (Outcome.bind · _) here).trans ?_
  rw [Outcome.done_bind, ← merges]

end

end Chgres.Libcmini
