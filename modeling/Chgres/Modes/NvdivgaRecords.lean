import Chgres.Foundation.Slots
import Chgres.Modes.Nvdivga

/-! # The records of `nvdivga.inf`

What the walk makes of a well-formed file: from the records of each depth, in the
order of the file, one mode after the other. The relocation of a record changes no
byte that a later step reads.
-/

namespace Chgres

open Text Words

/-! ## Well-formed files -/

/-- Each record points to the next one, the last one to none. -/
def Linked (file : Bytes) : List Nat → Prop
  | [] => True
  | [mode] => vgaNext file mode = noMode
  | mode :: next :: rest =>
      (vgaNext file mode ≠ noMode ∧ .ofNat mode + vgaNext file mode = .ofNat next) ∧
        Linked file (next :: rest)

/-- Two records share no byte. -/
def Apart (mode other : Nat) : Prop := mode + vgaModeSize ≤ other ∨ other + vgaModeSize ≤ mode

instance : Std.Symm Apart := ⟨fun _ _ => Or.symm⟩

/-- The file holds a chain of records from the end of its header on, all of them inside
the file and apart. -/
structure WellFormedVga (file : Bytes) (records : List Nat) : Prop where
  header : vgainfSize ≤ file.length
  counted : 0 < vgainfNummodes file ↔ records ≠ []
  first : ∀ mode ∈ records.head?, mode = vgainfSize
  linked : Linked file records
  inside : ∀ mode ∈ records, vgainfSize ≤ mode ∧ mode + vgaModeSize ≤ file.length
  apart : records.Pairwise Apart

/-- The file lies in the address space, and its size is a `long`. -/
structure LoadedAt (inf : UInt32) (file : Bytes) : Prop where
  fits : inf.toNat + file.length ≤ 2 ^ 32
  size : file.length < 2 ^ 31

/-! ## Relocation -/

theorem relocate_length {address : UInt32} {mode pointer : Nat} {memory : Bytes}
    (within : mode + pointer + 4 ≤ memory.length) :
    (relocate address mode memory pointer).length = memory.length :=
  store_length within

theorem load_relocate {address : UInt32} {mode pointer : Nat} {memory : Bytes}
    (within : mode + pointer + 4 ≤ memory.length) {start count : Nat}
    (clear : start + count ≤ mode + pointer ∨ mode + pointer + 4 ≤ start) :
    load (relocate address mode memory pointer) start count = load memory start count :=
  load_store_apart within clear

/-- Relocating some pointers changes what is loaded from their places only. -/
theorem foldl_relocate (address : UInt32) (mode : Nat) : ∀ (pointers : List Nat) (memory : Bytes),
    (∀ pointer ∈ pointers, mode + pointer + 4 ≤ memory.length) →
    (pointers.foldl (relocate address mode) memory).length = memory.length ∧
      ∀ start count, (∀ pointer ∈ pointers,
        start + count ≤ mode + pointer ∨ mode + pointer + 4 ≤ start) →
      load (pointers.foldl (relocate address mode) memory) start count = load memory start count
  | [], memory, _ => ⟨rfl, fun _ _ _ => rfl⟩
  | pointer :: pointers, memory, within => by
      have here := within pointer (by simp)
      have length := @relocate_length address _ _ _ here
      have rest := foldl_relocate address mode pointers (relocate address mode memory pointer)
        (fun other member => by rw [length]; exact within other (List.mem_cons_of_mem _ member))
      refine ⟨rest.1.trans length, ?_⟩
      intro start count clear
      rw [List.foldl_cons, rest.2 start count fun other member =>
        clear other (List.mem_cons_of_mem _ member)]
      exact load_relocate here (clear pointer (by simp))

/-- What the relocation of a record leaves. -/
structure Relocated (address : UInt32) (mode : Nat) (memory after : Bytes) : Prop where
  length : after.length = memory.length
  outside : ∀ start count, start + count ≤ mode ∨ mode + vgaModeSize ≤ start →
    load after start count = load memory start count
  fields : ∀ start count, mode + vgaXresOffset ≤ start → start + count ≤ mode + 84 →
    load after start count = load memory start count
  next : vgaNext after mode =
    if vgaNext memory mode ≠ noMode then address + vgaNext memory mode else noMode

theorem relocateMode_relocated {address : UInt32} {mode : Nat} {memory : Bytes}
    (within : mode + vgaModeSize ≤ memory.length) :
    Relocated address mode memory (relocateMode memory address mode) := by
  rw [vgaModeSize] at within
  have inRange : ∀ pointer ∈ vgaPointers, 6 ≤ pointer ∧ pointer + 4 ≤ 100 ∧
      (pointer = 6 ∨ 84 ≤ pointer) := by decide
  have pointers := foldl_relocate address mode vgaPointers memory fun pointer member => by
    have bound := inRange pointer member
    omega
  rw [relocateMode]
  generalize vgaPointers.foldl (relocate address mode) memory = middle at pointers
  have sameNext : vgaNext middle mode = vgaNext memory mode := by
    rw [vgaNext, vgaNext, pointers.2 mode 4 fun pointer member => by
      have bound := inRange pointer member
      omega]
  have outside : ∀ start count, start + count ≤ mode ∨ mode + vgaModeSize ≤ start →
      load middle start count = load memory start count := by
    intro start count clear
    rw [vgaModeSize] at clear
    exact pointers.2 start count fun pointer member => by
      have bound := inRange pointer member
      omega
  have fields : ∀ start count, mode + vgaXresOffset ≤ start → start + count ≤ mode + 84 →
      load middle start count = load memory start count := by
    intro start count lower upper
    rw [vgaXresOffset] at lower
    exact pointers.2 start count fun pointer member => by
      have bound := inRange pointer member
      omega
  have room : mode + 0 + 4 ≤ middle.length := by rw [pointers.1]; omega
  by_cases more : vgaNext middle mode ≠ noMode
  · simp only [if_pos more]
    refine ⟨(relocate_length room).trans pointers.1, ?_, ?_, ?_⟩
    · intro start count clear
      rw [load_relocate room (by unfold vgaModeSize at clear; omega), outside start count clear]
    · intro start count lower upper
      rw [load_relocate room (by unfold vgaXresOffset at lower; omega),
        fields start count lower upper]
    · rw [← sameNext, if_pos more, vgaNext, relocate]
      have loaded := @load_store_same middle (mode + 0) 4
        (address.toNat + load middle (mode + 0) 4) room
      rw [Nat.add_zero] at loaded
      rw [Nat.add_zero, loaded, vgaNext]
      apply UInt32.toNat_inj.mp
      simp [UInt32.toNat_ofNat', UInt32.toNat_add]
  · simp only [if_neg more]
    refine ⟨pointers.1, outside, fields, ?_⟩
    rw [← sameNext, if_neg more]
    exact not_not.mp more

/-! ## One record -/

/-- The memory still holds what the steps from here on read: the header and the fields
of these records. -/
structure Untouched (file memory : Bytes) (records : List Nat) : Prop where
  length : memory.length = file.length
  header : ∀ start count, start + count ≤ vgainfSize → load memory start count = load file start count
  records : ∀ mode ∈ records, ∀ start count, mode ≤ start → start + count ≤ mode + vgaModeSize →
    load memory start count = load file start count

theorem untouched_self (file : Bytes) (records : List Nat) : Untouched file file records :=
  ⟨rfl, fun _ _ _ => rfl, fun _ _ _ _ _ _ => rfl⟩

variable {file memory after : Bytes} {mode : Nat} {records : List Nat} {address : UInt32}

/-- Relocating a record touches none of the others. -/
theorem Untouched.relocate (untouched : Untouched file memory (mode :: records))
    (relocated : Relocated address mode memory after) (behindHeader : vgainfSize ≤ mode)
    (apart : ∀ other ∈ records, Apart mode other) : Untouched file after records where
  length := relocated.length.trans untouched.length
  header start count inside := by
    rw [relocated.outside start count (.inl (by omega)), untouched.header start count inside]
  records other member start count lower upper := by
    have clear := apart other member
    rw [Apart] at clear
    rw [relocated.outside start count (by omega),
      untouched.records other (List.mem_cons_of_mem _ member) start count lower upper]

/-- The mode of a relocated record is the mode of the record in the file. -/
theorem nvdivgaMode_relocated (untouched : Untouched file memory (mode :: records))
    (relocated : Relocated address mode memory after) (behindHeader : vgainfSize ≤ mode)
    (modeidx rez : Int16) (i : Fin 6) :
    nvdivgaMode after mode modeidx rez i = nvdivgaMode file mode modeidx rez i ∧
      vgaPlanes after mode = vgaPlanes file mode := by
  have field : ∀ offset, vgaXresOffset ≤ offset → offset + 2 ≤ 84 →
      load after (mode + offset) 2 = load file (mode + offset) 2 := by
    intro offset lower upper
    rw [relocated.fields _ _ (by omega) (by omega),
      untouched.records mode (by simp) _ _ (by omega) (by unfold vgaModeSize; omega)]
  have defmode : vgainfDefmode after i = vgainfDefmode file i := by
    have inHeader : vgainfDefmodeOffset i + 2 ≤ vgainfSize := by
      have small := i.isLt
      unfold vgainfDefmodeOffset vgainfSize
      omega
    rw [vgainfDefmode, short, relocated.outside _ _ (.inl (by omega)),
      untouched.header _ _ inHeader, vgainfDefmode, short]
  have xres : vgaXres after mode = vgaXres file mode :=
    congrArg Int16.ofNat (field vgaXresOffset (by decide) (by decide))
  have yres : vgaYres after mode = vgaYres file mode :=
    congrArg Int16.ofNat (field 12 (by decide) (by decide))
  have visibleXres : vgaVisibleXres after mode = vgaVisibleXres file mode :=
    congrArg Int16.ofNat (field 14 (by decide) (by decide))
  have visibleYres : vgaVisibleYres after mode = vgaVisibleYres file mode :=
    congrArg Int16.ofNat (field 16 (by decide) (by decide))
  have planes : vgaPlanes after mode = vgaPlanes file mode :=
    congrArg Int16.ofNat (field 22 (by decide) (by decide))
  have vfreq : vgaVfreq after mode = vgaVfreq file mode := field 44 (by decide) (by decide)
  refine ⟨?_, planes⟩
  rw [nvdivgaMode, defmode, xres, yres, visibleXres, visibleYres, vfreq, nvdivgaMode]

theorem createNvdivgaModes_relocated (untouched : Untouched file memory (mode :: records))
    (relocated : Relocated address mode memory after) (behindHeader : vgainfSize ≤ mode)
    (rez : Vector Int16 6) (made : VgaModes) :
    createNvdivgaModes after mode rez made = createNvdivgaModes file mode rez made := by
  have body : createNvdivgaMode after mode rez = createNvdivgaMode file mode rez := by
    funext made i
    have same := fun modeidx =>
      nvdivgaMode_relocated untouched relocated behindHeader modeidx rez[i] i
    simp only [createNvdivgaMode, (same 0).2, fun modeidx => (same modeidx).1]
  rw [createNvdivgaModes, body, createNvdivgaModes]

/-! ## The walk -/

/-- The address of the first of the records. -/
def walkAddress (inf : UInt32) : List Nat → UInt32
  | [] => noMode
  | mode :: _ => inf + .ofNat mode

theorem Linked.tail (linked : Linked file (mode :: records)) : Linked file records := by
  cases records with
  | nil => trivial
  | cons next rest => exact linked.2

/-- A record inside the file has its offset back, and its address is not -1. -/
theorem record_address {inf : UInt32} (fits : inf.toNat + file.length ≤ 2 ^ 32)
    (within : mode + vgaModeSize ≤ file.length) :
    (inf + UInt32.ofNat mode - inf).toNat = mode ∧ inf + UInt32.ofNat mode ≠ noMode := by
  rw [vgaModeSize] at within
  have small : mode < 2 ^ 32 := by omega
  constructor
  · rw [add_sub_cancel_left, UInt32.toNat_ofNat_of_lt' small]
  · intro same
    have value := congrArg UInt32.toNat same
    rw [UInt32.toNat_add, UInt32.toNat_ofNat_of_lt' small] at value
    have last : noMode.toNat = 2 ^ 32 - 1 := by decide
    omega

/-- The walk makes the modes of a record and goes on at the next one. -/
theorem vgaWalk_linked {inf : UInt32} (loaded : LoadedAt inf file) (rez : Vector Int16 6) :
    ∀ {records : List Nat}, Linked file records →
    (∀ mode ∈ records, vgainfSize ≤ mode ∧ mode + vgaModeSize ≤ file.length) →
    records.Pairwise Apart → ∀ {memory : Bytes}, Untouched file memory records →
    ∀ (fuel : Nat) (made : VgaModes), records.length ≤ fuel →
    vgaWalk inf rez fuel ⟨memory, walkAddress inf records, made⟩ =
      .done (records.foldl (fun made mode => createNvdivgaModes file mode rez made) made)
  | [], _, _, _, memory, _, fuel, made, _ => by
      cases fuel <;> simp [vgaWalk, walkAddress]
  | mode :: records, linked, inside, apart, memory, untouched, fuel + 1, made, enough => by
      rcases inside mode (by simp) with ⟨behindHeader, within⟩
      rcases List.pairwise_cons.mp apart with ⟨apartHere, apartRest⟩
      rcases record_address loaded.fits within with ⟨offset, isMode⟩
      have relocated := @relocateMode_relocated (inf + UInt32.ofNat mode) mode memory
        (by rw [untouched.length]; exact within)
      have nextHere : vgaNext memory mode = vgaNext file mode := by
        rw [vgaNext, vgaNext, untouched.records mode (by simp) mode 4 (le_refl _)
          (by unfold vgaModeSize; omega)]
      have next : vgaNext (relocateMode memory (inf + UInt32.ofNat mode) mode) mode =
          walkAddress inf records := by
        rw [relocated.next, nextHere]
        cases records with
        | nil =>
            have isLast : vgaNext file mode = noMode := linked
            simp [isLast, walkAddress]
        | cons other rest =>
            rw [if_pos linked.1.1, add_assoc, linked.1.2, walkAddress]
      have induction := vgaWalk_linked loaded rez linked.tail
        (fun other member => inside other (List.mem_cons_of_mem _ member)) apartRest
        (untouched.relocate relocated behindHeader apartHere) fuel
        (createNvdivgaModes file mode rez made) (by simpa using enough)
      rw [vgaWalk, walkAddress, if_pos isMode]
      simp only [vgaStep, offset]
      rw [if_pos (by rw [untouched.length]; exact within), Outcome.done_bind, next,
        createNvdivgaModes_relocated untouched relocated behindHeader, induction, List.foldl_cons]

/-! ## The modes of each depth -/

/-- The records of a depth, in the order of the file. -/
def ownRecords (file : Bytes) (records : List Nat) (i : Fin 6) : List Nat :=
  records.filter fun mode => et4000modes[i].planes = vgaPlanes file mode

/-- The modes that are made of them. The ordinal is counted in a `short`. -/
def ownModes (file : Bytes) (records : List Nat) (rez : Int16) (i : Fin 6) : List Res :=
  (ownRecords file records i).zipIdx.map fun entry =>
    nvdivgaMode file entry.1 (.ofNat entry.2) rez i

theorem ownRecords_planes {i : Fin 6} (member : mode ∈ ownRecords file records i) :
    mode ∈ records ∧ et4000modes[i].planes = vgaPlanes file mode := by
  rw [ownRecords, List.mem_filter, decide_eq_true_eq] at member
  exact member

theorem ownRecords_concat (file : Bytes) (records : List Nat) (mode : Nat) (i : Fin 6) :
    ownRecords file (records ++ [mode]) i =
      ownRecords file records i ++
        if et4000modes[i].planes = vgaPlanes file mode then [mode] else [] := by
  rw [ownRecords, List.filter_append, List.filter_singleton, Bool.cond_decide, ownRecords]

theorem index_injective {i j : Fin 6} (different : j ≠ i) :
    et4000modes[j].index ≠ et4000modes[i].index := by
  revert i j
  decide

/-- The counter and the list of a depth. -/
def depthView (made : VgaModes) (i : Fin 6) : Int16 × List Res :=
  (made.count[i], made.lists[et4000modes[i].index])

/-- What a record does to the counter and the list of a depth. -/
def depthWork (file : Bytes) (mode : Nat) (rez : Vector Int16 6) (i : Fin 6)
    (depth : Int16 × List Res) : Int16 × List Res :=
  if et4000modes[i].planes = vgaPlanes file mode then
    (depth.1 + 1, nvdivgaMode file mode depth.1 rez[i] i :: depth.2)
  else depth

theorem createNvdivgaMode_works (file : Bytes) (mode : Nat) (rez : Vector Int16 6) :
    Slots.Works depthView (createNvdivgaMode file mode rez) (depthWork file mode rez) where
  own made i := by
    rw [createNvdivgaMode, depthWork]
    split_ifs
    · exact Prod.ext (Slots.set_same _ _ _) (addMode_same _ _ _)
    · rfl
  other made i j different := by
    rw [createNvdivgaMode]
    split_ifs
    · exact Prod.ext (Slots.set_other _ different _)
        (addMode_other (index_injective different) _ _)
    · rfl

/-- The modes of a depth come to the head of its list one after the other. -/
theorem createNvdivgaModes_depth (file : Bytes) (rez : Vector Int16 6) (lists : ModeLists)
    (i : Fin 6) (records : List Nat) :
    depthView (records.foldl (fun made mode => createNvdivgaModes file mode rez made)
        ⟨.replicate 6 0, lists⟩) i =
      (.ofNat (ownRecords file records i).length,
        (ownModes file records rez[i] i).reverse ++ lists[et4000modes[i].index]) := by
  induction records using List.reverseRecOn with
  | nil => simp [depthView, ownRecords, ownModes]
  | append_singleton records mode induction =>
      rw [List.foldl_append, List.foldl_cons, List.foldl_nil, createNvdivgaModes,
        (createNvdivgaMode_works file mode rez).foldl (List.nodup_finRange 6)
          (List.mem_finRange i), induction, depthWork]
      have records_ := ownRecords_concat file records mode i
      split_ifs at records_ ⊢ with own
      · simp [ownModes, records_, List.zipIdx_append, Int16.ofNat_add]
      · rw [List.append_nil] at records_
        simp only [ownModes, records_]

/-- The walk leaves the lists of the other depths alone. -/
theorem createNvdivgaModes_other (file : Bytes) (rez : Vector Int16 6) {idx : Fin maxDepths}
    (notOwn : ∀ i : Fin 6, idx ≠ et4000modes[i].index) (records : List Nat) (made : VgaModes) :
    (records.foldl (fun made mode => createNvdivgaModes file mode rez made) made).lists[idx] =
      made.lists[idx] := by
  apply Slots.foldl_fixed (fun made : VgaModes => made.lists[idx])
  intro made mode
  apply Slots.foldl_fixed (fun made : VgaModes => made.lists[idx])
  intro made i
  rw [createNvdivgaMode]
  split_ifs
  · exact addMode_other (notOwn i) _ _
  · rfl

theorem removeOwned_depth (rez : Vector Int16 6) (lists : ModeLists) (i : Fin 6) :
    (removeOwned rez lists)[et4000modes[i].index] =
      if 0 < rez[i] then [] else lists[et4000modes[i].index] := by
  have works : Slots.Works (fun (lists : ModeLists) (i : Fin 6) => lists[et4000modes[i].index])
      (fun (lists : ModeLists) (i : Fin 6) =>
        if 0 < rez[i] then removeModes et4000modes[i].index lists else lists)
      (fun (i : Fin 6) (list : List Res) => if 0 < rez[i] then [] else list) := by
    constructor
    · intro lists i
      split_ifs
      · exact removeModes_same _ _
      · rfl
    · intro lists i j different
      split_ifs
      · exact removeModes_other (index_injective different) _
      · rfl
  exact works.foldl (List.nodup_finRange 6) (List.mem_finRange i) lists

theorem removeOwned_other (rez : Vector Int16 6) (lists : ModeLists) {idx : Fin maxDepths}
    (notOwn : ∀ i : Fin 6, idx ≠ et4000modes[i].index) :
    (removeOwned rez lists)[idx] = lists[idx] := by
  apply Slots.foldl_fixed (fun lists : ModeLists => lists[idx])
  intro lists i
  split_ifs
  · exact removeModes_other (notOwn i) _
  · rfl

/-! ## `initres_nvdivga` on a well-formed file -/

/-- The lists after the start of the graphics card: before the old modes, which are gone
where the driver is present, the modes of the file. -/
structure VgaLists (file : Bytes) (records : List Nat) (rez : Vector Int16 6)
    (lists after : ModeLists) : Prop where
  depth : ∀ i : Fin 6, after[et4000modes[i].index] =
    (ownModes file records rez[i] i).reverse ++
      if 0 < rez[i] then [] else lists[et4000modes[i].index]
  other : ∀ idx : Fin maxDepths, (∀ i : Fin 6, idx ≠ et4000modes[i].index) →
    after[idx] = lists[idx]

/-- The machine runs NVDI and loads the well-formed file. -/
structure NvdivgaInput.Reads (input : NvdivgaInput) (file : Bytes) (records : List Nat) :
    Prop where
  nvdi : input.sysVdi &&& vdiNvdi ≠ 0
  loads : input.machine.gemdos.Loads
  stored : input.disk nvdivgaPath = some file
  loadedAt : LoadedAt input.inf file
  wellFormed : WellFormedVga file records

def NvdivgaInput.rez (input : NvdivgaInput) : Vector Int16 6 :=
  et4000rez input.drivers input.behindTable

variable {input : NvdivgaInput} {fuel : Nat} {lists : ModeLists}

theorem WellFormedVga.nodup (wellFormed : WellFormedVga file records) : records.Nodup := by
  apply wellFormed.apart.imp
  intro mode other apart same
  unfold Apart vgaModeSize at apart
  omega

/-- The file has room for no more records than bytes. -/
theorem WellFormedVga.length_le (wellFormed : WellFormedVga file records) :
    records.length ≤ file.length := by
  have bounded : records ⊆ List.range file.length := by
    intro mode member
    have inside := wellFormed.inside mode member
    rw [vgaModeSize] at inside
    exact List.mem_range.mpr (by omega)
  simpa using (wellFormed.nodup.subperm bounded).length_le

theorem NvdivgaInput.Reads.inRange (reads : input.Reads file records) :
    ∀ mode ∈ records, mode < 2 ^ 31 := by
  intro mode member
  have inside := reads.wellFormed.inside mode member
  have size := reads.loadedAt.size
  rw [vgaModeSize] at inside
  omega

theorem addNvdivgaModes_eq (reads : input.Reads file records) (rez : Vector Int16 6)
    (enough : file.length ≤ fuel) :
    addNvdivgaModes file input.inf fuel rez lists =
      .done (records.foldl (fun made mode => createNvdivgaModes file mode rez made)
        ⟨.replicate 6 0, lists⟩).lists := by
  have header := reads.wellFormed.header
  rw [vgainfSize] at header
  rw [addNvdivgaModes, if_neg (by omega)]
  by_cases some_ : records = []
  · have none : ¬0 < vgainfNummodes file := fun counted =>
      reads.wellFormed.counted.mp counted some_
    rw [if_neg none, some_, List.foldl_nil]
  · rw [if_pos (reads.wellFormed.counted.mpr some_)]
    have start : input.inf + .ofNat vgainfSize = walkAddress input.inf records := by
      cases records with
      | nil => exact absurd rfl some_
      | cons mode rest => rw [walkAddress, reads.wellFormed.first mode (by simp)]
    simp only [start, vgaWalk_linked reads.loadedAt rez reads.wellFormed.linked
      reads.wellFormed.inside reads.wellFormed.apart (untouched_self file records) fuel
      ⟨.replicate 6 0, lists⟩ (reads.wellFormed.length_le.trans enough), Outcome.done_bind]

/-- `initres_nvdivga` goes on to the file: a driver is present, or the bit was set before. -/
def NvdivgaInput.Drives (input : NvdivgaInput) : Prop :=
  (if input.rez.any (0 < ·) then input.sysVdi ||| vdiNvdivga else input.sysVdi) &&& vdiNvdivga =
    vdiNvdivga

theorem drives_of_present (present : ∃ i : Fin 6, 0 < input.rez[i]) : input.Drives := by
  rcases present with ⟨i, positive⟩
  have some_ : input.rez.any (0 < ·) = true :=
    Vector.any_eq_true.mpr ⟨i.val, i.isLt, decide_eq_true positive⟩
  rw [NvdivgaInput.Drives, if_pos some_]
  apply Int16.toBitVec_inj.mp
  apply BitVec.eq_of_getElem_eq
  intro bit _
  simpa using fun isSet => Or.inr isSet

/-- The graphics card gets the modes of the file. -/
theorem initresNvdivga_lists (reads : input.Reads file records) (drives : input.Drives)
    (enough : file.length ≤ fuel) (lists : ModeLists) :
    ∃ after, initresNvdivga input fuel lists = .done after ∧
      VgaLists file records input.rez lists after := by
  refine ⟨(records.foldl (fun made mode => createNvdivgaModes file mode input.rez made)
    ⟨.replicate 6 0, removeOwned input.rez lists⟩).lists, ?_, ?_, ?_⟩
  · rw [initresNvdivga, if_neg reads.nvdi]
    change (if (if input.rez.any (0 < ·) then input.sysVdi ||| vdiNvdivga else input.sysVdi) &&&
      vdiNvdivga ≠ vdiNvdivga then _ else _) = _
    rw [drives, if_neg (not_not.mpr rfl), reads.stored, Gemdos.loadFile_of_loads reads.loads]
    exact addNvdivgaModes_eq reads input.rez enough
  · intro i
    have made := createNvdivgaModes_depth file input.rez (removeOwned input.rez lists) i records
    rw [← removeOwned_depth]
    exact congrArg Prod.snd made
  · intro idx notOwn
    rw [createNvdivgaModes_other file input.rez notOwn, removeOwned_other _ _ notOwn]

/-- Without NVDI or a driver the lists stay as they are. -/
theorem initresNvdivga_idle (idle : ¬input.Drives) :
    initresNvdivga input fuel lists = .done lists := by
  rw [initresNvdivga]
  split_ifs with noNvdi
  · rfl
  · exact if_pos idle

/-! ## A file with one record -/

/-- A file with one record of so many planes. -/
def oneRecord (planes : Byte) : Bytes :=
  List.replicate 34 0 ++ [0, 1] ++ List.replicate 32 0 ++
    [0xff, 0xff, 0xff, 0xff] ++ List.replicate 18 0 ++ [0, planes] ++ List.replicate 76 0

/-- `XVGA2.SYS` has id 1, the other drivers are absent. -/
def oneDriver (planes : Byte) : NvdivgaInput where
  machine := .obliging 0 [] 0
  disk _ := some (oneRecord planes)
  drivers := noDrivers.set 1 (GdosRow.blank.copy (ascii "XVGA2.SYS"))
  behindTable := []
  inf := 0x10000
  sysVdi := vdiNvdi

theorem oneRecord_length (planes : Byte) : (oneRecord planes).length = 168 := by
  simp only [oneRecord, List.length_append, List.length_replicate, List.length_cons,
    List.length_nil]

theorem oneRecord_wellFormed (planes : Byte) : WellFormedVga (oneRecord planes) [68] where
  header := by rw [oneRecord_length]; decide
  counted := by
    have one : vgainfNummodes (oneRecord planes) = 1 := rfl
    simp [one]
  first := by simp [vgainfSize]
  linked := by
    change vgaNext (oneRecord planes) 68 = noMode
    rfl
  inside := by rw [oneRecord_length]; decide
  apart := List.pairwise_singleton _ _

theorem oneDriver_reads (planes : Byte) : (oneDriver planes).Reads (oneRecord planes) [68] where
  nvdi := by
    change vdiNvdi &&& vdiNvdi ≠ 0
    decide
  loads := Gemdos.obliging_succeeds.loads
  stored := rfl
  loadedAt := ⟨by rw [oneRecord_length]; change (0x10000 : UInt32).toNat + 168 ≤ 2 ^ 32; decide,
    by rw [oneRecord_length]; decide⟩
  wellFormed := oneRecord_wellFormed planes

theorem oneDriver_rez (planes : Byte) : (oneDriver planes).rez = #v[1, 0, 0, 0, 0, 0] := by
  change et4000rez (noDrivers.set 1 (GdosRow.blank.copy (ascii "XVGA2.SYS"))) [] = _
  decide +kernel

theorem oneDriver_present (planes : Byte) : ∃ i : Fin 6, 0 < (oneDriver planes).rez[i] := by
  rw [oneDriver_rez]
  decide

/-! ## A file with three records -/

/-- A record for a screen of this size with 60 Hz. -/
def plainRecord (next : Bytes) (xres yres : Int16) (planes : Byte) : Bytes :=
  next ++ List.replicate 6 0 ++
    (shortBytes (xres - 1) ++ shortBytes (yres - 1) ++
      (shortBytes (xres - 1) ++ shortBytes (yres - 1))) ++
    List.replicate 4 0 ++ [0, planes] ++ List.replicate 20 0 ++ [0x02, 0x58] ++
    List.replicate 54 0

/-- A file with two records of one plane, and one of four planes between them. -/
def threeRecords : Bytes :=
  List.replicate 34 0 ++ [0, 3] ++ List.replicate 32 0 ++
    (plainRecord [0, 0, 0, 100] 640 400 1 ++
      (plainRecord [0, 0, 0, 100] 800 608 4 ++
        plainRecord [0xff, 0xff, 0xff, 0xff] 1024 768 1))

/-- `XVGA2.SYS` has id 1 and `XVGA16.SYS` has id 2. -/
def twoDrivers : NvdivgaInput where
  machine := .obliging 0 [] 0
  disk _ := some threeRecords
  drivers := (noDrivers.set 1 (GdosRow.blank.copy (ascii "XVGA2.SYS"))).set 2
    (GdosRow.blank.copy (ascii "XVGA16.SYS"))
  behindTable := []
  inf := 0x10000
  sysVdi := vdiNvdi

theorem threeRecords_length : threeRecords.length = 368 := by decide +kernel

theorem threeRecords_wellFormed : WellFormedVga threeRecords [68, 168, 268] where
  header := by rw [threeRecords_length]; decide
  counted := by
    have three : vgainfNummodes threeRecords = 3 := by decide +kernel
    simp [three]
  first := by simp [vgainfSize]
  linked := by
    have next : vgaNext threeRecords 68 = 100 ∧ vgaNext threeRecords 168 = 100 ∧
      vgaNext threeRecords 268 = noMode := by decide +kernel
    exact ⟨⟨by rw [next.1]; decide, by rw [next.1]; rfl⟩,
      ⟨by rw [next.2.1]; decide, by rw [next.2.1]; rfl⟩, next.2.2⟩
  inside := by rw [threeRecords_length]; decide
  apart := by simp [Apart, vgaModeSize]

theorem twoDrivers_reads : twoDrivers.Reads threeRecords [68, 168, 268] where
  nvdi := by
    change vdiNvdi &&& vdiNvdi ≠ 0
    decide
  loads := Gemdos.obliging_succeeds.loads
  stored := rfl
  loadedAt := ⟨by rw [threeRecords_length]; change (0x10000 : UInt32).toNat + 368 ≤ 2 ^ 32; decide,
    by rw [threeRecords_length]; decide⟩
  wellFormed := threeRecords_wellFormed

theorem twoDrivers_rez : twoDrivers.rez = #v[1, 2, 0, 0, 0, 0] := by
  change et4000rez ((noDrivers.set 1 (GdosRow.blank.copy (ascii "XVGA2.SYS"))).set 2
    (GdosRow.blank.copy (ascii "XVGA16.SYS"))) [] = _
  decide +kernel

end Chgres
