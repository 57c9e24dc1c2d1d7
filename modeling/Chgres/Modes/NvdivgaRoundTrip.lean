import Chgres.Modes.NvdivgaRecords

/-! # Saving a mode to `nvdivga.inf` and loading it again

The saver writes the mode of the default with its high bits set; the start compares
what it finds there with the plain ordinal of a record.
-/

namespace Chgres

open Text Words

/-! ## What the next start should make -/

/-- A created mode after the dialog: another virtual size, selected or not. -/
structure Edited (m r : Res) : Prop where
  rez : r.rez = m.rez
  vmode : r.vmode = m.vmode
  flags : r.flags = m.flags
  hres : r.hres = m.hres
  vres : r.vres = m.vres
  planes : r.planes = m.planes
  freq : r.freq = m.freq
  modeOffset : r.modeOffset = m.modeOffset

/-- The mode as the next start should make it: the mode `r` with its new size and as the
default of its plane count, the other modes of the plane count without the flag. -/
def renewed (r m : Res) : Res :=
  if m.planes = r.planes then
    if m.modeOffset = r.modeOffset then
      { m with
        virtHres := r.virtHres
        virtVres := r.virtVres
        flags := m.flags ||| flagDefmode }
    else { m with flags := m.flags &&& ~~~flagDefmode }
  else m

/-- After the save, a fresh start makes the modes of the first start again, renewed. -/
def RoundTrips (input : NvdivgaInput) (r : Res) (first : ModeLists) : Prop :=
  ∀ file, input.disk nvdivgaPath = some file → ∀ fuel, file.length ≤ fuel →
    let saved := saveNvdivgaInf input.machine r input.disk
    ∃ second, initresNvdivga { input with disk := saved.2 } fuel noModes = .done second ∧
      ∀ idx : Fin maxDepths, second[idx] = first[idx].map (renewed r)

/-- The record of the mode, the `ordinal`-th of its plane count, is far enough behind in
the file, and no other ordinal of the plane count differs from it by 65536. -/
def DefaultHolds (file : Bytes) (records : List Nat) (r : Res) : Prop :=
  ∃ (i : Fin 6) (ordinal mode : Nat), et4000modes[i].planes = r.planes ∧
    (ownRecords file records i)[ordinal]? = some mode ∧ r.modeOffset.toInt = mode ∧
    49152 ≤ ordinal ∧ ordinal < 65536 ∧ (ownRecords file records i).length ≤ ordinal + 65536

/-! ## The default of a plane count -/

theorem or_high_bits {number : Nat} (small : number < 65536) :
    number ||| 0xc000 = 0xc000 + number % 0x4000 := by
  have mask : 0xc000 = 2 ^ 14 * 3 := by decide
  have low : number % 2 ^ 14 < 2 ^ 14 := Nat.mod_lt _ (by decide)
  have split : 2 ^ 14 * (number / 2 ^ 14) ||| number % 2 ^ 14 = number := by
    rw [← Nat.two_pow_add_eq_or_of_lt low, Nat.div_add_mod]
  have high : 2 ^ 14 * (number / 2 ^ 14) ||| 2 ^ 14 * 3 = 2 ^ 14 * 3 := by
    have quotient : number / 2 ^ 14 < 4 := by omega
    interval_cases number / 2 ^ 14 <;> decide
  calc number ||| 0xc000
      = (2 ^ 14 * (number / 2 ^ 14) ||| number % 2 ^ 14) ||| 2 ^ 14 * 3 := by rw [split, mask]
    _ = (2 ^ 14 * (number / 2 ^ 14) ||| 2 ^ 14 * 3) ||| number % 2 ^ 14 := by
        rw [Nat.or_assoc, Nat.or_comm (number % 2 ^ 14), Nat.or_assoc]
    _ = 2 ^ 14 * 3 + number % 2 ^ 14 := by rw [high, Nat.two_pow_add_eq_or_of_lt low]
    _ = 0xc000 + number % 0x4000 := by omega

/-- The saved default is found again by the ordinals that end in the same bits. -/
theorem ordinal_eq_default (ordinal other : Nat) :
    Int16.ofNat other = (Int16.ofNat ordinal + svext) ||| 0xc000 ↔
      other % 65536 = 49152 + ordinal % 16384 := by
  have value : ((Int16.ofNat ordinal + svext) ||| 0xc000).toBitVec.toNat =
      49152 + ordinal % 16384 := by
    have sum : ((Int16.ofNat ordinal + svext) ||| 0xc000).toBitVec.toNat =
        ((ordinal + 0x4000) % 65536) ||| 0xc000 := by
      simp [Int16.toBitVec_or, Int16.toBitVec_add, svext, BitVec.toNat_or, BitVec.toNat_add]
    rw [sum, or_high_bits (Nat.mod_lt _ (by decide))]
    omega
  have left : (Int16.ofNat other).toBitVec.toNat = other % 65536 := by simp
  rw [← Int16.toBitVec_inj, ← BitVec.toNat_inj, value, left]

/-- Among `count` ordinals the saved default is found as the one that was saved and as no
other if and only if the ordinal has its two high bits set. -/
theorem default_found_iff {ordinal count : Nat} (inRange : ordinal < count) :
    (∀ other < count, Int16.ofNat other = (Int16.ofNat ordinal + svext) ||| 0xc000 ↔
        other = ordinal) ↔
      49152 ≤ ordinal ∧ ordinal < 65536 ∧ count ≤ ordinal + 65536 := by
  simp only [ordinal_eq_default]
  constructor
  · intro found
    have itself := (found ordinal inRange).mpr rfl
    have small : ordinal < 65536 := by
      by_contra large
      have lower := (found (ordinal - 65536) (by omega)).mp (by omega)
      omega
    refine ⟨by omega, small, ?_⟩
    by_contra more
    have upper := (found (ordinal + 65536) (by omega)).mp (by omega)
    omega
  · intro holds other inCount
    omega

/-! ## The file after the save -/

/-- Store a `short`. -/
def storeShort (memory : Bytes) (offset : Nat) (value : Int16) : Bytes :=
  store memory offset 2 value.toBitVec.toNat

/-- The contents after the writes. -/
def savedVga (file : Bytes) (r : Res) (i : Fin 6) (mode : Nat) : Bytes :=
  storeShort
    (storeShort (storeShort file (vgainfDefmodeOffset i) (r.vmode ||| 0xc000))
      (mode + vgaXresOffset) (r.virtHres - 1))
    (mode + vgaXresOffset + 2) (r.virtVres - 1)

theorem planes_eq_iff {i j : Fin 6} : et4000modes[j].planes = et4000modes[i].planes ↔ j = i := by
  revert i j
  decide

theorem depthOfPlanes_eq (i : Fin 6) : depthOfPlanes et4000modes[i].planes = some i := by
  revert i
  decide

theorem storeShort_length {memory : Bytes} {offset : Nat} (within : offset + 2 ≤ memory.length)
    (value : Int16) : (storeShort memory offset value).length = memory.length :=
  store_length within

theorem load_storeShort {memory : Bytes} {offset : Nat} (within : offset + 2 ≤ memory.length)
    {start count : Nat} (apart : start + count ≤ offset ∨ offset + 2 ≤ start) (value : Int16) :
    load (storeShort memory offset value) start count = load memory start count :=
  load_store_apart within apart

/-- What is stored as a `short` is loaded as the same one. -/
theorem short_storeShort {memory : Bytes} {offset : Nat} (within : offset + 2 ≤ memory.length)
    (value : Int16) : short (storeShort memory offset value) offset = value := by
  rw [short, storeShort, load_store_same within]
  apply Int16.toBitVec_inj.mp
  apply BitVec.toNat_inj.mp
  have small := value.toBitVec.isLt
  simp
  omega

variable {file : Bytes} {records : List Nat} {rez : Vector Int16 6} {i : Fin 6} {mode : Nat}
  {r : Res}

theorem saveNvdivgaInf_eq {machine : Machine} {disk : Disk} (succeeds : machine.gemdos.Succeeds)
    (stored : disk nvdivgaPath = some file) (planes : et4000modes[i].planes = r.planes)
    (place : r.modeOffset.toInt = mode) (behindHeader : vgainfSize ≤ mode)
    (within : mode + vgaModeSize ≤ file.length) :
    saveNvdivgaInf machine r disk =
      (1, disk.set nvdivgaPath (some (savedVga file r i mode))) := by
  unfold vgainfSize at behindHeader
  rw [vgaModeSize] at within
  have header : vgainfDefmodeOffset i < 50 := by
    have small := i.isLt
    rw [vgainfDefmodeOffset]
    omega
  have writes : ∀ (k : Nat) (data : Bytes) (offset : Nat) (opened : OpenFile),
      offset ≤ opened.contents.length →
      machine.gemdos.fwrite k data (fseek offset opened) =
        ⟨poke opened.contents offset data, offset + data.length⟩ := by
    intro k data offset opened inFile
    rw [Gemdos.fwrite_of_complete (succeeds.writes k _), fseek, if_pos (by omega)]
    rfl
  have second : vgaXresOffset + r.modeOffset.toInt = ((mode + vgaXresOffset : Nat) : Int) := by
    rw [place]
    omega
  have room : mode + vgaXresOffset ≤ file.length := by
    rw [vgaXresOffset]
    omega
  rw [saveNvdivgaInf, stored]
  simp only [if_pos succeeds.opens, writeNvdivgaInf, ← planes, depthOfPlanes_eq, second]
  have sizes : (shortBytes (r.vmode ||| 0xc000)).length = 2 := toBytes_length _ _
  have length := @poke_length file (shortBytes (r.vmode ||| 0xc000)) (vgainfDefmodeOffset i)
    (by omega)
  rw [writes 0 _ (vgainfDefmodeOffset i) (.onto file) (by change _ ≤ file.length; omega),
    writes 1 _ (mode + vgaXresOffset) _ (by change _ ≤ (poke file _ _).length; omega)]
  simp only
  rw [poke_append (by change _ ≤ (poke file _ _).length; omega)]
  rfl

/-- What the save does to the parts of the file. -/
structure VgaSaved (file saved : Bytes) (r : Res) (i : Fin 6) (mode : Nat) : Prop where
  length : saved.length = file.length
  apart : ∀ start count, start + count ≤ vgainfDefmodeOffset i ∨ vgainfDefmodeOffset i + 2 ≤ start →
    start + count ≤ mode + vgaXresOffset ∨ mode + 14 ≤ start →
    load saved start count = load file start count
  defmode : vgainfDefmode saved i = r.vmode ||| 0xc000
  xres : vgaXres saved mode = r.virtHres - 1
  yres : vgaYres saved mode = r.virtVres - 1

theorem savedVga_saved (behindHeader : vgainfSize ≤ mode)
    (within : mode + vgaModeSize ≤ file.length) :
    VgaSaved file (savedVga file r i mode) r i mode := by
  unfold vgainfSize at behindHeader
  rw [vgaModeSize] at within
  have header : vgainfDefmodeOffset i + 2 ≤ 50 := by
    have small := i.isLt
    rw [vgainfDefmodeOffset]
    omega
  have place : vgaXresOffset = 10 := rfl
  have firstRoom : vgainfDefmodeOffset i + 2 ≤ file.length := by omega
  have first := storeShort_length firstRoom (r.vmode ||| 0xc000)
  have secondRoom : mode + vgaXresOffset + 2 ≤
      (storeShort file (vgainfDefmodeOffset i) (r.vmode ||| 0xc000)).length := by omega
  have second := storeShort_length secondRoom (r.virtHres - 1)
  have thirdRoom : mode + vgaXresOffset + 2 + 2 ≤
      (storeShort (storeShort file (vgainfDefmodeOffset i) (r.vmode ||| 0xc000))
        (mode + vgaXresOffset) (r.virtHres - 1)).length := by omega
  have third := storeShort_length thirdRoom (r.virtVres - 1)
  constructor
  · exact third.trans (second.trans first)
  · intro start count clearHeader clearMode
    rw [savedVga, load_storeShort thirdRoom (by omega), load_storeShort secondRoom (by omega),
      load_storeShort firstRoom clearHeader]
  · rw [vgainfDefmode, short, savedVga, load_storeShort thirdRoom (by omega),
      load_storeShort secondRoom (by omega)]
    exact short_storeShort firstRoom _
  · rw [vgaXres, short, savedVga, load_storeShort thirdRoom (by omega)]
    exact short_storeShort secondRoom _
  · exact short_storeShort thirdRoom _

/-! ## The records of the saved file -/

variable {saved : Bytes} {other : Nat}

/-- A record is told apart from the others by its place. -/
theorem WellFormedVga.apart_of_ne (wellFormed : WellFormedVga file records)
    (member : mode ∈ records) (memberOther : other ∈ records) (different : other ≠ mode) :
    Apart other mode :=
  wellFormed.apart.forall memberOther member different

/-- The save changes no field of a record but the virtual size of its own. -/
theorem VgaSaved.field (save : VgaSaved file saved r i mode)
    (wellFormed : WellFormedVga file records) (member : mode ∈ records)
    (memberOther : other ∈ records) {offset count : Nat} (inRecord : offset + count ≤ vgaModeSize)
    (notSize : other = mode → offset + count ≤ vgaXresOffset ∨ 14 ≤ offset) :
    load saved (other + offset) count = load file (other + offset) count := by
  have behindHeader := (wellFormed.inside other memberOther).1
  have small := i.isLt
  unfold vgaModeSize at inRecord
  unfold vgainfSize at behindHeader
  apply save.apart
  · rw [vgainfDefmodeOffset]
    omega
  · by_cases same : other = mode
    · have clear := notSize same
      omega
    · have apart := wellFormed.apart_of_ne member memberOther same
      unfold Apart vgaModeSize at apart
      rw [vgaXresOffset]
      omega

variable (save : VgaSaved file saved r i mode) (wellFormed : WellFormedVga file records)
  (member : mode ∈ records)

include save wellFormed member

theorem saved_next (memberOther : other ∈ records) : vgaNext saved other = vgaNext file other :=
  congrArg UInt32.ofNat (@VgaSaved.field _ _ _ _ _ _ _ save wellFormed member memberOther 0 4
    (by decide) fun _ => .inl (by decide))

theorem saved_short (memberOther : other ∈ records) {offset : Nat} (lower : 14 ≤ offset)
    (upper : offset + 2 ≤ vgaModeSize) :
    short saved (other + offset) = short file (other + offset) :=
  congrArg Int16.ofNat (save.field wellFormed member memberOther upper fun _ => .inr lower)

theorem saved_linked {tail : List Nat} (inside : ∀ other ∈ tail, other ∈ records) :
    Linked file tail → Linked saved tail := by
  intro linked
  induction tail with
  | nil => trivial
  | cons other tail induction =>
      have next := saved_next save wellFormed member (inside other (by simp))
      have rest := induction (fun later memberLater =>
        inside later (List.mem_cons_of_mem other memberLater)) linked.tail
      cases tail with
      | nil => exact next.trans linked
      | cons later tail => exact ⟨next ▸ linked.1, rest⟩

theorem saved_wellFormed : WellFormedVga saved records where
  header := save.length ▸ wellFormed.header
  counted := by
    have behindHeader := (wellFormed.inside mode member).1
    have place : vgainfDefmodeOffset i = 38 + 2 * i.val := rfl
    have nummodes : vgainfNummodes saved = vgainfNummodes file := by
      apply congrArg Int16.ofNat
      unfold vgainfSize at behindHeader
      exact save.apart 34 2 (by omega) (by omega)
    rw [nummodes]
    exact wellFormed.counted
  first := wellFormed.first
  linked := saved_linked save wellFormed member (fun _ memberOther => memberOther) wellFormed.linked
  inside := by
    rw [save.length]
    exact wellFormed.inside
  apart := wellFormed.apart

theorem saved_ownRecords (j : Fin 6) : ownRecords saved records j = ownRecords file records j := by
  apply List.filter_congr
  intro other memberOther
  have planes : vgaPlanes saved other = vgaPlanes file other :=
    saved_short save wellFormed member memberOther (by decide) (by decide)
  rw [planes]

/-- The mode that the next start makes of a record. -/
theorem saved_nvdivgaMode (memberOther : other ∈ records) (modeidx rez : Int16) (j : Fin 6) :
    nvdivgaMode saved other modeidx rez j =
      { nvdivgaMode file other modeidx rez j with
        virtHres := if other = mode then r.virtHres else vgaXres file other + 1
        virtVres := if other = mode then r.virtVres else vgaYres file other + 1
        flags := if modeidx = (if j = i then r.vmode ||| 0xc000 else vgainfDefmode file j) then
          flagInfo ||| flagDefmode else flagInfo } := by
  have visibleXres : vgaVisibleXres saved other = vgaVisibleXres file other :=
    saved_short save wellFormed member memberOther (by decide) (by decide)
  have visibleYres : vgaVisibleYres saved other = vgaVisibleYres file other :=
    saved_short save wellFormed member memberOther (by decide) (by decide)
  have vfreq : vgaVfreq saved other = vgaVfreq file other :=
    save.field wellFormed member memberOther (by decide) fun _ => .inr (by decide)
  have virtHres : vgaXres saved other + 1 =
      if other = mode then r.virtHres else vgaXres file other + 1 := by
    split_ifs with same
    · rw [same, save.xres, Int16.sub_add_cancel]
    · rw [vgaXres, short, save.field wellFormed member memberOther (by decide)
        fun same' => absurd same' same, vgaXres, short]
  have virtVres : vgaYres saved other + 1 =
      if other = mode then r.virtVres else vgaYres file other + 1 := by
    split_ifs with same
    · rw [same, save.yres, Int16.sub_add_cancel]
    · rw [vgaYres, short, save.field wellFormed member memberOther (by decide)
        fun same' => absurd same' same, vgaYres, short]
  have defmode : vgainfDefmode saved j =
      if j = i then r.vmode ||| 0xc000 else vgainfDefmode file j := by
    split_ifs with same
    · rw [same, save.defmode]
    · have apart : j.val ≠ i.val := fun value => same (Fin.ext value)
      have small := j.isLt
      have behindHeader := (wellFormed.inside mode member).1
      unfold vgainfSize at behindHeader
      rw [vgainfDefmode, short, save.apart _ _ (by unfold vgainfDefmodeOffset; omega)
        (by unfold vgainfDefmodeOffset; omega), vgainfDefmode, short]
  rw [nvdivgaMode, visibleXres, visibleYres, vfreq, virtHres, virtVres, defmode]
  rfl

/-- The next start makes the renewed mode of a record, unless it takes another record of
the plane count for the default. -/
theorem saved_nvdivgaMode_iff (planes : et4000modes[i].planes = r.planes)
    (place : r.modeOffset.toInt = mode) (size : ∀ other ∈ records, other < 2 ^ 31)
    (memberOther : other ∈ records) (modeidx rez : Int16) {j : Fin 6}
    (elsewhere : j ≠ i → other ≠ mode) :
    nvdivgaMode saved other modeidx rez j = renewed r (nvdivgaMode file other modeidx rez j) ↔
      (j = i → (modeidx = r.vmode ||| 0xc000 ↔ other = mode)) := by
  have samePlanes : (nvdivgaMode file other modeidx rez j).planes = r.planes ↔ j = i := by
    rw [← planes]
    exact planes_eq_iff
  have samePlace : (nvdivgaMode file other modeidx rez j).modeOffset = r.modeOffset ↔
      other = mode := by
    have value : (Int32.ofNat other).toInt = other := Int32.toInt_ofNat_of_lt (size other memberOther)
    change Int32.ofNat other = r.modeOffset ↔ _
    rw [← Int32.toInt_inj, value, place]
    omega
  have flagged : ∀ flags ∈ [flagInfo ||| flagDefmode, flagInfo],
      flags ||| flagDefmode = flagInfo ||| flagDefmode ∧ flags &&& ~~~flagDefmode = flagInfo := by
    rw [List.forall_mem_cons, List.forall_mem_singleton]
    decide
  have flags : (nvdivgaMode file other modeidx rez j).flags ∈
      [flagInfo ||| flagDefmode, flagInfo] := by
    change (if _ then _ else _) ∈ _
    split_ifs <;> simp
  have info : flagInfo ≠ flagInfo ||| flagDefmode := by decide
  rw [saved_nvdivgaMode save wellFormed member memberOther, renewed]
  by_cases own : j = i
  · rw [if_pos (samePlanes.mpr own)]
    by_cases here : other = mode
    · rw [if_pos (samePlace.mpr here), (flagged _ flags).1]
      by_cases default : modeidx = r.vmode ||| 0xc000
      · simp [own, here, default]
      · simp [own, here, default, info]
    · rw [if_neg fun same => here (samePlace.mp same), (flagged _ flags).2]
      by_cases default : modeidx = r.vmode ||| 0xc000
      · simp [own, here, default, info.symm]
      · simp [own, here, default, nvdivgaMode]
  · rw [if_neg fun same => own (samePlanes.mp same)]
    simp [own, elsewhere own, nvdivgaMode]

omit save wellFormed member

/-- Every record of the depth is told from the saved one by its ordinal. -/
theorem ownRecords_nodup (wellFormed : WellFormedVga file records) (i : Fin 6) :
    (ownRecords file records i).Nodup :=
  wellFormed.nodup.filter _

/-- The modes of a depth are renewed by the save and the next start if and only if, in the
depth that was saved to, the default is the ordinal of the saved record. -/
theorem saved_ownModes_iff (save : VgaSaved file saved r i mode)
    (wellFormed : WellFormedVga file records) (planes : et4000modes[i].planes = r.planes)
    (place : r.modeOffset.toInt = mode) (size : ∀ other ∈ records, other < 2 ^ 31) {ordinal : Nat}
    (vmode : r.vmode = .ofNat ordinal + svext)
    (here : (ownRecords file records i)[ordinal]? = some mode) (rez : Int16) (j : Fin 6) :
    ownModes saved records rez j = (ownModes file records rez j).map (renewed r) ↔
      (j = i → ∀ other < (ownRecords file records i).length,
        (Int16.ofNat other = (.ofNat ordinal + svext) ||| 0xc000 ↔ other = ordinal)) := by
  have own := ownRecords_planes (List.mem_of_getElem? here)
  have bound := (List.getElem?_eq_some_iff.mp here).1
  rw [ownModes, saved_ownRecords save wellFormed own.1, ownModes, List.map_map, List.map_inj_left]
  constructor
  · intro same isOwn other inRange
    subst isOwn
    have entry : ((ownRecords file records j)[other], other) ∈
        (ownRecords file records j).zipIdx :=
      List.mem_zipIdx_iff_getElem?.mpr (List.getElem?_eq_getElem inRange)
    have memberOther := (ownRecords_planes (List.getElem_mem inRange)).1
    have equal := same _ entry
    rw [Function.comp_apply, saved_nvdivgaMode_iff save wellFormed own.1 planes place size
      memberOther _ _ fun different => absurd rfl different] at equal
    rw [← vmode, equal rfl]
    have value := (List.getElem?_eq_some_iff.mp here).2
    rw [← value]
    exact (ownRecords_nodup wellFormed j).getElem_inj_iff
  · intro found entry member
    rcases entry with ⟨other, number⟩
    have position := List.mem_zipIdx_iff_getElem?.mp member
    simp only at position
    have memberOther := ownRecords_planes (List.mem_of_getElem? position)
    have elsewhere : j ≠ i → other ≠ mode := by
      intro different same
      apply different
      apply planes_eq_iff.mp
      rw [memberOther.2, own.2, same]
    apply (saved_nvdivgaMode_iff save wellFormed own.1 planes place size memberOther.1
      (.ofNat number) rez elsewhere).mpr
    intro isOwn
    subst isOwn
    rcases List.getElem?_eq_some_iff.mp position with ⟨inRange, atNumber⟩
    rcases List.getElem?_eq_some_iff.mp here with ⟨_, atOrdinal⟩
    rw [vmode, found rfl number inRange, ← atNumber, ← atOrdinal]
    exact (ownRecords_nodup wellFormed j).getElem_inj_iff.symm

/-! ## The two starts -/

variable {input : NvdivgaInput} {first second : ModeLists}

/-- Over no lists the start makes the modes of the file and no others. -/
theorem VgaLists.fresh (made : VgaLists file records rez noModes first) (i : Fin 6) :
    first[et4000modes[i].index] = (ownModes file records rez[i] i).reverse := by
  have none : noModes[et4000modes[i].index] = [] := by simp [noModes]
  rw [made.depth, none, ite_self, List.append_nil]

theorem VgaLists.fresh_other (made : VgaLists file records rez noModes first)
    {idx : Fin maxDepths} (notOwn : ∀ i : Fin 6, idx ≠ et4000modes[i].index) :
    first[idx] = [] := by
  rw [made.other idx notOwn]
  simp [noModes]

/-- A created mode comes from a record. -/
theorem VgaLists.created (made : VgaLists file records rez noModes first) {idx : Fin maxDepths}
    {m : Res} (member : m ∈ first[idx]) :
    ∃ (i : Fin 6) (ordinal mode : Nat), (ownRecords file records i)[ordinal]? = some mode ∧
      m = nvdivgaMode file mode (.ofNat ordinal) rez[i] i := by
  by_cases own : ∃ i : Fin 6, idx = et4000modes[i].index
  · rcases own with ⟨i, rfl⟩
    rw [made.fresh, List.mem_reverse, ownModes, List.mem_map] at member
    rcases member with ⟨⟨mode, ordinal⟩, entry, rfl⟩
    exact ⟨i, ordinal, mode, List.mem_zipIdx_iff_getElem?.mp entry, rfl⟩
  · rw [made.fresh_other fun i same => own ⟨i, same⟩] at member
    exact absurd member (by simp)

/-- The second start renews the modes of the first one depth by depth. -/
theorem renewed_lists_iff (made : VgaLists file records rez noModes first)
    (made' : VgaLists saved records rez noModes second) :
    (∀ idx : Fin maxDepths, second[idx] = first[idx].map (renewed r)) ↔
      ∀ j : Fin 6, ownModes saved records rez[j] j =
        (ownModes file records rez[j] j).map (renewed r) := by
  constructor
  · intro same j
    have depth := same et4000modes[j].index
    rw [made.fresh, made'.fresh, List.map_reverse] at depth
    exact List.reverse_injective depth
  · intro same idx
    by_cases own : ∃ i : Fin 6, idx = et4000modes[i].index
    · rcases own with ⟨i, rfl⟩
      rw [made.fresh, made'.fresh, List.map_reverse, same]
    · have notOwn : ∀ i : Fin 6, idx ≠ et4000modes[i].index := fun i equal => own ⟨i, equal⟩
      rw [made.fresh_other notOwn, made'.fresh_other notOwn, List.map_nil]

/-- After the save the machine reads the saved file, which holds the same records. -/
theorem reads_saved (reads : input.Reads file records) (save : VgaSaved file saved r i mode)
    (member : mode ∈ records) :
    NvdivgaInput.Reads { input with disk := input.disk.set nvdivgaPath (some saved) } saved
      records where
  nvdi := reads.nvdi
  loads := reads.loads
  stored := by
    change input.disk.set nvdivgaPath (some saved) nvdivgaPath = some saved
    rw [Disk.set_same]
  loadedAt := ⟨save.length ▸ reads.loadedAt.fits, save.length ▸ reads.loadedAt.size⟩
  wellFormed := saved_wellFormed save reads.wellFormed member

theorem roundTrips_record_iff (reads : input.Reads file records)
    (succeeds : input.machine.gemdos.Succeeds) (drives : input.Drives)
    (made : VgaLists file records input.rez noModes first) {ordinal : Nat}
    (here : (ownRecords file records i)[ordinal]? = some mode)
    (planes : et4000modes[i].planes = r.planes) (place : r.modeOffset.toInt = mode)
    (vmode : r.vmode = .ofNat ordinal + svext) :
    RoundTrips input r first ↔
      49152 ≤ ordinal ∧ ordinal < 65536 ∧
        (ownRecords file records i).length ≤ ordinal + 65536 := by
  have member := (ownRecords_planes (List.mem_of_getElem? here)).1
  rcases reads.wellFormed.inside mode member with ⟨behindHeader, within⟩
  have save := @savedVga_saved file i mode r behindHeader within
  have written := saveNvdivgaInf_eq succeeds reads.stored planes place behindHeader within
  have readsSaved := reads_saved reads save member
  have depths : ∀ {second}, VgaLists (savedVga file r i mode) records input.rez noModes second →
      ((∀ idx : Fin maxDepths, second[idx] = first[idx].map (renewed r)) ↔
        49152 ≤ ordinal ∧ ordinal < 65536 ∧
          (ownRecords file records i).length ≤ ordinal + 65536) := by
    intro second made'
    rw [renewed_lists_iff made made',
      ← default_found_iff (List.getElem?_eq_some_iff.mp here).1]
    have depth := fun j : Fin 6 => saved_ownModes_iff save reads.wellFormed planes place
      reads.inRange vmode here input.rez[j] j
    constructor
    · intro same
      exact (depth i).mp (same i) rfl
    · intro found j
      exact (depth j).mpr fun _ => found
  constructor
  · intro trips
    rcases trips file reads.stored file.length (le_refl _) with ⟨second, ends, same⟩
    rcases initresNvdivga_lists readsSaved drives (le_of_eq save.length) noModes with
      ⟨after, ends', made'⟩
    rw [written] at ends
    have equal : after = second := Outcome.done.inj (ends'.symm.trans ends)
    subst equal
    exact (depths made').mp same
  · intro holds other stored fuel enough
    have equal : other = file := Option.some.inj (stored.symm.trans reads.stored)
    subst equal
    rcases initresNvdivga_lists readsSaved drives (save.length ▸ enough) noModes with
      ⟨after, ends, made'⟩
    rw [written]
    exact ⟨after, ends, (depths made').mpr holds⟩

/-- A created mode, edited or not, comes back from the file as it was saved if and only if
its ordinal has the two high bits set that the saver puts into the default. -/
theorem nvdivga_round_trip_iff {fuel : Nat} {idx : Fin maxDepths} {m : Res}
    (reads : input.Reads file records) (succeeds : input.machine.gemdos.Succeeds)
    (enough : file.length ≤ fuel) (started : initresNvdivga input fuel noModes = .done first)
    (created : m ∈ first[idx]) (edited : Edited m r) :
    RoundTrips input r first ↔ DefaultHolds file records r := by
  have drives : input.Drives := by
    by_contra idle
    have nothing := @initresNvdivga_idle input fuel noModes idle
    rw [started] at nothing
    rw [Outcome.done.inj nothing] at created
    simp [noModes] at created
  rcases initresNvdivga_lists reads drives enough noModes with ⟨after, ends, made⟩
  have equal : after = first := Outcome.done.inj (ends.symm.trans started)
  subst equal
  rcases made.created created with ⟨i, ordinal, mode, here, rfl⟩
  have planes : et4000modes[i].planes = r.planes := edited.planes.symm
  have member := (ownRecords_planes (List.mem_of_getElem? here)).1
  have place : r.modeOffset.toInt = mode := by
    rw [edited.modeOffset]
    exact Int32.toInt_ofNat_of_lt (reads.inRange mode member)
  rw [roundTrips_record_iff reads succeeds drives made here planes place edited.vmode]
  constructor
  · intro holds
    exact ⟨i, ordinal, mode, planes, here, place, holds⟩
  · intro holds
    rcases holds with ⟨j, other, there, planesThere, hereOther, placeThere, holds⟩
    have sameDepth : j = i := planes_eq_iff.mp (planesThere.trans planes.symm)
    subst sameDepth
    have samePlace : there = mode := by exact_mod_cast placeThere.symm.trans place
    subst samePlace
    rcases List.getElem?_eq_some_iff.mp here with ⟨inRange, atOrdinal⟩
    rcases List.getElem?_eq_some_iff.mp hereOther with ⟨inRangeOther, atOther⟩
    have sameOrdinal : ordinal = other :=
      (ownRecords_nodup reads.wellFormed j).getElem_inj_iff.mp (atOrdinal.trans atOther.symm)
    subst sameOrdinal
    exact holds

/-- The mode of the second record of one plane, with another width. -/
theorem nvdivga_round_trip_iff_sample :
    let m := nvdivgaMode threeRecords 268 1 1 0
    let lists := (initresNvdivga twoDrivers 368 noModes).getD noModes
    m ∈ lists[(0 : Fin maxDepths)] ∧
      (RoundTrips twoDrivers { m with virtHres := 1280 } lists ↔
        DefaultHolds threeRecords [68, 168, 268] { m with virtHres := 1280 }) := by
  intro m lists
  have started : initresNvdivga twoDrivers 368 noModes = .done lists :=
    Outcome.eq_done_getD (by decide +kernel) _
  have created : m ∈ lists[(0 : Fin maxDepths)] := by decide +kernel
  exact ⟨created, nvdivga_round_trip_iff twoDrivers_reads Gemdos.obliging_succeeds
    (le_of_eq threeRecords_length) started created ⟨rfl, rfl, rfl, rfl, rfl, rfl, rfl, rfl⟩⟩

/-- The mode of the one record of a file, and the lists with it. -/
def oneMode : Res := nvdivgaMode (oneRecord 1) 68 0 1 0

def oneModeLists : ModeLists := noModes.set 0 [oneMode] (Nat.pos_of_neZero maxDepths)

theorem oneMode_started : initresNvdivga (oneDriver 1) 168 noModes = .done oneModeLists := by
  decide +kernel

/-- The mode that was saved as the default of its depth is not the default of the next
start: the saver wrote 0xC000 for its ordinal 0. -/
theorem saved_default_lost : ¬RoundTrips (oneDriver 1) oneMode oneModeLists := by
  have made : VgaLists (oneRecord 1) [68] (oneDriver 1).rez noModes oneModeLists := by
    rcases initresNvdivga_lists (oneDriver_reads 1) (drives_of_present (oneDriver_present 1))
      (le_of_eq (oneRecord_length 1)) noModes with ⟨after, ends, made⟩
    have equal := Outcome.done.inj (ends.symm.trans oneMode_started)
    exact equal ▸ made
  have here : (ownRecords (oneRecord 1) [68] 0)[0]? = some 68 := by decide +kernel
  rw [@roundTrips_record_iff (oneRecord 1) [68] 0 68 oneMode (oneDriver 1) oneModeLists
    (oneDriver_reads 1) Gemdos.obliging_succeeds (drives_of_present (oneDriver_present 1)) made 0
    here rfl (by decide +kernel) (by decide +kernel)]
  omega

end Chgres
