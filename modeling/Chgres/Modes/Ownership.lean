import Chgres.Modes.Created
import Chgres.Modes.NvdivgaRecords

/-! # Who owns a depth

With a driver of the graphics card present, the list of its depth should hold the
records of the file and nothing else, and the other depths should be as they were. The
loop that adds the records does not ask for the driver.
-/

namespace Chgres

open Text Words

/-! ## What each depth should hold -/

/-- The mode shows the record at `mode`, the `ordinal`-th of its plane count. -/
structure ShowsRecord (file : Bytes) (mode ordinal : Nat) (rez : Int16) (i : Fin 6) (r : Res) :
    Prop where
  modeOffset : r.modeOffset.toInt = mode
  planes : r.planes = et4000modes[i].planes
  rez : r.rez = rez
  vmode : r.vmode.toInt = 0x4000 + ordinal
  virtHres : r.virtHres = vgaXres file mode + 1
  virtVres : r.virtVres = vgaYres file mode + 1
  hres : r.hres = vgaVisibleXres file mode + 1
  vres : r.vres = vgaVisibleYres file mode + 1

/-- The list holds the records of the depth, each once, and nothing else. -/
def Owns (file : Bytes) (records : List Nat) (rez : Int16) (i : Fin 6) (list : List Res) : Prop :=
  ∃ inOrder, inOrder.Perm list ∧
    List.Forall₂ (fun r entry => ShowsRecord file entry.1 entry.2 rez i r) inOrder
      (ownRecords file records i).zipIdx

/-- The drivers that are present own their depths, the other depths are untouched, and
every mode has a driver or a shifter. -/
structure DepthsOwned (file : Bytes) (records : List Nat) (rez : Vector Int16 6)
    (lists after : ModeLists) : Prop where
  present : ∀ i : Fin 6, 0 < rez[i] → Owns file records rez[i] i after[et4000modes[i].index]
  absent : ∀ i : Fin 6, ¬0 < rez[i] →
    after[et4000modes[i].index] = lists[et4000modes[i].index]
  offered : ∀ idx : Fin maxDepths, ∀ r ∈ after[idx], 0 < r.rez

/-- The start of the graphics card over the lists comes to an end, and the depths are
owned then. -/
def OwnershipMeets (input : NvdivgaInput) (file : Bytes) (records : List Nat)
    (lists : ModeLists) : Prop :=
  ∀ fuel, file.length ≤ fuel → ∃ after, initresNvdivga input fuel lists = .done after ∧
    DepthsOwned file records input.rez lists after

/-- The records of the depths fit their drivers: no record of a depth without driver,
and no more than 16384 of a depth with one. -/
def RecordsFit (file : Bytes) (records : List Nat) (rez : Vector Int16 6) : Prop :=
  ∀ i : Fin 6, (ownRecords file records i).length ≤ if 0 < rez[i] then 16384 else 0

/-! ## The modes of the hardware -/

/-- Every mode has a driver or a shifter. -/
def Offered (lists : ModeLists) : Prop := ∀ idx : Fin maxDepths, ∀ r ∈ lists[idx], 0 < r.rez

theorem initresHardware_offered (sysVdi : Int16) (video : Video) :
    Offered (initresHardware sysVdi video noModes).lists := by
  intro idx r member
  exact (initresHardware_every sysVdi video noModes_every idx r member).rez

/-! ## When the depths are owned -/

variable {lists : ModeLists} {file : Bytes} {records : List Nat} {rez : Vector Int16 6}
  {after : ModeLists} {i : Fin 6}

/-- A mode of the file shows its record unless the ordinal is too large. -/
theorem nvdivgaMode_shows {mode ordinal : Nat} (size : mode < 2 ^ 31)
    (small : ordinal < 16384) :
    ShowsRecord file mode ordinal rez[i] i (nvdivgaMode file mode (.ofNat ordinal) rez[i] i) where
  modeOffset := Int32.toInt_ofNat_of_lt size
  planes := rfl
  rez := rfl
  vmode := by
    have sum : Int16.ofNat ordinal + svext = Int16.ofNat (ordinal + 0x4000) := by
      rw [Int16.ofNat_add]
      rfl
    change (Int16.ofNat ordinal + svext).toInt = _
    rw [sum, Int16.toInt_ofNat_of_lt (by omega)]
    omega
  virtHres := rfl
  virtVres := rfl
  hres := rfl
  vres := rfl

/-- A depth owns its records if and only if their ordinals fit a mode. -/
theorem owns_iff (inRange : ∀ mode ∈ records, mode < 2 ^ 31) :
    Owns file records rez[i] i (ownModes file records rez[i] i).reverse ↔
      (ownRecords file records i).length ≤ 16384 := by
  constructor
  · intro owns
    by_contra large
    rcases owns with ⟨inOrder, _, shows⟩
    have enough : 16384 < (ownRecords file records i).zipIdx.length := by
      rw [List.length_zipIdx]
      omega
    have shown := (List.forall₂_iff_get.mp shows).2 16384 (by rw [shows.length_eq]; exact enough)
      enough
    have tooLarge := shown.vmode
    have bound := Int16.toInt_lt (inOrder.get ⟨16384, by rw [shows.length_eq]; exact enough⟩).vmode
    simp only [List.get_eq_getElem, List.getElem_zipIdx] at tooLarge bound
    omega
  · intro small
    refine ⟨ownModes file records rez[i] i, (List.reverse_perm _).symm, ?_⟩
    rw [ownModes, List.forall₂_map_left_iff, List.forall₂_same]
    intro entry member
    have place := List.mem_zipIdx_iff_getElem?.mp member
    have ordinal := (List.getElem?_eq_some_iff.mp place).1
    exact nvdivgaMode_shows (inRange _ (ownRecords_planes (List.mem_of_getElem? place)).1)
      (by omega)

/-- The lists that the start leaves are owned if and only if the records fit. -/
theorem depthsOwned_iff (inRange : ∀ mode ∈ records, mode < 2 ^ 31) (offered : Offered lists)
    (made : VgaLists file records rez lists after) :
    DepthsOwned file records rez lists after ↔ RecordsFit file records rez := by
  constructor
  · intro owned i
    split_ifs with present
    · have owns := owned.present i present
      rw [made.depth, if_pos present, List.append_nil, owns_iff inRange] at owns
      exact owns
    · have kept := congrArg List.length (owned.absent i present)
      rw [made.depth, if_neg present, List.length_append, List.length_reverse, ownModes,
        List.length_map, List.length_zipIdx] at kept
      omega
  · intro fit
    have present : ∀ i : Fin 6, 0 < rez[i] →
        Owns file records rez[i] i after[et4000modes[i].index] := by
      intro i present
      have small := fit i
      rw [if_pos present] at small
      rw [made.depth, if_pos present, List.append_nil, owns_iff inRange]
      exact small
    have absent : ∀ i : Fin 6, ¬0 < rez[i] →
        after[et4000modes[i].index] = lists[et4000modes[i].index] := by
      intro i absent
      have none := fit i
      rw [if_neg absent, Nat.le_zero, List.length_eq_zero_iff] at none
      rw [made.depth, if_neg absent, ownModes, none]
      rfl
    refine ⟨present, absent, ?_⟩
    intro idx r member
    by_cases own : ∃ i : Fin 6, idx = et4000modes[i].index
    · rcases own with ⟨i, rfl⟩
      by_cases driver : 0 < rez[i]
      · rcases present i driver with ⟨inOrder, arranged, shows⟩
        have inList := arranged.mem_iff.mpr member
        rcases List.getElem_of_mem inList with ⟨place, inside, rfl⟩
        have shown := (List.forall₂_iff_get.mp shows).2 place inside
          (by rw [← shows.length_eq]; exact inside)
        have rezHere : inOrder[place].rez = rez[i] := shown.rez
        rw [rezHere]
        exact driver
      · rw [absent i driver] at member
        exact offered _ r member
    · rw [made.other idx fun i same => own ⟨i, same⟩] at member
      exact offered idx r member

theorem ownershipMeets_iff {input : NvdivgaInput} (reads : input.Reads file records)
    (present : ∃ i : Fin 6, 0 < input.rez[i]) (offered : Offered lists) :
    OwnershipMeets input file records lists ↔ RecordsFit file records input.rez := by
  have inRange := reads.inRange
  constructor
  · intro meets
    rcases meets file.length (le_refl _) with ⟨after, ends, owned⟩
    rcases initresNvdivga_lists reads (drives_of_present present) (le_refl _) lists with
      ⟨made, ends', vga⟩
    have same : made = after := by
      rw [ends'] at ends
      exact Outcome.done.inj ends
    subst same
    exact (depthsOwned_iff inRange offered vga).mp owned
  · intro fit fuel enough
    rcases initresNvdivga_lists reads (drives_of_present present) enough lists with
      ⟨after, ends, vga⟩
    exact ⟨after, ends, (depthsOwned_iff inRange offered vga).mpr fit⟩

/-- Over the lists of the hardware, the start of the graphics card leaves every depth to
its owner if and only if the records fit the drivers. -/
theorem depth_ownership_iff {input : NvdivgaInput} (video : Video)
    (reads : input.Reads file records) (present : ∃ i : Fin 6, 0 < input.rez[i]) :
    OwnershipMeets input file records (initresHardware input.sysVdi video noModes).lists ↔
      RecordsFit file records input.rez :=
  ownershipMeets_iff reads present (initresHardware_offered input.sysVdi video)

def anyVideo : Video := ⟨0, 0, 0, 0, 0⟩

/-- The three records belong to the two drivers that are present. -/
theorem depth_ownership_iff_sample :
    OwnershipMeets twoDrivers threeRecords [68, 168, 268]
      (initresHardware twoDrivers.sysVdi anyVideo noModes).lists := by
  have present : ∃ i : Fin 6, 0 < twoDrivers.rez[i] := by
    rw [twoDrivers_rez]
    decide
  rw [depth_ownership_iff anyVideo twoDrivers_reads present, RecordsFit, twoDrivers_rez]
  decide +kernel

/-- The one record has 8 planes: its depth has no driver and gets a mode all the same. -/
theorem absent_driver_gets_modes :
    ¬OwnershipMeets (oneDriver 8) (oneRecord 8) [68]
      (initresHardware (oneDriver 8).sysVdi anyVideo noModes).lists := by
  rw [ownershipMeets_iff (oneDriver_reads 8) (oneDriver_present 8)
    (initresHardware_offered _ anyVideo), RecordsFit, oneDriver_rez]
  decide +kernel

end Chgres
