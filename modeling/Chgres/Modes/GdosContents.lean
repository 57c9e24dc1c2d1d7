import Chgres.Modes.GdosLines

/-! # Which driver has which id

The table against the lines of `assign.sys`. The look-up of a driver that is not in
the table goes on behind it.
-/

namespace Chgres

open Text Words

/-- A look-up in the table that was read from the contents, on a machine that loads
the file, with this memory behind the table. -/
def LookupMeets (contents driver : Bytes) : Prop :=
  ∀ (machine : Machine) (disk : Disk) (behindTable : Bytes), machine.gemdos.Loads →
    disk assignPath = some contents →
    let lookup := getGdosDriver (readAssignSys machine disk noDrivers) behindTable driver
    lookup.id.toInt = assignedId contents driver ∧ ∀ row ∈ lookup.read, row < 11

/-- The table serves every driver file. -/
def AssignMeets (contents : Bytes) : Prop :=
  ∀ driver, IsDriverName driver → LookupMeets contents driver

/-! ## The table -/

/-- The drivers that the lines enter for an id, one after the other. -/
def enteredDrivers (ls : List Bytes) (id : Nat) : List Bytes :=
  ((ls.filterMap lineEntry).filter fun entry => entry.1.toInt = (id : Int)).map fun entry =>
    entry.2.take 13

theorem strupr_noNul {text : Bytes} (noNul : 0 ∉ text) : 0 ∉ strupr text := by
  intro member
  rcases List.mem_map.mp member with ⟨c, inText, upper⟩
  have onlyZero : ∀ c : Byte, toUpper c = 0 → c = 0 := by decide +kernel
  exact noNul (onlyZero c upper ▸ inText)

theorem lineEntry_noNul {line driver : Bytes} {id : Int16}
    (entry : lineEntry line = some (id, driver)) : 0 ∉ driver := by
  have noNul := strupr_noNul (cstring_noNul ((lineText line).take 511))
  unfold lineEntry bufEntry at entry
  generalize strupr (cstring ((lineText line).take 511)) = buf at entry noNul
  cases found : strstr sysExtension buf with
  | none => simp [found] at entry
  | some l =>
      simp only [found, Option.map_eq_some_iff] at entry
      rcases entry with ⟨start, _, same⟩
      cases same
      exact fun member => noNul (List.mem_of_mem_drop member)

/-- A line changes the row of its id and no other. -/
theorem enter_name (drivers : GdosDrivers) (line : Bytes) {id : Nat} (positive : 0 < id)
    (small : id < 11) :
    (enter (lineEntry line) drivers)[id].name =
      match lineEntry line with
      | none => drivers[id].name
      | some (other, driver) =>
          if other.toInt = id then driver.take 13 else drivers[id].name := by
  cases entry : lineEntry line with
  | none => rfl
  | some found =>
      rcases found with ⟨other, driver⟩
      simp only [enter]
      by_cases same : other.toInt = id
      · have inTable : 0 < other.toInt ∧ other.toInt < 11 := by omega
        have place : other.toInt.toNat = id := by omega
        simp only [dif_pos inTable, if_pos same, place, Vector.getElem_set_self]
        exact GdosRow.copy_name _ (lineEntry_noNul entry)
      · rw [if_neg same]
        split_ifs with inTable
        · have apart : other.toInt.toNat ≠ id := by omega
          rw [Vector.getElem_set_ne _ _ apart]
        · rfl

/-- The row of an id holds the driver that was entered last. -/
theorem foldl_enter_name {id : Nat} (positive : 0 < id) (small : id < 11) :
    ∀ (ls : List Bytes) (drivers : GdosDrivers),
    (ls.foldl (fun drivers line => enter (lineEntry line) drivers) drivers)[id].name =
      ((enteredDrivers ls id).getLast?).getD drivers[id].name
  | [], drivers => rfl
  | line :: ls, drivers => by
      rw [List.foldl_cons, foldl_enter_name positive small ls, enter_name _ _ positive small]
      cases entry : lineEntry line with
      | none => simp [enteredDrivers, entry]
      | some found =>
          rcases found with ⟨other, driver⟩
          by_cases same : other.toInt = id
          · simp only [if_pos same, enteredDrivers, List.filterMap_cons, entry,
              List.filter_cons, decide_eq_true same, if_true, List.map_cons,
              List.getLast?_cons, Option.getD_some]
          · simp [same, enteredDrivers, entry]

/-- The driver that the table holds for an id. -/
def enteredDriver (contents : Bytes) (id : Nat) : Bytes :=
  (enteredDrivers (lines contents) id).getLast?.getD []

theorem readAssignSys_name {machine : Machine} {disk : Disk} {contents : Bytes}
    (loads : machine.gemdos.Loads) (file : disk assignPath = some contents) {id : Nat}
    (positive : 0 < id) (small : id < 11) :
    (readAssignSys machine disk noDrivers)[id].name = enteredDriver contents id := by
  have blank : noDrivers[id].name = [] := by simp [noDrivers]
  rw [readAssignSys, file, Gemdos.loadFile_of_loads loads]
  simp only
  by_cases empty : contents = []
  · subst empty
    simp [readAssignLoop, nextLine, nextLineLoop, assignBuf, cstring, strupr, bufEntry, strstr,
      enter, blank, enteredDriver, enteredDrivers]
  · have some_ : lines contents ≠ [] := fun none => empty (lines_eq_nil.mp none)
    have looped := readAssignLoop_eq machine.behind (lines_canonical contents) some_
      contents.length noDrivers (lines_length_le contents)
    rw [lines_flatten] at looped
    rw [looped, foldl_enter_name positive small, blank]
    rfl

/-- The smallest id whose row holds the driver file, or 0. -/
def enteredId (contents driver : Bytes) : Nat :=
  ((List.range' 1 10).find? fun id => enteredDriver contents id = driver).getD 0

/-! ### Plain lines -/

theorem enteredDrivers_plain {ls : List Bytes} (plain : ∀ line ∈ ls, PlainAssign line)
    (id : Nat) :
    enteredDrivers ls id =
      ((ls.filterMap assignment).filter fun entry => entry.1 = id).map (·.2) := by
  induction ls with
  | nil => rfl
  | cons line ls induction =>
      have here := lineEntry_plain (plain line (by simp))
      have rest := induction fun other member => plain other (List.mem_cons_of_mem line member)
      rw [enteredDrivers] at rest ⊢
      cases entry : lineEntry line with
      | none =>
          have none : assignment line = none := by simpa [entry] using here.symm
          simpa [entry, none] using rest
      | some found =>
          rw [entry] at here
          rcases Option.map_eq_some_iff.mp here.symm with ⟨said, assigned, same⟩
          rw [Prod.mk.injEq] at same
          simp only [List.filterMap_cons, entry, assigned, List.filter_cons, ← same.1,
            Int.natCast_inj]
          by_cases isId : said.1 = id
          · simpa [isId, same.2] using rest
          · simpa [isId] using rest

theorem enteredDriver_plain {contents : Bytes} (plain : ∀ line ∈ lines contents, PlainAssign line)
    (id : Nat) : enteredDriver contents id = (assignedDriver contents id).getD [] := by
  rw [enteredDriver, enteredDrivers_plain plain, List.getLast?_map]
  rfl

theorem enteredId_plain {contents driver : Bytes}
    (plain : ∀ line ∈ lines contents, PlainAssign line) (nonempty : driver ≠ []) :
    enteredId contents driver = assignedId contents driver := by
  rw [enteredId, assignedId]
  congr 1
  apply List.find?_congr
  intro id _
  rw [enteredDriver_plain plain]
  cases assignedDriver contents id with
  | none => simp [nonempty.symm]
  | some assigned => simp

/-! ## The look-up -/

theorem gdosLoop_eq (drivers : GdosDrivers) (behind name : Bytes) : ∀ (count i : Nat),
    gdosLoop drivers behind name count i =
      match (List.range' i count).find? fun row => gdosRowName drivers behind row = name with
      | some row => ⟨.ofNat row, List.range' i (row + 1 - i)⟩
      | none => ⟨0, List.range' i count⟩
  | 0, i => rfl
  | count + 1, i => by
      rw [gdosLoop, List.range'_succ, List.find?_cons]
      by_cases found : gdosRowName drivers behind i = name
      · simp [found]
      · rw [if_neg found, gdosLoop_eq drivers behind name count (i + 1)]
        simp only [found, decide_false]
        cases search : (List.range' (i + 1) count).find?
            fun row => gdosRowName drivers behind row = name with
        | none => rfl
        | some row =>
            have bounds := List.mem_range'_1.mp (List.mem_of_find?_eq_some search)
            have count_ : row + 1 - i = (row + 1 - (i + 1)) + 1 := by omega
            simp only [count_, List.range'_succ]

/-- The look-up in the table of a file: row 11 is read where no row holds the driver. -/
theorem getGdosDriver_eq {machine : Machine} {disk : Disk} {contents : Bytes}
    (loads : machine.gemdos.Loads) (file : disk assignPath = some contents)
    (behindTable driver : Bytes) :
    let lookup := getGdosDriver (readAssignSys machine disk noDrivers) behindTable driver
    (enteredId contents driver ≠ 0 ∧ lookup.id.toInt = enteredId contents driver ∧
        ∀ row ∈ lookup.read, row < 11) ∨
      (enteredId contents driver = 0 ∧ 11 ∈ lookup.read) := by
  intro lookup
  have rows : ∀ id ∈ List.range' 1 10,
      gdosRowName (readAssignSys machine disk noDrivers) behindTable id =
        enteredDriver contents id := by
    intro id member
    have bounds := List.mem_range'_1.mp member
    have small : id < 11 := by omega
    rw [gdosRowName, Vector.getElem?_eq_getElem small]
    exact readAssignSys_name loads file (by omega) small
  have search : (List.range' 1 10).find? (fun row =>
      gdosRowName (readAssignSys machine disk noDrivers) behindTable row = driver) =
      (List.range' 1 10).find? fun id => enteredDriver contents id = driver := by
    apply List.find?_congr
    intro id member
    rw [rows id member]
  have whole : List.range' 1 11 = List.range' 1 10 ++ [11] := rfl
  cases found : (List.range' 1 10).find? fun id => enteredDriver contents id = driver with
  | some id =>
      have bounds := List.mem_range'_1.mp (List.mem_of_find?_eq_some found)
      have entered : enteredId contents driver = id := by simp [enteredId, found]
      have looked : lookup = ⟨.ofNat id, List.range' 1 (id + 1 - 1)⟩ := by
        change gdosLoop _ _ _ 11 1 = _
        rw [gdosLoop_eq, whole, List.find?_append, search, found]
        rfl
      left
      refine ⟨by omega, ?_, ?_⟩
      · rw [looked, entered]
        simp only
        rw [Int16.toInt_ofNat_of_lt (by omega)]
      · intro row member
        rw [looked] at member
        have inside := List.mem_range'_1.mp member
        omega
  | none =>
      right
      refine ⟨by simp [enteredId, found], ?_⟩
      change 11 ∈ (gdosLoop _ _ _ 11 1).read
      rw [gdosLoop_eq, whole, List.find?_append, search, found, Option.none_or,
        List.find?_singleton]
      split_ifs
      · decide
      · decide

/-- A look-up meets what the lines say where the table holds the driver in the row
that the lines assign to it. -/
theorem lookupMeets_iff (contents driver : Bytes) :
    LookupMeets contents driver ↔
      enteredId contents driver ≠ 0 ∧ enteredId contents driver = assignedId contents driver := by
  constructor
  · intro meets
    let machine := Machine.obliging 0 [] 0
    let disk : Disk := fun _ => some contents
    have loads : machine.gemdos.Loads := Gemdos.obliging_succeeds.loads
    have file : disk assignPath = some contents := rfl
    have met := meets machine disk [] loads file
    rcases getGdosDriver_eq loads file [] driver with found | missing
    · exact ⟨found.1, by exact_mod_cast found.2.1.symm.trans met.1⟩
    · exact absurd (met.2 11 missing.2) (by decide)
  · intro agrees machine disk behindTable loads file
    rcases getGdosDriver_eq loads file behindTable driver with found | missing
    · exact ⟨by rw [found.2.1, agrees.2], found.2.2⟩
    · exact absurd missing.1 agrees.1

/-- Of plain lines the table holds what they say. -/
theorem lookupMeets_plain {contents driver : Bytes}
    (plain : ∀ line ∈ lines contents, PlainAssign line) (named : IsDriverName driver) :
    LookupMeets contents driver ↔ assignedId contents driver ≠ 0 := by
  have nonempty : driver ≠ [] := by
    rcases named with ⟨stem, rfl, _⟩
    simp [sysExtension_ne_nil]
  rw [lookupMeets_iff, enteredId_plain plain nonempty]
  exact and_iff_left rfl

/-! ## There is always another driver file -/

/-- `A.SYS`, `B.SYS` and so on. -/
def driverNamed (letter : Fin 11) : Bytes := [(0x41 + letter.val).toUInt8] ++ sysExtension

theorem driverNamed_isDriverName (letter : Fin 11) : IsDriverName (driverNamed letter) := by
  refine ⟨[(0x41 + letter.val).toUInt8], rfl, by simp, by simp, ?_⟩
  intro c member
  rw [List.mem_singleton.mp member]
  clear member
  revert letter
  decide

theorem driverNamed_injective : Function.Injective driverNamed := by
  intro left right same
  revert left right
  decide +kernel

/-- Eleven driver files do not fit the ten rows. -/
theorem exists_absent (contents : Bytes) :
    ∃ letter, enteredId contents (driverNamed letter) = 0 := by
  by_contra allPresent
  have held : ∀ letter, enteredId contents (driverNamed letter) ∈ Finset.Icc 1 10 ∧
      enteredDriver contents (enteredId contents (driverNamed letter)) = driverNamed letter := by
    intro letter
    have present : enteredId contents (driverNamed letter) ≠ 0 := fun absent =>
      allPresent ⟨letter, absent⟩
    unfold enteredId at present ⊢
    cases found : (List.range' 1 10).find?
        fun id => enteredDriver contents id = driverNamed letter with
    | none => simp [found] at present
    | some id =>
        have bounds := List.mem_range'_1.mp (List.mem_of_find?_eq_some found)
        have value := List.find?_some found
        exact ⟨Finset.mem_Icc.mpr (by simp only [Option.getD_some]; omega), by simpa using value⟩
  rcases Finset.exists_ne_map_eq_of_card_lt_of_maps_to (by simp : (Finset.Icc 1 10).card <
    (Finset.univ : Finset (Fin 11)).card) (fun letter _ => (held letter).1) with
    ⟨left, _, right, _, different, same⟩
  apply different
  apply driverNamed_injective
  rw [← (held left).2, ← (held right).2, same]

theorem not_assignMeets (contents : Bytes) : ¬AssignMeets contents := by
  intro meets
  rcases exists_absent contents with ⟨letter, absent⟩
  have met := (lookupMeets_iff contents _).mp (meets _ (driverNamed_isDriverName letter))
  exact met.1 absent

/-- For no content does the table serve every driver file: the look-up of a driver that
is in no row reads row 11. One driver is served where the first row that holds it is the
row that the lines assign to it. Plain lines serve the drivers that they name. -/
theorem assign_meets_iff (contents : Bytes) :
    ¬AssignMeets contents ∧
      (∀ driver, LookupMeets contents driver ↔
        enteredId contents driver ≠ 0 ∧
          enteredId contents driver = assignedId contents driver) ∧
      ((∀ line ∈ lines contents, PlainAssign line) → ∀ driver, IsDriverName driver →
        (LookupMeets contents driver ↔ assignedId contents driver ≠ 0)) :=
  ⟨not_assignMeets contents, lookupMeets_iff contents,
    fun plain _ named => lookupMeets_plain plain named⟩

def plainAssign : Bytes := ascii "; drivers\r\n01p screen.sys\r\n03p c:\\gemsys\\xvga2.sys\r\n"

theorem plainAssign_plain : ∀ line ∈ lines plainAssign, PlainAssign line := by
  have split : lines plainAssign = [ascii "; drivers\r\n", ascii "01p screen.sys\r\n",
      ascii "03p c:\\gemsys\\xvga2.sys\r\n"] := by decide +kernel
  rw [split]
  intro line member
  simp only [List.mem_cons, List.not_mem_nil, or_false] at member
  rcases member with rfl | rfl | rfl
  · exact ⟨by decide +kernel, by decide +kernel, .inl (by decide +kernel)⟩
  · refine ⟨by decide +kernel, by decide +kernel, .inr ⟨1, ascii "SCREEN.SYS", ?_⟩⟩
    exact {
      number := by decide +kernel
      small := by decide
      named := ⟨ascii "SCREEN", by decide +kernel, by decide, by decide, by decide +kernel⟩
      split := ⟨ascii "01P", 0x20, [], by decide +kernel, rfl, by decide +kernel,
        by decide +kernel, by decide +kernel, .inl rfl⟩ }
  · refine ⟨by decide +kernel, by decide +kernel, .inr ⟨3, ascii "XVGA2.SYS", ?_⟩⟩
    exact {
      number := by decide +kernel
      small := by decide
      named := ⟨ascii "XVGA2", by decide +kernel, by decide, by decide, by decide +kernel⟩
      split := ⟨ascii "03P", 0x20, ascii "C:\\GEMSYS\\", by decide +kernel, rfl,
        by decide +kernel, by decide +kernel, by decide +kernel,
        .inr ⟨ascii "C:\\GEMSYS", 0x5c, by decide +kernel, .inl rfl⟩⟩ }

theorem assign_meets_iff_sample :
    LookupMeets plainAssign (ascii "XVGA2.SYS") ∧ ¬LookupMeets plainAssign (ascii "XVGA4.SYS") := by
  have served := (assign_meets_iff plainAssign).2.2 plainAssign_plain
  constructor
  · exact (served _ ⟨ascii "XVGA2", by decide +kernel, by decide, by decide,
      by decide +kernel⟩).mpr (by decide +kernel)
  · exact fun meets => (served _ ⟨ascii "XVGA4", by decide +kernel, by decide, by decide,
      by decide +kernel⟩).mp meets (by decide +kernel)

/-- A blank in front of a comment becomes part of the name in the table. -/
def commentedAssign : Bytes := ascii "03p XVGA2.SYS ; 2 colours\r\n"

/-- The line assigns id 3, which the look-up does not find. -/
theorem assign_trailing_blank :
    IsDriverName (ascii "XVGA2.SYS") ∧ assignedId commentedAssign (ascii "XVGA2.SYS") = 3 ∧
      enteredDriver commentedAssign 3 = ascii "XVGA2.SYS " ∧
      ¬LookupMeets commentedAssign (ascii "XVGA2.SYS") ∧ ¬AssignMeets commentedAssign := by
  have named : IsDriverName (ascii "XVGA2.SYS") :=
    ⟨ascii "XVGA2", by decide +kernel, by decide, by decide, by decide +kernel⟩
  have missed : ¬LookupMeets commentedAssign (ascii "XVGA2.SYS") := by
    rw [lookupMeets_iff]
    decide +kernel
  exact ⟨named, by decide +kernel, by decide +kernel, missed, fun meets => missed (meets _ named)⟩

end Chgres
