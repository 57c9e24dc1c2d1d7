import Chgres.Modes.NvdivgaRecords

/-! # The walk over any file

The loop of `initres_nvdivga` goes from record to record by the distances in the file. It
looks neither at the number of records nor at the size of the file, so all depends on
what the file holds.
-/

namespace Chgres

open Text Words

/-- The records that the outer loop comes to, as offsets into the loaded file. -/
def vgaVisited (inf : UInt32) (rez : Vector Int16 6) : (fuel : Nat) → VgaWalk →
    Outcome (List Nat)
  | fuel, walk =>
      if walk.mode ≠ noMode then
        match fuel with
        | 0 => .wild
        | fuel + 1 => (vgaStep inf rez walk).bind fun next =>
            (vgaVisited inf rez fuel next).bind fun rest =>
              .done ((walk.mode - inf).toNat :: rest)
      else .done []

/-- They are the records of the walk that makes the modes. -/
theorem vgaVisited_isDone (inf : UInt32) (rez : Vector Int16 6) : ∀ (fuel : Nat)
    (walk : VgaWalk), (vgaVisited inf rez fuel walk).isDone = (vgaWalk inf rez fuel walk).isDone
  | 0, walk => by
      rw [vgaVisited, vgaWalk]
      split_ifs <;> rfl
  | fuel + 1, walk => by
      rw [vgaVisited, vgaWalk]
      split_ifs
      · cases vgaStep inf rez walk with
        | wild => rfl
        | done next =>
            have induction := vgaVisited_isDone inf rez fuel next
            simp only [Outcome.done_bind, ← induction]
            cases vgaVisited inf rez fuel next <;> rfl
      · rfl

/-- The loaded file with what the heap holds behind it. The count of records is read from
there where the file ends before it. -/
def vgaVisits (behind contents : Bytes) (inf : UInt32) (fuel : Nat) (rez : Vector Int16 6)
    (lists : ModeLists) : Outcome (List Nat) :=
  if 0 < vgainfNummodes (contents ++ behind) then
    vgaVisited inf rez fuel {
      memory := contents
      mode := inf + .ofNat vgainfSize
      made := ⟨.replicate 6 0, lists⟩ }
  else .done []

variable {behind contents memory : Bytes} {inf : UInt32} {rez : Vector Int16 6}

theorem addNvdivgaModes_isDone (header : 36 ≤ contents.length) (fuel : Nat)
    (lists : ModeLists) :
    (addNvdivgaModes contents inf fuel rez lists).isDone =
      (vgaVisits behind contents inf fuel rez lists).isDone := by
  have count : vgainfNummodes (contents ++ behind) = vgainfNummodes contents := by
    rw [vgainfNummodes, short, load, vgainfNummodes, short, load]
    congr 2
    apply slice_congr
    intro index _ below
    exact List.getElem?_append_left (by omega)
  rw [addNvdivgaModes, if_neg (by omega), vgaVisits, count]
  by_cases more : 0 < vgainfNummodes contents
  · simp only [if_pos more, vgaVisited_isDone]
    cases vgaWalk inf rez fuel _ <;> rfl
  · rw [if_neg more, if_neg more]
    rfl

/-! ## Chains -/

/-- The distances lead from each record to the next one and from the last one to none. A
record is found as the relocation of the ones before it has left it. -/
def Chained (inf : UInt32) : (memory : Bytes) → List Nat → Prop
  | _, [] => True
  | memory, [mode] =>
      vgaNext memory mode = noMode ∨ inf + .ofNat mode + vgaNext memory mode = noMode
  | memory, mode :: next :: rest =>
      (vgaNext memory mode ≠ noMode ∧ .ofNat mode + vgaNext memory mode = .ofNat next) ∧
        Chained inf (relocateMode memory (inf + .ofNat mode) mode) (next :: rest)

/-- From the end of its header on the file holds a chain of records, all of them different
and inside the file. -/
structure HoldsChain (inf : UInt32) (contents : Bytes) (records : List Nat) : Prop where
  first : records.head? = some vgainfSize
  chained : Chained inf contents records
  inside : ∀ mode ∈ records, mode + vgaModeSize ≤ contents.length
  nodup : records.Nodup

/-- The walk over the records comes to an end. It comes to no more of them than the file
says, to none twice, and to none outside the file. -/
def WalkMeets (behind contents : Bytes) (inf : UInt32) (rez : Vector Int16 6)
    (lists : ModeLists) : Prop :=
  ∃ fuel visited, vgaVisits behind contents inf fuel rez lists = .done visited ∧
    visited.length ≤ (vgainfNummodes (contents ++ behind)).toInt.toNat ∧
    visited.Nodup ∧ ∀ mode ∈ visited, mode + vgaModeSize ≤ contents.length

/-! ## One step -/

theorem vgaStep_done {walk next : VgaWalk} (step : vgaStep inf rez walk = .done next) :
    (walk.mode - inf).toNat + vgaModeSize ≤ walk.memory.length ∧
      next.memory = relocateMode walk.memory walk.mode (walk.mode - inf).toNat ∧
      next.memory.length = walk.memory.length ∧
      next.mode =
        if vgaNext walk.memory (walk.mode - inf).toNat ≠ noMode then
          walk.mode + vgaNext walk.memory (walk.mode - inf).toNat
        else noMode := by
  rw [vgaStep] at step
  by_cases inside : (walk.mode - inf).toNat + vgaModeSize ≤ walk.memory.length
  · simp only [if_pos inside, Outcome.done.injEq] at step
    have relocated := @relocateMode_relocated walk.mode _ _ inside
    subst step
    exact ⟨inside, rfl, relocated.length, relocated.next⟩
  · simp only [if_neg inside, reduceCtorEq] at step

/-! ## The walk and the chain -/

theorem inf_add_offset (inf mode : UInt32) : inf + .ofNat (mode - inf).toNat = mode := by
  rw [UInt32.ofNat_toNat]
  exact add_sub_cancel inf mode

theorem vgaVisited_ended {walk : VgaWalk} (ended : walk.mode = noMode) (fuel : Nat) :
    vgaVisited inf rez fuel walk = .done [] := by
  cases fuel <;> rw [vgaVisited, if_neg (not_not.mpr ended)]

/-- One turn of the walk, and then the walk from the next record on. -/
theorem vgaVisited_succ {fuel : Nat} {walk : VgaWalk} {visited : List Nat}
    (more : walk.mode ≠ noMode) (result : vgaVisited inf rez (fuel + 1) walk = .done visited) :
    ∃ next rest, vgaStep inf rez walk = .done next ∧
      vgaVisited inf rez fuel next = .done rest ∧
      visited = (walk.mode - inf).toNat :: rest := by
  rw [vgaVisited, if_pos more] at result
  cases step : vgaStep inf rez walk with
  | wild => simp [step] at result
  | done next =>
      cases tail : vgaVisited inf rez fuel next with
      | wild => simp [step, tail] at result
      | done rest =>
          simp only [step, tail, Outcome.done_bind, Outcome.done.injEq] at result
          exact ⟨next, rest, rfl, tail, result.symm⟩

/-- What the walk has come to is a chain. -/
theorem vgaVisited_chained : ∀ {fuel : Nat} {walk : VgaWalk} {visited : List Nat},
    vgaVisited inf rez fuel walk = .done visited →
    walk.mode = walkAddress inf visited ∧ Chained inf walk.memory visited ∧
      ∀ mode ∈ visited, mode + vgaModeSize ≤ walk.memory.length
  | 0, walk, visited, result => by
      rw [vgaVisited] at result
      split_ifs at result with ended
      cases result
      exact ⟨not_not.mp ended, trivial, by simp⟩
  | fuel + 1, walk, visited, result => by
      by_cases ended : walk.mode = noMode
      · rw [vgaVisited_ended ended] at result
        cases result
        exact ⟨ended, trivial, by simp⟩
      rcases vgaVisited_succ ended result with ⟨next, rest, step, tail, rfl⟩
      rcases vgaStep_done step with ⟨inside, memory, length, address⟩
      rcases vgaVisited_chained tail with ⟨nextMode, chained, insideRest⟩
      have here := inf_add_offset inf walk.mode
      refine ⟨here.symm, ?_, ?_⟩
      · cases rest with
        | nil =>
            rw [nextMode] at address
            rw [Chained, here]
            by_cases last : vgaNext walk.memory (walk.mode - inf).toNat = noMode
            · exact .inl last
            · rw [if_pos last] at address
              exact .inr address.symm
        | cons other more =>
            have goesOn : next.mode ≠ noMode := fun nextEnded => by
              rw [vgaVisited_ended nextEnded] at tail
              cases tail
            by_cases last : vgaNext walk.memory (walk.mode - inf).toNat = noMode
            · rw [if_neg (not_not.mpr last)] at address
              exact absurd address goesOn
            · rw [if_pos last, nextMode, walkAddress] at address
              have leads : inf + (.ofNat (walk.mode - inf).toNat +
                  vgaNext walk.memory (walk.mode - inf).toNat) = inf + .ofNat other := by
                rw [← add_assoc, here, address]
              rw [memory] at chained
              rw [Chained, here]
              exact ⟨⟨last, add_left_cancel leads⟩, chained⟩
      · intro mode member
        rcases List.mem_cons.mp member with rfl | member
        · exact inside
        · rw [← length]
          exact insideRest mode member

/-- A chain inside the file is walked from its first record to its last. -/
theorem Chained.visited (fits : inf.toNat + contents.length ≤ 2 ^ 32) :
    ∀ {records : List Nat} {memory : Bytes}, Chained inf memory records →
    memory.length = contents.length →
    (∀ mode ∈ records, mode + vgaModeSize ≤ contents.length) →
    ∀ (fuel : Nat) (made : VgaModes), records.length ≤ fuel →
    vgaVisited inf rez fuel ⟨memory, walkAddress inf records, made⟩ = .done records
  | [], _, _, _, _, fuel, _, _ => vgaVisited_ended rfl fuel
  | mode :: rest, memory, chained, length, inside, fuel + 1, made, enough => by
      have within := inside mode (by simp)
      rcases record_address fits within with ⟨offset, isMode⟩
      have room : mode + vgaModeSize ≤ memory.length := by rwa [length]
      have relocated := @relocateMode_relocated (inf + UInt32.ofNat mode) mode memory room
      have next : vgaNext (relocateMode memory (inf + UInt32.ofNat mode) mode) mode =
          walkAddress inf rest := by
        rw [relocated.next]
        cases rest with
        | nil =>
            rcases chained with last | leaves
            · simp [last, walkAddress]
            · split_ifs
              · exact leaves
              · rfl
        | cons other more => rw [if_pos chained.1.1, add_assoc, chained.1.2, walkAddress]
      have tail : Chained inf (relocateMode memory (inf + UInt32.ofNat mode) mode) rest := by
        cases rest with
        | nil => trivial
        | cons other more => exact chained.2
      have induction := tail.visited fits (relocated.length.trans length)
        (fun other member => inside other (List.mem_cons_of_mem _ member)) fuel
        (createNvdivgaModes (relocateMode memory (inf + .ofNat mode) mode) mode rez made)
        (by simpa using enough)
      rw [vgaVisited, walkAddress, if_pos isMode]
      simp only [vgaStep, offset, if_pos room, Outcome.done_bind, next, induction]

/-- Where no two records share a byte the distances are those of the file itself. -/
theorem Linked.chained (inf : UInt32) : ∀ {records : List Nat} {memory : Bytes},
    Linked contents records → Untouched contents memory records →
    (∀ mode ∈ records, vgainfSize ≤ mode ∧ mode + vgaModeSize ≤ contents.length) →
    records.Pairwise Apart → Chained inf memory records
  | [], _, _, _, _, _ => trivial
  | [mode], memory, linked, untouched, _, _ => by
      refine .inl ?_
      rw [vgaNext, untouched.records mode (by simp) mode 4 (le_refl _)
        (by unfold vgaModeSize; omega)]
      exact linked
  | mode :: next :: rest, memory, linked, untouched, inside, apart => by
      have here : vgaNext memory mode = vgaNext contents mode := by
        rw [vgaNext, vgaNext, untouched.records mode (by simp) mode 4 (le_refl _)
          (by unfold vgaModeSize; omega)]
      rcases inside mode (by simp) with ⟨behindHeader, within⟩
      rcases List.pairwise_cons.mp apart with ⟨apartHere, apartRest⟩
      have relocated := @relocateMode_relocated (inf + UInt32.ofNat mode) mode memory
        (by rw [untouched.length]; exact within)
      refine ⟨by rw [here]; exact linked.1, ?_⟩
      exact linked.tail.chained inf (untouched.relocate relocated behindHeader apartHere)
        (fun other member => inside other (List.mem_cons_of_mem _ member)) apartRest

theorem WellFormedVga.holdsChain {records : List Nat} (inf : UInt32)
    (wellFormed : WellFormedVga contents records) (nonempty : records ≠ []) :
    HoldsChain inf contents records where
  first := by
    cases records with
    | nil => exact absurd rfl nonempty
    | cons mode rest => simp [wellFormed.first mode (by simp)]
  chained := wellFormed.linked.chained inf (untouched_self contents records)
    wellFormed.inside wellFormed.apart
  inside := fun mode member => (wellFormed.inside mode member).2
  nodup := wellFormed.nodup

/-! ## The condition -/

/-- `malloc` gives a block of the address space that starts at an even address. -/
structure Allocated (address : UInt32) (size : Nat) : Prop where
  fits : address.toNat + size ≤ 2 ^ 32
  even : address.toNat % 2 = 0

theorem Allocated.start_ne_noMode {size : Nat} (allocated : Allocated inf size) :
    inf + .ofNat vgainfSize ≠ noMode := by
  intro same
  have value := congrArg UInt32.toNat same
  have header : (UInt32.ofNat vgainfSize).toNat = 68 := by decide
  have last : noMode.toNat = 2 ^ 32 - 1 := by decide
  have even := allocated.even
  rw [UInt32.toNat_add, header, last] at value
  omega

theorem vgaVisited_length : ∀ {fuel : Nat} {walk : VgaWalk} {visited : List Nat},
    vgaVisited inf rez fuel walk = .done visited → visited.length ≤ fuel
  | 0, walk, visited, result => by
      rw [vgaVisited] at result
      split_ifs at result
      cases result
      exact le_refl 0
  | fuel + 1, walk, visited, result => by
      by_cases ended : walk.mode = noMode
      · rw [vgaVisited_ended ended] at result
        cases result
        exact Nat.zero_le _
      · rcases vgaVisited_succ ended result with ⟨next, rest, _, tail, rfl⟩
        exact Nat.succ_le_succ (vgaVisited_length tail)

/-- What the walk comes to are the records of a chain from the end of the header on. -/
theorem vgaVisits_done (allocated : Allocated inf contents.length)
    (counted : 0 < vgainfNummodes (contents ++ behind)) {fuel : Nat} {lists : ModeLists}
    {visited : List Nat} :
    vgaVisits behind contents inf fuel rez lists = .done visited ↔
      visited.head? = some vgainfSize ∧ Chained inf contents visited ∧
        (∀ mode ∈ visited, mode + vgaModeSize ≤ contents.length) ∧ visited.length ≤ fuel := by
  rw [vgaVisits, if_pos counted]
  constructor
  · intro result
    rcases vgaVisited_chained result with ⟨start, chained, inside⟩
    refine ⟨?_, chained, inside, vgaVisited_length result⟩
    cases visited with
    | nil => exact absurd start allocated.start_ne_noMode
    | cons mode rest =>
        have within : mode + vgaModeSize ≤ contents.length := inside mode (by simp)
        have fits := allocated.fits
        have small : mode < 2 ^ 32 := by
          rw [vgaModeSize] at within
          omega
        have same := congrArg UInt32.toNat (add_left_cancel start)
        have header : (UInt32.ofNat vgainfSize).toNat = vgainfSize := by decide
        rw [header, UInt32.toNat_ofNat_of_lt' small] at same
        simp [same]
  · rintro ⟨first, chained, inside, enough⟩
    have start : inf + .ofNat vgainfSize = walkAddress inf visited := by
      cases visited with
      | nil => exact absurd first (by simp)
      | cons mode rest =>
          have here : mode = vgainfSize := by simpa using first
          rw [walkAddress, here]
    rw [start]
    exact chained.visited allocated.fits rfl inside _ _ enough

/-- The walk comes to an end as it should where it does not start, and where the file holds
a chain of no more records than it says. -/
theorem walkMeets_iff (allocated : Allocated inf contents.length) (behind : Bytes)
    (rez : Vector Int16 6) (lists : ModeLists) :
    WalkMeets behind contents inf rez lists ↔
      ¬0 < vgainfNummodes (contents ++ behind) ∨
        ∃ records, HoldsChain inf contents records ∧
          records.length ≤ (vgainfNummodes (contents ++ behind)).toInt.toNat := by
  by_cases counted : 0 < vgainfNummodes (contents ++ behind)
  case neg =>
    simp only [counted, not_false_eq_true, true_or, iff_true]
    exact ⟨0, [], by rw [vgaVisits, if_neg counted], by simp, List.nodup_nil, by simp⟩
  simp only [counted, not_true_eq_false, false_or]
  constructor
  · intro meets
    rcases meets with ⟨fuel, visited, result, few, nodup, inside⟩
    rcases (vgaVisits_done allocated counted).mp result with ⟨first, chained, _, _⟩
    exact ⟨visited, ⟨first, chained, inside, nodup⟩, few⟩
  · intro holds
    rcases holds with ⟨records, chain, few⟩
    exact ⟨records.length, records, (vgaVisits_done allocated counted).mpr
      ⟨chain.first, chain.chained, chain.inside, le_refl _⟩, few, chain.nodup, chain.inside⟩

/-- Three records of two depths that have drivers. -/
theorem walkMeets_sample :
    Allocated twoDrivers.inf threeRecords.length ∧
      WalkMeets [] threeRecords twoDrivers.inf twoDrivers.rez noModes := by
  have allocated : Allocated twoDrivers.inf threeRecords.length := by
    rw [threeRecords_length]
    exact ⟨by decide, by decide⟩
  have counted : [68, 168, 268].length ≤
      (vgainfNummodes (threeRecords ++ [])).toInt.toNat := by
    decide +kernel
  exact ⟨allocated,
    (walkMeets_iff allocated [] _ _).mpr (.inr ⟨[68, 168, 268],
      threeRecords_wellFormed.holdsChain _ (by simp), counted⟩)⟩

/-- The file is cut off behind its header, and the first record is not in it. -/
theorem walk_leaves_file :
    ¬WalkMeets [] ((oneRecord 1).take 68) 0x10000 #v[1, 0, 0, 0, 0, 0] noModes := by
  intro meets
  rcases meets with ⟨fuel, visited, result, _⟩
  have counted : 0 < vgainfNummodes ((oneRecord 1).take 68 ++ []) := by decide +kernel
  have size : ((oneRecord 1).take 68).length = 68 := by decide +kernel
  rw [vgaVisits, if_pos counted] at result
  rcases vgaVisited_chained result with ⟨start, _, inside⟩
  cases visited with
  | nil => exact absurd start (by decide)
  | cons mode rest =>
      have within : mode + vgaModeSize ≤ ((oneRecord 1).take 68).length :=
        inside mode (by simp)
      rw [size, vgaModeSize] at within
      omega

/-! ## Which files are read -/

/-- The file has its header, and it says that it has no records, or holds a chain of them
that is walked in no more than so many turns. -/
def Walkable (inf : UInt32) (contents : Bytes) (turns : Nat) : Prop :=
  36 ≤ contents.length ∧
    (¬0 < vgainfNummodes contents ∨
      ∃ records, records.head? = some vgainfSize ∧ Chained inf contents records ∧
        (∀ mode ∈ records, mode + vgaModeSize ≤ contents.length) ∧ records.length ≤ turns)

/-- The modes of a file are made exactly if it can be walked. -/
theorem addNvdivgaModes_isDone_iff (allocated : Allocated inf contents.length) {fuel : Nat}
    {lists : ModeLists} :
    (addNvdivgaModes contents inf fuel rez lists).isDone = true ↔
      Walkable inf contents fuel := by
  by_cases header : 36 ≤ contents.length
  · have visits := @vgaVisits_done [] contents inf rez allocated
    rw [@addNvdivgaModes_isDone [] contents inf rez header fuel lists, Walkable]
    rw [List.append_nil] at visits
    simp only [header, true_and]
    by_cases counted : 0 < vgainfNummodes contents
    · simp only [counted, not_true_eq_false, false_or]
      rw [Outcome.isDone_iff]
      exact exists_congr fun visited => visits counted
    · simp only [counted, not_false_eq_true, true_or, iff_true]
      rw [vgaVisits, List.append_nil, if_neg counted]
      rfl
  · rw [addNvdivgaModes, if_pos (by omega), Walkable]
    simp only [header, false_and, iff_false]
    exact Bool.false_ne_true

end Chgres
