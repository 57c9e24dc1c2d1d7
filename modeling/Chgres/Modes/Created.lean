import Chgres.Modes.Nvdivga

/-! # What the `initres_*` functions make

A property of all modes of the lists, carried through the functions that fill them. No
mode is selected when it is made, and each has `FLAG_INFO`.
-/

namespace Chgres

open Text

/-- All modes of the lists are alike in one respect. -/
def Every (Holds : Res → Prop) (lists : ModeLists) : Prop :=
  ∀ idx : Fin maxDepths, ∀ r ∈ lists[idx], Holds r

section Every

variable {Holds : Res → Prop} {lists : ModeLists}

theorem Every.weaken {Weaker : Res → Prop} (every : Every Holds lists)
    (weaker : ∀ r, Holds r → Weaker r) : Every Weaker lists :=
  fun idx r member => weaker r (every idx r member)

theorem noModes_every : Every Holds noModes := by
  intro idx r member
  simp [noModes] at member

theorem addMode_every {idx : Fin maxDepths} {r : Res} (holds : Holds r)
    (every : Every Holds lists) : Every Holds (addMode idx r lists) := by
  intro other mode member
  by_cases same : other = idx
  · subst same
    rw [addMode_same] at member
    rcases List.mem_cons.mp member with rfl | member
    · exact holds
    · exact every other mode member
  · rw [addMode_other same] at member
    exact every other mode member

theorem removeModes_every {idx : Fin maxDepths} (every : Every Holds lists) :
    Every Holds (removeModes idx lists) := by
  intro other mode member
  by_cases same : other = idx
  · subst same
    rw [removeModes_same] at member
    exact absurd member (by simp)
  · rw [removeModes_other same] at member
    exact every other mode member

theorem foldl_every {Slot : Type} {body : ModeLists → Slot → ModeLists}
    (keeps : ∀ lists slot, Every Holds lists → Every Holds (body lists slot))
    (slots : List Slot) (every : Every Holds lists) :
    Every Holds (slots.foldl body lists) := by
  induction slots generalizing lists with
  | nil => exact every
  | cons slot slots induction => exact induction (keeps lists slot every)

end Every

/-! ## The modes of the hardware -/

/-- A mode as `create_mode` makes it for a shifter. -/
structure Res.OfShifter (r : Res) : Prop where
  selected : r.selected = false
  flags : r.flags = flagInfo
  rez : 0 < r.rez

variable {lists : ModeLists}

theorem createMode_every {idx : Fin maxDepths} {width height planes rez vmode : Int16}
    (positive : 0 < rez) (every : Every Res.OfShifter lists) :
    Every Res.OfShifter (createMode idx width height planes rez vmode lists) :=
  addMode_every ⟨rfl, rfl, positive⟩ every

theorem initresSt_every (video : Video) (every : Every Res.OfShifter lists) :
    Every Res.OfShifter (initresSt video lists).lists := by
  rw [initresSt]
  iterate 3 apply createMode_every (by decide)
  exact every

theorem initresTt_every (video : Video) (every : Every Res.OfShifter lists) :
    Every Res.OfShifter (initresTt video lists).lists := by
  rw [initresTt]
  simp only
  split_ifs
  · exact createMode_every (by decide) every
  · iterate 5 apply createMode_every (by decide)
    exact every

theorem initresFalc_every (video : Video) (every : Every Res.OfShifter lists) :
    Every Res.OfShifter (initresFalc video lists).lists := by
  unfold initresFalc falcMono falcVga falcTv
  simp only
  split_ifs
  · exact createMode_every (by decide) every
  · iterate 19 apply createMode_every (by decide)
    exact every
  · iterate 36 apply createMode_every (by decide)
    exact every

theorem sagaModes_every (i : Fin maxDepths) (depth : SagaBpp)
    (every : Every Res.OfShifter lists) : Every Res.OfShifter (sagaModes i depth lists) := by
  rw [sagaModes]
  split_ifs
  · apply foldl_every _ _ every
    intro lists saga every
    rw [sagaMode]
    split
    · exact createMode_every (by decide) every
    · exact every
  · exact every

theorem initresSaga_every (sysVdi : Int16) (video : Video)
    (every : Every Res.OfShifter lists) :
    Every Res.OfShifter (initresSaga sysVdi video lists).lists := by
  rw [initresSaga]
  apply foldl_every fun lists i every => sagaModes_every i _ every
  split_ifs
  · exact every
  · iterate 4 apply createMode_every (by decide)
    exact every

theorem initresHardware_every (sysVdi : Int16) (video : Video)
    (every : Every Res.OfShifter lists) :
    Every Res.OfShifter (initresHardware sysVdi video lists).lists := by
  rw [initresHardware]
  split_ifs
  · exact initresSt_every video every
  · exact initresTt_every video every
  · exact initresFalc_every video every
  · exact initresSaga_every sysVdi video every
  · exact every

/-! ## The modes of the graphics card -/

/-- A mode as it is made: not selected, and with `FLAG_INFO`. -/
structure Res.Created (r : Res) : Prop where
  selected : r.selected = false
  info : r.HasInfo

theorem Res.OfShifter.created {r : Res} (ofShifter : r.OfShifter) : r.Created where
  selected := ofShifter.selected
  info := by
    rw [Res.HasInfo, ofShifter.flags]
    decide

theorem nvdivgaMode_created (inf : Bytes) (mode : Nat) (modeidx rez : Int16) (i : Fin 6) :
    (nvdivgaMode inf mode modeidx rez i).Created where
  selected := rfl
  info := by
    unfold nvdivgaMode Res.HasInfo
    simp only
    split
    · decide
    · decide

theorem createNvdivgaModes_every {made : VgaModes} (inf : Bytes) (mode : Nat)
    (rez : Vector Int16 6) (every : Every Res.Created made.lists) :
    Every Res.Created (createNvdivgaModes inf mode rez made).lists := by
  rw [createNvdivgaModes]
  induction List.finRange 6 generalizing made with
  | nil => exact every
  | cons i slots induction =>
      apply induction
      rw [createNvdivgaMode]
      split_ifs
      · exact addMode_every (nvdivgaMode_created _ _ _ _ _) every
      · exact every

theorem vgaStep_every {inf : UInt32} {rez : Vector Int16 6} {walk after : VgaWalk}
    (every : Every Res.Created walk.made.lists) (ends : vgaStep inf rez walk = .done after) :
    Every Res.Created after.made.lists := by
  simp only [vgaStep] at ends
  split at ends
  · cases ends
    exact createNvdivgaModes_every _ _ _ every
  · exact absurd ends (by simp)

theorem vgaWalk_every {inf : UInt32} {rez : Vector Int16 6} {after : VgaModes} {fuel : Nat}
    {walk : VgaWalk} (every : Every Res.Created walk.made.lists)
    (ends : vgaWalk inf rez fuel walk = .done after) : Every Res.Created after.lists := by
  induction fuel generalizing walk with
  | zero =>
      rw [vgaWalk] at ends
      split at ends
      · exact absurd ends (by simp)
      · cases ends
        exact every
  | succ fuel induction =>
      rw [vgaWalk] at ends
      split at ends
      · cases step : vgaStep inf rez walk with
        | wild =>
            rw [step] at ends
            exact absurd ends (by simp)
        | done next =>
            rw [step] at ends
            exact induction (vgaStep_every every step) ends
      · cases ends
        exact every

theorem addNvdivgaModes_every {contents : Bytes} {inf : UInt32} {fuel : Nat}
    {rez : Vector Int16 6} {after : ModeLists} (every : Every Res.Created lists)
    (ends : addNvdivgaModes contents inf fuel rez lists = .done after) :
    Every Res.Created after := by
  rw [addNvdivgaModes] at ends
  split at ends
  · exact absurd ends (by simp)
  · split at ends
    · simp only at ends
      generalize start : VgaWalk.mk _ _ _ = walk at ends
      cases walked : vgaWalk inf rez fuel walk with
      | wild =>
          rw [walked] at ends
          exact absurd ends (by simp)
      | done made =>
          rw [walked] at ends
          cases ends
          subst start
          exact vgaWalk_every every walked
    · cases ends
      exact every

theorem removeOwned_every (rez : Vector Int16 6) (every : Every Res.Created lists) :
    Every Res.Created (removeOwned rez lists) := by
  rw [removeOwned]
  apply foldl_every _ _ every
  intro lists i every
  split_ifs
  · exact removeModes_every every
  · exact every

theorem initresNvdivga_every {input : NvdivgaInput} {fuel : Nat} {after : ModeLists}
    (every : Every Res.Created lists) (ends : initresNvdivga input fuel lists = .done after) :
    Every Res.Created after := by
  have unchanged : Outcome.done lists = .done after → Every Res.Created after := by
    rintro ⟨⟩
    exact every
  rw [initresNvdivga] at ends
  simp only at ends
  -- the tests of `F_VDI_NVDI`, of the drivers, and of `F_VDI_NVDIVGA`
  split_ifs at ends
  case pos => exact unchanged ends
  case pos => exact unchanged ends
  case pos => exact unchanged ends
  all_goals
    split at ends
    · cases ends
      exact removeOwned_every _ every
    · exact addNvdivgaModes_every (removeOwned_every _ every) ends

/-- Whatever the hardware, the drivers and `nvdivga.inf` are, the modes of the lists are as
they were made. -/
theorem initres_created {sysVdi : Int16} {video : Video} {input : NvdivgaInput} {fuel : Nat}
    {after : ModeLists}
    (ends : initresNvdivga input fuel (initresHardware sysVdi video noModes).lists = .done after) :
    Every Res.Created after :=
  initresNvdivga_every
    ((initresHardware_every sysVdi video noModes_every).weaken fun _ => Res.OfShifter.created)
    ends

end Chgres
