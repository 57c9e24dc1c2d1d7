import Chgres.Dialog.KeptModes
import Chgres.Libcmini.ReadBack

/-! # The fields of `show_info`

`show_info` prints the virtual size of a mode into two fields and reads the fields back. A
user who leaves them alone leaves the modes alone.
-/

namespace Chgres

open Text Printf Libcmini

/-! ## A field -/

/-- `%4d` -/
def fieldPiece (value : Int16) : Printf.Piece := .decimal 4 value.toInt32

/-- The text that is printed into a field. -/
def fieldText (value : Int16) : Bytes := (fieldPiece value).shown

theorem fieldText_printed (value : Int16) :
    sprintf (ascii "%4d") [.word value.toInt32] = .done (fieldText value ++ [0]) := by
  have fits : ∀ piece ∈ [fieldPiece value], piece.Fits := by
    intro piece member
    rw [List.mem_singleton.mp member]
    exact decimal_fits (by decide) _
  have printed := sprintf_shown fits
  have format : source [fieldPiece value] = ascii "%4d" := rfl
  have text : [fieldPiece value].flatMap Printf.Piece.shown = fieldText value := by
    simp [fieldText]
  rw [format, text] at printed
  exact printed

/-- A field is read back as the number it was printed for. -/
theorem atoi_fieldText (value : Int16) : atoi (fieldText value) = value.toInt32 :=
  atoi_decimal 4 value.toInt32

/-! ## The size of the mode itself -/

namespace Res

/-- The size is one that `show_info` leaves as it is entered. -/
structure Snapped (r : Res) : Prop where
  wide : r.hres ≤ r.virtHres
  high : r.vres ≤ r.virtVres
  width : 16 ∣ r.virtHres.toInt ∨ r.virtHres = r.hres
  height : 16 ∣ r.virtVres.toInt ∨ r.virtVres = r.vres

theorem VirtualFits.snapped {r : Res} (fits : r.VirtualFits) : r.Snapped :=
  ⟨fits.wide, fits.high, fits.width, fits.height⟩

theorem mask_of_dvd {value : Int16} (multiple : 16 ∣ value.toInt) : value &&& -16 = value := by
  have none := (Signed.dvd_iff_and_fifteen value).mp multiple
  have all : (-16 : Int16).toBitVec ||| (15 : Int16).toBitVec = (-1 : Int16).toBitVec := by decide
  apply Int16.toBitVec_inj.mp
  have low : value.toBitVec &&& (15 : Int16).toBitVec = 0 := congrArg Int16.toBitVec none
  rw [Int16.toBitVec_and]
  calc value.toBitVec &&& (-16 : Int16).toBitVec
      = value.toBitVec &&& (-16 : Int16).toBitVec ||| value.toBitVec &&& (15 : Int16).toBitVec := by
        rw [low]
        exact BitVec.or_zero.symm
    _ = value.toBitVec &&& (-1 : Int16).toBitVec := by rw [← BitVec.and_or_distrib_left, all]
    _ = value.toBitVec := congrArg Int16.toBitVec Int16.and_neg_one

/-- Rounding down does not pass a positive number. -/
theorem mask_le {value : Int16} (positive : 1 ≤ value) : value &&& -16 ≤ value := by
  have least : 1 ≤ value.toInt := Int16.le_iff_toInt_le.mp positive
  have below : (value &&& -16).toBitVec.toNat ≤ value.toBitVec.toNat := by
    rw [Int16.toBitVec_and, BitVec.toNat_and]
    exact Nat.and_le_left
  apply Int16.le_iff_toInt_le.mpr
  rw [← Int16.toInt_toBitVec, BitVec.toInt_eq_toNat_cond] at least ⊢
  rw [← Int16.toInt_toBitVec, BitVec.toInt_eq_toNat_cond]
  split <;> split at * <;> omega

theorem raised_mask {size visible : Int16} (least : visible ≤ size) (positive : 1 ≤ visible)
    (snapped : 16 ∣ size.toInt ∨ size = visible) :
    (if size &&& -16 < visible then visible else size &&& -16) = size := by
  rcases snapped with multiple | rfl
  · rw [mask_of_dvd multiple, if_neg (Int16.not_lt.mpr least)]
  · split
    case isTrue => rfl
    case isFalse small => exact Int16.le_antisymm (mask_le positive) (Int16.not_lt.mp small)

variable {r : Res}

theorem entered_self (visible : r.Visible) (snapped : r.Snapped) :
    r.entered r.virtHres.toInt32 r.virtVres.toInt32 = r := by
  have width : (if r.virtHres < r.hres then r.hres else r.virtHres) = r.virtHres :=
    if_neg (Int16.not_lt.mpr snapped.wide)
  have height : (if r.virtVres < r.vres then r.vres else r.virtVres) = r.virtVres :=
    if_neg (Int16.not_lt.mpr snapped.high)
  have maskWidth := raised_mask snapped.wide visible.hres snapped.width
  have maskHeight := raised_mask snapped.high visible.vres snapped.height
  have same : r.withVirtual r.virtHres r.virtVres = r := rfl
  have rounded : (r.withVirtual (r.virtHres &&& -16) (r.virtVres &&& -16)).widened = r := by
    change r.withVirtual _ _ = r
    exact (congrArg₂ r.withVirtual maskWidth maskHeight).trans same
  have whole : r.widened = r := by
    change r.withVirtual _ _ = r
    exact (congrArg₂ r.withVirtual width height).trans same
  rw [entered, Int16.toInt16_toInt32, Int16.toInt16_toInt32, same, aligned]
  split
  case isTrue => exact rounded
  case isFalse => exact whole

/-- Whether or not it breaks a limit, the size stays. -/
theorem editVirtual_self (visible : r.Visible) (snapped : r.Snapped) :
    r.editVirtual r.virtHres.toInt32 r.virtVres.toInt32 = r := by
  have same := entered_self visible snapped
  rcases editVirtual_eq visible.planes visible.hres visible.vres r.virtHres.toInt32
    r.virtVres.toInt32 _ rfl with ⟨large, small⟩
  by_cases limit : (r.entered r.virtHres.toInt32 r.virtVres.toInt32).TooLarge
  · exact large limit
  · rw [small limit, same]

/-- A mode that is made with a snapped size is never left with another one. -/
theorem Kept.snapped {made : Res} (kept : r.Kept made) (visible : made.Visible)
    (snapped : made.Snapped) : r.Snapped := by
  rcases kept.virtual visible with ⟨width, height⟩ | fits
  · rcases kept.asMade with ⟨_, virtHres, virtVres, rfl⟩
    have isWidth : virtHres = made.virtHres := width
    have isHeight : virtVres = made.virtVres := height
    rw [isWidth, isHeight]
    exact ⟨snapped.wide, snapped.high, snapped.width, snapped.height⟩
  · exact fits.snapped

end Res

/-! ## Whole sessions -/

section Sessions

variable {Ptr : Type} [Fintype Ptr] [DecidableEq Ptr]

omit [Fintype Ptr] in
/-- A mode that is edited into itself is not edited. -/
theorem Pool.edit_self (pool : Pool Ptr) {res : Ptr} (visible : (pool.mode res).Visible)
    (snapped : (pool.mode res).Snapped) :
    pool.edit res (pool.mode res).virtHres.toInt32 (pool.mode res).virtVres.toInt32 = pool := by
  rw [Pool.edit, Res.editVirtual_self visible snapped, Function.update_eq_self]

theorem showInfo_self {qsort : QSort Ptr} {mallocSucceeds : Bool} {s after : Dialog Ptr} {res : Ptr}
    (current : s.curRes = some res) (visible : (s.pool.mode res).Visible)
    (snapped : (s.pool.mode res).Snapped)
    (ends : showInfo qsort (some ((s.pool.mode res).virtHres.toInt32,
      (s.pool.mode res).virtVres.toInt32)) mallocSucceeds s = .done after) :
    after.pool.mode = s.pool.mode ∧ after.curRes = s.curRes := by
  rw [showInfo, current] at ends
  simp only [s.pool.edit_self visible snapped] at ends
  cases sorts : sortRestab qsort mallocSucceeds s.pool s.resTab with
  | wild =>
      rw [sorts] at ends
      exact absurd ends (by simp)
  | done sorted =>
      rw [sorts] at ends
      cases ends
      exact ⟨sortRestab_mode sorts, current.symm⟩

/-- In every state that the dialog reaches, for a current mode that was made with a screen and
a snapped size: what is printed into the fields is read back as the size of the mode, and `OK`
with both fields left alone comes to an end and changes neither a mode nor the choice. -/
theorem unedited_keeps (qsort : QSort Ptr) (memory : SortMemory) (loaded : Loaded Ptr)
    (currez vmode : Int16) (ok info : Button) : ∃ globals,
      initRes qsort memory currez vmode loaded.pool loaded.possible = .done globals ∧
        ∀ s, Reaches (hdlObj qsort) Sends (selectRes ok info globals) s →
          ∀ res, s.curRes = some res → (loaded.pool.mode res).Visible →
            (loaded.pool.mode res).Snapped →
            ∃ wide high,
              sprintf (ascii "%4d") [.word (s.pool.mode res).virtHres.toInt32] =
                  .done (wide ++ [0]) ∧
                sprintf (ascii "%4d") [.word (s.pool.mode res).virtVres.toInt32] =
                  .done (high ++ [0]) ∧
                atoi wide = (s.pool.mode res).virtHres.toInt32 ∧
                atoi high = (s.pool.mode res).virtVres.toInt32 ∧
                ∀ mallocSucceeds,
                  Sends s (.info (some (atoi wide, atoi high)) mallocSucceeds) →
                  ∃ after, hdlObj qsort (.info (some (atoi wide, atoi high)) mallocSucceeds) s =
                      .done after ∧
                    after.pool.mode = s.pool.mode ∧ after.curRes = s.curRes := by
  rcases selectRes_inSession qsort memory loaded currez vmode ok info with ⟨globals, starts, start⟩
  refine ⟨globals, starts, fun s reaches res current visible snapped => ?_⟩
  have inSession : InSession loaded s := by
    apply reaches.invariant start
    intro before after event inSession sends result
    rcases inSession.step qsort sends with ⟨after', result', inSession'⟩
    cases result.symm.trans result'
    exact inSession'
  have kept := inSession.keeps res
  refine ⟨_, _, fieldText_printed _, fieldText_printed _, atoi_fieldText _, atoi_fieldText _, ?_⟩
  intro mallocSucceeds sends
  rcases inSession.step qsort sends with ⟨after, ends, -⟩
  refine ⟨after, ends, ?_⟩
  rw [hdlObj, atoi_fieldText, atoi_fieldText] at ends
  exact showInfo_self current (kept.asMade.visible visible) (kept.snapped visible snapped) ends

end Sessions

end Chgres
