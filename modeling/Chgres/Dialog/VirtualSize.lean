import Chgres.Foundation.Signed
import Chgres.Machine

/-! # The virtual size of a mode

What `show_info` does to a mode when a virtual size has been entered: the steps of the
source one after the other, and what holds of the size that comes out.
-/

namespace Chgres

open Signed

namespace Res

def withVirtual (r : Res) (virtHres virtVres : Int16) : Res :=
  { r with virtHres := virtHres, virtVres := virtVres }

/-- Both sizes are rounded down to a multiple of 16 when one of them is none. -/
def aligned (r : Res) : Res :=
  if r.virtHres &&& 15 ≠ 0 ∨ r.virtVres &&& 15 ≠ 0 then
    r.withVirtual (r.virtHres &&& -16) (r.virtVres &&& -16)
  else r

/-- The virtual size is no smaller than the visible one. -/
def widened (r : Res) : Res :=
  r.withVirtual (if r.virtHres < r.hres then r.hres else r.virtHres)
    (if r.virtVres < r.vres then r.vres else r.virtVres)

/-- What the width is multiplied by for the size of a line. -/
def lineFactor (r : Res) : Int32 :=
  if r.planes ≥ 24 then 4 else if r.planes ≥ 15 then 2 else r.planes.toInt32

def lineProduct (r : Res) : Int32 := r.virtHres.toInt32 * r.lineFactor

def linesize (r : Res) : Int32 :=
  if r.planes ≥ 15 then r.lineProduct else r.lineProduct >>> 3

def screenProduct (r : Res) : Int32 := r.linesize * r.virtVres.toInt32

/-- The size that is checked against the limits. -/
def entered (r : Res) (virtHres virtVres : Int32) : Res :=
  (r.withVirtual virtHres.toInt16 virtVres.toInt16).aligned.widened

/-- The part of `show_info` that follows `INFO_OK`, given what `atoi` makes of the two
fields. -/
def editVirtual (r : Res) (virtHres virtVres : Int32) : Res :=
  let wanted := r.entered virtHres virtVres
  if wanted.linesize > 32700 then wanted.withVirtual r.virtHres r.virtVres
  else if wanted.screenProduct > 1048576 then wanted.withVirtual r.virtHres r.virtVres
  else wanted

end Res

/-! ## The size that comes out -/

namespace Res

/-- The bytes of a line of `width` pixels. -/
def lineBytes (planes width : Int) : Int :=
  if 24 ≤ planes then width * 4 else if 15 ≤ planes then width * 2 else width * planes / 8

/-- A virtual size within the limits. -/
structure VirtualFits (r : Res) : Prop where
  wide : r.hres ≤ r.virtHres
  high : r.vres ≤ r.virtVres
  width : 16 ∣ r.virtHres.toInt ∨ r.virtHres = r.hres
  height : 16 ∣ r.virtVres.toInt ∨ r.virtVres = r.vres
  line : lineBytes r.planes.toInt r.virtHres.toInt ≤ 32700
  screen : lineBytes r.planes.toInt r.virtHres.toInt * r.virtVres.toInt ≤ 1048576

/-! ### The steps before the limits -/

theorem aligned_eq (r : Res) : r.aligned = r.withVirtual r.aligned.virtHres r.aligned.virtVres := by
  rw [aligned]
  split <;> rfl

theorem aligned_width (r : Res) : 16 ∣ r.aligned.virtHres.toInt := by
  rw [aligned]
  split
  case isTrue => exact dvd_and_mask _
  case isFalse both =>
    rw [not_or, not_not, not_not] at both
    exact (dvd_iff_and_fifteen _).mpr both.1

theorem aligned_height (r : Res) : 16 ∣ r.aligned.virtVres.toInt := by
  rw [aligned]
  split
  case isTrue => exact dvd_and_mask _
  case isFalse both =>
    rw [not_or, not_not, not_not] at both
    exact (dvd_iff_and_fifteen _).mpr both.2

/-- Only the virtual size is entered. -/
theorem entered_eq (r : Res) (virtHres virtVres : Int32) :
    r.entered virtHres virtVres = r.withVirtual (r.entered virtHres virtVres).virtHres
      (r.entered virtHres virtVres).virtVres := by
  unfold entered widened
  rw [aligned_eq]
  rfl

/-- An edit leaves the flags alone. -/
theorem editVirtual_flags (r : Res) (virtHres virtVres : Int32) :
    (r.editVirtual virtHres virtVres).flags = r.flags := by
  have only := congrArg Res.flags (entered_eq r virtHres virtVres)
  unfold editVirtual
  simp only
  split
  · exact only
  · split
    · exact only
    · exact only

/-- Raising a size to the visible one leaves it a multiple of 16 or makes it the visible
one. -/
theorem raised {size visible : Int16} (multiple : 16 ∣ size.toInt) :
    visible ≤ (if size < visible then visible else size) ∧
      (16 ∣ (if size < visible then visible else size).toInt ∨
        (if size < visible then visible else size) = visible) := by
  split
  case isTrue => exact ⟨Int16.le_refl _, .inr rfl⟩
  case isFalse large => exact ⟨Int16.not_lt.mp large, .inl multiple⟩

section Entered

variable (r : Res) (virtHres virtVres : Int32)

theorem entered_width :
    r.hres ≤ (r.entered virtHres virtVres).virtHres ∧
      (16 ∣ (r.entered virtHres virtVres).virtHres.toInt ∨
        (r.entered virtHres virtVres).virtHres = r.hres) := by
  have result := @raised _ r.hres
    (aligned_width (r.withVirtual virtHres.toInt16 virtVres.toInt16))
  rw [entered, widened, aligned_eq]
  exact result

theorem entered_height :
    r.vres ≤ (r.entered virtHres virtVres).virtVres ∧
      (16 ∣ (r.entered virtHres virtVres).virtVres.toInt ∨
        (r.entered virtHres virtVres).virtVres = r.vres) := by
  have result := @raised _ r.vres
    (aligned_height (r.withVirtual virtHres.toInt16 virtVres.toInt16))
  rw [entered, widened, aligned_eq]
  exact result

end Entered

/-! ### The products -/

section Products

variable {r : Res}

/-- The factor of a line is positive, and small. -/
theorem lineFactor_bounds (planes : 1 ≤ r.planes) :
    1 ≤ r.lineFactor.toInt ∧ r.lineFactor.toInt ≤ 14 := by
  rw [Int16.le_iff_toInt_le] at planes
  rw [lineFactor]
  split
  case isTrue => decide
  case isFalse =>
    split
    case isTrue => decide
    case isFalse few =>
      rw [ge_iff_le, Int16.le_iff_toInt_le] at few
      rw [Int16.toInt_toInt32]
      exact ⟨planes, Int.le_of_lt_add_one (not_le.mp few)⟩

theorem lineProduct_fits (planes : 1 ≤ r.planes) (width : 1 ≤ r.virtHres) :
    FitsLong (r.virtHres.toInt * r.lineFactor.toInt) := by
  rcases lineFactor_bounds planes with ⟨positive, small⟩
  rw [Int16.le_iff_toInt_le] at width
  have wide : 1 ≤ r.virtHres.toInt := width
  have bound := Int16.toInt_lt r.virtHres
  have least : 0 ≤ r.virtHres.toInt * r.lineFactor.toInt :=
    Int.mul_nonneg (by omega) (by omega)
  have greatest : r.virtHres.toInt * r.lineFactor.toInt ≤ 2 ^ 15 * 14 :=
    Int.mul_le_mul (by omega) small (by omega) (by omega)
  exact ⟨by omega, by omega⟩

theorem lineProduct_toInt (planes : 1 ≤ r.planes) (width : 1 ≤ r.virtHres) :
    r.lineProduct.toInt = r.virtHres.toInt * r.lineFactor.toInt := by
  have fits := lineProduct_fits planes width
  rw [lineProduct, toInt_mul, Int16.toInt_toInt32]
  rwa [Int16.toInt_toInt32]

/-- The line size is computed without overflow. -/
theorem linesize_toInt (planes : 1 ≤ r.planes) (width : 1 ≤ r.virtHres) :
    r.linesize.toInt = lineBytes r.planes.toInt r.virtHres.toInt := by
  have product := lineProduct_toInt planes width
  unfold linesize lineBytes
  by_cases deep : r.planes ≥ 24
  · have atLeast : (24 : Int) ≤ r.planes.toInt := Int16.le_iff_toInt_le.mp deep
    have high : r.planes ≥ 15 := by
      apply Int16.le_iff_toInt_le.mpr
      exact le_trans (by decide) atLeast
    rw [if_pos high, if_pos atLeast, product, lineFactor, if_pos deep]
    rfl
  · have below : ¬ (24 : Int) ≤ r.planes.toInt := fun least => deep (Int16.le_iff_toInt_le.mpr least)
    rw [if_neg below]
    by_cases high : r.planes ≥ 15
    · have atLeast : (15 : Int) ≤ r.planes.toInt := Int16.le_iff_toInt_le.mp high
      rw [if_pos high, if_pos atLeast, product, lineFactor, if_neg deep, if_pos high]
      rfl
    · have few : ¬ (15 : Int) ≤ r.planes.toInt := fun least =>
        high (Int16.le_iff_toInt_le.mpr least)
      rw [if_neg high, if_neg few, toInt_shift_three, product, lineFactor, if_neg deep,
        if_neg high, Int16.toInt_toInt32]

theorem lineBytes_nonneg (planes : 1 ≤ r.planes) (width : 1 ≤ r.virtHres) :
    0 ≤ lineBytes r.planes.toInt r.virtHres.toInt := by
  have positive : (1 : Int) ≤ r.planes.toInt := Int16.le_iff_toInt_le.mp planes
  have wide : (1 : Int) ≤ r.virtHres.toInt := Int16.le_iff_toInt_le.mp width
  rw [lineBytes]
  split
  case isTrue => omega
  case isFalse =>
    split
    case isTrue => omega
    case isFalse => exact Int.ediv_nonneg (Int.mul_nonneg (by omega) (by omega)) (by decide)

/-- A line within its limit keeps the second product within a `long`. -/
theorem screenProduct_fits (planes : 1 ≤ r.planes) (width : 1 ≤ r.virtHres)
    (height : 1 ≤ r.virtVres) (line : lineBytes r.planes.toInt r.virtHres.toInt ≤ 32700) :
    FitsLong (lineBytes r.planes.toInt r.virtHres.toInt * r.virtVres.toInt) := by
  have nonneg := lineBytes_nonneg planes width
  have high : (1 : Int) ≤ r.virtVres.toInt := Int16.le_iff_toInt_le.mp height
  have bound := Int16.toInt_lt r.virtVres
  have least := Int.mul_nonneg nonneg (show 0 ≤ r.virtVres.toInt by omega)
  have greatest : lineBytes r.planes.toInt r.virtHres.toInt * r.virtVres.toInt ≤
      32700 * 2 ^ 15 := Int.mul_le_mul line (by omega) (by omega) (by decide)
  exact ⟨by omega, by omega⟩

theorem screenProduct_toInt (planes : 1 ≤ r.planes) (width : 1 ≤ r.virtHres)
    (height : 1 ≤ r.virtVres) (line : lineBytes r.planes.toInt r.virtHres.toInt ≤ 32700) :
    r.screenProduct.toInt =
      lineBytes r.planes.toInt r.virtHres.toInt * r.virtVres.toInt := by
  have fits := screenProduct_fits planes width height line
  have size := linesize_toInt planes width
  rw [screenProduct, toInt_mul, size, Int16.toInt_toInt32]
  rwa [size, Int16.toInt_toInt32]

end Products

/-! ### The limits -/

/-- The size breaks a limit. -/
def TooLarge (r : Res) : Prop :=
  32700 < lineBytes r.planes.toInt r.virtHres.toInt ∨
    1048576 < lineBytes r.planes.toInt r.virtHres.toInt * r.virtVres.toInt

section Limits

variable {r : Res} (planes : 1 ≤ r.planes) (hres : 1 ≤ r.hres) (vres : 1 ≤ r.vres)
  (virtHres virtVres : Int32)

include planes hres vres

theorem entered_positive : 1 ≤ (r.entered virtHres virtVres).planes ∧
    1 ≤ (r.entered virtHres virtVres).virtHres ∧
    1 ≤ (r.entered virtHres virtVres).virtVres := by
  refine ⟨?_, Int16.le_trans hres (entered_width r virtHres virtVres).1,
    Int16.le_trans vres (entered_height r virtHres virtVres).1⟩
  rw [entered_eq]
  exact planes

/-- The limits are checked as they are meant, and a size that breaks one is not taken. -/
theorem editVirtual_eq (r' : Res) (wanted : r' = r.entered virtHres virtVres) :
    (r'.TooLarge → r.editVirtual virtHres virtVres = r) ∧
      (¬ r'.TooLarge → r.editVirtual virtHres virtVres = r') := by
  rcases entered_positive planes hres vres virtHres virtVres with ⟨planes', width, height⟩
  rw [← wanted] at planes' width height
  have restored : r'.withVirtual r.virtHres r.virtVres = r := by
    rw [wanted, entered_eq]
    rfl
  have line : r'.linesize > 32700 ↔ 32700 < lineBytes r'.planes.toInt r'.virtHres.toInt := by
    rw [gt_iff_lt, Int32.lt_iff_toInt_lt, linesize_toInt planes' width]
    rfl
  simp only [editVirtual, ← wanted, restored, line]
  by_cases long : 32700 < lineBytes r'.planes.toInt r'.virtHres.toInt
  · rw [if_pos long]
    exact ⟨fun _ => rfl, fun small => absurd (.inl long) small⟩
  · have screen : r'.screenProduct > 1048576 ↔
        1048576 < lineBytes r'.planes.toInt r'.virtHres.toInt * r'.virtVres.toInt := by
      rw [gt_iff_lt, Int32.lt_iff_toInt_lt,
        screenProduct_toInt planes' width height (not_lt.mp long)]
      rfl
    rw [if_neg long]
    split
    case isTrue large =>
      exact ⟨fun _ => rfl, fun small => absurd (.inr (screen.mp large)) small⟩
    case isFalse small =>
      refine ⟨?_, fun _ => rfl⟩
      rintro (large | large)
      · exact absurd large long
      · exact absurd (screen.mpr large) small

end Limits

/-- After an edit the virtual size is the old one or fits; whenever the size that was
entered breaks a limit the mode is left as it was, and otherwise it is taken; no product
overflows; and nothing but the virtual size changes. -/
theorem editVirtual_sound (r : Res) (hres : 1 ≤ r.hres) (vres : 1 ≤ r.vres)
    (planes : 1 ≤ r.planes) (virtHres virtVres : Int32) :
    (r.editVirtual virtHres virtVres = r ∨ (r.editVirtual virtHres virtVres).VirtualFits) ∧
      ((r.entered virtHres virtVres).TooLarge → r.editVirtual virtHres virtVres = r) ∧
      (¬ (r.entered virtHres virtVres).TooLarge →
        r.editVirtual virtHres virtVres = r.entered virtHres virtVres) ∧
      (∃ hres' vres', r.entered virtHres virtVres = r.withVirtual hres' vres' ∧
        FitsLong (hres'.toInt * r.lineFactor.toInt) ∧
        (lineBytes r.planes.toInt hres'.toInt ≤ 32700 →
          FitsLong (lineBytes r.planes.toInt hres'.toInt * vres'.toInt))) ∧
      ∃ hres' vres', r.editVirtual virtHres virtVres = r.withVirtual hres' vres' := by
  rcases entered_positive planes hres vres virtHres virtVres with ⟨planes', width, height⟩
  rcases editVirtual_eq planes hres vres virtHres virtVres _ rfl with ⟨large, small⟩
  have only := entered_eq r virtHres virtVres
  refine ⟨?_, large, small, ⟨_, _, only, ?_, ?_⟩, ?_⟩
  · by_cases limit : (r.entered virtHres virtVres).TooLarge
    · exact .inl (large limit)
    · right
      rw [small limit]
      rw [TooLarge, not_or, not_lt, not_lt] at limit
      have wide := entered_width r virtHres virtVres
      have high := entered_height r virtHres virtVres
      rw [only] at wide high limit ⊢
      exact ⟨wide.1, high.1, wide.2, high.2, limit.1, limit.2⟩
  · have fits := lineProduct_fits planes' width
    rw [only] at fits
    exact fits
  · intro line
    have fits := screenProduct_fits planes' width height
    rw [only] at fits
    exact fits line
  · by_cases limit : (r.entered virtHres virtVres).TooLarge
    · exact ⟨r.virtHres, r.virtVres, large limit⟩
    · exact ⟨_, _, (small limit).trans only⟩

/-- A mode of 320 by 200 in 16 colours. -/
def sample : Res where
  selected := false
  rez := 2
  vmode := 0
  flags := flagInfo
  virtHres := 320
  virtVres := 200
  hres := 320
  vres := 200
  planes := 4
  freq := 60
  modeOffset := 0

theorem editVirtual_sound_sample :
    (sample.editVirtual 1029 770 = sample ∨ (sample.editVirtual 1029 770).VirtualFits) ∧
      ((sample.entered 1029 770).TooLarge → sample.editVirtual 1029 770 = sample) ∧
      (¬ (sample.entered 1029 770).TooLarge →
        sample.editVirtual 1029 770 = sample.entered 1029 770) :=
  have sound := editVirtual_sound sample (by decide) (by decide) (by decide) 1029 770
  ⟨sound.1, sound.2.1, sound.2.2.1⟩

/-- Both sizes are rounded down, and the height is raised to the visible one. -/
example : sample.editVirtual 1029 100 = sample.withVirtual 1024 200 := by decide

end Res

end Chgres
