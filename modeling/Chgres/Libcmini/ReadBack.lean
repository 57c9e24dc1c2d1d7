import Chgres.Libcmini.DoprntPrints

/-! # Reading a number back

What `doprnt` prints for a number, `atoi` reads as that number, whatever the flags, the width
and the precision.
-/

namespace Chgres.Libcmini

open Text Numerals Printf

theorem decimal_zero (text : Bytes) : decimal (0x30 :: text) = decimal text := by
  simp [decimal, isDigit]

theorem decimal_zeros (count : Nat) (text : Bytes) :
    decimal (List.replicate count 0x30 ++ text) = decimal text := by
  induction count with
  | zero => rfl
  | succ count induction =>
      rw [List.replicate_succ, List.cons_append, decimal_zero, induction]

theorem atoi_blanks (count : Nat) (text : Bytes) :
    atoi (List.replicate count 0x20 ++ text) = atoi text := by
  induction count with
  | zero => rfl
  | succ count induction =>
      rw [List.replicate_succ, List.cons_append, atoi_cons_space (by decide), induction]

theorem atoi_minus (text : Bytes) : atoi (0x2d :: text) = -.ofNat (decimal text) := by
  simp [atoi, isSpace]

theorem atoi_plus (text : Bytes) : atoi (0x2b :: text) = .ofNat (decimal text) := by
  simp [atoi, isSpace]

/-- Zeros in front of the digits change nothing. -/
theorem atoi_zeros (count number : Nat) {rest : Bytes} (stops : Stops rest) :
    atoi (List.replicate count 0x30 ++ (figures false 10 number ++ rest)) = .ofNat number := by
  have value : decimal (List.replicate count 0x30 ++ (figures false 10 number ++ rest)) = number := by
    rw [decimal_zeros, decimal_figures number stops]
  cases count with
  | zero => exact atoi_figures number stops
  | succ count =>
      rw [List.replicate_succ, List.cons_append] at value ⊢
      rw [atoi_of_digit rfl (by decide), value]

theorem ofNat_natAbs {value : Int32} (nonneg : ¬value < 0) : .ofNat value.toInt.natAbs = value := by
  have greatest := value.toInt_lt
  have least : 0 ≤ value.toInt := by
    by_contra below
    exact nonneg (Int32.lt_iff_toInt_lt.mpr (not_le.mp below))
  apply Int32.toInt_inj.mp
  rw [Int32.toInt_ofNat_of_lt (by omega)]
  omega

/-- The least `int` is read as its own opposite. -/
theorem neg_ofNat_natAbs {value : Int32} (negative : value < 0) :
    -.ofNat value.toInt.natAbs = value := by
  have least := value.le_toInt
  have below : value.toInt < 0 := Int32.lt_iff_toInt_lt.mp negative
  apply Int32.toInt_inj.mp
  rw [Int32.toInt_neg, Int32.toInt_ofNat']
  by_cases isLeast : value.toInt = -2 ^ 31
  · rw [isLeast]
    decide
  · have size : ((value.toInt.natAbs : Int)).bmod Int32.size = value.toInt.natAbs :=
      Int.bmod_eq_of_le (by simp only [Int32.size]; omega) (by simp only [Int32.size]; omega)
    rw [size, Int.bmod_eq_of_le (by omega) (by omega)]
    omega

/-- What stands in front of the digits of a number. -/
def SignOf (value : Int32) (sign : Bytes) : Prop :=
  if value < 0 then sign = [0x2d] else sign = [] ∨ sign = [0x2b] ∨ sign = [0x20]

theorem atoi_signed {value : Int32} {sign : Bytes} (isSign : SignOf value sign) (count : Nat)
    {rest : Bytes} (stops : Stops rest) :
    atoi (sign ++ (List.replicate count 0x30 ++
      (figures false 10 value.toInt.natAbs ++ rest))) = value := by
  rw [SignOf] at isSign
  have digits : decimal (List.replicate count 0x30 ++
      (figures false 10 value.toInt.natAbs ++ rest)) = value.toInt.natAbs := by
    rw [decimal_zeros, decimal_figures _ stops]
  have plain := atoi_zeros count value.toInt.natAbs stops
  by_cases negative : value < 0
  · rw [if_pos negative] at isSign
    rw [isSign, List.singleton_append, atoi_minus, digits, neg_ofNat_natAbs negative]
  · rw [if_neg negative] at isSign
    rcases isSign with rfl | rfl | rfl
    · rw [List.nil_append, plain, ofNat_natAbs negative]
    · rw [List.singleton_append, atoi_plus, digits, ofNat_natAbs negative]
    · have blank := atoi_blanks 1 (List.replicate count 0x30 ++
        (figures false 10 value.toInt.natAbs ++ rest))
      rw [List.replicate_one] at blank
      rw [blank, plain, ofNat_natAbs negative]

theorem lastSign_cases (flags : List Flag) :
    lastSign flags = [] ∨ lastSign flags = [0x2b] ∨ lastSign flags = [0x20] := by
  rw [lastSign]
  cases found : flags.reverse.find? fun flag => flag = .plus ∨ flag = .space with
  | none => exact .inl rfl
  | some flag =>
      have isSign : flag = .plus ∨ flag = .space := by simpa using List.find?_some found
      rcases isSign with rfl | rfl
      · exact .inr (.inl rfl)
      · exact .inr (.inr rfl)

theorem stops_blanks (count : Nat) {rest : Bytes} (stops : Stops rest) :
    Stops (List.replicate count 0x20 ++ rest) := by
  cases count with
  | zero => exact stops
  | succ count => exact stops_of_head rfl (by decide)

/-- The text of a number is read back as the number, whatever stands behind it. -/
theorem atoi_shown {d : Directive} {value : Int32} (isItem : d.item = .decimal value)
    {rest : Bytes} (stops : Stops rest) : atoi (d.shown ++ rest) = value := by
  rw [Directive.shown, isItem]
  simp only
  by_cases zeros : d.Zeros
  · have isSign : SignOf value (if value < 0 then [0x2d] else []) := by
      rw [SignOf]
      split
      · rfl
      · exact .inl rfl
    rw [if_pos zeros, List.append_assoc, List.append_assoc]
    exact atoi_signed isSign _ stops
  · have isSign : SignOf value (if value < 0 then [0x2d] else lastSign d.flags) := by
      rw [SignOf]
      split
      · rfl
      · exact lastSign_cases d.flags
    rw [if_neg zeros, Directive.fill]
    by_cases left : d.Left
    · rw [if_pos left, List.append_assoc, List.append_assoc]
      exact atoi_signed isSign 0 (stops_blanks _ stops)
    · have noZero : Flag.zero ∉ d.flags := fun zero => zeros ⟨zero, left⟩
      rw [if_neg left, if_neg noZero, List.append_assoc, List.append_assoc, atoi_blanks]
      exact atoi_signed isSign 0 stops

theorem atoi_decimal (width : Nat) (value : Int32) :
    atoi (Piece.decimal width value).shown = value := by
  have stops : Stops [] := by simp [Stops]
  have result := @atoi_shown ⟨[], .fixed width, .omitted, .plain, .decimal value, 0x64, .head _⟩
    value rfl [] stops
  rwa [List.append_nil] at result

end Chgres.Libcmini
