import Mathlib

/-! # Numerals

The digits of a number, the highest first and none of them superfluous, and the number
that a row of digits stands for.
-/

namespace Chgres.Numerals

/-- The digits of a number. Zero has one. -/
def numeral (base number : Nat) : List Nat :=
  if number = 0 then [0] else (Nat.digits base number).reverse

/-- What a row of digits stands for. -/
def reading (base : Nat) (row : List Nat) : Nat :=
  row.foldl (fun value digit => value * base + digit) 0

theorem reading_eq_ofDigits (base : Nat) (row : List Nat) :
    reading base row = Nat.ofDigits base row.reverse := by
  induction row using List.reverseRecOn with
  | nil => rfl
  | append_singleton row digit induction =>
      have last : reading base (row ++ [digit]) = reading base row * base + digit := by
        simp [reading]
      rw [last, induction, List.reverse_append, List.reverse_singleton, List.singleton_append,
        Nat.ofDigits_cons]
      ring

section Numeral

variable {base : Nat} (number : Nat)

@[simp] theorem reading_numeral : reading base (numeral base number) = number := by
  rw [numeral]
  split
  case isTrue isZero => simp [reading, isZero]
  case isFalse => rw [reading_eq_ofDigits, List.reverse_reverse, Nat.ofDigits_digits]

theorem numeral_ne_nil : numeral base number ≠ [] := by
  rw [numeral]
  split
  case isTrue => simp
  case isFalse positive => simpa [Nat.digits_ne_nil_iff_ne_zero] using positive

theorem numeral_lt (large : 1 < base) : ∀ digit ∈ numeral base number, digit < base := by
  intro digit member
  rw [numeral] at member
  split at member
  case isTrue =>
    rw [List.mem_singleton.mp member]
    omega
  case isFalse => exact Nat.digits_lt_base large (List.mem_reverse.mp member)

theorem numeral_of_lt (small : number < base) : numeral base number = [number] := by
  rw [numeral]
  split
  case isTrue isZero => rw [isZero]
  case isFalse positive => simp [Nat.digits_of_lt base number positive small]

/-- The last digit is the remainder, and the others are those of the quotient. -/
theorem numeral_of_le (large : 1 < base) (least : base ≤ number) :
    numeral base number = numeral base (number / base) ++ [number % base] := by
  have positive : number ≠ 0 := by omega
  have quotient : number / base ≠ 0 := by
    have := Nat.div_pos least (by omega)
    omega
  rw [numeral, numeral, if_neg positive, if_neg quotient,
    Nat.digits_def' large (Nat.pos_of_ne_zero positive), List.reverse_cons]

/-- Below `base ^ count` no more than `count` digits are needed. -/
theorem numeral_length_le {count : Nat} (large : 1 < base) (some_ : 0 < count)
    (small : number < base ^ count) : (numeral base number).length ≤ count := by
  rw [numeral]
  split
  case isTrue => exact some_
  case isFalse => rwa [List.length_reverse, Nat.digits_length_le_iff large]

/-- Only zero starts with a zero. -/
theorem numeral_head_ne_zero (positive : number ≠ 0) : (numeral base number).head? ≠ some 0 := by
  rw [numeral, if_neg positive, List.head?_reverse,
    List.getLast?_eq_getLast_of_ne_nil (Nat.digits_ne_nil_iff_ne_zero.mpr positive)]
  intro isZero
  exact Nat.getLast_digit_ne_zero base positive (Option.some.inj isZero)

end Numeral

end Chgres.Numerals
