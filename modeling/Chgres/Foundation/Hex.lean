import Chgres.Foundation.Lines

/-! # Hexadecimal numbers in a text

Reading a number back from its digits, in either case.
-/

namespace Chgres.Text

def hexValue (c : Byte) : Option Nat :=
  if 0x30 ≤ c ∧ c ≤ 0x39 then some (c.toNat - 0x30)
  else if 0x41 ≤ c ∧ c ≤ 0x46 then some (c.toNat - 0x37)
  else if 0x61 ≤ c ∧ c ≤ 0x66 then some (c.toNat - 0x57)
  else none

/-- The number whose digits are the bytes, the highest first. -/
def hexNumber (text : Bytes) : Option Nat :=
  text.foldlM (fun number c => (hexValue c).map (16 * number + ·)) 0

example : hexNumber (ascii "1f") = some 31 ∧ hexNumber (ascii "1 ") = none := by decide

theorem hexValue_lt {c : Byte} {value : Nat} (read : hexValue c = some value) : value < 16 := by
  have bounded : ∀ c : Byte, ∀ value ∈ hexValue c, value < 16 := by decide +kernel
  exact bounded c value read

theorem hexNumber_one_lt {c : Byte} {number : Nat} (read : hexNumber [c] = some number) :
    number < 16 := by
  have digit : hexValue c = some number := by simpa [hexNumber] using read
  exact hexValue_lt digit

theorem hexNumber_two_lt {high low : Byte} {number : Nat}
    (read : hexNumber [high, low] = some number) : number < 256 := by
  cases first : hexValue high with
  | none => simp [hexNumber, first] at read
  | some left =>
      cases second : hexValue low with
      | none => simp [hexNumber, first, second] at read
      | some right =>
          have leftBound := hexValue_lt first
          have rightBound := hexValue_lt second
          have value : 16 * left + right = number := by
            simpa [hexNumber, first, second] using read
          omega

end Chgres.Text
