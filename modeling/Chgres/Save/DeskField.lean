import Chgres.Foundation.Hex
import Chgres.Save.Desk

/-! # The mode field of a desktop file

One digit for a mode of the shifter, five characters for any other mode. The field
reads the mode back exactly where the numbers fit their digits.
-/

namespace Chgres

open Text Words

/-- The column and the width of the mode field. -/
structure DeskField where
  column : Nat
  width : Nat
  deriving DecidableEq, Repr

def deskField (vmode sysAes : Int16) (eoffset : Nat) : DeskField :=
  if vmode = 0 ∧ sysAes ≠ systemEmutos then ⟨7, 1⟩ else ⟨eoffset, 5⟩

/-- The fields of a desktop. -/
def deskFields (sysAes : Int16) (eoffset : Nat) : List DeskField :=
  if sysAes = systemEmutos then [⟨eoffset, 5⟩] else [⟨7, 1⟩, ⟨eoffset, 5⟩]

/-- The field gives back `rez - 2`, behind an `FF` on EmuTOS, or the 16 bits of
`vmode`. -/
def FieldReads (rez vmode sysAes : Int16) (field : Bytes) : Prop :=
  if vmode = 0 then
    if sysAes ≠ systemEmutos then
      ∃ number, hexNumber field = some number ∧ (number : Int) = rez.toInt - 2
    else field.take 3 = ascii "FF " ∧
      ∃ number, hexNumber (field.drop 3) = some number ∧ (number : Int) = rez.toInt - 2
  else ∃ high low, hexNumber (field.take 2) = some high ∧ field[2]? = some 0x20 ∧
    hexNumber (field.drop 3) = some low ∧ 256 * high + low = vmode.toBitVec.toNat

/-- The numbers of the mode fit their digits. -/
def Printable (rez vmode sysAes : Int16) : Prop :=
  0 ≤ vmode.toInt ∧ (vmode = 0 →
    0 ≤ rez.toInt - 2 ∧ rez.toInt - 2 ≤ if sysAes = systemEmutos then 255 else 15)

/-! ## Printed numbers -/

theorem formatX_length_ge (width : Nat) (value : Int) : width ≤ (formatX width value).length := by
  simp only [formatX, List.length_append, List.length_replicate]
  omega

theorem formatX_one {number : Nat} (small : number < 16) :
    ∃ c, strupr (formatX 1 number) = [c] ∧ hexNumber [c] = some number := by
  interval_cases number <;> exact ⟨_, rfl, by decide⟩

/-- The two digits of a byte are read back. -/
theorem formatX_two {number : Nat} (small : number < 256) :
    ∃ high low, strupr (formatX 2 number) = [high, low] ∧ hexNumber [high, low] = some number := by
  have all : ∀ number : Fin 256, (strupr (formatX 2 (number.val : Int))).length = 2 ∧
      hexNumber (strupr (formatX 2 (number.val : Int))) = some number.val := by decide +kernel
  have here := all ⟨number, small⟩
  rcases List.length_eq_two.mp here.1 with ⟨high, low, digits⟩
  simp only at digits here
  exact ⟨high, low, digits, digits ▸ here.2⟩

/-- The bytes of a `vmode`, as `%02x` prints them. -/
theorem vmode_bytes (vmode : Int16) :
    (vmode >>> 8).toInt = vmode.toInt / 256 ∧
      (vmode &&& 0xff).toInt = (vmode.toBitVec.toNat % 256 : Nat) := by
  constructor
  · have count : ((8 : Int16).toBitVec.smod 16).toNat = 8 := by decide
    rw [← Int16.toInt_toBitVec, Int16.toBitVec_shiftRight, BitVec.toInt_sshiftRight', count,
      Int.shiftRight_eq_div_pow, Int16.toInt_toBitVec]
    rfl
  · have low : (vmode &&& 0xff).toBitVec.toNat = vmode.toBitVec.toNat % 256 := by
      rw [Int16.toBitVec_and, BitVec.toNat_and]
      exact Nat.and_two_pow_sub_one_eq_mod vmode.toBitVec.toNat 8
    have small : vmode.toBitVec.toNat % 256 < 256 := Nat.mod_lt _ (by decide)
    rw [← Int16.toInt_toBitVec, BitVec.toInt_eq_toNat_of_lt (by omega), low]

/-- A negative byte takes eight digits, and the third is an F. -/
theorem formatX_negative {value : Int} (lower : -128 ≤ value) (upper : value < 0) :
    (strupr (formatX 2 value))[2]? = some 0x46 := by
  have all : ∀ number : Fin 128,
      (strupr (formatX 2 (-(number.val : Int) - 1)))[2]? = some 0x46 := by decide +kernel
  have here := all ⟨(-value - 1).toNat, by omega⟩
  have same : -(((-value - 1).toNat : Nat) : Int) - 1 = value := by omega
  simp only [same] at here
  exact here

/-! ## The characters that are poked in -/

/-- The characters of the field. -/
def deskData (rez vmode sysAes : Int16) : Bytes :=
  if vmode = 0 ∧ sysAes ≠ systemEmutos then (strupr (formatX 1 (rez.toInt - 2))).take 1
  else if vmode = 0 then (strupr (ascii "FF " ++ formatX 2 (rez.toInt - 2))).take 5
  else (strupr (formatX 2 (vmode >>> 8).toInt ++ ascii " " ++
    formatX 2 (vmode &&& 0xff).toInt)).take 5

variable {rez vmode sysAes : Int16} {eoffset : Nat}

theorem deskData_length :
    (deskData rez vmode sysAes).length = (deskField vmode sysAes eoffset).width := by
  have one := formatX_length_ge 1 (rez.toInt - 2)
  have two := formatX_length_ge 2 (rez.toInt - 2)
  have high := formatX_length_ge 2 (vmode >>> 8).toInt
  have low := formatX_length_ge 2 (vmode &&& 0xff).toInt
  have marker : (ascii "FF ").length = 3 := rfl
  have blank : (ascii " ").length = 1 := rfl
  rw [deskData, deskField]
  split_ifs
  · simp only [strupr, List.length_take, List.length_map]
    omega
  · simp only [strupr, List.length_take, List.length_map, List.length_append]
    omega
  · simp only [strupr, List.length_take, List.length_map, List.length_append]
    omega

/-- The saver pokes the characters in where the field fits the line. -/
theorem deskPatch_eq (behindKey : 3 ≤ eoffset) (linesize : Nat) :
    deskPatch rez vmode sysAes eoffset linesize =
      let field := deskField vmode sysAes eoffset
      if field.column + field.width ≤ linesize then
        some (field.column, deskData rez vmode sysAes)
      else none := by
  by_cases digit : vmode = 0 ∧ sysAes ≠ systemEmutos
  · by_cases room : 8 ≤ linesize
    · simp [deskPatch, deskField, deskData, digit, room]
    · have noRoom : ¬eoffset + 5 ≤ linesize := by omega
      simp [deskPatch, deskField, digit, room, noRoom]
  · have noDigit : ¬(vmode = 0 ∧ sysAes ≠ systemEmutos ∧ 8 ≤ linesize) := fun all =>
      digit ⟨all.1, all.2.1⟩
    rw [deskPatch, if_neg noDigit, deskField, deskData, if_neg digit, if_neg digit]
    by_cases shifter : vmode = 0
    · have emutos : sysAes = systemEmutos := by
        by_contra other
        exact digit ⟨shifter, other⟩
      simp [shifter, emutos]
    · simp [shifter]

theorem strupr_append (left right : Bytes) : strupr (left ++ right) = strupr left ++ strupr right :=
  List.map_append

/-- A number below 16 is one digit; any other is not read back from one. -/
theorem digit_reads (number : Int) :
    (∃ read, hexNumber ((strupr (formatX 1 number)).take 1) = some read ∧ (read : Int) = number) ↔
      0 ≤ number ∧ number ≤ 15 := by
  constructor
  · intro reads
    rcases reads with ⟨read, digit, same⟩
    have size := formatX_length_ge 1 number
    cases text : strupr (formatX 1 number) with
    | nil =>
        have empty := congrArg List.length text
        simp only [strupr, List.length_map, List.length_nil] at empty
        omega
    | cons c rest =>
        rw [text, List.take_succ_cons, List.take_zero] at digit
        have bound := hexNumber_one_lt digit
        omega
  · intro bounds
    rcases Int.eq_ofNat_of_zero_le bounds.1 with ⟨read, rfl⟩
    rcases @formatX_one read (by omega) with ⟨c, text, digit⟩
    refine ⟨read, ?_, rfl⟩
    rw [text, List.take_succ_cons, List.take_zero]
    exact digit

/-- Behind the marker of EmuTOS, a number below 256 is two digits. -/
theorem marked_reads (number : Int) :
    ((strupr (ascii "FF " ++ formatX 2 number)).take 5).take 3 = ascii "FF " ∧
      ((∃ read, hexNumber (((strupr (ascii "FF " ++ formatX 2 number)).take 5).drop 3) =
          some read ∧ (read : Int) = number) ↔ 0 ≤ number ∧ number ≤ 255) := by
  have marker : strupr (ascii "FF ") = ascii "FF " := by decide
  have length : (ascii "FF ").length = 3 := rfl
  have whole : (ascii "FF ").take 5 = ascii "FF " := rfl
  have text : (strupr (ascii "FF " ++ formatX 2 number)).take 5 =
      ascii "FF " ++ (strupr (formatX 2 number)).take 2 := by
    rw [strupr_append, marker, List.take_append, whole, length]
  rw [text]
  refine ⟨List.take_left' length, ?_⟩
  rw [List.drop_left' length]
  constructor
  · intro reads
    rcases reads with ⟨read, two, same⟩
    have size := formatX_length_ge 2 number
    match text : strupr (formatX 2 number) with
    | [] | [_] =>
        have short_ := congrArg List.length text
        simp only [strupr, List.length_map, List.length_nil, List.length_cons] at short_
        omega
    | high :: low :: rest =>
        rw [text] at two
        have bound := hexNumber_two_lt two
        omega
  · intro bounds
    rcases Int.eq_ofNat_of_zero_le bounds.1 with ⟨read, rfl⟩
    rcases @formatX_two read (by omega) with ⟨high, low, text, two⟩
    refine ⟨read, ?_, rfl⟩
    rw [text]
    exact two

/-- The two bytes of a `vmode` are read back unless it is negative. -/
theorem vmode_reads (vmode : Int16) :
    (∃ high low,
      hexNumber (((strupr (formatX 2 (vmode >>> 8).toInt ++ ascii " " ++
        formatX 2 (vmode &&& 0xff).toInt)).take 5).take 2) = some high ∧
      ((strupr (formatX 2 (vmode >>> 8).toInt ++ ascii " " ++
        formatX 2 (vmode &&& 0xff).toInt)).take 5)[2]? = some 0x20 ∧
      hexNumber (((strupr (formatX 2 (vmode >>> 8).toInt ++ ascii " " ++
        formatX 2 (vmode &&& 0xff).toInt)).take 5).drop 3) = some low ∧
      256 * high + low = vmode.toBitVec.toNat) ↔ 0 ≤ vmode.toInt := by
  rcases vmode_bytes vmode with ⟨highByte, lowByte⟩
  have lower := Int16.le_toInt vmode
  have upper := Int16.toInt_lt vmode
  rw [highByte, lowByte, List.append_assoc]
  constructor
  · intro reads
    rcases reads with ⟨_, _, _, blank, _, _⟩
    by_contra negative
    have third := @formatX_negative (vmode.toInt / 256) (by omega) (by omega)
    have size := (List.getElem?_eq_some_iff.mp third).1
    rw [List.getElem?_take_of_lt (by decide), strupr_append, List.getElem?_append_left size,
      third] at blank
    exact absurd (Option.some.inj blank) (by decide)
  · intro positive
    have value : vmode.toInt = vmode.toBitVec.toNat := by
      have small := vmode.toBitVec.isLt
      rw [← Int16.toInt_toBitVec, BitVec.toInt_eq_toNat_cond] at positive ⊢
      split_ifs at positive ⊢
      · rfl
      · omega
    have highNat : vmode.toInt / 256 = ((vmode.toBitVec.toNat / 256 : Nat) : Int) := by omega
    rcases @formatX_two (vmode.toBitVec.toNat / 256) (by omega) with ⟨a, b, highText, high⟩
    rcases @formatX_two (vmode.toBitVec.toNat % 256) (by omega) with ⟨c, d, lowText, low⟩
    have text : (strupr (formatX 2 (vmode.toInt / 256) ++ (ascii " " ++
        formatX 2 ((vmode.toBitVec.toNat % 256 : Nat) : Int)))).take 5 = [a, b, 0x20, c, d] := by
      rw [strupr_append, strupr_append, highNat, highText, lowText]
      rfl
    rw [text]
    exact ⟨_, _, high, rfl, low, by omega⟩

/-- What is poked in reads the mode back if and only if its numbers fit. -/
theorem deskData_reads :
    FieldReads rez vmode sysAes (deskData rez vmode sysAes) ↔ Printable rez vmode sysAes := by
  by_cases shifter : vmode = 0
  · subst shifter
    by_cases emutos : sysAes = systemEmutos
    · have marked := marked_reads (rez.toInt - 2)
      simp [FieldReads, deskData, Printable, emutos, marked]
    · have digit := digit_reads (rez.toInt - 2)
      simp [FieldReads, deskData, Printable, emutos, digit]
  · simp only [FieldReads, deskData, Printable, shifter, false_and, if_false, false_implies,
      and_true]
    exact vmode_reads vmode

end Chgres
