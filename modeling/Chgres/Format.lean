import Chgres.Foundation.Lines

/-! # The formats of `sprintf`

Numbers as `doprnt` prints them: the digits come out last one first and are
copied back in reverse.
-/

namespace Chgres

open Text

def numbers : Bytes := ascii "0123456789abcdef"

/-- The digit loop, last digit first. There is fuel for that many digits. -/
def digitLoop (numbers : Bytes) (base : Nat) : (fuel : Nat) → (ulongval : Nat) → Bytes
  | 0, _ => []
  | fuel + 1, ulongval =>
      numbers.getD (ulongval % base) 0 ::
        if 0 < ulongval / base then digitLoop numbers base fuel (ulongval / base) else []

/-- An `unsigned long` has at most ten digits in the bases that are used. -/
def digits (base ulongval : Nat) : Bytes := (digitLoop numbers base 10 ulongval).reverse

/-- `%d` -/
def formatD (value : Int) : Bytes :=
  if value < 0 then 0x2d :: digits 10 value.natAbs else digits 10 value.natAbs

/-- `%0<width>x`: an `int` is printed as the `unsigned int` with its bits. -/
def formatX (width : Nat) (value : Int) : Bytes :=
  let text := digits 16 (value % 2 ^ 32).toNat
  List.replicate (width - text.length) 0x30 ++ text

example : formatD (-120) = ascii "-120" := by decide

/-- A negative number takes eight hexadecimal digits whatever the width. -/
example : (formatX 4 0x12, formatX 2 (-1)) = (ascii "0012", ascii "ffffffff") := by decide

/-- `strupr` on the lower-case letters of a text. -/
def toUpper (c : Byte) : Byte := if 0x61 ≤ c ∧ c ≤ 0x7a then c - 0x20 else c

def strupr (text : Bytes) : Bytes := text.map toUpper

/-! ## What a printed number is made of -/

/-- A byte of a printed number. -/
def IsNumeric (c : Byte) : Prop :=
  c = 0x2d ∨ (0x30 ≤ c ∧ c ≤ 0x39) ∨ (0x61 ≤ c ∧ c ≤ 0x66)

instance (c : Byte) : Decidable (IsNumeric c) := by
  rw [IsNumeric]
  infer_instance

theorem numbers_numeric {n : Nat} (small : n < 16) : IsNumeric (numbers.getD n 0) := by
  interval_cases n <;> decide

theorem digitLoop_numeric {base : Nat} (positive : 0 < base) (small : base ≤ 16) :
    ∀ (fuel ulongval : Nat), ∀ c ∈ digitLoop numbers base fuel ulongval, IsNumeric c
  | 0, _ => by simp [digitLoop]
  | fuel + 1, ulongval => by
      intro c member
      simp only [digitLoop, List.mem_cons] at member
      rcases member with rfl | member
      · have bound := Nat.mod_lt ulongval positive
        exact numbers_numeric (by omega)
      · split_ifs at member
        · exact digitLoop_numeric positive small fuel _ c member
        · simp at member

theorem digits_numeric {base : Nat} (positive : 0 < base) (small : base ≤ 16)
    (ulongval : Nat) : ∀ c ∈ digits base ulongval, IsNumeric c := by
  intro c member
  exact digitLoop_numeric positive small 10 ulongval c (List.mem_reverse.mp member)

theorem formatD_numeric (value : Int) : ∀ c ∈ formatD value, IsNumeric c := by
  intro c member
  rw [formatD] at member
  split_ifs at member
  · rcases List.mem_cons.mp member with rfl | member
    · exact .inl rfl
    · exact digits_numeric (by decide) (by decide) _ c member
  · exact digits_numeric (by decide) (by decide) _ c member

theorem formatX_numeric (width : Nat) (value : Int) :
    ∀ c ∈ formatX width value, IsNumeric c := by
  intro c member
  rw [formatX] at member
  rcases List.mem_append.mp member with padding | digit
  · rw [List.eq_of_mem_replicate padding]
    decide
  · exact digits_numeric (by decide) (by decide) _ c digit

theorem plain_of_numeric {text : Bytes} (numeric : ∀ c ∈ text, IsNumeric c) :
    Plain text := by
  intro c member
  constructor
  · intro isCr
    exact absurd (numeric c member) (by rw [isCr]; decide)
  · intro isLf
    exact absurd (numeric c member) (by rw [isLf]; decide)

theorem formatD_plain (value : Int) : Plain (formatD value) :=
  plain_of_numeric (formatD_numeric value)

theorem formatX_plain (width : Nat) (value : Int) : Plain (formatX width value) :=
  plain_of_numeric (formatX_numeric width value)

/-! ## How long a printed number is -/

section Loop

variable {table : Bytes} {base : Nat}

/-- A number below `base ^ count` has no more than `count` digits. -/
theorem digitLoop_length_le (positive : 0 < base) : ∀ (fuel : Nat) {count ulongval : Nat},
    ulongval < base ^ (count + 1) → (digitLoop table base fuel ulongval).length ≤ count + 1
  | 0, _, _, _ => by simp [digitLoop]
  | fuel + 1, 0, ulongval, small => by
      have noMore : ¬0 < ulongval / base := by
        rw [zero_add, pow_one] at small
        rw [Nat.div_eq_of_lt small]
        omega
      simp [digitLoop, noMore]
  | fuel + 1, count + 1, ulongval, small => by
      have rest : ulongval / base < base ^ (count + 1) :=
        Nat.div_lt_of_lt_mul (by rwa [← pow_succ'])
      have induction := digitLoop_length_le positive fuel rest
      rw [digitLoop]
      split_ifs
      · simpa using induction
      · simp

/-- A number from `base ^ count` on has more than `count` digits. -/
theorem lt_digitLoop_length (positive : 0 < base) : ∀ {fuel count ulongval : Nat},
    count < fuel → base ^ count ≤ ulongval →
    count < (digitLoop table base fuel ulongval).length
  | fuel + 1, 0, ulongval, _, _ => by simp [digitLoop]
  | fuel + 1, count + 1, ulongval, enough, large => by
      have rest : base ^ count ≤ ulongval / base :=
        (Nat.le_div_iff_mul_le positive).mpr (by rwa [← pow_succ])
      have more : 0 < ulongval / base := lt_of_lt_of_le (Nat.pow_pos positive) rest
      have induction : count < (digitLoop table base fuel (ulongval / base)).length :=
        lt_digitLoop_length positive (by omega) rest
      rw [digitLoop, if_pos more]
      simpa using induction

end Loop

theorem digits_length_le {base count ulongval : Nat} (positive : 0 < base) (some_ : 0 < count)
    (small : ulongval < base ^ count) : (digits base ulongval).length ≤ count := by
  rcases Nat.exists_eq_succ_of_ne_zero (Nat.ne_of_gt some_) with ⟨count, rfl⟩
  rw [digits, List.length_reverse]
  exact digitLoop_length_le positive 10 small

theorem lt_digits_length {base count ulongval : Nat} (positive : 0 < base) (few : count < 10)
    (large : base ^ count ≤ ulongval) : count < (digits base ulongval).length := by
  rw [digits, List.length_reverse]
  exact lt_digitLoop_length positive few large

/-- A `short`, or a `short` less two, takes no more than six characters. -/
theorem formatD_length_le {value : Int} (least : -32770 ≤ value) (greatest : value ≤ 32767) :
    (formatD value).length ≤ 6 := by
  have few : (digits 10 value.natAbs).length ≤ 5 :=
    digits_length_le (by decide) (by decide) (by omega)
  rw [formatD]
  split_ifs
  · simp only [List.length_cons]
    omega
  · omega

theorem formatD_short_length (value : Int16) : (formatD value.toInt).length ≤ 6 := by
  have least := value.le_toInt
  have greatest := value.toInt_lt
  exact formatD_length_le (by omega) (by omega)

theorem formatX_length (width : Nat) (value : Int) :
    (formatX width value).length = max width (digits 16 (value % 2 ^ 32).toNat).length := by
  simp only [formatX, List.length_append, List.length_replicate]
  omega

theorem formatX_length_bound (width : Nat) (value : Int) :
    (formatX width value).length ≤ max width 8 := by
  have few : (digits 16 (value % 2 ^ 32).toNat).length ≤ 8 :=
    digits_length_le (by decide) (by decide) (by omega)
  rw [formatX_length]
  omega

/-- A negative number takes eight hexadecimal digits. -/
theorem formatX_negative_length {value : Int} (least : -2 ^ 31 ≤ value) (negative : value < 0)
    (width : Nat) : 8 ≤ (formatX width value).length := by
  have large : 16 ^ 7 ≤ (value % 2 ^ 32).toNat := by omega
  have many := lt_digits_length (by decide) (by decide) large
  rw [formatX_length]
  omega

theorem formatX_length_le {value : Int} {width count : Nat} (nonneg : 0 ≤ value)
    (some_ : 0 < count) (small : value < 16 ^ count) (fits : count ≤ 7) :
    (formatX width value).length ≤ max width count := by
  have bound : 16 ^ count ≤ 16 ^ 7 := Nat.pow_le_pow_right (by decide) fits
  have same : value % 2 ^ 32 = value := Int.emod_eq_of_lt nonneg (by
    have : (16 ^ count : Int) ≤ 16 ^ 7 := by exact_mod_cast bound
    omega)
  have few : (digits 16 value.toNat).length ≤ count :=
    digits_length_le (by decide) some_ (by
      have : (value.toNat : Int) < (16 ^ count : Nat) := by
        rw [Int.toNat_of_nonneg nonneg]
        exact_mod_cast small
      exact_mod_cast this)
  rw [formatX_length, same]
  omega

end Chgres
