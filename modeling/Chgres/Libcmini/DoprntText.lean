import Chgres.Foundation.Printf

/-! # The text of a directive

What `doprnt` makes of a directive is what the standard asks for, except where the two are
at odds: signs in front of zeros, precisions of numbers, and prefixes.
-/

namespace Chgres.Printf

open Text Numerals

/-! ## What is printed -/

/-- The last sign that is asked for. -/
def lastSign (flags : List Flag) : Bytes :=
  match flags.reverse.find? fun flag => flag = .plus ∨ flag = .space with
  | some flag => [flag.char]
  | none => []

namespace Directive

variable (d : Directive)

/-- A text in a field in which `used` places are taken to be its own. -/
def fill (used : Nat) (text : Bytes) : Bytes :=
  if d.Left then text ++ List.replicate (d.places - used) 0x20
  else List.replicate (d.places - used) (if Flag.zero ∈ d.flags then 0x30 else 0x20) ++ text

def prefixOf (radix : Radix) : Bytes :=
  match radix with
  | .unsigned => []
  | .octal => if Flag.hash ∈ d.flags then [0x30] else []
  | .hex | .capitalHex => if Flag.hash ∈ d.flags then [0x30, 0x78] else []
  | .pointer => [0x30, 0x78]

/-- What the precision leaves of a string. Only -1 stands for none. -/
def cut (chars : Bytes) : Bytes :=
  match d.precision with
  | .omitted | .empty => chars
  | .fixed count => chars.take count
  | .argument count => if count = -1 then chars else chars.take count.toInt.toNat

/-- The text of a directive, as `doprnt` prints it. -/
def shown : Bytes :=
  match d.item with
  | .decimal value =>
      let digits := figures false 10 value.toInt.natAbs
      let minus := if value < 0 then [0x2d] else []
      let sign := if value < 0 then [0x2d] else lastSign d.flags
      if d.Zeros then
        minus ++ (List.replicate (d.places - (minus.length + digits.length)) 0x30 ++ digits)
      else d.fill (sign ++ digits).length (sign ++ digits)
  | .bits radix value =>
      let text := d.prefixOf radix ++
        figures (radix = .capitalHex) radix.base value.toUInt32.toNat
      d.fill text.length text
  | .character value => d.fill (if value = 0 then 0 else 1) [value.toUInt32.toUInt8]
  | .string text =>
      let chars := text.getD (ascii "(nil)")
      d.fill chars.length (d.cut chars)
  | .percent => [0x25]

/-- Where `doprnt` prints what the standard asks for. Precisions of numbers are not looked
at, a sign in front of zeros is lost, a prefix goes behind them, is never a capital one and
is not left out for zero, and the field of a string is filled up for all of it. -/
def Portable : Prop :=
  d.Standard ∧
    match d.item with
    | .decimal value => d.limit = none ∧ ¬(Flag.plus ∈ d.flags ∧ Flag.space ∈ d.flags) ∧
        (d.Zeros → 0 ≤ value → Flag.plus ∉ d.flags ∧ Flag.space ∉ d.flags)
    | .bits radix value => d.limit = none ∧
        (Flag.hash ∈ d.flags → ¬d.Zeros ∧ value ≠ 0 ∧ radix ≠ .capitalHex)
    | .character value => value ≠ 0
    | .string text => (∀ count, d.precision = .argument count → -1 ≤ count) ∧
        ∃ chars, text = some chars ∧ ∀ count, d.limit = some count → chars.length ≤ count
    | .percent => True

/-- The numbers of a directive fit in an `int`, and a string has no NUL. -/
structure Fits : Prop where
  places : d.places < 2 ^ 31
  precision : ∀ count, d.precision = .fixed count → count < 2 ^ 31
  string : ∀ chars, d.item = .string (some chars) → 0 ∉ chars ∧ chars.length < 2 ^ 31

end Directive

def Piece.shown : Piece → Bytes
  | char c => [c]
  | directive d => d.shown

def Piece.Portable : Piece → Prop
  | char _ => True
  | directive d => d.Portable

def Piece.Fits : Piece → Prop
  | char c => c ≠ 0 ∧ c ≠ 0x25
  | directive d => d.Fits

/-! ## The standard -/

namespace Directive

variable {d : Directive}

theorem fill_blank (notZeros : ¬d.Zeros) (text : Bytes) :
    d.fill text.length text = d.blankField text := by
  rw [fill, blankField]
  by_cases left : d.Left
  · simp [left]
  · have noZero : Flag.zero ∉ d.flags := fun zero => notZeros ⟨zero, left⟩
    simp [left, noZero]

theorem precise_none (unlimited : d.limit = none) (digits : Bytes) (number : Nat) :
    d.precise digits number = digits := by
  rw [precise, unlimited]

/-- The last sign is the only one. -/
theorem lastSign_eq (once : ¬(Flag.plus ∈ d.flags ∧ Flag.space ∈ d.flags)) :
    lastSign d.flags = d.sign false := by
  rw [sign, lastSign]
  cases found : d.flags.reverse.find? fun flag => flag = .plus ∨ flag = .space with
  | none =>
      rw [List.find?_eq_none] at found
      have noPlus : Flag.plus ∉ d.flags := by
        intro plus
        exact found _ (List.mem_reverse.mpr plus) (by decide)
      have noSpace : Flag.space ∉ d.flags := by
        intro space
        exact found _ (List.mem_reverse.mpr space) (by decide)
      simp [noPlus, noSpace]
  | some flag =>
      have member := List.mem_reverse.mp (List.mem_of_find?_eq_some found)
      have isSign : flag = .plus ∨ flag = .space := by simpa using List.find?_some found
      rcases isSign with rfl | rfl
      · simp [member, Flag.char]
      · have noPlus : Flag.plus ∉ d.flags := fun plus => once ⟨plus, member⟩
        simp [member, noPlus, Flag.char]

theorem figures_head {base number : Nat} (large : 1 < base) (few : base ≤ 16)
    (positive : number ≠ 0) (capital : Bool) :
    (figures capital base number).head? ≠ some 0x30 := by
  rcases List.exists_cons_of_ne_nil (@numeral_ne_nil base number) with ⟨digit, row, isRow⟩
  have small := numeral_lt number large digit (by rw [isRow]; exact List.mem_cons_self)
  have first := @numeral_head_ne_zero base number positive
  rw [isRow, List.head?_cons] at first
  have nonzero : digit ≠ 0 := fun isZero => first (congrArg some isZero)
  have shows : ∀ digit < 16, digit ≠ 0 → ∀ capital, figure capital digit ≠ 0x30 := by decide
  rw [figures, isRow, List.map_cons, List.head?_cons]
  intro isZero
  exact shows digit (by omega) nonzero capital (Option.some.inj isZero)

/-- A portable directive shows what the standard asks for. -/
theorem shown_eq_meaning (portable : d.Portable) : d.shown = d.meaning := by
  rw [Portable, Standard] at portable
  rw [shown, meaning]
  cases isItem : d.item with
  | decimal value =>
      rw [isItem] at portable
      rcases portable with ⟨_, unlimited, once, zeroed⟩
      simp only [precise_none unlimited, numberField, unlimited, and_true]
      by_cases zeros : d.Zeros
      · rw [if_pos zeros, if_pos zeros]
        by_cases negative : value < 0
        · simp [negative, sign]
        · rcases zeroed zeros (Int32.not_lt.mp negative) with ⟨noPlus, noSpace⟩
          simp [negative, sign, noPlus, noSpace]
      · rw [if_neg zeros, if_neg zeros, fill_blank zeros]
        by_cases negative : value < 0
        · simp [negative, sign]
        · simp only [negative, if_false, lastSign_eq once, decide_false]
  | bits radix value =>
      rw [isItem] at portable
      rcases portable with ⟨⟨_, _, notPointer, _⟩, unlimited, alternate⟩
      simp only [precise_none unlimited, numberField, unlimited, and_true]
      by_cases hash : Flag.hash ∈ d.flags
      · rcases alternate hash with ⟨notZeros, nonzero, notCapital⟩
        have positive : value.toUInt32.toNat ≠ 0 := by
          intro isZero
          have isNull : value.toUInt32 = 0 := UInt32.toNat_inj.mp isZero
          have same := congrArg UInt32.toInt32 isNull
          rw [Int32.toInt32_toUInt32] at same
          exact nonzero same
        have octal := @figures_head 8 value.toUInt32.toNat (by decide) (by decide) positive false
        rw [if_neg notZeros, fill_blank notZeros]
        cases radix <;>
          simp_all [base, prefixOf, Radix.base]
      · have noPrefix : d.prefixOf radix = [] := by
          cases radix <;> simp_all [prefixOf]
        have noBase : ∀ digits, d.base radix value.toUInt32.toNat digits = [] := by
          intro digits
          unfold base
          rw [if_neg hash]
        rw [noPrefix, noBase, List.nil_append]
        by_cases zeros : d.Zeros
        · rw [if_pos zeros, fill, if_neg zeros.2, if_pos zeros.1]
          simp
        · rw [if_neg zeros, fill_blank zeros]
  | character value =>
      rw [isItem] at portable
      rcases portable with ⟨⟨_, _, _, _, noZero⟩, nonzero⟩
      simp only [if_neg nonzero]
      exact fill_blank (fun zeros => noZero zeros.1) _
  | string text =>
      rw [isItem] at portable
      rcases portable with ⟨⟨_, _, _, noZero⟩, least, chars, rfl, long⟩
      have notZeros : ¬d.Zeros := fun zeros => noZero zeros.1
      have whole : ∀ count, chars.length ≤ count → chars.take count = chars :=
        fun count enough => List.take_of_length_le enough
      simp only [Option.getD_some]
      rw [← fill_blank notZeros]
      rw [cut]
      rw [limit] at long ⊢
      cases isPrecision : d.precision with
      | omitted => rfl
      | empty =>
          rw [isPrecision] at long
          simp [whole 0 (long 0 rfl)]
      | fixed count =>
          rw [isPrecision] at long
          simp only [whole count (long count rfl)]
      | argument count =>
          rw [isPrecision] at long
          have atLeast : -1 ≤ count.toInt := Int32.le_iff_toInt_le.mp (least count isPrecision)
          by_cases unlimited : count = -1
          · simp [unlimited]
          · have notLeast : count.toInt ≠ -1 := fun isLeast => unlimited (Int32.toInt_inj.mp isLeast)
            have nonneg : ¬count < 0 := by
              intro negative
              have below : count.toInt < 0 := Int32.lt_iff_toInt_lt.mp negative
              omega
            simp only [if_neg nonneg] at long ⊢
            simp only [if_neg unlimited, whole _ (long _ rfl)]
  | percent => rfl

end Directive

end Chgres.Printf
