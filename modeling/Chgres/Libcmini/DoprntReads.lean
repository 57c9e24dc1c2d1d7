import Chgres.Libcmini.Doprnt
import Chgres.Libcmini.DoprntText

/-! # How `doprnt` reads a directive

The flags, the width, the precision and the letter are read back from the format as the
directive has them, and the arguments of the width and the precision are taken with them.
-/

namespace Chgres.Libcmini

open Text Numerals Printf

/-! ## Digits -/

theorem isDigit_figure {n : Nat} (small : n < 10) : isDigit (figure false n) = true := by
  interval_cases n <;> decide

theorem figure_value {n : Nat} (small : n < 10) : (figure false n).toNat - 0x30 = n := by
  interval_cases n <;> decide

theorem numbers_getD {n : Nat} (small : n < 16) : numbers.getD n 0 = figure false n := by
  interval_cases n <;> decide

theorem capitalNumbers_getD {n : Nat} (small : n < 16) :
    capitalNumbers.getD n 0 = figure true n := by
  interval_cases n <;> decide

theorem isDigit_figures (number : Nat) : ∀ c ∈ figures false 10 number, isDigit c = true := by
  intro c member
  rcases List.mem_map.mp member with ⟨digit, isDigit, rfl⟩
  exact isDigit_figure (numeral_lt number (by decide) digit isDigit)

/-- A text that does not go on with a digit. -/
def Stops (rest : Bytes) : Prop := ∀ c ∈ rest.head?, isDigit c = false

theorem takeWhile_figures (number : Nat) {rest : Bytes} (stops : Stops rest) :
    (figures false 10 number ++ rest).takeWhile isDigit = figures false 10 number := by
  rw [List.takeWhile_append_of_pos (isDigit_figures number)]
  cases rest with
  | nil => simp
  | cons c rest => simp [stops c rfl]

theorem dropWhile_figures (number : Nat) {rest : Bytes} (stops : Stops rest) :
    (figures false 10 number ++ rest).dropWhile isDigit = rest := by
  rw [List.dropWhile_append_of_pos (isDigit_figures number)]
  cases rest with
  | nil => simp
  | cons c rest => simp [stops c rfl]

theorem reading_figures (row : List Nat) (small : ∀ digit ∈ row, digit < 10) :
    ∀ value, (row.map (figure false)).foldl
        (fun value c => value * 10 + (c.toNat - 0x30)) value =
      row.foldl (fun value digit => value * 10 + digit) value := by
  induction row with
  | nil => intro value; rfl
  | cons digit row induction =>
      intro value
      rw [List.map_cons, List.foldl_cons, List.foldl_cons, figure_value (small digit (by simp))]
      exact induction (fun digit member => small digit (List.mem_cons_of_mem _ member)) _

/-- The digits of a number are read back as that number. -/
theorem decimal_figures (number : Nat) {rest : Bytes} (stops : Stops rest) :
    decimal (figures false 10 number ++ rest) = number := by
  rw [decimal, takeWhile_figures number stops]
  refine (reading_figures _ (numeral_lt number (by decide)) 0).trans ?_
  exact reading_numeral number

theorem figures_cons (number : Nat) :
    ∃ c more, figures false 10 number = c :: more ∧ isDigit c = true := by
  rcases List.exists_cons_of_ne_nil (figures_ne_nil false 10 number) with ⟨c, more, isHead⟩
  exact ⟨c, more, isHead, isDigit_figures number c (by rw [isHead]; exact List.mem_cons_self)⟩

theorem atoi_figures (number : Nat) {rest : Bytes} (stops : Stops rest) :
    atoi (figures false 10 number ++ rest) = .ofNat number := by
  rcases figures_cons number with ⟨c, more, isHead, digit⟩
  have value := decimal_figures number stops
  rw [atoi_of_digit (by rw [isHead, List.cons_append]) digit, value]

/-- The digit loop writes the numeral, last digit first. -/
theorem digitLoop_eq {table : Bytes} {glyph : Nat → Byte} {base : Nat} (large : 1 < base)
    (shows : ∀ n < base, table.getD n 0 = glyph n) :
    ∀ (fuel number : Nat), 0 < fuel → number < base ^ fuel →
      (digitLoop table base fuel number).reverse = (numeral base number).map glyph
  | fuel + 1, number, _, small => by
      have last := shows (number % base) (Nat.mod_lt _ (by omega))
      rw [digitLoop, last]
      split
      case isTrue more =>
        have least : base ≤ number := by
          by_contra less
          rw [Nat.div_eq_of_lt (by omega)] at more
          omega
        have room : 0 < fuel := by
          by_contra none
          rw [Nat.eq_zero_of_not_pos none, zero_add, pow_one] at small
          omega
        have rest : number / base < base ^ fuel := Nat.div_lt_of_lt_mul (by rwa [← pow_succ'])
        have induction := digitLoop_eq large shows fuel (number / base) room rest
        rw [List.reverse_cons, induction, numeral_of_le number large least, List.map_append,
          List.map_singleton]
      case isFalse done =>
        have less : number < base := by
          by_contra least
          exact done (Nat.div_pos (not_lt.mp least) (by omega))
        rw [numeral_of_lt number less, Nat.mod_eq_of_lt less]
        rfl

theorem digitLoop_numbers {base number : Nat} (large : 1 < base) (few : base ≤ 16)
    (small : number < 2 ^ 32) :
    (digitLoop numbers base 32 number).reverse = figures false base number :=
  digitLoop_eq large (fun _ less => numbers_getD (by omega)) 32 number (by decide)
    (lt_of_lt_of_le small (Nat.pow_le_pow_left large 32))

theorem digitLoop_capitalNumbers {base number : Nat} (large : 1 < base) (few : base ≤ 16)
    (small : number < 2 ^ 32) :
    (digitLoop capitalNumbers base 32 number).reverse = figures true base number :=
  digitLoop_eq large (fun _ less => capitalNumbers_getD (by omega)) 32 number (by decide)
    (lt_of_lt_of_le small (Nat.pow_le_pow_left large 32))

/-! ## Flags -/

/-- What a flag changes. -/
def note (m : Modifiers) : Flag → Modifiers
  | .minus => { m with flushLeft := true }
  | .plus => { m with spaceOrSign := 0x2b }
  | .space => { m with spaceOrSign := 0x20 }
  | .zero => { m with pad := 0x30 }
  | .hash => { m with hash := true }

theorem noteFlag_char (m : Modifiers) (flag : Flag) : noteFlag flag.char m = some (note m flag) := by
  cases flag <;> rfl

/-- Not the character of a flag. -/
def NoFlag (c : Byte) : Prop := c ≠ 0x2d ∧ c ≠ 0x2b ∧ c ≠ 0x20 ∧ c ≠ 0x30 ∧ c ≠ 0x23

instance (c : Byte) : Decidable (NoFlag c) := by
  unfold NoFlag
  infer_instance

theorem noteFlag_none {c : Byte} (noFlag : NoFlag c) (m : Modifiers) : noteFlag c m = none := by
  rcases noFlag with ⟨minus, plus, space, zero, hash⟩
  simp [noteFlag, minus, plus, space, zero, hash]

theorem readFlags_eq {c : Byte} (noFlag : NoFlag c) (rest : Bytes) :
    ∀ (flags : List Flag) (m : Modifiers),
      readFlags (flags.map Flag.char ++ c :: rest) m = (flags.foldl note m, c :: rest)
  | [], m => by simp [readFlags, noteFlag_none noFlag]
  | flag :: flags, m => by
      have induction := readFlags_eq noFlag rest flags (note m flag)
      simp only [List.map_cons, List.cons_append, readFlags, noteFlag_char, List.foldl_cons,
        induction]

/-- The flags of a directive, whatever their order. -/
structure Noted (flags : List Flag) (m : Modifiers) : Prop where
  flushLeft : m.flushLeft = decide (Flag.minus ∈ flags)
  pad : m.pad = if Flag.zero ∈ flags then 0x30 else 0x20
  hash : m.hash = decide (Flag.hash ∈ flags)
  sign : lastSign flags = if m.spaceOrSign = 0 then [] else [m.spaceOrSign]
  fieldWidth : m.fieldWidth = 0
  precision : m.precision = -1

theorem Noted.note {flags : List Flag} {m : Modifiers} (noted : Noted flags m) (flag : Flag) :
    Noted (flags ++ [flag]) (Libcmini.note m flag) := by
  rcases noted with ⟨flushLeft, pad, hash, sign, fieldWidth, precision⟩
  cases flag <;> constructor <;>
    simp_all [Libcmini.note, lastSign, Flag.char]

theorem noted (flags : List Flag) : Noted flags (flags.foldl note {}) := by
  induction flags using List.reverseRecOn with
  | nil => constructor <;> rfl
  | append_singleton flags flag induction =>
      rw [List.foldl_append]
      exact induction.note flag

/-! ## Reading a directive back -/

/-- The precision as an `int`. -/
def kept : Precision → Int32
  | .omitted | .empty => -1
  | .fixed count => .ofNat count
  | .argument count => count

/-- What `doprnt` knows of a directive when it has come to the letter. -/
structure Modified (d : Directive) (m : Modifiers) : Prop where
  flushLeft : m.flushLeft = decide d.Left
  pad : m.pad = if Flag.zero ∈ d.flags then 0x30 else 0x20
  hash : m.hash = decide (Flag.hash ∈ d.flags)
  sign : lastSign d.flags = if m.spaceOrSign = 0 then [] else [m.spaceOrSign]
  fieldWidth : m.fieldWidth.toInt = d.places
  precision : m.precision = kept d.precision

section Reading

variable {d : Directive} (fits : d.Fits) (rest : Bytes) (ap : List Arg)

/-- The letter of a conversion is not taken for anything else. -/
theorem letter_plain (item : Item) : ∀ c ∈ item.letters,
    NoFlag c ∧ isDigit c = false ∧ c ≠ 0x2a ∧ c ≠ 0x2e ∧ c ≠ 0x6c := by
  rcases item with _ | ⟨radix, _⟩ | _ | _ | _
  case bits => cases radix <;> simp only [Item.letters] <;> decide +kernel
  all_goals
    simp only [Item.letters]
    decide +kernel

/-- What follows the precision. -/
def ending (d : Directive) (rest : Bytes) : Bytes :=
  d.length.source ++ d.letter :: rest

theorem skipLong_ending (d : Directive) (rest : Bytes) :
    skipLong (ending d rest) = d.letter :: rest := by
  have plain := (letter_plain d.item d.letter d.named).2.2.2.2
  rw [ending]
  cases d.length <;> simp [skipLong, Length.source, plain]

theorem ending_head (d : Directive) (rest : Bytes) : ∃ c more, ending d rest = c :: more ∧
    NoFlag c ∧ isDigit c = false ∧ c ≠ 0x2a ∧ c ≠ 0x2e := by
  rcases letter_plain d.item d.letter d.named with ⟨noFlag, noDigit, noStar, noDot, -⟩
  rw [ending]
  cases d.length with
  | plain => exact ⟨_, _, rfl, noFlag, noDigit, noStar, noDot⟩
  | long => exact ⟨_, _, rfl, by decide, by decide, by decide, by decide⟩
  | longLong => exact ⟨_, _, rfl, by decide, by decide, by decide, by decide⟩

/-- What follows the width. -/
def measure (d : Directive) (rest : Bytes) : Bytes := d.precision.source ++ ending d rest

theorem measure_head (d : Directive) (rest : Bytes) : ∃ c more, measure d rest = c :: more ∧
    NoFlag c ∧ isDigit c = false ∧ c ≠ 0x2a := by
  rcases ending_head d rest with ⟨c, more, isHead, noFlag, noDigit, noStar, -⟩
  rw [measure]
  cases d.precision with
  | omitted => exact ⟨c, more, isHead, noFlag, noDigit, noStar⟩
  | empty => exact ⟨_, _, rfl, by decide, by decide, by decide⟩
  | fixed count => exact ⟨_, _, rfl, by decide, by decide, by decide⟩
  | argument count => exact ⟨_, _, rfl, by decide, by decide, by decide⟩

theorem stops_of_head {text : Bytes} {c : Byte} {more : Bytes} (isHead : text = c :: more)
    (noDigit : isDigit c = false) : Stops text := by
  intro head member
  rw [isHead, List.head?_cons, Option.mem_some_iff] at member
  rwa [← member]

include fits in
/-- The field is as wide as the directive says, from its digits or from an argument. -/
theorem readWidth_eq {m : Modifiers} (noted : Noted d.flags m) :
    ∃ m', readWidth (d.width.source ++ measure d rest) m (d.width.arguments ++ ap) =
        .done (m', measure d rest, ap) ∧
      m'.flushLeft = decide d.Left ∧ m'.fieldWidth.toInt = d.places ∧
      m' = { m with flushLeft := m'.flushLeft, fieldWidth := m'.fieldWidth } := by
  rcases measure_head d rest with ⟨c, more, isHead, -, noDigit, noStar⟩
  have stops := stops_of_head isHead noDigit
  have room := fits.places
  cases isWidth : d.width with
  | fixed places =>
      have isPlaces : d.places = places := by rw [Directive.places, isWidth]
      have left : m.flushLeft = decide d.Left := by
        rw [noted.flushLeft, decide_eq_decide, Directive.Left, isWidth, or_false]
      rw [isPlaces] at room ⊢
      have value : ((Int32.ofNat places).toInt : Int) = places := Int32.toInt_ofNat_of_lt room
      by_cases none : places = 0
      · refine ⟨{ m with fieldWidth := .ofNat places }, ?_, left, value, rfl⟩
        rw [none]
        simp [readWidth, Width.source, Width.arguments, isHead, noStar, decimal, noDigit]
      · refine ⟨{ m with fieldWidth := .ofNat places }, ?_, left, value, rfl⟩
        have digits : (literal places ++ measure d rest).head? ≠ some 0x2a := by
          intro isStar
          rw [literal, List.head?_append_of_ne_nil _ (figures_ne_nil _ _ _)] at isStar
          have digit := isDigit_figures places _ (List.mem_of_mem_head? isStar)
          exact absurd digit (by decide)
        unfold readWidth
        rw [Width.source, if_neg none, if_neg digits, literal, decimal_figures places stops,
          dropWhile_figures places stops]
        rfl
  | argument places =>
      have isPlaces : d.places = places.toInt.natAbs := by rw [Directive.places, isWidth]
      have left : d.Left ↔ Flag.minus ∈ d.flags ∨ places < 0 := by
        rw [Directive.Left, isWidth]
      rw [isPlaces] at room
      by_cases negative : places < 0
      · refine ⟨{ m with flushLeft := true, fieldWidth := -places }, ?_, ?_, ?_, rfl⟩
        · simp [readWidth, Width.source, Width.arguments, negative]
        · simp [left, negative]
        · have least := places.le_toInt
          have below : places.toInt < 0 := Int32.lt_iff_toInt_lt.mp negative
          rw [isPlaces, Int32.toInt_neg, Int.bmod_eq_of_le (by omega) (by omega)]
          omega
      · refine ⟨{ m with fieldWidth := places }, ?_, ?_, ?_, rfl⟩
        · simp [readWidth, Width.source, Width.arguments, negative]
        · simp [left, negative, noted.flushLeft]
        · have nonneg : 0 ≤ places.toInt := by
            by_contra below
            exact negative (Int32.lt_iff_toInt_lt.mpr (not_le.mp below))
          change places.toInt = _
          omega

theorem readPrecision_eq (m : Modifiers) (unlimited : m.precision = -1) :
    readPrecision (measure d rest) m (d.precision.arguments ++ ap) =
      .done ({ m with precision := kept d.precision }, ending d rest, ap) := by
  rcases ending_head d rest with ⟨c, more, isHead, -, noDigit, noStar, noDot⟩
  have stops := stops_of_head isHead noDigit
  have same : { m with precision := -1 } = m := by
    rw [← unlimited]
  rw [measure]
  cases d.precision with
  | omitted =>
      simp [readPrecision, Precision.source, Precision.arguments, kept, isHead, noDot, same]
  | empty =>
      simp [readPrecision, Precision.source, Precision.arguments, kept, isHead, noStar, noDigit,
        same]
  | fixed count =>
      rcases figures_cons count with ⟨digit, digits, isLiteral, isDigit⟩
      have text : literal count ++ ending d rest = digit :: (digits ++ ending d rest) := by
        rw [literal, isLiteral, List.cons_append]
      have notStar : digit ≠ 0x2a := by
        rintro rfl
        exact absurd isDigit (by decide)
      have value := atoi_figures count stops
      have skipped := dropWhile_figures count stops
      rw [← literal, text] at value skipped
      simp [readPrecision, Precision.source, Precision.arguments, kept, text, notStar, isDigit,
        value, skipped]
  | argument count => simp [readPrecision, Precision.source, Precision.arguments, kept]

/-- The width does not go on with a flag. -/
theorem width_head (d : Directive) (rest : Bytes) :
    ∃ c more, d.width.source ++ measure d rest = c :: more ∧ NoFlag c := by
  rcases measure_head d rest with ⟨c, more, isHead, noFlag, -⟩
  cases d.width with
  | argument places => exact ⟨_, _, rfl, by decide⟩
  | fixed places =>
      rw [Width.source]
      split
      case isTrue => exact ⟨c, more, isHead, noFlag⟩
      case isFalse positive =>
        rcases List.exists_cons_of_ne_nil (@numeral_ne_nil 10 places) with
          ⟨digit, row, isRow⟩
        have small : digit < 10 :=
          numeral_lt places (by decide) digit (by rw [isRow]; exact List.mem_cons_self)
        have nonzero : digit ≠ 0 := by
          have first := @numeral_head_ne_zero 10 places positive
          rw [isRow, List.head?_cons] at first
          exact fun isZero => first (congrArg some isZero)
        refine ⟨figure false digit, _, by rw [literal, figures, isRow]; rfl, ?_⟩
        interval_cases digit
        · exact absurd rfl nonzero
        all_goals decide

include fits in
/-- A directive is read up to its letter. -/
theorem printDirective_reads : ∃ m, Modified d m ∧
    printDirective (d.source.tail ++ rest) (d.arguments ++ ap) =
      (convert (lowerFmt d.letter) m (d.item.arguments ++ ap)).bind fun (text, ap) =>
        .done (text, rest, ap) := by
  have isSource : d.source.tail ++ rest =
      d.flags.map Flag.char ++ (d.width.source ++ measure d rest) := by
    simp [Directive.source, measure, ending]
  have isArguments : d.arguments ++ ap =
      d.width.arguments ++ (d.precision.arguments ++ (d.item.arguments ++ ap)) := by
    simp [Directive.arguments]
  have known := noted d.flags
  rcases width_head d rest with ⟨c, more, isHead, noFlag⟩
  have flags := readFlags_eq noFlag more d.flags {}
  rw [← isHead] at flags
  rcases readWidth_eq fits rest (d.precision.arguments ++ (d.item.arguments ++ ap)) known with
    ⟨m, width, left, places, only⟩
  have unlimited : m.precision = -1 := by
    rw [only]
    exact known.precision
  have precision := @readPrecision_eq d rest (d.item.arguments ++ ap) m unlimited
  refine ⟨{ m with precision := kept d.precision }, ⟨left, ?_, ?_, ?_, places, rfl⟩, ?_⟩
  · rw [only]
    exact known.pad
  · rw [only]
    exact known.hash
  · rw [only]
    exact known.sign
  · unfold printDirective
    rw [isSource, isArguments]
    simp only [flags, width, precision, Outcome.done_bind, skipLong_ending]

end Reading

end Chgres.Libcmini
