import Chgres.Libcmini.DoprntReads

/-! # What `doprnt` prints

`doprnt` reads the directives of a call back from its format and shows each in its field.
-/

namespace Chgres.Libcmini

open Text Numerals Printf

/-! ## Printing an argument -/

theorem figures_length_le {base number : Nat} (capital : Bool) (large : 1 < base)
    (small : number < 2 ^ 32) : (figures capital base number).length ≤ 32 := by
  rw [figures, List.length_map]
  exact numeral_length_le number large (by decide)
    (lt_of_lt_of_le small (Nat.pow_le_pow_left large 32))

/-- The letter that the cases of the unsigned numbers go by. -/
def radixFmt : Radix → Byte
  | .unsigned => 0x75
  | .octal => 0x6f
  | .capitalHex => 0x58
  | .hex | .pointer => 0x78

/-- The buffer holds the text of the number back to front. -/
theorem unsignedBuf_eq (d : Directive) (radix : Radix) {number : Nat} (small : number < 2 ^ 32) :
    (unsignedBuf (radixFmt radix) (decide (Flag.hash ∈ d.flags ∨ radix = .pointer)) number).reverse =
      d.prefixOf radix ++ figures (radix = .capitalHex) radix.base number := by
  have ten := @digitLoop_numbers 10 number (by decide) (by decide) small
  have eight := @digitLoop_numbers 8 number (by decide) (by decide) small
  have sixteen := @digitLoop_numbers 16 number (by decide) (by decide) small
  have capital := @digitLoop_capitalNumbers 16 number (by decide) (by decide) small
  by_cases hash : Flag.hash ∈ d.flags <;> cases radix <;>
    simp [unsignedBuf, radixFmt, Directive.prefixOf, Radix.base, hash, ten, eight, sixteen, capital]

theorem unsignedText_length (d : Directive) (radix : Radix) {number : Nat}
    (small : number < 2 ^ 32) :
    (d.prefixOf radix ++ figures (radix = .capitalHex) radix.base number).length ≤ 34 := by
  have few := @figures_length_le radix.base number (radix = .capitalHex)
    (by cases radix <;> decide) small
  have short : (d.prefixOf radix).length ≤ 2 := by
    by_cases hash : Flag.hash ∈ d.flags <;> cases radix <;> simp [Directive.prefixOf, hash]
  rw [List.length_append]
  omega

section Printing

variable {d : Directive} {m : Modifiers} (modified : Modified d m) (room : d.places < 2 ^ 31)

include modified room

/-- What is left of the width is filled up, if anything is. -/
theorem padding_eq {used : Nat} (fits : used < 2 ^ 31) (c : Byte) :
    padding (m.fieldWidth - .ofNat used) c = List.replicate (d.places - used) c := by
  have value : ((Int32.ofNat used).toInt : Int) = used := Int32.toInt_ofNat_of_lt fits
  have difference : (m.fieldWidth - .ofNat used).toInt = (d.places : Int) - used := by
    rw [Int32.toInt_sub, modified.fieldWidth, value, Int.bmod_eq_of_le (by omega) (by omega)]
  rw [padding, difference]
  congr 1
  omega

theorem fill_eq {used : Nat} (fits : used < 2 ^ 31) (text : Bytes) :
    (if m.flushLeft then text ++ padding (m.fieldWidth - .ofNat used) 0x20
      else padding (m.fieldWidth - .ofNat used) m.pad ++ text) = d.fill used text := by
  rw [padding_eq modified room fits, padding_eq modified room fits, modified.flushLeft,
    modified.pad, Directive.fill]
  by_cases left : d.Left <;> simp [left]

theorem printUnsigned_eq (radix : Radix) {number : Nat} (small : number < 2 ^ 32) :
    printUnsigned (radixFmt radix)
        { m with hash := decide (Flag.hash ∈ d.flags ∨ radix = .pointer) } number =
      (let text := d.prefixOf radix ++ figures (radix = .capitalHex) radix.base number
      d.fill text.length text) := by
  have isText := unsignedBuf_eq d radix small
  have short := unsignedText_length d radix small
  have length := congrArg List.length isText
  rw [List.length_reverse] at length
  have filled := @fill_eq _ _ modified room
    (d.prefixOf radix ++ figures (radix = .capitalHex) radix.base number).length (by omega)
    (d.prefixOf radix ++ figures (radix = .capitalHex) radix.base number)
  unfold printUnsigned
  simp only [isText, length]
  exact filled

omit room in
/-- Zeros stand in front of a number where the buffer is left without its sign. -/
theorem signed_iff : (m.flushLeft = true ∨ m.pad ≠ 0x30) ↔ ¬d.Zeros := by
  rw [modified.flushLeft, modified.pad, Directive.Zeros]
  by_cases left : d.Left <;> by_cases zero : Flag.zero ∈ d.flags <;> simp [left, zero]

omit room in
theorem signedBuf_eq (value : Int32) :
    (signedBuf m value).reverse =
      (if d.Zeros then [] else if value < 0 then [0x2d] else lastSign d.flags) ++
        figures false 10 value.toInt.natAbs := by
  have least := value.le_toInt
  have greatest := value.toInt_lt
  have digits := @digitLoop_numbers 10 value.toInt.natAbs (by decide) (by decide) (by omega)
  rw [signedBuf, modified.sign]
  simp only [signed_iff modified]
  by_cases zeros : d.Zeros
  · simp [zeros, digits]
  · by_cases negative : value < 0
    · simp [zeros, negative, digits]
    · by_cases none : m.spaceOrSign = 0 <;> simp [zeros, negative, none, digits]

theorem printSigned_eq (value : Int32) :
    printSigned m value =
      (let digits := figures false 10 value.toInt.natAbs
      let minus := if value < 0 then [0x2d] else []
      let sign := if value < 0 then [0x2d] else lastSign d.flags
      if d.Zeros then
        minus ++ (List.replicate (d.places - (minus.length + digits.length)) 0x30 ++ digits)
      else d.fill (sign ++ digits).length (sign ++ digits)) := by
  have least := value.le_toInt
  have greatest := value.toInt_lt
  have few := @figures_length_le 10 value.toInt.natAbs false (by decide) (by omega)
  have isText := signedBuf_eq modified value
  have length := congrArg List.length isText
  rw [List.length_reverse] at length
  have sided := signed_iff modified
  unfold printSigned
  simp only [isText, length]
  by_cases zeros : d.Zeros
  · have right : m.flushLeft = false := by
      rw [modified.flushLeft]
      simp [zeros.2]
    have pad : m.pad = 0x30 := by rw [modified.pad, if_pos zeros.1]
    simp only [if_pos zeros, List.nil_append, right, pad, Bool.false_eq_true, if_false, and_true]
    by_cases negative : value < 0
    · have one : m.fieldWidth - .ofNat (figures false 10 value.toInt.natAbs).length - 1 =
          m.fieldWidth - .ofNat (1 + (figures false 10 value.toInt.natAbs).length) := by
        rw [Nat.add_comm, Int32.ofNat_add]
        grind
      rw [if_pos negative, if_pos negative, one, padding_eq modified room (by omega)]
      rfl
    · rw [if_neg negative, if_neg negative, padding_eq modified room (by omega)]
      simp
  · have blank : ¬(value < 0 ∧ m.pad = 0x30 ∧ m.flushLeft = false) := by
      rintro ⟨-, pad, right⟩
      rcases sided.mpr zeros with left | notPad
      · exact absurd left (by simp [right])
      · exact notPad pad
    have short : ((if value < 0 then [0x2d] else lastSign d.flags) ++
        figures false 10 value.toInt.natAbs).length < 2 ^ 31 := by
      have one : (lastSign d.flags).length ≤ 1 := by
        rw [modified.sign]
        split <;> simp
      rw [List.length_append]
      split
      case isTrue =>
        rw [List.length_singleton]
        omega
      case isFalse => omega
    have filled := fill_eq modified room short
      ((if value < 0 then [0x2d] else lastSign d.flags) ++ figures false 10 value.toInt.natAbs)
    simp only [if_neg zeros]
    rw [← filled]
    by_cases left : m.flushLeft
    · rw [if_pos left, if_pos left]
    · have right : m.flushLeft = false := Bool.eq_false_iff.mpr left
      have notZeros : ¬(value < 0 ∧ m.pad = 0x30) := fun both => blank ⟨both.1, both.2, right⟩
      rw [if_neg left, if_neg left, if_neg notZeros]

theorem printChar_eq (value : Int32) :
    printChar m value = d.fill (if value = 0 then 0 else 1) [value.toUInt32.toUInt8] := by
  have taken : (if value ≠ 0 then m.fieldWidth - 1 else m.fieldWidth) =
      m.fieldWidth - .ofNat (if value = 0 then 0 else 1) := by
    by_cases isNul : value = 0
    · simp [isNul]
    · simp [isNul]
  have small : (if value = 0 then 0 else 1) < 2 ^ 31 := by split <;> decide
  have filled := fill_eq modified room small [value.toUInt32.toUInt8]
  rw [← filled, printChar, taken]
  rfl

theorem printString_eq (string : Option Bytes)
    (short : (string.getD (ascii "(nil)")).length < 2 ^ 31)
    (precision : ∀ count, d.precision = .fixed count → count < 2 ^ 31) :
    printString m string =
      (let chars := string.getD (ascii "(nil)")
      d.fill chars.length (d.cut chars)) := by
  have shown : (if m.precision = -1 then string.getD (ascii "(nil)")
      else (string.getD (ascii "(nil)")).take m.precision.toInt.toNat) =
      d.cut (string.getD (ascii "(nil)")) := by
    rw [modified.precision, Directive.cut]
    cases isPrecision : d.precision with
    | omitted => rfl
    | empty => rfl
    | argument count => rfl
    | fixed count =>
        have value : ((Int32.ofNat count).toInt : Int) = count :=
          Int32.toInt_ofNat_of_lt (precision count isPrecision)
        have limited : Int32.ofNat count ≠ -1 := by
          intro unlimited
          rw [unlimited] at value
          have : ((-1 : Int32).toInt : Int) = -1 := by decide
          omega
        simp [kept, limited, value]
  have filled := fill_eq modified room short (d.cut (string.getD (ascii "(nil)")))
  unfold printString
  simp only [shown]
  exact filled

omit room in
/-- A pointer is printed as with a hash. -/
theorem hashed (radix : Radix) :
    (if radix = .pointer then { m with hash := true } else m) =
      { m with hash := decide (Flag.hash ∈ d.flags ∨ radix = .pointer) } := by
  by_cases pointer : radix = .pointer
  · simp [pointer]
  · simp [pointer, ← modified.hash]

end Printing

/-! ## The letter -/

/-- The small letters of a conversion, as the `switch` goes by them. -/
def fmts : Item → List Byte
  | .decimal _ => [0x69, 0x64]
  | .bits .unsigned _ => [0x75]
  | .bits .octal _ => [0x6f]
  | .bits .hex _ => [0x78]
  | .bits .capitalHex _ => [0x58]
  | .bits .pointer _ => [0x70]
  | .character _ => [0x63]
  | .string _ => [0x53, 0x73]
  | .percent => [0x25]

theorem lowerFmt_mem (item : Item) : ∀ c ∈ item.letters, lowerFmt c ∈ fmts item := by
  rcases item with _ | ⟨radix, _⟩ | _ | _ | _
  case bits => cases radix <;> simp only [Item.letters, fmts] <;> decide +kernel
  all_goals
    simp only [Item.letters, fmts]
    decide +kernel

theorem convert_bits (radix : Radix) (value : Int32) (m : Modifiers) (ap : List Arg) :
    ∀ fmt ∈ fmts (.bits radix value), convert fmt m (.word value :: ap) =
      .done (printUnsigned (radixFmt radix)
        (if radix = .pointer then { m with hash := true } else m) value.toUInt32.toNat, ap) := by
  intro fmt member
  cases radix <;> rw [List.mem_singleton.mp member] <;> rfl

theorem convert_eq {d : Directive} {m : Modifiers} (modified : Modified d m) (fits : d.Fits)
    (ap : List Arg) :
    convert (lowerFmt d.letter) m (d.item.arguments ++ ap) = .done (d.shown, ap) := by
  have room := fits.places
  have fmt := lowerFmt_mem d.item d.letter d.named
  cases isItem : d.item with
  | decimal value =>
      have printed := printSigned_eq modified room value
      rw [isItem] at fmt
      rw [Directive.shown, isItem]
      have isFmt : lowerFmt d.letter = 0x69 ∨ lowerFmt d.letter = 0x64 := by
        simpa [fmts] using fmt
      rcases isFmt with isFmt | isFmt
      · rw [isFmt]
        exact congrArg (fun text => Outcome.done (text, ap)) printed
      · rw [isFmt]
        exact congrArg (fun text => Outcome.done (text, ap)) printed
  | bits radix value =>
      have printed := printUnsigned_eq modified room radix value.toUInt32.toNat_lt
      rw [isItem] at fmt
      rw [Directive.shown, isItem, Item.arguments, List.singleton_append,
        convert_bits radix value m ap _ fmt, hashed modified radix, printed]
  | character value =>
      have printed := printChar_eq modified room value
      rw [isItem] at fmt
      have isFmt : lowerFmt d.letter = 0x63 := by simpa [fmts] using fmt
      rw [Directive.shown, isItem, isFmt]
      exact congrArg (fun text => Outcome.done (text, ap)) printed
  | string text =>
      have short : (text.getD (ascii "(nil)")).length < 2 ^ 31 := by
        cases text with
        | none => decide
        | some chars => exact (fits.string chars isItem).2
      have printed := printString_eq modified room text short fits.precision
      rw [isItem] at fmt
      have isFmt : lowerFmt d.letter = 0x53 ∨ lowerFmt d.letter = 0x73 := by
        simpa [fmts] using fmt
      rw [Directive.shown, isItem]
      rcases isFmt with isFmt | isFmt
      · rw [isFmt]
        exact congrArg (fun text => Outcome.done (text, ap)) printed
      · rw [isFmt]
        exact congrArg (fun text => Outcome.done (text, ap)) printed
  | percent =>
      rw [isItem] at fmt
      have isFmt : lowerFmt d.letter = 0x25 := by simpa [fmts] using fmt
      rw [Directive.shown, isItem, isFmt]
      rfl

theorem printDirective_eq {d : Directive} (fits : d.Fits) (rest : Bytes) (ap : List Arg) :
    printDirective (d.source.tail ++ rest) (d.arguments ++ ap) = .done (d.shown, rest, ap) := by
  rcases printDirective_reads fits rest ap with ⟨m, modified, reads⟩
  rw [reads, convert_eq modified fits]
  rfl

/-! ## The call -/

/-- A call of any pieces prints them one after the other. -/
theorem doprntLoop_eq : ∀ {call : List Piece} (fuel : Nat), (∀ piece ∈ call, piece.Fits) →
    (source call).length < fuel →
    doprntLoop fuel (source call) (arguments call) = .done (call.flatMap Piece.shown)
  | [], fuel + 1, _, _ => rfl
  | piece :: call, fuel + 1, fits, enough => by
      have rest := fun fuel => @doprntLoop_eq call fuel
        (fun other member => fits other (List.mem_cons_of_mem _ member))
      have own := fits piece List.mem_cons_self
      have isSource : source (piece :: call) = piece.source ++ source call := rfl
      have isArguments : arguments (piece :: call) = piece.arguments ++ arguments call := rfl
      rw [isSource, List.length_append] at enough
      rw [isSource, isArguments, List.flatMap_cons]
      cases piece with
      | char c =>
          rw [Piece.source, List.length_singleton] at enough
          have printed := rest fuel (by omega)
          simp only [Piece.source, Piece.arguments, Piece.shown, List.singleton_append,
            List.nil_append, doprntLoop, own.2, ne_eq, not_false_eq_true, if_true, printed,
            Outcome.done_bind]
      | directive d =>
          have cons : d.source = 0x25 :: d.source.tail := rfl
          rw [Piece.source, cons, List.length_cons] at enough
          have printed := rest fuel (by omega)
          have text := printDirective_eq own (source call) (arguments call)
          simp only [Piece.source, Piece.arguments, Piece.shown]
          rw [cons, List.cons_append]
          simp only [doprntLoop, ne_eq, not_true_eq_false, if_false, text, printed,
            Outcome.done_bind]

theorem decimal_fits {width : Nat} (small : width < 2 ^ 31) (value : Int32) :
    (Piece.decimal width value).Fits where
  places := small
  precision _ isFixed := by cases isFixed
  string _ isString := by cases isString

theorem sprintf_shown {call : List Piece} (fits : ∀ piece ∈ call, piece.Fits) :
    sprintf (source call) (arguments call) = .done (call.flatMap Piece.shown ++ [0]) := by
  have printed := doprntLoop_eq ((source call).length + 1) fits (Nat.lt_succ_self _)
  rw [sprintf, doprnt, printed]
  rfl

/-- `sprintf` reads its format and its arguments back as the pieces they were made of, comes
to an end, and prints the pieces one after the other; where all of them are portable the
text is the one that the standard asks for. -/
theorem sprintf_prints (call : List Piece) (fits : ∀ piece ∈ call, piece.Fits) :
    sprintf (source call) (arguments call) = .done (call.flatMap Piece.shown ++ [0]) ∧
      ((∀ piece ∈ call, piece.Portable) →
        sprintf (source call) (arguments call) = .done (call.flatMap Piece.meaning ++ [0])) := by
  have text := sprintf_shown fits
  refine ⟨text, ?_⟩
  intro portable
  have same : call.flatMap Piece.shown = call.flatMap Piece.meaning := by
    apply List.flatMap_congr
    intro piece member
    cases piece with
    | char c => rfl
    | directive d => exact Directive.shown_eq_meaning (portable _ member)
  rw [text, same]

/-- `sprintf(str, "%4dx%-*.2s:%lX", 640, 6, "TC", 0x4000L)` -/
def sampleCall : List Piece :=
  [.directive ⟨[], .fixed 4, .omitted, .plain, .decimal 640, 0x64, by decide⟩, .char 0x78,
    .directive ⟨[.minus], .argument 6, .fixed 2, .plain, .string (some (ascii "TC")), 0x73,
      by decide⟩, .char 0x3a,
    .directive ⟨[], .fixed 0, .omitted, .long, .bits .capitalHex 0x4000, 0x58, by decide⟩]

theorem sampleCall_fits : ∀ piece ∈ sampleCall, piece.Fits := by
  simp only [sampleCall, List.forall_mem_cons, List.not_mem_nil, false_imp_iff, implies_true,
    and_true]
  refine ⟨⟨by decide, ?_, ?_⟩, ⟨by decide, by decide⟩, ⟨by decide, ?_, ?_⟩,
    ⟨by decide, by decide⟩, by decide, ?_, ?_⟩
  · rintro _ ⟨⟩
  · rintro _ ⟨⟩
  · rintro _ ⟨⟩
    decide
  · rintro _ ⟨⟩
    decide
  · rintro _ ⟨⟩
  · rintro _ ⟨⟩

theorem sampleCall_portable : ∀ piece ∈ sampleCall, piece.Portable := by
  simp only [sampleCall, List.forall_mem_cons, List.not_mem_nil, false_imp_iff, implies_true,
    and_true]
  refine ⟨⟨⟨by decide, by decide, by decide⟩, rfl, by decide, fun _ _ => by decide⟩, trivial,
    ⟨⟨by decide, rfl, by decide, by decide⟩, ?_, ascii "TC", rfl, ?_⟩, trivial,
    ⟨by decide, by decide, by decide, by decide⟩, rfl, by decide⟩
  · rintro _ ⟨⟩
  · rintro _ ⟨⟩
    decide

theorem sprintf_prints_sample :
    (∀ piece ∈ sampleCall, piece.Fits) ∧ (∀ piece ∈ sampleCall, piece.Portable) ∧
      sprintf (source sampleCall) (arguments sampleCall) =
        .done (sampleCall.flatMap Piece.meaning ++ [0]) :=
  ⟨sampleCall_fits, sampleCall_portable,
    (sprintf_prints sampleCall sampleCall_fits).2 sampleCall_portable⟩

end Chgres.Libcmini
