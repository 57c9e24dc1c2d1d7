import Chgres.Foundation.Lines
import Chgres.Foundation.Numerals

/-! # Formatted printing

A call of `printf` as data: the pieces of its format, each directive with the arguments
that belong to it. The format and the arguments that are passed are read off the pieces,
and so is the text that the C standard asks for. Nothing here says how a format is read.
-/

namespace Chgres.Printf

open Text Numerals

/-- A digit as it is written. -/
def figure (capital : Bool) (n : Nat) : Byte :=
  (if n < 10 then 0x30 + n else if capital then 0x37 + n else 0x57 + n).toUInt8

def figures (capital : Bool) (base number : Nat) : Bytes :=
  (numeral base number).map (figure capital)

theorem figures_ne_nil (capital : Bool) (base number : Nat) : figures capital base number ≠ [] := by
  simp [figures, numeral_ne_nil]

/-! ## Directives -/

inductive Flag where
  | minus
  | plus
  | space
  | zero
  | hash
  deriving DecidableEq, Repr

def Flag.char : Flag → Byte
  | minus => 0x2d
  | plus => 0x2b
  | space => 0x20
  | zero => 0x30
  | hash => 0x23

/-- A field of no width is written as nothing. -/
inductive Width where
  | fixed (places : Nat)
  | argument (places : Int32)
  deriving DecidableEq, Repr

inductive Precision where
  | omitted
  | empty
  | fixed (count : Nat)
  | argument (count : Int32)
  deriving DecidableEq, Repr

inductive Length where
  | plain
  | long
  | longLong
  deriving DecidableEq, Repr

inductive Radix where
  | unsigned
  | octal
  | hex
  | capitalHex
  | pointer
  deriving DecidableEq, Repr

def Radix.base : Radix → Nat
  | unsigned => 10
  | octal => 8
  | _ => 16

/-- What a directive shows. A string that is `none` is a NULL pointer. -/
inductive Item where
  | decimal (value : Int32)
  | bits (radix : Radix) (value : Int32)
  | character (value : Int32)
  | string (text : Option Bytes)
  | percent
  deriving DecidableEq, Repr

/-- The letters of a conversion. Capitals mark a `long` where they mean nothing else. -/
def Item.letters : Item → List Byte
  | decimal _ => [0x64, 0x69, 0x44, 0x49]
  | bits .unsigned _ => [0x75, 0x55]
  | bits .octal _ => [0x6f, 0x4f]
  | bits .hex _ => [0x78]
  | bits .capitalHex _ => [0x58]
  | bits .pointer _ => [0x70, 0x50]
  | character _ => [0x63, 0x43]
  | string _ => [0x73, 0x53]
  | percent => [0x25]

structure Directive where
  flags : List Flag
  width : Width
  precision : Precision
  length : Length
  item : Item
  letter : Byte
  named : letter ∈ item.letters
  deriving DecidableEq

inductive Piece where
  | char (c : Byte)
  | directive (directive : Directive)
  deriving DecidableEq

/-- A number in a field, with neither flags nor a precision. -/
def Piece.decimal (width : Nat) (value : Int32) : Piece :=
  .directive ⟨[], .fixed width, .omitted, .plain, .decimal value, 0x64, .head _⟩

/-! ## The call -/

/-- An argument as it is passed. -/
inductive Arg where
  | word (value : Int32)
  | text (string : Option Bytes)
  deriving DecidableEq, Repr

def literal (number : Nat) : Bytes := figures false 10 number

def Width.source : Width → Bytes
  | fixed places => if places = 0 then [] else literal places
  | argument _ => [0x2a]

def Precision.source : Precision → Bytes
  | omitted => []
  | empty => [0x2e]
  | fixed count => 0x2e :: literal count
  | argument _ => [0x2e, 0x2a]

def Length.source : Length → Bytes
  | plain => []
  | long => [0x6c]
  | longLong => [0x6c, 0x6c]

def Width.arguments : Width → List Arg
  | fixed _ => []
  | argument places => [.word places]

def Precision.arguments : Precision → List Arg
  | argument count => [.word count]
  | _ => []

def Item.arguments : Item → List Arg
  | decimal value | bits _ value | character value => [.word value]
  | string text => [.text text]
  | percent => []

def Directive.source (d : Directive) : Bytes :=
  0x25 :: (d.flags.map Flag.char ++ (d.width.source ++ (d.precision.source ++
    (d.length.source ++ [d.letter]))))

def Directive.arguments (d : Directive) : List Arg :=
  d.width.arguments ++ (d.precision.arguments ++ d.item.arguments)

def Piece.source : Piece → Bytes
  | char c => [c]
  | directive d => d.source

def Piece.arguments : Piece → List Arg
  | char _ => []
  | directive d => d.arguments

/-- The format of a call. -/
def source (call : List Piece) : Bytes := call.flatMap Piece.source

/-- What is passed behind the format. -/
def arguments (call : List Piece) : List Arg := call.flatMap Piece.arguments

/-! ## What the standard asks for -/

namespace Directive

variable (d : Directive)

/-- The text stands at the left end of its field. -/
def Left : Prop :=
  Flag.minus ∈ d.flags ∨ match d.width with
    | .fixed _ => False
    | .argument places => places < 0

instance : Decidable d.Left := by
  unfold Left
  cases d.width <;> infer_instance

def places : Nat :=
  match d.width with
  | .fixed places => places
  | .argument places => places.toInt.natAbs

/-- The precision, unless it is omitted. A negative argument counts as none. -/
def limit : Option Nat :=
  match d.precision with
  | .omitted => none
  | .empty => some 0
  | .fixed count => some count
  | .argument count => if count < 0 then none else some count.toInt.toNat

/-- Zeros stand in front of a number. -/
def Zeros : Prop := Flag.zero ∈ d.flags ∧ ¬d.Left

instance : Decidable d.Zeros := by
  unfold Zeros
  infer_instance

/-- A text that is filled up with blanks. -/
def blankField (text : Bytes) : Bytes :=
  let blanks := List.replicate (d.places - text.length) 0x20
  if d.Left then text ++ blanks else blanks ++ text

/-- The digits of a number, at least as many as the precision asks for. -/
def precise (digits : Bytes) (number : Nat) : Bytes :=
  match d.limit with
  | none => digits
  | some count =>
      if count = 0 ∧ number = 0 then [] else List.replicate (count - digits.length) 0x30 ++ digits

/-- A number behind its sign or prefix. A precision turns the zeros off. -/
def numberField (lead digits : Bytes) : Bytes :=
  if d.Zeros ∧ d.limit = none then
    lead ++ (List.replicate (d.places - (lead.length + digits.length)) 0x30 ++ digits)
  else d.blankField (lead ++ digits)

def sign (negative : Bool) : Bytes :=
  if negative then [0x2d]
  else if Flag.plus ∈ d.flags then [0x2b]
  else if Flag.space ∈ d.flags then [0x20]
  else []

/-- The prefix of the alternate form. An octal number is made to start with a zero. -/
def base (radix : Radix) (number : Nat) (digits : Bytes) : Bytes :=
  if Flag.hash ∈ d.flags then
    match radix with
    | .unsigned => []
    | .octal => if digits.head? = some 0x30 then [] else [0x30]
    | .hex => if number = 0 then [] else [0x30, 0x78]
    | .capitalHex => if number = 0 then [] else [0x30, 0x58]
    | .pointer => []
  else []

/-- The letters whose text the standard lays down. -/
def standardLetters : Bytes := ascii "diuoxXcs%"

/-- The standard says what the directive makes of its argument, where a word holds an `int`
and a `long`: the letter is one of its own, `ll` is not asked for, `l` only for numbers, and
no flag and no precision is given to a conversion that they are not for. -/
def Standard : Prop :=
  d.letter ∈ standardLetters ∧
    match d.item with
    | .decimal _ => d.length ≠ .longLong ∧ Flag.hash ∉ d.flags
    | .bits radix _ => d.length ≠ .longLong ∧ radix ≠ .pointer ∧
        (radix = .unsigned → Flag.hash ∉ d.flags)
    | .character _ => d.length = .plain ∧ d.precision = .omitted ∧ Flag.hash ∉ d.flags ∧
        Flag.zero ∉ d.flags
    | .string _ => d.length = .plain ∧ Flag.hash ∉ d.flags ∧ Flag.zero ∉ d.flags
    | .percent => d.length = .plain ∧ d.precision = .omitted ∧ d.width = .fixed 0 ∧ d.flags = []

/-- The text of a directive, where the standard lays it down. -/
def meaning : Bytes :=
  match d.item with
  | .decimal value =>
      d.numberField (d.sign (value < 0))
        (d.precise (figures false 10 value.toInt.natAbs) value.toInt.natAbs)
  | .bits radix value =>
      let number := value.toUInt32.toNat
      let digits := d.precise (figures (radix = .capitalHex) radix.base number) number
      d.numberField (d.base radix number digits) digits
  | .character value => d.blankField [value.toUInt32.toUInt8]
  | .string text =>
      let chars := text.getD []
      d.blankField (match d.limit with
        | none => chars
        | some count => chars.take count)
  | .percent => [0x25]

end Directive

def Piece.meaning : Piece → Bytes
  | char c => [c]
  | directive d => d.meaning

end Chgres.Printf
