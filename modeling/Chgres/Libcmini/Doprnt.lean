import Chgres.Format
import Chgres.Foundation.Outcome
import Chgres.Foundation.Printf
import Chgres.Utils.CString

/-! # `doprnt`

The formatted printing of the C library, behind `sprintf`. An `int` and a `long` have 32
bits. A format is read up to its NUL, and a call that reads behind it, or an argument that
is not there, runs wild. Numbers with a fraction are left out.
-/

namespace Chgres.Libcmini

open Text Printf

/-- What `doprnt` keeps of a directive until its letter. -/
structure Modifiers where
  pad : Byte := 0x20
  flushLeft : Bool := false
  fieldWidth : Int32 := 0
  precision : Int32 := -1
  hash : Bool := false
  spaceOrSign : Byte := 0
  deriving DecidableEq

/-! ## Reading a directive -/

/-- The flag that a character stands for is noted. -/
def noteFlag (c : Byte) (m : Modifiers) : Option Modifiers :=
  if c = 0x2d then some { m with flushLeft := true }
  else if c = 0x2b then some { m with spaceOrSign := 0x2b }
  else if c = 0x20 then some { m with spaceOrSign := 0x20 }
  else if c = 0x30 then some { m with pad := 0x30 }
  else if c = 0x23 then some { m with hash := true }
  else none

def readFlags : (f : Bytes) → Modifiers → Modifiers × Bytes
  | [], m => (m, [])
  | c :: f, m =>
      match noteFlag c m with
      | some m => readFlags f m
      | none => (m, c :: f)

/-- The digits are summed up in an `int`. -/
def readWidth (f : Bytes) (m : Modifiers) (ap : List Arg) :
    Outcome (Modifiers × Bytes × List Arg) :=
  if f.head? = some 0x2a then
    match ap with
    | .word fieldWidth :: ap =>
        if fieldWidth < 0 then
          .done ({ m with flushLeft := true, fieldWidth := -fieldWidth }, f.tail, ap)
        else .done ({ m with fieldWidth := fieldWidth }, f.tail, ap)
    | _ => .wild
  else .done ({ m with fieldWidth := .ofNat (decimal f) }, f.dropWhile isDigit, ap)

def readPrecision (f : Bytes) (m : Modifiers) (ap : List Arg) :
    Outcome (Modifiers × Bytes × List Arg) :=
  if f.head? = some 0x2e then
    if f.tail.head? = some 0x2a then
      match ap with
      | .word precision :: ap => .done ({ m with precision := precision }, f.tail.tail, ap)
      | _ => .wild
    else if f.tail.head?.any isDigit then
      .done ({ m with precision := atoi f.tail }, f.tail.dropWhile isDigit, ap)
    else .done (m, f.tail, ap)
  else .done (m, f, ap)

/-- A `long` is as wide as an `int`. -/
def skipLong (f : Bytes) : Bytes :=
  if f.head? = some 0x6c then
    if f.tail.head? = some 0x6c then f.tail.tail else f.tail
  else f

/-- Capitals are made small, but for some. -/
def lowerFmt (fmt : Byte) : Byte :=
  if fmt ≠ 0x53 ∧ fmt ≠ 0x51 ∧ fmt ≠ 0x58 ∧ fmt ≠ 0x45 ∧ fmt ≠ 0x47 ∧ 0x41 ≤ fmt ∧ fmt ≤ 0x5a then
    fmt ||| 0x20
  else fmt

/-! ## Printing an argument -/

/-- `while (count-- > 0)` -/
def padding (count : Int32) (c : Byte) : Bytes := List.replicate count.toInt.toNat c

def capitalNumbers : Bytes := ascii "0123456789ABCDEF"

/-- The cases `i` and `d`: the digits and the sign behind them. In any base an `unsigned long`
has no more than 32 digits. A sign that goes in front of zeros is left out. -/
def signedBuf (m : Modifiers) (longval : Int32) : Bytes :=
  let buf := digitLoop numbers 10 32 longval.toInt.natAbs
  if m.flushLeft ∨ m.pad ≠ 0x30 then
    if longval < 0 then buf ++ [0x2d]
    else if m.spaceOrSign ≠ 0 then buf ++ [m.spaceOrSign]
    else buf
  else buf

/-- The buffer is copied back in reverse. In front of zeros a minus goes out on its own. -/
def printSigned (m : Modifiers) (longval : Int32) : Bytes :=
  let buf := signedBuf m longval
  let fieldWidth := m.fieldWidth - .ofNat buf.length
  if m.flushLeft then buf.reverse ++ padding fieldWidth 0x20
  else if longval < 0 ∧ m.pad = 0x30 then 0x2d :: (padding (fieldWidth - 1) m.pad ++ buf.reverse)
  else padding fieldWidth m.pad ++ buf.reverse

/-- The cases `o`, `x`, `X` and `u`: the digits and the prefix behind them. -/
def unsignedBuf (fmt : Byte) (hash : Bool) (ulongval : Nat) : Bytes :=
  let base := if fmt = 0x6f then 8 else if fmt = 0x58 ∨ fmt = 0x78 then 16 else 10
  let buf := digitLoop (if fmt = 0x58 then capitalNumbers else numbers) base 32 ulongval
  if hash then
    if fmt = 0x58 ∨ fmt = 0x78 then buf ++ [0x78, 0x30]
    else if fmt = 0x6f then buf ++ [0x30]
    else buf
  else buf

def printUnsigned (fmt : Byte) (m : Modifiers) (ulongval : Nat) : Bytes :=
  let buf := unsignedBuf fmt m.hash ulongval
  let i := m.fieldWidth - .ofNat buf.length
  if m.flushLeft then buf.reverse ++ padding i 0x20 else padding i m.pad ++ buf.reverse

/-- The case `c`: a NUL takes no place of the field. -/
def printChar (m : Modifiers) (ch : Int32) : Bytes :=
  let fieldWidth := if ch ≠ 0 then m.fieldWidth - 1 else m.fieldWidth
  if m.flushLeft then ch.toUInt32.toUInt8 :: padding fieldWidth 0x20
  else padding fieldWidth m.pad ++ [ch.toUInt32.toUInt8]

/-- The cases `S` and `s`: the whole string takes up the field, whatever the precision
leaves of it. -/
def printString (m : Modifiers) (string : Option Bytes) : Bytes :=
  let bufptr := string.getD (ascii "(nil)")
  let fieldWidth := m.fieldWidth - .ofNat bufptr.length
  let shown := if m.precision = -1 then bufptr else bufptr.take m.precision.toInt.toNat
  if m.flushLeft then shown ++ padding fieldWidth 0x20 else padding fieldWidth m.pad ++ shown

/-- The `switch` over the letter. -/
def convert (fmt : Byte) (m : Modifiers) (ap : List Arg) : Outcome (Bytes × List Arg) :=
  if fmt = 0x69 ∨ fmt = 0x64 then
    match ap with
    | .word longval :: ap => .done (printSigned m longval, ap)
    | _ => .wild
  else if fmt = 0x66 ∨ fmt = 0x65 ∨ fmt = 0x45 ∨ fmt = 0x67 ∨ fmt = 0x47 then .wild
  else if fmt = 0x70 then
    match ap with
    | .word ulongval :: ap =>
        .done (printUnsigned 0x78 { m with hash := true } ulongval.toUInt32.toNat, ap)
    | _ => .wild
  else if fmt = 0x6f ∨ fmt = 0x78 ∨ fmt = 0x58 ∨ fmt = 0x75 then
    match ap with
    | .word ulongval :: ap => .done (printUnsigned fmt m ulongval.toUInt32.toNat, ap)
    | _ => .wild
  else if fmt = 0x63 then
    match ap with
    | .word ch :: ap => .done (printChar m ch, ap)
    | _ => .wild
  else if fmt = 0x53 ∨ fmt = 0x73 then
    match ap with
    | .text string :: ap => .done (printString m string, ap)
    | _ => .wild
  else if fmt = 0x25 then .done ([0x25], ap)
  else .done ([], ap)

/-! ## The format -/

/-- What a directive prints, the rest of the format and the rest of the arguments. -/
def printDirective (f : Bytes) (ap : List Arg) : Outcome (Bytes × Bytes × List Arg) :=
  let flags := readFlags f {}
  (readWidth flags.2 flags.1 ap).bind fun (m, f, ap) =>
    (readPrecision f m ap).bind fun (m, f, ap) =>
      match skipLong f with
      | [] => .wild
      | fmt :: f => (convert (lowerFmt fmt) m ap).bind fun (text, ap) => .done (text, f, ap)

/-- Every round takes at least one character of the format. -/
def doprntLoop : (fuel : Nat) → (f : Bytes) → (ap : List Arg) → Outcome Bytes
  | 0, _, _ => .wild
  | _ + 1, [], _ => .done []
  | fuel + 1, c :: f, ap =>
      if c ≠ 0x25 then (doprntLoop fuel f ap).bind fun out => .done (c :: out)
      else
        (printDirective f ap).bind fun (text, f, ap) =>
          (doprntLoop fuel f ap).bind fun out => .done (text ++ out)

/-- `doprnt`, given the format without its NUL: the characters that `addchar` gets. -/
def doprnt (sfmt : Bytes) (ap : List Arg) : Outcome Bytes := doprntLoop (sfmt.length + 1) sfmt ap

/-- What `sprintf` writes to `str`. It returns the number of characters before the NUL. -/
def sprintf (format : Bytes) (va : List Arg) : Outcome Bytes :=
  (doprnt format va).bind fun out => .done (out ++ [0])

/-- A plus is lost in front of zeros, and a small hexadecimal prefix goes with capitals. -/
example : doprnt (ascii "[%+05d|%-5d|%#X]") [.word 42, .word (-42), .word 255] =
    .done (ascii "[00042|-42  |0xFF]") := by decide +kernel

end Chgres.Libcmini
