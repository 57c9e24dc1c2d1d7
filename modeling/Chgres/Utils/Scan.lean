import Chgres.Foundation.Lines
import Chgres.Foundation.Outcome

/-! # Scanning a loaded file

`skip_white`, `find_str`, `next_line`, `find_line` and `remove_line`. A pointer
into the loaded file is the memory from there on: the rest of the file and,
behind it, whatever the heap holds. The functions are told the number of bytes
that belong to the file and may look past them.
-/

namespace Chgres

open Text

/-- `skip_white` skips these bytes. -/
def isBlank (c : Byte) : Bool := c = 0x20 || c = 0x09

/-- A comment starts with one of these bytes. -/
def isComment (c : Byte) : Bool := c = 0x3b || c = 0x2a

def skipWhite (s : Bytes) : Bytes := s.dropWhile isBlank

/-- The comparing loop of `find_str`. A C string ends at its NUL. -/
def agrees : (p str : Bytes) → Bool
  | _, [] => true
  | [], _ :: _ => false
  | c :: p, d :: str => c ≠ 0 && c = d && agrees p str

def findStr (line str : Bytes) : Option Bytes :=
  let start := skipWhite line
  if agrees start str then some start else none

/-- The loop of `next_line`: the number of bytes taken and how much `*valid`
grows. -/
def nextLineLoop : (maxlen : Nat) → (p : Bytes) → (comment : Bool) → Nat × Nat
  | 0, _, _ => (0, 0)
  | maxlen + 1, p, comment =>
      let c := p.headD 0
      if c = cr then
        -- the byte after the CR is read whether or not it belongs to the file
        if p.tail.headD 0 = lf then (2, 0) else (1, 0)
      else if c = lf then (1, 0)
      else
        let comment := comment || isComment c
        let (length, valid) := nextLineLoop maxlen p.tail comment
        (length + 1, if comment then valid else valid + 1)

/-- `next_line`: the length of the line and `*valid`. -/
def nextLine (s : Bytes) (maxlen : Nat) : Nat × Nat := nextLineLoop maxlen s false

/-- What `find_line` returns: its result as an offset from the start of the
buffer, `*remain` and `*linesize`. -/
structure Found where
  offset : Nat
  remain : Int
  linesize : Nat
  deriving DecidableEq, Repr

/-- The loop of `find_line`. Each line takes at least one byte, so the size is
fuel enough. -/
def findLineLoop (str : Bytes) : (fuel : Nat) → (p : Bytes) → (offset : Nat) →
    (size : Int) → Found
  | fuel, p, offset, size =>
      let (lsize, valid) := nextLine p size.toNat
      let size := size - lsize
      let linebuf := p.take (min valid 511)
      if (findStr linebuf str).isSome then ⟨offset, size, lsize⟩
      else if 0 < size ∧ 0 < lsize then
        match fuel with
        | 0 => ⟨offset + lsize, size, lsize⟩
        | fuel + 1 => findLineLoop str fuel (p.drop lsize) (offset + lsize) size
      else ⟨offset + lsize, size, lsize⟩

def findLine (p str : Bytes) (size : Nat) : Found := findLineLoop str size p 0 size

/-- The heap has an LF where the file ends in a lone CR: the line reaches one
byte too far, and what remains is counted as -1. -/
example : findLine (ascii "x\r" ++ [lf]) (ascii "k") 2 = ⟨3, -1, 3⟩ := by decide

/-- What `remove_line` leaves when it removes a line: the memory, `*newsize`
and its result as an offset. -/
structure Removed where
  memory : Bytes
  newsize : Nat
  offset : Nat
  deriving DecidableEq, Repr

def removeLine (p str : Bytes) (size : Nat) : Outcome (Option Removed) :=
  let fl := findLine p str size
  if fl.remain = 0 then .done none
  else if fl.remain < 0 then
    -- `memmove` of `(size_t)-1` bytes
    .wild
  else
    let nl := fl.offset + fl.linesize
    let remain := fl.remain.toNat
    .done (some {
      memory := p.take fl.offset ++ (p.drop nl).take remain ++ p.drop (fl.offset + remain)
      newsize := size - fl.linesize
      offset := fl.offset })

end Chgres
