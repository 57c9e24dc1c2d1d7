import Chgres.Format
import Chgres.Machine
import Chgres.Utils.CString
import Chgres.Utils.Stepping

/-! # The GDOS drivers

`read_assign_sys` enters the driver files of `assign.sys` into `gdos_drivers`, one row
for each id, and `get_gdos_driver` looks a driver file up.
-/

namespace Chgres

open Text Words

/-- A row of `gdos_drivers`. No more than 13 bytes of it are ever set. -/
structure GdosRow where
  bytes : Bytes
  size : bytes.length = 16
  ended : bytes[13]? = some 0

namespace GdosRow

def blank : GdosRow := ⟨List.replicate 16 0, rfl, rfl⟩

def name (row : GdosRow) : Bytes := cstring row.bytes

theorem strncpy_size (row : GdosRow) (src : Bytes) : (strncpy row.bytes src 13).length = 16 := by
  have bound : ((src ++ [0]).take 13).length ≤ 13 := List.length_take_le _ _
  have whole := row.size
  rw [strncpy, poke_length (by omega), whole]

theorem strncpy_ended (row : GdosRow) (src : Bytes) :
    (strncpy row.bytes src 13)[13]? = some 0 := by
  have bound : ((src ++ [0]).take 13).length ≤ 13 := List.length_take_le _ _
  have whole := row.size
  rw [strncpy, getElem?_poke (by omega), if_neg (by omega), row.ended]

/-- `strncpy(row, src, 13)` -/
def copy (row : GdosRow) (src : Bytes) : GdosRow where
  bytes := strncpy row.bytes src 13
  size := strncpy_size row src
  ended := strncpy_ended row src

@[simp] theorem blank_name : blank.name = [] := by decide

@[simp] theorem copy_name (row : GdosRow) {src : Bytes} (noNul : 0 ∉ src) :
    (row.copy src).name = src.take 13 :=
  cstring_strncpy noNul row.ended

end GdosRow

/-- `gdos_drivers` -/
abbrev GdosDrivers := Vector GdosRow 11

def noDrivers : GdosDrivers := .replicate 11 .blank

/-! ## `read_assign_sys` -/

def sysExtension : Bytes := ascii ".SYS"

/-- The backward scan for a character that no file name has: the offset behind it. -/
def nameStart (buf : Bytes) : (l : Nat) → Option Nat
  | 0 => none
  | l + 1 =>
      let c := buf.getD l 0
      if c < 0x30 ∨ 0x5a < c then some (l + 1) else nameStart buf l

/-- The id and the driver of a line that is held in `buf`. -/
def bufEntry (buf : Bytes) : Option (Int16 × Bytes) :=
  match strstr sysExtension buf with
  | none => none
  | some l => (nameStart buf l).map fun start => ((atoi buf).toInt16, buf.drop start)

/-- What a line puts into the table. -/
def enter (entry : Option (Int16 × Bytes)) (drivers : GdosDrivers) : GdosDrivers :=
  match entry with
  | none => drivers
  | some (id, driver) =>
      if inTable : 0 < id.toInt ∧ id.toInt < 11 then
        drivers.set id.toInt.toNat (drivers[id.toInt.toNat].copy driver)
      else drivers

/-- What `buf` holds of a line with so many valid bytes, in upper case. -/
def assignBuf (p : Bytes) (valid : Nat) : Bytes :=
  strupr (cstring (if valid < 512 then p.take valid else (p.take 512).take 511))

/-- The loop of `read_assign_sys`. Each line takes at least one byte, so the size is
fuel enough. -/
def readAssignLoop : (fuel : Nat) → (p : Bytes) → (size : Int) → GdosDrivers → GdosDrivers
  | fuel, p, size, drivers =>
      let (linesize, valid) := nextLine p size.toNat
      let size := size - linesize
      let drivers := enter (bufEntry (assignBuf p valid)) drivers
      if 0 < size ∧ 0 < linesize then
        match fuel with
        | 0 => drivers
        | fuel + 1 => readAssignLoop fuel (p.drop linesize) size drivers
      else drivers

def assignPath : Bytes := systemDrive ++ ascii "\\assign.sys"

def readAssignSys (machine : Machine) (disk : Disk) (drivers : GdosDrivers) : GdosDrivers :=
  match machine.gemdos.loadFile (disk assignPath) with
  | none => drivers
  | some assign => readAssignLoop assign.length (assign ++ machine.behind) assign.length drivers

/-! ## `get_gdos_driver` -/

/-- The memory that row `i` starts: behind the table, whatever is there. -/
def gdosRowName (drivers : GdosDrivers) (behind : Bytes) (i : Nat) : Bytes :=
  match drivers[i]? with
  | some row => row.name
  | none => cstring behind

structure GdosLookup where
  id : Int16
  /-- The rows that were read. -/
  read : List Nat
  deriving DecidableEq, Repr

/-- The loop of `get_gdos_driver`, for `count` rows from `i` on. -/
def gdosLoop (drivers : GdosDrivers) (behind name : Bytes) : (count i : Nat) → GdosLookup
  | 0, _ => ⟨0, []⟩
  | count + 1, i =>
      if gdosRowName drivers behind i = name then ⟨.ofNat i, [i]⟩
      else
        let rest := gdosLoop drivers behind name count (i + 1)
        ⟨rest.id, i :: rest.read⟩

/-- The rows from 1 to 11. -/
def getGdosDriver (drivers : GdosDrivers) (behind name : Bytes) : GdosLookup :=
  gdosLoop drivers behind name 11 1

/-! ## The table, line by line -/

/-- The id and the driver that a line enters. -/
def lineEntry (line : Bytes) : Option (Int16 × Bytes) :=
  bufEntry (strupr (cstring ((lineText line).take 511)))

theorem assignBuf_eq {p : Bytes} {line : Bytes} (shown : lineText line <+: p) :
    assignBuf p (lineText line).length = strupr (cstring ((lineText line).take 511)) := by
  have text : ∀ count, (p.take (lineText line).length).take count =
      (lineText line).take count := by
    intro count
    rw [List.prefix_iff_eq_take.mp shown, List.take_take, List.take_take]
    congr 1
    simp [shown.length_le]
  have same : (if (lineText line).length < 512 then p.take (lineText line).length
      else (p.take 512).take 511) = (lineText line).take 511 := by
    split_ifs with short
    · rw [← List.prefix_iff_eq_take.mp shown, List.take_of_length_le (by omega)]
    · rw [List.take_take, ← text 511, List.take_take]
      congr 1
      omega
  rw [assignBuf, same]

theorem assignBuf_take (p : Bytes) (maxlen : Nat) :
    assignBuf (p.take (nextLine p maxlen).1) (nextLine p maxlen).2 =
      assignBuf p (nextLine p maxlen).2 := by
  have valid := nextLine_valid_le p maxlen
  have same : ∀ count ≤ (nextLine p maxlen).2,
      (p.take (nextLine p maxlen).1).take count = p.take count := by
    intro count few
    rw [List.take_take, Nat.min_eq_left (few.trans valid)]
  simp only [assignBuf]
  split_ifs with short
  · rw [same _ (Nat.le_refl _)]
  · rw [same 512 (by omega)]

/-- The loop goes along the steps of `next_line` and enters one piece after the other. -/
theorem readAssignLoop_steps : ∀ {steps : Nat} {p : Bytes} {offset : Nat} {size : Int}
    {stepped : Stepped}, stepLines (steps + 1) p offset size = some stepped →
    ∀ drivers : GdosDrivers, readAssignLoop steps p size drivers =
      stepped.pieces.foldl
        (fun drivers piece => enter (bufEntry (assignBuf piece.bytes piece.valid)) drivers)
        drivers
  | steps, p, offset, size, stepped, stepping, drivers => by
      simp only [stepLines] at stepping
      rw [readAssignLoop]
      split at stepping
      case isTrue more =>
        rcases Option.map_eq_some_iff.mp stepping with ⟨rest, tail, rfl⟩
        simp only [List.foldl_cons, assignBuf_take, if_pos more]
        cases steps with
        | zero => simp [stepLines] at tail
        | succ steps => exact readAssignLoop_steps tail _
      case isFalse ended =>
        cases stepping
        simp only [List.foldl_cons, List.foldl_nil, assignBuf_take, if_neg ended]

/-- The loop enters one line after the other. -/
theorem readAssignLoop_eq (behind : Bytes) : ∀ {ls : List Bytes}, Canonical ls → ls ≠ [] →
    ∀ (fuel : Nat) (drivers : GdosDrivers), ls.length ≤ fuel →
    readAssignLoop fuel (ls.flatten ++ behind) ls.flatten.length drivers =
      ls.foldl (fun drivers line => enter (lineEntry line) drivers) drivers
  | [], _, nonempty, _, _, _ => absurd rfl nonempty
  | line :: rest, canonical, _, fuel + 1, drivers, enough => by
      have shown : lineText line <+: (line :: rest).flatten ++ behind := by
        rw [List.flatten_cons, List.append_assoc]
        exact (lineText_isPrefix line).trans (List.prefix_append _ _)
      have taken := nextLine_canonical canonical behind
      rw [readAssignLoop]
      simp only [Int.toNat_natCast, taken, assignBuf_eq shown, List.foldl_cons]
      cases rest with
      | nil =>
          rw [if_neg (takesLast line behind)]
          rfl
      | cons second more =>
          have takes := takesMore canonical (List.cons_ne_nil second more) behind
          have induction := readAssignLoop_eq behind canonical.tail (by simp) fuel
            (enter (lineEntry line) drivers) (by simpa using enough)
          simp only [takes.noOverrun, Nat.add_zero, takes.size, if_pos takes.goOn, takes.after]
          exact induction

end Chgres
