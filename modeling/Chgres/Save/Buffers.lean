import Chgres.Modes.Gdos
import Chgres.Save.Saver
import Chgres.Utils.ProcessPath

/-! # What goes into the buffers

The strings and bytes that the savers and `read_assign_sys` put into buffers of a fixed
size, in the order of the source.
-/

namespace Chgres

open Text

inductive FixedBuffer
  | tmpbuf
  /-- `modestr` of `save_desk_inf_base` -/
  | modestr
  /-- `linebuf` of `save_magx_inf` -/
  | magxLinebuf
  | driverid
  /-- `linebuf` of `find_line` -/
  | linebuf
  /-- `buf` of `read_assign_sys` -/
  | assignBuf
  /-- A row of `gdos_drivers` -/
  | gdosRow
  deriving DecidableEq, Repr

def FixedBuffer.size : FixedBuffer → Nat
  | tmpbuf => 256
  | modestr => 6
  | magxLinebuf => 40
  | driverid => 32
  | linebuf => 512
  | assignBuf => 512
  | gdosRow => 16

/-- Bytes that are put into a buffer from its start on. -/
structure Fill where
  buffer : FixedBuffer
  bytes : Bytes
  deriving DecidableEq, Repr

def Fill.Fits (fill : Fill) : Prop := fill.bytes.length ≤ fill.buffer.size

/-- A string goes into a buffer with its NUL. -/
def Fill.string (buffer : FixedBuffer) (text : Bytes) : Fill := ⟨buffer, text ++ [0]⟩

/-! ## `find_line` -/

/-- The loop of `find_line`, and what it puts into `linebuf`. -/
def findLineFills (str : Bytes) : (fuel : Nat) → (p : Bytes) → (size : Int) → List Fill
  | fuel, p, size =>
      let (lsize, valid) := nextLine p size.toNat
      let size := size - lsize
      let line := p.take (min valid 511)
      let fill := Fill.string .linebuf line
      if (findStr line str).isSome then [fill]
      else if 0 < size ∧ 0 < lsize then
        match fuel with
        | 0 => [fill]
        | fuel + 1 => fill :: findLineFills str fuel (p.drop lsize) size
      else [fill]

def lineFills (p str : Bytes) (size : Nat) : List Fill := findLineFills str size p size

/-! ## The savers -/

def magxFills (machine : Machine) (r : Res) (file : Option Bytes) : List Fill :=
  match machine.gemdos.loadFile file with
  | none => []
  | some buf =>
      let memory := buf ++ machine.behind
      lineFills memory magxDev buf.length ++
        (if (findLine memory magxDev buf.length).remain = 0 then
          lineFills memory magxAes buf.length else []) ++
        if 0 < machine.gemdos.writeHandle then [.string .magxLinebuf (magxLine r)] else []

/-- The text that is printed into `modestr` for a line of `linesize` bytes. -/
def deskModestr (rez vmode sysAes : Int16) (eoffset linesize : Nat) : Option Bytes :=
  if vmode = 0 ∧ sysAes ≠ systemEmutos ∧ 8 ≤ linesize then some (formatX 1 (rez.toInt - 2))
  else if eoffset + 5 ≤ linesize then
    if vmode = 0 ∧ sysAes = systemEmutos then some (ascii "FF " ++ formatX 2 (rez.toInt - 2))
    else some (formatX 2 (vmode >>> 8).toInt ++ ascii " " ++ formatX 2 (vmode &&& 0xff).toInt)
  else none

/-- The characters that are poked in are the first ones of this text. -/
theorem deskPatch_modestr (rez vmode sysAes : Int16) (eoffset linesize : Nat) :
    deskPatch rez vmode sysAes eoffset linesize =
      (deskModestr rez vmode sysAes eoffset linesize).map fun modestr =>
        if vmode = 0 ∧ sysAes ≠ systemEmutos ∧ 8 ≤ linesize then (7, (strupr modestr).take 1)
        else (eoffset, (strupr modestr).take 5) := by
  unfold deskPatch deskModestr
  split_ifs <;> rfl

/-- The text that the mode is poked into, and what is in the memory behind it. -/
def deskSource (machine : Machine) (defaultbuf file : Option Bytes) : Option (Bytes × Bytes) :=
  match machine.gemdos.loadFile file with
  | some lbuf => some (lbuf, machine.behind)
  | none => (defaultbuf.filter (· ≠ [])).map fun buf => (buf, [0])

def deskBaseFills (rez vmode sysAes : Int16) (eoffset : Nat) (source : Bytes × Bytes) :
    List Fill :=
  let memory := source.1 ++ source.2
  let found := findLine memory deskKey source.1.length
  lineFills memory deskKey source.1.length ++
    if 0 < found.remain then
      ((deskModestr rez vmode sysAes eoffset found.linesize).map (Fill.string .modestr)).toList
    else []

def deskFills (saver : DeskSaver) (machine : Machine) (r : Res) (newdeskText : Bytes)
    (disk : Disk) : List Fill :=
  match saver.path machine with
  | none => []
  | some path =>
      Fill.string .tmpbuf path ::
        match deskSource machine (saver.defaultbuf newdeskText) (disk path) with
        | none => []
        | some source => deskBaseFills r.rez r.vmode machine.sysAes saver.eoffset source

/-- `save_olddesk_inf` -/
def olddeskFills : List Fill := [.string .tmpbuf (systemDrive ++ ascii "\\desktop.inf")]

/-- The removals, up to one that runs wild. -/
def removeFills : List Bytes → CnfState → List Fill
  | [], _ => []
  | key :: keys, state =>
      lineFills state.memory key state.sc ++
        match removeKey key state with
        | .wild => []
        | .done state => removeFills keys state

def cnfFills (saver : CnfSaver) (machine : Machine) (r : Res) (disk : Disk) : List Fill :=
  match saver.path machine with
  | none => []
  | some path =>
      Fill.string .tmpbuf path ::
        match machine.gemdos.loadFile (disk path) with
        | none => []
        | some buf =>
            if 0 < machine.gemdos.writeHandle then
              let state : CnfState :=
                { memory := buf ++ machine.behind, sc := buf.length, sn := machine.stack, lc := 0 }
              removeFills saver.keys state ++ [.string .tmpbuf (saver.block r)]
            else []

/-- What is copied over `driverid` behind the search for the driver line. -/
def driveridCopy (memory : Bytes) (oldsize : Nat) (r : Res) : Option Bytes :=
  let found := findLine memory (fvdiDriver r) oldsize
  if 0 < found.remain then
    let lp2 := found.offset + (fvdiDriver r).length
    let lp2 := lp2 + ((memory.drop lp2).takeWhile isBlank).length
    let size2 : Int := found.linesize - (lp2 - found.offset)
    if 0 < size2 ∧ size2 < 31 then some (fvdiCopy (readMemory memory lp2 size2.toNat))
    else none
  else none

def fvdiRecordFills (machine : Machine) (r : Res) (memory : Bytes) (oldsize : Nat) :
    List Fill :=
  lineFills memory fvdiRecord oldsize ++
    match removeLine memory fvdiRecord oldsize with
    | .done (some removed) =>
        lineFills removed.memory fvdiRecord removed.newsize ++
          match removeLine removed.memory fvdiRecord removed.newsize with
          | .done none =>
              if 0 < machine.gemdos.writeHandle then
                [.string .tmpbuf (fvdiLine (cstring (fvdiDriverId memory oldsize r)) r)]
              else []
          | _ => []
    | _ => []

def fvdiFills (machine : Machine) (r : Res) (file : Option Bytes) : List Fill :=
  Fill.string .tmpbuf fvdiPath ::
    match machine.gemdos.loadFile file with
    | none => []
    | some buf =>
        let memory := buf ++ machine.behind
        Fill.string .driverid (fvdiDriver r) ::
          (lineFills memory (fvdiDriver r) buf.length ++
            ((driveridCopy memory buf.length r).map (Fill.mk .driverid)).toList ++
            if (fvdiDriverId memory buf.length r).headD 0 = 0x23 then []
            else fvdiRecordFills machine r memory buf.length)

/-! ## `read_assign_sys` -/

/-- What is copied of a line: at most 512 bytes, the last of which is then overwritten. -/
def assignFill (p : Bytes) (valid : Nat) : Fill :=
  if valid < 512 then .string .assignBuf (p.take valid) else ⟨.assignBuf, p.take 512⟩

/-- A driver that goes into a row, up to the NUL behind it. -/
def rowFill (entry : Option (Int16 × Bytes)) : List Fill :=
  match entry with
  | none => []
  | some (id, driver) =>
      if 0 < id.toInt ∧ id.toInt < 11 then [.string .gdosRow (driver.take 13)] else []

def readAssignFills : (fuel : Nat) → (p : Bytes) → (size : Int) → List Fill
  | fuel, p, size =>
      let (linesize, valid) := nextLine p size.toNat
      let size := size - linesize
      let fills := assignFill p valid :: rowFill (bufEntry (assignBuf p valid))
      if 0 < size ∧ 0 < linesize then
        match fuel with
        | 0 => fills
        | fuel + 1 => fills ++ readAssignFills fuel (p.drop linesize) size
      else fills

def assignFills (machine : Machine) (disk : Disk) : List Fill :=
  Fill.string .assignBuf assignPath ::
    match machine.gemdos.loadFile (disk assignPath) with
    | none => []
    | some assign => readAssignFills assign.length (assign ++ machine.behind) assign.length

/-! ## All of them -/

inductive Filler
  | saver (saver : Saver)
  | olddesk
  | assign
  deriving DecidableEq, Repr

def Filler.fills (machine : Machine) (r : Res) (newdeskText : Bytes) (disk : Disk) :
    Filler → List Fill
  | .saver .magx => magxFills machine r (disk magxPath)
  | .saver (.desk deskSaver) => deskFills deskSaver machine r newdeskText disk
  | .saver (.cnf cnfSaver) => cnfFills cnfSaver machine r disk
  | .saver .fvdi => fvdiFills machine r (disk fvdiPath)
  | .olddesk => olddeskFills
  | .assign => assignFills machine disk

end Chgres
