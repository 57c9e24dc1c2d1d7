import Chgres.Format
import Chgres.Machine
import Chgres.Utils.Scan

/-! # `xaaes.cnf` and `myaes.cnf`

`save_xaaes_inf` and `save_myaes_inf` remove the lines of their keys from the
loaded file and write a block of new lines where the last of them was. The file
is opened for writing over its old contents.
-/

namespace Chgres

open Text

/-- The variables that the removals change. -/
structure CnfState where
  memory : Bytes
  sc : Nat
  sn : Int
  lc : Nat
  deriving DecidableEq, Repr

/-- `ln = remove_line(buf, key, sc, &sn); if (ln) { lc = ln; sc = sn; }` -/
def removeKey (key : Bytes) (state : CnfState) : Outcome CnfState :=
  (removeLine state.memory key state.sc).bind fun ln =>
    match ln with
    | none => .done state
    | some removed => .done {
        memory := removed.memory
        sc := removed.newsize
        sn := removed.newsize
        lc := removed.offset }

def removeKeys : List Bytes → CnfState → Outcome CnfState
  | [], state => .done state
  | key :: keys, state => (removeKey key state).bind (removeKeys keys)

/-- The three writes. `sn` is the size that the last removal left. -/
def writeCnf (gemdos : Gemdos) (block old : Bytes) (state : CnfState) : OpenFile :=
  let s1 := state.lc
  let s2 := state.sn - s1
  let file := OpenFile.onto old
  let file :=
    if 0 < s1 then gemdos.fwrite 0 (readMemory state.memory 0 s1) file else file
  let file := gemdos.fwrite 1 block file
  if 0 < s2 then gemdos.fwrite 2 (readMemory state.memory state.lc s2.toNat) file
  else file

/-- What the two savers have in common from `load_file` on. -/
def saveCnf (machine : Machine) (keys : List Bytes) (block : Bytes)
    (file : Option Bytes) : Outcome (Int × Option Bytes) :=
  match machine.gemdos.loadFile file with
  | none => .done (0, file)
  | some buf =>
      if 0 < machine.gemdos.writeHandle then
        let state : CnfState :=
          { memory := buf ++ machine.behind, sc := buf.length, sn := machine.stack, lc := 0 }
        (removeKeys keys state).bind fun state =>
          .done (1, some (writeCnf machine.gemdos block buf state).contents)
      else .done (0, file)

/-! ## `save_xaaes_inf` -/

def xaaesKeys : List Bytes := [ascii "SCREENDEV", ascii "MODECODE"]

/-- `"SCREENDEV = %d\r\nMODECODE = 0x%04x\r\n"` -/
def xaaesBlock (r : Res) : Bytes :=
  ascii "SCREENDEV = " ++ formatD r.rez.toInt ++ crlf ++
    (ascii "MODECODE = 0x" ++ formatX 4 r.vmode.toInt ++ crlf)

def xaaesPath (machine : Machine) : Option Bytes :=
  match machine.processPath (ascii "XaSYS") with
  | some aesdir => some (aesdir ++ ascii "/xaaes.cnf")
  | none => (machine.getenv (ascii "SYSDIR")).map (· ++ ascii "/xaaes/xaaes.cnf")

def saveXaaesInf (machine : Machine) (r : Res) (disk : Disk) : Outcome (Int × Disk) :=
  match xaaesPath machine with
  | none => .done (0, disk)
  | some path => onFile disk path (saveCnf machine xaaesKeys (xaaesBlock r))

/-! ## `save_myaes_inf` -/

def myaesKeys : List Bytes := [ascii "vsetmode", ascii "rezmode", ascii "esetshift"]

/-- `"vsetmode = %d\r\nrezmode = %d\r\nesetshift = %d\r\n"` -/
def myaesBlock (r : Res) : Bytes :=
  let esetshift : Int := 0
  ascii "vsetmode = " ++ formatD r.vmode.toInt ++ crlf ++
    (ascii "rezmode = " ++ formatD (r.rez.toInt - 2) ++ crlf ++
      (ascii "esetshift = " ++ formatD esetshift ++ crlf))

def myaesPath (machine : Machine) : Bytes :=
  (machine.processPath (ascii "myaes")).getD (ascii "c:\\gemsys\\myaes") ++
    ascii "/myaes.cnf"

def saveMyaesInf (machine : Machine) (r : Res) (disk : Disk) : Outcome (Int × Disk) :=
  onFile disk (myaesPath machine) (saveCnf machine myaesKeys (myaesBlock r))

/-! ## Both savers -/

inductive CnfSaver
  | xaaes
  | myaes
  deriving DecidableEq, Repr

namespace CnfSaver

def keys : CnfSaver → List Bytes
  | xaaes => xaaesKeys
  | myaes => myaesKeys

def block : CnfSaver → Res → Bytes
  | xaaes => xaaesBlock
  | myaes => myaesBlock

/-- The file that the saver opens. -/
def path (machine : Machine) : CnfSaver → Option Bytes
  | xaaes => xaaesPath machine
  | myaes => some (myaesPath machine)

def save : CnfSaver → Machine → Res → Disk → Outcome (Int × Disk)
  | xaaes => saveXaaesInf
  | myaes => saveMyaesInf

theorem save_eq (saver : CnfSaver) {machine : Machine} {path : Bytes}
    (found : saver.path machine = some path) (r : Res) (disk : Disk) :
    saver.save machine r disk =
      onFile disk path (saveCnf machine saver.keys (saver.block r)) := by
  cases saver with
  | xaaes =>
      have here : xaaesPath machine = some path := found
      simp only [save, saveXaaesInf, here, keys, block]
  | myaes =>
      have here : myaesPath machine = path := Option.some.inj found
      simp only [save, saveMyaesInf, here, keys, block]

end CnfSaver

end Chgres
