import Chgres.Foundation.FileStore
import Chgres.Foundation.Outcome

/-! # The machine a saver runs on

The results of the GEMDOS calls, the files on disk, and what a call finds in
memory that nobody has set: the heap behind a loaded file and a `long` on the
stack.
-/

namespace Chgres

open Text

/-! ## Modes -/

/-- `struct resbase` and `struct res`, without the list link and the texts that
the list box shows. -/
structure Res where
  selected : Bool
  rez : Int16
  vmode : Int16
  flags : Int16
  virtHres : Int16
  virtVres : Int16
  hres : Int16
  vres : Int16
  planes : Int16
  freq : Int16
  modeOffset : Int32
  deriving DecidableEq, Repr

def flagInfo : Int16 := 0x0001

def flagDefmode : Int16 := 0x0002

/-- `FLAG_INFO` is set. -/
def Res.HasInfo (r : Res) : Prop := r.flags &&& flagInfo ≠ 0

instance (r : Res) : Decidable r.HasInfo := inferInstanceAs (Decidable (_ ≠ _))

/-! ## GEMDOS -/

/-- The results of the calls one saver makes. `writeHandle` is what `Fcreate` or
`Fopen` for writing returns; `writeCount k n` is what the `k`-th `Fwrite` of the
saver returns when it is asked for `n` bytes. -/
structure Gemdos where
  readHandle : Int
  mallocSucceeds : Bool
  readCount : Nat → Int
  writeHandle : Int
  writeHandle_ne_zero : writeHandle ≠ 0
  writeCount : Nat → Nat → Int
  writeCount_le : ∀ k n, writeCount k n ≤ n

namespace Gemdos

/-- `load_file` gets the whole file. -/
def Loads (gemdos : Gemdos) : Prop :=
  0 < gemdos.readHandle ∧ gemdos.mallocSucceeds = true ∧ ∀ n, gemdos.readCount n = n

/-- Every call does what it is asked for. -/
structure Succeeds (gemdos : Gemdos) : Prop where
  loads : gemdos.Loads
  opens : 0 < gemdos.writeHandle
  writes : ∀ k n, gemdos.writeCount k n = n

/-- A GEMDOS on which nothing fails. -/
def obliging : Gemdos where
  readHandle := 6
  mallocSucceeds := true
  readCount n := n
  writeHandle := 6
  writeHandle_ne_zero := by decide
  writeCount _ n := n
  writeCount_le _ _ := le_refl _

theorem obliging_succeeds : obliging.Succeeds where
  loads := ⟨by decide, rfl, fun _ => rfl⟩
  opens := by decide
  writes _ _ := rfl

/-- `load_file`. A missing file does not open. -/
def loadFile (gemdos : Gemdos) (file : Option Bytes) : Option Bytes :=
  match file with
  | none => none
  | some contents =>
      if 0 < gemdos.readHandle then
        if gemdos.mallocSucceeds then
          if gemdos.readCount contents.length = contents.length then some contents
          else none
        else none
      else none

/-- `Fwrite`: as many bytes are stored as the call returns. -/
def fwrite (gemdos : Gemdos) (k : Nat) (data : Bytes) (file : OpenFile) : OpenFile :=
  file.store (data.take (gemdos.writeCount k data.length).toNat)

@[simp] theorem loadFile_none (gemdos : Gemdos) : gemdos.loadFile none = none := rfl

theorem loadFile_of_loads {gemdos : Gemdos} (loads : gemdos.Loads) (contents : Bytes) :
    gemdos.loadFile (some contents) = some contents := by
  simp [loadFile, loads.1, loads.2.1, loads.2.2]

/-- What is loaded is the file. -/
theorem eq_of_loadFile {gemdos : Gemdos} {contents loaded : Bytes}
    (result : gemdos.loadFile (some contents) = some loaded) : loaded = contents := by
  rw [loadFile] at result
  simp only [Option.ite_none_right_eq_some, Option.some.injEq] at result
  exact result.2.2.2.symm

theorem fwrite_of_complete {gemdos : Gemdos} {k : Nat} {data : Bytes}
    (complete : gemdos.writeCount k data.length = data.length) (file : OpenFile) :
    gemdos.fwrite k data file = file.store data := by
  simp [fwrite, complete]

@[simp] theorem fwrite_nil (gemdos : Gemdos) (k : Nat) (file : OpenFile) :
    gemdos.fwrite k [] file = file := by
  rw [fwrite, List.take_nil, OpenFile.store_nil]

end Gemdos

/-! ## Disk and memory -/

/-- The contents of the files, by path. -/
abbrev Disk := Bytes → Option Bytes

def Disk.set (disk : Disk) (path : Bytes) (file : Option Bytes) : Disk :=
  fun other => if other = path then file else disk other

@[simp] theorem Disk.set_same (disk : Disk) (path : Bytes) (file : Option Bytes) :
    disk.set path file path = file := by
  simp [set]

/-- Everything a saver depends on besides the mode and the disk. -/
structure Machine where
  gemdos : Gemdos
  /-- `get_process_path` -/
  processPath : Bytes → Option Bytes
  getenv : Bytes → Option Bytes
  /-- `sys_aes` -/
  sysAes : Int16
  /-- The heap behind the loaded file. -/
  behind : Bytes
  /-- What the uninitialised `sn` of a saver happens to hold. -/
  stack : Int

/-- A machine on which every call succeeds. -/
def Machine.obliging (sysAes : Int16) (behind : Bytes) (stack : Int) : Machine where
  gemdos := .obliging
  processPath _ := some (ascii "u:/c")
  getenv _ := none
  sysAes := sysAes
  behind := behind
  stack := stack

/-- `get_system_drive` -/
def systemDrive : Bytes := ascii "C:"

/-- `count` bytes of memory from `offset` on. -/
def readMemory (memory : Bytes) (offset count : Nat) : Bytes :=
  (memory.drop offset ++ List.replicate count 0).take count

theorem readMemory_of_le {memory : Bytes} {offset count : Nat}
    (within : offset + count ≤ memory.length) :
    readMemory memory offset count = (memory.drop offset).take count := by
  rw [readMemory, List.take_append_of_le_length]
  rw [List.length_drop]
  omega

theorem readMemory_middle (before text behind : Bytes) :
    readMemory (before ++ text ++ behind) before.length text.length = text := by
  rw [readMemory_of_le (by simp), List.append_assoc, List.drop_left, List.take_left]

theorem readMemory_start (text behind : Bytes) :
    readMemory (text ++ behind) 0 text.length = text :=
  readMemory_middle [] text behind

@[simp] theorem readMemory_length (memory : Bytes) (offset count : Nat) :
    (readMemory memory offset count).length = count := by
  simp [readMemory]

/-- A saver works on one file and leaves the others alone. -/
def onFile (disk : Disk) (path : Bytes)
    (save : Option Bytes → Outcome (Int × Option Bytes)) : Outcome (Int × Disk) :=
  (save (disk path)).bind fun result => .done (result.1, disk.set path result.2)

end Chgres
