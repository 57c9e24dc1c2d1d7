import Chgres.Modes.Gdos
import Chgres.Modes.Lists
import Chgres.Foundation.Words

/-! # `nvdivga.inf`

`initres_nvdivga` makes modes from the records of `nvdivga.inf`, and
`save_nvdivga_inf` writes one of them back. A record points to the next one by its
distance; the walk over the loaded file turns the distances into addresses.
-/

namespace Chgres

open Text Words

/-! ## The file -/

/-- A `short` of a loaded file. -/
def short (memory : Bytes) (offset : Nat) : Int16 := .ofNat (load memory offset 2)

/-- The bytes of a `short`. -/
def shortBytes (value : Int16) : Bytes := toBytes 2 value.toBitVec.toNat

/-- `sizeof(struct vgainf)` -/
def vgainfSize : Nat := 68

def vgainfNummodes (memory : Bytes) : Int16 := short memory 34

def vgainfDefmodeOffset (i : Fin 6) : Nat := 38 + 2 * i.val

def vgainfDefmode (memory : Bytes) (i : Fin 6) : Int16 := short memory (vgainfDefmodeOffset i)

/-- The fields of `struct vgainf_mode` in front of its space for names and registers. -/
def vgaModeSize : Nat := 100

def vgaNext (memory : Bytes) (mode : Nat) : UInt32 := .ofNat (load memory mode 4)

def vgaXresOffset : Nat := 10

def vgaXres (memory : Bytes) (mode : Nat) : Int16 := short memory (mode + vgaXresOffset)

def vgaYres (memory : Bytes) (mode : Nat) : Int16 := short memory (mode + 12)

def vgaVisibleXres (memory : Bytes) (mode : Nat) : Int16 := short memory (mode + 14)

def vgaVisibleYres (memory : Bytes) (mode : Nat) : Int16 := short memory (mode + 16)

def vgaPlanes (memory : Bytes) (mode : Nat) : Int16 := short memory (mode + 22)

/-- An `unsigned short` -/
def vgaVfreq (memory : Bytes) (mode : Nat) : Nat := load memory (mode + 44) 2

/-- `vga_modename`, `vga_ts_regs`, `vga_crtc_regs`, `vga_atc_regs` and `vga_gdc_regs` -/
def vgaPointers : List Nat := [6, 84, 88, 92, 96]

/-! ## The depths of the graphics card -/

/-- The fields of `struct et4000mode` that do not change. -/
structure Et4000Mode where
  index : Fin maxDepths
  planes : Int16
  driver : Bytes

def et4000modes : Vector Et4000Mode 6 := #v[
  ⟨0, 1, ascii "XVGA2.SYS"⟩,
  ⟨2, 4, ascii "XVGA16.SYS"⟩,
  ⟨3, 8, ascii "XVGA256.SYS"⟩,
  ⟨4, 15, ascii "XVGA32K.SYS"⟩,
  ⟨5, 16, ascii "XVGA65K.SYS"⟩,
  ⟨6, 24, ascii "XVGA16M.SYS"⟩]

/-! ## `initres_nvdivga` -/

/-- The mode that `create_nvdivga_mode` makes of the record at `mode`. -/
def nvdivgaMode (inf : Bytes) (mode : Nat) (modeidx rez : Int16) (idx : Fin 6) : Res where
  selected := false
  vmode := modeidx + svext
  flags := if modeidx = vgainfDefmode inf idx then flagInfo ||| flagDefmode else flagInfo
  planes := et4000modes[idx].planes
  rez := rez
  virtHres := vgaXres inf mode + 1
  virtVres := vgaYres inf mode + 1
  hres := vgaVisibleXres inf mode + 1
  vres := vgaVisibleYres inf mode + 1
  freq := .ofNat (vgaVfreq inf mode / 10)
  modeOffset := .ofNat mode

/-- The modes made so far: `et4000modes[i].count` and the lists. -/
structure VgaModes where
  count : Vector Int16 6
  lists : ModeLists

/-- The body of the inner loop, for the record at `mode`. -/
def createNvdivgaMode (inf : Bytes) (mode : Nat) (rez : Vector Int16 6) (made : VgaModes)
    (i : Fin 6) : VgaModes :=
  if et4000modes[i].planes = vgaPlanes inf mode then
    { count := made.count.set i (made.count[i] + 1) i.isLt
      lists := addMode et4000modes[i].index
        (nvdivgaMode inf mode made.count[i] rez[i] i) made.lists }
  else made

def createNvdivgaModes (inf : Bytes) (mode : Nat) (rez : Vector Int16 6) (made : VgaModes) :
    VgaModes :=
  (List.finRange 6).foldl (createNvdivgaMode inf mode rez) made

/-- A pointer of the record at `mode` becomes an address. -/
def relocate (address : UInt32) (mode : Nat) (memory : Bytes) (pointer : Nat) : Bytes :=
  store memory (mode + pointer) 4 (address.toNat + load memory (mode + pointer) 4)

/-- `(struct vgainf_mode *)-1` -/
def noMode : UInt32 := 0xffffffff

def relocateMode (memory : Bytes) (address : UInt32) (mode : Nat) : Bytes :=
  let memory := vgaPointers.foldl (relocate address mode) memory
  if vgaNext memory mode ≠ noMode then relocate address mode memory 0 else memory

/-- The walk over the records: the loaded file, the address of the next record and the
modes made so far. -/
structure VgaWalk where
  memory : Bytes
  mode : UInt32
  made : VgaModes

/-- The body of the outer loop. The loaded file lies at the address `inf`; a record that
is not in it may hold anything. -/
def vgaStep (inf : UInt32) (rez : Vector Int16 6) (walk : VgaWalk) : Outcome VgaWalk :=
  let mode := (walk.mode - inf).toNat
  if mode + vgaModeSize ≤ walk.memory.length then
    let memory := relocateMode walk.memory walk.mode mode
    .done {
      memory := memory
      mode := vgaNext memory mode
      made := createNvdivgaModes memory mode rez walk.made }
  else .wild

/-- The outer loop, for no more than `fuel` records. -/
def vgaWalk (inf : UInt32) (rez : Vector Int16 6) : (fuel : Nat) → VgaWalk → Outcome VgaModes
  | fuel, walk =>
      if walk.mode ≠ noMode then
        match fuel with
        | 0 => .wild
        | fuel + 1 => (vgaStep inf rez walk).bind (vgaWalk inf rez fuel)
      else .done walk.made

/-- `F_VDI_NVDI` -/
def vdiNvdi : Int16 := 0x02

/-- `F_VDI_NVDIVGA` -/
def vdiNvdivga : Int16 := 0x04

def nvdivgaPath : Bytes := systemDrive ++ ascii "\\auto\\nvdivga.inf"

/-- The drivers of the graphics card that are in use: their ids. -/
def et4000rez (drivers : GdosDrivers) (behindTable : Bytes) : Vector Int16 6 :=
  et4000modes.map fun depth => (getGdosDriver drivers behindTable depth.driver).id

/-- The modes of the loaded file are added to the lists. -/
def addNvdivgaModes (contents : Bytes) (inf : UInt32) (fuel : Nat) (rez : Vector Int16 6)
    (lists : ModeLists) : Outcome ModeLists :=
  if contents.length < 36 then .wild
  else if 0 < vgainfNummodes contents then
    let start : VgaWalk := {
      memory := contents
      mode := inf + .ofNat vgainfSize
      made := ⟨.replicate 6 0, lists⟩ }
    (vgaWalk inf rez fuel start).bind fun made => .done made.lists
  else .done lists

/-- The lists of the depths that belong to the graphics card are emptied. -/
def removeOwned (rez : Vector Int16 6) (lists : ModeLists) : ModeLists :=
  (List.finRange 6).foldl (fun (lists : ModeLists) (i : Fin 6) =>
    if 0 < rez[i] then removeModes et4000modes[i].index lists else lists) lists

/-- What `initres_nvdivga` finds at start-up, besides the lists. -/
structure NvdivgaInput where
  machine : Machine
  disk : Disk
  drivers : GdosDrivers
  /-- The memory behind `gdos_drivers`. -/
  behindTable : Bytes
  /-- The address that the file is loaded to. -/
  inf : UInt32
  sysVdi : Int16

def initresNvdivga (input : NvdivgaInput) (fuel : Nat) (lists : ModeLists) : Outcome ModeLists :=
  if input.sysVdi &&& vdiNvdi = 0 then .done lists
  else
    let rez := et4000rez input.drivers input.behindTable
    let sysVdi := if rez.any (0 < ·) then input.sysVdi ||| vdiNvdivga else input.sysVdi
    if sysVdi &&& vdiNvdivga ≠ vdiNvdivga then .done lists
    else
      let lists := removeOwned rez lists
      match input.machine.gemdos.loadFile (input.disk nvdivgaPath) with
      | none => .done lists
      | some contents => addNvdivgaModes contents input.inf fuel rez lists

/-! ## `save_nvdivga_inf` -/

/-- `Fseek` from the start. A place that the file does not have is not gone to. -/
def fseek (offset : Int) (file : OpenFile) : OpenFile :=
  if 0 ≤ offset ∧ offset ≤ file.contents.length then file.seek offset.toNat else file

/-- The first depth of so many planes. -/
def depthOfPlanes (planes : Int16) : Option (Fin 6) :=
  (List.finRange 6).find? fun i => et4000modes[i].planes = planes

/-- The writes into the opened file. -/
def writeNvdivgaInf (gemdos : Gemdos) (r : Res) (file : OpenFile) : OpenFile :=
  let file :=
    match depthOfPlanes r.planes with
    | none => file
    | some i =>
        gemdos.fwrite 0 (shortBytes (r.vmode ||| 0xc000)) (fseek (vgainfDefmodeOffset i) file)
  gemdos.fwrite 1 (shortBytes (r.virtHres - 1) ++ shortBytes (r.virtVres - 1))
    (fseek (vgaXresOffset + r.modeOffset.toInt) file)

def saveNvdivgaInf (machine : Machine) (r : Res) (disk : Disk) : Int × Disk :=
  match disk nvdivgaPath with
  | none => (0, disk)
  | some contents =>
      if 0 < machine.gemdos.writeHandle then
        let file := writeNvdivgaInf machine.gemdos r (.onto contents)
        (1, disk.set nvdivgaPath (some file.contents))
      else (0, disk)

end Chgres
