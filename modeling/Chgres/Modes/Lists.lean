import Chgres.Foundation.Slots
import Chgres.Machine

/-! # The mode lists

One list for each depth, as `possible_resolutions` reaches them from their heads, and
the `initres_*` functions of the Atari shifters, the Videl and the SAGA.
-/

namespace Chgres

/-- `MAX_DEPTHS` -/
abbrev maxDepths : Nat := 8

instance : NeZero maxDepths := ⟨by decide⟩

/-- The lists of `possible_resolutions`, each from its head on. -/
abbrev ModeLists := Vector (List Res) maxDepths

def noModes : ModeLists := .replicate maxDepths []

/-- A new mode goes to the head of its list. -/
def addMode (idx : Fin maxDepths) (r : Res) (lists : ModeLists) : ModeLists :=
  lists.set idx (r :: lists[idx]) idx.isLt

def removeModes (idx : Fin maxDepths) (lists : ModeLists) : ModeLists :=
  lists.set idx [] idx.isLt

def findMode (idx : Fin maxDepths) (width height planes : Int16) (lists : ModeLists) :
    Option Res :=
  lists[idx].find? fun r => r.virtHres = width ∧ r.virtVres = height ∧ r.planes = planes

/-- `create_mode`, given the memory for it. -/
def createMode (idx : Fin maxDepths) (width height planes rez vmode : Int16)
    (lists : ModeLists) : ModeLists :=
  addMode idx {
    selected := false
    rez := rez
    vmode := vmode
    flags := flagInfo
    virtHres := width
    virtVres := height
    hres := width
    vres := height
    planes := planes
    freq := 60
    modeOffset := 0 } lists

theorem addMode_same (idx : Fin maxDepths) (r : Res) (lists : ModeLists) :
    (addMode idx r lists)[idx] = r :: lists[idx] :=
  Slots.set_same _ _ _

theorem addMode_other {idx other : Fin maxDepths} (different : other ≠ idx) (r : Res)
    (lists : ModeLists) : (addMode idx r lists)[other] = lists[other] :=
  Slots.set_other _ different _

theorem removeModes_same (idx : Fin maxDepths) (lists : ModeLists) :
    (removeModes idx lists)[idx] = [] :=
  Slots.set_same _ _ _

theorem removeModes_other {idx other : Fin maxDepths} (different : other ≠ idx)
    (lists : ModeLists) : (removeModes idx lists)[other] = lists[other] :=
  Slots.set_other _ different _

/-! ## The codes of `Setscreen` -/

def rezStLow : Int16 := 0 + 2
def rezStMed : Int16 := 1 + 2
def rezStHigh : Int16 := 2 + 2
def rezFalcon : Int16 := 3 + 2
def rezTtMed : Int16 := 4 + 2
def rezTtHigh : Int16 := 6 + 2
def rezTtLow : Int16 := 7 + 2

def bps1 : Int16 := 0x00
def bps2 : Int16 := 0x01
def bps4 : Int16 := 0x02
def bps8 : Int16 := 0x03
def bps16 : Int16 := 0x04
def col80 : Int16 := 0x08
def vga : Int16 := 0x10
def pal : Int16 := 0x20
def overscan : Int16 := 0x40
def stmodes : Int16 := 0x80
def vertflag : Int16 := 0x100
def tv : Int16 := 0x00
def svext : Int16 := 0x4000

/-- What `initres_*` asks the hardware for. -/
structure Video where
  /-- The high word of the `_VDO` cookie. -/
  vdo : Int
  /-- `Getrez` -/
  rez : Int16
  /-- The byte at `0xFFFF8262`. -/
  ttShiftMode : UInt8
  /-- `VgetMonitor` -/
  monitor : Int16
  /-- `VsetMode(-1)` -/
  videlMode : Int16

/-- `MON_MONO` -/
def monMono : Int16 := 0

def monColor : Int16 := 1

def monVga : Int16 := 2

/-- The lists and the current mode that an `initres_*` function leaves. -/
structure Started where
  lists : ModeLists
  currez : Int16
  vmode : Int16

/-! ## Atari ST -/

def initresSt (video : Video) (lists : ModeLists) : Started where
  lists := lists
    |> createMode 0 640 400 1 rezStHigh 0
    |> createMode 1 640 200 2 rezStMed 0
    |> createMode 2 320 200 4 rezStLow 0
  currez := video.rez + 2
  vmode := 0

/-! ## Atari TT -/

def getTtMonitor (video : Video) : Int16 :=
  if (video.ttShiftMode &&& 7).toNat + 2 = rezTtHigh.toInt then monMono else monColor

def initresTt (video : Video) (lists : ModeLists) : Started where
  lists :=
    if getTtMonitor video = monMono then
      lists |> createMode 0 1280 960 1 rezTtHigh 0
    else lists
      |> createMode 2 640 480 4 rezTtMed 0
      |> createMode 3 320 480 8 rezTtLow 0
      |> createMode 0 640 400 1 rezStHigh 0
      |> createMode 1 640 200 2 rezStMed 0
      |> createMode 2 320 200 4 rezStLow 0
  currez := video.rez + 2
  vmode := 0

/-! ## Atari Falcon -/

def falcMono (lists : ModeLists) : ModeLists := lists
  |> createMode 0 640 400 1 rezFalcon (stmodes ||| col80 ||| bps1)

def falcVga (lists : ModeLists) : ModeLists := lists
  |> createMode 0 640 240 1 rezFalcon (vertflag ||| vga ||| col80 ||| bps1)
  |> createMode 0 640 400 1 rezFalcon (stmodes ||| vga ||| col80 ||| bps1)
  |> createMode 0 640 240 1 rezFalcon (vertflag ||| vga ||| col80 ||| bps1)
  |> createMode 1 320 240 2 rezFalcon (vertflag ||| vga ||| bps2)
  |> createMode 1 320 480 2 rezFalcon (vga ||| bps2)
  |> createMode 1 640 200 2 rezFalcon (vertflag ||| stmodes ||| vga ||| col80 ||| bps2)
  |> createMode 1 640 240 2 rezFalcon (vertflag ||| vga ||| col80 ||| bps2)
  |> createMode 1 640 480 2 rezFalcon (vga ||| col80 ||| bps2)
  |> createMode 2 320 200 4 rezFalcon (vertflag ||| stmodes ||| vga ||| bps4)
  |> createMode 2 320 240 4 rezFalcon (vertflag ||| vga ||| bps4)
  |> createMode 2 320 480 4 rezFalcon (vga ||| bps4)
  |> createMode 2 640 240 4 rezFalcon (vertflag ||| vga ||| col80 ||| bps4)
  |> createMode 2 640 480 4 rezFalcon (vga ||| col80 ||| bps4)
  |> createMode 3 320 240 8 rezFalcon (vertflag ||| vga ||| bps8)
  |> createMode 3 320 480 8 rezFalcon (vga ||| bps8)
  |> createMode 3 640 240 8 rezFalcon (vertflag ||| vga ||| col80 ||| bps8)
  |> createMode 3 640 480 8 rezFalcon (vga ||| col80 ||| bps8)
  |> createMode 4 320 240 16 rezFalcon (vertflag ||| vga ||| bps16)
  |> createMode 4 320 480 16 rezFalcon (vga ||| bps16)

def falcTv (lists : ModeLists) : ModeLists := lists
  |> createMode 0 640 240 1 rezFalcon (tv ||| col80 ||| bps1)
  |> createMode 0 640 400 1 rezFalcon (vertflag ||| tv ||| stmodes ||| col80 ||| bps1)
  |> createMode 0 768 240 1 rezFalcon (tv ||| overscan ||| col80 ||| bps1)
  |> createMode 0 768 480 1 rezFalcon (vertflag ||| tv ||| overscan ||| col80 ||| bps1)
  |> createMode 1 320 200 2 rezFalcon (tv ||| bps2)
  |> createMode 1 320 400 2 rezFalcon (vertflag ||| tv ||| bps2)
  |> createMode 1 320 240 2 rezFalcon (tv ||| overscan ||| bps2)
  |> createMode 1 320 480 2 rezFalcon (vertflag ||| tv ||| overscan ||| bps2)
  |> createMode 1 640 200 2 rezFalcon (tv ||| stmodes ||| col80 ||| bps2)
  |> createMode 1 640 400 2 rezFalcon (vertflag ||| tv ||| col80 ||| bps2)
  |> createMode 1 768 240 2 rezFalcon (tv ||| overscan ||| col80 ||| bps2)
  |> createMode 1 768 480 2 rezFalcon (vertflag ||| tv ||| overscan ||| col80 ||| bps2)
  |> createMode 2 320 200 4 rezFalcon (tv ||| stmodes ||| bps4)
  |> createMode 2 320 400 4 rezFalcon (vertflag ||| tv ||| bps4)
  |> createMode 2 384 240 4 rezFalcon (overscan ||| bps4)
  |> createMode 2 384 480 4 rezFalcon (vertflag ||| tv ||| overscan ||| bps4)
  |> createMode 2 640 200 4 rezFalcon (col80 ||| bps4)
  |> createMode 2 640 400 4 rezFalcon (vertflag ||| tv ||| col80 ||| bps4)
  |> createMode 2 768 240 4 rezFalcon (overscan ||| col80 ||| bps4)
  |> createMode 2 768 480 4 rezFalcon (vertflag ||| tv ||| overscan ||| col80 ||| bps4)
  |> createMode 3 320 200 8 rezFalcon (tv ||| bps8)
  |> createMode 3 320 400 8 rezFalcon (vertflag ||| tv ||| bps8)
  |> createMode 3 384 240 8 rezFalcon (tv ||| overscan ||| bps8)
  |> createMode 3 384 480 8 rezFalcon (vertflag ||| tv ||| overscan ||| bps8)
  |> createMode 3 640 200 8 rezFalcon (tv ||| col80 ||| bps8)
  |> createMode 3 640 400 8 rezFalcon (vertflag ||| tv ||| col80 ||| bps8)
  |> createMode 3 768 240 8 rezFalcon (tv ||| overscan ||| col80 ||| bps8)
  |> createMode 3 768 480 8 rezFalcon (vertflag ||| tv ||| overscan ||| col80 ||| bps8)
  |> createMode 4 320 200 16 rezFalcon (tv ||| bps16)
  |> createMode 4 320 400 16 rezFalcon (vertflag ||| tv ||| bps16)
  |> createMode 4 384 240 16 rezFalcon (tv ||| overscan ||| bps16)
  |> createMode 4 384 480 16 rezFalcon (vertflag ||| tv ||| overscan ||| bps16)
  |> createMode 4 640 200 16 rezFalcon (tv ||| col80 ||| bps16)
  |> createMode 4 640 400 16 rezFalcon (vertflag ||| tv ||| col80 ||| bps16)
  |> createMode 4 768 240 16 rezFalcon (tv ||| overscan ||| col80 ||| bps16)
  |> createMode 4 768 480 16 rezFalcon (vertflag ||| tv ||| overscan ||| col80 ||| bps16)

def initresFalc (video : Video) (lists : ModeLists) : Started where
  lists :=
    if video.monitor = monMono then falcMono lists
    else if video.monitor = monVga then falcVga lists
    else falcTv lists
  currez := rezFalcon
  vmode := video.videlMode &&& ~~~pal

/-! ## Vampire SAGA -/

structure SagaRes where
  reg : Int16
  width : Int16
  height : Int16

def sagaResolutions : List SagaRes := [
  ⟨0x01, 320, 200⟩,
  ⟨0x02, 320, 240⟩,
  ⟨0x03, 320, 256⟩,
  ⟨0x04, 640, 400⟩,
  ⟨0x05, 640, 480⟩,
  ⟨0x06, 640, 512⟩,
  ⟨0x07, 960, 540⟩,
  ⟨0x08, 480, 270⟩,
  ⟨0x09, 304, 224⟩,
  ⟨0x0a, 1280, 720⟩,
  ⟨0x0b, 640, 360⟩,
  ⟨0x0c, 800, 600⟩,
  ⟨0x0d, 1024, 768⟩,
  ⟨0x0e, 720, 576⟩,
  ⟨0x0f, 848, 480⟩,
  ⟨0x10, 640, 200⟩]

structure SagaBpp where
  reg : Int16
  bpp : Int16

/-- `saga_depths`, with the 15 and 24 bit depths taken out, and those that the fVDI
driver does not have. -/
def sagaDepths (fvdi : Bool) : Fin maxDepths → SagaBpp
  | 0 => if fvdi then ⟨0, 0⟩ else ⟨0x08, 1⟩
  | 1 => if fvdi then ⟨0, 0⟩ else ⟨0x09, 2⟩
  | 2 => if fvdi then ⟨0, 0⟩ else ⟨0x0a, 4⟩
  | 3 => if fvdi then ⟨0, 0⟩ else ⟨0x01, 8⟩
  | 4 => ⟨0, 0⟩
  | 5 => ⟨0x02, 16⟩
  | 6 => ⟨0, 0⟩
  | 7 => ⟨0x05, 32⟩

/-- `F_VDI_FVDI` -/
def vdiFvdi : Int16 := 0x08

/-- A SAGA mode of a depth, where no mode of the size is there yet. -/
def sagaMode (i : Fin maxDepths) (depth : SagaBpp) (lists : ModeLists) (saga : SagaRes) :
    ModeLists :=
  let vmode : Int16 := 0x4000 ||| (saga.reg <<< (8 : Int16)) ||| depth.reg
  match findMode i saga.width saga.height depth.bpp lists with
  | none => createMode i saga.width saga.height depth.bpp rezFalcon vmode lists
  | some _ => lists

def sagaModes (i : Fin maxDepths) (depth : SagaBpp) (lists : ModeLists) : ModeLists :=
  if 0 < depth.bpp then sagaResolutions.foldl (sagaMode i depth) lists else lists

def initresSaga (sysVdi : Int16) (video : Video) (lists : ModeLists) : Started where
  lists :=
    let fvdi : Bool := sysVdi &&& vdiFvdi ≠ 0
    let lists :=
      if fvdi then lists
      else lists
        |> createMode 2 640 480 4 rezFalcon (vga ||| col80 ||| bps4)
        |> createMode 0 640 400 1 rezFalcon (stmodes ||| vga ||| col80 ||| bps1)
        |> createMode 1 640 200 2 rezFalcon (vertflag ||| stmodes ||| vga ||| col80 ||| bps2)
        |> createMode 2 320 200 4 rezFalcon (vertflag ||| stmodes ||| vga ||| bps4)
    (List.finRange maxDepths).foldl (fun lists i => sagaModes i (sagaDepths fvdi i) lists) lists
  currez := rezFalcon
  vmode := video.videlMode &&& ~~~pal

/-- The hardware-specific part of `init_res`. -/
def initresHardware (sysVdi : Int16) (video : Video) (lists : ModeLists) : Started :=
  if video.vdo = 0 ∨ video.vdo = 1 then initresSt video lists
  else if video.vdo = 2 then initresTt video lists
  else if video.vdo = 3 then initresFalc video lists
  else if video.vdo = 6 then initresSaga sysVdi video lists
  else ⟨lists, 0, 0⟩

end Chgres
