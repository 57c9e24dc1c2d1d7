import Chgres.Modes.Nvdivga
import Chgres.Save.Desk
import Chgres.Utils.ProcessPath

/-! # The system that the program finds

`setup` looks at the cookies, at the header of the operating system and at the running
processes, and sets `vdo`, `sys_aes` and `sys_vdi`, which everything else goes by.
-/

namespace Chgres

open Text

/-! ## Cookies -/

/-- A cookie of the jar. The jar ends at the first cookie without a name. -/
structure Cookie where
  id : Int32
  value : Int32
  named : id ≠ 0

/-- A name of four characters. -/
def fourChars (name : Bytes) : Int32 :=
  name.foldl (fun id c => (id <<< 8) ||| .ofNat c.toNat) 0

/-- `get_cookie`, given the jar, if the system has one. -/
def getCookie (jar : Option (List Cookie)) (id : Int32) : Int32 :=
  match jar with
  | none => 0
  | some cookies =>
      match cookies.find? fun cookie => cookie.id = id with
      | some cookie => cookie.value
      | none => 0

/-! ## The systems -/

/-- `F_SYSTEM_TOS` -/
def systemTos : Int16 := 0x01

/-- `F_SYSTEM_MAGIC` -/
def systemMagic : Int16 := 0x04

/-- `F_SYSTEM_GENEVA` -/
def systemGeneva : Int16 := 0x08

/-- `F_SYSTEM_MINT_AES` -/
def systemMintAes : Int16 := 0x10

/-- `F_SYSTEM_MINT_NAES` -/
def systemMintNaes : Int16 := 0x20

/-- `F_SYSTEM_MINT_XAAES` -/
def systemMintXaaes : Int16 := 0x40

/-- `F_SYSTEM_MINT_MYAES` -/
def systemMintMyaes : Int16 := 0x80

/-- `F_SYSTEM_MINT` -/
def systemMint : Int16 := systemMintAes ||| systemMintNaes ||| systemMintXaaes ||| systemMintMyaes

/-- The systems that `setup` can tell from each other. -/
def systems : List Int16 := [systemTos, systemEmutos, systemMagic, systemGeneva, systemMintAes,
  systemMintNaes, systemMintXaaes, systemMintMyaes]

/-- `F_VDI_ATARI` -/
def vdiAtari : Int16 := 0x01

/-! ## `setup` -/

/-- What `setup` finds. -/
structure System where
  jar : Option (List Cookie)
  /-- `os_version` -/
  osVersion : Int16
  /-- The long word at 44 bytes in the header of the operating system. -/
  osMagic : Int32
  /-- `aes_global[0]` -/
  aesVersion : Int16
  /-- The first entry of `u:/proc` for the name of a process. -/
  process : Bytes → Option Bytes
  /-- `naes_hdr[3]` -/
  naesFlags : Int16

/-- The variables that `setup` sets. -/
structure Setup where
  vdo : Int16
  cpu : Int16
  mch : Int16
  tosVersion : Int16
  tosEmutos : Int16
  aesVer : Int16
  sysAes : Int16
  sysVdi : Int16
  deriving DecidableEq, Repr

namespace System

def cookie (system : System) (name : String) : Int32 :=
  getCookie system.jar (fourChars (ascii name))

/-- The AES that runs under MiNT. -/
def mintAes (system : System) : Int16 :=
  if 0 < getProcessId (system.process (ascii "myaes")) then systemMintMyaes
  else if 0 < getProcessId (system.process (ascii "XaSYS")) then systemMintXaaes
  else if system.cookie "nAES" ≠ 0 ∧ system.naesFlags &&& 0x8000 = 0 then systemMintNaes
  else systemMintAes

/-- `sys_aes` before "special case to deal with EmuTOS + AES4.x". -/
def aes (system : System) (tosEmutos : Int16) : Int16 :=
  if system.cookie "Gnva" ≠ 0 then systemGeneva
  else if system.cookie "MiNT" ≠ 0 then system.mintAes
  else if system.cookie "MagX" ≠ 0 then systemMagic
  else if tosEmutos ≠ 0 then systemEmutos
  else systemTos

def vdi (system : System) : Int16 :=
  if system.cookie "fVDI" ≠ 0 then vdiFvdi
  else if system.cookie "NVDI" ≠ 0 then vdiNvdi
  else vdiAtari

def setup (system : System) : Setup :=
  let vdo := (system.cookie "_VDO" >>> 16).toInt16
  let cpu := (system.cookie "_CPU").toInt16 / 10
  let mch := (system.cookie "_MCH" >>> 16).toInt16
  let tosEmutos := if system.osMagic = fourChars (ascii "ETOS") then system.osVersion else 0
  let sysAes := system.aes tosEmutos
  { vdo := if cpu = 8 ∨ mch = 6 then 6 else vdo
    cpu := cpu
    mch := mch
    tosVersion := system.osVersion
    tosEmutos := tosEmutos
    aesVer := system.aesVersion
    sysAes := if sysAes = systemEmutos ∧ 0x400 ≤ system.aesVersion then systemTos else sysAes
    sysVdi := system.vdi }

/-- `sys_aes` is the bit of one system, except that EmuTOS has the bit of TOS as well. -/
theorem setup_sysAes (system : System) : system.setup.sysAes ∈ systems := by
  have found : ∀ tosEmutos, system.aes tosEmutos ∈ systems := by
    intro tosEmutos
    unfold aes mintAes
    split_ifs <;> decide
  rw [setup]
  generalize (if system.osMagic = fourChars (ascii "ETOS") then system.osVersion else 0) =
    tosEmutos
  simp only
  split
  case isTrue => decide
  case isFalse => exact found tosEmutos

theorem setup_sysVdi (system : System) :
    system.setup.sysVdi ∈ [vdiAtari, vdiNvdi, vdiFvdi] := by
  change system.vdi ∈ _
  rw [vdi]
  split_ifs <;> decide

end System

end Chgres
