import Chgres.Save.Buffers
import Chgres.Save.DeskField

/-! # When the buffers are large enough

All strings and bytes fit their buffers except the name of a file in a folder with a long
name and the mode that is printed for a desktop file.
-/

namespace Chgres

open Text

/-- All of the fills fit. -/
def AllFit (fills : List Fill) : Prop := ∀ fill ∈ fills, fill.Fits

section AllFit

variable {fill : Fill} {fills more : List Fill}

@[simp] theorem allFit_nil : AllFit [] := by simp [AllFit]

@[simp] theorem allFit_cons : AllFit (fill :: fills) ↔ fill.Fits ∧ AllFit fills := by
  simp [AllFit]

@[simp] theorem allFit_append : AllFit (fills ++ more) ↔ AllFit fills ∧ AllFit more := by
  simp [AllFit, or_imp, forall_and]

theorem string_fits {buffer : FixedBuffer} {text : Bytes} :
    (Fill.string buffer text).Fits ↔ text.length + 1 ≤ buffer.size := by
  simp [Fill.string, Fill.Fits]

end AllFit

/-! ## Lines -/

/-- `find_line` copies no more than 511 bytes of a line. -/
theorem findLineFills_fit (str : Bytes) : ∀ (fuel : Nat) (p : Bytes) (size : Int),
    AllFit (findLineFills str fuel p size)
  | fuel, p, size => by
      have fits : (Fill.string .linebuf (p.take (min (nextLine p size.toNat).2 511))).Fits := by
        rw [string_fits, List.length_take]
        simp only [FixedBuffer.size]
        omega
      rw [findLineFills]
      simp only
      split_ifs
      · simpa using fits
      · cases fuel with
        | zero => simpa using fits
        | succ fuel => exact allFit_cons.mpr ⟨fits, findLineFills_fit str fuel _ _⟩
      · simpa using fits

theorem lineFills_fit (p str : Bytes) (size : Nat) : AllFit (lineFills p str size) :=
  findLineFills_fit str size p size

theorem assignFill_fits (p : Bytes) (valid : Nat) : (assignFill p valid).Fits := by
  rw [assignFill]
  split_ifs with short
  · rw [string_fits, List.length_take]
    simp only [FixedBuffer.size]
    omega
  · exact List.length_take_le _ _

theorem rowFill_fit (entry : Option (Int16 × Bytes)) : AllFit (rowFill entry) := by
  rcases entry with _ | ⟨id, driver⟩
  · exact allFit_nil
  · simp only [rowFill]
    split_ifs
    · have short := List.length_take_le 13 driver
      simp only [allFit_cons, string_fits, FixedBuffer.size, allFit_nil, and_true]
      omega
    · exact allFit_nil

theorem readAssignFills_fit : ∀ (fuel : Nat) (p : Bytes) (size : Int),
    AllFit (readAssignFills fuel p size)
  | fuel, p, size => by
      have line := assignFill_fits p (nextLine p size.toNat).2
      have row := rowFill_fit (bufEntry (assignBuf p (nextLine p size.toNat).2))
      have fits := allFit_cons.mpr ⟨line, row⟩
      rw [readAssignFills]
      simp only
      split_ifs
      · cases fuel with
        | zero => exact fits
        | succ fuel => exact allFit_append.mpr ⟨fits, readAssignFills_fit fuel _ _⟩
      · exact fits

theorem assignFills_fit (machine : Machine) (disk : Disk) : AllFit (assignFills machine disk) := by
  have path : (Fill.string .assignBuf assignPath).Fits := by
    rw [string_fits]
    simp [FixedBuffer.size, assignPath, systemDrive, ascii]
  rw [assignFills, allFit_cons]
  refine ⟨path, ?_⟩
  cases machine.gemdos.loadFile (disk assignPath) with
  | none => exact allFit_nil
  | some assign => exact readAssignFills_fit _ _ _

/-! ## Printed lines -/

theorem magxLine_length (r : Res) : (magxLine r).length ≤ 21 := by
  have rez := formatD_short_length r.rez
  have vmode := formatD_short_length r.vmode
  have key : (ascii "#_DEV ").length = 6 := rfl
  have blank : (ascii " ").length = 1 := rfl
  have ending : crlf.length = 2 := rfl
  simp only [magxLine, List.length_append]
  omega

theorem magxFills_fit (machine : Machine) (r : Res) (file : Option Bytes) :
    AllFit (magxFills machine r file) := by
  have line : (Fill.string .magxLinebuf (magxLine r)).Fits := by
    have short := magxLine_length r
    rw [string_fits]
    simp only [FixedBuffer.size]
    omega
  rw [magxFills]
  cases machine.gemdos.loadFile file with
  | none => exact allFit_nil
  | some buf =>
      simp only [allFit_append]
      refine ⟨⟨lineFills_fit _ _ _, ?_⟩, ?_⟩
      · split_ifs
        · exact lineFills_fit _ _ _
        · exact allFit_nil
      · split_ifs
        · simpa using line
        · exact allFit_nil

theorem xaaesBlock_length (r : Res) : (xaaesBlock r).length ≤ 43 := by
  have rez := formatD_short_length r.rez
  have vmode := formatX_length_bound 4 r.vmode.toInt
  have first : (ascii "SCREENDEV = ").length = 12 := rfl
  have second : (ascii "MODECODE = 0x").length = 13 := rfl
  have ending : crlf.length = 2 := rfl
  simp only [xaaesBlock, List.length_append]
  omega

theorem myaesBlock_length (r : Res) : (myaesBlock r).length ≤ 57 := by
  have vmode := formatD_short_length r.vmode
  have least := r.rez.le_toInt
  have greatest := r.rez.toInt_lt
  have rez : (formatD (r.rez.toInt - 2)).length ≤ 6 := formatD_length_le (by omega) (by omega)
  have esetshift : (formatD 0).length ≤ 6 := formatD_length_le (by decide) (by decide)
  have first : (ascii "vsetmode = ").length = 11 := rfl
  have second : (ascii "rezmode = ").length = 10 := rfl
  have third : (ascii "esetshift = ").length = 12 := rfl
  have ending : crlf.length = 2 := rfl
  simp only [myaesBlock, List.length_append]
  omega

theorem fvdiDriver_length (r : Res) : (fvdiDriver r).length ≤ 15 := by
  have planes := formatD_short_length r.planes
  have key : (ascii "#[driver").length = 8 := rfl
  have bracket : (ascii "]").length = 1 := rfl
  simp only [fvdiDriver, List.length_append]
  omega

theorem fvdiLine_length (driver : Bytes) (r : Res) :
    (fvdiLine driver r).length ≤ driver.length + 39 := by
  have hres := formatD_short_length r.hres
  have vres := formatD_short_length r.vres
  have planes := formatD_short_length r.planes
  have freq := formatD_short_length r.freq
  have record : (ascii "01r ").length = 4 := rfl
  have mode : (ascii " mode ").length = 6 := rfl
  have by_ : (ascii "x").length = 1 := rfl
  have at_ : (ascii "@").length = 1 := rfl
  have ending : crlf.length = 2 := rfl
  simp only [fvdiLine, List.length_append]
  omega

/-! ## `driverid` -/

theorem driveridCopy_length {memory copy : Bytes} {oldsize : Nat} {r : Res}
    (copies : driveridCopy memory oldsize r = some copy) : copy.length < 31 := by
  simp only [driveridCopy] at copies
  split_ifs at copies with found fits
  cases copies
  rw [fvdiCopy, List.length_map, readMemory_length]
  omega

/-- What the copy leaves of the key is what it does not reach. -/
theorem fvdiDriverId_eq (memory : Bytes) (oldsize : Nat) (r : Res) :
    fvdiDriverId memory oldsize r =
      match driveridCopy memory oldsize r with
      | none => fvdiDriver r ++ [0]
      | some copy => copy ++ (fvdiDriver r ++ [0]).drop copy.length := by
  simp only [fvdiDriverId, driveridCopy]
  split_ifs
  · simp only [fvdiCopy, List.length_map, readMemory_length]
  · rfl
  · rfl

theorem fvdiDriverId_length (memory : Bytes) (oldsize : Nat) (r : Res) :
    (fvdiDriverId memory oldsize r).length ≤ 30 := by
  have key := fvdiDriver_length r
  rw [fvdiDriverId_eq]
  cases copies : driveridCopy memory oldsize r with
  | none =>
      simp only [List.length_append, List.length_singleton]
      omega
  | some copy =>
      have short := driveridCopy_length copies
      simp only [List.length_append, List.length_drop, List.length_singleton]
      omega

/-- A string ends in `driverid`, inside the buffer. -/
def DriveridEnded (machine : Machine) (r : Res) (file : Option Bytes) : Prop :=
  ∀ buf, machine.gemdos.loadFile file = some buf →
    0 ∈ fvdiDriverId (buf ++ machine.behind) buf.length r ∧
      (fvdiDriverId (buf ++ machine.behind) buf.length r).length ≤ FixedBuffer.driverid.size

/-- The copied text ends with the line, and the line end is copied as NUL. -/
theorem driverid_ended (machine : Machine) (r : Res) (file : Option Bytes) :
    DriveridEnded machine r file := by
  intro buf _
  have inside := fvdiDriverId_length (buf ++ machine.behind) buf.length r
  refine ⟨?_, by simp only [FixedBuffer.size]; omega⟩
  cases search : cutLine (fvdiDriver r) (lines buf) with
  | none =>
      rw [fvdiDriverId_hidden (cutLine_eq_none.mp search)]
      simp
  | some parts =>
      rcases parts with ⟨front, line, back⟩
      have cut := cutLine_eq_some.mp search
      rw [fvdiDriverId_cut cut]
      split_ifs
      · rcases fvdiText_last cut with ⟨c, last, ends⟩
        refine List.mem_append_left _ (List.mem_map.mpr ⟨c, List.mem_of_getLast? last, ?_⟩)
        rcases ends with rfl | rfl <;> simp
      · simp

theorem fvdiRecordFills_fit (machine : Machine) (r : Res) (memory : Bytes) (oldsize : Nat) :
    AllFit (fvdiRecordFills machine r memory oldsize) := by
  have line : (Fill.string .tmpbuf
      (fvdiLine (cstring (fvdiDriverId memory oldsize r)) r)).Fits := by
    have whole := fvdiDriverId_length memory oldsize r
    have driver : (cstring (fvdiDriverId memory oldsize r)).length ≤
        (fvdiDriverId memory oldsize r).length := (List.takeWhile_prefix _).length_le
    have short := fvdiLine_length (cstring (fvdiDriverId memory oldsize r)) r
    rw [string_fits]
    simp only [FixedBuffer.size]
    omega
  rw [fvdiRecordFills]
  refine allFit_append.mpr ⟨lineFills_fit _ _ _, ?_⟩
  split
  · refine allFit_append.mpr ⟨lineFills_fit _ _ _, ?_⟩
    split
    · split_ifs
      · simpa using line
      · exact allFit_nil
    · exact allFit_nil
  · exact allFit_nil

theorem fvdiFills_fit (machine : Machine) (r : Res) (file : Option Bytes) :
    AllFit (fvdiFills machine r file) := by
  have path : (Fill.string .tmpbuf fvdiPath).Fits := by
    rw [string_fits]
    simp [FixedBuffer.size, fvdiPath, systemDrive, ascii]
  have key : (Fill.string .driverid (fvdiDriver r)).Fits := by
    have short := fvdiDriver_length r
    rw [string_fits]
    simp only [FixedBuffer.size]
    omega
  rw [fvdiFills, allFit_cons]
  refine ⟨path, ?_⟩
  cases machine.gemdos.loadFile file with
  | none => exact allFit_nil
  | some buf =>
      simp only [allFit_cons, allFit_append]
      refine ⟨key, ⟨lineFills_fit _ _ _, ?_⟩, ?_⟩
      · cases copies : driveridCopy (buf ++ machine.behind) buf.length r with
        | none => exact allFit_nil
        | some copy =>
            have short := driveridCopy_length copies
            simp only [Option.map_some, Option.toList_some, allFit_cons, allFit_nil, and_true,
              Fill.Fits, FixedBuffer.size]
            omega
      · split_ifs
        · exact allFit_nil
        · exact fvdiRecordFills_fit _ _ _ _

/-! ## `modestr` -/

/-- The mode is printed with as many digits as `modestr` has room for. -/
def ModeFits (rez vmode sysAes : Int16) (eoffset linesize : Nat) : Prop :=
  if vmode = 0 ∧ sysAes ≠ systemEmutos ∧ 8 ≤ linesize then 2 ≤ rez.toInt
  else eoffset + 5 ≤ linesize →
    if vmode = 0 ∧ sysAes = systemEmutos then 2 ≤ rez.toInt ∧ rez.toInt ≤ 257
    else 0 ≤ vmode.toInt

/-- One digit is asked for, and up to five have room. -/
theorem formatX_one_fits {value : Int} (least : -2 ^ 31 ≤ value) (greatest : value < 16 ^ 4) :
    (formatX 1 value).length + 1 ≤ 6 ↔ 0 ≤ value := by
  constructor
  · intro fits
    by_contra negative
    have many := formatX_negative_length least (not_le.mp negative) 1
    omega
  · intro nonneg
    have few := @formatX_length_le value 1 4 nonneg (by decide) greatest (by decide)
    omega

/-- Two digits are asked for, and no more have room. -/
theorem formatX_two_fits {value : Int} (least : -2 ^ 31 ≤ value) (greatest : value < 16 ^ 4) :
    (formatX 2 value).length ≤ 2 ↔ 0 ≤ value ∧ value ≤ 255 := by
  constructor
  · intro fits
    have nonneg : 0 ≤ value := by
      by_contra negative
      have many := formatX_negative_length least (not_le.mp negative) 2
      omega
    refine ⟨nonneg, ?_⟩
    by_contra large
    have many := @lt_digits_length 16 2 (value % 2 ^ 32).toNat (by decide) (by decide) (by omega)
    rw [formatX_length] at fits
    omega
  · intro byte
    have few := @formatX_length_le value 2 2 byte.1 (by decide) (by omega) (by decide)
    omega

variable {rez vmode sysAes : Int16} {eoffset linesize : Nat}

theorem vmode_fits (vmode : Int16) :
    (formatX 2 (vmode >>> 8).toInt ++ ascii " " ++ formatX 2 (vmode &&& 0xff).toInt).length + 1
      ≤ 6 ↔ 0 ≤ vmode.toInt := by
  rcases vmode_bytes vmode with ⟨high, low⟩
  have least := vmode.le_toInt
  have greatest := vmode.toInt_lt
  have highDigits := formatX_length_ge 2 (vmode >>> 8).toInt
  have lowDigits := formatX_length_ge 2 (vmode &&& 0xff).toInt
  have highFits := @formatX_two_fits (vmode >>> 8).toInt (by omega) (by omega)
  have lowFits := @formatX_two_fits (vmode &&& 0xff).toInt (by omega) (by omega)
  have blank : (ascii " ").length = 1 := rfl
  simp only [List.length_append]
  omega

/-- What is printed into `modestr` fits. -/
theorem deskModestr_fits :
    AllFit ((deskModestr rez vmode sysAes eoffset linesize).map (Fill.string .modestr)).toList ↔
      ModeFits rez vmode sysAes eoffset linesize := by
  have least := rez.le_toInt
  have greatest := rez.toInt_lt
  unfold deskModestr ModeFits
  split_ifs with digit room emutos
  · have fits := @formatX_one_fits (rez.toInt - 2) (by omega) (by omega)
    simp only [Option.map_some, Option.toList_some, allFit_cons, allFit_nil, and_true,
      string_fits, FixedBuffer.size, fits]
    omega
  · have fits := @formatX_two_fits (rez.toInt - 2) (by omega) (by omega)
    have digits := formatX_length_ge 2 (rez.toInt - 2)
    have marker : (ascii "FF ").length = 3 := rfl
    simp only [Option.map_some, Option.toList_some, allFit_cons, allFit_nil, and_true,
      string_fits, FixedBuffer.size, List.length_append, room, forall_const]
    omega
  · simp only [Option.map_some, Option.toList_some, allFit_cons, allFit_nil, and_true,
      string_fits, FixedBuffer.size, vmode_fits, room, forall_const]
  · simp [room]
  · simp [room]

/-- The mode is printed for the line that `find_line` finds. -/
theorem deskBaseFills_fit (source : Bytes × Bytes) :
    AllFit (deskBaseFills rez vmode sysAes eoffset source) ↔
      ∀ front line back, Cut deskKey (lines source.1) front line back →
        ModeFits rez vmode sysAes eoffset line.length := by
  rw [deskBaseFills, allFit_append]
  simp only [lineFills_fit, true_and]
  cases search : cutLine deskKey (lines source.1) with
  | none =>
      have isKey := deskKey_isKey
      have remain := findLine_hidden source.2 isKey.noNul isKey.ne_nil
        (cutLine_eq_none.mp search)
      rw [if_neg (by omega)]
      simp only [allFit_nil, true_iff]
      intro front line back cut
      rw [cutLine_eq_some.mpr cut] at search
      cases search
  | some parts =>
      rcases parts with ⟨front, line, back⟩
      have cut := cutLine_eq_some.mp search
      have found := findLine_cut source.2 deskKey_isKey.noNul cut
      have remains := cut.back_pos
      rw [found, if_pos remains, deskModestr_fits]
      constructor
      · intro fits front' line' back' other
        rw [cutLine_eq_some.mpr other] at search
        cases search
        exact fits
      · intro all
        exact all front line back cut

/-! ## Names of files -/

/-- The folder that the saver finds leaves room for the name of its file in `tmpbuf`. -/
def FolderShort (machine : Machine) : Saver → Prop
  | .desk .naes => ∀ aesdir, DeskSaver.naesDir machine = some aesdir → aesdir.length ≤ 244
  | .cnf .xaaes =>
      (∀ aesdir, machine.processPath (ascii "XaSYS") = some aesdir → aesdir.length ≤ 245) ∧
        (machine.processPath (ascii "XaSYS") = none → ∀ sysdir,
          machine.getenv (ascii "SYSDIR") = some sysdir → sysdir.length ≤ 239)
  | .cnf .myaes =>
      ∀ aesdir, machine.processPath (ascii "myaes") = some aesdir → aesdir.length ≤ 245
  | _ => True

theorem desk_path_fits (saver : DeskSaver) (machine : Machine) :
    (∀ path, saver.path machine = some path → (Fill.string .tmpbuf path).Fits) ↔
      FolderShort machine (.desk saver) := by
  simp only [string_fits, FixedBuffer.size]
  cases saver with
  | emudesk =>
      simp only [DeskSaver.path, Option.some.injEq, forall_eq', FolderShort, iff_true]
      decide +kernel
  | newdesk =>
      simp only [DeskSaver.path, Option.some.injEq, forall_eq', FolderShort, iff_true]
      decide +kernel
  | naes =>
      have name : (ascii "/n_desk.inf").length = 11 := rfl
      rw [FolderShort, DeskSaver.path]
      cases DeskSaver.naesDir machine with
      | none => simp
      | some aesdir =>
          simp only [Option.map_some, Option.some.injEq, forall_eq', List.length_append]
          omega

theorem cnf_path_fits (saver : CnfSaver) (machine : Machine) :
    (∀ path, saver.path machine = some path → (Fill.string .tmpbuf path).Fits) ↔
      FolderShort machine (.cnf saver) := by
  have name : (ascii "/xaaes.cnf").length = 10 := rfl
  have below : (ascii "/xaaes/xaaes.cnf").length = 16 := rfl
  have myaes : (ascii "/myaes.cnf").length = 10 := rfl
  have usual : (ascii "c:\\gemsys\\myaes").length = 15 := rfl
  simp only [string_fits, FixedBuffer.size]
  cases saver with
  | xaaes =>
      rw [FolderShort, CnfSaver.path, xaaesPath]
      cases machine.processPath (ascii "XaSYS") with
      | some aesdir =>
          simp only [Option.some.injEq, forall_eq', List.length_append, reduceCtorEq,
            false_implies, and_true]
          omega
      | none =>
          cases machine.getenv (ascii "SYSDIR") with
          | none => simp
          | some sysdir =>
              simp only [Option.map_some, Option.some.injEq, forall_eq', List.length_append,
                reduceCtorEq, false_implies, forall_const, true_and]
              omega
  | myaes =>
      rw [FolderShort, CnfSaver.path, myaesPath]
      cases machine.processPath (ascii "myaes") with
      | some aesdir =>
          simp only [Option.getD_some, Option.some.injEq, forall_eq', List.length_append]
          omega
      | none =>
          simp only [Option.getD_none, Option.some.injEq, forall_eq', List.length_append,
            reduceCtorEq, false_implies, implies_true, iff_true]
          omega

/-! ## The savers -/

/-- The mode fits wherever the desktop saver prints it. -/
def DeskModeFits (saver : DeskSaver) (machine : Machine) (r : Res) (newdeskText : Bytes)
    (disk : Disk) : Prop :=
  ∀ path, saver.path machine = some path → ∀ source,
    deskSource machine (saver.defaultbuf newdeskText) (disk path) = some source →
    ∀ front line back, Cut deskKey (lines source.1) front line back →
      ModeFits r.rez r.vmode machine.sysAes saver.eoffset line.length

variable {machine : Machine} {r : Res} {newdeskText : Bytes} {disk : Disk}

theorem deskFills_fit (saver : DeskSaver) :
    AllFit (deskFills saver machine r newdeskText disk) ↔
      FolderShort machine (.desk saver) ∧ DeskModeFits saver machine r newdeskText disk := by
  rw [← desk_path_fits, DeskModeFits, deskFills]
  cases saver.path machine with
  | none => simp
  | some path =>
      simp only [allFit_cons, Option.some.injEq, forall_eq']
      refine and_congr_right fun _ => ?_
      cases deskSource machine (saver.defaultbuf newdeskText) (disk path) with
      | none => simp
      | some source => simp only [deskBaseFills_fit, Option.some.injEq, forall_eq']

theorem removeFills_fit : ∀ (keys : List Bytes) (state : CnfState),
    AllFit (removeFills keys state)
  | [], _ => allFit_nil
  | key :: keys, state => by
      rw [removeFills, allFit_append]
      refine ⟨lineFills_fit _ _ _, ?_⟩
      split
      · exact allFit_nil
      · exact removeFills_fit keys _

theorem block_fits (saver : CnfSaver) (r : Res) :
    (Fill.string .tmpbuf (saver.block r)).Fits := by
  rw [string_fits]
  simp only [FixedBuffer.size]
  cases saver with
  | xaaes =>
      have short := xaaesBlock_length r
      simp only [CnfSaver.block]
      omega
  | myaes =>
      have short := myaesBlock_length r
      simp only [CnfSaver.block]
      omega

theorem cnfFills_fit (saver : CnfSaver) :
    AllFit (cnfFills saver machine r disk) ↔ FolderShort machine (.cnf saver) := by
  rw [← cnf_path_fits, cnfFills]
  cases saver.path machine with
  | none => simp
  | some path =>
      simp only [allFit_cons, Option.some.injEq, forall_eq', and_iff_left_iff_imp]
      intro _
      cases machine.gemdos.loadFile (disk path) with
      | none => exact allFit_nil
      | some buf =>
          simp only
          split_ifs
          · exact allFit_append.mpr
              ⟨removeFills_fit _ _, allFit_cons.mpr ⟨block_fits saver r, allFit_nil⟩⟩
          · exact allFit_nil

namespace Filler

/-- Everything that is put into a buffer fits it, and `driverid` is printed only up to its
own end. -/
def Fits (machine : Machine) (r : Res) (newdeskText : Bytes) (disk : Disk)
    (filler : Filler) : Prop :=
  AllFit (filler.fills machine r newdeskText disk) ∧
    (filler = .saver .fvdi → DriveridEnded machine r (disk fvdiPath))

/-- What the size of the buffers takes for granted. -/
def Safe (machine : Machine) (r : Res) (newdeskText : Bytes) (disk : Disk) : Filler → Prop
  | .saver (.desk deskSaver) => FolderShort machine (.desk deskSaver) ∧
      DeskModeFits deskSaver machine r newdeskText disk
  | .saver other => FolderShort machine other
  | _ => True

/-- Everything fits exactly if the folder leaves room for the name of the file and, in a
desktop file, the mode has as many digits as are asked for. -/
theorem fits_iff (filler : Filler) (machine : Machine) (r : Res) (newdeskText : Bytes)
    (disk : Disk) :
    filler.Fits machine r newdeskText disk ↔ filler.Safe machine r newdeskText disk := by
  rw [Fits]
  cases filler with
  | saver saver =>
      cases saver with
      | magx => simp [fills, Safe, FolderShort, magxFills_fit]
      | desk deskSaver => simp [fills, Safe, deskFills_fit]
      | cnf cnfSaver => simp [fills, Safe, cnfFills_fit]
      | fvdi => simp [fills, Safe, FolderShort, fvdiFills_fit, driverid_ended]
  | olddesk =>
      have path : AllFit olddeskFills := by
        simp only [olddeskFills, allFit_cons, allFit_nil, and_true, string_fits]
        decide +kernel
      simp [fills, Safe, path]
  | assign => simp [fills, Safe, assignFills_fit]

/-- XaAES was started from a folder with a name of 254 characters. -/
def deepMachine : Machine where
  gemdos := .obliging
  processPath _ := getProcessPath 12 (some (ascii "/" ++ List.replicate 253 0x61 ++ ascii "/xaaes"))
  getenv _ := none
  sysAes := 0
  behind := []
  stack := 0

def deepMode : Res := ⟨false, 2, 0, flagInfo, 640, 400, 640, 400, 1, 60, 0⟩

/-- The name of `xaaes.cnf` has no room in `tmpbuf`. -/
theorem deep_folder_overflows :
    ¬Fits deepMachine deepMode [] (fun _ => none) (.saver (.cnf .xaaes)) := by
  intro fits
  have all : fills deepMachine deepMode [] (fun _ => none) (.saver (.cnf .xaaes)) =
      [.string .tmpbuf (ascii "/" ++ List.replicate 253 0x61 ++ ascii "/xaaes.cnf")] := by
    decide +kernel
  have short := fits.1 _ (by rw [all]; exact List.mem_singleton_self _)
  rw [string_fits] at short
  exact absurd short (by decide +kernel)

end Filler

end Chgres
