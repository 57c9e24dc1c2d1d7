import Chgres.Foundation.Words
import Chgres.Format
import Chgres.Save.Writing
import Chgres.Utils.ScanLines

/-! # Desktop files

`save_desk_inf_base` and the savers of `emudesk.inf`, `newdesk.inf` and `n_desk.inf`.
The mode is poked into the `#E` line of the file, or of `default_newdesk` where there
is no file. The whole text is then written to a created file.
-/

namespace Chgres

open Text Words

def deskKey : Bytes := ascii "#E "

/-- `F_SYSTEM_EMUTOS` -/
def systemEmutos : Int16 := 3

/-- The column and the characters that are poked into a line of `linesize` bytes. -/
def deskPatch (rez vmode sysAes : Int16) (eoffset linesize : Nat) : Option (Nat × Bytes) :=
  if vmode = 0 ∧ sysAes ≠ systemEmutos ∧ 8 ≤ linesize then
    some (7, (strupr (formatX 1 (rez.toInt - 2))).take 1)
  else if eoffset + 5 ≤ linesize then
    let modestr :=
      if vmode = 0 ∧ sysAes = systemEmutos then
        ascii "FF " ++ formatX 2 (rez.toInt - 2)
      else formatX 2 (vmode >>> 8).toInt ++ ascii " " ++ formatX 2 (vmode &&& 0xff).toInt
    some (eoffset, (strupr modestr).take 5)
  else none

/-- The text with the mode poked in, unless the saver finds no place for it. -/
def deskText (rez vmode sysAes : Int16) (eoffset : Nat) (buf behind : Bytes) :
    Option Bytes :=
  let found := findLine (buf ++ behind) deskKey buf.length
  if 0 < found.remain then
    (deskPatch rez vmode sysAes eoffset found.linesize).map fun patch =>
      poke buf (found.offset + patch.1) patch.2
  else none

/-- What `save_desk_inf_base` leaves: its result, the file and the default text, which
is changed in place. -/
structure DeskSaved where
  ret : Int
  file : Option Bytes
  defaultbuf : Option Bytes
  deriving DecidableEq, Repr

/-- `Fcreate` is taken to have succeeded unless it returns zero, which it never does. -/
def writeDesk (gemdos : Gemdos) (text : Bytes) (file : Option Bytes) : Int × Option Bytes :=
  let written :=
    if 0 < gemdos.writeHandle then some (gemdos.fwrite 0 text .create).contents else file
  (if gemdos.writeHandle ≠ 0 then 1 else 0, written)

def saveDeskInfBase (machine : Machine) (rez vmode : Int16) (eoffset : Nat)
    (defaultbuf file : Option Bytes) : DeskSaved :=
  match machine.gemdos.loadFile file with
  | some lbuf =>
      match deskText rez vmode machine.sysAes eoffset lbuf machine.behind with
      | none => ⟨0, file, defaultbuf⟩
      | some text =>
          let saved := writeDesk machine.gemdos text file
          ⟨saved.1, saved.2, defaultbuf⟩
  | none =>
      match defaultbuf with
      | none => ⟨0, file, none⟩
      | some buf =>
          if buf = [] then ⟨0, file, some buf⟩
          else
            -- a string ends with its NUL
            match deskText rez vmode machine.sysAes eoffset buf [0] with
            | none => ⟨0, file, some buf⟩
            | some text =>
                let saved := writeDesk machine.gemdos text file
                ⟨saved.1, saved.2, some text⟩

/-- `default_newdesk` as the program is loaded. -/
def defaultNewdesk : Bytes :=
  ascii "#a000000\r\n" ++
  ascii "#b000000\r\n" ++
  ascii "#c7770007000600070055200505552220770557075055507703111103\r\n" ++
  ascii "#d                                             \r\n" ++
  (ascii "#K 4F 53 4C 00 46 42 43 57 45 58 00 00 00 00 00 00 00 00 00 00 00 00 00 52 00 00 " ++
    ascii "4D 56 00 00 00 @\r\n") ++
  ascii "#E 18 13 00 06 00 00 00 00 00 00 \r\n" ++
  ascii "#Q 41 40 43 40 43 40 \r\n" ++
  ascii "#W 00 00 0C 06 26 0C 00 @\r\n" ++
  ascii "#W 00 00 02 0B 26 09 00 @\r\n" ++
  ascii "#W 00 00 0A 0F 1A 09 00 @\r\n" ++
  ascii "#W 00 00 0E 01 1A 09 00 @\r\n" ++
  ascii "#W 00 00 04 07 26 0C 00 @\r\n" ++
  ascii "#W 00 00 0C 0B 26 09 00 @\r\n" ++
  ascii "#W 00 00 08 0F 1A 09 00 @\r\n" ++
  ascii "#W 00 00 06 01 1A 09 00 @\r\n" ++
  ascii "#N FF 04 000 @ *.*@ @ \r\n" ++
  ascii "#D FF 01 000 @ *.*@ @ \r\n" ++
  ascii "#G 03 FF 000 *.APP@ @ @ \r\n" ++
  ascii "#G 03 FF 000 *.PRG@ @ @ \r\n" ++
  ascii "#Y 03 FF 000 *.GTP@ @ @ \r\n" ++
  ascii "#P 03 FF 000 *.TTP@ @ @ \r\n" ++
  ascii "#F 03 04 000 *.TOS@ @ @ \r\n" ++
  ascii "#M 00 01 00 FF C HARD DISK@ @ \r\n" ++
  ascii "#M 00 00 00 FF A FLOPPY DISK@ @ \r\n" ++
  ascii "#M 01 00 00 FF B FLOPPY DISK@ @ \r\n" ++
  ascii "#T 00 03 02 FF   TRASH@ @ "

/-! ## The savers -/

inductive DeskSaver
  | emudesk
  | newdesk
  | naes
  deriving DecidableEq, Repr

namespace DeskSaver

def eoffset : DeskSaver → Nat
  | emudesk => 9
  | newdesk => 15
  | naes => 15

/-- The folder of `n_desk.inf`. -/
def naesDir (machine : Machine) : Option Bytes :=
  match machine.processPath (ascii "AESSYS") with
  | some aesdir => some aesdir
  | none =>
      match machine.getenv (ascii "AESDIR") with
      | none => none
      | some aesdir => if aesdir = [] then none else some aesdir

def path (machine : Machine) : DeskSaver → Option Bytes
  | emudesk => some (systemDrive ++ ascii "\\emudesk.inf")
  | newdesk => some (systemDrive ++ ascii "\\newdesk.inf")
  | naes => (naesDir machine).map (· ++ ascii "/n_desk.inf")

/-- Only `save_emudesk_inf` has no default text. -/
def defaultbuf (newdeskText : Bytes) : DeskSaver → Option Bytes
  | emudesk => none
  | newdesk => some newdeskText
  | naes => some newdeskText

/-- `save_emudesk_inf`, `save_newdesk_inf` and `save_naes_inf`: the result, the files and
the text of `default_newdesk`. -/
def save (saver : DeskSaver) (machine : Machine) (r : Res) (newdeskText : Bytes)
    (disk : Disk) : Int × Disk × Bytes :=
  match saver.path machine with
  | none => (0, disk, newdeskText)
  | some path =>
      let saved := saveDeskInfBase machine r.rez r.vmode saver.eoffset
        (saver.defaultbuf newdeskText) (disk path)
      (saved.ret, disk.set path saved.file, saved.defaultbuf.getD newdeskText)

end DeskSaver

/-! ## Where the mode goes -/

theorem deskKey_isKey : IsKey deskKey := by
  simp [IsKey, deskKey, ascii, cr, lf, isBlank, isComment]

variable {rez vmode sysAes : Int16} {eoffset : Nat} {buf behind : Bytes}
  {front back : List Bytes} {line : Bytes}

theorem deskText_hidden (hidden : HiddenIn deskKey (lines buf)) :
    deskText rez vmode sysAes eoffset buf behind = none := by
  have remain := findLine_hidden behind deskKey_isKey.noNul deskKey_isKey.ne_nil hidden
  have notFound : ¬0 < (findLine (buf ++ behind) deskKey buf.length).remain := by omega
  simp only [deskText, if_neg notFound]

/-- The patch fits the line. -/
theorem deskPatch_within {linesize column : Nat} {data : Bytes}
    (patch : deskPatch rez vmode sysAes eoffset linesize = some (column, data)) :
    column + data.length ≤ linesize := by
  rw [deskPatch] at patch
  split_ifs at patch with digit room
  · cases patch
    have one := List.length_take_le 1 (strupr (formatX 1 (rez.toInt - 2)))
    omega
  · cases patch
    have five := List.length_take_le 5 (strupr (ascii "FF " ++ formatX 2 (rez.toInt - 2)))
    omega
  · cases patch
    have five := List.length_take_le 5 (strupr (formatX 2 (vmode >>> 8).toInt ++
      ascii " " ++ formatX 2 (vmode &&& 0xff).toInt))
    omega

theorem poke_middle {before middle after data : Bytes} {column : Nat}
    (within : column + data.length ≤ middle.length) :
    poke (before ++ middle ++ after) (before.length + column) data =
      before ++ poke middle column data ++ after := by
  have first : (before ++ middle ++ after).take (before.length + column) =
      before ++ middle.take column := by
    rw [List.append_assoc, List.take_length_add_append,
      List.take_append_of_le_length (by omega)]
  have last : (before ++ middle ++ after).drop (before.length + column + data.length) =
      middle.drop (column + data.length) ++ after := by
    rw [List.append_assoc, Nat.add_assoc, ← List.drop_drop, List.drop_left,
      List.drop_append_of_le_length within]
  rw [poke, first, last, poke]
  simp only [List.append_assoc]

/-- The mode goes into the first line that shows `#E `, counted from its start. -/
theorem deskText_cut (cut : Cut deskKey (lines buf) front line back) :
    deskText rez vmode sysAes eoffset buf behind =
      (deskPatch rez vmode sysAes eoffset line.length).map fun patch =>
        front.flatten ++ poke line patch.1 patch.2 ++ back.flatten := by
  have whole : buf = front.flatten ++ line ++ back.flatten := by
    rw [eq_flatten cut.split]
    simp
  simp only [deskText, findLine_cut behind deskKey_isKey.noNul cut, if_pos cut.back_pos]
  cases patch : deskPatch rez vmode sysAes eoffset line.length with
  | none => rfl
  | some found =>
      rw [Option.map_some, Option.map_some, Option.some.injEq]
      conv_lhs => rw [whole]
      exact poke_middle (deskPatch_within patch)

end Chgres
