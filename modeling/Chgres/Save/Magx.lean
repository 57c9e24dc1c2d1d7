import Chgres.Format
import Chgres.Save.Writing
import Chgres.Utils.ScanLines

/-! # `MAGX.INF`

`save_magx_inf` replaces the `#_DEV` line or, where it finds none, puts a new one
behind the `#[aes]` line or at the start of the file.
-/

namespace Chgres

open Text

def magxPath : Bytes := ascii "\\MAGX.INF"

def magxDev : Bytes := ascii "#_DEV"

def magxAes : Bytes := ascii "#[aes]"

/-- `"#_DEV %d %d\r\n"` -/
def magxLine (r : Res) : Bytes :=
  ascii "#_DEV " ++ formatD r.rez.toInt ++ ascii " " ++ formatD r.vmode.toInt ++ crlf

/-- The searches: the place of the new line, `remain` and `linesize`. -/
def magxFind (memory : Bytes) (size : Nat) : Found :=
  let dev := findLine memory magxDev size
  if dev.remain = 0 then
    let aes := findLine memory magxAes size
    ⟨aes.offset + aes.linesize, aes.remain, 0⟩
  else dev

/-- The three writes into the created file. -/
def writeMagx (gemdos : Gemdos) (memory : Bytes) (size : Nat) (found : Found) (r : Res) :
    OpenFile :=
  let (file, p) :=
    if 0 < found.remain then
      (gemdos.fwrite 0 (readMemory memory 0 found.offset) .create,
        found.offset + found.linesize)
    else (.create, 0)
  let file := gemdos.fwrite 1 (magxLine r) file
  gemdos.fwrite 2 (readMemory memory p (size - p)) file

def saveMagxInf (machine : Machine) (r : Res) (disk : Disk) : Int × Disk :=
  match machine.gemdos.loadFile (disk magxPath) with
  | none => (0, disk)
  | some buf =>
      let memory := buf ++ machine.behind
      let found := magxFind memory buf.length
      if 0 < machine.gemdos.writeHandle then
        let file := writeMagx machine.gemdos memory buf.length found r
        (1, disk.set magxPath (some file.contents))
      else (0, disk)

/-! ## The gap for the new line -/

/-- The text in front of a gap and the text behind it. -/
structure Gap where
  before : Bytes
  after : Bytes
  deriving DecidableEq, Repr

/-- Behind the first line that shows `#[aes]`, unless it is the last line. -/
def aesGap (contents : Bytes) : Gap :=
  match cutLine magxAes (lines contents) with
  | none => ⟨[], contents⟩
  | some (front, line, back) => ⟨front.flatten ++ line, back.flatten⟩

/-- The gap that the saver fills with its line. A scan for `#_DEV` that runs off the
file passes for a match. -/
def magxGap (contents behind : Bytes) : Gap :=
  match cutLine magxDev (lines contents) with
  | none => if Glued contents behind then ⟨[], contents⟩ else aesGap contents
  | some (front, _, back) => ⟨front.flatten, back.flatten⟩

theorem magxDev_isKey : IsKey magxDev := by
  simp [IsKey, magxDev, ascii, cr, lf, isBlank, isComment]

theorem magxAes_isKey : IsKey magxAes := by
  simp [IsKey, magxAes, ascii, cr, lf, isBlank, isComment]

variable {contents behind : Bytes}

theorem magxFind_hidden (hidden : HiddenIn magxDev (lines contents)) :
    magxFind (contents ++ behind) contents.length =
      if Glued contents behind then findLine (contents ++ behind) magxDev contents.length
      else
        let aes := findLine (contents ++ behind) magxAes contents.length
        ⟨aes.offset + aes.linesize, aes.remain, 0⟩ := by
  have remain := findLine_hidden behind magxDev_isKey.noNul magxDev_isKey.ne_nil hidden
  by_cases glued : Glued contents behind
  · simp [magxFind, remain, overrun, glued]
  · simp [magxFind, remain, overrun, glued]

/-- Nothing is found: the new line comes first. -/
theorem writeMagx_start (gemdos : Gemdos) (r : Res) {found : Found}
    (none : found.remain ≤ 0) :
    writeMagx gemdos (contents ++ behind) contents.length found r =
      gemdos.writeAll 0 [[], magxLine r, contents] .create := by
  have notFound : ¬0 < found.remain := by omega
  simp only [writeMagx, if_neg notFound, Nat.sub_zero, readMemory_start, Gemdos.writeAll,
    Gemdos.fwrite_nil, Nat.zero_add, Nat.reduceAdd]

/-- Something is found: the new line comes behind the first part of the file and
`linesize` bytes are left out. -/
theorem writeMagx_found (gemdos : Gemdos) (r : Res) {before gone after : Bytes}
    {remain : Int} (some : 0 < remain) (split : contents = before ++ gone ++ after) :
    writeMagx gemdos (contents ++ behind) contents.length
        ⟨before.length, remain, gone.length⟩ r =
      gemdos.writeAll 0 [before, magxLine r, after] .create := by
  subst split
  have first : readMemory (before ++ gone ++ after ++ behind) 0 before.length = before := by
    rw [List.append_assoc, List.append_assoc, readMemory_start]
  have left : (before ++ gone ++ after).length - (before.length + gone.length) =
      after.length := by
    simp only [List.length_append]
    omega
  have last : readMemory (before ++ gone ++ after ++ behind)
      (before.length + gone.length) after.length = after := by
    rw [← List.length_append, readMemory_middle]
  simp only [writeMagx, if_pos some, first, left, last, Gemdos.writeAll, Nat.zero_add,
    Nat.reduceAdd]

/-- The saver writes the two sides of the gap with the new line between them. -/
theorem writeMagx_gap (gemdos : Gemdos) (contents behind : Bytes) (r : Res) :
    writeMagx gemdos (contents ++ behind) contents.length
        (magxFind (contents ++ behind) contents.length) r =
      gemdos.writeAll 0 [(magxGap contents behind).before, magxLine r,
        (magxGap contents behind).after] .create := by
  rw [magxGap]
  cases dev : cutLine magxDev (lines contents) with
  | some parts =>
      rcases parts with ⟨front, line, back⟩
      have cut := cutLine_eq_some.mp dev
      have found := findLine_cut behind magxDev_isKey.noNul cut
      have remains := cut.back_pos
      have notZero : ¬(back.flatten.length : Int) = 0 := by omega
      have split : contents = front.flatten ++ line ++ back.flatten := by
        rw [eq_flatten cut.split]
        simp
      rw [magxFind, found]
      simp only [if_neg notZero]
      exact writeMagx_found gemdos r remains split
  | none =>
      rw [magxFind_hidden (cutLine_eq_none.mp dev)]
      by_cases glued : Glued contents behind
      · have remain := findLine_hidden behind magxDev_isKey.noNul magxDev_isKey.ne_nil
          (cutLine_eq_none.mp dev)
        simp only [if_pos glued]
        exact writeMagx_start gemdos r (by omega)
      · simp only [if_neg glued, aesGap]
        cases aes : cutLine magxAes (lines contents) with
        | none =>
            have remain := findLine_hidden behind magxAes_isKey.noNul magxAes_isKey.ne_nil
              (cutLine_eq_none.mp aes)
            refine writeMagx_start gemdos r ?_
            simp only
            omega
        | some parts =>
            rcases parts with ⟨front, line, back⟩
            have cut := cutLine_eq_some.mp aes
            have split : contents = front.flatten ++ line ++ [] ++ back.flatten := by
              rw [eq_flatten cut.split]
              simp
            have placed := @writeMagx_found _ behind gemdos r _ _ _ _ cut.back_pos split
            simp only [findLine_cut behind magxAes_isKey.noNul cut, ← List.length_append]
            exact placed

/-- What the saver does with a file that it has loaded. -/
theorem saveMagx_loaded {machine : Machine} {disk : Disk}
    (loaded : machine.gemdos.loadFile (disk magxPath) = some contents) (r : Res) :
    saveMagxInf machine r disk =
      if 0 < machine.gemdos.writeHandle then
        (1, disk.set magxPath (some (machine.gemdos.stored 0
          [(magxGap contents machine.behind).before, magxLine r,
            (magxGap contents machine.behind).after])))
      else (0, disk) := by
  simp only [saveMagxInf, loaded, writeMagx_gap, Gemdos.writeAll_create]

theorem saveMagx_file {machine : Machine} (succeeds : machine.gemdos.Succeeds)
    {disk : Disk} (old : disk magxPath = some contents) (r : Res) :
    (saveMagxInf machine r disk).2 magxPath =
      some ((magxGap contents machine.behind).before ++ magxLine r ++
        (magxGap contents machine.behind).after) := by
  have loaded : machine.gemdos.loadFile (disk magxPath) = some contents := by
    rw [old, Gemdos.loadFile_of_loads succeeds.loads]
  rw [saveMagx_loaded loaded, if_pos succeeds.opens,
    Gemdos.stored_of_complete (Gemdos.complete_of_writes succeeds.writes)]
  simp

end Chgres
