import Chgres.Format
import Chgres.Save.Writing
import Chgres.Utils.CString
import Chgres.Utils.ScanLines

/-! # `fvdi.sys`

`save_fvdi_inf` looks for the driver of the mode's depth in the `#[driverN]` line and
replaces the one `01r` line of the file.
-/

namespace Chgres

open Text

def fvdiPath : Bytes := systemDrive ++ ascii "\\fvdi.sys"

def fvdiRecord : Bytes := ascii "01r "

/-- `"#[driver%d]"` -/
def fvdiDriver (r : Res) : Bytes := ascii "#[driver" ++ formatD r.planes.toInt ++ ascii "]"

/-- `"01r %s mode %dx%dx%d@%d\r\n"` -/
def fvdiLine (driver : Bytes) (r : Res) : Bytes :=
  ascii "01r " ++ driver ++ ascii " mode " ++ formatD r.hres.toInt ++ ascii "x" ++
    formatD r.vres.toInt ++ ascii "x" ++ formatD r.planes.toInt ++ ascii "@" ++
    formatD r.freq.toInt ++ crlf

/-- The loop that copies a line end or a space as NUL. -/
def fvdiCopy (text : Bytes) : Bytes :=
  text.map fun c => if c = cr ∨ c = lf ∨ c = 0x20 then 0 else c

/-- `driverid` after the search: still the key, or what the line holds behind as many
bytes as the key has. -/
def fvdiDriverId (memory : Bytes) (oldsize : Nat) (r : Res) : Bytes :=
  let driverid := fvdiDriver r ++ [0]
  let found := findLine memory (fvdiDriver r) oldsize
  if 0 < found.remain then
    let lp2 := found.offset + (fvdiDriver r).length
    let lp2 := lp2 + ((memory.drop lp2).takeWhile isBlank).length
    let size2 : Int := found.linesize - (lp2 - found.offset)
    if 0 < size2 ∧ size2 < 31 then
      fvdiCopy (readMemory memory lp2 size2.toNat) ++ driverid.drop size2.toNat
    else driverid
  else driverid

/-- The three writes into the created file. -/
def writeFvdi (gemdos : Gemdos) (removed : Removed) (driverid : Bytes) (r : Res) : OpenFile :=
  let size1 := removed.offset
  let size2 := removed.newsize - size1
  let file := gemdos.fwrite 0 (readMemory removed.memory 0 size1) .create
  let file := gemdos.fwrite 1 (fvdiLine (cstring driverid) r) file
  gemdos.fwrite 2 (readMemory removed.memory removed.offset size2) file

def saveFvdi (machine : Machine) (r : Res) (file : Option Bytes) :
    Outcome (Int × Option Bytes) :=
  match machine.gemdos.loadFile file with
  | none => .done (-1, file)
  | some buf =>
      let memory := buf ++ machine.behind
      let driverid := fvdiDriverId memory buf.length r
      if driverid.headD 0 = 0x23 then .done (-1, file)
      else
        (removeLine memory fvdiRecord buf.length).bind fun lp =>
          match lp with
          | none => .done (-1, file)
          | some removed =>
              (removeLine removed.memory fvdiRecord removed.newsize).bind fun lp2 =>
                match lp2 with
                | some _ => .done (-1, file)
                | none =>
                    if 0 < machine.gemdos.writeHandle then
                      .done (1, some (writeFvdi machine.gemdos removed driverid r).contents)
                    else .done (-1, file)

def saveFvdiInf (machine : Machine) (r : Res) (disk : Disk) : Outcome (Int × Disk) :=
  onFile disk fvdiPath (saveFvdi machine r)

/-! ## The driver that is read -/

/-- What is copied from a driver line: counted from the start of the line, not from
the key. -/
def fvdiText (r : Res) (line : Bytes) : Bytes :=
  skipWhite (line.drop (fvdiDriver r).length)

def fvdiWord (text : Bytes) : Bytes :=
  text.takeWhile fun c => c ≠ 0 ∧ c ≠ cr ∧ c ≠ lf ∧ c ≠ 0x20

/-- The driver that the saver writes, if it writes at all. -/
def fvdiReads (r : Res) (ls : List Bytes) : Option Bytes :=
  match cutLine (fvdiDriver r) ls with
  | none => none
  | some (_, line, _) =>
      let text := fvdiText r line
      if text.length < 31 ∧ text.head? ≠ some 0x23 then some (fvdiWord text) else none

theorem fvdiDriver_isKey (r : Res) : IsKey (fvdiDriver r) := by
  refine ⟨by simp [fvdiDriver, ascii]; decide, ?_⟩
  intro c member
  rw [fvdiDriver, List.mem_append, List.mem_append] at member
  rcases member with (member | member) | member
  · revert c
    simp [ascii, cr, lf, isComment]
  · have numeric : ∀ c : Byte, IsNumeric c → c ≠ 0 ∧ c ≠ cr ∧ c ≠ lf ∧
        isComment c = false := by
      decide +kernel
    exact numeric c (formatD_numeric _ c member)
  · revert c
    simp [ascii, cr, lf, isComment]

theorem fvdiRecord_isKey : IsKey fvdiRecord := by
  simp [IsKey, fvdiRecord, ascii, cr, lf, isBlank, isComment]

variable {contents behind : Bytes} {r : Res} {front back : List Bytes} {line : Bytes}

theorem fvdiDriverId_hidden (hidden : HiddenIn (fvdiDriver r) (lines contents)) :
    fvdiDriverId (contents ++ behind) contents.length r = fvdiDriver r ++ [0] := by
  have isKey := fvdiDriver_isKey r
  have remain := findLine_hidden behind isKey.noNul isKey.ne_nil hidden
  have notFound : ¬0 < (findLine (contents ++ behind) (fvdiDriver r) contents.length).remain := by
    omega
  simp only [fvdiDriverId, if_neg notFound]

/-- What is left of the line behind as many bytes as the key has ends with the
terminator, which is not a blank. -/
theorem fvdi_rest_last (cut : Cut (fvdiDriver r) (lines contents) front line back) :
    ∃ c, (line.drop (fvdiDriver r).length).getLast? = some c ∧ isBlank c = false ∧
      (c = cr ∨ c = lf) := by
  have inLine := cut.length_lt
  have notAll : ¬line.length ≤ (fvdiDriver r).length := by omega
  have rest : (line.drop (fvdiDriver r).length).getLast? = line.getLast? := by
    rw [List.getLast?_drop, if_neg notAll]
  rcases cut.terminated.getLast? with last | last
  · exact ⟨cr, by rw [rest, last], by decide, .inl rfl⟩
  · exact ⟨lf, by rw [rest, last], by decide, .inr rfl⟩

theorem fvdiText_last (cut : Cut (fvdiDriver r) (lines contents) front line back) :
    ∃ c, (fvdiText r line).getLast? = some c ∧ (c = cr ∨ c = lf) := by
  rcases fvdi_rest_last cut with ⟨c, last, notBlank, ends⟩
  exact ⟨c, skipWhite_getLast? last notBlank, ends⟩

/-- The bytes from the first blank-free one on are copied if they fit. -/
theorem fvdiDriverId_cut (cut : Cut (fvdiDriver r) (lines contents) front line back) :
    fvdiDriverId (contents ++ behind) contents.length r =
      if (fvdiText r line).length < 31 then
        fvdiCopy (fvdiText r line) ++ (fvdiDriver r ++ [0]).drop (fvdiText r line).length
      else fvdiDriver r ++ [0] := by
  have remains := cut.back_pos
  have inLine := cut.length_lt
  rcases fvdi_rest_last cut with ⟨c, last, notBlank, _⟩
  have textNonempty : 0 < (fvdiText r line).length := by
    rcases fvdiText_last cut with ⟨_, ends, _⟩
    apply List.length_pos_of_ne_nil
    intro empty
    simp [empty] at ends
  -- the memory from the place behind the key on
  have memory : (contents ++ behind).drop (front.flatten.length + (fvdiDriver r).length) =
      line.drop (fvdiDriver r).length ++ (back.flatten ++ behind) := by
    conv_lhs => rw [eq_flatten cut.split]
    simp only [List.flatten_append, List.flatten_cons, List.append_assoc]
    rw [← List.drop_drop, List.drop_left,
      List.drop_append_of_le_length (by omega)]
  have parts : (line.drop (fvdiDriver r).length).takeWhile isBlank ++ fvdiText r line =
      line.drop (fvdiDriver r).length := List.takeWhile_append_dropWhile
  have sizes := congrArg List.length parts
  rw [List.length_append, List.length_drop] at sizes
  generalize gap : (line.drop (fvdiDriver r).length).takeWhile isBlank = blanks at parts sizes
  have copied : readMemory (contents ++ behind)
      (front.flatten.length + (fvdiDriver r).length + blanks.length)
      (fvdiText r line).length = fvdiText r line := by
    rw [readMemory, ← List.drop_drop, memory, ← parts, List.append_assoc, List.drop_left,
      List.append_assoc, List.take_left]
  have size2 : (line.length : Int) - ((front.flatten.length + (fvdiDriver r).length +
      blanks.length : Nat) - (front.flatten.length : Nat)) = (fvdiText r line).length := by
    omega
  simp only [fvdiDriverId, findLine_cut behind (fvdiDriver_isKey r).noNul cut, if_pos remains,
    memory, blanks_append last notBlank, gap, size2, Int.toNat_natCast, copied]
  by_cases fits : (fvdiText r line).length < 31
  · have fitsInt : (0 : Int) < (fvdiText r line).length ∧
        ((fvdiText r line).length : Int) < 31 := by omega
    rw [if_pos fits, if_pos fitsInt]
  · have notFits : ¬((0 : Int) < (fvdiText r line).length ∧
        ((fvdiText r line).length : Int) < 31) := by omega
    rw [if_neg fits, if_neg notFits]

/-- The copied text up to its first NUL is the word. -/
theorem cString_fvdiCopy {text : Bytes} (ends : ∃ c, text.getLast? = some c ∧ (c = cr ∨ c = lf))
    (more : Bytes) : cstring (fvdiCopy text ++ more) = fvdiWord text := by
  have stops : ∃ c ∈ fvdiCopy text, ¬c ≠ 0 := by
    rcases ends with ⟨c, last, isEnd⟩
    refine ⟨0, List.mem_map.mpr ⟨c, List.mem_of_getLast? last, ?_⟩, by simp⟩
    rcases isEnd with rfl | rfl <;> simp
  have inside : cstring (fvdiCopy text ++ more) = cstring (fvdiCopy text) := by
    rw [cstring, List.takeWhile_append, if_neg]
    · rfl
    · intro all
      rcases stops with ⟨c, member, isZero⟩
      have whole := List.takeWhile_prefix (fun c : Byte => decide (c ≠ 0)) (l := fvdiCopy text)
      rw [← whole.eq_of_length all] at member
      exact isZero (by simpa using List.mem_takeWhile_imp member)
  rw [inside, cstring, fvdiCopy, List.takeWhile_map, fvdiWord]
  have sameTest : ((fun c : Byte => decide (c ≠ 0)) ∘
      fun c => if c = cr ∨ c = lf ∨ c = 0x20 then 0 else c) =
      fun c => decide (c ≠ 0 ∧ c ≠ cr ∧ c ≠ lf ∧ c ≠ 0x20) := by
    funext c
    by_cases copied : c = cr ∨ c = lf ∨ c = 0x20
    · rcases copied with rfl | rfl | rfl <;> simp
    · simp only [not_or] at copied
      simp [copied]
  rw [sameTest]
  conv_rhs => rw [← List.map_id (List.takeWhile _ text)]
  apply List.map_congr_left
  intro c member
  have kept : c ≠ 0 ∧ c ≠ cr ∧ c ≠ lf ∧ c ≠ 0x20 := by
    simpa using List.mem_takeWhile_imp member
  simp [kept]

theorem fvdiCopy_head {text : Bytes} (nonempty : text ≠ []) (more : Bytes) :
    (fvdiCopy text ++ more).headD 0 = 0x23 ↔ text.head? = some 0x23 := by
  rcases List.exists_cons_of_ne_nil nonempty with ⟨c, rest, rfl⟩
  simp only [fvdiCopy, List.map_cons, List.cons_append, List.headD_cons, List.head?_cons,
    Option.some.injEq]
  split_ifs with copied
  · rcases copied with rfl | rfl | rfl <;> decide
  · rfl

/-- `driverid` still starts with '#' where no driver is read, and else it is the
driver. -/
theorem fvdiReads_spec (contents behind : Bytes) (r : Res) :
    let driverid := fvdiDriverId (contents ++ behind) contents.length r
    match fvdiReads r (lines contents) with
    | none => driverid.headD 0 = 0x23
    | some driver => driverid.headD 0 ≠ 0x23 ∧ cstring driverid = driver := by
  have still : (fvdiDriver r ++ [0]).headD 0 = 0x23 := by
    simp [fvdiDriver, ascii]
  rw [fvdiReads]
  cases search : cutLine (fvdiDriver r) (lines contents) with
  | none =>
      simp only [fvdiDriverId_hidden (cutLine_eq_none.mp search)]
      exact still
  | some parts =>
      rcases parts with ⟨front, line, back⟩
      have cut := cutLine_eq_some.mp search
      have ends := fvdiText_last cut
      have nonempty : fvdiText r line ≠ [] := by
        intro empty
        simp [empty] at ends
      simp only [fvdiDriverId_cut cut]
      by_cases fits : (fvdiText r line).length < 31
      · by_cases isHash : (fvdiText r line).head? = some 0x23
        · simp only [fits, isHash, ne_eq, not_true, and_false, if_false]
          exact (fvdiCopy_head nonempty _).mpr isHash
        · simp only [fits, isHash, ne_eq, not_false_eq_true, and_true, if_true]
          exact ⟨fun first => isHash ((fvdiCopy_head nonempty _).mp first),
            cString_fvdiCopy ends _⟩
      · simp only [fits, false_and, if_false]
        exact still

/-! ## What a save does -/

/-- The three pieces go around the place of the line that was removed. -/
theorem writeFvdi_pieces (gemdos : Gemdos) (front back behind driverid : Bytes) (r : Res) :
    writeFvdi gemdos ⟨front ++ back ++ behind, (front ++ back).length, front.length⟩ driverid r =
      gemdos.writeAll 0 [front, fvdiLine (cstring driverid) r, back] .create := by
  have before : readMemory (front ++ back ++ behind) 0 front.length = front := by
    rw [List.append_assoc, readMemory_start]
  have size2 : (front ++ back).length - front.length = back.length := by simp
  simp only [writeFvdi, before, size2, readMemory_middle, Gemdos.writeAll, Nat.zero_add,
    Nat.reduceAdd]

/-- What the saver does with a file that it has loaded. -/
theorem saveFvdi_loaded {machine : Machine}
    (loaded : machine.gemdos.loadFile (some contents) = some contents) (r : Res) :
    saveFvdi machine r (some contents) =
      match fvdiReads r (lines contents) with
      | none => .done (-1, some contents)
      | some driver =>
          match cutLine fvdiRecord (lines contents) with
          | none =>
              if Glued contents machine.behind then .wild else .done (-1, some contents)
          | some (front, line, back) =>
              match cutLine fvdiRecord (lines (front.flatten ++ back.flatten)) with
              | some _ => .done (-1, some contents)
              | none =>
                  if Glued (front.flatten ++ back.flatten)
                      (staleTail contents line ++ machine.behind) then .wild
                  else if 0 < machine.gemdos.writeHandle then
                    .done (1, some (machine.gemdos.stored 0
                      [front.flatten, fvdiLine driver r, back.flatten]))
                  else .done (-1, some contents) := by
  have reads := fvdiReads_spec contents machine.behind r
  simp only [saveFvdi, loaded]
  cases driver : fvdiReads r (lines contents) with
  | none =>
      simp only [driver] at reads
      rw [if_pos reads]
  | some name =>
      simp only [driver] at reads
      rw [if_neg reads.1]
      cases first : cutLine fvdiRecord (lines contents) with
      | none =>
          rw [removeLine_hidden _ fvdiRecord_isKey.noNul fvdiRecord_isKey.ne_nil
            (cutLine_eq_none.mp first)]
          by_cases glued : Glued contents machine.behind
          · simp [glued]
          · simp [glued]
      | some parts =>
          rcases parts with ⟨front, line, back⟩
          rw [removeLine_cut _ fvdiRecord_isKey.noNul (cutLine_eq_some.mp first),
            Outcome.done_bind]
          simp only
          cases second : cutLine fvdiRecord (lines (front.flatten ++ back.flatten)) with
          | some parts =>
              rcases parts with ⟨front', line', back'⟩
              rw [removeLine_cut _ fvdiRecord_isKey.noNul (cutLine_eq_some.mp second),
                Outcome.done_bind]
          | none =>
              rw [removeLine_hidden _ fvdiRecord_isKey.noNul fvdiRecord_isKey.ne_nil
                (cutLine_eq_none.mp second)]
              by_cases glued : Glued (front.flatten ++ back.flatten)
                  (staleTail contents line ++ machine.behind)
              · simp [glued]
              · simp only [if_neg glued, Outcome.done_bind, writeFvdi_pieces, reads.2,
                  Gemdos.writeAll_create]

end Chgres
