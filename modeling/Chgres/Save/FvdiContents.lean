import Chgres.Save.FreshLine
import Chgres.Save.Fvdi

/-! # What `fvdi.sys` holds after a save

The saver should replace the one `01r` line of a file that names a driver for the
depth of the mode, and refuse every other file. It reads the driver at a fixed
column, takes a line that is the last one for missing, and checks that there is one
`01r` line by trying to remove a second one.
-/

namespace Chgres

open Text

/-- The text behind the key of a driver line, up to the line end. -/
def driverText (r : Res) (line : Bytes) : Bytes :=
  skipWhite ((skipWhite (body line)).drop (fvdiDriver r).length)

/-- The driver of the first driver line, if it has one that is short enough. -/
def driverOf (r : Res) (contents : Bytes) : Option Bytes :=
  match splitFirst (StartsWith (fvdiDriver r)) (lines contents) with
  | none => none
  | some (_, line, _) =>
      let text := driverText r line
      if text ≠ [] ∧ text.length < 31 then some (text.takeWhile fun c => !isBlank c)
      else none

/-- The file that should be written, if one should be written: it has a new line
for the only `01r` line. -/
def fvdiDue (r : Res) (contents : Bytes) : Option Bytes :=
  match driverOf r contents, splitFirst (StartsWith fvdiRecord) (lines contents) with
  | some driver, some (front, _, back) =>
      if ∀ line ∈ back, ¬StartsWith fvdiRecord line then
        some (front.flatten ++ fvdiLine driver r ++ back.flatten)
      else none
  | _, _ => none

/-- The file is rewritten, with result 1, if it is due, and left alone with result -1
if it is not. -/
def FvdiSound (contents : Bytes) (r : Res) : Prop :=
  ∀ (machine : Machine) (disk disk' : Disk) (ret : Int), machine.gemdos.Succeeds →
    disk fvdiPath = some contents → (saveFvdiInf machine r disk).MayBe (ret, disk') →
    match fvdiDue r contents with
    | some file => ret = 1 ∧ disk' fvdiPath = some file
    | none => ret = -1 ∧ disk' fvdiPath = some contents

/-- What a driver line has from the column behind the key on fits the buffer and does
not start like a key. -/
def Fits (r : Res) (line : Bytes) : Prop :=
  (fvdiText r line).length < 31 ∧ (fvdiText r line).head? ≠ some 0x23

/-- The searches see what the new file is made of: the first driver line they see has
the driver in the column behind the key, the `01r` line is not the last one, and the
search for a second one does not run off the text. -/
def RewritesRight (r : Res) (contents driver : Bytes) : Prop :=
  (∃ front line back, Cut (fvdiDriver r) (lines contents) front line back ∧
    Fits r line ∧ fvdiWord (fvdiText r line) = driver) ∧
  ∃ front line back, Cut fvdiRecord (lines contents) front line back ∧
    ¬Glued contents (staleTail contents line)

/-- The searches see a reason to leave the file alone: no driver line that fits, no
`01r` line or two of them. -/
def RefusesRight (r : Res) (contents : Bytes) : Prop :=
  (∀ front line back, Cut (fvdiDriver r) (lines contents) front line back →
    ¬Fits r line) ∨
  (HiddenIn fvdiRecord (lines contents) ∧ contents.getLast? ≠ some cr) ∨
  ∃ front line back, Cut fvdiRecord (lines contents) front line back ∧
    ¬HiddenIn fvdiRecord (lines (front.flatten ++ back.flatten))

def FvdiReady (contents : Bytes) (r : Res) : Prop :=
  match fvdiDue r contents, driverOf r contents with
  | some _, some driver => RewritesRight r contents driver
  | _, _ => RefusesRight r contents

/-! ## The result of a save -/

/-- What the saver returns and leaves in the file when its calls succeed. -/
def fvdiResult (r : Res) (contents behind : Bytes) : Outcome (Int × Bytes) :=
  match fvdiReads r (lines contents) with
  | none => .done (-1, contents)
  | some driver =>
      match cutLine fvdiRecord (lines contents) with
      | none => if Glued contents behind then .wild else .done (-1, contents)
      | some (front, line, back) =>
          match cutLine fvdiRecord (lines (front.flatten ++ back.flatten)) with
          | some _ => .done (-1, contents)
          | none =>
              if Glued (front.flatten ++ back.flatten) (staleTail contents line ++ behind)
              then .wild
              else .done (1, front.flatten ++ fvdiLine driver r ++ back.flatten)

variable {contents behind : Bytes} {r : Res} {front back : List Bytes} {line : Bytes}

theorem saveFvdi_succeeds {machine : Machine} (succeeds : machine.gemdos.Succeeds)
    {disk : Disk} (old : disk fvdiPath = some contents) (r : Res) :
    saveFvdiInf machine r disk = (fvdiResult r contents machine.behind).bind fun result =>
      .done (result.1, disk.set fvdiPath (some result.2)) := by
  rw [saveFvdiInf, onFile, old,
    saveFvdi_loaded (Gemdos.loadFile_of_loads succeeds.loads contents), fvdiResult]
  cases fvdiReads r (lines contents) with
  | none => rfl
  | some driver =>
      cases cutLine fvdiRecord (lines contents) with
      | none => split_ifs <;> rfl
      | some parts =>
          rcases parts with ⟨front, line, back⟩
          simp only
          cases cutLine fvdiRecord (lines (front.flatten ++ back.flatten)) with
          | some parts => rfl
          | none =>
              simp only
              split_ifs
              · rfl
              · rw [Gemdos.stored_of_complete (Gemdos.complete_of_writes succeeds.writes)]
                simp
              · exact absurd succeeds.opens ‹_›

/-- The result that the file should have. -/
def fvdiExpected (r : Res) (contents : Bytes) : Int × Bytes :=
  match fvdiDue r contents with
  | some file => (1, file)
  | none => (-1, contents)

/-- A save is sound if it has this result whatever lies behind the file. -/
theorem fvdiSound_iff_result :
    FvdiSound contents r ↔
      ∀ behind, fvdiResult r contents behind = .done (fvdiExpected r contents) := by
  constructor
  · intro sound behind
    have succeeds := Gemdos.obliging_succeeds
    let machine := Machine.obliging 0 behind 0
    let disk : Disk := fun _ => some contents
    have old : disk fvdiPath = some contents := rfl
    have saved := @saveFvdi_succeeds contents machine succeeds disk old r
    have meets := fun ret disk' => sound machine disk disk' ret succeeds old
    rw [saved] at meets
    have place : machine.behind = behind := rfl
    rw [place] at meets
    cases result : fvdiResult r contents behind with
    | wild =>
        have anything := meets 0 disk (by rw [result]; trivial)
        cases due : fvdiDue r contents <;> simp [due] at anything
    | done value =>
        have here := meets value.1 (disk.set fvdiPath (some value.2)) (by rw [result]; rfl)
        congr 1
        rw [fvdiExpected]
        cases due : fvdiDue r contents with
        | none =>
            simp only [due, Disk.set_same, Option.some.injEq] at here
            exact Prod.ext here.1 here.2
        | some file =>
            simp only [due, Disk.set_same, Option.some.injEq] at here
            exact Prod.ext here.1 here.2
  · intro always machine disk disk' ret succeeds old result
    rw [saveFvdi_succeeds succeeds old, always machine.behind, Outcome.done_bind,
      Outcome.done_mayBe, Prod.mk.injEq, fvdiExpected] at result
    rcases result with ⟨rfl, rfl⟩
    cases due : fvdiDue r contents <;> simp

/-! ## When the result is right -/

theorem fvdiReads_eq_some {ls : List Bytes} {driver : Bytes} :
    fvdiReads r ls = some driver ↔ ∃ front line back,
      Cut (fvdiDriver r) ls front line back ∧ Fits r line ∧
        fvdiWord (fvdiText r line) = driver := by
  rw [exists_cut_iff, fvdiReads]
  cases cutLine (fvdiDriver r) ls with
  | none => simp
  | some parts => simp [Fits]

theorem fvdiReads_eq_none :
    fvdiReads r (lines contents) = none ↔ ∀ front line back,
      Cut (fvdiDriver r) (lines contents) front line back → ¬Fits r line := by
  rw [Option.eq_none_iff_forall_ne_some]
  simp only [ne_eq, fvdiReads_eq_some]
  constructor
  · intro none front line back cut fits
    exact none _ ⟨front, line, back, cut, fits, rfl⟩
  · intro misfit driver found
    rcases found with ⟨front, line, back, cut, fits, _⟩
    exact misfit front line back cut fits

theorem fvdiDue_eq_some {file : Bytes} :
    fvdiDue r contents = some file ↔ ∃ driver front line back,
      driverOf r contents = some driver ∧ lines contents = front ++ line :: back ∧
        StartsWith fvdiRecord line ∧ (∀ other ∈ front, ¬StartsWith fvdiRecord other) ∧
        (∀ other ∈ back, ¬StartsWith fvdiRecord other) ∧
        file = front.flatten ++ fvdiLine driver r ++ back.flatten := by
  rw [fvdiDue]
  cases driver : driverOf r contents with
  | none => simp
  | some name =>
      cases search : splitFirst (StartsWith fvdiRecord) (lines contents) with
      | none =>
          simp only [reduceCtorEq, false_iff]
          intro due
          rcases due with ⟨_, front, line, back, _, split, starts, _⟩
          exact splitFirst_eq_none.mp search line (by simp [split]) starts
      | some parts =>
          rcases parts with ⟨front, line, back⟩
          rcases splitFirst_eq_some.mp search with ⟨split, starts, noneFront⟩
          simp only [Option.ite_none_right_eq_some, Option.some.injEq]
          constructor
          · intro due
            exact ⟨name, front, line, back, rfl, split, starts, noneFront, due.1, due.2.symm⟩
          · intro due
            rcases due with ⟨name', front', line', back', rfl, split', starts', noneFront',
              noneBack', rfl⟩
            rcases splitFirst_unique split starts noneFront split' starts' noneFront' with
              ⟨rfl, rfl, rfl⟩
            exact ⟨noneBack', rfl⟩

theorem fvdiLine_injective {driver driver' : Bytes}
    (same : fvdiLine driver r = fvdiLine driver' r) : driver = driver' := by
  simp only [fvdiLine, List.append_assoc, List.append_cancel_left_eq] at same
  exact List.append_cancel_right same

/-- Whether the second search runs off the text is a matter of the old file. -/
theorem glued_stale (cut : Cut fvdiRecord (lines contents) front line back) (behind : Bytes) :
    Glued (front.flatten ++ back.flatten) (staleTail contents line ++ behind) ↔
      Glued contents (staleTail contents line) := by
  have backNonempty : back.flatten ≠ [] := by
    have positive := cut.back_pos
    intro empty
    simp [empty] at positive
  have size := congrArg List.length (eq_flatten cut.split)
  have long := cut.length_lt
  have tailNonempty : staleTail contents line ≠ [] := by
    intro empty
    have tailLength := congrArg List.length empty
    simp only [List.length_append, List.flatten_append, List.flatten_cons] at size
    simp only [staleTail, List.length_drop, List.length_nil] at tailLength
    omega
  have sameEnd : (front.flatten ++ back.flatten).getLast? = contents.getLast? := by
    rw [List.getLast?_append_of_ne_nil _ backNonempty]
    conv_rhs => rw [eq_flatten cut.split]
    simp only [List.flatten_append, List.flatten_cons, ← List.append_assoc]
    rw [List.getLast?_append_of_ne_nil _ backNonempty]
  rw [Glued, Glued, sameEnd, List.head?_append_of_ne_nil _ tailNonempty]

/-- Without its only `01r` line the file shows none. -/
theorem second_hidden (cut : Cut fvdiRecord (lines contents) front line back)
    (noneFront : ∀ other ∈ front, ¬StartsWith fvdiRecord other)
    (noneBack : ∀ other ∈ back, ¬StartsWith fvdiRecord other) :
    HiddenIn fvdiRecord (lines (front.flatten ++ back.flatten)) := by
  have lined := lines_lined contents
  rw [cut.split] at lined
  have none : ∀ other ∈ front ++ back, ¬StartsWith fvdiRecord other := by
    intro other member
    rcases List.mem_append.mp member with member | member
    · exact noneFront other member
    · exact noneBack other member
  intro other member
  rw [← List.flatten_append] at member
  exact not_shows_lines lined.remove (not_shows_of_not_startsWith none) other
    (List.mem_of_mem_dropLast member)

/-- Where a new file is due, the result is that file exactly if the searches see what
it is made of. -/
theorem rewrites_iff {driver : Bytes}
    (split : lines contents = front ++ line :: back)
    (noneFront : ∀ other ∈ front, ¬StartsWith fvdiRecord other)
    (noneBack : ∀ other ∈ back, ¬StartsWith fvdiRecord other) :
    (∀ behind, fvdiResult r contents behind =
        .done (1, front.flatten ++ fvdiLine driver r ++ back.flatten)) ↔
      RewritesRight r contents driver := by
  rw [RewritesRight, ← fvdiReads_eq_some, exists_cut_iff]
  cases reads : fvdiReads r (lines contents) with
  | none => simp [fvdiResult, reads]
  | some name =>
      cases first : cutLine fvdiRecord (lines contents) with
      | none =>
          simp only [and_false, iff_false]
          intro always
          have here := always []
          simp only [fvdiResult, reads, first] at here
          split_ifs at here
          simp at here
      | some parts =>
          rcases parts with ⟨front', line', back'⟩
          have cut := cutLine_eq_some.mp first
          rcases split_only split noneFront noneBack cut.split cut.shows.startsWith with
            ⟨rfl, rfl, rfl⟩
          have second := cutLine_eq_none.mpr (second_hidden cut noneFront noneBack)
          simp only [fvdiResult, reads, first, second, glued_stale cut, Option.some.injEq]
          by_cases glued : Glued contents (staleTail contents line)
          · simp [glued]
          · simp only [glued, if_false, Outcome.done.injEq, Prod.mk.injEq, true_and,
              List.append_cancel_right_eq, List.append_cancel_left_eq, not_false_eq_true,
              and_true, forall_const]
            exact ⟨fvdiLine_injective, fun same => by rw [same]⟩

/-- Where none is due, the file is left alone exactly if the searches see why. -/
theorem refuses_iff :
    (∀ behind, fvdiResult r contents behind = .done (-1, contents)) ↔
      RefusesRight r contents := by
  rw [RefusesRight, ← fvdiReads_eq_none, exists_cut_iff, ← cutLine_eq_none]
  cases reads : fvdiReads r (lines contents) with
  | none => simp [fvdiResult, reads]
  | some name =>
      simp only [reduceCtorEq, false_or]
      cases first : cutLine fvdiRecord (lines contents) with
      | none =>
          simp only [true_and, or_false, fvdiResult, reads, first]
          constructor
          · intro always ending
            have here := always [lf]
            rw [if_pos ⟨ending, rfl⟩] at here
            cases here
          · intro ending behind
            rw [if_neg fun glued => ending glued.1]
      | some parts =>
          rcases parts with ⟨front, line, back⟩
          simp only [reduceCtorEq, false_and, false_or, ← cutLine_eq_none]
          cases second : cutLine fvdiRecord (lines (front.flatten ++ back.flatten)) with
          | some parts => simp [fvdiResult, reads, first, second]
          | none =>
              simp only [not_true, iff_false]
              intro always
              have here := always []
              simp only [fvdiResult, reads, first, second] at here
              split_ifs at here
              simp at here

/-- The save is sound for a file and a mode exactly if the searches of the saver see
what decides about the file. -/
theorem fvdi_sound_iff (contents : Bytes) (r : Res) :
    FvdiSound contents r ↔ FvdiReady contents r := by
  rw [fvdiSound_iff_result, FvdiReady, fvdiExpected]
  cases due : fvdiDue r contents with
  | none => exact refuses_iff
  | some file =>
      rcases fvdiDue_eq_some.mp due with
        ⟨driver, front, line, back, names, split, _, noneFront, noneBack, rfl⟩
      simp only [names]
      exact rewrites_iff split noneFront noneBack

/-- The example of the manual: its `01r` line is the last one and is not replaced. -/
theorem fvdi_manual_example : ¬∀ (contents : Bytes) (r : Res), FvdiSound contents r := by
  intro all
  let contents := ascii "#[driver16] saga16.sys\r\n#[driver32] saga32.sys\r\n" ++
    ascii "01r saga16.sys mode 1280x720x16@60\r\n"
  let r : Res := ⟨false, 5, 0, 0, 0, 0, 640, 480, 16, 60, 0⟩
  have result := fvdiSound_iff_result.mp (all contents r) []
  have left : fvdiResult r contents [] = .done (-1, contents) := by decide +kernel
  have due : (fvdiExpected r contents).1 = 1 := by decide +kernel
  rw [left, Outcome.done.injEq] at result
  rw [← result] at due
  exact absurd due (by decide)

end Chgres
