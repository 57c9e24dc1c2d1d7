import Chgres.Save.CnfContents
import Chgres.Save.FvdiContents
import Chgres.Save.MagxContents
import Chgres.Save.Saver

/-! # The last save wins

A file that was saved once has a slot for the lines of the saver: later saves find
them again and put new ones in their place, so only the last mode is left. This
breaks where a search runs off the file, where lines of a key stand in front of the
slot, and where a new text is shorter than the file it is written over.
-/

namespace Chgres

open Text

/-- The savers that replace lines. -/
inductive LineSaver
  | magx
  | cnf (saver : CnfSaver)
  | fvdi
  deriving DecidableEq, Repr

namespace LineSaver

def toSaver : LineSaver → Saver
  | magx => .magx
  | cnf saver => .cnf saver
  | fvdi => .fvdi

/-- A save whose calls all succeed returns 1 and may turn the one file into the
other. -/
def SavesTo (saver : LineSaver) (machine : Machine) (r : Res) (file file' : Bytes) : Prop :=
  machine.gemdos.Succeeds ∧ ∃ path disk disk', saver.toSaver.path machine = some path ∧
    disk path = some file ∧ (saver.toSaver.save machine r [] disk).MayBe (1, disk') ∧
    disk' path = some file'

/-- The save comes out the same on every machine and leaves lines that the next one
finds. -/
def Ready : LineSaver → (file : Bytes) → Res → Prop
  | magx, file, _ =>
      file.getLast? = some cr →
        cutLine magxDev (lines file) ≠ none ∨ cutLine magxAes (lines file) = none
  | cnf saver, file, r =>
      (∀ behind, Clearing.clear saver.keys (.start file behind) ≠ .wild) ∧
      ∃ clearing, Clearing.clear saver.keys (.start file []) = .done clearing ∧
        clearing.found = true ∧
        (∀ line ∈ lines clearing.before, ∀ key ∈ saver.keys, ¬Shows key line) ∧
        file.length ≤ (clearing.before ++ saver.block r ++ clearing.after).length
  | fvdi, file, _ =>
      match cutLine fvdiRecord (lines file) with
      | none => file.getLast? ≠ some cr
      | some (_, line, _) => ¬Glued file (staleTail file line)

/-- A sequence of saves into one file, each of them ready. -/
inductive Run (saver : LineSaver) : Bytes → List (Machine × Res) → Bytes → Prop
  | nil (file : Bytes) : Run saver file [] file
  | cons {file next last : Bytes} {machine : Machine} {r : Res}
      {steps : List (Machine × Res)} (ready : saver.Ready file r)
      (saves : saver.SavesTo machine r file next) (rest : Run saver next steps last) :
      Run saver file ((machine, r) :: steps) last

/-! ## Slots -/

/-- The part of the file in front of the saver's lines and the part behind them. -/
def slot (file : Bytes) : LineSaver → Gap
  | magx => magxGap file []
  | cnf saver =>
      match Clearing.clear saver.keys (.start file []) with
      | .wild => ⟨[], file⟩
      | .done clearing => ⟨clearing.before, clearing.after⟩
  | fvdi =>
      match cutLine fvdiRecord (lines file) with
      | none => ⟨[], file⟩
      | some (front, _, back) => ⟨front.flatten, back.flatten⟩

/-- The lines that the saver writes into a file that started as `file`. -/
def fill (file : Bytes) (r : Res) : LineSaver → Bytes
  | magx => magxLine r
  | cnf saver => saver.block r
  | fvdi => fvdiLine ((fvdiReads r (lines file)).getD []) r

/-- The file with its slot filled for the mode. -/
def filled (saver : LineSaver) (file : Bytes) (r : Res) : Bytes :=
  (saver.slot file).before ++ saver.fill file r ++ (saver.slot file).after

/-- What a successful save leaves, by its plan. -/
theorem SavesTo.plan {saver : LineSaver} {machine : Machine} {r : Res} {file file' : Bytes}
    (saves : saver.SavesTo machine r file file') :
    saver.toSaver.plan machine r [] (some file) = .wild ∨
      ∃ plan, saver.toSaver.plan machine r [] (some file) = .done plan ∧
        plan.run machine.gemdos (some file) = (1, some file') := by
  rcases saves with ⟨_, path, disk, disk', place, here, saved, left⟩
  have carried := saver.toSaver.save_plan place r [] disk
  rw [here] at carried
  cases planned : saver.toSaver.plan machine r [] (some file) with
  | wild => exact .inl rfl
  | done plan =>
      refine .inr ⟨plan, rfl, ?_⟩
      rw [planned, Outcome.done_bind] at carried
      cases result : saver.toSaver.save machine r [] disk with
      | wild => simp [result] at carried
      | done result' =>
          rw [result, Outcome.done_bind, Outcome.done.injEq] at carried
          rw [result, Outcome.done_mayBe] at saved
          rw [← carried, saved]
          simp only [left]

/-! ### `xaaes.cnf` and `myaes.cnf` -/

/-- Two clearings that differ in the memory behind their text at most. -/
def SameText (left right : Clearing) : Prop :=
  left.before = right.before ∧ left.after = right.after ∧ left.found = right.found

theorem SameText.text {left right : Clearing} (same : SameText left right) :
    left.text = right.text := by
  rw [Clearing.text, Clearing.text, same.1, same.2.1]

theorem clear_sameText {keys : List Bytes} {left right left' right' : Clearing}
    (same : SameText left right) (resultLeft : Clearing.clear keys left = .done left')
    (resultRight : Clearing.clear keys right = .done right') : SameText left' right' := by
  induction keys generalizing left right with
  | nil =>
      cases Outcome.done.inj resultLeft
      cases Outcome.done.inj resultRight
      exact same
  | cons key keys induction =>
      rw [Clearing.clear] at resultLeft resultRight
      cases search : cutLine key (lines left.text) with
      | none =>
          have hidden := cutLine_eq_none.mp search
          have hidden' := hidden
          rw [same.text] at hidden'
          rw [Clearing.clearKey_hidden hidden] at resultLeft
          rw [Clearing.clearKey_hidden hidden'] at resultRight
          exact induction same (stay_bind_eq_done resultLeft).2
            (stay_bind_eq_done resultRight).2
      | some parts =>
          have cut := cutLine_eq_some.mp search
          have cut' := cut
          rw [same.text] at cut'
          rw [Clearing.clearKey_cut cut, Outcome.done_bind] at resultLeft
          rw [Clearing.clearKey_cut cut', Outcome.done_bind] at resultRight
          refine induction ?_ resultLeft resultRight
          exact ⟨rfl, rfl, rfl⟩

/-- What lies behind a file does not change what is left of it. -/
theorem clear_start_same {keys : List Bytes} {file behind behind' : Bytes}
    {left right : Clearing}
    (resultLeft : Clearing.clear keys (.start file behind) = .done left)
    (resultRight : Clearing.clear keys (.start file behind') = .done right) :
    SameText left right := by
  refine clear_sameText ?_ resultLeft resultRight
  exact ⟨rfl, rfl, rfl⟩

/-- The lines of the block are found where they were written, and taken out of there. -/
theorem clear_freshLines {entries : List (Bytes × Bytes)}
    (areKeys : ∀ entry ∈ entries, IsKey entry.1 ∧ entry.1.length ≤ 511 ∧ Plain entry.2)
    {before after : Bytes} (closed : Closed before)
    (none : ∀ line ∈ lines before, ∀ key ∈ entries.map Prod.fst, ¬Shows key line)
    (more : after ≠ []) {clearing : Clearing}
    (holds : clearing.text = before ++ (freshLines entries).flatten ++ after) :
    ∃ next, Clearing.clear (entries.map Prod.fst) clearing = .done next ∧
      (entries ≠ [] → SameText next ⟨before, after, true, []⟩) := by
  induction entries generalizing clearing with
  | nil => exact ⟨clearing, rfl, fun nonempty => absurd rfl nonempty⟩
  | cons entry entries induction =>
      have here := areKeys entry (by simp)
      have rest : clearing.text = before ++ freshLine entry.1 entry.2 ++
          ((freshLines entries).flatten ++ after) := by
        rw [holds]
        simp [freshLines]
      have moreLines : lines ((freshLines entries).flatten ++ after) ≠ [] := by
        rw [ne_eq, lines_eq_nil]
        simp [more]
      have cut : Cut entry.1 (lines clearing.text) (lines before)
          (freshLine entry.1 entry.2) (lines ((freshLines entries).flatten ++ after)) := {
        split := by rw [rest, lines_insert closed here.1 here.2.2]
        shows := freshLine_shows here.1 here.2.1
        first := fun line member => none line member entry.1 (by simp)
        more := moreLines }
      rw [List.map_cons, Clearing.clear, Clearing.clearKey_cut cut, Outcome.done_bind]
      simp only [lines_flatten]
      rcases @induction
        (fun other member => areKeys other (List.mem_cons_of_mem entry member))
        (fun line member key keyMember => none line member key
          (List.mem_cons_of_mem entry.1 keyMember))
        ⟨before, (freshLines entries).flatten ++ after, true,
          staleTail clearing.text (freshLine entry.1 entry.2) ++ clearing.behind⟩
        (by simp [Clearing.text]) with ⟨next, cleared, same⟩
      refine ⟨next, cleared, fun _ => ?_⟩
      cases entries with
      | nil =>
          cases Outcome.done.inj cleared
          exact ⟨rfl, by simp [freshLines], rfl⟩
      | cons second others => exact same (by simp)

theorem entries_areKeys (saver : CnfSaver) (r : Res) : ∀ entry ∈ saver.entries r,
    IsKey entry.1 ∧ entry.1.length ≤ 511 ∧ Plain entry.2 := by
  have short : ∀ key ∈ saver.keys, key.length ≤ 511 := by
    cases saver <;> simp [CnfSaver.keys, xaaesKeys, myaesKeys, ascii]
  intro entry member
  have inKeys : entry.1 ∈ saver.keys := by
    rw [← saver.entries_keys r]
    exact List.mem_map_of_mem member
  exact ⟨saver.proper.isKey _ inKeys, short _ inKeys, saver.entries_plain r entry member⟩

/-- The new text lies over an old one that is not longer. -/
theorem cnf_written {saver : CnfSaver} {machine : Machine} {r : Res} {file file' : Bytes}
    {clearing : Clearing} (saves : (cnf saver).SavesTo machine r file file')
    (cleared : Clearing.clear saver.keys (.start file machine.behind) = .done clearing)
    (found : clearing.found = true)
    (covers : file.length ≤ (clearing.before ++ saver.block r ++ clearing.after).length) :
    file' = clearing.before ++ saver.block r ++ clearing.after := by
  have succeeds := saves.1
  have planned : (toSaver (cnf saver)).plan machine r [] (some file) = .done (.write {
      pieces := [clearing.before, saver.block r, clearing.after]
      whole := clearing.before ++ saver.block r ++ clearing.after
      overlay := true
      refused := 0 }) := by
    simp [toSaver, Saver.plan, cnfPlan, Gemdos.loadFile_of_loads succeeds.loads,
      succeeds.opens, cleared, Clearing.rest, found]
  rcases saves.plan with wild | done
  · rw [planned] at wild
    cases wild
  · rcases done with ⟨plan, same, result⟩
    rw [planned] at same
    cases same
    have gone : file.drop (clearing.before ++ saver.block r ++ clearing.after).length = [] :=
      List.drop_of_length_le covers
    rw [List.append_assoc] at gone
    simp only [Plan.run, if_pos succeeds.opens,
      Gemdos.stored_of_complete (Gemdos.complete_of_writes succeeds.writes), if_true,
      Option.getD_some, List.flatten_cons, List.flatten_nil, List.append_nil, gone,
      Prod.mk.injEq, Option.some.injEq, true_and] at result
    rw [← result, List.append_assoc]

/-- A gap lies where a line starts, and once something was found there is text behind
it. -/
theorem clear_gap {keys : List Bytes} {clearing next : Clearing}
    (closed : Closed clearing.before) (more : clearing.found = true → clearing.after ≠ [])
    (result : Clearing.clear keys clearing = .done next) :
    Closed next.before ∧ (next.found = true → next.after ≠ []) := by
  induction keys generalizing clearing with
  | nil =>
      cases Outcome.done.inj result
      exact ⟨closed, more⟩
  | cons key keys induction =>
      rw [Clearing.clear] at result
      cases search : cutLine key (lines clearing.text) with
      | none =>
          rw [Clearing.clearKey_hidden (cutLine_eq_none.mp search)] at result
          exact induction closed more (stay_bind_eq_done result).2
      | some parts =>
          have cut := cutLine_eq_some.mp search
          rw [Clearing.clearKey_cut cut, Outcome.done_bind] at result
          refine induction (closed_front cut.split) ?_ result
          intro _ empty
          have positive := cut.back_pos
          simp only at empty
          simp [empty] at positive

/-! ### `fvdi.sys` -/

/-- What a successful save has found in the file. -/
theorem fvdi_written {machine : Machine} {r : Res} {file file' : Bytes}
    (ready : fvdi.Ready file r) (saves : fvdi.SavesTo machine r file file') :
    ∃ driver front line back, fvdiReads r (lines file) = some driver ∧
      Cut fvdiRecord (lines file) front line back ∧
      HiddenIn fvdiRecord (lines (front.flatten ++ back.flatten)) ∧
      file' = front.flatten ++ fvdiLine driver r ++ back.flatten := by
  have succeeds := saves.1
  have loaded := Gemdos.loadFile_of_loads succeeds.loads file
  have planned := saves.plan
  simp only [toSaver, Saver.plan, fvdiPlan, loaded] at planned
  have refuses : ¬∃ plan, Outcome.done (Plan.leave (-1)) = .done plan ∧
      plan.run machine.gemdos (some file) = (1, some file') := by
    intro found
    rcases found with ⟨plan, same, result⟩
    cases Outcome.done.inj same
    simp [Plan.run] at result
  rw [Ready] at ready
  cases reads : fvdiReads r (lines file) with
  | none =>
      simp only [reads, reduceCtorEq, false_or] at planned
      exact absurd planned refuses
  | some driver =>
      cases first : cutLine fvdiRecord (lines file) with
      | none =>
          simp only [first] at ready
          have apart : ¬Glued file machine.behind := fun glued => ready glued.1
          simp only [reads, first, if_neg apart, reduceCtorEq, false_or] at planned
          exact absurd planned refuses
      | some parts =>
          rcases parts with ⟨front, line, back⟩
          have cut := cutLine_eq_some.mp first
          simp only [first] at ready
          cases second : cutLine fvdiRecord (lines (front.flatten ++ back.flatten)) with
          | some parts =>
              simp only [reads, first, second, reduceCtorEq, false_or] at planned
              exact absurd planned refuses
          | none =>
              have apart := fun glued => ready ((glued_stale cut machine.behind).mp glued)
              simp only [reads, first, second, if_neg apart, reduceCtorEq, false_or]
                at planned
              rcases planned with ⟨plan, same, result⟩
              cases Outcome.done.inj same
              refine ⟨driver, front, line, back, rfl, cut, cutLine_eq_none.mp second, ?_⟩
              simp only [Plan.run, if_pos succeeds.opens, Bool.false_eq_true, if_false,
                Gemdos.stored_of_complete (Gemdos.complete_of_writes succeeds.writes),
                List.flatten_cons, List.flatten_nil, List.append_nil, Prod.mk.injEq,
                Option.some.injEq, true_and] at result
              rw [← result, List.append_assoc]

theorem not_shows_driver {r : Res} {line : Bytes} (shows : Shows fvdiRecord line) :
    ¬Shows (fvdiDriver r) line := by
  intro showsDriver
  rcases shows.startsWith.comparable showsDriver.startsWith with before | before
  · rcases before with ⟨rest, same⟩
    have first := congrArg List.head? same
    simp [fvdiRecord, fvdiDriver, ascii] at first
  · rcases before with ⟨rest, same⟩
    have first := congrArg List.head? same
    simp [fvdiRecord, fvdiDriver, ascii] at first

/-- The driver is the same whatever the `01r` line says. -/
theorem fvdiReads_replace {r : Res} {front back : List Bytes} {old new : Bytes}
    (showsOld : Shows fvdiRecord old) (showsNew : Shows fvdiRecord new) :
    fvdiReads r (front ++ old :: back) = fvdiReads r (front ++ new :: back) := by
  have one : ∀ {old new : Bytes}, Shows fvdiRecord old → Shows fvdiRecord new →
      ∀ driver, fvdiReads r (front ++ old :: back) = some driver →
        fvdiReads r (front ++ new :: back) = some driver := by
    intro old new showsOld showsNew driver reads
    rcases fvdiReads_eq_some.mp reads with ⟨_, line, _, cut, fits⟩
    rcases cut.replace (not_shows_driver showsOld) (not_shows_driver showsNew) with
      ⟨front', back', cut'⟩
    exact fvdiReads_eq_some.mpr ⟨front', line, back', cut', fits⟩
  apply Option.ext
  intro driver
  exact ⟨one showsOld showsNew driver, one showsNew showsOld driver⟩

/-! ### Filling the slot -/

/-- The saver will find its lines in the slot of the file. -/
def SlotOk (file : Bytes) : LineSaver → Prop
  | magx =>
      Closed (magx.slot file).before ∧
        (∀ line ∈ lines (magx.slot file).before, ¬Shows magxDev line) ∧
        (magx.slot file).after ≠ []
  | cnf saver =>
      Closed ((cnf saver).slot file).before ∧
        (∀ line ∈ lines ((cnf saver).slot file).before, ∀ key ∈ saver.keys,
          ¬Shows key line) ∧
        ((cnf saver).slot file).after ≠ []
  | fvdi => ∃ front line back, Cut fvdiRecord (lines file) front line back

variable {machine : Machine} {r : Res} {file file' : Bytes}

theorem magx_written (saves : magx.SavesTo machine r file file') :
    file' = (magxGap file machine.behind).before ++ magxLine r ++
      (magxGap file machine.behind).after := by
  have succeeds := saves.1
  rcases saves with ⟨_, path, disk, disk', place, here, saved, left⟩
  cases Option.some.inj place
  have written := saveMagx_file succeeds here r
  have same : (saveMagxInf machine r disk).2 = disk' := congrArg Prod.snd saved
  rw [same, left] at written
  exact Option.some.inj written

theorem magx_gap_same (ready : magx.Ready file r) (behind : Bytes) :
    magxGap file behind = magxGap file [] := by
  simp only [magxGap]
  cases dev : cutLine magxDev (lines file) with
  | some parts => rfl
  | none =>
      have apart : ¬Glued file [] := fun glued => by simp [Glued] at glued
      by_cases glued : Glued file behind
      · have aes := (ready glued.1).resolve_left fun found => found dev
        simp [glued, apart, aesGap, aes]
      · simp only [if_neg glued, if_neg apart]

theorem magxGap_more {behind : Bytes} (nonempty : file ≠ []) :
    (magxGap file behind).after ≠ [] := by
  have behindCut : ∀ {key front line back}, Cut key (lines file) front line back →
      back.flatten ≠ [] := by
    intro key front line back cut empty
    have positive := cut.back_pos
    simp [empty] at positive
  rw [magxGap]
  cases dev : cutLine magxDev (lines file) with
  | some parts => exact behindCut (cutLine_eq_some.mp dev)
  | none =>
      by_cases glued : Glued file behind
      · simpa [glued] using nonempty
      · simp only [if_neg glued, aesGap]
        cases aes : cutLine magxAes (lines file) with
        | none => exact nonempty
        | some parts => exact behindCut (cutLine_eq_some.mp aes)

/-- No `#_DEV` line stands in front of the gap. -/
theorem magxGap_not_shows {behind : Bytes} (nonempty : file ≠ []) :
    ∀ line ∈ lines (magxGap file behind).before, ¬Shows magxDev line := by
  cases dev : cutLine magxDev (lines file) with
  | some parts =>
      have cut := cutLine_eq_some.mp dev
      simp only [magxGap, dev, lines_front cut.split]
      exact cut.first
  | none =>
      have hidden := cutLine_eq_none.mp dev
      rcases magxGap_lines file behind with ⟨rest, split, atEnd⟩
      intro line member
      apply hidden
      have more : rest ≠ [] := fun empty => nonempty (atEnd empty)
      rw [split, List.dropLast_append_of_ne_nil more]
      exact List.mem_append_left _ member

theorem fvdiLine_eq (driver : Bytes) (r : Res) :
    fvdiLine driver r = freshLine fvdiRecord (driver ++ ascii " mode " ++
      formatD r.hres.toInt ++ ascii "x" ++ formatD r.vres.toInt ++ ascii "x" ++
      formatD r.planes.toInt ++ ascii "@" ++ formatD r.freq.toInt) := by
  simp [fvdiLine, freshLine, fvdiRecord, ascii]

theorem fvdiReads_plain {ls : List Bytes} : Plain ((fvdiReads r ls).getD []) := by
  cases reads : fvdiReads r ls with
  | none => exact Plain.nil
  | some driver =>
      rcases fvdiReads_eq_some.mp reads with ⟨_, line, _, _, _, word⟩
      rw [Option.getD_some, ← word]
      intro c member
      have kept : c ≠ 0 ∧ c ≠ cr ∧ c ≠ lf ∧ c ≠ 0x20 := by
        simpa using List.mem_takeWhile_imp member
      exact ⟨kept.2.1, kept.2.2.1⟩

/-- The new `01r` line is found in the place of the old one. -/
theorem fvdi_cut_filled {front back : List Bytes} {line : Bytes}
    (cut : Cut fvdiRecord (lines file) front line back) (earlier : Res) :
    Cut fvdiRecord (lines (fvdi.filled file earlier)) front
      (fvdi.fill file earlier) back := by
  have cross : Plain (ascii "x") := by simp [Plain, ascii, cr, lf]
  have plain : Plain ((fvdiReads earlier (lines file)).getD [] ++ ascii " mode " ++
      formatD earlier.hres.toInt ++ ascii "x" ++ formatD earlier.vres.toInt ++ ascii "x" ++
      formatD earlier.planes.toInt ++ ascii "@" ++ formatD earlier.freq.toInt) :=
    (((((((fvdiReads_plain.append (by simp [Plain, ascii, cr, lf])).append
      (formatD_plain _)).append cross).append (formatD_plain _)).append cross).append
      (formatD_plain _)).append (by simp [Plain, ascii, cr, lf])).append (formatD_plain _)
  have place : fvdi.slot file = ⟨front.flatten, back.flatten⟩ := by
    simp only [slot, cutLine_eq_some.mpr cut]
  have shifted : lines file = (front ++ [line]) ++ back := by simp [cut.split]
  have split := lines_insert (closed_front cut.split) fvdiRecord_isKey plain back.flatten
  rw [lines_front cut.split, lines_back shifted, ← fvdiLine_eq] at split
  refine ⟨?_, ?_, cut.first, cut.more⟩
  · rw [filled, place]
    exact split
  · rw [fill, fvdiLine_eq]
    exact freshLine_shows fvdiRecord_isKey (by decide)

theorem first_save (saver : LineSaver) (nonempty : file ≠ []) (ready : saver.Ready file r)
    (saves : saver.SavesTo machine r file file') :
    file' = saver.filled file r ∧ saver.SlotOk file := by
  cases saver with
  | magx =>
      refine ⟨?_, ?_⟩
      · rw [magx_written saves, magx_gap_same ready]
        rfl
      · exact ⟨magxGap_closed, magxGap_not_shows nonempty, magxGap_more nonempty⟩
  | cnf saver =>
      rcases ready with ⟨tame, clearing, cleared, found, none, covers⟩
      cases here : Clearing.clear saver.keys (.start file machine.behind) with
      | wild => exact absurd here (tame machine.behind)
      | done clearing' =>
          have same := clear_start_same here cleared
          have place : (cnf saver).slot file = ⟨clearing.before, clearing.after⟩ := by
            simp only [slot, cleared]
          have gap := clear_gap (.inl rfl) (by simp [Clearing.start]) cleared
          refine ⟨?_, ?_⟩
          · rw [cnf_written saves here (same.2.2.trans found)
              (by rw [same.1, same.2.1]; exact covers), filled, place, same.1, same.2.1]
            rfl
          · rw [SlotOk, place]
            exact ⟨gap.1, none, gap.2 found⟩
  | fvdi =>
      rcases fvdi_written ready saves with ⟨driver, front, line, back, reads, cut, _, written⟩
      refine ⟨?_, front, line, back, cut⟩
      rw [written, filled, slot, cutLine_eq_some.mpr cut, fill, reads]
      rfl

/-- A save into a file whose slot was filled before fills it again. -/
theorem next_save (saver : LineSaver) (ok : saver.SlotOk file) {earlier : Res}
    (ready : saver.Ready (saver.filled file earlier) r)
    (saves : saver.SavesTo machine r (saver.filled file earlier) file') :
    file' = saver.filled file r := by
  cases saver with
  | magx =>
      rcases ok with ⟨closed, none, more⟩
      have split := lines_magxLine closed earlier (magx.slot file).after
      have moreLines : lines (magx.slot file).after ≠ [] := fun empty =>
        more (lines_eq_nil.mp empty)
      have shows : Shows magxDev (magxLine earlier) := by
        rw [magxLine_eq]
        exact freshLine_shows magxDev_isKey (by decide)
      have cut : Cut magxDev (lines (magx.filled file earlier)) _ _ _ :=
        ⟨split, shows, none, moreLines⟩
      rw [magx_written saves, magxGap, cutLine_eq_some.mpr cut]
      simp only [lines_flatten]
      rfl
  | cnf saver =>
      rcases ok with ⟨closed, none, more⟩
      rcases ready with ⟨tame, clearing, cleared, found, _, covers⟩
      have keys := saver.entries_keys earlier
      have found' := @clear_freshLines _ (entries_areKeys saver earlier) _ _ closed
        (by rw [keys]; exact none) more
        (.start ((cnf saver).filled file earlier) machine.behind) (by
          rw [← saver.block_eq]
          rfl)
      rw [keys] at found'
      rcases found' with ⟨next, here, same⟩
      have same := same (by cases saver <;> simp [CnfSaver.entries])
      have sameCleared := clear_start_same cleared here
      rw [cnf_written saves here same.2.2 (by
        rw [← sameCleared.1, ← sameCleared.2.1]
        exact covers), same.1, same.2.1]
      rfl
  | fvdi =>
      rcases ok with ⟨front, line, back, cut⟩
      rcases fvdi_written ready saves with
        ⟨driver, front', line', back', reads, cut', _, written⟩
      have filledCut := fvdi_cut_filled cut earlier
      have same := cutLine_eq_some.mpr cut'
      rw [cutLine_eq_some.mpr filledCut] at same
      cases same
      rw [filledCut.split, fvdiReads_replace filledCut.shows cut.shows, ← cut.split] at reads
      rw [written, filled, slot, cutLine_eq_some.mpr cut, fill, reads]
      rfl

/-- Every run of ready saves leaves the slot filled for its last mode. -/
theorem run_filled (saver : LineSaver) (ok : saver.SlotOk file) {earlier : Res}
    {steps : List (Machine × Res)} {last : Bytes}
    (run : saver.Run (saver.filled file earlier) (steps ++ [(machine, r)]) last) :
    last = saver.filled file r := by
  induction steps generalizing earlier with
  | nil =>
      cases run with
      | cons ready saves rest =>
          cases rest
          exact saver.next_save ok ready saves
  | cons step steps induction =>
      cases run with
      | cons ready saves rest =>
          rw [saver.next_save ok ready saves] at rest
          exact induction rest

theorem run_from_start (saver : LineSaver) (nonempty : file ≠ [])
    {steps : List (Machine × Res)} {last : Bytes}
    (run : saver.Run file (steps ++ [(machine, r)]) last) : last = saver.filled file r := by
  cases steps with
  | nil =>
      cases run with
      | cons ready saves rest =>
          cases rest
          exact (saver.first_save nonempty ready saves).1
  | cons step steps =>
      cases run with
      | cons ready saves rest =>
          rcases saver.first_save nonempty ready saves with ⟨written, ok⟩
          rw [written] at rest
          exact saver.run_filled ok rest

/-- Two runs of ready saves into one file that end with the same mode leave the same
file: earlier saves leave no trace. -/
theorem last_save_wins (saver : LineSaver) (file last last' : Bytes)
    (steps steps' : List (Machine × Res)) (machine machine' : Machine) (r : Res)
    (nonempty : file ≠ []) (run : saver.Run file (steps ++ [(machine, r)]) last)
    (run' : saver.Run file (steps' ++ [(machine', r)]) last') : last = last' := by
  rw [saver.run_from_start nonempty run, saver.run_from_start nonempty run']

/-- A save that can be watched. -/
theorem savesTo_of_result {saver : LineSaver} {machine : Machine} {path : Bytes} {r : Res}
    {file file' : Bytes} (succeeds : machine.gemdos.Succeeds)
    (place : saver.toSaver.path machine = some path)
    (result : ((saver.toSaver.save machine r [] fun _ => some file).bind fun saved =>
      .done (saved.1, saved.2 path)) = .done (1, some file')) :
    saver.SavesTo machine r file file' := by
  cases saved : saver.toSaver.save machine r [] fun _ => some file with
  | wild => simp [saved] at result
  | done value =>
      rw [saved, Outcome.done_bind, Outcome.done.injEq, Prod.mk.injEq] at result
      refine ⟨succeeds, path, fun _ => some file, value.2, place, rfl, ?_, result.2⟩
      rw [saved]
      exact Prod.ext result.1 rfl

/-- A text that does not end in a lone CR is cleared whatever lies behind it. -/
theorem clear_tame {keys : List Bytes} {clearing : Clearing}
    (ends : clearing.text.getLast? ≠ some cr) : Clearing.clear keys clearing ≠ .wild := by
  induction keys generalizing clearing with
  | nil => simp [Clearing.clear]
  | cons key keys induction =>
      rw [Clearing.clear]
      cases search : cutLine key (lines clearing.text) with
      | none =>
          have apart : ¬Glued clearing.text clearing.behind := fun glued => ends glued.1
          rw [Clearing.clearKey_hidden (cutLine_eq_none.mp search), Clearing.stay, if_neg apart]
          exact induction ends
      | some parts =>
          rcases parts with ⟨front, line, back⟩
          have cut := cutLine_eq_some.mp search
          rw [Clearing.clearKey_cut cut, Outcome.done_bind]
          apply induction
          have whole := eq_flatten cut.split
          have behind : back.flatten ≠ [] := List.length_pos_iff.mp (by
            exact_mod_cast cut.back_pos)
          rw [whole, List.flatten_append, List.flatten_cons] at ends
          rw [Clearing.text, List.getLast?_append_of_ne_nil _ behind]
          rwa [List.getLast?_append_of_ne_nil _ (by simp [behind]),
            List.getLast?_append_of_ne_nil _ behind] at ends

theorem cnf_ready {saver : CnfSaver} {file : Bytes} {r : Res} {clearing : Clearing}
    (ends : file.getLast? ≠ some cr)
    (cleared : Clearing.clear saver.keys (.start file []) = .done clearing)
    (found : clearing.found = true)
    (unkeyed : ∀ line ∈ lines clearing.before, ∀ key ∈ saver.keys, ¬Shows key line)
    (long : file.length ≤ (clearing.before ++ saver.block r ++ clearing.after).length) :
    (cnf saver).Ready file r :=
  ⟨fun _ => clear_tame ends, clearing, cleared, found, unkeyed, long⟩

/-- Saving twice and saving once: a longer mode before a shorter one in `magx.inf`, and
the other way round in `xaaes.cnf`. -/
theorem last_save_wins_sample :
    let machine := Machine.obliging 0 [] 0
    let short : Res := ⟨false, 2, 0, 0, 0, 0, 0, 0, 0, 0, 0⟩
    let long : Res := ⟨false, 10, 0x4102, 0, 0, 0, 0, 0, 0, 0, 0⟩
    let magxFile := ascii "#_MAG\r\n#[aes]\r\n#[boot]\r\n"
    let magxSave := fun r file =>
      ((saveMagxInf machine r fun _ => some file).2 magxPath).getD []
    let cnfFile := ascii "SCREENDEV = 2\r\nMODECODE = 0x0000\r\nrun\r\n"
    let cnfPath := (xaaesPath machine).getD []
    let cnfSave := fun r file =>
      ((((cnf .xaaes).toSaver.save machine r [] fun _ => some file).getD (0, fun _ => none)).2
        cnfPath).getD []
    magxSave short (magxSave long magxFile) = magxSave short magxFile ∧
      cnfSave long (cnfSave short cnfFile) = cnfSave long cnfFile := by
  intro machine short long magxFile magxSave cnfFile cnfPath cnfSave
  constructor
  · have first : magx.Run magxFile [(machine, long), (machine, short)]
        (magxSave short (magxSave long magxFile)) :=
      @Run.cons magx magxFile (magxSave long magxFile) _ machine long _
        (fun ends => absurd ends (by decide +kernel))
        (savesTo_of_result Gemdos.obliging_succeeds rfl (by decide +kernel))
        (.cons (fun ends => absurd ends (by decide +kernel))
          (savesTo_of_result Gemdos.obliging_succeeds rfl (by decide +kernel)) (.nil _))
    have alone : magx.Run magxFile [(machine, short)] (magxSave short magxFile) :=
      .cons (fun ends => absurd ends (by decide +kernel))
        (savesTo_of_result Gemdos.obliging_succeeds rfl (by decide +kernel)) (.nil _)
    exact last_save_wins magx magxFile _ _ [(machine, long)] [] machine machine short (by decide)
      first alone
  · let clearing := fun file =>
      (Clearing.clear CnfSaver.xaaes.keys (.start file [])).getD (.start [] [])
    have first : (cnf .xaaes).Run cnfFile [(machine, short), (machine, long)]
        (cnfSave long (cnfSave short cnfFile)) :=
      @Run.cons (cnf .xaaes) cnfFile (cnfSave short cnfFile) _ machine short _
        (@cnf_ready _ _ _ (clearing cnfFile) (by decide +kernel)
          (Outcome.eq_done_getD (by decide +kernel) _) (by decide +kernel)
          (by decide +kernel) (by decide +kernel))
        (savesTo_of_result Gemdos.obliging_succeeds rfl (by decide +kernel))
        (.cons (@cnf_ready _ _ _ (clearing (cnfSave short cnfFile)) (by decide +kernel)
            (Outcome.eq_done_getD (by decide +kernel) _) (by decide +kernel)
            (by decide +kernel) (by decide +kernel))
          (savesTo_of_result Gemdos.obliging_succeeds rfl (by decide +kernel)) (.nil _))
    have alone : (cnf .xaaes).Run cnfFile [(machine, long)] (cnfSave long cnfFile) :=
      .cons (@cnf_ready _ _ _ (clearing cnfFile) (by decide +kernel)
          (Outcome.eq_done_getD (by decide +kernel) _) (by decide +kernel)
          (by decide +kernel) (by decide +kernel))
        (savesTo_of_result Gemdos.obliging_succeeds rfl (by decide +kernel)) (.nil _)
    exact last_save_wins (cnf .xaaes) cnfFile _ _ [(machine, short)] [] machine machine long
      (by decide) first alone

/-- A shorter mode saved over a longer one leaves the end of the longer text. -/
theorem longer_mode_before : ¬∀ (saver : LineSaver) (machine : Machine) (a b : Res)
    (file first second alone : Bytes), file ≠ [] → saver.SavesTo machine a file first →
    saver.SavesTo machine b first second → saver.SavesTo machine b file alone →
    second = alone := by
  intro all
  let machine := Machine.obliging 0 [] 0
  let a : Res := ⟨false, 10, 0, 0, 0, 0, 0, 0, 0, 0, 0⟩
  let b : Res := ⟨false, 2, 0, 0, 0, 0, 0, 0, 0, 0, 0⟩
  let file := ascii "SCREENDEV = 2\r\nMODECODE = 0x0000\r\nrun\r\n"
  have same := all (cnf .xaaes) machine a b file
    (ascii "SCREENDEV = 10\r\nMODECODE = 0x0000\r\nrun\r\n")
    (ascii "SCREENDEV = 2\r\nMODECODE = 0x0000\r\nrun\r\n\n") file (by decide)
    (savesTo_of_result Gemdos.obliging_succeeds rfl (by decide +kernel))
    (savesTo_of_result Gemdos.obliging_succeeds rfl (by decide +kernel))
    (savesTo_of_result Gemdos.obliging_succeeds rfl (by decide +kernel))
  exact absurd same (by decide +kernel)

end LineSaver

end Chgres
