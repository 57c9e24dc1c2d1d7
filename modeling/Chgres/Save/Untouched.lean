import Chgres.Save.Saver

/-! # What a save leaves alone

A saver works on its own file, and on that only if it reports success.
-/

namespace Chgres

open Text

variable {machine : Machine} {r : Res} {newdeskText : Bytes} {disk after : Disk} {ret : Int}

theorem Disk.set_other (disk : Disk) {path other : Bytes} (different : other ≠ path)
    (file : Option Bytes) : disk.set path file other = disk other :=
  if_neg different

theorem onFile_other {path : Bytes} {saver : Option Bytes → Outcome (Int × Option Bytes)}
    (ends : onFile disk path saver = .done (ret, after)) {other : Bytes}
    (different : other ≠ path) : after other = disk other := by
  rw [onFile] at ends
  cases saved : saver (disk path) with
  | wild =>
      rw [saved] at ends
      exact absurd ends (by simp)
  | done result =>
      rw [saved] at ends
      cases ends
      exact disk.set_other different _

/-- A saver touches no file but its own. -/
theorem Saver.save_other (saver : Saver)
    (ends : saver.save machine r newdeskText disk = .done (ret, after)) {other : Bytes}
    (different : saver.path machine ≠ some other) : after other = disk other := by
  cases saver with
  | magx =>
      have apart : other ≠ magxPath := fun same => different (congrArg some same.symm)
      simp only [save, saveMagxInf] at ends
      split at ends
      · cases ends
        rfl
      · split at ends
        · cases ends
          exact disk.set_other apart _
        · cases ends
          rfl
  | desk saver =>
      simp only [save, DeskSaver.save] at ends
      split at ends
      · cases ends
        rfl
      case h_2 path here =>
        cases ends
        refine disk.set_other (fun same => different ?_) _
        rw [same]
        exact here
  | cnf saver =>
      cases place : saver.path machine with
      | some path =>
          simp only [save, saver.save_eq place] at ends
          refine onFile_other ends fun same => different ?_
          rw [same]
          exact place
      | none =>
          cases saver with
          | myaes => exact absurd place (by simp [CnfSaver.path])
          | xaaes =>
              have nowhere : xaaesPath machine = none := place
              simp only [save, CnfSaver.save, saveXaaesInf, nowhere] at ends
              cases ends
              rfl
  | fvdi =>
      exact onFile_other ends fun same => different (congrArg some same.symm)

theorem Plan.run_unchanged {gemdos : Gemdos} {plan : Plan} {file : Option Bytes}
    (failed : (plan.run gemdos file).1 ≠ 1) : (plan.run gemdos file).2 = file := by
  cases plan with
  | leave ret => rfl
  | write writing =>
      rw [run] at failed ⊢
      split
      case isTrue opens => exact absurd (by rw [if_pos opens]) failed
      case isFalse => rfl

/-- A saver that does not report success has touched nothing. -/
theorem Saver.save_failed (saver : Saver)
    (ends : saver.save machine r newdeskText disk = .done (ret, after)) (failed : ret ≠ 1) :
    after = disk := by
  funext other
  by_cases place : saver.path machine = some other
  · have planned := saver.save_plan place r newdeskText disk
    rw [ends, Outcome.done_bind] at planned
    cases plan : saver.plan machine r newdeskText (disk other) with
    | wild =>
        rw [plan] at planned
        exact absurd planned (by simp)
    | done found =>
        rw [plan, Outcome.done_bind, Outcome.done.injEq] at planned
        have unchanged := @Plan.run_unchanged machine.gemdos found (disk other)
        rw [← planned] at unchanged
        exact unchanged failed
  · exact saver.save_other ends place

end Chgres
