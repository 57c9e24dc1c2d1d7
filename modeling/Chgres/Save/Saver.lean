import Chgres.Save.CnfPieces
import Chgres.Save.Desk
import Chgres.Save.Fvdi
import Chgres.Save.Magx

/-! # What all savers have in common

A saver loads its file, makes up the pieces of a new text, opens the file and writes
them. Its result says whether the file could be opened; no write is checked.
-/

namespace Chgres

open Text

inductive Saver
  | magx
  | desk (saver : DeskSaver)
  | cnf (saver : CnfSaver)
  | fvdi
  deriving DecidableEq, Repr

/-- The writing that a saver sets out to do. -/
structure Writing where
  /-- What the writes ask for. -/
  pieces : List Bytes
  /-- The text that the file should hold. -/
  whole : Bytes
  /-- The file is opened over its old contents. -/
  overlay : Bool
  /-- The result if the file cannot be opened. -/
  refused : Int
  deriving DecidableEq, Repr

inductive Plan
  | leave (ret : Int)
  | write (writing : Writing)
  deriving DecidableEq, Repr

/-- The result and the file after a plan is carried out. -/
def Plan.run (gemdos : Gemdos) (file : Option Bytes) : Plan → Int × Option Bytes
  | leave ret => (ret, file)
  | write writing =>
      if 0 < gemdos.writeHandle then
        let stored := gemdos.stored 0 writing.pieces
        (1, some (if writing.overlay then stored ++ (file.getD []).drop stored.length
          else stored))
      else (writing.refused, file)

/-! ## The plans -/

def magxPlan (machine : Machine) (r : Res) (file : Option Bytes) : Plan :=
  match machine.gemdos.loadFile file with
  | none => .leave 0
  | some contents =>
      let gap := magxGap contents machine.behind
      .write {
        pieces := [gap.before, magxLine r, gap.after]
        whole := gap.before ++ magxLine r ++ gap.after
        overlay := false
        refused := 0 }

/-- The new text of a desktop file, from the old one or the default. -/
def deskNewText (machine : Machine) (r : Res) (eoffset : Nat) (defaultbuf file : Option Bytes) :
    Option Bytes :=
  match machine.gemdos.loadFile file with
  | some lbuf => deskText r.rez r.vmode machine.sysAes eoffset lbuf machine.behind
  | none => defaultbuf.bind fun buf =>
      if buf = [] then none else deskText r.rez r.vmode machine.sysAes eoffset buf [0]

/-- `Fcreate` is not checked for a negative result. -/
def deskPlan (machine : Machine) (r : Res) (eoffset : Nat) (defaultbuf file : Option Bytes) :
    Plan :=
  match deskNewText machine r eoffset defaultbuf file with
  | none => .leave 0
  | some text => .write { pieces := [text], whole := text, overlay := false, refused := 1 }

def cnfPlan (machine : Machine) (keys : List Bytes) (block : Bytes) (file : Option Bytes) :
    Outcome Plan :=
  match machine.gemdos.loadFile file with
  | none => .done (.leave 0)
  | some contents =>
      if 0 < machine.gemdos.writeHandle then
        (Clearing.clear keys (.start contents machine.behind)).bind fun clearing =>
          .done (.write {
            pieces := [clearing.before, block, clearing.rest machine.stack]
            whole := clearing.before ++ block ++ clearing.after
            overlay := true
            refused := 0 })
      else .done (.leave 0)

def fvdiPlan (machine : Machine) (r : Res) (file : Option Bytes) : Outcome Plan :=
  match machine.gemdos.loadFile file with
  | none => .done (.leave (-1))
  | some contents =>
      match fvdiReads r (lines contents) with
      | none => .done (.leave (-1))
      | some driver =>
          match cutLine fvdiRecord (lines contents) with
          | none => if Glued contents machine.behind then .wild else .done (.leave (-1))
          | some (front, line, back) =>
              match cutLine fvdiRecord (lines (front.flatten ++ back.flatten)) with
              | some _ => .done (.leave (-1))
              | none =>
                  if Glued (front.flatten ++ back.flatten)
                      (staleTail contents line ++ machine.behind) then .wild
                  else .done (.write {
                    pieces := [front.flatten, fvdiLine driver r, back.flatten]
                    whole := front.flatten ++ fvdiLine driver r ++ back.flatten
                    overlay := false
                    refused := -1 })

namespace Saver

def path (machine : Machine) : Saver → Option Bytes
  | magx => some magxPath
  | desk saver => saver.path machine
  | cnf saver => saver.path machine
  | fvdi => some fvdiPath

/-- The saver as the program calls it. `newdeskText` is the text of
`default_newdesk`. -/
def save : Saver → Machine → Res → (newdeskText : Bytes) → Disk → Outcome (Int × Disk)
  | magx, machine, r, _, disk => .done (saveMagxInf machine r disk)
  | desk saver, machine, r, newdeskText, disk =>
      let saved := saver.save machine r newdeskText disk
      .done (saved.1, saved.2.1)
  | cnf saver, machine, r, _, disk => saver.save machine r disk
  | fvdi, machine, r, _, disk => saveFvdiInf machine r disk

def plan : Saver → Machine → Res → (newdeskText : Bytes) → Option Bytes → Outcome Plan
  | magx, machine, r, _, file => .done (magxPlan machine r file)
  | desk saver, machine, r, newdeskText, file =>
      .done (deskPlan machine r saver.eoffset (saver.defaultbuf newdeskText) file)
  | cnf saver, machine, r, _, file => cnfPlan machine saver.keys (saver.block r) file
  | fvdi, machine, r, _, file => fvdiPlan machine r file

end Saver

/-! ## The savers carry out their plans -/

variable {machine : Machine} {r : Res} {disk : Disk} {file : Option Bytes}

theorem saveMagx_plan (machine : Machine) (r : Res) (disk : Disk) :
    ((saveMagxInf machine r disk).1, (saveMagxInf machine r disk).2 magxPath) =
      (magxPlan machine r (disk magxPath)).run machine.gemdos (disk magxPath) := by
  cases loaded : machine.gemdos.loadFile (disk magxPath) with
  | none => simp only [saveMagxInf, magxPlan, loaded, Plan.run]
  | some contents =>
      rw [saveMagx_loaded loaded]
      simp only [magxPlan, loaded, Plan.run]
      split_ifs <;> simp_all

theorem saveDesk_plan (machine : Machine) (r : Res) (eoffset : Nat)
    (defaultbuf file : Option Bytes) :
    ((saveDeskInfBase machine r.rez r.vmode eoffset defaultbuf file).ret,
        (saveDeskInfBase machine r.rez r.vmode eoffset defaultbuf file).file) =
      (deskPlan machine r eoffset defaultbuf file).run machine.gemdos file := by
  have written : ∀ text, writeDesk machine.gemdos text file =
      (Plan.write ⟨[text], text, false, 1⟩).run machine.gemdos file := by
    intro text
    have created := @Gemdos.writeAll_create machine.gemdos 0 [text]
    simp only [Gemdos.writeAll] at created
    simp only [writeDesk, Plan.run, created, ne_eq, machine.gemdos.writeHandle_ne_zero,
      not_false_eq_true, if_true]
    split_ifs <;> simp_all
  unfold saveDeskInfBase deskPlan deskNewText
  cases machine.gemdos.loadFile file with
  | some lbuf =>
      simp only
      cases deskText r.rez r.vmode machine.sysAes eoffset lbuf machine.behind with
      | none => rfl
      | some text => simp only [written]
  | none =>
      cases defaultbuf with
      | none => rfl
      | some buf =>
          simp only [Option.bind_some]
          by_cases empty : buf = []
          · simp [empty, Plan.run]
          · simp only [if_neg empty]
            cases deskText r.rez r.vmode machine.sysAes eoffset buf [0] with
            | none => rfl
            | some text => simp only [written]

theorem saveCnf_plan {keys : List Bytes} (areKeys : ∀ key ∈ keys, IsKey key) (block : Bytes)
    (machine : Machine) (file : Option Bytes) :
    saveCnf machine keys block file = (cnfPlan machine keys block file).bind fun plan =>
      .done (plan.run machine.gemdos file) := by
  cases loaded : machine.gemdos.loadFile file with
  | none => simp only [saveCnf, cnfPlan, loaded, Outcome.done_bind, Plan.run]
  | some contents =>
      have here : file = some contents := by
        cases file with
        | none => simp at loaded
        | some old => rw [Gemdos.eq_of_loadFile loaded]
      subst here
      by_cases opens : 0 < machine.gemdos.writeHandle
      · rw [Clearing.saveCnf_opened block areKeys loaded opens]
        simp only [cnfPlan, loaded, if_pos opens]
        cases Clearing.clear keys (.start contents machine.behind) with
        | wild => rfl
        | done clearing =>
            simp [Plan.run, opens, Clearing.writeCnf_eq, Gemdos.writeAll_onto]
      · simp only [saveCnf, cnfPlan, loaded, if_neg opens, Outcome.done_bind, Plan.run]

theorem saveFvdi_plan (machine : Machine) (r : Res) (file : Option Bytes) :
    saveFvdi machine r file = (fvdiPlan machine r file).bind fun plan =>
      .done (plan.run machine.gemdos file) := by
  cases loaded : machine.gemdos.loadFile file with
  | none => simp only [saveFvdi, fvdiPlan, loaded, Outcome.done_bind, Plan.run]
  | some contents =>
      have here : file = some contents := by
        cases file with
        | none => simp at loaded
        | some old => rw [Gemdos.eq_of_loadFile loaded]
      subst here
      rw [saveFvdi_loaded loaded]
      simp only [fvdiPlan, loaded]
      cases fvdiReads r (lines contents) with
      | none => rfl
      | some driver =>
          simp only
          cases cutLine fvdiRecord (lines contents) with
          | none => split_ifs <;> rfl
          | some parts =>
              rcases parts with ⟨front, line, back⟩
              simp only
              cases cutLine fvdiRecord (lines (front.flatten ++ back.flatten)) with
              | some parts => rfl
              | none =>
                  simp only
                  split_ifs with glued opens
                  · rfl
                  · simp [Plan.run, opens]
                  · simp [Plan.run, opens]

/-- What a saver returns and leaves in its file is what its plan says. -/
theorem Saver.save_plan (saver : Saver) {machine : Machine} {path : Bytes}
    (place : saver.path machine = some path) (r : Res) (newdeskText : Bytes) (disk : Disk) :
    ((saver.save machine r newdeskText disk).bind fun result =>
        .done (result.1, result.2 path)) =
      (saver.plan machine r newdeskText (disk path)).bind fun plan =>
        .done (plan.run machine.gemdos (disk path)) := by
  cases saver with
  | magx =>
      cases Option.some.inj place
      exact congrArg Outcome.done (saveMagx_plan machine r disk)
  | desk saver =>
      have here : saver.path machine = some path := place
      have carried := saveDesk_plan machine r saver.eoffset (saver.defaultbuf newdeskText)
        (disk path)
      simp only [save, plan, DeskSaver.save, here, Outcome.done_bind, Disk.set_same]
      exact congrArg Outcome.done carried
  | cnf saver =>
      simp only [save, plan, saver.save_eq place, onFile,
        saveCnf_plan saver.proper.isKey]
      cases cnfPlan machine saver.keys (saver.block r) (disk path) <;> simp
  | fvdi =>
      cases Option.some.inj place
      simp only [save, plan, saveFvdiInf, onFile, saveFvdi_plan]
      cases fvdiPlan machine r (disk fvdiPath) <;> simp

end Chgres
