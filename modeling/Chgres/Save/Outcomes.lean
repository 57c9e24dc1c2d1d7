import Chgres.Save.CnfContents
import Chgres.Save.Saver

/-! # Results and failing writes

A result of 1 should mean that the file holds its new text, any other result that it
holds its old one. The savers check whether the file could be opened, and not even
that for desktop files; what the writes return they ignore.
-/

namespace Chgres

open Text

/-- The result of the save tells what is in the file. -/
def Honest (saver : Saver) (machine : Machine) (r : Res) (newdeskText : Bytes)
    (disk : Disk) : Prop :=
  ∀ path old, saver.path machine = some path → disk path = some old →
    ∀ ret disk', (saver.save machine r newdeskText disk).MayBe (ret, disk') →
      (ret = 1 → 0 < machine.gemdos.writeHandle ∧
        ∃ writing, saver.plan machine r newdeskText (some old) = .done (.write writing) ∧
          disk' path = some writing.whole) ∧
      (ret ≠ 1 → disk' path = some old)

/-- No call of the plan fails unnoticed: every write stores its whole piece, and a
refused open is not reported as success. -/
def Plan.Succeeds (gemdos : Gemdos) : Plan → Prop
  | leave _ => True
  | write writing =>
      if 0 < gemdos.writeHandle then gemdos.Complete 0 writing.pieces
      else writing.refused ≠ 1

/-- What is written over an old file reaches its end. Where no line is taken out, the
size that nobody has set happens to be that of the file. -/
def Saver.Covers (machine : Machine) (r : Res) (old : Bytes) : Saver → Prop
  | cnf saver =>
      machine.gemdos.loadFile (some old) = some old → 0 < machine.gemdos.writeHandle →
        (0 < Clearing.cutLength saver.keys old ∨ machine.stack.toNat = old.length) ∧
          Clearing.cutLength saver.keys old ≤ (saver.block r).length
  | _ => True

/-- The searches do not run off the file, no call fails unnoticed, and no part of the
old file stays behind the new text. -/
def Dependable (saver : Saver) (machine : Machine) (r : Res) (newdeskText : Bytes)
    (disk : Disk) : Prop :=
  ∀ path old, saver.path machine = some path → disk path = some old →
    (∃ plan, saver.plan machine r newdeskText (some old) = .done plan ∧
      plan.Succeeds machine.gemdos) ∧
    saver.Covers machine r old

/-- A short write shows in the length of the file: the new text does not lie over an
old one that is exactly as long, and no more is asked for than the new text has. -/
def Saver.Reveals (machine : Machine) (r : Res) (old : Bytes) : Saver → Prop
  | cnf saver =>
      if 0 < Clearing.cutLength saver.keys old then
        Clearing.cutLength saver.keys old ≠ (saver.block r).length
      else machine.stack.toNat ≤ old.length
  | _ => True

/-- No short write can go wrong without a trace: there is none, or it shows. -/
def Settled (saver : Saver) (machine : Machine) (r : Res) (newdeskText : Bytes)
    (disk : Disk) : Prop :=
  ∀ path old plan, saver.path machine = some path → disk path = some old →
    saver.plan machine r newdeskText (some old) = .done plan →
    plan.Succeeds machine.gemdos ∨ saver.Reveals machine r old

variable {saver : Saver} {machine : Machine} {r : Res} {newdeskText : Bytes}

/-- Giving up is not reported as success, and the pieces for a created file make up the
whole text. -/
def Plan.Proper : Plan → Prop
  | leave ret => ret ≠ 1
  | write writing => writing.overlay = false ∧ writing.pieces.flatten = writing.whole

theorem magxPlan_proper (file : Option Bytes) : (magxPlan machine r file).Proper := by
  rw [magxPlan]
  cases machine.gemdos.loadFile file <;> simp [Plan.Proper]

theorem deskPlan_proper (eoffset : Nat) (defaultbuf file : Option Bytes) :
    (deskPlan machine r eoffset defaultbuf file).Proper := by
  rw [deskPlan]
  cases deskNewText machine r eoffset defaultbuf file <;> simp [Plan.Proper]

theorem fvdiPlan_proper {file : Option Bytes} {plan : Plan}
    (planned : fvdiPlan machine r file = .done plan) : plan.Proper := by
  have refuses : (Plan.leave (-1)).Proper := by simp [Plan.Proper]
  rw [fvdiPlan] at planned
  repeat' split at planned
  all_goals first
    | exact (Outcome.done.inj planned) ▸ refuses
    | cases planned
  simp [Plan.Proper]

/-- Every saver but the two that write over an old file creates its file. -/
theorem plan_proper (creates : ∀ cnf, saver ≠ .cnf cnf) {file : Option Bytes} {plan : Plan}
    (planned : saver.plan machine r newdeskText file = .done plan) : plan.Proper := by
  cases saver with
  | magx =>
      cases Outcome.done.inj planned
      exact magxPlan_proper file
  | desk saver =>
      cases Outcome.done.inj planned
      exact deskPlan_proper _ _ file
  | cnf saver => exact absurd rfl (creates saver)
  | fvdi => exact fvdiPlan_proper planned

/-- The result of a plan tells what is in the file. -/
def Plan.Tells (gemdos : Gemdos) (old : Bytes) (plan : Plan) : Prop :=
  ((plan.run gemdos (some old)).1 = 1 → 0 < gemdos.writeHandle ∧
    ∃ writing, plan = .write writing ∧
      (plan.run gemdos (some old)).2 = some writing.whole) ∧
  ((plan.run gemdos (some old)).1 ≠ 1 → (plan.run gemdos (some old)).2 = some old)

/-- An open file is reported as saved, so it has to hold its new text. -/
theorem tells_opened {gemdos : Gemdos} {old : Bytes} {writing : Writing}
    (opens : 0 < gemdos.writeHandle) :
    (Plan.write writing).Tells gemdos old ↔
      ((Plan.write writing).run gemdos (some old)).2 = some writing.whole := by
  have reports : ((Plan.write writing).run gemdos (some old)).1 = 1 := by
    simp [Plan.run, opens]
  rw [Plan.Tells]
  constructor
  · intro tells
    rcases (tells.1 reports).2 with ⟨_, same, here⟩
    cases same
    exact here
  · intro here
    exact ⟨fun _ => ⟨opens, writing, rfl, here⟩, fun failure => absurd reports failure⟩

/-! ## Created files -/

/-- Short writes always show in a created file. -/
theorem tells_created {gemdos : Gemdos} {old : Bytes} {plan : Plan} (proper : plan.Proper) :
    plan.Tells gemdos old ↔ plan.Succeeds gemdos := by
  cases plan with
  | leave ret =>
      rw [Plan.Proper] at proper
      simp [Plan.Tells, Plan.Succeeds, Plan.run, proper]
  | write writing =>
      by_cases opens : 0 < gemdos.writeHandle
      · rw [tells_opened opens]
        simp only [Plan.run, Plan.Succeeds, if_pos opens, Option.some.injEq,
          proper.1, Bool.false_eq_true, if_false]
        rw [← proper.2]
        exact Gemdos.stored_eq_iff
      · simp [Plan.Tells, Plan.Succeeds, Plan.run, opens]

/-! ## Files that are written over -/

/-- The plan is made for a file that is loaded and open. -/
theorem cnfPlan_cases {keys : List Bytes} {block old : Bytes} {plan : Plan}
    (planned : cnfPlan machine keys block (some old) = .done plan) :
    (plan = .leave 0 ∧
      ¬(machine.gemdos.loadFile (some old) = some old ∧ 0 < machine.gemdos.writeHandle)) ∨
    ∃ clearing, 0 < machine.gemdos.writeHandle ∧
      Clearing.clear keys (.start old machine.behind) = .done clearing ∧
      machine.gemdos.loadFile (some old) = some old ∧
      plan = .write {
        pieces := [clearing.before, block, clearing.rest machine.stack]
        whole := clearing.before ++ block ++ clearing.after
        overlay := true
        refused := 0 } := by
  rw [cnfPlan] at planned
  cases loaded : machine.gemdos.loadFile (some old) with
  | none =>
      simp only [loaded, Outcome.done.injEq] at planned
      exact .inl ⟨planned.symm, by simp⟩
  | some contents =>
      cases Gemdos.eq_of_loadFile loaded
      simp only [loaded] at planned
      split_ifs at planned with opens
      · cases cleared : Clearing.clear keys (.start old machine.behind) with
        | wild => simp [cleared] at planned
        | done clearing =>
            rw [cleared, Outcome.done_bind, Outcome.done.injEq] at planned
            exact .inr ⟨clearing, opens, rfl, rfl, planned.symm⟩
      · rw [Outcome.done.injEq] at planned
        exact .inl ⟨planned.symm, fun both => opens both.2⟩

namespace Clearing

variable {keys : List Bytes} {block old behind : Bytes} {clearing : Clearing}

/-- How long the new text is, and when a line was taken out. -/
theorem whole_length (cleared : clear keys (.start old behind) = .done clearing) :
    (clearing.before ++ block ++ clearing.after).length + cutLength keys old =
        old.length + block.length ∧
      (clearing.found = true ↔ 0 < cutLength keys old) := by
  have lengths := clear_cutLength cleared
  simp only [start, text, List.nil_append, Bool.false_eq_true, false_or,
    List.length_append] at lengths ⊢
  exact ⟨by omega, lengths.2⟩

/-- After complete writes the file holds the new text exactly if that covers the old
one. -/
theorem overlaid_complete {gemdos : Gemdos} {stack : Int} (nonempty : block ≠ [])
    (cleared : clear keys (.start old behind) = .done clearing)
    (complete : gemdos.Complete 0 [clearing.before, block, clearing.rest stack]) :
    (writeCnf gemdos block old (clearing.toState stack)).contents =
        clearing.before ++ block ++ clearing.after ↔
      (0 < cutLength keys old ∨ stack.toNat = old.length) ∧
        cutLength keys old ≤ block.length := by
  have lengths := @whole_length keys block old behind clearing cleared
  rw [writeCnf_eq, Gemdos.writeAll_onto, Gemdos.stored_of_complete complete, ← lengths.2]
  by_cases found : clearing.found = true
  · simp only [rest, found, if_true, true_or, true_and, List.flatten_cons, List.flatten_nil,
      List.append_nil]
    rw [← List.append_assoc, List.append_right_eq_self, List.drop_eq_nil_iff]
    omega
  · have same := (clear_found cleared).resolve_right found
    have none : cutLength keys old = 0 := by
      have := mt lengths.2.mpr found
      omega
    subst same
    simp only [rest, start, text, List.nil_append, List.length_nil, Int.natCast_zero, sub_zero,
      Bool.false_eq_true, if_false, false_or, none, Nat.zero_le, and_true, List.flatten_cons,
      List.flatten_nil, List.append_nil]
    constructor
    · intro whole
      have size := congrArg List.length whole
      have more := List.length_pos_iff.mpr nonempty
      simp only [List.length_append, readMemory_length, List.length_drop] at size
      omega
    · intro size
      rw [size, readMemory_start, List.append_right_eq_self, List.drop_eq_nil_iff,
        List.length_append]
      omega

/-- How much the writes ask for. -/
theorem pieces_length {stack : Int}
    (cleared : clear keys (.start old behind) = .done clearing) :
    [clearing.before, block, clearing.rest stack].flatten.length + cutLength keys old =
      block.length + if 0 < cutLength keys old then old.length else stack.toNat := by
  have lengths := @whole_length keys block old behind clearing cleared
  by_cases found : clearing.found = true
  · have taken := lengths.2.mp found
    simp only [rest, found, taken, if_true, List.flatten_cons, List.flatten_nil,
      List.append_nil, List.length_append] at lengths ⊢
    omega
  · have kept := mt lengths.2.mpr found
    cases (clear_found cleared).resolve_right found
    simp only [rest, start, kept, Bool.false_eq_true, if_false, List.length_nil,
      Int.natCast_zero, sub_zero, List.flatten_cons, List.flatten_nil, List.nil_append,
      List.append_nil, List.length_append, readMemory_length]
    omega

/-- Where a short write shows, a file with the new text took all of them. -/
theorem complete_of_overlaid {gemdos : Gemdos} {stack : Int} (nonempty : block ≠ [])
    (cleared : clear keys (.start old behind) = .done clearing)
    (reveals : if 0 < cutLength keys old then cutLength keys old ≠ block.length
      else stack.toNat ≤ old.length)
    (whole : (writeCnf gemdos block old (clearing.toState stack)).contents =
      clearing.before ++ block ++ clearing.after) :
    gemdos.Complete 0 [clearing.before, block, clearing.rest stack] := by
  have length := (@whole_length keys block old behind clearing cleared).1
  have asked := @pieces_length keys block old behind clearing stack cleared
  have more := List.length_pos_iff.mpr nonempty
  have size := congrArg List.length whole
  rw [writeCnf_eq, Gemdos.writeAll_onto, List.length_append, List.length_drop] at size
  have within := @Gemdos.stored_length_le gemdos 0 [clearing.before, block, clearing.rest stack]
  apply Gemdos.complete_of_length
  split_ifs at reveals asked <;> omega

end Clearing

/-! ## Every saver -/

theorem CnfSaver.block_ne_nil (saver : CnfSaver) (r : Res) : saver.block r ≠ [] := by
  cases saver <;> simp [block, xaaesBlock, myaesBlock, ascii]

/-- A plan of the savers that write over their file, carried out on an open file. -/
theorem CnfSaver.plan_run {block old : Bytes} {clearing : Clearing}
    (opens : 0 < machine.gemdos.writeHandle) :
    ((Plan.write ⟨[clearing.before, block, clearing.rest machine.stack],
        clearing.before ++ block ++ clearing.after, true, 0⟩).run machine.gemdos
          (some old)).2 =
      some (writeCnf machine.gemdos block old (clearing.toState machine.stack)).contents := by
  simp [Plan.run, opens, Clearing.writeCnf_eq, Gemdos.writeAll_onto]

theorem tells_of_covers {old : Bytes} {plan : Plan}
    (planned : saver.plan machine r newdeskText (some old) = .done plan)
    (succeeds : plan.Succeeds machine.gemdos) (covers : saver.Covers machine r old) :
    plan.Tells machine.gemdos old := by
  cases saver with
  | cnf saver =>
      rcases cnfPlan_cases planned with ⟨rfl, _⟩ | ⟨clearing, opens, cleared, loaded, rfl⟩
      · simp [Plan.Tells, Plan.run]
      · rw [Plan.Succeeds, if_pos opens] at succeeds
        rw [tells_opened opens, CnfSaver.plan_run opens, Option.some.injEq]
        exact (Clearing.overlaid_complete (saver.block_ne_nil r) cleared succeeds).mpr
          (covers loaded opens)
  | magx => exact (tells_created (plan_proper (by simp) planned)).mpr succeeds
  | desk saver => exact (tells_created (plan_proper (by simp) planned)).mpr succeeds
  | fvdi => exact (tells_created (plan_proper (by simp) planned)).mpr succeeds

theorem covers_of_tells {old : Bytes} {plan : Plan}
    (planned : saver.plan machine r newdeskText (some old) = .done plan)
    (settled : plan.Succeeds machine.gemdos ∨ saver.Reveals machine r old)
    (tells : plan.Tells machine.gemdos old) :
    plan.Succeeds machine.gemdos ∧ saver.Covers machine r old := by
  cases saver with
  | cnf saver =>
      rcases cnfPlan_cases planned with ⟨rfl, closed⟩ | ⟨clearing, opens, cleared, _, rfl⟩
      · exact ⟨trivial, fun loaded opens => absurd ⟨loaded, opens⟩ closed⟩
      · rw [tells_opened opens, CnfSaver.plan_run opens, Option.some.injEq] at tells
        rw [Plan.Succeeds, if_pos opens] at settled ⊢
        have complete := settled.elim id fun reveals =>
          Clearing.complete_of_overlaid (saver.block_ne_nil r) cleared reveals tells
        have covers := (Clearing.overlaid_complete (saver.block_ne_nil r) cleared
          complete).mp tells
        exact ⟨complete, fun _ _ => covers⟩
  | magx => exact ⟨(tells_created (plan_proper (by simp) planned)).mp tells, trivial⟩
  | desk saver => exact ⟨(tells_created (plan_proper (by simp) planned)).mp tells, trivial⟩
  | fvdi => exact ⟨(tells_created (plan_proper (by simp) planned)).mp tells, trivial⟩

/-- The result of a save tells what is in the file exactly if its plan does. A search
that runs off the file may leave anything. -/
theorem honest_iff_tells {disk : Disk} :
    Honest saver machine r newdeskText disk ↔
      ∀ path old, saver.path machine = some path → disk path = some old →
        ∃ plan, saver.plan machine r newdeskText (some old) = .done plan ∧
          plan.Tells machine.gemdos old := by
  unfold Honest
  refine forall_congr' fun path => forall_congr' fun old => forall_congr' fun place =>
    forall_congr' fun existing => ?_
  have carried := saver.save_plan place r newdeskText disk
  rw [existing] at carried
  cases planned : saver.plan machine r newdeskText (some old) with
  | wild =>
      simp only [planned, Outcome.wild_bind] at carried
      have runsWild : saver.save machine r newdeskText disk = .wild := by
        cases saved : saver.save machine r newdeskText disk with
        | wild => rfl
        | done result => simp [saved] at carried
      constructor
      · intro honest
        rcases (honest 1 disk (by rw [runsWild]; trivial)).1 rfl with ⟨_, _, planned, _⟩
        cases planned
      · rintro ⟨_, planned, _⟩
        cases planned
  | done plan =>
      rw [planned, Outcome.done_bind] at carried
      cases saved : saver.save machine r newdeskText disk with
      | wild => simp [saved] at carried
      | done result =>
          rw [saved, Outcome.done_bind, Outcome.done.injEq] at carried
          simp only [Outcome.done_mayBe, Outcome.done.injEq, exists_eq_left', Plan.Tells,
            ← carried]
          constructor
          · intro honest
            exact honest result.1 result.2 rfl
          · rintro honest ret disk' rfl
            exact honest

/-- Where the save is dependable, its result tells what is in the file. Unless a short
write stores just what the old file has at that place, it does so nowhere else. -/
theorem honest_iff (saver : Saver) (machine : Machine) (r : Res) (newdeskText : Bytes)
    (disk : Disk) :
    (Dependable saver machine r newdeskText disk →
      Honest saver machine r newdeskText disk) ∧
    (Settled saver machine r newdeskText disk →
      (Honest saver machine r newdeskText disk ↔
        Dependable saver machine r newdeskText disk)) := by
  have enough : Dependable saver machine r newdeskText disk →
      Honest saver machine r newdeskText disk := by
    intro dependable
    rw [honest_iff_tells]
    intro path old place existing
    rcases dependable path old place existing with ⟨⟨plan, planned, succeeds⟩, covers⟩
    exact ⟨plan, planned, tells_of_covers planned succeeds covers⟩
  refine ⟨enough, fun settled => ⟨fun honest => ?_, enough⟩⟩
  rw [honest_iff_tells] at honest
  intro path old place existing
  rcases honest path old place existing with ⟨plan, planned, tells⟩
  have holds := covers_of_tells planned (settled path old plan place existing planned) tells
  exact ⟨⟨plan, planned, holds.1⟩, holds.2⟩

/-- A file with both keys on a machine where nothing fails. -/
theorem honest_iff_sample :
    let disk : Disk := fun _ => some (ascii "SCREENDEV = 1\r\nMODECODE = 0x0001\r\nrun\r\n")
    let r : Res := ⟨false, 5, 0x12, 0, 0, 0, 0, 0, 0, 0, 0⟩
    let machine := Machine.obliging 0 [] 0
    Dependable (.cnf .xaaes) machine r [] disk ∧ Honest (.cnf .xaaes) machine r [] disk := by
  intro disk r machine
  have dependable : Dependable (.cnf .xaaes) machine r [] disk := by
    intro path old _ existing
    cases Option.some.inj existing
    have done : (cnfPlan machine xaaesKeys (xaaesBlock r) (disk [])).isDone = true := by
      decide +kernel
    refine ⟨⟨_, Outcome.eq_done_getD done (.leave 0), ?_⟩, fun _ _ => by decide +kernel⟩
    rw [Plan.Succeeds.eq_def]
    split
    · trivial
    · exact Gemdos.complete_of_writes fun _ _ => rfl
  exact ⟨dependable, (honest_iff _ _ _ _ _).1 dependable⟩

/-- A desktop file that cannot be created is reported as saved. -/
theorem refused_create : ¬∀ (saver : Saver) (machine : Machine) (r : Res)
    (newdeskText : Bytes) (disk : Disk), Honest saver machine r newdeskText disk := by
  intro all
  let gemdos : Gemdos := { Gemdos.obliging with
    writeHandle := -36
    writeHandle_ne_zero := by decide }
  let machine : Machine := { Machine.obliging systemEmutos [] 0 with gemdos }
  let old := ascii "#E 18 13 00 06\r\n#Q 41 40\r\n"
  let r : Res := ⟨false, 2, 0, 0, 0, 0, 0, 0, 0, 0, 0⟩
  let disk : Disk := fun _ => some old
  have reported : (DeskSaver.save .emudesk machine r [] disk).1 = 1 := by decide +kernel
  have lies := (all (.desk .emudesk) machine r [] disk _ old rfl rfl _ _ rfl).1 reported
  exact absurd lies.1 (by decide)

end Chgres
