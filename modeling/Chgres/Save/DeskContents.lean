import Chgres.Modes.Lists
import Chgres.Modes.Nvdivga
import Chgres.Save.DeskField

/-! # What a desktop file holds after a save

The mode should go into the first `#E ` line, counted from its `#`. The saver counts
from the start of the line that it finds, and takes the terminator for a part of it.
-/

namespace Chgres

open Text Words

/-- A mode that is in the lists after some start-up. -/
def Created (r : Res) : Prop :=
  ∃ (input : NvdivgaInput) (video : Video) (fuel : Nat) (lists : ModeLists)
    (idx : Fin maxDepths),
    initresNvdivga input fuel (initresHardware input.sysVdi video noModes).lists = .done lists ∧
      r ∈ lists[idx]

/-- The blanks in front of a line. -/
def indent (line : Bytes) : Nat := (line.takeWhile isBlank).length

/-- The file is the old text but for the mode field of the first `#E ` line, and the field
reads the mode. -/
def DeskRight (contents : Bytes) (rez vmode sysAes : Int16) (field : DeskField) (file : Bytes) :
    Prop :=
  ∃ front line back new, lines contents = front ++ line :: back ∧ StartsWith deskKey line ∧
    (∀ earlier ∈ front, ¬StartsWith deskKey earlier) ∧ new.length = field.width ∧
    indent line + field.column + field.width ≤ (body line).length ∧
    file = poke contents (front.flatten.length + indent line + field.column) new ∧
    FieldReads rez vmode sysAes new

/-- Every save of the mode over the old text, which is the loaded file or the default,
leaves the file right if it reports success. -/
def DeskSound (contents : Bytes) (eoffset : Nat) (sysAes : Int16) (r : Res) : Prop :=
  ∀ (machine : Machine) (file defaultbuf : Option Bytes), machine.sysAes = sysAes →
    0 < machine.gemdos.writeHandle → (∀ k n, machine.gemdos.writeCount k n = n) →
    (machine.gemdos.loadFile file).or defaultbuf = some contents →
    let saved := saveDeskInfBase machine r.rez r.vmode eoffset defaultbuf file
    saved.ret = 1 → ∃ written, saved.file = some written ∧
      DeskRight contents r.rez r.vmode sysAes (deskField r.vmode sysAes eoffset) written

/-- The saver finds no line, or a line that is too short even with its terminator. -/
def DeskRefuses (contents : Bytes) (field : DeskField) : Prop :=
  ∀ front line back, Cut deskKey (lines contents) front line back →
    line.length < field.column + field.width

/-- The line that the saver finds is the first `#E ` line, is not indented, and has the
whole field in front of its terminator. -/
def DeskStraight (contents : Bytes) (field : DeskField) : Prop :=
  ∃ front line back, Cut deskKey (lines contents) front line back ∧
    (∀ earlier ∈ front, ¬StartsWith deskKey earlier) ∧ indent line = 0 ∧
    field.column + field.width ≤ (body line).length

/-! ## What the saver writes -/

/-- The text with the characters poked in, unless the saver refuses. -/
def deskWritten (contents : Bytes) (field : DeskField) (data : Bytes) : Option Bytes :=
  match cutLine deskKey (lines contents) with
  | none => none
  | some (front, line, _) =>
      if field.column + field.width ≤ line.length then
        some (poke contents (front.flatten.length + field.column) data)
      else none

variable {contents : Bytes} {eoffset : Nat} {sysAes rez vmode : Int16} {field : DeskField}
  {front back : List Bytes} {line : Bytes}

theorem deskWritten_cut (cut : Cut deskKey (lines contents) front line back) (data : Bytes) :
    deskWritten contents field data =
      if field.column + field.width ≤ line.length then
        some (poke contents (front.flatten.length + field.column) data)
      else none := by
  simp only [deskWritten, cutLine_eq_some.mpr cut]

theorem deskText_eq (behindKey : 3 ≤ eoffset) (behind : Bytes) :
    deskText rez vmode sysAes eoffset contents behind =
      deskWritten contents (deskField vmode sysAes eoffset) (deskData rez vmode sysAes) := by
  cases search : cutLine deskKey (lines contents) with
  | none =>
      rw [deskText_hidden (cutLine_eq_none.mp search)]
      simp only [deskWritten, search]
  | some parts =>
      rcases parts with ⟨front, line, back⟩
      have cut := cutLine_eq_some.mp search
      have whole : contents = front.flatten ++ line ++ back.flatten := by
        rw [eq_flatten cut.split]
        simp
      have width : (deskData rez vmode sysAes).length = (deskField vmode sysAes eoffset).width :=
        deskData_length
      rw [deskText_cut cut, deskWritten_cut cut, deskPatch_eq behindKey]
      simp only
      split_ifs with room
      · rw [Option.map_some, Option.some.injEq]
        conv_rhs => rw [whole]
        exact (poke_middle (by rw [width]; exact room)).symm
      · rfl

/-- The result and the file of a save with all writes done. -/
theorem saveDeskInfBase_eq {machine : Machine} {file defaultbuf : Option Bytes}
    (behindKey : 3 ≤ eoffset) (opens : 0 < machine.gemdos.writeHandle)
    (writes : ∀ k n, machine.gemdos.writeCount k n = n)
    (old : (machine.gemdos.loadFile file).or defaultbuf = some contents) :
    let saved := saveDeskInfBase machine rez vmode eoffset defaultbuf file
    match deskWritten contents (deskField vmode machine.sysAes eoffset)
        (deskData rez vmode machine.sysAes) with
    | none => saved.ret = 0
    | some text => saved.ret = 1 ∧ saved.file = some text := by
  have wrote : ∀ text, writeDesk machine.gemdos text file = (1, some text) := by
    intro text
    have handle : machine.gemdos.writeHandle ≠ 0 := by omega
    simp only [writeDesk, if_pos opens, if_pos handle,
      Gemdos.fwrite_of_complete (writes 0 text.length), OpenFile.store_create]
  intro saved
  have result : saved = saveDeskInfBase machine rez vmode eoffset defaultbuf file := rfl
  cases loaded : machine.gemdos.loadFile file with
  | some lbuf =>
      rw [loaded, Option.some_or, Option.some.injEq] at old
      subst old
      simp only [saveDeskInfBase, loaded, deskText_eq behindKey] at result
      cases written : deskWritten lbuf (deskField vmode machine.sysAes eoffset)
          (deskData rez vmode machine.sysAes) with
      | none => simp [result, written]
      | some text => simp [result, written, wrote]
  | none =>
      rw [loaded, Option.none_or] at old
      subst old
      simp only [saveDeskInfBase, loaded, deskText_eq behindKey] at result
      by_cases empty : contents = []
      · have refused : deskWritten contents (deskField vmode machine.sysAes eoffset)
            (deskData rez vmode machine.sysAes) = none := by
          rw [empty]
          rfl
        rw [refused]
        simp [result, empty]
      · rw [if_neg empty] at result
        cases written : deskWritten contents (deskField vmode machine.sysAes eoffset)
            (deskData rez vmode machine.sysAes) with
        | none => simp [result, written]
        | some text => simp [result, written, wrote]

/-- A save is sound if and only if the text that the saver writes, if any, is right. -/
theorem deskSound_iff (behindKey : 3 ≤ eoffset) (r : Res) :
    DeskSound contents eoffset sysAes r ↔
      ∀ text, deskWritten contents (deskField r.vmode sysAes eoffset)
          (deskData r.rez r.vmode sysAes) = some text →
        DeskRight contents r.rez r.vmode sysAes (deskField r.vmode sysAes eoffset) text := by
  constructor
  · intro sound text written
    let machine := Machine.obliging sysAes [] 0
    have succeeds : machine.gemdos.Succeeds := Gemdos.obliging_succeeds
    have old : (machine.gemdos.loadFile (some contents)).or none = some contents := by
      rw [Gemdos.loadFile_of_loads succeeds.loads, Option.some_or]
    have saved := @saveDeskInfBase_eq contents eoffset r.rez r.vmode machine (some contents) none
      behindKey succeeds.opens succeeds.writes old
    change match deskWritten contents (deskField r.vmode sysAes eoffset)
      (deskData r.rez r.vmode sysAes) with | none => _ | some text => _ at saved
    rw [written] at saved
    rcases sound machine (some contents) none rfl succeeds.opens succeeds.writes old saved.1 with
      ⟨file, isFile, right⟩
    have same : text = file := Option.some.inj (saved.2.symm.trans isFile)
    exact same ▸ right
  · intro right machine file defaultbuf sameAes opens writes old saved success
    have outcome := @saveDeskInfBase_eq contents eoffset r.rez r.vmode machine file defaultbuf
      behindKey opens writes old
    rw [sameAes] at outcome
    cases written : deskWritten contents (deskField r.vmode sysAes eoffset)
        (deskData r.rez r.vmode sysAes) with
    | none =>
        rw [written] at outcome
        exact absurd (success.symm.trans outcome) (by decide)
    | some text =>
        rw [written] at outcome
        exact ⟨text, outcome.2, right text written⟩

/-! ## Where the field is -/

theorem deskField_width_pos (vmode sysAes : Int16) (eoffset : Nat) :
    0 < (deskField vmode sysAes eoffset).width := by
  rw [deskField]
  split_ifs
  · exact Nat.one_pos
  · exact Nat.succ_pos 4

theorem refused_iff (data : Bytes) :
    DeskRefuses contents field ↔ deskWritten contents field data = none := by
  constructor
  · intro refuses
    cases search : cutLine deskKey (lines contents) with
    | none => simp only [deskWritten, search]
    | some parts =>
        rcases parts with ⟨front, line, back⟩
        have cut := cutLine_eq_some.mp search
        have short_ := refuses front line back cut
        rw [deskWritten_cut cut, if_neg (by omega)]
  · intro none front line back cut
    by_contra long
    rw [deskWritten_cut cut, if_pos (by omega)] at none
    exact absurd none (by simp)

/-- The text up to the end of a line. -/
theorem front_line_le {front back : List Bytes} {line : Bytes}
    (split : lines contents = front ++ line :: back) :
    front.flatten.length + line.length ≤ contents.length := by
  have whole := congrArg List.length (eq_flatten split)
  simp only [List.flatten_append, List.flatten_cons, List.length_append] at whole
  omega

theorem body_length_le (line : Bytes) : (body line).length ≤ line.length :=
  (List.takeWhile_prefix _).length_le

/-- In a straight file the field is right if and only if the characters read the mode. -/
theorem deskRight_iff (straight : DeskStraight contents field)
    (cut : Cut deskKey (lines contents) front line back) {data : Bytes}
    (size : data.length = field.width) :
    DeskRight contents rez vmode sysAes field
        (poke contents (front.flatten.length + field.column) data) ↔
      FieldReads rez vmode sysAes data := by
  rcases straight with ⟨front', line', back', cut', first, flush, room⟩
  have same := (cutLine_eq_some.mpr cut).symm.trans (cutLine_eq_some.mpr cut')
  simp only [Option.some.injEq, Prod.mk.injEq] at same
  rcases same with ⟨rfl, rfl, rfl⟩
  have within := front_line_le cut.split
  have inLine := body_length_le line
  constructor
  · intro right
    rcases right with ⟨front'', line'', back'', new, split, starts, first'', width, _, poked, reads⟩
    have place := splitFirst_unique cut.split cut.shows.startsWith first split starts first''
    rcases place with ⟨rfl, rfl, rfl⟩
    rw [flush, Nat.add_zero] at poked
    have equal := poke_injective (by omega) (width.trans size.symm) poked
    exact equal ▸ reads
  · intro reads
    exact ⟨front, line, back, data, cut.split, cut.shows.startsWith, first, size, by omega,
      by rw [flush, Nat.add_zero], reads⟩

/-- If the saver is right with two modes whose characters differ at both ends, the file is
straight. -/
theorem deskStraight_of_right (cut : Cut deskKey (lines contents) front line back)
    (room : field.column + field.width ≤ line.length) (positive : 0 < field.width)
    {rez' vmode' : Int16} {data data' : Bytes} (size : data.length = field.width)
    (size' : data'.length = field.width) (first : data[0]? ≠ data'[0]?)
    (last : data[field.width - 1]? ≠ data'[field.width - 1]?)
    (right : DeskRight contents rez vmode sysAes field
      (poke contents (front.flatten.length + field.column) data))
    (right' : DeskRight contents rez' vmode' sysAes field
      (poke contents (front.flatten.length + field.column) data')) :
    DeskStraight contents field := by
  rcases right with ⟨front₁, line₁, back₁, new, split₁, starts₁, first₁, width₁, room₁, poked₁, _⟩
  rcases right' with ⟨front₂, line₂, back₂, new', split₂, starts₂, first₂, width₂, _, poked₂, _⟩
  have unique := splitFirst_unique split₁ starts₁ first₁ split₂ starts₂ first₂
  rcases unique with ⟨rfl, rfl, rfl⟩
  have within := front_line_le cut.split
  have within₁ := front_line_le split₁
  have inLine₁ := body_length_le line₁
  have place := poke_place_unique ⟨size, size', width₁, width₂⟩ (by omega) (by omega) positive first
    last poked₁ poked₂
  rcases List.append_eq_append_iff.mp (cut.split.symm.trans split₁) with
    ⟨gap, isFront, rest⟩ | ⟨gap, isFront, rest⟩
  · cases gap with
    | nil =>
        rw [List.append_nil] at isFront
        rw [List.nil_append, List.cons.injEq] at rest
        rcases rest with ⟨rfl, _⟩
        subst isFront
        exact ⟨_, _, _, cut, first₁, by omega, by omega⟩
    | cons earlier gap =>
        -- the line that was found would stand before the first line of its kind
        rw [List.cons_append, List.cons.injEq] at rest
        exact absurd cut.shows.startsWith (first₁ line (by simp [isFront, rest.1]))
  · cases gap with
    | nil =>
        rw [List.append_nil] at isFront
        rw [List.nil_append, List.cons.injEq] at rest
        rcases rest with ⟨rfl, _⟩
        subst isFront
        exact ⟨_, _, _, cut, first₁, by omega, by omega⟩
    | cons earlier gap =>
        -- the found line would begin behind the whole first line, its field in it
        rw [List.cons_append, List.cons.injEq] at rest
        have length := congrArg (fun front => front.flatten.length) isFront
        simp only [List.flatten_append, List.flatten_cons, List.length_append, ← rest.1] at length
        omega

/-! ## Modes that tell the places apart -/

/-- A start without NVDI leaves the modes of the hardware. -/
theorem created_of_hardware {r : Res} (video : Video) (idx : Fin maxDepths)
    (member : r ∈ (initresHardware 0 video noModes).lists[idx]) : Created r :=
  ⟨⟨.obliging 0 [] 0, fun _ => none, noDrivers, [], 0, 0⟩, video, 0, _, idx,
    if_pos (by decide), member⟩

/-- Some start creates a mode of this kind. -/
theorem exists_created (video : Video) (idx : Fin maxDepths) {kind : Res → Bool}
    (some_ : (initresHardware 0 video noModes).lists[idx].any kind = true) :
    ∃ r, Created r ∧ kind r = true := by
  rcases List.any_eq_true.mp some_ with ⟨r, member, isKind⟩
  exact ⟨r, created_of_hardware video idx member, isKind⟩

/-- A mode with these codes. -/
def codes (rez vmode : Int16) (r : Res) : Bool := r.rez = rez ∧ r.vmode = vmode

theorem stLow_created : ∃ r, Created r ∧ codes rezStLow 0 r = true :=
  exists_created ⟨0, 0, 0, 0, 0⟩ 2 (by decide +kernel)

theorem stMed_created : ∃ r, Created r ∧ codes rezStMed 0 r = true :=
  exists_created ⟨0, 0, 0, 0, 0⟩ 1 (by decide +kernel)

theorem falcon_created : ∃ r, Created r ∧ codes rezFalcon 0x0008 r = true :=
  exists_created ⟨3, 0, 0, 3, 0⟩ 0 (by decide +kernel)

theorem saga_created : ∃ r, Created r ∧ codes rezFalcon 0x4101 r = true :=
  exists_created ⟨6, 0, 0, 3, 0⟩ 3 (by decide +kernel)

/-- Each field has two modes that fit it and differ at both of its ends. -/
theorem exists_two_modes (member : field ∈ deskFields sysAes eoffset) :
    ∃ r r', Created r ∧ Created r' ∧ deskField r.vmode sysAes eoffset = field ∧
      deskField r'.vmode sysAes eoffset = field ∧ Printable r.rez r.vmode sysAes ∧
      Printable r'.rez r'.vmode sysAes ∧
      (deskData r.rez r.vmode sysAes)[0]? ≠ (deskData r'.rez r'.vmode sysAes)[0]? ∧
      (deskData r.rez r.vmode sysAes)[field.width - 1]? ≠
        (deskData r'.rez r'.vmode sysAes)[field.width - 1]? := by
  have digit : field = ⟨7, 1⟩ ∧ sysAes ≠ systemEmutos ∨ field = ⟨eoffset, 5⟩ := by
    rw [deskFields] at member
    split_ifs at member with emutos
    · exact .inr (List.mem_singleton.mp member)
    · rcases List.mem_cons.mp member with same | member
      · exact .inl ⟨same, emutos⟩
      · exact .inr (List.mem_singleton.mp member)
  rcases digit with ⟨rfl, noEmutos⟩ | rfl
  · rcases stLow_created with ⟨r, created, isLow⟩
    rcases stMed_created with ⟨r', created', isMed⟩
    simp only [codes, Bool.decide_and, Bool.and_eq_true, decide_eq_true_eq] at isLow isMed
    refine ⟨r, r', created, created', ?_⟩
    rw [isLow.1, isLow.2, isMed.1, isMed.2]
    simp only [deskField, deskData, Printable, noEmutos, ne_eq, not_false_eq_true, and_self,
      if_true, if_false]
    decide +kernel
  · rcases falcon_created with ⟨r, created, isFalcon⟩
    rcases saga_created with ⟨r', created', isSaga⟩
    simp only [codes, Bool.decide_and, Bool.and_eq_true, decide_eq_true_eq] at isFalcon isSaga
    refine ⟨r, r', created, created', ?_⟩
    have nonzero : ¬(0x0008 : Int16) = 0 ∧ ¬(0x4101 : Int16) = 0 := by decide
    rw [isFalcon.1, isFalcon.2, isSaga.1, isSaga.2]
    simp only [deskField, deskData, Printable, nonzero.1, nonzero.2, false_and, if_false,
      false_implies, and_true, true_and]
    decide +kernel

/-! ## When a save is sound -/

theorem desk_behind_key (inUse : eoffset = 9 ∨ eoffset = 15) : 3 ≤ eoffset := by omega

section Serving

variable {r : Res}

theorem deskData_width (isField : deskField r.vmode sysAes eoffset = field) :
    (deskData r.rez r.vmode sysAes).length = field.width := by
  rw [← isField]
  exact deskData_length

/-- What is refused is not reported as saved. -/
theorem sound_of_refuses (behindKey : 3 ≤ eoffset)
    (isField : deskField r.vmode sysAes eoffset = field) (refuses : DeskRefuses contents field) :
    DeskSound contents eoffset sysAes r := by
  have nothing := (refused_iff (deskData r.rez r.vmode sysAes)).mp refuses
  rw [deskSound_iff behindKey, isField, nothing]
  intro text written
  cases written

theorem sound_iff_of_straight (behindKey : 3 ≤ eoffset)
    (isField : deskField r.vmode sysAes eoffset = field) (straight : DeskStraight contents field) :
    DeskSound contents eoffset sysAes r ↔ Printable r.rez r.vmode sysAes := by
  rcases straight with ⟨front, line, back, cut, flush⟩
  have room : field.column + field.width ≤ line.length :=
    flush.2.2.trans (body_length_le line)
  rw [deskSound_iff behindKey, isField, deskWritten_cut cut, if_pos room]
  simp only [Option.some.injEq, forall_eq']
  rw [deskRight_iff ⟨front, line, back, cut, flush⟩ cut (deskData_width isField),
    deskData_reads]

/-- Two modes that differ at both ends of the field tell whether it is in its place. -/
theorem straight_of_serves (behindKey : 3 ≤ eoffset) (member : field ∈ deskFields sysAes eoffset)
    (serves : ∀ r, Created r → deskField r.vmode sysAes eoffset = field →
      Printable r.rez r.vmode sysAes → DeskSound contents eoffset sysAes r)
    (accepts : ¬DeskRefuses contents field) : DeskStraight contents field := by
  rcases exists_two_modes member with
    ⟨r, r', created, created', isField, isField', prints, prints', first, last⟩
  have sound := serves r created isField prints
  have sound' := serves r' created' isField' prints'
  rw [deskSound_iff behindKey, isField] at sound
  rw [deskSound_iff behindKey, isField'] at sound'
  have written : ∃ front line back, Cut deskKey (lines contents) front line back ∧
      field.column + field.width ≤ line.length := by
    by_contra none
    apply accepts
    intro front line back cut
    by_contra long
    exact none ⟨front, line, back, cut, by omega⟩
  rcases written with ⟨front, line, back, cut, room⟩
  have texts := fun data : Bytes => @deskWritten_cut contents field front back line cut data
  simp only [texts, if_pos room, Option.some.injEq] at sound sound'
  have positive := isField ▸ deskField_width_pos r.vmode sysAes eoffset
  exact deskStraight_of_right cut room positive (deskData_width isField)
    (deskData_width isField') first last (sound _ rfl) (sound' _ rfl)

end Serving

/-- A file that is refused is right for every mode. One with the field where it belongs is
right for the modes whose numbers fit it, and for no others. And any other file is wrong for
one of the modes whose numbers fit. -/
theorem desk_sound_iff (contents : Bytes) {eoffset : Nat} (inUse : eoffset = 9 ∨ eoffset = 15)
    {sysAes : Int16} {field : DeskField} (member : field ∈ deskFields sysAes eoffset) :
    (DeskRefuses contents field → ∀ r, deskField r.vmode sysAes eoffset = field →
      DeskSound contents eoffset sysAes r) ∧
    (DeskStraight contents field → ∀ r, deskField r.vmode sysAes eoffset = field →
      (DeskSound contents eoffset sysAes r ↔ Printable r.rez r.vmode sysAes)) ∧
    (¬DeskRefuses contents field →
      ((∀ r, Created r → deskField r.vmode sysAes eoffset = field →
          Printable r.rez r.vmode sysAes → DeskSound contents eoffset sysAes r) ↔
        DeskStraight contents field)) := by
  have behindKey := desk_behind_key inUse
  refine ⟨fun refuses r isField => sound_of_refuses behindKey isField refuses,
    fun straight r isField => sound_iff_of_straight behindKey isField straight,
    fun accepts => ⟨?_, ?_⟩⟩
  · intro serves
    exact straight_of_serves behindKey member serves accepts
  · intro straight r _ isField prints
    exact (sound_iff_of_straight behindKey isField straight).mpr prints

/-- `default_newdesk` is right for ST low, a mode of the shifter. -/
theorem desk_sound_iff_sample :
    ∃ r, Created r ∧ deskField r.vmode 1 15 = ⟨7, 1⟩ ∧ DeskSound defaultNewdesk 15 1 r := by
  have cut : Cut deskKey (lines defaultNewdesk) ((lines defaultNewdesk).take 5)
      (ascii "#E 18 13 00 06 00 00 00 00 00 00 \r\n") ((lines defaultNewdesk).drop 6) :=
    ⟨by decide +kernel, by decide +kernel, by decide +kernel, by decide +kernel⟩
  have member : (⟨7, 1⟩ : DeskField) ∈ deskFields 1 15 := by decide
  have served := (desk_sound_iff defaultNewdesk (.inr rfl) member).2.1
    ⟨_, _, _, cut, by decide +kernel⟩
  rcases stLow_created with ⟨r, created, isLow⟩
  simp only [codes, Bool.decide_and, Bool.and_eq_true, decide_eq_true_eq] at isLow
  have isField : deskField r.vmode 1 15 = ⟨7, 1⟩ := by
    rw [isLow.2]
    rfl
  refine ⟨r, created, isField, (served r isField).mpr ?_⟩
  rw [isLow.1, isLow.2, Printable]
  decide +kernel

/-- A line with seven bytes in front of its CR. -/
def shortDesk : Bytes := ascii "#E 18 1\r\n#Q 41\r\n"

/-- The digit goes over the CR of the line. -/
theorem desk_overwrites_cr :
    ∃ r, Created r ∧ deskWritten shortDesk (deskField r.vmode 1 15) (deskData r.rez r.vmode 1) =
        some (ascii "#E 18 10\n#Q 41\r\n") ∧ ¬DeskSound shortDesk 15 1 r := by
  rcases stLow_created with ⟨r, created, isLow⟩
  simp only [codes, Bool.decide_and, Bool.and_eq_true, decide_eq_true_eq] at isLow
  have written : deskWritten shortDesk (deskField r.vmode 1 15) (deskData r.rez r.vmode 1) =
      some (ascii "#E 18 10\n#Q 41\r\n") := by
    rw [isLow.1, isLow.2]
    decide +kernel
  refine ⟨r, created, written, ?_⟩
  rw [deskSound_iff (by decide)]
  intro right
  rcases right _ written with ⟨front, line, back, _, split, starts, first, _, room, _, _⟩
  have cut : lines shortDesk = [] ++ ascii "#E 18 1\r\n" :: [ascii "#Q 41\r\n"] := by
    decide +kernel
  have unique := splitFirst_unique split starts first cut (by decide +kernel)
    (fun value member => absurd member (List.not_mem_nil))
  rcases unique with ⟨rfl, rfl, rfl⟩
  rw [isLow.2] at room
  revert room
  decide +kernel

end Chgres
