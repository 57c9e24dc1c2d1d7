import Chgres.Save.CnfPieces
import Chgres.Save.FreshLine

/-! # What `xaaes.cnf` and `myaes.cnf` hold after a save

The saver should keep the lines without a key and put one block of new lines
between them. It does so when no removal loses a line and the new lines are at
least as long as the old ones: the file is not cut off behind them.
-/

namespace Chgres

open Text

/-- The file holds the kept lines in their order and one block of new lines. -/
structure Renewed (keys : List Bytes) (block contents file : Bytes) : Prop where
  assembled : ∃ front back, front ++ back = kept keys (lines contents) ∧
    Closed front.flatten ∧ file = front.flatten ++ block ++ back.flatten
  single : ∀ key ∈ keys, ((lines file).filter fun line => StartsWith key line).length = 1

/-- Some line has a key, and whatever lies behind the file in memory, every
removal takes out the line of its key and nothing else. -/
def Searchable (keys : List Bytes) (contents : Bytes) : Prop :=
  (∃ line ∈ lines contents, ¬Unkeyed keys line) ∧ ∀ behind, Clears keys (lines contents) behind

/-- The length of the lines that the block replaces. -/
def keyedLength (keys : List Bytes) (contents : Bytes) : Nat :=
  ((lines contents).filter fun line => ¬Unkeyed keys line).flatten.length

theorem keyed_add_kept (keys : List Bytes) (contents : Bytes) :
    keyedLength keys contents + keptLength keys (lines contents) = contents.length := by
  have whole := congrArg List.length (lines_flatten contents)
  rw [← whole, keyedLength, keptLength, kept]
  induction lines contents with
  | nil => rfl
  | cons line rest induction =>
      by_cases unkeyed : Unkeyed keys line
      · simp only [List.filter_cons, unkeyed, decide_true, not_true, decide_false,
          List.flatten_cons, List.length_append, if_true, Bool.false_eq_true,
          if_false]
        omega
      · simp only [List.filter_cons, unkeyed, decide_true, not_false_eq_true,
          decide_false, List.flatten_cons, List.length_append, if_true,
          Bool.false_eq_true, if_false]
        omega

/-! ## The block -/

def freshLines (entries : List (Bytes × Bytes)) : List Bytes :=
  entries.map fun entry => freshLine entry.1 entry.2

theorem ProperKeys.eq_of_comparable {keys : List Bytes} (proper : ProperKeys keys)
    {key other : Bytes} (member : key ∈ keys) (memberOther : other ∈ keys)
    (comparable : key <+: other ∨ other <+: key) : key = other := by
  by_contra different
  have symmetric : Std.Symm fun key other : Bytes => ¬key <+: other ∧ ¬other <+: key :=
    ⟨fun _ _ apart => ⟨apart.2, apart.1⟩⟩
  have apart := proper.apart.forall member memberOther different
  rcases comparable with before | before
  · exact apart.1 before
  · exact apart.2 before

theorem ProperKeys.nodup {keys : List Bytes} (proper : ProperKeys keys) : keys.Nodup :=
  proper.apart.imp fun {key other} apart (equal : key = other) =>
    apart.1 (equal ▸ List.prefix_rfl)

/-- New lines in front of other lines. -/
theorem lines_freshLines {entries : List (Bytes × Bytes)}
    (proper : ProperKeys (entries.map Prod.fst))
    (plain : ∀ entry ∈ entries, Plain entry.2) (rest : Bytes) :
    lines ((freshLines entries).flatten ++ rest) = freshLines entries ++ lines rest := by
  induction entries with
  | nil => rfl
  | cons entry entries induction =>
      have tail := induction proper.tail
        (fun other member => plain other (List.mem_cons_of_mem entry member))
      have isKey : IsKey entry.1 := proper.isKey _ (by simp)
      simp only [freshLines, List.map_cons, List.flatten_cons, List.append_assoc] at tail ⊢
      rw [lines_freshLine isKey (plain entry (by simp)), tail]
      rfl

/-- Each key has one new line. -/
theorem freshLines_single {entries : List (Bytes × Bytes)}
    (proper : ProperKeys (entries.map Prod.fst)) {key : Bytes}
    (member : key ∈ entries.map Prod.fst) :
    ((freshLines entries).filter fun line => StartsWith key line).length = 1 := by
  rw [← List.count_eq_one_of_mem proper.nodup member, freshLines,
    ← List.countP_eq_length_filter, List.countP_map, List.count, List.countP_map]
  apply List.countP_congr
  intro entry entryMember
  have isKey := proper.isKey _ (List.mem_map_of_mem (f := Prod.fst) entryMember)
  have own := @freshLine_startsWith entry.1 entry.2 isKey
  simp only [Function.comp_apply, decide_eq_true_eq, beq_iff_eq]
  constructor
  · intro starts
    exact proper.eq_of_comparable (List.mem_map_of_mem entryMember) member
      (own.comparable starts)
  · intro equal
    rw [← equal]
    exact own

namespace CnfSaver

/-- The keys and values of the block. -/
def entries (r : Res) : CnfSaver → List (Bytes × Bytes)
  | xaaes => [(ascii "SCREENDEV", ascii " = " ++ formatD r.rez.toInt),
      (ascii "MODECODE", ascii " = 0x" ++ formatX 4 r.vmode.toInt)]
  | myaes => [(ascii "vsetmode", ascii " = " ++ formatD r.vmode.toInt),
      (ascii "rezmode", ascii " = " ++ formatD (r.rez.toInt - 2)),
      (ascii "esetshift", ascii " = " ++ formatD 0)]

theorem block_eq (saver : CnfSaver) (r : Res) :
    saver.block r = (freshLines (saver.entries r)).flatten := by
  cases saver <;> simp [block, xaaesBlock, myaesBlock, entries, freshLines, freshLine, ascii]

theorem entries_keys (saver : CnfSaver) (r : Res) :
    (saver.entries r).map Prod.fst = saver.keys := by
  cases saver <;> rfl

theorem keys_length_le (saver : CnfSaver) : saver.keys.length ≤ 3 := by
  cases saver <;> decide

theorem entries_plain (saver : CnfSaver) (r : Res) :
    ∀ entry ∈ saver.entries r, Plain entry.2 := by
  cases saver with
  | xaaes =>
      simp only [entries, List.mem_cons, List.not_mem_nil, or_false, forall_eq_or_imp,
        forall_eq]
      exact ⟨Plain.append (by simp [Plain, ascii, cr, lf]) (formatD_plain _),
        Plain.append (by simp [Plain, ascii, cr, lf]) (formatX_plain 4 _)⟩
  | myaes =>
      simp only [entries, List.mem_cons, List.not_mem_nil, or_false, forall_eq_or_imp,
        forall_eq]
      have equals : Plain (ascii " = ") := by simp [Plain, ascii, cr, lf]
      exact ⟨equals.append (formatD_plain _), equals.append (formatD_plain _),
        equals.append (formatD_plain _)⟩

/-- Kept lines with the block between them are a renewed file. -/
theorem renewed (saver : CnfSaver) (r : Res) {contents : Bytes} {front back : List Bytes}
    (together : front ++ back = kept saver.keys (lines contents))
    (closed : Closed front.flatten) :
    Renewed saver.keys (saver.block r) contents
      (front.flatten ++ saver.block r ++ back.flatten) := by
  refine ⟨⟨front, back, together, closed, rfl⟩, ?_⟩
  intro key member
  have proper : ProperKeys ((saver.entries r).map Prod.fst) := by
    rw [entries_keys]
    exact saver.proper
  have linedKept : Lined (kept saver.keys (lines contents)) :=
    (lines_lined contents).sublist List.filter_sublist
  have apart : ¬Glued front.flatten ((freshLines (saver.entries r)).flatten ++ back.flatten) := by
    cases saver with
    | xaaes | myaes =>
        simp only [entries, freshLines, List.map_cons, List.flatten_cons,
          List.append_assoc]
        exact not_glued_freshLine _ (proper.isKey _ (by simp [entries])) _
  have whole : lines (front.flatten ++ saver.block r ++ back.flatten) =
      lines front.flatten ++ (freshLines (saver.entries r) ++ lines back.flatten) := by
    rw [block_eq, List.append_assoc, lines_append closed apart,
      lines_freshLines proper (saver.entries_plain r)]
  -- the lines of a part of the kept lines have no key
  have none : ∀ part : List Bytes, part.Sublist (front ++ back) →
      (lines part.flatten).filter (fun line => StartsWith key line) = [] := by
    intro part sublist
    rw [together] at sublist
    apply List.filter_eq_nil_iff.mpr
    intro line lineMember starts
    rcases (linedKept.sublist sublist).body_lines line lineMember with
      ⟨piece, pieceMember, equal⟩
    have unkeyed := (List.mem_filter.mp (sublist.subset pieceMember)).2
    exact of_decide_eq_true unkeyed key member
      ((startsWith_congr equal).mp (of_decide_eq_true starts))
  rw [whole, List.filter_append, List.filter_append, none front (List.sublist_append_left _ _),
    none back (List.sublist_append_right _ _)]
  simpa using @freshLines_single _ proper key (by rwa [entries_keys])

end CnfSaver

theorem Renewed.length {keys : List Bytes} {block contents file : Bytes}
    (renewed : Renewed keys block contents file) :
    file.length = keptLength keys (lines contents) + block.length := by
  rcases renewed.assembled with ⟨front, back, together, _, rfl⟩
  rw [keptLength, ← together]
  simp only [List.flatten_append, List.length_append]
  omega

/-! ## When the file is right -/

namespace Clearing

theorem clearKey_found {key : Bytes} {clearing next : Clearing}
    (result : clearing.clearKey key = .done next) :
    next = clearing ∨ next.found = true := by
  cases search : cutLine key (lines clearing.text) with
  | none =>
      rw [clearKey_hidden (cutLine_eq_none.mp search), stay] at result
      split_ifs at result
      exact .inl (Outcome.done.inj result).symm
  | some parts =>
      rw [clearKey_cut (cutLine_eq_some.mp search), Outcome.done.injEq] at result
      exact .inr (by rw [← result])

/-- Either nothing was taken out or something was found. -/
theorem clear_found {keys : List Bytes} {clearing next : Clearing}
    (result : clear keys clearing = .done next) :
    next = clearing ∨ next.found = true := by
  induction keys generalizing clearing with
  | nil => exact .inl (Outcome.done.inj result).symm
  | cons key keys induction =>
      rw [clear] at result
      cases step : clearing.clearKey key with
      | wild => simp [step] at result
      | done middle =>
          rw [step, Outcome.done_bind] at result
          rcases clearKey_found step with same | found
          · rw [same] at result
            exact induction result
          · rcases induction result with same | foundNext
            · exact .inr (by rw [same, found])
            · exact .inr foundNext

/-- Without a key nothing is taken out. -/
theorem clear_unkeyed {keys ls : List Bytes} (lined : Lined ls)
    (unkeyed : ∀ line ∈ ls, Unkeyed keys line) {clearing next : Clearing}
    (holds : clearing.text = ls.flatten) (result : clear keys clearing = .done next) :
    next = clearing := by
  induction keys with
  | nil => exact (Outcome.done.inj result).symm
  | cons key keys induction =>
      have absent : ∀ line ∈ ls, ¬StartsWith key line := fun line member =>
        (unkeyed_cons.mp (unkeyed line member)).1
      rw [clear, clearKey_absent lined holds (not_shows_of_not_startsWith absent)] at result
      exact induction (fun line member => (unkeyed_cons.mp (unkeyed line member)).2)
        (stay_bind_eq_done result).2

end Clearing

namespace CnfSaver

/-- Whenever the saver succeeds on this file, the file is renewed. -/
def Sound (saver : CnfSaver) (contents : Bytes) (r : Res) : Prop :=
  ∀ (machine : Machine) (path : Bytes) (disk disk' : Disk), machine.gemdos.Succeeds →
    saver.path machine = some path → disk path = some contents →
    (saver.save machine r disk).MayBe (1, disk') →
    ∃ file, disk' path = some file ∧ Renewed saver.keys (saver.block r) contents file

theorem save_succeeds (saver : CnfSaver) {machine : Machine} {path contents : Bytes}
    {disk : Disk} (succeeds : machine.gemdos.Succeeds)
    (place : saver.path machine = some path) (old : disk path = some contents) (r : Res) :
    saver.save machine r disk =
      (Clearing.clear saver.keys (.start contents machine.behind)).bind fun next =>
        .done (1, disk.set path (some (writeCnf machine.gemdos (saver.block r) contents
          (next.toState machine.stack)).contents)) := by
  rw [saver.save_eq place, onFile, old, Clearing.saveCnf_opened _ saver.proper.isKey
    (Gemdos.loadFile_of_loads succeeds.loads contents) succeeds.opens]
  cases Clearing.clear saver.keys (.start contents machine.behind) <;> rfl

variable (saver : CnfSaver) {contents : Bytes} {r : Res}

theorem sound_of_searchable (once : Once saver.keys (lines contents))
    (searchable : Searchable saver.keys contents)
    (covers : keyedLength saver.keys contents ≤ (saver.block r).length) :
    saver.Sound contents r := by
  intro machine path disk disk' succeeds place old result
  rcases clear_of_clears saver.proper (lines_lined contents) once
    (holds_start contents machine.behind) (searchable.2 machine.behind) with
    ⟨next, cleared, held, found⟩
  have isFound := found (.inr searchable.1)
  rcases held with ⟨front, back, together, closed, before, after⟩
  rw [saver.save_succeeds succeeds place old, cleared, Outcome.done_bind,
    Outcome.done_mayBe, Prod.mk.injEq] at result
  refine ⟨_, by rw [← result.2, Disk.set_same], ?_⟩
  have whole := keyed_add_kept saver.keys contents
  have gone : contents.drop (front.flatten ++ saver.block r ++ back.flatten).length = [] := by
    apply List.drop_of_length_le
    rw [keptLength, ← together] at whole
    simp only [List.flatten_append, List.length_append] at whole ⊢
    omega
  rw [Clearing.writeCnf_found succeeds.writes _ _ _ isFound, before, after, gone,
    List.append_nil]
  exact saver.renewed r together closed

/-- On a machine with a large number on its stack, what a right file says about
the clearing. -/
theorem clear_of_sound (sound : saver.Sound contents r) (behind : Bytes) :
    ∃ next, Clearing.clear saver.keys (.start contents behind) = .done next ∧
      next.found = true ∧
      max contents.length (next.text.length + (saver.block r).length) =
        keptLength saver.keys (lines contents) + (saver.block r).length := by
  have succeeds := Gemdos.obliging_succeeds
  let machine := Machine.obliging 0 behind (contents.length + 1 : Nat)
  have place : ∃ path, saver.path machine = some path := by
    cases saver with
    | xaaes => exact ⟨_, rfl⟩
    | myaes => exact ⟨_, rfl⟩
  rcases place with ⟨path, place⟩
  let disk : Disk := fun _ => some contents
  have old : disk path = some contents := rfl
  have saved := saver.save_succeeds succeeds place old r
  have short := (keyed_add_kept saver.keys contents)
  cases cleared : Clearing.clear saver.keys (.start contents behind) with
  | wild =>
      -- a wild call may leave any file, also an empty one
      have wild : saver.save machine r disk = .wild := by
        rw [saved]
        exact congrArg (Outcome.bind · _) cleared
      rcases sound machine path disk (disk.set path none) succeeds place rfl
        (by rw [wild]; trivial) with ⟨file, here, _⟩
      simp at here
  | done next =>
      have result : saver.save machine r disk = .done (1, disk.set path
          (some (writeCnf .obliging (saver.block r) contents
            (next.toState (contents.length + 1 : Nat))).contents)) := by
        rw [saved]
        exact congrArg (Outcome.bind · _) cleared
      rcases sound machine path disk _ succeeds place rfl
        (by rw [result]; exact rfl) with ⟨file, here, renewed⟩
      rw [Disk.set_same, Option.some.injEq] at here
      have size := renewed.length
      have found : next.found = true := by
        rcases Clearing.clear_found cleared with same | found
        · have long := Clearing.writeCnf_start succeeds.writes (saver.block r) contents
            behind (contents.length + 1)
          rw [← same, here] at long
          omega
        · exact found
      refine ⟨next, rfl, found, ?_⟩
      rw [← size, ← here, Clearing.writeCnf_found succeeds.writes _ _ _ found]
      simp only [Clearing.text, List.length_append, List.length_drop]
      omega

theorem covers_of_sound (once : Once saver.keys (lines contents))
    (sound : saver.Sound contents r) :
    keyedLength saver.keys contents ≤ (saver.block r).length ∧
      (Searchable saver.keys contents ∨
        keyedLength saver.keys contents = (saver.block r).length) := by
  have whole := keyed_add_kept saver.keys contents
  have keyed : ∃ line ∈ lines contents, ¬Unkeyed saver.keys line := by
    by_contra unkeyed
    rcases saver.clear_of_sound sound [] with ⟨next, cleared, found, _⟩
    have same := Clearing.clear_unkeyed (lines_lined contents)
      (fun line member => by_contra fun keyed => unkeyed ⟨line, member, keyed⟩)
      (holds_start contents []).text cleared
    simp [same, Clearing.start] at found
  have account : ∀ behind, keyedLength saver.keys contents ≤ (saver.block r).length ∧
      (Clears saver.keys (lines contents) behind ∨
        keyedLength saver.keys contents = (saver.block r).length) := by
    intro behind
    rcases saver.clear_of_sound sound behind with ⟨next, cleared, _, size⟩
    have few := saver.keys_length_le
    have account := clear_accounts saver.proper (lines_lined contents) once
      (holds_start contents behind).text cleared
    rcases account.exact_or_off with clears | long | short
    · exact ⟨by omega, .inl clears⟩
    · omega
    · exact ⟨by omega, .inr (by omega)⟩
  refine ⟨(account []).1, ?_⟩
  by_cases equal : keyedLength saver.keys contents = (saver.block r).length
  · exact .inr equal
  · exact .inl ⟨keyed, fun behind => (account behind).2.resolve_right equal⟩

/-- Two modes whose blocks differ in length. -/
theorem block_lengths (n : Nat) : ∃ r, (saver.block r).length ≠ n := by
  let short : Res := ⟨false, 2, 0, 0, 0, 0, 0, 0, 0, 0, 0⟩
  let long : Res := ⟨false, 12, 0, 0, 0, 0, 0, 0, 0, 0, 0⟩
  have differ : (saver.block short).length ≠ (saver.block long).length := by
    cases saver <;> decide +kernel
  by_cases equal : (saver.block short).length = n
  · exact ⟨long, fun equalLong => differ (equal.trans equalLong.symm)⟩
  · exact ⟨short, equal⟩

/-- For a file with each key on at most one line: every mode is saved right if and
only if the removals lose no line and no block is shorter than what it replaces. For
a single mode the same holds, up to a block of exactly the length it replaces. -/
theorem cnf_sound_iff (once : Once saver.keys (lines contents)) :
    ((∀ r, saver.Sound contents r) ↔ Searchable saver.keys contents ∧
      ∀ r, keyedLength saver.keys contents ≤ (saver.block r).length) ∧
    (∀ r, Searchable saver.keys contents →
      (saver.Sound contents r ↔
        keyedLength saver.keys contents ≤ (saver.block r).length)) ∧
    (∀ r, keyedLength saver.keys contents ≠ (saver.block r).length →
      (saver.Sound contents r ↔ Searchable saver.keys contents ∧
        keyedLength saver.keys contents ≤ (saver.block r).length)) := by
  refine ⟨⟨?_, ?_⟩, ?_, ?_⟩
  · intro sound
    rcases saver.block_lengths (keyedLength saver.keys contents) with ⟨r, different⟩
    have here := saver.covers_of_sound once (sound r)
    exact ⟨here.2.resolve_right different.symm, fun other =>
      (saver.covers_of_sound once (sound other)).1⟩
  · intro holds r
    exact saver.sound_of_searchable once holds.1 (holds.2 r)
  · intro r searchable
    exact ⟨fun sound => (saver.covers_of_sound once sound).1,
      saver.sound_of_searchable once searchable⟩
  · intro r different
    constructor
    · intro sound
      have here := saver.covers_of_sound once sound
      exact ⟨here.2.resolve_right different, here.1⟩
    · intro holds
      exact saver.sound_of_searchable once holds.1 holds.2

/-- A removal that loses no line, and a block as long as the old lines. -/
theorem cnf_sound_iff_sample :
    let contents := ascii "font = 1\r\nMODECODE = 0x0000\r\nSCREENDEV = 5\r\nrun\n"
    xaaes.Sound contents ⟨false, 5, 0, 0, 0, 0, 0, 0, 0, 0, 0⟩ := by
  intro contents
  have once : Once xaaes.keys (lines contents) := by decide +kernel
  have searchable : Searchable xaaes.keys contents := by
    refine ⟨by decide +kernel, fun behind => ?_⟩
    have split : lines contents = [ascii "font = 1\r\n", ascii "MODECODE = 0x0000\r\n",
      ascii "SCREENDEV = 5\r\n", ascii "run\n"] := by decide +kernel
    rw [split]
    exact ⟨by decide +kernel, by decide +kernel, by decide +kernel, by decide +kernel,
      by decide +kernel, by decide +kernel, trivial⟩
  exact ((xaaes.cnf_sound_iff once).2.1 _ searchable).mpr (by decide +kernel)

/-- Lines with comments are longer than the block: the end of the old file stays
behind the new text. -/
theorem cnf_stale_end : ¬∀ (saver : CnfSaver) (contents : Bytes) (r : Res),
    Once saver.keys (lines contents) → saver.Sound contents r := by
  intro all
  let contents := ascii "SCREENDEV = 5 ; Falcon\r\nMODECODE = 0x0012 ; 80 columns\r\nrun\r\n"
  let r : Res := ⟨false, 5, 0x12, 0, 0, 0, 0, 0, 0, 0, 0⟩
  have once : Once xaaes.keys (lines contents) := by decide +kernel
  have covers := (xaaes.covers_of_sound once (all xaaes contents r once)).1
  exact absurd covers (by decide +kernel)

end CnfSaver

end Chgres
