import Chgres.Modes.Gdos

/-! # The lines of `assign.sys`

What a line says, and the lines of which the code reads just that.
-/

namespace Chgres

open Text Words

/-! ## What the lines say -/

/-- The number that a line starts with. -/
def lineNumber (text : Bytes) : Option Nat :=
  let digits := skipWhite text
  if (digits.headD 0 |> isDigit) then some (decimal digits) else none

/-- A word of a line without its directory. -/
def fileName (word : Bytes) : Bytes :=
  (word.reverse.takeWhile fun c => c ≠ 0x5c ∧ c ≠ 0x2f ∧ c ≠ 0x3a).reverse

/-- The first word with `.SYS` in it. -/
def sysWord (text : Bytes) : Option Bytes :=
  (text.splitOnP isBlank).find? fun word => (strstr sysExtension word).isSome

/-- The id that a line assigns and its driver file. -/
def assignment (line : Bytes) : Option (Nat × Bytes) :=
  let text := strupr (lineText line)
  match lineNumber text, sysWord text with
  | some id, some word => some (id, fileName word)
  | _, _ => none

/-- The driver file in the last line that assigns the id. -/
def assignedDriver (contents : Bytes) (id : Nat) : Option Bytes :=
  (((lines contents).filterMap assignment).filter fun entry => entry.1 = id).getLast?.map (·.2)

/-- The smallest id in 1..10 of a driver file, or 0. -/
def assignedId (contents driver : Bytes) : Nat :=
  ((List.range' 1 10).find? fun id => assignedDriver contents id = some driver).getD 0

/-- An 8.3 file name of digits and letters that ends in `.SYS`. -/
def IsDriverName (driver : Bytes) : Prop :=
  ∃ stem, driver = stem ++ sysExtension ∧ 1 ≤ stem.length ∧ stem.length ≤ 8 ∧
    ∀ c ∈ stem, (0x30 ≤ c ∧ c ≤ 0x39) ∨ (0x41 ≤ c ∧ c ≤ 0x5a)

/-! ## Lines that are read as they are meant -/

/-- The text of a line gives a driver file its id: the number comes first and the driver
file last, behind a blank or a directory, and the first dot is its own. -/
structure Assigns (text : Bytes) (id : Nat) (driver : Bytes) : Prop where
  number : lineNumber text = some id
  small : id < 2 ^ 15
  named : IsDriverName driver
  split : ∃ front blank folder, text = front ++ blank :: (folder ++ driver) ∧
    isBlank blank = true ∧ 0x2e ∉ front ∧ 0x2e ∉ folder ∧ (∀ c ∈ folder, isBlank c = false) ∧
    (folder = [] ∨ ∃ path separator, folder = path ++ [separator] ∧
      (separator = 0x5c ∨ separator = 0x2f))

/-- A line that fits `buf` and either assigns a driver file or names none. -/
def PlainAssign (line : Bytes) : Prop :=
  0 ∉ lineText line ∧ (lineText line).length ≤ 511 ∧
    (strstr sysExtension (strupr (lineText line)) = none ∨
      ∃ id driver, Assigns (strupr (lineText line)) id driver)

/-- The backward scan stops at the first byte that no file name has. -/
theorem nameStart_stem {separator : Byte} (ends : separator < 0x30 ∨ 0x5a < separator)
    {before stem : Bytes} (inside : ∀ c ∈ stem, 0x30 ≤ c ∧ c ≤ 0x5a) (after : Bytes) :
    nameStart (before ++ separator :: (stem ++ after)) (before.length + 1 + stem.length) =
      some (before.length + 1) := by
  induction stem using List.reverseRecOn generalizing after with
  | nil =>
      rw [List.length_nil, Nat.add_zero, nameStart]
      simp [ends]
  | append_singleton stem c induction =>
      have within := inside c (by simp)
      have inName : ¬(c < 0x30 ∨ 0x5a < c) := by
        rw [not_or, UInt8.not_lt, UInt8.not_lt]
        exact within
      have here : (before ++ separator :: (stem ++ c :: after)).getD
          (before.length + 1 + stem.length) 0 = c := by
        rw [List.getD_append_right _ _ _ _ (by omega)]
        have place : before.length + 1 + stem.length - before.length = stem.length + 1 := by omega
        simp [place]
      rw [List.length_append, List.length_singleton, ← Nat.add_assoc, nameStart,
        List.append_assoc, List.singleton_append]
      simp only [here, if_neg inName]
      exact induction (fun c member => inside c (by simp [member])) (c :: after)

theorem atoi_skipWhite (text : Bytes) : atoi (skipWhite text) = atoi text := by
  induction text with
  | nil => rfl
  | cons c text induction =>
      by_cases blank : isBlank c = true
      · have space : isSpace c = true := by
          simp only [isBlank, isSpace, Bool.or_eq_true, decide_eq_true_eq] at *
          tauto
        have skipped : skipWhite (c :: text) = skipWhite text := by simp [skipWhite, blank]
        rw [skipped, atoi_cons_space space, induction]
      · have kept : skipWhite (c :: text) = c :: text := by simp [skipWhite, blank]
        rw [kept]

/-- `atoi` reads the number that the line starts with. -/
theorem atoi_lineNumber {text : Bytes} {id : Nat} (number : lineNumber text = some id)
    (small : id < 2 ^ 15) : (atoi text).toInt16.toInt = id := by
  unfold lineNumber at number
  cases digits : skipWhite text with
  | nil => simp [digits, isDigit] at number
  | cons c rest =>
      simp only [digits, List.headD_cons, Option.ite_none_right_eq_some,
        Option.some.injEq] at number
      rcases number with ⟨digit, value⟩
      rw [← atoi_skipWhite, digits, atoi_of_digit rfl digit, value, Int32.toInt_toInt16,
        Int32.toInt_ofNat_of_lt (by omega)]
      exact Int.bmod_eq_of_le (by omega) (by omega)

/-! ### The words of a line -/

/-- The words are pieces of their text, and the first of them is its start. -/
theorem splitOnP_pieces : ∀ text : Bytes, ∃ first others,
    text.splitOnP isBlank = first :: others ∧ first <+: text ∧ ∀ word ∈ others, word <:+: text
  | [] => ⟨[], [], rfl, List.prefix_rfl, by simp⟩
  | c :: text => by
      rcases splitOnP_pieces text with ⟨first, others, words, starts, pieces⟩
      rw [List.splitOnP_cons_eq_if_modifyHead]
      by_cases blank : isBlank c = true
      · refine ⟨[], first :: others, by rw [if_pos blank, words], List.nil_prefix, ?_⟩
        intro word member
        rcases List.mem_cons.mp member with rfl | member
        · exact List.infix_cons starts.isInfix
        · exact List.infix_cons (pieces word member)
      · refine ⟨c :: first, others, by rw [if_neg blank, words]; rfl, ?_, ?_⟩
        · exact List.cons_prefix_cons.mpr ⟨rfl, starts⟩
        · exact fun word member => List.infix_cons (pieces word member)

theorem infix_of_mem_splitOnP {text word : Bytes} (member : word ∈ text.splitOnP isBlank) :
    word <:+: text := by
  rcases splitOnP_pieces text with ⟨first, others, words, starts, pieces⟩
  rw [words] at member
  rcases List.mem_cons.mp member with rfl | member
  · exact starts.isInfix
  · exact pieces word member

theorem sysExtension_ne_nil : sysExtension ≠ [] := by decide

/-- A text without `.SYS` has no word with it. -/
theorem sysWord_eq_none {text : Bytes} (without : strstr sysExtension text = none) :
    sysWord text = none := by
  rw [sysWord, List.find?_eq_none]
  intro word member found
  have absent : strstr sysExtension word = none :=
    (strstr_eq_none sysExtension_ne_nil).mpr fun inWord =>
      (strstr_eq_none sysExtension_ne_nil).mp without
        (inWord.trans (infix_of_mem_splitOnP member))
  simp [absent] at found

theorem strstr_noDot {text : Bytes} (noDot : 0x2e ∉ text) : strstr sysExtension text = none := by
  refine (strstr_eq_none sysExtension_ne_nil).mpr fun inside => noDot ?_
  exact inside.subset (by decide)

theorem strstr_sysExtension {before : Bytes} (noDot : 0x2e ∉ before) :
    strstr sysExtension (before ++ sysExtension) = some before.length :=
  strstr_append List.prefix_rfl noDot

/-- What a digit or a capital letter is not. -/
theorem stem_byte : ∀ c : Byte, (0x30 ≤ c ∧ c ≤ 0x39) ∨ (0x41 ≤ c ∧ c ≤ 0x5a) →
    (0x30 ≤ c ∧ c ≤ 0x5a) ∧ c ≠ 0x2e ∧ isBlank c = false ∧
      (c ≠ 0x5c ∧ c ≠ 0x2f ∧ c ≠ 0x3a) := by
  decide +kernel

theorem sysExtension_byte : ∀ c ∈ sysExtension,
    isBlank c = false ∧ (c ≠ 0x5c ∧ c ≠ 0x2f ∧ c ≠ 0x3a) := by
  simp [sysExtension, ascii, isBlank]

theorem fileName_driver {folder driver : Bytes} (named : IsDriverName driver)
    (ends : folder = [] ∨ ∃ path separator, folder = path ++ [separator] ∧
      (separator = 0x5c ∨ separator = 0x2f)) : fileName (folder ++ driver) = driver := by
  rcases named with ⟨stem, rfl, _, _, letters⟩
  have inName : ∀ c ∈ (stem ++ sysExtension).reverse,
      decide (c ≠ 0x5c ∧ c ≠ 0x2f ∧ c ≠ 0x3a) = true := by
    intro c member
    rw [List.mem_reverse, List.mem_append] at member
    rcases member with inStem | inExtension
    · exact decide_eq_true (stem_byte c (letters c inStem)).2.2.2
    · exact decide_eq_true (sysExtension_byte c inExtension).2
  rw [fileName, List.reverse_append, List.takeWhile_append_of_pos inName]
  rcases ends with rfl | ⟨path, separator, rfl, rfl | rfl⟩
  · simp
  · simp
  · simp

namespace Assigns

variable {text driver : Bytes} {id : Nat}

/-- The first word with `.SYS` in it is the last one. -/
theorem sysWord_eq (assigns : Assigns text id driver) :
    ∃ folder, sysWord text = some (folder ++ driver) ∧ fileName (folder ++ driver) = driver := by
  rcases assigns.split with
    ⟨front, blank, folder, rfl, isBlank_, frontNoDot, folderNoDot, folderNoBlank, ends⟩
  refine ⟨folder, ?_, fileName_driver assigns.named ends⟩
  rcases assigns.named with ⟨stem, rfl, _, _, letters⟩
  have oneWord : (folder ++ (stem ++ sysExtension)).splitOnP isBlank =
      [folder ++ (stem ++ sysExtension)] := by
    apply List.splitOnP_eq_singleton
    intro c member
    simp only [List.mem_append] at member
    rcases member with inFolder | inStem | inExtension
    · exact folderNoBlank c inFolder
    · exact (stem_byte c (letters c inStem)).2.2.1
    · exact (sysExtension_byte c inExtension).1
  have none : (front.splitOnP isBlank).find? (fun word => (strstr sysExtension word).isSome) =
      none := sysWord_eq_none (strstr_noDot frontNoDot)
  have here : strstr sysExtension (folder ++ (stem ++ sysExtension)) =
      some (folder ++ stem).length := by
    rw [← List.append_assoc]
    apply strstr_sysExtension
    rw [List.mem_append, not_or]
    exact ⟨folderNoDot, fun member => (stem_byte _ (letters _ member)).2.1 rfl⟩
  rw [sysWord, List.splitOnP_append_cons _ _ isBlank_, oneWord, List.find?_append, none,
    Option.none_or, List.find?_singleton, here]
  rfl

/-- What stands in front of the driver file stops the backward scan. -/
theorem split_separator (assigns : Assigns text id driver) :
    ∃ before separator, text = before ++ separator :: driver ∧ 0x2e ∉ before ++ [separator] ∧
      (separator < 0x30 ∨ 0x5a < separator) := by
  rcases assigns.split with
    ⟨front, blank, folder, rfl, isBlank_, frontNoDot, folderNoDot, _, ends⟩
  have blankByte : blank ≠ 0x2e ∧ blank < 0x30 := by
    simp only [isBlank, Bool.or_eq_true, decide_eq_true_eq] at isBlank_
    rcases isBlank_ with rfl | rfl <;> decide
  rcases blankByte with ⟨noDot, stops⟩
  rcases ends with rfl | ⟨path, separator, rfl, isSeparator⟩
  · exact ⟨front, blank, by simp, by simp [frontNoDot, noDot.symm], .inl stops⟩
  · refine ⟨front ++ blank :: path, separator, by simp, ?_, ?_⟩
    · simpa [frontNoDot, noDot.symm] using folderNoDot
    · rcases isSeparator with rfl | rfl
      · exact .inr (by decide)
      · exact .inl (by decide)

/-- The code enters the driver file under the number. -/
theorem bufEntry_eq (assigns : Assigns text id driver) :
    bufEntry text = some ((atoi text).toInt16, driver) := by
  rcases assigns.split_separator with ⟨before, separator, rfl, noDot, ends⟩
  rcases assigns.named with ⟨stem, rfl, _, _, letters⟩
  have hit : strstr sysExtension (before ++ separator :: (stem ++ sysExtension)) =
      some (before.length + 1 + stem.length) := by
    have whole : before ++ separator :: (stem ++ sysExtension) =
        (before ++ [separator] ++ stem) ++ sysExtension := by simp
    rw [whole, strstr_sysExtension]
    · simp
      omega
    · rw [List.mem_append, not_or]
      exact ⟨noDot, fun member => (stem_byte _ (letters _ member)).2.1 rfl⟩
  have stop := @nameStart_stem separator ends before stem
    (fun c member => (stem_byte c (letters c member)).1) sysExtension
  simp only [bufEntry, hit, stop, Option.map_some]
  simp

end Assigns

/-- Of such a line the code reads what the line says. -/
theorem lineEntry_plain {line : Bytes} (plain : PlainAssign line) :
    (lineEntry line).map (fun entry => (entry.1.toInt, entry.2.take 13)) =
      (assignment line).map fun entry => ((entry.1 : Int), entry.2) := by
  rcases plain with ⟨noNul, short, cases_⟩
  have buf : cstring ((lineText line).take 511) = lineText line := by
    have all : ∀ c ∈ lineText line, decide (c ≠ 0) = true := by
      intro c member
      exact decide_eq_true fun isZero => noNul (isZero ▸ member)
    rw [List.take_of_length_le short, cstring, List.takeWhile_eq_self_iff]
    exact all
  rw [lineEntry, buf, assignment]
  rcases cases_ with without | ⟨id, driver, assigns⟩
  · rw [bufEntry, without, sysWord_eq_none without]
    cases lineNumber (strupr (lineText line)) with
    | none => rfl
    | some id => rfl
  · rcases assigns.sysWord_eq with ⟨folder, word, name⟩
    have fits : driver.take 13 = driver := by
      rcases assigns.named with ⟨stem, rfl, _, few, _⟩
      exact List.take_of_length_le (by simp [sysExtension, ascii]; omega)
    rw [assigns.bufEntry_eq, assigns.number, word]
    simp only [Option.map_some, name, fits, atoi_lineNumber assigns.number assigns.small]

end Chgres
