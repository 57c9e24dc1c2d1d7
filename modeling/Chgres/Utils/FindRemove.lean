import Chgres.Utils.Stepping

/-! # Finding and removing a line

What the callers rely on when they look for a line or remove one, and when
`find_line` and `remove_line` keep to it.
-/

namespace Chgres

open Text

/-- The end of the bytes that the loop of `find_line` reads, as an offset from the start of
the buffer. -/
def findLineReach (str : Bytes) : (fuel : Nat) → (p : Bytes) → (offset : Nat) →
    (size : Int) → Nat
  | fuel, p, offset, size =>
      let (lsize, valid) := nextLine p size.toNat
      let reach := offset + nextLineReads size.toNat p
      let size := size - lsize
      let linebuf := p.take (min valid 511)
      if (findStr linebuf str).isSome then reach
      else if 0 < size ∧ 0 < lsize then
        match fuel with
        | 0 => reach
        | fuel + 1 => max reach (findLineReach str fuel (p.drop lsize) (offset + lsize) size)
      else reach

variable {key file : Bytes} {front back : List Bytes} {line : Bytes} (behind : Bytes)

/-- One turn at the first of the lines that are left. -/
theorem findLineReach_canonical (noNul : 0 ∉ key) {rest : List Bytes}
    (canonical : Canonical (line :: rest)) (fuel offset : Nat) :
    findLineReach key (fuel + 1) ((line :: rest).flatten ++ behind) offset
        (line :: rest).flatten.length =
      if Shows key line ∨ rest = [] then offset + (line.length + lookAhead line)
      else max (offset + (line.length + lookAhead line))
        (findLineReach key fuel (rest.flatten ++ behind) (offset + line.length)
          rest.flatten.length) := by
  have first := nextLine_canonical canonical behind
  have reads := nextLineReads_canonical canonical behind
  have linebuf := take_lineText line rest behind
  have match_ : (findStr ((lineText line).take 511) key).isSome = true ↔ Shows key line :=
    findStr_isSome noNul
  rw [findLineReach]
  simp only [Int.toNat_natCast, first, reads, linebuf, match_]
  by_cases shows : Shows key line
  · rw [if_pos shows, if_pos (.inl shows)]
  rw [if_neg shows]
  by_cases last : rest = []
  · subst last
    rw [if_neg (takesLast line behind), if_pos (.inr rfl)]
  · have takes := takesMore canonical last behind
    have neither : ¬(Shows key line ∨ rest = []) := not_or.mpr ⟨shows, last⟩
    simp only [takes.noOverrun, Nat.add_zero, takes.size, takes.after, if_pos takes.goOn,
      if_neg neither]

/-- The scan reads up to the end of the line that it stops at, and one byte more where
this line ends in a CR. -/
theorem findLineReach_found (noNul : 0 ∉ key)
    (stops : Shows key line ∨ back = []) : ∀ (front : List Bytes),
    Canonical (front ++ line :: back) → (∀ earlier ∈ front, ¬Shows key earlier) →
    ∀ (fuel offset : Nat), front.length < fuel →
    findLineReach key fuel ((front ++ line :: back).flatten ++ behind) offset
        (front ++ line :: back).flatten.length =
      offset + front.flatten.length + (line.length + lookAhead line)
  | [], canonical, _, fuel + 1, offset, _ => by
      rw [List.nil_append, findLineReach_canonical behind noNul canonical, if_pos stops]
      rfl
  | first :: front, canonical, fails, fuel + 1, offset, enough => by
      have whole : Canonical (first :: (front ++ line :: back)) := canonical
      have neither : ¬(Shows key first ∨ front ++ line :: back = []) :=
        not_or.mpr ⟨fails first (by simp), by simp⟩
      have induction := findLineReach_found noNul stops front whole.tail
        (fun earlier member => fails earlier (List.mem_cons_of_mem first member)) fuel
        (offset + first.length) (by simpa using enough)
      have linePos : 0 < line.length :=
        List.length_pos_of_ne_nil (canonical.lined.ne_nil line (by simp))
      have small := lookAhead_le first
      rw [List.cons_append, findLineReach_canonical behind noNul whole, if_neg neither,
        induction, List.flatten_cons, List.length_append]
      omega

theorem findLineReach_file (noNul : 0 ∉ key) (split : lines file = front ++ line :: back)
    (stops : Shows key line ∨ back = []) (fails : ∀ earlier ∈ front, ¬Shows key earlier) :
    findLineReach key file.length (file ++ behind) 0 file.length =
      front.flatten.length + (line.length + lookAhead line) := by
  have canonical := lines_canonical file
  rw [split] at canonical
  have whole : (front ++ line :: back).flatten = file := by rw [← split, lines_flatten]
  have enough : front.length < file.length := by
    have bound := lines_length_le file
    rw [split] at bound
    simp only [List.length_append, List.length_cons] at bound
    omega
  have reach := findLineReach_found behind noNul stops front canonical fails file.length 0
    enough
  rw [whole, Nat.zero_add] at reach
  exact reach

/-- A scan without a match reads the whole buffer, and behind a CR at its end one byte
more. -/
theorem findLineReach_missing (noNul : 0 ∉ key)
    (fails : ∀ line ∈ lines file, ¬Shows key line) :
    findLineReach key file.length (file ++ behind) 0 file.length =
      file.length + lookAhead file := by
  rcases List.eq_nil_or_concat (lines file) with empty | ⟨front, last, split⟩
  · rw [lines_eq_nil.mp empty]
    simp [findLineReach, nextLine, nextLineLoop, nextLineReads, lookAhead]
  · rw [List.concat_eq_append] at split
    have lastNonempty : last ≠ [] := (lines_lined file).ne_nil last (by simp [split])
    have whole : file = front.flatten ++ last := by
      have flat := congrArg List.flatten split
      simpa using flat
    have sameEnd : lookAhead file = lookAhead last := by
      rw [whole]
      simp only [lookAhead]
      rw [List.getLast?_append_of_ne_nil _ lastNonempty]
    have size : file.length = front.flatten.length + last.length := by
      conv_lhs => rw [whole, List.length_append]
    rw [findLineReach_file behind noNul split (.inr rfl) fun earlier member =>
      fails earlier (by simp [split, member]), sameEnd, size]
    omega

/-! ## What the callers rely on -/

/-- `line` is the first of the lines that shows the key. -/
structure FirstShown (key : Bytes) (ls front : List Bytes) (line : Bytes)
    (back : List Bytes) : Prop where
  split : ls = front ++ line :: back
  shows : Shows key line
  first : ∀ earlier ∈ front, ¬Shows key earlier

/-- `find_line` in a buffer of `file.length` bytes, with `behind` in the memory behind
it. -/
structure FindsLine (key file behind : Bytes) : Prop where
  /-- No byte outside the buffer is read. -/
  inside : findLineReach key file.length (file ++ behind) 0 file.length ≤ file.length
  found : ∀ front line back, FirstShown key (lines file) front line back →
    findLine (file ++ behind) key file.length =
      ⟨front.flatten.length, back.flatten.length, line.length⟩
  missing : (∀ line ∈ lines file, ¬Shows key line) →
    ∃ linesize, findLine (file ++ behind) key file.length = ⟨file.length, 0, linesize⟩

/-- `remove_line` in the same buffer. -/
structure RemovesLine (key file behind : Bytes) : Prop where
  null : removeLine (file ++ behind) key file.length = .done none ↔
    ∀ line ∈ lines file, ¬Shows key line
  removed : ∀ front line back, FirstShown key (lines file) front line back →
    ∃ removed, removeLine (file ++ behind) key file.length = .done (some removed) ∧
      removed.newsize = file.length - line.length ∧
      removed.memory.take removed.newsize = front.flatten ++ back.flatten ∧
      removed.offset = front.flatten.length ∧
      removed.memory.drop file.length = behind

theorem FirstShown.whole (shown : FirstShown key (lines file) front line back) :
    front.flatten ++ (line ++ back.flatten) = file := by
  have flat := congrArg List.flatten shown.split
  rw [lines_flatten] at flat
  simp [flat]

theorem FirstShown.cut (shown : FirstShown key (lines file) front line back)
    (more : back ≠ []) : Cut key (lines file) front line back :=
  ⟨shown.split, shown.shows, shown.first, more⟩

theorem firstShown_unique {front' back' : List Bytes} {line' : Bytes}
    (shown : FirstShown key (lines file) front line back)
    (other : FirstShown key (lines file) front' line' back') :
    front' = front ∧ line' = line ∧ back' = back := by
  have left := splitFirst_eq_some.mpr ⟨shown.split, shown.shows, shown.first⟩
  have right := splitFirst_eq_some.mpr ⟨other.split, other.shows, other.first⟩
  rw [left] at right
  cases right
  exact ⟨rfl, rfl, rfl⟩

theorem exists_firstShown_or (key file : Bytes) :
    (∀ line ∈ lines file, ¬Shows key line) ∨
      ∃ front line back, FirstShown key (lines file) front line back := by
  rcases splitFirst_cases (Shows key) (lines file) with fails | found
  · exact .inl fails
  · rcases found with ⟨front, line, back, split, shows, fails⟩
    exact .inr ⟨front, line, back, split, shows, fails⟩

theorem findsLine_cut (noNul : 0 ∉ key)
    (shown : FirstShown key (lines file) front line back) (more : back ≠ []) :
    FindsLine key file behind where
  inside := by
    have reach := findLineReach_file behind noNul shown.split (.inl shown.shows) shown.first
    have small := lookAhead_le line
    have room := (shown.cut more).back_pos
    have size := congrArg List.length shown.whole
    simp only [List.length_append] at size
    omega
  found := by
    intro front' line' back' other
    rcases firstShown_unique shown other with ⟨rfl, rfl, rfl⟩
    exact findLine_cut behind noNul (shown.cut more)
  missing := by
    intro fails
    exact absurd shown.shows (fails line (by simp [shown.split]))

theorem removesLine_cut (noNul : 0 ∉ key)
    (shown : FirstShown key (lines file) front line back) (more : back ≠ []) :
    RemovesLine key file behind := by
  have result := removeLine_cut behind noNul (shown.cut more)
  have size := congrArg List.length shown.whole
  simp only [List.length_append] at size
  constructor
  · rw [result]
    simp only [Outcome.done.injEq, reduceCtorEq, false_iff]
    intro fails
    exact fails line (by simp [shown.split]) shown.shows
  · intro front' line' back' other
    rcases firstShown_unique shown other with ⟨rfl, rfl, rfl⟩
    refine ⟨_, result, ?_, ?_, rfl, ?_⟩
    · simp only [List.length_append]
      omega
    · rw [List.take_left]
    · have stale : (staleTail file line').length = line'.length := by
        simp only [staleTail, List.length_drop]
        omega
      have place : file.length =
          ((front'.flatten ++ back'.flatten) ++ staleTail file line').length := by
        simp only [List.length_append, stale]
        omega
      rw [place, ← List.append_assoc, List.drop_left]

theorem findsLine_missing (noNul : 0 ∉ key) (nonempty : key ≠ [])
    (fails : ∀ line ∈ lines file, ¬Shows key line) (noCr : file.getLast? ≠ some cr) :
    FindsLine key file behind where
  inside := by
    rw [findLineReach_missing behind noNul fails]
    simp [lookAhead, noCr]
  found := by
    intro front line back shown
    exact absurd shown.shows (fails line (by simp [shown.split]))
  missing := by
    intro _
    have apart : ¬Glued file behind := fun glued => noCr glued.1
    rcases findLine_missing behind noNul nonempty fails with ⟨linesize, result⟩
    refine ⟨linesize, ?_⟩
    simpa [overrun, apart] using result

theorem removesLine_missing (noNul : 0 ∉ key) (nonempty : key ≠ [])
    (fails : ∀ line ∈ lines file, ¬Shows key line) (noCr : file.getLast? ≠ some cr) :
    RemovesLine key file behind := by
  have hidden : HiddenIn key (lines file) := fun line member =>
    fails line (List.mem_of_mem_dropLast member)
  have apart : ¬Glued file behind := fun glued => noCr glued.1
  have result := removeLine_hidden behind noNul nonempty hidden
  rw [if_neg apart] at result
  constructor
  · exact ⟨fun _ => fails, fun _ => result⟩
  · intro front line back shown
    exact absurd shown.shows (fails line (by simp [shown.split]))

/-- A match on the last line leaves no byte behind it, which `remove_line` takes for no
match. -/
theorem not_removesLine_last (noNul : 0 ∉ key) (nonempty : key ≠ [])
    (shown : FirstShown key (lines file) front line []) : ¬RemovesLine key file behind := by
  intro removes
  have hidden : HiddenIn key (lines file) := by
    rw [shown.split, HiddenIn, List.dropLast_concat]
    exact shown.first
  have result := removeLine_hidden behind noNul nonempty hidden
  rcases removes.removed front line [] shown with ⟨removed, isRemoved, _⟩
  rw [result] at isRemoved
  by_cases glued : Glued file behind
  · rw [if_pos glued] at isRemoved
    cases isRemoved
  · rw [if_neg glued] at isRemoved
    cases isRemoved

/-- `find_line` and `remove_line` keep to it where a line before the last shows the key,
and where no line does and the buffer does not end in a CR. -/
theorem find_remove_iff (cString : 0 ∉ key) (nonempty : key ≠ []) (file behind : Bytes) :
    FindsLine key file behind ∧ RemovesLine key file behind ↔
      (∃ line ∈ (lines file).dropLast, Shows key line) ∨
        (∀ line ∈ lines file, ¬Shows key line) ∧ file.getLast? ≠ some cr := by
  rcases exists_firstShown_or key file with fails | ⟨front, line, back, shown⟩
  · have noneBefore : ¬∃ line ∈ (lines file).dropLast, Shows key line := fun early => by
      rcases early with ⟨line, member, shows⟩
      exact fails line (List.mem_of_mem_dropLast member) shows
    constructor
    · intro keeps
      refine .inr ⟨fails, fun endsInCr => ?_⟩
      have inside := keeps.1.inside
      rw [findLineReach_missing behind cString fails] at inside
      simp only [lookAhead, if_pos endsInCr] at inside
      omega
    · intro condition
      rcases condition with early | ⟨_, noCr⟩
      · exact absurd early noneBefore
      · exact ⟨findsLine_missing behind cString nonempty fails noCr,
          removesLine_missing behind cString nonempty fails noCr⟩
  · have somewhere : ¬∀ line ∈ lines file, ¬Shows key line := fun fails =>
      fails line (by simp [shown.split]) shown.shows
    cases back with
    | nil =>
        constructor
        · intro keeps
          exact absurd keeps.2 (not_removesLine_last behind cString nonempty shown)
        · intro condition
          rcases condition with ⟨early, member, shows⟩ | ⟨fails, _⟩
          · rw [shown.split, List.dropLast_concat] at member
            exact absurd shows (shown.first early member)
          · exact absurd fails somewhere
    | cons next more =>
        constructor
        · intro _
          refine .inl ⟨line, ?_, shown.shows⟩
          rw [shown.split, List.dropLast_append_of_ne_nil (by simp)]
          simp
        · intro _
          exact ⟨findsLine_cut behind cString shown (by simp),
            removesLine_cut behind cString shown (by simp)⟩

theorem find_remove_sample :
    let key := ascii "MODECODE"
    let file := ascii "a = 1\r\n\tMODECODE = 2\nb\n"
    (0 ∉ key ∧ key ≠ [] ∧ ∃ line ∈ (lines file).dropLast, Shows key line) ∧
      FindsLine key file [] ∧ RemovesLine key file [] := by
  have shown : ∃ line ∈ (lines (ascii "a = 1\r\n\tMODECODE = 2\nb\n")).dropLast,
      Shows (ascii "MODECODE") line :=
    ⟨ascii "\tMODECODE = 2\n", by decide +kernel⟩
  exact ⟨⟨by decide, by decide, shown⟩,
    (find_remove_iff (by decide) (by decide) _ []).mpr (.inl shown)⟩

/-- The line is the last one: it is found, but not removed. -/
theorem last_line_stays :
    ¬(FindsLine (ascii "MODECODE") (ascii "a = 1\r\nMODECODE = 2\r\n") [] ∧
      RemovesLine (ascii "MODECODE") (ascii "a = 1\r\nMODECODE = 2\r\n") []) := by
  intro keeps
  have result : removeLine (ascii "a = 1\r\nMODECODE = 2\r\n" ++ []) (ascii "MODECODE")
      (ascii "a = 1\r\nMODECODE = 2\r\n").length = .done none := by decide +kernel
  have absent := keeps.2.null.mp result (ascii "MODECODE = 2\r\n") (by decide +kernel)
  exact absent (by decide +kernel)

end Chgres
