import Chgres.Foundation.Search
import Chgres.Utils.Scan

/-! # What the scan finds

The scanning functions in terms of the lines of the file. Behind the file the
memory is arbitrary: it matters only where the file ends in a lone CR and the
next byte of the heap is an LF.
-/

namespace Chgres

open Text

/-! ## Keys -/

/-- The text of a line that `next_line` counts as valid: up to the terminator
or the start of a comment. -/
def lineText (line : Bytes) : Bytes :=
  (body line).takeWhile fun c => !isComment c

/-- The line starts with `key`, after blanks and outside comments. -/
def StartsWith (key line : Bytes) : Prop := key <+: skipWhite (lineText line)

/-- `find_line` sees that the line starts with `key`: it compares no more than
511 bytes of a line. -/
def Shows (key line : Bytes) : Prop := key <+: skipWhite ((lineText line).take 511)

instance (key line : Bytes) : Decidable (StartsWith key line) :=
  inferInstanceAs (Decidable (_ <+: _))

instance (key line : Bytes) : Decidable (Shows key line) :=
  inferInstanceAs (Decidable (_ <+: _))

theorem agrees_iff : ∀ {p str : Bytes}, 0 ∉ str →
    (agrees p str = true ↔ str <+: p)
  | p, [], _ => by simp [agrees]
  | [], d :: str, _ => by simp [agrees]
  | c :: p, d :: str, noNul => by
      have nonzero : d ≠ 0 := fun isZero => noNul (by simp [isZero])
      have rest := @agrees_iff p str fun member =>
        noNul (List.mem_cons_of_mem d member)
      simp only [agrees, Bool.and_eq_true, decide_eq_true_eq, rest,
        List.cons_prefix_cons]
      constructor
      · intro holds
        exact ⟨holds.1.2.symm, holds.2⟩
      · intro holds
        rcases holds with ⟨rfl, isPrefix⟩
        exact ⟨⟨nonzero, rfl⟩, isPrefix⟩

theorem findStr_isSome {line str : Bytes} (noNul : 0 ∉ str) :
    (findStr line str).isSome = true ↔ str <+: skipWhite line := by
  rw [findStr]
  by_cases agree : agrees (skipWhite line) str
  · simp [agree, (agrees_iff noNul).mp agree]
  · have apart : ¬str <+: skipWhite line := fun isPrefix =>
      agree ((agrees_iff noNul).mpr isPrefix)
    simp [agree, apart]

theorem lineText_congr {left right : Bytes} (equal : body left = body right) :
    lineText left = lineText right := by
  simp only [lineText, equal]

theorem startsWith_congr {key left right : Bytes} (equal : body left = body right) :
    StartsWith key left ↔ StartsWith key right := by
  simp only [StartsWith, lineText_congr equal]

theorem shows_congr {key left right : Bytes} (equal : body left = body right) :
    Shows key left ↔ Shows key right := by
  simp only [Shows, lineText_congr equal]

theorem skipWhite_mono : ∀ {left right : Bytes}, left <+: right →
    skipWhite left <+: skipWhite right
  | [], right, _ => List.nil_prefix
  | c :: left, [], isPrefix => absurd isPrefix (by simp)
  | c :: left, d :: right, isPrefix => by
      rcases List.cons_prefix_cons.mp isPrefix with ⟨rfl, rest⟩
      by_cases blank : isBlank c
      · simpa [skipWhite, blank] using skipWhite_mono rest
      · simpa [skipWhite, blank] using rest

/-- Skipping blanks stops at the last byte if not before. -/
theorem skipWhite_getLast? : ∀ {text : Bytes} {c : Byte}, text.getLast? = some c →
    isBlank c = false → (skipWhite text).getLast? = some c
  | [], _, last, _ => absurd last (by simp)
  | [d], c, last, notBlank => by
      have same : d = c := by simpa using last
      simp [skipWhite, same, notBlank]
  | d :: next :: text, c, last, notBlank => by
      by_cases blank : isBlank d
      · have rest : (next :: text).getLast? = some c := by simpa using last
        simpa [skipWhite, blank] using skipWhite_getLast? rest notBlank
      · simpa [skipWhite, blank] using last

/-- What follows a text with such a last byte is not skipped. -/
theorem blanks_append {text : Bytes} {c : Byte} (last : text.getLast? = some c)
    (notBlank : isBlank c = false) (more : Bytes) :
    (text ++ more).takeWhile isBlank = text.takeWhile isBlank := by
  rw [List.takeWhile_append, if_neg]
  intro all
  have stops := skipWhite_getLast? last notBlank
  have nothing : skipWhite text = [] := by
    rw [skipWhite, ← List.length_eq_zero_iff]
    have size := congrArg List.length (@List.takeWhile_append_dropWhile _ isBlank text)
    rw [List.length_append] at size
    omega
  simp [nothing] at stops

theorem Shows.startsWith {key line : Bytes} (shows : Shows key line) :
    StartsWith key line :=
  shows.trans (skipWhite_mono (List.take_prefix _ _))

theorem StartsWith.length_le_body {key line : Bytes} (starts : StartsWith key line) :
    key.length ≤ (body line).length :=
  calc key.length ≤ (skipWhite (lineText line)).length := List.IsPrefix.length_le starts
    _ ≤ (lineText line).length := (List.dropWhile_suffix _).length_le
    _ ≤ (body line).length := (List.takeWhile_prefix _).length_le

theorem StartsWith.length_le {key line : Bytes} (starts : StartsWith key line) :
    key.length ≤ line.length :=
  starts.length_le_body.trans (List.takeWhile_prefix _).length_le

/-- A line that starts with a key does not start with LF. -/
theorem StartsWith.head?_ne_lf {key line : Bytes} (nonempty : key ≠ [])
    (starts : StartsWith key line) : line.head? ≠ some lf := by
  cases line with
  | nil => simp
  | cons c rest =>
      intro isLf
      have first : c = lf := by simpa using isLf
      subst first
      apply nonempty
      simpa [StartsWith, lineText, body, skipWhite] using starts

/-- Two keys of one line are a key and the start of it. -/
theorem StartsWith.comparable {key other line : Bytes} (starts : StartsWith key line)
    (startsOther : StartsWith other line) : key <+: other ∨ other <+: key :=
  List.prefix_or_prefix_of_prefix starts startsOther

/-- What the callers look for: no blank in front, nothing that ends a line, a
comment or a C string. -/
def IsKey (key : Bytes) : Prop :=
  key.head?.any (fun c => !isBlank c) = true ∧
    ∀ c ∈ key, c ≠ 0 ∧ c ≠ cr ∧ c ≠ lf ∧ isComment c = false

instance (key : Bytes) : Decidable (IsKey key) := inferInstanceAs (Decidable (_ ∧ _))

theorem IsKey.noNul {key : Bytes} (isKey : IsKey key) : 0 ∉ key := fun member =>
  (isKey.2 0 member).1 rfl

theorem IsKey.ne_nil {key : Bytes} (isKey : IsKey key) : key ≠ [] := by
  intro empty
  have first := isKey.1
  simp [empty] at first

theorem IsKey.plain {key : Bytes} (isKey : IsKey key) : Plain key := fun c member =>
  ⟨(isKey.2 c member).2.1, (isKey.2 c member).2.2.1⟩

theorem IsKey.lineText_append {key : Bytes} (isKey : IsKey key) (rest : Bytes) :
    lineText (key ++ rest) = key ++ lineText rest := by
  rw [lineText, body_plain_append isKey.plain, List.takeWhile_append_of_pos, lineText]
  intro c member
  simp [(isKey.2 c member).2.2.2]

theorem IsKey.skipWhite_append {key : Bytes} (isKey : IsKey key) (rest : Bytes) :
    skipWhite (key ++ rest) = key ++ rest := by
  cases key with
  | nil => exact absurd rfl isKey.ne_nil
  | cons c key =>
      have first : isBlank c = false := by simpa using isKey.1
      simp [skipWhite, first]

/-- A line that is written with its key in front starts with the key. -/
theorem IsKey.startsWith {key : Bytes} (isKey : IsKey key) (rest : Bytes) :
    StartsWith key (key ++ rest) := by
  rw [StartsWith, isKey.lineText_append, isKey.skipWhite_append]
  exact List.prefix_append _ _

theorem IsKey.shows {key : Bytes} (isKey : IsKey key) (short : key.length ≤ 511)
    (rest : Bytes) : Shows key (key ++ rest) := by
  rw [Shows, isKey.lineText_append, List.take_append,
    List.take_of_length_le short, isKey.skipWhite_append]
  exact List.prefix_append _ _

theorem not_shows_of_not_startsWith {key : Bytes} {ls : List Bytes}
    (absent : ∀ line ∈ ls, ¬StartsWith key line) : ∀ line ∈ ls, ¬Shows key line :=
  fun line member shows => absent line member shows.startsWith

/-- Joining lines makes no line that shows a key. -/
theorem not_shows_lines {key : Bytes} {ls : List Bytes} (lined : Lined ls)
    (absent : ∀ line ∈ ls, ¬Shows key line) :
    ∀ line ∈ lines ls.flatten, ¬Shows key line := by
  intro line member shows
  rcases lined.body_lines line member with ⟨piece, pieceMember, equal⟩
  exact absent piece pieceMember ((shows_congr equal).mp shows)

theorem lineText_isPrefix (line : Bytes) : lineText line <+: line :=
  (List.takeWhile_prefix _).trans (List.takeWhile_prefix _)

/-! ## `next_line` -/

theorem headD_eq_lf {p : Bytes} : p.headD 0 = lf ↔ p.head? = some lf := by
  cases p with
  | nil => decide
  | cons c p => simp

/-- The loop takes a plain text byte by byte and counts it up to its comment. -/
theorem nextLineLoop_plain : ∀ {text : Bytes}, Plain text →
    ∀ (rest : Bytes) (more : Nat) (comment : Bool),
    nextLineLoop (text.length + more) (text ++ rest) comment =
      let ended := nextLineLoop more rest (comment || text.any isComment)
      (text.length + ended.1,
        if comment then ended.2
        else (text.takeWhile fun c => !isComment c).length + ended.2)
  | [], _, rest, more, comment => by
      cases comment <;> simp
  | c :: text, plain, rest, more, comment => by
      have first := plain c (by simp)
      have plainTail : Plain text := fun other member =>
        plain other (List.mem_cons_of_mem c member)
      have tail := nextLineLoop_plain plainTail rest more (comment || isComment c)
      have sizes : (c :: text).length + more = (text.length + more) + 1 := by
        simp only [List.length_cons]
        omega
      rw [sizes, List.cons_append, nextLineLoop]
      simp only [List.headD_cons, List.tail_cons, first.1, first.2, if_false, tail,
        Bool.or_assoc, List.any_cons, List.length_cons, List.takeWhile_cons]
      refine Prod.ext (by simp only; omega) ?_
      cases comment <;> cases isComment c <;> simp
      omega

theorem nextLineLoop_lf (more : Nat) (rest : Bytes) (comment : Bool) :
    nextLineLoop (more + 1) (lf :: rest) comment = (1, 0) := by
  simp [nextLineLoop]

theorem nextLineLoop_cr_lf (more : Nat) (rest : Bytes) (comment : Bool) :
    nextLineLoop (more + 1) (cr :: lf :: rest) comment = (2, 0) := by
  simp [nextLineLoop]

theorem nextLineLoop_cr (more : Nat) {rest : Bytes} (apart : rest.head? ≠ some lf)
    (comment : Bool) : nextLineLoop (more + 1) (cr :: rest) comment = (1, 0) := by
  have notLf : ¬rest.headD 0 = lf := fun equal => apart (headD_eq_lf.mp equal)
  simp only [nextLineLoop, List.headD_cons, List.tail_cons, if_true]
  exact if_neg notLf

theorem lineText_append {text ending : Bytes} (plain : Plain text)
    (ends : body ending = []) :
    lineText (text ++ ending) = text.takeWhile fun c => !isComment c := by
  rw [lineText, body_plain_append plain, ends, List.append_nil]

/-- A line with its terminator is taken as it is, unless a lone CR meets an LF
behind it. -/
theorem nextLine_terminated {line rest : Bytes} (terminated : Terminated line)
    (apart : ¬Glued line rest) {maxlen : Nat} (enough : line.length ≤ maxlen) :
    nextLine (line ++ rest) maxlen = (line.length, (lineText line).length) := by
  cases terminated with
  | @crlf text plain =>
      rcases Nat.exists_eq_add_of_le enough with ⟨more, rfl⟩
      rw [lineText_append plain (by decide)]
      have sizes : (text ++ [cr, lf]).length + more = text.length + ((more + 1) + 1) := by
        simp only [List.length_append, List.length_cons, List.length_nil]
        omega
      rw [nextLine, sizes, List.append_assoc, nextLineLoop_plain plain]
      simp [nextLineLoop_cr_lf]
  | @cr text plain =>
      rcases Nat.exists_eq_add_of_le enough with ⟨more, rfl⟩
      rw [lineText_append plain (by decide)]
      have notLf : rest.head? ≠ some lf := by simpa [Glued] using apart
      have sizes : (text ++ [cr]).length + more = text.length + (more + 1) := by
        simp only [List.length_append, List.length_cons, List.length_nil]
        omega
      rw [nextLine, sizes, List.append_assoc, nextLineLoop_plain plain]
      simp [nextLineLoop_cr more notLf]
  | @lf text plain =>
      rcases Nat.exists_eq_add_of_le enough with ⟨more, rfl⟩
      rw [lineText_append plain (by decide)]
      have sizes : (text ++ [lf]).length + more = text.length + (more + 1) := by
        simp only [List.length_append, List.length_cons, List.length_nil]
        omega
      rw [nextLine, sizes, List.append_assoc, nextLineLoop_plain plain]
      simp [nextLineLoop_lf]

/-- A lone CR takes the LF behind it, even where no byte of the file is left. -/
theorem nextLine_glued {line rest : Bytes} (terminated : Terminated line)
    (glued : Glued line rest) {maxlen : Nat} (enough : line.length ≤ maxlen) :
    nextLine (line ++ rest) maxlen = (line.length + 1, (lineText line).length) := by
  cases terminated with
  | crlf plain => simp [Glued] at glued
  | lf plain => simp [Glued] at glued
  | @cr text plain =>
      cases rest with
      | nil => simp [Glued] at glued
      | cons next rest =>
          have isLf : next = lf := by simpa [Glued] using glued
          subst isLf
          rcases Nat.exists_eq_add_of_le enough with ⟨more, rfl⟩
          rw [lineText_append plain (by decide)]
          have sizes : (text ++ [cr]).length + more = text.length + (more + 1) := by
            simp only [List.length_append, List.length_cons, List.length_nil]
            omega
          rw [nextLine, sizes, List.append_assoc, nextLineLoop_plain plain]
          simp [nextLineLoop_cr_lf]

/-- A last line without terminator is taken up to the end of the file. -/
theorem nextLine_plain {line : Bytes} (plain : Plain line) (rest : Bytes) :
    nextLine (line ++ rest) line.length = (line.length, (lineText line).length) := by
  have whole := nextLineLoop_plain plain rest 0 false
  rw [Nat.add_zero] at whole
  rw [nextLine, whole, lineText, body_of_plain plain]
  simp [nextLineLoop]

/-! ## `find_line` -/

/-- How far the scan of the last line reaches past the end of the file. -/
def overrun (file behind : Bytes) : Nat := if Glued file behind then 1 else 0

theorem overrun_nil (behind : Bytes) : overrun [] behind = 0 := by
  simp [overrun, Glued]

/-- The lines behind `line` decide whether its scan can leave the file. -/
def overrunAt (line : Bytes) (rest : List Bytes) (behind : Bytes) : Nat :=
  if rest = [] then overrun line behind else 0

theorem nextLine_canonical {line : Bytes} {rest : List Bytes}
    (canonical : Canonical (line :: rest)) (behind : Bytes) :
    nextLine ((line :: rest).flatten ++ behind) (line :: rest).flatten.length =
      (line.length + overrunAt line rest behind, (lineText line).length) := by
  cases canonical with
  | last nonempty plain =>
      have open_ : ¬Glued line behind := by
        intro glued
        have last := List.mem_of_getLast? glued.1
        exact absurd rfl (plain cr last).1
      simpa [overrunAt, overrun, open_] using nextLine_plain plain behind
  | cons terminated apart canonical =>
      rw [List.flatten_cons, List.append_assoc]
      have enough : line.length ≤ (line ++ rest.flatten).length := by simp
      cases rest with
      | nil =>
          by_cases glued : Glued line behind
          · simpa [overrunAt, overrun, glued] using nextLine_glued terminated glued enough
          · simpa [overrunAt, overrun, glued] using
              nextLine_terminated terminated glued enough
      | cons second more =>
          have nonempty := canonical.flatten_ne_nil (List.cons_ne_nil second more)
          have apartAll : ¬Glued line ((second :: more).flatten ++ behind) := by
            intro glued
            rw [Glued, List.head?_append_of_ne_nil _ nonempty] at glued
            exact apart glued
          simpa [overrunAt] using nextLine_terminated terminated apartAll enough

/-! ## Taking one line after the other -/

section Taking

variable {line : Bytes} {rest : List Bytes}

/-- What a loop over lines meets when it takes the first of several lines. -/
structure TakesMore (line : Bytes) (rest : List Bytes) (behind : Bytes) : Prop where
  noOverrun : overrunAt line rest behind = 0
  size : ((line :: rest).flatten.length : Int) - (line.length : Nat) =
    (rest.flatten.length : Nat)
  after : ((line :: rest).flatten ++ behind).drop line.length = rest.flatten ++ behind
  goOn : 0 < (rest.flatten.length : Int) ∧ 0 < line.length

theorem takesMore (canonical : Canonical (line :: rest)) (more : rest ≠ []) (behind : Bytes) :
    TakesMore line rest behind where
  noOverrun := by simp [overrunAt, more]
  size := by
    rw [List.flatten_cons, List.length_append]
    omega
  after := by rw [List.flatten_cons, List.append_assoc, List.drop_left]
  goOn := by
    have linePos := List.length_pos_of_ne_nil (canonical.lined.ne_nil line (by simp))
    have restPos := List.length_pos_of_ne_nil (canonical.tail.flatten_ne_nil more)
    omega

/-- The loop stops behind the last line. -/
theorem takesLast (line behind : Bytes) :
    ¬(0 < (([line].flatten.length : Nat) : Int) -
        ((line.length + overrunAt line [] behind : Nat) : Int) ∧
      0 < line.length + overrunAt line [] behind) := by
  simp only [List.flatten_cons, List.flatten_nil, List.append_nil]
  omega

/-- What `find_line` has in `linebuf`. -/
theorem take_lineText (line : Bytes) (rest : List Bytes) (behind : Bytes) :
    ((line :: rest).flatten ++ behind).take (min (lineText line).length 511) =
      (lineText line).take 511 := by
  have isPrefix : lineText line <+: (line :: rest).flatten ++ behind := by
    rw [List.flatten_cons, List.append_assoc]
    exact (lineText_isPrefix line).trans (List.prefix_append line _)
  conv_rhs => rw [List.prefix_iff_eq_take.mp isPrefix]
  rw [List.take_take, Nat.min_comm]

/-- A buffer ends as its last lines do. -/
theorem getLast?_flatten_cons (nonempty : rest.flatten ≠ []) :
    (line :: rest).flatten.getLast? = rest.flatten.getLast? := by
  rw [List.flatten_cons, List.getLast?_append_of_ne_nil _ nonempty]

theorem overrun_flatten_cons (nonempty : rest.flatten ≠ []) (behind : Bytes) :
    overrun (line :: rest).flatten behind = overrun rest.flatten behind := by
  have sameGlue : Glued (line :: rest).flatten behind ↔ Glued rest.flatten behind := by
    simp only [Glued, getLast?_flatten_cons nonempty]
  simp only [overrun, sameGlue]

end Taking

/-! ## The loop of `find_line` -/

/-- One turn of the loop at the first of the lines that are left. -/
theorem findLineLoop_canonical {key : Bytes} (noNul : 0 ∉ key) {line : Bytes}
    {rest : List Bytes} (canonical : Canonical (line :: rest)) (behind : Bytes)
    (fuel offset : Nat) :
    findLineLoop key (fuel + 1) ((line :: rest).flatten ++ behind) offset
        (line :: rest).flatten.length =
      if Shows key line then
        ⟨offset, rest.flatten.length - overrunAt line rest behind,
          line.length + overrunAt line rest behind⟩
      else if rest = [] then
        ⟨offset + line.length + overrunAt line rest behind,
          -overrunAt line rest behind, line.length + overrunAt line rest behind⟩
      else
        findLineLoop key fuel (rest.flatten ++ behind) (offset + line.length)
          rest.flatten.length := by
  have first := nextLine_canonical canonical behind
  have linebuf := take_lineText line rest behind
  have size : ((line :: rest).flatten.length : Int) -
      ((line.length + overrunAt line rest behind : Nat) : Int) =
      rest.flatten.length - overrunAt line rest behind := by
    simp only [List.flatten_cons, List.length_append]
    omega
  rw [findLineLoop]
  simp only [Int.toNat_natCast, first, linebuf, findStr_isSome noNul, size]
  by_cases shows : Shows key line
  · simp [Shows] at shows
    simp [Shows, shows]
  · have fails : ¬key <+: skipWhite ((lineText line).take 511) := shows
    simp only [if_neg fails, if_neg shows]
    by_cases last : rest = []
    · subst last
      simp [Nat.add_assoc]
    · have takes := takesMore canonical last behind
      simp only [takes.noOverrun, if_neg last, Nat.add_zero, Int.natCast_zero, Int.sub_zero,
        if_pos takes.goOn, takes.after]

theorem findLineLoop_found {key : Bytes} (noNul : 0 ∉ key) {line : Bytes}
    {back : List Bytes} (shows : Shows key line) (behind : Bytes) :
    ∀ (front : List Bytes), Canonical (front ++ line :: back) →
    (∀ earlier ∈ front, ¬Shows key earlier) → ∀ (fuel offset : Nat),
    front.length < fuel →
    findLineLoop key fuel ((front ++ line :: back).flatten ++ behind) offset
        (front ++ line :: back).flatten.length =
      ⟨offset + front.flatten.length, back.flatten.length - overrunAt line back behind,
        line.length + overrunAt line back behind⟩
  | [], canonical, _, fuel + 1, offset, _ => by
      rw [List.nil_append, findLineLoop_canonical noNul canonical behind fuel offset,
        if_pos shows]
      rfl
  | first :: front, canonical, fails, fuel + 1, offset, enough => by
      have notHere : ¬Shows key first := fails first (by simp)
      have more : front ++ line :: back ≠ [] := by simp
      have whole : Canonical (first :: (front ++ line :: back)) := canonical
      have tail : Canonical (front ++ line :: back) := whole.tail
      have induction := findLineLoop_found noNul shows behind front tail
        (fun earlier member => fails earlier (List.mem_cons_of_mem first member)) fuel
        (offset + first.length) (by simpa using enough)
      have step := findLineLoop_canonical noNul whole behind fuel offset
      rw [if_neg notHere, if_neg more] at step
      refine step.trans (induction.trans ?_)
      simp [Nat.add_assoc]

theorem findLineLoop_missing {key : Bytes} (noNul : 0 ∉ key) (behind : Bytes) :
    ∀ {ls : List Bytes}, Canonical ls → ls ≠ [] →
    (∀ line ∈ ls, ¬Shows key line) → ∀ (fuel offset : Nat), ls.length ≤ fuel →
    ∃ linesize, findLineLoop key fuel (ls.flatten ++ behind) offset ls.flatten.length =
      ⟨offset + ls.flatten.length + overrun ls.flatten behind,
        -overrun ls.flatten behind, linesize⟩
  | [], _, nonempty, _, _, _, _ => absurd rfl nonempty
  | line :: rest, canonical, _, fails, fuel + 1, offset, enough => by
      have notHere : ¬Shows key line := fails line (by simp)
      rw [findLineLoop_canonical noNul canonical behind fuel offset, if_neg notHere]
      cases rest with
      | nil =>
          refine ⟨line.length + overrun line behind, ?_⟩
          simp [overrunAt]
      | cons second more =>
          have tail : Canonical (second :: more) := canonical.tail
          have induction := findLineLoop_missing noNul behind tail (by simp)
            (fun other member => fails other (List.mem_cons_of_mem line member)) fuel
            (offset + line.length) (by simpa using enough)
          rcases induction with ⟨linesize, found⟩
          refine ⟨linesize, ?_⟩
          have nonempty := tail.flatten_ne_nil (List.cons_ne_nil second more)
          rw [if_neg (List.cons_ne_nil _ _), found, overrun_flatten_cons nonempty]
          simp [Nat.add_assoc]

/-- No file has more lines than bytes. -/
theorem lines_length_le (file : Bytes) : (lines file).length ≤ file.length := by
  have whole := congrArg List.length (lines_flatten file)
  rw [List.length_flatten] at whole
  rw [← whole]
  calc (lines file).length = ((lines file).map fun _ => 1).sum := by simp
    _ ≤ ((lines file).map List.length).sum := by
        apply List.sum_le_sum
        intro line member
        exact List.length_pos_of_ne_nil ((lines_lined file).ne_nil line member)

variable {file key : Bytes} {ls front back : List Bytes} {line : Bytes} (behind : Bytes)

/-- `find_line` stops at the first line that shows the key. -/
theorem findLine_found (noNul : 0 ∉ key) (split : lines file = front ++ line :: back)
    (shows : Shows key line) (fails : ∀ earlier ∈ front, ¬Shows key earlier) :
    findLine (file ++ behind) key file.length =
      ⟨front.flatten.length, back.flatten.length - overrunAt line back behind,
        line.length + overrunAt line back behind⟩ := by
  have canonical := lines_canonical file
  rw [split] at canonical
  have whole : (front ++ line :: back).flatten = file := by rw [← split, lines_flatten]
  have enough : front.length < file.length := by
    have bound := lines_length_le file
    rw [split] at bound
    simp only [List.length_append, List.length_cons] at bound
    omega
  have found := findLineLoop_found noNul shows behind front canonical fails file.length 0
    enough
  rw [whole, Nat.zero_add] at found
  exact found

/-- Without such a line it reaches the end of the file and, where a CR is glued
to an LF of the heap, one byte more. -/
theorem findLine_missing (noNul : 0 ∉ key) (nonempty : key ≠ [])
    (fails : ∀ line ∈ lines file, ¬Shows key line) :
    ∃ linesize, findLine (file ++ behind) key file.length =
      ⟨file.length + overrun file behind, -overrun file behind, linesize⟩ := by
  by_cases empty : file = []
  · subst empty
    have notHere : ¬key <+: skipWhite [] := by simpa [skipWhite] using nonempty
    refine ⟨0, ?_⟩
    simp [findLine, findLineLoop, nextLine, nextLineLoop, overrun_nil,
      findStr_isSome noNul, notHere]
  · have more : lines file ≠ [] := fun none => empty (lines_eq_nil.mp none)
    have missing := findLineLoop_missing noNul behind (lines_canonical file) more fails
      file.length 0 (lines_length_le file)
    simp only [lines_flatten, Nat.zero_add] at missing
    exact missing

/-! ## `remove_line` -/

/-- No line before the last one shows the key. On the last line `find_line`
leaves no bytes behind the match, which `remove_line` takes for no match. -/
def HiddenIn (key : Bytes) (ls : List Bytes) : Prop := ∀ line ∈ ls.dropLast, ¬Shows key line

instance (key : Bytes) (ls : List Bytes) : Decidable (HiddenIn key ls) :=
  inferInstanceAs (Decidable (∀ line ∈ ls.dropLast, ¬Shows key line))

/-- `line` is the first of the lines that shows the key, and not the last line. -/
structure Cut (key : Bytes) (ls front : List Bytes) (line : Bytes) (back : List Bytes) :
    Prop where
  split : ls = front ++ line :: back
  shows : Shows key line
  first : ∀ earlier ∈ front, ¬Shows key earlier
  more : back ≠ []

/-- Cut the lines at the first one that shows the key, unless it is the last. -/
def cutLine (key : Bytes) (ls : List Bytes) : Option (List Bytes × Bytes × List Bytes) :=
  (splitFirst (Shows key) ls).filter fun parts => parts.2.2 ≠ []

theorem cutLine_eq_some {key : Bytes} {ls front back : List Bytes} {line : Bytes} :
    cutLine key ls = some (front, line, back) ↔ Cut key ls front line back := by
  rw [cutLine, Option.filter_eq_some_iff, splitFirst_eq_some, decide_eq_true_eq]
  constructor
  · intro found
    exact ⟨found.1.1, found.1.2.1, found.1.2.2, found.2⟩
  · intro cut
    exact ⟨⟨cut.split, cut.shows, cut.first⟩, cut.more⟩

theorem cutLine_eq_none {key : Bytes} {ls : List Bytes} :
    cutLine key ls = none ↔ HiddenIn key ls := by
  rw [cutLine, Option.filter_eq_none_iff]
  constructor
  · intro none line member shows
    rcases splitFirst_cases (Shows key) ls with fails | found
    · exact fails line (List.mem_of_mem_dropLast member) shows
    · rcases found with ⟨front, found, back, split, foundShows, fails⟩
      have isLast : back = [] := by
        simpa using none _ (splitFirst_eq_some.mpr ⟨split, foundShows, fails⟩)
      subst isLast
      exact fails line (by simpa [split] using member) shows
  · intro hidden parts result
    rcases parts with ⟨front, line, back⟩
    rcases splitFirst_eq_some.mp result with ⟨split, shows, _⟩
    by_contra more
    apply hidden line ?_ shows
    rw [split, List.dropLast_append_of_ne_nil (by simp),
      List.dropLast_cons_of_ne_nil (by simpa using more)]
    simp

theorem exists_cut_iff {condition : List Bytes → Bytes → List Bytes → Prop} :
    (∃ front line back, Cut key ls front line back ∧ condition front line back) ↔
      match cutLine key ls with
      | none => False
      | some (front, line, back) => condition front line back := by
  cases search : cutLine key ls with
  | none =>
      simp only [iff_false]
      intro found
      rcases found with ⟨front, line, back, cut, _⟩
      rw [cutLine_eq_some.mpr cut] at search
      cases search
  | some parts =>
      rcases parts with ⟨front, line, back⟩
      constructor
      · intro found
        rcases found with ⟨front', line', back', cut, holds⟩
        rw [cutLine_eq_some.mpr cut] at search
        cases search
        exact holds
      · intro holds
        exact ⟨front, line, back, cutLine_eq_some.mp search, holds⟩

/-- Another line without the key in place of one makes no difference. -/
theorem Cut.replace {before after cutFront cutBack : List Bytes} {old new : Bytes}
    (cut : Cut key (before ++ old :: after) cutFront line cutBack) (notOld : ¬Shows key old)
    (notNew : ¬Shows key new) :
    ∃ cutFront' cutBack', Cut key (before ++ new :: after) cutFront' line cutBack' := by
  rcases List.append_eq_append_iff.mp cut.split with ⟨gap, left, right⟩ | ⟨gap, left, right⟩
  · cases gap with
    | nil =>
        have same : old = line := by simp_all
        exact absurd (same ▸ cut.shows) notOld
    | cons value gap =>
        rw [List.cons_append, List.cons.injEq] at right
        refine ⟨before ++ new :: gap, cutBack, by simp [right.2], cut.shows, ?_, cut.more⟩
        intro earlier member
        rcases List.mem_append.mp member with member | member
        · exact cut.first earlier (by simp [left, member])
        rcases List.mem_cons.mp member with rfl | member
        · exact notNew
        · exact cut.first earlier (by simp [left, member])
  · cases gap with
    | nil =>
        have same : line = old := by simp_all
        exact absurd (same ▸ cut.shows) notOld
    | cons value gap =>
        rw [List.cons_append, List.cons.injEq] at right
        exact ⟨cutFront, gap ++ new :: after, by simp [left, right.1], cut.shows, cut.first,
          by simp⟩

/-- The line that is cut has a terminator. -/
theorem Cut.terminated (cut : Cut key (lines file) front line back) : Terminated line := by
  rcases List.exists_cons_of_ne_nil cut.more with ⟨next, rest, isCons⟩
  have lined := lines_lined file
  rw [cut.split, isCons] at lined
  exact lined.terminated

/-- The key is shorter than the line, by its terminator at least. -/
theorem Cut.length_lt (cut : Cut key (lines file) front line back) :
    key.length < line.length := by
  have inBody := cut.shows.startsWith.length_le_body
  have rest : (body line).length < line.length := by
    cases cut.terminated with
    | crlf plain | cr plain | lf plain =>
        rw [body_plain_append plain]
        simp [body]
  omega

theorem Cut.back_pos (cut : Cut key (lines file) front line back) :
    0 < (back.flatten.length : Int) := by
  have lined := lines_lined file
  rw [cut.split] at lined
  have positive : 0 < back.flatten.length := List.length_pos_of_ne_nil fun empty =>
    cut.more (lined.append_right.tail.flatten_eq_nil.mp empty)
  omega

theorem findLine_cut (noNul : 0 ∉ key) (cut : Cut key (lines file) front line back) :
    findLine (file ++ behind) key file.length =
      ⟨front.flatten.length, back.flatten.length, line.length⟩ := by
  rw [findLine_found behind noNul cut.split cut.shows cut.first]
  simp [overrunAt, cut.more]

/-- Where the key is hidden no byte remains, or the scan has left the file. -/
theorem findLine_hidden (noNul : 0 ∉ key) (nonempty : key ≠ [])
    (hidden : HiddenIn key (lines file)) :
    (findLine (file ++ behind) key file.length).remain = -(overrun file behind : Int) := by
  rcases splitFirst_cases (Shows key) (lines file) with fails | match_
  · rcases findLine_missing behind noNul nonempty fails with ⟨_, missing⟩
    rw [missing]
  · rcases match_ with ⟨front, line, back, split, shows, fails⟩
    have isLast : back = [] := by
      by_contra more
      apply hidden line ?_ shows
      rw [split, List.dropLast_append_of_ne_nil (by simp),
        List.dropLast_cons_of_ne_nil more]
      simp
    subst isLast
    have sameEnd : overrun file behind = overrun line behind := by
      have lineNonempty := (lines_lined file).ne_nil line (by simp [split])
      have flat := congrArg List.flatten split
      rw [lines_flatten] at flat
      have sameGlue : Glued file behind ↔ Glued line behind := by
        rw [flat]
        simp only [Glued, List.flatten_append, List.flatten_cons, List.flatten_nil,
          List.append_nil]
        rw [List.getLast?_append_of_ne_nil _ lineNonempty]
      simp only [overrun, sameGlue]
    rw [findLine_found behind noNul split shows fails, sameEnd]
    simp [overrunAt]

/-- The last bytes of a file stay in memory when a line of it is moved away. -/
def staleTail (file line : Bytes) : Bytes := file.drop (file.length - line.length)

theorem removeLine_cut (noNul : 0 ∉ key) (cut : Cut key (lines file) front line back) :
    removeLine (file ++ behind) key file.length =
      .done (some {
        memory := (front.flatten ++ back.flatten) ++ (staleTail file line ++ behind)
        newsize := (front.flatten ++ back.flatten).length
        offset := front.flatten.length }) := by
  have found := findLine_cut behind noNul cut
  have remains := cut.back_pos
  rcases cut with ⟨split, shows, fails, more⟩
  have whole : front.flatten ++ (line ++ back.flatten) = file := by
    have flat := congrArg List.flatten split
    rw [lines_flatten] at flat
    simp [flat]
  have notZero : ¬(back.flatten.length : Int) = 0 := by omega
  have notNegative : ¬(back.flatten.length : Int) < 0 := by omega
  rw [removeLine]
  rw [found]
  simp only [if_neg notZero, if_neg notNegative, Int.toNat_natCast]
  have size : file.length = front.flatten.length + (line.length + back.flatten.length) := by
    rw [← whole]
    simp only [List.length_append]
  have before : (file ++ behind).take front.flatten.length = front.flatten := by
    rw [← whole, List.append_assoc, List.take_left]
  have moved : ((file ++ behind).drop (front.flatten.length + line.length)).take
      back.flatten.length = back.flatten := by
    rw [← whole, ← List.append_assoc, List.append_assoc, ← List.length_append,
      List.drop_left, List.take_left]
  have kept : (file ++ behind).drop (front.flatten.length + back.flatten.length) =
      staleTail file line ++ behind := by
    have place : file.length - line.length =
        front.flatten.length + back.flatten.length := by omega
    rw [staleTail, place, List.drop_append_of_le_length (by omega)]
  rw [before, moved, kept, List.length_append, size]
  have newsize : front.flatten.length + (line.length + back.flatten.length) - line.length =
      front.flatten.length + back.flatten.length := by omega
  rw [newsize]

/-- Without such a line nothing is removed; where the scan leaves the file, the
count of remaining bytes is -1 and the move runs wild. -/
theorem removeLine_hidden (noNul : 0 ∉ key) (nonempty : key ≠ [])
    (hidden : HiddenIn key (lines file)) :
    removeLine (file ++ behind) key file.length =
      if Glued file behind then .wild else .done none := by
  have remain := findLine_hidden behind noNul nonempty hidden
  rw [removeLine]
  simp only [remain]
  by_cases glued : Glued file behind
  · simp [overrun, glued]
  · simp [overrun, glued]

end Chgres
