import Mathlib

/-! # Text lines with mixed line endings

A byte string is read as a sequence of lines. A line ends with CR LF, with a
lone CR or with LF, and only the last line may lack a terminator. Nothing here
depends on the program that reads the text.
-/

namespace Chgres.Text

abbrev Byte := UInt8

abbrev Bytes := List Byte

/-- The bytes of an ASCII string. -/
def ascii (text : String) : Bytes := text.toList.map fun char => char.toNat.toUInt8

def cr : Byte := 0x0d

def lf : Byte := 0x0a

def crlf : Bytes := [cr, lf]

@[simp] theorem lf_ne_cr : lf ≠ cr := by decide

@[simp] theorem cr_ne_lf : cr ≠ lf := by decide

/-! ## Splitting into lines -/

/-- Put a byte in front of the first line. -/
def extendFirst (byte : Byte) : List Bytes → List Bytes
  | [] => [[byte]]
  | line :: rest => (byte :: line) :: rest

/-- The lines of a text, each with its terminator. -/
def lines : Bytes → List Bytes
  | [] => []
  | [byte] => [[byte]]
  | byte :: next :: rest =>
      if byte = cr ∧ next = lf then [byte, next] :: lines rest
      else if byte = cr ∨ byte = lf then [byte] :: lines (next :: rest)
      else extendFirst byte (lines (next :: rest))

/-- All three terminators end a line; CR LF counts once. -/
example : lines (ascii "a\r\nb\rc\nd") =
    [ascii "a\r\n", ascii "b\r", ascii "c\n", ascii "d"] := by decide

@[simp] theorem lines_nil : lines [] = [] := rfl

@[simp] theorem extendFirst_flatten (byte : Byte) (ls : List Bytes) :
    (extendFirst byte ls).flatten = byte :: ls.flatten := by
  cases ls <;> rfl

@[simp] theorem lines_flatten : ∀ text : Bytes, (lines text).flatten = text
  | [] => rfl
  | [_] => rfl
  | byte :: next :: rest => by
      have shorter := lines_flatten rest
      have longer := lines_flatten (next :: rest)
      rw [lines]
      split_ifs <;> simp [shorter, longer]

theorem lines_injective : Function.Injective lines := by
  intro left right equal
  rw [← lines_flatten left, ← lines_flatten right, equal]

@[simp] theorem lines_eq_nil {text : Bytes} : lines text = [] ↔ text = [] := by
  constructor
  · intro empty
    rw [← lines_flatten text, empty]
    rfl
  · rintro rfl
    rfl

/-- No terminator byte occurs. -/
def Plain (text : Bytes) : Prop := ∀ byte ∈ text, byte ≠ cr ∧ byte ≠ lf

instance (text : Bytes) : Decidable (Plain text) := by
  rw [Plain]
  infer_instance

/-- A line with its terminator. -/
inductive Terminated : Bytes → Prop
  | crlf {text : Bytes} (plain : Plain text) : Terminated (text ++ [cr, lf])
  | cr {text : Bytes} (plain : Plain text) : Terminated (text ++ [cr])
  | lf {text : Bytes} (plain : Plain text) : Terminated (text ++ [lf])

/-- A sequence of lines: only the last one may lack its terminator. -/
inductive Lined : List Bytes → Prop
  | nil : Lined []
  | last {line : Bytes} (nonempty : line ≠ []) (plain : Plain line) : Lined [line]
  | cons {line : Bytes} {rest : List Bytes} (terminated : Terminated line)
      (lined : Lined rest) : Lined (line :: rest)

theorem Plain.nil : Plain [] := by simp [Plain]

theorem Plain.cons {byte : Byte} {text : Bytes} (notCr : byte ≠ Text.cr)
    (notLf : byte ≠ Text.lf) (plain : Plain text) : Plain (byte :: text) := by
  intro other member
  rcases List.mem_cons.mp member with rfl | member
  · exact ⟨notCr, notLf⟩
  · exact plain other member

theorem Plain.append {left right : Bytes} (plainLeft : Plain left)
    (plainRight : Plain right) : Plain (left ++ right) := by
  intro byte member
  rcases List.mem_append.mp member with member | member
  · exact plainLeft byte member
  · exact plainRight byte member

theorem terminated_crlf : Terminated [Text.cr, Text.lf] :=
  Terminated.crlf Plain.nil

theorem terminated_cr : Terminated [Text.cr] :=
  Terminated.cr Plain.nil

theorem terminated_lf : Terminated [Text.lf] :=
  Terminated.lf Plain.nil

theorem Terminated.extend {byte : Byte} {line : Bytes} (notCr : byte ≠ Text.cr)
    (notLf : byte ≠ Text.lf) (terminated : Terminated line) :
    Terminated (byte :: line) := by
  cases terminated with
  | crlf plain => exact .crlf (plain.cons notCr notLf)
  | cr plain => exact .cr (plain.cons notCr notLf)
  | lf plain => exact .lf (plain.cons notCr notLf)

theorem Terminated.ne_nil {line : Bytes} (terminated : Terminated line) :
    line ≠ [] := by
  cases terminated <;> simp

theorem Terminated.getLast? {line : Bytes} (terminated : Terminated line) :
    line.getLast? = some Text.cr ∨ line.getLast? = some Text.lf := by
  cases terminated <;> simp

theorem Lined.ne_nil {ls : List Bytes} (lined : Lined ls) :
    ∀ line ∈ ls, line ≠ [] := by
  induction lined with
  | nil => simp
  | last nonempty plain => simpa using nonempty
  | cons terminated lined induction =>
      intro line member
      rcases List.mem_cons.mp member with rfl | member
      · exact terminated.ne_nil
      · exact induction line member

theorem Lined.flatten_eq_nil {ls : List Bytes} (lined : Lined ls) :
    ls.flatten = [] ↔ ls = [] := by
  constructor
  · intro empty
    cases ls with
    | nil => rfl
    | cons line rest =>
        have lineEmpty : line = [] := by simpa using (List.flatten_eq_nil_iff.mp empty) line
        exact absurd lineEmpty (lined.ne_nil line (by simp))
  · rintro rfl
    rfl

/-! ## Joining texts -/

/-- The text ends where a line ends. -/
def Closed (text : Bytes) : Prop :=
  text = [] ∨ text.getLast? = some cr ∨ text.getLast? = some lf

/-- A CR at the end of `left` and an LF at the start of `right` become one
terminator when the two are joined. -/
def Glued (left right : Bytes) : Prop :=
  left.getLast? = some cr ∧ right.head? = some lf

instance (left right : Bytes) : Decidable (Glued left right) :=
  inferInstanceAs (Decidable (_ ∧ _))

theorem Terminated.closed {line : Bytes} (terminated : Terminated line) :
    Closed line :=
  .inr terminated.getLast?

theorem extendFirst_append (byte : Byte) {ls : List Bytes} (nonempty : ls ≠ [])
    (more : List Bytes) :
    extendFirst byte (ls ++ more) = extendFirst byte ls ++ more := by
  cases ls with
  | nil => exact absurd rfl nonempty
  | cons line rest => rfl

/-- Texts joined at a line end keep their lines, unless a CR meets an LF. -/
theorem lines_append : ∀ {left right : Bytes}, Closed left → ¬Glued left right →
    lines (left ++ right) = lines left ++ lines right
  | [], right, _, _ => rfl
  | [byte], right, closed, apart => by
      have ends : byte = cr ∨ byte = lf := by simpa [Closed] using closed
      cases right with
      | nil => rfl
      | cons next rest =>
          have notPair : ¬(byte = cr ∧ next = lf) := by simpa [Glued] using apart
          simp [lines, notPair, ends]
  | byte :: next :: rest, right, closed, apart => by
      have closedTail : Closed (next :: rest) := by
        rcases closed with empty | ends
        · cases empty
        · exact .inr (by simpa using ends)
      have apartTail : ¬Glued (next :: rest) right := by
        simpa [Glued] using apart
      have tail := lines_append closedTail apartTail
      by_cases pair : byte = cr ∧ next = lf
      · have closedRest : Closed rest := by
          cases rest with
          | nil => exact .inl rfl
          | cons first more =>
              rcases closedTail with empty | ends
              · cases empty
              · exact .inr (by simpa using ends)
        have apartRest : ¬Glued rest right := by
          cases rest with
          | nil => simp [Glued]
          | cons first more => simpa [Glued] using apartTail
        have shorter := lines_append closedRest apartRest
        simp only [List.cons_append, lines, if_pos pair, shorter]
      · by_cases single : byte = cr ∨ byte = lf
        · simp only [List.cons_append, lines, if_neg pair, if_pos single]
          simpa using tail
        · simp only [List.cons_append, lines, if_neg pair, if_neg single]
          rw [← List.cons_append, tail]
          exact extendFirst_append byte (by simp) _

theorem lines_of_plain : ∀ {text : Bytes}, text ≠ [] → Plain text →
    lines text = [text]
  | [], nonempty, _ => absurd rfl nonempty
  | [byte], _, _ => rfl
  | byte :: next :: rest, _, plain => by
      have first := plain byte (by simp)
      have tail : lines (next :: rest) = [next :: rest] :=
        lines_of_plain (by simp) fun other member =>
          plain other (List.mem_cons_of_mem byte member)
      simp [lines, first.1, first.2, tail, extendFirst]

theorem lines_plain_append : ∀ {text : Bytes}, Plain text →
    ∀ {ending : Bytes}, ending ≠ [] → lines ending = [ending] →
    lines (text ++ ending) = [text ++ ending]
  | [], _, _, _, whole => whole
  | byte :: rest, plain, ending, nonempty, whole => by
      have first := plain byte (by simp)
      have tail : lines (rest ++ ending) = [rest ++ ending] :=
        lines_plain_append (fun other member =>
          plain other (List.mem_cons_of_mem byte member)) nonempty whole
      cases joined : rest ++ ending with
      | nil => simp [nonempty] at joined
      | cons next more =>
          rw [joined] at tail
          simp [lines, joined, first.1, first.2, tail, extendFirst]

theorem lines_of_terminated {line : Bytes} (terminated : Terminated line) :
    lines line = [line] := by
  cases terminated with
  | crlf plain => exact lines_plain_append plain (by simp) (by decide)
  | cr plain => exact lines_plain_append plain (by simp) (by decide)
  | lf plain => exact lines_plain_append plain (by simp) (by decide)

/-- A terminated line in front of a text is its first line. -/
theorem lines_terminated_append {line rest : Bytes} (terminated : Terminated line)
    (apart : ¬Glued line rest) : lines (line ++ rest) = line :: lines rest := by
  rw [lines_append terminated.closed apart, lines_of_terminated terminated]
  rfl

/-- A lone CR followed by LF is completed to one terminator. -/
theorem Terminated.completed {line : Bytes} (terminated : Terminated line)
    (loneCr : line.getLast? = some Text.cr) : Terminated (line ++ [Text.lf]) := by
  cases terminated with
  | crlf plain => simp at loneCr
  | @cr text plain =>
      rw [List.append_assoc]
      exact .crlf plain
  | lf plain => simp at loneCr

theorem not_glued_of_lf {line rest : Bytes} : ¬Glued (line ++ [lf]) rest := by
  simp [Glued]

/-! ## Canonical sequences -/

/-- A sequence of lines that splitting their concatenation gives back: no line
ends in a lone CR in front of an LF. -/
inductive Canonical : List Bytes → Prop
  | nil : Canonical []
  | last {line : Bytes} (nonempty : line ≠ []) (plain : Plain line) : Canonical [line]
  | cons {line : Bytes} {rest : List Bytes} (terminated : Terminated line)
      (apart : ¬Glued line rest.flatten) (canonical : Canonical rest) :
      Canonical (line :: rest)

theorem Canonical.lined {ls : List Bytes} (canonical : Canonical ls) : Lined ls := by
  induction canonical with
  | nil => exact .nil
  | last nonempty plain => exact .last nonempty plain
  | cons terminated _ _ induction => exact .cons terminated induction

theorem Canonical.tail {line : Bytes} {rest : List Bytes}
    (canonical : Canonical (line :: rest)) : Canonical rest := by
  cases canonical with
  | last _ _ => exact .nil
  | cons _ _ canonical => exact canonical

theorem Canonical.flatten_ne_nil {ls : List Bytes} (canonical : Canonical ls)
    (nonempty : ls ≠ []) : ls.flatten ≠ [] := fun empty =>
  nonempty (canonical.lined.flatten_eq_nil.mp empty)

theorem Canonical.append_left : ∀ {front back : List Bytes},
    Canonical (front ++ back) → Canonical front
  | [], _, _ => .nil
  | line :: rest, back, canonical => by
      have whole : Canonical (line :: (rest ++ back)) := canonical
      generalize joined : rest ++ back = more at whole
      cases whole with
      | last nonempty plain =>
          rw [(List.append_eq_nil_iff.mp joined).1]
          exact .last nonempty plain
      | cons terminated apart tail =>
          subst joined
          refine .cons terminated ?_ tail.append_left
          intro glued
          have nonempty : rest.flatten ≠ [] := by
            intro empty
            simp [Glued, empty] at glued
          apply apart
          rw [Glued, List.flatten_append, List.head?_append_of_ne_nil _ nonempty]
          exact glued

theorem Canonical.append_right {front back : List Bytes}
    (canonical : Canonical (front ++ back)) : Canonical back := by
  induction front with
  | nil => exact canonical
  | cons line rest induction => exact induction canonical.tail

theorem Canonical.extendFirst {byte : Byte} {ls : List Bytes} (notCr : byte ≠ Text.cr)
    (notLf : byte ≠ Text.lf) (canonical : Canonical ls) :
    Canonical (extendFirst byte ls) := by
  cases canonical with
  | nil => exact .last (by simp) (Plain.nil.cons notCr notLf)
  | last nonempty plain => exact .last (by simp) (plain.cons notCr notLf)
  | @cons line rest terminated apart canonical =>
      refine .cons (terminated.extend notCr notLf) ?_ canonical
      rcases List.exists_cons_of_ne_nil terminated.ne_nil with ⟨first, more, rfl⟩
      simpa [Glued] using apart

theorem lines_canonical : ∀ text : Bytes, Canonical (lines text)
  | [] => .nil
  | [byte] => by
      by_cases isCr : byte = cr
      · subst isCr
        exact .cons terminated_cr (by simp [Glued]) .nil
      by_cases isLf : byte = lf
      · subst isLf
        exact .cons terminated_lf (by simp [Glued]) .nil
      exact .last (by simp) (Plain.nil.cons isCr isLf)
  | byte :: next :: rest => by
      rw [lines]
      split_ifs with crlf single
      · rcases crlf with ⟨rfl, rfl⟩
        exact .cons terminated_crlf (by simp [Glued])
          (lines_canonical rest)
      · rcases single with rfl | rfl
        · exact .cons terminated_cr (by simpa [Glued] using crlf)
            (lines_canonical (next :: rest))
        · exact .cons terminated_lf (by simp [Glued])
            (lines_canonical (next :: rest))
      · rw [not_or] at single
        exact (lines_canonical (next :: rest)).extendFirst single.1 single.2

theorem lines_lined (text : Bytes) : Lined (lines text) :=
  (lines_canonical text).lined

theorem Canonical.lines_flatten {ls : List Bytes} (canonical : Canonical ls) :
    lines ls.flatten = ls := by
  induction canonical with
  | nil => rfl
  | last nonempty plain => simp [lines_of_plain nonempty plain]
  | cons terminated apart canonical induction =>
      rw [List.flatten_cons, lines_terminated_append terminated apart, induction]

/-- The first lines of a text are the lines of its first part. -/
theorem lines_front {text : Bytes} {front back : List Bytes}
    (split : lines text = front ++ back) : lines front.flatten = front := by
  have canonical := lines_canonical text
  rw [split] at canonical
  exact canonical.append_left.lines_flatten

theorem lines_back {text : Bytes} {front back : List Bytes}
    (split : lines text = front ++ back) : lines back.flatten = back := by
  have canonical := lines_canonical text
  rw [split] at canonical
  exact canonical.append_right.lines_flatten

theorem eq_flatten {text : Bytes} {ls : List Bytes} (split : lines text = ls) :
    text = ls.flatten := by
  rw [← split, Text.lines_flatten]

/-! ## Lined sequences -/

theorem Lined.tail {line : Bytes} {rest : List Bytes} (lined : Lined (line :: rest)) :
    Lined rest := by
  cases lined with
  | last _ _ => exact .nil
  | cons _ lined => exact lined

theorem Lined.append_right {front back : List Bytes} (lined : Lined (front ++ back)) :
    Lined back := by
  induction front with
  | nil => exact lined
  | cons line rest induction => exact induction lined.tail

theorem Lined.head_terminated {line next : Bytes} {back : List Bytes}
    (lined : Lined (line :: next :: back)) : Terminated line := by
  cases lined with
  | cons terminated _ => exact terminated

theorem Lined.terminated {front : List Bytes} {line next : Bytes} {back : List Bytes}
    (lined : Lined (front ++ line :: next :: back)) : Terminated line :=
  lined.append_right.head_terminated

theorem Lined.terminated_front {front : List Bytes} {line : Bytes} {back : List Bytes}
    (lined : Lined (front ++ line :: back)) : ∀ earlier ∈ front, Terminated earlier := by
  induction front with
  | nil => simp
  | cons first rest induction =>
      intro earlier member
      rcases List.mem_cons.mp member with rfl | member
      · cases rest with
        | nil => exact lined.head_terminated
        | cons second more => exact lined.head_terminated
      · exact induction lined.tail earlier member

theorem Lined.terminated_dropLast {ls : List Bytes} (lined : Lined ls) :
    ∀ line ∈ ls.dropLast, Terminated line := by
  rcases List.eq_nil_or_concat ls with rfl | ⟨front, last, rfl⟩
  · simp
  · rw [List.concat_eq_append, List.dropLast_concat]
    rw [List.concat_eq_append] at lined
    exact lined.terminated_front

theorem Lined.terminated_or_plain {ls : List Bytes} (lined : Lined ls) :
    ∀ line ∈ ls, Terminated line ∨ Plain line := by
  induction lined with
  | nil => simp
  | last _ plain =>
      intro line member
      rw [List.mem_singleton.mp member]
      exact .inr plain
  | cons terminated _ induction =>
      intro line member
      rcases List.mem_cons.mp member with rfl | member
      · exact .inl terminated
      · exact induction line member

theorem lined_of_terminated {front back : List Bytes}
    (terminated : ∀ line ∈ front, Terminated line) (lined : Lined back) :
    Lined (front ++ back) := by
  induction front with
  | nil => exact lined
  | cons line rest induction =>
      exact .cons (terminated line (by simp)) (induction fun other member =>
        terminated other (List.mem_cons_of_mem line member))

/-- Taking one line out leaves a sequence of lines. -/
theorem Lined.remove {front : List Bytes} {line : Bytes} {back : List Bytes}
    (lined : Lined (front ++ line :: back)) : Lined (front ++ back) :=
  lined_of_terminated lined.terminated_front lined.append_right.tail

theorem closed_flatten {front : List Bytes}
    (terminated : ∀ line ∈ front, Terminated line) : Closed front.flatten := by
  rcases List.eq_nil_or_concat front with rfl | ⟨before, line, rfl⟩
  · exact .inl rfl
  · have last := terminated line (by simp)
    have nonempty := last.ne_nil
    refine .inr ?_
    simpa [List.getLast?_append, List.getLast?_eq_some_getLast nonempty] using
      last.getLast?

theorem Lined.sublist {ls fewer : List Bytes} (lined : Lined ls)
    (sublist : fewer.Sublist ls) : Lined fewer := by
  induction lined generalizing fewer with
  | nil =>
      rw [List.sublist_nil.mp sublist]
      exact .nil
  | last nonempty plain =>
      cases sublist with
      | cons _ sublist =>
          rw [List.sublist_nil.mp sublist]
          exact .nil
      | cons_cons _ sublist =>
          rw [List.sublist_nil.mp sublist]
          exact .last nonempty plain
  | cons terminated lined induction =>
      cases sublist with
      | cons _ sublist => exact induction sublist
      | cons_cons _ sublist => exact .cons terminated (induction sublist)

/-- The part of a line before its terminator. -/
def body (line : Bytes) : Bytes :=
  line.takeWhile fun byte => byte ≠ cr ∧ byte ≠ lf

theorem body_plain_append {text ending : Bytes} (plain : Plain text) :
    body (text ++ ending) = text ++ body ending := by
  simp only [body]
  rw [List.takeWhile_append_of_pos]
  intro byte member
  simpa using plain byte member

theorem body_of_plain {text : Bytes} (plain : Plain text) : body text = text := by
  have whole : body (text ++ []) = text ++ body [] := body_plain_append plain
  simpa [body] using whole

/-- A line that starts with LF is nothing but that terminator. -/
theorem Terminated.eq_lf {line rest : Bytes} (terminated : Terminated line)
    (starts : (line ++ rest).head? = some Text.lf) : line = [Text.lf] := by
  cases terminated with
  | @crlf text plain | @cr text plain | @lf text plain =>
    cases text with
    | nil => simp_all
    | cons byte more =>
        have first := plain byte (by simp)
        simp [first.2] at starts

theorem Lined.head_eq_lf {line : Bytes} {rest : List Bytes}
    (lined : Lined (line :: rest)) (starts : line.head? = some Text.lf) :
    line = [Text.lf] := by
  cases lined with
  | last nonempty plain =>
      rcases List.exists_cons_of_ne_nil nonempty with ⟨byte, more, rfl⟩
      have first := plain byte (by simp)
      simp [first.2] at starts
  | cons terminated _ =>
      have startsAlone : (line ++ []).head? = some Text.lf := by simpa using starts
      exact terminated.eq_lf startsAlone

/-- Splitting a sequence of lines again only joins a lone CR with an LF that
follows it, so no line gets a new body. -/
theorem Lined.body_lines {ls : List Bytes} (lined : Lined ls) :
    ∀ line ∈ lines ls.flatten, ∃ piece ∈ ls, body line = body piece := by
  induction lined with
  | nil => simp
  | @last line nonempty plain =>
      simp [lines_of_plain nonempty plain]
  | @cons line rest terminated lined induction =>
      intro found member
      by_cases glued : Glued line rest.flatten
      · -- the first line takes the LF that is the whole of the second one
        cases lined with
        | nil => simp [Glued] at glued
        | @last second nonempty plain =>
            have isLf := (Lined.last nonempty plain).head_eq_lf (by
              cases second with
              | nil => exact absurd rfl nonempty
              | cons byte more => simpa [Glued] using glued.2)
            have impossible := plain Text.lf (by simp [isLf])
            exact absurd rfl impossible.2
        | @cons second more secondTerminated lined =>
            have isLf : second = [Text.lf] :=
              secondTerminated.eq_lf (glued.2 : (second ++ more.flatten).head? = _)
            subst isLf
            have whole : (line :: [Text.lf] :: more).flatten =
                (line ++ [Text.lf]) ++ more.flatten := by simp
            rw [whole, lines_terminated_append (terminated.completed glued.1)
              not_glued_of_lf] at member
            rcases List.mem_cons.mp member with rfl | member
            · refine ⟨line, by simp, ?_⟩
              cases terminated with
              | crlf plain => simp [Glued] at glued
              | @cr text plain =>
                  rw [List.append_assoc, body_plain_append plain,
                    body_plain_append plain]
                  rfl
              | lf plain => simp [Glued] at glued
            · have inRest : found ∈ lines ([Text.lf] :: more).flatten := by
                have split : ([Text.lf] :: more).flatten =
                    [Text.lf] ++ more.flatten := by simp
                rw [split, lines_terminated_append secondTerminated
                  (by simp [Glued])]
                exact List.mem_cons_of_mem _ member
              rcases induction found inRest with ⟨piece, pieceMember, equal⟩
              exact ⟨piece, List.mem_cons_of_mem _ pieceMember, equal⟩
      · rw [List.flatten_cons, lines_terminated_append terminated glued] at member
        rcases List.mem_cons.mp member with rfl | member
        · exact ⟨found, by simp, rfl⟩
        · rcases induction found member with ⟨piece, pieceMember, equal⟩
          exact ⟨piece, List.mem_cons_of_mem _ pieceMember, equal⟩

theorem Terminated.body_append {line : Bytes} (terminated : Terminated line)
    (rest : Bytes) : body (line ++ rest) = body line := by
  cases terminated with
  | crlf plain | cr plain | lf plain =>
      rw [List.append_assoc, body_plain_append plain, body_plain_append plain]
      simp [body]

theorem Lined.front {front back : List Bytes} {line : Bytes}
    (lined : Lined (front ++ line :: back)) : Lined front := by
  have alone := lined_of_terminated lined.terminated_front Lined.nil
  rwa [List.append_nil] at alone

/-! ## Splitting a joined sequence again -/

theorem Lined.not_glued_front {front back : List Bytes} {line : Bytes}
    (lined : Lined (front ++ line :: back)) (starts : line.head? ≠ some Text.lf) :
    ¬Glued front.flatten (line ++ back.flatten) := by
  intro glued
  have nonempty := lined.ne_nil line (by simp)
  rw [Glued, List.head?_append_of_ne_nil _ nonempty] at glued
  exact starts glued.2

/-- A line that neither starts with LF nor meets one is found again. -/
theorem Lined.lines_split {front back : List Bytes} {line : Bytes}
    (lined : Lined (front ++ line :: back)) (starts : line.head? ≠ some Text.lf)
    (apart : ¬Glued line back.flatten) :
    lines (front ++ line :: back).flatten =
      lines front.flatten ++ line :: lines back.flatten := by
  rw [List.flatten_append, List.flatten_cons,
    lines_append (closed_flatten lined.terminated_front) (lined.not_glued_front starts)]
  congr 1
  cases lined.append_right with
  | last nonempty plain => simp [lines_of_plain nonempty plain]
  | cons terminated _ => exact lines_terminated_append terminated apart

/-- A line that meets an LF takes in the line that is this LF. -/
theorem Lined.lines_split_glued {front back : List Bytes} {line : Bytes}
    (lined : Lined (front ++ line :: back)) (starts : line.head? ≠ some Text.lf)
    (glued : Glued line back.flatten) :
    Terminated line ∧ ∃ more, back = [Text.lf] :: more ∧
      lines (front ++ line :: back).flatten =
        lines front.flatten ++ (line ++ [Text.lf]) :: lines more.flatten := by
  have notGlued := lined.not_glued_front starts
  have closed := closed_flatten lined.terminated_front
  cases lined.append_right with
  | last nonempty plain => simp [Glued] at glued
  | cons terminated linedBack =>
      refine ⟨terminated, ?_⟩
      cases linedBack with
      | nil => simp [Glued] at glued
      | @last second nonempty plain =>
          have isLf := (Lined.last nonempty plain).head_eq_lf (by simpa using glued.2)
          have impossible := plain Text.lf (by simp [isLf])
          exact absurd rfl impossible.2
      | @cons second more secondTerminated _ =>
          have isLf : second = [Text.lf] :=
            secondTerminated.eq_lf (glued.2 : (second ++ more.flatten).head? = _)
          subst isLf
          refine ⟨more, rfl, ?_⟩
          have whole : line ++ ([Text.lf] :: more).flatten =
              (line ++ [Text.lf]) ++ more.flatten := by simp
          rw [List.flatten_append, List.flatten_cons, lines_append closed notGlued, whole,
            lines_terminated_append (terminated.completed glued.1) not_glued_of_lf]

end Chgres.Text
