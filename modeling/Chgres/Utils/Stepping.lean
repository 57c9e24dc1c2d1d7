import Chgres.Utils.ScanLines

/-! # Stepping through a buffer

`find_line` and `read_assign_sys` take line after line: `p` moves on by what `next_line`
returns, and as much is taken off the number of remaining bytes. Here the steps are
followed to the end of the buffer, with the bytes that they read.
-/

namespace Chgres

open Text

/-- How many bytes the loop of `next_line` reads. -/
def nextLineReads : (maxlen : Nat) → (p : Bytes) → Nat
  | 0, _ => 0
  | maxlen + 1, p =>
      let c := p.headD 0
      -- behind a CR one more byte is read, whatever `maxlen` is
      if c = cr then 2
      else if c = lf then 1
      else nextLineReads maxlen p.tail + 1

/-- What one step takes: the result of `next_line`, the bytes that are left behind and
`*valid`. -/
structure Piece where
  lsize : Nat
  bytes : Bytes
  valid : Nat
  deriving DecidableEq, Repr

structure Stepped where
  pieces : List Piece
  remaining : Int
  /-- The end of the bytes that were read, as an offset from the start of the buffer. -/
  reach : Nat
  deriving DecidableEq, Repr

/-- The steps from `p` on, if no more than `steps` are needed. -/
def stepLines : (steps : Nat) → (p : Bytes) → (offset : Nat) → (size : Int) → Option Stepped
  | 0, _, _, _ => none
  | steps + 1, p, offset, size =>
      let (lsize, valid) := nextLine p size.toNat
      let reach := offset + nextLineReads size.toNat p
      let piece : Piece := ⟨lsize, p.take lsize, valid⟩
      let size := size - lsize
      if 0 < size ∧ 0 < lsize then
        (stepLines steps (p.drop lsize) (offset + lsize) size).map fun rest =>
          ⟨piece :: rest.pieces, rest.remaining, max reach rest.reach⟩
      else some ⟨[piece], size, reach⟩

/-! ## The callers go along these steps -/

theorem nextLineLoop_valid_le : ∀ (maxlen : Nat) (p : Bytes) (comment : Bool),
    (nextLineLoop maxlen p comment).2 ≤ (nextLineLoop maxlen p comment).1
  | 0, _, _ => by simp [nextLineLoop]
  | maxlen + 1, p, comment => by
      have rest := nextLineLoop_valid_le maxlen p.tail (comment || isComment (p.headD 0))
      simp only [nextLineLoop]
      split_ifs with isCr follows isLf inComment
      · simp
      · simp
      · simp
      · exact Nat.le_succ_of_le rest
      · exact Nat.succ_le_succ rest

theorem nextLine_valid_le (p : Bytes) (maxlen : Nat) :
    (nextLine p maxlen).2 ≤ (nextLine p maxlen).1 :=
  nextLineLoop_valid_le maxlen p false

/-- The valid bytes of a line are in its piece. -/
theorem take_valid (p : Bytes) (maxlen bound : Nat) :
    (p.take (nextLine p maxlen).1).take (min (nextLine p maxlen).2 bound) =
      p.take (min (nextLine p maxlen).2 bound) := by
  have valid := nextLine_valid_le p maxlen
  rw [List.take_take, Nat.min_eq_left (by omega)]

theorem stepLines_ne_nil : ∀ {steps : Nat} {p : Bytes} {offset : Nat} {size : Int}
    {stepped : Stepped}, stepLines steps p offset size = some stepped → stepped.pieces ≠ []
  | 0, _, _, _, _, stepping => by simp [stepLines] at stepping
  | steps + 1, p, offset, size, stepped, stepping => by
      simp only [stepLines] at stepping
      split at stepping
      · rcases Option.map_eq_some_iff.mp stepping with ⟨rest, _, rfl⟩
        simp
      · cases stepping
        simp

/-- The search of `find_line` in the pieces. -/
def seek (str : Bytes) : List Piece → (offset : Nat) → (size : Int) → Found
  | [], offset, size => ⟨offset, size, 0⟩
  | piece :: rest, offset, size =>
      if (findStr (piece.bytes.take (min piece.valid 511)) str).isSome then
        ⟨offset, size - piece.lsize, piece.lsize⟩
      else if rest = [] then ⟨offset + piece.lsize, size - piece.lsize, piece.lsize⟩
      else seek str rest (offset + piece.lsize) (size - piece.lsize)

theorem findLineLoop_steps (str : Bytes) : ∀ {steps : Nat} {p : Bytes} {offset : Nat}
    {size : Int} {stepped : Stepped}, stepLines (steps + 1) p offset size = some stepped →
    findLineLoop str steps p offset size = seek str stepped.pieces offset size
  | steps, p, offset, size, stepped, stepping => by
      simp only [stepLines] at stepping
      rw [findLineLoop]
      split at stepping
      case isTrue more =>
        rcases Option.map_eq_some_iff.mp stepping with ⟨rest, tail, rfl⟩
        simp only [seek, take_valid, if_neg (stepLines_ne_nil tail), if_pos more]
        cases steps with
        | zero => simp [stepLines] at tail
        | succ steps => simp only [findLineLoop_steps str tail]
      case isFalse ended =>
        cases stepping
        simp only [seek, take_valid, if_neg ended, if_true]

/-! ## The reads of `next_line` -/

/-- A CR at the end makes the scan read one byte more. -/
def lookAhead (text : Bytes) : Nat := if text.getLast? = some cr then 1 else 0

theorem nextLineReads_plain : ∀ {text : Bytes}, Plain text → ∀ (rest : Bytes) (more : Nat),
    nextLineReads (text.length + more) (text ++ rest) =
      text.length + nextLineReads more rest
  | [], _, rest, more => by simp
  | c :: text, plain, rest, more => by
      have first := plain c (by simp)
      have plainTail : Plain text := fun other member =>
        plain other (List.mem_cons_of_mem c member)
      have sizes : (c :: text).length + more = (text.length + more) + 1 := by
        simp only [List.length_cons]
        omega
      rw [sizes, List.cons_append, nextLineReads]
      simp only [List.headD_cons, List.tail_cons, first.1, first.2, if_false,
        nextLineReads_plain plainTail rest more, List.length_cons]
      omega

theorem nextLineReads_ending {text ending : Bytes} (plain : Plain text) (rest : Bytes)
    {maxlen : Nat} (enough : (text ++ ending).length ≤ maxlen) :
    nextLineReads maxlen ((text ++ ending) ++ rest) =
      text.length + nextLineReads (maxlen - text.length) (ending ++ rest) := by
  have sizes : maxlen = text.length + (maxlen - text.length) := by
    rw [List.length_append] at enough
    omega
  conv_lhs => rw [sizes, List.append_assoc, nextLineReads_plain plain]

theorem nextLineReads_terminated {line : Bytes} (terminated : Terminated line) (rest : Bytes)
    {maxlen : Nat} (enough : line.length ≤ maxlen) :
    nextLineReads maxlen (line ++ rest) = line.length + lookAhead line := by
  cases terminated with
  | @crlf text plain | @cr text plain | @lf text plain =>
      rw [nextLineReads_ending plain rest enough]
      have left : ∃ more, maxlen - text.length = more + 1 := by
        simp only [List.length_append, List.length_cons] at enough
        exact ⟨maxlen - text.length - 1, by omega⟩
      rcases left with ⟨more, isSucc⟩
      rw [isSucc]
      simp [nextLineReads, lookAhead, Nat.add_assoc]

theorem nextLineReads_canonical {line : Bytes} {rest : List Bytes}
    (canonical : Canonical (line :: rest)) (behind : Bytes) :
    nextLineReads (line :: rest).flatten.length ((line :: rest).flatten ++ behind) =
      line.length + lookAhead line := by
  cases canonical with
  | last nonempty plain =>
      have noCr : line.getLast? ≠ some cr := fun last =>
        (plain cr (List.mem_of_getLast? last)).1 rfl
      have whole := nextLineReads_plain plain behind 0
      simpa [lookAhead, noCr, nextLineReads] using whole
  | cons terminated apart canonical =>
      rw [List.flatten_cons, List.append_assoc]
      exact nextLineReads_terminated terminated _ (by simp)

/-! ## All the steps -/

def Piece.ofLine (line : Bytes) : Piece := ⟨line.length, line, (lineText line).length⟩

theorem lookAhead_le (text : Bytes) : lookAhead text ≤ 1 := by
  rw [lookAhead]
  split <;> omega

theorem lookAhead_flatten_cons {line : Bytes} {rest : List Bytes}
    (nonempty : rest.flatten ≠ []) :
    lookAhead (line :: rest).flatten = lookAhead rest.flatten := by
  simp only [lookAhead, getLast?_flatten_cons nonempty]

/-- The step from the last line on. It takes an LF behind the buffer with it. -/
theorem stepLines_last {line : Bytes} (canonical : Canonical [line]) (behind : Bytes)
    (steps offset : Nat) :
    ∃ pieces, stepLines (steps + 1) ([line].flatten ++ behind) offset [line].flatten.length =
        some ⟨pieces, -overrun [line].flatten behind,
          offset + [line].flatten.length + lookAhead [line].flatten⟩ ∧
      ([line].flatten.getLast? ≠ some cr → pieces = [Piece.ofLine line]) := by
  have first := nextLine_canonical canonical behind
  have reads := nextLineReads_canonical canonical behind
  have remaining : (([line].flatten.length : Nat) : Int) -
      ((line.length + overrunAt line [] behind : Nat) : Int) =
      -overrun [line].flatten behind := by
    simp [overrunAt]
  have reach : offset + (line.length + lookAhead line) =
      offset + [line].flatten.length + lookAhead [line].flatten := by
    simp [Nat.add_assoc]
  rw [stepLines]
  simp only [Int.toNat_natCast, first, reads, if_neg (takesLast line behind)]
  rw [remaining, reach]
  refine ⟨_, rfl, ?_⟩
  intro noCr
  have noOverrun : overrunAt line [] behind = 0 := by
    have apart : ¬Glued line behind := fun glued => noCr (by simpa using glued.1)
    simp [overrunAt, overrun, apart]
  simp [noOverrun, Piece.ofLine]

/-- The step from a line that is not the last one. -/
theorem stepLines_cons {line second : Bytes} {more : List Bytes}
    (canonical : Canonical (line :: second :: more)) (behind : Bytes) (steps offset : Nat) :
    stepLines (steps + 1) ((line :: second :: more).flatten ++ behind) offset
        (line :: second :: more).flatten.length =
      (stepLines steps ((second :: more).flatten ++ behind) (offset + line.length)
        (second :: more).flatten.length).map fun rest =>
          ⟨Piece.ofLine line :: rest.pieces, rest.remaining,
            max (offset + (line.length + lookAhead line)) rest.reach⟩ := by
  have first := nextLine_canonical canonical behind
  have reads := nextLineReads_canonical canonical behind
  have takes := takesMore canonical (List.cons_ne_nil second more) behind
  have piece : ((line :: second :: more).flatten ++ behind).take line.length = line := by
    rw [List.flatten_cons, List.append_assoc, List.take_left]
  rw [stepLines]
  simp only [Int.toNat_natCast, first, reads, takes.noOverrun, Nat.add_zero, takes.size,
    if_pos takes.goOn, piece, takes.after, Piece.ofLine]

/-- What the steps through the lines of a buffer come to. Only the last piece depends on
what is behind the buffer. -/
theorem stepLines_canonical (behind : Bytes) : ∀ {ls : List Bytes}, Canonical ls → ls ≠ [] →
    ∀ {steps : Nat} (offset : Nat), ls.length ≤ steps →
    ∃ pieces, stepLines steps (ls.flatten ++ behind) offset ls.flatten.length =
        some ⟨pieces, -overrun ls.flatten behind,
          offset + ls.flatten.length + lookAhead ls.flatten⟩ ∧
      (ls.flatten.getLast? ≠ some cr → pieces = ls.map Piece.ofLine)
  | [], _, nonempty, _, _, _ => absurd rfl nonempty
  | [line], canonical, _, steps + 1, offset, _ => stepLines_last canonical behind steps offset
  | line :: second :: more, canonical, _, steps + 1, offset, enough => by
      have nonempty := canonical.tail.flatten_ne_nil (List.cons_ne_nil second more)
      have restPos : 0 < (second :: more).flatten.length := List.length_pos_of_ne_nil nonempty
      rcases stepLines_canonical behind canonical.tail (by simp) (offset + line.length)
        (by simpa using enough) with ⟨pieces, steps, lineByLine⟩
      -- looking one byte ahead of this line is still inside the next one
      have reach : max (offset + (line.length + lookAhead line))
          (offset + line.length + (second :: more).flatten.length +
            lookAhead (second :: more).flatten) =
          offset + (line :: second :: more).flatten.length +
            lookAhead (second :: more).flatten := by
        have small := lookAhead_le line
        have whole : (line :: second :: more).flatten.length =
            line.length + (second :: more).flatten.length := by
          rw [List.flatten_cons, List.length_append]
        rw [whole]
        omega
      rw [stepLines_cons canonical, steps, Option.map_some, overrun_flatten_cons nonempty,
        lookAhead_flatten_cons nonempty, reach]
      refine ⟨_, rfl, ?_⟩
      intro noCr
      rw [getLast?_flatten_cons nonempty] at noCr
      simp [lineByLine noCr]

/-- What the steps through a buffer of `file.length` bytes should come to. -/
structure Splits (file : Bytes) (stepped : Stepped) : Prop where
  inside : stepped.reach ≤ file.length
  remaining : stepped.remaining = 0
  whole : (stepped.pieces.map Piece.bytes).flatten = file
  lsize : ∀ piece ∈ stepped.pieces, piece.lsize = piece.bytes.length
  terminated : ∀ piece ∈ stepped.pieces.dropLast, Terminated piece.bytes
  last : ∀ piece ∈ stepped.pieces, Terminated piece.bytes ∨ Plain piece.bytes
  valid : ∀ piece ∈ stepped.pieces, piece.valid = (lineText piece.bytes).length

/-- The steps come to an end in time and split the buffer. -/
def StepsMeet (file behind : Bytes) : Prop :=
  ∃ stepped, stepLines (max file.length 1) (file ++ behind) 0 file.length = some stepped ∧
    Splits file stepped

theorem splits_lines {file : Bytes} {ls : List Bytes} (lined : Lined ls)
    (whole : ls.flatten = file) {reach : Nat} (inside : reach ≤ file.length) :
    Splits file ⟨ls.map Piece.ofLine, 0, reach⟩ where
  inside := inside
  remaining := rfl
  whole := by
    simpa [Piece.ofLine, Function.comp_def] using whole
  lsize := by simp [Piece.ofLine]
  terminated := by
    intro piece member
    rw [← List.map_dropLast] at member
    rcases List.mem_map.mp member with ⟨line, isLine, rfl⟩
    exact lined.terminated_dropLast line isLine
  last := by
    intro piece member
    rcases List.mem_map.mp member with ⟨line, isLine, rfl⟩
    exact lined.terminated_or_plain line isLine
  valid := by simp [Piece.ofLine]

theorem stepLines_nil (behind : Bytes) :
    stepLines 1 behind 0 0 = some ⟨[⟨0, [], 0⟩], 0, 0⟩ := by
  simp [stepLines, nextLine, nextLineLoop, nextLineReads]

/-- The steps split a buffer unless its last byte is a CR: then the byte behind the buffer
is read, and taken as well if it is an LF. -/
theorem stepping_iff (file behind : Bytes) :
    StepsMeet file behind ↔ file.getLast? ≠ some cr := by
  by_cases empty : file = []
  · subst empty
    have steps := stepLines_nil behind
    simp only [ne_eq, List.getLast?_nil, reduceCtorEq, not_false_eq_true, iff_true]
    refine ⟨_, steps, ?_⟩
    constructor <;> simp [Plain.nil, lineText, body]
  · have more : lines file ≠ [] := fun none => empty (lines_eq_nil.mp none)
    have bound : (lines file).length ≤ max file.length 1 :=
      (lines_length_le file).trans (Nat.le_max_left _ _)
    rcases stepLines_canonical behind (lines_canonical file) more 0 bound with
      ⟨pieces, steps, lineByLine⟩
    simp only [lines_flatten, Nat.zero_add] at steps lineByLine
    constructor
    · intro meets endsInCr
      rcases meets with ⟨stepped, result, splits⟩
      rw [steps] at result
      cases result
      have inside := splits.inside
      simp only [lookAhead, if_pos endsInCr] at inside
      omega
    · intro noCr
      have apart : ¬Glued file behind := fun glued => noCr glued.1
      refine ⟨_, steps, ?_⟩
      rw [lineByLine noCr]
      simp only [overrun, if_neg apart, lookAhead, if_neg noCr]
      exact splits_lines (lines_lined file) (lines_flatten file) (Nat.le_refl _)

/-- A lone CR at the end of a buffer takes the LF behind it: -1 bytes remain. -/
theorem stepping_runs_past : ¬StepsMeet (ascii "x\r") [lf] := by
  intro meets
  rcases meets with ⟨stepped, result, splits⟩
  have steps : stepLines 2 (ascii "x\r" ++ [lf]) 0 2 =
      some ⟨[⟨3, ascii "x\r" ++ [lf], 1⟩], -1, 3⟩ := by decide
  have equal : some stepped = _ := result.symm.trans steps
  cases equal
  exact absurd splits.remaining (by decide)

end Chgres
