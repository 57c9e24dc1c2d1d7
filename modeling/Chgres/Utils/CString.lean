import Chgres.Foundation.Words

/-! # C strings

The string functions of the C library that the tables of drivers are made with. A
string reaches up to its NUL.
-/

namespace Chgres

open Text Words

/-- The string that starts where a memory does. -/
def cstring (memory : Bytes) : Bytes := memory.takeWhile (· ≠ 0)

/-- `strncpy` of a string, as bytes: the NUL is copied where there is room for it, and
no padding is. -/
def strncpy (dst src : Bytes) (max : Nat) : Bytes := poke dst 0 ((src ++ [0]).take max)

/-- The offset of the first `wanted` in a string. -/
def strstr (wanted : Bytes) : (s : Bytes) → Option Nat
  | [] => none
  | c :: s => if wanted.isPrefixOf (c :: s) then some 0 else (strstr wanted s).map (· + 1)

/-- The macro `ISSPACE` of `atoi`. -/
def isSpace (c : Byte) : Bool :=
  c = 0x20 || c = 0x09 || c = 0x0a || c = 0x0d || c = 0x0b

def isDigit (c : Byte) : Bool := 0x30 ≤ c && c ≤ 0x39

/-- The digits that a string starts with, as a number. -/
def decimal (s : Bytes) : Nat :=
  (s.takeWhile isDigit).foldl (fun value c => value * 10 + (c.toNat - 0x30)) 0

/-- `atoi` -/
def atoi (s : Bytes) : Int32 :=
  match s.dropWhile isSpace with
  | [] => 0
  | c :: rest =>
      if c = 0x2b then .ofNat (decimal rest)
      else if c = 0x2d then -.ofNat (decimal rest)
      else .ofNat (decimal (c :: rest))

example : atoi (ascii " 07p") = 7 := by decide

theorem atoi_cons_space {c : Byte} (space : isSpace c = true) (text : Bytes) :
    atoi (c :: text) = atoi text := by
  rw [atoi, List.dropWhile_cons_of_pos space, atoi]

/-- A text that starts with a digit is read from there on. -/
theorem atoi_of_digit {text : Bytes} {c : Byte} {more : Bytes} (isHead : text = c :: more)
    (digit : isDigit c = true) : atoi text = .ofNat (decimal text) := by
  have notSpace : ∀ c : Byte, isDigit c = true → isSpace c = false := by decide +kernel
  have notPlus : c ≠ 0x2b := by
    rintro rfl
    exact absurd digit (by decide)
  have notMinus : c ≠ 0x2d := by
    rintro rfl
    exact absurd digit (by decide)
  rw [isHead, atoi, List.dropWhile_cons_of_neg (by simp [notSpace c digit])]
  simp [notPlus, notMinus]

theorem strstr_eq_none {wanted s : Bytes} (nonempty : wanted ≠ []) :
    strstr wanted s = none ↔ ¬wanted <:+: s := by
  induction s with
  | nil => simp [strstr, nonempty]
  | cons c s induction =>
      rw [strstr, List.infix_cons_iff, ← List.isPrefixOf_iff_prefix]
      by_cases here : wanted.isPrefixOf (c :: s) = true
      · simp [here]
      · simp [here, induction]

/-- The first hit where the text in front of it lacks the first byte of the wanted one. -/
theorem strstr_append {c : Byte} {wanted rest : Bytes} (here : c :: wanted <+: rest) :
    ∀ {before : Bytes}, c ∉ before → strstr (c :: wanted) (before ++ rest) = some before.length
  | [], _ => by
      rcases here with ⟨after, rfl⟩
      simp [strstr]
  | d :: before, absent => by
      have apart : ¬c = d := fun same => absent (by simp [same])
      have later := strstr_append here (fun member => absent (List.mem_cons_of_mem d member))
      rw [List.cons_append, strstr, later]
      simp [List.isPrefixOf, apart]

theorem cstring_of_noNul {s : Bytes} (noNul : 0 ∉ s) (rest : Bytes) :
    cstring (s ++ 0 :: rest) = s := by
  have all : ∀ c ∈ s, decide (c ≠ 0) = true := by
    intro c member
    have nonzero : c ≠ 0 := fun isZero => noNul (isZero ▸ member)
    simp [nonzero]
  rw [cstring, List.takeWhile_append_of_pos all]
  simp

theorem cstring_noNul (memory : Bytes) : 0 ∉ cstring memory := by
  intro member
  have nonzero := List.mem_takeWhile_imp member
  simp at nonzero

/-- The copied string, cut where it is too long, for a destination that is not filled
and ends in a NUL behind the room for it. -/
theorem cstring_strncpy {dst src : Bytes} {max : Nat} (noNul : 0 ∉ src)
    (ended : dst[max]? = some 0) : cstring (strncpy dst src max) = src.take max := by
  have room : max < dst.length := (List.getElem?_eq_some_iff.mp ended).1
  have short : 0 ∉ src.take max := fun member => noNul (List.mem_of_mem_take member)
  rcases Nat.lt_or_ge src.length max with fits | long
  · have copied : (src ++ [0]).take max = src ++ [0] :=
      List.take_of_length_le (by simp only [List.length_append, List.length_singleton]; omega)
    rw [strncpy, poke, copied, List.take_zero, List.nil_append, List.append_assoc,
      List.singleton_append, cstring_of_noNul noNul, List.take_of_length_le (by omega)]
  · have copied : (src ++ [0]).take max = src.take max := List.take_append_of_le_length long
    have size : (src.take max).length = max := by
      rw [List.length_take]
      omega
    have next : dst.drop max = 0 :: dst.drop (max + 1) := by
      rw [List.drop_eq_getElem_cons room]
      have value : dst[max] = 0 := by
        rw [List.getElem?_eq_getElem room] at ended
        exact Option.some.inj ended
      rw [value]
    rw [strncpy, poke, copied, size, List.take_zero, List.nil_append, Nat.zero_add, next,
      cstring_of_noNul short]

end Chgres
