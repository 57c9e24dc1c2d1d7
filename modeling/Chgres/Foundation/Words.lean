import Chgres.Foundation.Lines

/-! # Big-endian words in memory

Numbers of a fixed width at an offset of a byte memory. A store changes the number
that is loaded from its place and no number that is loaded from elsewhere.
-/

namespace Chgres.Words

open Text

/-! ## Numbers as bytes -/

/-- The number whose base-256 digits are the bytes, the highest first. -/
def ofBytes (data : Bytes) : Nat := data.foldl (fun number byte => 256 * number + byte.toNat) 0

/-- The lowest `width` digits of a number, the highest first. -/
def toBytes : (width number : Nat) → Bytes
  | 0, _ => []
  | width + 1, number => toBytes width (number / 256) ++ [(number % 256).toUInt8]

example : toBytes 2 0xc012 = [0xc0, 0x12] ∧ ofBytes [0xc0, 0x12] = 0xc012 := by decide

@[simp] theorem toBytes_length (width : Nat) : ∀ number, (toBytes width number).length = width := by
  induction width with
  | zero => intro number; rfl
  | succ width induction => simp [toBytes, induction]

theorem ofBytes_concat (data : Bytes) (byte : Byte) :
    ofBytes (data ++ [byte]) = 256 * ofBytes data + byte.toNat := by
  simp [ofBytes]

theorem ofBytes_toBytes (width : Nat) : ∀ number,
    ofBytes (toBytes width number) = number % 256 ^ width := by
  induction width with
  | zero => intro number; simp [toBytes, ofBytes, Nat.mod_one]
  | succ width induction =>
      intro number
      have digit : ((number % 256).toUInt8).toNat = number % 256 := by
        rw [Nat.toUInt8_eq, UInt8.toNat_ofNat']
        omega
      rw [toBytes, ofBytes_concat, induction, digit, pow_succ', Nat.mod_mul]
      omega

/-! ## Parts of a memory -/

/-- `count` bytes from `offset` on. -/
def slice (memory : Bytes) (offset count : Nat) : Bytes := (memory.drop offset).take count

/-- `memcpy` into a memory. -/
def poke (memory : Bytes) (offset : Nat) (data : Bytes) : Bytes :=
  memory.take offset ++ data ++ memory.drop (offset + data.length)

variable {memory data : Bytes} {offset : Nat}

@[simp] theorem poke_length (within : offset + data.length ≤ memory.length) :
    (poke memory offset data).length = memory.length := by
  simp only [poke, List.length_append, List.length_take, List.length_drop]
  omega

theorem getElem?_poke (within : offset + data.length ≤ memory.length) (index : Nat) :
    (poke memory offset data)[index]? =
      if offset ≤ index ∧ index < offset + data.length then data[index - offset]?
      else memory[index]? := by
  have front : (memory.take offset).length = offset := by
    rw [List.length_take]
    omega
  rw [poke, List.append_assoc]
  rcases Nat.lt_or_ge index offset with before | behind
  · rw [List.getElem?_append_left (by omega), List.getElem?_take_of_lt before, if_neg (by omega)]
  rw [List.getElem?_append_right (by omega), front]
  rcases Nat.lt_or_ge index (offset + data.length) with inside | after
  · rw [List.getElem?_append_left (by omega), if_pos ⟨behind, inside⟩]
  · rw [List.getElem?_append_right (by omega), List.getElem?_drop, if_neg (by omega)]
    congr 1
    omega

/-- Two memories that agree on a part have the same part. -/
theorem slice_congr {other : Bytes} {start count : Nat}
    (same : ∀ index, start ≤ index → index < start + count → memory[index]? = other[index]?) :
    slice memory start count = slice other start count := by
  apply List.ext_getElem?
  intro index
  simp only [slice, List.getElem?_take, List.getElem?_drop]
  split_ifs with inside
  · exact same (start + index) (by omega) (by omega)
  · rfl

/-- A part that the poke does not touch. -/
theorem slice_poke_apart (within : offset + data.length ≤ memory.length) {start count : Nat}
    (apart : start + count ≤ offset ∨ offset + data.length ≤ start) :
    slice (poke memory offset data) start count = slice memory start count := by
  apply slice_congr
  intro index _ _
  rw [getElem?_poke within, if_neg (by omega)]

theorem slice_poke_same (within : offset + data.length ≤ memory.length) :
    slice (poke memory offset data) offset data.length = data := by
  apply List.ext_getElem?
  intro index
  simp only [slice, List.getElem?_take, List.getElem?_drop]
  split_ifs with inside
  · rw [getElem?_poke within, if_pos (by omega)]
    congr 1
    omega
  · exact (List.getElem?_eq_none (by omega)).symm

theorem poke_injective {other : Bytes} (within : offset + data.length ≤ memory.length)
    (size : other.length = data.length) (same : poke memory offset data = poke memory offset other) :
    data = other := by
  rw [← slice_poke_same within, same, ← size]
  exact slice_poke_same (by rwa [size])

/-- Two pokes that differ in their first and in their last bytes can be taken for pokes at
another place only if it is the same place. -/
theorem poke_place_unique {place width : Nat} {left right left' right' : Bytes}
    (sizes : left.length = width ∧ right.length = width ∧ left'.length = width ∧
      right'.length = width)
    (within : offset + width ≤ memory.length) (within' : place + width ≤ memory.length)
    (positive : 0 < width) (first : left[0]? ≠ right[0]?)
    (last : left[width - 1]? ≠ right[width - 1]?)
    (sameLeft : poke memory offset left = poke memory place left')
    (sameRight : poke memory offset right = poke memory place right') : place = offset := by
  rcases sizes with ⟨sizeLeft, sizeRight, sizeLeft', sizeRight'⟩
  -- a byte that is outside the other place has its old value on both sides
  have old : ∀ index < width, ¬(place ≤ offset + index ∧ offset + index < place + width) →
      left[index]? = right[index]? := by
    intro index inside outside
    have atLeft : (poke memory offset left)[offset + index]? =
        (poke memory place left')[offset + index]? := by rw [sameLeft]
    have atRight : (poke memory offset right)[offset + index]? =
        (poke memory place right')[offset + index]? := by rw [sameRight]
    rw [getElem?_poke (by omega), getElem?_poke (by omega), if_pos (by omega), if_neg (by omega),
      Nat.add_sub_cancel_left] at atLeft atRight
    rw [atLeft, atRight]
  by_contra different
  rcases Nat.lt_or_ge place offset with before | behind
  · exact last (old (width - 1) (by omega) (by omega))
  · exact first (old 0 positive (by omega))

/-- Two parts in a row. -/
theorem poke_append (before : offset ≤ memory.length) (more : Bytes) :
    poke memory offset (data ++ more) =
      poke (poke memory offset data) (offset + data.length) more := by
  have front : (memory.take offset ++ data).length = offset + data.length := by
    rw [List.length_append, List.length_take]
    omega
  have rest : (poke memory offset data).drop (offset + data.length + more.length) =
      memory.drop (offset + (data ++ more).length) := by
    rw [poke, ← front, ← List.drop_drop, List.drop_left, front, List.drop_drop,
      List.length_append, Nat.add_assoc]
  have start : (poke memory offset data).take (offset + data.length) =
      memory.take offset ++ data := by
    rw [poke, ← front, List.take_left]
  conv_rhs => rw [poke, rest, start]
  rw [poke]
  simp only [List.append_assoc]

/-! ## Loading and storing -/

def load (memory : Bytes) (offset width : Nat) : Nat := ofBytes (slice memory offset width)

def store (memory : Bytes) (offset width number : Nat) : Bytes :=
  poke memory offset (toBytes width number)

variable {width number : Nat}

@[simp] theorem store_length (within : offset + width ≤ memory.length) :
    (store memory offset width number).length = memory.length :=
  poke_length (by rwa [toBytes_length])

theorem load_store_same (within : offset + width ≤ memory.length) :
    load (store memory offset width number) offset width = number % 256 ^ width := by
  have part := @slice_poke_same memory (toBytes width number) offset (by rwa [toBytes_length])
  rw [toBytes_length] at part
  rw [load, store, part, ofBytes_toBytes]

theorem load_store_apart (within : offset + width ≤ memory.length) {start count : Nat}
    (apart : start + count ≤ offset ∨ offset + width ≤ start) :
    load (store memory offset width number) start count = load memory start count := by
  rw [load, store, slice_poke_apart (by rwa [toBytes_length]) (by rwa [toBytes_length]), load]

end Chgres.Words
