import Chgres.Foundation.Lines

/-! # Files written through a handle

An open file is its contents and the position of the next byte. A file that was
created starts empty; a file that was opened over old contents keeps what lies
behind the position.
-/

namespace Chgres

open Text

structure OpenFile where
  contents : Bytes
  position : Nat
  deriving DecidableEq, Repr

namespace OpenFile

def create : OpenFile := ⟨[], 0⟩

def onto (contents : Bytes) : OpenFile := ⟨contents, 0⟩

def seek (file : OpenFile) (position : Nat) : OpenFile := { file with position }

/-- Store bytes at the position and move behind them. -/
def store (file : OpenFile) (data : Bytes) : OpenFile where
  contents := file.contents.take file.position ++ data ++
    file.contents.drop (file.position + data.length)
  position := file.position + data.length

/-- The new bytes lie over the old ones; the old end stays where it sticks out. -/
example : (((onto [1, 2, 3, 4]).store [9]).store [8]).contents = [9, 8, 3, 4] := by decide

theorem store_onto (old data : Bytes) :
    (onto old).store data = ⟨data ++ old.drop data.length, data.length⟩ := by
  simp [onto, store]

theorem store_create (data : Bytes) : create.store data = ⟨data, data.length⟩ := by
  simp [create, store]

theorem store_nil (file : OpenFile) : file.store [] = file := by
  simp [store]

theorem position_le_of_store (file : OpenFile) (data : Bytes)
    (within : file.position ≤ file.contents.length) :
    (file.store data).position ≤ (file.store data).contents.length := by
  simp only [store, List.length_append, List.length_take, List.length_drop]
  omega

/-- Writing behind the first part of a file. -/
theorem store_append (front back data : Bytes) :
    (OpenFile.mk (front ++ back) front.length).store data =
      ⟨front ++ data ++ back.drop data.length, front.length + data.length⟩ := by
  simp [store]

/-- Two writes one after the other are one write. -/
theorem store_store (file : OpenFile) (first second : Bytes)
    (within : file.position ≤ file.contents.length) :
    (file.store first).store second = file.store (first ++ second) := by
  rcases file with ⟨contents, position⟩
  have split : contents = contents.take position ++ contents.drop position :=
    (List.take_append_drop position contents).symm
  have size : (contents.take position).length = position := by
    simp only [List.length_take]
    exact Nat.min_eq_left within
  generalize contents.take position = front at split size
  generalize contents.drop position = back at split
  subst split size
  rw [store_append, store_append, ← List.length_append, store_append]
  simp [Nat.add_assoc]

end OpenFile

end Chgres
