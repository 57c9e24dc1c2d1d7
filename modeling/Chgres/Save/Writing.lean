import Chgres.Machine

/-! # Writing a text in pieces

Every saver writes its text in one to three pieces and looks at none of the results.
A short write stores the start of its piece, and the next piece follows right behind.
-/

namespace Chgres

open Text

namespace Gemdos

/-- Write the pieces one after the other. The first one is the saver's `k`-th write. -/
def writeAll (gemdos : Gemdos) : (k : Nat) → List Bytes → OpenFile → OpenFile
  | _, [], file => file
  | k, piece :: pieces, file => gemdos.writeAll (k + 1) pieces (gemdos.fwrite k piece file)

/-- The bytes that these writes store. -/
def stored (gemdos : Gemdos) : (k : Nat) → List Bytes → Bytes
  | _, [] => []
  | k, piece :: pieces =>
      piece.take (gemdos.writeCount k piece.length).toNat ++ gemdos.stored (k + 1) pieces

/-- Every piece is stored as a whole. -/
def Complete (gemdos : Gemdos) : (k : Nat) → List Bytes → Prop
  | _, [] => True
  | k, piece :: pieces =>
      (gemdos.writeCount k piece.length).toNat = piece.length ∧
        gemdos.Complete (k + 1) pieces

instance decidableComplete (gemdos : Gemdos) :
    ∀ (k : Nat) (pieces : List Bytes), Decidable (gemdos.Complete k pieces)
  | _, [] => inferInstanceAs (Decidable True)
  | k, _ :: pieces =>
      have := decidableComplete gemdos (k + 1) pieces
      inferInstanceAs (Decidable (_ ∧ _))

variable {gemdos : Gemdos} {k : Nat} {pieces : List Bytes}

theorem writeAll_eq (file : OpenFile) (within : file.position ≤ file.contents.length) :
    gemdos.writeAll k pieces file = file.store (gemdos.stored k pieces) := by
  induction pieces generalizing k file with
  | nil => rw [writeAll, stored, OpenFile.store_nil]
  | cons piece pieces induction =>
      rw [writeAll, stored, fwrite,
        induction _ (OpenFile.position_le_of_store file _ within),
        OpenFile.store_store _ _ _ within]

/-- A created file holds what was stored. -/
theorem writeAll_create :
    (gemdos.writeAll k pieces .create).contents = gemdos.stored k pieces := by
  rw [writeAll_eq _ (le_refl _), OpenFile.store_create]

/-- An old file keeps what lies behind. -/
theorem writeAll_onto (old : Bytes) :
    (gemdos.writeAll k pieces (.onto old)).contents =
      gemdos.stored k pieces ++ old.drop (gemdos.stored k pieces).length := by
  rw [writeAll_eq _ (Nat.zero_le _), OpenFile.store_onto]

theorem stored_of_complete (complete : gemdos.Complete k pieces) :
    gemdos.stored k pieces = pieces.flatten := by
  induction pieces generalizing k with
  | nil => rfl
  | cons piece pieces induction =>
      rw [stored, induction complete.2, complete.1, List.take_length, List.flatten_cons]

theorem stored_length_le : (gemdos.stored k pieces).length ≤ pieces.flatten.length := by
  induction pieces generalizing k with
  | nil => simp [stored]
  | cons piece pieces induction =>
      have rest := @induction (k + 1)
      simp only [stored, List.flatten_cons, List.length_append, List.length_take]
      omega

/-- A short write makes the text too short, whatever the later ones do. -/
theorem complete_of_length
    (whole : (gemdos.stored k pieces).length = pieces.flatten.length) :
    gemdos.Complete k pieces := by
  induction pieces generalizing k with
  | nil => trivial
  | cons piece pieces induction =>
      have rest := @stored_length_le gemdos (k + 1) pieces
      simp only [stored, List.flatten_cons, List.length_append, List.length_take] at whole
      have bound := gemdos.writeCount_le k piece.length
      exact ⟨by omega, induction (by omega)⟩

theorem stored_eq_iff :
    gemdos.stored k pieces = pieces.flatten ↔ gemdos.Complete k pieces :=
  ⟨fun whole => complete_of_length (congrArg List.length whole), stored_of_complete⟩

theorem complete_of_writes (writes : ∀ k n, gemdos.writeCount k n = n) :
    gemdos.Complete k pieces := by
  induction pieces generalizing k with
  | nil => trivial
  | cons piece pieces induction =>
      exact ⟨by rw [writes, Int.toNat_natCast], induction⟩

end Gemdos

end Chgres
