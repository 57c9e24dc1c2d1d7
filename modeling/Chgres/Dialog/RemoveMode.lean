import Chgres.Dialog.InMemory

/-! # `remove_mode`

A mode is taken out of all lists and its memory given back. What may go wrong on the way is
part of the model: a read through `NULL` or of memory that is given back already, and a loop
that does not end.
-/

namespace Chgres

variable {Ptr : Type} [DecidableEq Ptr]

/-- The lists, and the modes whose memory has been given back. -/
structure ModeMemory (Ptr : Type) where
  pool : Pool Ptr
  possible : Vector (Option Ptr) maxDepths
  freed : List Ptr

def ModeMemory.setNext (memory : ModeMemory Ptr) (res : Ptr) (next : Option Ptr) :
    ModeMemory Ptr :=
  { memory with
    pool := { memory.pool with next := Function.update memory.pool.next res next } }

/-- `res->base.next` -/
def ModeMemory.readNext (memory : ModeMemory Ptr) (res : Option Ptr) : Outcome (Option Ptr) :=
  match res with
  | none => .wild
  | some res => if res ∈ memory.freed then .wild else .done (memory.pool.next res)

/-- `free` -/
def ModeMemory.free (memory : ModeMemory Ptr) (res : Option Ptr) : Outcome (ModeMemory Ptr) :=
  match res with
  | none => .done memory
  | some res =>
      if res ∈ memory.freed then .wild else .done { memory with freed := res :: memory.freed }

/-- The body of the inner loop: what `p` is next, and the lists. -/
def removeBody (r n : Option Ptr) (p : Option Ptr) (memory : ModeMemory Ptr) :
    Outcome (Option Ptr × ModeMemory Ptr) :=
  (memory.readNext p).bind fun next =>
    let memory :=
      match p with
      | some res => if next = r then memory.setNext res n else memory
      | none => memory
    (memory.readNext r).bind fun p => .done (p, memory)

/-- The inner loop, `while (r)`. There is no result if it is still running after `fuel`
rounds. -/
def removeWhile (r n : Option Ptr) : (fuel : Nat) → (p : Option Ptr) → ModeMemory Ptr →
    Option (Outcome (ModeMemory Ptr))
  | fuel, p, memory =>
      if r ≠ none then
        match fuel with
        | 0 => none
        | fuel + 1 =>
            match removeBody r n p memory with
            | .wild => some .wild
            | .done (p, memory) => removeWhile r n fuel p memory
      else some (.done memory)

/-- The body of the outer loop, behind the inner one. -/
def removeHead (r n : Option Ptr) (i : Fin maxDepths) (memory : ModeMemory Ptr) :
    Outcome (ModeMemory Ptr) :=
  let memory :=
    if r = memory.possible[i] then { memory with possible := memory.possible.set i n i.isLt }
    else memory
  memory.free r

/-- The outer loop. -/
def removeDepths (r n : Option Ptr) (fuel : Nat) : (depths : List (Fin maxDepths)) →
    ModeMemory Ptr → Option (Outcome (ModeMemory Ptr))
  | [], memory => some (.done memory)
  | i :: depths, memory =>
      match removeWhile r n fuel memory.possible[i] memory with
      | none => none
      | some .wild => some .wild
      | some (.done memory) =>
          match removeHead r n i memory with
          | .wild => some .wild
          | .done memory => removeDepths r n fuel depths memory

/-- `remove_mode`, for no more than `fuel` rounds of each loop. -/
def removeMode (fuel : Nat) (r : Option Ptr) (memory : ModeMemory Ptr) :
    Option (Outcome (ModeMemory Ptr)) :=
  match memory.readNext r with
  | .wild => some .wild
  | .done n => removeDepths r n fuel (List.finRange maxDepths) memory

/-! ## What it is for -/

/-- The mode is off its list, the other lists are as before, and its memory has been given
back, once. -/
structure TakenOut (r : Ptr) (table : Fin maxDepths → List Ptr) (before after : ModeMemory Ptr) :
    Prop where
  lists : ∀ i : Fin maxDepths, Chain after.pool.next after.possible[i] ((table i).erase r)
  modes : after.pool.mode = before.pool.mode
  freed : after.freed = r :: before.freed

/-- `remove_mode` comes to an end with the mode removed. -/
def RemoveMeets (r : Ptr) (table : Fin maxDepths → List Ptr) (memory : ModeMemory Ptr) : Prop :=
  ∃ fuel after, removeMode fuel (some r) memory = some (.done after) ∧
    TakenOut r table memory after

/-- The inner loop never changes what it tests. -/
theorem removeWhile_never (r : Ptr) (n : Option Ptr) (fuel : Nat) (p : Option Ptr)
    (memory after : ModeMemory Ptr) : removeWhile (some r) n fuel p memory ≠ some (.done after) := by
  induction fuel generalizing p memory with
  | zero =>
      rw [removeWhile, if_pos (by simp)]
      simp
  | succ fuel induction =>
      rw [removeWhile, if_pos (by simp)]
      split
      · simp
      · exact induction _ _

theorem removeMode_never (r : Ptr) (fuel : Nat) (memory after : ModeMemory Ptr) :
    removeMode fuel (some r) memory ≠ some (.done after) := by
  rw [removeMode]
  cases memory.readNext (some r) with
  | wild => simp
  | done n =>
      rw [List.finRange_succ]
      simp only [removeDepths]
      cases result : removeWhile (some r) n fuel memory.possible[(0 : Fin maxDepths)] memory with
      | none => simp
      | some outcome =>
          cases outcome with
          | wild => simp
          | done next => exact absurd result (removeWhile_never r n fuel _ _ _)

/-- No mode is ever removed, from whatever lists. -/
theorem remove_mode_never_meets (r : Ptr) (table : Fin maxDepths → List Ptr)
    (memory : ModeMemory Ptr) : ¬ RemoveMeets r table memory := by
  rintro ⟨fuel, after, ends, _⟩
  exact removeMode_never r fuel memory after ends

/-! ### A list of one mode -/

/-- One mode, alone on the list of the first depth. -/
def loneMode : ModeMemory (Fin 1) where
  pool := {
    mode := fun _ => ⟨false, 4, 0, flagInfo, 640, 400, 640, 400, 1, 60, 0⟩
    next := fun _ => none }
  possible := (Vector.replicate maxDepths none).set 0 (some 0)
  freed := []

theorem loneMode_holds :
    HoldsLists loneMode.pool loneMode.possible (fun i => if i = 0 then [0] else []) where
  chain i := by
    fin_cases i
    · exact ⟨rfl, rfl⟩
    all_goals rfl
  apart i j different res member member' := by
    simp only [List.mem_ite_nil_right] at member member'
    exact different (member.1.trans member'.1.symm)

/-- After one round the loop reads through `NULL`. -/
theorem remove_mode_wild :
    HoldsLists loneMode.pool loneMode.possible (fun i => if i = 0 then [0] else []) ∧
      removeMode 2 (some 0) loneMode = some .wild ∧
      ¬ RemoveMeets 0 (fun i => if i = 0 then [0] else []) loneMode := by
  refine ⟨loneMode_holds, rfl, ?_⟩
  rintro ⟨fuel, after, ends, _⟩
  exact removeMode_never 0 fuel loneMode after ends

end Chgres
