import Mathlib

/-! # Outcomes of calls without a guard

A call either comes to an end with a value or runs wild: it hands the machine a
size or an address that makes what happens next arbitrary.
-/

namespace Chgres

inductive Outcome (α : Type) where
  | done (value : α)
  | wild
  deriving DecidableEq, Repr

namespace Outcome

variable {α β : Type}

def bind (outcome : Outcome α) (next : α → Outcome β) : Outcome β :=
  match outcome with
  | .done value => next value
  | .wild => .wild

def getD (outcome : Outcome α) (default : α) : α :=
  match outcome with
  | .done value => value
  | .wild => default

def isDone (outcome : Outcome α) : Bool :=
  match outcome with
  | .done _ => true
  | .wild => false

theorem eq_done_getD {outcome : Outcome α} (isDone : outcome.isDone = true) (default : α) :
    outcome = .done (outcome.getD default) := by
  cases outcome with
  | done value => rfl
  | wild => exact Bool.noConfusion isDone

theorem isDone_iff {outcome : Outcome α} :
    outcome.isDone = true ↔ ∃ value, outcome = .done value := by
  cases outcome with
  | done value => simp [isDone]
  | wild => simp [isDone]

/-- A loop over `slots` whose body is a call. -/
def forEach {State Slot : Type} (body : State → Slot → Outcome State) :
    (slots : List Slot) → State → Outcome State
  | [], state => .done state
  | slot :: slots, state => (body state slot).bind (forEach body slots)

/-- The call may end with `value`. A wild call may end in any way. -/
def MayBe (outcome : Outcome α) (value : α) : Prop :=
  match outcome with
  | .done result => result = value
  | .wild => True

@[simp] theorem done_bind (value : α) (next : α → Outcome β) :
    (done value).bind next = next value := rfl

@[simp] theorem wild_bind (next : α → Outcome β) :
    (wild : Outcome α).bind next = wild := rfl

@[simp] theorem done_mayBe {result value : α} :
    (done result).MayBe value ↔ result = value := Iff.rfl

@[simp] theorem wild_mayBe (value : α) : (wild : Outcome α).MayBe value := trivial

end Outcome

end Chgres
