import Chgres.Foundation.Outcome

/-! # Runs

A system handles one event after the other. Its events are those that the surroundings
allow in the state it is in.
-/

namespace Chgres

variable {State Event : Type}

/-- The states that runs from `start` reach. -/
inductive Reaches (step : Event → State → Outcome State) (allowed : State → Event → Prop)
    (start : State) : State → Prop
  | start : Reaches step allowed start start
  | step {before after : State} {event : Event} :
      Reaches step allowed start before → allowed before event →
        step event before = .done after → Reaches step allowed start after

/-- What holds at the start and is kept by every step holds in every state that is
reached. -/
theorem Reaches.invariant {step : Event → State → Outcome State}
    {allowed : State → Event → Prop} {start state : State} {Holds : State → Prop}
    (reaches : Reaches step allowed start state) (initially : Holds start)
    (kept : ∀ {before after event}, Holds before → allowed before event →
      step event before = .done after → Holds after) : Holds state := by
  induction reaches with
  | start => exact initially
  | step _ allowed result induction => exact kept induction allowed result

end Chgres
