import Chgres.Dialog.Controls

/-! # What a session keeps of the modes

A session selects modes and edits their virtual sizes. Everything else of a mode, which
`save` and `apply` go by, is as it was made, and an edited size is within the limits.
-/

namespace Chgres

namespace Res

/-- The mode is as it was made, apart from its selection and its virtual size. -/
def AsMade (r made : Res) : Prop :=
  ∃ selected virtHres virtVres, r = (made.withVirtual virtHres virtVres).withSelected selected

/-- The visible screen and its depth are there. -/
structure Visible (r : Res) : Prop where
  hres : 1 ≤ r.hres
  vres : 1 ≤ r.vres
  planes : 1 ≤ r.planes

/-- The virtual size is the one that the mode was made with, or it is within the limits. -/
def VirtualRight (r made : Res) : Prop :=
  (r.virtHres = made.virtHres ∧ r.virtVres = made.virtVres) ∨ r.VirtualFits

/-- What a session keeps of a mode. -/
structure Kept (r made : Res) : Prop where
  asMade : r.AsMade made
  virtual : made.Visible → r.VirtualRight made

section Kept

variable {r made : Res}

theorem kept_self (made : Res) (selected : Bool) : (made.withSelected selected).Kept made where
  asMade := ⟨selected, made.virtHres, made.virtVres, rfl⟩
  virtual _ := .inl ⟨rfl, rfl⟩

theorem Kept.withSelected (kept : r.Kept made) (selected : Bool) :
    (r.withSelected selected).Kept made := by
  constructor
  · rcases kept.asMade with ⟨_, virtHres, virtVres, rfl⟩
    exact ⟨selected, virtHres, virtVres, rfl⟩
  · intro visible
    rcases kept.virtual visible with same | fits
    · exact .inl same
    · exact .inr ⟨fits.wide, fits.high, fits.width, fits.height, fits.line, fits.screen⟩

theorem AsMade.visible (asMade : r.AsMade made) (visible : made.Visible) : r.Visible := by
  rcases asMade with ⟨_, _, _, rfl⟩
  exact ⟨visible.hres, visible.vres, visible.planes⟩

/-- An edit leaves all but the virtual size alone. -/
theorem editVirtual_only (r : Res) (virtHres virtVres : Int32) :
    ∃ hres vres, r.editVirtual virtHres virtVres = r.withVirtual hres vres := by
  have only := entered_eq r virtHres virtVres
  rw [editVirtual]
  split
  · exact ⟨r.virtHres, r.virtVres, by rw [only]; rfl⟩
  · split
    · exact ⟨r.virtHres, r.virtVres, by rw [only]; rfl⟩
    · exact ⟨_, _, only⟩

/-- The size that is entered fits, unless it breaks a limit. -/
theorem entered_fits (r : Res) (virtHres virtVres : Int32)
    (small : ¬(r.entered virtHres virtVres).TooLarge) :
    (r.entered virtHres virtVres).VirtualFits := by
  have wide := entered_width r virtHres virtVres
  have high := entered_height r virtHres virtVres
  rw [TooLarge, not_or, not_lt, not_lt] at small
  rw [entered_eq] at wide high small ⊢
  exact ⟨wide.1, high.1, wide.2, high.2, small.1, small.2⟩

theorem Kept.editVirtual (kept : r.Kept made) (virtHres virtVres : Int32) :
    (r.editVirtual virtHres virtVres).Kept made := by
  constructor
  · rcases editVirtual_only r virtHres virtVres with ⟨hres, vres, only⟩
    rcases kept.asMade with ⟨selected, _, _, rfl⟩
    exact ⟨selected, hres, vres, only⟩
  · intro visible
    have here := kept.asMade.visible visible
    rcases editVirtual_eq here.planes here.hres here.vres virtHres virtVres _ rfl with
      ⟨large, small⟩
    by_cases limit : (r.entered virtHres virtVres).TooLarge
    · rw [large limit]
      exact kept.virtual visible
    · rw [small limit]
      exact .inr (entered_fits r virtHres virtVres limit)

end Kept

end Res

/-! ## The events -/

variable {Ptr : Type}

/-- All modes are kept. -/
def Pool.Keeps (pool base : Pool Ptr) : Prop := ∀ res, (pool.mode res).Kept (base.mode res)

section Events

variable {pool base : Pool Ptr} [DecidableEq Ptr]

theorem Pool.Keeps.reselect (keeps : pool.Keeps base) (nodes : List Ptr) (selected : Ptr → Bool) :
    (pool.reselect nodes selected).Keeps base := by
  intro res
  rw [Pool.reselect]
  simp only
  split
  · exact (keeps res).withSelected _
  · exact keeps res

theorem Pool.Keeps.edit (keeps : pool.Keeps base) (edited : Ptr) (virtHres virtVres : Int32) :
    (pool.edit edited virtHres virtVres).Keeps base := by
  intro res
  rw [Pool.edit]
  by_cases same : res = edited
  · subst same
    simp only [Function.update_self]
    exact (keeps res).editVirtual virtHres virtVres
  · simp only [Function.update_of_ne same]
    exact keeps res

variable [Fintype Ptr]

/-- Sorting changes links only. -/
theorem sortRestab_mode {qsort : QSort Ptr} {mallocSucceeds : Bool} {res : Option Ptr}
    {sorted : Option Ptr × Pool Ptr}
    (ends : sortRestab qsort mallocSucceeds pool res = .done sorted) :
    sorted.2.mode = pool.mode := by
  rw [sortRestab] at ends
  split at ends
  · exact absurd ends (by simp)
  · split at ends
    · split at ends
      · exact absurd ends (by simp)
      · cases ends
        rfl
    · cases ends
      rfl

theorem Pool.Keeps.showInfo {qsort : QSort Ptr} {answer : InfoAnswer} {mallocSucceeds : Bool}
    {s after : Dialog Ptr} (keeps : s.pool.Keeps base)
    (ends : showInfo qsort answer mallocSucceeds s = .done after) : after.pool.Keeps base := by
  rw [Chgres.showInfo] at ends
  split at ends
  · exact absurd ends (by simp)
  · split at ends
    · cases ends
      exact keeps
    case h_2 res _ _ virtHres virtVres =>
      cases sorts : sortRestab qsort mallocSucceeds (s.pool.edit res virtHres virtVres) s.resTab with
      | wild =>
          rw [sorts] at ends
          exact absurd ends (by simp)
      | done sorted =>
          rw [sorts] at ends
          cases ends
          intro other
          simp only [sortRestab_mode sorts]
          exact keeps.edit res virtHres virtVres other

/-- Whatever an event does, it keeps the modes. -/
theorem Pool.Keeps.step {qsort : QSort Ptr} {event : Event Ptr} {s after : Dialog Ptr}
    (keeps : s.pool.Keeps base) (ends : hdlObj qsort event s = .done after) :
    after.pool.Keeps base := by
  cases event with
  | closed | message | ok | cancel | other =>
      cases ends
      exact keeps
  | listBox click =>
      rw [hdlObj, lboxDo] at ends
      split at ends
      · exact absurd ends (by simp)
      case h_2 nodes _ =>
        rcases foldl_selectItem_eq click.calls
          { s with pool := s.pool.reselect nodes click.selected } with ⟨ok, info, curRes, called⟩
        simp only [called, Outcome.done_bind] at ends
        cases ends
        split
        · exact keeps.reselect nodes click.selected
        · exact keeps.reselect nodes click.selected
  | colors index =>
      rcases changeDepth_cases ends with rfl | ⟨newBppIndex, nodes, _, _, moved⟩
      · exact keeps
      · rcases Dialog.withButtons_eq {
          s with
          bppIndex := newBppIndex
          resTab := s.possible[newBppIndex]
          items := s.possible[newBppIndex]
          curRes := selectedItem s.pool nodes } with ⟨ok, info, changed⟩
        rw [moved, changed]
        exact keeps
  | info answer mallocSucceeds => exact keeps.showInfo ends

/-- `must_shutdown` is set to 0 or 1. -/
theorem hdlObj_mustShutdown {qsort : QSort Ptr} {event : Event Ptr} {s after : Dialog Ptr}
    (ends : hdlObj qsort event s = .done after) :
    after.mustShutdown = s.mustShutdown ∨ after.mustShutdown = 0 ∨ after.mustShutdown = 1 := by
  cases event with
  | closed | message | other =>
      cases ends
      exact .inl rfl
  | ok =>
      cases ends
      exact .inr (.inr rfl)
  | cancel =>
      cases ends
      exact .inr (.inl rfl)
  | listBox click =>
      rw [hdlObj, lboxDo] at ends
      split at ends
      · exact absurd ends (by simp)
      case h_2 nodes _ =>
        rcases foldl_selectItem_eq click.calls
          { s with pool := s.pool.reselect nodes click.selected } with ⟨ok, info, curRes, called⟩
        simp only [called, Outcome.done_bind] at ends
        cases ends
        split
        · exact .inr (.inr rfl)
        · exact .inl rfl
  | colors index =>
      rcases changeDepth_cases ends with rfl | ⟨newBppIndex, nodes, _, _, moved⟩
      · exact .inl rfl
      · rcases Dialog.withButtons_eq {
          s with
          bppIndex := newBppIndex
          resTab := s.possible[newBppIndex]
          items := s.possible[newBppIndex]
          curRes := selectedItem s.pool nodes } with ⟨ok, info, changed⟩
        rw [moved, changed]
        exact .inl rfl
  | info answer mallocSucceeds =>
      rw [hdlObj, Chgres.showInfo] at ends
      split at ends
      · exact absurd ends (by simp)
      · split at ends
        · cases ends
          exact .inl rfl
        case h_2 res _ _ virtHres virtVres =>
          cases sorts : sortRestab qsort mallocSucceeds (s.pool.edit res virtHres virtVres)
              s.resTab with
          | wild =>
              rw [sorts] at ends
              exact absurd ends (by simp)
          | done sorted =>
              rw [sorts] at ends
              cases ends
              exact .inl rfl

end Events

/-! ## Whole sessions -/

section Sessions

variable [Fintype Ptr] [DecidableEq Ptr] {loaded : Loaded Ptr} {s : Dialog Ptr}

/-- What holds in every state of a session. -/
structure InSession (loaded : Loaded Ptr) (s : Dialog Ptr) : Prop where
  right : Right loaded s
  keeps : s.pool.Keeps loaded.pool
  answer : s.mustShutdown = 0 ∨ s.mustShutdown = 1

omit [Fintype Ptr] [DecidableEq Ptr] in
/-- The current mode is one of the depth that is shown. -/
theorem InSession.current (inSession : InSession loaded s) {res : Ptr}
    (current : s.curRes = some res) : res ∈ loaded.nodes s.bppIndex := by
  rcases inSession.right.controlled.member res current with ⟨nodes, chain, member⟩
  rcases inSession.right.rooted.list inSession.right.rooted.shown with ⟨nodes', chain', within⟩
  rw [chain.unique chain'] at member
  exact within res member

theorem InSession.step (qsort : QSort Ptr) (inSession : InSession loaded s) {event : Event Ptr}
    (sends : Sends s event) :
    ∃ after, hdlObj qsort event s = .done after ∧ InSession loaded after := by
  rcases inSession.right.step qsort sends with ⟨after, ends, right⟩
  refine ⟨after, ends, right, inSession.keeps.step ends, ?_⟩
  rcases hdlObj_mustShutdown ends with same | set
  · rw [same]
    exact inSession.answer
  · exact set

/-- A session starts with the modes as they were made. -/
theorem selectRes_inSession (qsort : QSort Ptr) (memory : SortMemory) (loaded : Loaded Ptr)
    (currez vmode : Int16) (ok info : Button) : ∃ globals,
      initRes qsort memory currez vmode loaded.pool loaded.possible = .done globals ∧
        InSession loaded (selectRes ok info globals) := by
  rcases selectRes_right qsort memory loaded currez vmode ok info with ⟨globals, ends, right⟩
  rcases initRes_done qsort memory loaded currez vmode with ⟨globals', ends', built, _⟩
  cases ends.symm.trans ends'
  rcases selectRes_eq ok info globals with ⟨ok', info', same⟩
  refine ⟨globals, ends, right, ?_, ?_⟩
  · rw [same]
    intro res
    rcases built.modes res with ⟨selected, mode⟩
    rw [mode]
    exact Res.kept_self _ selected
  · rw [same]
    exact .inl rfl

/-- Whatever the start-up finds and whatever the user does: every mode is as it was made, but
for its selection and its virtual size; the virtual size of a mode that has a screen is the
one it was made with or within the limits; and the current mode is one of those that were
made for the depth that is shown. -/
theorem session_keeps (qsort : QSort Ptr) (memory : SortMemory) (loaded : Loaded Ptr)
    (currez vmode : Int16) (ok info : Button) : ∃ globals,
      initRes qsort memory currez vmode loaded.pool loaded.possible = .done globals ∧
        ∀ s, Reaches (hdlObj qsort) Sends (selectRes ok info globals) s →
          (∀ res, (s.pool.mode res).AsMade (loaded.pool.mode res) ∧
            ((loaded.pool.mode res).Visible →
              (s.pool.mode res).VirtualRight (loaded.pool.mode res))) ∧
          ∀ res, s.curRes = some res → res ∈ loaded.nodes s.bppIndex := by
  rcases selectRes_inSession qsort memory loaded currez vmode ok info with ⟨globals, ends, start⟩
  refine ⟨globals, ends, fun s reaches => ?_⟩
  have inSession : InSession loaded s := by
    apply reaches.invariant start
    intro before after event inSession sends result
    rcases inSession.step qsort sends with ⟨after', result', inSession'⟩
    cases result.symm.trans result'
    exact inSession'
  refine ⟨fun res => ?_, fun res current => inSession.current current⟩
  exact ⟨(inSession.keeps res).asMade, (inSession.keeps res).virtual⟩

end Sessions

end Chgres
