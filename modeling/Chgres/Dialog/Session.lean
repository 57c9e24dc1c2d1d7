import Chgres.Dialog.Start
import Chgres.Dialog.VirtualSize
import Chgres.Foundation.Runs

/-! # The dialog

`hdl_obj` and `select_item` with what they change: the current mode and its depth, the two
buttons, the list that the list box shows and the modes themselves. What GEM and the user
contribute to a step is in the event.
-/

namespace Chgres

variable {Ptr : Type}

/-- The bits of a button that the program changes. -/
structure Button where
  /-- `OS_DISABLED` -/
  disabled : Bool
  /-- `OF_SELECTABLE` -/
  selectable : Bool
  /-- `OF_DEFAULT` -/
  isDefault : Bool

def Button.enable (button : Button) : Button :=
  { button with disabled := false, selectable := true }

def Button.disable (button : Button) : Button :=
  { button with disabled := true, selectable := false }

def Button.withDefault (button : Button) (isDefault : Bool) : Button :=
  { button with isDefault := isDefault }

/-- The buttons of the resource file. -/
def plainButton : Button := ⟨false, true, false⟩

structure Dialog (Ptr : Type) extends Globals Ptr where
  /-- `CHGRES_OK` -/
  ok : Button
  /-- `CHGRES_INFO` -/
  info : Button
  /-- The list that the list box was given last. -/
  items : Option Ptr
  mustShutdown : Int16
  /-- `hdl_obj` has not returned 0 yet. -/
  isOpen : Bool

/-- `select_res` up to its event loop, given the buttons of the resource file. -/
def selectRes (ok info : Button) (globals : Globals Ptr) : Dialog Ptr :=
  let s : Dialog Ptr := {
    globals with
    ok := ok
    info := info
    items := globals.resTab
    mustShutdown := 0
    isOpen := true }
  match globals.curRes with
  | some _ => { s with ok := ok.enable.withDefault true, info := info.enable }
  | none => { s with ok := ok.disable.withDefault false, info := info.disable }

/-- The buttons apart, the dialog starts with what `init_res` leaves. -/
theorem selectRes_eq (ok info : Button) (globals : Globals Ptr) :
    ∃ ok' info', selectRes ok info globals = {
      globals with
      ok := ok'
      info := info'
      items := globals.resTab
      mustShutdown := 0
      isOpen := true } := by
  rw [selectRes]
  split
  · exact ⟨_, _, rfl⟩
  · exact ⟨_, _, rfl⟩

/-- `CHGRES_INFO` for a mode. -/
def Button.forMode (button : Button) (r : Res) : Button :=
  if r.HasInfo then button.enable else button.disable

def selectItem (item : Option Ptr) (s : Dialog Ptr) : Dialog Ptr :=
  match item with
  | none => s
  | some res => {
      s with
      ok := if s.curRes = none then s.ok.enable.withDefault true else s.ok
      info := s.info.forMode (s.pool.mode res)
      curRes := some res }

/-- The current mode and the buttons are all that `select_item` changes. -/
theorem foldl_selectItem_eq (calls : List (Option Ptr)) (s : Dialog Ptr) :
    ∃ ok info curRes, calls.foldl (fun s item => selectItem item s) s =
      { s with ok := ok, info := info, curRes := curRes } := by
  induction calls generalizing s with
  | nil => exact ⟨s.ok, s.info, s.curRes, rfl⟩
  | cons item calls induction =>
      rw [List.foldl_cons]
      cases item with
      | none => exact induction s
      | some res =>
          rcases induction (selectItem (some res) s) with ⟨ok, info, curRes, rest⟩
          exact ⟨ok, info, curRes, rest⟩

/-! ## Depths -/

/-- The loop of `popup_to_index`. -/
def countDown (possible : Vector (Option Ptr) maxDepths) :
    (depths : List (Fin maxDepths)) → (idx : Int) → Option (Fin maxDepths)
  | [], _ => none
  | i :: depths, idx =>
      let idx := if possible[i].isSome then idx - 1 else idx
      if idx < 0 then some i else countDown possible depths idx

/-- `popup_to_index` -/
def popupToIndex (possible : Vector (Option Ptr) maxDepths) (idx : Int) :
    Option (Fin maxDepths) :=
  countDown possible (List.finRange maxDepths) idx

/-- `lbox_get_slct_item` -/
def selectedItem (pool : Pool Ptr) (nodes : List Ptr) : Option Ptr :=
  nodes.find? fun res => (pool.mode res).selected

/-- The buttons after a change of the depth. -/
def Dialog.withButtons (s : Dialog Ptr) : Dialog Ptr :=
  match s.curRes with
  | some res => {
      s with
      ok := s.ok.enable.withDefault true
      info := s.info.forMode (s.pool.mode res) }
  | none => { s with ok := s.ok.disable.withDefault false, info := s.info.disable }

/-- `CHGRES_COLORS`, given the result of `simple_popup`. -/
def changeDepth [Fintype Ptr] (index : Int) (s : Dialog Ptr) : Outcome (Dialog Ptr) :=
  if 0 ≤ index then
    match popupToIndex s.possible index with
    | none => .done s
    | some newBppIndex =>
        if newBppIndex ≠ s.bppIndex then
          let resTab := s.possible[newBppIndex]
          match s.pool.list resTab with
          | none => .wild
          | some nodes => .done <| Dialog.withButtons {
              s with
              bppIndex := newBppIndex
              resTab := resTab
              items := resTab
              curRes := selectedItem s.pool nodes }
        else .done s
  else .done s

/-- The buttons are all that `withButtons` changes. -/
theorem Dialog.withButtons_eq (s : Dialog Ptr) :
    ∃ ok info, s.withButtons = { s with ok := ok, info := info } := by
  rw [withButtons]
  split
  · exact ⟨_, _, rfl⟩
  · exact ⟨_, _, rfl⟩

/-- A choice in the popup changes nothing, or it leads to another depth. -/
theorem changeDepth_cases [Fintype Ptr] {index : Int} {s after : Dialog Ptr}
    (result : changeDepth index s = .done after) :
    after = s ∨ ∃ newBppIndex nodes, newBppIndex ≠ s.bppIndex ∧
      s.pool.list s.possible[newBppIndex] = some nodes ∧
      after = Dialog.withButtons {
        s with
        bppIndex := newBppIndex
        resTab := s.possible[newBppIndex]
        items := s.possible[newBppIndex]
        curRes := selectedItem s.pool nodes } := by
  rw [changeDepth] at result
  split at result
  · split at result
    · cases result
      exact .inl rfl
    case h_2 newBppIndex _ =>
      split at result
      case isTrue different =>
        simp only at result
        split at result
        · exact absurd result (by simp)
        case h_2 nodes listed =>
          cases result
          exact .inr ⟨newBppIndex, nodes, different, listed, rfl⟩
      · cases result
        exact .inl rfl
  · cases result
    exact .inl rfl

/-- At another depth the list of that depth is shown, with its selected item. -/
theorem changeDepth_moves [Fintype Ptr] {index : Int} {s after : Dialog Ptr}
    (result : changeDepth index s = .done after) (moves : after.bppIndex ≠ s.bppIndex) :
    after.pool = s.pool ∧ after.possible = s.possible ∧
      after.resTab = s.possible[after.bppIndex] ∧
      ∃ nodes, s.pool.list after.resTab = some nodes ∧
        after.curRes = selectedItem s.pool nodes := by
  rcases changeDepth_cases result with rfl | ⟨newBppIndex, nodes, _, listed, buttons⟩
  · exact absurd rfl moves
  · rcases Dialog.withButtons_eq {
      s with
      bppIndex := newBppIndex
      resTab := s.possible[newBppIndex]
      items := s.possible[newBppIndex]
      curRes := selectedItem s.pool nodes } with ⟨ok, info, changed⟩
    rw [buttons, changed]
    exact ⟨rfl, rfl, rfl, nodes, listed, rfl⟩

/-! ## `show_info` -/

/-- The answer of the user: the two fields as `atoi` reads them, if it was `INFO_OK`. -/
abbrev InfoAnswer := Option (Int32 × Int32)

variable [Fintype Ptr] [DecidableEq Ptr]

def Pool.edit (pool : Pool Ptr) (res : Ptr) (virtHres virtVres : Int32) : Pool Ptr :=
  { pool with
    mode := Function.update pool.mode res ((pool.mode res).editVirtual virtHres virtVres) }

def showInfo (qsort : QSort Ptr) (answer : InfoAnswer) (mallocSucceeds : Bool)
    (s : Dialog Ptr) : Outcome (Dialog Ptr) :=
  match s.curRes with
  | none => .wild
  | some res =>
      match answer with
      | none => .done s
      | some (virtHres, virtVres) =>
          (sortRestab qsort mallocSucceeds (s.pool.edit res virtHres virtVres) s.resTab).bind
            fun sorted => .done {
              s with
              pool := sorted.2
              resTab := sorted.1
              items := sorted.1 }

/-! ## Events -/

/-- What `lbox_do` does with a click on one of its objects: the selection it leaves on the
items of its list, the items that it calls `select_item` with, and whether it returns -1. -/
structure LboxDo (Ptr : Type) where
  selected : Ptr → Bool
  calls : List (Option Ptr)
  doubleClick : Bool

/-- The list box changes the selection of its items. -/
def Pool.reselect (pool : Pool Ptr) (nodes : List Ptr) (selected : Ptr → Bool) : Pool Ptr :=
  { pool with
    mode := fun res =>
      if res ∈ nodes then (pool.mode res).withSelected (selected res) else pool.mode res }

def lboxDo (click : LboxDo Ptr) (s : Dialog Ptr) : Outcome (Dialog Ptr) :=
  match s.pool.list s.items with
  | none => .wild
  | some nodes =>
      let s := { s with pool := s.pool.reselect nodes click.selected }
      .done (click.calls.foldl (fun s item => selectItem item s) s)

/-- What `hdl_obj` is called for. -/
inductive Event (Ptr : Type) where
  /-- The closer. -/
  | closed
  /-- A message without an object. -/
  | message
  /-- An object of the list box. -/
  | listBox (click : LboxDo Ptr)
  /-- `CHGRES_COLORS`, and the entry that `simple_popup` returns. -/
  | colors (index : Int)
  /-- `CHGRES_INFO`, and whether the table for sorting gets its memory. -/
  | info (answer : InfoAnswer) (mallocSucceeds : Bool)
  | ok
  | cancel
  /-- Any other object. -/
  | other

/-- `must_shutdown` is set, and `hdl_obj` returns 0. -/
def Dialog.leave (s : Dialog Ptr) (mustShutdown : Int16) : Dialog Ptr :=
  { s with mustShutdown := mustShutdown, isOpen := false }

/-- `hdl_obj` -/
def hdlObj (qsort : QSort Ptr) (event : Event Ptr) (s : Dialog Ptr) : Outcome (Dialog Ptr) :=
  match event with
  | .closed => .done { s with isOpen := false }
  | .message => .done s
  | .listBox click => (lboxDo click s).bind fun s =>
      .done (if click.doubleClick then s.leave 1 else s)
  | .colors index => changeDepth index s
  | .info answer mallocSucceeds => showInfo qsort answer mallocSucceeds s
  | .ok => .done (s.leave 1)
  | .cancel => .done (s.leave 0)
  | .other => .done s

/-- What GEM promises: a button is clicked only while it is enabled, the list box calls
`select_item` with its own items or `NULL`, and `lbox_do` returns -1 only after it has been
called with an item. -/
def Allowed (s : Dialog Ptr) : Event Ptr → Prop
  | .listBox click =>
      (∀ res, some res ∈ click.calls → ∃ nodes, s.pool.list s.items = some nodes ∧ res ∈ nodes) ∧
        (click.doubleClick = true → ∃ res, some res ∈ click.calls)
  | .info _ _ => s.info.disabled = false
  | .ok => s.ok.disabled = false
  | _ => True

/-- The dialog handles an event that GEM may send. -/
def Sends (s : Dialog Ptr) (event : Event Ptr) : Prop := s.isOpen = true ∧ Allowed s event

end Chgres
