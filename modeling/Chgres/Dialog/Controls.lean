import Chgres.Dialog.Session
import Chgres.Dialog.Started

/-! # The buttons of the dialog

Three places set the buttons: `select_res` before the dialog, `select_item`, and a change of
the depth. Between them the buttons follow the current mode.
-/

namespace Chgres

variable {Ptr : Type}

/-- The buttons are what the current mode asks for. -/
structure ButtonsFollow (s : Dialog Ptr) : Prop where
  ok : s.ok.disabled = false ↔ s.curRes ≠ none
  okSelectable : s.ok.selectable = true ↔ s.curRes ≠ none
  okDefault : s.ok.isDefault = true ↔ s.curRes ≠ none
  info : s.info.disabled = false ↔ ∃ res, s.curRes = some res ∧ (s.pool.mode res).HasInfo
  infoSelectable :
    s.info.selectable = true ↔ ∃ res, s.curRes = some res ∧ (s.pool.mode res).HasInfo

/-- The current mode is one of the list that is shown, the buttons follow it, and the
dialog is not left for a shutdown without it. -/
structure Controlled (s : Dialog Ptr) : Prop where
  member : ∀ res, s.curRes = some res →
    ∃ nodes, Chain s.pool.next s.resTab nodes ∧ res ∈ nodes
  buttons : ButtonsFollow s
  returns : s.mustShutdown = 1 → s.curRes ≠ none

/-! ## The places that set the buttons -/

section Buttons

theorem forMode_disabled (button : Button) (r : Res) :
    (button.forMode r).disabled = false ↔ r.HasInfo := by
  rw [Button.forMode]
  split
  case isTrue info => exact iff_of_true rfl info
  case isFalse plain => exact iff_of_false (by simp [Button.disable]) plain

theorem forMode_selectable (button : Button) (r : Res) :
    (button.forMode r).selectable = true ↔ r.HasInfo := by
  rw [Button.forMode]
  split
  case isTrue info => exact iff_of_true rfl info
  case isFalse plain => exact iff_of_false (by simp [Button.disable]) plain

variable {s : Dialog Ptr}

/-- A change of the depth sets the buttons, whatever they were. -/
theorem withButtons_follow (s : Dialog Ptr) : ButtonsFollow s.withButtons := by
  rw [Dialog.withButtons]
  cases current : s.curRes with
  | none =>
      constructor
      all_goals simp [current, Button.disable, Button.withDefault]
  | some res =>
      constructor
      all_goals simp [current, Button.enable, Button.withDefault, forMode_disabled,
        forMode_selectable]

/-- `select_item` relies on what the buttons were. -/
theorem ButtonsFollow.selectItem (follow : ButtonsFollow s) (item : Option Ptr) :
    ButtonsFollow (selectItem item s) := by
  cases item with
  | none => exact follow
  | some res =>
      rw [Chgres.selectItem]
      cases current : s.curRes with
      | none =>
          constructor
          all_goals simp [Button.enable, Button.withDefault, forMode_disabled,
            forMode_selectable]
      | some before =>
          have enabled := follow.ok.mpr (by simp [current])
          have selectable := follow.okSelectable.mpr (by simp [current])
          have isDefault := follow.okDefault.mpr (by simp [current])
          constructor
          all_goals simp [enabled, selectable, isDefault, forMode_disabled,
            forMode_selectable]

/-- Before the dialog `CHGRES_INFO` is enabled for every mode. -/
theorem selectRes_follow (ok info : Button) {globals : Globals Ptr}
    (hasInfo : ∀ res, globals.curRes = some res → (globals.pool.mode res).HasInfo) :
    ButtonsFollow (selectRes ok info globals) := by
  rw [selectRes]
  cases current : globals.curRes with
  | none =>
      constructor
      all_goals simp [current, Button.disable, Button.withDefault]
  | some res =>
      have info := hasInfo res current
      constructor
      all_goals simp [current, info, Button.enable, Button.withDefault]

end Buttons

/-! ## The links -/

/-- From every mode the links lead on within its depth, and the pointers of the program
point to modes of the depth they are for. -/
structure Rooted (loaded : Loaded Ptr) (s : Dialog Ptr) : Prop where
  links : ∀ i, ∀ res ∈ loaded.nodes i, ∃ nodes,
    Chain s.pool.next (some res) nodes ∧ ∀ other ∈ nodes, other ∈ loaded.nodes i
  heads : ∀ i : Fin maxDepths, ∀ res, s.possible[i] = some res → res ∈ loaded.nodes i
  shown : ∀ res, s.resTab = some res → res ∈ loaded.nodes s.bppIndex
  items : s.items = s.resTab
  info : ∀ i, ∀ res ∈ loaded.nodes i, (s.pool.mode res).HasInfo

section Rooted

variable {loaded : Loaded Ptr} {s : Dialog Ptr}

/-- A pointer to a mode of a depth leads to a list of that depth. -/
theorem Rooted.list (rooted : Rooted loaded s) {head : Option Ptr} {i : Fin maxDepths}
    (own : ∀ res, head = some res → res ∈ loaded.nodes i) :
    ∃ nodes, Chain s.pool.next head nodes ∧ ∀ other ∈ nodes, other ∈ loaded.nodes i := by
  cases head with
  | none => exact ⟨[], rfl, fun _ member => absurd member (by simp)⟩
  | some res => exact rooted.links i res (own res rfl)

/-- The links of a depth's modes are right again after one of its lists is sorted. -/
theorem Rooted.relinked (rooted : Rooted loaded s) {next : Ptr → Option Ptr}
    {start : Option Ptr} {table : List Ptr} {home : Fin maxDepths}
    (linked : Chain next start table) (within : ∀ res ∈ table, res ∈ loaded.nodes home)
    (same : ∀ other, other ∉ table → next other = s.pool.next other) (i : Fin maxDepths)
    {res : Ptr} (member : res ∈ loaded.nodes i) :
    ∃ nodes, Chain next (some res) nodes ∧ ∀ other ∈ nodes, other ∈ loaded.nodes i := by
  rcases rooted.links i res member with ⟨nodes, chain, own⟩
  by_cases here : i = home
  · subst here
    rcases chain.rejoin linked same with ⟨rest, linked', parts⟩
    refine ⟨rest, linked', fun other inside => ?_⟩
    rcases parts other inside with old | new
    · exact own other old
    · exact within other new
  · refine ⟨nodes, chain.congr fun other inside => same other fun elsewhere => ?_, own⟩
    exact loaded.holds.apart i home here other (own other inside) (within other elsewhere)

end Rooted

/-- The dialog is right, in all respects. -/
structure Right (loaded : Loaded Ptr) (s : Dialog Ptr) : Prop where
  controlled : Controlled s
  rooted : Rooted loaded s
  waits : s.isOpen = true → s.mustShutdown = 0

/-! ## The start -/

section Start

variable [Fintype Ptr] [DecidableEq Ptr] (qsort : QSort Ptr) (memory : SortMemory)
  (loaded : Loaded Ptr) (currez vmode : Int16) (ok info : Button)

omit [Fintype Ptr] [DecidableEq Ptr] in
/-- The modes have `FLAG_INFO` from the start. -/
theorem Globals.Built.hasInfo {loaded : Loaded Ptr} {table : Fin maxDepths → List Ptr}
    {globals : Globals Ptr} (built : globals.Built loaded table) {i : Fin maxDepths} {res : Ptr}
    (member : res ∈ loaded.nodes i) : (globals.pool.mode res).HasInfo := by
  rcases built.modes res with ⟨selected, mode⟩
  rw [mode]
  exact (loaded.created i res member).info

omit [Fintype Ptr] [DecidableEq Ptr] in
/-- The pointers that `init_res` leaves point into the list they are for. -/
theorem pointers_inside {qsort : QSort Ptr} {memory : SortMemory} {loaded : Loaded Ptr}
    {currez vmode : Int16} {globals : Globals Ptr}
    (holds : HoldsLists globals.pool globals.possible (finalLists qsort memory loaded))
    (inside : ∀ i res, res ∈ finalLists qsort memory loaded i ↔ res ∈ loaded.nodes i)
    (last : match Slots.highest
        (holdsCurrent loaded currez vmode (finalLists qsort memory loaded)) with
      | none => globals.curRes = none ∧ globals.TakesBest qsort memory loaded
      | some i =>
          globals.curRes = firstCurrent loaded currez vmode (finalLists qsort memory loaded i) ∧
            globals.bppIndex = i ∧ globals.resTab = (finalLists qsort memory loaded i).head?) :
    (∀ res, globals.curRes = some res →
      (∃ nodes, Chain globals.pool.next globals.resTab nodes ∧ res ∈ nodes) ∧
        res ∈ loaded.nodes globals.bppIndex) ∧
      ∀ res, globals.resTab = some res → res ∈ loaded.nodes globals.bppIndex := by
  split at last
  · refine ⟨fun res chosen => ?_, fun res head => ?_⟩
    · rw [last.1] at chosen
      exact absurd chosen (by simp)
    · have takes := last.2
      rw [Globals.TakesBest] at takes
      cases best : bestDepth loaded.possible with
      | none =>
          rw [best] at takes
          rw [takes.2] at head
          exact absurd head (by simp)
      | some i =>
          rw [best] at takes
          rw [takes.2, bestSorted_best best] at head
          rw [takes.1]
          exact (resorted_perm qsort memory.best).mem_iff.mp (List.mem_of_head? head)
  case h_2 i found =>
    rcases last with ⟨cur, bpp, tab⟩
    rw [bpp]
    refine ⟨fun res chosen => ?_, fun res head => ?_⟩
    · have member := List.mem_of_find?_eq_some (cur.symm.trans chosen)
      refine ⟨⟨_, ?_, member⟩, (inside i res).mp member⟩
      rw [tab, ← holds.head_eq]
      exact holds.chain i
    · exact (inside i res).mp (List.mem_of_head? (tab.symm.trans head))

/-- Every start puts the dialog into a state that is right. -/
theorem selectRes_right : ∃ globals,
    initRes qsort memory currez vmode loaded.pool loaded.possible = .done globals ∧
      Right loaded (selectRes ok info globals) := by
  rcases initRes_done qsort memory loaded currez vmode with ⟨globals, ends, built, _, last⟩
  have inside : ∀ i res, res ∈ finalLists qsort memory loaded i ↔ res ∈ loaded.nodes i :=
    fun i res => (built.perm i).mem_iff
  rcases pointers_inside built.holds inside last with ⟨current, shown⟩
  rcases selectRes_eq ok info globals with ⟨ok', info', same⟩
  refine ⟨globals, ends, ⟨?_, ?_, ?_⟩, ⟨?_, ?_, ?_, ?_, ?_⟩, ?_⟩
  · rw [same]
    exact fun res chosen => (current res chosen).1
  · exact selectRes_follow ok info fun res chosen => built.hasInfo (current res chosen).2
  · rw [same]
    exact fun set => absurd set (show ¬ (0 : Int16) = 1 by decide)
  · intro i res member
    rcases (built.holds.chain i).from_mem ((inside i res).mpr member) with
      ⟨before, after, split, rest⟩
    rw [same]
    refine ⟨res :: after, rest, fun other follows => (inside i other).mp ?_⟩
    rw [split]
    exact List.mem_append_right before follows
  · intro i res head
    rw [same] at head
    apply (inside i res).mp
    exact List.mem_of_head? ((built.holds.head_eq i).symm.trans head)
  · rw [same]
    exact shown
  · rw [same]
  · intro i res member
    rw [same]
    exact built.hasInfo member
  · rw [same]
    exact fun _ => rfl

end Start

/-! ## The events -/

section Events

variable {loaded : Loaded Ptr} {s : Dialog Ptr}

theorem reselect_hasInfo [DecidableEq Ptr] (pool : Pool Ptr) (nodes : List Ptr)
    (selected : Ptr → Bool)
    (res : Ptr) : ((pool.reselect nodes selected).mode res).HasInfo ↔ (pool.mode res).HasInfo := by
  rw [Pool.reselect]
  simp only
  split
  · exact Iff.rfl
  · exact Iff.rfl

theorem edit_hasInfo [DecidableEq Ptr] (pool : Pool Ptr) (edited : Ptr)
    (virtHres virtVres : Int32) (res : Ptr) :
    ((pool.edit edited virtHres virtVres).mode res).HasInfo ↔ (pool.mode res).HasInfo := by
  unfold Pool.edit Res.HasInfo
  by_cases same : res = edited
  · subst same
    simp only [Function.update_self, Res.editVirtual_flags]
  · simp only [Function.update_of_ne same]

/-- The modes may change, as long as `FLAG_INFO` stays. -/
theorem Right.with_mode (right : Right loaded s) {mode : Ptr → Res}
    (info : ∀ res, (mode res).HasInfo ↔ (s.pool.mode res).HasInfo) :
    Right loaded { s with pool := { s.pool with mode := mode } } where
  controlled := {
    member := right.controlled.member
    buttons := {
      ok := right.controlled.buttons.ok
      okSelectable := right.controlled.buttons.okSelectable
      okDefault := right.controlled.buttons.okDefault
      info := by simpa only [info] using right.controlled.buttons.info
      infoSelectable := by simpa only [info] using right.controlled.buttons.infoSelectable }
    returns := right.controlled.returns }
  rooted := {
    links := right.rooted.links
    heads := right.rooted.heads
    shown := right.rooted.shown
    items := right.rooted.items
    info := fun i res member => (info res).mpr (right.rooted.info i res member) }
  waits := right.waits

theorem Right.close (right : Right loaded s) : Right loaded { s with isOpen := false } where
  controlled := ⟨right.controlled.member, ⟨right.controlled.buttons.ok,
    right.controlled.buttons.okSelectable, right.controlled.buttons.okDefault,
    right.controlled.buttons.info, right.controlled.buttons.infoSelectable⟩,
    right.controlled.returns⟩
  rooted := ⟨right.rooted.links, right.rooted.heads, right.rooted.shown, right.rooted.items,
    right.rooted.info⟩
  waits isOpen := Bool.noConfusion isOpen

/-- The dialog may be left for a shutdown when there is a current mode. -/
theorem Right.leave (right : Right loaded s) {mustShutdown : Int16}
    (chosen : mustShutdown = 1 → s.curRes ≠ none) : Right loaded (s.leave mustShutdown) where
  controlled := ⟨right.controlled.member, ⟨right.controlled.buttons.ok,
    right.controlled.buttons.okSelectable, right.controlled.buttons.okDefault,
    right.controlled.buttons.info, right.controlled.buttons.infoSelectable⟩, chosen⟩
  rooted := ⟨right.rooted.links, right.rooted.heads, right.rooted.shown, right.rooted.items,
    right.rooted.info⟩
  waits isOpen := Bool.noConfusion isOpen

theorem Controlled.selectItem (controlled : Controlled s) {nodes : List Ptr}
    (chain : Chain s.pool.next s.resTab nodes) {item : Option Ptr}
    (own : ∀ res, item = some res → res ∈ nodes) : Controlled (selectItem item s) := by
  refine ⟨?_, controlled.buttons.selectItem item, ?_⟩
  · cases item with
    | none => exact controlled.member
    | some res =>
        rintro chosen ⟨⟩
        exact ⟨nodes, chain, own _ rfl⟩
  · cases item with
    | none => exact controlled.returns
    | some res => exact fun _ => by simp [Chgres.selectItem]

/-- `select_item` is called with items of the list. -/
theorem Controlled.foldl_selectItem {nodes : List Ptr} {calls : List (Option Ptr)}
    (controlled : Controlled s) (chain : Chain s.pool.next s.resTab nodes)
    (own : ∀ res, some res ∈ calls → res ∈ nodes) :
    Controlled (calls.foldl (fun s item => Chgres.selectItem item s) s) ∧
      ((∃ res, some res ∈ calls) ∨ s.curRes ≠ none →
        (calls.foldl (fun s item => Chgres.selectItem item s) s).curRes ≠ none) := by
  induction calls generalizing s with
  | nil =>
      refine ⟨controlled, ?_⟩
      rintro (⟨res, member⟩ | chosen)
      · exact absurd member (by simp)
      · exact chosen
  | cons item calls induction =>
      have next := controlled.selectItem chain
        (fun res same => own res (same ▸ List.mem_cons_self) : ∀ res, item = some res → res ∈ nodes)
      have chain' : Chain (Chgres.selectItem item s).pool.next (Chgres.selectItem item s).resTab
          nodes := by
        cases item with
        | none => exact chain
        | some res => exact chain
      rcases induction next chain' fun res member => own res (List.mem_cons_of_mem item member) with
        ⟨controlled', chosen'⟩
      refine ⟨controlled', fun given => chosen' ?_⟩
      cases item with
      | none =>
          rcases given with ⟨res, member⟩ | chosen
          · exact .inl ⟨res, by simpa using member⟩
          · exact .inr chosen
      | some res => exact .inr (by simp [Chgres.selectItem])

variable [Fintype Ptr] [DecidableEq Ptr]

theorem Right.listBox (right : Right loaded s) {click : LboxDo Ptr}
    (allowed : Allowed s (.listBox click)) : ∃ after, lboxDo click s = .done after ∧
      Right loaded after ∧ (click.doubleClick = true → after.curRes ≠ none) := by
  rcases right.rooted.list right.rooted.shown with ⟨nodes, chain, within⟩
  have items := right.rooted.items
  have listed : s.pool.list s.items = some nodes := by
    rw [items]
    exact Pool.list_eq chain
  have own : ∀ res, some res ∈ click.calls → res ∈ nodes := by
    intro res member
    rcases allowed.1 res member with ⟨nodes', listed', inside⟩
    cases listed.symm.trans listed'
    exact inside
  have start : Right loaded { s with pool := s.pool.reselect nodes click.selected } :=
    right.with_mode (reselect_hasInfo s.pool nodes click.selected)
  rcases start.controlled.foldl_selectItem chain own with ⟨controlled, chosen⟩
  rcases foldl_selectItem_eq click.calls
    { s with pool := s.pool.reselect nodes click.selected } with ⟨ok, info, curRes, called⟩
  refine ⟨_, by rw [lboxDo, listed], ⟨controlled, ?_, ?_⟩, fun double => ?_⟩
  · rw [called]
    exact ⟨start.rooted.links, start.rooted.heads, start.rooted.shown, start.rooted.items,
      start.rooted.info⟩
  · rw [called]
    exact start.waits
  · exact chosen (.inl (allowed.2 double))

omit [DecidableEq Ptr] in
theorem Right.colors (right : Right loaded s) (isOpen : s.isOpen = true) (index : Int) :
    ∃ after, changeDepth index s = .done after ∧ Right loaded after := by
  rw [changeDepth]
  split
  · cases target : popupToIndex s.possible index with
    | none => exact ⟨s, rfl, right⟩
    | some newBppIndex =>
        simp only
        split
        · rcases right.rooted.list (right.rooted.heads newBppIndex) with ⟨nodes, chain, within⟩
          simp only [Pool.list_eq chain]
          generalize changed : Dialog.mk _ _ _ _ _ _ = moved
          have follow := withButtons_follow moved
          rcases Dialog.withButtons_eq moved with ⟨ok, info, same⟩
          refine ⟨moved.withButtons, rfl, ⟨?_, follow, ?_⟩, ?_, ?_⟩
          · rw [same, ← changed]
            exact fun res chosen => ⟨nodes, chain, List.mem_of_find?_eq_some chosen⟩
          · rw [same, ← changed]
            intro set
            rw [show s.mustShutdown = 0 from right.waits isOpen] at set
            exact absurd set (by decide)
          · rw [same, ← changed]
            exact ⟨right.rooted.links, right.rooted.heads, right.rooted.heads newBppIndex, rfl,
              right.rooted.info⟩
          · rw [same, ← changed]
            exact right.waits
        · exact ⟨s, rfl, right⟩
  · exact ⟨s, rfl, right⟩

/-- A list that is sorted still has the current mode, and its links stay within its depth. -/
theorem Right.sort (qsort : QSort Ptr) (right : Right loaded s) (mallocSucceeds : Bool) {res : Ptr}
    (chosen : s.curRes = some res) :
    ∃ sorted, sortRestab qsort mallocSucceeds s.pool s.resTab = .done sorted ∧
      Right loaded { s with pool := sorted.2, resTab := sorted.1, items := sorted.1 } := by
  rcases right.controlled.member res chosen with ⟨nodes, chain, member⟩
  rcases right.rooted.list right.rooted.shown with ⟨nodes', chain', within⟩
  cases chain.unique chain'
  have nonempty : nodes ≠ [] := List.ne_nil_of_mem member
  rcases sortRestab_done qsort mallocSucceeds chain nonempty with ⟨next, ends, linked, others⟩
  have same : ∀ other, other ∈ resorted qsort mallocSucceeds s.pool nodes ↔ other ∈ nodes :=
    fun other => (resorted_perm qsort mallocSucceeds).mem_iff
  refine ⟨_, ends, ⟨?_, ?_, right.controlled.returns⟩, ?_, right.waits⟩
  · intro other chosen'
    rw [chosen] at chosen'
    cases chosen'
    exact ⟨_, linked, (same res).mpr member⟩
  · exact ⟨right.controlled.buttons.ok, right.controlled.buttons.okSelectable,
      right.controlled.buttons.okDefault, right.controlled.buttons.info,
      right.controlled.buttons.infoSelectable⟩
  · refine ⟨fun i other inside => ?_, right.rooted.heads, fun other head => ?_, rfl,
      right.rooted.info⟩
    · refine right.rooted.relinked linked (fun other inside => within other ((same other).mp inside))
        (fun other outside => others other fun inside => outside ((same other).mpr inside)) i inside
    · exact within other ((same other).mp (List.mem_of_head? head))

theorem Right.info (qsort : QSort Ptr) (right : Right loaded s)
    (enabled : s.info.disabled = false) (answer : InfoAnswer) (mallocSucceeds : Bool) :
    ∃ after, showInfo qsort answer mallocSucceeds s = .done after ∧ Right loaded after := by
  rcases right.controlled.buttons.info.mp enabled with ⟨_, present, _⟩
  rw [showInfo]
  split
  case h_1 missing => exact absurd (missing.symm.trans present) (by simp)
  case h_2 res chosen =>
    cases answer with
    | none => exact ⟨s, rfl, right⟩
    | some fields =>
        have edited : Right loaded { s with pool := s.pool.edit res fields.1 fields.2 } :=
          right.with_mode (edit_hasInfo s.pool res fields.1 fields.2)
        rcases edited.sort qsort mallocSucceeds chosen with ⟨sorted, ends, right'⟩
        exact ⟨_, by simp only [ends, Outcome.done_bind], right'⟩

/-- Whatever GEM sends is handled, and the dialog stays right. -/
theorem Right.step (qsort : QSort Ptr) (right : Right loaded s) {event : Event Ptr}
    (sends : Sends s event) :
    ∃ after, hdlObj qsort event s = .done after ∧ Right loaded after := by
  rcases sends with ⟨isOpen, allowed⟩
  cases event with
  | closed => exact ⟨_, rfl, right.close⟩
  | message | other => exact ⟨s, rfl, right⟩
  | listBox click =>
      rcases right.listBox allowed with ⟨after, ends, right', chosen⟩
      refine ⟨_, by rw [hdlObj, ends]; rfl, ?_⟩
      split
      case isTrue double => exact right'.leave fun _ => chosen double
      case isFalse => exact right'
  | colors index => exact right.colors isOpen index
  | info answer mallocSucceeds => exact right.info qsort allowed answer mallocSucceeds
  | ok => exact ⟨_, rfl, right.leave fun _ => right.controlled.buttons.ok.mp allowed⟩
  | cancel => exact ⟨_, rfl, right.leave fun set => absurd set (by decide)⟩

end Events

/-! ## A session -/

def ttDialog : Dialog (Place ttLists) := selectRes plainButton plainButton ttGlobals

/-- A step of the dialog. -/
def ttStep (event : Event (Place ttLists)) (s : Dialog (Place ttLists)) :
    Dialog (Place ttLists) :=
  (hdlObj ttSort.toQSort event s).getD s

theorem ttStep_reaches {event : Event (Place ttLists)} {s : Dialog (Place ttLists)}
    (reaches : Reaches (hdlObj ttSort.toQSort) Sends ttDialog s) (sends : Sends s event)
    (isDone : (hdlObj ttSort.toQSort event s).isDone = true) :
    Reaches (hdlObj ttSort.toQSort) Sends ttDialog (ttStep event s) :=
  reaches.step sends (Outcome.eq_done_getD isDone s)

/-- The smaller of two modes gets a virtual size above the other one's. -/
def ttEdit : Event (Place ttLists) := .info (some (1024, 768)) true

def ttEdited : Dialog (Place ttLists) := ttStep ttEdit ttDialog

/-- The user looks at another depth. -/
def ttAway : Dialog (Place ttLists) := ttStep (.colors 3) ttEdited

def ttBack : Dialog (Place ttLists) := ttStep (.colors 2) ttAway

theorem ttEdited_reaches : Reaches (hdlObj ttSort.toQSort) Sends ttDialog ttEdited := by
  have enabled : ttDialog.info.disabled = false := by decide +kernel
  exact ttStep_reaches .start ⟨by decide +kernel, enabled⟩ (by decide +kernel)

theorem ttBack_reaches : Reaches (hdlObj ttSort.toQSort) Sends ttDialog ttBack := by
  have away : Reaches (hdlObj ttSort.toQSort) Sends ttDialog ttAway :=
    ttStep_reaches ttEdited_reaches ⟨by decide +kernel, trivial⟩ (by decide +kernel)
  exact ttStep_reaches away ⟨by decide +kernel, trivial⟩ (by decide +kernel)

/-! ## Whole sessions -/

section Sessions

variable [Fintype Ptr] [DecidableEq Ptr]

/-- Whatever the start-up finds, in every state that the dialog reaches the current mode is
one of the list that is shown, the buttons follow it, and the dialog is left for a shutdown
only with a current mode; and the dialog has an answer to everything that GEM may send. -/
theorem controls_follow (qsort : QSort Ptr) (memory : SortMemory) (loaded : Loaded Ptr)
    (currez vmode : Int16) (ok info : Button) :
    ∃ globals, initRes qsort memory currez vmode loaded.pool loaded.possible = .done globals ∧
      ∀ s, Reaches (hdlObj qsort) Sends (selectRes ok info globals) s →
        Controlled s ∧ ∀ event, Sends s event → ∃ after, hdlObj qsort event s = .done after := by
  rcases selectRes_right qsort memory loaded currez vmode ok info with ⟨globals, ends, start⟩
  refine ⟨globals, ends, fun s reaches => ?_⟩
  have right : Right loaded s := by
    apply reaches.invariant start
    intro before after event right sends result
    rcases right.step qsort sends with ⟨after', result', right'⟩
    cases result.symm.trans result'
    exact right'
  refine ⟨right.controlled, fun event sends => ?_⟩
  rcases right.step qsort sends with ⟨after, result, _⟩
  exact ⟨after, result⟩

end Sessions

/-- The edited mode is current, and after the way through another depth none is. -/
theorem controls_follow_sample :
    Controlled ttEdited ∧ ttEdited.curRes ≠ none ∧ Controlled ttBack ∧ ttBack.curRes = none := by
  rcases controls_follow ttSort.toQSort .ample ttLoaded 2 0 plainButton plainButton with
    ⟨globals, starts, follow⟩
  have same : globals = ttGlobals :=
    Outcome.done.inj (starts.symm.trans (Outcome.eq_done_getD ttStart_isDone _))
  subst same
  exact ⟨(follow _ ttEdited_reaches).1, by decide +kernel, (follow _ ttBack_reaches).1,
    by decide +kernel⟩

end Chgres
