import Chgres.Dialog.Controls
import Chgres.Dialog.Popup
import Chgres.Foundation.Ranks

/-! # The popup of the depths

`select_res` names the depths that have modes once, before the dialog. A row of the popup
stands for one of them, so that `popup_to_index` has to lead from the row that the user sees
to its depth.
-/

namespace Chgres

open Text

variable {Ptr : Type}

/-! ## Rows and depths -/

/-- `bpp_tab` -/
def bppTab : Vector Bytes maxDepths := #v[
  ascii "    2",
  ascii "    4",
  ascii "   16",
  ascii "  256",
  ascii "  32K",
  ascii "  65K",
  ascii "  16M",
  ascii "  16M"]

/-- `init_lbox_names`: the names up to `name_count`. -/
def initLboxNames (possible : Vector (Option Ptr) maxDepths) : List Bytes :=
  (List.finRange maxDepths).filterMap fun i =>
    if possible[i] ≠ none then some bppTab[i] else none

/-- `index_to_popup` -/
def indexToPopup (possible : Vector (Option Ptr) maxDepths) (bpp : Fin maxDepths) : Int :=
  ((List.finRange maxDepths).take (bpp + 1)).foldl
    (fun idx i => if possible[i] ≠ none then idx + 1 else idx) (-1)

def hasModes (possible : Vector (Option Ptr) maxDepths) (i : Fin maxDepths) : Bool :=
  possible[i].isSome

/-- The depths that have modes. -/
def offered (possible : Vector (Option Ptr) maxDepths) : List (Fin maxDepths) :=
  (List.finRange maxDepths).filter (hasModes possible)

section Rows

variable {possible : Vector (Option Ptr) maxDepths}

theorem hasModes_iff (i : Fin maxDepths) : hasModes possible i = true ↔ possible[i] ≠ none := by
  rw [hasModes, Option.isSome_iff_ne_none]

theorem initLboxNames_eq (possible : Vector (Option Ptr) maxDepths) :
    initLboxNames possible = (offered possible).map fun i => bppTab[i] := by
  rw [initLboxNames, offered]
  induction List.finRange maxDepths with
  | nil => rfl
  | cons i depths induction =>
      by_cases present : hasModes possible i = true
      · rw [List.filter_cons_of_pos present, List.map_cons, ← induction]
        exact List.filterMap_cons_some (if_pos ((hasModes_iff i).mp present))
      · rw [List.filter_cons_of_neg present, ← induction]
        exact List.filterMap_cons_none (if_neg (mt (hasModes_iff i).mpr present))

/-- The loop of `popup_to_index` counts the depths that have modes. -/
theorem countDown_eq (depths : List (Fin maxDepths)) (idx : Nat) :
    countDown possible depths idx = (depths.filter (hasModes possible))[idx]? := by
  induction depths generalizing idx with
  | nil => rfl
  | cons i depths induction =>
      rw [countDown, ← hasModes]
      by_cases present : hasModes possible i = true
      · rw [List.filter_cons_of_pos present]
        simp only [if_pos present]
        cases idx with
        | zero => rfl
        | succ idx =>
            have next : ((idx + 1 : Nat) : Int) - 1 = idx := by omega
            rw [next, if_neg (by omega), induction, List.getElem?_cons_succ]
      · rw [List.filter_cons_of_neg present]
        simp only [if_neg present]
        rw [if_neg (by omega), induction]

theorem popupToIndex_eq (possible : Vector (Option Ptr) maxDepths) (idx : Nat) :
    popupToIndex possible idx = (offered possible)[idx]? :=
  countDown_eq _ idx

theorem foldl_count (depths : List (Fin maxDepths)) (idx : Int) :
    depths.foldl (fun idx i => if possible[i] ≠ none then idx + 1 else idx) idx =
      idx + depths.countP (hasModes possible) := by
  induction depths generalizing idx with
  | nil => simp
  | cons i depths induction =>
      rw [List.foldl_cons, induction]
      by_cases present : hasModes possible i = true
      · rw [if_pos ((hasModes_iff i).mp present), List.countP_cons_of_pos present]
        omega
      · rw [if_neg (mt (hasModes_iff i).mpr present), List.countP_cons_of_neg present]

/-- A depth that has modes is at the row that `index_to_popup` says. -/
theorem indexToPopup_row {depth : Fin maxDepths} (present : hasModes possible depth = true) :
    ∃ row : Nat, indexToPopup possible depth = row ∧ (offered possible)[row]? = some depth := by
  rcases take_finRange depth with ⟨back, whole, upTo⟩
  refine ⟨((List.finRange maxDepths).take depth).countP (hasModes possible), ?_, ?_⟩
  · rw [indexToPopup, upTo, foldl_count, List.countP_append, List.countP_singleton, if_pos present]
    omega
  · have here := filter_getElem?_rank ((List.finRange maxDepths).take depth) back present
    rwa [← whole] at here

theorem offered_length_le (possible : Vector (Option Ptr) maxDepths) :
    (offered possible).length ≤ 8 := by
  rw [offered]
  exact (List.length_filter_le _ _).trans_eq List.length_finRange

/-- No depth has two rows. -/
theorem offered_nodup (possible : Vector (Option Ptr) maxDepths) : (offered possible).Nodup :=
  (List.nodup_finRange maxDepths).filter _

/-- Without any modes there is no row. -/
theorem indexToPopup_nothing (nothing : ∀ i, hasModes possible i = false) (bpp : Fin maxDepths) :
    indexToPopup possible bpp = -1 ∧ offered possible = [] := by
  constructor
  · rw [indexToPopup, foldl_count, List.countP_eq_zero.mpr (by simp [nothing])]
    rfl
  · rw [offered, List.filter_eq_nil_iff]
    simp [nothing]

end Rows

/-! ## What a click opens -/

section Click

/-- The row that `index_to_popup` has checked. -/
def checkedRow (s : Dialog Ptr) : Int16 := .ofInt (indexToPopup s.possible s.bppIndex)

/-- The tree that `form_popup` is given at `CHGRES_COLORS`. -/
def popupTree (around : Popup.Surroundings) (colors : Popup.Object) (names : List Bytes)
    (s : Dialog Ptr) : List Popup.Object :=
  Popup.newtree around colors names (checkedRow s)

/-- The click on `CHGRES_COLORS`, with what `simple_popup` returns for it. -/
def popupEvent (around : Popup.Surroundings) (colors : Popup.Object) (names : List Bytes)
    (s : Dialog Ptr) : Event Ptr :=
  .colors (Popup.simplePopup around colors names (checkedRow s)).toInt

/-- The heads of the lists are those of the start, and the current depth has modes unless
none has. -/
structure Offers (start : Vector (Option Ptr) maxDepths) (s : Dialog Ptr) : Prop where
  same : s.possible = start
  current : hasModes start s.bppIndex = true ∨ ∀ i, hasModes start i = false

variable {start : Vector (Option Ptr) maxDepths} {s after : Dialog Ptr}

/-- The current depth's row is the checked one. -/
theorem checkedRow_iff (offers : Offers start s) {row : Nat} {depth : Fin maxDepths}
    (inside : (offered s.possible)[row]? = some depth) :
    (checkedRow s).toInt = row ↔ depth = s.bppIndex := by
  have own : hasModes s.possible depth = true := (rank_of_filter_getElem? inside).1
  have current : hasModes s.possible s.bppIndex = true := by
    rw [offers.same] at own ⊢
    rcases offers.current with present | nothing
    · exact present
    · rw [nothing depth] at own
      exact Bool.noConfusion own
  rcases indexToPopup_row current with ⟨row', isRow, inside'⟩
  have few := offered_length_le s.possible
  have bound := (List.getElem?_eq_some_iff.mp inside').1
  rw [checkedRow, isRow, Int16.toInt_ofInt_of_le (by omega) (by omega)]
  constructor
  · intro same
    have same' : row' = row := by omega
    rw [same', inside] at inside'
    exact Option.some.inj inside'
  · rintro rfl
    have bound' := (List.getElem?_eq_some_iff.mp inside).1
    have same := (List.getElem?_inj bound' (offered_nodup s.possible)).mp (inside.trans inside'.symm)
    omega

variable [Fintype Ptr]

/-- A row leads to the depth whose name it shows. -/
theorem changeDepth_row {row : Nat} {depth : Fin maxDepths}
    (inside : (offered s.possible)[row]? = some depth)
    (result : changeDepth row s = .done after) :
    after.bppIndex = depth ∧ (depth ≠ s.bppIndex → after.resTab = s.possible[depth]) ∧
      (depth = s.bppIndex → after = s) := by
  rw [changeDepth, if_pos (by omega), popupToIndex_eq, inside] at result
  simp only at result
  split at result
  case isTrue different =>
    split at result
    · exact absurd result (by simp)
    case h_2 nodes listed =>
      cases result
      rcases Dialog.withButtons_eq {
        s with
        bppIndex := depth
        resTab := s.possible[depth]
        items := s.possible[depth]
        curRes := selectedItem s.pool nodes } with ⟨ok, info, changed⟩
      rw [changed]
      exact ⟨rfl, fun _ => rfl, fun same => absurd same different⟩
  case isFalse same =>
    rw [not_not] at same
    cases result
    exact ⟨same.symm, fun different => absurd same different, fun _ => rfl⟩

/-- Without a choice, and without memory for the popup, nothing changes. -/
theorem changeDepth_kept (offers : Offers start s) {index : Int}
    (kept : index = -1 ∨ index = (checkedRow s).toInt) : changeDepth index s = .done s := by
  have negative : ∀ index : Int, index = -1 → changeDepth index s = .done s := by
    rintro index rfl
    rw [changeDepth, if_neg (by decide)]
  rcases kept with none | same
  · exact negative index none
  · rcases offers.current with present | nothing
    · rw [← offers.same] at present
      rcases indexToPopup_row present with ⟨row, isRow, inside⟩
      have few := offered_length_le s.possible
      have bound := (List.getElem?_eq_some_iff.mp inside).1
      rw [checkedRow, isRow, Int16.toInt_ofInt_of_le (by omega) (by omega)] at same
      rw [same, changeDepth, if_pos (by omega), popupToIndex_eq, inside]
      simp only [ne_eq, not_true_eq_false, if_false]
    · rw [← offers.same] at nothing
      apply negative
      rw [same, checkedRow, (indexToPopup_nothing nothing s.bppIndex).1]
      decide

/-- `popup_to_index` only leads to a depth that has modes. -/
theorem changeDepth_offers {index : Int} (result : changeDepth index s = .done after) :
    after.possible = s.possible ∧
      (after.bppIndex = s.bppIndex ∨ hasModes s.possible after.bppIndex = true) := by
  have kept : after.possible = s.possible := by
    rcases changeDepth_cases result with rfl | ⟨depth, nodes, _, _, buttons⟩
    · rfl
    · rcases Dialog.withButtons_eq {
        s with
        bppIndex := depth
        resTab := s.possible[depth]
        items := s.possible[depth]
        curRes := selectedItem s.pool nodes } with ⟨ok, info, changed⟩
      rw [buttons, changed]
  refine ⟨kept, ?_⟩
  by_cases nonneg : 0 ≤ index
  · rcases Int.eq_ofNat_of_zero_le nonneg with ⟨row, rfl⟩
    cases inside : (offered s.possible)[row]? with
    | none =>
        rw [changeDepth, if_pos nonneg, popupToIndex_eq, inside] at result
        cases result
        exact .inl rfl
    | some depth =>
        rw [(changeDepth_row inside result).1]
        exact .inr (rank_of_filter_getElem? inside).1
  · rw [changeDepth, if_neg nonneg] at result
    cases result
    exact .inl rfl

/-- Only a click on a row moves to another depth, and that one has modes. -/
theorem Offers.step [DecidableEq Ptr] (qsort : QSort Ptr) (offers : Offers start s)
    {event : Event Ptr} (result : hdlObj qsort event s = .done after) :
    Offers start after := by
  cases event with
  | closed | message | ok | cancel | other =>
      cases result
      exact ⟨offers.same, offers.current⟩
  | listBox click =>
      rw [hdlObj, lboxDo] at result
      split at result
      · exact absurd result (by simp)
      case h_2 nodes listed =>
        rcases foldl_selectItem_eq click.calls
          { s with pool := s.pool.reselect nodes click.selected } with ⟨ok, info, curRes, called⟩
        simp only [called, Outcome.done_bind] at result
        cases result
        split
        · exact ⟨offers.same, offers.current⟩
        · exact ⟨offers.same, offers.current⟩
  | colors index =>
      rcases changeDepth_offers result with ⟨possible, stays | moves⟩
      · exact ⟨possible.trans offers.same, by rw [stays]; exact offers.current⟩
      · rw [offers.same] at moves
        exact ⟨possible.trans offers.same, .inl moves⟩
  | info answer mallocSucceeds =>
      rw [hdlObj, showInfo] at result
      split at result
      · exact absurd result (by simp)
      case h_2 res current =>
        split at result
        · cases result
          exact offers
        case h_2 virtHres virtVres =>
          cases sorted : sortRestab qsort mallocSucceeds (s.pool.edit res virtHres virtVres)
              s.resTab with
          | wild =>
              rw [sorted] at result
              exact absurd result (by simp)
          | done next =>
              rw [sorted] at result
              cases result
              exact ⟨offers.same, offers.current⟩

end Click

/-! ## Whole sessions -/

section Sessions

variable [Fintype Ptr] [DecidableEq Ptr] (qsort : QSort Ptr) (memory : SortMemory)
  (loaded : Loaded Ptr) (currez vmode : Int16) (ok info : Button)

omit [Fintype Ptr] [DecidableEq Ptr] in
theorem Globals.Built.hasModes_iff {loaded : Loaded Ptr} {table : Fin maxDepths → List Ptr}
    {globals : Globals Ptr} (built : globals.Built loaded table) (i : Fin maxDepths) :
    hasModes globals.possible i = true ↔ loaded.nodes i ≠ [] := by
  rw [Chgres.hasModes_iff, ne_eq, built.holds.none_iff]
  apply not_congr
  constructor
  · intro empty
    have perm := built.perm i
    rw [empty] at perm
    exact perm.nil_eq.symm
  · intro empty
    have perm := built.perm i
    rw [empty] at perm
    exact perm.eq_nil

/-- `init_res` starts with a depth that has modes, if there is one. -/
theorem selectRes_offers : ∃ globals,
    initRes qsort memory currez vmode loaded.pool loaded.possible = .done globals ∧
      Offers globals.possible (selectRes ok info globals) := by
  rcases initRes_done qsort memory loaded currez vmode with ⟨globals, ends, built, _, last⟩
  rcases selectRes_eq ok info globals with ⟨ok', info', same⟩
  refine ⟨globals, ends, by rw [same], ?_⟩
  rw [same]
  split at last
  · have takes := last.2
    rw [Globals.TakesBest] at takes
    cases best : bestDepth loaded.possible with
    | none =>
        refine .inr fun i => ?_
        rw [← Bool.not_eq_true, built.hasModes_iff, not_not]
        exact bestDepth_none best i
    | some i =>
        rw [best] at takes
        simp only [takes.1]
        exact .inl ((built.hasModes_iff i).mpr (bestDepth_some best).1)
  case h_2 i found =>
    have holds := (Slots.highest_eq_some.mp found).1
    rcases (holdsCurrent_iff built.perm i).mp holds with ⟨res, member, _⟩
    simp only [last.2.1]
    exact .inl ((built.hasModes_iff i).mpr (List.ne_nil_of_mem member))

/-- A row of the popup: it shows the name of its depth, is checked if that is the current
one, and opens it when one of its two objects is chosen. -/
structure RowOpens (around : Popup.Surroundings) (colors : Popup.Object) (names : List Bytes)
    (s : Dialog Ptr) (row : Nat) (depth : Fin maxDepths) : Prop where
  shows : ∃ box text, (popupTree around colors names s)[2 * row + 1]? = some box ∧
    (popupTree around colors names s)[2 * row + 2]? = some text ∧
    text.spec = .freeString bppTab[depth] ∧ (box.Checked ↔ depth = s.bppIndex)
  opens : around.allocated = true → ∀ answer : Int16,
    around.formPopup (popupTree around colors names s) = answer →
    answer.toInt = 2 * row + 1 ∨ answer.toInt = 2 * row + 2 →
    ∃ after, hdlObj qsort (popupEvent around colors names s) s = .done after ∧
      after.bppIndex = depth ∧ (depth ≠ s.bppIndex → after.resTab = s.possible[depth]) ∧
      (depth = s.bppIndex → after = s)

/-- In every state of every session the popup has a row for each depth that has modes, in
ascending order. What the user chooses is what is opened, and without a choice nothing
changes. -/
theorem popup_opens : ∃ globals,
    initRes qsort memory currez vmode loaded.pool loaded.possible = .done globals ∧
      ∀ s, Reaches (hdlObj qsort) Sends (selectRes ok info globals) s → s.isOpen = true →
        ∀ around colors,
          (popupTree around colors (initLboxNames globals.possible) s).length =
              2 * (offered s.possible).length + 1 ∧
            (offered s.possible).Pairwise (· < ·) ∧
            (∀ depth, depth ∈ offered s.possible ↔ s.possible[depth] ≠ none) ∧
            (∀ row depth, (offered s.possible)[row]? = some depth →
              RowOpens qsort around colors (initLboxNames globals.possible) s row depth) ∧
            (around.allocated = false ∨ (around.formPopup
                (popupTree around colors (initLboxNames globals.possible) s)).toInt ≤ 0 →
              hdlObj qsort (popupEvent around colors (initLboxNames globals.possible) s) s =
                .done s) := by
  rcases selectRes_right qsort memory loaded currez vmode ok info with ⟨globals, ends, right⟩
  rcases selectRes_offers qsort memory loaded currez vmode ok info with ⟨globals', ends', offers⟩
  cases ends.symm.trans ends'
  refine ⟨globals, ends, fun s reaches isOpen around colors => ?_⟩
  have kept : Right loaded s ∧ Offers globals.possible s := by
    apply reaches.invariant ⟨right, offers⟩
    rintro before after event ⟨right, offers⟩ sends result
    rcases right.step qsort sends with ⟨after', result', right'⟩
    cases result.symm.trans result'
    exact ⟨right', offers.step qsort result⟩
  clear reaches right offers
  rcases kept with ⟨right, offers⟩
  have names : initLboxNames globals.possible = (offered s.possible).map fun i => bppTab[i] := by
    rw [initLboxNames_eq, offers.same]
  have count : (initLboxNames globals.possible).length = (offered s.possible).length := by
    rw [names, List.length_map]
  have few := offered_length_le s.possible
  have returns := Popup.simplePopup_returns around colors (checkedRow s)
    (show 2 * (initLboxNames globals.possible).length + 1 < 2 ^ 15 by omega)
  refine ⟨?_, ?_, fun depth => ?_, fun row depth inside => ⟨?_, ?_⟩, fun nothing => ?_⟩
  · rw [popupTree, Popup.newtree_length, count]
  · exact (List.pairwise_lt_finRange maxDepths).filter _
  · rw [offered, List.mem_filter, hasModes_iff]
    exact and_iff_right (List.mem_finRange depth)
  · have named : (initLboxNames globals.possible)[row]? = some bppTab[depth] := by
      rw [names, List.getElem?_map, inside]
      rfl
    rcases Popup.newtree_row around colors (checkedRow s) named with ⟨isBox, isText⟩
    refine ⟨_, _, isBox, isText, rfl, ?_⟩
    rw [Popup.rowBox_checked]
    exact checkedRow_iff offers inside
  · intro allocated answer answers ofRow
    have bound := (List.getElem?_eq_some_iff.mp inside).1
    have chosen := returns.chosen allocated row (by omega)
    rw [popupTree] at answers
    rw [answers] at chosen
    rcases right.colors isOpen (Popup.simplePopup around colors
      (initLboxNames globals.possible) (checkedRow s)).toInt with ⟨after, result, _⟩
    refine ⟨after, result, ?_⟩
    rw [chosen ofRow] at result
    exact changeDepth_row inside result
  · apply changeDepth_kept offers
    rcases nothing with failed | none
    · exact .inr (by rw [returns.failed failed])
    · cases memory : around.allocated with
      | false => exact .inr (by rw [returns.failed memory])
      | true =>
          refine .inl ?_
          rw [returns.noObject memory none]
          decide

end Sessions

end Chgres
