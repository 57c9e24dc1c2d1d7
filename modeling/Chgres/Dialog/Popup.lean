import Chgres.Foundation.Lines
import Chgres.Foundation.ObjectTree

/-! # The popup of colour depths

`simple_popup` builds an object tree with a box and a text for each name, hands it to
`form_popup` and finds the row of the object that was chosen.
-/

namespace Chgres.Popup

open Text ObjectTree

/-! ## Objects -/

def nilObject : Int16 := -1

def rootObject : Int16 := 0

def gBox : UInt16 := 20

def gIbox : UInt16 := 25

def gString : UInt16 := 28

def ofNone : UInt16 := 0x0000

def ofSelectable : UInt16 := 0x0001

def ofLastob : UInt16 := 0x0020

def ofFl3dbak : UInt16 := 0x0400

def osNormal : UInt16 := 0x0000

def osChecked : UInt16 := 0x0004

def osShadowed : UInt16 := 0x0020

inductive ObjectSpec where
  | index (value : UInt32)
  | freeString (text : Bytes)
  deriving DecidableEq, Repr

structure Object where
  next : Int16
  head : Int16
  tail : Int16
  type : UInt16
  flags : UInt16
  state : UInt16
  spec : ObjectSpec
  x : Int16
  y : Int16
  width : Int16
  height : Int16
  deriving DecidableEq, Repr

namespace Object

def links (o : Object) : Links := ⟨o.next.toInt, o.head.toInt, o.tail.toInt⟩

def HasFlag (o : Object) (flag : UInt16) : Prop := o.flags &&& flag ≠ 0

def Checked (o : Object) : Prop := o.state &&& osChecked ≠ 0

end Object

/-! ## `simple_popup` -/

/-- What the function finds around it: the size of a character, and what `malloc`,
`objc_offset` and `form_popup` answer. -/
structure Surroundings where
  glWchar : Int16
  glHchar : Int16
  allocated : Bool
  objcOffset : Int16 × Int16
  formPopup : List Object → Int16

/-- `maxlen`, from the names and from the button `obj` that the popup covers. -/
def maxlen (around : Surroundings) (obj : Object) (names : List Bytes) : Int16 :=
  let longest := names.foldl (fun maxlen name =>
    let len : Int16 := .ofNat name.length
    if maxlen < len then len else maxlen) 0
  let maxlen := (longest + 4) * around.glWchar
  if maxlen < obj.width then obj.width else maxlen

/-- The object around the rows. Its place is what `objc_offset` says of the button, moved
up by `selY`. -/
def rootBox (around : Surroundings) (numNames : Nat) (maxlen selY : Int16) : Object where
  next := nilObject
  type := gBox
  state := osShadowed
  spec := .index 0xff1000
  flags := if 0 < numNames then ofFl3dbak else ofFl3dbak ||| ofLastob
  head := if 0 < numNames then 1 else nilObject
  tail := if 0 < numNames then .ofInt (numNames * 2 - 1) else nilObject
  width := maxlen
  height := .ofInt (numNames * around.glHchar.toInt)
  x := around.objcOffset.1
  y := around.objcOffset.2 - selY

def rowBox (around : Surroundings) (numNames : Nat) (selected maxlen : Int16) (i : Nat)
    (y : Int16) : Object where
  next := if i < numNames then .ofInt (i * 2 + 1) else rootObject
  head := .ofInt (i * 2)
  tail := .ofInt (i * 2)
  flags := ofFl3dbak ||| ofSelectable
  type := gIbox
  spec := .index 0
  state := if selected.toInt + 1 = i then osNormal ||| osChecked else osNormal
  width := maxlen
  height := around.glHchar
  x := 0
  y := y

def rowText (around : Surroundings) (numNames i : Nat) (name : Bytes) : Object where
  next := .ofInt (i * 2 - 1)
  head := nilObject
  tail := nilObject
  flags := if i = numNames then ofNone ||| ofLastob else ofNone
  type := gString
  spec := .freeString name
  state := osNormal
  width := 0
  height := around.glHchar
  x := around.glWchar * 2
  y := 0

/-- The loop over the rows: the objects from row `i` on and `sel_y`. -/
def rowObjects (around : Surroundings) (numNames : Nat) (selected maxlen : Int16) :
    (names : List Bytes) → (i : Nat) → (y selY : Int16) → List Object × Int16
  | [], _, _, selY => ([], selY)
  | name :: names, i, y, selY =>
      let selY := if selected.toInt + 1 = i then y else selY
      let rest := rowObjects around numNames selected maxlen names (i + 1)
        (y + around.glHchar) selY
      (rowBox around numNames selected maxlen i y :: rowText around numNames i name :: rest.1,
        rest.2)

/-- The tree that `form_popup` is given. -/
def newtree (around : Surroundings) (obj : Object) (names : List Bytes) (selected : Int16) :
    List Object :=
  let maxlen := maxlen around obj names
  let rows := rowObjects around names.length selected maxlen names 1 0 (-obj.height)
  rootBox around names.length maxlen rows.2 :: rows.1

def simplePopup (around : Surroundings) (obj : Object) (names : List Bytes)
    (selected : Int16) : Int16 :=
  if around.allocated then
    let selected := around.formPopup (newtree around obj names selected)
    if 0 < selected then .ofInt ((selected - 1).toInt >>> (1 : Nat)) else -1
  else selected

/-! ## The rows -/

variable (around : Surroundings) {numNames : Nat} {selected maxlen : Int16}

/-- What the loop has added to `y` before a row. -/
theorem row_y_succ (y height : Int16) (k : Nat) :
    y + .ofNat (k + 1) * height = (y + height) + .ofNat k * height := by
  have one : Int16.ofNat 1 = 1 := rfl
  rw [Int16.ofNat_add, one, Int16.add_mul, Int16.one_mul, Int16.add_assoc,
    Int16.add_comm height]

theorem rowObjects_length : ∀ (names : List Bytes) (i : Nat) (y selY : Int16),
    (rowObjects around numNames selected maxlen names i y selY).1.length = 2 * names.length
  | [], _, _, _ => rfl
  | name :: names, i, y, selY => by
      simp only [rowObjects, List.length_cons, rowObjects_length names]
      omega

/-- The objects of the `k`th row from row `i` on. -/
theorem rowObjects_getElem? : ∀ {names : List Bytes} {k : Nat} {name : Bytes}
    (i : Nat) (y selY : Int16), names[k]? = some name →
    (rowObjects around numNames selected maxlen names i y selY).1[2 * k]? =
        some (rowBox around numNames selected maxlen (i + k) (y + .ofNat k * around.glHchar)) ∧
      (rowObjects around numNames selected maxlen names i y selY).1[2 * k + 1]? =
        some (rowText around numNames (i + k) name)
  | [], k, name, _, _, _, inside => by simp at inside
  | first :: names, 0, name, i, y, selY, inside => by
      have same : first = name := by simpa using inside
      subst same
      simp [rowObjects]
  | first :: names, k + 1, name, i, y, selY, inside => by
      have insideRest : names[k]? = some name := by simpa using inside
      have rest := rowObjects_getElem? (i + 1) (y + around.glHchar)
        (if selected.toInt + 1 = i then y else selY) insideRest
      have place : 2 * (k + 1) = 2 * k + 2 := by omega
      have row : i + (k + 1) = i + 1 + k := by omega
      rw [row_y_succ, row, place]
      exact rest

/-- The forest of `count` rows, the first of them at `index`. -/
def rows : (count : Nat) → (index : Int) → Forest
  | 0, _ => .nil
  | count + 1, index => .node index (.node (index + 1) .nil .nil) (rows count (index + 2))

theorem rows_preorder : ∀ (count : Nat) (index : Int),
    (rows count index).preorder = (List.range (2 * count)).map fun k : Nat => index + k
  | 0, _ => rfl
  | count + 1, index => by
      have size : 2 * (count + 1) = 2 + 2 * count := by omega
      rw [rows, Forest.preorder, rows_preorder count, size, List.range_add]
      simp [Forest.preorder, Function.comp_def, List.range_succ, add_assoc]

theorem rows_last : ∀ (count : Nat) (index : Int),
    (rows (count + 1) index).last = index + 2 * count
  | 0, index => by simp [rows, Forest.last]
  | count + 1, index => by
      have rest := rows_last count (index + 2)
      rw [rows] at rest ⊢
      rw [rows, Forest.last, rest]
      omega

/-! ## The tree -/

section Tree

variable (obj : Object) {names : List Bytes} (selected : Int16)

theorem newtree_length :
    (newtree around obj names selected).length = 2 * names.length + 1 := by
  simp [newtree, rowObjects_length]

theorem newtree_root : ∃ selY, (newtree around obj names selected)[0]? =
    some (rootBox around names.length (Popup.maxlen around obj names) selY) :=
  ⟨_, rfl⟩

theorem newtree_row {k : Nat} {name : Bytes} (inside : names[k]? = some name) :
    (newtree around obj names selected)[2 * k + 1]? =
        some (rowBox around names.length selected (Popup.maxlen around obj names) (k + 1)
          (.ofNat k * around.glHchar)) ∧
      (newtree around obj names selected)[2 * k + 2]? =
        some (rowText around names.length (k + 1) name) := by
  have row := @rowObjects_getElem? around names.length selected
    (Popup.maxlen around obj names) names k name 1 0 (-obj.height) inside
  rw [Int16.zero_add, Nat.add_comm 1 k] at row
  exact row

theorem nodeAt_links (tree : List Object) (index : Nat) :
    nodeAt (tree.map Object.links) index = tree[index]?.map Object.links := by
  simp [nodeAt]

/-- A number that a `WORD` can hold is stored as it is. -/
theorem toInt_word {value : Int} (least : 0 ≤ value) (greatest : value < 2 ^ 15) :
    (Int16.ofInt value).toInt = value :=
  Int16.toInt_ofInt_of_le (by omega) greatest

section Links

variable {maxlen : Int16} {i : Nat} (few : 2 * names.length + 1 < 2 ^ 15)
include few

theorem rowBox_links (inside : i ≤ names.length) (y : Int16) :
    (rowBox around names.length selected maxlen i y).links =
      ⟨if i < names.length then i * 2 + 1 else 0, i * 2, i * 2⟩ := by
  have text : (Int16.ofInt (i * 2)).toInt = i * 2 := toInt_word (by omega) (by omega)
  simp only [rowBox, Object.links, text]
  split_ifs with more
  · rw [toInt_word (by omega) (by omega)]
  · rfl

theorem rowText_links (name : Bytes) (positive : 0 < i) (inside : i ≤ names.length) :
    (rowText around names.length i name).links = ⟨i * 2 - 1, noNode, noNode⟩ := by
  have box : (Int16.ofInt (i * 2 - 1)).toInt = i * 2 - 1 := toInt_word (by omega) (by omega)
  have none : nilObject.toInt = noNode := by decide
  simp only [rowText, Object.links, box, none]

theorem rootBox_links (selY : Int16) : (rootBox around names.length maxlen selY).links =
    ⟨noNode, (rows names.length 1).firstOr noNode, (rows names.length 1).last⟩ := by
  have none : nilObject.toInt = noNode := by decide
  cases isLength : names.length with
  | zero => simp [rootBox, Object.links, rows, Forest.firstOr, Forest.last, none]
  | succ count =>
      rw [isLength] at few
      have tail : (Int16.ofInt ((count + 1 : Nat) * 2 - 1)).toInt = 1 + 2 * count := by
        rw [toInt_word (by omega) (by omega)]
        omega
      have head : (1 : Int16).toInt = 1 := by decide
      simp only [rootBox, Object.links, Nat.zero_lt_succ, if_true, tail, head, none, rows_last]
      rfl

end Links

theorem linked_rows (few : 2 * names.length + 1 < 2 ^ 15) : ∀ (count k : Nat),
    k + count = names.length →
    (rows count (2 * k + 1)).Linked
      ((newtree around obj names selected).map Object.links) 0
  | 0, _, _ => trivial
  | count + 1, k, whole => by
      have inside : ∃ name, names[k]? = some name :=
        ⟨_, List.getElem?_eq_getElem (by omega)⟩
      rcases inside with ⟨name, inside⟩
      rcases newtree_row around obj selected inside with ⟨isBox, isText⟩
      have boxAt := nodeAt_links (newtree around obj names selected) (2 * k + 1)
      have textAt := nodeAt_links (newtree around obj names selected) (2 * k + 2)
      rw [isBox, Option.map_some, rowBox_links around selected few (by omega)] at boxAt
      rw [isText, Option.map_some, rowText_links around few name (by omega) (by omega)] at textAt
      have next : (if k + 1 < names.length then ((k + 1 : Nat) : Int) * 2 + 1 else 0) =
          (rows count (2 * k + 1 + 2)).firstOr 0 := by
        cases count with
        | zero => rw [if_neg (by omega), rows, Forest.firstOr]
        | succ count =>
            rw [if_pos (by omega), rows, Forest.firstOr]
            omega
      have text : (k + 1 : Nat) * 2 = (2 * k + 1 + 1 : Int) := by omega
      have back : (2 * k + 1 + 1 : Int) - 1 = 2 * k + 1 := by omega
      rw [next, text] at boxAt
      rw [text, back] at textAt
      have after : (2 * k + 1 + 2 : Int) = 2 * (k + 1 : Nat) + 1 := by omega
      refine ⟨boxAt, ⟨textAt, trivial, trivial⟩, ?_⟩
      rw [after]
      exact linked_rows few count (k + 1) (by omega)

/-- `simple_popup` builds a tree of all the rows. -/
theorem newtree_isTree (few : 2 * names.length + 1 < 2 ^ 15) :
    IsTree ((newtree around obj names selected).map Object.links) 0 (rows names.length 1) where
  atRoot := by
    rcases newtree_root around obj selected with ⟨selY, isRoot⟩
    have rootAt := nodeAt_links (newtree around obj names selected) 0
    rw [isRoot, Option.map_some, rootBox_links around few] at rootAt
    exact rootAt
  linked := linked_rows around obj selected few names.length 0 (Nat.zero_add _)
  nodup := by
    rw [rows_preorder, List.nodup_cons]
    constructor
    · intro member
      rcases List.mem_map.mp member with ⟨k, _, isZero⟩
      omega
    · apply List.nodup_range.map
      intro left right equal
      simpa using equal

end Tree

/-! ## What the popup shows and returns -/

/-- The row of `names[i]`. -/
structure RowShows (around : Surroundings) (selected : Int16) (i : Nat) (name : Bytes)
    (root box text : Object) : Prop where
  boxType : box.type = gIbox
  textType : text.type = gString
  shows : text.spec = .freeString name
  place : box.y.toInt = i * around.glHchar.toInt
  /-- A character is no less than nothing high. -/
  inside : 0 ≤ around.glHchar.toInt →
    0 ≤ box.y.toInt ∧ box.y.toInt + box.height.toInt ≤ root.height.toInt
  textInside : text.y = 0 ∧ text.height = box.height
  checked : box.Checked ↔ selected.toInt = i

structure TreeShows (around : Surroundings) (names : List Bytes) (selected : Int16)
    (tree : List Object) : Prop where
  objects : tree.length = 2 * names.length + 1
  wellFormed : IsTree (tree.map Object.links) 0 (rows names.length 1)
  /-- Box and text of one row after the other are entered, and the walk comes back to the
  root. -/
  walked : ∃ steps, ObjectTree.walk (tree.map Object.links) 0 steps (.enter 0) =
    some ((List.range (2 * names.length + 1)).map Nat.cast)
  lastob : ∀ (index : Nat) (o : Object), tree[index]? = some o →
    (o.HasFlag ofLastob ↔ index = 2 * names.length)
  row : ∀ (i : Nat) (name : Bytes), names[i]? = some name →
    ∃ root box text, tree[0]? = some root ∧ tree[2 * i + 1]? = some box ∧
      tree[2 * i + 2]? = some text ∧ RowShows around selected i name root box text

/-- The result of `simple_popup`, as `form_popup` answers. -/
structure Returns (around : Surroundings) (names : List Bytes) (selected : Int16)
    (answer : Int16) (result : Int16) : Prop where
  chosen : around.allocated = true → ∀ i < names.length,
    answer.toInt = 2 * i + 1 ∨ answer.toInt = 2 * i + 2 → result.toInt = i
  noObject : around.allocated = true → answer.toInt ≤ 0 → result = -1
  failed : around.allocated = false → result = selected

/-- A count of heights lies between nothing and the height of all rows. -/
theorem toInt_heights {count whole : Nat} {height : Int16} (few : whole < 2 ^ 15)
    (part : count ≤ whole) (least : -2 ^ 15 ≤ whole * height.toInt)
    (greatest : whole * height.toInt < 2 ^ 15) :
    (.ofNat count * height : Int16).toInt = count * height.toInt := by
  have isCount : (Int16.ofNat count).toInt = count := Int16.toInt_ofNat_of_lt (by omega)
  rw [Int16.toInt_mul, isCount]
  have partInt : (count : Int) ≤ whole := by exact_mod_cast part
  have countNonneg : (0 : Int) ≤ count := by omega
  apply Int.bmod_eq_of_le
  · rcases Int.le_total 0 height.toInt with nonneg | nonpos
    · have product : 0 ≤ count * height.toInt := Int.mul_nonneg countNonneg nonneg
      omega
    · have product := Int.mul_le_mul_of_nonpos_right partInt nonpos
      omega
  · rcases Int.le_total 0 height.toInt with nonneg | nonpos
    · have product := Int.mul_le_mul_of_nonneg_right partInt nonneg
      omega
    · have product : count * height.toInt ≤ 0 :=
        Int.mul_nonpos_of_nonneg_of_nonpos countNonneg nonpos
      omega

theorem rowBox_checked (numNames i : Nat) (y : Int16) :
    (rowBox around numNames selected maxlen (i + 1) y).Checked ↔ selected.toInt = i := by
  have here : selected.toInt + 1 = (i + 1 : Nat) ↔ selected.toInt = i := by omega
  simp only [Object.Checked, rowBox, here]
  by_cases isSelected : selected.toInt = i
  · simp only [isSelected, if_true, iff_true]
    decide
  · simp only [isSelected, if_false, iff_false]
    decide

theorem rowBox_lastob (numNames i : Nat) (y : Int16) :
    ¬(rowBox around numNames selected maxlen i y).HasFlag ofLastob := by
  simp only [Object.HasFlag, rowBox]
  decide

theorem rowText_lastob (numNames i : Nat) (name : Bytes) :
    (rowText around numNames i name).HasFlag ofLastob ↔ i = numNames := by
  simp only [Object.HasFlag, rowText]
  by_cases isLast : i = numNames
  · simp only [isLast, if_true, iff_true]
    decide
  · simp only [isLast, if_false, iff_false]
    decide

theorem rootBox_lastob (numNames : Nat) (selY : Int16) :
    (rootBox around numNames maxlen selY).HasFlag ofLastob ↔ numNames = 0 := by
  simp only [Object.HasFlag, rootBox]
  cases numNames with
  | zero =>
      simp only [Nat.lt_irrefl, if_false, iff_true]
      decide
  | succ count =>
      simp only [Nat.zero_lt_succ, if_true, Nat.succ_ne_zero, iff_false]
      decide

section Shown

variable (obj : Object) {names : List Bytes} (selected : Int16)

theorem newtree_walk (few : 2 * names.length + 1 < 2 ^ 15) :
    ObjectTree.walk ((newtree around obj names selected).map Object.links) 0 (4 * names.length + 2)
        (.enter 0) =
      some ((List.range (2 * names.length + 1)).map Nat.cast) := by
  have walked := (newtree_isTree around obj selected few).walk_eq
  have size : 2 * (rows names.length 1).preorder.length + 2 = 4 * names.length + 2 := by
    rw [rows_preorder, List.length_map, List.length_range]
    omega
  have visited : (0 : Int) :: (rows names.length 1).preorder =
      (List.range (2 * names.length + 1)).map Nat.cast := by
    rw [rows_preorder, Nat.add_comm (2 * names.length), List.range_add]
    simp [Function.comp_def]
  rw [size, visited] at walked
  exact walked

/-- The root, or one of the two objects of a row. -/
theorem newtree_cases {index : Nat} {o : Object}
    (isObject : (newtree around obj names selected)[index]? = some o) :
    (index = 0 ∧ ∃ selY, o =
        rootBox around names.length (Popup.maxlen around obj names) selY) ∨
      ∃ k < names.length,
        (index = 2 * k + 1 ∧ ∃ y, o = rowBox around names.length selected
          (Popup.maxlen around obj names) (k + 1) y) ∨
        (index = 2 * k + 2 ∧ ∃ name, o = rowText around names.length (k + 1) name) := by
  have bound : index < 2 * names.length + 1 := by
    rw [← newtree_length around obj selected]
    exact (List.getElem?_eq_some_iff.mp isObject).1
  rcases Nat.eq_zero_or_pos index with rfl | positive
  · rcases newtree_root around obj selected with ⟨selY, isRoot⟩
    rw [isRoot] at isObject
    cases isObject
    exact .inl ⟨rfl, selY, rfl⟩
  · have inside : (index - 1) / 2 < names.length := by omega
    rcases newtree_row around obj selected (List.getElem?_eq_getElem inside) with
      ⟨isBox, isText⟩
    refine .inr ⟨(index - 1) / 2, inside, ?_⟩
    rcases Nat.mod_two_eq_zero_or_one (index - 1) with even | odd
    · have place : index = 2 * ((index - 1) / 2) + 1 := by omega
      rw [← place, isObject] at isBox
      cases isBox
      exact .inl ⟨place, _, rfl⟩
    · have place : index = 2 * ((index - 1) / 2) + 2 := by omega
      rw [← place, isObject] at isText
      cases isText
      exact .inr ⟨place, _, rfl⟩

theorem newtree_lastob {index : Nat} {o : Object}
    (isObject : (newtree around obj names selected)[index]? = some o) :
    o.HasFlag ofLastob ↔ index = 2 * names.length := by
  rcases newtree_cases around obj selected isObject with ⟨rfl, selY, rfl⟩ | ⟨k, inside, row⟩
  · rw [rootBox_lastob]
    omega
  rcases row with ⟨rfl, y, rfl⟩ | ⟨rfl, name, rfl⟩
  · have noFlag := @rowBox_lastob around selected (Popup.maxlen around obj names)
      names.length (k + 1) y
    simp only [noFlag, false_iff]
    omega
  · rw [rowText_lastob]
    omega

theorem newtree_row_shows (few : 2 * names.length + 1 < 2 ^ 15)
    (least : -2 ^ 15 ≤ names.length * around.glHchar.toInt)
    (greatest : names.length * around.glHchar.toInt < 2 ^ 15) {i : Nat} {name : Bytes}
    (inside : names[i]? = some name) :
    ∃ root box text, (newtree around obj names selected)[0]? = some root ∧
      (newtree around obj names selected)[2 * i + 1]? = some box ∧
      (newtree around obj names selected)[2 * i + 2]? = some text ∧
      RowShows around selected i name root box text := by
  have isRow : i < names.length := (List.getElem?_eq_some_iff.mp inside).1
  rcases newtree_root around obj selected with ⟨selY, isRoot⟩
  rcases newtree_row around obj selected inside with ⟨isBox, isText⟩
  have place : (.ofNat i * around.glHchar : Int16).toInt = i * around.glHchar.toInt :=
    toInt_heights (by omega) (Nat.le_of_lt isRow) least greatest
  have height : (Int16.ofInt (names.length * around.glHchar.toInt)).toInt =
      names.length * around.glHchar.toInt :=
    Int16.toInt_ofInt_of_le least greatest
  refine ⟨_, _, _, isRoot, isBox, isText, ?_⟩
  constructor
  · rfl
  · rfl
  · rfl
  · exact place
  · intro nonneg
    have above : (i + 1 : Int) ≤ names.length := by exact_mod_cast isRow
    have product := Int.mul_le_mul_of_nonneg_right above nonneg
    have start : 0 ≤ i * around.glHchar.toInt := Int.mul_nonneg (by omega) nonneg
    simp only [rowBox, rootBox, place, height]
    rw [Int.add_mul, Int.one_mul] at product
    exact ⟨start, product⟩
  · exact ⟨rfl, rfl⟩
  · exact rowBox_checked around names.length i _

end Shown

/-- The row of an object is found again from its index. -/
theorem row_of_answer {answer : Int16} {i : Nat} (few : 2 * i + 2 < 2 ^ 15)
    (ofRow : answer.toInt = 2 * i + 1 ∨ answer.toInt = 2 * i + 2) :
    0 < answer ∧ (Int16.ofInt ((answer - 1).toInt >>> (1 : Nat))).toInt = i := by
  have one : (1 : Int16).toInt = 1 := by decide
  have positive : 0 < answer := by
    have zero : (0 : Int16).toInt = 0 := by decide
    rw [Int16.lt_iff_toInt_lt, zero]
    omega
  have previous : (answer - 1).toInt = answer.toInt - 1 := by
    rw [Int16.toInt_sub, one]
    apply Int.bmod_eq_of_le <;> omega
  have half : (answer - 1).toInt >>> (1 : Nat) = i := by
    rw [previous, Int.shiftRight_eq_div_pow]
    omega
  rw [half]
  exact ⟨positive, toInt_word (by omega) (by omega)⟩

theorem simplePopup_returns (obj : Object) {names : List Bytes} (selected : Int16)
    (few : 2 * names.length + 1 < 2 ^ 15) :
    Returns around names selected (around.formPopup (newtree around obj names selected))
      (simplePopup around obj names selected) where
  chosen := by
    intro allocated i isRow ofRow
    rcases row_of_answer (by omega) ofRow with ⟨positive, row⟩
    rw [simplePopup, if_pos allocated]
    simp only [if_pos positive, row]
  noObject := by
    intro allocated notPositive
    have zero : (0 : Int16).toInt = 0 := by decide
    have none : ¬0 < around.formPopup (newtree around obj names selected) := by
      rw [Int16.lt_iff_toInt_lt, zero]
      omega
    rw [simplePopup, if_pos allocated]
    simp only [if_neg none]
  failed := by
    intro failed
    simp [simplePopup, failed]

/-- The tree shows the names in order, and the result is the row that was chosen. -/
theorem simplePopup_right (around : Surroundings) (obj : Object) (names : List Bytes)
    (selected : Int16) (few : 2 * names.length + 1 < 2 ^ 15)
    (least : -2 ^ 15 ≤ names.length * around.glHchar.toInt)
    (greatest : names.length * around.glHchar.toInt < 2 ^ 15) :
    TreeShows around names selected (newtree around obj names selected) ∧
      Returns around names selected (around.formPopup (newtree around obj names selected))
        (simplePopup around obj names selected) := by
  refine ⟨?_, simplePopup_returns around obj selected few⟩
  constructor
  · exact newtree_length around obj selected
  · exact newtree_isTree around obj selected few
  · exact ⟨_, newtree_walk around obj selected few⟩
  · intro index o isObject
    exact newtree_lastob around obj selected isObject
  · intro i name inside
    exact newtree_row_shows around obj selected few least greatest inside

theorem simplePopup_right_sample :
    let around : Surroundings := ⟨8, 16, true, (100, 120), fun _ => 4⟩
    let button : Object := ⟨5, -1, -1, 27, 0, 0, .index 0, 0, 0, 96, 16⟩
    let names := [ascii "16 colours", ascii "256 colours", ascii "TC"]
    TreeShows around names 2 (newtree around button names 2) ∧
      Returns around names 2 (around.formPopup (newtree around button names 2))
        (simplePopup around button names 2) :=
  simplePopup_right _ _ _ 2 (by decide) (by decide) (by decide)

/-- The text of the second row is object 4. -/
example :
    simplePopup ⟨8, 16, true, (100, 120), fun _ => 4⟩
      ⟨5, -1, -1, 27, 0, 0, .index 0, 0, 0, 96, 16⟩
      [ascii "16 colours", ascii "256 colours", ascii "TC"] 2 = 1 := by decide

end Chgres.Popup
