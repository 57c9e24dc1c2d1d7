import Chgres.Save.Cnf
import Chgres.Save.Writing
import Chgres.Utils.ScanLines

/-! # Clearing keys from a text

The removals of `save_xaaes_inf` and `save_myaes_inf` on texts instead of
memory: a text with a gap where the last line was taken out.
-/

namespace Chgres

open Text

/-- A text in two parts. The gap between them is where a line was taken out last;
before that it is the start of the text. `behind` is the memory behind the text. -/
structure Clearing where
  before : Bytes
  after : Bytes
  found : Bool
  behind : Bytes
  deriving DecidableEq, Repr

namespace Clearing

def text (clearing : Clearing) : Bytes := clearing.before ++ clearing.after

def start (file behind : Bytes) : Clearing := ⟨[], file, false, behind⟩

/-- Nothing is taken out; the scan may have run off the text. -/
def stay (clearing : Clearing) : Outcome Clearing :=
  if Glued clearing.text clearing.behind then .wild else .done clearing

/-- Take out the first line that shows the key, unless it is the last line. -/
def clearKey (key : Bytes) (clearing : Clearing) : Outcome Clearing :=
  match cutLine key (lines clearing.text) with
  | none => clearing.stay
  | some (front, line, back) => .done {
      before := front.flatten
      after := back.flatten
      found := true
      behind := staleTail clearing.text line ++ clearing.behind }

def clear : List Bytes → Clearing → Outcome Clearing
  | [], clearing => .done clearing
  | key :: keys, clearing => (clearing.clearKey key).bind (clear keys)

/-- The length of the lines that these removals take out of a text. -/
def cutLength : (keys : List Bytes) → (text : Bytes) → Nat
  | [], _ => 0
  | key :: keys, text =>
      match cutLine key (lines text) with
      | none => cutLength keys text
      | some (front, line, back) =>
          line.length + cutLength keys (front.flatten ++ back.flatten)

/-- The variables of the saver that stand for a text with a gap. -/
def toState (stack : Int) (clearing : Clearing) : CnfState where
  memory := clearing.text ++ clearing.behind
  sc := clearing.text.length
  sn := if clearing.found then clearing.text.length else stack
  lc := clearing.before.length

variable {key : Bytes} {clearing : Clearing}

theorem clearKey_cut {front back : List Bytes} {line : Bytes}
    (cut : Cut key (lines clearing.text) front line back) :
    clearing.clearKey key = .done {
      before := front.flatten
      after := back.flatten
      found := true
      behind := staleTail clearing.text line ++ clearing.behind } := by
  rw [clearKey, cutLine_eq_some.mpr cut]

theorem clearKey_hidden (hidden : HiddenIn key (lines clearing.text)) :
    clearing.clearKey key = clearing.stay := by
  rw [clearKey, cutLine_eq_none.mpr hidden]

/-- One removal of the saver is one step of the clearing. -/
theorem removeKey_toState (isKey : IsKey key) (stack : Int)
    (clearing : Clearing) :
    removeKey key (clearing.toState stack) =
      (clearing.clearKey key).bind fun next => .done (next.toState stack) := by
  rw [removeKey]
  cases search : cutLine key (lines clearing.text) with
  | none =>
      have hidden := cutLine_eq_none.mp search
      rw [clearKey_hidden hidden, toState, removeLine_hidden _ isKey.noNul isKey.ne_nil hidden,
        stay]
      by_cases glued : Glued clearing.text clearing.behind
      · simp [glued]
      · simp [glued, toState]
  | some parts =>
      have cut := cutLine_eq_some.mp search
      rw [clearKey_cut cut]
      simp only [toState]
      rw [removeLine_cut _ isKey.noNul cut]
      simp [text]

/-- The removals of the saver clear the keys from the text. -/
theorem removeKeys_toState {keys : List Bytes} (areKeys : ∀ key ∈ keys, IsKey key)
    (stack : Int) (clearing : Clearing) :
    removeKeys keys (clearing.toState stack) =
      (clear keys clearing).bind fun next => .done (next.toState stack) := by
  induction keys generalizing clearing with
  | nil => rfl
  | cons key keys induction =>
      have areKeysTail : ∀ other ∈ keys, IsKey other := fun other member =>
        areKeys other (List.mem_cons_of_mem key member)
      rw [removeKeys, removeKey_toState (areKeys key (by simp)), clear]
      cases clearing.clearKey key with
      | wild => rfl
      | done next => exact induction areKeysTail next

/-- A text gets shorter by the lines that are taken out, and a line was found if there
is one of them. -/
theorem clear_cutLength {keys : List Bytes} {clearing next : Clearing}
    (result : clear keys clearing = .done next) :
    next.text.length + cutLength keys clearing.text = clearing.text.length ∧
      (next.found = true ↔ clearing.found = true ∨ 0 < cutLength keys clearing.text) := by
  induction keys generalizing clearing with
  | nil =>
      cases Outcome.done.inj result
      simp [cutLength]
  | cons key keys induction =>
      rw [clear] at result
      rw [cutLength]
      cases search : cutLine key (lines clearing.text) with
      | none =>
          rw [clearKey_hidden (cutLine_eq_none.mp search), stay] at result
          split_ifs at result
          · cases result
          · exact induction result
      | some parts =>
          rcases parts with ⟨front, line, back⟩
          have cut := cutLine_eq_some.mp search
          have whole := congrArg List.length (lines_flatten clearing.text)
          have nonempty := List.length_pos_iff.mpr cut.terminated.ne_nil
          rw [clearKey_cut cut, Outcome.done_bind] at result
          rcases induction result with ⟨shorter, found⟩
          rw [cut.split] at whole
          simp only [text, List.length_append, List.flatten_append, List.flatten_cons]
            at shorter found whole ⊢
          exact ⟨by omega, ⟨fun _ => .inr (by omega), fun _ => found.mpr (.inl trivial)⟩⟩

/-! ## Writing what is left -/

theorem toState_start (stack : Int) (file behind : Bytes) :
    (start file behind).toState stack = ⟨file ++ behind, file.length, stack, 0⟩ := by
  simp [toState, start, text]

theorem readMemory_before (stack : Int) (clearing : Clearing) :
    readMemory (clearing.toState stack).memory 0 clearing.before.length =
      clearing.before := by
  rw [toState, text, List.append_assoc, readMemory_start]

theorem readMemory_after (stack : Int) (clearing : Clearing) :
    readMemory (clearing.toState stack).memory clearing.before.length
      clearing.after.length = clearing.after :=
  readMemory_middle _ _ _

/-- The third piece: the rest of the text, as long as `sn` says it is. -/
def rest (stack : Int) (clearing : Clearing) : Bytes :=
  if clearing.found then clearing.after
  else readMemory (clearing.text ++ clearing.behind) clearing.before.length
    (stack - clearing.before.length).toNat

/-- The saver writes its block between the two parts of the text. -/
theorem writeCnf_eq (gemdos : Gemdos) (block old : Bytes) (stack : Int)
    (clearing : Clearing) :
    writeCnf gemdos block old (clearing.toState stack) =
      gemdos.writeAll 0 [clearing.before, block, clearing.rest stack] (.onto old) := by
  have first : (if 0 < clearing.before.length then
      gemdos.fwrite 0 (readMemory (clearing.toState stack).memory 0
        clearing.before.length) (.onto old) else .onto old) =
      gemdos.fwrite 0 clearing.before (.onto old) := by
    rw [readMemory_before]
    split_ifs with more
    · rfl
    · rw [List.length_eq_zero_iff.mp (by omega : clearing.before.length = 0),
        Gemdos.fwrite_nil]
  have last : readMemory (clearing.toState stack).memory clearing.before.length
      ((clearing.toState stack).sn - (clearing.before.length : Int)).toNat =
      clearing.rest stack := by
    rw [rest]
    by_cases found : clearing.found = true
    · have left : (clearing.toState stack).sn - (clearing.before.length : Int) =
          clearing.after.length := by
        simp only [toState, text, found, if_true, List.length_append]
        omega
      rw [left, Int.toNat_natCast, readMemory_after, if_pos found]
    · simp [toState, found]
  have place : (clearing.toState stack).lc = clearing.before.length := rfl
  simp only [writeCnf, place, first, last, Gemdos.writeAll, Nat.zero_add, Nat.reduceAdd]
  split_ifs with more
  · rfl
  · have nothing : clearing.rest stack = [] := by
      rw [← last, Int.toNat_of_nonpos (by omega)]
      exact List.length_eq_zero_iff.mp (readMemory_length _ _ 0)
    rw [nothing, Gemdos.fwrite_nil]

/-- With complete writes the new text lies over the old file. -/
theorem writeCnf_found {gemdos : Gemdos}
    (writes : ∀ k n, gemdos.writeCount k n = n) (block old : Bytes) (stack : Int)
    {clearing : Clearing} (found : clearing.found = true) :
    (writeCnf gemdos block old (clearing.toState stack)).contents =
      clearing.before ++ block ++ clearing.after ++
        old.drop (clearing.before ++ block ++ clearing.after).length := by
  rw [writeCnf_eq, Gemdos.writeAll_onto,
    Gemdos.stored_of_complete (Gemdos.complete_of_writes writes), rest, if_pos found]
  simp

/-- Without a removal the size of the rest is whatever the stack holds. -/
theorem writeCnf_start {gemdos : Gemdos}
    (writes : ∀ k n, gemdos.writeCount k n = n) (block file behind : Bytes) (stack : Nat) :
    block.length + stack ≤
      (writeCnf gemdos block file ((start file behind).toState stack)).contents.length := by
  rw [writeCnf_eq, Gemdos.writeAll_onto,
    Gemdos.stored_of_complete (Gemdos.complete_of_writes writes)]
  simp [rest, start]

/-- Once the file is open the saver clears its keys and writes what is left. -/
theorem saveCnf_opened {machine : Machine} {keys : List Bytes} (block : Bytes)
    {contents : Bytes} (areKeys : ∀ key ∈ keys, IsKey key)
    (loaded : machine.gemdos.loadFile (some contents) = some contents)
    (opens : 0 < machine.gemdos.writeHandle) :
    saveCnf machine keys block (some contents) =
      (clear keys (start contents machine.behind)).bind fun next =>
        .done (1, some (writeCnf machine.gemdos block contents
          (next.toState machine.stack)).contents) := by
  have state : CnfState.mk (contents ++ machine.behind) contents.length machine.stack 0 =
      (start contents machine.behind).toState machine.stack := by
    rw [toState_start]
  simp only [saveCnf, loaded, if_pos opens, state, removeKeys_toState areKeys]
  cases clear keys (start contents machine.behind) <;> rfl

end Clearing

end Chgres
