import Chgres.Save.Clearing

/-! # Clearing keys from a sequence of lines

The clearing on the lines that the file had when it was loaded. When a line
between a lone CR and an LF is taken out the two become one terminator, so the
lines of the shortened text need not be lines of the old file. A condition on the
old lines says when no line is lost, and the lengths tell whether it held.
-/

namespace Chgres

open Text

/-- No key stands at the start of the line. -/
def Unkeyed (keys : List Bytes) (line : Bytes) : Prop := ∀ key ∈ keys, ¬StartsWith key line

instance (keys : List Bytes) : DecidablePred (Unkeyed keys) := fun line =>
  inferInstanceAs (Decidable (∀ key ∈ keys, ¬StartsWith key line))

/-- The lines that a saver has to keep. -/
def kept (keys ls : List Bytes) : List Bytes := ls.filter fun line => Unkeyed keys line

/-- Each key stands on at most one line. -/
def Once (keys ls : List Bytes) : Prop :=
  ∀ key ∈ keys, (ls.filter fun line => StartsWith key line).length ≤ 1

instance (keys ls : List Bytes) : Decidable (Once keys ls) :=
  inferInstanceAs (Decidable (∀ key ∈ keys, _ ≤ _))

/-- Keys that are long and never start alike. -/
structure ProperKeys (keys : List Bytes) : Prop where
  isKey : ∀ key ∈ keys, IsKey key
  long : ∀ key ∈ keys, 7 ≤ key.length
  apart : keys.Pairwise fun key other => ¬key <+: other ∧ ¬other <+: key

/-- Every removal takes out the line of its key and nothing else. `behind` is the
memory behind the text. -/
def Clears : (keys ls : List Bytes) → (behind : Bytes) → Prop
  | [], _, _ => True
  | key :: keys, ls, behind =>
      match splitFirst (StartsWith key) ls with
      | none => ¬Glued ls.flatten behind ∧ Clears keys ls behind
      | some (front, line, back) =>
          Shows key line ∧ back ≠ [] ∧ ¬Glued line back.flatten ∧
            Clears keys (front ++ back) (staleTail ls.flatten line ++ behind)

/-! ## Keys and kept lines -/

theorem CnfSaver.proper (saver : CnfSaver) : ProperKeys saver.keys := by
  cases saver with
  | xaaes =>
      exact ⟨by simp [keys, xaaesKeys, IsKey, ascii, cr, lf, isBlank, isComment], by decide,
        by simp [keys, xaaesKeys, ascii]⟩
  | myaes =>
      exact ⟨by simp [keys, myaesKeys, IsKey, ascii, cr, lf, isBlank, isComment], by decide,
        by simp [keys, myaesKeys, ascii]⟩

theorem ProperKeys.tail {key : Bytes} {keys : List Bytes}
    (proper : ProperKeys (key :: keys)) : ProperKeys keys where
  isKey other member := proper.isKey other (List.mem_cons_of_mem key member)
  long other member := proper.long other (List.mem_cons_of_mem key member)
  apart := (List.pairwise_cons.mp proper.apart).2

/-- A line of one key is not a line of another. -/
theorem ProperKeys.unkeyed_tail {key : Bytes} {keys : List Bytes}
    (proper : ProperKeys (key :: keys)) {line : Bytes} (starts : StartsWith key line) :
    Unkeyed keys line := by
  intro other member startsOther
  have apart := (List.pairwise_cons.mp proper.apart).1 other member
  rcases starts.comparable startsOther with before | before
  · exact apart.1 before
  · exact apart.2 before

theorem unkeyed_cons {key : Bytes} {keys : List Bytes} {line : Bytes} :
    Unkeyed (key :: keys) line ↔ ¬StartsWith key line ∧ Unkeyed keys line := by
  simp [Unkeyed]

theorem unkeyed_lf {keys : List Bytes} (proper : ProperKeys keys) : Unkeyed keys [lf] := by
  intro key member starts
  exact starts.head?_ne_lf (proper.isKey key member).ne_nil rfl

theorem kept_append (keys front back : List Bytes) :
    kept keys (front ++ back) = kept keys front ++ kept keys back := by
  simp [kept]

/-- A key that no line has does not matter. -/
theorem kept_cons_of_absent {key : Bytes} {keys ls : List Bytes}
    (absent : ∀ line ∈ ls, ¬StartsWith key line) :
    kept (key :: keys) ls = kept keys ls := by
  apply List.filter_congr
  intro line member
  simp [unkeyed_cons, absent line member]

theorem Once.tail {key : Bytes} {keys ls : List Bytes} (once : Once (key :: keys) ls) :
    Once keys ls := fun other member => once other (List.mem_cons_of_mem key member)

theorem Once.sublist {keys ls fewer : List Bytes} (once : Once keys ls)
    (sublist : fewer.Sublist ls) : Once keys fewer := fun key member =>
  (sublist.filter _).length_le.trans (once key member)

/-- The only line of a key has none of its kind behind it. -/
theorem Once.absent_back {key : Bytes} {keys front back : List Bytes} {line : Bytes}
    (once : Once (key :: keys) (front ++ line :: back)) (starts : StartsWith key line) :
    ∀ other ∈ back, ¬StartsWith key other :=
  none_behind_only (once key (by simp)) rfl starts

/-- Without the line of a key the key does not matter any more. -/
theorem kept_removed {key : Bytes} {keys front back : List Bytes} {line : Bytes}
    (starts : StartsWith key line) (absentFront : ∀ other ∈ front, ¬StartsWith key other)
    (absentBack : ∀ other ∈ back, ¬StartsWith key other) :
    kept (key :: keys) (front ++ line :: back) = kept keys (front ++ back) := by
  have keyed : ¬Unkeyed (key :: keys) line := fun unkeyed =>
    unkeyed key (by simp) starts
  rw [kept_append, kept_append, kept_cons_of_absent absentFront]
  congr 1
  rw [← kept_cons_of_absent absentBack]
  simp [kept, keyed]

/-! ## The clearing on the old lines -/

/-- The clearing holds these lines, and its gap lies between two of them. -/
def Holds (ls : List Bytes) (clearing : Clearing) : Prop :=
  ∃ front back, front ++ back = ls ∧ Closed front.flatten ∧
    clearing.before = front.flatten ∧ clearing.after = back.flatten

theorem Holds.text {ls : List Bytes} {clearing : Clearing} (holds : Holds ls clearing) :
    clearing.text = ls.flatten := by
  rcases holds with ⟨front, back, rfl, _, before, after⟩
  rw [Clearing.text, before, after, List.flatten_append]

theorem holds_start (file behind : Bytes) : Holds (lines file) (.start file behind) :=
  ⟨[], lines file, rfl, .inl rfl, rfl, (lines_flatten file).symm⟩

variable {key : Bytes} {keys ls front back : List Bytes} {line : Bytes} {clearing : Clearing}

theorem clearKey_absent (lined : Lined ls) (holds : clearing.text = ls.flatten)
    (absent : ∀ line ∈ ls, ¬Shows key line) : clearing.clearKey key = clearing.stay := by
  apply Clearing.clearKey_hidden
  rw [holds]
  intro line member
  exact not_shows_lines lined absent line (List.mem_of_mem_dropLast member)

theorem clearKey_last (lined : Lined (front ++ [line]))
    (holds : clearing.text = (front ++ [line]).flatten) (nonempty : key ≠ [])
    (shows : Shows key line) (absent : ∀ earlier ∈ front, ¬Shows key earlier) :
    clearing.clearKey key = clearing.stay := by
  apply Clearing.clearKey_hidden
  have split := lined.lines_split (shows.startsWith.head?_ne_lf nonempty) (by simp [Glued])
  rw [holds, split]
  intro earlier member
  have inFront : earlier ∈ lines front.flatten := by simpa using member
  exact not_shows_lines lined.front absent earlier inFront

theorem clearKey_takes (lined : Lined (front ++ line :: back))
    (holds : clearing.text = (front ++ line :: back).flatten) (nonempty : key ≠ [])
    (shows : Shows key line) (absent : ∀ earlier ∈ front, ¬Shows key earlier)
    (more : back ≠ []) (apart : ¬Glued line back.flatten) :
    clearing.clearKey key = .done {
      before := front.flatten
      after := back.flatten
      found := true
      behind := staleTail clearing.text line ++ clearing.behind } := by
  have split := lined.lines_split (shows.startsWith.head?_ne_lf nonempty) apart
  have moreLines : lines back.flatten ≠ [] := fun empty =>
    more (lined.append_right.tail.flatten_eq_nil.mp (lines_eq_nil.mp empty))
  rw [← holds] at split
  rw [Clearing.clearKey_cut
    ⟨split, shows, not_shows_lines lined.front absent, moreLines⟩]
  simp

/-- A line that ends in a lone CR takes an LF with it, or it is the last line. -/
theorem clearKey_swallows (lined : Lined (front ++ line :: back))
    (holds : clearing.text = (front ++ line :: back).flatten) (nonempty : key ≠ [])
    (shows : Shows key line) (absent : ∀ earlier ∈ front, ¬Shows key earlier)
    (glued : Glued line back.flatten) :
    ∃ more, back = [lf] :: more ∧
      clearing.clearKey key =
        if more = [] then clearing.stay
        else .done {
          before := front.flatten
          after := more.flatten
          found := true
          behind := staleTail clearing.text (line ++ [lf]) ++ clearing.behind } := by
  have starts := shows.startsWith.head?_ne_lf nonempty
  rcases lined.lines_split_glued starts glued with ⟨terminated, more, rfl, split⟩
  refine ⟨more, rfl, ?_⟩
  have showsLonger : Shows key (line ++ [lf]) :=
    (shows_congr (terminated.body_append [lf])).mpr shows
  have frontAbsent := not_shows_lines lined.front absent
  rw [← holds] at split
  by_cases isLast : more = []
  · subst isLast
    rw [if_pos rfl]
    apply Clearing.clearKey_hidden
    rw [split]
    intro earlier member
    exact frontAbsent earlier (by simpa using member)
  · have linedMore : Lined more := lined.append_right.tail.tail
    have moreLines : lines more.flatten ≠ [] := fun empty =>
      isLast (linedMore.flatten_eq_nil.mp (lines_eq_nil.mp empty))
    rw [if_neg isLast, Clearing.clearKey_cut ⟨split, showsLonger, frontAbsent, moreLines⟩]
    simp

theorem stay_bind_eq_done {following : Clearing → Outcome Clearing} {next : Clearing}
    (result : clearing.stay.bind following = .done next) :
    ¬Glued clearing.text clearing.behind ∧ following clearing = .done next := by
  rw [Clearing.stay] at result
  by_cases glued : Glued clearing.text clearing.behind
  · simp [glued] at result
  · simp only [if_neg glued, Outcome.done_bind] at result
    exact ⟨glued, result⟩

/-- Where no line is lost the keys are cleared. -/
theorem clear_of_clears (proper : ProperKeys keys) (lined : Lined ls) (once : Once keys ls)
    (holds : Holds ls clearing) (clears : Clears keys ls clearing.behind) :
    ∃ next, Clearing.clear keys clearing = .done next ∧ Holds (kept keys ls) next ∧
      (clearing.found = true ∨ (∃ line ∈ ls, ¬Unkeyed keys line) → next.found = true) := by
  induction keys generalizing ls clearing with
  | nil =>
      refine ⟨clearing, rfl, ?_, ?_⟩
      · simpa [kept, Unkeyed] using holds
      · simp [Unkeyed]
  | cons key keys induction =>
      have nonempty := (proper.isKey key (by simp)).ne_nil
      rw [Clears] at clears
      cases result : splitFirst (StartsWith key) ls with
      | none =>
          rw [result] at clears
          have absent := splitFirst_eq_none.mp result
          have step : clearing.clearKey key = .done clearing := by
            rw [clearKey_absent lined holds.text (not_shows_of_not_startsWith absent),
              Clearing.stay, holds.text, if_neg clears.1]
          rcases induction proper.tail lined once.tail holds clears.2 with
            ⟨next, rest, held, found⟩
          refine ⟨next, ?_, ?_, ?_⟩
          · rw [Clearing.clear, step]
            exact rest
          · rwa [kept_cons_of_absent absent]
          · intro known
            apply found
            rcases known with known | keyed
            · exact .inl known
            · rcases keyed with ⟨line, member, keyed⟩
              refine .inr ⟨line, member, fun unkeyed => keyed ?_⟩
              exact unkeyed_cons.mpr ⟨absent line member, unkeyed⟩
      | some parts =>
          rcases parts with ⟨front, line, back⟩
          rw [result] at clears
          rcases clears with ⟨shows, more, apart, clears⟩
          rcases splitFirst_eq_some.mp result with ⟨rfl, starts, absent⟩
          have absentBack := once.absent_back starts
          have step := clearKey_takes lined holds.text nonempty shows
            (not_shows_of_not_startsWith absent) more apart
          have heldNext : Holds (front ++ back) ⟨front.flatten, back.flatten, true,
              staleTail clearing.text line ++ clearing.behind⟩ :=
            ⟨front, back, rfl, closed_flatten lined.terminated_front, rfl, rfl⟩
          have onceNext : Once keys (front ++ back) := once.tail.sublist
            ((List.Sublist.refl front).append (List.sublist_cons_self line back))
          rw [← holds.text] at clears
          rcases induction proper.tail lined.remove onceNext heldNext clears with
            ⟨next, rest, held, found⟩
          refine ⟨next, ?_, ?_, fun _ => found (.inl rfl)⟩
          · rw [Clearing.clear, step]
            exact rest
          · rwa [kept_removed starts absent absentBack]

/-! ## Lengths -/

def keptLength (keys ls : List Bytes) : Nat := (kept keys ls).flatten.length

theorem keptLength_append (keys front back : List Bytes) :
    keptLength keys (front ++ back) = keptLength keys front + keptLength keys back := by
  simp [keptLength, kept_append]

theorem keptLength_cons_le (key : Bytes) (keys ls : List Bytes) :
    keptLength (key :: keys) ls ≤ keptLength keys ls := by
  have fewer : (kept (key :: keys) ls).Sublist (kept keys ls) := by
    apply List.monotone_filter_right
    intro line unkeyed
    have both := unkeyed_cons.mp (of_decide_eq_true unkeyed)
    exact decide_eq_true both.2
  exact fewer.flatten.length_le

/-- A line of the key that stays is too much. -/
theorem keptLength_present (proper : ProperKeys (key :: keys))
    (starts : StartsWith key line) :
    keptLength (key :: keys) (front ++ line :: back) + 7 ≤
      keptLength keys (front ++ line :: back) := by
  have keyed : ¬Unkeyed (key :: keys) line := fun unkeyed =>
    unkeyed key (by simp) starts
  have unkeyed := proper.unkeyed_tail starts
  have long : 7 ≤ line.length := (proper.long key (by simp)).trans starts.length_le
  have before := keptLength_cons_le key keys front
  have behind := keptLength_cons_le key keys back
  have gone : keptLength (key :: keys) (line :: back) = keptLength (key :: keys) back := by
    simp [keptLength, kept, keyed]
  have there : keptLength keys (line :: back) = line.length + keptLength keys back := by
    simp [keptLength, kept, unkeyed]
  rw [keptLength_append, keptLength_append, gone, there]
  omega

/-- What a clearing leaves is longer than the lines that are kept, or shorter, or the keys
are cleared. -/
structure Accounts (keys ls : List Bytes) (behind : Bytes) (next : Clearing) : Prop where
  least : keptLength keys ls ≤ next.text.length + keys.length
  exact_or_off : Clears keys ls behind ∨
    keptLength keys ls + 7 ≤ next.text.length + keys.length ∨
    next.text.length < keptLength keys ls

section Accounts

variable {next : Clearing} {behind rest : Bytes}

theorem Accounts.absent (account : Accounts keys ls behind next)
    (apart : ¬Glued ls.flatten behind) (absent : ∀ line ∈ ls, ¬StartsWith key line) :
    Accounts (key :: keys) ls behind next := by
  have same : keptLength (key :: keys) ls = keptLength keys ls := by
    rw [keptLength, keptLength, kept_cons_of_absent absent]
  have search := splitFirst_eq_none.mpr absent
  have least := account.least
  constructor
  · rw [same, List.length_cons]
    omega
  · rw [same, Clears, search, List.length_cons]
    rcases account.exact_or_off with clears | long | short
    · exact .inl ⟨apart, clears⟩
    · exact .inr (.inl (by omega))
    · exact .inr (.inr short)

/-- A line of the key that stays makes the rest too long. -/
theorem Accounts.present (proper : ProperKeys (key :: keys)) (starts : StartsWith key line)
    (account : Accounts keys (front ++ line :: back) rest next) :
    Accounts (key :: keys) (front ++ line :: back) behind next := by
  have present := @keptLength_present key keys front back line proper starts
  have least := account.least
  constructor
  · rw [List.length_cons]
    omega
  · rw [List.length_cons]
    exact .inr (.inl (by omega))

theorem Accounts.taken (starts : StartsWith key line)
    (absent : ∀ other ∈ front, ¬StartsWith key other)
    (absentBack : ∀ other ∈ back, ¬StartsWith key other) (shows : Shows key line)
    (more : back ≠ []) (apart : ¬Glued line back.flatten)
    (account : Accounts keys (front ++ back)
      (staleTail (front ++ line :: back).flatten line ++ behind) next) :
    Accounts (key :: keys) (front ++ line :: back) behind next := by
  have same : keptLength (key :: keys) (front ++ line :: back) =
      keptLength keys (front ++ back) := by
    rw [keptLength, kept_removed starts absent absentBack, keptLength]
  have search : splitFirst (StartsWith key) (front ++ line :: back) = some (front, line, back) :=
    splitFirst_eq_some.mpr ⟨rfl, starts, absent⟩
  have least := account.least
  constructor
  · rw [same, List.length_cons]
    omega
  · rw [same, Clears, search, List.length_cons]
    rcases account.exact_or_off with clears | long | short
    · exact .inl ⟨shows, more, apart, clears⟩
    · exact .inr (.inl (by omega))
    · exact .inr (.inr short)

/-- A line that takes an LF with it leaves too little, unless a line of another key stays. -/
theorem Accounts.swallowed {more : List Bytes} (proper : ProperKeys keys)
    (starts : StartsWith key line) (absent : ∀ other ∈ front, ¬StartsWith key other)
    (absentBack : ∀ other ∈ [lf] :: more, ¬StartsWith key other)
    (account : Accounts keys (front ++ more) rest next)
    (cleared : Clears keys (front ++ more) rest →
      next.text.length = keptLength keys (front ++ more)) :
    Accounts (key :: keys) (front ++ line :: [lf] :: more) behind next := by
  have extra : keptLength (key :: keys) (front ++ line :: [lf] :: more) =
      keptLength keys (front ++ more) + 1 := by
    rw [keptLength, kept_removed starts absent absentBack]
    simp [keptLength, kept, unkeyed_lf proper]
    omega
  have least := account.least
  constructor
  · rw [extra, List.length_cons]
    omega
  · rw [extra, List.length_cons]
    rcases account.exact_or_off with clears | long | short
    · have exactly := cleared clears
      exact .inr (.inr (by omega))
    · exact .inr (.inl (by omega))
    · exact .inr (.inr (by omega))

end Accounts

/-- Only a line that shows its key is taken out. -/
theorem shows_of_moves (lined : Lined (front ++ line :: back))
    (holds : clearing.text = (front ++ line :: back).flatten)
    (absent : ∀ other ∈ front, ¬StartsWith key other)
    (absentBack : ∀ other ∈ back, ¬StartsWith key other)
    (moves : clearing.clearKey key ≠ clearing.stay) : Shows key line := by
  by_contra hidden
  apply moves
  apply clearKey_absent lined holds
  intro other member shows
  rcases List.mem_append.mp member with member | member
  · exact absent other member shows.startsWith
  · rcases List.mem_cons.mp member with rfl | member
    · exact hidden shows
    · exact absentBack other member shows.startsWith

theorem clear_accounts {next : Clearing} (proper : ProperKeys keys) (lined : Lined ls)
    (once : Once keys ls) (holds : clearing.text = ls.flatten)
    (result : Clearing.clear keys clearing = .done next) :
    Accounts keys ls clearing.behind next := by
  induction keys generalizing ls clearing with
  | nil =>
      rw [Clearing.clear, Outcome.done.injEq] at result
      subst result
      constructor <;> simp [Clears, keptLength, kept, Unkeyed, holds]
  | cons key keys induction =>
      have nonempty := (proper.isKey key (by simp)).ne_nil
      rw [Clearing.clear] at result
      cases search : splitFirst (StartsWith key) ls with
      | none =>
          have absent := splitFirst_eq_none.mp search
          rw [clearKey_absent lined holds (not_shows_of_not_startsWith absent)] at result
          rcases stay_bind_eq_done result with ⟨apart, result⟩
          rw [holds] at apart
          exact (induction proper.tail lined once.tail holds result).absent apart absent
      | some parts =>
          rcases parts with ⟨front, line, back⟩
          rcases splitFirst_eq_some.mp search with ⟨rfl, starts, absent⟩
          have absentBack := once.absent_back starts
          have notShown := not_shows_of_not_startsWith absent
          by_cases stays : clearing.clearKey key = clearing.stay
          · rw [stays] at result
            exact (induction proper.tail lined once.tail holds
              (stay_bind_eq_done result).2).present proper starts
          have shows := shows_of_moves lined holds absent absentBack stays
          have onceNext : Once keys (front ++ back) := once.tail.sublist
            ((List.Sublist.refl front).append (List.sublist_cons_self line back))
          by_cases glued : Glued line back.flatten
          · -- the line takes an LF of the next line with it
            rcases clearKey_swallows lined holds nonempty shows notShown glued with
              ⟨more, rfl, step⟩
            have moreLeft : more ≠ [] := by
              intro isLast
              rw [if_pos isLast] at step
              exact stays step
            rw [if_neg moreLeft] at step
            rw [step, Outcome.done_bind] at result
            have onceMore : Once keys (front ++ more) := onceNext.sublist
              ((List.Sublist.refl front).append (List.sublist_cons_self [lf] more))
            have linedNext : Lined (front ++ more) := lined.remove.remove
            have account := induction proper.tail linedNext onceMore
              (by simp [Clearing.text]) result
            apply account.swallowed proper.tail starts absent absentBack
            intro clears
            rcases clear_of_clears proper.tail linedNext onceMore
              ⟨front, more, rfl, closed_flatten lined.terminated_front, rfl, rfl⟩
              clears with ⟨same, again, held, _⟩
            rw [again, Outcome.done.injEq] at result
            subst result
            rw [held.text, keptLength]
          · have moreLeft : back ≠ [] := by
              intro isLast
              subst isLast
              exact stays (clearKey_last lined holds nonempty shows notShown)
            have step := clearKey_takes lined holds nonempty shows notShown moreLeft glued
            rw [step, Outcome.done_bind] at result
            have account := induction proper.tail lined.remove onceNext
              (by simp [Clearing.text]) result
            simp only [holds] at account
            exact account.taken starts absent absentBack shows moreLeft glued

end Chgres
