import Chgres.Save.FreshLine
import Chgres.Save.Magx

/-! # What `MAGX.INF` holds after a save

The new `#_DEV` line should take the place of the old one, or stand behind the
first `#[aes]` line, or come first. The searches miss a line that is the last one,
and a line whose key lies behind 511 blanks.
-/

namespace Chgres

open Text

/-- Where the new line belongs. -/
def magxPlace (contents : Bytes) : Gap :=
  match splitFirst (StartsWith magxDev) (lines contents) with
  | some (front, _, back) => ⟨front.flatten, back.flatten⟩
  | none =>
      match splitFirst (StartsWith magxAes) (lines contents) with
      | some (front, line, back) => ⟨front.flatten ++ line, back.flatten⟩
      | none => ⟨[], contents⟩

/-- The new line stands in its place, it is the only one of its kind, and the rest
of the file is as it was. -/
structure MagxRenewed (contents : Bytes) (r : Res) (file : Bytes) : Prop where
  placed : file = (magxPlace contents).before ++ magxLine r ++ (magxPlace contents).after
  single : (lines file).filter (fun line => StartsWith magxDev line) = [magxLine r]

/-- Every save of the mode that gets what it asks for renews the file. -/
def MagxSound (contents : Bytes) (r : Res) : Prop :=
  ∀ (machine : Machine) (disk : Disk), machine.gemdos.Succeeds →
    disk magxPath = some contents →
    ∃ file, (saveMagxInf machine r disk).2 magxPath = some file ∧
      MagxRenewed contents r file

/-- The line that decides about the place is seen: it shows its key and is not the
last one. An `#[aes]` line is looked for only where the file does not end in CR. -/
def MagxReady (contents : Bytes) : Prop :=
  match splitFirst (StartsWith magxDev) (lines contents) with
  | some (_, line, back) => Shows magxDev line ∧ back ≠ []
  | none =>
      match splitFirst (StartsWith magxAes) (lines contents) with
      | some (_, line, back) =>
          Shows magxAes line ∧ back ≠ [] ∧ contents.getLast? ≠ some cr
      | none => True

instance (contents : Bytes) : Decidable (MagxReady contents) := by
  rw [MagxReady]
  split
  · infer_instance
  · split <;> infer_instance

/-! ## The new line -/

def magxValue (r : Res) : Bytes :=
  ascii " " ++ formatD r.rez.toInt ++ ascii " " ++ formatD r.vmode.toInt

theorem magxLine_eq (r : Res) : magxLine r = freshLine magxDev (magxValue r) := by
  simp [magxLine, freshLine, magxDev, magxValue, ascii]

theorem magxValue_plain (r : Res) : Plain (magxValue r) := by
  have blank : Plain (ascii " ") := by simp [Plain, ascii, cr, lf]
  exact ((blank.append (formatD_plain _)).append blank).append (formatD_plain _)

theorem lines_magxLine {before : Bytes} (closed : Closed before) (r : Res) (after : Bytes) :
    lines (before ++ magxLine r ++ after) = lines before ++ magxLine r :: lines after := by
  rw [magxLine_eq]
  exact lines_insert closed magxDev_isKey (magxValue_plain r) after

theorem magxLine_startsWith (r : Res) : StartsWith magxDev (magxLine r) := by
  rw [magxLine_eq]
  exact freshLine_startsWith magxDev_isKey

/-- The text has no line that starts with `#_DEV`. -/
def NoDev (text : Bytes) : Prop := ∀ line ∈ lines text, ¬StartsWith magxDev line

/-- Between texts without such a line the new line is the only one. -/
theorem magx_single {before after : Bytes} (closed : Closed before) (noBefore : NoDev before)
    (noAfter : NoDev after) (r : Res) :
    (lines (before ++ magxLine r ++ after)).filter (fun line => StartsWith magxDev line) =
      [magxLine r] := by
  have none : ∀ {text}, NoDev text →
      (lines text).filter (fun line => StartsWith magxDev line) = [] := by
    intro text noDev
    apply List.filter_eq_nil_iff.mpr
    intro line member
    simpa using noDev line member
  rw [lines_magxLine closed, List.filter_append, List.filter_cons, none noBefore,
    none noAfter]
  simp [magxLine_startsWith]

/-- The bytes tell where the new line stands. -/
theorem magx_place_unique {before before' after after' : Bytes} {r : Res}
    (closed : Closed before) (closed' : Closed before') (noDev : NoDev before)
    (noDev' : NoDev before')
    (same : before ++ magxLine r ++ after = before' ++ magxLine r ++ after') :
    before = before' := by
  have split := lines_magxLine closed r after
  have split' := lines_magxLine closed' r after'
  rw [← same] at split'
  have front := (splitFirst_unique split (magxLine_startsWith r) noDev split'
    (magxLine_startsWith r) noDev').1
  exact lines_injective front

/-! ## When the place is found -/

variable {contents behind : Bytes} {r : Res} {front back : List Bytes} {line : Bytes}

def OneDev (contents : Bytes) : Prop :=
  ((lines contents).filter fun line => StartsWith magxDev line).length ≤ 1

instance (contents : Bytes) : Decidable (OneDev contents) :=
  inferInstanceAs (Decidable (_ ≤ _))

theorem noDev_front (split : lines contents = front ++ back)
    (none : ∀ line ∈ front, ¬StartsWith magxDev line) : NoDev front.flatten := by
  rw [NoDev, lines_front split]
  exact none

theorem noDev_back (split : lines contents = front ++ back)
    (none : ∀ line ∈ back, ¬StartsWith magxDev line) : NoDev back.flatten := by
  rw [NoDev, lines_back split]
  exact none

theorem OneDev.none_behind (one : OneDev contents)
    (split : lines contents = front ++ line :: back) (starts : StartsWith magxDev line) :
    ∀ other ∈ back, ¬StartsWith magxDev other :=
  none_behind_only one split starts

theorem hidden_of_none {key : Bytes} {ls : List Bytes}
    (none : ∀ line ∈ ls, ¬StartsWith key line) : HiddenIn key ls :=
  fun line member shows => none line (List.mem_of_mem_dropLast member) shows.startsWith

theorem closed_front {text : Bytes} (split : lines text = front ++ line :: back) :
    Closed front.flatten := by
  have lined := lines_lined text
  rw [split] at lined
  exact closed_flatten lined.terminated_front

/-- The line that is cut behind is a whole line. -/
theorem closed_through (split : lines contents = front ++ line :: back) (more : back ≠ []) :
    Closed (front.flatten ++ line) := by
  rcases List.exists_cons_of_ne_nil more with ⟨next, rest, rfl⟩
  have shifted : lines contents = (front ++ [line]) ++ next :: rest := by simp [split]
  simpa using closed_front shifted

theorem magx_ready_sound (one : OneDev contents) (ready : MagxReady contents) :
    MagxSound contents r := by
  intro machine disk succeeds old
  refine ⟨_, saveMagx_file succeeds old r, ?_⟩
  generalize machine.behind = behind
  rw [MagxReady] at ready
  cases dev : splitFirst (StartsWith magxDev) (lines contents) with
  | some parts =>
      rcases parts with ⟨front, line, back⟩
      rw [dev] at ready
      rcases splitFirst_eq_some.mp dev with ⟨split, starts, none⟩
      have cut : Cut magxDev (lines contents) front line back :=
        ⟨split, ready.1, fun earlier member shows =>
          none earlier member shows.startsWith, ready.2⟩
      have gap : magxGap contents behind = ⟨front.flatten, back.flatten⟩ := by
        rw [magxGap, cutLine_eq_some.mpr cut]
      have shifted : lines contents = (front ++ [line]) ++ back := by simp [split]
      rw [gap]
      exact ⟨by rw [magxPlace, dev], magx_single (closed_front split)
        (noDev_front split none) (noDev_back shifted (one.none_behind split starts)) r⟩
  | none =>
      rw [dev] at ready
      have none := splitFirst_eq_none.mp dev
      have hidden := cutLine_eq_none.mpr (hidden_of_none none)
      cases aes : splitFirst (StartsWith magxAes) (lines contents) with
      | some parts =>
          rcases parts with ⟨front, line, back⟩
          rw [aes] at ready
          rcases splitFirst_eq_some.mp aes with ⟨split, starts, noAes⟩
          have apart : ¬Glued contents behind := fun glued => ready.2.2 glued.1
          have cut : Cut magxAes (lines contents) front line back :=
            ⟨split, ready.1, fun earlier member shows =>
              noAes earlier member shows.startsWith, ready.2.1⟩
          have gap : magxGap contents behind = ⟨front.flatten ++ line, back.flatten⟩ := by
            simp only [magxGap, hidden, if_neg apart, aesGap, cutLine_eq_some.mpr cut]
          have shifted : lines contents = (front ++ [line]) ++ back := by simp [split]
          have noFront := noDev_front shifted fun other member =>
            none other (by rw [shifted]; exact List.mem_append_left _ member)
          have noBack := noDev_back shifted fun other member =>
            none other (by rw [shifted]; exact List.mem_append_right _ member)
          rw [gap]
          refine ⟨by rw [magxPlace, dev]; simp only [aes], ?_⟩
          simp only [List.flatten_append, List.flatten_cons, List.flatten_nil,
            List.append_nil] at noFront
          exact magx_single (closed_through split ready.2.1) noFront noBack r
      | none =>
          have noAes := cutLine_eq_none.mpr (hidden_of_none (splitFirst_eq_none.mp aes))
          have gap : magxGap contents behind = ⟨[], contents⟩ := by
            simp only [magxGap, hidden, aesGap, noAes, ite_self]
          rw [gap]
          refine ⟨by rw [magxPlace, dev]; simp only [aes], ?_⟩
          exact magx_single (.inl rfl) (by simp [NoDev]) none r

/-! ## When it is not -/

/-- Without a line to replace no byte of the old file goes away. -/
theorem magxGap_together (behind : Bytes) (hidden : HiddenIn magxDev (lines contents)) :
    (magxGap contents behind).before ++ (magxGap contents behind).after = contents := by
  rw [magxGap]
  rw [cutLine_eq_none.mpr hidden]
  by_cases glued : Glued contents behind
  · simp [glued]
  · simp only [if_neg glued, aesGap]
    cases aes : cutLine magxAes (lines contents) with
    | none => rfl
    | some parts =>
        have cut := cutLine_eq_some.mp aes
        conv_rhs => rw [eq_flatten cut.split]
        simp

/-- The gap does not split a line. -/
theorem magxGap_closed : Closed (magxGap contents behind).before := by
  rw [magxGap]
  cases dev : cutLine magxDev (lines contents) with
  | some parts => exact closed_front (cutLine_eq_some.mp dev).split
  | none =>
      by_cases glued : Glued contents behind
      · simp [glued, Closed]
      · simp only [if_neg glued, aesGap]
        cases aes : cutLine magxAes (lines contents) with
        | none => exact .inl rfl
        | some parts =>
            have cut := cutLine_eq_some.mp aes
            exact closed_through cut.split cut.more

/-- The lines in front of the gap are the first lines of the file. -/
theorem magxGap_lines (contents behind : Bytes) :
    ∃ rest, lines contents = lines (magxGap contents behind).before ++ rest ∧
      (rest = [] → contents = []) := by
  have atStart : ∃ rest, lines contents = lines [] ++ rest ∧ (rest = [] → contents = []) :=
    ⟨lines contents, rfl, lines_eq_nil.mp⟩
  rw [magxGap]
  cases dev : cutLine magxDev (lines contents) with
  | some parts =>
      rcases parts with ⟨front, line, back⟩
      have cut := cutLine_eq_some.mp dev
      refine ⟨line :: back, ?_, by simp⟩
      simp only [lines_front cut.split]
      exact cut.split
  | none =>
      by_cases glued : Glued contents behind
      · simp only [if_pos glued]
        exact atStart
      · simp only [if_neg glued, aesGap]
        cases aes : cutLine magxAes (lines contents) with
        | none => exact atStart
        | some parts =>
            rcases parts with ⟨front, line, back⟩
            have cut := cutLine_eq_some.mp aes
            have shifted : lines contents = (front ++ [line]) ++ back := by simp [cut.split]
            have first := lines_front shifted
            simp only [List.flatten_append, List.flatten_cons, List.flatten_nil,
              List.append_nil] at first
            exact ⟨back, by rw [first, shifted], fun empty => absurd empty cut.more⟩

/-- Some machine puts the new line elsewhere than behind the first `#[aes]` line. -/
theorem magxGap_misses (none : ∀ line ∈ lines contents, ¬StartsWith magxDev line)
    (split : lines contents = front ++ line :: back)
    (blocked : ¬(Shows magxAes line ∧ back ≠ [] ∧ contents.getLast? ≠ some cr)) :
    ∃ behind, (magxGap contents behind).before ≠ front.flatten ++ line := by
  have hidden := cutLine_eq_none.mpr (hidden_of_none none)
  have nonempty : line ≠ [] := (lines_lined contents).ne_nil line (by simp [split])
  have start : [] ≠ front.flatten ++ line := by simp [nonempty]
  by_cases ending : contents.getLast? = some cr
  · refine ⟨[lf], ?_⟩
    have glued : Glued contents [lf] := ⟨ending, rfl⟩
    simpa only [magxGap, hidden, if_pos glued] using start
  · refine ⟨[], ?_⟩
    have apart : ¬Glued contents [] := fun glued => ending glued.1
    simp only [magxGap, hidden, if_neg apart, aesGap]
    cases aes : cutLine magxAes (lines contents) with
    | none => exact start
    | some parts =>
        rcases parts with ⟨front', line', back'⟩
        have cut := cutLine_eq_some.mp aes
        intro same
        have sameText : front'.flatten ++ line' = front.flatten ++ line := same
        have shifted : lines contents = (front ++ [line]) ++ back := by simp [split]
        have shifted' : lines contents = (front' ++ [line']) ++ back' := by
          simp [cut.split]
        have sameLines : front' ++ [line'] = front ++ [line] := by
          rw [← lines_front shifted, ← lines_front shifted']
          simp [sameText]
        have sameLine : line' = line := by
          have last := congrArg List.getLast? sameLines
          simpa using last
        have sameFront : front' = front := by
          have first := congrArg List.dropLast sameLines
          simpa using first
        have sameBack : back' = back := by
          have whole := cut.split
          rw [split, sameLine, sameFront] at whole
          simpa using whole.symm
        apply blocked
        rw [← sameLine, ← sameBack]
        exact ⟨cut.shows, cut.more, ending⟩

/-- A line of the key that is not cut is not seen at all. -/
theorem hidden_of_blocked {key : Bytes} {ls : List Bytes} (split : ls = front ++ line :: back)
    (noneFront : ∀ earlier ∈ front, ¬StartsWith key earlier)
    (noneBack : ∀ later ∈ back, ¬StartsWith key later)
    (blocked : ¬(Shows key line ∧ back ≠ [])) : HiddenIn key ls := by
  intro other member shows
  by_cases isLast : back = []
  · subst isLast
    have inFront : other ∈ front := by simpa [split] using member
    exact noneFront other inFront shows.startsWith
  · have inLines := List.mem_of_mem_dropLast member
    rw [split] at inLines
    rcases List.mem_append.mp inLines with before | after
    · exact noneFront other before shows.startsWith
    rcases List.mem_cons.mp after with rfl | after
    · exact blocked ⟨shows, isLast⟩
    · exact noneBack other after shows.startsWith

/-- Behind a text that does not end with a line the new line would not be a line. -/
theorem magx_not_behind {before after : Bytes} (whole : before ++ after = contents)
    (closed : Closed before) (unclosed : ¬Closed contents)
    (same : before ++ magxLine r ++ after = contents ++ magxLine r) : False := by
  subst whole
  have ends : (magxLine r).getLast? = some lf := by simp [magxLine, crlf]
  have nonempty : magxLine r ≠ [] := by
    intro empty
    simp [empty] at ends
  by_cases last : after = []
  · rw [last, List.append_nil] at unclosed
    exact unclosed closed
  · have lastByte := congrArg List.getLast? same
    rw [List.getLast?_append_of_ne_nil _ last, List.getLast?_append_of_ne_nil _ nonempty,
      ends] at lastByte
    apply unclosed
    rw [Closed, List.getLast?_append_of_ne_nil _ last]
    exact .inr (.inr lastByte)

/-- What lies behind the file is not known to the saver, and does not matter to a save that
is right. -/
theorem MagxSound.renewed (sound : MagxSound contents r) (behind : Bytes) :
    MagxRenewed contents r ((magxGap contents behind).before ++ magxLine r ++
      (magxGap contents behind).after) := by
  have succeeds := Gemdos.obliging_succeeds
  have saved := @saveMagx_file contents (.obliging 0 behind 0) succeeds
    (fun _ => some contents) rfl r
  rcases sound (.obliging 0 behind 0) (fun _ => some contents) succeeds rfl with
    ⟨file, here, renewed⟩
  rw [saved, Option.some.injEq] at here
  rw [← here] at renewed
  exact renewed

/-- An old `#_DEV` line that is not seen stays, and the file is longer than it should be. -/
theorem magx_dev_seen (one : OneDev contents) (sound : MagxSound contents r)
    (dev : splitFirst (StartsWith magxDev) (lines contents) = some (front, line, back)) :
    Shows magxDev line ∧ back ≠ [] := by
  by_contra blocked
  rcases splitFirst_eq_some.mp dev with ⟨split, starts, none⟩
  have hidden := hidden_of_blocked split none (one.none_behind split starts) blocked
  have together := congrArg List.length (magxGap_together [] hidden)
  have placed := congrArg List.length (sound.renewed []).placed
  have nonempty := List.length_pos_of_ne_nil
    ((lines_lined contents).ne_nil line (by simp [split]))
  have size := congrArg List.length (eq_flatten split)
  simp only [magxPlace, dev, List.length_append, List.flatten_append,
    List.flatten_cons] at together placed size
  omega

/-- Where an `#[aes]` line is not seen the new line comes elsewhere. -/
theorem magx_aes_seen (sound : MagxSound contents r)
    (dev : splitFirst (StartsWith magxDev) (lines contents) = none)
    (aes : splitFirst (StartsWith magxAes) (lines contents) = some (front, line, back)) :
    Shows magxAes line ∧ back ≠ [] ∧ contents.getLast? ≠ some cr := by
  by_contra blocked
  have none := splitFirst_eq_none.mp dev
  rcases splitFirst_eq_some.mp aes with ⟨split, starts, noAes⟩
  rcases magxGap_misses none split blocked with ⟨behind, misses⟩
  have placed := (sound.renewed behind).placed
  have together := magxGap_together behind (hidden_of_none none)
  simp only [magxPlace, dev, aes] at placed
  have shifted : lines contents = (front ++ [line]) ++ back := by simp [split]
  by_cases closed : Closed (front.flatten ++ line)
  · have noFront := noDev_front shifted fun other member =>
      none other (by rw [shifted]; exact List.mem_append_left _ member)
    have noBefore : NoDev (magxGap contents behind).before := by
      rcases magxGap_lines contents behind with ⟨rest, first, _⟩
      intro other member
      exact none other (by rw [first]; exact List.mem_append_left _ member)
    apply misses
    exact magx_place_unique magxGap_closed closed noBefore (by simpa using noFront) placed
  · have isLast : back = [] := by
      by_contra more
      exact closed (closed_through split more)
    have whole : front.flatten ++ line = contents := by
      conv_rhs => rw [eq_flatten split, isLast]
      simp
    rw [isLast, whole, List.flatten_nil, List.append_nil] at placed
    rw [whole] at closed
    exact magx_not_behind together magxGap_closed closed placed

theorem magx_sound_ready (one : OneDev contents) (sound : MagxSound contents r) :
    MagxReady contents := by
  rw [MagxReady]
  cases dev : splitFirst (StartsWith magxDev) (lines contents) with
  | some parts => exact magx_dev_seen one sound dev
  | none =>
      cases aes : splitFirst (StartsWith magxAes) (lines contents) with
      | some parts => exact magx_aes_seen sound dev aes
      | none => trivial

/-- The file is renewed by every save that gets what it asks for exactly if the line
that decides about the place is seen. -/
theorem magx_sound_iff (one : OneDev contents) (r : Res) :
    MagxSound contents r ↔ MagxReady contents :=
  ⟨magx_sound_ready one, magx_ready_sound one⟩

/-- A `#_DEV` line in the middle is replaced. -/
theorem magx_sound_iff_sample :
    MagxSound (ascii "#_MAG\r\n#_DEV 5 18\r\n#[boot]\r\n")
      ⟨false, 2, 0, 0, 0, 0, 0, 0, 0, 0, 0⟩ :=
  (magx_sound_iff (by decide +kernel) _).mpr (by decide +kernel)

/-- A `#_DEV` line at the end stays, and a second one is written. -/
theorem magx_last_line : ¬∀ (contents : Bytes) (r : Res), contents ≠ [] →
    OneDev contents → MagxSound contents r := by
  intro all
  have one : OneDev (ascii "#[boot]\r\n#_DEV 5 18\r\n") := by decide +kernel
  have sound := all _ ⟨false, 5, 18, 0, 0, 0, 0, 0, 0, 0, 0⟩ (by decide) one
  exact absurd (magx_sound_ready one sound) (by decide +kernel)

end Chgres
