import Chgres.Utils.ScanLines

/-! # New lines in a file

The savers write lines of their own: a key in front, a value and CR LF. Put where
a line of the file starts, such a line is a line of the new file.
-/

namespace Chgres

open Text

def freshLine (key value : Bytes) : Bytes := key ++ value ++ crlf

variable {key value : Bytes}

theorem freshLine_terminated (isKey : IsKey key) (plain : Plain value) :
    Terminated (freshLine key value) :=
  .crlf (isKey.plain.append plain)

theorem freshLine_startsWith (isKey : IsKey key) : StartsWith key (freshLine key value) := by
  rw [freshLine, List.append_assoc]
  exact isKey.startsWith _

theorem freshLine_shows (isKey : IsKey key) (short : key.length ≤ 511) :
    Shows key (freshLine key value) := by
  rw [freshLine, List.append_assoc]
  exact isKey.shows short _

theorem not_glued_freshLine (before : Bytes) (isKey : IsKey key) (after : Bytes) :
    ¬Glued before (freshLine key value ++ after) := by
  intro glued
  have starts := (@freshLine_startsWith key value isKey).head?_ne_lf isKey.ne_nil
  have nonempty : freshLine key value ≠ [] := by simp [freshLine, crlf]
  rw [Glued, List.head?_append_of_ne_nil _ nonempty] at glued
  exact starts glued.2

theorem lines_freshLine (isKey : IsKey key) (plain : Plain value) (after : Bytes) :
    lines (freshLine key value ++ after) = freshLine key value :: lines after := by
  apply lines_terminated_append (freshLine_terminated isKey plain)
  simp [Glued, freshLine, crlf]

/-- A new line between two parts of a text. -/
theorem lines_insert {before : Bytes} (closed : Closed before) (isKey : IsKey key)
    (plain : Plain value) (after : Bytes) :
    lines (before ++ freshLine key value ++ after) =
      lines before ++ freshLine key value :: lines after := by
  rw [List.append_assoc, lines_append closed (not_glued_freshLine before isKey after),
    lines_freshLine isKey plain]

end Chgres
