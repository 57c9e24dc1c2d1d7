import Chgres.Format
import Chgres.Utils.CString

/-! # Processes

`get_process_id` takes the number of a running process from the name of its entry in
`u:/proc`. `get_process_path` reads the file name of the process from the kernel and cuts it
off at its last slash.
-/

namespace Chgres

open Text

/-- `get_process_id`, given the name of the first entry that fits the filter. -/
def getProcessId (entry : Option Bytes) : Int16 :=
  match entry with
  | none => -1
  | some name =>
      -- `strnlen` looks at 12 characters
      if 4 < min name.length 12 then (atoi (name.drop (name.length - 3))).toInt16 else -1

example : getProcessId (some (ascii "XaSYS.042")) = 42 := by decide

/-- The offset of the last `wanted` in a string. -/
def strrchr (wanted : Byte) : (s : Bytes) → Option Nat
  | [] => none
  | c :: s =>
      match strrchr wanted s with
      | some found => some (found + 1)
      | none => if c = wanted then some 0 else none

/-- `get_process_path`, given what `get_process_id` returns and what is read from
`u:/kern/<pid>/fname`, if that opens. -/
def getProcessPath (pid : Int16) (fname : Option Bytes) : Option Bytes :=
  if 0 ≤ pid then
    let cwd := ascii "u:/kern/" ++ formatD pid.toInt ++ ascii "/cwd"
    match fname with
    | none => some cwd
    | some contents =>
        -- `buf` is cleared before 255 bytes are read
        let buf := cstring (contents.take 255)
        match strrchr 0x2f buf with
        | some (p + 1) => some (buf.take (p + 1))
        | _ => some cwd
  else none

example : getProcessPath 7 (some (ascii "u:/c/mint/xaaes/xaloader.prg")) =
    some (ascii "u:/c/mint/xaaes") := by decide

theorem strrchr_lt {wanted : Byte} : ∀ {s : Bytes} {found : Nat},
    strrchr wanted s = some found → found < s.length
  | [], _, isFound => by simp [strrchr] at isFound
  | c :: s, found, isFound => by
      rw [strrchr] at isFound
      cases rest : strrchr wanted s with
      | none =>
          rw [rest] at isFound
          split_ifs at isFound
          cases isFound
          simp
      | some later =>
          rw [rest] at isFound
          cases isFound
          have inside := strrchr_lt rest
          simp only [List.length_cons]
          omega

/-- No path is longer than 254 characters. -/
theorem getProcessPath_length {pid : Int16} {fname : Option Bytes} {path : Bytes}
    (isPath : getProcessPath pid fname = some path) : path.length ≤ 254 := by
  have cwd : (ascii "u:/kern/" ++ formatD pid.toInt ++ ascii "/cwd").length ≤ 254 := by
    have number := formatD_short_length pid
    have before : (ascii "u:/kern/").length = 8 := rfl
    have after : (ascii "/cwd").length = 4 := rfl
    simp only [List.length_append]
    omega
  unfold getProcessPath at isPath
  split_ifs at isPath
  cases fname with
  | none =>
      cases isPath
      exact cwd
  | some contents =>
      simp only at isPath
      split at isPath
      case h_1 p found =>
        cases isPath
        have inside := strrchr_lt found
        have short : (cstring (contents.take 255)).length ≤ 255 :=
          (List.takeWhile_prefix _).length_le.trans (List.length_take_le _ _)
        rw [List.length_take]
        omega
      case h_2 =>
        cases isPath
        exact cwd

end Chgres
