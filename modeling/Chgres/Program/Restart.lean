import Chgres.Program.Setup
import Chgres.Save.Saver

/-! # Saving the mode and changing to it

`save` has the chosen mode written to where the system reads it from. `apply` then asks the
AES for the change, again and again while an application is in the way, or starts the
machine anew.
-/

namespace Chgres

open Text

/-! ## `save` -/

/-- The saver of a system, and what `save` returns if it fails. -/
def saverOf (sysAes : Int16) : Option (Saver × Int) :=
  if sysAes = systemTos then some (.desk .newdesk, -1)
  else if sysAes = systemEmutos then some (.desk .emudesk, -1)
  else if sysAes = systemGeneva then none
  else if sysAes = systemMagic then some (.magx, 0)
  else if sysAes = systemMintAes then some (.desk .newdesk, 0)
  else if sysAes = systemMintNaes then some (.desk .naes, 0)
  else if sysAes = systemMintXaaes then some (.cnf .xaaes, -1)
  else if sysAes = systemMintMyaes then some (.cnf .myaes, 0)
  else none

/-- `save`: -1 if the mode must be saved but is not, 0 if it would only be better saved, and 1
if it is. -/
def save (sysVdi : Int16) (machine : Machine) (r : Res) (newdeskText : Bytes) (disk : Disk) :
    Outcome (Int × Disk) :=
  if sysVdi = vdiFvdi then Saver.fvdi.save machine r newdeskText disk
  else
    match saverOf machine.sysAes with
    | none => .done (-1, disk)
    | some (saver, failed) => (saver.save machine r newdeskText disk).bind fun saved =>
        .done (if saved.1 ≠ 0 then 1 else failed, saved.2)

/-! ## `apply` -/

/-- What the program asks the system for. -/
inductive Request
  /-- `appl_exit` -/
  | applExit
  | shutdown (mode : Int32)
  | warmReboot
  /-- `shel_write` with `SHW_RESCHNG` -/
  | changeMode (wisgr wiscr : Int16)
  /-- `shel_write` of `SHUTDOWN.PRG` with its arguments. -/
  | launchShutdown (arguments : Bytes)
  | kill (pid : Int16)
  deriving DecidableEq, Repr

/-- A function returns, or the machine starts anew before it does. -/
inductive Ending
  | returned (value : Int)
  | reset
  deriving DecidableEq, Repr

structure Restart where
  requests : List Request
  ending : Ending
  deriving DecidableEq, Repr

def Restart.after (requests : List Request) (restart : Restart) : Restart :=
  { restart with requests := requests ++ restart.requests }

/-- The answers to one `SHW_RESCHNG`: what `shel_write` returns and stores in `apid`, what
`getms` says then, and the process that `appl_find` knows the application as. -/
structure Attempt where
  ret : Int16
  apid : Int16
  ms : Int32
  pid : Int16
  deriving DecidableEq, Repr

/-- `get_pid` -/
def getPid (apid pid : Int16) : Int16 := if 0 < apid then pid else -1

/-- `kill_pid` -/
def killPid (pid : Int16) : List Request := if 0 < pid then [.kill pid] else []

/-- The loop of `apply`, as far as the attempts lead. Only N.AES is given a place for the
application in the way. -/
def askAes (change : Request) (naes : Bool) (startms : Int32) :
    (retries : Int16) → List Attempt → Option Restart
  | retries, attempts =>
      if 0 < retries then
        match attempts with
        | [] => none
        | attempt :: attempts =>
            let apid := if naes then attempt.apid else 0
            if 0 < attempt.ret then some ⟨[change], .returned 1⟩
            else if attempt.ms - startms < 10 * 1000 ∧ 0 < apid then
              (askAes change naes startms (retries - 1 + 1) attempts).map
                (.after (change :: killPid (getPid apid attempt.pid)))
            else (askAes change naes startms (retries - 1) attempts).map (.after [change])
      else some ⟨[.warmReboot], .reset⟩

/-- The request for a mode: `wisgr` and `wiscr`. -/
def changeTo (r : Res) : Request :=
  if r.vmode = 0 then .changeMode r.rez 0 else .changeMode r.vmode 1

/-- The length of `"%d 0 %d"`, and the text. -/
def shutdownArguments (r : Res) : Bytes :=
  let text := formatD r.rez.toInt ++ ascii " 0 " ++ formatD r.vmode.toInt
  text.length.toUInt8 :: text

def apply (sysVdi sysAes : Int16) (r : Res) (startms : Int32) (attempts : List Attempt) :
    Option Restart :=
  if sysVdi &&& vdiFvdi ≠ 0 then
    let shutdown := if sysAes &&& systemTos = 0 then [Request.shutdown 1] else []
    some ⟨.applExit :: shutdown ++ [.warmReboot], .reset⟩
  else if sysAes &&& systemGeneva ≠ 0 then some ⟨[], .returned (-1)⟩
  else if sysAes &&& systemMagic ≠ 0 then
    some ⟨[.launchShutdown (shutdownArguments r)], .returned 1⟩
  else if sysAes &&& systemMint ≠ 0 then
    askAes (changeTo r) (sysAes &&& systemMintNaes ≠ 0) startms 1 attempts
  else some ⟨[.warmReboot], .reset⟩

/-! ## The loop -/

namespace Attempt

/-- An application is in the way and there is time left. -/
def Blocked (naes : Bool) (startms : Int32) (attempt : Attempt) : Prop :=
  attempt.ret ≤ 0 ∧ naes = true ∧ 0 < attempt.apid ∧ attempt.ms - startms < 10 * 1000

instance (naes : Bool) (startms : Int32) (attempt : Attempt) :
    Decidable (attempt.Blocked naes startms) :=
  inferInstanceAs (Decidable (_ ∧ _ ∧ _ ∧ _))

/-- The requests of an attempt that is followed by another one. -/
def requests (change : Request) (attempt : Attempt) : List Request :=
  change :: killPid attempt.pid

/-- The requests of the last attempt, and what becomes of the program. -/
def finish (change : Request) (attempt : Attempt) : Restart :=
  if 0 < attempt.ret then ⟨[change], .returned 1⟩ else ⟨[change, .warmReboot], .reset⟩

end Attempt

section Loop

variable (change : Request) (naes : Bool) (startms : Int32) {attempt : Attempt}

theorem askAes_stop (attempts : List Attempt) :
    askAes change naes startms 0 attempts = some ⟨[.warmReboot], .reset⟩ := by
  rw [askAes.eq_def]
  rfl

theorem askAes_blocked (blocked : attempt.Blocked naes startms) (attempts : List Attempt) :
    askAes change naes startms 1 (attempt :: attempts) =
      (askAes change naes startms 1 attempts).map (.after (attempt.requests change)) := by
  rcases blocked with ⟨refused, isNaes, apid, inTime⟩
  have notYet : ¬0 < attempt.ret := Int16.not_lt.mpr refused
  have again : attempt.ms - startms < 10 * 1000 ∧ 0 < attempt.apid := ⟨inTime, apid⟩
  subst isNaes
  rw [askAes]
  simp only [notYet, again, getPid, Attempt.requests, if_true, if_false, and_self]
  rfl

theorem askAes_last (last : ¬attempt.Blocked naes startms) (attempts : List Attempt) :
    askAes change naes startms 1 (attempt :: attempts) = some (attempt.finish change) := by
  rw [askAes, Attempt.finish]
  by_cases accepted : 0 < attempt.ret
  · simp [accepted]
  · have gaveUp : ¬(attempt.ms - startms < 10 * 1000 ∧ 0 < if naes then attempt.apid else 0) := by
      rintro ⟨inTime, apid⟩
      refine last ⟨Int16.not_lt.mp accepted, ?_, ?_, inTime⟩
      · by_contra other
        rw [if_neg other] at apid
        exact absurd apid (by decide)
      · by_contra none
        split_ifs at apid
        · exact none apid
        · exact absurd apid (by decide)
    simp only [accepted, gaveUp, if_false]
    exact congrArg (Option.map (Restart.after [change])) (askAes_stop change naes startms attempts)

/-- The loop goes on while the attempts are blocked, and the first one that is not is the
last. -/
theorem askAes_eq (attempts : List Attempt) :
    askAes change naes startms 1 attempts =
      (attempts.dropWhile fun attempt => attempt.Blocked naes startms).head?.map fun last =>
        (last.finish change).after
          ((attempts.takeWhile fun attempt => attempt.Blocked naes startms).flatMap
            (Attempt.requests change)) := by
  induction attempts with
  | nil => rfl
  | cons attempt attempts induction =>
      by_cases blocked : attempt.Blocked naes startms
      · rw [askAes_blocked change naes startms blocked, induction]
        simp [blocked, Restart.after, Option.map_map, Function.comp_def]
      · rw [askAes_last change naes startms blocked]
        simp [blocked, Restart.after]

end Loop

/-! ## The requests -/

section Requests

variable {change : Request} {naes : Bool} {startms : Int32}

theorem killPid_mem {pid other : Int16} : Request.kill other ∈ killPid pid ↔ other = pid ∧ 0 < pid := by
  rw [killPid]
  split
  case isTrue positive => simp [positive]
  case isFalse none => simp [none]

/-- A change is asked for once in each attempt. -/
theorem count_requests (isChange : ∀ pid, change ≠ .kill pid) (blocked : List Attempt) :
    (blocked.flatMap (Attempt.requests change)).count change = blocked.length := by
  have single : ∀ attempt : Attempt, (attempt.requests change).count change = 1 := by
    intro attempt
    have noKill : change ∉ killPid attempt.pid := by
      rw [killPid]
      split
      · simpa using isChange attempt.pid
      · simp
    rw [Attempt.requests, List.count_cons_self, List.count_eq_zero.mpr noKill]
  induction blocked with
  | nil => rfl
  | cons attempt blocked induction =>
      rw [List.flatMap_cons, List.count_append, single, induction, List.length_cons]
      omega

theorem count_finish (isChange : change ≠ .warmReboot) (last : Attempt) :
    (last.finish change).requests.count change = 1 := by
  rw [Attempt.finish]
  split
  · simp
  · simp [isChange.symm]

/-- Only the process of a blocked attempt is killed. -/
theorem kill_mem (isChange : ∀ pid, change ≠ .kill pid) {blocked : List Attempt} {last : Attempt}
    {pid : Int16} (killed : Request.kill pid ∈
      ((last.finish change).after (blocked.flatMap (Attempt.requests change))).requests) :
    0 < pid ∧ ∃ attempt ∈ blocked, attempt.pid = pid := by
  rcases List.mem_append.mp killed with earlier | final
  · rcases List.mem_flatMap.mp earlier with ⟨attempt, member, inside⟩
    rcases List.mem_cons.mp inside with isNot | here
    · exact absurd isNot.symm (isChange pid)
    · rcases killPid_mem.mp here with ⟨rfl, positive⟩
      exact ⟨positive, attempt, member, rfl⟩
  · have isNot := (isChange pid).symm
    rw [Attempt.finish] at final
    split at final
    · simp [isNot] at final
    · simp [isNot] at final

/-- The loop is still going on if and only if all attempts so far are blocked. -/
theorem askAes_none (attempts : List Attempt) :
    askAes change naes startms 1 attempts = none ↔
      ∀ attempt ∈ attempts, attempt.Blocked naes startms := by
  rw [askAes_eq, Option.map_eq_none_iff, List.head?_eq_none_iff, List.dropWhile_eq_nil_iff]
  simp

theorem askAes_some {attempts : List Attempt} {restart : Restart}
    (ends : askAes change naes startms 1 attempts = some restart) :
    ∃ blocked last rest, attempts = blocked ++ last :: rest ∧
      (∀ attempt ∈ blocked, attempt.Blocked naes startms) ∧ ¬last.Blocked naes startms ∧
      restart = (last.finish change).after (blocked.flatMap (Attempt.requests change)) := by
  rw [askAes_eq, Option.map_eq_some_iff] at ends
  rcases ends with ⟨last, first, rfl⟩
  rcases List.head?_eq_some_iff.mp first with ⟨rest, dropped⟩
  refine ⟨_, last, rest, ?_, ?_, ?_, rfl⟩
  · rw [← dropped, List.takeWhile_append_dropWhile]
  · intro attempt member
    simpa using List.mem_takeWhile_imp member
  · have stops := List.head?_dropWhile_not (fun attempt : Attempt => attempt.Blocked naes startms)
      attempts
    rw [first] at stops
    simpa using stops

end Requests

theorem changeTo_isChange (r : Res) : (∀ pid, changeTo r ≠ .kill pid) ∧ changeTo r ≠ .warmReboot := by
  unfold changeTo
  split
  · simp
  · simp

/-- A request that has to do with a mode is for this one. -/
def Request.IsFor (r : Res) : Request → Prop
  | .changeMode wisgr wiscr => changeTo r = .changeMode wisgr wiscr
  | .launchShutdown arguments => arguments = shutdownArguments r
  | _ => True

theorem changeTo_isFor (r : Res) : (changeTo r).IsFor r := by
  rw [changeTo]
  split
  case isTrue zero => exact if_pos zero
  case isFalse nonzero => exact if_neg nonzero

theorem askAes_isFor {r : Res} {naes : Bool} {startms : Int32} {attempts : List Attempt}
    {restart : Restart} (ends : askAes (changeTo r) naes startms 1 attempts = some restart) :
    ∀ request ∈ restart.requests, request.IsFor r := by
  have change := changeTo_isFor r
  rcases askAes_some ends with ⟨blocked, last, rest, _, _, _, rfl⟩
  intro request member
  rcases List.mem_append.mp member with earlier | final
  · rcases List.mem_flatMap.mp earlier with ⟨attempt, _, inside⟩
    rcases List.mem_cons.mp inside with rfl | killed
    · exact change
    · rw [killPid] at killed
      split at killed
      · rw [List.mem_singleton.mp killed]
        trivial
      · exact absurd killed (by simp)
  · rw [Attempt.finish] at final
    split at final
    · rw [List.mem_singleton.mp final]
      exact change
    · rcases List.mem_pair.mp final with rfl | rfl
      · exact change
      · trivial

/-- What `apply` asks for is the mode that it is called with. -/
theorem apply_isFor {sysVdi sysAes : Int16} {r : Res} {startms : Int32} {attempts : List Attempt}
    {restart : Restart} (ends : apply sysVdi sysAes r startms attempts = some restart) :
    ∀ request ∈ restart.requests, request.IsFor r := by
  rw [apply] at ends
  split at ends
  · simp only at ends
    cases ends
    intro request member
    split at member
    · rcases (by simpa using member : request = .applExit ∨ request = .shutdown 1 ∨
        request = .warmReboot) with rfl | rfl | rfl
      all_goals trivial
    · rcases (by simpa using member : request = .applExit ∨ request = .warmReboot) with rfl | rfl
      all_goals trivial
  · split_ifs at ends
    · cases ends
      simp
    · cases ends
      intro request member
      rw [List.mem_singleton.mp member]
      rfl
    · exact askAes_isFor ends
    · cases ends
      intro request member
      rw [List.mem_singleton.mp member]
      trivial

theorem finish_ending (change : Request) (last : Attempt) :
    (last.finish change).ending ≠ .returned (-1) := by
  rw [Attempt.finish]
  split
  · simp
  · simp

/-- Only for Geneva `apply` gives up. -/
theorem apply_refused {sysVdi sysAes : Int16} (isSystem : sysAes ∈ systems) {r : Res}
    {startms : Int32} {attempts : List Attempt} {restart : Restart}
    (ends : apply sysVdi sysAes r startms attempts = some restart)
    (refused : restart.ending = .returned (-1)) :
    sysVdi &&& vdiFvdi = 0 ∧ sysAes = systemGeneva := by
  rw [apply] at ends
  split at ends
  case isTrue =>
    cases ends
    exact absurd refused (by simp)
  case isFalse noFvdi =>
    split_ifs at ends with geneva magic mint
    · refine ⟨not_not.mp noFvdi, ?_⟩
      revert isSystem geneva
      simp only [systems, List.mem_cons, List.not_mem_nil, or_false]
      rintro (rfl | rfl | rfl | rfl | rfl | rfl | rfl | rfl) geneva
      all_goals first | rfl | exact absurd geneva (by decide)
    · cases ends
      exact absurd refused (by simp)
    · rcases askAes_some ends with ⟨blocked, last, rest, _, _, _, rfl⟩
      exact absurd refused (finish_ending _ last)
    · cases ends
      exact absurd refused (by simp)

/-- Under MiNT, whatever the AES answers: the change to the same mode is asked for again as
long as an application is in the way and ten seconds have not passed, which only N.AES lets
the program find out; between two attempts the process of that application is killed, and
no other; the first attempt without an application in the way is the last one; and if it is
refused, the machine is started anew. -/
theorem apply_asks {sysVdi sysAes : Int16} (noFvdi : sysVdi &&& vdiFvdi = 0)
    (mint : sysAes ∈ [systemMintAes, systemMintNaes, systemMintXaaes, systemMintMyaes])
    (r : Res) (startms : Int32) (attempts : List Attempt) :
    (apply sysVdi sysAes r startms attempts = none ↔
        ∀ attempt ∈ attempts, attempt.Blocked (sysAes = systemMintNaes) startms) ∧
      ∀ restart, apply sysVdi sysAes r startms attempts = some restart →
        ∃ blocked last rest, attempts = blocked ++ last :: rest ∧
          (∀ attempt ∈ blocked, attempt.Blocked (sysAes = systemMintNaes) startms) ∧
          ¬last.Blocked (sysAes = systemMintNaes) startms ∧
          restart = (last.finish (changeTo r)).after
            (blocked.flatMap (Attempt.requests (changeTo r))) ∧
          restart.requests.count (changeTo r) = blocked.length + 1 ∧
          ∀ pid, Request.kill pid ∈ restart.requests →
            0 < pid ∧ ∃ attempt ∈ blocked, attempt.pid = pid := by
  have asks : apply sysVdi sysAes r startms attempts =
      askAes (changeTo r) (sysAes = systemMintNaes) startms 1 attempts := by
    rw [apply, if_neg (not_not.mpr noFvdi)]
    simp only [List.mem_cons, List.not_mem_nil, or_false] at mint
    rcases mint with rfl | rfl | rfl | rfl
    all_goals rfl
  rcases changeTo_isChange r with ⟨noKill, noReboot⟩
  rw [asks]
  refine ⟨askAes_none attempts, fun restart ends => ?_⟩
  rcases askAes_some ends with ⟨blocked, last, rest, split, all, stops, rfl⟩
  refine ⟨blocked, last, rest, split, all, stops, rfl, ?_, fun pid => kill_mem noKill⟩
  rw [Restart.after, List.count_append, count_requests noKill, count_finish noReboot]

/-- A mode of the Falcon, an application in its way, and an AES that agrees. -/
def falconMode : Res := ⟨true, 5, 0x1a, flagInfo, 640, 480, 640, 480, 4, 60, 0⟩

def inTheWay : Attempt := ⟨0, 5, 1000, 42⟩

def agreed : Attempt := ⟨1, 0, 2000, 0⟩

example : apply vdiAtari systemMintNaes falconMode 0 [inTheWay, agreed] =
    some ⟨[.changeMode 0x1a 1, .kill 42, .changeMode 0x1a 1], .returned 1⟩ := by decide

theorem apply_asks_sample :
    apply vdiAtari systemMintNaes falconMode 0 [inTheWay] = none ∧
      ∃ blocked last rest, [inTheWay, agreed] = blocked ++ last :: rest ∧
        ¬last.Blocked true 0 := by
  have asks := @apply_asks vdiAtari systemMintNaes (by decide) (by decide) falconMode 0
  refine ⟨(asks [inTheWay]).1.mpr (by decide), ?_⟩
  rcases (asks [inTheWay, agreed]).2 _ rfl with ⟨blocked, last, rest, split, _, stops, _⟩
  exact ⟨blocked, last, rest, split, stops⟩

end Chgres
