import Chgres.Dialog.KeptModes
import Chgres.Modes.NvdivgaWalk
import Chgres.Program.Restart
import Chgres.Save.Untouched

/-! # Runs of the program

`main` makes the lists, shows the dialog, and leaves it to `save` and `apply` what becomes of
the mode that was chosen. The disk and the machine are theirs: nothing else may touch them.
Making the lists goes wrong where `nvdivga.inf` leads out of itself.
-/

namespace Chgres

open Text

/-! ## What `save` touches -/

section Save

variable {sysVdi : Int16} {machine : Machine} {r : Res} {newdeskText : Bytes}
  {disk after : Disk} {ret : Int}

/-- The file that `save` writes. -/
def savePath (sysVdi : Int16) (machine : Machine) : Option Bytes :=
  if sysVdi = vdiFvdi then some fvdiPath
  else (saverOf machine.sysAes).bind fun entry => entry.1.path machine

theorem save_other (ends : save sysVdi machine r newdeskText disk = .done (ret, after))
    {other : Bytes} (different : savePath sysVdi machine ≠ some other) :
    after other = disk other := by
  rw [savePath] at different
  rw [save] at ends
  split at ends
  case isTrue fvdi =>
    rw [if_pos fvdi] at different
    exact Saver.fvdi.save_other ends different
  case isFalse aes =>
    rw [if_neg aes] at different
    split at ends
    · cases ends
      rfl
    case h_2 saver failed found =>
      rw [found] at different
      cases saved : saver.save machine r newdeskText disk with
      | wild =>
          rw [saved] at ends
          exact absurd ends (by simp)
      | done result =>
          rw [saved] at ends
          cases ends
          exact saver.save_other saved different

/-- Only a save that is reported changes anything. -/
theorem save_failed (ends : save sysVdi machine r newdeskText disk = .done (ret, after))
    (failed : ret ≠ 1) : after = disk := by
  rw [save] at ends
  split at ends
  · exact Saver.fvdi.save_failed ends failed
  · split at ends
    · cases ends
      rfl
    case h_2 saver refused found =>
      cases saved : saver.save machine r newdeskText disk with
      | wild =>
          rw [saved] at ends
          exact absurd ends (by simp)
      | done result =>
          rw [saved] at ends
          cases ends
          have zero : result.1 = 0 := by
            by_contra nonzero
            exact failed (if_pos nonzero)
          exact saver.save_failed saved (by rw [zero]; decide)

/-- Nothing is saved for Geneva. -/
theorem save_geneva (aes : sysVdi ≠ vdiFvdi) (geneva : machine.sysAes = systemGeneva) :
    save sysVdi machine r newdeskText disk = .done (-1, disk) := by
  rw [save, if_neg aes, geneva]
  rfl

end Save

/-! ## `main` -/

variable {Ptr : Type} [Fintype Ptr] [DecidableEq Ptr]

/-- The event loop of `select_res`, as far as the events lead. -/
def eventLoop (qsort : QSort Ptr) : List (Event Ptr) → Dialog Ptr → Outcome (Dialog Ptr)
  | [], s => .done s
  | event :: events, s =>
      if s.isOpen then (hdlObj qsort event s).bind (eventLoop qsort events) else .done s

/-- The program when `setup` and the `initres_*` functions are done. -/
structure Program (Ptr : Type) where
  loaded : Loaded Ptr
  currez : Int16
  vmode : Int16
  /-- `CHGRES_OK` of the resource file. -/
  ok : Button
  /-- `CHGRES_INFO` of the resource file. -/
  info : Button
  sysVdi : Int16
  /-- The machine that `save` runs on; it knows `sys_aes`. -/
  machine : Machine
  newdeskText : Bytes
  isSystem : machine.sysAes ∈ systems
  isVdi : sysVdi ∈ [vdiAtari, vdiNvdi, vdiNvdi ||| vdiNvdivga, vdiFvdi]

/-- What a run meets, besides the events. -/
structure Surroundings where
  /-- `appl_init` -/
  apid : Int16
  /-- `rsrc_load` -/
  rsrcLoaded : Bool
  sortMemory : SortMemory
  /-- `wdlg_create`, `lbox_create` and `wdlg_open` succeed. -/
  opened : Bool
  startms : Int32
  attempts : List Attempt

/-- What a run leaves. -/
structure Run where
  disk : Disk
  requests : List Request
  ending : Ending

/-- The end of `main` after `apply`, unless the machine has started anew. -/
def Restart.leave (restart : Restart) (disk : Disk) : Run :=
  match restart.ending with
  | .returned _ => ⟨disk, restart.requests ++ [.applExit], .returned 0⟩
  | .reset => ⟨disk, restart.requests, .reset⟩

namespace Program

variable (program : Program Ptr)

/-- `select_res`: the dialog when it is left, or when the events are used up. -/
def selectRes (qsort : QSort Ptr) (around : Surroundings) (events : List (Event Ptr)) :
    Outcome (Dialog Ptr) :=
  (initRes qsort around.sortMemory program.currez program.vmode program.loaded.pool
    program.loaded.possible).bind fun globals =>
      let s := Chgres.selectRes program.ok program.info globals
      if around.opened then eventLoop qsort events s
      else .done { s with isOpen := false }

/-- `main` from where a mode is chosen, as far as the attempts lead. -/
def changeMode (around : Surroundings) (r : Res) (disk : Disk) : Outcome (Option Run) :=
  (save program.sysVdi program.machine r program.newdeskText disk).bind fun saved => .done <|
    if saved.1 < 0 then some ⟨saved.2, [.applExit], .returned 0⟩
    else
      (apply program.sysVdi program.machine.sysAes r around.startms around.attempts).map
        fun restart => restart.leave saved.2

/-- `main` from `select_res` on, as far as the events and attempts lead. -/
def fromSelectRes (qsort : QSort Ptr) (around : Surroundings) (events : List (Event Ptr))
    (disk : Disk) : Outcome (Option Run) :=
  (program.selectRes qsort around events).bind fun s =>
    if s.isOpen then .done none
    else if s.mustShutdown ≠ 0 then
      match s.curRes with
      | none => .wild
      | some res => program.changeMode around (s.pool.mode res) disk
    else .done (some ⟨disk, [.applExit], .returned 0⟩)

end Program

/-! ## The dialog of a run -/

/-- The events come as GEM may send them. -/
def Sent (qsort : QSort Ptr) : List (Event Ptr) → Dialog Ptr → Prop
  | [], _ => True
  | event :: events, s => s.isOpen = true →
      Allowed s event ∧ ∀ after, hdlObj qsort event s = .done after → Sent qsort events after

theorem eventLoop_inSession {qsort : QSort Ptr} {loaded : Loaded Ptr} {events : List (Event Ptr)}
    {s : Dialog Ptr} (inSession : InSession loaded s) (sent : Sent qsort events s) :
    ∃ after, eventLoop qsort events s = .done after ∧ InSession loaded after := by
  induction events generalizing s with
  | nil => exact ⟨s, rfl, inSession⟩
  | cons event events induction =>
      rw [eventLoop]
      by_cases isOpen : s.isOpen = true
      · rcases sent isOpen with ⟨allowed, rest⟩
        rcases inSession.step qsort ⟨isOpen, allowed⟩ with ⟨after, ends, inSession'⟩
        rw [if_pos isOpen, ends, Outcome.done_bind]
        exact induction inSession' (rest after ends)
      · exact ⟨s, if_neg isOpen, inSession⟩

namespace Program

variable (program : Program Ptr) {qsort : QSort Ptr} {around : Surroundings}
  {events : List (Event Ptr)} {disk : Disk}

/-- GEM sends the program what it may. -/
def IsSent (qsort : QSort Ptr) (around : Surroundings) (events : List (Event Ptr)) : Prop :=
  ∀ globals, initRes qsort around.sortMemory program.currez program.vmode program.loaded.pool
      program.loaded.possible = .done globals →
    Sent qsort events (Chgres.selectRes program.ok program.info globals)

theorem selectRes_inSession (sent : program.IsSent qsort around events) :
    ∃ s, program.selectRes qsort around events = .done s ∧ InSession program.loaded s := by
  rcases Chgres.selectRes_inSession qsort around.sortMemory program.loaded program.currez
    program.vmode program.ok program.info with ⟨globals, ends, inSession⟩
  rw [selectRes, ends, Outcome.done_bind]
  simp only
  split
  · exact eventLoop_inSession inSession (sent globals ends)
  · exact ⟨_, rfl, inSession.right.close, inSession.keeps, inSession.answer⟩

/-- A mode of the lists, with any selection and any virtual size. -/
def Offers (r : Res) : Prop :=
  ∃ i, ∃ res ∈ program.loaded.nodes i, r.AsMade (program.loaded.pool.mode res)

end Program

/-! ## What a run does -/

/-- Nothing is done. -/
structure Run.Untouched (disk : Disk) (run : Run) : Prop where
  disk : run.disk = disk
  requests : ∀ request ∈ run.requests, request = .applExit
  returns : run.ending ≠ .reset

/-- The mode is saved, or would only better be saved, and the system is asked for it. -/
structure Run.Changes (sysVdi : Int16) (machine : Machine) (newdeskText : Bytes)
    (around : Surroundings) (disk : Disk) (run : Run) (r : Res) : Prop where
  saves : ∃ ret, 0 ≤ ret ∧ (ret ≠ 1 → run.disk = disk) ∧
    save sysVdi machine r newdeskText disk = .done (ret, run.disk)
  others : ∀ other, savePath sysVdi machine ≠ some other → run.disk other = disk other
  asks : ∃ restart, run = restart.leave run.disk ∧ restart.ending ≠ .returned (-1) ∧
    apply sysVdi machine.sysAes r around.startms around.attempts = some restart
  isFor : ∀ request ∈ run.requests, request.IsFor r

theorem leave_requests (restart : Restart) (disk : Disk) {request : Request}
    (member : request ∈ (restart.leave disk).requests) :
    request ∈ restart.requests ∨ request = .applExit := by
  rw [Restart.leave] at member
  split at member
  · simpa using member
  · exact .inl member

namespace Program

variable (program : Program Ptr) {qsort : QSort Ptr} {around : Surroundings}
  {events : List (Event Ptr)} {disk : Disk}

omit [Fintype Ptr] [DecidableEq Ptr] in
/-- From a save that failed nothing follows. -/
theorem changeMode_run {r : Res} {run : Run}
    (ends : program.changeMode around r disk = .done (some run)) :
    run.Untouched disk ∨
      run.Changes program.sysVdi program.machine program.newdeskText around disk r := by
  rw [changeMode] at ends
  cases saved : save program.sysVdi program.machine r program.newdeskText disk with
  | wild =>
      rw [saved] at ends
      exact absurd ends (by simp)
  | done result =>
      rcases result with ⟨ret, after⟩
      rw [saved, Outcome.done_bind, Outcome.done.injEq] at ends
      simp only at ends
      split at ends
      case isTrue negative =>
        cases ends
        exact .inl ⟨save_failed saved (by omega), by simp, by simp⟩
      case isFalse nonneg =>
        rcases Option.map_eq_some_iff.mp ends with ⟨restart, asks, rfl⟩
        have disk' : (restart.leave after).disk = after := by
          rw [Restart.leave]
          split <;> rfl
        right
        constructor
        · refine ⟨ret, not_lt.mp nonneg, ?_, ?_⟩
          · rw [disk']
            exact save_failed saved
          · rw [disk', saved]
        · intro other different
          rw [disk']
          exact save_other saved different
        · refine ⟨restart, by rw [disk'], fun refused => ?_, asks⟩
          rcases apply_refused program.isSystem asks refused with ⟨noFvdi, geneva⟩
          have aes : program.sysVdi ≠ vdiFvdi := by
            intro fvdi
            rw [fvdi] at noFvdi
            exact absurd noFvdi (by decide)
          rw [save_geneva aes geneva] at saved
          cases saved
          exact nonneg (by decide)
        · intro request member
          rcases leave_requests restart after member with asked | rfl
          · exact apply_isFor asks request asked
          · trivial

/-- From `select_res` on everything is left untouched, or it is changed to one of the modes; and
nothing goes wrong that does not go wrong in the saver. -/
theorem fromSelectRes_goes (sent : program.IsSent qsort around events) :
    match program.fromSelectRes qsort around events disk with
    | .done (some run) => run.Untouched disk ∨
        ∃ r, program.Offers r ∧
          run.Changes program.sysVdi program.machine program.newdeskText around disk r
    | .done none => True
    | .wild => ∃ r, program.Offers r ∧
        save program.sysVdi program.machine r program.newdeskText disk = .wild := by
  rcases program.selectRes_inSession sent with ⟨s, ends, inSession⟩
  rw [fromSelectRes, ends, Outcome.done_bind]
  by_cases isOpen : s.isOpen = true
  · rw [if_pos isOpen]
    trivial
  · rw [if_neg isOpen]
    by_cases shutdown : s.mustShutdown ≠ 0
    · rw [if_pos shutdown]
      have chosen := inSession.right.controlled.returns (inSession.answer.resolve_left shutdown)
      rcases Option.ne_none_iff_exists'.mp chosen with ⟨res, current⟩
      have offers : program.Offers (s.pool.mode res) :=
        ⟨_, res, inSession.current current, (inSession.keeps res).asMade⟩
      rw [current]
      simp only
      cases changed : program.changeMode around (s.pool.mode res) disk with
      | wild =>
          refine ⟨_, offers, ?_⟩
          rw [changeMode] at changed
          cases saved : save program.sysVdi program.machine (s.pool.mode res)
              program.newdeskText disk with
          | wild => rfl
          | done result =>
              rw [saved] at changed
              exact absurd changed (by simp)
      | done run =>
          cases run with
          | none => trivial
          | some run =>
              rcases program.changeMode_run changed with same | changes
              · exact .inl same
              · exact .inr ⟨_, offers, changes⟩
    · rw [if_neg shutdown]
      exact .inl ⟨rfl, by simp, by simp⟩

end Program

/-! ## From `setup` on -/

/-- Where the program runs. -/
structure Site where
  system : System
  video : Video
  /-- The machine that `assign.sys` and `nvdivga.inf` are read on. -/
  machine : Machine
  disk : Disk
  /-- The memory behind `gdos_drivers`. -/
  behindTable : Bytes
  /-- The address that `nvdivga.inf` is loaded to. -/
  inf : UInt32
  allocated : ∀ contents, disk nvdivgaPath = some contents → Allocated inf contents.length
  /-- `CHGRES_OK` of the resource file. -/
  ok : Button
  /-- `CHGRES_INFO` of the resource file. -/
  info : Button
  /-- The machine that `save` runs on, but for `sys_aes`. -/
  saving : Machine

namespace Site

variable (site : Site)

/-- The hardware-specific part of `init_res`. -/
def hardware : Started :=
  initresHardware site.system.setup.sysVdi
    { site.video with vdo := site.system.setup.vdo.toInt } noModes

/-- What `initres_nvdivga` finds, after `read_assign_sys`. -/
def input : NvdivgaInput where
  machine := site.machine
  disk := site.disk
  drivers := readAssignSys site.machine site.disk noDrivers
  behindTable := site.behindTable
  inf := site.inf
  sysVdi := site.system.setup.sysVdi

/-- The lists when the `initres_*` functions are done. The loop over `nvdivga.inf` may take
no more than `turns` turns. -/
def lists (turns : Nat) : Outcome ModeLists :=
  initresNvdivga site.input turns site.hardware.lists

/-- A driver of the graphics card is in use. -/
def hasCard : Bool := (et4000rez site.input.drivers site.behindTable).any (0 < ·)

/-- `sys_vdi` when `initres_nvdivga` has looked for the drivers. -/
def sysVdi : Int16 :=
  let sysVdi := site.system.setup.sysVdi
  if sysVdi &&& vdiNvdi ≠ 0 ∧ site.hasCard then sysVdi ||| vdiNvdivga else sysVdi

theorem sysVdi_mem : site.sysVdi ∈ [vdiAtari, vdiNvdi, vdiNvdi ||| vdiNvdivga, vdiFvdi] := by
  have found := site.system.setup_sysVdi
  rw [sysVdi]
  revert found
  generalize site.system.setup.sysVdi = sysVdi
  simp only [List.mem_cons, List.not_mem_nil, or_false]
  rintro (rfl | rfl | rfl)
  · rw [if_neg fun both => absurd both.1 (by decide)]
    exact .inl rfl
  · split
    · exact .inr (.inr (.inl rfl))
    · exact .inr (.inl rfl)
  · rw [if_neg fun both => absurd both.1 (by decide)]
    exact .inr (.inr (.inr rfl))

/-- The machine that `save` runs on. -/
def saverMachine : Machine := { site.saving with sysAes := site.system.setup.sysAes }

variable {turns : Nat} {lists : ModeLists}

/-- The program when its lists are made. -/
def program (made : site.lists turns = .done lists) : Program (Place lists) where
  loaded := .ofLists lists (initres_created made)
  currez := site.hardware.currez
  vmode := site.hardware.vmode
  ok := site.ok
  info := site.info
  sysVdi := site.sysVdi
  machine := site.saverMachine
  newdeskText := defaultNewdesk
  isSystem := site.system.setup_sysAes
  isVdi := site.sysVdi_mem

/-- `main`. The events are those for the lists that are made. -/
def main (turns : Nat) (qsort : (lists : ModeLists) → QSort (Place lists))
    (around : Surroundings) (events : (lists : ModeLists) → List (Event (Place lists))) :
    Outcome (Option Run) :=
  if around.apid = -1 then .done (some ⟨site.disk, [], .returned (-1)⟩)
  else if around.rsrcLoaded then
    match made : site.lists turns with
    | .wild => .wild
    | .done lists =>
        (site.program made).fromSelectRes (qsort lists) around (events lists) site.disk
  else .done (some ⟨site.disk, [.applExit], .returned (-1)⟩)

/-- GEM sends the program what it may, whatever the lists are. -/
def IsSent (turns : Nat) (qsort : (lists : ModeLists) → QSort (Place lists))
    (around : Surroundings) (events : (lists : ModeLists) → List (Event (Place lists))) :
    Prop :=
  ∀ lists, (made : site.lists turns = .done lists) →
    (site.program made).IsSent (qsort lists) around (events lists)

/-! ### The lists -/

/-- `nvdivga.inf`, if it is loaded. -/
def loadedInf : Option Bytes :=
  if site.sysVdi = vdiNvdi ||| vdiNvdivga then
    site.machine.gemdos.loadFile (site.disk nvdivgaPath)
  else none

theorem sysVdi_card :
    site.sysVdi = vdiNvdi ||| vdiNvdivga ↔
      site.system.setup.sysVdi = vdiNvdi ∧ site.hasCard = true := by
  have found := site.system.setup_sysVdi
  rw [sysVdi]
  revert found
  generalize site.system.setup.sysVdi = sysVdi
  simp only [List.mem_cons, List.not_mem_nil, or_false]
  rintro (rfl | rfl | rfl)
  all_goals cases site.hasCard <;> decide

/-- `initres_nvdivga`, given whether the card is there. -/
theorem lists_eq :
    site.lists turns =
      if site.system.setup.sysVdi &&& vdiNvdi = 0 then .done site.hardware.lists
      else
        let sysVdi := if site.hasCard then site.system.setup.sysVdi ||| vdiNvdivga
          else site.system.setup.sysVdi
        if sysVdi &&& vdiNvdivga ≠ vdiNvdivga then .done site.hardware.lists
        else
          let rez := et4000rez site.input.drivers site.behindTable
          let left := removeOwned rez site.hardware.lists
          match site.machine.gemdos.loadFile (site.disk nvdivgaPath) with
          | none => .done left
          | some contents => addNvdivgaModes contents site.inf turns rez left := rfl

/-- Without the card the lists are those of the hardware. -/
theorem lists_hardware (other : site.sysVdi ≠ vdiNvdi ||| vdiNvdivga) :
    site.lists turns = .done site.hardware.lists := by
  have found := site.system.setup_sysVdi
  have noCard := mt site.sysVdi_card.mpr other
  rw [lists_eq]
  simp only [List.mem_cons, List.not_mem_nil, or_false] at found
  rcases found with atari | nvdi | fvdi
  · rw [atari, if_pos (by decide)]
  · have none : site.hasCard = false := by simpa [nvdi] using noCard
    simp only [nvdi, none, Bool.false_eq_true, if_false]
    rw [if_neg (by decide), if_pos (by decide)]
  · rw [fvdi, if_pos (by decide)]

/-- With the card `nvdivga.inf` adds its modes to what is left of them. -/
theorem lists_card (card : site.sysVdi = vdiNvdi ||| vdiNvdivga) :
    site.lists turns =
      let rez := et4000rez site.input.drivers site.behindTable
      let left := removeOwned rez site.hardware.lists
      match site.loadedInf with
      | none => .done left
      | some contents => addNvdivgaModes contents site.inf turns rez left := by
  rcases site.sysVdi_card.mp card with ⟨nvdi, hasCard⟩
  rw [lists_eq, loadedInf, if_pos card]
  simp only [nvdi, hasCard, if_true]
  rw [if_neg (by decide), if_neg (by decide)]

/-- Making the lists goes wrong only in `nvdivga.inf`, and only if that cannot be walked. -/
theorem lists_isDone_iff :
    (site.lists turns).isDone = true ↔
      ∀ contents, site.loadedInf = some contents → Walkable site.inf contents turns := by
  by_cases card : site.sysVdi = vdiNvdi ||| vdiNvdivga
  · rw [site.lists_card card]
    simp only
    cases loaded : site.loadedInf with
    | none => simp [Outcome.isDone]
    | some contents =>
        have allocated : Allocated site.inf contents.length := by
          rw [loadedInf, if_pos card] at loaded
          cases stored : site.disk nvdivgaPath with
          | none => simp [stored] at loaded
          | some old =>
              rw [stored] at loaded
              rw [Gemdos.eq_of_loadFile loaded]
              exact site.allocated old stored
        simp only [Option.some.injEq, forall_eq']
        exact addNvdivgaModes_isDone_iff allocated
  · rw [site.lists_hardware card, loadedInf, if_neg card]
    simp [Outcome.isDone]

/-- A mode of the lists, with any selection and any virtual size. -/
def Offers (turns : Nat) (r : Res) : Prop :=
  ∃ lists, site.lists turns = .done lists ∧
    ∃ idx : Fin maxDepths, ∃ made ∈ lists[idx], r.AsMade made

/-- The modes that are offered are those of the lists. -/
theorem offers_of_program {made : site.lists turns = .done lists} {r : Res}
    (offers : (site.program made).Offers r) : site.Offers turns r := by
  rcases offers with ⟨i, res, member, asMade⟩
  refine ⟨lists, made, i, _, ?_, asMade⟩
  rw [← Loaded.ofLists_modes lists (initres_created made) i]
  exact List.mem_map_of_mem member

/-- What a run of the program may be, and what may go wrong. -/
structure Runs (turns : Nat) (around : Surroundings) (outcome : Outcome (Option Run)) :
    Prop where
  run : ∀ run, outcome = .done (some run) → run.Untouched site.disk ∨
    ∃ r, site.Offers turns r ∧
      run.Changes site.sysVdi site.saverMachine defaultNewdesk around site.disk r
  wild : outcome = .wild →
    (∃ contents, site.loadedInf = some contents ∧ ¬Walkable site.inf contents turns) ∨
      ∃ r, site.Offers turns r ∧
        save site.sysVdi site.saverMachine r defaultNewdesk site.disk = .wild
  strays : around.apid ≠ -1 → around.rsrcLoaded = true →
    (∃ contents, site.loadedInf = some contents ∧ ¬Walkable site.inf contents turns) →
    outcome = .wild

variable {site} {qsort : (lists : ModeLists) → QSort (Place lists)} {around : Surroundings}
  {events : (lists : ModeLists) → List (Event (Place lists))}

theorem runs_untouched {requests : List Request}
    (exits : ∀ request ∈ requests, request = .applExit) (value : Int)
    (early : ¬(around.apid ≠ -1 ∧ around.rsrcLoaded = true)) :
    site.Runs turns around (.done (some ⟨site.disk, requests, .returned value⟩)) where
  run run ends := by
    cases ends
    exact .inl ⟨rfl, exits, by simp⟩
  wild ends := by cases ends
  strays started loaded := absurd ⟨started, loaded⟩ early

/-- In every run of the program from `setup` on, with a dialog that GEM serves: unless a mode
of the lists is chosen, the disk is as it was and nothing is asked for. With a chosen mode no
file but that of the system's saver is touched, and only by a save that reports success; the
change is asked for only if the save was not needed or reports success, for no other mode than
the one that was saved, and `apply` does not give up. A run goes wrong in an `nvdivga.inf`
that cannot be walked in so many turns, and besides only where the saver goes wrong. -/
theorem main_runs (sent : site.IsSent turns qsort around events) :
    site.Runs turns around (site.main turns qsort around events) := by
  rw [main]
  split_ifs with noAes resource
  · exact runs_untouched (by simp) _ fun both => both.1 noAes
  · split
    case h_1 strays =>
      refine ⟨fun run ends => (by cases ends), fun _ => .inl ?_, fun _ _ _ => rfl⟩
      have unmade : (site.lists turns).isDone ≠ true := by
        rw [strays]
        exact Bool.false_ne_true
      have stops := mt site.lists_isDone_iff.mpr unmade
      push Not at stops
      exact stops
    case h_2 lists made =>
      have goes := @Program.fromSelectRes_goes _ _ _ (site.program made) _ around _ site.disk
        (sent lists made)
      have walked := site.lists_isDone_iff.mp (Outcome.isDone_iff.mpr ⟨lists, made⟩)
      refine ⟨?_, ?_, fun _ _ leaves => ?_⟩
      · intro run ends
        rw [ends] at goes
        rcases goes with same | ⟨r, offers, changes⟩
        · exact .inl same
        · exact .inr ⟨r, site.offers_of_program offers, changes⟩
      · intro ends
        rw [ends] at goes
        rcases goes with ⟨r, offers, wild⟩
        exact .inr ⟨r, site.offers_of_program offers, wild⟩
      · rcases leaves with ⟨contents, loaded, astray⟩
        exact absurd (walked contents loaded) astray
  · exact runs_untouched (by simp) _ fun both => resource both.2

/-! ### A run -/

/-- A TT under TOS with a colour monitor, in the low resolution of an ST, with NVDI and a
driver of the graphics card for one plane. -/
def ofTt : Site where
  system := {
    jar := some [⟨fourChars (ascii "_VDO"), 0x20000, by decide⟩,
      ⟨fourChars (ascii "NVDI"), 1, by decide⟩]
    osVersion := 0x306
    osMagic := 0
    aesVersion := 0x320
    process := fun _ => none
    naesFlags := 0 }
  video := ttVideo
  machine := .obliging 0 [] 0
  disk := fun path =>
    if path = nvdivgaPath then some threeRecords
    else if path = assignPath then some (ascii "01r XVGA2.SYS\r\n")
    else none
  behindTable := []
  inf := 0x10000
  allocated := fun contents stored => by
    cases Option.some.inj stored
    rw [threeRecords_length]
    exact ⟨by decide, by decide⟩
  ok := plainButton
  info := plainButton
  saving := .obliging 0 [] 0

/-- The lists with the modes of the card. -/
def ofTtLists : ModeLists := (ofTt.lists 3).getD noModes

theorem ofTt_lists : ofTt.lists 3 = .done ofTtLists :=
  Outcome.eq_done_getD (by decide +kernel) _

/-- The current mode is found among them. -/
def ofTtStart : Outcome (Globals (Place ofTtLists)) :=
  let program := ofTt.program ofTt_lists
  initRes (insertionQSort _).toQSort .ample program.currez program.vmode program.loaded.pool
    program.loaded.possible

theorem ofTtStart_ok :
    (ofTtStart.bind fun globals =>
      .done (Chgres.selectRes plainButton plainButton globals).ok.disabled) = .done false := by
  decide +kernel

/-- The user agrees to the mode that is current. -/
def agrees : Surroundings where
  apid := 0
  rsrcLoaded := true
  sortMemory := .ample
  opened := true
  startms := 0
  attempts := []

theorem agrees_isSent :
    ofTt.IsSent 3 (fun _ => (insertionQSort _).toQSort) agrees fun _ => [.ok] := by
  intro lists made globals starts isOpen
  have same : lists = ofTtLists := Outcome.done.inj (made.symm.trans ofTt_lists)
  subst same
  have ok := ofTtStart_ok
  rw [show ofTtStart = .done globals from starts, Outcome.done_bind, Outcome.done.injEq] at ok
  exact ⟨ok, fun after ends => trivial⟩

/-- The system is started anew with the mode. -/
theorem main_runs_sample :
    let outcome := ofTt.main 3 (fun _ => (insertionQSort _).toQSort) agrees fun _ => [.ok]
    ofTt.loadedInf = some threeRecords ∧
      (outcome.bind fun run => .done (run.map Run.ending)) = .done (some .reset) ∧
      ofTt.Runs 3 agrees outcome :=
  ⟨by decide +kernel, by decide +kernel, main_runs agrees_isSent⟩

end Site

end Chgres
