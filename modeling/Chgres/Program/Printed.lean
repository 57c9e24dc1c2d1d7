import Chgres.Dialog.VirtualSize
import Chgres.Libcmini.DoprntPrints
import Chgres.Program.Restart
import Chgres.Utils.ProcessPath

/-! # The texts of the program

What the savers write, the names that they open and what is handed to other programs is
printed with `sprintf`. The texts that stand for it in the model are those that the
`sprintf` of the library prints for the formats and arguments of the source.
-/

namespace Chgres

open Text Numerals Printf Libcmini

/-! ## Numbers -/

theorem digits_eq {base number : Nat} (large : 1 < base) (few : base ≤ 16)
    (small : number < base ^ 10) : digits base number = figures false base number :=
  digitLoop_eq large (fun _ less => numbers_getD (by omega)) 10 number (by decide) small

theorem formatD_eq (value : Int32) :
    formatD value.toInt =
      (if value < 0 then [0x2d] else []) ++ figures false 10 value.toInt.natAbs := by
  have least := value.le_toInt
  have greatest := value.toInt_lt
  have same := @digits_eq 10 value.toInt.natAbs (by decide) (by decide) (by omega)
  have negative : value < 0 ↔ value.toInt < 0 := Int32.lt_iff_toInt_lt
  rw [formatD, same]
  simp only [negative]
  split <;> rfl

theorem toUInt32_toNat (value : Int32) : value.toUInt32.toNat = (value.toInt % 2 ^ 32).toNat := by
  have bound := value.toBitVec.isLt
  change value.toBitVec.toNat = _
  rw [← Int32.toInt_toBitVec, BitVec.toInt_eq_toNat_cond]
  split <;> omega

theorem formatX_eq (width : Nat) (value : Int32) :
    formatX width value.toInt =
      List.replicate (width - (figures false 16 value.toUInt32.toNat).length) 0x30 ++
        figures false 16 value.toUInt32.toNat := by
  have bound := value.toUInt32.toNat_lt
  have same := @digits_eq 16 value.toUInt32.toNat (by decide) (by decide) (by omega)
  rw [formatX, ← toUInt32_toNat, same]

/-! ## Formats by their parts -/

/-- `%d` -/
def decimalPiece (value : Int32) : Printf.Piece := .decimal 0 value

/-- `%s` -/
def stringPiece (text : Bytes) : Printf.Piece :=
  .directive ⟨[], .fixed 0, .omitted, .plain, .string (some text), 0x73, .head _⟩

/-- `%x` with flags and a width. -/
def hexPiece (flags : List Flag) (width : Nat) (value : Int32) : Printf.Piece :=
  .directive ⟨flags, .fixed width, .omitted, .plain, .bits .hex value, 0x78, .head _⟩

theorem decimalPiece_shown (value : Int32) : (decimalPiece value).shown = formatD value.toInt := by
  rw [formatD_eq]
  by_cases negative : value < 0 <;>
    simp [decimalPiece, Printf.Piece.decimal, Printf.Piece.shown, Directive.shown,
      Directive.Zeros, Directive.fill, Directive.Left, Directive.places, lastSign, negative]

theorem decimalPiece_fits (value : Int32) : (decimalPiece value).Fits :=
  decimal_fits (by decide) value

theorem stringPiece_shown (text : Bytes) : (stringPiece text).shown = text := by
  simp [stringPiece, Printf.Piece.shown, Directive.shown, Directive.cut, Directive.fill,
    Directive.Left, Directive.places]

theorem stringPiece_fits {text : Bytes} (noNul : 0 ∉ text) (short : text.length < 2 ^ 31) :
    (stringPiece text).Fits where
  places := by
    change (0 : Nat) < 2 ^ 31
    decide
  precision _ isFixed := by cases isFixed
  string _ isString := by
    cases isString
    exact ⟨noNul, short⟩

/-- A width that no number falls short of needs no zeros. -/
theorem hexPiece_shown {flags : List Flag} {width : Nat} (value : Int32)
    (zeros : flags = [.zero] ∨ flags = [] ∧ width ≤ 1) :
    (hexPiece flags width value).shown = formatX width value.toInt := by
  have some_ : 0 < (figures false 16 value.toUInt32.toNat).length :=
    List.length_pos_iff.mpr (figures_ne_nil _ _ _)
  rw [formatX_eq]
  rcases zeros with rfl | ⟨rfl, narrow⟩
  · simp [hexPiece, Printf.Piece.shown, Directive.shown, Directive.prefixOf, Directive.fill,
      Directive.Left, Directive.places, Radix.base]
  · have full : width - (figures false 16 value.toUInt32.toNat).length = 0 := by omega
    simp [hexPiece, Printf.Piece.shown, Directive.shown, Directive.prefixOf, Directive.fill,
      Directive.Left, Directive.places, Radix.base, full]

theorem hexPiece_fits {flags : List Flag} {width : Nat} (value : Int32) (small : width < 2 ^ 31) :
    (hexPiece flags width value).Fits where
  places := small
  precision _ isFixed := by cases isFixed
  string _ isString := by cases isString

/-- The format and the arguments are those of a call that shows a text. -/
def Prints (format : Bytes) (args : List Arg) (text : Bytes) : Prop :=
  ∃ call : List Printf.Piece, (∀ piece ∈ call, piece.Fits) ∧ source call = format ∧
    arguments call = args ∧ call.flatMap Printf.Piece.shown = text

namespace Prints

variable {format : Bytes} {args : List Arg} {text : Bytes}

theorem nil : Prints [] [] [] := ⟨[], by simp, rfl, rfl, rfl⟩

section Front

variable (prints : Prints format args text)

include prints

theorem cons {piece : Printf.Piece} (fits : piece.Fits) :
    Prints (piece.source ++ format) (piece.arguments ++ args) (piece.shown ++ text) := by
  rcases prints with ⟨call, others, rfl, rfl, rfl⟩
  refine ⟨piece :: call, ?_, rfl, rfl, rfl⟩
  intro other member
  rcases List.mem_cons.mp member with rfl | member
  · exact fits
  · exact others other member

theorem chars (front : Bytes) (plain : ∀ c ∈ front, c ≠ 0 ∧ c ≠ 0x25) :
    Prints (front ++ format) args (front ++ text) := by
  induction front with
  | nil => exact prints
  | cons c front induction =>
      have rest := induction fun other member => plain other (List.mem_cons_of_mem _ member)
      exact @cons _ _ _ rest (.char c) (plain c List.mem_cons_self)

theorem decimal (value : Int32) :
    Prints (ascii "%d" ++ format) (.word value :: args) (formatD value.toInt ++ text) := by
  have result := prints.cons (decimalPiece_fits value)
  rwa [decimalPiece_shown] at result

theorem string {chars : Bytes} (noNul : 0 ∉ chars) (short : chars.length < 2 ^ 31) :
    Prints (ascii "%s" ++ format) (.text (some chars) :: args) (chars ++ text) := by
  have result := prints.cons (stringPiece_fits noNul short)
  rwa [stringPiece_shown] at result

theorem hex (flags : List Flag) (width : Nat) (value : Int32)
    (zeros : flags = [.zero] ∨ flags = [] ∧ width ≤ 1) (small : width < 2 ^ 31) :
    Prints ((hexPiece flags width value).source ++ format) (.word value :: args)
      (formatX width value.toInt ++ text) := by
  have result := prints.cons (@hexPiece_fits flags width value small)
  rwa [hexPiece_shown value zeros] at result

end Front

/-- What is shown is printed, with a NUL behind it. -/
theorem printed (prints : Prints format args text) : sprintf format args = .done (text ++ [0]) := by
  rcases prints with ⟨call, fits, rfl, rfl, rfl⟩
  exact sprintf_shown fits

end Prints

/-! ## The calls of the source -/

/-- A call of `sprintf`, with the text that stands for its result in the model. -/
structure Printing where
  format : Bytes
  args : List Arg
  text : Bytes

/-- An argument of type `short`. -/
def passed (value : Int16) : Arg := .word value.toInt32

/-- The calls in `save.c`, `utils.c` and `apply` for a mode, a driver, a folder and a process.
-/
def printings (r : Res) (driverid aesdir : Bytes) (pid : Int16) : List Printing :=
  [⟨ascii "#_DEV %d %d\r\n", [passed r.rez, passed r.vmode], magxLine r⟩,
    ⟨ascii "%1x", [.word (r.rez.toInt32 - 2)], formatX 1 (r.rez.toInt - 2)⟩,
    ⟨ascii "FF %02x", [.word (r.rez.toInt32 - 2)], ascii "FF " ++ formatX 2 (r.rez.toInt - 2)⟩,
    ⟨ascii "%02x %02x", [passed (r.vmode >>> 8), passed (r.vmode &&& 0xff)],
      formatX 2 (r.vmode >>> 8).toInt ++ ascii " " ++ formatX 2 (r.vmode &&& 0xff).toInt⟩,
    ⟨ascii "SCREENDEV = %d\r\nMODECODE = 0x%04x\r\n", [passed r.rez, passed r.vmode],
      xaaesBlock r⟩,
    ⟨ascii "vsetmode = %d\r\nrezmode = %d\r\nesetshift = %d\r\n",
      [passed r.vmode, .word (r.rez.toInt32 - 2), .word 0], myaesBlock r⟩,
    ⟨ascii "#[driver%d]", [passed r.planes], fvdiDriver r⟩,
    ⟨ascii "01r %s mode %dx%dx%d@%d\r\n",
      [.text (some driverid), passed r.hres, passed r.vres, passed r.planes, passed r.freq],
      fvdiLine driverid r⟩,
    ⟨ascii "%s\\emudesk.inf", [.text (some systemDrive)], systemDrive ++ ascii "\\emudesk.inf"⟩,
    ⟨ascii "%s\\newdesk.inf", [.text (some systemDrive)], systemDrive ++ ascii "\\newdesk.inf"⟩,
    ⟨ascii "%s\\desktop.inf", [.text (some systemDrive)], systemDrive ++ ascii "\\desktop.inf"⟩,
    ⟨ascii "%s\\fvdi.sys", [.text (some systemDrive)], fvdiPath⟩,
    ⟨ascii "%s/n_desk.inf", [.text (some aesdir)], aesdir ++ ascii "/n_desk.inf"⟩,
    ⟨ascii "%s/xaaes.cnf", [.text (some aesdir)], aesdir ++ ascii "/xaaes.cnf"⟩,
    ⟨ascii "%s/xaaes/xaaes.cnf", [.text (some aesdir)], aesdir ++ ascii "/xaaes/xaaes.cnf"⟩,
    ⟨ascii "%s/myaes.cnf", [.text (some aesdir)], aesdir ++ ascii "/myaes.cnf"⟩,
    ⟨ascii "u:/kern/%d/fname", [passed pid],
      ascii "u:/kern/" ++ formatD pid.toInt ++ ascii "/fname"⟩,
    ⟨ascii "u:/kern/%d/cwd", [passed pid],
      ascii "u:/kern/" ++ formatD pid.toInt ++ ascii "/cwd"⟩,
    ⟨ascii "%d 0 %d", [passed r.rez, passed r.vmode], (shutdownArguments r).tail⟩]

theorem int_sub_two (value : Int16) : (value.toInt32 - 2).toInt = value.toInt - 2 := by
  have least := value.le_toInt
  have greatest := value.toInt_lt
  have two : ((2 : Int32).toInt : Int) = 2 := by decide
  rw [Int32.toInt_sub, Int16.toInt_toInt32, two, Int.bmod_eq_of_le (by omega) (by omega)]

section Calls

variable (r : Res)

theorem prints_magx :
    Prints (ascii "#_DEV %d %d\r\n") [passed r.rez, passed r.vmode] (magxLine r) := by
  have prints := (((((Prints.nil).chars crlf (by simp [crlf, cr, lf])).decimal
    r.vmode.toInt32).chars (ascii " ") (by simp [ascii])).decimal
    r.rez.toInt32).chars (ascii "#_DEV ") (by simp [ascii])
  simp only [Int16.toInt_toInt32] at prints
  have text : magxLine r = ascii "#_DEV " ++ (formatD r.rez.toInt ++ (ascii " " ++
      (formatD r.vmode.toInt ++ (crlf ++ [])))) := by simp [magxLine]
  rw [text]
  exact prints

/-- `"%1x"` -/
theorem prints_digit : Prints (ascii "%1x") [.word (r.rez.toInt32 - 2)]
    (formatX 1 (r.rez.toInt - 2)) := by
  have prints := Prints.nil.hex [] 1 (r.rez.toInt32 - 2) (.inr ⟨rfl, le_rfl⟩) (by decide)
  simp only [int_sub_two, List.append_nil] at prints
  exact prints

theorem prints_emutos : Prints (ascii "FF %02x") [.word (r.rez.toInt32 - 2)]
    (ascii "FF " ++ formatX 2 (r.rez.toInt - 2)) := by
  have prints := (Prints.nil.hex [.zero] 2 (r.rez.toInt32 - 2) (.inl rfl) (by decide)).chars
    (ascii "FF ") (by simp [ascii])
  simp only [int_sub_two, List.append_nil] at prints
  exact prints

theorem prints_bytes (high low : Int16) : Prints (ascii "%02x %02x") [passed high, passed low]
    (formatX 2 high.toInt ++ ascii " " ++ formatX 2 low.toInt) := by
  have prints := ((Prints.nil.hex [.zero] 2 low.toInt32 (.inl rfl) (by decide)).chars
    (ascii " ") (by simp [ascii])).hex [.zero] 2 high.toInt32 (.inl rfl) (by decide)
  simp only [Int16.toInt_toInt32, List.append_nil] at prints
  rw [List.append_assoc]
  exact prints

theorem prints_xaaes : Prints (ascii "SCREENDEV = %d\r\nMODECODE = 0x%04x\r\n")
    [passed r.rez, passed r.vmode] (xaaesBlock r) := by
  have prints := (((Prints.nil.chars crlf (by simp [crlf, cr, lf])).hex [.zero] 4
    r.vmode.toInt32 (.inl rfl) (by decide)).chars (crlf ++ ascii "MODECODE = 0x")
    (by simp [ascii, crlf, cr, lf])).decimal r.rez.toInt32 |>.chars (ascii "SCREENDEV = ") (by simp [ascii])
  simp only [Int16.toInt_toInt32] at prints
  have text : xaaesBlock r = ascii "SCREENDEV = " ++ (formatD r.rez.toInt ++
      ((crlf ++ ascii "MODECODE = 0x") ++ (formatX 4 r.vmode.toInt ++ (crlf ++ [])))) := by
    simp [xaaesBlock]
  rw [text]
  exact prints

theorem prints_myaes :
    Prints (ascii "vsetmode = %d\r\nrezmode = %d\r\nesetshift = %d\r\n")
      [passed r.vmode, .word (r.rez.toInt32 - 2), .word 0] (myaesBlock r) := by
  have esetshift := ((Prints.nil.chars crlf (by simp [crlf, cr, lf])).decimal 0).chars
    (crlf ++ ascii "esetshift = ") (by simp [ascii, crlf, cr, lf])
  have prints := ((esetshift.decimal (r.rez.toInt32 - 2)).chars (crlf ++ ascii "rezmode = ")
    (by simp [ascii, crlf, cr, lf])).decimal r.vmode.toInt32 |>.chars (ascii "vsetmode = ") (by simp [ascii])
  simp only [Int16.toInt_toInt32, int_sub_two] at prints
  have text : myaesBlock r = ascii "vsetmode = " ++ (formatD r.vmode.toInt ++
      ((crlf ++ ascii "rezmode = ") ++ (formatD (r.rez.toInt - 2) ++
        ((crlf ++ ascii "esetshift = ") ++ (formatD (0 : Int32).toInt ++ (crlf ++ [])))))) := by
    simp [myaesBlock]
  rw [text]
  exact prints

theorem prints_fvdiDriver : Prints (ascii "#[driver%d]") [passed r.planes] (fvdiDriver r) := by
  have prints := ((Prints.nil.chars (ascii "]") (by simp [ascii])).decimal
    r.planes.toInt32).chars (ascii "#[driver") (by simp [ascii])
  simp only [Int16.toInt_toInt32] at prints
  have text : fvdiDriver r = ascii "#[driver" ++ (formatD r.planes.toInt ++ (ascii "]" ++ [])) := by
    simp [fvdiDriver]
  rw [text]
  exact prints

theorem prints_fvdi {driverid : Bytes} (noNul : 0 ∉ driverid) (short : driverid.length < 2 ^ 31) :
    Prints (ascii "01r %s mode %dx%dx%d@%d\r\n")
      [.text (some driverid), passed r.hres, passed r.vres, passed r.planes, passed r.freq]
      (fvdiLine driverid r) := by
  have freq := ((Prints.nil.chars crlf (by simp [crlf, cr, lf])).decimal r.freq.toInt32).chars
    (ascii "@") (by simp [ascii])
  have size := (((freq.decimal r.planes.toInt32).chars (ascii "x") (by simp [ascii])).decimal
    r.vres.toInt32).chars (ascii "x") (by simp [ascii])
  have prints := (((size.decimal r.hres.toInt32).chars (ascii " mode ")
    (by simp [ascii])).string noNul short).chars (ascii "01r ") (by simp [ascii])
  simp only [Int16.toInt_toInt32] at prints
  have text : fvdiLine driverid r = ascii "01r " ++ (driverid ++ (ascii " mode " ++
      (formatD r.hres.toInt ++ (ascii "x" ++ (formatD r.vres.toInt ++ (ascii "x" ++
        (formatD r.planes.toInt ++ (ascii "@" ++ (formatD r.freq.toInt ++
          (crlf ++ [])))))))))) := by simp [fvdiLine]
  rw [text]
  exact prints

/-- The name of a file in a folder. -/
theorem prints_path {folder : Bytes} (noNul : 0 ∉ folder) (short : folder.length < 2 ^ 31)
    (name : Bytes) (plain : ∀ c ∈ name, c ≠ 0 ∧ c ≠ 0x25) :
    Prints (ascii "%s" ++ name) [.text (some folder)] (folder ++ name) := by
  have prints := (Prints.nil.chars name plain).string noNul short
  rwa [List.append_nil] at prints

/-- The name of a file that the kernel has of a process. -/
theorem prints_kern (pid : Int16) (name : Bytes) (plain : ∀ c ∈ name, c ≠ 0 ∧ c ≠ 0x25) :
    Prints (ascii "u:/kern/%d" ++ name) [passed pid]
      (ascii "u:/kern/" ++ formatD pid.toInt ++ name) := by
  have prints := ((Prints.nil.chars name plain).decimal pid.toInt32).chars (ascii "u:/kern/")
    (by simp [ascii])
  simp only [Int16.toInt_toInt32, List.append_nil] at prints
  rw [List.append_assoc]
  exact prints

theorem prints_shutdown : Prints (ascii "%d 0 %d") [passed r.rez, passed r.vmode]
    (shutdownArguments r).tail := by
  have prints := ((Prints.nil.decimal r.vmode.toInt32).chars (ascii " 0 ")
    (by simp [ascii])).decimal r.rez.toInt32
  simp only [Int16.toInt_toInt32, List.append_nil] at prints
  rw [shutdownArguments, List.tail_cons, List.append_assoc]
  exact prints

/-- For every mode, driver, folder and process the calls of the source end, and print the texts
of the model. -/
theorem texts_printed {driverid aesdir : Bytes} (pid : Int16) (driver : 0 ∉ driverid)
    (driverShort : driverid.length < 2 ^ 31) (dir : 0 ∉ aesdir)
    (dirShort : aesdir.length < 2 ^ 31) :
    ∀ call ∈ printings r driverid aesdir pid,
      sprintf call.format call.args = .done (call.text ++ [0]) := by
  have drive : 0 ∉ systemDrive := by decide
  have driveShort : systemDrive.length < 2 ^ 31 := by decide
  simp only [printings, List.forall_mem_cons, List.not_mem_nil, false_imp_iff, implies_true,
    and_true]
  exact ⟨(prints_magx r).printed, (prints_digit r).printed, (prints_emutos r).printed,
    (prints_bytes _ _).printed, (prints_xaaes r).printed, (prints_myaes r).printed,
    (prints_fvdiDriver r).printed, (prints_fvdi r driver driverShort).printed,
    (prints_path drive driveShort (ascii "\\emudesk.inf") (by simp [ascii])).printed,
    (prints_path drive driveShort (ascii "\\newdesk.inf") (by simp [ascii])).printed,
    (prints_path drive driveShort (ascii "\\desktop.inf") (by simp [ascii])).printed,
    (prints_path drive driveShort (ascii "\\fvdi.sys") (by simp [ascii])).printed,
    (prints_path dir dirShort (ascii "/n_desk.inf") (by simp [ascii])).printed,
    (prints_path dir dirShort (ascii "/xaaes.cnf") (by simp [ascii])).printed,
    (prints_path dir dirShort (ascii "/xaaes/xaaes.cnf") (by simp [ascii])).printed,
    (prints_path dir dirShort (ascii "/myaes.cnf") (by simp [ascii])).printed,
    (prints_kern pid (ascii "/fname") (by simp [ascii])).printed,
    (prints_kern pid (ascii "/cwd") (by simp [ascii])).printed, (prints_shutdown r).printed⟩

end Calls

theorem texts_printed_sample :
    sprintf (ascii "01r %s mode %dx%dx%d@%d\r\n")
        [.text (some (ascii "et4000")), passed 320, passed 200, passed 4, passed 60] =
      .done (fvdiLine (ascii "et4000") Res.sample ++ [0]) :=
  texts_printed Res.sample 42 (by decide) (by decide) (by decide) (by decide) ⟨_, _, _⟩
    (@List.mem_of_getElem? _ (printings Res.sample (ascii "et4000") (ascii "u:/c/xaaes") 42) 7 _ rfl)

end Chgres
