import GcodeFatfs.Library.CString
import GcodeFatfs.Library.Interact

/-! What the firmware calls and does not contain: FatFs, the SD card driver, the
blue LED and the shell's output stream. Each call is an operation, and what it
may answer is the operation's result type. A call on a `FIL` or `DIR` names the
C object it is given. -/

namespace GcodeFatfs.Board
open GcodeFatfs.Interact

/-- `FRESULT`. -/
inductive FResult where
  | ok | diskErr | intErr | notReady | noFile | noPath | invalidName | denied | exist
  | invalidObject | writeProtected | invalidDrive | notEnabled | noFilesystem | mkfsAborted
  | timeout | locked | notEnoughCore | tooManyOpenFiles | invalidParameter
  deriving DecidableEq, Repr

/-- `fresult_str`. -/
def fresultStr : FResult → String
  | .ok => "Succeeded"
  | .diskErr => "A hard error occurred in the low level disk I/O layer"
  | .intErr => "Assertion failed"
  | .notReady => "The physical drive cannot work"
  | .noFile => "Could not find the file"
  | .noPath => "Could not find the path"
  | .invalidName => "The path name format is invalid"
  | .denied => "Access denied due to prohibited access or directory full"
  | .exist => "Access denied due to prohibited access"
  | .invalidObject => "The file/directory object is invalid"
  | .writeProtected => "The physical drive is write protected"
  | .invalidDrive => "The logical drive number is invalid"
  | .notEnabled => "The volume has no work area"
  | .noFilesystem => "There is no valid FAT volume"
  | .mkfsAborted => "The f_mkfs() aborted due to any parameter error"
  | .timeout => "Could not get a grant to access the volume within defined period"
  | .locked => "The operation is rejected according to the file sharing policy"
  | .notEnoughCore => "LFN working buffer could not be allocated"
  | .tooManyOpenFiles => "Number of open files > _FS_SHARE"
  | .invalidParameter => "Given parameter is invalid"

/-- One argument of a `chprintf` call; `buf` is a whole buffer printed with `%s`,
`addr` the address of a C object printed as a number. -/
inductive Arg where
  | int (n : ℤ)
  | str (s : List Char)
  | buf (mem : List Char)
  | text (s : String)
  | addr (object : String)
  deriving DecidableEq, Repr

/-- A `chprintf` call: the format and the arguments given with it. -/
structure Msg where
  fmt : String
  args : List Arg := []
  deriving DecidableEq, Repr

/-- The `FIL` objects: the global one of gcode_parser.c and the locals of
`cmd_gcodetest`, `cmd_hello`, `cmd_cat` and `cmd_bentest`. -/
inductive Fil where
  | fil | debugfil | helloFsrc | catFsrc | bentestFil
  deriving DecidableEq, Repr

/-- `SDC_FS` is `static` in fat.h, so each source file has a work area of its own. -/
inductive WorkArea where
  | fat | gcode
  deriving DecidableEq, Repr

/-- Bits of the mode of `f_open`. -/
inductive Access where
  | read | write | createAlways
  deriving DecidableEq, Repr

/-- `FILINFO`, less the fields nothing reads. -/
structure FilInfo where
  fname : List Char
  fdate : UInt16
  ftime : UInt16
  fattrib : UInt8
  deriving DecidableEq, Repr

/-- The answer of `f_gets`: the text put in the buffer, `none` for NULL, and
whether it stopped on a disk error. The caller sees the first alone. -/
structure GetsRes where
  ret : Option (List Char)
  err : Bool := false
  deriving DecidableEq, Repr

/-- The answer of an SD driver call; one that fails leaves the card connected
or not. -/
inductive SdcRes where
  | success
  | failed (connected : Bool)
  deriving DecidableEq, Repr

inductive Op where
  | chprintf (m : Msg)
  | palSetPad
  | palClearPad
  | sdcConnect
  | sdcDisconnect
  /-- `f_mount(fs, "", 0)`; `none` unregisters the work area. -/
  | fMount (fs : Option WorkArea)
  | fOpen (fp : Fil) (path : List Char) (mode : List Access)
  | fClose (fp : Fil)
  | fGets (len : ℕ) (fp : Fil)
  | fPuts (str : String) (fp : Fil)
  | fRead (fp : Fil) (btr : ℕ)
  /-- `dir` numbers the `DIR` local of the nested calls of `scan_files`. -/
  | fOpendir (dir : ℕ) (path : List Char)
  | fReaddir (dir : ℕ)
  | fGetfree (path : List Char)
  | fMkdir (path : List Char)
  | fSetlabel (label : List Char)
  | fGetlabel (path : List Char)
  | fMkfs (vol : ℤ)
  /-- Not a call out: the entry of `_process_line`, with the buffer handed to it. -/
  | enterProcessLine (line : List Char)
  deriving DecidableEq, Repr

abbrev Res : Op → Type
  | .chprintf _ | .palSetPad | .palClearPad | .enterProcessLine _ => Unit
  | .sdcConnect | .sdcDisconnect => SdcRes
  | .fGets _ _ => GetsRes
  | .fPuts _ _ => ℤ
  | .fRead _ _ => FResult × List Char
  | .fReaddir _ => FResult × FilInfo
  /- the free clusters, and the `csize` field of the work area -/
  | .fGetfree _ => FResult × UInt32 × UInt8
  /- the label and the serial number -/
  | .fGetlabel _ => FResult × List Char × UInt32
  | .fMount _ | .fOpen _ _ _ | .fClose _ | .fOpendir _ _ | .fMkdir _ | .fSetlabel _
  | .fMkfs _ => FResult

/-- Why a program has no further step: a loop or a recursion ran past the bound
it was given, or a store went past the end of its buffer. -/
inductive Stop where
  | fuel
  | bounds
  deriving DecidableEq, Repr

abbrev Shell := Prog Op Res Stop
abbrev Event := Interact.Event Op Res
abbrev Trace := Interact.Trace Op Res

@[simp] def chprintf (fmt : String) (args : List Arg := []) : Shell Unit :=
  .call (.chprintf ⟨fmt, args⟩) .ret
@[simp] def palSetPad : Shell Unit := .call .palSetPad .ret
@[simp] def palClearPad : Shell Unit := .call .palClearPad .ret
@[simp] def sdcConnect : Shell SdcRes := .call .sdcConnect .ret
@[simp] def sdcDisconnect : Shell SdcRes := .call .sdcDisconnect .ret
@[simp] def fMount (fs : Option WorkArea) : Shell FResult := .call (.fMount fs) .ret
@[simp] def fOpen (fp : Fil) (path : List Char) (mode : List Access) : Shell FResult :=
  .call (.fOpen fp path mode) .ret
@[simp] def fClose (fp : Fil) : Shell FResult := .call (.fClose fp) .ret
@[simp] def fGets (len : ℕ) (fp : Fil) : Shell GetsRes := .call (.fGets len fp) .ret
@[simp] def fPuts (str : String) (fp : Fil) : Shell ℤ := .call (.fPuts str fp) .ret
@[simp] def fRead (fp : Fil) (btr : ℕ) : Shell (FResult × List Char) := .call (.fRead fp btr) .ret
@[simp] def fOpendir (dir : ℕ) (path : List Char) : Shell FResult := .call (.fOpendir dir path) .ret
@[simp] def fReaddir (dir : ℕ) : Shell (FResult × FilInfo) := .call (.fReaddir dir) .ret
@[simp] def fGetfree (path : List Char) : Shell (FResult × UInt32 × UInt8) :=
  .call (.fGetfree path) .ret
@[simp] def fMkdir (path : List Char) : Shell FResult := .call (.fMkdir path) .ret
@[simp] def fSetlabel (label : List Char) : Shell FResult := .call (.fSetlabel label) .ret
@[simp] def fGetlabel (path : List Char) : Shell (FResult × List Char × UInt32) :=
  .call (.fGetlabel path) .ret
@[simp] def fMkfs (vol : ℤ) : Shell FResult := .call (.fMkfs vol) .ret
@[simp] def enterProcessLine (line : List Char) : Shell Unit := .call (.enterProcessLine line) .ret

/-- The event of a `chprintf` call. -/
def say (fmt : String) (args : List Arg := []) : Event := ⟨.chprintf ⟨fmt, args⟩, ()⟩

/-- `verbose_error`. -/
@[simp] def verboseError (err : FResult) : Shell Unit := chprintf "\t%s.\r\n" [.text (fresultStr err)]

def sayError (err : FResult) : Event := say "\t%s.\r\n" [.text (fresultStr err)]

section Silent
variable {α : Type} {t : Trace} {r : Except Stop α}

/-! A call without an answer adds its event to a run and nothing else. -/

@[simp high] theorem runs_chprintf {m : Msg} {k : Unit → Shell α} :
    Runs (.call (.chprintf m) k) t r ↔ ∃ t', t = ⟨.chprintf m, ()⟩ :: t' ∧ Runs (k ()) t' r := by
  rw [runs_call]
  exact ⟨fun ⟨_, h⟩ => h, fun h => ⟨(), h⟩⟩

@[simp high] theorem runs_palSetPad {k : Unit → Shell α} :
    Runs (.call .palSetPad k) t r ↔ ∃ t', t = ⟨.palSetPad, ()⟩ :: t' ∧ Runs (k ()) t' r := by
  rw [runs_call]
  exact ⟨fun ⟨_, h⟩ => h, fun h => ⟨(), h⟩⟩

@[simp high] theorem runs_palClearPad {k : Unit → Shell α} :
    Runs (.call .palClearPad k) t r ↔ ∃ t', t = ⟨.palClearPad, ()⟩ :: t' ∧ Runs (k ()) t' r := by
  rw [runs_call]
  exact ⟨fun ⟨_, h⟩ => h, fun h => ⟨(), h⟩⟩

end Silent

/-- The answers of calls that succeed and find nothing. -/
def success : (op : Op) → Res op
  | .chprintf _ | .palSetPad | .palClearPad | .enterProcessLine _ => ()
  | .sdcConnect | .sdcDisconnect => .success
  | .fGets _ _ => { ret := none }
  | .fPuts str _ => str.length
  | .fRead _ _ => (.ok, [])
  | .fReaddir _ => (.ok, ⟨[], 0, 0, 0⟩)
  | .fGetfree _ => (.ok, 0, 0)
  | .fGetlabel _ => (.ok, [], 0)
  | .fMount _ | .fOpen _ _ _ | .fClose _ | .fOpendir _ _ | .fMkdir _ | .fSetlabel _
  | .fMkfs _ => .ok

/-! ## Open file objects -/

/-- Which file objects are open. -/
abbrev OpenFiles := Fil → Bool

def noneOpen : OpenFiles := fun _ => false

def OpenFiles.set (o : OpenFiles) (fp : Fil) (b : Bool) : OpenFiles :=
  fun fp' => if fp' = fp then b else o fp'

/-- A file object is open from a successful `f_open` to the next `f_open` or
`f_close` of it, whatever that `f_close` answers. -/
def OpenFiles.next (o : OpenFiles) : Event → OpenFiles
  | ⟨.fOpen fp _ _, err⟩ => o.set fp (err = .ok)
  | ⟨.fClose fp, _⟩ => o.set fp false
  | _ => o

/-- The file object a call works on and must find open. -/
def needsOpen : Op → Option Fil
  | .fClose fp | .fGets _ fp | .fPuts _ fp | .fRead fp _ => some fp
  | _ => none

/-! ## Failing calls -/

/-- The FatFs calls that failed; `f_puts` says so with EOF, `f_gets` not at all. -/
def Failed : Event → Prop
  | ⟨.fMount _, err⟩ => err ≠ .ok
  | ⟨.fOpen _ _ _, err⟩ => err ≠ .ok
  | ⟨.fClose _, err⟩ => err ≠ .ok
  | ⟨.fGets _ _, got⟩ => got.err = true
  | ⟨.fPuts _ _, written⟩ => written = -1
  | ⟨.fRead _ _, r⟩ => r.1 ≠ .ok
  | ⟨.fOpendir _ _, err⟩ => err ≠ .ok
  | ⟨.fReaddir _, r⟩ => r.1 ≠ .ok
  | ⟨.fGetfree _, r⟩ => r.1 ≠ .ok
  | ⟨.fMkdir _, err⟩ => err ≠ .ok
  | ⟨.fSetlabel _, err⟩ => err ≠ .ok
  | ⟨.fGetlabel _, r⟩ => r.1 ≠ .ok
  | ⟨.fMkfs _, err⟩ => err ≠ .ok
  | _ => False

end GcodeFatfs.Board
