import GcodeFatfs.FatCommands
import GcodeFatfs.GcodeParser

/-! The file handling of gcode_parser.c: `_open_job`, `_close_job` and
`cmd_gcodetest`, and the commands of the firmware together. -/

namespace GcodeFatfs.Gcodetest
open GcodeFatfs.Interact GcodeFatfs.CArith GcodeFatfs.CString GcodeFatfs.Board
open GcodeFatfs.FatCommands GcodeFatfs.GcodeParser

def openJob (filename : List Char) : Shell GcodeError := do
  chprintf "attempting to read job file\r\n"
  palSetPad
  let _ ← sdcConnect
  let _ ← fMount (some .gcode)
  let fr ← fOpen .fil filename [.read]
  if fr ≠ .ok then
    chprintf "FS: f_open() cannot open file %s\r\n" [.str filename]
    pure .error
  else
    pure .ok

def closeJob : Shell GcodeError := do
  let _ ← fClose .fil
  palClearPad
  let _ ← sdcDisconnect
  let err ← fMount none
  if err ≠ .ok then
    chprintf "FS: f_mount() unmount failed!\r\n"
    verboseError err
    pure .error
  else
    let _ ← fClose .fil
    pure .ok

/-- `chprintf` of several messages in a row. -/
def printAll : List Msg → Shell Unit
  | [] => pure ()
  | m :: ms => do
    chprintf m.fmt m.args
    printAll ms

/-- `sprintf(&debugbuff, "%ld, %ld\n", parsedline.x, parsedline.y);` -/
def record (x y : Int32) : String := toString x.toInt ++ ", " ++ toString y.toInt ++ "\n"

/-- The prints of the loop of `cmd_gcodetest` for one line. -/
def moveMsgs (p : Param) : List Msg :=
  [⟨"MOVE READY:\r\n", []⟩,
   ⟨"             X[%ld]\r\n", [.int p.x.toInt]⟩,
   ⟨"             Y[%ld]\r\n", [.int p.y.toInt]⟩,
   ⟨"             Z[%ld]\r\n", [.int p.z.toInt]⟩,
   ⟨"             E[%ld]\r\n", [.int p.e.toInt]⟩,
   ⟨"             F[%ld]\r\n", [.int p.f.toInt]⟩]

/-- The loop of `cmd_gcodetest`, with the registers it leaves. -/
def jobLoop (T : Target) : (fuel : ℕ) → Regs → Shell Regs
  | 0, _ => .fail .fuel
  | fuel + 1, regs => do
    let got ← fGets lineSize .fil
    match got.ret with
    | none => pure regs
    | some line => do
      enterProcessLine line
      let r := processLine T regs line
      printAll r.msgs
      printAll (moveMsgs r.param)
      let _ ← fPuts (record r.param.x r.param.y) .debugfil
      jobLoop T fuel r.regs

def jobName : List Char := "SIMPLE~1.GCO".toList
def logName : List Char := "output.log".toList

/-- `cmd_gcodetest`, with the registers it leaves. -/
def cmdGcodetest (T : Target) (fuel : ℕ) (regs : Regs) : Shell Regs := do
  let retval ← openJob jobName
  let _ ← fOpen .debugfil logName createMode
  let regs ← if retval = .ok then jobLoop T fuel regs else pure regs
  let _ ← fClose .debugfil
  let _ ← closeJob
  pure regs

/-! ## The commands -/

/-- The commands that touch the volume: those of the table in main.c, and
`cmd_bentest`. -/
inductive Command where
  | mkfs (argv : List (List Char))
  | mount
  | unmount
  | getlabel (argv : List (List Char))
  | setlabel (argv : List (List Char))
  | tree
  | free
  | mkdir (argv : List (List Char))
  | hello (argv : List (List Char))
  | cat (argv : List (List Char))
  | gcodetest
  | bentest
  deriving DecidableEq, Repr

/-- A command, run with the modal registers and returning those it leaves. -/
def Command.run (T : Target) (fuel : ℕ) (c : Command) (regs : Regs) : Shell Regs :=
  match c with
  | .mkfs argv => do cmdMkfs argv; pure regs
  | .mount => do cmdMount; pure regs
  | .unmount => do cmdUnmount; pure regs
  | .getlabel argv => do cmdGetlabel argv; pure regs
  | .setlabel argv => do cmdSetlabel argv; pure regs
  | .tree => do cmdTree fuel; pure regs
  | .free => do cmdFree; pure regs
  | .mkdir argv => do cmdMkdir argv; pure regs
  | .hello argv => do cmdHello argv; pure regs
  | .cat argv => do cmdCat fuel argv; pure regs
  | .gcodetest => cmdGcodetest T fuel regs
  | .bentest => do cmdBentest fuel; pure regs

/-- A session: any commands in a row from boot, with the trace of each. -/
def Session (T : Target) (fuel : ℕ) (cs : List Command) (ts : List Trace) : Prop :=
  ∃ regs, RunsSeq (Command.run T fuel) boot cs ts regs

end GcodeFatfs.Gcodetest
