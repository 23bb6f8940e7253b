import GcodeFatfs.CommandRuns

/-! What each command can do at all: the formats it prints with, the files it
opens and the file objects it works on, in any run. -/

namespace GcodeFatfs.Footprint
open GcodeFatfs.Interact GcodeFatfs.CArith GcodeFatfs.CString GcodeFatfs.Board
open GcodeFatfs.FatCommands GcodeFatfs.GcodeParser GcodeFatfs.Gcodetest GcodeFatfs.CommandRuns

/-! ## The footprint of a command -/

def errorFmt : String := "\t%s.\r\n"

/-- The formats a command prints with. -/
def fmts : Command → List String
  | .mkfs _ => ["FS: f_mkfs(%d,0,0) Started\r\n", "FS: f_mkfs() failed\r\n", errorFmt,
      "FS: f_mkfs() Finished\r\n", "Usage: mkfs [partition]\r\n",
      "       Formats partition [partition]\r\n"]
  | .mount => ["FS: f_mount() failed. Is the SD card inserted?\r\n", errorFmt,
      "FS: f_mount() succeeded\r\n"]
  | .unmount => ["FS: f_mount() unmount failed\r\n", errorFmt]
  | .getlabel _ => ["FS: f_getlabel failed.\r\n", errorFmt, "LABEL: %s\r\n", "  S/N: 0x%X\r\n",
      "Usage: getlabel\r\n", "       Gets and prints FAT label\r\n"]
  | .setlabel _ => ["FS: f_setlabel(%s) failed.\r\n", errorFmt, "FS: f_setlabel(%s) succeeded.\r\n",
      "Usage: setlabel label\r\n", "       Sets FAT label (no spaces)\r\n"]
  | .tree => ["FS: f_opendir() failed\r\n", "%4d-%02d-%02d %02d:%02d:%02d ", "<DIR> %s/\r\n",
      "      %s/%s\r\n"]
  | .free => ["FS: f_getfree() failed\r\n",
      "FS: %lu free clusters\r\n    %lu sectors per cluster\r\n", "%lu B free\r\n",
      "%lu KB free\r\n", "%lu MB free\r\n"]
  | .mkdir _ => ["FS: f_mkdir(%s) failed\r\n", errorFmt, "FS: f_mkdir(%s) succeeded\r\n",
      "Usage: mkdir dirName\r\n", "       Creates directory with dirName (no spaces)\r\n"]
  | .hello _ => ["FS: f_open(\"hello.txt\") failed.\r\n", errorFmt,
      "FS: f_open(\"hello.txt\") succeeded\r\n",
      "FS: f_puts(\"Hello World\",\"hello.txt\") failed\r\n",
      "FS: f_puts(\"Hello World\",\"hello.txt\") succeeded\r\n", "Usage: hello\r\n",
      "       Creates hello.txt with 'Hello World'\r\n"]
  | .cat _ => ["FS: f_open(%s) failed.\r\n", errorFmt, "FS: f_read() failed\r\n", "%s", "\r\n",
      "Usage: cat filename\r\n", "       Echos filename (no spaces)\r\n"]
  | .gcodetest => ["attempting to read job file\r\n", "FS: f_open() cannot open file %s\r\n",
      "MAX ARGS reached, dropping cmd: %s\r\n", "UNSUPPORTED cmd: %d\r\n",
      "FS: f_mount() unmount failed!\r\n", errorFmt] ++ (moveMsgs {}).map Msg.fmt
  | .bentest => ["Attempting to read out message.txt\r\n", "%s\r\n",
      "FS: f_mount() unmount failed\r\n", errorFmt]

/-- The files a command opens. -/
def opens : Command → List (Fil × List Char × List Access)
  | .hello _ => [(.helloFsrc, helloName, createMode)]
  | .cat argv => argv.map fun arg => (.catFsrc, arg, [.read])
  | .gcodetest => [(.fil, jobName, [.read]), (.debugfil, logName, createMode)]
  | .bentest => [(.bentestFil, bentestName, [.read])]
  | _ => []

/-- The file objects a command works on. -/
def objects (c : Command) : List Fil := (opens c).map Prod.fst

/-- The operations a command performs. -/
def Performs (c : Command) : Op → Prop
  | .chprintf m => m.fmt ∈ fmts c
  | .palSetPad | .sdcConnect | .fMount (some _) => c = .mount ∨ c = .gcodetest ∨ c = .bentest
  | .palClearPad | .sdcDisconnect | .fMount none => c = .unmount ∨ c = .gcodetest ∨ c = .bentest
  | .fOpen fp path mode => (fp, path, mode) ∈ opens c
  | .fClose fp | .fGets _ fp | .fRead fp _ => fp ∈ objects c
  -- only what was opened for it is written
  | .fPuts _ fp => ∃ path, (fp, path, createMode) ∈ opens c
  | .fOpendir _ _ | .fReaddir _ => c = .tree
  | .fGetfree _ => c = .free
  | .fMkdir _ => ∃ argv, c = .mkdir argv
  | .fSetlabel _ => ∃ argv, c = .setlabel argv
  | .fGetlabel _ => ∃ argv, c = .getlabel argv
  | .fMkfs _ => ∃ argv, c = .mkfs argv
  | .enterProcessLine _ => c = .gcodetest

variable {T : Target} {fuel : ℕ} {regs regs' : Regs} {t : Trace} {c : Command}

/-! ## The loops -/

theorem scan_footprint (fuel : ℕ) :
    (∀ dir path, (scanFiles fuel dir path).Only (Performs .tree)) ∧
      ∀ dir i path, (scanLoop fuel dir i path).Only (Performs .tree) := by
  induction fuel with
  | zero => exact ⟨fun _ _ => trivial, fun _ _ _ => trivial⟩
  | succ fuel ih =>
    obtain ⟨ihFiles, ihLoop⟩ := ih
    constructor
    · intro dir path
      simp only [scanFiles, fOpendir, chprintf, call_bind, ret_bind, only_call]
      refine ⟨rfl, fun res => ?_⟩
      split
      · exact ihLoop _ _ _
      · exact ⟨by simp [Performs, fmts], fun _ => trivial⟩
    · intro dir i path
      simp only [scanLoop, fReaddir, chprintf, call_bind, ret_bind, only_call]
      refine ⟨rfl, fun r => ?_⟩
      split
      · trivial
      split
      · exact ihLoop _ _ _
      refine only_call.mpr ⟨by simp [Performs, fmts], fun _ => ?_⟩
      split
      · refine only_bind (store_only _ _ _) fun _ => only_bind (strcpyAt_only _ _ _) fun _ => ?_
        refine only_call.mpr ⟨by simp [Performs, fmts], fun _ => ?_⟩
        refine only_bind (ihFiles _ _) fun _ => ?_
        split
        · trivial
        · exact only_bind (store_only _ _ _) fun _ => ihLoop _ _ _
      · exact only_call.mpr ⟨by simp [Performs, fmts], fun _ => ihLoop _ _ _⟩

theorem catLoop_footprint (fuel : ℕ) (arg : List Char) :
    (catLoop fuel).Only (Performs (.cat [arg])) := by
  induction fuel with
  | zero => trivial
  | succ fuel ih =>
    simp only [catLoop, fRead, chprintf, call_bind, ret_bind, only_call]
    refine ⟨by simp [Performs, objects, opens], fun r => ?_⟩
    split
    · simp [Performs, fmts, errorFmt, objects, opens]
    · refine only_call.mpr ⟨by simp [Performs, fmts], fun _ => ?_⟩
      split
      · exact ih
      · trivial

theorem bentestLoop_footprint (fuel : ℕ) : (bentestLoop fuel).Only (Performs .bentest) := by
  induction fuel with
  | zero => trivial
  | succ fuel ih =>
    simp only [bentestLoop, fGets, chprintf, call_bind, ret_bind, only_call]
    refine ⟨by simp [Performs, objects, opens], fun got => ?_⟩
    split
    · trivial
    · exact only_call.mpr ⟨by simp [Performs, fmts], fun _ => ih⟩

theorem jobLoop_footprint (T : Target) (fuel : ℕ) (regs : Regs) :
    (jobLoop T fuel regs).Only (Performs .gcodetest) := by
  refine jobLoop_only T ?_ ?_ (fun _ => rfl) ?_ ?_ fuel regs
  · simp [Performs, objects, opens]
  · intro s
    exact ⟨logName, by simp [opens]⟩
  · intro regs line m hm
    rcases processLine_msgs hm with h | h <;> simp [Performs, fmts, h]
  · intro p m hm
    have hfmt : m.fmt ∈ (moveMsgs p).map Msg.fmt := List.mem_map_of_mem hm
    exact List.mem_append_right _ hfmt

/-! ## The commands -/

theorem openJob_footprint : (openJob jobName).Only (Performs .gcodetest) := by
  simp [openJob, Performs, fmts, opens]

theorem closeJob_footprint : closeJob.Only (Performs .gcodetest) := by
  simp [closeJob, Performs, fmts, errorFmt, objects, opens]

theorem gcodetest_footprint : (cmdGcodetest T fuel regs).Only (Performs .gcodetest) := by
  refine only_bind openJob_footprint fun retval => ?_
  simp only [fOpen, call_bind, ret_bind, only_call]
  refine ⟨by simp [Performs, opens], fun _ => ?_⟩
  have hclose : ∀ regs₁ : Regs, (do
      let _ ← fClose .debugfil
      let _ ← closeJob
      pure regs₁ : Shell Regs).Only (Performs .gcodetest) := by
    intro regs₁
    simp only [fClose, call_bind, ret_bind, only_call]
    exact ⟨by simp [Performs, objects, opens], fun _ => only_bind closeJob_footprint fun _ => trivial⟩
  split
  · exact only_bind (jobLoop_footprint T fuel regs) hclose
  · exact hclose regs

theorem cat_footprint (argv : List (List Char)) :
    (cmdCat fuel argv).Only (Performs (.cat argv)) := by
  unfold cmdCat
  split
  · rename_i arg
    simp only [fOpen, call_bind, ret_bind, only_call]
    refine ⟨by simp [Performs, opens], fun err => ?_⟩
    split
    · simp [Performs, fmts, errorFmt]
    · refine only_bind (catLoop_footprint fuel arg) fun finished => ?_
      cases finished <;> simp [Performs, fmts, objects, opens]
  · simp [Performs, fmts]

theorem bentest_footprint : (cmdBentest fuel).Only (Performs .bentest) := by
  unfold cmdBentest
  simp only [chprintf, palSetPad, sdcConnect, fMount, fOpen, call_bind, ret_bind, only_call]
  refine ⟨by simp [Performs, fmts], fun _ => ⟨by simp [Performs], fun _ => ⟨by simp [Performs],
    fun _ => ⟨by simp [Performs], fun _ => ⟨by simp [Performs, opens], fun _ => ?_⟩⟩⟩⟩⟩
  refine only_bind (bentestLoop_footprint fuel) fun _ => ?_
  simp [Performs, fmts, errorFmt, objects, opens]

/-- No command performs anything outside its footprint. -/
theorem command_footprint (c : Command) : (c.run T fuel regs).Only (Performs c) := by
  cases c with
  | mkfs argv =>
    refine only_bind ?_ fun _ => trivial
    unfold cmdMkfs
    split <;> simp [Performs, fmts, errorFmt]
  | mount => exact only_bind (by simp [cmdMount, Performs, fmts, errorFmt]) fun _ => trivial
  | unmount => exact only_bind (by simp [cmdUnmount, Performs, fmts, errorFmt]) fun _ => trivial
  | getlabel argv =>
    refine only_bind ?_ fun _ => trivial
    unfold cmdGetlabel
    split <;> simp [Performs, fmts, errorFmt]
  | setlabel argv =>
    refine only_bind ?_ fun _ => trivial
    unfold cmdSetlabel
    split <;> simp [Performs, fmts, errorFmt]
  | tree =>
    refine only_bind ?_ fun _ => trivial
    exact only_bind ((scan_footprint fuel).1 _ _) fun _ => trivial
  | free => exact only_bind (by simp [cmdFree, Performs, fmts]) fun _ => trivial
  | mkdir argv =>
    refine only_bind ?_ fun _ => trivial
    unfold cmdMkdir
    split <;> simp [Performs, fmts, errorFmt]
  | hello argv =>
    refine only_bind ?_ fun _ => trivial
    unfold cmdHello
    split <;> simp [Performs, fmts, errorFmt, objects, opens]
  | cat argv => exact only_bind (cat_footprint argv) fun _ => trivial
  | gcodetest => exact gcodetest_footprint
  | bentest => exact only_bind bentest_footprint fun _ => trivial

end GcodeFatfs.Footprint
