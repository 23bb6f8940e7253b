import GcodeFatfs.CommandRuns

/-! Failing calls and the messages about them. A command looks at the answers of
some of its call sites and prints a failure message for those alone, so a run is
silent about a failure exactly when no site that is looked at fails with it. -/

namespace GcodeFatfs.FaultReports
open GcodeFatfs.Interact GcodeFatfs.CArith GcodeFatfs.CString GcodeFatfs.Board
open GcodeFatfs.FatCommands GcodeFatfs.GcodeParser GcodeFatfs.Gcodetest GcodeFatfs.CommandRuns

/-- The formats of the failure messages of fat.c and gcode_parser.c. -/
def failureFmts : List String :=
  ["FS: f_opendir() failed\r\n", "FS: f_mount() failed. Is the SD card inserted?\r\n",
   "FS: f_mount() unmount failed\r\n", "FS: f_mount() unmount failed!\r\n",
   "FS: f_mkfs() failed\r\n", "FS: f_getfree() failed\r\n", "FS: f_setlabel(%s) failed.\r\n",
   "FS: f_getlabel failed.\r\n", "FS: f_mkdir(%s) failed\r\n",
   "FS: f_open(\"hello.txt\") failed.\r\n", "FS: f_puts(\"Hello World\",\"hello.txt\") failed\r\n",
   "FS: f_open(%s) failed.\r\n", "FS: f_read() failed\r\n", "FS: f_open() cannot open file %s\r\n"]

/-- The prints of a failure message. -/
def TellsFailure : Op → Prop
  | .chprintf m => m.fmt ∈ failureFmts
  | _ => False

/-- The call sites of a command whose answer it looks at. `f_readdir`, `f_gets`
and `f_close` are at none, and `gcodetest` looks at two of its calls. -/
def LooksAt (c : Command) : Op → Prop
  | .fMount (some _) => c = .mount
  | .fMount none => True
  | .fOpen fp _ _ => fp = .fil ∨ fp = .helloFsrc ∨ fp = .catFsrc
  | .fPuts _ fp => fp = .helloFsrc
  | .fRead _ _ | .fOpendir _ _ | .fGetfree _ | .fMkdir _ | .fSetlabel _ | .fGetlabel _
  | .fMkfs _ => True
  | _ => False

/-- A call fails that is made without a file object or on an open one. -/
def FailsValidly (t : Trace) : Prop :=
  ∃ t₁ e t₂, t = t₁ ++ e :: t₂ ∧ Failed e ∧
    ∀ fp, needsOpen e.op = some fp → t₁.foldl OpenFiles.next noneOpen fp = true

def Told (t : Trace) : Prop := ∃ e ∈ t, TellsFailure e.op

/-- A call fails at a site that the command looks at. -/
def FailsSeen (c : Command) (t : Trace) : Prop := ∃ e ∈ t, Failed e ∧ LooksAt c e.op

/-! ## Told exactly when seen -/

abbrev ToldIffSeen (c : Command) (t : Trace) : Prop := Told t ↔ FailsSeen c t

/-- The events with no part in it. -/
def Quiet (c : Command) (e : Event) : Prop := ¬ TellsFailure e.op ∧ ¬ (Failed e ∧ LooksAt c e.op)

variable {T : Target} {fuel : ℕ} {regs regs' : Regs} {c : Command} {t t' : Trace}

theorem toldIffSeen_append (h : ToldIffSeen c t) (h' : ToldIffSeen c t') :
    ToldIffSeen c (t ++ t') := by
  unfold ToldIffSeen Told FailsSeen at *
  simp only [List.mem_append, or_and_right, exists_or]
  rw [h, h']

theorem toldIffSeen_quiet (h : ∀ e ∈ t, Quiet c e) : ToldIffSeen c t :=
  iff_of_false (fun ⟨e, he, htold⟩ => (h e he).1 htold) fun ⟨e, he, hseen⟩ => (h e he).2 hseen

/-- Quiet events in front change nothing. -/
theorem toldIffSeen_cons {e : Event} (he : Quiet c e) (h : ToldIffSeen c t) :
    ToldIffSeen c (e :: t) :=
  toldIffSeen_append (t := [e]) (toldIffSeen_quiet (by simpa using he)) h

/-- A failure that is seen and reported behind the call. -/
theorem toldIffSeen_reported {e : Event} {fmt : String} {args : List Arg} (hf : fmt ∈ failureFmts)
    (he : Failed e ∧ LooksAt c e.op) (hreport : say fmt args ∈ t) : ToldIffSeen c (e :: t) :=
  iff_of_true ⟨_, List.mem_cons_of_mem e hreport, hf⟩ ⟨e, List.mem_cons_self, he⟩

/-! ## Listing a directory -/

theorem store_runs {path path' : List Char} {i : ℕ} {ch : Char}
    (h : Runs (store path i ch) t (.ok path')) : t = [] :=
  List.eq_nil_iff_forall_not_mem.mpr (runs_only h (store_only (P := fun _ => False) path i ch))

theorem strcpyAt_runs {path path' s : List Char} {i : ℕ}
    (h : Runs (strcpyAt path i s) t (.ok path')) : t = [] :=
  List.eq_nil_iff_forall_not_mem.mpr (runs_only h (strcpyAt_only (P := fun _ => False) path i s))

/-- Of the calls of `scan_files` only a failing `f_opendir` is seen, and told. -/
theorem scan_toldIffSeen (fuel : ℕ) :
    (∀ dir path t r, Runs (scanFiles fuel dir path) t (.ok r) → ToldIffSeen .tree t) ∧
      ∀ dir i path t r, Runs (scanLoop fuel dir i path) t (.ok r) → ToldIffSeen .tree t := by
  induction fuel with
  | zero =>
    constructor
    · intro dir path t r h
      cases h
    · intro dir i path t r h
      cases h
  | succ fuel ih =>
    obtain ⟨ihFiles, ihLoop⟩ := ih
    constructor
    · intro dir path t r h
      simp only [scanFiles, fOpendir, chprintf, call_bind, ret_bind, runs_call] at h
      obtain ⟨res, t', rfl, h⟩ := h
      split at h
      · rename_i hres
        refine toldIffSeen_cons ?_ (ihLoop _ _ _ _ _ h)
        simp [Quiet, TellsFailure, Failed, hres]
      · rename_i hres
        obtain ⟨t₁, rfl, h₁⟩ := runs_chprintf.mp h
        obtain ⟨rfl, -⟩ := runs_ret.mp h₁
        exact toldIffSeen_reported (by simp [failureFmts]) ⟨hres, trivial⟩ List.mem_cons_self
    · intro dir i path t r h
      simp only [scanLoop, fReaddir, call_bind, ret_bind, runs_call] at h
      obtain ⟨⟨res, fno⟩, t', rfl, h⟩ := h
      refine toldIffSeen_cons (by simp [Quiet, TellsFailure, LooksAt]) ?_
      simp only at h
      split at h
      · obtain ⟨rfl, -⟩ := runs_ret.mp h
        exact toldIffSeen_quiet (by simp)
      split at h
      · exact ihLoop _ _ _ _ _ h
      simp only [chprintf, call_bind, ret_bind, runs_chprintf] at h
      obtain ⟨t', rfl, h⟩ := h
      refine toldIffSeen_cons (by simp [Quiet, TellsFailure, LooksAt, failureFmts]) ?_
      split at h
      · obtain ⟨t₁, path₁, t₂, h₁, h₂, rfl⟩ := runs_bind.mp h
        obtain ⟨t₃, path₂, t₄, h₃, h₄, rfl⟩ := runs_bind.mp h₂
        obtain rfl := store_runs h₁
        obtain rfl := strcpyAt_runs h₃
        rw [runs_chprintf] at h₄
        obtain ⟨t₅, rfl, h₅⟩ := h₄
        refine toldIffSeen_cons (by simp [Quiet, TellsFailure, LooksAt, failureFmts]) ?_
        obtain ⟨t₆, ⟨res', path₃⟩, t₇, h₆, h₇, rfl⟩ := runs_bind.mp h₅
        refine toldIffSeen_append (ihFiles _ _ _ _ h₆) ?_
        simp only at h₇
        split at h₇
        · obtain ⟨rfl, -⟩ := runs_ret.mp h₇
          exact toldIffSeen_quiet (by simp)
        · obtain ⟨t₈, path₄, t₉, h₈, h₉, rfl⟩ := runs_bind.mp h₇
          obtain rfl := store_runs h₈
          exact ihLoop _ _ _ _ _ h₉
      · rw [runs_chprintf] at h
        obtain ⟨t₁, rfl, h⟩ := h
        refine toldIffSeen_cons (by simp [Quiet, TellsFailure, LooksAt, failureFmts]) ?_
        exact ihLoop _ _ _ _ _ h

theorem tree_toldIffSeen (h : Runs (cmdTree fuel) t (.ok ())) : ToldIffSeen .tree t := by
  obtain ⟨t₁, r, t₂, h₁, h₂, rfl⟩ := runs_bind.mp h
  obtain ⟨rfl, -⟩ := runs_ret.mp h₂
  rw [List.append_nil]
  exact (scan_toldIffSeen fuel).1 _ _ _ _ h₁

/-! ## The other commands -/

/-- A command of one call: what follows the call tells a failure exactly when it
failed, and makes no other call. -/
theorem toldIffSeen_call {op : Op} {k : Res op → Shell Unit}
    (h : Runs (Prog.call op .ret >>= k) t (.ok ())) (hop : ¬ TellsFailure op) (hl : LooksAt c op)
    (hk : ∀ x t', Runs (k x) t' (.ok ()) →
      (Told t' ↔ Failed ⟨op, x⟩) ∧ ∀ e ∈ t', ¬ Failed e) : ToldIffSeen c t := by
  obtain ⟨x, t', rfl, h'⟩ := runs_call.mp h
  obtain ⟨htold, hother⟩ := hk x t' h'
  have hseen : FailsSeen c t' ↔ False :=
    iff_false_intro fun ⟨e, he, hf, _⟩ => hother e he hf
  unfold ToldIffSeen Told FailsSeen at *
  simp only [List.exists_mem_cons_iff, hop, false_or, hl, and_true]
  rw [htold, hseen, or_false]

/-- The operations that print. -/
def IsPrint : Op → Prop
  | .chprintf _ => True
  | _ => False

theorem print_not_failed {e : Event} (h : IsPrint e.op) : ¬ Failed e := by
  obtain ⟨op, x⟩ := e
  cases op <;> first | exact id | cases h

/-- A command that checks an answer tells a failure exactly when it is one. -/
theorem checked_told {err : FResult} {fmt : String} {args : List Arg} {k : Unit → Shell Unit}
    {good : Shell Unit}
    (h : Runs (if err ≠ .ok then .call (.chprintf ⟨fmt, args⟩) k else good) t (.ok ()))
    (hf : fmt ∈ failureFmts) (hk : (k ()).Only IsPrint)
    (hgood : good.Only fun op => IsPrint op ∧ ¬ TellsFailure op) :
    (Told t ↔ err ≠ .ok) ∧ ∀ e ∈ t, ¬ Failed e := by
  split at h
  · rename_i hne
    obtain ⟨t', rfl, h'⟩ := runs_chprintf.mp h
    refine ⟨iff_of_true ⟨_, List.mem_cons_self, hf⟩ hne, ?_⟩
    intro e he
    rcases List.mem_cons.mp he with rfl | he
    · exact id
    · exact print_not_failed (runs_only h' hk e he)
  · rename_i hok
    have hprint := runs_only h hgood
    have hsilent : ¬ Told t := fun ⟨e, he, htold⟩ => (hprint e he).2 htold
    exact ⟨iff_of_false hsilent hok, fun e he => print_not_failed (hprint e he).1⟩

theorem usage_toldIffSeen {fmt fmt' : String}
    (h : Runs (do chprintf fmt; chprintf fmt') t (.ok ())) (hf : fmt ∉ failureFmts)
    (hf' : fmt' ∉ failureFmts) : ToldIffSeen c t := by
  obtain rfl := usage_runs h
  exact toldIffSeen_quiet (by simp [Quiet, TellsFailure, Failed, say, hf, hf'])

theorem volume_toldIffSeen (hc : IsVolumeCommand c)
    (h : Runs (c.run T fuel regs) t (.ok regs')) : ToldIffSeen c t := by
  cases c with
  | mkfs argv =>
    have h := runs_keep_regs h
    unfold cmdMkfs at h
    split at h
    · obtain ⟨t', rfl, h'⟩ := runs_chprintf.mp h
      refine toldIffSeen_cons (by simp [Quiet, TellsFailure, LooksAt, failureFmts]) ?_
      apply toldIffSeen_call h' id trivial
      intro err t₁ h₁
      exact checked_told h₁ (by simp [failureFmts]) ⟨trivial, fun _ => trivial⟩
        (by simp [IsPrint, TellsFailure, failureFmts])
    · exact usage_toldIffSeen h (by simp [failureFmts]) (by simp [failureFmts])
  | getlabel argv =>
    have h := runs_keep_regs h
    unfold cmdGetlabel at h
    split at h
    · apply toldIffSeen_call h id trivial
      intro r t₁ h₁
      simp only at h₁
      exact checked_told h₁ (by simp [failureFmts]) ⟨trivial, fun _ => trivial⟩
        (by simp [IsPrint, TellsFailure, failureFmts])
    · exact usage_toldIffSeen h (by simp [failureFmts]) (by simp [failureFmts])
  | setlabel argv =>
    have h := runs_keep_regs h
    unfold cmdSetlabel at h
    split at h
    · apply toldIffSeen_call h id trivial
      intro err t₁ h₁
      exact checked_told h₁ (by simp [failureFmts]) ⟨trivial, fun _ => trivial⟩
        (by simp [IsPrint, TellsFailure, failureFmts])
    · exact usage_toldIffSeen h (by simp [failureFmts]) (by simp [failureFmts])
  | tree => exact tree_toldIffSeen (runs_keep_regs h)
  | free =>
    apply toldIffSeen_call (runs_keep_regs h) id trivial
    intro r t₁ h₁
    simp only at h₁
    exact checked_told h₁ (by simp [failureFmts]) trivial (by simp [IsPrint, TellsFailure, failureFmts])
  | mkdir argv =>
    have h := runs_keep_regs h
    unfold cmdMkdir at h
    split at h
    · apply toldIffSeen_call h id trivial
      intro err t₁ h₁
      exact checked_told h₁ (by simp [failureFmts]) ⟨trivial, fun _ => trivial⟩
        (by simp [IsPrint, TellsFailure, failureFmts])
    · exact usage_toldIffSeen h (by simp [failureFmts]) (by simp [failureFmts])
  | mount => cases hc
  | unmount => cases hc
  | hello argv => cases hc
  | cat argv => cases hc
  | gcodetest => cases hc
  | bentest => cases hc

theorem unmountReport_told (fmt : String) (err : FResult) (hf : fmt ∈ failureFmts) :
    ToldIffSeen c (⟨.fMount none, err⟩ :: unmountReport fmt err) := by
  unfold unmountReport
  by_cases he : err = .ok
  · rw [if_pos he]
    apply toldIffSeen_quiet
    simp [Quiet, TellsFailure, Failed, he]
  · rw [if_neg he]
    exact toldIffSeen_reported hf ⟨he, trivial⟩ List.mem_cons_self

theorem mount_toldIffSeen (h : Runs cmdMount t (.ok ())) : ToldIffSeen .mount t := by
  rcases mount_runs h with ⟨err, he, rfl⟩ | ⟨_, rfl⟩
  · exact toldIffSeen_reported (by simp [failureFmts]) ⟨he, rfl⟩ List.mem_cons_self
  · refine toldIffSeen_quiet ?_
    simp [Quiet, TellsFailure, Failed, LooksAt, failureFmts, say]

theorem unmount_toldIffSeen (h : Runs cmdUnmount t (.ok ())) : ToldIffSeen .unmount t := by
  obtain ⟨d, err, rfl⟩ := unmount_runs h
  refine toldIffSeen_append (t := [⟨.palClearPad, ()⟩, ⟨.sdcDisconnect, d⟩])
    (toldIffSeen_quiet ?_) (unmountReport_told _ err (by simp [failureFmts]))
  simp [Quiet, TellsFailure, LooksAt]

theorem hello_toldIffSeen {argv : List (List Char)} (h : Runs (cmdHello argv) t (.ok ())) :
    ToldIffSeen (.hello argv) t := by
  rcases hello_runs h with rfl | ⟨err, he, rfl⟩ | ⟨written, cl, rfl⟩
  · exact toldIffSeen_quiet (by simp [Quiet, TellsFailure, Failed, failureFmts, say])
  · exact toldIffSeen_reported (by simp [failureFmts]) ⟨he, .inr (.inl rfl)⟩ List.mem_cons_self
  · -- the file is open
    apply toldIffSeen_cons (by simp [Quiet, TellsFailure, Failed])
    apply toldIffSeen_cons (by simp [Quiet, TellsFailure, Failed, failureFmts, say])
    by_cases hw : written = -1
    · rw [if_pos hw]
      exact toldIffSeen_reported (by simp [failureFmts]) ⟨hw, rfl⟩ List.mem_cons_self
    · rw [if_neg hw]
      apply toldIffSeen_quiet
      simp [Quiet, TellsFailure, Failed, LooksAt, failureFmts, say, hw]

theorem catTurn_quiet {e : Event} (h : IsCatTurn e) : Quiet c e := by
  rcases h with ⟨_, rfl⟩ | ⟨_, rfl⟩
  · simp [Quiet, TellsFailure, Failed]
  · simp [Quiet, TellsFailure, LooksAt, failureFmts, say]

theorem cat_toldIffSeen {argv : List (List Char)} (h : Runs (cmdCat fuel argv) t (.ok ())) :
    ToldIffSeen (.cat argv) t := by
  rcases cat_runs h with rfl | ⟨arg, err, he, rfl⟩ | ⟨arg, loop, hloop, hend⟩
  · exact toldIffSeen_quiet (by simp [Quiet, TellsFailure, Failed, failureFmts, say])
  · exact toldIffSeen_reported (by simp [failureFmts]) ⟨he, .inr (.inr rfl)⟩ List.mem_cons_self
  · have hturns : ToldIffSeen (.cat argv) (⟨.fOpen .catFsrc arg [.read], FResult.ok⟩ :: loop) :=
      toldIffSeen_cons (by simp [Quiet, TellsFailure, Failed])
        (toldIffSeen_quiet fun e he => catTurn_quiet (hloop e he))
    rcases hend with ⟨cl, rfl⟩ | ⟨err, bytes, cl, he, rfl⟩
    · refine toldIffSeen_append hturns (toldIffSeen_quiet ?_)
      simp [Quiet, TellsFailure, LooksAt, failureFmts, say]
    · apply toldIffSeen_append hturns
      exact toldIffSeen_reported (by simp [failureFmts]) ⟨he, trivial⟩ List.mem_cons_self

theorem bentestTurn_quiet {e : Event} (h : IsBentestTurn e) : Quiet c e := by
  rcases h with h | ⟨_, rfl⟩
  · simp [Quiet, TellsFailure, LooksAt, h]
  · simp [Quiet, TellsFailure, LooksAt, failureFmts, say]

theorem bentest_toldIffSeen (h : Runs (cmdBentest fuel) t (.ok ())) : ToldIffSeen .bentest t := by
  obtain ⟨d, m, fr, cl, d', err, loop, hloop, rfl⟩ := bentest_runs h
  rw [List.append_assoc, List.append_assoc]
  refine toldIffSeen_append (toldIffSeen_quiet ?_)
    (toldIffSeen_append (toldIffSeen_quiet fun e he => bentestTurn_quiet (hloop e he)) ?_)
  · simp [Quiet, TellsFailure, LooksAt, failureFmts, say]
  · refine toldIffSeen_append
      (t := [⟨.fClose .bentestFil, cl⟩, ⟨.palClearPad, ()⟩, ⟨.sdcDisconnect, d'⟩])
      (toldIffSeen_quiet ?_) (unmountReport_told _ err (by simp [failureFmts]))
    simp [Quiet, TellsFailure, LooksAt]

/-- The loop of `gcodetest` makes calls at no site that is looked at, and tells
no failure. -/
theorem jobLoop_toldIffSeen {regs₁ : Regs} (h : Runs (jobLoop T fuel regs) t (.ok regs₁)) :
    ToldIffSeen .gcodetest t := by
  have honly : (jobLoop T fuel regs).Only fun op =>
      ¬ TellsFailure op ∧ ¬ LooksAt .gcodetest op := by
    refine jobLoop_only T ⟨id, id⟩ (fun _ => ⟨id, by simp [LooksAt]⟩) (fun _ => ⟨id, id⟩) ?_ ?_
      fuel regs
    · intro regs line m hm
      refine ⟨?_, id⟩
      rcases processLine_msgs hm with hfmt | hfmt <;> simp [TellsFailure, failureFmts, hfmt]
    · intro p m hm
      refine ⟨?_, id⟩
      simp only [moveMsgs, List.mem_cons, List.not_mem_nil, or_false] at hm
      rcases hm with rfl | rfl | rfl | rfl | rfl | rfl <;> simp [TellsFailure, failureFmts]
  apply toldIffSeen_quiet
  intro e he
  obtain ⟨htell, hlook⟩ := runs_only h honly e he
  exact ⟨htell, fun hs => hlook hs.2⟩

theorem openJobTrace_toldIffSeen (d : SdcRes) (m fr : FResult) :
    ToldIffSeen .gcodetest (openJobTrace d m fr) := by
  apply toldIffSeen_append (t := [say "attempting to read job file\r\n", ⟨.palSetPad, ()⟩,
    ⟨.sdcConnect, d⟩, ⟨.fMount (some .gcode), m⟩])
  · apply toldIffSeen_quiet
    simp [Quiet, TellsFailure, LooksAt, failureFmts, say]
  by_cases hfr : fr = .ok
  · rw [if_pos hfr]
    apply toldIffSeen_quiet
    simp [Quiet, TellsFailure, Failed, hfr]
  · rw [if_neg hfr]
    exact toldIffSeen_reported (by simp [failureFmts]) ⟨hfr, .inl rfl⟩ List.mem_cons_self

theorem closeJobTrace_toldIffSeen (cl : FResult) (d : SdcRes) (err cl₂ : FResult) :
    ToldIffSeen .gcodetest (closeJobTrace cl d err cl₂) := by
  apply toldIffSeen_append (t := [⟨.fClose .fil, cl⟩, ⟨.palClearPad, ()⟩, ⟨.sdcDisconnect, d⟩])
  · apply toldIffSeen_quiet
    simp [Quiet, TellsFailure, LooksAt]
  by_cases herr : err = .ok
  · rw [if_pos herr]
    apply toldIffSeen_quiet
    simp [Quiet, TellsFailure, Failed, LooksAt, herr]
  · rw [if_neg herr]
    exact toldIffSeen_reported (by simp [failureFmts]) ⟨herr, trivial⟩ List.mem_cons_self

theorem gcodetest_toldIffSeen (h : Runs (cmdGcodetest T fuel regs) t (.ok regs')) :
    ToldIffSeen .gcodetest t := by
  obtain ⟨d, m, fr, dfr, cd, cl, d', err, cl₂, loop, -, hloop, rfl⟩ := gcodetest_runs h
  have hjob : ToldIffSeen .gcodetest loop := by
    split at hloop
    · exact jobLoop_toldIffSeen hloop
    · obtain ⟨rfl, -⟩ := runs_ret.mp hloop
      exact toldIffSeen_quiet (by simp)
  have hclose := closeJobTrace_toldIffSeen cl d' err cl₂
  apply toldIffSeen_append
  · apply toldIffSeen_append (openJobTrace_toldIffSeen d m fr)
    apply toldIffSeen_cons _ hjob
    simp [Quiet, TellsFailure, LooksAt]
  · apply toldIffSeen_cons _ hclose
    simp [Quiet, TellsFailure, LooksAt]

theorem command_toldIffSeen (h : Runs (c.run T fuel regs) t (.ok regs')) : ToldIffSeen c t := by
  cases c with
  | mkfs argv => exact volume_toldIffSeen trivial h
  | mount => exact mount_toldIffSeen (runs_keep_regs h)
  | unmount => exact unmount_toldIffSeen (runs_keep_regs h)
  | getlabel argv => exact volume_toldIffSeen trivial h
  | setlabel argv => exact volume_toldIffSeen trivial h
  | tree => exact volume_toldIffSeen trivial h
  | free => exact volume_toldIffSeen trivial h
  | mkdir argv => exact volume_toldIffSeen trivial h
  | hello argv => exact hello_toldIffSeen (runs_keep_regs h)
  | cat argv => exact cat_toldIffSeen (runs_keep_regs h)
  | gcodetest => exact gcodetest_toldIffSeen h
  | bentest => exact bentest_toldIffSeen (runs_keep_regs h)

/-- **Failure messages.** Where a call on a validly opened object fails, a command
tells of a failure exactly when a failing call is at a site it looks at. -/
theorem failure_told_iff (h : Runs (c.run T fuel regs) t (.ok regs')) :
    (FailsValidly t → Told t) ↔ (FailsValidly t → FailsSeen c t) := by
  exact imp_congr_right fun _ => command_toldIffSeen h

/-- `hello` when the volume is full or gone by the time the file is closed. -/
def lostHello : Trace :=
  [⟨.fOpen .helloFsrc helloName createMode, FResult.ok⟩,
    say "FS: f_open(\"hello.txt\") succeeded\r\n", ⟨.fPuts "Hello World" .helloFsrc, (11 : ℤ)⟩,
    say "FS: f_puts(\"Hello World\",\"hello.txt\") succeeded\r\n",
    ⟨.fClose .helloFsrc, FResult.diskErr⟩]

theorem lostHello_runs : Runs (Command.run .exact 0 (.hello []) boot) lostHello (.ok boot) := by
  simp [Command.run, cmdHello, lostHello, say]

theorem failure_told_iff_lostHello :
    (FailsValidly lostHello → Told lostHello) ↔
      (FailsValidly lostHello → FailsSeen (.hello []) lostHello) :=
  failure_told_iff lostHello_runs

/-- The write is lost in `f_close`, and the run reports nothing but success. -/
theorem lostHello_silent :
    Runs (Command.run .exact 0 (.hello []) boot) lostHello (.ok boot) ∧
      ¬ (FailsValidly lostHello → Told lostHello) := by
  refine ⟨lostHello_runs, ?_⟩
  intro hall
  have hfails : FailsValidly lostHello :=
    ⟨lostHello.take 4, ⟨.fClose .helloFsrc, FResult.diskErr⟩, [], rfl, by simp [Failed],
      by simp [needsOpen, lostHello, OpenFiles.next, OpenFiles.set, say]⟩
  have hsilent : ¬ Told lostHello := by
    simp [Told, lostHello, TellsFailure, failureFmts, say]
  exact hsilent (hall hfails)

end GcodeFatfs.FaultReports
