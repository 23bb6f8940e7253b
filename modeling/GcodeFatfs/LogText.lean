import GcodeFatfs.CardLog
import GcodeFatfs.Library.Decimal

/-! output.log as a text. What a job emits can be told from it, and `cat` shows it as
far as its buffer goes. -/

namespace GcodeFatfs.LogText
open GcodeFatfs.Interact GcodeFatfs.Lines GcodeFatfs.CArith GcodeFatfs.CString GcodeFatfs.Decimal
open GcodeFatfs.Board GcodeFatfs.FatCommands GcodeFatfs.GcodeParser GcodeFatfs.Gcodetest
open GcodeFatfs.JobRun GcodeFatfs.JobLog GcodeFatfs.SessionRuns GcodeFatfs.CardFiles
open GcodeFatfs.CardLog

/-! ## Records -/

/-- A record without its end of line. -/
def recordText (x y : Int32) : List Char :=
  (toString x.toInt).toList ++ ([',', ' '] ++ (toString y.toInt).toList)

theorem record_toList (x y : Int32) : (record x y).toList = recordText x y ++ ['\n'] := by
  simp [record, recordText]

/-- A record has no end of line, no comma but its own, and no NUL in it. -/
theorem mem_toString {k : Int32} {c : Char} (h : c ∈ (toString k.toInt).toList) :
    c ≠ '\n' ∧ c ≠ '\r' ∧ c ≠ ',' ∧ c ≠ nul := by
  rw [toString_toList] at h
  rcases Numeral.mem_text h with h | rfl | rfl | rfl
  · refine ⟨?_, ?_, ?_, ?_⟩ <;> (rintro rfl; exact absurd h (by decide))
  all_goals decide

theorem mem_recordText {x y : Int32} {c : Char} (h : c ∈ recordText x y) :
    c ≠ '\n' ∧ c ≠ '\r' ∧ c ≠ nul := by
  rcases List.mem_append.mp h with h | h
  · obtain ⟨hn, hr, -, hz⟩ := mem_toString h
    exact ⟨hn, hr, hz⟩
  rcases List.mem_append.mp h with h | h
  · rcases List.mem_pair.mp h with rfl | rfl <;> decide
  · obtain ⟨hn, hr, -, hz⟩ := mem_toString h
    exact ⟨hn, hr, hz⟩

theorem putsText_record (x y : Int32) : putsText (record x y) = recordText x y ++ ['\r', '\n'] := by
  have hplain : ∀ cs : List Char, '\n' ∉ cs →
      (cs.flatMap fun c => if c = '\n' then ['\r', '\n'] else [c]) = cs := by
    intro cs hcs
    induction cs with
    | nil => rfl
    | cons c cs ih =>
      obtain ⟨hc, hcs⟩ : ¬ '\n' = c ∧ '\n' ∉ cs := by simpa using hcs
      rw [List.flatMap_cons, if_neg (Ne.symm hc), ih hcs]
      rfl
  rw [putsText, record_toList, List.flatMap_append, hplain _ fun h => (mem_recordText h).1 rfl]
  rfl

/-- What output.log holds of some coordinates. -/
def textOf (ps : List (Int32 × Int32)) : List Char :=
  (ps.map fun p => record p.1 p.2).flatMap putsText

theorem textOf_cons (p : Int32 × Int32) (ps : List (Int32 × Int32)) :
    textOf (p :: ps) = recordText p.1 p.2 ++ ['\r', '\n'] ++ textOf ps := by
  simp [textOf, putsText_record]

theorem nul_notMem_textOf (ps : List (Int32 × Int32)) : nul ∉ textOf ps := by
  induction ps with
  | nil => simp [textOf]
  | cons p ps ih =>
    rw [textOf_cons]
    simp only [List.mem_append, not_or]
    exact ⟨⟨fun h => (mem_recordText h).2.2 rfl, by decide⟩, ih⟩

/-! ## The records of a log -/

theorem kept_textOf (ps : List (Int32 × Int32)) :
    kept (· = '\r') (textOf ps) = (ps.map fun p => recordText p.1 p.2).flatMap (· ++ ['\n']) := by
  induction ps with
  | nil => rfl
  | cons p ps ih =>
    have hkeep : kept (· = '\r') (recordText p.1 p.2) = recordText p.1 p.2 :=
      List.filter_eq_self.mpr fun c hc => by simpa using (mem_recordText hc).2.1
    rw [textOf_cons, kept, List.filter_append, List.filter_append]
    rw [kept] at hkeep ih
    rw [hkeep, ih]
    simp

/-- Line by line the log gives its records. -/
theorem fileLines_textOf (ps : List (Int32 × Int32)) :
    fileLines (textOf ps) = ps.map fun p => (record p.1 p.2).toList := by
  have hplain : ∀ l ∈ ps.map fun p => recordText p.1 p.2, '\n' ∉ l := by
    intro l hl
    obtain ⟨p, -, rfl⟩ := List.mem_map.mp hl
    exact fun h => (mem_recordText h).1 rfl
  rw [fileLines, kept_textOf, lines_flatMap _ hplain, List.map_map]
  simp [record_toList, Function.comp_def]

/-- The two numbers of a record. -/
def readRecord (line : List Char) : Int32 × Int32 :=
  (strtol line, strtol ((line.dropWhile (· ≠ ',')).drop 2))

theorem readRecord_record (x y : Int32) : readRecord (record x y).toList = (x, y) := by
  have hx : strtol (record x y).toList = x := by
    rw [record_toList, recordText, List.append_assoc]
    exact strtol_toString x rfl
  have hcomma : ∀ c ∈ (toString x.toInt).toList, decide (c ≠ ',') = true :=
    fun c hc => by simpa using (mem_toString hc).2.2.1
  have hy : strtol (((record x y).toList.dropWhile (· ≠ ',')).drop 2) = y := by
    rw [record_toList, recordText, List.append_assoc, List.dropWhile_append_of_pos hcomma]
    exact strtol_toString y rfl
  rw [readRecord, hx, hy]

/-- The coordinates are read back from their text, in order and in their number. -/
theorem textOf_decodes (ps : List (Int32 × Int32)) : (fileLines (textOf ps)).map readRecord = ps := by
  rw [fileLines_textOf, List.map_map]
  simp [Function.comp_def, readRecord_record]

/-! ## `cat` on the card -/

variable {ι : Type} [DecidableEq ι] {name : List Char → ι} {card card' : Card ι} {file : ι}
variable {T : Target} {fuel fuel' : ℕ} {regs regs₁ regs₂ : Regs} {t t₁ t₂ : Trace}
variable {path text content rest : List Char}

/-- The loop of `cmd_cat` finds the file served that its object is open to read. -/
theorem catLoop_onFile {r : Except Stop Bool} (h : Runs (catLoop fuel) t r)
    (hcard : Takes (Step name) card t card') (hreads : card.Reads .catFsrc file text rest)
    (hgood : ∀ e ∈ t, ¬ Failed e) : Output.OnFile rest t := by
  induction fuel generalizing card t rest with
  | zero =>
    obtain ⟨rfl, -⟩ := runs_fail.mp h
    trivial
  | succ fuel ih =>
    unfold catLoop at h
    simp only [fRead, chprintf, call_bind, ret_bind, runs_call] at h
    obtain ⟨⟨err, bytes⟩, t', rfl, hrun⟩ := h
    obtain ⟨hread, hrest⟩ := List.forall_mem_cons.mp hgood
    obtain rfl : err = .ok := not_not.mp hread
    rw [if_neg (by simp)] at hrun
    obtain ⟨⟨⟩, t'', rfl, hloop⟩ := runs_call.mp hrun
    obtain ⟨card₁, hstep, hafter⟩ := takes_cons.mp hcard
    obtain ⟨card₂, hsay, hturns⟩ := takes_cons.mp hafter
    have hserved : bytes = rest.take catBufferSize ∧
        card₁.Reads .catFsrc file text (rest.drop catBufferSize) := by
      cases hstep with
      | read hreads' =>
        cases hreads.1.symm.trans hreads'.1
        exact ⟨rfl, setHandle_same, hreads.2⟩
      | readFails hfail =>
        rcases hfail with herr | hstale
        · exact absurd rfl herr
        · exact absurd hreads (hstale file text rest)
      | aside hop => exact hop.elim
    have hsame : card₂ = card₁ := by
      cases hsay
      rfl
    subst hsame
    refine ⟨Prod.ext rfl hserved.1, trivial, ?_⟩
    split at hloop
    · exact ih hloop hturns hserved.2 (List.forall_mem_cons.mp hrest).2
    · obtain ⟨rfl, -⟩ := runs_ret.mp hloop
      trivial

/-- On a card with its file, `cat` finds it served when no call fails. -/
theorem cat_onFile {r : Except Stop Unit} (h : Runs (cmdCat fuel [path]) t r)
    (hcard : Takes (Step name) card t card') (hfile : card.files (name path) = some content)
    (hgood : ∀ e ∈ t, ¬ Failed e) : Output.OnFile content t := by
  unfold cmdCat at h
  simp only [fOpen, call_bind, ret_bind, runs_call] at h
  obtain ⟨err, t', rfl, hrun⟩ := h
  obtain ⟨hopen, hothers⟩ := List.forall_mem_cons.mp hgood
  obtain rfl : err = .ok := not_not.mp hopen
  rw [if_neg (by simp)] at hrun
  obtain ⟨card₁, hstep, hrest⟩ := takes_cons.mp hcard
  have hreads : card₁.Reads .catFsrc (name path) content content := by
    cases hstep with
    | openRead hmode hfile' =>
      cases hfile.symm.trans hfile'
      exact ⟨setHandle_same, hfile⟩
    | create hmode => exact absurd hmode (by decide)
    | openReadFails hmode herr => exact absurd rfl herr
    | createFails hmode herr left => exact absurd rfl herr
    | aside hop => exact hop.elim
  refine ⟨rfl, ?_⟩
  rcases runs_bind_any.mp hrun with ⟨e, hloop, -⟩ | ⟨t₁, finished, t₂, hloop, hend, rfl⟩
  · exact catLoop_onFile hloop hrest hreads hothers
  · obtain ⟨card₂, hturns, -⟩ := takes_append.mp hrest
    obtain ⟨hgoodTurns, -⟩ := List.forall_mem_append.mp hothers
    refine follows_append.mpr ⟨catLoop_onFile hloop hturns hreads hgoodTurns, ?_⟩
    apply follows_fixed
    cases finished with
    | true =>
      simp only [if_true, chprintf, fClose, call_bind, ret_bind, pure_eq_ret, runs_call, runs_ret] at hend
      obtain ⟨-, _, rfl, cl, _, rfl, rfl, -⟩ := hend
      simp [Output.Serves, Output.unread]
    | false =>
      obtain ⟨rfl, -⟩ := runs_ret.mp hend
      simp

theorem logText_eq_textOf (h : Runs (cmdGcodetest T fuel regs) t (.ok regs₁)) :
    logText t = textOf ((emitted T regs (handed t)).map fun p => (p.x, p.y)) := by
  rw [logText, (gcodetest_refines h).2.logged, textOf, List.map_map]
  rfl

/-- **Nothing is lost.** Behind a `gcodetest` whose calls for the log succeed, the
x and y that each string read emits are read back from the text of output.log; a
string that is no move emits zeros. -/
theorem log_read_back (h : Runs (cmdGcodetest T fuel regs) t (.ok regs₁))
    (hcard : Takes (Step name) card t card') (hstart : ∀ fp, card.handles fp = none)
    (hgood : ∀ e ∈ t, OnLog e.op → ¬ Failed e) :
    ∃ text, card'.files (name logName) = some text ∧
      (fileLines text).map readRecord = (emitted T regs (handed t)).map fun p => (p.x, p.y) := by
  obtain ⟨hfile, -⟩ := gcodetest_leaves h hcard (not_writes_closed hstart _) hgood
  refine ⟨_, hfile, ?_⟩
  rw [logText_eq_textOf h, textOf_decodes]

/-- **From the job to the screen.** A `cat` of output.log, by any path that names
it and after any commands that leave it alone, returns, and it echoes the records
of what each string read by the last `gcodetest` emits exactly when their text is
shorter than its buffer, as long as no call for the log failed and none of the
`cat`. -/
theorem job_then_cat {cs : List Command} {ts : List Trace} {r : Except Stop Unit}
    {moves : List (Int32 × Int32)} (hjob : Runs (cmdGcodetest T fuel regs) t₁ (.ok regs₁))
    (hmoves : moves = (emitted T regs (handed t₁)).map fun p => (p.x, p.y))
    (hcs : RunsSeq (Command.run T fuel) regs₁ cs ts regs₂) (hcat : Runs (cmdCat fuel' [path]) t₂ r)
    (hcard : Takes (Step name) card (t₁ ++ ts.flatten ++ t₂) card')
    (hstart : ∀ fp, card.handles fp = none) (hpath : name path = name logName)
    (hlog : ∀ e ∈ t₁, OnLog e.op → ¬ Failed e)
    (hkeep : ∀ c ∈ cs, ¬ MayChange name (name logName) c) (hread : ∀ e ∈ t₂, ¬ Failed e)
    (hfuel : (textOf moves).length < fuel') :
    r = .ok () ∧ (Output.Echoes (textOf moves) t₂ ↔ (textOf moves).length < catBufferSize) := by
  obtain ⟨card₂, hfront, hlast⟩ := takes_append.mp hcard
  obtain ⟨card₁, hfirst, hbetween⟩ := takes_append.mp hfront
  obtain ⟨hfile, hw⟩ := gcodetest_leaves hjob hfirst (not_writes_closed hstart _) hlog
  have hkept := session_spares hcs hbetween hw hkeep
  rw [hfile, logText_eq_textOf hjob, ← hmoves, ← hpath] at hkept
  have honfile := cat_onFile hcat hlast hkept hread
  obtain ⟨hr, cl, rfl⟩ := Output.cat_serves hcat honfile hfuel
  exact ⟨hr, Output.catTrace_echoes_iff path cl (nul_notMem_textOf moves)⟩

/-! ## A short log -/

theorem catTrace_runs (fuel : ℕ) (hshort : content.length < catBufferSize) :
    Runs (cmdCat (fuel + 1) [path]) (Output.catTrace path content .ok) (.ok ()) := by
  have hloop : Runs (catLoop (fuel + 1)) (Output.catTurn content) (.ok true) := by
    have hend : ¬ content.length ≥ catBufferSize := by omega
    simp [catLoop, Output.catTurn, say, hend]
  unfold Output.catTrace cmdCat
  rw [chunks_short hshort, List.flatMap_singleton]
  simp only [fOpen, call_bind, ret_bind, List.cons_append, runs_call]
  refine ⟨_, _, rfl, runs_bind.mpr ⟨_, _, _, hloop, ?_, rfl⟩⟩
  simp [say]

theorem catTrace_takes (hshort : content.length < catBufferSize)
    (hfile : card.files (name path) = some content) :
    ∃ card', Takes (Step name) card (Output.catTrace path content .ok) card' := by
  have hopen : Step name card ⟨.fOpen .catFsrc path [.read], FResult.ok⟩
      (card.setHandle .catFsrc (some (.reading (name path) content content))) :=
    .openRead (by decide) hfile
  obtain ⟨card₂, hread, hwrites⟩ : ∃ card₂, Step name
        (card.setHandle .catFsrc (some (.reading (name path) content content)))
        ⟨.fRead .catFsrc catBufferSize, (FResult.ok, content.take catBufferSize)⟩ card₂ ∧
      ∀ file text, card₂.handles .catFsrc ≠ some (.writing file text) :=
    ⟨_, .read ⟨setHandle_same, hfile⟩, by simp⟩
  rw [List.take_of_length_le (by omega)] at hread
  unfold Output.catTrace
  rw [chunks_short hshort, List.flatMap_singleton]
  exact ⟨_, .cons hopen (.cons hread (.cons (.aside trivial) (.cons (.aside trivial)
    (.cons (.closeRead hwrites) (.nil _)))))⟩

theorem catTrace_good (hshort : content.length < catBufferSize) :
    ∀ e ∈ Output.catTrace path content .ok, ¬ Failed e := by
  unfold Output.catTrace
  rw [chunks_short hshort, List.flatMap_singleton]
  simp [Output.catTurn, Failed, say]

/-- What a job that moves in x alone emits. -/
def xMoves : List (Int32 × Int32) := [(1000, 0)]

theorem xMoves_emitted :
    xMoves = (emitted .exact boot (handed xJobRun.1)).map fun p => (p.x, p.y) := by
  have hreads : fileReads xJob = fileLines xJob :=
    (reads_eq_lines_iff (by decide) xJob).mpr (by decide)
  have hhanded := (gcodetest_worksOff xJobRun_runs xJobRun_onFile (by decide)).2.handed
  rw [hhanded, hreads]
  decide +kernel

theorem log_read_back_xJob :
    ∃ text, xJobRun.2.2.files (upper logName) = some text ∧
      (fileLines text).map readRecord = [(1000, 0)] := by
  obtain ⟨text, hfile, hread⟩ := log_read_back xJobRun_runs xJobRun_takes (fun _ => rfl)
    fun e he hop => xJobRun_good e he (.inr hop)
  exact ⟨text, hfile, hread.trans xMoves_emitted.symm⟩

/-- The name of the log in capitals. -/
def capitals : List Char := "OUTPUT.LOG".toList

/-- The job, a `mount`, and a `cat` of the log. -/
theorem job_then_cat_xJob :
    (Except.ok () : Except Stop Unit) = .ok () ∧
      (Output.Echoes (textOf xMoves) (Output.catTrace capitals (textOf xMoves) .ok) ↔
        (textOf xMoves).length < catBufferSize) := by
  have hshort : (textOf xMoves).length < catBufferSize := by decide
  have hpath : upper capitals = upper logName := by decide
  have hlog := fun e he hop => xJobRun_good e he (.inr hop)
  have hclosed : ∀ fp, xJobRun.2.2.handles fp = none :=
    command_closes (c := .gcodetest) xJobRun_runs xJobRun_takes fun _ => rfl
  have hfile := (gcodetest_leaves xJobRun_runs xJobRun_takes
    (not_writes_closed (fun _ => rfl) _) hlog).1
  rw [logText_eq_textOf xJobRun_runs, ← xMoves_emitted, ← hpath] at hfile
  obtain ⟨card', hcat⟩ := catTrace_takes hshort hfile
  have hcard : Takes (Step upper) (jobOnly xJob)
      (xJobRun.1 ++ [mounted].flatten ++ Output.catTrace capitals (textOf xMoves) .ok) card' :=
    takes_append.mpr ⟨_, takes_append.mpr ⟨_, xJobRun_takes, mounted_takes hclosed⟩, hcat⟩
  exact job_then_cat xJobRun_runs xMoves_emitted (mounted_runs .exact 8 xRegs)
    (catTrace_runs catBufferSize hshort) hcard (fun _ => rfl) hpath hlog
    (List.forall_mem_singleton.mpr id) (catTrace_good hshort) (by decide)

end GcodeFatfs.LogText
