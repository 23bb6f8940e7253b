import GcodeFatfs.CommandRuns
import GcodeFatfs.Library.Lines

/-! What two commands put on the shell's stream: `cat`, the bytes of a file as
texts, and `free`, three figures about the volume. -/

namespace GcodeFatfs.Output
open GcodeFatfs.Interact GcodeFatfs.Lines GcodeFatfs.CString GcodeFatfs.Board
open GcodeFatfs.FatCommands

/-! ## Texts on the stream -/

/-- What a `%s` prints; nothing can be said where it is given a buffer without a
NUL, or no text. -/
def renderArg : Arg → Option (List Char)
  | .str s => some s
  | .text s => some s.toList
  | .buf mem => if nul ∈ mem then some (cstr mem) else none
  | .int _ | .addr _ => none

/-- What a format of texts prints. -/
def render : (fmt : List Char) → (args : List Arg) → Option (List Char)
  | [], _ => some []
  | '%' :: 's' :: fmt, arg :: args => do
    let s ← renderArg arg
    let rest ← render fmt args
    pure (s ++ rest)
  | '%' :: _, _ => none
  | c :: fmt, args => (render fmt args).map (c :: ·)

/-- All that the stream is given in a run. -/
def output : Trace → Option (List Char)
  | [] => some []
  | ⟨.chprintf m, _⟩ :: t => do
    let s ← render m.fmt.toList m.args
    let rest ← output t
    pure (s ++ rest)
  | _ :: t => output t

/-! ## The file that `cat` reads -/

/-- What of the file is left to read after an event. -/
def unread (rest : List Char) : Event → List Char
  | ⟨.fRead .catFsrc btr, _⟩ => rest.drop btr
  | _ => rest

/-- The answers about the file when it is there to be read: `f_read` gives the
bytes asked for, or those that are left. -/
def Serves (rest : List Char) : Event → Prop
  | ⟨.fRead .catFsrc btr, got⟩ => got = (.ok, rest.take btr)
  | ⟨.fOpen .catFsrc _ _, err⟩ => err = .ok
  | _ => True

/-- A run in which the file of `cat` is opened and holds `content`. -/
abbrev OnFile (content : List Char) (t : Trace) : Prop := Follows unread Serves content t

/-- A card with the file on it, where every call succeeds. -/
def catCard : Env Op Res (List Char)
  | rest, .fRead .catFsrc btr => ((.ok, rest.take btr), rest.drop btr)
  | rest, op => (success op, rest)

theorem catCard_onFile {ε α : Type} (p : Prog Op Res ε α) (content : List Char) :
    OnFile content (exec catCard p content).1 := by
  refine exec_follows (fun rest op => ?_) p content
  cases op with
  | fRead fp btr => cases fp <;> exact ⟨by simp [Serves, catCard], rfl⟩
  | fOpen fp path mode => cases fp <;> exact ⟨by simp [Serves, catCard, success], rfl⟩
  | _ => exact ⟨trivial, rfl⟩

/-- The events of one turn of the loop of `cmd_cat`. -/
def catTurn (bytes : List Char) : Trace :=
  [⟨.fRead .catFsrc catBufferSize, (FResult.ok, bytes)⟩, say "%s" [.buf (catBuffer bytes)]]

variable {content : List Char} {fuel : ℕ} {t : Trace}

/-- The loop reads the file in pieces of the buffer's size, up to a shorter one,
and prints the buffer after each. -/
theorem catLoop_serves {r : Except Stop Bool} (h : Runs (catLoop fuel) t r)
    (hfile : OnFile content t) (hfuel : content.length < fuel) :
    r = .ok true ∧ t = (chunks catBufferSize content).flatMap catTurn := by
  induction fuel generalizing content t with
  | zero => omega
  | succ fuel ih =>
    unfold catLoop at h
    simp only [fRead, chprintf, call_bind, ret_bind, runs_call] at h
    obtain ⟨⟨err, bytes⟩, t', rfl, h⟩ := h
    obtain ⟨hserves, hfile⟩ := follows_cons.mp hfile
    obtain ⟨rfl, rfl⟩ := Prod.mk.inj (show (err, bytes) = (.ok, content.take catBufferSize) from hserves)
    simp only [ne_eq, not_true_eq_false, if_false, runs_chprintf] at h
    obtain ⟨t', rfl, h⟩ := h
    have hrest : OnFile (content.drop catBufferSize) t' := (follows_cons.mp hfile).2
    have hsize : (0 : ℕ) < catBufferSize := by decide
    by_cases hlong : catBufferSize ≤ content.length
    · have hfull : (content.take catBufferSize).length ≥ catBufferSize := by
        rw [List.length_take]
        omega
      rw [if_pos hfull] at h
      obtain ⟨hr, rfl⟩ := ih h hrest (by rw [List.length_drop]; omega)
      rw [chunks_long hsize hlong, List.flatMap_cons]
      exact ⟨hr, rfl⟩
    · have hshort : ¬ (content.take catBufferSize).length ≥ catBufferSize := by
        rw [List.length_take]
        omega
      rw [if_neg hshort] at h
      obtain ⟨rfl, rfl⟩ := runs_ret.mp h
      rw [chunks_short (by omega), List.take_of_length_le (by omega)]
      exact ⟨rfl, rfl⟩

/-- A `cat` from its `f_open` to its `f_close`. -/
def catTrace (arg content : List Char) (cl : FResult) : Trace :=
  ⟨.fOpen .catFsrc arg [.read], FResult.ok⟩ ::
    (chunks catBufferSize content).flatMap catTurn ++ [say "\r\n", ⟨.fClose .catFsrc, cl⟩]

theorem cat_serves {arg : List Char} {r : Except Stop Unit} (h : Runs (cmdCat fuel [arg]) t r)
    (hfile : OnFile content t) (hfuel : content.length < fuel) :
    r = .ok () ∧ ∃ cl, t = catTrace arg content cl := by
  unfold cmdCat at h
  simp only [fOpen, call_bind, ret_bind, runs_call] at h
  obtain ⟨err, t', rfl, h⟩ := h
  obtain rfl : err = .ok := (follows_cons.mp hfile).1
  have hloop : OnFile content t' := (follows_cons.mp hfile).2
  rw [if_neg (by simp)] at h
  rcases runs_bind_any.mp h with ⟨e, h₁, rfl⟩ | ⟨t₁, finished, t₂, h₁, h₂, rfl⟩
  · obtain ⟨hr, -⟩ := catLoop_serves h₁ hloop hfuel
    cases hr
  · obtain ⟨hr, rfl⟩ := catLoop_serves h₁ (follows_append.mp hloop).1 hfuel
    obtain rfl := Except.ok.inj hr
    simp only [if_true, chprintf, fClose, call_bind, ret_bind, runs_call, pure_eq_ret,
      runs_ret] at h₂
    obtain ⟨-, t', rfl, cl, t'', rfl, rfl, rfl⟩ := h₂
    exact ⟨rfl, cl, rfl⟩

/-- The run of a `cat` echoes the file: every buffer it prints holds a text, and
the stream is given the bytes of the file in order and an end of line. -/
def Echoes (content : List Char) (t : Trace) : Prop :=
  (∀ mem, say "%s" [.buf mem] ∈ t → nul ∈ mem) ∧ output t = some (content ++ ['\r', '\n'])

theorem catBuffer_short {bytes : List Char} (h : bytes.length < catBufferSize) :
    ∃ rest, catBuffer bytes = bytes ++ nul :: rest := by
  obtain ⟨k, hk⟩ : ∃ k, catBufferSize - bytes.length = k + 1 :=
    ⟨catBufferSize - bytes.length - 1, by omega⟩
  refine ⟨List.replicate k nul, ?_⟩
  rw [catBuffer, hk, List.replicate_succ]

theorem catTrace_echoes_iff (arg : List Char) (cl : FResult) (hnul : nul ∉ content) :
    Echoes content (catTrace arg content cl) ↔ content.length < catBufferSize := by
  unfold catTrace
  constructor
  · rintro ⟨hterm, -⟩
    by_contra hlong
    -- the first buffer is full
    have hbytes : catBuffer (content.take catBufferSize) = content.take catBufferSize := by
      rw [catBuffer, List.length_take, Nat.min_eq_left (by omega), Nat.sub_self]
      simp
    have hfirst := hterm (content.take catBufferSize) (by
      rw [chunks_long (by decide) (by omega), List.flatMap_cons, catTurn, hbytes]
      simp)
    exact hnul (List.mem_of_mem_take hfirst)
  · intro hshort
    obtain ⟨rest, hbuf⟩ := catBuffer_short hshort
    rw [chunks_short hshort, List.flatMap_singleton, catTurn, hbuf]
    constructor
    · intro mem hmem
      have hmem' : mem = content ++ nul :: rest := by simpa [say] using hmem
      rw [hmem']
      simp
    · have htext : renderArg (.buf (content ++ nul :: rest)) = some content := by
        rw [renderArg, if_pos (by simp), cstr_append_nul hnul]
      simp [output, render, say, htext]

/-- **`cat`.** A `cat` of a file without a NUL returns, and it echoes the file
exactly when the file is shorter than the buffer, which leaves room for a NUL. -/
theorem cat_echoes_iff {arg : List Char} {r : Except Stop Unit} (h : Runs (cmdCat fuel [arg]) t r)
    (hfile : OnFile content t) (hnul : nul ∉ content) (hfuel : content.length < fuel) :
    r = .ok () ∧ (Echoes content t ↔ content.length < catBufferSize) := by
  obtain ⟨hr, cl, rfl⟩ := cat_serves h hfile hfuel
  exact ⟨hr, catTrace_echoes_iff arg cl hnul⟩

/-- A `cat` on a card with its file. -/
def catRun (content : List Char) : Trace × Except Stop Unit × List Char :=
  exec catCard (cmdCat (content.length + 1) [['f']]) content

theorem catRun_runs (content : List Char) :
    Runs (cmdCat (content.length + 1) [['f']]) (catRun content).1 (catRun content).2.1 ∧
      OnFile content (catRun content).1 :=
  ⟨exec_runs _ _ _, catCard_onFile _ _⟩

theorem catRun_trace (content : List Char) :
    ∃ cl, (catRun content).1 = catTrace ['f'] content cl :=
  (cat_serves (catRun_runs content).1 (catRun_runs content).2 (Nat.lt_succ_self _)).2

theorem cat_echoes_iff_shortFile :
    (catRun "G1 X5\n".toList).2.1 = .ok () ∧ (Echoes "G1 X5\n".toList (catRun "G1 X5\n".toList).1 ↔
      "G1 X5\n".toList.length < catBufferSize) :=
  cat_echoes_iff (catRun_runs _).1 (catRun_runs _).2 (by decide) (Nat.lt_succ_self _)

/-- A file as long as the buffer. -/
def fullFile : List Char := List.replicate catBufferSize 'a'

/-- The buffer is printed without a NUL in it. -/
theorem fullFile_not_echoed :
    (Runs (cmdCat (fullFile.length + 1) [['f']]) (catRun fullFile).1 (catRun fullFile).2.1 ∧
      OnFile fullFile (catRun fullFile).1) ∧
    nul ∉ fullFile ∧ ¬ Echoes fullFile (catRun fullFile).1 := by
  have hnul : nul ∉ fullFile := fun h => absurd (List.eq_of_mem_replicate h) (by decide)
  have hlength : fullFile.length = catBufferSize := List.length_replicate
  obtain ⟨cl, ht⟩ := catRun_trace fullFile
  refine ⟨catRun_runs fullFile, hnul, ?_⟩
  rw [ht, catTrace_echoes_iff ['f'] cl hnul, hlength]
  exact Nat.lt_irrefl _

/-! ## The figures of `free` -/

def figureFmts : List String := ["%lu B free\r\n", "%lu KB free\r\n", "%lu MB free\r\n"]

/-- The figures a run prints about free space, in order. -/
def figures (t : Trace) : List ℤ :=
  t.filterMap fun e => match e.op with
    | .chprintf ⟨fmt, [.int n]⟩ => if fmt ∈ figureFmts then some n else none
    | _ => none

/-- The free bytes of a volume with sectors of 512 bytes. -/
def freeBytes (clusters : UInt32) (csize : UInt8) : ℕ := clusters.toNat * csize.toNat * 512

/-- The products wrap at 32 bits before they are divided. -/
theorem free_runs {r : Except Stop Unit} (h : Runs cmdFree t r) {clusters : UInt32}
    {csize : UInt8} (hans : ⟨.fGetfree ['/'], (FResult.ok, clusters, csize)⟩ ∈ t) :
    r = .ok () ∧ figures t =
      [((freeBytes clusters csize % 2 ^ 32 : ℕ) : ℤ),
        ((freeBytes clusters csize % 2 ^ 32 / 1024 : ℕ) : ℤ),
        ((freeBytes clusters csize % 2 ^ 32 / (1024 * 1024) : ℕ) : ℤ)] := by
  unfold cmdFree at h
  simp only [fGetfree, call_bind, ret_bind, runs_call] at h
  obtain ⟨⟨err, c, n⟩, t', rfl, h⟩ := h
  simp only at h
  split at h
  · rename_i herr
    simp only [chprintf, runs_chprintf, runs_ret] at h
    obtain ⟨t', rfl, rfl, rfl⟩ := h
    have hok : FResult.ok = err ∧ clusters = c ∧ csize = n := by simpa using hans
    exact absurd hok.1.symm herr
  · simp only [chprintf, call_bind, ret_bind, runs_chprintf, runs_ret] at h
    obtain ⟨_, rfl, _, rfl, _, rfl, _, rfl, rfl, rfl⟩ := h
    obtain ⟨-, rfl, rfl⟩ : FResult.ok = err ∧ clusters = c ∧ csize = n := by simpa using hans
    have hbytes : (clusters * csize.toUInt32 * mmcsdBlockSize).toNat =
        freeBytes clusters csize % 2 ^ 32 := by
      simp [freeBytes, mmcsdBlockSize]
    refine ⟨rfl, ?_⟩
    simp [figures, figureFmts, hbytes, UInt32.toNat_div]

/-- The figures are the free bytes, kilobytes and megabytes. -/
def FiguresExact (clusters : UInt32) (csize : UInt8) (t : Trace) : Prop :=
  figures t = [(freeBytes clusters csize : ℤ), ((freeBytes clusters csize / 1024 : ℕ) : ℤ),
    ((freeBytes clusters csize / 1048576 : ℕ) : ℤ)]

/-- **`free`.** When `f_getfree` succeeds, `free` returns, and its figures are
exact if and only if there are fewer than 2^32 bytes free. -/
theorem free_exact_iff {r : Except Stop Unit} (h : Runs cmdFree t r) (clusters : UInt32)
    (csize : UInt8) (hans : ⟨.fGetfree ['/'], (FResult.ok, clusters, csize)⟩ ∈ t) :
    r = .ok () ∧ (FiguresExact clusters csize t ↔ freeBytes clusters csize < 2 ^ 32) := by
  obtain ⟨hr, hfigures⟩ := free_runs h hans
  refine ⟨hr, ?_⟩
  unfold FiguresExact
  rw [hfigures]
  constructor
  · intro hexact
    have hbytes : freeBytes clusters csize % 2 ^ 32 = freeBytes clusters csize := by
      exact_mod_cast (List.cons.inj hexact).1
    rw [← hbytes]
    exact Nat.mod_lt _ (by decide)
  · intro hlt
    rw [Nat.mod_eq_of_lt hlt]

/-- A card with free clusters of a size, where every call succeeds. -/
def freeCard (clusters : UInt32) (csize : UInt8) : Env Op Res Unit
  | _, .fGetfree _ => ((.ok, clusters, csize), ())
  | _, op => (success op, ())

theorem freeCard_answers (clusters : UInt32) (csize : UInt8) :
    ⟨.fGetfree ['/'], (FResult.ok, clusters, csize)⟩ ∈
      (exec (freeCard clusters csize) cmdFree ()).1 :=
  List.mem_cons_self

theorem free_exact_iff_smallCard :
    (exec (freeCard 1000 8) cmdFree ()).2.1 = .ok () ∧
      (FiguresExact 1000 8 (exec (freeCard 1000 8) cmdFree ()).1 ↔ freeBytes 1000 8 < 2 ^ 32) :=
  free_exact_iff (exec_runs _ _ _) 1000 8 (freeCard_answers 1000 8)

/-- With 2097152 clusters of 8 sectors free, 8 GiB, all three figures are 0. -/
theorem eightGiB_wraps :
    Runs cmdFree (exec (freeCard 2097152 8) cmdFree ()).1
        (exec (freeCard 2097152 8) cmdFree ()).2.1 ∧
      ⟨.fGetfree ['/'], (FResult.ok, 2097152, 8)⟩ ∈ (exec (freeCard 2097152 8) cmdFree ()).1 ∧
      freeBytes 2097152 8 = 8 * 2 ^ 30 ∧
      figures (exec (freeCard 2097152 8) cmdFree ()).1 = [0, 0, 0] ∧
      ¬ FiguresExact 2097152 8 (exec (freeCard 2097152 8) cmdFree ()).1 := by
  have hbytes : freeBytes 2097152 8 = 8 * 2 ^ 30 := by decide
  have hfigures : figures (exec (freeCard 2097152 8) cmdFree ()).1 = [0, 0, 0] := by
    rw [(free_runs (exec_runs _ _ _) (freeCard_answers 2097152 8)).2, hbytes]
    decide
  refine ⟨exec_runs _ _ _, freeCard_answers _ _, hbytes, hfigures, ?_⟩
  unfold FiguresExact
  rw [hfigures, hbytes]
  decide

end GcodeFatfs.Output
