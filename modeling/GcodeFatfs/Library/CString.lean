import GcodeFatfs.Library.CArith
import Mathlib.Data.List.Induction
import Mathlib.Data.List.TakeWhile

/-! The C library functions on strings: `strlen`-style reading of a buffer,
`strtok_r`, `strtol` in base 10 and `strtod`. A buffer is a list of characters
and the string it holds ends before the first NUL. -/

namespace GcodeFatfs.CString
open GcodeFatfs.CArith

def nul : Char := Char.ofNat 0

/-- The string a buffer holds. -/
def cstr (buf : List Char) : List Char := buf.takeWhile (· ≠ nul)

theorem cstr_append_nul {s : List Char} (h : nul ∉ s) (rest : List Char) :
    cstr (s ++ nul :: rest) = s := by
  have hs : ∀ c ∈ s, decide (c ≠ nul) = true := by
    intro c hc
    simpa using fun he : c = nul => h (he ▸ hc)
  unfold cstr
  rw [List.takeWhile_append_of_pos hs]
  simp

/-- `s[0]`, the terminating NUL when the string is empty. -/
def first (s : List Char) : Char := s.headD nul

def isspace (c : Char) : Bool :=
  c ∈ [' ', '\t', '\n', Char.ofNat 11, Char.ofNat 12, '\r']

/-! ## Tokens -/

def isDelim (delim : List Char) (c : Char) : Bool := delim.contains c

/-- One call of `strtok_r`: the next token and the text where the call after it
resumes. -/
def strtokR (delim s : List Char) : Option (List Char × List Char) :=
  match s.dropWhile (isDelim delim) with
  | [] => none
  | c :: cs => some ((c :: cs).takeWhile (!isDelim delim ·),
      ((c :: cs).dropWhile (!isDelim delim ·)).drop 1)

/-- All tokens of a string: its nonempty pieces between delimiters. -/
def tokens (delim s : List Char) : List (List Char) :=
  (s.splitOnP (isDelim delim)).filter (· ≠ [])

theorem tokens_cons_delim (delim : List Char) {c : Char} (hc : isDelim delim c) (s : List Char) :
    tokens delim (c :: s) = tokens delim s := by
  simp [tokens, List.splitOnP_cons_eq_if_modifyHead, hc]

/-- A delimiter parts the tokens. -/
theorem tokens_append (delim s s' : List Char) {c : Char} (hc : isDelim delim c) :
    tokens delim (s ++ c :: s') = tokens delim s ++ tokens delim s' := by
  have hsplit : (s ++ c :: s').splitOnP (isDelim delim) =
      s.splitOnP (isDelim delim) ++ s'.splitOnP (isDelim delim) := by
    induction s with
    | nil => simp [List.splitOnP_cons_eq_if_modifyHead, hc]
    | cons x s ih =>
      rw [List.cons_append, List.splitOnP_cons_eq_if_modifyHead,
        List.splitOnP_cons_eq_if_modifyHead, ih]
      cases hs : s.splitOnP (isDelim delim) with
      | nil => exact absurd hs (List.splitOnP_ne_nil _ _)
      | cons w ws => split <;> rfl
  simp [tokens, hsplit]

theorem tokens_singleton {delim s : List Char} (hs : s ≠ []) (hd : ∀ c ∈ s, isDelim delim c = false) :
    tokens delim s = [s] := by
  simp [tokens, List.splitOnP_eq_singleton hd, hs]

theorem tokens_dropWhile (delim s : List Char) :
    tokens delim (s.dropWhile (isDelim delim)) = tokens delim s := by
  induction s with
  | nil => rfl
  | cons c s ih =>
    by_cases hc : isDelim delim c
    · rw [List.dropWhile_cons_of_pos hc, ih, tokens_cons_delim delim hc]
    · rw [List.dropWhile_cons_of_neg hc]

/-- A word in front of the end or of a delimiter is the first token. -/
theorem tokens_word (delim s : List Char) (hs : s.takeWhile (!isDelim delim ·) ≠ []) :
    tokens delim s =
      s.takeWhile (!isDelim delim ·) ::
        tokens delim ((s.dropWhile (!isDelim delim ·)).drop 1) := by
  have hword : ∀ c ∈ s.takeWhile (!isDelim delim ·), isDelim delim c = false := by
    intro c hc
    simpa using List.mem_takeWhile_imp hc
  have hsplit := List.takeWhile_append_dropWhile (p := (!isDelim delim ·)) (l := s)
  cases hd : s.dropWhile (!isDelim delim ·) with
  | nil =>
    rw [hd, List.append_nil] at hsplit
    rw [hsplit] at hword hs ⊢
    simp [tokens, List.splitOnP_eq_singleton hword, hs]
  | cons c rest =>
    have hc : isDelim delim c := by
      have hh := List.head_dropWhile_not (!isDelim delim ·) (l := s) (by simp [hd])
      simpa [hd] using hh
    have hsp := List.splitOnP_append_cons_of_forall_mem hword c hc rest
    rw [← hd, hsplit] at hsp
    simp only [tokens, hsp, List.drop_succ_cons, List.drop_zero]
    rw [List.filter_cons_of_pos (by simpa using hs)]

/-- A string that starts with a character of a word has a first token, which
starts with it. -/
theorem tokens_of_first {delim s : List Char} (hnul : first s ≠ nul)
    (hd : isDelim delim (first s) = false) :
    ∃ token ts, tokens delim s = token :: ts ∧ first token = first s := by
  cases s with
  | nil => exact absurd rfl hnul
  | cons c cs =>
    change isDelim delim c = false at hd
    refine ⟨_, _, tokens_word delim (c :: cs) (by simp [hd]), ?_⟩
    simp [first, hd]

/-- What is written behind a string without a delimiter goes to its last word,
or is a word of its own behind a delimiter. -/
theorem tokens_append_word (delim s : List Char) :
    ∃ ts w, (∀ c ∈ w, isDelim delim c = false) ∧ tokens delim s = ts ++ tokens delim w ∧
      (w = [] ↔ ∀ c ∈ s.getLast?, isDelim delim c = true) ∧
      ∀ v ≠ [], (∀ c ∈ v, isDelim delim c = false) → tokens delim (s ++ v) = ts ++ [w ++ v] := by
  induction s using List.reverseRecOn with
  | nil => exact ⟨[], [], by simp, by simp, by simp, fun v hv hd => tokens_singleton hv hd⟩
  | append_singleton s x ih =>
    obtain ⟨ts, w, hw, hts, -, hv⟩ := ih
    cases hx : isDelim delim x with
    | true =>
      have hsplit (v : List Char) : tokens delim (s ++ [x] ++ v) =
          tokens delim s ++ tokens delim v := by
        rw [List.append_assoc]
        exact tokens_append delim s v hx
      refine ⟨tokens delim s, [], by simp, ?_, by simp [hx], ?_⟩
      · simpa using hsplit []
      · intro v hne hd
        rw [hsplit, tokens_singleton hne hd, List.nil_append]
    | false =>
      have hwx : ∀ c ∈ w ++ [x], isDelim delim c = false := by
        intro c hc
        rcases List.mem_append.mp hc with hc | hc
        · exact hw c hc
        · rw [List.mem_singleton.mp hc, hx]
      refine ⟨ts, w ++ [x], hwx, ?_, by simp [hx], ?_⟩
      · rw [tokens_singleton (by simp) hwx]
        exact hv [x] (by simp) (by simpa using hx)
      · intro v _ hd
        rw [List.append_assoc, List.append_assoc]
        exact hv (x :: v) (by simp) (by simpa [hx] using hd)

/-- `strtok_r` finds nothing exactly when no token is left. -/
theorem strtokR_none {delim s : List Char} (h : strtokR delim s = none) : tokens delim s = [] := by
  unfold strtokR at h
  cases hd : s.dropWhile (isDelim delim) with
  | nil => rw [← tokens_dropWhile, hd]; rfl
  | cons c cs => simp [hd] at h

/-- `strtok_r` takes the first token and leaves the others. -/
theorem strtokR_some {delim s token rest : List Char} (h : strtokR delim s = some (token, rest)) :
    tokens delim s = token :: tokens delim rest := by
  unfold strtokR at h
  cases hd : s.dropWhile (isDelim delim) with
  | nil => simp [hd] at h
  | cons c cs =>
    simp only [hd, Option.some.injEq, Prod.mk.injEq] at h
    obtain ⟨rfl, rfl⟩ := h
    have hc : isDelim delim c = false := by
      have hh := List.head_dropWhile_not (isDelim delim) (l := s) (by simp [hd])
      simpa [hd] using hh
    rw [← tokens_dropWhile, hd]
    apply tokens_word
    simp [hc]

/-! ## Numbers -/

def digitVal (c : Char) : Option Nat :=
  if '0' ≤ c ∧ c ≤ '9' then some (c.toNat - '0'.toNat)
  else if 'a' ≤ c ∧ c ≤ 'z' then some (c.toNat - 'a'.toNat + 10)
  else if 'A' ≤ c ∧ c ≤ 'Z' then some (c.toNat - 'A'.toNat + 10)
  else none

/-- The digits of base `b` in front of a string, and what follows them. -/
def takeDigits (b : Nat) : List Char → List Nat × List Char
  | [] => ([], [])
  | c :: cs =>
    match digitVal c with
    | some d =>
      if d < b then
        let (ds, rest) := takeDigits b cs
        (d :: ds, rest)
      else ([], c :: cs)
    | none => ([], c :: cs)

def ofDigits (b : Nat) (ds : List Nat) : Nat := ds.foldl (fun n d => n * b + d) 0

/-- An optional sign: whether it is a minus, and what follows it. -/
def takeSign : List Char → Bool × List Char
  | '-' :: s => (true, s)
  | '+' :: s => (false, s)
  | s => (false, s)

/-- `strtol(s, NULL, 10)`: the number in front of the string, 0 when there is
none, held at the ends of the `long` range when it lies outside. -/
def strtol (s : List Char) : Int32 :=
  let (neg, s) := takeSign (s.dropWhile isspace)
  let n : ℤ := ofDigits 10 (takeDigits 10 s).1
  Int32.ofInt (max int32Min (min int32Max (if neg then -n else n)))

/-- An exponent: one of the letters `es`, an optional sign and at least one
digit; 0 when the text is anything else. -/
def exponent (es : List Char) : List Char → ℤ
  | [] => 0
  | c :: s =>
    let (neg, s) := takeSign s
    if c ∈ es then
      let n : ℤ := ofDigits 10 (takeDigits 10 s).1
      if neg then -n else n
    else 0

/-- A number of base `b` with an optional point and an optional exponent of
`expBase`, each digit after the point scaling by `expBase ^ perDigit`. `none`
without a digit. -/
def unsignedReal (b expBase perDigit : Nat) (es s : List Char) : Option ℚ :=
  let (ip, r) := takeDigits b s
  let (fp, r) := match r with
    | '.' :: r' => takeDigits b r'
    | _ => ([], r)
  if ip = [] ∧ fp = [] then none
  else some (ofDigits b (ip ++ fp) * (expBase : ℚ) ^ (exponent es r - perDigit * fp.length))

def startsWith (word : List Char) (s : List Char) : Bool := word.isPrefixOf (s.map Char.toLower)

/-- `strtod(s, NULL)`: a decimal or hexadecimal number, an infinity or a NaN in
front of the string, rounded by `fl`; 0 when there is none. -/
def strtod (fl : ℚ → Double) (s : List Char) : Double :=
  let (neg, s) := takeSign (s.dropWhile isspace)
  let signed (q : ℚ) : Double := fl (if neg then -q else q)
  if startsWith ['i', 'n', 'f'] s then .inf neg
  else if startsWith ['n', 'a', 'n'] s then .nan
  else
    match if startsWith ['0', 'x'] s then unsignedReal 16 2 4 ['p', 'P'] (s.drop 2) else none with
    | some q => signed q
    | none => signed ((unsignedReal 10 10 1 ['e', 'E'] s).getD 0)

example : strtol ['-', '2', '5', '\n'] = -25 := by decide
example : strtod .fin ['-', '.', '5', 'e', '1', 'x'] = .fin (-5) := by decide +kernel

/-! ## A newline behind a number -/

theorem takeSign_newline (s : List Char) :
    takeSign (s ++ ['\n']) = ((takeSign s).1, (takeSign s).2 ++ ['\n']) := by
  match s with
  | [] => rfl
  | c :: s =>
    show takeSign (c :: (s ++ ['\n'])) = _
    unfold takeSign
    split <;> simp_all

theorem takeDigits_newline (b : Nat) (s : List Char) :
    takeDigits b (s ++ ['\n']) = ((takeDigits b s).1, (takeDigits b s).2 ++ ['\n']) := by
  induction s with
  | nil => rfl
  | cons c s ih =>
    rw [List.cons_append, takeDigits, takeDigits]
    split
    · split
      · rw [ih]
      · rfl
    · rfl

/-- Blanks in front are passed over, and with nothing else there the newline is. -/
theorem dropWhile_newline (s : List Char) :
    (s ++ ['\n']).dropWhile isspace =
      if s.dropWhile isspace = [] then [] else s.dropWhile isspace ++ ['\n'] := by
  rw [List.dropWhile_append]
  cases hd : s.dropWhile isspace with
  | nil => rfl
  | cons c cs => rfl

theorem strtol_newline (s : List Char) : strtol (s ++ ['\n']) = strtol s := by
  unfold strtol
  rw [dropWhile_newline]
  by_cases hd : s.dropWhile isspace = []
  · rw [if_pos hd, hd]
  · rw [if_neg hd, takeSign_newline]
    simp only [takeDigits_newline]

theorem exponent_newline {es : List Char} (hes : '\n' ∉ es) (s : List Char) :
    exponent es (s ++ ['\n']) = exponent es s := by
  cases s with
  | nil => simp [exponent, hes]
  | cons c s =>
    show exponent es (c :: (s ++ ['\n'])) = _
    unfold exponent
    simp only [takeSign_newline, takeDigits_newline]

theorem unsignedReal_newline (b expBase perDigit : Nat) {es : List Char} (hes : '\n' ∉ es)
    (s : List Char) :
    unsignedReal b expBase perDigit es (s ++ ['\n']) = unsignedReal b expBase perDigit es s := by
  unfold unsignedReal
  rw [takeDigits_newline]
  generalize takeDigits b s = p
  obtain ⟨ip, r⟩ := p
  by_cases hp : ∃ r', r = '.' :: r'
  · obtain ⟨r', rfl⟩ := hp
    simp only [List.cons_append, takeDigits_newline, exponent_newline hes]
  · have hp' : ¬ ∃ r', r ++ ['\n'] = '.' :: r' := by
      cases r with
      | nil => simp
      | cons c r => simpa using hp
    have hmatch {t : List Char} (ht : ¬ ∃ r', t = '.' :: r') :
        (match t with
          | '.' :: r' => takeDigits b r'
          | _ => ([], t)) = ([], t) := by
      split
      · exact absurd ⟨_, rfl⟩ ht
      · rfl
    simp only [hmatch hp, hmatch hp', exponent_newline hes]

theorem startsWith_newline {word : List Char} (hword : '\n' ∉ word) (s : List Char) :
    startsWith word (s ++ ['\n']) = startsWith word s := by
  induction word generalizing s with
  | nil => simp [startsWith]
  | cons w word ih =>
    obtain ⟨hw, hrest⟩ : ¬ '\n' = w ∧ '\n' ∉ word := by simpa using hword
    cases s with
    | nil =>
      have hne : (w == '\n') = false := by simpa using fun h : w = '\n' => hw h.symm
      simp [startsWith, List.isPrefixOf, hne]
    | cons c s =>
      have := ih hrest s
      simp_all [startsWith, List.isPrefixOf]

theorem strtod_newline (fl : ℚ → Double) (s : List Char) :
    strtod fl (s ++ ['\n']) = strtod fl s := by
  unfold strtod
  rw [dropWhile_newline]
  by_cases hd : s.dropWhile isspace = []
  · rw [if_pos hd, hd]
  · rw [if_neg hd, takeSign_newline]
    generalize takeSign (s.dropWhile isspace) = p
    obtain ⟨neg, t⟩ := p
    have hhex : (if startsWith ['0', 'x'] t then
          unsignedReal 16 2 4 ['p', 'P'] ((t ++ ['\n']).drop 2) else none) =
        if startsWith ['0', 'x'] t then unsignedReal 16 2 4 ['p', 'P'] (t.drop 2) else none := by
      match t with
      | [] => rfl
      | [c] => simp [startsWith, List.isPrefixOf]
      | c :: d :: t =>
        show (if _ then unsignedReal 16 2 4 ['p', 'P'] (t ++ ['\n']) else none) =
          if _ then unsignedReal 16 2 4 ['p', 'P'] t else none
        rw [unsignedReal_newline 16 2 4 (by decide)]
    simp only [startsWith_newline (show '\n' ∉ ['i', 'n', 'f'] by decide),
      startsWith_newline (show '\n' ∉ ['n', 'a', 'n'] by decide),
      startsWith_newline (show '\n' ∉ ['0', 'x'] by decide),
      unsignedReal_newline 10 10 1 (show '\n' ∉ ['e', 'E'] by decide), hhex]

/-! ## Words behind one another -/

/-- Words written behind a text, each with a delimiter in front of it. -/
theorem tokens_append_words {delim : List Char} {d : Char} (hd : isDelim delim d) (s : List Char)
    (ws : List (List Char)) (hws : ∀ w ∈ ws, w ≠ [] ∧ ∀ c ∈ w, isDelim delim c = false) :
    tokens delim (s ++ ws.flatMap (d :: ·)) = tokens delim s ++ ws := by
  induction ws generalizing s with
  | nil => simp
  | cons w ws ih =>
    obtain ⟨⟨hne, hw⟩, hrest⟩ := List.forall_mem_cons.mp hws
    rw [List.flatMap_cons, List.cons_append, tokens_append delim s _ hd, ih w hrest,
      tokens_singleton hne hw]
    rfl

end GcodeFatfs.CString
