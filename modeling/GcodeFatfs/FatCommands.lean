import GcodeFatfs.Board

/-! The shell commands of fat.c. `argv` is the list of the arguments typed, so
`argc` is its length. A loop or a recursion takes a bound on its turns and stops
with `Stop.fuel` when it is used up. -/

namespace GcodeFatfs.FatCommands
open GcodeFatfs.Interact GcodeFatfs.CString GcodeFatfs.Board

/-! ## `scan_files` -/

def amDir : UInt8 := 0x10

/-- `path[i] = c;` -/
def store (path : List Char) (i : ℕ) (c : Char) : Shell (List Char) :=
  if i < path.length then pure (path.set i c) else .fail .bounds

/-- `strcpy(&path[i], s);` -/
def strcpyAt (path : List Char) (i : ℕ) : List Char → Shell (List Char)
  | [] => store path i nul
  | c :: s => do
    let path ← store path i c
    strcpyAt path (i + 1) s

/-- The date and the time of a directory entry, taken apart. -/
def dateArgs (fno : FilInfo) : List Arg :=
  [.int (((0xFE00 &&& fno.fdate) >>> 9).toNat + 1980),
   .int ((0x01E0 &&& fno.fdate) >>> 5).toNat,
   .int (0x001F &&& fno.fdate).toNat,
   .int ((0xF800 &&& fno.ftime) >>> 11).toNat,
   .int ((0x07E0 &&& fno.ftime) >>> 5).toNat,
   .int ((0x001F &&& fno.ftime).toNat * 2)]

mutual

/-- `scan_files`, with the path buffer it leaves. `dir` numbers its `DIR` local. -/
def scanFiles : (fuel dir : ℕ) → (path : List Char) → Shell (FResult × List Char)
  | 0, _, _ => .fail .fuel
  | fuel + 1, dir, path => do
    let res ← fOpendir dir (cstr path)
    if res = .ok then
      scanLoop fuel dir (cstr path).length path
    else
      chprintf "FS: f_opendir() failed\r\n"
      pure (res, path)

/-- The `while` loop of `scan_files`; `i` is the length of the path on entry. -/
def scanLoop : (fuel dir i : ℕ) → (path : List Char) → Shell (FResult × List Char)
  | 0, _, _, _ => .fail .fuel
  | fuel + 1, dir, i, path => do
    let (res, fno) ← fReaddir dir
    if res ≠ .ok ∨ first fno.fname = nul then
      pure (res, path)
    else if first fno.fname = '.' then
      scanLoop fuel dir i path
    else
      let fn := cstr fno.fname
      chprintf "%4d-%02d-%02d %02d:%02d:%02d " (dateArgs fno)
      if fno.fattrib &&& amDir ≠ 0 then
        let path ← store path i '/'
        let path ← strcpyAt path (i + 1) fn
        chprintf "<DIR> %s/\r\n" [.str (cstr path)]
        let (res, path) ← scanFiles fuel (dir + 1) path
        if res ≠ .ok then
          pure (res, path)
        else
          let path ← store path i nul
          scanLoop fuel dir i path
      else
        chprintf "      %s/%s\r\n" [.str (cstr path), .str fn]
        scanLoop fuel dir i path

end

/-- `sizeof(fbuff)`. -/
def fbuffSize : ℕ := 1024

def cmdTree (fuel : ℕ) : Shell Unit := do
  let _ ← scanFiles fuel 0 (List.replicate fbuffSize nul)

/-! ## Mounting -/

def cmdMount : Shell Unit := do
  let err ← fMount (some .fat)
  if err ≠ .ok then
    chprintf "FS: f_mount() failed. Is the SD card inserted?\r\n"
    verboseError err
  else
    chprintf "FS: f_mount() succeeded\r\n"
    palSetPad
    let _ ← sdcConnect

def cmdUnmount : Shell Unit := do
  palClearPad
  let _ ← sdcDisconnect
  let err ← fMount none
  if err ≠ .ok then
    chprintf "FS: f_mount() unmount failed\r\n"
    verboseError err

/-! ## The volume -/

def cmdMkfs (argv : List (List Char)) : Shell Unit :=
  match argv with
  | [arg] => do
    let partition := (strtol arg).toInt
    chprintf "FS: f_mkfs(%d,0,0) Started\r\n" [.int partition]
    let err ← fMkfs partition
    if err ≠ .ok then
      chprintf "FS: f_mkfs() failed\r\n"
      verboseError err
    else
      chprintf "FS: f_mkfs() Finished\r\n"
  | _ => do
    chprintf "Usage: mkfs [partition]\r\n"
    chprintf "       Formats partition [partition]\r\n"

def mmcsdBlockSize : UInt32 := 512

/-- The three figures are products of `uint32_t`, divided after. -/
def cmdFree : Shell Unit := do
  let (err, clusters, csize) ← fGetfree ['/']
  if err ≠ .ok then
    chprintf "FS: f_getfree() failed\r\n"
  else
    let bytes := clusters * csize.toUInt32 * mmcsdBlockSize
    chprintf "FS: %lu free clusters\r\n    %lu sectors per cluster\r\n"
      [.int clusters.toNat, .int csize.toNat]
    chprintf "%lu B free\r\n" [.int bytes.toNat]
    chprintf "%lu KB free\r\n" [.int (bytes / 1024).toNat]
    chprintf "%lu MB free\r\n" [.int (bytes / (1024 * 1024)).toNat]

def cmdSetlabel (argv : List (List Char)) : Shell Unit :=
  match argv with
  | [arg] => do
    let err ← fSetlabel arg
    -- neither message is given the argument its format asks for
    if err ≠ .ok then
      chprintf "FS: f_setlabel(%s) failed.\r\n"
      verboseError err
    else
      chprintf "FS: f_setlabel(%s) succeeded.\r\n"
  | _ => do
    chprintf "Usage: setlabel label\r\n"
    chprintf "       Sets FAT label (no spaces)\r\n"

def cmdGetlabel (argv : List (List Char)) : Shell Unit :=
  match argv with
  | [] => do
    let (err, lbl, sn) ← fGetlabel []
    if err ≠ .ok then
      chprintf "FS: f_getlabel failed.\r\n"
      verboseError err
    else
      chprintf "LABEL: %s\r\n" [.str lbl]
      chprintf "  S/N: 0x%X\r\n" [.int sn.toNat]
  | _ => do
    chprintf "Usage: getlabel\r\n"
    chprintf "       Gets and prints FAT label\r\n"

def cmdMkdir (argv : List (List Char)) : Shell Unit :=
  match argv with
  | [arg] => do
    let err ← fMkdir arg
    if err ≠ .ok then
      chprintf "FS: f_mkdir(%s) failed\r\n" [.str arg]
      verboseError err
    else
      chprintf "FS: f_mkdir(%s) succeeded\r\n" [.str arg]
  | _ => do
    chprintf "Usage: mkdir dirName\r\n"
    chprintf "       Creates directory with dirName (no spaces)\r\n"

/-! ## Files -/

/-- `FA_READ | FA_WRITE | FA_CREATE_ALWAYS`. -/
def createMode : List Access := [.read, .write, .createAlways]

def helloName : List Char := "hello.txt".toList

def cmdHello (argv : List (List Char)) : Shell Unit :=
  match argv with
  | [] => do
    let err ← fOpen .helloFsrc helloName createMode
    if err ≠ .ok then
      chprintf "FS: f_open(\"hello.txt\") failed.\r\n"
      verboseError err
    else
      chprintf "FS: f_open(\"hello.txt\") succeeded\r\n"
      let written ← fPuts "Hello World" .helloFsrc
      if written = -1 then
        chprintf "FS: f_puts(\"Hello World\",\"hello.txt\") failed\r\n"
      else
        chprintf "FS: f_puts(\"Hello World\",\"hello.txt\") succeeded\r\n"
      let _ ← fClose .helloFsrc
  | _ => do
    chprintf "Usage: hello\r\n"
    chprintf "       Creates hello.txt with 'Hello World'\r\n"

/-- `sizeof(Buffer)` of `cmd_cat`, which is also the number of bytes asked for. -/
def catBufferSize : ℕ := 255

/-- The zeroed `Buffer` after `f_read` has put `bytes` in it. -/
def catBuffer (bytes : List Char) : List Char :=
  bytes ++ List.replicate (catBufferSize - bytes.length) nul

/-- The loop of `cmd_cat`; whether it came to its end or returned in the middle. -/
def catLoop : (fuel : ℕ) → Shell Bool
  | 0 => .fail .fuel
  | fuel + 1 => do
    let (err, bytes) ← fRead .catFsrc catBufferSize
    if err ≠ .ok then
      chprintf "FS: f_read() failed\r\n"
      verboseError err
      let _ ← fClose .catFsrc
      pure false
    else
      chprintf "%s" [.buf (catBuffer bytes)]
      if bytes.length ≥ catBufferSize then catLoop fuel else pure true

def cmdCat (fuel : ℕ) (argv : List (List Char)) : Shell Unit :=
  match argv with
  | [arg] => do
    let err ← fOpen .catFsrc arg [.read]
    if err ≠ .ok then
      chprintf "FS: f_open(%s) failed.\r\n" [.str arg]
      verboseError err
    else
      let finished ← catLoop fuel
      if finished then
        chprintf "\r\n"
        let _ ← fClose .catFsrc
      else pure ()
  | _ => do
    chprintf "Usage: cat filename\r\n"
    chprintf "       Echos filename (no spaces)\r\n"

/-- `sizeof(line)` of `cmd_gcodetest` and of `cmd_bentest`. -/
def lineSize : ℕ := 82

/-- The loop of `cmd_bentest`. -/
def bentestLoop : (fuel : ℕ) → Shell Unit
  | 0 => .fail .fuel
  | fuel + 1 => do
    let got ← fGets lineSize .bentestFil
    match got.ret with
    | none => pure ()
    | some line => do
      chprintf "%s\r\n" [.str (cstr line)]
      bentestLoop fuel

def bentestName : List Char := "TEST~1.GCO".toList

def cmdBentest (fuel : ℕ) : Shell Unit := do
  chprintf "Attempting to read out message.txt\r\n"
  palSetPad
  let _ ← sdcConnect
  let _ ← fMount (some .fat)
  let _ ← fOpen .bentestFil bentestName [.read]
  bentestLoop fuel
  let _ ← fClose .bentestFil
  palClearPad
  let _ ← sdcDisconnect
  let err ← fMount none
  if err ≠ .ok then
    chprintf "FS: f_mount() unmount failed\r\n"
    verboseError err

end GcodeFatfs.FatCommands
