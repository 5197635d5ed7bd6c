import SengOs.Fs.Failures
import SengOs.Shell.Vga

/-!
# The file-system commands of `kernel/kernel.c`

The commands that do not touch the file system get `none` from `dispatch`. `cmd_fs_cat` reads
into a local buffer, so that the memory it starts with is an argument of `catLoop`.
-/

namespace SengOs.Shell

open ByteMemory CString Fs

/-! ## Strings -/

/-- The pointer to a literal. -/
def literal (s : String) : Nat → Byte := fun i => (chars s).getD i 0

def kStrcmp (a : CString) (b : String) : Int := strcmp a.byteAt (chars b)

/-- `while (n-- && *a && (*a == *b)) { a++; b++; } return n == (size_t)-1 ? 0 : *a - *b;` -/
def kStrncmp (a b : Nat → Byte) : Nat → Int
  | 0 => 0
  | n + 1 =>
    if a 0 ≠ 0 ∧ a 0 = b 0 then kStrncmp (fun i => a (i + 1)) (fun i => b (i + 1)) n
    else (a 0).toNat - (b 0).toNat

def space : Byte := 0x20

/-- `s + n`, for `n` up to the length of `s`. -/
def advance (s : CString) (n : Nat) : CString :=
  ⟨s.bytes.drop n, fun b hb => s.noNul b (List.mem_of_mem_drop hb)⟩

/-- `while (*s == ' ') s++; return s;` -/
def kLtrim (s : CString) : CString :=
  ⟨s.bytes.dropWhile (· == space), fun b hb =>
    s.noNul b ((List.dropWhile_sublist _).subset hb)⟩

/-! ## Printing -/

/-- `vga_printf("  Wrote %d bytes.\n", written)` -/
def printWrote (written : Int) : List Byte :=
  chars "  Wrote " ++ printInt written ++ chars " bytes.\n"

theorem vgaPrintf_wrote (written : BitVec 32) :
    vgaPrintf (chars "  Wrote %d bytes.\n") [.word written] =
      some (printWrote written.toInt, []) := by
  have hfmt : chars "  Wrote %d bytes.\n" =
      chars "  Wrote " ++ char '%' :: char 'd' :: chars " bytes.\n" := by decide
  rw [hfmt, vgaPrintf_append (by decide), vgaPrintf_percent, vgaConvert_d, Option.bind_some,
    vgaPrintf_text (by decide), printWrote]
  simp [VaArg.toWord]

/-- `vga_puts(buf)`, for a string that ends within `n` bytes. -/
def puts (buf : Mem) (n : Nat) : List Byte := CString.read buf n

/-! ## Commands -/

/-- `RAMDISK_ADDR` -/
@[simp] def ramdiskAddr : Nat := 0x200000

/-- `root_dir[i].name`, a pointer into the RAM disk. -/
def direntNameArg (m : Mem) (i : Nat) : VaArg :=
  .str (BitVec.ofNat 32 (ramdiskAddr + direntAddr i + 3))
    ⟨CString.read (direntName m i) sizeofDirentName, CString.read_ne_zero _ _⟩

/-- One round of the loop in `fs_list`. -/
def fsListLine (m : Mem) (i : Nat) : Option Print :=
  if direntUsed m i = 0 then none
  else
    let inoNum := direntInode m i
    if inoNum ≥ fsMaxInodes ∨ inodeUsed m inoNum = 0 then none
    else
      some (.printf (chars "  %-24s %u bytes\n")
        [direntNameArg m i, .word (BitVec.ofNat 32 (inodeSize m inoNum))])

def fsListLines (m : Mem) : List Print := (List.range direntEntries).filterMap (fsListLine m)

def fsList (s : FsState) : List Print :=
  [.puts (chars "\n  Name                     Size\n"),
    .puts (chars "  ------------------------ -----\n")] ++ fsListLines s.ramdisk ++
    if fsListLines s.ramdisk = [] then [.puts (chars "  <empty>\n")] else []

def cmdFsLs (s : FsState) : List Byte × FsState := ((textOf (fsList s)).getD [], s)

def cmdFsTouch (s : FsState) (name : CString) : List Byte × FsState :=
  if name.bytes = [] then (chars "  Usage: touch <name>\n", s)
  else
    let r := fsCreate s (some name)
    if r.1 = -2 then (chars "  File already exists.\n", r.2)
    else if r.1 < 0 then (chars "  Could not create file.\n", r.2)
    else (chars "  File created.\n", r.2)

/-- `while ((n = fs_read(fd, buf, sizeof(buf) - 1)) > 0) { buf[n] = '\0'; vga_puts(buf); }` -/
def catLoop (fd : Int) (s : FsState) (buf : Mem) : List Byte × FsState :=
  let r := fsRead s fd (some buf) 255
  if _h : 0 < r.1 then
    let filled := Function.update (r.2.1.getD buf) r.1.toNat 0
    let rest := catLoop fd r.2.2 filled
    (puts filled 256 ++ rest.1, rest.2)
  else ([], r.2.2)
termination_by unread s fd
decreasing_by exact unread_fsRead_lt _h

def cmdFsCat (s : FsState) (buf : Mem) (name : CString) : List Byte × FsState :=
  if name.bytes = [] then (chars "  Usage: cat <name>\n", s)
  else
    let opened := fsOpen s name
    if opened.1 < 0 then (chars "  File not found.\n", opened.2)
    else
      let printed := catLoop opened.1 opened.2 buf
      (chars "  " ++ printed.1 ++ chars "\n", (fsClose printed.2 opened.1).2)

/-- The loop that reads the file name: the name, and the rest of the line where it stops.
`room` is how many characters still fit before the final NUL. -/
def readName : List Byte → Nat → List Byte × List Byte
  | c :: cs, room + 1 =>
    if c = space then ([], c :: cs)
    else (c :: (readName cs room).1, (readName cs room).2)
  | cs, _ => ([], cs)

theorem readName_append (cs : List Byte) (room : Nat) :
    (readName cs room).1 ++ (readName cs room).2 = cs := by
  induction cs generalizing room with
  | nil => rfl
  | cons c cs ih =>
    cases room with
    | zero => rfl
    | succ room =>
      rw [readName]
      split
      · rfl
      · exact congrArg (c :: ·) (ih room)

/-- The name that `cmd_fs_write` finds in its argument, and the text behind it. -/
def parseWrite (args : CString) : CString × CString :=
  let p := kLtrim args
  let r := readName p.bytes (fsMaxName - 1)
  (⟨r.1, fun b hb => p.noNul b
      (readName_append p.bytes (fsMaxName - 1) ▸ List.mem_append_left _ hb)⟩,
    kLtrim ⟨r.2, fun b hb => p.noNul b
      (readName_append p.bytes (fsMaxName - 1) ▸ List.mem_append_right _ hb)⟩)

/-- The removal of an existing file. -/
def removeOld (s : FsState) (name : CString) : FsState :=
  let testfd := fsOpen s name
  if testfd.1 ≥ 0 then (fsUnlink (fsClose testfd.2 testfd.1).2 name).2 else testfd.2

def cmdFsWrite (s : FsState) (args : CString) : List Byte × FsState :=
  if args.bytes = [] then (chars "  Usage: write <name> <text>\n", s)
  else
    let name := (parseWrite args).1
    let p := (parseWrite args).2
    if name.bytes = [] ∨ p.bytes = [] then (chars "  Usage: write <name> <text>\n", s)
    else
      let created := fsCreate (removeOld s name) (some name)
      if created.1 < 0 then (chars "  Could not create file.\n", created.2)
      else
        let opened := fsOpen created.2 name
        if opened.1 < 0 then (chars "  Could not open file.\n", opened.2)
        else
          let written := fsWrite opened.2 opened.1 (some p.byteAt) (strlen p)
          let closed := fsClose written.2 opened.1
          if written.1 < 0 then (chars "  Write failed.\n", closed.2)
          else (printWrote written.1, closed.2)

def cmdFsRm (s : FsState) (name : CString) : List Byte × FsState :=
  if name.bytes = [] then (chars "  Usage: rm <name>\n", s)
  else
    let r := fsUnlink s name
    if r.1 = 0 then (chars "  File removed.\n", r.2)
    else (chars "  File not found or still open.\n", r.2)

/-! ## Dispatch -/

/-- A line as `kb_readline` leaves it in `shell_buf[256]`. -/
structure Line where
  text : CString
  fits : text.bytes.length ≤ 255

inductive Command where
  | ls
  | touch (name : CString)
  | cat (name : CString)
  | write (args : CString)
  | rm (name : CString)

/-- The tests of `shell_run`, in their order. -/
def dispatch (line : CString) : Option Command :=
  let cmd := kLtrim line
  if strlen cmd = 0 then none
  else if kStrcmp cmd "help" = 0 then none
  else if kStrcmp cmd "clear" = 0 then none
  else if kStrcmp cmd "about" = 0 then none
  else if kStrcmp cmd "mem" = 0 then none
  else if kStrncmp cmd.byteAt (literal "echo ") 5 = 0 then none
  else if kStrcmp cmd "ps" = 0 then none
  else if kStrncmp cmd.byteAt (literal "kill ") 5 = 0 then none
  else if kStrcmp cmd "race" = 0 then none
  else if kStrcmp cmd "racem" = 0 then none
  else if kStrcmp cmd "meminfo" = 0 then none
  else if kStrcmp cmd "ls" = 0 then some .ls
  else if kStrncmp cmd.byteAt (literal "touch ") 6 = 0 then
    some (.touch (kLtrim (advance cmd 6)))
  else if kStrncmp cmd.byteAt (literal "cat ") 4 = 0 then some (.cat (kLtrim (advance cmd 4)))
  else if kStrncmp cmd.byteAt (literal "write ") 6 = 0 then
    some (.write (kLtrim (advance cmd 6)))
  else if kStrncmp cmd.byteAt (literal "rm ") 3 = 0 then some (.rm (kLtrim (advance cmd 3)))
  else if kStrncmp cmd.byteAt (literal "unlink ") 7 = 0 then
    some (.rm (kLtrim (advance cmd 7)))
  else none

/-- What a command prints, and the state after it; `buf` is what the stack holds where `cat`
has its buffer. -/
def Command.exec (s : FsState) (buf : Mem) : Command → List Byte × FsState
  | .ls => cmdFsLs s
  | .touch name => cmdFsTouch s name
  | .cat name => cmdFsCat s buf name
  | .write args => cmdFsWrite s args
  | .rm name => cmdFsRm s name

/-- One round of `shell_run`. -/
def runLine (s : FsState) (buf : Mem) (line : Line) : List Byte × FsState :=
  match dispatch line.text with
  | none => ([], s)
  | some c => c.exec s buf

/-- The state after the lines, each with the stack it finds. -/
def runLines (s : FsState) (lines : List (Mem × Line)) : FsState :=
  lines.foldl (fun s l => (runLine s l.1 l.2).2) s

end SengOs.Shell
