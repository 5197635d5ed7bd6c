import SengOs.Console.Bounds
import SengOs.Pmm.Ops
import SengOs.Shell.Dispatch

/-!
# What the commands print

The commands of `kernel/kernel.c` as lists of calls of `vga.c`, with their colours. What they do to
the files, and the characters they print there, is what the commands without colours do
(`exec_runLine`). The process table and the frame allocator, which other processes change, are
`Ambient`: what a command finds of them when it runs.
-/

namespace SengOs.Shell

open ByteMemory CString Fs Kernel
open Console (Screen VgaColor vgaSetColor vgaClear putAll)

/-- The bytes of a literal with characters outside ASCII. -/
def utf8 (s : String) : List Byte :=
  s.toList.flatMap fun c => (String.utf8EncodeChar c).map UInt8.toBitVec

/-! ## Calls -/

/-- A call of `vga.c`. -/
inductive VgaCall where
  | puts (s : List Byte)
  | putsColor (s : List Byte) (fg bg : VgaColor)
  | printf (fmt : List Byte) (args : List VaArg)
  | setColor (fg bg : VgaColor)
  | clear (bg : VgaColor)

namespace VgaCall

/-- The call without its colour. -/
def print? : VgaCall → Option Print
  | puts s => some (.puts s)
  | putsColor s _ _ => some (.puts s)
  | printf fmt args => some (.printf fmt args)
  | setColor _ _ => none
  | clear _ => none

def run : VgaCall → Screen → Screen
  | puts s, screen => putAll s screen
  | putsColor s fg bg, screen =>
    { putAll s (vgaSetColor fg bg screen) with curAttr := screen.curAttr }
  | printf fmt args, screen => putAll (((Print.printf fmt args).text).getD []) screen
  | setColor fg bg, screen => vgaSetColor fg bg screen
  | clear bg, screen => vgaClear bg screen

end VgaCall

def Print.call : Print → VgaCall
  | .puts s => .puts s
  | .printf fmt args => .printf fmt args

def runVga (calls : List VgaCall) (screen : Screen) : Screen :=
  calls.foldl (fun screen call => call.run screen) screen

/-- The characters that the calls print. -/
def printedBy (calls : List VgaCall) : List Byte :=
  (textOf (calls.filterMap VgaCall.print?)).getD []

/-! ## The commands that only print -/

def cmdHelp : List VgaCall :=
  [.putsColor (utf8 "\n  SENG21213-OS Shell Commands\n") .yellow .black,
    .puts (utf8 "  ─────────────────────────────────────────────\n"),
    .puts (utf8 "  help    – Show this help message\n"),
    .puts (utf8 "  clear   – Clear the screen\n"),
    .puts (utf8 "  about   – About this OS and course\n"),
    .puts (utf8 "  echo    – Echo text to screen\n"),
    .puts (utf8 "  mem     – Memory map (stub)\n"),
    .putsColor (utf8 "\n  Milestones (to implement):\n") .lightCyan .black,
    .puts (utf8 "  ps      – [L09] List processes\n"),
    .puts (utf8 "  kill    – [L09] Terminate a process\n"),
    .puts (utf8 "  race    – [L10] Unsynchronised myglobal++ race demo\n"),
    .puts (utf8 "  racem   – [L10] Same race, protected by a mutex\n"),
    .puts (utf8 "  meminfo – [L11] Show free/used physical memory\n"),
    .puts (utf8 "  ls      – [L12] List files\n"),
    .puts (utf8 "  cat     – [L12] Print file contents\n\n"),
    .puts (utf8 "  write   – [L12] Write text to a file\n"),
    .puts (utf8 "  rm      – [L12] Remove a file\n")]

def cmdClear : List VgaCall := [.clear .black]

def cmdAbout : List VgaCall :=
  [.putsColor (utf8 "\n  About SENG21213-OS\n") .lightCyan .black,
    .puts (utf8 "  ─────────────────────────────────────────────\n"),
    .puts (utf8 "  Architecture : x86 (i686), 32-bit Protected Mode\n"),
    .puts (utf8 "  Bootloader   : Custom MBR (NASM)\n"),
    .puts (utf8 "  Kernel       : Freestanding C (GCC, no libc)\n"),
    .puts (utf8 "  VM Target    : QEMU (qemu-system-i386)\n"),
    .puts (utf8 "  Course       : SENG 21213 – Sem 2\n"),
    .puts (utf8 "  Reference    : Stallings, OS: Internals & Design Principles\n\n")]

def cmdEcho (args : CString) : List VgaCall :=
  [.puts (chars "  "), .puts args.bytes, .puts (chars "\n")]

def cmdMem : List VgaCall :=
  [.putsColor (utf8 "\n  Memory Map (stub – implement PMM in Lecture 11)\n") .lightCyan .black,
    .puts (utf8 "  ─────────────────────────────────────────────\n"),
    .puts (utf8 "  0x00000000 – 0x000FFFFF  :  First 1 MB (reserved/BIOS)\n"),
    .puts (utf8 "  0x00100000 – 0x00EFFFFF  :  Extended memory (usable ~14 MB)\n"),
    .puts (utf8 "  0x00F00000 – 0x00FFFFFF  :  BIOS / ROM area\n"),
    .puts (utf8 "  0xB8000    – 0xBFFFF     :  VGA frame buffer\n"),
    .putsColor (utf8 "\n  TODO: Use BIOS int 0x15, EAX=0xE820 to get real memory map\n\n")
      .yellow .black]

/-! ## The commands of the kernel -/

namespace Screened

/-- `ps` leaves the colour white. -/
def ps (link : Link) (t : Table) : List VgaCall :=
  [.setColor .lightCyan .black, .puts (chars "  PID  STATE       NAME\n"),
    .puts (chars "  ---  ----------  --------\n"), .setColor .white .black] ++
    ((List.range maxProcesses).filterMap (psLine link t)).map Print.call

def kill (t : Table) (arg : CString) : List VgaCall :=
  let pid := readPid arg.bytes 0
  (if pid = 0 then
    [.setColor .lightRed .black, .puts (chars "  Cannot kill kernel process (PID 0)\n")]
  else if pid ≥ maxProcesses ∨ (t pid).state = .free then
    [.setColor .lightRed .black, .puts (chars "  No such process\n")]
  else
    [.setColor .lightGreen .black,
      .printf (chars "  Process %d terminated\n") [.word (BitVec.ofNat 32 pid)]]) ++
    [.setColor .lightGrey .black]

def race : List VgaCall :=
  [.setColor .yellow .black, .puts (utf8 "  Started race_a/race_b — no mutex yet.\n"),
    .puts (utf8 "  Expected final myglobal = 200000. Run 'ps' to watch,\n"),
    .puts (utf8 "  or wait for both '... done' lines to print.\n"),
    .setColor .lightGrey .black]

def racem : List VgaCall :=
  [.setColor .yellow .black, .puts (utf8 "  Started racem_a/racem_b — protected by a mutex.\n"),
    .puts (utf8 "  Expect exactly myglobal = 200000, every single run.\n"),
    .setColor .lightGrey .black]

/-- `meminfo`, with `pmm_total_frames()` and `pmm_free_frames()`. -/
def meminfo (pmm : Pmm.PmmState) : List VgaCall :=
  let total := BitVec.ofNat 32 pmm.totalFrames
  let freef := BitVec.ofNat 32 pmm.freeFrames
  let used := total - freef
  [.setColor .lightCyan .black, .printf (chars "  Free:  %u KB\n") [.word (freef * 4)],
    .printf (chars "  Used:  %u KB\n") [.word (used * 4)],
    .printf (chars "  Total: %u KB\n") [.word (total * 4)], .setColor .lightGrey .black]

/-! ## The commands of the file system -/

def fsList (s : FsState) : List VgaCall :=
  [.putsColor (chars "\n  Name                     Size\n") .lightCyan .black,
    .puts (chars "  ------------------------ -----\n")] ++
    (fsListLines s.ramdisk).map Print.call ++
    if fsListLines s.ramdisk = [] then [.puts (chars "  <empty>\n")] else []

def cmdFsLs (s : FsState) : List VgaCall × FsState := (fsList s, s)

def cmdFsTouch (s : FsState) (name : CString) : List VgaCall × FsState :=
  if name.bytes = [] then ([.puts (chars "  Usage: touch <name>\n")], s)
  else
    let r := fsCreate s (some name)
    if r.1 = -2 then ([.putsColor (chars "  File already exists.\n") .yellow .black], r.2)
    else if r.1 < 0 then
      ([.putsColor (chars "  Could not create file.\n") .lightRed .black], r.2)
    else ([.putsColor (chars "  File created.\n") .lightGreen .black], r.2)

/-- The pieces that the loop prints are one text, as nothing comes between them. -/
def cmdFsCat (s : FsState) (buf : Mem) (name : CString) : List VgaCall × FsState :=
  if name.bytes = [] then ([.puts (chars "  Usage: cat <name>\n")], s)
  else
    let opened := fsOpen s name
    if opened.1 < 0 then
      ([.putsColor (chars "  File not found.\n") .lightRed .black], opened.2)
    else
      let printed := catLoop opened.1 opened.2 buf
      ([.puts (chars "  "), .puts printed.1, .puts (chars "\n")],
        (fsClose printed.2 opened.1).2)

def cmdFsWrite (s : FsState) (args : CString) : List VgaCall × FsState :=
  if args.bytes = [] then ([.puts (chars "  Usage: write <name> <text>\n")], s)
  else
    let name := (parseWrite args).1
    let p := (parseWrite args).2
    if name.bytes = [] ∨ p.bytes = [] then
      ([.puts (chars "  Usage: write <name> <text>\n")], s)
    else
      let created := fsCreate (removeOld s name) (some name)
      if created.1 < 0 then
        ([.putsColor (chars "  Could not create file.\n") .lightRed .black], created.2)
      else
        let opened := fsOpen created.2 name
        if opened.1 < 0 then
          ([.putsColor (chars "  Could not open file.\n") .lightRed .black], opened.2)
        else
          let written := fsWrite opened.2 opened.1 (some p.byteAt) (strlen p)
          let closed := fsClose written.2 opened.1
          if written.1 < 0 then
            ([.putsColor (chars "  Write failed.\n") .lightRed .black], closed.2)
          else
            ([.printf (chars "  Wrote %d bytes.\n") [.word (BitVec.ofInt 32 written.1)]],
              closed.2)

def cmdFsRm (s : FsState) (name : CString) : List VgaCall × FsState :=
  if name.bytes = [] then ([.puts (chars "  Usage: rm <name>\n")], s)
  else
    let r := fsUnlink s name
    if r.1 = 0 then ([.putsColor (chars "  File removed.\n") .lightGreen .black], r.2)
    else ([.putsColor (chars "  File not found or still open.\n") .lightRed .black], r.2)

end Screened

/-- What a command finds: the process table, the frame allocator, and what the stack holds where
`cat` has its buffer. -/
structure Ambient where
  table : Table
  pmm : Pmm.PmmState
  stack : Mem

/-- What a command prints, and the file system after it. -/
def ShellCommand.exec (link : Link) (ambient : Ambient) (s : FsState) :
    ShellCommand → List VgaCall × FsState
  | empty => ([], s)
  | help => (cmdHelp, s)
  | clear => (cmdClear, s)
  | about => (cmdAbout, s)
  | mem => (cmdMem, s)
  | echo args => (cmdEcho args, s)
  | ps => (Screened.ps link ambient.table, s)
  | kill arg => (Screened.kill ambient.table arg, s)
  | race => (Screened.race, s)
  | racem => (Screened.racem, s)
  | meminfo => (Screened.meminfo ambient.pmm, s)
  | ls => Screened.cmdFsLs s
  | touch name => Screened.cmdFsTouch s name
  | cat name => Screened.cmdFsCat s ambient.stack name
  | write args => Screened.cmdFsWrite s args
  | rm name => Screened.cmdFsRm s name
  | unknown cmd =>
    ([.putsColor (chars "  Unknown command: ") .lightRed .black, .puts cmd.bytes,
      .puts (chars "\n  Type 'help' for a list of commands.\n")], s)

/-! ## The commands without colours -/

section Texts

@[simp] theorem printedBy_puts (s : List Byte) : printedBy [.puts s] = s := by
  simp [printedBy, VgaCall.print?, textOf, Print.text]

@[simp] theorem printedBy_putsColor (s : List Byte) (fg bg : VgaColor) :
    printedBy [.putsColor s fg bg] = s := by
  simp [printedBy, VgaCall.print?, textOf, Print.text]

theorem print?_call (p : Print) : p.call.print? = some p := by
  cases p <;> rfl

theorem filterMap_call (ps : List Print) : (ps.map Print.call).filterMap VgaCall.print? = ps := by
  rw [List.filterMap_map]
  exact (List.filterMap_congr fun p _ => print?_call p).trans (List.filterMap_some ..)

theorem fsWriteLoop_le (fd ino : Nat) {count : Nat} (src : Mem) (s : FsState) (done : Nat)
    (h : done ≤ count) : (fsWriteLoop fd ino count src s done).1 ≤ count := by
  induction s, done using fsWriteLoop.induct fd ino count src with
  | case1 s done hlt pos hbig =>
    rw [fsWriteLoop, dif_pos hlt, if_pos hbig]
    exact h
  | case2 s done hlt pos hbig hnone =>
    rw [fsWriteLoop, dif_pos hlt, if_neg hbig]
    simp only [pos] at hnone
    rw [hnone]
    exact h
  | case3 s done hlt pos hbig m hsome n m' ih =>
    rw [fsWriteLoop, dif_pos hlt, if_neg hbig]
    simp only [pos] at hsome
    rw [hsome]
    apply ih
    have hn : n = min (4096 - pos % 4096) (count - done) := chunk_eq pos count done
    omega
  | case4 s done hge =>
    rw [fsWriteLoop, dif_neg hge]
    exact h

theorem fsWrite_bounds (s : FsState) (fd : Int) (buf : Option Mem) (count : Nat) :
    -1 ≤ (fsWrite s fd buf count).1 ∧ (fsWrite s fd buf count).1 ≤ 32768 := by
  have hfailed : (-1 : Int) ≤ -1 ∧ (-1 : Int) ≤ 32768 := by decide
  unfold fsWrite
  cases buf with
  | none => exact hfailed
  | some src =>
    dsimp only
    generalize hn : (if count > fsDirect * fsBlockSize - (s.fds fd.toNat).offset then
      fsDirect * fsBlockSize - (s.fds fd.toNat).offset else count) = n
    have hle : n ≤ 32768 := by
      rw [← hn, fsDirect, fsBlockSize]
      split_ifs <;> omega
    split
    · exact hfailed
    split
    · exact hfailed
    split
    · exact hfailed
    · have hloop := fsWriteLoop_le fd.toNat (s.fds fd.toNat).inode src s 0 (Nat.zero_le n)
      dsimp only
      omega

/-- What `fs_write` returns is an `int32_t`. -/
theorem toInt_fsWrite (s : FsState) (fd : Int) (buf : Option Mem) (count : Nat) :
    (BitVec.ofInt 32 (fsWrite s fd buf count).1).toInt = (fsWrite s fd buf count).1 := by
  have hbounds := fsWrite_bounds s fd buf count
  rw [BitVec.toInt_ofInt]
  apply Int.bmod_eq_of_le <;> omega

theorem cmdFsLs_screened (s : FsState) :
    printedBy (Screened.cmdFsLs s).1 = (cmdFsLs s).1 ∧ (Screened.cmdFsLs s).2 = (cmdFsLs s).2 := by
  refine ⟨?_, rfl⟩
  show printedBy (Screened.fsList s) = (textOf (fsList s)).getD []
  have hcalls : (Screened.fsList s).filterMap VgaCall.print? = fsList s := by
    unfold Screened.fsList fsList
    rw [List.filterMap_append, List.filterMap_append, filterMap_call]
    congr 1
    split <;> rfl
  rw [printedBy, hcalls]

theorem cmdFsTouch_screened (s : FsState) (name : CString) :
    printedBy (Screened.cmdFsTouch s name).1 = (cmdFsTouch s name).1 ∧
      (Screened.cmdFsTouch s name).2 = (cmdFsTouch s name).2 := by
  unfold Screened.cmdFsTouch cmdFsTouch
  dsimp only
  split_ifs <;> exact ⟨by simp, rfl⟩

theorem cmdFsRm_screened (s : FsState) (name : CString) :
    printedBy (Screened.cmdFsRm s name).1 = (cmdFsRm s name).1 ∧
      (Screened.cmdFsRm s name).2 = (cmdFsRm s name).2 := by
  unfold Screened.cmdFsRm cmdFsRm
  dsimp only
  split_ifs <;> exact ⟨by simp, rfl⟩

theorem cmdFsCat_screened (s : FsState) (buf : Mem) (name : CString) :
    printedBy (Screened.cmdFsCat s buf name).1 = (cmdFsCat s buf name).1 ∧
      (Screened.cmdFsCat s buf name).2 = (cmdFsCat s buf name).2 := by
  unfold Screened.cmdFsCat cmdFsCat
  dsimp only
  split_ifs
  · exact ⟨by simp, rfl⟩
  · exact ⟨by simp, rfl⟩
  · exact ⟨by simp [printedBy, VgaCall.print?, textOf, Print.text], rfl⟩

theorem cmdFsWrite_screened (s : FsState) (args : CString) :
    printedBy (Screened.cmdFsWrite s args).1 = (cmdFsWrite s args).1 ∧
      (Screened.cmdFsWrite s args).2 = (cmdFsWrite s args).2 := by
  unfold Screened.cmdFsWrite cmdFsWrite
  dsimp only
  split_ifs
  iterate 5 exact ⟨by simp, rfl⟩
  refine ⟨?_, rfl⟩
  simp only [printedBy, List.filterMap_cons, VgaCall.print?, List.filterMap_nil, textOf, Print.text]
  rw [vgaPrintf_wrote, toInt_fsWrite]
  simp

/-- On the files, a line does what it does without the screen, and prints the same. -/
theorem exec_runLine (link : Link) (ambient : Ambient) (s : FsState) (line : Line) :
    ((shellDispatch line.text).exec link ambient s).2 = (runLine s ambient.stack line).2 ∧
      ((shellDispatch line.text).onFiles ≠ none →
        printedBy ((shellDispatch line.text).exec link ambient s).1 =
          (runLine s ambient.stack line).1) := by
  rw [runLine, dispatch_eq]
  cases shellDispatch line.text with
  | ls => exact ⟨(cmdFsLs_screened s).2, fun _ => (cmdFsLs_screened s).1⟩
  | touch name => exact ⟨(cmdFsTouch_screened s name).2, fun _ => (cmdFsTouch_screened s name).1⟩
  | cat name =>
    have hcat := cmdFsCat_screened s ambient.stack name
    exact ⟨hcat.2, fun _ => hcat.1⟩
  | write args => exact ⟨(cmdFsWrite_screened s args).2, fun _ => (cmdFsWrite_screened s args).1⟩
  | rm name => exact ⟨(cmdFsRm_screened s name).2, fun _ => (cmdFsRm_screened s name).1⟩
  | empty | help | clear | about | mem | echo | ps | kill | race | racem | meminfo | unknown =>
    exact ⟨rfl, fun hfiles => absurd rfl hfiles⟩

end Texts

end SengOs.Shell
