import SengOs.Shell.Session

/-!
# The start of the kernel

`kernel_main` sets up the screen and the file system, draws the splash screen and becomes the
shell. It has created `task_a` and `task_b` by then, but they do not run before its `sti`, so that
`kernelStart` has the screen to itself. What the shell prints leaves the cursor on the screen and
writes in the frame buffer only. The commands that print in a colour put the old one back, but for
`ps`, behind which the shell goes on in white (`attr_exec`).
-/

namespace SengOs.Shell

open ByteMemory CString Fs Kernel
open Console (Screen VgaColor InFrame vgaAttr vgaPutchar vgaInit vgaClear vgaSetColor vgaSetCursor
  vgaDrawBox putAll OnScreen)

/-! ## `kernel_main` -/

/-- A line of the banner: `vga_set_cursor(row, 2)` and the text in its colour. -/
def bannerLine (row : Int) (text : List Byte) (fg : VgaColor) (screen : Screen) : Screen :=
  VgaCall.run (.putsColor text fg .black) (vgaSetCursor row 2 screen)

/-- `print_splash` -/
def printSplash (screen : Screen) : Screen :=
  let screen := vgaClear .black screen
  let screen := vgaDrawBox 0 0 7 80 .lightMagenta screen
  let screen := bannerLine 1
    (utf8 "  SENG21213-OS  |  Computer Architecture & Operating Systems") .yellow screen
  let screen := bannerLine 2 (utf8 "  Stage 0: Kernel Foundations") .lightCyan screen
  let screen := bannerLine 3
    (utf8 "  Faculty of Engineering – Department of Software Engineering") .lightGrey screen
  let screen := bannerLine 4
    (utf8 "  Built by students, for students.  Type 'help' to begin.") .lightGreen screen
  let screen := bannerLine 5
    (utf8 "  CPU: i686 (32-bit Protected Mode)  |  Display: VGA 80x25") .darkGrey screen
  let screen := vgaSetCursor 8 0 screen
  runVga [.setColor .lightGrey .black,
    .puts (utf8 "  Welcome! This kernel was compiled from source and booted entirely\n"),
    .puts (utf8 "  from bare metal. There is no Linux or Windows underneath – only\n"),
    .puts (utf8 "  the code you and your team write.\n"), .puts (utf8 "\n"),
    .puts (utf8 "  Assignment milestones to implement:\n"),
    .putsColor (utf8 "    [L09] ") .yellow .black,
    .puts (utf8 "Process Management  – PCB, ready queue, round-robin scheduler\n"),
    .putsColor (utf8 "    [L10] ") .yellow .black,
    .puts (utf8 "Threads & Sync      – kernel threads, mutex, semaphore\n"),
    .putsColor (utf8 "    [L11] ") .yellow .black,
    .puts (utf8 "Memory Management   – physical page allocator, virtual memory\n"),
    .putsColor (utf8 "    [L12] ") .yellow .black,
    .puts (utf8 "File System         – RAM disk, FAT-like directory structure\n"),
    .puts (utf8 "\n")] screen

/-- The message of `fs_init` -/
def mounted : VgaCall :=
  .putsColor (chars "  [FS] RAM disk mounted: 1 MiB, 256 x 4 KiB blocks\n") .lightGreen .black

/-- `kernel_main` before `sti`, as far as the shell goes on with it. The process table, with the two
tasks, is `Ambient`. -/
def kernelStart (s : Session) : Session :=
  { s with screen := printSplash (mounted.run (vgaInit s.screen)), fs := fsInit s.fs }

/-! ## Colours -/

/-- The attribute that a call leaves. -/
def VgaCall.attr (attr : Byte) : VgaCall → Byte
  | setColor fg bg => vgaAttr fg bg
  | clear bg => vgaAttr .lightGrey bg
  | puts _ | putsColor _ _ _ | printf _ _ => attr

/-- The attribute that a command leaves. -/
def ShellCommand.attr (attr : Byte) : ShellCommand → Byte
  | ps => vgaAttr .white .black
  | clear | kill _ | race | racem | meminfo => vgaAttr .lightGrey .black
  | _ => attr

theorem curAttr_vgaPutchar (c : Byte) (screen : Screen) :
    (vgaPutchar c screen).curAttr = screen.curAttr := by
  have hwrap (s : Screen) : (Console.wrap s).curAttr = s.curAttr := by
    unfold Console.wrap
    split <;> rfl
  have hplace : (Console.place c screen).curAttr = screen.curAttr := by
    unfold Console.place
    split
    · rfl
    split
    · rfl
    split
    · exact hwrap _
    split
    · rfl
    · exact hwrap _
  show (ite _ _ _ : Screen).curAttr = _
  split <;> exact hplace

theorem curAttr_putAll (cs : List Byte) (screen : Screen) :
    (putAll cs screen).curAttr = screen.curAttr := by
  induction cs generalizing screen with
  | nil => rfl
  | cons c cs ih => exact (ih _).trans (curAttr_vgaPutchar c screen)

theorem curAttr_run (call : VgaCall) (screen : Screen) :
    (call.run screen).curAttr = call.attr screen.curAttr := by
  cases call with
  | puts | printf => exact curAttr_putAll _ screen
  | putsColor | setColor | clear => rfl

theorem curAttr_runVga (calls : List VgaCall) (screen : Screen) :
    (runVga calls screen).curAttr = calls.foldl VgaCall.attr screen.curAttr := by
  induction calls generalizing screen with
  | nil => rfl
  | cons call calls ih =>
    rw [List.foldl_cons, ← curAttr_run]
    exact ih _

theorem attr_calls (attr : Byte) (ps : List Print) :
    (ps.map Print.call).foldl VgaCall.attr attr = attr := by
  induction ps with
  | nil => rfl
  | cons p ps ih =>
    cases p with
    | puts | printf => exact ih

/-- The commands leave the colours that `ShellCommand.attr` says. -/
theorem attr_exec (link : Link) (ambient : Ambient) (s : FsState) (attr : Byte)
    (c : ShellCommand) :
    (c.exec link ambient s).1.foldl VgaCall.attr attr = c.attr attr := by
  cases c with
  | empty | help | clear | about | mem | echo | race | racem | meminfo | unknown => rfl
  | ps =>
    show (Screened.ps link ambient.table).foldl VgaCall.attr attr = _
    rw [Screened.ps, List.foldl_append, attr_calls]
    rfl
  | kill arg =>
    show (Screened.kill ambient.table arg).foldl VgaCall.attr attr = _
    rw [Screened.kill, List.foldl_append]
    rfl
  | ls =>
    show (Screened.fsList s).foldl VgaCall.attr attr = attr
    rw [Screened.fsList, List.foldl_append, List.foldl_append, attr_calls]
    split <;> rfl
  | touch name =>
    show (Screened.cmdFsTouch s name).1.foldl VgaCall.attr attr = attr
    unfold Screened.cmdFsTouch
    dsimp only
    split_ifs <;> rfl
  | cat name =>
    show (Screened.cmdFsCat s ambient.stack name).1.foldl VgaCall.attr attr = attr
    unfold Screened.cmdFsCat
    dsimp only
    split_ifs <;> rfl
  | write args =>
    show (Screened.cmdFsWrite s args).1.foldl VgaCall.attr attr = attr
    unfold Screened.cmdFsWrite
    dsimp only
    split_ifs <;> rfl
  | rm name =>
    show (Screened.cmdFsRm s name).1.foldl VgaCall.attr attr = attr
    unfold Screened.cmdFsRm
    dsimp only
    split_ifs <;> rfl

/-! ## The screen -/

theorem onScreen_run {screen : Screen} (h : OnScreen screen) (call : VgaCall) :
    OnScreen (call.run screen) := by
  cases call with
  | puts | printf => exact h.putAll _
  | putsColor s fg bg =>
    have hset : OnScreen (vgaSetColor fg bg screen) := ⟨h.row, h.col, h.writes, h.shown⟩
    have hput := hset.putAll s
    exact ⟨hput.row, hput.col, hput.writes, hput.shown⟩
  | setColor => exact ⟨h.row, h.col, h.writes, h.shown⟩
  | clear bg => exact Console.onScreen_vgaClear h.writes bg

theorem onScreen_runVga {screen : Screen} (h : OnScreen screen) (calls : List VgaCall) :
    OnScreen (runVga calls screen) :=
  List.foldlRecOn calls _ h fun _ h call _ => onScreen_run h call

theorem onScreen_bannerLine {screen : Screen} (h : OnScreen screen) (row : Int) (text : List Byte)
    (fg : VgaColor) : OnScreen (bannerLine row text fg screen) :=
  onScreen_run (Console.onScreen_vgaSetCursor h.writes row 2) _

theorem onScreen_printSplash {screen : Screen} (h : screen.vga.Within InFrame) :
    OnScreen (printSplash screen) := by
  have hclear := Console.onScreen_vgaClear h .black
  have hdrawn : OnScreen (vgaDrawBox 0 0 7 80 .lightMagenta (vgaClear .black screen)) :=
    hclear.vgaDrawBox .lightMagenta (by decide) (by decide) le_rfl (by decide) (by decide)
  unfold printSplash
  dsimp only
  apply onScreen_runVga
  apply Console.onScreen_vgaSetCursor
  refine OnScreen.writes ?_
  iterate 5 apply onScreen_bannerLine
  exact hdrawn

theorem onScreen_kernelStart {s : Session} (h : s.screen.vga.Within InFrame) :
    OnScreen (kernelStart s).screen :=
  onScreen_printSplash (onScreen_run (Console.onScreen_vgaClear h .black) mounted).writes

theorem curAttr_printSplash (screen : Screen) :
    (printSplash screen).curAttr = vgaAttr .lightGrey .black :=
  curAttr_runVga _ _

theorem curAttr_kernelStart (s : Session) :
    (kernelStart s).screen.curAttr = vgaAttr .lightGrey .black := by
  unfold kernelStart
  exact curAttr_printSplash _

/-! ## A small machine -/

def sampleProgram : Program := ⟨⟨0, fun _ => 0⟩, demoImage⟩

def sampleAmbient : Ambient := ⟨fun _ => Pcb.zero, ⟨fun _ => 0, 0, 0⟩, fun _ => 0⟩

/-- A machine with these keys to come. -/
def sampleSession (codes : List Byte) : Session :=
  ⟨⟨⟨fun _ => 0, []⟩, 0, 0, 0, fun _ => 0⟩, fun _ => 0, false, codes,
    ⟨fun _ => 0, fun _ => File.zero⟩⟩

end SengOs.Shell
