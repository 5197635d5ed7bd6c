import SengOs.Kernel.Repeat
import SengOs.Shell.Processes

/-!
# The commands `race` and `racem`

`kernel_main` creates its two tasks and becomes the shell, which takes `race`, `racem` and
`kill` as they are typed. `race_mutex` is zero before the first `racem`, as `mutex_init` leaves
it but for the owner, which no code reads. A second `racem` runs `mutex_init` again, whatever
the threads of the first are doing: one of them can be inside its critical section, or wait.
-/

namespace SengOs.Shell

open CString Kernel Transition

/-- The tests of `shell_run`, in their order, up to `racem`, and what the kernel does for a
line. -/
def lineCalls (img : Image) (line : CString) : List ShellCall :=
  let cmd := kLtrim line
  if strlen cmd = 0 then []
  else if kStrcmp cmd "help" = 0 then []
  else if kStrcmp cmd "clear" = 0 then []
  else if kStrcmp cmd "about" = 0 then []
  else if kStrcmp cmd "mem" = 0 then []
  else if kStrncmp cmd.byteAt (literal "echo ") 5 = 0 then []
  else if kStrcmp cmd "ps" = 0 then []
  else if kStrncmp cmd.byteAt (literal "kill ") 5 = 0 then
    [.kill (readPid (advance cmd 5).bytes 0)]
  else if kStrcmp cmd "race" = 0 then race img
  else if kStrcmp cmd "racem" = 0 then racem img
  else []

/-- `kernel_main`, with the lines that are typed. -/
def kernelMain (img : Image) (lines : List Line) : List ShellCall :=
  demoTasks img ++ lines.flatMap fun line => lineCalls img line.text

/-- In every run whose steps are settled, whatever is typed, at most one thread is inside its
critical section and no waiter is dropped. -/
theorem racem_repeats_safely (img : Image) (m₀ : Machine) (lines : List Line) {m : Machine}
    (h : Reaches (step img.config) Settled (boot m₀ (kernelMain img lines)) m) : RacemSafe m :=
  racemSafe_of_reaches img.alternating h

def demoImage : Image := ⟨0x1000, 0x1100, 0x1200, 0x1300, 0x1400, 0x1500, 0x20000⟩

def racemLine : Line := ⟨⟨chars "racem", by decide⟩, by decide⟩

/-- The second `racem` comes before the threads of the first have started. Then thread 3 has the
mutex and thread 4 waits for it. -/
theorem racem_repeats_safely_at_once :
    ∃ m, Reaches (step demoImage.config) Settled
        (boot .blank (kernelMain demoImage [racemLine, racemLine])) m ∧
      (m.thread 3).holds = true ∧ Waits m 4 ∧ RacemSafe m := by
  obtain ⟨m, hm, hP⟩ := reaches_of_any (step demoImage.config) Settled
    (boot .blank (kernelMain demoImage [racemLine, racemLine]))
    (execs 82 ++ ticks 3 ++ execs 5 ++ ticks 1 ++ execs 3)
    (fun m => decide ((m.thread 3).holds = true ∧ (m.table 4).state = .blocked))
    (by decide +kernel)
  obtain ⟨hholds, hblocked⟩ := of_decide_eq_true hP
  exact ⟨m, hm, hholds, ⟨by decide, hblocked⟩, racem_repeats_safely _ _ _ hm⟩

/-- Thread 3 is in its increment when the second `racem` clears `locked`: thread 4 comes in and
loads the same value. If thread 4 already waits, the store of `nwaiters` drops it. -/
theorem racem_repeated :
    (∃ m, Reaches (step demoImage.config) Always
        (boot .blank (kernelMain demoImage [racemLine, racemLine])) m ∧
      (m.thread 3).pc = .incStore 0 ∧ (m.thread 4).pc = .incStore 0 ∧ ¬RacemSafe m) ∧
    ∃ m, Reaches (step demoImage.config) Always
        (boot .blank (kernelMain demoImage [racemLine, racemLine])) m ∧
      Waits m 4 ∧ ¬RacemSafe m := by
  constructor
  · obtain ⟨m, hm, hP⟩ := reaches_of_any (step demoImage.config) Always
      (boot .blank (kernelMain demoImage [racemLine, racemLine]))
      (execs 76 ++ ticks 3 ++ execs 5 ++ ticks 2 ++ execs 6 ++ ticks 4 ++ execs 5)
      (fun m => decide ((m.thread 3).pc = .incStore 0 ∧ (m.thread 4).pc = .incStore 0 ∧
        (m.thread 3).holds = true ∧ (m.thread 4).holds = true))
      (by decide +kernel)
    obtain ⟨hthree, hfour, hholds, hholds'⟩ := of_decide_eq_true hP
    exact ⟨m, hm, hthree, hfour, fun hsafe =>
      absurd (hsafe.exclusive 3 4 hholds hholds') (by decide)⟩
  · obtain ⟨m, hm, hP⟩ := reaches_of_any (step demoImage.config) Always
      (boot .blank (kernelMain demoImage [racemLine, racemLine]))
      (execs 76 ++ ticks 3 ++ execs 5 ++ ticks 1 ++ execs 10)
      (fun m => decide ((m.table 4).state = .blocked ∧ m.mutex.nwaiters = 0) &&
        decide (∀ q < maxProcesses, (m.thread q).pc.carries m.mutex.waiters ≠ some 4))
      (by decide +kernel)
    rw [Bool.and_eq_true, decide_eq_true_eq, decide_eq_true_eq] at hP
    obtain ⟨⟨hblocked, hn⟩, hnone⟩ := hP
    have hwaits : Waits m 4 := ⟨by decide, hblocked⟩
    refine ⟨m, hm, hwaits, fun hsafe => ?_⟩
    rcases hsafe.listed 4 hwaits with ⟨i, hi, -⟩ | ⟨q, -, hq⟩
    · rw [hn] at hi
      omega
    · exact (sound_of_reaches hm).forall_pc (P := fun pc => pc.carries m.mutex.waiters ≠ some 4)
        nofun hnone q hq

end SengOs.Shell
