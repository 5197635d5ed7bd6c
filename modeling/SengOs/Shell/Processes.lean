import Mathlib.Data.List.TakeWhile
import SengOs.Kernel.Process
import SengOs.Lib.Word
import SengOs.Shell.Commands

/-!
# `ps` and `kill` of `kernel/kernel.c`

The two commands of the shell that look at the process table. The addresses that `ps` passes
are those that the linker chose.
-/

namespace SengOs.Shell

open ByteMemory CString Decimal Kernel

/-- Where the linker puts the process table and the literals of `state_names`. -/
structure Link where
  processTable : Nat
  stateNames : ProcessState → Nat

/-- `state_names[]` -/
def stateName : ProcessState → CString
  | .free => ⟨chars "FREE", by decide⟩
  | .ready => ⟨chars "READY", by decide⟩
  | .running => ⟨chars "RUNNING", by decide⟩
  | .blocked => ⟨chars "BLOCKED", by decide⟩
  | .terminated => ⟨chars "TERMINATED", by decide⟩

/-- The string at `name`. -/
def processName (pcb : Pcb) : CString :=
  ⟨pcb.name.takeWhile (· != 0), fun _ hb => by simpa using List.mem_takeWhile_imp hb⟩

/-- One round of the loop in `ps`; a `pcb_t` has 48 bytes, and its name is at offset 16. -/
def psLine (link : Link) (t : Table) (i : Nat) : Option Print :=
  if (t i).state = .free then none
  else
    some (.printf (chars "  %d    %-10s  %s\n")
      [.word (BitVec.ofNat 32 (t i).pid),
        .str (BitVec.ofNat 32 (link.stateNames (t i).state)) (stateName (t i).state),
        .str (BitVec.ofNat 32 (link.processTable + 48 * i + 16)) (processName (t i))])

def ps (link : Link) (t : Table) : List Print :=
  [.puts (chars "  PID  STATE       NAME\n"), .puts (chars "  ---  ----------  --------\n")] ++
    (List.range maxProcesses).filterMap (psLine link t)

/-- `while (*arg >= '0' && *arg <= '9') { pid = pid * 10 + (uint32_t)(*arg - '0'); arg++; }` -/
def readPid : List Byte → Nat → Nat
  | [], pid => pid
  | c :: arg, pid =>
    if isDigit c then readPid arg (u32 (pid * 10 + (c.toNat - 0x30))) else pid

def kill (t : Table) (arg : CString) : List Print × Table :=
  let pid := readPid arg.bytes 0
  if pid = 0 then ([.puts (chars "  Cannot kill kernel process (PID 0)\n")], t)
  else if pid ≥ maxProcesses ∨ (t pid).state = .free then
    ([.puts (chars "  No such process\n")], t)
  else
    ([.printf (chars "  Process %d terminated\n") [.word (BitVec.ofNat 32 pid)]],
      processTerminate t pid)

inductive ProcessCommand where
  | ps
  | kill (arg : CString)

/-- The tests of `shell_run`, in their order, up to `kill`. -/
def dispatchProcess (line : CString) : Option ProcessCommand :=
  let cmd := kLtrim line
  if strlen cmd = 0 then none
  else if kStrcmp cmd "help" = 0 then none
  else if kStrcmp cmd "clear" = 0 then none
  else if kStrcmp cmd "about" = 0 then none
  else if kStrcmp cmd "mem" = 0 then none
  else if kStrncmp cmd.byteAt (literal "echo ") 5 = 0 then none
  else if kStrcmp cmd "ps" = 0 then some .ps
  else if kStrncmp cmd.byteAt (literal "kill ") 5 = 0 then some (.kill (advance cmd 5))
  else none

/-- What a line does with the process table. -/
def runProcessLine (link : Link) (t : Table) (line : CString) : List Print × Table :=
  match dispatchProcess line with
  | none => ([], t)
  | some .ps => (ps link t, t)
  | some (.kill arg) => kill t arg

end SengOs.Shell
