import SengOs.Kernel.Mutex
import SengOs.Kernel.Scheduler
import SengOs.Lib.Transition

/-!
# The kernel as a machine

One processor runs the shell (PID 0) and the threads it creates. A timer tick can come between
any two accesses to shared memory, except where the code has interrupts off: a transition is
one such access, one region between `cli` and `sti`, or one tick. What a process does next is
its program counter, a point of the source.

Two kinds of data are not in the source. A thread records the entry point it was created with,
whether it is between the return of `mutex_lock` and the store `m->locked = 0`, and how many
increments it has completed. `frame` records the last frame that `process_create` built or
`context_switch` saved for a slot. A switch to a context that is not this frame, and an index
outside `waiters[]`, end the run.
-/

namespace SengOs.Kernel

open ByteMemory Transition

/-! ## Programs and program counters -/

/-- What a thread's program does with the shared data. `increment` is `myglobal++`. -/
inductive ThreadCall where
  | lock
  | unlock
  | increment
  | exit
  deriving DecidableEq

inductive ThreadPc where
  | idle
  /-- `atomic_xchg(&m->locked, 1) == 1`, and whether it is tried again after a wait. -/
  | lockXchg (again : Bool)
  /-- the append to `waiters` and the store of BLOCKED, interrupts off -/
  | lockBlock
  | lockYield
  | lockOwner
  | unlockOwner
  | unlockLocked
  /-- `m->nwaiters > 0` -/
  | unlockTest
  /-- `--m->nwaiters`: its load, its store, and the read of `waiters[]` -/
  | unlockLoad
  | unlockStore (v : Int)
  | unlockRead (v : Int)
  /-- `scheduler_unblock(pid)`: its tests and its store -/
  | unblockTest (pid : Nat)
  | unblockStore (pid : Nat)
  | incLoad
  | incStore (v : Int32)
  | exitStore
  | halted
  deriving DecidableEq

def ThreadCall.start : ThreadCall → ThreadPc
  | .lock => .lockXchg false
  | .unlock => .unlockOwner
  | .increment => .incLoad
  | .exit => .exitStore

structure Thread where
  pc : ThreadPc
  todo : List ThreadCall
  entry : Option Nat
  holds : Bool
  incs : Nat

def Thread.unused : Thread := ⟨.idle, [], none, false, 0⟩

/-- What the shell does with the shared data. `resetCounter` is `myglobal = 0`. -/
inductive ShellCall where
  | create (name : CString) (entry : Nat)
  | kill (pid : Nat)
  | mutexInit
  | resetCounter

/-- The points of `process_create`, with the store that comes next. -/
inductive CreateStage where
  | scan
  | push (k : Nat)
  | pid
  | state
  | esp
  | stack
  | name
  deriving DecidableEq

/-- The arguments and the local variable of `process_create`. -/
structure Creation where
  name : CString
  entry : Nat
  slot : Nat

inductive ShellPc where
  | idle
  | create (c : Creation) (stage : CreateStage)
  | killTest (pid : Nat)
  | killStore (pid : Nat)
  | initLocked
  | initOwner
  | initWaiters
  | resetStore

def ShellCall.start : ShellCall → ShellPc
  | .create name entry => .create ⟨name, entry, 1⟩ .scan
  | .kill pid => .killTest pid
  | .mutexInit => .initLocked
  | .resetCounter => .resetStore

structure Shell where
  pc : ShellPc
  todo : List ShellCall

/-! ## States -/

/-- The program at each entry point, and the address of `stacks`. -/
structure Config where
  code : Nat → List ThreadCall
  stacksAddr : Nat

/-- The bottom of a slot's stack. The boot stack is taken to be one of 4096 bytes. -/
def Config.stackBase (cfg : Config) (p : Nat) : Nat :=
  if p = 0 then 0x90000 - stackSize else cfg.stacksAddr + p * stackSize

structure Machine where
  table : Table
  current : Nat
  mutex : Mutex
  counter : Int32
  stackMem : Nat → Nat → Nat
  shell : Shell
  thread : Nat → Thread
  frame : Nat → Option Frame
  fault : Bool

namespace Machine

variable (m : Machine)

def setThread (p : Nat) (th : Thread) : Machine :=
  { m with thread := Function.update m.thread p th }

def goto (p : Nat) (pc : ThreadPc) : Machine := m.setThread p { m.thread p with pc := pc }

def shellGoto (pc : ShellPc) : Machine := { m with shell := { m.shell with pc := pc } }

/-- The saved stack pointer of `p` points into the stack of `p` at its last frame. -/
def SavedFrame (cfg : Config) (p : Nat) : Prop :=
  ∃ fr ∈ m.frame p, (m.table p).esp = cfg.stackBase p + 4 * fr.top ∧
    ∀ k < frameWords, m.stackMem p (fr.top + k) = fr.words k

instance (cfg : Config) (p : Nat) : Decidable (m.SavedFrame cfg p) :=
  match h : m.frame p with
  | none => isFalse fun ⟨_, hfr, _⟩ => by rw [h] at hfr; cases hfr
  | some fr => decidable_of_iff ((m.table p).esp = cfg.stackBase p + 4 * fr.top ∧
      ∀ k < frameWords, m.stackMem p (fr.top + k) = fr.words k)
      ⟨fun hs => ⟨fr, h, hs⟩, fun ⟨_, hfr, hs⟩ => by
        rw [h, Option.mem_some_iff] at hfr
        subst hfr
        exact hs⟩

/-! ## The scheduler -/

/-- `context_switch` on the side of the outgoing process `p`, whose frame becomes `out`. -/
def save (cfg : Config) (p : Nat) (out : Frame) : Machine :=
  { m with
    table := setEsp m.table p (cfg.stackBase p + 4 * out.top)
    stackMem := Function.update m.stackMem p fun i =>
      if out.top ≤ i ∧ i < out.top + frameWords then out.words (i - out.top) else m.stackMem p i
    frame := Function.update m.frame p (some out) }

/-- The switch to `next`, which faults when there is no context to load. -/
def switchTo (cfg : Config) (out : Frame) (next : Nat) : Machine :=
  let saved := { m with
    table := switchStates m.table m.current next
    current := next }.save cfg m.current out
  { saved with fault := !decide (saved.SavedFrame cfg next) }

/-- `pick_and_switch` -/
def pickAndSwitch (cfg : Config) (out : Frame) : Machine :=
  match pickNext m.table m.current with
  | none => m
  | some next => m.switchTo cfg out next

/-! ## The threads -/

/-- The next access of thread `p`, which is running; `out` is its frame if it yields. -/
def threadStep (cfg : Config) (p : Nat) (out : Frame) : Option Machine :=
  match (m.thread p).pc with
  | .idle =>
    match (m.thread p).todo with
    | [] => none
    | call :: rest =>
      some (m.setThread p { m.thread p with pc := call.start, todo := rest })
  | .lockXchg _ =>
    some ({ m with mutex := { m.mutex with locked := 1 } }.goto p
      (if m.mutex.locked = 1 then .lockBlock else .lockOwner))
  | .lockBlock =>
    if 0 ≤ m.mutex.nwaiters ∧ m.mutex.nwaiters < maxProcesses then
      some ({ m with
        mutex := m.mutex.append p
        table := setState m.table p .blocked }.goto p .lockYield)
    else some { m with fault := true }
  | .lockYield => some ((m.goto p (.lockXchg true)).pickAndSwitch cfg out)
  | .lockOwner =>
    some ({ m with mutex := { m.mutex with owner := p } }.setThread p
      { m.thread p with pc := .idle, holds := true })
  | .unlockOwner =>
    some ({ m with mutex := { m.mutex with owner := -1 } }.goto p .unlockLocked)
  | .unlockLocked =>
    some ({ m with mutex := { m.mutex with locked := 0 } }.setThread p
      { m.thread p with pc := .unlockTest, holds := false })
  | .unlockTest => some (m.goto p (if m.mutex.nwaiters > 0 then .unlockLoad else .idle))
  | .unlockLoad => some (m.goto p (.unlockStore (m.mutex.nwaiters - 1)))
  | .unlockStore v =>
    some ({ m with mutex := { m.mutex with nwaiters := v } }.goto p (.unlockRead v))
  | .unlockRead v =>
    if 0 ≤ v ∧ v < maxProcesses then
      some (m.goto p (.unblockTest (m.mutex.waiters v.toNat)))
    else some { m with fault := true }
  | .unblockTest pid =>
    some (m.goto p
      (if pid < maxProcesses ∧ (m.table pid).state = .blocked then .unblockStore pid
       else .idle))
  | .unblockStore pid => some ({ m with table := setState m.table pid .ready }.goto p .idle)
  | .incLoad => some (m.goto p (.incStore m.counter))
  | .incStore v =>
    some ({ m with counter := v + 1 }.setThread p
      { m.thread p with pc := .idle, incs := (m.thread p).incs + 1 })
  | .exitStore => some ({ m with table := processTerminate m.table p }.goto p .halted)
  | .halted => none

/-! ## The shell -/

/-- The next access of `process_create`. The first store into the stack is the entry point:
it is what the new thread will run. -/
def createStep (cfg : Config) (c : Creation) : CreateStage → Machine
  | .scan =>
    if c.slot ≥ maxProcesses then m.shellGoto .idle
    else if (m.table c.slot).state = .free then m.shellGoto (.create c (.push 0))
    else m.shellGoto (.create { c with slot := c.slot + 1 } .scan)
  | .push k =>
    { m with
      stackMem := Function.update m.stackMem c.slot
        (Function.update (m.stackMem c.slot) (stackWords - 1 - k) (pushedWord c.entry k))
      thread := if k = 0 then Function.update m.thread c.slot
          { Thread.unused with todo := cfg.code c.entry, entry := some c.entry }
        else m.thread }.shellGoto
      (.create c (if k + 1 < frameWords then .push (k + 1) else .pid))
  | .pid =>
    { m with
      table := storePcb m.table c.slot fun pcb => { pcb with pid := c.slot } }.shellGoto
      (.create c .state)
  | .state =>
    { m with table := setState m.table c.slot .ready }.shellGoto (.create c .esp)
  | .esp =>
    { m with
      table := setEsp m.table c.slot (cfg.stackBase c.slot + 4 * (newFrame c.entry).top)
      frame := Function.update m.frame c.slot (some (newFrame c.entry)) }.shellGoto
      (.create c .stack)
  | .stack =>
    { m with
      table := storePcb m.table c.slot fun pcb =>
        { pcb with stack := cfg.stackBase c.slot } }.shellGoto (.create c .name)
  | .name =>
    { m with
      table := storePcb m.table c.slot fun pcb =>
        { pcb with name := pcbName c.name } }.shellGoto .idle

/-- The next access of the shell, which is running. -/
def shellStep (cfg : Config) : Option Machine :=
  match m.shell.pc with
  | .idle =>
    match m.shell.todo with
    | [] => none
    | call :: rest => some { m with shell := ⟨call.start, rest⟩ }
  | .create c stage => some (m.createStep cfg c stage)
  | .killTest pid =>
    some (m.shellGoto
      (if pid = 0 ∨ pid ≥ maxProcesses ∨ (m.table pid).state = .free then .idle
       else .killStore pid))
  | .killStore pid => some ({ m with table := processTerminate m.table pid }.shellGoto .idle)
  | .initLocked => some ({ m with mutex := { m.mutex with locked := 0 } }.shellGoto .initOwner)
  | .initOwner =>
    some ({ m with mutex := { m.mutex with owner := -1 } }.shellGoto .initWaiters)
  | .initWaiters =>
    some ({ m with mutex := { m.mutex with nwaiters := 0 } }.shellGoto .idle)
  | .resetStore => some ({ m with counter := 0 }.shellGoto .idle)

end Machine

/-! ## The transitions -/

inductive Act where
  /-- The running process makes its next access to shared data. -/
  | exec (out : Frame)
  /-- `scheduler_tick` interrupts it; `out` is the frame that would be saved. -/
  | tick (out : Frame)
  /-- It computes on its own stack. -/
  | work (words : Nat → Nat)

def Act.isExec : Act → Bool
  | .exec _ => true
  | _ => false

def step (cfg : Config) (m : Machine) (a : Act) : Option Machine :=
  if m.fault then none
  else match a with
    | .exec out => if m.current = 0 then m.shellStep cfg else m.threadStep cfg m.current out
    | .tick out => some (m.pickAndSwitch cfg out)
    | .work words => some { m with stackMem := Function.update m.stackMem m.current words }

/-- `n` accesses in a row, for runs that are given step by step. -/
def execs (n : Nat) : List Act := List.replicate n (.exec (newFrame 0))

def ticks (n : Nat) : List Act := List.replicate n (.tick (newFrame 0))

/-- The machine with its memory zero. -/
def Machine.blank : Machine where
  table _ := Pcb.zero
  current := 0
  mutex := ⟨0, 0, fun _ => 0, 0⟩
  counter := 0
  stackMem _ _ := 0
  shell := ⟨.idle, []⟩
  thread _ := Thread.unused
  frame _ := none
  fault := false

/-- The machine after `process_init` and `mutex_init`, when the shell starts on its calls. -/
def boot (m : Machine) (calls : List ShellCall) : Machine :=
  { m with
    table := processInit m.table
    current := 0
    mutex := mutexInit m.mutex
    shell := ⟨.idle, calls⟩
    thread := fun _ => Thread.unused
    frame := fun _ => none
    fault := false }

end SengOs.Kernel
