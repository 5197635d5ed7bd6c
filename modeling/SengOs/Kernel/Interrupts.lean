import SengOs.Kernel.ContextSwitch
import SengOs.Kernel.Idt
import SengOs.Kernel.Pic
import SengOs.Lib.X86Interrupt

/-!
# `kernel/isr_stub.asm`

The handlers of the timer and of the keyboard, instruction by instruction, on the processor of
`ContextSwitch` with the interrupt descriptor table and the two controllers. An interrupt comes
in at any point where the interrupt flag is set: in a process, but also in the second half of
another handler, as `context_switch` comes back to `scheduler_tick` with the flag set.

A process has a list of *activations*, the handlers it is in, the innermost one first. An
activation keeps what the interrupt found, so that this can be compared with what `iret` brings
back. The C functions that a handler calls compute what they like outside the stack above their
return address, and come back; of what they do, the end of interrupt and the switch are steps
of their own.
-/

namespace SengOs.Kernel.Interrupts

open ByteMemory X86 Pic8259
open ContextSwitch (StackLayout AtCall Untouched contextSwitch processCreate)

/-! ## Handlers -/

/-- The two lines that are not masked. -/
inductive Irq where
  | timer
  | keyboard
  deriving DecidableEq

def Irq.index : Irq → Nat
  | timer => 0
  | keyboard => 1

theorem Irq.index_lt (irq : Irq) : irq.index < 8 := by
  cases irq <;> decide

def Irq.line (irq : Irq) : Line := ⟨irq.index, irq.index_lt⟩

/-- The number that the handler passes to `pic_send_eoi`. -/
def Irq.number : Irq → Word
  | timer => 0
  | keyboard => 1

inductive Callee where
  | schedulerTick
  | picSendEoi
  deriving DecidableEq

/-- `irq0_handler` -/
def irq0Handler : List (Op Callee) :=
  [.pushad, .call .schedulerTick, .pushImm 0, .call .picSendEoi, .addEsp 4, .popad, .iret]

/-- `irq1_handler` -/
def irq1Handler : List (Op Callee) :=
  [.pushad, .pushImm 1, .call .picSendEoi, .addEsp 4, .popad, .iret]

def Irq.handler : Irq → List (Op Callee)
  | timer => irq0Handler
  | keyboard => irq1Handler

/-- What a C function of a handler does besides computing. -/
inductive CStep where
  | picSendEoi (irq : BitVec 8)
  | pickAndSwitch
  deriving DecidableEq

/-- The body of a function called with the argument. -/
def Callee.body (argument : Word) : Callee → List CStep
  | schedulerTick => [.picSendEoi 0, .pickAndSwitch]
  | picSendEoi => [.picSendEoi (argument.setWidth 8)]

/-- Where the linker puts the table and the code besides. -/
structure Layout extends StackLayout where
  idt : Nat
  handlerAddress : Irq → Word
  entry : Callee → Word
  idt_stacks : idt + 2048 ≤ stackPool ∨ stackPool + stackSize * maxProcesses ≤ idt
  idt_boot : idt + 2048 ≤ bootStack ∨ 0x90000 ≤ idt
  idt_table : idt + 2048 ≤ processTable ∨ processTable + 48 * maxProcesses ≤ idt
  handler_ne : handlerAddress .timer ≠ handlerAddress .keyboard

/-- The handler that a gate leads to. -/
def Layout.handlerOf (L : Layout) (g : Gate) : Option Irq :=
  if g.IsInterrupt then
    if g.handler = L.handlerAddress .timer then some .timer
    else if g.handler = L.handlerAddress .keyboard then some .keyboard
    else none
  else none

/-! ## States -/

/-- A handler that has not returned: what the interrupt found, the instructions that are left,
and what is left of the function that it has called. -/
structure Activation where
  irq : Irq
  found : Interrupted
  mem : Mem
  code : List (Op Callee)
  calling : Option (List CStep)

namespace Activation

variable (a : Activation)

/-- The saved registers lie from here on. -/
def top : Word := a.found.regs .esp - 44

/-- Where ESP stands between two instructions of the handler. -/
def esp : Word := a.top + offset a.code

/-- Where the return address of a called function lies. -/
def base : Word := a.esp - 4

/-- The activation behind an instruction, if it did not return. -/
def after (argument : Word) (code : List (Op Callee)) : Op Callee → List Activation
  | .iret => []
  | .call f => [{ a with code, calling := some (f.body argument) }]
  | _ => [{ a with code }]

end Activation

structure State where
  sys : ContextSwitch.System
  cs : BitVec 16
  flags : Word
  pics : Pair
  activations : Nat → List Activation
  fault : Bool

namespace State

variable (s : State)

def core : Core := ⟨s.sys.cpu, s.cs, s.flags⟩

def setCore (c : Core) : State :=
  { s with sys := { s.sys with cpu := c.cpu }, cs := c.cs, flags := c.flags }

/-- The activations of the running process. -/
def running : List Activation := s.activations s.sys.current

def setRunning (as : List Activation) : State :=
  { s with activations := Function.update s.activations s.sys.current as }

/-- The activation of a handler that begins. -/
def activation (irq : Irq) : Activation :=
  ⟨irq, s.core.interrupted, s.sys.cpu.mem, irq.handler, none⟩

/-- The processor takes the interrupt with the vector; without a gate to a handler it faults. -/
def take (L : Layout) (num : Vector) (pics : Pair) : State :=
  let g := gateAt L.idt s.sys.cpu.mem num
  match L.handlerOf g with
  | none => { s with pics, fault := true }
  | some irq =>
    { (s.setCore (s.core.deliver g.selector g.handler)).setRunning
        (s.activation irq :: s.running) with pics }

/-- The next instruction of the innermost handler. -/
def execOp (L : Layout) (a : Activation) (rest : List Activation) (o : Op Callee)
    (code : List (Op Callee)) : State :=
  (s.setCore (o.exec L.entry s.core)).setRunning
    (a.after (load s.sys.cpu.mem (s.sys.cpu.regs .esp)) code o ++ rest)

/-- A called function comes back. -/
def ret (a : Activation) (rest : List Activation) : State :=
  (s.setCore { s.core with cpu := Instr.ret.exec s.sys.cpu }).setRunning
    ({ a with calling := none } :: rest)

/-- A called function has done a step, and `steps` are left. -/
def advance (a : Activation) (rest : List Activation) (steps : List CStep) : State :=
  s.setRunning ({ a with calling := some steps } :: rest)

end State

/-! ## Steps -/

/-- Where the running code may leave ESP, and what it leaves of its stack: a function that a
handler called keeps its return address and everything from the saved registers on. Between
the instructions of a handler nothing else runs. -/
def Keeps (L : Layout) (s : State) (c : Cpu) : Prop :=
  match s.running with
  | [] => (c.regs .esp).toNat ≤ L.hi s.sys.current
  | a :: _ => a.calling ≠ none ∧ (c.regs .esp).toNat ≤ a.base.toNat ∧
      Agree s.sys.cpu.mem c.mem a.base.toNat (a.base.toNat + 4) ∧
      Agree s.sys.cpu.mem c.mem a.top.toNat (L.hi s.sys.current)

/-- Where a switch may be: in a process, in `scheduler_yield`, or in `scheduler_tick`. -/
inductive Switches (s : State) : List Activation → Prop
  | yield (h : s.running = []) : Switches s []
  | tick {a : Activation} {rest : List Activation} {steps : List CStep} (h : s.running = a :: rest)
      (hcalling : a.calling = some (.pickAndSwitch :: steps))
      (hesp : (s.sys.cpu.regs .esp).toNat + 12 ≤ a.base.toNat) :
      Switches s ({ a with calling := some steps } :: rest)

inductive Act where
  | compute (cpu : Cpu) (flags : Word)
  | setInterrupts (on : Bool)
  | create (slot : Nat) (entry : Word)
  | raise (irq : Fin 16)
  | accept (num : Vector)
  | op
  | picSendEoi
  | stay
  | switch (next : Nat)
  | ret

inductive Step (L : Layout) (s : State) : Act → State → Prop
  /-- A process, or a function that a handler called. -/
  | compute {cpu : Cpu} {flags : Word} (hfault : s.fault = false)
      (hothers : ∀ p < maxProcesses, s.sys.created p = true → p ≠ s.sys.current →
        Untouched L.toStackLayout s.sys.cpu.mem cpu.mem p)
      (hidt : Agree s.sys.cpu.mem cpu.mem L.idt (L.idt + 2048))
      (hflag : cpu.interrupts = s.sys.cpu.interrupts) (hkeeps : Keeps L s cpu) :
      Step L s (.compute cpu flags) (s.setCore ⟨cpu, s.cs, flags⟩)
  /-- `cli` and `sti` of `scheduler_yield` and `kernel_main` -/
  | setInterrupts {on : Bool} (hfault : s.fault = false) (hprocess : s.running = []) :
      Step L s (.setInterrupts on)
        (s.setCore { s.core with cpu := { s.sys.cpu with interrupts := on } })
  | create {slot : Nat} {entry : Word} (hfault : s.fault = false) (hprocess : s.running = [])
      (hslot : 1 ≤ slot ∧ slot < maxProcesses) (hfree : s.sys.created slot = false) :
      Step L s (.create slot entry)
        { s with
          sys := { s.sys with
            cpu := { s.sys.cpu with
              mem := processCreate L.toStackLayout s.sys.cpu.mem slot entry }
            created := Function.update s.sys.created slot true } }
  /-- A device raises a line. -/
  | raise {irq : Fin 16} (hfault : s.fault = false) :
      Step L s (.raise irq) { s with pics := s.pics.raise irq }
  /-- The stack has room for a frame, an argument and a return address. -/
  | accept {num : Vector} {pics : Pair} (hfault : s.fault = false)
      (hon : s.sys.cpu.interrupts = true) (haccept : s.pics.accept = some (num, pics))
      (hroom : L.lo s.sys.current + 52 ≤ (s.sys.cpu.regs .esp).toNat) :
      Step L s (.accept num) (s.take L num pics)
  | op {a : Activation} {rest : List Activation} {o : Op Callee} {code : List (Op Callee)}
      (hfault : s.fault = false) (hrunning : s.running = a :: rest) (hcalling : a.calling = none)
      (hcode : a.code = o :: code) :
      Step L s .op (s.execOp L a rest o code)
  | picSendEoi {a : Activation} {rest : List Activation} {irq : BitVec 8} {steps : List CStep}
      (hfault : s.fault = false) (hrunning : s.running = a :: rest)
      (hcalling : a.calling = some (.picSendEoi irq :: steps)) :
      Step L s .picSendEoi { s.advance a rest steps with pics := picSendEoi s.pics irq }
  /-- No other process is READY. -/
  | stay {a : Activation} {rest : List Activation} {steps : List CStep}
      (hfault : s.fault = false) (hrunning : s.running = a :: rest)
      (hcalling : a.calling = some (.pickAndSwitch :: steps)) :
      Step L s .stay (s.advance a rest steps)
  | switch {next : Nat} {as : List Activation} (hfault : s.fault = false)
      (hoff : s.sys.cpu.interrupts = false) (hcall : AtCall L.toStackLayout s.sys next)
      (hswitches : Switches s as) :
      Step L s (.switch next)
        { s.setRunning as with
          sys := { s.sys with cpu := execAll s.sys.cpu contextSwitch, current := next } }
  | ret {a : Activation} {rest : List Activation} (hfault : s.fault = false)
      (hrunning : s.running = a :: rest) (hcalling : a.calling = some [])
      (hesp : s.sys.cpu.regs .esp = a.base) :
      Step L s .ret (s.ret a rest)

/-- `kernel_main` before `sti`: the table and the controllers are set up, and PID 0 runs. -/
def boot (L : Layout) (c : Cpu) (pics : Pair) : State where
  sys := .boot { c with
    interrupts := false
    mem := idtSetGate L.idt
      (idtInit L.idt (L.handlerAddress .timer) (L.handlerAddress .keyboard) c.mem).1
      32 (L.handlerAddress .timer) 0x08 0x8E }
  cs := 0x08
  flags := 0
  pics := picInit pics
  activations _ := []
  fault := false

/-- The states of the runs of the kernel. PID 0 starts on its stack, and the firmware has ended
its interrupts. -/
structure Boots (L : Layout) (c : Cpu) (pics : Pair) : Prop where
  stack : (c.regs .esp).toNat ≤ L.hi 0
  quiet : pics.master.Quiet

def Reachable (L : Layout) (c : Cpu) (pics : Pair) (s : State) : Prop :=
  Relation.ReflTransGen (fun s s' => ∃ a, Step L s a s') (boot L c pics) s

end SengOs.Kernel.Interrupts
