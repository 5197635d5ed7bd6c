import SengOs.Lib.X86

/-!
# Interrupts of a 32-bit x86 processor

An interrupt through an interrupt gate pushes EFLAGS, CS and EIP and clears the interrupt flag;
`iret` pops them. A handler is a sequence of `Op`, which saves the registers with `pushad` and
calls functions in between. `Op.offset` is where ESP stands before an operation, above the
registers that are saved.

`Stacked m top k` says that the whole state `k` that an interrupt found lies from `top` on;
`IretFrame` is the part of it that `iret` pops. Delivery, `pushad`, `popad` and `iret` lead
from one to the other (`iretFrame_deliver`, `stacked_pushad`, `popad_stacked`,
`interrupted_iret`).
-/

namespace SengOs.X86

open ByteMemory

def interruptFlag : Word := 0x200

/-- TF, NT, RF and VM, which an interrupt gate clears besides. -/
def gateFlags : Word := 0x34100

/-- A processor with its code segment and its flags; the interrupt flag stands in `cpu`. -/
structure Core where
  cpu : Cpu
  cs : BitVec 16
  flags : Word

/-- What an interrupt finds, and leaves as it was if it is transparent. -/
@[ext] structure Interrupted extends Context where
  cs : BitVec 16
  eflags : Word

def Core.eflags (c : Core) : Word :=
  if c.cpu.interrupts then c.flags ||| interruptFlag else c.flags &&& ~~~interruptFlag

def Cpu.context (c : Cpu) : Context := ⟨c.regs, c.eip⟩

def Core.interrupted (c : Core) : Interrupted :=
  { c.cpu.context with cs := c.cs, eflags := c.eflags }

/-- An interrupt through an interrupt gate. -/
def Core.deliver (c : Core) (selector : BitVec 16) (handler : Word) : Core where
  cpu := { ((c.cpu.push c.eflags).push (c.cs.setWidth 32)).push c.cpu.eip with
    eip := handler, interrupts := false }
  cs := selector
  flags := c.flags &&& ~~~gateFlags

/-- `iret` to the same ring. -/
def Core.iret (c : Core) : Core where
  cpu := { c.cpu.set .esp (c.cpu.regs .esp + 12) with
    eip := load c.cpu.mem (c.cpu.regs .esp)
    interrupts := (load c.cpu.mem (c.cpu.regs .esp + 8)).getLsbD 9 }
  cs := (load c.cpu.mem (c.cpu.regs .esp + 4)).setWidth 16
  flags := load c.cpu.mem (c.cpu.regs .esp + 8)

/-! ## Handlers -/

/-- The instructions of a handler that calls functions of `F`. -/
inductive Op (F : Type) where
  | pushad
  | popad
  | pushImm (v : Word)
  | addEsp (n : Word)
  | call (f : F)
  | iret
  deriving DecidableEq

/-- The length of the encoding. -/
def Op.size {F : Type} : Op F → Word
  | pushad | popad | iret => 1
  | pushImm _ => 2
  | addEsp _ => 3
  | call _ => 5

/-- The processor after an operation; a call goes to the entry of the function. -/
def Op.exec {F : Type} (entry : F → Word) (c : Core) : Op F → Core
  | pushad => { c with cpu := { Instr.pushad.exec c.cpu with eip := c.cpu.eip + 1 } }
  | popad => { c with cpu := { Instr.popad.exec c.cpu with eip := c.cpu.eip + 1 } }
  | pushImm v => { c with cpu := { c.cpu.push v with eip := c.cpu.eip + 2 } }
  | addEsp n =>
    { c with cpu := { c.cpu.set .esp (c.cpu.regs .esp + n) with eip := c.cpu.eip + 3 } }
  | call f => { c with cpu := { c.cpu.push (c.cpu.eip + 5) with eip := entry f } }
  | iret => c.iret

def codeSize {F : Type} : List (Op F) → Word
  | [] => 0
  | o :: code => o.size + codeSize code

/-- Where ESP stands before the code, above the saved registers. -/
def offset {F : Type} : List (Op F) → Word
  | [] => 0
  | .iret :: _ => 32
  | .pushad :: code => offset code + 32
  | .popad :: code => offset code - 32
  | .pushImm _ :: code => offset code + 4
  | .addEsp n :: code => offset code - n
  | .call _ :: code => offset code

/-! ## Frames -/

/-- EIP, CS and EFLAGS lie from `a` on. -/
structure IretFrame (m : Mem) (a : Word) (k : Interrupted) : Prop where
  eip : load m a = k.eip
  cs : load m (a + 4) = k.cs.setWidth 32
  eflags : load m (a + 8) = k.eflags
  esp : k.regs .esp = a + 12

/-- The registers lie from `top` on, as `pushad` leaves them below EIP, CS and EFLAGS. -/
structure Stacked (m : Mem) (top : Word) (k : Interrupted) : Prop where
  reg : ∀ r, r ≠ .esp → load m (top + r.place) = k.regs r
  frame : IretFrame m (top + 32) k

@[simp] theorem Cpu.set_self (c : Cpu) (r : Reg) (v : Word) : (c.set r v).regs r = v := by
  show Function.update c.regs r v r = v
  rw [Function.update_self]

@[simp] theorem Cpu.push_esp (c : Cpu) (v : Word) :
    (c.push v).regs .esp = c.regs .esp - 4 :=
  c.set_self .esp _

section Frames

variable {c : Core} {m m' : Mem} {a top : Word} {k : Interrupted}

theorem IretFrame.congr (h : IretFrame m a k) (ha : a.toNat + 12 ≤ 2 ^ 32)
    (hagree : Agree m m' a.toNat (a.toNat + 12)) : IretFrame m' a k where
  eip := (load_congr (hagree.mono le_rfl (by omega))).symm.trans h.eip
  cs := (load_congr (hagree.mono (by bv_omega) (by bv_omega))).symm.trans h.cs
  eflags := (load_congr (hagree.mono (by bv_omega) (by bv_omega))).symm.trans h.eflags
  esp := h.esp

theorem Stacked.congr (h : Stacked m top k) (htop : top.toNat + 44 ≤ 2 ^ 32)
    (hagree : Agree m m' top.toNat (top.toNat + 44)) : Stacked m' top k where
  reg r hr := by
    obtain ⟨i, hi, hplace⟩ := r.place_eq
    rw [← h.reg r hr]
    exact (load_congr (hagree.mono (by bv_omega) (by bv_omega))).symm
  frame := h.frame.congr (by bv_omega) (hagree.mono (by bv_omega) (by bv_omega))

theorem deliver_cpu (c : Core) (selector : BitVec 16) (handler : Word) :
    (c.deliver selector handler).cpu =
      { c.cpu.set .esp (c.cpu.regs .esp - 12) with
        eip := handler, interrupts := false
        mem := pushAll c.cpu.mem (c.cpu.regs .esp) [c.eflags, c.cs.setWidth 32, c.cpu.eip] } := by
  have hpush := foldl_push c.cpu [c.eflags, c.cs.setWidth 32, c.cpu.eip]
  have hcpu : (c.deliver selector handler).cpu =
      { [c.eflags, c.cs.setWidth 32, c.cpu.eip].foldl Cpu.push c.cpu with
        eip := handler, interrupts := false } := rfl
  rw [hcpu, hpush]
  rfl

theorem deliver_frame (selector : BitVec 16) (handler : Word)
    (hlo : 12 ≤ (c.cpu.regs .esp).toNat) :
    Frame c.cpu.mem (c.deliver selector handler).cpu.mem ((c.cpu.regs .esp).toNat - 12)
      (c.cpu.regs .esp).toNat := by
  rw [deliver_cpu]
  exact pushAll_frame c.cpu.mem [c.eflags, c.cs.setWidth 32, c.cpu.eip] hlo

/-- What is pushed is what was found. -/
theorem iretFrame_deliver (selector : BitVec 16) (handler : Word)
    (hlo : 12 ≤ (c.cpu.regs .esp).toNat) :
    IretFrame (c.deliver selector handler).cpu.mem (c.cpu.regs .esp - 12) c.interrupted := by
  have hword {b v : Word} {i : Nat} (hi : [c.eflags, c.cs.setWidth 32, c.cpu.eip][i]? = some v)
      (hb : b.toNat + 4 * (i + 1) = (c.cpu.regs .esp).toNat) :
      load (c.deliver selector handler).cpu.mem b = v := by
    obtain ⟨hlt, hget⟩ := List.getElem?_eq_some_iff.mp hi
    rw [deliver_cpu, ← hget]
    exact load_pushAll c.cpu.mem [c.eflags, c.cs.setWidth 32, c.cpu.eip] hlo hlt hb
  constructor
  · exact hword (i := 2) rfl (by bv_omega)
  · exact hword (i := 1) rfl (by bv_omega)
  · exact hword (i := 0) rfl (by bv_omega)
  · show c.cpu.regs .esp = _
    bv_omega

/-- `pushad` completes the frame, if the registers are still those that were found. -/
theorem stacked_pushad {cpu : Cpu} (h : IretFrame cpu.mem (cpu.regs .esp) k)
    (hregs : ∀ r, r ≠ .esp → cpu.regs r = k.regs r) (hlo : 32 ≤ (cpu.regs .esp).toNat)
    (hhi : (cpu.regs .esp).toNat + 12 ≤ 2 ^ 32) :
    Stacked (Instr.pushad.exec cpu).mem (cpu.regs .esp - 32) k := by
  have hsaved := saved_pushad (c := cpu) hlo (by omega)
  have htop : cpu.regs .esp - 32 + 32 = cpu.regs .esp := by bv_omega
  have hframe := pushAll_frame cpu.mem (a := cpu.regs .esp) (pushOrder.map cpu.regs) hlo
  rw [exec_pushad]
  constructor
  · intro r hr
    rw [← hregs r hr, hsaved.reg r hr]
    exact Function.update_of_ne hr ..
  · rw [htop]
    exact h.congr hhi (hframe.agree (Or.inr le_rfl)).symm

/-- `popad` brings the registers back, and leaves the part that `iret` pops. -/
theorem popad_stacked {cpu : Cpu} (h : Stacked cpu.mem (cpu.regs .esp) k) :
    (∀ r, r ≠ .esp → (Instr.popad.exec cpu).regs r = k.regs r) ∧
      (Instr.popad.exec cpu).regs .esp = cpu.regs .esp + 32 ∧
      IretFrame (Instr.popad.exec cpu).mem (cpu.regs .esp + 32) k := by
  refine ⟨fun r hr => ?_, exec_popad_regs cpu .esp, ?_⟩
  · rw [exec_popad_regs, if_neg hr, h.reg r hr]
  · rw [exec_popad_mem]
    exact h.frame

/-- The interrupt flag does not count twice. -/
theorem eflags_self (e : Word) :
    (if e.getLsbD 9 then e ||| interruptFlag else e &&& ~~~interruptFlag) = e := by
  have hflag (i : Nat) : interruptFlag.getLsbD i = decide (i = 9) := by
    have hlit : interruptFlag = BitVec.twoPow 32 9 := rfl
    rw [hlit, BitVec.getLsbD_twoPow]
    by_cases hi : i = 9
    · subst hi
      rfl
    · simp [hi, Ne.symm hi]
  apply BitVec.eq_of_getLsbD_eq
  intro i hi
  cases he : e.getLsbD 9 with
  | true =>
    rw [if_pos rfl, BitVec.getLsbD_or, hflag]
    by_cases h9 : i = 9
    · rw [h9, he]
      rfl
    · simp [h9]
  | false =>
    rw [if_neg Bool.false_ne_true, BitVec.getLsbD_and, BitVec.getLsbD_not, hflag]
    by_cases h9 : i = 9
    · rw [h9, he]
      rfl
    · simp [h9, hi]

/-- `iret` brings back what was found. -/
theorem interrupted_iret (h : IretFrame c.cpu.mem (c.cpu.regs .esp) k)
    (hregs : ∀ r, r ≠ .esp → c.cpu.regs r = k.regs r) : c.iret.interrupted = k := by
  apply Interrupted.ext
  · funext r
    show Function.update c.cpu.regs .esp (c.cpu.regs .esp + 12) r = k.regs r
    rcases eq_or_ne r .esp with rfl | hr
    · rw [Function.update_self, h.esp]
    · rw [Function.update_of_ne hr, hregs r hr]
  · exact h.eip
  · show (load c.cpu.mem (c.cpu.regs .esp + 4)).setWidth 16 = k.cs
    rw [h.cs, BitVec.setWidth_setWidth_of_le _ (by decide), BitVec.setWidth_eq]
  · exact (eflags_self _).trans h.eflags

end Frames

end SengOs.X86
