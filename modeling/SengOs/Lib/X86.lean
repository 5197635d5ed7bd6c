import SengOs.Lib.ByteMemory

/-!
# Registers and stacks of a 32-bit x86 processor

The eight general registers, the instruction pointer, the interrupt flag and a byte-addressed
memory, with the instructions that save and restore registers on a stack. `Saved m top k` says
that the eight registers and a return address lie from `top` on, as `pushad` leaves them below
the return address of a call; `popad` and `ret` bring back the context `k` from there.
-/

namespace SengOs.X86

open ByteMemory

abbrev Word := BitVec 32

inductive Reg where
  | eax
  | ecx
  | edx
  | ebx
  | esp
  | ebp
  | esi
  | edi
  deriving DecidableEq

structure Cpu where
  regs : Reg → Word
  eip : Word
  interrupts : Bool
  mem : Mem

def load (m : Mem) (a : Word) : Word := BitVec.ofNat 32 (loadLE m a.toNat 4)

def store (m : Mem) (a v : Word) : Mem := storeLE m a.toNat 4 v.toNat

/-! ## Instructions -/

inductive Instr where
  | pushad
  | popad
  | sti
  | ret
  /-- `mov dst, [base + offset]` -/
  | load (dst base : Reg) (offset : Word)
  /-- `mov [base], src` -/
  | store (base src : Reg)

/-- The order in which `pushad` pushes the registers. -/
def pushOrder : List Reg := [.eax, .ecx, .edx, .ebx, .esp, .ebp, .esi, .edi]

def Cpu.set (c : Cpu) (r : Reg) (v : Word) : Cpu :=
  { c with regs := Function.update c.regs r v }

def Cpu.push (c : Cpu) (v : Word) : Cpu :=
  { c.set .esp (c.regs .esp - 4) with mem := X86.store c.mem (c.regs .esp - 4) v }

/-- One pop of `popad`, which throws away the value for ESP. -/
def Cpu.popReg (c : Cpu) (r : Reg) : Cpu :=
  if r = .esp then c.set .esp (c.regs .esp + 4)
  else (c.set .esp (c.regs .esp + 4)).set r (X86.load c.mem (c.regs .esp))

def Instr.exec (c : Cpu) : Instr → Cpu
  | pushad => (pushOrder.map c.regs).foldl Cpu.push c
  | popad => pushOrder.reverse.foldl Cpu.popReg c
  | sti => { c with interrupts := true }
  | ret => { c.set .esp (c.regs .esp + 4) with eip := X86.load c.mem (c.regs .esp) }
  | load dst base offset => c.set dst (X86.load c.mem (c.regs base + offset))
  | store base src => { c with mem := X86.store c.mem (c.regs base) (c.regs src) }

/-- The processor after a sequence of instructions. -/
def execAll (c : Cpu) (code : List Instr) : Cpu := code.foldl Instr.exec c

theorem execAll_append (c : Cpu) (code code' : List Instr) :
    execAll c (code ++ code') = execAll (execAll c code) code' :=
  List.foldl_append

/-! ## Words in memory -/

section Memory

variable {m m' : Mem} {a b v : Word}

theorem load_store_self (m : Mem) (a v : Word) : load (store m a v) a = v := by
  rw [load, store, loadLE_storeLE]
  apply BitVec.eq_of_toNat_eq
  rw [BitVec.toNat_ofNat]
  omega

theorem store_frame (m : Mem) (a v : Word) : Frame m (store m a v) a.toNat (a.toNat + 4) :=
  storeLE_frame m a.toNat 4 v.toNat

theorem load_congr (h : Agree m m' a.toNat (a.toNat + 4)) : load m a = load m' a :=
  congrArg _ (loadLE_congr h)

/-- A word apart from a window that was written is unchanged. -/
theorem load_of_frame {lo hi : Nat} (h : Frame m m' lo hi)
    (hd : a.toNat + 4 ≤ lo ∨ hi ≤ a.toNat) : load m' a = load m a :=
  load_congr (h.agree hd)

/-- The memory after the words have been pushed one after the other on a stack at `a`. -/
def pushAll (m : Mem) (a : Word) : List Word → Mem
  | [] => m
  | v :: vs => pushAll (store m (a - 4) v) (a - 4) vs

theorem pushAll_frame (m : Mem) {a : Word} (vs : List Word) (h : 4 * vs.length ≤ a.toNat) :
    Frame m (pushAll m a vs) (a.toNat - 4 * vs.length) a.toNat := by
  induction vs generalizing m a with
  | nil => exact .refl m _ _
  | cons v vs ih =>
    rw [List.length_cons] at h
    have ha : (a - 4).toNat = a.toNat - 4 := by bv_omega
    have hstore := store_frame m (a - 4) v
    have hrest := ih (store m (a - 4) v) (a := a - 4) (by omega)
    rw [ha] at hstore hrest
    rw [pushAll, List.length_cons]
    exact (hstore.mono (by omega) (by omega)).trans (hrest.mono (by omega) (by omega))

/-- The `k`-th word pushed lies `k + 1` words below the start. -/
theorem load_pushAll (m : Mem) {a : Word} (vs : List Word) (h : 4 * vs.length ≤ a.toNat) {k : Nat}
    (hk : k < vs.length) (hb : b.toNat + 4 * (k + 1) = a.toNat) :
    load (pushAll m a vs) b = vs[k] := by
  induction vs generalizing m a k with
  | nil => cases hk
  | cons v vs ih =>
    rw [List.length_cons] at h hk
    have ha : (a - 4).toNat = a.toNat - 4 := by bv_omega
    rw [pushAll]
    cases k with
    | zero =>
      have hab : b = a - 4 := BitVec.eq_of_toNat_eq (by omega)
      have hrest := pushAll_frame (store m (a - 4) v) (a := a - 4) vs (by omega)
      rw [load_of_frame hrest (Or.inr (by omega)), hab, load_store_self]
      rfl
    | succ k => exact ih (store m (a - 4) v) (by omega) (by omega) (by omega)

end Memory

/-! ## Contexts -/

/-- What a process needs to go on: its registers, with the ESP it goes on with, and the address
where it goes on. -/
@[ext] structure Context where
  regs : Reg → Word
  eip : Word

/-- The context that a `ret` at this point would bring. -/
def Cpu.caller (c : Cpu) : Context where
  regs := Function.update c.regs .esp (c.regs .esp + 4)
  eip := load c.mem (c.regs .esp)

/-- Where `pushad` leaves a register, above the ESP it leaves. -/
def Reg.place : Reg → Word
  | edi => 0
  | esi => 4
  | ebp => 8
  | esp => 12
  | ebx => 16
  | edx => 20
  | ecx => 24
  | eax => 28

/-- The eight registers and the return address of the context lie from `top` on. -/
structure Saved (m : Mem) (top : Word) (k : Context) : Prop where
  reg : ∀ r, r ≠ .esp → load m (top + r.place) = k.regs r
  eip : load m (top + 32) = k.eip
  esp : k.regs .esp = top + 36

section Contexts

variable {c : Cpu} {m m' : Mem} {top : Word} {k : Context}

theorem Reg.place_eq (r : Reg) : ∃ i ≤ 7, r.place.toNat = 4 * i :=
  ⟨r.place.toNat / 4, by cases r <;> decide, by cases r <;> decide⟩

theorem Saved.congr (h : Saved m top k) (htop : top.toNat + 36 ≤ 2 ^ 32)
    (hagree : Agree m m' top.toNat (top.toNat + 36)) : Saved m' top k where
  reg r hr := by
    obtain ⟨i, hi, hplace⟩ := r.place_eq
    rw [← h.reg r hr]
    exact (load_congr (hagree.mono (by bv_omega) (by bv_omega))).symm
  eip := by
    rw [← h.eip]
    exact (load_congr (hagree.mono (by bv_omega) (by bv_omega))).symm
  esp := h.esp

theorem foldl_push (c : Cpu) (vs : List Word) : vs.foldl Cpu.push c =
    { c.set .esp (c.regs .esp - BitVec.ofNat 32 (4 * vs.length)) with
      mem := pushAll c.mem (c.regs .esp) vs } := by
  induction vs generalizing c with
  | nil => simp [Cpu.set, pushAll]
  | cons v vs ih =>
    rw [List.foldl_cons, ih]
    have hsub : c.regs .esp - 4 - BitVec.ofNat 32 (4 * vs.length) =
        c.regs .esp - BitVec.ofNat 32 (4 * (vs.length + 1)) := by
      rw [BitVec.sub_sub]
      congr 1
      apply BitVec.eq_of_toNat_eq
      simp
      omega
    simp only [Cpu.push, Cpu.set, pushAll, Function.update_self, Function.update_idem, hsub,
      List.length_cons]

theorem exec_pushad (c : Cpu) : Instr.pushad.exec c =
    { c.set .esp (c.regs .esp - 32) with
      mem := pushAll c.mem (c.regs .esp) (pushOrder.map c.regs) } :=
  foldl_push c _

theorem exec_popad_regs (c : Cpu) (r : Reg) : (Instr.popad.exec c).regs r =
    if r = .esp then c.regs .esp + 32 else load c.mem (c.regs .esp + r.place) := by
  cases r <;> simp [Instr.exec, pushOrder, Cpu.popReg, Cpu.set, Reg.place, BitVec.add_assoc]

theorem exec_popad_mem (c : Cpu) : (Instr.popad.exec c).mem = c.mem := by
  simp [Instr.exec, pushOrder, Cpu.popReg, Cpu.set]

/-- `pushad` completes the frame that a call has begun with the return address. -/
theorem saved_pushad (hlo : 32 ≤ (c.regs .esp).toNat) (hhi : (c.regs .esp).toNat + 4 ≤ 2 ^ 32) :
    Saved (pushAll c.mem (c.regs .esp) (pushOrder.map c.regs)) (c.regs .esp - 32) c.caller where
  reg r hr := by
    have hword {r : Reg} {i : Nat} (hi : pushOrder[i]? = some r)
        (hb : r.place.toNat + 4 * (i + 1) = 32) :
        load (pushAll c.mem (c.regs .esp) (pushOrder.map c.regs)) (c.regs .esp - 32 + r.place) =
          c.regs r := by
      obtain ⟨hlt, hget⟩ := List.getElem?_eq_some_iff.mp hi
      rw [load_pushAll c.mem (k := i) (pushOrder.map c.regs) hlo (by rwa [List.length_map])
        (by bv_omega), List.getElem_map, hget]
    show _ = Function.update c.regs .esp (c.regs .esp + 4) r
    rw [Function.update_of_ne hr]
    cases r with
    | eax => exact hword (i := 0) rfl rfl
    | ecx => exact hword (i := 1) rfl rfl
    | edx => exact hword (i := 2) rfl rfl
    | ebx => exact hword (i := 3) rfl rfl
    | esp => exact absurd rfl hr
    | ebp => exact hword (i := 5) rfl rfl
    | esi => exact hword (i := 6) rfl rfl
    | edi => exact hword (i := 7) rfl rfl
  eip := by
    have htop : c.regs .esp - 32 + 32 = c.regs .esp := by bv_omega
    have hframe := pushAll_frame c.mem (a := c.regs .esp) (pushOrder.map c.regs) hlo
    rw [htop, load_of_frame hframe (Or.inr le_rfl), Cpu.caller]
  esp := by
    show Function.update c.regs .esp (c.regs .esp + 4) .esp = _
    rw [Function.update_self]
    bv_omega

theorem execAll_resume_mem (c : Cpu) : (execAll c [.popad, .sti, .ret]).mem = c.mem := by
  have hret (p : Cpu) : (execAll p [.sti, .ret]).mem = p.mem := rfl
  rw [execAll, List.foldl_cons, ← execAll, hret, exec_popad_mem]

/-- `popad` and `ret` bring the context back. -/
theorem resume_saved (h : Saved c.mem (c.regs .esp) k) : execAll c [.popad, .sti, .ret] =
    { regs := k.regs, eip := k.eip, interrupts := true, mem := c.mem } := by
  have hesp : (Instr.popad.exec c).regs .esp = c.regs .esp + 32 := exec_popad_regs c .esp
  have hregs : Function.update (Instr.popad.exec c).regs .esp (c.regs .esp + 32 + 4) = k.regs := by
    funext r
    rcases eq_or_ne r .esp with rfl | hr
    · rw [Function.update_self, h.esp, BitVec.add_assoc]
      rfl
    · rw [Function.update_of_ne hr, exec_popad_regs, if_neg hr, h.reg r hr]
  have hexec (p : Cpu) : execAll p [.sti, .ret] =
      { regs := Function.update p.regs .esp (p.regs .esp + 4), eip := load p.mem (p.regs .esp),
        interrupts := true, mem := p.mem } := rfl
  rw [execAll, List.foldl_cons, ← execAll, hexec, hesp, exec_popad_mem, hregs, h.eip]

end Contexts

end SengOs.X86
