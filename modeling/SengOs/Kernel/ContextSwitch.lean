import Mathlib.Logic.Relation
import SengOs.Kernel.Process
import SengOs.Lib.X86

/-!
# `kernel/switch.asm`

`context_switch` instruction by instruction, on a processor with the stacks of PID 0 and of the
processes that `process_create` makes. Between switches the running process does what it likes
outside the stacks and the saved `esp` of the others. `SuspendedWith` follows a process from
the call or the creation that suspended it on; the process is resumed with the context it had
there.

A call of `context_switch` begins with its arguments and the return address on the stack of
the caller. `popad` takes the registers from the other stack; the `sti` before `ret` takes
effect behind it, so that no interrupt comes in between.
-/

namespace SengOs.Kernel.ContextSwitch

open ByteMemory X86

/-- `context_switch` -/
def contextSwitch : List Instr :=
  [.pushad, .load .eax .esp 36, .store .eax .esp, .load .esp .esp 40, .popad, .sti, .ret]

/-! ## Stacks -/

/-- Where the linker puts the process table and the array `stacks`; PID 0 has the stack below
0x90000 that the bootloader set up. A `pcb_t` has 48 bytes. -/
structure StackLayout where
  processTable : Nat
  stackPool : Nat
  bootStack : Nat
  boot_lt : bootStack < 0x90000
  table_fits : processTable + 48 * maxProcesses < 2 ^ 32
  stacks_fits : stackPool + stackSize * maxProcesses < 2 ^ 32
  table_stacks : processTable + 48 * maxProcesses ≤ stackPool ∨
    stackPool + stackSize * maxProcesses ≤ processTable
  table_boot : processTable + 48 * maxProcesses ≤ bootStack ∨ 0x90000 ≤ processTable
  stacks_boot : stackPool + stackSize * maxProcesses ≤ bootStack ∨ 0x90000 ≤ stackPool

namespace StackLayout

variable (L : StackLayout)

/-- The lowest address of a stack. -/
def lo (p : Nat) : Nat := if p = 0 then L.bootStack else L.stackPool + stackSize * p

/-- The address behind a stack. -/
def hi (p : Nat) : Nat := if p = 0 then 0x90000 else L.stackPool + stackSize * p + stackSize

/-- `&process_table[p].esp` -/
def espField (p : Nat) : Nat := L.processTable + 48 * p + 8

variable {L} {p q : Nat}

theorem hi_lt (hp : p < maxProcesses) : L.hi p < 2 ^ 32 := by
  have hfits := L.stacks_fits
  simp only [hi, stackSize, maxProcesses] at *
  split <;> omega

/-- The stack of a created process has 4096 bytes. -/
theorem hi_eq (h0 : 1 ≤ p) : L.hi p = L.lo p + 4096 := by
  rw [hi, lo, if_neg (by omega), if_neg (by omega), stackSize]

theorem stack_apart (hp : p < maxProcesses) (hq : q < maxProcesses) (h : p ≠ q) :
    L.hi p ≤ L.lo q ∨ L.hi q ≤ L.lo p := by
  have hboot := L.stacks_boot
  simp only [hi, lo, stackSize, maxProcesses] at *
  split <;> split <;> omega

theorem stack_apart_espField (hp : p < maxProcesses) (hq : q < maxProcesses) :
    L.hi p ≤ L.espField q ∨ L.espField q + 4 ≤ L.lo p := by
  have hstacks := L.table_stacks
  have hboot := L.table_boot
  simp only [hi, lo, espField, stackSize, maxProcesses] at *
  split <;> omega

theorem espField_apart (h : p ≠ q) :
    L.espField p + 4 ≤ L.espField q ∨ L.espField q + 4 ≤ L.espField p := by
  simp only [espField]
  omega

theorem toNat_espField (hp : p < maxProcesses) :
    (BitVec.ofNat 32 (L.espField p)).toNat = L.espField p := by
  have hfits := L.table_fits
  simp only [espField, maxProcesses] at *
  exact Nat.mod_eq_of_lt (by omega)

theorem toNat_hi (hp : p < maxProcesses) : (BitVec.ofNat 32 (L.hi p)).toNat = L.hi p :=
  Nat.mod_eq_of_lt (hi_lt hp)

end StackLayout

/-- What `process_create` stores: nine words at the end of the stack, and `esp`. The other
fields of the table are not read by `context_switch`. -/
def processCreate (L : StackLayout) (m : Mem) (slot : Nat) (entry : Word) : Mem :=
  let stackTop := BitVec.ofNat 32 (L.hi slot)
  store (pushAll m stackTop (entry :: List.replicate 8 0)) (BitVec.ofNat 32 (L.espField slot))
    (stackTop - 36)

/-! ## Runs -/

structure System where
  cpu : Cpu
  current : Nat
  created : Nat → Bool

inductive Act where
  | compute (cpu : Cpu)
  | create (slot : Nat) (entry : Word)
  | switch (next : Nat)

/-- The bytes of the stack of `p` and of its saved `esp` are the same. -/
structure Untouched (L : StackLayout) (m m' : Mem) (p : Nat) : Prop where
  stack : Agree m m' (L.lo p) (L.hi p)
  esp : Agree m m' (L.espField p) (L.espField p + 4)

/-- The running process is at the call `context_switch(&process_table[current].esp,
process_table[next].esp)`, with its arguments in its stack and room for the registers. -/
structure AtCall (L : StackLayout) (s : System) (next : Nat) : Prop where
  created : s.created next = true
  ne : next ≠ s.current
  room : L.lo s.current + 32 ≤ (s.cpu.regs .esp).toNat
  inside : (s.cpu.regs .esp).toNat + 12 ≤ L.hi s.current
  oldEsp : load s.cpu.mem (s.cpu.regs .esp + 4) = BitVec.ofNat 32 (L.espField s.current)
  newEsp : load s.cpu.mem (s.cpu.regs .esp + 8) =
    load s.cpu.mem (BitVec.ofNat 32 (L.espField next))

inductive Step (L : StackLayout) (s : System) : Act → System → Prop
  | compute {c : Cpu}
      (h : ∀ p < maxProcesses, s.created p = true → p ≠ s.current →
        Untouched L s.cpu.mem c.mem p) :
      Step L s (.compute c) { s with cpu := c }
  | create {slot : Nat} {entry : Word} (hslot : 1 ≤ slot ∧ slot < maxProcesses)
      (hfree : s.created slot = false) :
      Step L s (.create slot entry)
        { s with
          cpu := { s.cpu with mem := processCreate L s.cpu.mem slot entry }
          created := Function.update s.created slot true }
  | switch {next : Nat} (h : AtCall L s next) :
      Step L s (.switch next)
        { s with cpu := execAll s.cpu contextSwitch, current := next }

/-- PID 0 runs, and no other process exists. -/
def System.boot (c : Cpu) : System where
  cpu := c
  current := 0
  created p := p == 0

def Reachable (L : StackLayout) (c : Cpu) (s : System) : Prop :=
  Relation.ReflTransGen (fun s s' => ∃ a, Step L s a s') (.boot c) s

/-- Steps in which the process `p` does not get to run. -/
def Away (L : StackLayout) (p : Nat) : System → System → Prop :=
  Relation.ReflTransGen fun s s' => (∃ a, Step L s a s') ∧ s'.current ≠ p

/-- The context a new process starts with. -/
def startContext (L : StackLayout) (p : Nat) (entry : Word) : Context where
  regs := Function.update (fun _ => 0) .esp (BitVec.ofNat 32 (L.hi p))
  eip := entry

/-- The process `p` has not run since it called `context_switch`, or was created, with the
context `k`. -/
def SuspendedWith (L : StackLayout) (c : Cpu) (p : Nat) (k : Context) (s : System) : Prop :=
  ∃ s₁ s₂, Reachable L c s₁ ∧ Away L p s₂ s ∧
    ((∃ next, Step L s₁ (.switch next) s₂) ∧ s₁.current = p ∧ k = s₁.cpu.caller ∨
      ∃ entry, Step L s₁ (.create p entry) s₂ ∧ k = startContext L p entry)

/-! ## What a step leaves alone -/

section Untouched

variable {L : StackLayout} {m m' m'' : Mem} {p q : Nat} {lo hi : Nat}

theorem Untouched.trans (h : Untouched L m m' p) (h' : Untouched L m' m'' p) :
    Untouched L m m'' p :=
  ⟨h.stack.trans h'.stack, h.esp.trans h'.esp⟩

/-- Writing in one stack leaves the others alone. -/
theorem untouched_of_stack (hframe : ByteMemory.Frame m m' lo hi) (hlo : L.lo q ≤ lo)
    (hhi : hi ≤ L.hi q) (hp : p < maxProcesses) (hq : q < maxProcesses) (h : p ≠ q) :
    Untouched L m m' p := by
  have hwide := hframe.mono hlo hhi
  exact ⟨(hwide.agree (StackLayout.stack_apart hp hq h)).symm,
    (hwide.agree (StackLayout.stack_apart_espField hq hp).symm).symm⟩

/-- The store of a saved `esp` writes that field alone. -/
theorem espField_frame (m : Mem) (v : Word) (hq : q < maxProcesses) :
    ByteMemory.Frame m (store m (BitVec.ofNat 32 (L.espField q)) v) (L.espField q)
      (L.espField q + 4) := by
  have hframe := store_frame m (BitVec.ofNat 32 (L.espField q)) v
  rwa [StackLayout.toNat_espField hq] at hframe

theorem untouched_of_espField (v : Word) (hp : p < maxProcesses) (hq : q < maxProcesses)
    (h : p ≠ q) : Untouched L m (store m (BitVec.ofNat 32 (L.espField q)) v) p := by
  have hframe := espField_frame (L := L) m v hq
  exact ⟨(hframe.agree (StackLayout.stack_apart_espField hp hq)).symm,
    (hframe.agree (StackLayout.espField_apart h)).symm⟩

theorem Untouched.load_espField (h : Untouched L m m' p) (hp : p < maxProcesses) :
    load m' (BitVec.ofNat 32 (L.espField p)) = load m (BitVec.ofNat 32 (L.espField p)) := by
  refine (load_congr ?_).symm
  rw [StackLayout.toNat_espField hp]
  exact h.esp

end Untouched

/-! ## Suspended processes -/

/-- The saved `esp` of the process points to a frame in its stack that holds the context. -/
structure Waiting (L : StackLayout) (m : Mem) (p : Nat) (k : Context) : Prop where
  lo_le : L.lo p ≤ (load m (BitVec.ofNat 32 (L.espField p))).toNat
  le_hi : (load m (BitVec.ofNat 32 (L.espField p))).toNat + 36 ≤ L.hi p
  saved : Saved m (load m (BitVec.ofNat 32 (L.espField p))) k

section Waiting

variable {L : StackLayout} {m m' : Mem} {s s' : System} {p next : Nat} {k : Context}

theorem Waiting.untouched (h : Waiting L m p k) (hp : p < maxProcesses)
    (hu : Untouched L m m' p) : Waiting L m' p k := by
  have hesp := hu.load_espField hp
  have hhi := StackLayout.hi_lt (L := L) hp
  have hle := h.le_hi
  refine ⟨hesp ▸ h.lo_le, hesp ▸ hle, ?_⟩
  rw [hesp]
  exact h.saved.congr (by omega) (hu.stack.mono h.lo_le hle)

theorem saved_processCreate {top : Word} (htop : 36 ≤ top.toNat) (entry : Word) :
    Saved (pushAll m top (entry :: List.replicate 8 0)) (top - 36)
      { regs := Function.update (fun _ => 0) .esp top, eip := entry } where
  reg r hr := by
    obtain ⟨i, hi, hplace⟩ := r.place_eq
    have hk : 7 - i + 1 < (entry :: List.replicate 8 (0 : Word)).length := by simp; omega
    rw [load_pushAll m (entry :: List.replicate 8 0) htop hk (by bv_omega),
      List.getElem_cons_succ, List.getElem_replicate]
    show (0 : Word) = Function.update (fun _ => (0 : Word)) Reg.esp top r
    rw [Function.update_of_ne hr]
  eip := load_pushAll m (entry :: List.replicate 8 0) htop (k := 0) (by simp) (by bv_omega)
  esp := by
    show Function.update (fun _ => (0 : Word)) Reg.esp top Reg.esp = _
    rw [Function.update_self]
    bv_omega

/-- The frame that `process_create` builds is the context of a new process. -/
theorem waiting_processCreate (hp : p < maxProcesses) (h0 : 1 ≤ p) (entry : Word) :
    Waiting L (processCreate L m p entry) p (startContext L p entry) := by
  have hhi := StackLayout.toNat_hi (L := L) hp
  have hstack := StackLayout.hi_eq (L := L) h0
  have hsaved : Saved (pushAll m (BitVec.ofNat 32 (L.hi p)) (entry :: List.replicate 8 0))
      (BitVec.ofNat 32 (L.hi p) - 36) (startContext L p entry) :=
    saved_processCreate (by omega) entry
  have hesp : load (processCreate L m p entry) (BitVec.ofNat 32 (L.espField p)) =
      BitVec.ofNat 32 (L.hi p) - 36 := load_store_self ..
  have htop : (BitVec.ofNat 32 (L.hi p) - 36).toNat = L.hi p - 36 := by
    rw [BitVec.toNat_sub_of_le (BitVec.le_def.mpr (by rw [hhi, hstack]; simp)), hhi]
    rfl
  refine ⟨?_, ?_, ?_⟩
  · rw [hesp, htop, hstack]
    omega
  · rw [hesp, htop, hstack]
    omega
  · rw [hesp]
    have hframe := espField_frame (L := L)
      (pushAll m (BitVec.ofNat 32 (L.hi p)) (entry :: List.replicate 8 0))
      (BitVec.ofNat 32 (L.hi p) - 36) hp
    have hagree := hframe.agree (StackLayout.stack_apart_espField hp hp)
    have hlt := StackLayout.hi_lt (L := L) hp
    exact hsaved.congr (by omega) (hagree.symm.mono (by omega) (by omega))

/-- The memory after a switch: the registers on the stack of the caller, and its saved `esp`. -/
def switchMem (L : StackLayout) (s : System) : Mem :=
  store (pushAll s.cpu.mem (s.cpu.regs .esp) (pushOrder.map s.cpu.regs))
    (BitVec.ofNat 32 (L.espField s.current)) (s.cpu.regs .esp - 32)

theorem execAll_save (c : Cpu) :
    execAll c [.pushad, .load .eax .esp 36, .store .eax .esp, .load .esp .esp 40] =
      let m₁ := pushAll c.mem (c.regs .esp) (pushOrder.map c.regs)
      let old := load m₁ (c.regs .esp - 32 + 36)
      let m₂ := store m₁ old (c.regs .esp - 32)
      { regs := Function.update (Function.update (Function.update c.regs .esp (c.regs .esp - 32))
          .eax old) .esp (load m₂ (c.regs .esp - 32 + 40)),
        eip := c.eip, interrupts := c.interrupts, mem := m₂ } := by
  rw [execAll, List.foldl_cons, exec_pushad]
  rfl

namespace AtCall

theorem pushAll_frame (h : AtCall L s next) : ByteMemory.Frame s.cpu.mem
    (pushAll s.cpu.mem (s.cpu.regs .esp) (pushOrder.map s.cpu.regs))
    ((s.cpu.regs .esp).toNat - 32) (s.cpu.regs .esp).toNat := by
  have hroom := h.room
  refine X86.pushAll_frame s.cpu.mem (pushOrder.map s.cpu.regs) ?_
  show 32 ≤ (s.cpu.regs .esp).toNat
  omega

/-- The first half of `context_switch` stores its ESP in the caller's entry of the table, and
loads the other one. -/
theorem execAll_save (h : AtCall L s next) (hcur : s.current < maxProcesses) :
    ∃ regs, execAll s.cpu
      [.pushad, .load .eax .esp 36, .store .eax .esp, .load .esp .esp 40] =
        { regs, eip := s.cpu.eip, interrupts := s.cpu.interrupts, mem := switchMem L s } ∧
      regs .esp = load s.cpu.mem (BitVec.ofNat 32 (L.espField next)) := by
  have hroom := h.room
  have hinside := h.inside
  have hlt := StackLayout.hi_lt (L := L) hcur
  have hframe := h.pushAll_frame
  have hold : load (pushAll s.cpu.mem (s.cpu.regs .esp) (pushOrder.map s.cpu.regs))
      (s.cpu.regs .esp - 32 + 36) = BitVec.ofNat 32 (L.espField s.current) := by
    have haddr : s.cpu.regs .esp - 32 + 36 = s.cpu.regs .esp + 4 := by bv_omega
    rw [haddr, load_of_frame hframe (Or.inr (by bv_omega)), h.oldEsp]
  have hnew : load (switchMem L s) (s.cpu.regs .esp - 32 + 40) =
      load s.cpu.mem (BitVec.ofNat 32 (L.espField next)) := by
    have haddr : s.cpu.regs .esp - 32 + 40 = s.cpu.regs .esp + 8 := by bv_omega
    have hfield := espField_frame (L := L)
      (pushAll s.cpu.mem (s.cpu.regs .esp) (pushOrder.map s.cpu.regs)) (s.cpu.regs .esp - 32) hcur
    have hapart := StackLayout.stack_apart_espField (L := L) hcur hcur
    rw [haddr, switchMem, load_of_frame hfield (by bv_omega),
      load_of_frame hframe (Or.inr (by bv_omega)), h.newEsp]
  have hexec := ContextSwitch.execAll_save s.cpu
  dsimp only at hexec
  rw [hold] at hexec
  exact ⟨_, hexec, (Function.update_self ..).trans hnew⟩

/-- The caller is suspended with the context it returns to. -/
theorem waiting_caller (h : AtCall L s next) (hcur : s.current < maxProcesses) :
    Waiting L (switchMem L s) s.current s.cpu.caller := by
  have hroom := h.room
  have hinside := h.inside
  have hlt := StackLayout.hi_lt (L := L) hcur
  have hsaved : Saved (pushAll s.cpu.mem (s.cpu.regs .esp) (pushOrder.map s.cpu.regs))
      (s.cpu.regs .esp - 32) s.cpu.caller := saved_pushad (by omega) (by omega)
  have hesp : load (switchMem L s) (BitVec.ofNat 32 (L.espField s.current)) =
      s.cpu.regs .esp - 32 := load_store_self ..
  have hsub : (s.cpu.regs .esp - 32).toNat = (s.cpu.regs .esp).toNat - 32 := by bv_omega
  refine ⟨?_, ?_, ?_⟩
  · rw [hesp]
    omega
  · rw [hesp]
    omega
  · rw [hesp]
    have hframe := espField_frame (L := L)
      (pushAll s.cpu.mem (s.cpu.regs .esp) (pushOrder.map s.cpu.regs)) (s.cpu.regs .esp - 32) hcur
    have hagree := hframe.agree (StackLayout.stack_apart_espField hcur hcur)
    exact hsaved.congr (by omega) (hagree.symm.mono (by omega) (by omega))

theorem untouched (h : AtCall L s next) (hcur : s.current < maxProcesses)
    (hp : p < maxProcesses) (hne : p ≠ s.current) :
    Untouched L s.cpu.mem (switchMem L s) p :=
  (untouched_of_stack (h.pushAll_frame) (by have := h.room; omega)
    (by have := h.inside; omega) hp hcur hne).trans (untouched_of_espField _ hp hcur hne)

theorem contextSwitch_eq : contextSwitch =
    [.pushad, .load .eax .esp 36, .store .eax .esp, .load .esp .esp 40] ++
      [.popad, .sti, .ret] := rfl

theorem mem_contextSwitch (h : AtCall L s next) (hcur : s.current < maxProcesses) :
    (execAll s.cpu contextSwitch).mem = switchMem L s := by
  obtain ⟨regs, hsave, -⟩ := h.execAll_save hcur
  rw [contextSwitch_eq, execAll_append, hsave, execAll_resume_mem]

/-- The other process goes on with its context. -/
theorem exec_contextSwitch (h : AtCall L s next) (hcur : s.current < maxProcesses)
    (hnext : next < maxProcesses) (hw : Waiting L s.cpu.mem next k) :
    execAll s.cpu contextSwitch =
      { regs := k.regs, eip := k.eip, interrupts := true, mem := switchMem L s } := by
  obtain ⟨regs, hsave, hesp⟩ := h.execAll_save hcur
  have hu := h.untouched hcur hnext h.ne
  have hsame := hu.load_espField hnext
  have hsaved := (hw.untouched hnext hu).saved
  rw [hsame, ← hesp] at hsaved
  rw [contextSwitch_eq, execAll_append, hsave]
  exact resume_saved hsaved

end AtCall

end Waiting

/-! ## Runs -/

/-- Only slots of the table are used, and the running process exists. -/
structure System.Valid (s : System) : Prop where
  created_lt : ∀ p, s.created p = true → p < maxProcesses
  current_created : s.created s.current = true

section Runs

variable {L : StackLayout} {c : Cpu} {s s' : System} {a : Act} {p : Nat} {k : Context}

theorem System.Valid.current_lt (h : s.Valid) : s.current < maxProcesses :=
  h.created_lt _ h.current_created

theorem valid_boot (c : Cpu) : (System.boot c).Valid where
  created_lt p hp := by
    rw [eq_of_beq hp]
    decide
  current_created := rfl

theorem Step.valid (hs : Step L s a s') (h : s.Valid) : s'.Valid := by
  cases hs with
  | compute _ => exact ⟨h.created_lt, h.current_created⟩
  | @create slot entry hslot _ =>
    constructor
    · intro p hp
      rcases eq_or_ne p slot with rfl | hne
      · exact hslot.2
      · exact h.created_lt p (by simpa [hne] using hp)
    · rcases eq_or_ne s.current slot with heq | hne
      · simp [heq]
      · simpa [hne] using h.current_created
  | switch hcall => exact ⟨h.created_lt, hcall.created⟩

/-- No step but a switch to it touches the frame of a suspended process. -/
theorem Step.untouched (hs : Step L s a s') (h : s.Valid) (hp : s.created p = true)
    (hne : p ≠ s.current) : Untouched L s.cpu.mem s'.cpu.mem p := by
  have hlt := h.created_lt p hp
  cases hs with
  | compute hall => exact hall p hlt hp hne
  | @create slot entry hslot hfree =>
    have hps : p ≠ slot := by
      rintro rfl
      rw [hfree] at hp
      cases hp
    have hhi := StackLayout.toNat_hi (L := L) hslot.2
    have hstack := StackLayout.hi_eq (L := L) hslot.1
    have hframe := pushAll_frame s.cpu.mem (a := BitVec.ofNat 32 (L.hi slot))
      (entry :: List.replicate 8 0) (by rw [hhi, hstack]; simp)
    rw [hhi] at hframe
    refine (untouched_of_stack hframe ?_ le_rfl hlt hslot.2 hps).trans
      (untouched_of_espField _ hlt hslot.2 hps)
    simp only [List.length_cons, List.length_replicate]
    omega
  | switch hcall =>
    show Untouched L s.cpu.mem (execAll s.cpu contextSwitch).mem p
    rw [hcall.mem_contextSwitch h.current_lt]
    exact hcall.untouched h.current_lt hlt hne

theorem Step.created_mono (hs : Step L s a s') (hp : s.created p = true) :
    s'.created p = true := by
  cases hs with
  | compute _ => exact hp
  | @create slot entry _ _ =>
    show Function.update s.created slot true p = true
    rw [Function.update_apply]
    split
    · rfl
    · exact hp
  | switch _ => exact hp

theorem Reachable.valid (h : Reachable L c s) : s.Valid := by
  induction h with
  | refl => exact valid_boot c
  | tail _ hs ih =>
    obtain ⟨a, hs⟩ := hs
    exact hs.valid ih

/-- A process keeps its context as long as it does not run. -/
theorem Away.waiting (h : Away L p s s') (hv : s.Valid) (hp : s.created p = true)
    (hne : s.current ≠ p) (hw : Waiting L s.cpu.mem p k) :
    s'.Valid ∧ s'.created p = true ∧ s'.current ≠ p ∧ Waiting L s'.cpu.mem p k := by
  induction h with
  | refl => exact ⟨hv, hp, hne, hw⟩
  | tail _ hs ih =>
    obtain ⟨⟨a, hs⟩, hne'⟩ := hs
    obtain ⟨hv, hp, hne, hw⟩ := ih
    exact ⟨hs.valid hv, hs.created_mono hp, hne',
      hw.untouched (hv.created_lt p hp) (hs.untouched hv hp hne.symm)⟩

theorem SuspendedWith.waiting (h : SuspendedWith L c p k s) :
    s.created p = true ∧ s.current ≠ p ∧ Waiting L s.cpu.mem p k := by
  obtain ⟨s₁, s₂, hreach, haway, hstart⟩ := h
  have hv := hreach.valid
  suffices hw : s₂.Valid ∧ s₂.created p = true ∧ s₂.current ≠ p ∧ Waiting L s₂.cpu.mem p k from
    (haway.waiting hw.1 hw.2.1 hw.2.2.1 hw.2.2.2).2
  rcases hstart with ⟨⟨next, hs⟩, rfl, rfl⟩ | ⟨entry, hs, rfl⟩
  · refine ⟨hs.valid hv, hs.created_mono hv.current_created, ?_⟩
    cases hs with
    | switch hcall =>
      refine ⟨hcall.ne, ?_⟩
      show Waiting L (execAll s₁.cpu contextSwitch).mem _ _
      rw [hcall.mem_contextSwitch hv.current_lt]
      exact hcall.waiting_caller hv.current_lt
  · refine ⟨hs.valid hv, ?_⟩
    cases hs with
    | create hslot hfree =>
      refine ⟨Function.update_self .., ?_, waiting_processCreate hslot.2 hslot.1 entry⟩
      intro (heq : s₁.current = p)
      rw [← heq, hv.current_created] at hfree
      cases hfree

/-- Every process that does not run was suspended by its own call, or has not run yet. -/
theorem exists_suspendedWith (h : Reachable L c s) (hp : s.created p = true)
    (hne : p ≠ s.current) : ∃ k, SuspendedWith L c p k s := by
  induction h with
  | refl => exact absurd (eq_of_beq hp) hne
  | @tail s s' hreach hs ih =>
    obtain ⟨a, hs⟩ := hs
    have hold (hp : s.created p = true) (hne₀ : p ≠ s.current) :
        ∃ k, SuspendedWith L c p k s' := by
      obtain ⟨k, s₁, s₂, hreach, haway, hstart⟩ := ih hp hne₀
      exact ⟨k, s₁, s₂, hreach, haway.tail ⟨⟨a, hs⟩, hne.symm⟩, hstart⟩
    cases hs with
    | compute hall => exact hold hp hne
    | @create slot entry hslot hfree =>
      rcases eq_or_ne p slot with rfl | hps
      · exact ⟨_, _, _, hreach, .refl, Or.inr ⟨entry, .create hslot hfree, rfl⟩⟩
      · exact hold (by simpa [hps] using hp) hne
    | @switch next hcall =>
      rcases eq_or_ne p s.current with rfl | hps
      · exact ⟨_, _, _, hreach, .refl, Or.inl ⟨⟨next, .switch hcall⟩, rfl, rfl⟩⟩
      · exact hold hp hps

end Runs

/-- In every state of a run, the saved `esp` of every suspended process lies in its stack, the
process has a context since its last call or its creation, and a switch to it goes on with that
context. -/
theorem switches_preserve_contexts (L : StackLayout) (c : Cpu) {s : System}
    (h : Reachable L c s) {p : Nat} (hp : s.created p = true) (hne : p ≠ s.current) :
    (L.lo p ≤ (load s.cpu.mem (BitVec.ofNat 32 (L.espField p))).toNat ∧
      (load s.cpu.mem (BitVec.ofNat 32 (L.espField p))).toNat < L.hi p) ∧
    (∃ k, SuspendedWith L c p k s) ∧
    ∀ k, SuspendedWith L c p k s → ∀ s', Step L s (.switch p) s' →
      s'.cpu.regs = k.regs ∧ s'.cpu.eip = k.eip := by
  have hv := h.valid
  obtain ⟨k, hk⟩ := exists_suspendedWith h hp hne
  obtain ⟨-, -, hw⟩ := hk.waiting
  have hle := hw.le_hi
  refine ⟨⟨hw.lo_le, by omega⟩, ⟨k, hk⟩, fun k' hk' s' hs => ?_⟩
  obtain ⟨-, -, hw'⟩ := hk'.waiting
  cases hs with
  | switch hcall =>
    have hexec := hcall.exec_contextSwitch hv.current_lt (hv.created_lt p hp) hw'
    exact ⟨congrArg Cpu.regs hexec, congrArg Cpu.eip hexec⟩

/-- The table at 0x20000, the stacks at 0x30000, and a page for PID 0. -/
def sampleLayout : StackLayout where
  processTable := 0x20000
  stackPool := 0x30000
  bootStack := 0x8F000
  boot_lt := by decide
  table_fits := by decide
  stacks_fits := by decide
  table_stacks := by decide
  table_boot := by decide
  stacks_boot := by decide

/-- PID 0 at a call that switches to process 1. -/
def sampleCpu : Cpu where
  regs := Function.update (fun _ => 7) .esp 0x8FF00
  eip := 0
  interrupts := false
  mem := store (store (fun _ => 0) 0x8FF04 0x20008) 0x8FF08 0x31FDC

theorem load_sampleCpu (entry : Word) {a : Word} (ha : 0x40000 ≤ a.toNat) :
    load (processCreate sampleLayout sampleCpu.mem 1 entry) a = load sampleCpu.mem a := by
  have hframe := pushAll_frame sampleCpu.mem (a := 0x32000) (entry :: List.replicate 8 0)
    (show 36 ≤ 0x32000 by decide)
  have hfield := store_frame (pushAll sampleCpu.mem 0x32000 (entry :: List.replicate 8 0)) 0x20038
    (0x32000 - 36)
  have hlo : (0x20038 : Word).toNat = 0x20038 := rfl
  have hhi : (0x32000 : Word).toNat = 0x32000 := rfl
  rw [hlo] at hfield
  rw [hhi] at hframe
  exact (load_of_frame hfield (Or.inr (by omega))).trans
    (load_of_frame hframe (Or.inr (by omega)))

theorem switches_to_new_process :
    ∃ s', Step sampleLayout
        ⟨{ sampleCpu with mem := processCreate sampleLayout sampleCpu.mem 1 0x1234 }, 0,
          Function.update (fun p => p == 0) 1 true⟩ (.switch 1) s' ∧
      s'.cpu.eip = 0x1234 ∧ s'.cpu.regs .esp = 0x32000 := by
  have hcreate : Step sampleLayout (.boot sampleCpu) (.create 1 0x1234)
      ⟨{ sampleCpu with mem := processCreate sampleLayout sampleCpu.mem 1 0x1234 }, 0,
        Function.update (fun p => p == 0) 1 true⟩ :=
    .create ⟨le_rfl, by decide⟩ rfl
  have hcall : AtCall sampleLayout
      ⟨{ sampleCpu with mem := processCreate sampleLayout sampleCpu.mem 1 0x1234 }, 0,
        Function.update (fun p => p == 0) 1 true⟩ 1 :=
    { created := rfl
      ne := by decide
      room := by decide
      inside := by decide
      oldEsp := by
        refine (load_sampleCpu 0x1234 (a := 0x8FF04) (by decide)).trans ?_
        exact (load_of_frame (store_frame _ 0x8FF08 0x31FDC) (Or.inl (by decide))).trans
          (load_store_self ..)
      newEsp := by
        refine (load_sampleCpu 0x1234 (a := 0x8FF08) (by decide)).trans ?_
        exact (load_store_self ..).trans (load_store_self ..).symm }
  have h := switches_preserve_contexts sampleLayout sampleCpu (.tail .refl ⟨_, hcreate⟩) (p := 1)
    rfl (by decide)
  obtain ⟨hregs, heip⟩ := h.2.2 (startContext sampleLayout 1 0x1234)
    ⟨_, _, .refl, .refl, Or.inr ⟨0x1234, hcreate, rfl⟩⟩ _ (.switch hcall)
  refine ⟨_, .switch hcall, heip, ?_⟩
  rw [hregs]
  rfl

end SengOs.Kernel.ContextSwitch
