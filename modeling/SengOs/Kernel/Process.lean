import SengOs.Lib.CString

/-!
# `kernel/process.c`

The process table and the functions that change it. `process_create` is a sequence of stores
that a timer tick can interrupt; it is one transition of the machine for each store, and only
the values it stores are defined here.
-/

namespace SengOs.Kernel

open ByteMemory

@[simp] def maxProcesses : Nat := 16
@[simp] def stackSize : Nat := 4096
/-- The 32-bit words of a stack. -/
@[simp] def stackWords : Nat := stackSize / 4

/-- `process_state_t` -/
inductive ProcessState where
  | free
  | ready
  | running
  | blocked
  | terminated
  deriving DecidableEq

/-- `pcb_t` -/
structure Pcb where
  pid : Nat
  state : ProcessState
  esp : Nat
  stack : Nat
  name : List Byte

def Pcb.zero : Pcb := ⟨0, .free, 0, 0, []⟩

/-- `process_table` -/
abbrev Table := Nat → Pcb

/-- A store to a field of `process_table[p]`. -/
def storePcb (t : Table) (p : Nat) (f : Pcb → Pcb) : Table := Function.update t p (f (t p))

/-- `process_table[p].state = st` -/
def setState (t : Table) (p : Nat) (st : ProcessState) : Table :=
  storePcb t p fun pcb => { pcb with state := st }

/-- `process_table[p].esp = esp` -/
def setEsp (t : Table) (p esp : Nat) : Table := storePcb t p fun pcb => { pcb with esp := esp }

/-- What `k_strncpy(dst, src, 32)` leaves in a name field. -/
def pcbName (src : CString) : List Byte := src.bytes.take 31

/-- `"kernel"` -/
def kernelName : CString := ⟨[0x6B, 0x65, 0x72, 0x6E, 0x65, 0x6C], by decide⟩

def processInit (t : Table) : Table := fun p =>
  if p = 0 then ⟨0, .running, 0, 0x90000, pcbName kernelName⟩
  else if p < maxProcesses then Pcb.zero
  else t p

def processTerminate (t : Table) (pid : Nat) : Table :=
  if pid = 0 ∨ pid ≥ maxProcesses then t else setState t pid .terminated

/-- A process that has blocked or terminated. -/
theorem ProcessState.of_stopped {st : ProcessState} (h : st = .blocked ∨ st = .terminated) :
    st ≠ .free ∧ st ≠ .ready ∧ st ≠ .running := by
  rcases h with rfl | rfl <;> exact ⟨nofun, nofun, nofun⟩

/-! ## Switch frames -/

/-- The words of a frame: eight registers below a return address. -/
@[simp] def frameWords : Nat := 9

/-- A switch frame with its place in a stack: `words k` is word `top + k`. -/
structure Frame where
  top : Nat
  words : Nat → Nat
  room : top + frameWords ≤ stackWords

/-- The frame that `process_create` builds at the end of a stack: eight zeros, and the entry
point as return address. -/
def newFrame (entry : Nat) : Frame where
  top := stackWords - frameWords
  words k := if k = 8 then entry else 0
  room := by decide

/-- The value of the `k`-th `*(--stack_top) = ...` in `process_create`. -/
def pushedWord (entry k : Nat) : Nat := if k = 0 then entry else 0

/-! ## States of the table -/

section States

variable {t : Table} {p q : Nat} {st : ProcessState}

theorem storePcb_self (f : Pcb → Pcb) : storePcb t p f p = f (t p) := Function.update_self ..

theorem storePcb_ne {f : Pcb → Pcb} (h : q ≠ p) : storePcb t p f q = t q :=
  Function.update_of_ne h ..

/-- A store to one field leaves the others as they were. -/
theorem storePcb_field {β : Type*} {f : Pcb → Pcb} (field : Pcb → β)
    (hf : ∀ pcb, field (f pcb) = field pcb) (q : Nat) :
    field (storePcb t p f q) = field (t q) := by
  rcases eq_or_ne q p with rfl | hq
  · rw [storePcb_self, hf]
  · rw [storePcb_ne hq]

theorem setState_state (t : Table) (p : Nat) (st : ProcessState) (q : Nat) :
    (setState t p st q).state = if q = p then st else (t q).state := by
  unfold setState
  rcases eq_or_ne q p with rfl | hq
  · rw [storePcb_self, if_pos rfl]
  · rw [storePcb_ne hq, if_neg hq]

@[simp] theorem setState_pid (t : Table) (p : Nat) (st : ProcessState) (q : Nat) :
    (setState t p st q).pid = (t q).pid := storePcb_field Pcb.pid (by intro; rfl) q

@[simp] theorem setState_esp (t : Table) (p : Nat) (st : ProcessState) (q : Nat) :
    (setState t p st q).esp = (t q).esp := storePcb_field Pcb.esp (by intro; rfl) q

@[simp] theorem setEsp_state (t : Table) (p esp q : Nat) :
    (setEsp t p esp q).state = (t q).state := storePcb_field Pcb.state (by intro; rfl) q

@[simp] theorem setEsp_pid (t : Table) (p esp q : Nat) :
    (setEsp t p esp q).pid = (t q).pid := storePcb_field Pcb.pid (by intro; rfl) q

@[simp] theorem setEsp_self (t : Table) (p esp : Nat) : (setEsp t p esp p).esp = esp := by
  rw [setEsp, storePcb_self]

theorem setEsp_ne {esp : Nat} (h : q ≠ p) : setEsp t p esp q = t q := storePcb_ne h

theorem processTerminate_state (t : Table) (pid q : Nat) :
    (processTerminate t pid q).state =
      if q = pid ∧ pid ≠ 0 ∧ pid < maxProcesses then .terminated else (t q).state := by
  unfold processTerminate
  split
  · rename_i h
    rw [if_neg (by omega)]
  · rename_i h
    rw [setState_state]
    exact if_congr (by omega) rfl rfl

@[simp] theorem processTerminate_pid (t : Table) (pid q : Nat) :
    (processTerminate t pid q).pid = (t q).pid := by
  unfold processTerminate
  split
  · rfl
  · exact setState_pid ..

@[simp] theorem processTerminate_esp (t : Table) (pid q : Nat) :
    (processTerminate t pid q).esp = (t q).esp := by
  unfold processTerminate
  split
  · rfl
  · exact setState_esp ..

end States

end SengOs.Kernel
