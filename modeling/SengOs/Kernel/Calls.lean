import SengOs.Kernel.Machine

/-!
# Whole calls

The functions of `process.c`, `thread.c` and `scheduler.c`, and the `kill` command of the shell,
as functions on the kernel's data. Here a call is one step, of the process that is running, and
`Sched.step` is the system of these steps. `SchedStep` lists what a step can do.
-/

namespace SengOs.Kernel

open ByteMemory

/-- The process table, `current_pid` and the stacks. -/
structure Sched where
  table : Table
  current : Nat
  stackMem : Nat → Nat → Nat

/-! ## The functions -/

/-- The scan of `process_create`. -/
def freeSlot (t : Table) : Option Nat :=
  (List.range' 1 (maxProcesses - 1)).find? fun i => decide ((t i).state = .free)

/-- The nine `*(--stack_top) = ...` of `process_create`. -/
def pushFrame (stack : Nat → Nat) (entry : Nat) : Nat → Nat :=
  (List.range frameWords).foldl
    (fun st k => Function.update st (stackWords - 1 - k) (pushedWord entry k)) stack

def Sched.processCreate (cfg : Config) (s : Sched) (name : CString) (entry : Nat) :
    Int × Sched :=
  match freeSlot s.table with
  | none => (-1, s)
  | some slot =>
    (slot, { s with
      table := storePcb s.table slot fun _ =>
        ⟨slot, .ready, cfg.stackBase slot + 4 * (stackWords - frameWords), cfg.stackBase slot,
          pcbName name⟩
      stackMem := Function.update s.stackMem slot (pushFrame (s.stackMem slot) entry) })

/-- What the `kill` command of the shell does for a number. -/
def killProcess (t : Table) (pid : Nat) : Table :=
  if pid = 0 then t
  else if pid ≥ maxProcesses ∨ (t pid).state = .free then t
  else processTerminate t pid

/-- `scheduler_unblock` -/
def schedulerUnblock (t : Table) (pid : Nat) : Table :=
  if pid ≥ maxProcesses then t
  else if (t pid).state = .blocked then setState t pid .ready
  else t

/-- `pick_and_switch`; `out` is the frame that `context_switch` pushes on the stack. -/
def Sched.pickAndSwitch (cfg : Config) (s : Sched) (out : Frame) : Int × Sched :=
  match pickNext s.table s.current with
  | none => (0, s)
  | some next =>
    (1, {
      table := setEsp (switchStates s.table s.current next) s.current
        (cfg.stackBase s.current + 4 * out.top)
      current := next
      stackMem := Function.update s.stackMem s.current fun i =>
        if out.top ≤ i ∧ i < out.top + frameWords then out.words (i - out.top)
        else s.stackMem s.current i })

/-! ## The system -/

inductive SchedCall where
  | create (name : CString) (entry : Nat)
  | kill (pid : Nat)
  /-- `thread_exit` -/
  | exit
  /-- the store of BLOCKED in `mutex_lock` -/
  | block
  | unblock (pid : Nat)
  | tick (out : Frame)
  | yield (out : Frame)

/-- The state of the process whose turn it is. -/
def Sched.state (s : Sched) : ProcessState := (s.table s.current).state

/-- Only a RUNNING process makes calls; PID 0 neither exits nor blocks. -/
def Sched.step (cfg : Config) (s : Sched) : SchedCall → Option Sched
  | .create name entry =>
    if s.state = .running then some (s.processCreate cfg name entry).2 else none
  | .kill pid =>
    if s.state = .running then some { s with table := killProcess s.table pid } else none
  | .exit =>
    if s.state = .running ∧ s.current ≠ 0 then
      some { s with table := processTerminate s.table s.current }
    else none
  | .block =>
    if s.state = .running ∧ s.current ≠ 0 then
      some { s with table := setState s.table s.current .blocked }
    else none
  | .unblock pid =>
    if s.state = .running then some { s with table := schedulerUnblock s.table pid } else none
  | .tick out | .yield out => some (s.pickAndSwitch cfg out).2

/-- The kernel's data after `process_init`. -/
def Sched.init (t : Table) (stackMem : Nat → Nat → Nat) : Sched := ⟨processInit t, 0, stackMem⟩

/-! ## What a call does -/

section Calls

variable {cfg : Config} {s s' : Sched} {t : Table}

theorem freeSlot_some {slot : Nat} (h : freeSlot t = some slot) :
    1 ≤ slot ∧ slot < maxProcesses ∧ (t slot).state = .free := by
  obtain ⟨hfree, hmem, -⟩ := List.find?_range'_eq_some.mp h
  obtain ⟨hpos, hlt⟩ := List.mem_range'_1.mp hmem
  simp only [maxProcesses] at *
  exact ⟨hpos, by omega, of_decide_eq_true hfree⟩

theorem freeSlot_none (h : freeSlot t = none) {p : Nat} (hpos : 1 ≤ p) (hlt : p < maxProcesses) :
    (t p).state ≠ .free := by
  intro hfree
  refine List.find?_eq_none.mp h p (List.mem_range'_1.mpr ?_) (decide_eq_true hfree)
  simp only [maxProcesses] at *
  omega

theorem killProcess_cases (t : Table) (pid : Nat) :
    killProcess t pid = t ∨ (1 ≤ pid ∧ pid < maxProcesses ∧ (t pid).state ≠ .free) ∧
      killProcess t pid = setState t pid .terminated := by
  unfold killProcess
  split
  · exact .inl rfl
  · rename_i hzero
    split
    · exact .inl rfl
    · rename_i hother
      rw [not_or, not_le] at hother
      refine .inr ⟨⟨Nat.one_le_iff_ne_zero.mpr hzero, hother⟩, ?_⟩
      exact if_neg (not_or.mpr ⟨hzero, not_le.mpr hother.1⟩)

/-- The two tests of `scheduler_unblock` as one. -/
theorem schedulerUnblock_eq (t : Table) (pid : Nat) :
    schedulerUnblock t pid =
      if pid < maxProcesses ∧ (t pid).state = .blocked then setState t pid .ready else t := by
  unfold schedulerUnblock
  rcases lt_or_ge pid maxProcesses with hlt | hge
  · rw [if_neg (not_le.mpr hlt)]
    exact if_congr (by simp only [hlt, true_and]) rfl rfl
  · rw [if_pos hge, if_neg fun h => absurd h.1 (not_lt.mpr hge)]

theorem schedulerUnblock_cases (t : Table) (pid : Nat) :
    schedulerUnblock t pid = t ∨ (pid < maxProcesses ∧ (t pid).state = .blocked) ∧
      schedulerUnblock t pid = setState t pid .ready := by
  rw [schedulerUnblock_eq]
  split
  · rename_i hblocked
    exact .inr ⟨hblocked, rfl⟩
  · exact .inl rfl

/-- A step of the system, by what it changes. -/
inductive SchedStep (cfg : Config) (s : Sched) : SchedCall → Sched → Prop
  | same {c : SchedCall} : SchedStep cfg s c s
  | create {name : CString} {entry slot : Nat} {stackMem : Nat → Nat → Nat} {pcb : Pcb}
      (hrun : s.state = .running) (hslot : freeSlot s.table = some slot) (hpid : pcb.pid = slot)
      (hready : pcb.state = .ready) :
      SchedStep cfg s (.create name entry)
        { s with table := storePcb s.table slot fun _ => pcb, stackMem := stackMem }
  | terminate {c : SchedCall} {pid : Nat} (hrun : s.state = .running) (hpos : 1 ≤ pid)
      (hlt : pid < maxProcesses) (hused : (s.table pid).state ≠ .free) :
      SchedStep cfg s c { s with table := setState s.table pid .terminated }
  | block (hrun : s.state = .running) (hcur : s.current ≠ 0) :
      SchedStep cfg s .block { s with table := setState s.table s.current .blocked }
  | unblock {pid : Nat} (hrun : s.state = .running) (hlt : pid < maxProcesses)
      (hblocked : (s.table pid).state = .blocked) :
      SchedStep cfg s (.unblock pid) { s with table := setState s.table pid .ready }
  | switch {c : SchedCall} {next esp : Nat} {stackMem : Nat → Nat → Nat}
      (hnext : pickNext s.table s.current = some next) :
      SchedStep cfg s c
        ⟨setEsp (switchStates s.table s.current next) s.current esp, next, stackMem⟩

theorem SchedStep.of_pick (c : SchedCall) (out : Frame) :
    SchedStep cfg s c (s.pickAndSwitch cfg out).2 := by
  unfold Sched.pickAndSwitch
  split
  · exact .same
  · rename_i next hnext
    exact .switch hnext

theorem schedStep_cases (hlt : s.current < maxProcesses) {c : SchedCall}
    (h : s.step cfg c = some s') : SchedStep cfg s c s' := by
  cases c with
  | create name entry =>
    obtain ⟨hrun, heq⟩ := Option.ite_none_right_eq_some.mp h
    cases heq
    unfold Sched.processCreate
    split
    · exact .same
    · rename_i slot hslot
      exact .create hrun hslot rfl rfl
  | kill pid =>
    obtain ⟨hrun, heq⟩ := Option.ite_none_right_eq_some.mp h
    cases heq
    rcases killProcess_cases s.table pid with hsame | ⟨⟨hpos, hlt, hused⟩, hkill⟩
    · rw [hsame]
      exact .same
    · rw [hkill]
      exact .terminate hrun hpos hlt hused
  | exit =>
    obtain ⟨⟨hrun, hcur⟩, heq⟩ := Option.ite_none_right_eq_some.mp h
    cases heq
    have hterm : processTerminate s.table s.current =
        setState s.table s.current .terminated :=
      if_neg (not_or.mpr ⟨hcur, not_le.mpr hlt⟩)
    rw [hterm]
    refine .terminate hrun (Nat.one_le_iff_ne_zero.mpr hcur) hlt ?_
    rw [show (s.table s.current).state = _ from hrun]
    nofun
  | block =>
    obtain ⟨⟨hrun, hcur⟩, heq⟩ := Option.ite_none_right_eq_some.mp h
    cases heq
    exact .block hrun hcur
  | unblock pid =>
    obtain ⟨hrun, heq⟩ := Option.ite_none_right_eq_some.mp h
    cases heq
    rcases schedulerUnblock_cases s.table pid with hsame | ⟨⟨hlt, hblocked⟩, hwake⟩
    · rw [hsame]
      exact .same
    · rw [hwake]
      exact .unblock hrun hlt hblocked
  | tick out =>
    cases h
    exact .of_pick _ out
  | yield out =>
    cases h
    exact .of_pick _ out

end Calls

end SengOs.Kernel
