import Mathlib.Data.List.Perm.Subperm
import SengOs.Kernel.MutexCalls
import SengOs.Kernel.Steps

/-!
# Calls without an interrupt

The system of whole calls and the machine are one program. When no tick comes between the
accesses of a call, the machine leaves the kernel's data as the whole call does
(`step_uninterrupted`): each function is followed through its accesses to the point where it
returns, and `mutex_lock` to its yield. A tick or a yield is one step of both.
-/

namespace SengOs.Kernel

open ByteMemory Transition

/-- The kernel's data, without the program counters. -/
def Machine.system (m : Machine) : System := ⟨⟨m.table, m.current, m.stackMem⟩, m.mutex⟩

/-- A thread is running, and it is at `pc`. -/
structure Machine.InThread (m : Machine) (pc : ThreadPc) : Prop where
  fault : m.fault = false
  current : m.current ≠ 0
  pc : (m.thread m.current).pc = pc

structure Machine.InShell (m : Machine) (pc : ShellPc) : Prop where
  fault : m.fault = false
  current : m.current = 0
  pc : m.shell.pc = pc

/-- The running process has come to the end of its call, or to the yield of `mutex_lock`. -/
def Machine.Returned (m : Machine) : Prop :=
  m.InShell .idle ∨ m.InThread .idle ∨ m.InThread .lockYield ∨ m.InThread .halted

/-- By accesses of the running process alone, `m` comes to the end of its call with data `y`. -/
def Performs (cfg : Config) (m : Machine) (y : System) : Prop :=
  ∃ m', Reaches (step cfg) (fun _ a => a = .exec (newFrame 0)) m m' ∧ m'.Returned ∧
    m'.system = y

variable {cfg : Config} {m m₁ : Machine} {y : System}

theorem storePcb_storePcb (t : Table) (p : Nat) (f g : Pcb → Pcb) :
    storePcb (storePcb t p f) p g = storePcb t p fun pcb => g (f pcb) := by
  rw [storePcb, storePcb_self]
  exact Function.update_idem ..

/-! ## Accesses in a row -/

theorem exec_thread (hfault : m.fault = false) (hcur : m.current ≠ 0) (out : Frame) :
    step cfg m (.exec out) = m.threadStep cfg m.current out := by
  simp only [step, hfault, Bool.false_eq_true, if_false, hcur]

theorem exec_shell (hfault : m.fault = false) (hcur : m.current = 0) (out : Frame) :
    step cfg m (.exec out) = m.shellStep cfg := by
  simp only [step, hfault, Bool.false_eq_true, if_false, hcur, if_true]

/-- An access that leaves the thread running moves it to the point that follows. -/
theorem Machine.InThread.next {m₀ : Machine} {pc : ThreadPc} (h : m.InThread pc) (th : Thread)
    (hfault : m₀.fault = m.fault) (hcur : m₀.current = m.current) :
    (m₀.setThread m.current th).InThread th.pc where
  fault := hfault.trans h.fault
  current := hcur.trans_ne h.current
  pc := by
    rw [show (m₀.setThread m.current th).current = m.current from hcur]
    exact congrArg Thread.pc (setThread_self ..)

theorem Machine.InShell.next {m₀ : Machine} {pc : ShellPc} (h : m.InShell pc) (pc' : ShellPc)
    (hfault : m₀.fault = m.fault) (hcur : m₀.current = m.current) :
    (m₀.shellGoto pc').InShell pc' :=
  ⟨hfault.trans h.fault, hcur.trans h.current, rfl⟩

namespace Performs

variable {m₀ : Machine} {pc : ThreadPc} {th : Thread}

theorem refl (hret : m.Returned) : Performs cfg m m.system := ⟨m, .refl, hret, rfl⟩

theorem head (hs : step cfg m (.exec (newFrame 0)) = some m₁) (h : Performs cfg m₁ y) :
    Performs cfg m y := by
  obtain ⟨m', hrest, hret, hy⟩ := h
  exact ⟨m', .head rfl hs hrest, hret, hy⟩

theorem reaches (h : Performs cfg m y) :
    ∃ m', Reaches (step cfg) (fun _ a => a = .exec (newFrame 0)) m m' ∧ m'.system = y := by
  obtain ⟨m', hrun, -, hy⟩ := h
  exact ⟨m', hrun, hy⟩

/-- One access of a thread, and the rest of its call. -/
theorem thread (h : m.InThread pc)
    (hs : m.threadStep cfg m.current (newFrame 0) = some (m₀.setThread m.current th))
    (hfault : m₀.fault = m.fault) (hcur : m₀.current = m.current)
    (rest : (m₀.setThread m.current th).InThread th.pc →
      Performs cfg (m₀.setThread m.current th) y) : Performs cfg m y :=
  (rest (h.next th hfault hcur)).head ((exec_thread h.fault h.current _).trans hs)

/-- The last access of a call. -/
theorem last (h : m.InThread pc)
    (hs : m.threadStep cfg m.current (newFrame 0) = some (m₀.setThread m.current th))
    (hfault : m₀.fault = m.fault) (hcur : m₀.current = m.current)
    (hend : th.pc = .idle ∨ th.pc = .lockYield ∨ th.pc = .halted) :
    Performs cfg m m₀.system := by
  refine .thread h hs hfault hcur fun hm => .refl (.inr ?_)
  rcases hend with hpc | hpc | hpc
  · exact .inl (hpc ▸ hm)
  · exact .inr (.inl (hpc ▸ hm))
  · exact .inr (.inr (hpc ▸ hm))

/-- One access of the shell, and the rest of its call. -/
theorem shell {pc pc' : ShellPc} (h : m.InShell pc)
    (hs : m.shellStep cfg = some (m₀.shellGoto pc'))
    (hfault : m₀.fault = m.fault) (hcur : m₀.current = m.current)
    (rest : (m₀.shellGoto pc').InShell pc' → Performs cfg (m₀.shellGoto pc') y) :
    Performs cfg m y :=
  (rest (h.next pc' hfault hcur)).head ((exec_shell h.fault h.current _).trans hs)

theorem lastShell {pc : ShellPc} (h : m.InShell pc)
    (hs : m.shellStep cfg = some (m₀.shellGoto .idle))
    (hfault : m₀.fault = m.fault) (hcur : m₀.current = m.current) :
    Performs cfg m m₀.system :=
  .shell h hs hfault hcur fun hm => .refl (.inl hm)

end Performs

/-! ## The calls of a thread -/

theorem exit_uninterrupted (h : m.InThread .exitStore) :
    Performs cfg m { m.system with table := processTerminate m.table m.current } := by
  have hs : m.threadStep cfg m.current (newFrame 0) =
      some ({ m with table := processTerminate m.table m.current }.goto m.current .halted) := by
    rw [Machine.threadStep, h.pc]
  exact .last h hs rfl rfl (.inr (.inr rfl))

theorem lockBlock_uninterrupted (h : m.InThread .lockBlock)
    (hroom : 0 ≤ m.mutex.nwaiters ∧ m.mutex.nwaiters < maxProcesses) :
    Performs cfg m { m.system with
      mutex := m.mutex.append m.current
      table := setState m.table m.current .blocked } := by
  have hs : m.threadStep cfg m.current (newFrame 0) = some ({ m with
      mutex := m.mutex.append m.current
      table := setState m.table m.current .blocked }.goto m.current .lockYield) := by
    rw [Machine.threadStep, h.pc]
    exact if_pos hroom
  exact .last h hs rfl rfl (.inr (.inl rfl))

theorem lockOwner_uninterrupted (h : m.InThread .lockOwner) :
    Performs cfg m { m.system with mutex := { m.mutex with owner := m.current } } := by
  have hs : m.threadStep cfg m.current (newFrame 0) =
      some ({ m with mutex := { m.mutex with owner := m.current } }.setThread m.current
        { m.thread m.current with pc := .idle, holds := true }) := by
    rw [Machine.threadStep, h.pc]
  exact .last h hs rfl rfl (.inl rfl)

theorem lock_uninterrupted {again : Bool} (h : m.InThread (.lockXchg again))
    (hroom : 0 ≤ m.mutex.nwaiters ∧ m.mutex.nwaiters < maxProcesses) :
    Performs cfg m m.system.mutexLock := by
  have hs : m.threadStep cfg m.current (newFrame 0) =
      some ({ m with mutex := { m.mutex with locked := 1 } }.goto m.current
        (if m.mutex.locked = 1 then .lockBlock else .lockOwner)) := by
    rw [Machine.threadStep, h.pc]
  unfold System.mutexLock
  by_cases hlocked : m.mutex.locked = 1
  · rw [if_pos hlocked] at hs
    dsimp only
    rw [if_pos (show m.system.mutex.locked = 1 from hlocked)]
    exact .thread h hs rfl rfl fun hm => lockBlock_uninterrupted hm hroom
  · rw [if_neg hlocked] at hs
    dsimp only
    rw [if_neg (show ¬m.system.mutex.locked = 1 from hlocked)]
    exact .thread h hs rfl rfl fun hm => lockOwner_uninterrupted hm

theorem unblockStore_uninterrupted {pid : Nat} (h : m.InThread (.unblockStore pid)) :
    Performs cfg m { m.system with table := setState m.table pid .ready } := by
  have hs : m.threadStep cfg m.current (newFrame 0) =
      some ({ m with table := setState m.table pid .ready }.goto m.current .idle) := by
    rw [Machine.threadStep, h.pc]
  exact .last h hs rfl rfl (.inl rfl)

/-- The call of `scheduler_unblock`, at the end of `mutex_unlock`. -/
theorem unblock_uninterrupted {pid : Nat} (h : m.InThread (.unblockTest pid)) :
    Performs cfg m { m.system with table := schedulerUnblock m.table pid } := by
  have hs : m.threadStep cfg m.current (newFrame 0) = some (m.goto m.current
      (if pid < maxProcesses ∧ (m.table pid).state = .blocked then .unblockStore pid
        else .idle)) := by
    rw [Machine.threadStep, h.pc]
  rw [schedulerUnblock_eq]
  split at hs
  · rename_i hblocked
    rw [if_pos hblocked]
    exact .thread h hs rfl rfl fun hm => unblockStore_uninterrupted hm
  · rename_i hother
    rw [if_neg hother]
    exact .last h hs rfl rfl (.inl rfl)

/-- From the read of `waiters[v]`, with `v` already stored in `nwaiters`. -/
theorem unlockRead_uninterrupted {v : Int} (h : m.InThread (.unlockRead v))
    (hlo : 0 ≤ v) (hhi : v < maxProcesses) :
    Performs cfg m
      { m.system with table := schedulerUnblock m.table (m.mutex.waiters v.toNat) } := by
  have hs : m.threadStep cfg m.current (newFrame 0) =
      some (m.goto m.current (.unblockTest (m.mutex.waiters v.toNat))) := by
    rw [Machine.threadStep, h.pc]
    exact if_pos ⟨hlo, hhi⟩
  exact .thread h hs rfl rfl fun hm => unblock_uninterrupted hm

theorem unlockStore_uninterrupted {v : Int} (h : m.InThread (.unlockStore v))
    (hlo : 0 ≤ v) (hhi : v < maxProcesses) :
    Performs cfg m { m.system with
      mutex := { m.mutex with nwaiters := v }
      table := schedulerUnblock m.table (m.mutex.waiters v.toNat) } := by
  have hs : m.threadStep cfg m.current (newFrame 0) =
      some ({ m with mutex := { m.mutex with nwaiters := v } }.goto m.current
        (.unlockRead v)) := by
    rw [Machine.threadStep, h.pc]
  exact .thread h hs rfl rfl fun hm => unlockRead_uninterrupted hm hlo hhi

theorem unlockLoad_uninterrupted (h : m.InThread .unlockLoad)
    (hpos : 0 < m.mutex.nwaiters) (hroom : m.mutex.nwaiters ≤ maxProcesses) :
    Performs cfg m { m.system with
      mutex := { m.mutex with nwaiters := m.mutex.nwaiters - 1 }
      table := schedulerUnblock m.table m.mutex.lastWaiter } := by
  have hs : m.threadStep cfg m.current (newFrame 0) =
      some (m.goto m.current (.unlockStore (m.mutex.nwaiters - 1))) := by
    rw [Machine.threadStep, h.pc]
  exact .thread h hs rfl rfl fun hm => unlockStore_uninterrupted hm (by omega) (by omega)

theorem unlockTest_uninterrupted (h : m.InThread .unlockTest)
    (hroom : m.mutex.nwaiters ≤ maxProcesses) :
    Performs cfg m (if m.mutex.nwaiters > 0 then { m.system with
        mutex := { m.mutex with nwaiters := m.mutex.nwaiters - 1 }
        table := schedulerUnblock m.table m.mutex.lastWaiter }
      else m.system) := by
  have hs : m.threadStep cfg m.current (newFrame 0) = some (m.goto m.current
      (if m.mutex.nwaiters > 0 then .unlockLoad else .idle)) := by
    rw [Machine.threadStep, h.pc]
  split
  · rename_i hwait
    rw [if_pos hwait] at hs
    exact .thread h hs rfl rfl fun hm => unlockLoad_uninterrupted hm hwait hroom
  · rename_i hwait
    rw [if_neg hwait] at hs
    exact .last h hs rfl rfl (.inl rfl)

theorem unlockLocked_uninterrupted (h : m.InThread .unlockLocked)
    (hroom : m.mutex.nwaiters ≤ maxProcesses) :
    Performs cfg m (if m.mutex.nwaiters > 0 then { m.system with
        mutex := { m.mutex with locked := 0, nwaiters := m.mutex.nwaiters - 1 }
        table := schedulerUnblock m.table m.mutex.lastWaiter }
      else { m.system with mutex := { m.mutex with locked := 0 } }) := by
  have hs : m.threadStep cfg m.current (newFrame 0) =
      some ({ m with mutex := { m.mutex with locked := 0 } }.setThread m.current
        { m.thread m.current with pc := .unlockTest, holds := false }) := by
    rw [Machine.threadStep, h.pc]
  exact .thread h hs rfl rfl fun hm => unlockTest_uninterrupted hm hroom

theorem unlock_uninterrupted (h : m.InThread .unlockOwner)
    (hroom : m.mutex.nwaiters ≤ maxProcesses) : Performs cfg m m.system.mutexUnlock := by
  have hs : m.threadStep cfg m.current (newFrame 0) =
      some ({ m with mutex := { m.mutex with owner := -1 } }.goto m.current
        .unlockLocked) := by
    rw [Machine.threadStep, h.pc]
  exact .thread h hs rfl rfl fun hm => unlockLocked_uninterrupted hm hroom

/-! ## The calls of the shell -/

theorem killStore_uninterrupted {pid : Nat} (h : m.InShell (.killStore pid)) :
    Performs cfg m { m.system with table := processTerminate m.table pid } := by
  have hs : m.shellStep cfg =
      some ({ m with table := processTerminate m.table pid }.shellGoto .idle) := by
    rw [Machine.shellStep, h.pc]
  exact .lastShell h hs rfl rfl

theorem kill_uninterrupted {pid : Nat} (h : m.InShell (.killTest pid)) :
    Performs cfg m { m.system with table := killProcess m.table pid } := by
  have hs : m.shellStep cfg = some (m.shellGoto
      (if pid = 0 ∨ pid ≥ maxProcesses ∨ (m.table pid).state = .free then .idle
        else .killStore pid)) := by
    rw [Machine.shellStep, h.pc]
  have hkill : killProcess m.table pid =
      if pid = 0 ∨ pid ≥ maxProcesses ∨ (m.table pid).state = .free then m.table
      else processTerminate m.table pid := by
    rw [ite_or]
    rfl
  rw [hkill]
  split
  · rename_i hnone
    rw [if_pos hnone] at hs
    exact .lastShell h hs rfl rfl
  · rename_i hsome
    rw [if_neg hsome] at hs
    exact .shell h hs rfl rfl fun hm => killStore_uninterrupted hm

/-- The scan, from a slot on. -/
theorem scan_uninterrupted {c : Creation} {n : Nat} (h : m.InShell (.create c .scan))
    (hn : c.slot + n = maxProcesses) {r : Option Nat}
    (hfind : (List.range' c.slot n).find? (fun i => decide ((m.table i).state = .free)) = r)
    (hnone : r = none → m.system = y)
    (hsome : ∀ m' slot, r = some slot →
      m'.InShell (.create { c with slot := slot } (.push 0)) → m'.system = m.system →
      Performs cfg m' y) : Performs cfg m y := by
  induction n generalizing m c with
  | zero =>
    have hs : m.shellStep cfg = some (m.shellGoto .idle) := by
      rw [Machine.shellStep, h.pc]
      exact congrArg some (if_pos hn.ge)
    rw [← hnone hfind.symm]
    exact .lastShell h hs rfl rfl
  | succ n ih =>
    have hlt : ¬c.slot ≥ maxProcesses := by omega
    rw [List.range'_succ] at hfind
    by_cases hfree : (m.table c.slot).state = .free
    · have hs : m.shellStep cfg = some (m.shellGoto (.create c (.push 0))) := by
        rw [Machine.shellStep, h.pc]
        exact congrArg some ((if_neg hlt).trans (if_pos hfree))
      rw [List.find?_cons, decide_eq_true hfree] at hfind
      exact .shell h hs rfl rfl fun hm => hsome _ _ hfind.symm hm rfl
    · have hs : m.shellStep cfg =
          some (m.shellGoto (.create { c with slot := c.slot + 1 } .scan)) := by
        rw [Machine.shellStep, h.pc]
        exact congrArg some ((if_neg hlt).trans (if_neg hfree))
      rw [List.find?_cons, decide_eq_false hfree] at hfind
      refine .shell h hs rfl rfl fun hm => ih hm ?_ hfind hnone hsome
      show c.slot + 1 + n = maxProcesses
      omega

/-- One store of `process_create`, and the rest of the call. -/
theorem Performs.create {c : Creation} {stage : CreateStage} {pc : ShellPc}
    (h : m.InShell (.create c stage)) (hpc : (m.createStep cfg c stage).shell.pc = pc)
    (hfault : (m.createStep cfg c stage).fault = m.fault)
    (hcur : (m.createStep cfg c stage).current = m.current)
    (rest : ∀ m', m' = m.createStep cfg c stage → m'.InShell pc → Performs cfg m' y) :
    Performs cfg m y := by
  have hs : m.shellStep cfg = some (m.createStep cfg c stage) := by
    rw [Machine.shellStep, h.pc]
  have hm : (m.createStep cfg c stage).InShell pc :=
    ⟨hfault.trans h.fault, hcur.trans h.current, hpc⟩
  exact (rest _ rfl hm).head ((exec_shell h.fault h.current _).trans hs)

/-- The pushes, from the `k`-th on. -/
theorem push_uninterrupted {c : Creation} {k n : Nat} (h : m.InShell (.create c (.push k)))
    (hn : k + n + 1 = frameWords)
    (rest : ∀ m', m'.InShell (.create c .pid) → m'.system = { m.system with
      stackMem := Function.update m.system.stackMem c.slot ((List.range' k (n + 1)).foldl
        (fun st j => Function.update st (stackWords - 1 - j) (pushedWord c.entry j))
        (m.system.stackMem c.slot)) } → Performs cfg m' y) : Performs cfg m y := by
  induction n generalizing m k with
  | zero =>
    have hlast : ¬k + 1 < frameWords := by omega
    apply Performs.create h (congrArg (ShellPc.create c) (if_neg hlast)) rfl rfl
    rintro _ rfl hm
    exact rest _ hm rfl
  | succ n ih =>
    have hmore : k + 1 < frameWords := by omega
    apply Performs.create h (congrArg (ShellPc.create c) (if_pos hmore)) rfl rfl
    rintro _ rfl hm
    apply ih hm (by omega)
    intro m' hm' hsystem
    refine rest m' hm' (hsystem.trans ?_)
    rw [List.range'_succ (n := n + 1), List.foldl_cons]
    simp only [Machine.system, Machine.createStep, Machine.shellGoto, Function.update_self,
      Function.update_idem]

/-- The stores to the process table. -/
theorem stores_uninterrupted {c : Creation} (h : m.InShell (.create c .pid)) :
    Performs cfg m { m.system with
      table := storePcb m.system.table c.slot fun _ => ⟨c.slot, .ready,
        cfg.stackBase c.slot + 4 * (stackWords - frameWords), cfg.stackBase c.slot,
        pcbName c.name⟩ } := by
  apply Performs.create h rfl rfl rfl
  intro m₁ heq₁ h₁
  apply Performs.create h₁ rfl rfl rfl
  intro m₂ heq₂ h₂
  apply Performs.create h₂ rfl rfl rfl
  intro m₃ heq₃ h₃
  apply Performs.create h₃ rfl rfl rfl
  intro m₄ heq₄ h₄
  apply Performs.create h₄ rfl rfl rfl
  intro m₅ heq₅ h₅
  have hsystem : m₅.system = { m.system with
      table := storePcb m.system.table c.slot fun _ => ⟨c.slot, .ready,
        cfg.stackBase c.slot + 4 * (stackWords - frameWords), cfg.stackBase c.slot,
        pcbName c.name⟩ } := by
    subst heq₅ heq₄ heq₃ heq₂ heq₁
    simp only [Machine.system, Machine.createStep, Machine.shellGoto, setState, setEsp,
      storePcb_storePcb]
    rfl
  rw [← hsystem]
  exact .refl (.inl h₅)

theorem create_uninterrupted {name : CString} {entry : Nat}
    (h : m.InShell (.create ⟨name, entry, 1⟩ .scan)) :
    Performs cfg m
      { m.system with toSched := (m.system.toSched.processCreate cfg name entry).2 } := by
  apply scan_uninterrupted (n := maxProcesses - 1) h rfl (r := freeSlot m.table) rfl
  · intro hnone
    rw [Sched.processCreate, show freeSlot m.system.table = none from hnone]
  · intro m' slot hslot hm' hsystem
    apply push_uninterrupted (n := frameWords - 1) hm' rfl
    intro m'' hm'' hpushed
    have hstores : Performs cfg m'' _ := stores_uninterrupted hm''
    rw [hpushed, hsystem] at hstores
    rw [Sched.processCreate, show freeSlot m.system.table = some slot from hslot]
    exact hstores

/-! ## Every call -/

/-- A switch is one step. -/
theorem pickAndSwitch_system (cfg : Config) (m : Machine) (out : Frame) :
    (m.pickAndSwitch cfg out).system =
      { m.system with toSched := (m.system.toSched.pickAndSwitch cfg out).2 } := by
  unfold Sched.pickAndSwitch
  rcases pickAndSwitch_cases cfg m out with ⟨hnone, heq⟩ | ⟨next, hnext, heq⟩
  · rw [heq, show pickNext m.system.table m.system.current = none from hnone]
  · rw [heq, show pickNext m.system.table m.system.current = some next from hnext]
    rfl

/-- The machine is at the start of a call. -/
def Machine.Starts (m : Machine) : SystemCall → Prop
  | .lock => ∃ again, m.InThread (.lockXchg again)
  | .unlock => m.InThread .unlockOwner
  | .sched (.create name entry) => m.InShell (.create ⟨name, entry, 1⟩ .scan)
  | .sched (.kill pid) => m.InShell (.killTest pid)
  | .sched .exit => m.InThread .exitStore
  | .sched (.tick _) => m.fault = false
  | .sched (.yield _) => m.InThread .lockYield
  | .sched .block | .sched (.unblock _) => False

/-- What the machine does during a call. -/
def SystemCall.act : SystemCall → Act
  | .sched (.tick out) => .tick out
  | .sched (.yield out) => .exec out
  | _ => .exec (newFrame 0)

/-- There is room in `waiters` for a process that is running. -/
theorem ListedSound.nwaiters_lt (h : ListedSound y) (hlt : y.current < maxProcesses)
    (hrun : y.state = .running) : y.mutex.nwaiters < maxProcesses := by
  have hnodup : (y.current :: y.mutex.list).Nodup :=
    List.nodup_cons.mpr ⟨h.current_not_mem hrun, h.nodup⟩
  have hsub : y.current :: y.mutex.list ⊆ List.range maxProcesses := by
    intro p hp
    rw [List.mem_range]
    rcases List.mem_cons.mp hp with rfl | hp
    · exact hlt
    · exact (h.entries p hp).1
  have hle := (hnodup.subperm hsub).length_le
  rw [List.length_cons, Mutex.length_list, List.length_range] at hle
  have hnonneg := h.nonneg
  omega

/-- A call of the system is what the machine does when it is not interrupted. -/
theorem step_uninterrupted {c : SystemCall} (hsound : SchedSound m.system.toSched)
    (hlisted : ListedSound m.system) (hstart : m.Starts c)
    (hs : m.system.step cfg c = some y) :
    ∃ m', Reaches (step cfg) (fun _ a => a = c.act) m m' ∧ m'.system = y := by
  have hroom : m.system.state = .running → m.mutex.nwaiters < maxProcesses :=
    hlisted.nwaiters_lt hsound.current_lt
  cases c with
  | lock =>
    obtain ⟨again, hm⟩ := hstart
    obtain ⟨⟨hrun, -⟩, hs⟩ := Option.ite_none_right_eq_some.mp hs
    cases hs
    exact (lock_uninterrupted hm ⟨hlisted.nonneg, hroom hrun⟩).reaches
  | unlock =>
    obtain ⟨⟨hrun, -⟩, hs⟩ := Option.ite_none_right_eq_some.mp hs
    cases hs
    exact (unlock_uninterrupted hstart (hroom hrun).le).reaches
  | sched c =>
    obtain ⟨-, hmap⟩ := Option.ite_none_right_eq_some.mp hs
    obtain ⟨s, hcall, rfl⟩ := Option.map_eq_some_iff.mp hmap
    cases c with
    | create name entry =>
      obtain ⟨-, hs⟩ := Option.ite_none_right_eq_some.mp hcall
      cases hs
      exact (create_uninterrupted hstart).reaches
    | kill pid =>
      obtain ⟨-, hs⟩ := Option.ite_none_right_eq_some.mp hcall
      cases hs
      exact (kill_uninterrupted hstart).reaches
    | exit =>
      obtain ⟨-, hs⟩ := Option.ite_none_right_eq_some.mp hcall
      cases hs
      exact (exit_uninterrupted hstart).reaches
    | block | unblock pid => cases hstart
    | tick out =>
      cases hcall
      have hs : step cfg m (.tick out) = some (m.pickAndSwitch cfg out) := by
        rw [step, show m.fault = false from hstart]
        rfl
      exact ⟨_, Reaches.refl.tail rfl hs, pickAndSwitch_system cfg m out⟩
    | yield out =>
      cases hcall
      have hs : step cfg m (.exec out) = m.threadStep cfg m.current out :=
        exec_thread hstart.fault hstart.current out
      rw [Machine.threadStep, hstart.pc] at hs
      refine ⟨_, Reaches.refl.tail rfl hs, ?_⟩
      exact pickAndSwitch_system cfg (m.goto m.current (.lockXchg true)) out

end SengOs.Kernel
