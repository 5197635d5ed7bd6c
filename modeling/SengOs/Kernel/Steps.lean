import SengOs.Kernel.Machine

/-!
# The transitions, one by one

`ThreadStep` and `ShellStep` list what the running process can do next, with one case for each
access of the source. `step_cases` and `step_invariant` say that the machine has no other
transitions but a tick, a yield and work on a stack.
-/

namespace SengOs.Kernel

open Transition

/-- The transitions of thread `p` other than a yield. -/
inductive ThreadStep (m : Machine) (p : Nat) : Machine → Prop
  | start {call : ThreadCall} {rest : List ThreadCall} (hpc : (m.thread p).pc = .idle)
      (htodo : (m.thread p).todo = call :: rest) :
      ThreadStep m p (m.setThread p { m.thread p with pc := call.start, todo := rest })
  | xchgHeld {again : Bool} (hpc : (m.thread p).pc = .lockXchg again)
      (hlocked : m.mutex.locked = 1) :
      ThreadStep m p ({ m with mutex := { m.mutex with locked := 1 } }.goto p .lockBlock)
  | xchgFree {again : Bool} (hpc : (m.thread p).pc = .lockXchg again)
      (hlocked : m.mutex.locked ≠ 1) :
      ThreadStep m p ({ m with mutex := { m.mutex with locked := 1 } }.goto p .lockOwner)
  | block (hpc : (m.thread p).pc = .lockBlock) (hlo : 0 ≤ m.mutex.nwaiters)
      (hhi : m.mutex.nwaiters < maxProcesses) :
      ThreadStep m p ({ m with
        mutex := m.mutex.append p
        table := setState m.table p .blocked }.goto p .lockYield)
  | blockFault (hpc : (m.thread p).pc = .lockBlock) : ThreadStep m p { m with fault := true }
  | owner (hpc : (m.thread p).pc = .lockOwner) :
      ThreadStep m p ({ m with mutex := { m.mutex with owner := p } }.setThread p
        { m.thread p with pc := .idle, holds := true })
  | clearOwner (hpc : (m.thread p).pc = .unlockOwner) :
      ThreadStep m p ({ m with mutex := { m.mutex with owner := -1 } }.goto p .unlockLocked)
  | release (hpc : (m.thread p).pc = .unlockLocked) :
      ThreadStep m p ({ m with mutex := { m.mutex with locked := 0 } }.setThread p
        { m.thread p with pc := .unlockTest, holds := false })
  | someWaiter (hpc : (m.thread p).pc = .unlockTest) (hwait : 0 < m.mutex.nwaiters) :
      ThreadStep m p (m.goto p .unlockLoad)
  | noWaiter (hpc : (m.thread p).pc = .unlockTest) (hwait : m.mutex.nwaiters ≤ 0) :
      ThreadStep m p (m.goto p .idle)
  | load (hpc : (m.thread p).pc = .unlockLoad) :
      ThreadStep m p (m.goto p (.unlockStore (m.mutex.nwaiters - 1)))
  | store {v : Int} (hpc : (m.thread p).pc = .unlockStore v) :
      ThreadStep m p
        ({ m with mutex := { m.mutex with nwaiters := v } }.goto p (.unlockRead v))
  | read {v : Int} (hpc : (m.thread p).pc = .unlockRead v) (hlo : 0 ≤ v)
      (hhi : v < maxProcesses) :
      ThreadStep m p (m.goto p (.unblockTest (m.mutex.waiters v.toNat)))
  | readFault {v : Int} (hpc : (m.thread p).pc = .unlockRead v) :
      ThreadStep m p { m with fault := true }
  | isBlocked {t : Nat} (hpc : (m.thread p).pc = .unblockTest t) (ht : t < maxProcesses)
      (hstate : (m.table t).state = .blocked) : ThreadStep m p (m.goto p (.unblockStore t))
  | notBlocked {t : Nat} (hpc : (m.thread p).pc = .unblockTest t)
      (ht : ¬(t < maxProcesses ∧ (m.table t).state = .blocked)) :
      ThreadStep m p (m.goto p .idle)
  | wake {t : Nat} (hpc : (m.thread p).pc = .unblockStore t) :
      ThreadStep m p ({ m with table := setState m.table t .ready }.goto p .idle)
  | incLoad (hpc : (m.thread p).pc = .incLoad) :
      ThreadStep m p (m.goto p (.incStore m.counter))
  | incStore {v : Int32} (hpc : (m.thread p).pc = .incStore v) :
      ThreadStep m p ({ m with counter := v + 1 }.setThread p
        { m.thread p with pc := .idle, incs := (m.thread p).incs + 1 })
  | exit (hpc : (m.thread p).pc = .exitStore) :
      ThreadStep m p ({ m with table := processTerminate m.table p }.goto p .halted)

/-- The transitions of the shell. -/
inductive ShellStep (cfg : Config) (m : Machine) : Machine → Prop
  | start {call : ShellCall} {rest : List ShellCall} (hpc : m.shell.pc = .idle)
      (htodo : m.shell.todo = call :: rest) :
      ShellStep cfg m { m with shell := ⟨call.start, rest⟩ }
  | create {c : Creation} {stage : CreateStage} (hpc : m.shell.pc = .create c stage) :
      ShellStep cfg m (m.createStep cfg c stage)
  | noSuchProcess {pid : Nat} (hpc : m.shell.pc = .killTest pid) :
      ShellStep cfg m (m.shellGoto .idle)
  | killTest {pid : Nat} (hpc : m.shell.pc = .killTest pid) (hpid : pid ≠ 0)
      (hlt : pid < maxProcesses) (hstate : (m.table pid).state ≠ .free) :
      ShellStep cfg m (m.shellGoto (.killStore pid))
  | kill {pid : Nat} (hpc : m.shell.pc = .killStore pid) :
      ShellStep cfg m ({ m with table := processTerminate m.table pid }.shellGoto .idle)
  | initLocked (hpc : m.shell.pc = .initLocked) :
      ShellStep cfg m
        ({ m with mutex := { m.mutex with locked := 0 } }.shellGoto .initOwner)
  | initOwner (hpc : m.shell.pc = .initOwner) :
      ShellStep cfg m
        ({ m with mutex := { m.mutex with owner := -1 } }.shellGoto .initWaiters)
  | initWaiters (hpc : m.shell.pc = .initWaiters) :
      ShellStep cfg m
        ({ m with mutex := { m.mutex with nwaiters := 0 } }.shellGoto .idle)
  | reset (hpc : m.shell.pc = .resetStore) :
      ShellStep cfg m ({ m with counter := 0 }.shellGoto .idle)

variable {cfg : Config} {m m' : Machine} {p q : Nat} {out : Frame}

theorem threadStep_cases (h : m.threadStep cfg p out = some m') :
    ThreadStep m p m' ∨ (m.thread p).pc = .lockYield ∧
      m' = (m.goto p (.lockXchg true)).pickAndSwitch cfg out := by
  unfold Machine.threadStep at h
  split at h
  case h_1 hpc =>
    split at h
    · cases h
    · rename_i htodo
      cases h
      exact .inl (.start hpc htodo)
  case h_2 hpc =>
    cases h
    split
    · rename_i hlocked
      exact .inl (.xchgHeld hpc hlocked)
    · rename_i hlocked
      exact .inl (.xchgFree hpc hlocked)
  case h_3 hpc =>
    split at h
    · rename_i hn
      cases h
      exact .inl (.block hpc hn.1 hn.2)
    · cases h
      exact .inl (.blockFault hpc)
  case h_4 hpc =>
    cases h
    exact .inr ⟨hpc, rfl⟩
  case h_5 hpc =>
    cases h
    exact .inl (.owner hpc)
  case h_6 hpc =>
    cases h
    exact .inl (.clearOwner hpc)
  case h_7 hpc =>
    cases h
    exact .inl (.release hpc)
  case h_8 hpc =>
    cases h
    split
    · rename_i hwait
      exact .inl (.someWaiter hpc hwait)
    · rename_i hwait
      exact .inl (.noWaiter hpc (not_lt.mp hwait))
  case h_9 hpc =>
    cases h
    exact .inl (.load hpc)
  case h_10 hpc =>
    cases h
    exact .inl (.store hpc)
  case h_11 hpc =>
    split at h
    · rename_i hv
      cases h
      exact .inl (.read hpc hv.1 hv.2)
    · cases h
      exact .inl (.readFault hpc)
  case h_12 hpc =>
    cases h
    split
    · rename_i ht
      exact .inl (.isBlocked hpc ht.1 ht.2)
    · rename_i ht
      exact .inl (.notBlocked hpc ht)
  case h_13 hpc =>
    cases h
    exact .inl (.wake hpc)
  case h_14 hpc =>
    cases h
    exact .inl (.incLoad hpc)
  case h_15 hpc =>
    cases h
    exact .inl (.incStore hpc)
  case h_16 hpc =>
    cases h
    exact .inl (.exit hpc)
  case h_17 => cases h

theorem shellStep_cases (h : m.shellStep cfg = some m') : ShellStep cfg m m' := by
  unfold Machine.shellStep at h
  split at h
  case h_1 hpc =>
    split at h
    · cases h
    · rename_i htodo
      cases h
      exact .start hpc htodo
  case h_2 hpc =>
    cases h
    exact .create hpc
  case h_3 hpc =>
    cases h
    split
    · exact .noSuchProcess hpc
    · rename_i hpid
      rw [not_or, not_or, not_le] at hpid
      exact .killTest hpc hpid.1 hpid.2.1 hpid.2.2
  case h_4 hpc =>
    cases h
    exact .kill hpc
  case h_5 hpc =>
    cases h
    exact .initLocked hpc
  case h_6 hpc =>
    cases h
    exact .initOwner hpc
  case h_7 hpc =>
    cases h
    exact .initWaiters hpc
  case h_8 hpc =>
    cases h
    exact .reset hpc

/-- A transition of the machine, by what makes it. -/
inductive MachineStep (cfg : Config) (m : Machine) : Act → Machine → Prop
  | thread {out : Frame} {m' : Machine} (hcur : m.current ≠ 0)
      (h : ThreadStep m m.current m') : MachineStep cfg m (.exec out) m'
  | yield {out : Frame} (hcur : m.current ≠ 0)
      (hpc : (m.thread m.current).pc = .lockYield) :
      MachineStep cfg m (.exec out) ((m.goto m.current (.lockXchg true)).pickAndSwitch cfg out)
  | shell {out : Frame} {m' : Machine} (hcur : m.current = 0) (h : ShellStep cfg m m') :
      MachineStep cfg m (.exec out) m'
  | tick {out : Frame} : MachineStep cfg m (.tick out) (m.pickAndSwitch cfg out)
  | work {words : Nat → Nat} :
      MachineStep cfg m (.work words)
        { m with stackMem := Function.update m.stackMem m.current words }

theorem step_cases {a : Act} (h : step cfg m a = some m') :
    m.fault = false ∧ MachineStep cfg m a m' := by
  unfold step at h
  split at h
  · cases h
  · rename_i hfault
    refine ⟨Bool.eq_false_iff.mpr hfault, ?_⟩
    cases a with
    | exec out =>
      dsimp only at h
      split at h
      · rename_i hcur
        exact .shell hcur (shellStep_cases h)
      · rename_i hcur
        rcases threadStep_cases h with hstep | ⟨hpc, rfl⟩
        · exact .thread hcur hstep
        · exact .yield hcur hpc
    | tick out =>
      cases h
      exact .tick
    | work words =>
      cases h
      exact .work

theorem pickAndSwitch_cases (cfg : Config) (m : Machine) (out : Frame) :
    pickNext m.table m.current = none ∧ m.pickAndSwitch cfg out = m ∨
      ∃ next, pickNext m.table m.current = some next ∧
        m.pickAndSwitch cfg out = m.switchTo cfg out next := by
  unfold Machine.pickAndSwitch
  split
  · rename_i hnone
    exact .inl ⟨hnone, rfl⟩
  · rename_i next hnext
    exact .inr ⟨next, hnext, rfl⟩

/-- A property is preserved by every transition if it is preserved by the accesses of the
threads and of the shell, by the switch and by work on a stack. -/
theorem step_invariant {I : Machine → Prop} {a : Act}
    (hthread : ∀ m', I m → m.fault = false → m.current ≠ 0 → ThreadStep m m.current m' → I m')
    (hyield : I m → m.fault = false → m.current ≠ 0 → (m.thread m.current).pc = .lockYield →
      I (m.goto m.current (.lockXchg true)))
    (hshell : ∀ m', I m → m.fault = false → m.current = 0 → ShellStep cfg m m' → I m')
    (hswitch : ∀ m₁ out next, I m₁ → m₁.fault = false →
      pickNext m₁.table m₁.current = some next → I (m₁.switchTo cfg out next))
    (hwork : ∀ words, I m → m.fault = false →
      I { m with stackMem := Function.update m.stackMem m.current words })
    (h : I m) (hstep : step cfg m a = some m') : I m' := by
  have hpick : ∀ m₁ out, I m₁ → m₁.fault = false → I (m₁.pickAndSwitch cfg out) := by
    intro m₁ out h₁ hfault
    rcases pickAndSwitch_cases cfg m₁ out with ⟨-, heq⟩ | ⟨next, hnext, heq⟩
    · rw [heq]
      exact h₁
    · rw [heq]
      exact hswitch m₁ out next h₁ hfault hnext
  obtain ⟨hfault, hstep⟩ := step_cases hstep
  cases hstep with
  | thread hcur hs => exact hthread m' h hfault hcur hs
  | yield hcur hpc => exact hpick _ _ (hyield h hfault hcur hpc) hfault
  | shell hcur hs => exact hshell m' h hfault hcur hs
  | tick => exact hpick m _ h hfault
  | work => exact hwork _ h hfault

/-! ## What a transition leaves unchanged -/

namespace Machine

@[simp] theorem setThread_self (m : Machine) (p : Nat) (th : Thread) :
    (m.setThread p th).thread p = th := Function.update_self ..

theorem setThread_ne {th : Thread} (h : q ≠ p) :
    (m.setThread p th).thread q = m.thread q := Function.update_of_ne h ..

@[simp] theorem goto_self (m : Machine) (p : Nat) (pc : ThreadPc) :
    (m.goto p pc).thread p = { m.thread p with pc := pc } := Function.update_self ..

theorem goto_ne {pc : ThreadPc} (h : q ≠ p) : (m.goto p pc).thread q = m.thread q :=
  Function.update_of_ne h ..

/-- Where another thread than the one that has moved is, it was before. -/
theorem of_goto {P : ThreadPc → Prop} {pc : ThreadPc} (h : P ((m.goto p pc).thread q).pc)
    (hpc : ¬P pc) : q ≠ p ∧ P (m.thread q).pc := by
  rcases eq_or_ne q p with rfl | hne
  · rw [goto_self] at h
    exact absurd h hpc
  · rw [goto_ne hne] at h
    exact ⟨hne, h⟩

end Machine

namespace ThreadStep

theorem thread_ne (h : ThreadStep m p m') (hq : q ≠ p) : m'.thread q = m.thread q := by
  cases h <;> first | rfl | exact Function.update_of_ne hq ..

theorem current_eq (h : ThreadStep m p m') : m'.current = m.current := by
  cases h <;> rfl

theorem shell_eq (h : ThreadStep m p m') : m'.shell = m.shell := by
  cases h <;> rfl

theorem frame_eq (h : ThreadStep m p m') : m'.frame = m.frame := by
  cases h <;> rfl

theorem stackMem_eq (h : ThreadStep m p m') : m'.stackMem = m.stackMem := by
  cases h <;> rfl

/-- The stores of the threads to the table are stores to state fields: one marks its own
entry BLOCKED or TERMINATED, or another one READY. -/
theorem table_cases (h : ThreadStep m p m') :
    m'.table = m.table ∨
    (m.thread p).pc = .lockBlock ∧ m'.table = setState m.table p .blocked ∨
    (∃ t, (m.thread p).pc = .unblockStore t ∧ m'.table = setState m.table t .ready) ∨
    ((m.thread p).pc = .exitStore ∧ (m'.thread p).pc = .halted) ∧
      m'.table = processTerminate m.table p := by
  cases h with
  | block hpc => exact .inr (.inl ⟨hpc, rfl⟩)
  | wake hpc => exact .inr (.inr (.inl ⟨_, hpc, rfl⟩))
  | exit hpc => exact .inr (.inr (.inr ⟨⟨hpc, by rw [Machine.goto_self]⟩, rfl⟩))
  | _ => exact .inl rfl

theorem not_halted (h : ThreadStep m p m') : (m.thread p).pc ≠ .halted := by
  cases h <;> simp only [*, ne_eq, reduceCtorEq, not_false_eq_true]

theorem not_lockYield (h : ThreadStep m p m') : (m.thread p).pc ≠ .lockYield := by
  cases h <;> simp only [*, ne_eq, reduceCtorEq, not_false_eq_true]

/-- The store of `scheduler_unblock` comes after its tests. -/
theorem tested (h : ThreadStep m p m') {t : Nat} (hpc : (m'.thread p).pc = .unblockStore t) :
    t < maxProcesses ∧ (m.table t).state = .blocked ∧ m'.table = m.table := by
  cases h with
  | start =>
    rename_i call _ _ _
    rw [Machine.setThread_self] at hpc
    cases call <;> cases hpc
  | isBlocked hpc' ht hstate =>
    rw [Machine.goto_self] at hpc
    cases hpc
    exact ⟨ht, hstate, rfl⟩
  | blockFault hpc' | readFault hpc' =>
    rw [hpc'] at hpc
    cases hpc
  | owner | release | incStore =>
    rw [Machine.setThread_self] at hpc
    cases hpc
  | _ =>
    rw [Machine.goto_self] at hpc
    cases hpc

end ThreadStep

/-- No call has been made on the thread. -/
structure Thread.Untouched (th : Thread) : Prop where
  pc : th.pc = .idle
  holds : th.holds = false
  incs : th.incs = 0

/-- The threads are left alone by the shell, except that a new one gets its program. -/
theorem createStep_thread (cfg : Config) (m : Machine) (c : Creation) (stage : CreateStage)
    (q : Nat) :
    (m.createStep cfg c stage).thread q = m.thread q ∨
      stage = .push 0 ∧ q = c.slot ∧ (m.createStep cfg c stage).thread q =
        { Thread.unused with todo := cfg.code c.entry, entry := some c.entry } := by
  cases stage with
  | scan =>
    dsimp only [Machine.createStep]
    split
    · exact .inl rfl
    · split <;> exact .inl rfl
  | push k =>
    rcases Nat.eq_zero_or_pos k with rfl | hk
    · rcases eq_or_ne q c.slot with rfl | hq
      · exact .inr ⟨rfl, rfl, Function.update_self ..⟩
      · exact .inl (Function.update_of_ne hq ..)
    · exact .inl (congrFun (if_neg hk.ne') q)
  | _ => exact .inl rfl

/-- `process_create` touches neither the mutex nor the counter. -/
theorem createStep_shared (m : Machine) (c : Creation) (stage : CreateStage) :
    (m.createStep cfg c stage).mutex = m.mutex ∧
      (m.createStep cfg c stage).counter = m.counter := by
  cases stage with
  | scan =>
    dsimp only [Machine.createStep]
    split
    · exact ⟨rfl, rfl⟩
    · split <;> exact ⟨rfl, rfl⟩
  | _ => exact ⟨rfl, rfl⟩

theorem createStep_shell (cfg : Config) (m : Machine) (c : Creation) (stage : CreateStage) :
    (m.createStep cfg c stage).shell.todo = m.shell.todo ∧
      ((m.createStep cfg c stage).shell.pc = .idle ∨
        ∃ c' stage', (m.createStep cfg c stage).shell.pc = .create c' stage') := by
  cases stage with
  | scan =>
    dsimp only [Machine.createStep]
    split
    · exact ⟨rfl, .inl rfl⟩
    · split <;> exact ⟨rfl, .inr ⟨_, _, rfl⟩⟩
  | name => exact ⟨rfl, .inl rfl⟩
  | _ => exact ⟨rfl, .inr ⟨_, _, rfl⟩⟩

namespace ShellStep

theorem current_eq (h : ShellStep cfg m m') : m'.current = m.current := by
  cases h with
  | create =>
    rename_i stage _
    cases stage with
    | scan =>
      dsimp only [Machine.createStep]
      split
      · rfl
      · split <;> rfl
    | _ => rfl
  | _ => rfl

theorem thread_cases (h : ShellStep cfg m m') (q : Nat) :
    m'.thread q = m.thread q ∨ (m'.thread q).Untouched := by
  cases h with
  | create =>
    rename_i c stage _
    rcases createStep_thread cfg m c stage q with heq | ⟨-, -, heq⟩
    · exact .inl heq
    · rw [heq]
      exact .inr ⟨rfl, rfl, rfl⟩
  | _ => exact .inl rfl

/-- The one thread that the shell can touch is that of the slot it is filling. -/
theorem exists_thread_ne (h : ShellStep cfg m m') :
    ∃ p, ∀ q, q ≠ p → m'.thread q = m.thread q := by
  cases h with
  | create =>
    rename_i c stage _
    refine ⟨c.slot, fun q hq => ?_⟩
    rcases createStep_thread cfg m c stage q with heq | ⟨-, heq, -⟩
    · exact heq
    · exact absurd heq hq
  | _ => exact ⟨0, fun _ _ => rfl⟩

/-- The shell changes a state only to publish a new process or to kill one. -/
theorem state_cases (h : ShellStep cfg m m') :
    (∀ q, (m'.table q).state = (m.table q).state) ∨
    (∃ c, m.shell.pc = .create c .state ∧ m'.table = setState m.table c.slot .ready) ∨
    ∃ pid, m.shell.pc = .killStore pid ∧ m'.table = processTerminate m.table pid := by
  cases h with
  | create hpc =>
    rename_i c stage
    cases stage with
    | scan =>
      refine .inl fun q => ?_
      dsimp only [Machine.createStep]
      split
      · rfl
      · split <;> rfl
    | push k => exact .inl fun q => rfl
    | state => exact .inr (.inl ⟨c, hpc, rfl⟩)
    | esp => exact .inl fun q => setEsp_state ..
    | pid | stack | name =>
      exact .inl fun q => storePcb_field Pcb.state (by intro; rfl) q
  | kill hpc => exact .inr (.inr ⟨_, hpc, rfl⟩)
  | _ => exact .inl fun q => rfl

end ShellStep

end SengOs.Kernel
