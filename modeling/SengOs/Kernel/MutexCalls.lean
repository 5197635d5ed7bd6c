import Mathlib.Data.List.Nodup
import SengOs.Kernel.SchedInvariant

/-!
# Whole calls of the mutex

`mutex_lock`, up to its yield, and `mutex_unlock` as functions on the kernel's data, and the
system in which they are steps next to those of the scheduler. Without the mutex it is the
system of `Kernel.Calls` (`step_sched`). The waiter list is a stack of different processes that
have blocked and not been woken; one that is killed stays in it.
-/

namespace SengOs.Kernel

open ByteMemory Transition

structure System extends Sched where
  mutex : Mutex

/-! ## The functions -/

/-- One round of the loop of `mutex_lock`: the mutex is taken, or the process blocks. -/
def System.mutexLock (y : System) : System :=
  let m := { y.mutex with locked := 1 }
  if y.mutex.locked = 1 then
    { y with mutex := m.append y.current, table := setState y.table y.current .blocked }
  else { y with mutex := { m with owner := y.current } }

/-- The process that `mutex_unlock` takes from the list. -/
def Mutex.lastWaiter (m : Mutex) : Nat := m.waiters (m.nwaiters - 1).toNat

/-- `mutex_unlock` -/
def System.mutexUnlock (y : System) : System :=
  let m := { y.mutex with owner := -1, locked := 0 }
  if m.nwaiters > 0 then
    { y with
      mutex := { m with nwaiters := m.nwaiters - 1 }
      table := schedulerUnblock y.table m.lastWaiter }
  else { y with mutex := m }

/-! ## The system -/

/-- `sched` is a call other than `mutex_lock` and `mutex_unlock`. -/
inductive SystemCall where
  | sched (c : SchedCall)
  | lock
  | unlock

/-- Calls that only the functions of the mutex make. -/
def SchedCall.inMutex : SchedCall → Bool
  | .block | .unblock _ => true
  | _ => false

/-- The mutex is unlocked by its holder, and locked by processes other than PID 0. -/
def System.step (cfg : Config) (y : System) : SystemCall → Option System
  | .sched c =>
    if c.inMutex = false then
      (y.toSched.step cfg c).map fun s => { y with toSched := s }
    else none
  | .lock => if y.state = .running ∧ y.current ≠ 0 then some y.mutexLock else none
  | .unlock =>
    if y.state = .running ∧ y.mutex.owner = y.current then some y.mutexUnlock else none

/-- The kernel's data after `process_init` and `mutex_init`. -/
def System.init (t : Table) (stackMem : Nat → Nat → Nat) (m : Mutex) : System :=
  ⟨Sched.init t stackMem, mutexInit m⟩

/-! ## The list -/

/-- The entries of the waiter list, in the order in which they were appended. -/
def Mutex.list (m : Mutex) : List Nat := (List.range m.nwaiters.toNat).map m.waiters

section List

variable {m : Mutex}

theorem Mutex.list_append (h : 0 ≤ m.nwaiters) (pid : Nat) :
    (m.append pid).list = m.list ++ [pid] := by
  obtain ⟨n, hn⟩ := Int.eq_ofNat_of_zero_le h
  have hsucc : (m.nwaiters + 1).toNat = n + 1 := by omega
  show (List.range (m.nwaiters + 1).toNat).map
    (Function.update m.waiters m.nwaiters.toNat pid) = _
  rw [hsucc, List.range_succ, List.map_append, Mutex.list, hn, Int.toNat_natCast]
  congr 1
  · refine List.map_congr_left fun i hi => Function.update_of_ne ?_ ..
    exact (List.mem_range.mp hi).ne
  · exact congrArg ([·]) (Function.update_self ..)

theorem Mutex.list_pop (h : 0 < m.nwaiters) :
    m.list = { m with nwaiters := m.nwaiters - 1 }.list ++ [m.lastWaiter] := by
  obtain ⟨n, hn⟩ := Int.eq_ofNat_of_zero_le h.le
  have hsucc : m.nwaiters.toNat = (m.nwaiters - 1).toNat + 1 := by omega
  rw [Mutex.list, hsucc, List.range_succ, List.map_append]
  rfl

theorem Mutex.length_list (m : Mutex) : m.list.length = m.nwaiters.toNat := by
  rw [Mutex.list, List.length_map, List.length_range]

end List

structure ListedSound (y : System) : Prop where
  nonneg : 0 ≤ y.mutex.nwaiters
  entries : ∀ p ∈ y.mutex.list, p < maxProcesses ∧
    ((y.table p).state = .blocked ∨ (y.table p).state = .terminated)
  nodup : y.mutex.list.Nodup

variable {cfg : Config} {y y' : System} {c : SystemCall}

/-! ## Steps -/

/-- Without the mutex a step is one of the scheduler, or none. -/
theorem step_sched (hs : y.step cfg c = some y') :
    y'.toSched = y.toSched ∨ ∃ c', y.toSched.step cfg c' = some y'.toSched := by
  cases c with
  | sched c =>
    obtain ⟨-, hmap⟩ := Option.ite_none_right_eq_some.mp hs
    obtain ⟨s, hcall, rfl⟩ := Option.map_eq_some_iff.mp hmap
    exact .inr ⟨c, hcall⟩
  | lock =>
    obtain ⟨hguard, hs⟩ := Option.ite_none_right_eq_some.mp hs
    cases hs
    unfold System.mutexLock
    dsimp only
    split
    · exact .inr ⟨.block, if_pos hguard⟩
    · exact .inl rfl
  | unlock =>
    obtain ⟨hguard, hs⟩ := Option.ite_none_right_eq_some.mp hs
    cases hs
    unfold System.mutexUnlock
    dsimp only
    split
    · exact .inr ⟨.unblock _, if_pos hguard.1⟩
    · exact .inl rfl

theorem SchedSound.system_step (h : SchedSound y.toSched) (hs : y.step cfg c = some y') :
    SchedSound y'.toSched := by
  rcases step_sched hs with heq | ⟨c', hc'⟩
  · rw [heq]
    exact h
  · exact h.step hc'

namespace ListedSound

/-- A RUNNING process is not in the list. -/
theorem current_not_mem (h : ListedSound y) (hrun : y.state = .running) :
    y.current ∉ y.mutex.list := by
  intro hmem
  exact (ProcessState.of_stopped (h.entries _ hmem).2).2.2 hrun

/-- The list is as it was, and so are the states of its entries, but for a kill. -/
theorem congr (h : ListedSound y) (hmutex : y'.mutex = y.mutex)
    (hstate : ∀ p, (y.table p).state = .blocked ∨ (y.table p).state = .terminated →
      (y'.table p).state = (y.table p).state ∨ (y'.table p).state = .terminated) :
    ListedSound y' where
  nonneg := hmutex ▸ h.nonneg
  entries p hp := by
    rw [hmutex] at hp
    obtain ⟨hlt, hold⟩ := h.entries p hp
    refine ⟨hlt, ?_⟩
    rcases hstate p hold with heq | hterm
    · rw [heq]
      exact hold
    · exact .inr hterm
  nodup := hmutex ▸ h.nodup

theorem sched (h : ListedSound y) {s : Sched} {c : SchedCall} (hc : c.inMutex = false)
    (hs : SchedStep cfg y.toSched c s) : ListedSound { y with toSched := s } := by
  apply h.congr
  · rfl
  · intro p hp
    dsimp only
    cases hs with
    | same => exact .inl rfl
    | create hrun hslot =>
      rename_i slot _ _ _ _
      have hne : p ≠ slot := by
        rintro rfl
        exact (ProcessState.of_stopped hp).1 (freeSlot_some hslot).2.2
      dsimp only
      rw [storePcb_ne hne]
      exact .inl rfl
    | terminate =>
      dsimp only
      rw [setState_state]
      split
      · exact .inr rfl
      · exact .inl rfl
    | block | unblock => cases hc
    | switch hnext =>
      rename_i next _ _
      have hne : p ≠ next := by
        rintro rfl
        exact (ProcessState.of_stopped hp).2.1 (pickNext_some hnext).2
      dsimp only
      rw [setEsp_state, switchStates_state, if_neg hne]
      split
      · rename_i hold
        rw [hold.1] at hp
        exact absurd hold.2 (ProcessState.of_stopped hp).2.2
      · exact .inl rfl

/-- The running process blocks. -/
theorem block (h : ListedSound y) (hlt : y.current < maxProcesses) (hrun : y.state = .running)
    {m : Mutex} (hlist : m.list = y.mutex.list) (hn : m.nwaiters = y.mutex.nwaiters) :
    ListedSound { y with
      mutex := m.append y.current
      table := setState y.table y.current .blocked } := by
  have hnonneg : 0 ≤ m.nwaiters := hn ▸ h.nonneg
  have hfresh := h.current_not_mem hrun
  have heq : (m.append y.current).list = y.mutex.list ++ [y.current] := by
    rw [Mutex.list_append hnonneg, hlist]
  constructor
  · exact Int.add_nonneg hnonneg (by decide)
  · intro p hp
    dsimp only at hp ⊢
    rw [heq, List.mem_append, List.mem_singleton] at hp
    rw [setState_state]
    rcases hp with hp | rfl
    · have hne : p ≠ y.current := fun hpc => hfresh (hpc ▸ hp)
      rw [if_neg hne]
      exact h.entries p hp
    · rw [if_pos rfl]
      exact ⟨hlt, .inl rfl⟩
  · dsimp only
    rw [heq]
    refine List.nodup_append.mpr ⟨h.nodup, List.nodup_singleton _, fun p hp q hq hpq => ?_⟩
    rw [List.mem_singleton] at hq
    exact hfresh (hq ▸ hpq ▸ hp)

/-- The last entry is taken from the list. -/
theorem pop (h : ListedSound y) {m : Mutex} (hlist : m.list = y.mutex.list)
    (hn : 0 < m.nwaiters) : ListedSound { y with
      mutex := { m with nwaiters := m.nwaiters - 1 }
      table := schedulerUnblock y.table m.lastWaiter } := by
  have heq := hlist.symm.trans (Mutex.list_pop hn)
  have hnodup := h.nodup
  rw [heq] at hnodup
  have hfresh : m.lastWaiter ∉ { m with nwaiters := m.nwaiters - 1 }.list := by
    intro hmem
    exact (List.nodup_append.mp hnodup).2.2 _ hmem _ (List.mem_singleton_self _) rfl
  constructor
  · dsimp only
    omega
  · intro p hp
    dsimp only at hp ⊢
    have hmem : p ∈ y.mutex.list := heq ▸ List.mem_append_left _ hp
    have hne : p ≠ m.lastWaiter := fun hpl => hfresh (hpl ▸ hp)
    rcases schedulerUnblock_cases y.table m.lastWaiter with hsame | ⟨-, hwake⟩
    · rw [hsame]
      exact h.entries p hmem
    · rw [hwake, setState_state, if_neg hne]
      exact h.entries p hmem
  · exact (List.nodup_append.mp hnodup).1

theorem step (h : ListedSound y) (hsound : SchedSound y.toSched)
    (hs : y.step cfg c = some y') : ListedSound y' := by
  cases c with
  | sched c =>
    obtain ⟨hc, hmap⟩ := Option.ite_none_right_eq_some.mp hs
    obtain ⟨s, hcall, rfl⟩ := Option.map_eq_some_iff.mp hmap
    exact h.sched hc (schedStep_cases hsound.current_lt hcall)
  | lock =>
    obtain ⟨⟨hrun, -⟩, hs⟩ := Option.ite_none_right_eq_some.mp hs
    cases hs
    unfold System.mutexLock
    dsimp only
    split
    · exact h.block hsound.current_lt hrun rfl rfl
    · exact ⟨h.nonneg, h.entries, h.nodup⟩
  | unlock =>
    obtain ⟨-, hs⟩ := Option.ite_none_right_eq_some.mp hs
    cases hs
    unfold System.mutexUnlock
    dsimp only
    split
    · rename_i hn
      exact h.pop (m := { y.mutex with owner := -1, locked := 0 }) rfl hn
    · exact ⟨h.nonneg, h.entries, h.nodup⟩

end ListedSound

theorem init_listedSound (t : Table) (stackMem : Nat → Nat → Nat) (m : Mutex) :
    ListedSound (System.init t stackMem m) where
  nonneg := le_refl _
  entries _ hp := by cases hp
  nodup := List.nodup_nil

/-- The two invariants in every state that is reached. -/
theorem system_sound {t : Table} {stackMem : Nat → Nat → Nat} {m : Mutex}
    (h : Reaches (System.step cfg) Always (System.init t stackMem m) y) :
    SchedSound y.toSched ∧ ListedSound y :=
  h.invariant (P := fun y => SchedSound y.toSched ∧ ListedSound y)
    ⟨init_schedSound t stackMem, init_listedSound t stackMem m⟩
    fun _ _ _ h _ hs => ⟨h.1.system_step hs, h.2.step h.1 hs⟩

end SengOs.Kernel
