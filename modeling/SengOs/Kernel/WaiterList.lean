import Mathlib.Order.Interval.Finset.Nat
import SengOs.Kernel.Wakeup

/-!
# The waiter list is well formed

While the list is used in order, its length stays within the array, its first `nwaiters`
entries are different BLOCKED processes, and every BLOCKED process is listed or held by the
unlocker that has removed it (`WaitersSound`). All of it follows from `Queued` but for the index
of the read, which `mutex_unlock` keeps in a register.
-/

namespace SengOs.Kernel

open Transition

/-- `p` is BLOCKED inside `mutex_lock`. -/
def BlockedInLock (m : Machine) (p : Nat) : Prop :=
  1 ≤ p ∧ p < maxProcesses ∧ (m.table p).state = .blocked ∧
    ((m.thread p).pc = .lockYield ∨ (m.thread p).pc = .lockXchg true)

structure WaitersSound (m : Machine) : Prop where
  nwaiters_nonneg : 0 ≤ m.mutex.nwaiters
  nwaiters_le : m.mutex.nwaiters ≤ maxProcesses
  append_index : ∀ p, (m.thread p).pc = .lockBlock →
    0 ≤ m.mutex.nwaiters ∧ m.mutex.nwaiters < maxProcesses
  read_index : ∀ p v, (m.thread p).pc = .unlockRead v → 0 ≤ v ∧ v < maxProcesses
  distinct : ∀ i j : Nat, (i : Int) < m.mutex.nwaiters → (j : Int) < m.mutex.nwaiters →
    m.mutex.waiters i = m.mutex.waiters j → i = j
  blocked : ∀ i : Nat, (i : Int) < m.mutex.nwaiters → BlockedInLock m (m.mutex.waiters i)
  listed : ∀ p < maxProcesses, (m.table p).state = .blocked →
    (∃ i : Nat, (i : Int) < m.mutex.nwaiters ∧ m.mutex.waiters i = p) ∨
      ∃ q, (m.thread q).pc.carries m.mutex.waiters = some p

variable {cfg : Config} {m m' : Machine} {p : Nat}

/-! ## The length -/

theorem Sound.waits_pos (h : Sound m) (hp : Waits m p) : 1 ≤ p := by
  refine Nat.one_le_iff_ne_zero.mpr ?_
  rintro rfl
  have hstate := h.shell_state
  rw [hp.2] at hstate
  split at hstate <;> cases hstate

theorem ListSound.entry (_ : ListSound m) {i : Nat} (hi : (i : Int) < m.mutex.nwaiters) :
    ticket m (.entry i) = some (m.mutex.waiters i) := if_pos hi

theorem ListSound.distinct (h : ListSound m) {i j : Nat} (hi : (i : Int) < m.mutex.nwaiters)
    (hj : (j : Int) < m.mutex.nwaiters) (hij : m.mutex.waiters i = m.mutex.waiters j) : i = j :=
  Place.entry.inj (h.queued.tickets.unique _ _ _ (h.entry hi) (hij ▸ h.entry hj))

theorem ListSound.waits (h : ListSound m) {i : Nat} (hi : (i : Int) < m.mutex.nwaiters) :
    Waits m (m.mutex.waiters i) := h.queued.tickets.sound _ _ (h.entry hi)

/-- The entries are different pids from 1 to 15. -/
theorem ListSound.nwaiters_lt (h : ListSound m) : m.mutex.nwaiters < maxProcesses := by
  obtain ⟨n, hn⟩ := Int.eq_ofNat_of_zero_le h.queued.nonneg
  have hmaps : ∀ i ∈ Finset.range n, m.mutex.waiters i ∈ Finset.Ico 1 maxProcesses := by
    intro i hi
    rw [Finset.mem_range] at hi
    have hwaits := h.waits (i := i) (by omega)
    exact Finset.mem_Ico.mpr ⟨h.sound.waits_pos hwaits, hwaits.1⟩
  have hinj : Set.InjOn m.mutex.waiters (Finset.range n : Finset Nat) := by
    intro i hi j hj hij
    rw [Finset.mem_coe, Finset.mem_range] at hi hj
    exact h.distinct (by omega) (by omega) hij
  have hcard := Finset.card_le_card_of_injOn _ hmaps hinj
  rw [Finset.card_range, Nat.card_Ico] at hcard
  simp only [maxProcesses] at *
  omega

/-! ## The index of the read -/

def ReadsInRange (m : Machine) : Prop :=
  ∀ q v, (m.thread q).pc = .unlockRead v → 0 ≤ v ∧ v < maxProcesses

/-- A thread gets to the read of `waiters[]` from the store of the length. -/
theorem ThreadStep.of_unlockRead (h : ThreadStep m p m') {v : Int}
    (hpc : (m'.thread p).pc = .unlockRead v) :
    (m.thread p).pc = .unlockStore v ∨ (m.thread p).pc = .unlockRead v := by
  cases h with
  | start =>
    rename_i call _ _ _
    rw [Machine.setThread_self] at hpc
    cases call <;> cases hpc
  | store hpc' =>
    rw [Machine.goto_self] at hpc
    cases hpc
    exact .inl hpc'
  | blockFault | readFault => exact .inr hpc
  | owner | release | incStore =>
    rw [Machine.setThread_self] at hpc
    cases hpc
  | _ =>
    rw [Machine.goto_self] at hpc
    cases hpc

namespace ReadsInRange

theorem thread (h : ReadsInRange m) (hlist : ListSound m) (hs : ThreadStep m m.current m') :
    ReadsInRange m' := by
  intro q v hq
  rcases eq_or_ne q m.current with rfl | hne
  · rcases hs.of_unlockRead hq with hstore | hread
    · obtain ⟨hv, hn⟩ := hlist.queued.loaded _ v hstore
      have hlt := hlist.nwaiters_lt
      exact ⟨hv, by omega⟩
    · exact h _ v hread
  · rw [hs.thread_ne hne] at hq
    exact h q v hq

theorem pickAndSwitch (h : ReadsInRange m) (out : Frame) :
    ReadsInRange (m.pickAndSwitch cfg out) := by
  rcases pickAndSwitch_cases cfg m out with ⟨-, heq⟩ | ⟨next, -, heq⟩
  · rw [heq]
    exact h
  · rw [heq]
    exact h

theorem step {a : Act} (h : ReadsInRange m) (hlist : ListSound m)
    (hs : step cfg m a = some m') : ReadsInRange m' := by
  obtain ⟨-, hs⟩ := step_cases hs
  cases hs with
  | thread hcur hs => exact h.thread hlist hs
  | yield hcur hpc =>
    apply pickAndSwitch
    intro q v hq
    exact h q v (Machine.of_goto (P := (· = .unlockRead v)) hq nofun).2
  | shell hcur hs =>
    intro q v hq
    rw [hlist.sound.shell_pc hs] at hq
    exact h q v hq
  | tick => exact h.pickAndSwitch _
  | work => exact h

end ReadsInRange

/-! ## The list -/

theorem ListSound.waitersSound (h : ListSound m) (hread : ReadsInRange m) : WaitersSound m where
  nwaiters_nonneg := h.queued.nonneg
  nwaiters_le := h.nwaiters_lt.le
  append_index _ _ := ⟨h.queued.nonneg, h.nwaiters_lt⟩
  read_index := hread
  distinct _ _ := h.distinct
  blocked i hi := by
    have hwaits := h.waits hi
    exact ⟨h.sound.waits_pos hwaits, hwaits.1, hwaits.2, h.queued.waiting _ hwaits⟩
  listed p hp hblocked := by
    obtain ⟨x, hx⟩ := h.queued.tickets.covers p ⟨hp, hblocked⟩
    cases x with
    | entry i =>
      rw [ticket] at hx
      split at hx
      · rename_i hi
        exact .inl ⟨i, hi, Option.some_inj.mp hx⟩
      · cases hx
    | unlocker q => exact .inr ⟨q, hx⟩

/-- In every run in which the list is used in order it is well formed. -/
theorem waiters_sound (cfg : Config) (m₀ : Machine) (threads : List (CString × Nat))
    {m : Machine} (h : Reaches (step cfg) ListOrdered
      (boot m₀ (threads.map fun t => .create t.1 t.2)) m) : WaitersSound m := by
  have hinv : ListSound m ∧ ReadsInRange m :=
    h.invariant (P := fun m => ListSound m ∧ ReadsInRange m)
      ⟨boot_listSound m₀ threads, fun q v hq => by cases hq⟩
      fun _ _ _ h hord hs => ⟨h.1.step hord hs, h.2.step h.1 hs⟩
  exact hinv.1.waitersSound hinv.2

/-- Thread 2 is listed while thread 1 holds the mutex. -/
theorem waiters_sound_one_waiter :
    ∃ m, Reaches (step lockUnlock) ListOrdered
        (boot .blank ([(kernelName, 1), (kernelName, 2)].map fun t => .create t.1 t.2)) m ∧
      m.mutex.nwaiters = 1 ∧ WaitersSound m := by
  obtain ⟨m, hm, hP⟩ := reaches_of_any (step lockUnlock) ListOrdered
    (boot .blank ([(kernelName, 1), (kernelName, 2)].map fun t => .create t.1 t.2))
    (execs 33 ++ ticks 1 ++ execs 3 ++ ticks 1 ++ execs 4)
    (fun m => decide (m.mutex.nwaiters = 1)) (by decide +kernel)
  exact ⟨m, hm, of_decide_eq_true hP, waiters_sound lockUnlock .blank _ hm⟩

/-- Thread 1 has released the mutex and found thread 2 listed when it is interrupted. Thread 3
takes and releases the mutex and removes thread 2; then thread 1 goes on and makes the length
negative. -/
theorem nwaiters_underflows :
    ∃ m, Reaches (step lockUnlock) Always (boot .blank
        ([(kernelName, 1), (kernelName, 2), (kernelName, 3)].map fun t => .create t.1 t.2)) m ∧
      ¬WaitersSound m := by
  obtain ⟨m, hm, hP⟩ := reaches_of_any (step lockUnlock) Always (boot .blank
      ([(kernelName, 1), (kernelName, 2), (kernelName, 3)].map fun t => .create t.1 t.2))
    (execs 51 ++ ticks 1 ++ execs 3 ++ ticks 1 ++ execs 4 ++ ticks 2 ++ execs 4 ++ ticks 1 ++
      execs 9 ++ ticks 2 ++ execs 2)
    (fun m => decide (m.mutex.nwaiters < 0)) (by decide +kernel)
  exact ⟨m, hm, fun h => absurd h.nwaiters_nonneg (not_le.mpr (of_decide_eq_true hP))⟩

end SengOs.Kernel
