import SengOs.Kernel.Process

/-!
# `kernel/scheduler.c`

`pickNext` is the round-robin scan of `pick_and_switch` and `switchStates` what it stores in
the table. A process is picked only if it is READY, and a switch moves two processes between
READY and RUNNING and changes no other state.
-/

namespace SengOs.Kernel

/-- The scan of `pick_and_switch`: the first READY process after the current one. -/
def pickNext (t : Table) (oldPid : Nat) : Option Nat :=
  ((List.range' 1 (maxProcesses - 1)).map fun i => (oldPid + i) % maxProcesses).find?
    fun candidate => decide ((t candidate).state = .ready)

/-- The stores of `pick_and_switch` to the state fields. -/
def switchStates (t : Table) (oldPid nextPid : Nat) : Table :=
  setState (if (t oldPid).state = .running then setState t oldPid .ready else t) nextPid .running

section Pick

variable {t : Table} {old next : Nat}

theorem pickNext_some (h : pickNext t old = some next) :
    next < maxProcesses ∧ (t next).state = .ready := by
  have hready := List.find?_some h
  obtain ⟨i, -, rfl⟩ := List.mem_map.mp (List.mem_of_find?_eq_some h)
  exact ⟨Nat.mod_lt _ (by decide), by simpa only [decide_eq_true_eq] using hready⟩

theorem pickNext_ne (_ : old < maxProcesses) (h : pickNext t old = some next) :
    next ≠ old := by
  obtain ⟨i, hi, rfl⟩ := List.mem_map.mp (List.mem_of_find?_eq_some h)
  rw [List.mem_range'_1] at hi
  simp only [maxProcesses] at *
  omega

/-- The scan meets every other slot. -/
theorem exists_pickNext {q : Nat} (hold : old < maxProcesses) (hq : q < maxProcesses)
    (hne : q ≠ old) (hready : (t q).state = .ready) : ∃ next, pickNext t old = some next := by
  apply Option.ne_none_iff_exists'.mp
  intro hnone
  simp only [maxProcesses] at hold hq
  have hmem : q ∈ (List.range' 1 (maxProcesses - 1)).map
      fun i => (old + i) % maxProcesses := by
    refine List.mem_map.mpr ⟨(q + 16 - old) % 16, ?_, ?_⟩
    · rw [List.mem_range'_1]
      simp only [maxProcesses]
      omega
    · simp only [maxProcesses]
      omega
  exact List.find?_eq_none.mp hnone q hmem (decide_eq_true hready)

/-- A process that is not READY is not picked. -/
theorem pickNext_ne_of_state (h : (t next).state ≠ .ready) : pickNext t old ≠ some next :=
  fun hp => h (pickNext_some hp).2

theorem switchStates_state (q : Nat) :
    (switchStates t old next q).state =
      if q = next then .running
      else if q = old ∧ (t old).state = .running then .ready else (t q).state := by
  unfold switchStates
  rw [setState_state]
  by_cases hq : q = next
  · rw [if_pos hq, if_pos hq]
  · rw [if_neg hq, if_neg hq]
    split
    · rename_i hrun
      rw [setState_state]
      exact if_congr (by simp only [hrun, and_true]) rfl rfl
    · rename_i hrun
      rw [if_neg (by simp only [hrun, and_false, not_false_eq_true])]

@[simp] theorem switchStates_pid (q : Nat) : (switchStates t old next q).pid = (t q).pid := by
  unfold switchStates
  rw [setState_pid]
  split
  · exact setState_pid ..
  · rfl

@[simp] theorem switchStates_esp (q : Nat) : (switchStates t old next q).esp = (t q).esp := by
  unfold switchStates
  rw [setState_esp]
  split
  · exact setState_esp ..
  · rfl

end Pick

end SengOs.Kernel
