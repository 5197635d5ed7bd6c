import SengOs.Kernel.Calls

/-!
# The invariant of the scheduler

Only the current process is RUNNING, the shell is always READY or RUNNING, and so a process that
has blocked or terminated is switched away from at the next tick or yield: there is always the
shell to switch to.
-/

namespace SengOs.Kernel

open Transition

structure SchedSound (s : Sched) : Prop where
  current_lt : s.current < maxProcesses
  others : ∀ p < maxProcesses, p ≠ s.current → (s.table p).state ≠ .running
  current_state : s.state ≠ .running → s.state = .blocked ∨ s.state = .terminated
  shell_state : (s.table 0).state = .ready ∨ (s.table 0).state = .running
  pid_eq : ∀ p < maxProcesses, (s.table p).state ≠ .free → (s.table p).pid = p

variable {cfg : Config} {s s' : Sched} {c : SchedCall}

/-- The current process, if it cannot run on, is not the shell. -/
theorem SchedSound.current_ne_zero (h : SchedSound s) (hstate : s.state ≠ .running) :
    s.current ≠ 0 := by
  intro hzero
  obtain ⟨-, hready, hrunning⟩ := ProcessState.of_stopped (h.current_state hstate)
  unfold Sched.state at hready hrunning
  rw [hzero] at hready hrunning
  exact h.shell_state.elim hready hrunning

/-- The shell is there to switch to. -/
theorem SchedSound.exists_next (h : SchedSound s) (hcur : s.current ≠ 0) :
    ∃ next, pickNext s.table s.current = some next := by
  refine exists_pickNext h.current_lt (by decide) hcur.symm ?_
  exact h.shell_state.resolve_right (h.others 0 (by decide) hcur.symm)

/-! ## Preservation -/

/-- A process other than the shell is moved to a state that is not RUNNING. -/
theorem SchedSound.storeState (h : SchedSound s) {p : Nat} {st : ProcessState} (hp : p ≠ 0)
    (hused : (s.table p).state ≠ .free) (hst : st ≠ .running)
    (hcur : p = s.current → st = .blocked ∨ st = .terminated) :
    SchedSound { s with table := setState s.table p st } where
  current_lt := h.current_lt
  others q hq hne := by
    rw [setState_state]
    split
    · exact hst
    · exact h.others q hq hne
  current_state hstate := by
    unfold Sched.state at hstate ⊢
    rw [setState_state] at hstate ⊢
    split
    · rename_i heq
      exact hcur heq.symm
    · rename_i hne
      rw [if_neg hne] at hstate
      exact h.current_state hstate
  shell_state := by
    rw [setState_state, if_neg hp.symm]
    exact h.shell_state
  pid_eq q hq hfree := by
    rw [setState_pid]
    rw [setState_state] at hfree
    split at hfree
    · rename_i heq
      exact h.pid_eq q hq (heq ▸ hused)
    · exact h.pid_eq q hq hfree

theorem SchedSound.create (h : SchedSound s) (hrun : s.state = .running) {slot : Nat}
    (hslot : freeSlot s.table = some slot) {pcb : Pcb} (hpid : pcb.pid = slot)
    (hready : pcb.state = .ready) (stackMem : Nat → Nat → Nat) :
    SchedSound { s with table := storePcb s.table slot fun _ => pcb, stackMem := stackMem } := by
  obtain ⟨hpos, hlt, hfree⟩ := freeSlot_some hslot
  have hcur : s.current ≠ slot := by
    rintro rfl
    rw [show (s.table s.current).state = _ from hrun] at hfree
    cases hfree
  have hsame {q : Nat} (hq : q ≠ slot) :
      (storePcb s.table slot fun _ => pcb) q = s.table q := storePcb_ne hq
  have hself : (storePcb s.table slot fun _ => pcb) slot = pcb := storePcb_self _
  constructor
  · exact h.current_lt
  · intro q hq hne
    dsimp only
    rcases eq_or_ne q slot with rfl | hqs
    · rw [hself, hready]
      nofun
    · rw [hsame hqs]
      exact h.others q hq hne
  · intro hstate
    refine absurd ?_ hstate
    unfold Sched.state
    dsimp only
    rw [hsame hcur]
    exact hrun
  · dsimp only
    rw [hsame (by omega)]
    exact h.shell_state
  · intro q hq hused
    dsimp only at hused ⊢
    rcases eq_or_ne q slot with rfl | hqs
    · rw [hself, hpid]
    · rw [hsame hqs] at hused ⊢
      exact h.pid_eq q hq hused

theorem SchedSound.switch (h : SchedSound s) {next : Nat}
    (hnext : pickNext s.table s.current = some next) (esp : Nat) (stackMem : Nat → Nat → Nat) :
    SchedSound ⟨setEsp (switchStates s.table s.current next) s.current esp, next, stackMem⟩ := by
  obtain ⟨hlt, hready⟩ := pickNext_some hnext
  have hstate (q : Nat) :
      (setEsp (switchStates s.table s.current next) s.current esp q).state =
        if q = next then .running
        else if q = s.current ∧ s.state = .running then .ready else (s.table q).state := by
    rw [setEsp_state, switchStates_state]
    rfl
  constructor
  · exact hlt
  · intro q hq hne
    dsimp only at hne ⊢
    rw [hstate, if_neg hne]
    split
    · nofun
    · rename_i hold
      rcases eq_or_ne q s.current with rfl | hcur
      · exact fun hrun => hold ⟨rfl, hrun⟩
      · exact h.others q hq hcur
  · intro hrun
    refine absurd ?_ hrun
    unfold Sched.state
    dsimp only
    rw [hstate, if_pos rfl]
  · dsimp only
    rw [hstate]
    split
    · exact .inr rfl
    · split
      · exact .inl rfl
      · exact h.shell_state
  · intro q hq hused
    dsimp only at hused ⊢
    rw [setEsp_pid, switchStates_pid]
    apply h.pid_eq q hq
    rw [hstate] at hused
    intro hfree
    split at hused
    · rename_i heq
      rw [heq, hready] at hfree
      cases hfree
    · split at hused
      · rename_i hold
        rw [hold.1, show (s.table s.current).state = _ from hold.2] at hfree
        cases hfree
      · exact hused hfree

theorem SchedSound.step (h : SchedSound s) (hs : s.step cfg c = some s') : SchedSound s' := by
  cases schedStep_cases h.current_lt hs with
  | same => exact h
  | create hrun hslot hpid hready => exact h.create hrun hslot hpid hready _
  | terminate hrun hpos hlt hused =>
    exact h.storeState (by omega) hused nofun fun _ => .inr rfl
  | block hrun hcur =>
    refine h.storeState hcur ?_ nofun fun _ => .inl rfl
    rw [show (s.table s.current).state = _ from hrun]
    nofun
  | unblock hrun hlt hblocked =>
    refine h.storeState ?_ ?_ nofun ?_
    · rintro rfl
      obtain ⟨-, hready, hrunning⟩ := ProcessState.of_stopped (.inl hblocked)
      exact h.shell_state.elim hready hrunning
    · rw [hblocked]
      nofun
    · rintro rfl
      rw [show (s.table s.current).state = _ from hrun] at hblocked
      cases hblocked
  | switch hnext => exact h.switch hnext _ _

theorem init_schedSound (t : Table) (stackMem : Nat → Nat → Nat) :
    SchedSound (Sched.init t stackMem) := by
  have hfree {p : Nat} (hp : p < maxProcesses) (hne : p ≠ 0) : processInit t p = Pcb.zero := by
    unfold processInit
    rw [if_neg hne, if_pos hp]
  constructor
  · exact Nat.zero_lt_succ 15
  · intro p hp hne
    show (processInit t p).state ≠ .running
    rw [hfree hp hne]
    nofun
  · exact fun hrun => absurd rfl hrun
  · exact .inr rfl
  · intro p hp hused
    rcases eq_or_ne p 0 with rfl | hne
    · rfl
    · refine absurd ?_ hused
      show (processInit t p).state = .free
      rw [hfree hp hne]
      rfl

theorem schedSound_of_reaches {t : Table} {stackMem : Nat → Nat → Nat}
    (h : Reaches (Sched.step cfg) Always (Sched.init t stackMem) s) : SchedSound s :=
  h.invariant (init_schedSound t stackMem) fun _ _ _ hs _ hstep => hs.step hstep

/-! ## Runs -/

/-- The next tick or yield switches to another process. -/
def SwitchesAway (cfg : Config) (s : Sched) : Prop :=
  ∀ out, (s.pickAndSwitch cfg out).1 = 1 ∧
    (s.pickAndSwitch cfg out).2.current ≠ s.current ∧
    (s.pickAndSwitch cfg out).2.state = .running

theorem SchedSound.switchesAway (h : SchedSound s) (hstate : s.state ≠ .running) :
    SwitchesAway cfg s := by
  intro out
  obtain ⟨next, hnext⟩ := h.exists_next (h.current_ne_zero hstate)
  unfold Sched.pickAndSwitch
  rw [hnext]
  refine ⟨rfl, pickNext_ne h.current_lt hnext, ?_⟩
  show (setEsp (switchStates s.table s.current next) s.current _ next).state = _
  rw [setEsp_state, switchStates_state, if_pos rfl]

/-- In every run the invariant holds, and a process that has blocked or terminated never runs
on past the next tick or yield. -/
theorem scheduler_invariant (cfg : Config) (t : Table) (stackMem : Nat → Nat → Nat)
    (h : Reaches (Sched.step cfg) Always (Sched.init t stackMem) s) :
    SchedSound s ∧ (s.state = .blocked ∨ s.state = .terminated → SwitchesAway cfg s) := by
  have hsound := schedSound_of_reaches h
  refine ⟨hsound, fun hstate => hsound.switchesAway ?_⟩
  exact (ProcessState.of_stopped hstate).2.2

/-- A thread that has just blocked. -/
theorem scheduler_invariant_blocked :
    ∃ s, Reaches (Sched.step ⟨fun _ => [], 0x20000⟩) Always
        (Sched.init (fun _ => Pcb.zero) fun _ _ => 0) s ∧ s.current = 1 ∧
      SchedSound s ∧ SwitchesAway ⟨fun _ => [], 0x20000⟩ s := by
  obtain ⟨s, hs, hP⟩ := reaches_of_any (Sched.step ⟨fun _ => [], 0x20000⟩) Always
    (Sched.init (fun _ => Pcb.zero) fun _ _ => 0)
    [.create kernelName 1, .tick (newFrame 0), .block]
    (fun s => decide (s.current = 1 ∧ s.state = .blocked)) (by decide +kernel)
  obtain ⟨hcur, hblocked⟩ := of_decide_eq_true hP
  obtain ⟨hsound, haway⟩ := scheduler_invariant ⟨fun _ => [], 0x20000⟩ _ _ hs
  exact ⟨s, hs, hcur, hsound, haway (.inl hblocked)⟩

end SengOs.Kernel
