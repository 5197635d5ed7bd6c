import SengOs.Kernel.Sound

/-!
# Termination

`scheduler_unblock` tests for BLOCKED and then stores READY. If the process is terminated
between the two, by a kill or by its own `thread_exit` after an earlier wake-up, the store
brings it back. As long as no termination falls between them, TERMINATED is final.
-/

namespace SengOs.Kernel

open Transition

/-- The process that the action terminates. -/
def terminating (m : Machine) : Act → Option Nat
  | .exec _ =>
    if m.current = 0 then
      match m.shell.pc with
      | .killStore pid => some pid
      | _ => none
    else if (m.thread m.current).pc = .exitStore then some m.current else none
  | _ => none

/-- No process is terminated while another one that has not been terminated stands between
the test and the store of a `scheduler_unblock` of it. -/
def NoLateWake (m : Machine) (a : Act) : Prop :=
  ∀ p ∈ terminating m a, ∀ q < maxProcesses, (m.table q).state ≠ .terminated →
    (m.thread q).pc ≠ .unblockStore p

instance (m : Machine) (a : Act) : Decidable (NoLateWake m a) :=
  inferInstanceAs (Decidable (∀ p ∈ terminating m a, ∀ q < maxProcesses, _))

/-- Nobody who can still run is about to wake a terminated process, and a terminated process
that still runs is in the idle loop of `thread_exit`. -/
structure NoneWoken (m : Machine) : Prop where
  woken : ∀ q t, (m.table q).state ≠ .terminated → (m.thread q).pc = .unblockStore t →
    (m.table t).state ≠ .terminated
  halted : (m.table m.current).state = .terminated → (m.thread m.current).pc = .halted

/-- No process of `m` that is TERMINATED has another state in `m'`. -/
def KeepsTerminated (m m' : Machine) : Prop :=
  ∀ p, (m.table p).state = .terminated → (m'.table p).state = .terminated

variable {cfg : Config} {m m' : Machine} {a : Act} {out : Frame}

namespace NoneWoken

theorem thread (h : NoneWoken m)
    (hok : (m.thread m.current).pc = .exitStore → ∀ q, (m.table q).state ≠ .terminated →
      (m.thread q).pc ≠ .unblockStore m.current)
    (hs : ThreadStep m m.current m') : NoneWoken m' ∧ KeepsTerminated m m' := by
  have hcur : (m.table m.current).state ≠ .terminated := Halted.live h.halted hs
  have hkeep : KeepsTerminated m m' := by
    intro p ht
    rcases hs.table_cases with heq | ⟨-, heq⟩ | ⟨t, hpc, heq⟩ | ⟨-, heq⟩
    · rw [heq, ht]
    · rw [heq, setState_state, if_neg, ht]
      rintro rfl
      exact hcur ht
    · rw [heq, setState_state, if_neg, ht]
      rintro rfl
      exact h.woken _ _ hcur hpc ht
    · rw [heq, processTerminate_state]
      split
      · rfl
      · exact ht
  -- a new target has just been found BLOCKED
  have htarget {q t : Nat} (hq : (m'.table q).state ≠ .terminated)
      (hpc : (m'.thread q).pc = .unblockStore t) : (m.table t).state ≠ .terminated ∧
        (m'.table = m.table ∨
          (m.table q).state ≠ .terminated ∧ (m.thread q).pc = .unblockStore t) := by
    rcases eq_or_ne q m.current with rfl | hne
    · obtain ⟨-, hblocked, htable⟩ := hs.tested hpc
      exact ⟨by rw [hblocked]; decide, .inl htable⟩
    · rw [hs.thread_ne hne] at hpc
      have hlive : (m.table q).state ≠ .terminated := fun ht => hq (hkeep q ht)
      exact ⟨h.woken q t hlive hpc, .inr ⟨hlive, hpc⟩⟩
  refine ⟨⟨fun q t hq hpc' => ?_, Halted.thread h.halted hs⟩, hkeep⟩
  obtain ⟨hold, hbefore⟩ := htarget hq hpc'
  rcases hs.table_cases with heq | ⟨-, heq⟩ | ⟨t, -, heq⟩ | ⟨⟨hpc, -⟩, heq⟩
  · rw [heq]
    exact hold
  · rw [heq, setState_state]
    split
    · decide
    · exact hold
  · rw [heq, setState_state]
    split
    · decide
    · exact hold
  · rcases hbefore with htable | ⟨hlive, hpc'⟩
    · rw [htable]
      exact hold
    · rw [heq, processTerminate_state, if_neg]
      · exact hold
      · rintro ⟨rfl, -⟩
        exact hok hpc q hlive hpc'

theorem shell (h : NoneWoken m) (hsound : Sound m) (hcur : m.current = 0)
    (hok : ∀ p, m.shell.pc = .killStore p → ∀ q, (m.table q).state ≠ .terminated →
      (m.thread q).pc ≠ .unblockStore p)
    (hs : ShellStep cfg m m') : NoneWoken m' ∧ KeepsTerminated m m' := by
  have hkeep : KeepsTerminated m m' := by
    intro p ht
    rcases hs.state_cases with heq | ⟨c, hpc, heq⟩ | ⟨pid, -, heq⟩
    · rw [heq, ht]
    · obtain ⟨-, hfree, -⟩ := hsound.creating c .state hpc
      rw [heq, setState_state, if_neg, ht]
      rintro rfl
      rw [hfree] at ht
      cases ht
    · rw [heq, processTerminate_state]
      split
      · rfl
      · exact ht
  have htarget {q t : Nat} (hq : (m'.table q).state ≠ .terminated)
      (hpc : (m'.thread q).pc = .unblockStore t) :
      (m.table q).state ≠ .terminated ∧ (m.thread q).pc = .unblockStore t := by
    refine ⟨fun ht => hq (hkeep q ht), ?_⟩
    rcases hs.thread_cases q with heq | huntouched
    · rwa [heq] at hpc
    · rw [huntouched.pc] at hpc
      cases hpc
  refine ⟨⟨fun q t hq hpc => ?_, Halted.shell hsound hcur hs⟩, hkeep⟩
  obtain ⟨hlive, hpc⟩ := htarget hq hpc
  have hold := h.woken q t hlive hpc
  rcases hs.state_cases with heq | ⟨c, -, heq⟩ | ⟨pid, hkill, heq⟩
  · rw [heq]
    exact hold
  · rw [heq, setState_state]
    split
    · decide
    · exact hold
  · rw [heq, processTerminate_state, if_neg]
    · exact hold
    · rintro ⟨rfl, -⟩
      exact hok t hkill q hlive hpc

theorem switch (h : NoneWoken m) {next : Nat} (hpick : pickNext m.table m.current = some next) :
    NoneWoken (m.switchTo cfg out next) ∧ KeepsTerminated m (m.switchTo cfg out next) := by
  have hready := (pickNext_some hpick).2
  have hstate (q : Nat) : ((m.switchTo cfg out next).table q).state = .terminated ↔
      (m.table q).state = .terminated := by
    rw [switchTo_state]
    split
    · rename_i heq
      rw [heq, hready]
      decide
    · split
      · rename_i heq
        rw [heq.1, heq.2]
        decide
      · rfl
  refine ⟨⟨fun q t hq hpc ht => ?_, Halted.switch out next⟩, fun p ht => (hstate p).mpr ht⟩
  exact h.woken q t (fun ht => hq ((hstate q).mpr ht)) hpc ((hstate t).mp ht)

theorem pick (h : NoneWoken m) : NoneWoken (m.pickAndSwitch cfg out) ∧
    KeepsTerminated m (m.pickAndSwitch cfg out) := by
  rcases pickAndSwitch_cases cfg m out with ⟨-, heq⟩ | ⟨next, hpick, heq⟩
  · rw [heq]
    exact ⟨h, fun _ ht => ht⟩
  · rw [heq]
    exact h.switch hpick

theorem yield (h : NoneWoken m) (hpc : (m.thread m.current).pc = .lockYield) :
    NoneWoken (m.goto m.current (.lockXchg true)) where
  woken q t hq hgoto :=
    h.woken q t hq (Machine.of_goto (P := (· = .unblockStore t)) hgoto nofun).2
  halted := Halted.yield h.halted hpc

theorem step (h : NoneWoken m) (hsound : Sound m) (hok : NoLateWake m a)
    (hs : step cfg m a = some m') : NoneWoken m' ∧ KeepsTerminated m m' := by
  have hwide {p : Nat} (hp : p ∈ terminating m a) (q : Nat)
      (hlive : (m.table q).state ≠ .terminated) : (m.thread q).pc ≠ .unblockStore p := by
    rcases lt_or_ge q maxProcesses with hq | hq
    · exact hok p hp q hq hlive
    · rw [(hsound.outside q hq).pc]
      nofun
  obtain ⟨-, hs⟩ := step_cases hs
  cases hs with
  | thread hcur hs =>
    refine h.thread (fun hpc => hwide ?_) hs
    unfold terminating
    rw [if_neg hcur, if_pos hpc]
    rfl
  | yield hcur hpc => exact (h.yield hpc).pick
  | shell hcur hs =>
    refine h.shell hsound hcur (fun p hpc => hwide ?_) hs
    unfold terminating
    rw [if_pos hcur, hpc]
    rfl
  | tick => exact h.pick
  | work => exact ⟨⟨h.woken, h.halted⟩, fun _ ht => ht⟩

end NoneWoken

theorem boot_noneWoken (m : Machine) (calls : List ShellCall) : NoneWoken (boot m calls) where
  woken := nofun
  halted := nofun

/-- Termination is final in every run in which no process is terminated between the test and
the store of a `scheduler_unblock` of it by a process that can still run. -/
theorem terminated_is_final (cfg : Config) (m₀ : Machine) (calls : List ShellCall)
    {m m' : Machine} (h : Reaches (step cfg) NoLateWake (boot m₀ calls) m)
    (h' : Reaches (step cfg) NoLateWake m m') {p : Nat}
    (hp : (m.table p).state = .terminated) :
    (m'.table p).state = .terminated ∧ pickNext m'.table m'.current ≠ some p := by
  have hinv : NoneWoken m ∧ Sound m :=
    h.invariant (P := fun m => NoneWoken m ∧ Sound m)
      ⟨boot_noneWoken m₀ calls, boot_sound m₀ calls⟩
      fun _ _ _ h hok hs => ⟨(h.1.step h.2 hok hs).1, h.2.step hs⟩
  have hfinal : (NoneWoken m' ∧ Sound m') ∧ (m'.table p).state = .terminated :=
    h'.invariant (P := fun m => (NoneWoken m ∧ Sound m) ∧ (m.table p).state = .terminated)
      ⟨hinv, hp⟩ fun _ _ _ h hok hs =>
        have hstep := h.1.1.step h.1.2 hok hs
        ⟨⟨hstep.1, h.1.2.step hs⟩, hstep.2 p h.2⟩
  refine ⟨hfinal.2, pickNext_ne_of_state ?_⟩
  rw [hfinal.2]
  decide

def exitOnly : Config := ⟨fun _ => [.exit], 0x20000⟩

/-- A thread exits and is switched out for good. -/
theorem terminated_is_final_after_exit :
    ∃ m m', Reaches (step exitOnly) NoLateWake (boot .blank [.create kernelName 0x1000]) m ∧
      Reaches (step exitOnly) NoLateWake m m' ∧ m.current = 1 ∧ m'.current = 0 ∧
      (m'.table 1).state = .terminated ∧ pickNext m'.table m'.current ≠ some 1 := by
  obtain ⟨m, hm, hP⟩ := reaches_of_any (step exitOnly) NoLateWake
    (boot .blank [.create kernelName 0x1000])
    (execs 16 ++ ticks 1 ++ execs 2)
    (fun m => decide (m.current = 1 ∧ (m.table 1).state = .terminated) &&
      (run (step exitOnly) NoLateWake m (ticks 1)).any
        fun m' : Machine => decide (m'.current = 0))
    (by decide +kernel)
  rw [Bool.and_eq_true, decide_eq_true_eq] at hP
  obtain ⟨⟨hcur, hp⟩, hrest⟩ := hP
  obtain ⟨m', hm', hcur'⟩ := reaches_of_any _ _ _ _ _ hrest
  exact ⟨m, m', hm, hm', hcur, of_decide_eq_true hcur',
    terminated_is_final _ _ _ hm hm' hp⟩

/-- A thread that takes and releases the mutex, and others that take it. -/
def holderAndWaiters : Config :=
  ⟨fun entry => if entry = 1 then [.lock, .unlock] else [.lock], 0x20000⟩

/-- Thread 1 has found thread 2 BLOCKED when the shell kills thread 2; the store of READY
brings it back. -/
theorem killed_thread_is_woken :
    ∃ m m', Reaches (step holderAndWaiters) Always
        (boot .blank [.create kernelName 1, .create kernelName 2, .kill 2]) m ∧
      (m.table 2).state = .terminated ∧ Reaches (step holderAndWaiters) Always m m' ∧
      (m'.table 2).state = .ready ∧ pickNext m'.table m'.current = some 2 := by
  obtain ⟨m, hm, hP⟩ := reaches_of_any (step holderAndWaiters) Always
    (boot .blank [.create kernelName 1, .create kernelName 2, .kill 2])
    (execs 33 ++ ticks 1 ++ execs 3 ++ ticks 1 ++ execs 4 ++ ticks 1 ++ execs 8 ++ ticks 1 ++
      execs 3)
    (fun m => decide ((m.table 2).state = .terminated) &&
      (run (step holderAndWaiters) Always m (ticks 1 ++ execs 1)).any fun m' : Machine =>
        decide ((m'.table 2).state = .ready ∧ pickNext m'.table m'.current = some 2))
    (by decide +kernel)
  rw [Bool.and_eq_true, decide_eq_true_eq] at hP
  obtain ⟨m', hm', hP'⟩ := reaches_of_any _ _ _ _ _ hP.2
  exact ⟨m, m', hm, hP.1, hm', of_decide_eq_true hP'⟩

end SengOs.Kernel
