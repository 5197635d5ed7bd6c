import SengOs.Kernel.Queue

/-!
# Wake-ups

A process that blocks on a mutex which is free is due a wake-up: an unlocker is still in
`mutex_unlock`, or an earlier waiter has been woken and will try the mutex first. This fails
when an unlocker finds the list empty while a process stands between its failed `xchg` and its
append, and it may fail when the list is not used in order.
-/

namespace SengOs.Kernel

open Transition

def ThreadPc.inUnlock : ThreadPc → Bool
  | .unlockOwner | .unlockLocked | .unlockTest | .unlockLoad | .unlockStore _ | .unlockRead _
  | .unblockTest _ | .unblockStore _ => true
  | _ => false

/-- The program counter of a process that has blocked and not tried the `xchg` again. -/
def ThreadPc.waiting : ThreadPc → Bool
  | .lockYield | .lockXchg true => true
  | _ => false

/-- `w` has blocked, has been made READY again, and has not tried the `xchg` again. -/
def Woken (m : Machine) (w : Nat) : Prop :=
  ((m.table w).state = .ready ∨ (m.table w).state = .running) ∧
    (m.thread w).pc.waiting = true

/-- A wake-up is due: somebody is in `mutex_unlock`, or somebody has been woken. -/
def WakeupDue (m : Machine) : Prop := (∃ q, (m.thread q).pc.inUnlock = true) ∨ ∃ w, Woken m w

/-- No process is left BLOCKED on a free mutex with nobody due to wake it. -/
def NoLostWakeup (m : Machine) : Prop :=
  ∀ p < maxProcesses, (m.table p).state = .blocked → m.mutex.locked = 0 → WakeupDue m

/-- The test of `nwaiters` does not find the list empty and the mutex free while a process
stands between its failed `xchg` and its append to the list. -/
def TestOrdered (m : Machine) (a : Act) : Prop :=
  a.isExec = true → (m.thread m.current).pc = .unlockTest → m.mutex.nwaiters ≤ 0 →
    m.mutex.locked = 0 → ∀ q < maxProcesses, (m.thread q).pc ≠ .lockBlock

instance (m : Machine) (a : Act) : Decidable (TestOrdered m a) :=
  inferInstanceAs (Decidable (_ → _ → _ → _ → ∀ q < maxProcesses, _))

/-- The schedules that keep clear of the windows in `mutex_lock` and `mutex_unlock`. -/
def Orderly (m : Machine) (a : Act) : Prop := ListOrdered m a ∧ TestOrdered m a

instance (m : Machine) (a : Act) : Decidable (Orderly m a) :=
  inferInstanceAs (Decidable (_ ∧ _))

/-- `p` waits, or it is about to. -/
def Waiting (m : Machine) (p : Nat) : Prop := Waits m p ∨ (m.thread p).pc = .lockBlock

/-- `NoLostWakeup`, also for a process that is about to wait. -/
def Due (m : Machine) : Prop := ∀ p, Waiting m p → m.mutex.locked = 0 → WakeupDue m

variable {cfg : Config} {m m' : Machine} {p : Nat}

theorem ThreadPc.inUnlock_of_carries {pc : ThreadPc} {w : Nat → Nat} {t : Nat}
    (h : pc.carries w = some t) : pc.inUnlock = true := by
  cases pc <;> first | rfl | cases h

/-- One that serves the waiters is still there if another thread moves. -/
theorem WakeupDue.of_ne (h : WakeupDue m) (hthread : ∀ q, q ≠ p → m'.thread q = m.thread q)
    (hstate : ∀ q, q ≠ p → (m'.table q).state = (m.table q).state)
    (hunlock : (m.thread p).pc.inUnlock = false) (hwait : (m.thread p).pc.waiting = false) :
    WakeupDue m' := by
  rcases h with ⟨q, hq⟩ | ⟨w, hstate', hw⟩
  · have hne : q ≠ p := by
      rintro rfl
      rw [hunlock] at hq
      cases hq
    refine .inl ⟨q, ?_⟩
    rwa [hthread q hne]
  · have hne : w ≠ p := by
      rintro rfl
      rw [hwait] at hw
      cases hw
    refine .inr ⟨w, ?_, ?_⟩
    · rwa [hstate w hne]
    · rwa [hthread w hne]

namespace Due

theorem congr (h : Due m) (hlocked : m'.mutex.locked = m.mutex.locked)
    (hpc : ∀ q, (m'.thread q).pc = (m.thread q).pc ∨
      (m.thread q).pc = .lockYield ∧ (m'.thread q).pc = .lockXchg true)
    (hwaits : ∀ q, Waits m' q ↔ Waits m q)
    (hstate : ∀ q, (m.table q).state = .ready ∨ (m.table q).state = .running →
      (m'.table q).state = .ready ∨ (m'.table q).state = .running) : Due m' := by
  intro p hp hfree
  have hp : Waiting m p := by
    rcases hp with hp | hp
    · exact .inl ((hwaits p).mp hp)
    · rcases hpc p with heq | ⟨-, hnew⟩
      · exact .inr (heq.symm.trans hp)
      · rw [hnew] at hp
        cases hp
  rcases h p hp (hlocked.symm.trans hfree) with ⟨q, hq⟩ | ⟨w, hw, hwait⟩
  · refine .inl ⟨q, ?_⟩
    rcases hpc q with heq | ⟨hold, -⟩
    · rwa [heq]
    · rw [hold] at hq
      cases hq
  · refine .inr ⟨w, hstate w hw, ?_⟩
    rcases hpc w with heq | ⟨-, hnew⟩
    · rwa [heq]
    · rw [hnew]
      rfl

/-- A thread outside `mutex_unlock` moves, and nobody else starts to wait. -/
theorem quiet (h : Due m) (hlocked : m'.mutex.locked = m.mutex.locked)
    (hthread : ∀ q, q ≠ p → m'.thread q = m.thread q)
    (hstate : ∀ q, q ≠ p → (m'.table q).state = (m.table q).state)
    (hunlock : (m.thread p).pc.inUnlock = false) (hwait : (m.thread p).pc.waiting = false)
    (hp : Waiting m' p → Waiting m p) : Due m' := by
  intro q hq hfree
  have hq : Waiting m q := by
    rcases eq_or_ne q p with rfl | hne
    · exact hp hq
    · rcases hq with hq | hq
      · exact .inl ⟨hq.1, (hstate q hne).symm.trans hq.2⟩
      · rw [hthread q hne] at hq
        exact .inr hq
  exact (h q hq (hlocked.symm.trans hfree)).of_ne hthread hstate hunlock hwait

/-- An unlocker that finds no waiter leaves those that wait to another one: an entry of the list
is out of the question, so an unlocker has the waiter's name. -/
theorem noWaiter (hqueued : Queued m) (hsound : Sound m)
    (hpc : (m.thread m.current).pc = .unlockTest) (hempty : m.mutex.nwaiters ≤ 0)
    (hnobody : m.mutex.locked = 0 → ∀ q < maxProcesses, (m.thread q).pc ≠ .lockBlock) :
    Due (m.goto m.current .idle) := by
  intro q hq hfree
  rcases hq with hq | hq
  · obtain ⟨x, hx⟩ := hqueued.tickets.covers q hq
    cases x with
    | entry i =>
      rw [ticket, if_neg (by omega)] at hx
      cases hx
    | unlocker r =>
      have hne : r ≠ m.current := by
        rintro rfl
        rw [ticket, hpc] at hx
        cases hx
      refine .inl ⟨r, ?_⟩
      rw [Machine.goto_ne hne]
      exact ThreadPc.inUnlock_of_carries hx
  · obtain ⟨-, hq⟩ := Machine.of_goto (P := (· = .lockBlock)) hq nofun
    rcases lt_or_ge q maxProcesses with hlt | hge
    · exact absurd hq (hnobody hfree q hlt)
    · rw [(hsound.outside q hge).pc] at hq
      cases hq

/-- The process that `scheduler_unblock` makes READY tries the mutex again. -/
theorem wake (hqueued : Queued m) (hp : ¬Waits m m.current) {t : Nat}
    (hpc : (m.thread m.current).pc = .unblockStore t) :
    Due ({ m with table := setState m.table t .ready }.goto m.current .idle) := by
  intro _ _ _
  have ht : Waits m t := by
    apply hqueued.tickets.sound (.unlocker m.current) t
    rw [ticket, hpc]
    rfl
  have hne : t ≠ m.current := fun heq => hp (heq ▸ ht)
  refine .inr ⟨t, .inl ((setState_state ..).trans (if_pos rfl)), ?_⟩
  rw [Machine.goto_ne hne]
  rcases hqueued.waiting t ht with hyield | hxchg
  · rw [show (m.thread t).pc = _ from hyield]
    rfl
  · rw [show (m.thread t).pc = _ from hxchg]
    rfl

theorem thread {out : Frame} (h : Due m) (hlist : ListSound m)
    (hord : TestOrdered m (.exec out)) (hs : ThreadStep m m.current m') : Due m' := by
  obtain ⟨hqueued, hsound, -⟩ := hlist
  have hp := hqueued.ne_of_waits hs
  have hserved (hq : (m'.thread m.current).pc.inUnlock = true) : Due m' :=
    fun _ _ _ => .inl ⟨m.current, hq⟩
  have hquiet {pc : ThreadPc} (hpc : (m.thread m.current).pc = pc)
      (hout : pc.inUnlock = false ∧ pc.waiting = false)
      (hlocked : m'.mutex.locked = m.mutex.locked)
      (hstate : ∀ q, q ≠ m.current → (m'.table q).state = (m.table q).state)
      (hwaiting : Waiting m' m.current → Waiting m m.current) : Due m' :=
    h.quiet hlocked (fun q hq => hs.thread_ne hq) hstate (hpc ▸ hout.1) (hpc ▸ hout.2) hwaiting
  cases hs with
  | start hpc htodo =>
    rename_i call rest
    refine hquiet hpc ⟨rfl, rfl⟩ rfl (fun _ _ => rfl) fun hw => ?_
    rcases hw with hw | hw
    · exact absurd hw hp
    · rw [Machine.setThread_self] at hw
      cases call <;> cases hw
  | xchgHeld | xchgFree => exact fun _ _ hfree => by cases hfree
  | block hpc =>
    refine hquiet hpc ⟨rfl, rfl⟩ rfl (fun q hq => ?_) fun _ => .inr hpc
    exact (setState_state ..).trans (if_neg hq)
  | blockFault | readFault =>
    exact h.congr rfl (fun _ => .inl rfl) (fun _ => Iff.rfl) fun _ => id
  | owner hpc | incStore hpc =>
    refine hquiet hpc ⟨rfl, rfl⟩ rfl (fun _ _ => rfl) fun hw => ?_
    rcases hw with hw | hw
    · exact absurd hw hp
    · rw [Machine.setThread_self] at hw
      cases hw
  | clearOwner | someWaiter | load | store | read | isBlocked =>
    apply hserved
    rw [Machine.goto_self]
    rfl
  | release =>
    apply hserved
    rw [Machine.setThread_self]
    rfl
  | noWaiter hpc hempty =>
    exact .noWaiter hqueued hsound hpc hempty (hord rfl hpc hempty)
  | notBlocked hpc ht =>
    refine absurd (hqueued.tickets.sound (.unlocker m.current) _ ?_) ht
    rw [ticket, hpc]
    rfl
  | wake hpc => exact .wake hqueued hp hpc
  | incLoad hpc =>
    refine hquiet hpc ⟨rfl, rfl⟩ rfl (fun _ _ => rfl) fun hw => ?_
    rcases hw with hw | hw
    · exact absurd hw hp
    · rw [Machine.goto_self] at hw
      cases hw
  | exit hpc =>
    refine hquiet hpc ⟨rfl, rfl⟩ rfl (fun q hq => ?_) fun hw => ?_
    · exact (processTerminate_state ..).trans (if_neg fun hand => hq hand.1)
    · rcases hw with ⟨hlt, hw⟩ | hw
      · refine absurd ⟨hlt, ?_⟩ hp
        have hw := (processTerminate_state ..).symm.trans hw
        split at hw
        · cases hw
        · exact hw
      · rw [Machine.goto_self] at hw
        cases hw

/-- A switch, also one in which the running thread yields. -/
theorem switch {out : Frame} (h : Due m) {m₁ : Machine} {next : Nat}
    (htable : m₁.table = m.table) (hmutex : m₁.mutex = m.mutex)
    (hpc : ∀ q, (m₁.thread q).pc = (m.thread q).pc ∨
      (m.thread q).pc = .lockYield ∧ (m₁.thread q).pc = .lockXchg true)
    (hpick : pickNext m₁.table m₁.current = some next) : Due (m₁.switchTo cfg out next) := by
  have hwaits := Queued.switchTo_waits cfg out (pickNext_some hpick).2
  have hwaits₁ (q : Nat) : Waits m₁ q ↔ Waits m q := by
    unfold Waits
    rw [htable]
  apply h.congr
  · exact congrArg Mutex.locked hmutex
  · exact hpc
  · exact fun q => (hwaits q).trans (hwaits₁ q)
  · intro q hq
    rw [switchTo_state, htable]
    split
    · exact .inr rfl
    · split
      · exact .inl rfl
      · exact hq

theorem shell (h : Due m) (hlist : ListSound m) (hs : ShellStep cfg m m') : Due m' := by
  obtain ⟨-, hsound, hcreates⟩ := hlist
  obtain ⟨-, hmutex, -⟩ := hcreates.step hs
  have hstate := hcreates.state_cases hsound hs
  apply h.congr
  · exact congrArg Mutex.locked hmutex
  · exact fun q => .inl (hsound.shell_pc hs q)
  · refine waits_congr fun q => ?_
    rcases hstate q with heq | ⟨hfree, hready⟩
    · rw [heq]
    · rw [hfree, hready]
      decide
  · intro q hq
    rcases hstate q with heq | ⟨-, hready⟩
    · rwa [heq]
    · exact .inl hready

theorem step {a : Act} (h : Due m) (hlist : ListSound m) (hord : TestOrdered m a)
    (hs : step cfg m a = some m') : Due m' := by
  obtain ⟨-, hs⟩ := step_cases hs
  cases hs with
  | thread hcur hs => exact h.thread hlist hord hs
  | yield hcur hpc =>
    rename_i out
    obtain ⟨next, hnext⟩ := yield_switches hlist.sound hcur
    rcases pickAndSwitch_cases cfg (m.goto m.current (.lockXchg true)) out with
      ⟨hnone, -⟩ | ⟨next, hnext, heq⟩
    · rw [show pickNext m.table m.current = none from hnone] at hnext
      cases hnext
    · rw [heq]
      refine h.switch rfl rfl (fun q => ?_) hnext
      rcases eq_or_ne q m.current with rfl | hne
      · rw [Machine.goto_self]
        exact .inr ⟨hpc, rfl⟩
      · rw [Machine.goto_ne hne]
        exact .inl rfl
  | shell hcur hs => exact h.shell hlist hs
  | tick =>
    rename_i out
    rcases pickAndSwitch_cases cfg m out with ⟨-, heq⟩ | ⟨next, hnext, heq⟩
    · rw [heq]
      exact h
    · rw [heq]
      exact h.switch rfl rfl (fun _ => .inl rfl) hnext
  | work => exact h.congr rfl (fun _ => .inl rfl) (fun _ => Iff.rfl) fun _ => id

end Due

theorem boot_due (m : Machine) (calls : List ShellCall) : Due (boot m calls) := by
  rintro p (hp | hp)
  · exact absurd hp.2 (boot_not_blocked m calls hp.1)
  · cases hp

/-- In every orderly run, a process that is BLOCKED on a free mutex is due a wake-up. -/
theorem no_lost_wakeup (cfg : Config) (m₀ : Machine) (threads : List (CString × Nat))
    {m : Machine} (h : Reaches (step cfg) Orderly
      (boot m₀ (threads.map fun t => .create t.1 t.2)) m) : NoLostWakeup m := by
  have hinv : ListSound m ∧ Due m :=
    h.invariant (P := fun m => ListSound m ∧ Due m)
      ⟨boot_listSound m₀ threads, boot_due m₀ _⟩
      fun _ _ _ h hord hs => ⟨h.1.step hord.1 hs, h.2.step h.1 hord.2 hs⟩
  exact fun p hlt hp hfree => hinv.2 p (.inl ⟨hlt, hp⟩) hfree

/-- A thread that takes the mutex and gives it back. -/
def lockUnlock : Config := ⟨fun _ => [.lock, .unlock], 0x20000⟩

/-- Thread 2 is BLOCKED when thread 1 has given the mutex back, and has been woken. -/
theorem no_lost_wakeup_two_threads :
    ∃ m, Reaches (step lockUnlock) Orderly
        (boot .blank ([(kernelName, 1), (kernelName, 2)].map fun t => .create t.1 t.2)) m ∧
      m.mutex.locked = 0 ∧ (m.table 2).state = .blocked ∧ WakeupDue m := by
  obtain ⟨m, hm, hP⟩ := reaches_of_any (step lockUnlock) Orderly
    (boot .blank ([(kernelName, 1), (kernelName, 2)].map fun t => .create t.1 t.2))
    (execs 33 ++ ticks 1 ++ execs 3 ++ ticks 1 ++ execs 4 ++ ticks 1 ++ execs 5)
    (fun m => decide (m.mutex.locked = 0 ∧ (m.table 2).state = .blocked))
    (by decide +kernel)
  obtain ⟨hfree, hblocked⟩ := of_decide_eq_true hP
  exact ⟨m, hm, hfree, hblocked, no_lost_wakeup lockUnlock .blank _ hm 2 (by decide) hblocked
    hfree⟩

/-- Thread 1 makes its whole `mutex_unlock` while thread 2 stands between its failed `xchg` and
its append: thread 2 then blocks on a free mutex, and thread 1 has returned. -/
theorem wakeup_lost :
    ∃ m, Reaches (step lockUnlock) Always
        (boot .blank ([(kernelName, 1), (kernelName, 2)].map fun t => .create t.1 t.2)) m ∧
      ¬NoLostWakeup m := by
  obtain ⟨m, hm, hP⟩ := reaches_of_any (step lockUnlock) Always
    (boot .blank ([(kernelName, 1), (kernelName, 2)].map fun t => .create t.1 t.2))
    (execs 33 ++ ticks 1 ++ execs 3 ++ ticks 1 ++ execs 2 ++ ticks 2 ++ execs 4 ++ ticks 1 ++
      execs 1)
    (fun m => decide (m.mutex.locked = 0 ∧ (m.table 2).state = .blocked ∧
      ∀ q < maxProcesses, (m.thread q).pc.inUnlock = false ∧
        ((m.thread q).pc.waiting = false ∨ (m.table q).state = .blocked)))
    (by decide +kernel)
  obtain ⟨hfree, hblocked, hnobody⟩ := of_decide_eq_true hP
  refine ⟨m, hm, fun hwake => ?_⟩
  have hsound := sound_of_reaches hm
  have hidle (q : Nat) (hq : maxProcesses ≤ q) : (m.thread q).pc = .idle :=
    (hsound.outside q hq).pc
  rcases hwake 2 (by decide) hblocked hfree with ⟨q, hq⟩ | ⟨w, hstate, hw⟩
  · rcases lt_or_ge q maxProcesses with hlt | hge
    · rw [(hnobody q hlt).1] at hq
      cases hq
    · rw [hidle q hge] at hq
      cases hq
  · rcases lt_or_ge w maxProcesses with hlt | hge
    · rcases (hnobody w hlt).2 with hout | hout
      · rw [hout] at hw
        cases hw
      · rw [hout] at hstate
        rcases hstate with hstate | hstate <;> cases hstate
    · rw [hidle w hge] at hw
      cases hw

end SengOs.Kernel
