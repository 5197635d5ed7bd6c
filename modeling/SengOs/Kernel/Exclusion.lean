import Mathlib.Algebra.BigOperators.Group.Finset.Piecewise
import SengOs.Kernel.Workers

/-!
# Mutual exclusion

The workers share one mutex, initialised before they start, and the shell does nothing but
create them. At most one of them is inside its critical section, so that no other increment
falls between the load and the store of `myglobal++`.
-/

namespace SengOs.Kernel

open Transition

/-- The thread has taken the mutex and not given it back. -/
def Thread.Critical (th : Thread) : Prop := th.holds = true ∨ th.pc = .lockOwner

def totalIncs (m : Machine) : Nat := ∑ p ∈ Finset.range maxProcesses, (m.thread p).incs

structure Exclusive (n : Nat → Nat) (c₀ : Int32) (m : Machine) : Prop where
  thread_ok : ∀ p, WorkerOk n (m.thread p)
  unique : ∀ p q, (m.thread p).Critical → (m.thread q).Critical → p = q
  locked : ∀ p, (m.thread p).Critical → m.mutex.locked = 1
  owner : m.mutex.owner = -1 ∨ ∃ p : Nat, (m.thread p).holds = true ∧
    (m.thread p).pc ≠ .unlockLocked ∧ m.mutex.owner = p
  loaded : ∀ p v, (m.thread p).pc = .incStore v → v = m.counter
  counter : m.counter = c₀ + Int32.ofNat (totalIncs m)
  shell : m.shell.OnlyCreates

section Sums

variable {m m' : Machine}

theorem totalIncs_congr (h : ∀ q, (m'.thread q).incs = (m.thread q).incs) :
    totalIncs m' = totalIncs m := Finset.sum_congr rfl fun q _ => h q

theorem totalIncs_succ {p : Nat} (hp : p < maxProcesses)
    (h : ∀ q, (m'.thread q).incs = (m.thread q).incs + if q = p then 1 else 0) :
    totalIncs m' = totalIncs m + 1 := by
  unfold totalIncs
  rw [Finset.sum_congr rfl fun q _ => h q, Finset.sum_add_distrib, Finset.sum_ite_eq',
    if_pos (Finset.mem_range.mpr hp)]

end Sums

/-- A property of every thread, when all but one are as before. -/
theorem forall_thread {m m' : Machine} {p : Nat} {P : Nat → Thread → Prop}
    (hthread : ∀ q, q ≠ p → m'.thread q = m.thread q) (hp : P p (m'.thread p))
    (h : ∀ q, q ≠ p → P q (m.thread q)) (q : Nat) : P q (m'.thread q) := by
  rcases eq_or_ne q p with rfl | hne
  · exact hp
  · rw [hthread q hne]
    exact h q hne

namespace Exclusive

variable {n : Nat → Nat} {c₀ : Int32} {m m' : Machine} {p : Nat}

/-- The clauses that speak of each thread on its own, when the counter is not stored. -/
theorem of_thread (h : Exclusive n c₀ m) (hthread : ∀ q, q ≠ p → m'.thread q = m.thread q)
    (hok : WorkerOk n (m'.thread p)) (hincs : (m'.thread p).incs = (m.thread p).incs)
    (hload : ∀ v, (m'.thread p).pc = .incStore v → v = m.counter)
    (hcounter : m'.counter = m.counter) (hshell : m'.shell.OnlyCreates)
    (hunique : ∀ q r, (m'.thread q).Critical → (m'.thread r).Critical → q = r)
    (hlocked : ∀ q, (m'.thread q).Critical → m'.mutex.locked = 1)
    (howner : m'.mutex.owner = -1 ∨ ∃ q : Nat, (m'.thread q).holds = true ∧
      (m'.thread q).pc ≠ .unlockLocked ∧ m'.mutex.owner = q) : Exclusive n c₀ m' where
  thread_ok := forall_thread (P := fun _ => WorkerOk n) hthread hok fun q _ => h.thread_ok q
  unique := hunique
  locked := hlocked
  owner := howner
  loaded := by
    rw [hcounter]
    exact forall_thread (P := fun _ th => ∀ v, th.pc = .incStore v → v = m.counter) hthread
      hload fun q _ => h.loaded q
  counter := by
    have htotal : totalIncs m' = totalIncs m := by
      apply totalIncs_congr
      exact forall_thread (P := fun q th => th.incs = (m.thread q).incs) hthread hincs
        fun q _ => rfl
    rw [hcounter, h.counter, htotal]
  shell := hshell

theorem critical_of (p : Nat) (m' : Machine)
    (hthread : ∀ q, q ≠ p → m'.thread q = m.thread q)
    (hp : (m'.thread p).Critical → (m.thread p).Critical) (q : Nat) :
    (m'.thread q).Critical → (m.thread q).Critical :=
  forall_thread (P := fun q th => th.Critical → (m.thread q).Critical) hthread hp
    (fun _ _ hq => hq) q

/-- A transition of `p` that neither takes nor gives back the mutex and stores no increment. -/
theorem quiet (h : Exclusive n c₀ m) (hlocked : m'.mutex.locked = m.mutex.locked)
    (howner : m'.mutex.owner = m.mutex.owner) (hcounter : m'.counter = m.counter)
    (hshell : m'.shell.OnlyCreates) (hthread : ∀ q, q ≠ p → m'.thread q = m.thread q)
    (hok : WorkerOk n (m'.thread p)) (hholds : (m'.thread p).holds = (m.thread p).holds)
    (hincs : (m'.thread p).incs = (m.thread p).incs)
    (hpc : (m'.thread p).pc ≠ .lockOwner ∧ (m'.thread p).pc ≠ .unlockLocked)
    (hload : ∀ v, (m'.thread p).pc = .incStore v → v = m.counter) : Exclusive n c₀ m' := by
  have hcritical := critical_of p m' hthread fun hp : (m'.thread p).Critical =>
    .inl (hholds ▸ hp.resolve_right hpc.1)
  apply h.of_thread hthread hok hincs hload hcounter hshell
  · exact fun q r hq hr => h.unique q r (hcritical q hq) (hcritical r hr)
  · intro q hq
    rw [hlocked]
    exact h.locked q (hcritical q hq)
  · rw [howner]
    rcases h.owner with hnone | ⟨q, hq, hqpc, heq⟩
    · exact .inl hnone
    · refine .inr ⟨q, ?_, ?_, heq⟩
      · exact forall_thread (P := fun q th => (m.thread q).holds = true → th.holds = true)
          hthread (fun hp => hholds.trans hp) (fun _ _ hq => hq) q hq
      · exact forall_thread (P := fun q th => (m.thread q).pc ≠ .unlockLocked →
          th.pc ≠ .unlockLocked) hthread (fun _ => hpc.2) (fun _ _ hq => hq) q hqpc

/-- The `xchg` that finds the mutex free. -/
theorem acquire (h : Exclusive n c₀ m) {again : Bool} (hpc : (m.thread p).pc = .lockXchg again)
    (hfree : m.mutex.locked ≠ 1) :
    Exclusive n c₀ ({ m with mutex := { m.mutex with locked := 1 } }.goto p .lockOwner) := by
  have hnone (q : Nat) : ¬(m.thread q).Critical := fun hq => hfree (h.locked q hq)
  have hcritical (q : Nat) (hq : (Machine.thread ({ m with
      mutex := { m.mutex with locked := 1 } }.goto p .lockOwner) q).Critical) : q = p := by
    by_contra hne
    rw [Machine.goto_ne hne] at hq
    exact hnone q hq
  apply h.of_thread (p := p)
  · exact fun q => Machine.goto_ne
  · rw [Machine.goto_self]
    exact (h.thread_ok p).goto (by rw [show (m.thread p).pc = _ from hpc]; rfl)
  · rw [Machine.goto_self]
  · rw [Machine.goto_self]
    exact nofun
  · rfl
  · exact h.shell
  · exact fun q r hq hr => (hcritical q hq).trans (hcritical r hr).symm
  · exact fun _ _ => rfl
  · rcases h.owner with howner | ⟨q, hq, -⟩
    · exact .inl howner
    · exact absurd (.inl hq) (hnone q)

theorem own (h : Exclusive n c₀ m) (hpc : (m.thread p).pc = .lockOwner) :
    Exclusive n c₀ ({ m with mutex := { m.mutex with owner := p } }.setThread p
      { m.thread p with pc := .idle, holds := true }) := by
  have hcritical := critical_of p
    ({ m with mutex := { m.mutex with owner := p } }.setThread p
      { m.thread p with pc := .idle, holds := true })
    (fun q => Machine.setThread_ne) fun _ => .inr hpc
  apply h.of_thread (p := p)
  · exact fun q => Machine.setThread_ne
  · rw [Machine.setThread_self]
    exact (h.thread_ok p).acquired hpc
  · rw [Machine.setThread_self]
  · rw [Machine.setThread_self]
    exact nofun
  · rfl
  · exact h.shell
  · exact fun q r hq hr => h.unique q r (hcritical q hq) (hcritical r hr)
  · exact fun q hq => h.locked q (hcritical q hq)
  · refine .inr ⟨p, ?_, ?_, rfl⟩
    · rw [Machine.setThread_self]
    · rw [Machine.setThread_self]
      nofun

theorem clearOwner (h : Exclusive n c₀ m) (hpc : (m.thread p).pc = .unlockOwner) :
    Exclusive n c₀
      ({ m with mutex := { m.mutex with owner := -1 } }.goto p .unlockLocked) := by
  have hcritical := critical_of p
    ({ m with mutex := { m.mutex with owner := -1 } }.goto p .unlockLocked)
    (fun q => Machine.goto_ne) fun hp => by
      rw [Machine.goto_self] at hp
      exact .inl (hp.resolve_right nofun)
  apply h.of_thread (p := p)
  · exact fun q => Machine.goto_ne
  · rw [Machine.goto_self]
    exact (h.thread_ok p).goto (by rw [show (m.thread p).pc = _ from hpc]; rfl)
  · rw [Machine.goto_self]
  · rw [Machine.goto_self]
    exact nofun
  · rfl
  · exact h.shell
  · exact fun q r hq hr => h.unique q r (hcritical q hq) (hcritical r hr)
  · exact fun q hq => h.locked q (hcritical q hq)
  · exact .inl rfl

theorem release (h : Exclusive n c₀ m) (hpc : (m.thread p).pc = .unlockLocked) :
    Exclusive n c₀ ({ m with mutex := { m.mutex with locked := 0 } }.setThread p
      { m.thread p with pc := .unlockTest, holds := false }) := by
  have hp : (m.thread p).Critical := by
    have hfollows := (h.thread_ok p).follows
    unfold Thread.Follows at hfollows
    rw [hpc] at hfollows
    exact .inl hfollows.1
  have hnone (q : Nat) : ¬(Machine.thread ({ m with
      mutex := { m.mutex with locked := 0 } }.setThread p
        { m.thread p with pc := .unlockTest, holds := false }) q).Critical := by
    rcases eq_or_ne q p with rfl | hne
    · rw [Machine.setThread_self]
      exact nofun
    · rw [Machine.setThread_ne hne]
      exact fun hq => hne (h.unique q p hq hp)
  apply h.of_thread (p := p)
  · exact fun q => Machine.setThread_ne
  · rw [Machine.setThread_self]
    exact (h.thread_ok p).released hpc
  · rw [Machine.setThread_self]
  · rw [Machine.setThread_self]
    exact nofun
  · rfl
  · exact h.shell
  · exact fun q _ hq => absurd hq (hnone q)
  · exact fun q hq => absurd hq (hnone q)
  · rcases h.owner with howner | ⟨q, hq, hqpc, -⟩
    · exact .inl howner
    · obtain rfl := h.unique q p (.inl hq) hp
      exact absurd hpc hqpc

/-- A thread that is in an increment holds the mutex. -/
theorem critical_of_loaded (h : Exclusive n c₀ m) {v : Int32}
    (hpc : (m.thread p).pc = .incStore v) : (m.thread p).Critical := by
  have hfollows := (h.thread_ok p).follows
  unfold Thread.Follows at hfollows
  rw [hpc] at hfollows
  exact .inl hfollows.1

theorem increment (h : Exclusive n c₀ m) (hp : p < maxProcesses) {v : Int32}
    (hpc : (m.thread p).pc = .incStore v) :
    Exclusive n c₀ ({ m with counter := v + 1 }.setThread p
      { m.thread p with pc := .idle, incs := (m.thread p).incs + 1 }) := by
  have hcrit := h.critical_of_loaded hpc
  have hcritical := critical_of p
    ({ m with counter := v + 1 }.setThread p
      { m.thread p with pc := .idle, incs := (m.thread p).incs + 1 })
    (fun q => Machine.setThread_ne) fun _ => hcrit
  have hholds : (m.thread p).holds = true := hcrit.resolve_right (by rw [hpc]; nofun)
  constructor
  case thread_ok =>
    refine forall_thread (P := fun _ => WorkerOk n) (fun q => Machine.setThread_ne) ?_
      fun q _ => h.thread_ok q
    rw [Machine.setThread_self]
    exact (h.thread_ok p).incremented hpc
  case unique => exact fun q r hq hr => h.unique q r (hcritical q hq) (hcritical r hr)
  case locked => exact fun q hq => h.locked q (hcritical q hq)
  case owner =>
    rcases h.owner with howner | ⟨q, hq, hqpc, howner⟩
    · exact .inl howner
    · refine .inr ⟨q, ?_, ?_, howner⟩
      · exact forall_thread (P := fun q th => (m.thread q).holds = true → th.holds = true)
          (fun q => Machine.setThread_ne) (by rw [Machine.setThread_self]; exact id)
          (fun _ _ hq => hq) q hq
      · exact forall_thread (P := fun q th => (m.thread q).pc ≠ .unlockLocked →
          th.pc ≠ .unlockLocked) (fun q => Machine.setThread_ne)
          (by rw [Machine.setThread_self]; nofun) (fun _ _ hq => hq) q hqpc
  case loaded =>
    -- no other thread can have loaded the old value
    refine forall_thread (P := fun _ th => ∀ w, th.pc = .incStore w → w = v + 1)
      (fun q => Machine.setThread_ne) ?_ fun q hq w hw => ?_
    · rw [Machine.setThread_self]
      exact nofun
    · exact absurd (h.unique q p (h.critical_of_loaded hw) hcrit) hq
  case counter =>
    have htotal : totalIncs ({ m with counter := v + 1 }.setThread p
        { m.thread p with pc := .idle, incs := (m.thread p).incs + 1 }) = totalIncs m + 1 := by
      refine totalIncs_succ hp fun q => ?_
      rcases eq_or_ne q p with rfl | hne
      · rw [Machine.setThread_self, if_pos rfl]
      · rw [Machine.setThread_ne hne, if_neg hne, Nat.add_zero]
    rw [htotal, Int32.ofNat_add, ← Int32.add_assoc, ← h.counter, ← h.loaded p v hpc]
    rfl
  case shell => exact h.shell

/-- Only the program counter of `p` moves, in a state `m₁` that differs from `m` in nothing
that the other clauses speak of. -/
theorem goto (h : Exclusive n c₀ m) {m₁ : Machine} {pc : ThreadPc}
    (hthread : m₁.thread = m.thread) (hlocked : m₁.mutex.locked = m.mutex.locked)
    (howner : m₁.mutex.owner = m.mutex.owner) (hcounter : m₁.counter = m.counter)
    (hshell : m₁.shell = m.shell) (hok : WorkerOk n { m.thread p with pc := pc })
    (hpc : pc ≠ .lockOwner ∧ pc ≠ .unlockLocked)
    (hload : ∀ v, pc = .incStore v → v = m.counter) : Exclusive n c₀ (m₁.goto p pc) := by
  have hself : (m₁.goto p pc).thread p = { m.thread p with pc := pc } := by
    rw [Machine.goto_self, hthread]
  apply h.quiet (p := p)
  · exact hlocked
  · exact howner
  · exact hcounter
  · show m₁.shell.OnlyCreates
    rw [hshell]
    exact h.shell
  · intro q hq
    rw [Machine.goto_ne hq, hthread]
  · rw [hself]
    exact hok
  · rw [hself]
  · rw [hself]
  · rw [hself]
    exact hpc
  · rw [hself]
    exact hload

theorem fault (h : Exclusive n c₀ m) : Exclusive n c₀ { m with fault := true } :=
  ⟨h.thread_ok, h.unique, h.locked, h.owner, h.loaded, h.counter, h.shell⟩

theorem thread (h : Exclusive n c₀ m) (hp : p < maxProcesses) (hs : ThreadStep m p m') :
    Exclusive n c₀ m' := by
  have hw := h.thread_ok p
  have hwithin {pc pc' : ThreadPc} (hpc : (m.thread p).pc = pc) (hr : pc'.region = pc.region) :
      WorkerOk n { m.thread p with pc := pc' } := hw.goto (by rw [hpc, hr])
  have hdone {pc : ThreadPc} (hpc : (m.thread p).pc = pc) (hr : pc.region = .waking) :
      WorkerOk n { m.thread p with pc := .idle } := hw.unlocked (by rw [hpc, hr])
  cases hs with
  | start hpc htodo =>
    rename_i call rest
    apply h.quiet (p := p)
    · rfl
    · rfl
    · rfl
    · exact h.shell
    · exact fun q => Machine.setThread_ne
    · rw [Machine.setThread_self]
      exact hw.start hpc htodo
    · rw [Machine.setThread_self]
    · rw [Machine.setThread_self]
    · rw [Machine.setThread_self]
      cases call <;> exact ⟨nofun, nofun⟩
    · rw [Machine.setThread_self]
      cases call <;> exact nofun
  | xchgHeld hpc hheld =>
    exact h.goto rfl hheld.symm rfl rfl rfl (hwithin hpc rfl) ⟨nofun, nofun⟩ nofun
  | xchgFree hpc hfree => exact h.acquire hpc hfree
  | block hpc => exact h.goto rfl rfl rfl rfl rfl (hwithin hpc rfl) ⟨nofun, nofun⟩ nofun
  | blockFault | readFault => exact h.fault
  | owner hpc => exact h.own hpc
  | clearOwner hpc => exact h.clearOwner hpc
  | release hpc => exact h.release hpc
  | someWaiter hpc | load hpc | store hpc | read hpc | isBlocked hpc =>
    exact h.goto rfl rfl rfl rfl rfl (hwithin hpc rfl) ⟨nofun, nofun⟩ nofun
  | noWaiter hpc | notBlocked hpc | wake hpc =>
    exact h.goto rfl rfl rfl rfl rfl (hdone hpc rfl) ⟨nofun, nofun⟩ nofun
  | incLoad hpc =>
    refine h.goto rfl rfl rfl rfl rfl (hwithin hpc rfl) ⟨nofun, nofun⟩ ?_
    rintro v ⟨⟩
    rfl
  | incStore hpc => exact h.increment hp hpc
  | exit hpc => exact h.goto rfl rfl rfl rfl rfl (hwithin hpc rfl) ⟨nofun, nofun⟩ nofun

theorem shellStep {stacksAddr : Nat} (h : Exclusive n c₀ m) (hsound : Sound m)
    (hs : ShellStep (workers n stacksAddr) m m') : Exclusive n c₀ m' := by
  obtain ⟨hshell, hmutex, hcounter⟩ := h.shell.step hs
  obtain ⟨p, hne⟩ := hs.exists_thread_ne
  rcases hsound.shell_thread hs p with heq | ⟨huntouched, entry, heq⟩
  · have hall : m'.thread = m.thread := by
      funext q
      exact forall_thread (P := fun q th => th = m.thread q) hne heq (fun _ _ => rfl) q
    refine ⟨?_, ?_, ?_, ?_, ?_, ?_, hshell⟩
    · rw [hall]
      exact h.thread_ok
    · rw [hall]
      exact h.unique
    · rw [hall, hmutex]
      exact h.locked
    · rw [hall, hmutex]
      exact h.owner
    · rw [hall, hcounter]
      exact h.loaded
    · rw [hcounter, h.counter, totalIncs_congr fun q => by rw [hall]]
  · apply h.quiet (p := p) (by rw [hmutex]) (by rw [hmutex]) hcounter hshell hne
    · rw [heq]
      exact new_workerOk n entry
    · rw [heq, huntouched.holds]
      rfl
    · rw [heq, huntouched.incs]
      rfl
    · rw [heq]
      exact ⟨nofun, nofun⟩
    · rw [heq]
      exact nofun

theorem step {stacksAddr : Nat} {a : Act} (h : Exclusive n c₀ m ∧ Sound m)
    (hs : step (workers n stacksAddr) m a = some m') : Exclusive n c₀ m' := by
  refine (step_invariant (I := fun m => Exclusive n c₀ m ∧ Sound m) ?_ ?_ ?_ ?_ ?_ h hs).1
  · exact fun _ h hfault hcur hs => ⟨h.1.thread h.2.current_lt hs, h.2.thread hfault hcur hs⟩
  · intro h hfault _ hpc
    refine ⟨h.1.goto rfl rfl rfl rfl rfl ?_ ⟨nofun, nofun⟩ nofun, h.2.yield hfault⟩
    exact (h.1.thread_ok _).goto (by rw [hpc]; rfl)
  · exact fun _ h _ _ hs => ⟨h.1.shellStep h.2 hs, h.2.shell hs⟩
  · exact fun _ _ _ h hfault hpick => ⟨⟨h.1.thread_ok, h.1.unique, h.1.locked, h.1.owner,
      h.1.loaded, h.1.counter, h.1.shell⟩, h.2.switch hfault hpick⟩
  · exact fun words h hfault => ⟨⟨h.1.thread_ok, h.1.unique, h.1.locked, h.1.owner, h.1.loaded,
      h.1.counter, h.1.shell⟩, h.2.work hfault words⟩

end Exclusive

theorem boot_exclusive (n : Nat → Nat) (m : Machine) (threads : List (CString × Nat)) :
    Exclusive n m.counter (boot m (threads.map fun t => .create t.1 t.2)) where
  thread_ok _ := unused_workerOk n
  unique _ _ hp := by
    rcases hp with hp | hp <;> cases hp
  locked _ hp := by
    rcases hp with hp | hp <;> cases hp
  owner := .inl rfl
  loaded := nofun
  counter := by
    show m.counter = m.counter + Int32.ofNat (∑ p ∈ Finset.range maxProcesses, 0)
    rw [Finset.sum_const_zero]
    exact (Int32.add_zero _).symm
  shell := boot_onlyCreates m threads

/-- `c` is `c₀ + k` as a 32-bit sum, which is the exact sum as long as it is an `int`. -/
def CountsFrom (c₀ : Int32) (k : Nat) (c : Int32) : Prop :=
  c = c₀ + Int32.ofNat k ∧ (c₀.toInt + k < 2 ^ 31 → c.toInt = c₀.toInt + k)

theorem countsFrom_of_eq {c₀ c : Int32} {k : Nat} (h : c = c₀ + Int32.ofNat k) :
    CountsFrom c₀ k c := by
  refine ⟨h, fun hlt => ?_⟩
  have hlo := c₀.le_toInt
  have hsize : Int32.size = 2 ^ 32 := rfl
  rw [h, Int32.toInt_add, Int32.toInt_ofNat', hsize, Int.add_bmod_bmod]
  apply Int.bmod_eq_of_le
  · omega
  · omega

/-- In every run of the workers at most one of them is between its `mutex_lock` and the store
that gives the mutex back, the owner is that thread or none, and no increment is lost: when
every thread has exited the counter has grown by the sum of their iterations. -/
theorem mutual_exclusion (n : Nat → Nat) (stacksAddr : Nat) (m₀ : Machine)
    (threads : List (CString × Nat)) {m : Machine}
    (h : Reaches (step (workers n stacksAddr)) Always
      (boot m₀ (threads.map fun t => .create t.1 t.2)) m) :
    (∀ p q, (m.thread p).holds = true → (m.thread q).holds = true → p = q) ∧
    (m.mutex.owner = -1 ∨ ∃ p : Nat, (m.thread p).holds = true ∧ m.mutex.owner = p) ∧
    CountsFrom m₀.counter (totalIncs m) m.counter ∧
    ((∀ p, (m.thread p).entry ≠ none → (m.thread p).pc = .halted) →
      CountsFrom m₀.counter (∑ p ∈ Finset.range maxProcesses, iterations n (m.thread p))
        m.counter) := by
  have hinv : Exclusive n m₀.counter m ∧ Sound m :=
    h.invariant (P := fun m => Exclusive n m₀.counter m ∧ Sound m)
      ⟨boot_exclusive n m₀ threads, boot_sound m₀ _⟩
      fun _ _ _ h _ hs => ⟨Exclusive.step h hs, h.2.step hs⟩
  obtain ⟨hexcl, -⟩ := hinv
  refine ⟨fun p q hp hq => hexcl.unique p q (.inl hp) (.inl hq), ?_,
    countsFrom_of_eq hexcl.counter, fun hdone => ?_⟩
  · rcases hexcl.owner with hnone | ⟨p, hp, -, howner⟩
    · exact .inl hnone
    · exact .inr ⟨p, hp, howner⟩
  · have htotal : totalIncs m = ∑ p ∈ Finset.range maxProcesses, iterations n (m.thread p) := by
      refine Finset.sum_congr rfl fun p _ => ?_
      rcases hentry : (m.thread p).entry with - | entry
      · have haccount := (hexcl.thread_ok p).account
        unfold iterations at haccount ⊢
        rw [hentry] at haccount ⊢
        exact Nat.eq_zero_of_add_eq_zero_right (Nat.eq_zero_of_add_eq_zero_right haccount)
      · exact (hexcl.thread_ok p).finished (hdone p (by rw [hentry]; nofun))
    rw [← htotal]
    exact countsFrom_of_eq hexcl.counter

/-- Two workers, the second of which waits while the first is inside. -/
theorem mutual_exclusion_two_workers :
    ∃ m, Reaches (step (workers (fun _ => 1) 0x20000)) Always
        (boot .blank ([(kernelName, 1), (kernelName, 2)].map fun t => .create t.1 t.2)) m ∧
      (m.thread 1).holds = true ∧ (m.table 2).state = .blocked ∧
      (∀ p, (m.thread p).holds = true → p = 1) ∧ CountsFrom 0 (totalIncs m) m.counter := by
  obtain ⟨m, hm, hP⟩ := reaches_of_any (step (workers (fun _ => 1) 0x20000))
    Always
    (boot .blank ([(kernelName, 1), (kernelName, 2)].map fun t => .create t.1 t.2))
    (execs 33 ++ ticks 1 ++ execs 3 ++ ticks 1 ++ execs 3)
    (fun m => decide ((m.thread 1).holds = true ∧ (m.table 2).state = .blocked))
    (by decide +kernel)
  obtain ⟨hholds, hblocked⟩ := of_decide_eq_true hP
  obtain ⟨hunique, -, hcount, -⟩ := mutual_exclusion (fun _ => 1) 0x20000 .blank
    [(kernelName, 1), (kernelName, 2)] hm
  exact ⟨m, hm, hholds, hblocked, fun p hp => hunique p 1 hp hholds, hcount⟩

end SengOs.Kernel
