import SengOs.Kernel.Exclusion

/-!
# The demonstrations of the shell

The threads that `kernel_main` and the commands `race` and `racem` create, and what these
commands do with the shared data. In each of the programs the calls of `mutex_lock` and
`mutex_unlock` alternate. That alone gives mutual exclusion, in any run in which `mutex_init`
finds the mutex given back.
-/

namespace SengOs.Kernel

open Transition

/-! ## Programs and commands -/

@[irreducible] def raceIters : Nat := 100000

/-- `task_a` and `task_b`, in the slots 1 and 2 that they terminate. -/
def task : List ThreadCall := [.exit]

/-- `race_thread_a` and `race_thread_b` -/
def raceThread : List ThreadCall := List.replicate raceIters .increment ++ [.exit]

/-- `racem_thread_a` and `racem_thread_b` -/
def racemThread : List ThreadCall := worker raceIters

/-- Where the linker puts the threads and the stacks. -/
structure Image where
  taskA : Nat
  taskB : Nat
  raceA : Nat
  raceB : Nat
  racemA : Nat
  racemB : Nat
  stacksAddr : Nat

def Image.code (img : Image) (entry : Nat) : List ThreadCall :=
  if entry = img.racemA ∨ entry = img.racemB then racemThread
  else if entry = img.raceA ∨ entry = img.raceB then raceThread
  else task

def Image.config (img : Image) : Config := ⟨img.code, img.stacksAddr⟩

/-- The processes that `kernel_main` creates. -/
def demoTasks (img : Image) : List ShellCall :=
  [.create ⟨[0x74, 0x61, 0x73, 0x6B, 0x5F, 0x61], by decide⟩ img.taskA,
    .create ⟨[0x74, 0x61, 0x73, 0x6B, 0x5F, 0x62], by decide⟩ img.taskB]

/-- The command `race`. -/
def race (img : Image) : List ShellCall :=
  [.resetCounter,
    .create ⟨[0x72, 0x61, 0x63, 0x65, 0x5F, 0x61], by decide⟩ img.raceA,
    .create ⟨[0x72, 0x61, 0x63, 0x65, 0x5F, 0x62], by decide⟩ img.raceB]

/-- The command `racem`. -/
def racem (img : Image) : List ShellCall :=
  [.resetCounter, .mutexInit,
    .create ⟨[0x72, 0x61, 0x63, 0x65, 0x6D, 0x5F, 0x61], by decide⟩ img.racemA,
    .create ⟨[0x72, 0x61, 0x63, 0x65, 0x6D, 0x5F, 0x62], by decide⟩ img.racemB]

/-! ## Locks and unlocks in turn -/

/-- The calls of `mutex_lock` and `mutex_unlock` alternate, when the mutex is held at first or
not. -/
def Alternates : Bool → List ThreadCall → Prop
  | _, [] => True
  | false, .lock :: rest => Alternates true rest
  | true, .unlock :: rest => Alternates false rest
  | held, .increment :: rest => Alternates held rest
  | held, .exit :: rest => Alternates held rest
  | _, _ => False

/-- The calls that a thread has still to make fit its program counter. -/
def Thread.Alternating (th : Thread) : Prop :=
  match th.pc.region with
  | .acquiring => th.holds = false ∧ Alternates true th.todo
  | .releasing => th.holds = true ∧ Alternates false th.todo
  | .waking => th.holds = false ∧ Alternates false th.todo
  | .between | .incrementing | .ending => Alternates th.holds th.todo

def Config.Alternating (cfg : Config) : Prop := ∀ entry, Alternates false (cfg.code entry)

theorem worker_alternates (n : Nat) : Alternates false (worker n) := by
  induction n with
  | zero => trivial
  | succ n ih => exact ih

theorem replicate_alternates (n : Nat) :
    Alternates false (List.replicate n .increment ++ [.exit]) := by
  induction n with
  | zero => trivial
  | succ n ih => exact ih

theorem racemThread_alternates : Alternates false racemThread := by
  unfold racemThread
  generalize raceIters = n
  exact worker_alternates n

theorem raceThread_alternates : Alternates false raceThread := by
  unfold raceThread
  generalize raceIters = n
  exact replicate_alternates n

theorem Image.alternating (img : Image) : img.config.Alternating := by
  intro entry
  show Alternates false (img.code entry)
  unfold Image.code
  split
  · exact racemThread_alternates
  · split
    · exact raceThread_alternates
    · trivial

namespace Thread.Alternating

variable {th : Thread}

/-- A step within one part of a call. -/
theorem goto (h : th.Alternating) {pc : ThreadPc} (hpc : pc.region = th.pc.region) :
    Alternating { th with pc := pc } := by
  unfold Alternating at h ⊢
  dsimp only
  rwa [hpc]

theorem start (h : th.Alternating) (hpc : th.pc = .idle) {call : ThreadCall}
    {rest : List ThreadCall} (htodo : th.todo = call :: rest) :
    Alternating { th with pc := call.start, todo := rest } := by
  obtain ⟨pc, todo, entry, holds, incs⟩ := th
  subst hpc htodo
  change Alternates holds (call :: rest) at h
  cases call with
  | lock =>
    cases holds with
    | false => exact ⟨rfl, h⟩
    | true => exact h.elim
  | unlock =>
    cases holds with
    | false => exact h.elim
    | true => exact ⟨rfl, h⟩
  | increment => cases holds <;> exact h
  | exit => cases holds <;> exact h

theorem acquired (h : th.Alternating) (hpc : th.pc = .lockOwner) :
    Alternating { th with pc := .idle, holds := true } := by
  obtain ⟨pc, todo, entry, holds, incs⟩ := th
  subst hpc
  exact h.2

theorem released (h : th.Alternating) (hpc : th.pc = .unlockLocked) :
    Alternating { th with pc := .unlockTest, holds := false } := by
  obtain ⟨pc, todo, entry, holds, incs⟩ := th
  subst hpc
  exact ⟨rfl, h.2⟩

theorem unlocked (h : th.Alternating) (hpc : th.pc.region = .waking) :
    Alternating { th with pc := .idle } := by
  unfold Alternating at h
  rw [hpc] at h
  show Alternates th.holds th.todo
  rw [h.1]
  exact h.2

theorem incremented (h : th.Alternating) (hpc : th.pc.region = .incrementing) (incs : Nat) :
    Alternating { th with pc := .idle, incs := incs } := by
  unfold Alternating at h
  rwa [hpc] at h

/-- Only the holder gives the mutex back. -/
theorem holds_of_releasing (h : th.Alternating) (hpc : th.pc.region = .releasing) :
    th.holds = true := by
  unfold Alternating at h
  rw [hpc] at h
  exact h.1

end Thread.Alternating

/-! ## Mutual exclusion -/

structure Guarded (m : Machine) : Prop where
  thread_ok : ∀ p, (m.thread p).Alternating
  unique : ∀ p q, (m.thread p).Critical → (m.thread q).Critical → p = q
  locked : ∀ p, (m.thread p).Critical → m.mutex.locked = 1

namespace Guarded

variable {cfg : Config} {m m' : Machine} {p : Nat}

/-- Nobody takes the mutex, and it is not given back while somebody has it. -/
theorem keep (h : Guarded m) (hok : ∀ q, (m'.thread q).Alternating)
    (hcritical : ∀ q, (m'.thread q).Critical → (m.thread q).Critical)
    (hlocked : ∀ q, (m'.thread q).Critical → m.mutex.locked = 1 → m'.mutex.locked = 1) :
    Guarded m' where
  thread_ok := hok
  unique q r hq hr := h.unique q r (hcritical q hq) (hcritical r hr)
  locked q hq := hlocked q hq (h.locked q (hcritical q hq))

theorem congr (h : Guarded m) (hthread : m'.thread = m.thread)
    (hmutex : m'.mutex = m.mutex) : Guarded m' := by
  apply h.keep
  · rw [hthread]
    exact h.thread_ok
  · rw [hthread]
    exact fun _ => id
  · rw [hmutex]
    exact fun _ _ => id

/-- A transition of `p` in which it does not take the mutex. -/
theorem move (h : Guarded m) (hs : ThreadStep m p m') (hok : (m'.thread p).Alternating)
    (hp : (m'.thread p).Critical → (m.thread p).Critical)
    (hlocked : m.mutex.locked = 1 → m'.mutex.locked = 1) : Guarded m' := by
  apply h.keep
  · exact forall_thread (P := fun _ th => th.Alternating) (fun q => hs.thread_ne) hok
      fun q _ => h.thread_ok q
  · exact Exclusive.critical_of p m' (fun q => hs.thread_ne) hp
  · exact fun _ _ => hlocked

/-- The `xchg` that finds the mutex free. -/
theorem acquire (h : Guarded m) (hs : ThreadStep m p m') (hok : (m'.thread p).Alternating)
    (hfree : m.mutex.locked ≠ 1) (hlocked : m'.mutex.locked = 1) : Guarded m' := by
  have hcritical (q : Nat) (hq : (m'.thread q).Critical) : q = p := by
    by_contra hne
    rw [hs.thread_ne hne] at hq
    exact hfree (h.locked q hq)
  constructor
  · exact forall_thread (P := fun _ th => th.Alternating) (fun q => hs.thread_ne) hok
      fun q _ => h.thread_ok q
  · exact fun q r hq hr => (hcritical q hq).trans (hcritical r hr).symm
  · exact fun _ _ => hlocked

/-- The store `m->locked = 0`, after which nobody has the mutex. -/
theorem release (h : Guarded m) (hs : ThreadStep m p m') (hok : (m'.thread p).Alternating)
    (hold : (m.thread p).Critical) (hnew : ¬(m'.thread p).Critical) : Guarded m' := by
  apply h.keep
  · exact forall_thread (P := fun _ th => th.Alternating) (fun q => hs.thread_ne) hok
      fun q _ => h.thread_ok q
  · exact Exclusive.critical_of p m' (fun q => hs.thread_ne) fun hp => absurd hp hnew
  · intro q hq
    rcases eq_or_ne q p with rfl | hne
    · exact absurd hq hnew
    · rw [hs.thread_ne hne] at hq
      exact absurd (h.unique q p hq hold) hne

theorem thread (h : Guarded m) (hs : ThreadStep m p m') : Guarded m' := by
  have hp := h.thread_ok p
  have hmove := h.move hs
  -- most transitions only move the program counter
  have hgoto {pc : ThreadPc} (hthread : m'.thread p = { m.thread p with pc := pc })
      (hok : Thread.Alternating { m.thread p with pc := pc }) (hpc : pc ≠ .lockOwner)
      (hlocked : m.mutex.locked = 1 → m'.mutex.locked = 1) : Guarded m' := by
    apply hmove
    · rw [hthread]
      exact hok
    · rw [hthread]
      exact fun hcritical => .inl (hcritical.resolve_right hpc)
    · exact hlocked
  cases hs with
  | start hpc htodo =>
    rename_i call rest
    apply hmove
    · rw [Machine.setThread_self]
      exact hp.start hpc htodo
    · rw [Machine.setThread_self]
      intro hcritical
      refine .inl (hcritical.resolve_right ?_)
      cases call <;> exact nofun
    · exact id
  | xchgHeld hpc =>
    exact hgoto (Machine.goto_self ..) (hp.goto (by rw [hpc]; rfl)) nofun fun _ => rfl
  | xchgFree hpc hfree =>
    refine h.acquire (.xchgFree hpc hfree) ?_ hfree rfl
    rw [Machine.goto_self]
    exact hp.goto (by rw [show (m.thread p).pc = _ from hpc]; rfl)
  | blockFault | readFault => exact hmove hp id id
  | owner hpc =>
    apply hmove
    · rw [Machine.setThread_self]
      exact hp.acquired hpc
    · exact fun _ => .inr hpc
    · exact id
  | release hpc =>
    refine h.release (.release hpc) ?_ ?_ ?_
    · rw [Machine.setThread_self]
      exact hp.released hpc
    · exact .inl (hp.holds_of_releasing (by rw [hpc]; rfl))
    · rw [Machine.setThread_self]
      exact nofun
  | incStore hpc =>
    apply hmove
    · rw [Machine.setThread_self]
      exact hp.incremented (by rw [hpc]; rfl) _
    · rw [Machine.setThread_self]
      exact fun hcritical => .inl (hcritical.resolve_right nofun)
    · exact id
  | noWaiter hpc | notBlocked hpc | wake hpc =>
    exact hgoto (Machine.goto_self ..) (hp.unlocked (by rw [hpc]; rfl)) nofun id
  | block hpc | clearOwner hpc | someWaiter hpc | load hpc | store hpc | read hpc
  | isBlocked hpc | incLoad hpc | exit hpc =>
    exact hgoto (Machine.goto_self ..) (hp.goto (by rw [hpc]; rfl)) nofun id

/-- `mutex_init` clears `locked` when nobody has the mutex. -/
theorem shell (h : Guarded m) (hsound : Sound m) (hcfg : cfg.Alternating)
    (hinit : m.shell.pc = .initLocked → ∀ q, ¬(m.thread q).Critical)
    (hs : ShellStep cfg m m') : Guarded m' := by
  apply h.keep
  · intro q
    rcases hsound.shell_thread hs q with heq | ⟨-, entry, heq⟩
    · rw [heq]
      exact h.thread_ok q
    · rw [heq]
      exact hcfg entry
  · intro q
    rcases hsound.shell_thread hs q with heq | ⟨-, entry, heq⟩
    · rw [heq]
      exact id
    · rw [heq]
      rintro (hq | hq) <;> cases hq
  · intro q hq hlocked
    cases hs with
    | initLocked hpc => exact absurd hq (hinit hpc q)
    | create =>
      rw [(createStep_shared m _ _).1]
      exact hlocked
    | _ => exact hlocked

end Guarded

end SengOs.Kernel
