import SengOs.Kernel.Sound

/-!
# Threads that increment under the mutex

A worker makes a number of iterations `mutex_lock; myglobal++; mutex_unlock` and exits, as the
threads of the `racem` command do. `WorkerOk` ties its program counter to what is left of its
program, to whether it holds the mutex, and to the increments it has completed.
-/

namespace SengOs.Kernel

/-- The calls of a loop with `n` iterations. -/
def worker : Nat → List ThreadCall
  | 0 => [.exit]
  | n + 1 => .lock :: .increment :: .unlock :: worker n

/-- Threads that start at `entry` make `n entry` iterations. -/
def workers (n : Nat → Nat) (stacksAddr : Nat) : Config :=
  ⟨fun entry => worker (n entry), stacksAddr⟩

def iterations (n : Nat → Nat) (th : Thread) : Nat := th.entry.elim 0 n

/-- The calls lock, increment and unlock in turn, when the mutex is held at first or not. -/
def Bracketed : Bool → List ThreadCall → Prop
  | false, [] => True
  | false, .lock :: rest => Bracketed true rest
  | false, .exit :: rest => rest = []
  | true, .increment :: rest => Bracketed true rest
  | true, .unlock :: rest => Bracketed false rest
  | _, _ => False

/-- The part of a call that a program counter is in. -/
inductive Region where
  | between
  | acquiring
  | incrementing
  | releasing
  | waking
  | ending
  deriving DecidableEq

def ThreadPc.region : ThreadPc → Region
  | .idle => .between
  | .lockXchg _ | .lockBlock | .lockYield | .lockOwner => .acquiring
  | .incLoad | .incStore _ => .incrementing
  | .unlockOwner | .unlockLocked => .releasing
  | .unlockTest | .unlockLoad | .unlockStore _ | .unlockRead _ | .unblockTest _
  | .unblockStore _ => .waking
  | .exitStore | .halted => .ending

def Thread.Follows (th : Thread) : Prop :=
  match th.pc.region with
  | .between => Bracketed th.holds th.todo
  | .acquiring => th.holds = false ∧ Bracketed true th.todo
  | .incrementing => th.holds = true ∧ Bracketed true th.todo
  | .releasing => th.holds = true ∧ Bracketed false th.todo
  | .waking => th.holds = false ∧ Bracketed false th.todo
  | .ending => th.holds = false ∧ th.todo = []

/-- The increments that a thread has begun and not stored. -/
def Thread.begun (th : Thread) : Nat := if th.pc.region = .incrementing then 1 else 0

structure WorkerOk (n : Nat → Nat) (th : Thread) : Prop where
  follows : th.Follows
  account : th.incs + th.begun + th.todo.count .increment = iterations n th

theorem worker_bracketed (n : Nat) : Bracketed false (worker n) := by
  induction n with
  | zero => rfl
  | succ n ih => exact ih

theorem worker_count (n : Nat) : (worker n).count .increment = n := by
  induction n with
  | zero => rfl
  | succ n ih =>
    show (ThreadCall.lock :: .increment :: .unlock :: worker n).count .increment = n + 1
    rw [List.count_cons_of_ne (by decide), List.count_cons_self,
      List.count_cons_of_ne (by decide), ih]

theorem unused_workerOk (n : Nat → Nat) : WorkerOk n Thread.unused := ⟨trivial, rfl⟩

theorem new_workerOk (n : Nat → Nat) (entry : Nat) :
    WorkerOk n { Thread.unused with todo := worker (n entry), entry := some entry } :=
  ⟨worker_bracketed _, by
    show 0 + 0 + (worker (n entry)).count .increment = n entry
    rw [worker_count, Nat.zero_add]⟩

namespace WorkerOk

variable {n : Nat → Nat} {th : Thread}

/-- A step within one part of a call. -/
theorem goto (h : WorkerOk n th) {pc : ThreadPc} (hpc : pc.region = th.pc.region) :
    WorkerOk n { th with pc := pc } := by
  refine ⟨?_, ?_⟩
  · have hfollows := h.follows
    unfold Thread.Follows at hfollows ⊢
    dsimp only
    rwa [hpc]
  · have haccount := h.account
    unfold Thread.begun at haccount ⊢
    dsimp only
    rwa [hpc]

theorem start (h : WorkerOk n th) (hpc : th.pc = .idle) {call : ThreadCall}
    {rest : List ThreadCall} (htodo : th.todo = call :: rest) :
    WorkerOk n { th with pc := call.start, todo := rest } := by
  obtain ⟨pc, todo, entry, holds, incs⟩ := th
  subst hpc htodo
  obtain ⟨hfollows, haccount⟩ := h
  change Bracketed holds (call :: rest) at hfollows
  change incs + 0 + (call :: rest).count .increment = entry.elim 0 n at haccount
  cases call with
  | lock =>
    rw [List.count_cons_of_ne (by decide)] at haccount
    cases holds with
    | false => exact ⟨⟨rfl, hfollows⟩, haccount⟩
    | true => exact hfollows.elim
  | unlock =>
    rw [List.count_cons_of_ne (by decide)] at haccount
    cases holds with
    | false => exact hfollows.elim
    | true => exact ⟨⟨rfl, hfollows⟩, haccount⟩
  | increment =>
    rw [List.count_cons_self] at haccount
    cases holds with
    | false => exact hfollows.elim
    | true =>
      refine ⟨⟨rfl, hfollows⟩, ?_⟩
      show incs + 1 + rest.count .increment = entry.elim 0 n
      omega
  | exit =>
    rw [List.count_cons_of_ne (by decide)] at haccount
    cases holds with
    | false => exact ⟨⟨rfl, hfollows⟩, haccount⟩
    | true => exact hfollows.elim

theorem acquired (h : WorkerOk n th) (hpc : th.pc = .lockOwner) :
    WorkerOk n { th with pc := .idle, holds := true } := by
  obtain ⟨pc, todo, entry, holds, incs⟩ := th
  subst hpc
  exact ⟨h.follows.2, h.account⟩

theorem released (h : WorkerOk n th) (hpc : th.pc = .unlockLocked) :
    WorkerOk n { th with pc := .unlockTest, holds := false } := by
  obtain ⟨pc, todo, entry, holds, incs⟩ := th
  subst hpc
  exact ⟨⟨rfl, h.follows.2⟩, h.account⟩

theorem unlocked (h : WorkerOk n th) (hpc : th.pc.region = .waking) :
    WorkerOk n { th with pc := .idle } := by
  obtain ⟨hfollows, haccount⟩ := h
  unfold Thread.Follows at hfollows
  unfold Thread.begun at haccount
  rw [hpc] at hfollows haccount
  obtain ⟨hholds, htodo⟩ := hfollows
  refine ⟨?_, haccount⟩
  show Bracketed th.holds th.todo
  rwa [hholds]

theorem incremented (h : WorkerOk n th) {v : Int32} (hpc : th.pc = .incStore v) :
    WorkerOk n { th with pc := .idle, incs := th.incs + 1 } := by
  obtain ⟨pc, todo, entry, holds, incs⟩ := th
  subst hpc
  obtain ⟨⟨hholds, htodo⟩, haccount⟩ := h
  dsimp only at hholds htodo
  subst hholds
  exact ⟨htodo, haccount⟩

/-- A thread that has exited has made all its increments. -/
theorem finished (h : WorkerOk n th) (hpc : th.pc = .halted) : th.incs = iterations n th := by
  obtain ⟨pc, todo, entry, holds, incs⟩ := th
  subst hpc
  obtain ⟨⟨-, htodo⟩, haccount⟩ := h
  dsimp only at htodo
  subst htodo
  exact haccount

end WorkerOk

end SengOs.Kernel
