import Mathlib.Logic.Function.Basic
import Mathlib.Tactic.Common

/-!
# `kernel/mutex.c`

The mutex and the stores to its fields. `mutex_lock` and `mutex_unlock` run with interrupts
on, so that each of their accesses is a transition of its own; see `Kernel.Machine`.
-/

namespace SengOs.Kernel

/-- `mutex_t` -/
structure Mutex where
  locked : Int
  owner : Int
  waiters : Nat → Nat
  nwaiters : Int

def mutexInit (m : Mutex) : Mutex := { m with locked := 0, owner := -1, nwaiters := 0 }

/-- `m->waiters[m->nwaiters++] = pid`, for an index inside the array. -/
def Mutex.append (m : Mutex) (pid : Nat) : Mutex :=
  { m with
    waiters := Function.update m.waiters m.nwaiters.toNat pid
    nwaiters := m.nwaiters + 1 }

end SengOs.Kernel
