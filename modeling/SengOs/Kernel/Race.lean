import Mathlib.Algebra.BigOperators.Fin
import SengOs.Kernel.Demos
import SengOs.Lib.LostUpdate

/-!
# Increments without the mutex

The threads of the command `race` load and store `myglobal` with ticks in between. As long as
the shell does not reset it, every transition of the machine is a move of the shared number of
`LostUpdate`, or none at all (`shared_step`). So the number that is printed at the end can be
anything from 2 on, but no less and no more than the increments made.
-/

namespace SengOs.Kernel

open LostUpdate Transition

/-- What a thread has loaded of `myglobal` and not stored. -/
def ThreadPc.loaded : ThreadPc → Option Int
  | .incStore v => some v.toInt
  | _ => none

/-- The counter as a shared number, with the increments of each thread beyond `base`. -/
def Machine.shared (base : Nat → Nat) (m : Machine) : Shared (Fin maxProcesses) where
  value := m.counter.toInt
  loaded p := (m.thread p).pc.loaded
  count p := (m.thread p).incs - base p

/-- The next store of the shell is not `myglobal = 0`. -/
def NoReset (m : Machine) (a : Act) : Prop :=
  a.isExec = true → m.current = 0 → m.shell.pc ≠ .resetStore

instance (m : Machine) (a : Act) : Decidable (NoReset m a) :=
  match h : m.shell.pc with
  | .resetStore => decidable_of_iff (a.isExec = true → m.current ≠ 0)
      ⟨fun hne hexec hcur => absurd hcur (hne hexec), fun hok hexec hcur => hok hexec hcur h⟩
  | .idle | .create _ _ | .killTest _ | .killStore _ | .initLocked | .initOwner | .initWaiters =>
    isTrue fun _ _ hpc => nomatch h.symm.trans hpc

/-! ## Transitions as moves -/

section Moves

variable {cfg : Config} {base : Nat → Nat} {m m' : Machine} {p : Nat}

theorem shared_congr (hcounter : m'.counter = m.counter)
    (hpc : ∀ q, (m'.thread q).pc.loaded = (m.thread q).pc.loaded)
    (hincs : ∀ q, (m'.thread q).incs = (m.thread q).incs) : m'.shared base = m.shared base := by
  unfold Machine.shared
  rw [hcounter]
  simp only [hpc, hincs]

/-- What a transition of a thread has to do with `myglobal`. -/
theorem ThreadStep.counting (h : ThreadStep m p m') :
    (m'.counter = m.counter ∧ (m'.thread p).incs = (m.thread p).incs ∧
      (m'.thread p).pc.loaded = (m.thread p).pc.loaded) ∨
    ((m.thread p).pc = .incLoad ∧ m' = m.goto p (.incStore m.counter)) ∨
    ∃ v, (m.thread p).pc = .incStore v ∧ m' = { m with counter := v + 1 }.setThread p
      { m.thread p with pc := .idle, incs := (m.thread p).incs + 1 } := by
  cases h with
  | start hpc htodo =>
    rename_i call rest
    refine .inl ⟨rfl, ?_, ?_⟩
    · rw [Machine.setThread_self]
    · rw [Machine.setThread_self, hpc]
      cases call <;> rfl
  | blockFault hpc | readFault hpc => exact .inl ⟨rfl, rfl, rfl⟩
  | owner hpc | release hpc =>
    refine .inl ⟨rfl, ?_, ?_⟩
    · rw [Machine.setThread_self]
    · rw [Machine.setThread_self, hpc]
      rfl
  | incLoad hpc => exact .inr (.inl ⟨hpc, rfl⟩)
  | incStore hpc => exact .inr (.inr ⟨_, hpc, rfl⟩)
  | _ hpc =>
    refine .inl ⟨rfl, ?_, ?_⟩
    · rw [Machine.goto_self]
    · rw [Machine.goto_self, hpc]
      rfl

theorem toInt_succ {v : Int32} (h : v.toInt + 1 < 2 ^ 31) : (v + 1).toInt = v.toInt + 1 := by
  have hlo := v.le_toInt
  have hone : (1 : Int32).toInt = 1 := by decide
  rw [Int32.toInt_add, hone]
  exact Int.bmod_eq_of_le (by omega) (by omega)

/-- A load is the load of the agent. -/
theorem shared_load (hp : p < maxProcesses) (hpc : (m.thread p).pc = .incLoad) :
    (m.goto p (.incStore m.counter)).shared base = (m.shared base).move ⟨p, hp⟩ := by
  have hnone : (m.shared base).loaded ⟨p, hp⟩ = none := congrArg ThreadPc.loaded hpc
  rw [Shared.move_load hnone]
  unfold Machine.shared
  congr 1
  · funext q
    rcases eq_or_ne q ⟨p, hp⟩ with rfl | hne
    · rw [Function.update_self, Machine.goto_self]
      rfl
    · rw [Function.update_of_ne hne, Machine.goto_ne fun heq => hne (Fin.ext heq)]
  · funext q
    rcases eq_or_ne q ⟨p, hp⟩ with rfl | hne
    · rw [Machine.goto_self]
    · rw [Machine.goto_ne fun heq => hne (Fin.ext heq)]

/-- A store is the store of the agent, but for the overflow of the `int`. -/
theorem shared_store (base : Nat → Nat) (hp : p < maxProcesses) {v : Int32}
    (hpc : (m.thread p).pc = .incStore v)
    (hbase : base p ≤ (m.thread p).incs) :
    ({ m with counter := v + 1 }.setThread p
      { m.thread p with pc := .idle, incs := (m.thread p).incs + 1 }).shared base =
      { (m.shared base).move ⟨p, hp⟩ with value := (v + 1).toInt } := by
  have hloaded : (m.shared base).loaded ⟨p, hp⟩ = some v.toInt := congrArg ThreadPc.loaded hpc
  rw [Shared.move_store hloaded]
  unfold Machine.shared
  dsimp only
  congr 1
  · funext q
    rcases eq_or_ne q ⟨p, hp⟩ with rfl | hne
    · rw [Function.update_self, Machine.setThread_self]
      rfl
    · rw [Function.update_of_ne hne, Machine.setThread_ne fun heq => hne (Fin.ext heq)]
  · funext q
    rcases eq_or_ne q ⟨p, hp⟩ with rfl | hne
    · rw [Function.update_self, Machine.setThread_self]
      exact Nat.sub_add_comm hbase
    · rw [Function.update_of_ne hne, Machine.setThread_ne fun heq => hne (Fin.ext heq)]

/-- The shell leaves the shared number alone, unless it resets it. -/
theorem Sound.shared_shell (h : Sound m) (hreset : m.shell.pc ≠ .resetStore)
    (hs : ShellStep cfg m m') : m'.shared base = m.shared base := by
  apply shared_congr
  · cases hs with
    | create => exact (createStep_shared m _ _).2
    | reset hpc => exact absurd hpc hreset
    | _ => rfl
  · exact fun q => congrArg ThreadPc.loaded (h.shell_pc hs q)
  · intro q
    rcases h.shell_thread hs q with heq | ⟨huntouched, entry, heq⟩
    · rw [heq]
    · rw [heq, huntouched.incs]
      rfl

end Moves

/-! ## Runs without a reset -/

/-- What holds in a run from a state in which the threads have made `base` increments. -/
structure Racing (base : Nat → Nat) (m : Machine) : Prop where
  sound : Sound m
  grown : ∀ p, base p ≤ (m.thread p).incs
  bounded : (m.shared base).total < 2 ^ 31 → Bounded (m.shared base)

namespace Racing

variable {cfg : Config} {base : Nat → Nat} {m m' : Machine} {p : Nat}

theorem congr (h : Racing base m) (hsound : Sound m')
    (hincs : ∀ q, (m'.thread q).incs = (m.thread q).incs)
    (hshared : m'.shared base = m.shared base) : Racing base m' where
  sound := hsound
  grown q := (hincs q).symm ▸ h.grown q
  bounded := hshared ▸ h.bounded

/-- The store of an increment, which grows the number of increments by one. -/
theorem store (h : Racing base m) (hsound : Sound m') (hp : p < maxProcesses) {v : Int32}
    (hpc : (m.thread p).pc = .incStore v)
    (heq : m' = { m with counter := v + 1 }.setThread p
      { m.thread p with pc := .idle, incs := (m.thread p).incs + 1 }) : Racing base m' := by
  have hloaded : (m.shared base).loaded ⟨p, hp⟩ = some v.toInt := congrArg ThreadPc.loaded hpc
  have hshared := shared_store base hp hpc (h.grown p)
  rw [← heq] at hshared
  have htotal : (m'.shared base).total = (m.shared base).total + 1 := by
    rw [hshared, Shared.move_store hloaded]
    exact total_store (m.shared base) ⟨p, hp⟩
  refine ⟨hsound, fun q => ?_, fun hlt => ?_⟩
  · subst heq
    rcases eq_or_ne q p with rfl | hne
    · rw [Machine.setThread_self]
      exact (h.grown q).trans (Nat.le_succ _)
    · rw [Machine.setThread_ne hne]
      exact h.grown q
  · have hb := h.bounded (by omega)
    have hle := hb.loaded_le _ _ hloaded
    have hvalue : (v + 1).toInt = ((m.shared base).move ⟨p, hp⟩).value := by
      rw [Shared.move_store hloaded]
      exact toInt_succ (by omega)
    rw [hshared, hvalue]
    exact hb.move ⟨p, hp⟩

theorem thread (h : Racing base m) (hsound : Sound m') (hp : p < maxProcesses)
    (hs : ThreadStep m p m') : Racing base m' := by
  rcases hs.counting with ⟨hcounter, hincs, hloaded⟩ | ⟨hpc, heq⟩ | ⟨v, hpc, heq⟩
  · have hall := forall_thread (P := fun q th => th.incs = (m.thread q).incs)
      (fun q => hs.thread_ne) hincs fun _ _ => rfl
    refine h.congr hsound hall (shared_congr hcounter ?_ hall)
    exact forall_thread (P := fun q th => th.pc.loaded = (m.thread q).pc.loaded)
      (fun q => hs.thread_ne) hloaded fun _ _ => rfl
  · subst heq
    refine ⟨hsound, fun q => ?_, fun hlt => ?_⟩
    · rcases eq_or_ne q p with rfl | hne
      · rw [Machine.goto_self]
        exact h.grown q
      · rw [Machine.goto_ne hne]
        exact h.grown q
    · rw [shared_load hp hpc] at hlt ⊢
      have hnone : (m.shared base).loaded ⟨p, hp⟩ = none := congrArg ThreadPc.loaded hpc
      rw [Shared.move_load hnone] at hlt
      exact (h.bounded hlt).move ⟨p, hp⟩
  · exact h.store hsound hp hpc heq

theorem yield (h : Racing base m) (hsound : Sound (m.goto p (.lockXchg true)))
    (hpc : (m.thread p).pc = .lockYield) : Racing base (m.goto p (.lockXchg true)) := by
  have hincs (q : Nat) : ((m.goto p (.lockXchg true)).thread q).incs = (m.thread q).incs := by
    rcases eq_or_ne q p with rfl | hne
    · rw [Machine.goto_self]
    · rw [Machine.goto_ne hne]
  refine h.congr hsound hincs (shared_congr rfl (fun q => ?_) hincs)
  rcases eq_or_ne q p with rfl | hne
  · rw [Machine.goto_self, hpc]
    rfl
  · rw [Machine.goto_ne hne]

theorem step {a : Act} (h : Racing base m) (hok : NoReset m a) (hs : step cfg m a = some m') :
    Racing base m' := by
  have hsound := h.sound.step hs
  have hpick (m₁ : Machine) (out : Frame) (h₁ : Racing base m₁) (hfault : m₁.fault = false) :
      Racing base (m₁.pickAndSwitch cfg out) := by
    rcases pickAndSwitch_cases cfg m₁ out with ⟨-, heq⟩ | ⟨next, hnext, heq⟩
    · rw [heq]
      exact h₁
    · rw [heq]
      exact h₁.congr (h₁.sound.switch hfault hnext) (fun _ => rfl) rfl
  obtain ⟨hfault, hstep⟩ := step_cases hs
  cases hstep with
  | thread hcur hs => exact h.thread hsound h.sound.current_lt hs
  | yield hcur hpc => exact hpick _ _ (h.yield (h.sound.yield hfault) hpc) hfault
  | shell hcur hs =>
    refine h.congr hsound (fun q => ?_) (h.sound.shared_shell (hok rfl hcur) hs)
    rcases h.sound.shell_thread hs q with heq | ⟨huntouched, entry, heq⟩
    · rw [heq]
    · rw [heq, huntouched.incs]
      rfl
  | tick => exact hpick m _ h hfault
  | work => exact h.congr hsound (fun _ => rfl) rfl

end Racing

/-- The increments of a thread since the state `m₀`. -/
def incsSince (m₀ m : Machine) (p : Nat) : Nat := (m.thread p).incs - (m₀.thread p).incs

/-- In every run in which `myglobal` starts at zero and is not reset, and in which fewer increments
are made than an `int` counts, whatever else goes on: it is at most the number of increments made;
and if no thread has made just one of them, two are left. -/
theorem race_bounds {cfg : Config} {ok : Machine → Act → Prop} {m₀ m₁ m : Machine}
    {calls : List ShellCall} (hstart : Reaches (step cfg) ok (boot m₀ calls) m₁)
    (hzero : m₁.counter = 0) (hnone : ∀ p < maxProcesses, (m₁.thread p).pc.loaded = none)
    (h : Reaches (step cfg) NoReset m₁ m)
    (hlt : ∑ p ∈ Finset.range maxProcesses, incsSince m₁ m p < 2 ^ 31) :
    (0 ≤ m.counter.toInt ∧
      m.counter.toInt ≤ (∑ p ∈ Finset.range maxProcesses, incsSince m₁ m p : Nat)) ∧
      ((∀ p < maxProcesses, incsSince m₁ m p ≠ 1) → (∃ p < maxProcesses, incsSince m₁ m p ≠ 0) →
        2 ≤ m.counter.toInt) := by
  have hshared : m₁.shared (fun p => (m₁.thread p).incs) = Shared.zero := by
    unfold Machine.shared Shared.zero
    congr 1
    · rw [hzero]
      rfl
    · funext p
      exact hnone p p.isLt
    · funext p
      exact Nat.sub_self _
  have hracing : Racing (fun p => (m₁.thread p).incs) m :=
    h.invariant ⟨sound_of_reaches hstart, fun _ => le_rfl, fun _ => hshared ▸ bounded_zero⟩
      fun _ _ _ h hok hs => h.step hok hs
  have htotal : (m.shared fun p => (m₁.thread p).incs).total =
      ∑ p ∈ Finset.range maxProcesses, incsSince m₁ m p := by
    rw [Finset.sum_range]
    rfl
  have hb : Bounded (m.shared fun p => (m₁.thread p).incs) := by
    apply hracing.bounded
    rw [htotal]
    exact hlt
  refine ⟨⟨hb.nonneg, htotal ▸ hb.le_total⟩, fun hone hsome => ?_⟩
  obtain ⟨p, hp, hne⟩ := hsome
  have hcount : (m.shared fun p => (m₁.thread p).incs).count ⟨p, hp⟩ ≠ 0 := hne
  exact hb.two_le (fun i => hone i i.isLt) hcount

/-- Two threads that increment twice each: three of their increments can be undone by one
store, and still two are left. -/
theorem race_bounds_overwritten :
    let cfg : Config := ⟨fun _ => [.increment, .increment, .exit], 0x20000⟩
    let calls : List ShellCall := [.create kernelName 1, .create kernelName 2]
    ∃ m, Reaches (step cfg) NoReset (boot .blank calls) m ∧ m.counter = 2 ∧
      totalIncs m = 4 ∧ 2 ≤ m.counter.toInt := by
  intro cfg calls
  obtain ⟨m, hm, hP⟩ := reaches_of_any (step cfg) NoReset (boot .blank calls)
    (execs 33 ++ ticks 1 ++ execs 2 ++ ticks 1 ++ execs 6 ++ ticks 2 ++ execs 4)
    (fun m => decide (m.counter = 2 ∧ totalIncs m = 4 ∧
      (∀ p < maxProcesses, (m.thread p).incs ≠ 1) ∧ (m.thread 1).incs ≠ 0))
    (by decide +kernel)
  obtain ⟨hcounter, htotal, hone, hsome⟩ := of_decide_eq_true hP
  have hlt : ∑ p ∈ Finset.range maxProcesses, incsSince (boot .blank calls) m p < 2 ^ 31 :=
    lt_of_eq_of_lt htotal (by decide)
  have hstart : Reaches (step cfg) Always (boot .blank calls) (boot .blank calls) := .refl
  have hbounds := race_bounds hstart rfl (fun _ _ => rfl) hm hlt
  exact ⟨m, hm, hcounter, htotal, hbounds.2 hone ⟨1, by decide, hsome⟩⟩

end SengOs.Kernel
