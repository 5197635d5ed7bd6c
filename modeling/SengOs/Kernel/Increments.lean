import Mathlib.Algebra.Order.BigOperators.Group.Finset
import SengOs.Kernel.Race

/-!
# The increments that a run can make

`Machine.work` counts the increments that the threads have made, have still to make, or will
have to make once the shell has created them. No transition adds to it. A thread of the command
`race` that has exited has made all of its own (`Racer`), and `myglobal = 0` comes before any of
them (`counting_of_reaches`).
-/

namespace SengOs.Kernel

open LostUpdate Transition

/-! ## Accounts -/

/-- The increments of a thread: those made, the one begun and those to come. -/
def Thread.work (th : Thread) : Nat := th.incs + th.begun + th.todo.count .increment

def Config.work (cfg : Config) (entry : Nat) : Nat := (cfg.code entry).count .increment

def ShellCall.work (cfg : Config) : ShellCall → Nat
  | .create _ entry => cfg.work entry
  | _ => 0

/-- The increments of a thread that `process_create` has still to start. -/
def ShellPc.work (cfg : Config) : ShellPc → Nat
  | .create c .scan => cfg.work c.entry
  | .create c (.push 0) => cfg.work c.entry
  | _ => 0

def Machine.work (cfg : Config) (m : Machine) : Nat :=
  ∑ p ∈ Finset.range maxProcesses, (m.thread p).work +
    (m.shell.pc.work cfg + (m.shell.todo.map (ShellCall.work cfg)).sum)

theorem ShellCall.work_start (cfg : Config) (call : ShellCall) :
    call.start.work cfg = call.work cfg := by
  cases call <;> rfl

section Accounts

variable {cfg : Config} {m m' : Machine} {p : Nat}

theorem Thread.work_goto (th : Thread) {pc : ThreadPc} (hpc : pc.region = th.pc.region) :
    Thread.work { th with pc := pc } = th.work := by
  unfold Thread.work Thread.begun
  rw [hpc]

/-- A thread moves its increments from one account to the next. -/
theorem ThreadStep.work_eq (h : ThreadStep m p m') : (m'.thread p).work = (m.thread p).work := by
  have hgoto {pc : ThreadPc} (hpc : pc.region = (m.thread p).pc.region) :
      Thread.work { m.thread p with pc := pc } = (m.thread p).work :=
    Thread.work_goto _ hpc
  cases h with
  | start hpc htodo =>
    rename_i call rest
    rw [Machine.setThread_self]
    unfold Thread.work Thread.begun
    rw [hpc, htodo]
    cases call with
    | increment => simp [ThreadCall.start, ThreadPc.region]; omega
    | lock | unlock | exit => simp [ThreadCall.start, ThreadPc.region]
  | blockFault | readFault => rfl
  | owner hpc | release hpc =>
    rw [Machine.setThread_self]
    unfold Thread.work Thread.begun
    rw [hpc]
    rfl
  | incStore hpc =>
    rw [Machine.setThread_self]
    unfold Thread.work Thread.begun
    rw [hpc]
    rfl
  | noWaiter hpc | notBlocked hpc | wake hpc =>
    rw [Machine.goto_self]
    unfold Thread.work Thread.begun
    rw [hpc]
    rfl
  | _ hpc =>
    rw [Machine.goto_self]
    exact hgoto (by rw [hpc]; rfl)

theorem sum_work_congr (h : ∀ q, (m'.thread q).work = (m.thread q).work) :
    ∑ q ∈ Finset.range maxProcesses, (m'.thread q).work =
      ∑ q ∈ Finset.range maxProcesses, (m.thread q).work :=
  Finset.sum_congr rfl fun q _ => h q

/-- The thread of a slot is replaced. -/
theorem sum_work_le {slot w : Nat} (hw : (m'.thread slot).work = w)
    (h : ∀ q, q ≠ slot → m'.thread q = m.thread q) :
    ∑ q ∈ Finset.range maxProcesses, (m'.thread q).work ≤
      ∑ q ∈ Finset.range maxProcesses, (m.thread q).work + w := by
  have hle (q : Nat) : (m'.thread q).work ≤ (m.thread q).work + if q = slot then w else 0 := by
    rcases eq_or_ne q slot with rfl | hne
    · rw [if_pos rfl, hw]
      exact Nat.le_add_left ..
    · rw [if_neg hne, h q hne]
      exact le_rfl
  calc ∑ q ∈ Finset.range maxProcesses, (m'.thread q).work
      ≤ ∑ q ∈ Finset.range maxProcesses, ((m.thread q).work + if q = slot then w else 0) :=
        Finset.sum_le_sum fun q _ => hle q
    _ ≤ ∑ q ∈ Finset.range maxProcesses, (m.thread q).work + w := by
        rw [Finset.sum_add_distrib, Finset.sum_ite_eq']
        exact Nat.add_le_add_left (by split <;> omega) _

theorem newThread_work (cfg : Config) (entry : Nat) :
    Thread.work { Thread.unused with todo := cfg.code entry, entry := some entry } =
      cfg.work entry := by
  show 0 + 0 + (cfg.code entry).count .increment = _
  rw [Nat.zero_add]
  rfl

/-- What the shell can do to the accounts. -/
theorem ShellStep.accounts (hs : ShellStep cfg m m') :
    (∃ call rest, m.shell.pc = .idle ∧ m.shell.todo = call :: rest ∧
      m' = { m with shell := ⟨call.start, rest⟩ }) ∨
    (m'.shell.todo = m.shell.todo ∧ m'.shell.pc ≠ .resetStore ∧
      ((m'.thread = m.thread ∧ m'.shell.pc.work cfg ≤ m.shell.pc.work cfg) ∨
        ∃ c, m.shell.pc = .create c (.push 0) ∧ m'.shell.pc.work cfg = 0 ∧
          m'.thread c.slot =
            { Thread.unused with todo := cfg.code c.entry, entry := some c.entry } ∧
          ∀ q, q ≠ c.slot → m'.thread q = m.thread q)) := by
  cases hs with
  | start hpc htodo => exact .inl ⟨_, _, hpc, htodo, rfl⟩
  | create hpc =>
    rename_i c stage
    obtain ⟨htodo, hidle⟩ := createStep_shell cfg m c stage
    refine .inr ⟨htodo, ?_, ?_⟩
    · intro hreset
      rcases hidle with heq | ⟨c', stage', heq⟩ <;> cases hreset.symm.trans heq
    rw [hpc]
    cases stage with
    | scan =>
      dsimp only [Machine.createStep]
      split
      · exact .inl ⟨rfl, Nat.zero_le _⟩
      · split
        · exact .inl ⟨rfl, le_rfl⟩
        · exact .inl ⟨rfl, le_rfl⟩
    | push k =>
      have hwork : (m.createStep cfg c (.push k)).shell.pc.work cfg = 0 := by
        show ShellPc.work cfg (.create c (if k + 1 < frameWords then .push (k + 1) else .pid)) = 0
        split <;> rfl
      rw [hwork]
      rcases Nat.eq_zero_or_pos k with rfl | hk
      · exact .inr ⟨c, rfl, rfl, Function.update_self .., fun q hq => Function.update_of_ne hq ..⟩
      · exact .inl ⟨if_neg hk.ne', Nat.zero_le _⟩
    | pid | state | esp | stack | name => exact .inl ⟨rfl, Nat.zero_le _⟩
  | killTest | noSuchProcess | kill | initLocked | initOwner | initWaiters | reset =>
    refine .inr ⟨rfl, ?_, .inl ⟨rfl, Nat.zero_le _⟩⟩
    intro hreset
    cases hreset

theorem ShellStep.work_le (hs : ShellStep cfg m m') : m'.work cfg ≤ m.work cfg := by
  unfold Machine.work
  rcases hs.accounts with ⟨call, rest, hpc, htodo, rfl⟩ | ⟨htodo, -, hrest⟩
  · rw [hpc, htodo, List.map_cons, List.sum_cons]
    show _ + (call.start.work cfg + _) ≤ _
    rw [ShellCall.work_start]
    exact Nat.add_le_add_left (Nat.le_add_left _ _) _
  · rw [htodo]
    rcases hrest with ⟨hthread, hwork⟩ | ⟨c, hpc, hwork, hnew, hne⟩
    · rw [hthread]
      exact Nat.add_le_add_left (Nat.add_le_add_right hwork _) _
    · have hsum := sum_work_le (hnew ▸ newThread_work cfg c.entry) hne
      rw [hpc, hwork]
      show _ + (0 + _) ≤ _ + (cfg.work c.entry + _)
      omega

theorem Machine.work_congr (hshell : m'.shell = m.shell)
    (h : ∀ q, (m'.thread q).work = (m.thread q).work) : m'.work cfg = m.work cfg := by
  unfold Machine.work
  rw [hshell, sum_work_congr h]

theorem work_pickAndSwitch (cfg : Config) (m : Machine) (out : Frame) :
    (m.pickAndSwitch cfg out).work cfg = m.work cfg := by
  rcases pickAndSwitch_cases cfg m out with ⟨-, heq⟩ | ⟨next, -, heq⟩
  · rw [heq]
  · rw [heq]
    exact Machine.work_congr rfl fun _ => rfl

theorem work_goto_eq {pc : ThreadPc} (hpc : pc.region = (m.thread p).pc.region) (q : Nat) :
    ((m.goto p pc).thread q).work = (m.thread q).work := by
  rcases eq_or_ne q p with rfl | hne
  · rw [Machine.goto_self]
    exact Thread.work_goto _ hpc
  · rw [Machine.goto_ne hne]

/-- No transition adds to the increments of a run. -/
theorem work_le_of_step {a : Act} (hs : step cfg m a = some m') : m'.work cfg ≤ m.work cfg := by
  obtain ⟨-, hstep⟩ := step_cases hs
  cases hstep with
  | thread hcur hs =>
    refine (Machine.work_congr hs.shell_eq fun q => ?_).le
    rcases eq_or_ne q m.current with rfl | hne
    · exact hs.work_eq
    · rw [hs.thread_ne hne]
  | yield hcur hpc =>
    have hregion : (ThreadPc.lockXchg true).region = (m.thread m.current).pc.region := by
      rw [hpc]
      rfl
    have heq : (m.goto m.current (.lockXchg true)).work cfg = m.work cfg :=
      Machine.work_congr rfl (work_goto_eq hregion)
    rw [work_pickAndSwitch, heq]
  | shell hcur hs => exact hs.work_le
  | tick => rw [work_pickAndSwitch]
  | work =>
    rename_i words
    have heq : Machine.work cfg { m with
        stackMem := Function.update m.stackMem m.current words } = m.work cfg :=
      Machine.work_congr rfl fun _ => rfl
    rw [heq]

theorem work_le_of_reaches {ok : Machine → Act → Prop} (h : Reaches (step cfg) ok m m') :
    m'.work cfg ≤ m.work cfg :=
  h.invariant (P := fun m' => m'.work cfg ≤ m.work cfg) le_rfl
    fun _ _ _ h _ hs => (work_le_of_step hs).trans h

end Accounts

/-! ## A thread with a number of increments -/

/-- A thread that increments `n` times without the mutex and exits. -/
def Racer (n : Nat) (th : Thread) : Prop :=
  (∃ k, th.todo = List.replicate k .increment ++ [.exit] ∧ th.incs + th.begun + k = n ∧
    (th.pc = .idle ∨ th.pc.region = .incrementing)) ∨
  th.todo = [] ∧ th.incs = n ∧ th.pc.region = .ending

section Racer

variable {cfg : Config} {m m' : Machine} {p n entry : Nat} {th : Thread}

theorem Racer.new (hcode : cfg.code entry = List.replicate n .increment ++ [.exit]) :
    Racer n { Thread.unused with todo := cfg.code entry, entry := some entry } :=
  .inl ⟨n, hcode, Nat.zero_add n, .inl rfl⟩

/-- A racer is in one of the calls of its program. -/
theorem Racer.cases (h : Racer n th) : th.pc = .idle ∨ th.pc.region = .incrementing ∨
    th.pc.region = .ending := by
  rcases h with ⟨k, -, -, hpc | hpc⟩ | ⟨-, -, hpc⟩
  · exact .inl hpc
  · exact .inr (.inl hpc)
  · exact .inr (.inr hpc)

theorem Racer.finished (h : Racer n th) (hpc : th.pc = .halted) : th.incs = n := by
  rcases h with ⟨k, -, -, hidle | hregion⟩ | ⟨-, hincs, -⟩
  · rw [hpc] at hidle
    cases hidle
  · rw [hpc] at hregion
    cases hregion
  · exact hincs

/-- The first part of the calls of a racer. -/
theorem Racer.start (h : Racer n th) (hpc : th.pc = .idle) {call : ThreadCall}
    {rest : List ThreadCall} (htodo : th.todo = call :: rest) :
    Racer n { th with pc := call.start, todo := rest } := by
  rcases h with ⟨k, hk, hincs, -⟩ | ⟨hnil, -, -⟩
  · have hbegun : th.begun = 0 := by
      rw [Thread.begun, hpc]
      rfl
    cases k with
    | zero =>
      cases htodo.symm.trans hk
      exact .inr ⟨rfl, by rwa [hbegun] at hincs, rfl⟩
    | succ k =>
      cases htodo.symm.trans hk
      refine .inl ⟨k, rfl, ?_, .inr rfl⟩
      show th.incs + 1 + k = n
      omega
  · rw [hnil] at htodo
    cases htodo

theorem Racer.goto (h : Racer n th) {pc : ThreadPc} (hidle : th.pc ≠ .idle)
    (hpc : pc.region = th.pc.region) : Racer n { th with pc := pc } := by
  rcases h with ⟨k, htodo, hincs, hregion⟩ | ⟨htodo, hincs, hregion⟩
  · refine .inl ⟨k, htodo, ?_, .inr (hpc.trans (hregion.resolve_left hidle))⟩
    unfold Thread.begun at hincs ⊢
    dsimp only
    rwa [hpc]
  · exact .inr ⟨htodo, hincs, hpc.trans hregion⟩

theorem Racer.stored (h : Racer n th) (hpc : th.pc.region = .incrementing) :
    Racer n { th with pc := .idle, incs := th.incs + 1 } := by
  rcases h with ⟨k, htodo, hincs, -⟩ | ⟨-, -, hregion⟩
  · refine .inl ⟨k, htodo, ?_, .inl rfl⟩
    unfold Thread.begun at hincs
    rw [hpc] at hincs
    exact hincs
  · rw [hpc] at hregion
    cases hregion

theorem Racer.thread (h : Racer n (m.thread p)) (hs : ThreadStep m p m') :
    Racer n (m'.thread p) := by
  have hcases := h.cases
  cases hs with
  | start hpc htodo =>
    rw [Machine.setThread_self]
    exact h.start hpc htodo
  | blockFault | readFault => exact h
  | incLoad hpc =>
    rw [Machine.goto_self]
    exact h.goto (by rw [hpc]; exact nofun) (by rw [hpc]; rfl)
  | incStore hpc =>
    rw [Machine.setThread_self]
    exact h.stored (by rw [hpc]; rfl)
  | exit hpc =>
    rw [Machine.goto_self]
    exact h.goto (by rw [hpc]; exact nofun) (by rw [hpc]; rfl)
  | _ hpc =>
    rw [hpc] at hcases
    rcases hcases with heq | heq | heq <;> cases heq

/-- Every thread with the entry point is a racer. -/
def Racers (n entry : Nat) (m : Machine) : Prop :=
  ∀ p, (m.thread p).entry = some entry → Racer n (m.thread p)

theorem ThreadStep.entry_eq (hs : ThreadStep m p m') :
    (m'.thread p).entry = (m.thread p).entry := by
  cases hs with
  | start | owner | release | incStore => rw [Machine.setThread_self]
  | blockFault | readFault => rfl
  | _ => rw [Machine.goto_self]

theorem racers_of_reaches (hcode : cfg.code entry = List.replicate n .increment ++ [.exit])
    {ok : Machine → Act → Prop} {m₀ : Machine} {calls : List ShellCall}
    (h : Reaches (step cfg) ok (boot m₀ calls) m) : Racers n entry m := by
  have hinv : Sound m ∧ Racers n entry m :=
    h.invariant (P := fun m => Sound m ∧ Racers n entry m) ⟨boot_sound m₀ calls, nofun⟩ ?_
  · exact hinv.2
  intro m a m' hm _ hs
  refine ⟨hm.1.step hs, (step_invariant (I := fun m => Sound m ∧ Racers n entry m)
    ?_ ?_ ?_ ?_ ?_ hm hs).2⟩
  · intro m' h hfault hcur hs
    refine ⟨h.1.thread hfault hcur hs, ?_⟩
    refine forall_thread (P := fun _ th => th.entry = some entry → Racer n th)
      (fun q => hs.thread_ne) ?_ fun q _ => h.2 q
    rw [hs.entry_eq]
    exact fun he => (h.2 _ he).thread hs
  · intro h hfault _ hpc
    refine ⟨h.1.yield hfault, fun p he => ?_⟩
    rcases eq_or_ne p m.current with rfl | hne
    · rw [Machine.goto_self] at he
      rcases (h.2 _ he).cases with hidle | hregion | hregion
      · rw [hpc] at hidle
        cases hidle
      · rw [hpc] at hregion
        cases hregion
      · rw [hpc] at hregion
        cases hregion
    · rw [Machine.goto_ne hne] at he ⊢
      exact h.2 p he
  · intro m' h _ _ hs
    refine ⟨h.1.shell hs, fun p he => ?_⟩
    rcases h.1.shell_thread hs p with heq | ⟨-, e, heq⟩
    · rw [heq] at he ⊢
      exact h.2 p he
    · rw [heq] at he ⊢
      cases he
      exact .new hcode
  · exact fun _ _ _ h hfault hpick => ⟨h.1.switch hfault hpick, h.2⟩
  · exact fun words h hfault => ⟨h.1.work hfault words, h.2⟩

end Racer

/-! ## The reset -/

/-- No thread has made or begun an increment, or has one to come. -/
structure Fresh (cfg : Config) (m : Machine) : Prop where
  thread : ∀ p, (m.thread p).work = 0
  creation : m.shell.pc.work cfg = 0

/-- The shell has `myglobal = 0` and the calls `after` before it and nothing has been counted,
or it has made that store and the number is shared since then. -/
structure Counting (cfg : Config) (after : List ShellCall) (m : Machine) : Prop where
  sound : Sound m
  stage : (∃ l, m.shell.todo = l ++ .resetCounter :: after ∧ (∀ call ∈ l, call.work cfg = 0) ∧
      Fresh cfg m) ∨
    (m.shell.pc = .resetStore ∧ m.shell.todo = after ∧ Fresh cfg m) ∨
    (Racing (fun _ => 0) m ∧ m.shell.pc ≠ .resetStore ∧ .resetCounter ∉ m.shell.todo)

section Reset

variable {cfg : Config} {m m' : Machine} {after : List ShellCall}

theorem Fresh.congr (h : Fresh cfg m) (hshell : m'.shell = m.shell)
    (hwork : ∀ q, (m'.thread q).work = (m.thread q).work) : Fresh cfg m' :=
  ⟨fun q => (hwork q).trans (h.thread q), hshell ▸ h.creation⟩

/-- Without work there is nothing that has been loaded. -/
theorem Thread.loaded_of_work {th : Thread} (h : th.work = 0) : th.pc.loaded = none := by
  have hbegun : th.begun = 0 := by
    unfold Thread.work at h
    omega
  cases hpc : th.pc with
  | incStore v =>
    rw [Thread.begun, hpc] at hbegun
    cases hbegun
  | _ => rfl

/-- The store `myglobal = 0` starts the count. -/
theorem Fresh.racing (h : Fresh cfg m) (hsound : Sound m) (hzero : m.counter = 0) :
    Racing (fun _ => 0) m := by
  have hshared : m.shared (fun _ => 0) = Shared.zero := by
    unfold Machine.shared Shared.zero
    congr 1
    · rw [hzero]
      rfl
    · funext p
      exact Thread.loaded_of_work (h.thread p)
    · funext p
      have hwork := h.thread p
      unfold Thread.work at hwork
      omega
  exact ⟨hsound, fun _ => Nat.zero_le _, fun _ => hshared ▸ bounded_zero⟩

/-- A transition that leaves the shell where it is. -/
theorem Counting.other (h : Counting cfg after m) {a : Act} (hs : step cfg m a = some m')
    (hshell : m'.shell = m.shell) (hok : a.isExec = true → m.current ≠ 0)
    (hwork : ∀ q, (m'.thread q).work = (m.thread q).work) : Counting cfg after m' := by
  refine ⟨h.sound.step hs, ?_⟩
  rw [hshell]
  rcases h.stage with ⟨l, htodo, hl, hfresh⟩ | ⟨hpc, htodo, hfresh⟩ | ⟨hracing, hpc, hnone⟩
  · exact .inl ⟨l, htodo, hl, hfresh.congr hshell hwork⟩
  · exact .inr (.inl ⟨hpc, htodo, hfresh.congr hshell hwork⟩)
  · exact .inr (.inr ⟨hracing.step (fun hexec hcur => absurd hcur (hok hexec)) hs, hpc, hnone⟩)

/-- The shell goes on while nothing has been counted. -/
theorem Fresh.shell (h : Fresh cfg m) (hs : ShellStep cfg m m')
    (hcall : ∀ call rest, m.shell.todo = call :: rest → call.work cfg = 0) : Fresh cfg m' := by
  rcases hs.accounts with ⟨call, rest, -, htodo, rfl⟩ | ⟨-, -, hrest⟩
  · exact ⟨h.thread, (call.work_start cfg).trans (hcall call rest htodo)⟩
  · rcases hrest with ⟨hthread, hwork⟩ | ⟨c, hpc, hwork, hnew, hne⟩
    · rw [h.creation] at hwork
      exact ⟨fun q => hthread ▸ h.thread q, Nat.le_zero.mp hwork⟩
    · have hentry := h.creation
      rw [hpc] at hentry
      refine ⟨fun q => ?_, hwork⟩
      rcases eq_or_ne q c.slot with rfl | hq
      · rw [hnew, newThread_work]
        exact hentry
      · rw [hne q hq]
        exact h.thread q

theorem Counting.shellStep (h : Counting cfg after m) (hafter : .resetCounter ∉ after)
    {out : Frame} (hs : step cfg m (.exec out) = some m')
    (hshell : ShellStep cfg m m') : Counting cfg after m' := by
  have hsound := h.sound.step hs
  refine ⟨hsound, ?_⟩
  rcases h.stage with ⟨l, htodo, hl, hfresh⟩ | ⟨hpc, htodo, hfresh⟩ | ⟨hracing, hpc, hnone⟩
  · have hfresh' : Fresh cfg m' := by
      apply hfresh.shell hshell
      intro call rest hcons
      cases l with
      | nil =>
        cases hcons.symm.trans htodo
        rfl
      | cons call' l =>
        cases hcons.symm.trans htodo
        exact hl call List.mem_cons_self
    rcases hshell.accounts with ⟨call, rest, -, hcons, rfl⟩ | ⟨hsame, -, -⟩
    · cases l with
      | nil =>
        cases hcons.symm.trans htodo
        exact .inr (.inl ⟨rfl, rfl, hfresh'⟩)
      | cons call' l =>
        cases hcons.symm.trans htodo
        exact .inl ⟨l, rfl, fun c hc => hl c (List.mem_cons_of_mem _ hc), hfresh'⟩
    · exact .inl ⟨l, hsame.trans htodo, hl, hfresh'⟩
  · have hreset : m' = { m with counter := 0 }.shellGoto .idle := by
      cases hshell with
      | reset => rfl
      | start hpc' | create hpc' | noSuchProcess hpc' | killTest hpc' | kill hpc'
      | initLocked hpc' | initOwner hpc' | initWaiters hpc' =>
        rw [hpc] at hpc'
        cases hpc'
    subst hreset
    have hracing : Racing (fun _ => 0) ({ m with counter := 0 }.shellGoto .idle) :=
      Fresh.racing (show Fresh cfg _ from ⟨hfresh.thread, rfl⟩) hsound rfl
    refine .inr (.inr ⟨hracing, nofun, ?_⟩)
    show .resetCounter ∉ m.shell.todo
    rwa [htodo]
  · refine .inr (.inr ⟨hracing.step (fun _ _ => hpc) hs, ?_⟩)
    rcases hshell.accounts with ⟨call, rest, -, htodo, rfl⟩ | ⟨hsame, hne, -⟩
    · rw [htodo, List.mem_cons, not_or] at hnone
      refine ⟨?_, hnone.2⟩
      cases call with
      | resetCounter => exact absurd rfl hnone.1
      | _ => exact nofun
    · exact ⟨hne, hsame ▸ hnone⟩

theorem Counting.step (h : Counting cfg after m) (hafter : .resetCounter ∉ after) {a : Act}
    (hs : step cfg m a = some m') : Counting cfg after m' := by
  have hpick (m₁ : Machine) (out : Frame) : (m₁.pickAndSwitch cfg out).shell = m₁.shell ∧
      (m₁.pickAndSwitch cfg out).thread = m₁.thread := by
    rcases pickAndSwitch_cases cfg m₁ out with ⟨-, heq⟩ | ⟨next, -, heq⟩
    · rw [heq]
      exact ⟨rfl, rfl⟩
    · rw [heq]
      exact ⟨rfl, rfl⟩
  obtain ⟨-, hstep⟩ := step_cases hs
  cases hstep with
  | thread hcur hthread =>
    refine h.other hs hthread.shell_eq (fun _ => hcur) fun q => ?_
    rcases eq_or_ne q m.current with rfl | hne
    · exact hthread.work_eq
    · rw [hthread.thread_ne hne]
  | yield hcur hpc =>
    refine h.other hs (hpick _ _).1 (fun _ => hcur) fun q => ?_
    rw [(hpick _ _).2]
    exact work_goto_eq (by rw [hpc]; rfl) q
  | shell _ hshell => exact h.shellStep hafter hs hshell
  | tick => exact h.other hs (hpick _ _).1 nofun fun q => by rw [(hpick _ _).2]
  | work => exact h.other hs rfl nofun fun _ => rfl

/-- Calls that create no counting thread, the reset, and other calls: in each state of such a run
nothing has been counted yet, or the number is shared by all that have been. -/
theorem counting_of_reaches {before : List ShellCall} (hbefore : ∀ call ∈ before, call.work cfg = 0)
    (hafter : .resetCounter ∉ after) {ok : Machine → Act → Prop} {m₀ : Machine}
    (h : Reaches (SengOs.Kernel.step cfg) ok (boot m₀ (before ++ .resetCounter :: after)) m) :
    Counting cfg after m := by
  have hfresh : Fresh cfg (boot m₀ (before ++ .resetCounter :: after)) := ⟨fun _ => rfl, rfl⟩
  exact h.invariant ⟨boot_sound m₀ _, .inl ⟨before, rfl, hbefore, hfresh⟩⟩
    fun _ _ _ h _ hs => h.step hafter hs

end Reset

end SengOs.Kernel
