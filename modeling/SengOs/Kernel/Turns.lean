import SengOs.Kernel.Context
import SengOs.Lib.RoundRobin

/-!
# Runs that can be arranged

The ticks can come so that any runnable process is next (`exists_turn`), and the shell can go
through a `process_create` without one (`exists_create`). Neither touches what the other
processes work on. These runs show that an outcome is possible, where the invariants show what
is not.
-/

namespace SengOs.Kernel

open RoundRobin Transition

/-- The process is READY, or it is the current one and RUNNING. -/
def Runnable (m : Machine) (p : Nat) : Prop :=
  (m.table p).state = .ready ∨ p = m.current ∧ (m.table p).state = .running

/-- The machine `m'` is ahead of `m` by ticks: what the processes work on is the same. -/
structure Rotated (m m' : Machine) : Prop where
  mutex : m'.mutex = m.mutex
  counter : m'.counter = m.counter
  shell : m'.shell = m.shell
  thread : m'.thread = m.thread
  runnable : ∀ p, Runnable m p → Runnable m' p

theorem Rotated.refl (m : Machine) : Rotated m m := ⟨rfl, rfl, rfl, rfl, fun _ => id⟩

theorem Rotated.trans {m m' m'' : Machine} (h : Rotated m m') (h' : Rotated m' m'') :
    Rotated m m'' :=
  ⟨h'.mutex.trans h.mutex, h'.counter.trans h.counter, h'.shell.trans h.shell,
    h'.thread.trans h.thread, fun p hp => h'.runnable p (h.runnable p hp)⟩

/-! ## Turns -/

section Turns

variable {cfg : Config} {m : Machine} {q next : Nat}

theorem rotated_switchTo (cfg : Config) (m : Machine) (out : Frame) (next : Nat) :
    Rotated m (m.switchTo cfg out next) where
  mutex := rfl
  counter := rfl
  shell := rfl
  thread := rfl
  runnable p hp := by
    unfold Runnable
    rw [switchTo_state]
    rcases eq_or_ne p next with rfl | hne
    · rw [if_pos rfl]
      exact .inr ⟨rfl, rfl⟩
    · rw [if_neg hne]
      rcases hp with hready | ⟨rfl, hrunning⟩
      · split
        · exact .inl rfl
        · exact .inl hready
      · rw [if_pos ⟨rfl, hrunning⟩]
        exact .inl rfl

/-- A tick switches without a fault when no creation is between its stores. -/
theorem tick_switch (hcontexts : Contexts cfg m) (hsound : Sound m) (hfault : m.fault = false)
    (hidle : m.shell.pc = .idle) (hpick : pickNext m.table m.current = some next) (out : Frame) :
    step cfg m (.tick out) = some (m.switchTo cfg out next) ∧
      (m.switchTo cfg out next).fault = false := by
  obtain ⟨hlt, hready⟩ := pickNext_some hpick
  have hne := pickNext_ne hsound.current_lt hpick
  have hhalf : ¬HalfCreated m next := by
    rintro ⟨c, hpc, -⟩
    rw [hidle] at hpc
    cases hpc
  have hframe := (hcontexts.resumable next hlt (by rw [hready]; decide) hhalf).frame hne
  refine ⟨?_, (switchTo_fault hne).mpr hframe⟩
  simp only [step, hfault, Bool.false_eq_true, if_false, Machine.pickAndSwitch, hpick]

/-- Every runnable process gets the processor by ticks alone. -/
theorem exists_turn (hcontexts : Contexts cfg m) (hsound : Sound m) (hfault : m.fault = false)
    (hidle : m.shell.pc = .idle) (hq : q < maxProcesses) (hrun : Runnable m q) :
    ∃ m', Reaches (step cfg) Always m m' ∧ Rotated m m' ∧ m'.fault = false ∧
      m'.current = q := by
  generalize hd : ahead maxProcesses m.current q = d
  induction d using Nat.strongRecOn generalizing m with
  | ind d ih =>
    rcases eq_or_ne q m.current with rfl | hne
    · exact ⟨m, .refl, .refl m, hfault, rfl⟩
    have hready : (m.table q).state = .ready := hrun.resolve_right fun h => hne h.1
    obtain ⟨next, hpick⟩ := exists_pickNext hsound.current_lt hq hne hready
    obtain ⟨hstep, hfault'⟩ := tick_switch hcontexts hsound hfault hidle hpick (newFrame 0)
    have hrot := rotated_switchTo cfg m (newFrame 0) next
    have hreach : Reaches (step cfg) Always m (m.switchTo cfg (newFrame 0) next) :=
      Reaches.refl.tail trivial hstep
    rcases eq_or_ne q next with rfl | hnext
    · exact ⟨_, hreach, hrot, hfault', rfl⟩
    · have hcloser : ahead maxProcesses next q < d :=
        hd ▸ ahead_lt_of_find hsound.current_lt hq hpick (decide_eq_true hready) hne hnext
      obtain ⟨m', hrest, hrot', hfault'', hcur⟩ := ih _ hcloser
        (hcontexts.switch hsound hfault hpick) (hsound.switch hfault hpick) hfault' hidle
        (hrot.runnable q hrun) rfl
      exact ⟨m', hreach.trans hrest, hrot.trans hrot', hfault'', hcur⟩

end Turns

/-! ## Creations -/

/-- The thread that a creation starts. -/
def Config.newThread (cfg : Config) (entry : Nat) : Thread :=
  { Thread.unused with todo := cfg.code entry, entry := some entry }

/-- The shell runs, at `pc`, with the calls `todo` behind. -/
structure ShellAt (m : Machine) (pc : ShellPc) (todo : List ShellCall) : Prop where
  fault : m.fault = false
  current : m.current = 0
  shell : m.shell = ⟨pc, todo⟩

/-- What the stores of `process_create` leave: a READY process in the slot. -/
structure Created (cfg : Config) (m m' : Machine) (entry slot : Nat) : Prop where
  counter : m'.counter = m.counter
  thread : m'.thread = Function.update m.thread slot (cfg.newThread entry)
  state : ∀ q, (m'.table q).state = if q = slot then .ready else (m.table q).state

section Creations

variable (cfg : Config) {m : Machine} {c : Creation} {stage : CreateStage}
  {todo : List ShellCall} {slot : Nat}

theorem ShellAt.exec {pc : ShellPc} (h : ShellAt m pc todo) (out : Frame) :
    step cfg m (.exec out) = m.shellStep cfg := by
  simp only [step, h.fault, h.current, Bool.false_eq_true, if_false, if_true]

theorem ShellAt.create (h : ShellAt m (.create c stage) todo) :
    Reaches (step cfg) Always m (m.createStep cfg c stage) := by
  have hstep : step cfg m (.exec (newFrame 0)) = some (m.createStep cfg c stage) := by
    rw [h.exec cfg, Machine.shellStep, h.shell]
  exact Reaches.refl.tail trivial hstep

/-- The scan comes to the first free slot. -/
theorem reaches_scan (h : ShellAt m (.create c .scan) todo) {n : Nat} (hn : c.slot + n = slot)
    (hlt : slot < maxProcesses)
    (hused : ∀ q, c.slot ≤ q → q < slot → (m.table q).state ≠ .free)
    (hfree : (m.table slot).state = .free) :
    Reaches (step cfg) Always m (m.shellGoto (.create { c with slot := slot } (.push 0))) := by
  induction n generalizing m c with
  | zero =>
    have hroom : ¬c.slot ≥ maxProcesses := by omega
    obtain rfl : c.slot = slot := hn
    have hstep := h.create cfg
    rw [Machine.createStep, if_neg hroom, if_pos hfree] at hstep
    exact hstep
  | succ n ih =>
    have hroom : ¬c.slot ≥ maxProcesses := by omega
    have hstep := h.create cfg
    rw [Machine.createStep, if_neg hroom, if_neg (hused c.slot le_rfl (by omega))] at hstep
    have hnext : ShellAt (m.shellGoto (.create { c with slot := c.slot + 1 } .scan))
        (.create { c with slot := c.slot + 1 } .scan) todo :=
      ⟨h.fault, h.current, congrArg (Shell.mk _) (congrArg Shell.todo h.shell)⟩
    refine hstep.trans (ih (c := { c with slot := c.slot + 1 }) hnext ?_
      (fun q hq => hused q (Nat.le_of_succ_le hq)) hfree)
    show c.slot + 1 + n = slot
    omega

/-- The pushes, from the `k`-th on, of which the first starts the thread. -/
theorem exists_push {k n : Nat} (h : ShellAt m (.create c (.push k)) todo)
    (hn : k + n + 1 = frameWords) :
    ∃ m', Reaches (step cfg) Always m m' ∧ ShellAt m' (.create c .pid) todo ∧
      m'.counter = m.counter ∧ m'.table = m.table ∧
      m'.thread = if k = 0 then Function.update m.thread c.slot (cfg.newThread c.entry)
        else m.thread := by
  have hstep := h.create cfg
  induction n generalizing m k with
  | zero =>
    have hlast : ¬k + 1 < frameWords := by omega
    refine ⟨_, hstep, ⟨h.fault, h.current, ?_⟩, rfl, rfl, rfl⟩
    show Shell.mk (.create c (if k + 1 < frameWords then .push (k + 1) else .pid)) m.shell.todo = _
    rw [if_neg hlast, h.shell]
  | succ n ih =>
    have hmore : k + 1 < frameWords := by omega
    have hnext : ShellAt (m.createStep cfg c (.push k)) (.create c (.push (k + 1))) todo := by
      refine ⟨h.fault, h.current, ?_⟩
      show Shell.mk (.create c (if k + 1 < frameWords then .push (k + 1) else .pid))
        m.shell.todo = _
      rw [if_pos hmore, h.shell]
    obtain ⟨m', hrest, hat, hcounter, htable, hthread⟩ := ih hnext (by omega) (hnext.create cfg)
    refine ⟨m', hstep.trans hrest, hat, hcounter, htable, ?_⟩
    rw [hthread, if_neg (Nat.succ_ne_zero k)]
    rfl

/-- A store of `process_create` behind the pushes. -/
theorem ShellAt.store (h : ShellAt m (.create c stage) todo) (pc : ShellPc)
    (hpc : (m.createStep cfg c stage).shell.pc = pc)
    (hfault : (m.createStep cfg c stage).fault = m.fault)
    (hcur : (m.createStep cfg c stage).current = m.current) :
    ShellAt (m.createStep cfg c stage) pc todo := by
  refine ⟨hfault.trans h.fault, hcur.trans h.current, ?_⟩
  have htodo : (m.createStep cfg c stage).shell.todo = todo :=
    (createStep_shell cfg m c stage).1.trans (congrArg Shell.todo h.shell)
  show Shell.mk (m.createStep cfg c stage).shell.pc (m.createStep cfg c stage).shell.todo = _
  rw [hpc, htodo]

/-- Of the stores behind the pushes, one publishes the process. -/
theorem createStep_state (cfg : Config) (m : Machine) (c : Creation) (q : Nat) :
    (∀ stage, stage = .pid ∨ stage = .esp ∨ stage = .stack ∨ stage = .name →
      ((m.createStep cfg c stage).table q).state = (m.table q).state) ∧
    ((m.createStep cfg c .state).table q).state =
      if q = c.slot then .ready else (m.table q).state := by
  refine ⟨fun stage hstage => ?_, setState_state ..⟩
  rcases hstage with rfl | rfl | rfl | rfl
  · exact storePcb_field Pcb.state (by intro; rfl) q
  · exact setEsp_state ..
  · exact storePcb_field Pcb.state (by intro; rfl) q
  · exact storePcb_field Pcb.state (by intro; rfl) q

theorem exists_stores (h : ShellAt m (.create c .pid) todo) :
    ∃ m', Reaches (step cfg) Always m m' ∧ ShellAt m' .idle todo ∧ m'.counter = m.counter ∧
      m'.thread = m.thread ∧
      ∀ q, (m'.table q).state = if q = c.slot then .ready else (m.table q).state := by
  have h₁ := h.store cfg (.create c .state) rfl rfl rfl
  have h₂ := h₁.store cfg (.create c .esp) rfl rfl rfl
  have h₃ := h₂.store cfg (.create c .stack) rfl rfl rfl
  have h₄ := h₃.store cfg (.create c .name) rfl rfl rfl
  have h₅ := h₄.store cfg .idle rfl rfl rfl
  refine ⟨_, (h.create cfg).trans ((h₁.create cfg).trans ((h₂.create cfg).trans
    ((h₃.create cfg).trans (h₄.create cfg)))), h₅, rfl, rfl, fun q => ?_⟩
  rw [(createStep_state cfg _ c q).1 .name (by simp),
    (createStep_state cfg _ c q).1 .stack (by simp), (createStep_state cfg _ c q).1 .esp (by simp),
    (createStep_state cfg _ c q).2, (createStep_state cfg _ c q).1 .pid (by simp)]

/-- The shell creates a process in the first free slot. -/
theorem exists_create {name : CString} {entry : Nat}
    (h : ShellAt m .idle (.create name entry :: todo)) (hpos : 1 ≤ slot)
    (hlt : slot < maxProcesses) (hused : ∀ q, 1 ≤ q → q < slot → (m.table q).state ≠ .free)
    (hfree : (m.table slot).state = .free) :
    ∃ m', Reaches (step cfg) Always m m' ∧ ShellAt m' .idle todo ∧
      Created cfg m m' entry slot := by
  have hstep : step cfg m (.exec (newFrame 0)) =
      some { m with shell := ⟨(ShellCall.create name entry).start, todo⟩ } := by
    rw [h.exec cfg, Machine.shellStep, h.shell]
  have hscan : ShellAt { m with shell := ⟨(ShellCall.create name entry).start, todo⟩ }
      (.create ⟨name, entry, 1⟩ .scan) todo := ⟨h.fault, h.current, rfl⟩
  have hpush : ShellAt ({ m with shell := ⟨(ShellCall.create name entry).start, todo⟩ }.shellGoto
      (.create ⟨name, entry, slot⟩ (.push 0))) (.create ⟨name, entry, slot⟩ (.push 0)) todo :=
    ⟨h.fault, h.current, rfl⟩
  obtain ⟨m₁, hrun, hat, hcounter, htable, hthread⟩ :=
    exists_push cfg (n := frameWords - 1) hpush rfl
  obtain ⟨m₂, hrun', hidle, hcounter', hthread', hstate⟩ := exists_stores cfg hat
  refine ⟨m₂, ?_, hidle, hcounter'.trans hcounter, hthread'.trans hthread, fun q => ?_⟩
  · refine (Reaches.refl.tail trivial hstep).trans (Reaches.trans ?_ (hrun.trans hrun'))
    exact reaches_scan cfg hscan (n := slot - 1) (by show 1 + (slot - 1) = slot; omega) hlt hused
      hfree
  · rw [hstate, htable]
    rfl

end Creations

end SengOs.Kernel
