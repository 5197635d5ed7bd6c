import SengOs.Kernel.Increments
import SengOs.Kernel.Turns

/-!
# What two unsynchronised threads can leave

Two threads increment `myglobal` `n` times each, after a reset and without the mutex. When both
have exited it is between 2 and `2 * n` (`value_bounds`), and every such number is the end of
some run (`exists_run`): `Plays` lets the machine follow any schedule of the shared number.
-/

namespace SengOs.Kernel

open CString LostUpdate Transition

/-! ## No other value -/

section Bounds

variable {cfg : Config} {m m₀ : Machine} {before after : List ShellCall} {n p q ea eb : Nat}

theorem boot_work (hbefore : ∀ call ∈ before, call.work cfg = 0) :
    (boot m₀ (before ++ .resetCounter :: after)).work cfg =
      (after.map (ShellCall.work cfg)).sum := by
  have hzero : (before.map (ShellCall.work cfg)).sum = 0 := by
    apply List.sum_eq_zero
    intro w hw
    obtain ⟨call, hcall, rfl⟩ := List.mem_map.mp hw
    exact hbefore call hcall
  unfold Machine.work
  rw [show ∑ p ∈ Finset.range maxProcesses,
      ((boot m₀ (before ++ .resetCounter :: after)).thread p).work = 0 from
    Finset.sum_eq_zero fun _ _ => rfl]
  show 0 + (0 + ((before ++ ShellCall.resetCounter :: after).map (ShellCall.work cfg)).sum) = _
  rw [List.map_append, List.sum_append, hzero, List.map_cons, List.sum_cons, Nat.zero_add,
    Nat.zero_add, Nat.zero_add]
  exact Nat.zero_add _

/-- The two racers have made all the increments of the run. -/
theorem incs_of_finished (hp : p < maxProcesses) (hq : q < maxProcesses) (hpq : p ≠ q)
    (hpn : (m.thread p).incs = n) (hqn : (m.thread q).incs = n) (hwork : m.work cfg ≤ 2 * n)
    (i : Nat) (hi : i < maxProcesses) (hip : i ≠ p) (hiq : i ≠ q) : (m.thread i).incs = 0 := by
  have hle (j : Nat) : (m.thread j).incs ≤ (m.thread j).work := by
    unfold Thread.work
    omega
  have hsum : ∑ j ∈ Finset.range maxProcesses, (m.thread j).incs ≤ 2 * n :=
    (Finset.sum_le_sum fun j _ => hle j).trans ((Nat.le_add_right _ _).trans hwork)
  have hthree : ∑ j ∈ {p, q, i}, (m.thread j).incs ≤
      ∑ j ∈ Finset.range maxProcesses, (m.thread j).incs := by
    apply Finset.sum_le_sum_of_subset
    intro j hj
    simp only [Finset.mem_insert, Finset.mem_singleton] at hj
    rcases hj with rfl | rfl | rfl
    · exact Finset.mem_range.mpr hp
    · exact Finset.mem_range.mpr hq
    · exact Finset.mem_range.mpr hi
  rw [Finset.sum_insert (by simp [hpq, hip.symm]), Finset.sum_insert (by simp [hiq.symm]),
    Finset.sum_singleton, hpn, hqn] at hthree
  omega

/-- When both racers have exited, the counter is at least 2, and at most the number of their
increments. -/
theorem value_bounds (hbefore : ∀ call ∈ before, call.work cfg = 0)
    (hafter : .resetCounter ∉ after) (hwork : (after.map (ShellCall.work cfg)).sum = 2 * n)
    (hn : 2 ≤ n) (hlt : 2 * n < 2 ^ 31)
    (ha : cfg.code ea = List.replicate n .increment ++ [.exit])
    (hb : cfg.code eb = List.replicate n .increment ++ [.exit]) (hab : ea ≠ eb)
    (h : Reaches (step cfg) Always (boot m₀ (before ++ .resetCounter :: after)) m)
    (hp : (m.thread p).entry = some ea) (hq : (m.thread q).entry = some eb)
    (hphalt : (m.thread p).pc = .halted) (hqhalt : (m.thread q).pc = .halted) :
    2 ≤ m.counter.toInt ∧ m.counter.toInt ≤ 2 * n := by
  have hcounting := counting_of_reaches hbefore hafter h
  have hle : m.work cfg ≤ 2 * n := hwork ▸ boot_work hbefore ▸ work_le_of_reaches h
  have hinside {i : Nat} (hi : (m.thread i).pc = .halted) : i < maxProcesses := by
    by_contra hout
    have huntouched := (hcounting.sound.outside i (Nat.le_of_not_lt hout)).pc
    rw [hi] at huntouched
    cases huntouched
  have hpq : p ≠ q := by
    rintro rfl
    exact hab (Option.some.inj (hp.symm.trans hq))
  have hpn := (racers_of_reaches ha h p hp).finished hphalt
  have hqn := (racers_of_reaches hb h q hq).finished hqhalt
  have hother := incs_of_finished (hinside hphalt) (hinside hqhalt) hpq hpn hqn hle
  have hsum : ∑ i ∈ Finset.range maxProcesses, (m.thread i).incs ≤ 2 * n := by
    refine (Finset.sum_le_sum fun i _ => ?_).trans ((Nat.le_add_right _ _).trans hle)
    unfold Thread.work
    omega
  have hfresh : ¬Fresh cfg m := by
    intro hfresh
    have hzero := hfresh.thread p
    unfold Thread.work at hzero
    omega
  rcases hcounting.stage with ⟨-, -, -, hbad⟩ | ⟨-, -, hbad⟩ | ⟨hracing, -, -⟩
  · exact absurd hbad hfresh
  · exact absurd hbad hfresh
  have htotal : (m.shared fun _ => 0).total = ∑ i ∈ Finset.range maxProcesses,
      (m.thread i).incs := by
    rw [Finset.sum_range]
    rfl
  have hbounded : Bounded (m.shared fun _ => 0) := by
    apply hracing.bounded
    rw [htotal]
    omega
  refine ⟨hbounded.two_le (i := ⟨p, hinside hphalt⟩) (fun i => ?_) ?_, ?_⟩
  · show (m.thread i).incs - 0 ≠ 1
    rcases eq_or_ne i.val p with heq | hip
    · rw [heq, hpn]
      omega
    · rcases eq_or_ne i.val q with heq | hiq
      · rw [heq, hqn]
        omega
      · rw [hother i i.isLt hip hiq]
        decide
  · show (m.thread p).incs - 0 ≠ 0
    rw [hpn]
    omega
  · have hupper := hbounded.le_total
    rw [htotal] at hupper
    have hvalue : (m.shared fun _ => 0).value = m.counter.toInt := rfl
    omega

end Bounds

/-! ## Every other value -/

/-- Where a thread is that has loaded a value, or none. -/
def pcOf : Option Int → ThreadPc
  | none => .idle
  | some v => .incStore (Int32.ofInt v)

/-- Two threads of the machine play the agents `a` and `b` of the shared number. -/
structure Plays (a b : Fin maxProcesses) (n : Nat) (s : Shared (Fin maxProcesses)) (m : Machine) :
    Prop where
  fault : m.fault = false
  idle : m.shell.pc = .idle
  nonzero : a.val ≠ 0 ∧ b.val ≠ 0
  runnable : ∀ i, i = a ∨ i = b → Runnable m i
  counter : m.counter = Int32.ofInt s.value
  pc : ∀ i, i = a ∨ i = b → (m.thread i).pc = pcOf (s.loaded i)
  todo : ∀ i, i = a ∨ i = b →
    (m.thread i).todo = List.replicate (n - s.begun i) .increment ++ [.exit]

section Plays

variable {cfg : Config} {a b i : Fin maxProcesses} {n p : Nat} {s : Shared (Fin maxProcesses)}
  {m m' m₀ : Machine} {calls : List ShellCall}

theorem Plays.rotated (h : Plays a b n s m) (hrot : Rotated m m') (hfault : m'.fault = false) :
    Plays a b n s m' where
  fault := hfault
  idle := hrot.shell ▸ h.idle
  nonzero := h.nonzero
  runnable i hi := hrot.runnable i (h.runnable i hi)
  counter := hrot.counter.trans h.counter
  pc i hi := hrot.thread ▸ h.pc i hi
  todo i hi := hrot.thread ▸ h.todo i hi

/-- The turn of an agent comes. -/
theorem Plays.turn (h : Plays a b n s m) (hreach : Reaches (step cfg) Always (boot m₀ calls) m)
    (hi : i = a ∨ i = b) :
    ∃ m', Reaches (step cfg) Always m m' ∧ Plays a b n s m' ∧ m'.current = i ∧
      m'.thread = m.thread := by
  obtain ⟨hcontexts, hsound⟩ := contexts_of_reaches hreach
  obtain ⟨m', hrun, hrot, hfault, hcur⟩ :=
    exists_turn hcontexts hsound h.fault h.idle i.isLt (h.runnable i hi)
  exact ⟨m', hrun, h.rotated hrot hfault, hcur, hrot.thread⟩

theorem exec_thread_at (hfault : m.fault = false) (hcur : m.current = p) (hp : p ≠ 0)
    (out : Frame) : step cfg m (.exec out) = m.threadStep cfg p out := by
  subst hcur
  simp only [step, hfault, Bool.false_eq_true, if_false, hp]

/-- The start of a call. -/
theorem reaches_start (cfg : Config) (hfault : m.fault = false) (hcur : m.current = p) (hp : p ≠ 0)
    (hpc : (m.thread p).pc = .idle) {call : ThreadCall} {rest : List ThreadCall}
    (htodo : (m.thread p).todo = call :: rest) :
    Reaches (step cfg) Always m
      (m.setThread p { m.thread p with pc := call.start, todo := rest }) := by
  have hstep : step cfg m (.exec (newFrame 0)) =
      some (m.setThread p { m.thread p with pc := call.start, todo := rest }) := by
    rw [exec_thread_at hfault hcur hp, Machine.threadStep, hpc]
    dsimp only
    rw [htodo]
  exact Reaches.refl.tail trivial hstep

/-- The state after accesses of agent `i` alone follows the move, if its thread does. -/
theorem Plays.moved (h : Plays a b n s m) (hi : i = a ∨ i = b) (hfault : m'.fault = m.fault)
    (hshell : m'.shell = m.shell) (htable : m'.table = m.table) (hcur : m'.current = m.current)
    (hne : ∀ j, j ≠ i.val → m'.thread j = m.thread j)
    (hcounter : m'.counter = Int32.ofInt (s.move i).value)
    (hpc : (m'.thread i).pc = pcOf ((s.move i).loaded i))
    (htodo : (m'.thread i).todo =
      List.replicate (n - (s.move i).begun i) .increment ++ [.exit]) :
    Plays a b n (s.move i) m' where
  fault := hfault.trans h.fault
  idle := hshell ▸ h.idle
  nonzero := h.nonzero
  runnable j hj := by
    unfold Runnable
    rw [htable, hcur]
    exact h.runnable j hj
  counter := hcounter
  pc j hj := by
    rcases eq_or_ne j i with rfl | hji
    · exact hpc
    · rw [hne j fun heq => hji (Fin.ext heq), (s.move_ne hji).1]
      exact h.pc j hj
  todo j hj := by
    rcases eq_or_ne j i with rfl | hji
    · exact htodo
    · rw [hne j fun heq => hji (Fin.ext heq), (s.move_ne hji).2]
      exact h.todo j hj

theorem ofInt_succ (v : Int) : Int32.ofInt (v + 1) = Int32.ofInt v + 1 := by
  rw [Int32.ofInt_add]
  rfl

/-- The machine follows a move for which the agent has an increment to make. -/
theorem Plays.move (h : Plays a b n s m) (hreach : Reaches (step cfg) Always (boot m₀ calls) m)
    (hi : i = a ∨ i = b) (hn : (s.move i).begun i ≤ n) :
    ∃ m', Reaches (step cfg) Always m m' ∧ Plays a b n (s.move i) m' ∧
      ∀ p, (m'.thread p).entry = (m.thread p).entry := by
  obtain ⟨m₁, hturn, h₁, hcur, hthread⟩ := h.turn hreach hi
  have hzero : i.val ≠ 0 := by
    rcases hi with rfl | rfl
    · exact h.nonzero.1
    · exact h.nonzero.2
  rw [← hthread]
  cases hl : s.loaded i with
  | none =>
    have hpc := h₁.pc i hi
    have htodo := h₁.todo i hi
    rw [Shared.begun_load hl] at hn
    obtain ⟨k, hk⟩ : ∃ k, n - s.begun i = k + 1 := ⟨n - s.begun i - 1, by omega⟩
    rw [hl] at hpc
    rw [hk, List.replicate_succ, List.cons_append] at htodo
    have hstart := reaches_start cfg h₁.fault hcur hzero hpc htodo
    let m₂ := m₁.setThread i { m₁.thread i with
      pc := .incLoad, todo := List.replicate k .increment ++ [.exit] }
    have hload : step cfg m₂ (.exec (newFrame 0)) = some (m₂.goto i (.incStore m₂.counter)) := by
      have hpc₂ : (m₂.thread i).pc = .incLoad := congrArg Thread.pc (Machine.setThread_self ..)
      rw [exec_thread_at (m := m₂) h₁.fault hcur hzero, Machine.threadStep, hpc₂]
    refine ⟨_, hturn.trans (hstart.tail trivial hload), ?_, fun p => ?_⟩
    · refine h₁.moved hi ?_ ?_ ?_ ?_ ?_ ?_ ?_ ?_
      iterate 4 rfl
      · intro j hj
        rw [Machine.goto_ne hj, Machine.setThread_ne hj]
      · rw [Shared.move_load hl]
        exact h₁.counter
      · rw [Machine.goto_self, Shared.move_load hl]
        dsimp only
        rw [Function.update_self]
        exact congrArg ThreadPc.incStore h₁.counter
      · rw [Machine.goto_self, Shared.begun_load hl]
        show (m₂.thread i).todo = _
        rw [Machine.setThread_self]
        dsimp only
        congr 2
        omega
    · rcases eq_or_ne p i.val with rfl | hp
      · rw [Machine.goto_self]
        show (m₂.thread i).entry = _
        rw [Machine.setThread_self]
      · rw [Machine.goto_ne hp, Machine.setThread_ne hp]
  | some v =>
    have hpc := h₁.pc i hi
    have htodo := h₁.todo i hi
    rw [hl] at hpc
    have hstore : step cfg m₁ (.exec (newFrame 0)) =
        some ({ m₁ with counter := Int32.ofInt v + 1 }.setThread i
          { m₁.thread i with pc := .idle, incs := (m₁.thread i).incs + 1 }) := by
      rw [exec_thread_at h₁.fault hcur hzero, Machine.threadStep, hpc]
      rfl
    refine ⟨_, hturn.tail trivial hstore, ?_, fun p => ?_⟩
    · refine h₁.moved hi ?_ ?_ ?_ ?_ ?_ ?_ ?_ ?_
      iterate 4 rfl
      · intro j hj
        rw [Machine.setThread_ne hj]
      · rw [Shared.move_store hl]
        exact (ofInt_succ v).symm
      · rw [Machine.setThread_self, Shared.move_store hl]
        dsimp only
        rw [Function.update_self]
        rfl
      · rw [Machine.setThread_self, Shared.begun_store hl]
        exact htodo
    · rcases eq_or_ne p i.val with rfl | hp
      · rw [Machine.setThread_self]
      · rw [Machine.setThread_ne hp]

/-- The machine follows a schedule. -/
theorem Plays.run {schedule : List (Fin maxProcesses)} (h : Plays a b n s m)
    (hreach : Reaches (step cfg) Always (boot m₀ calls) m)
    (hall : ∀ i ∈ schedule, i = a ∨ i = b)
    (hn : ∀ i, i = a ∨ i = b → (s.run schedule).begun i ≤ n) :
    ∃ m', Reaches (step cfg) Always m m' ∧ Plays a b n (s.run schedule) m' ∧
      ∀ p, (m'.thread p).entry = (m.thread p).entry := by
  induction schedule generalizing s m with
  | nil => exact ⟨m, .refl, h, fun _ => rfl⟩
  | cons i schedule ih =>
    have hi := hall i List.mem_cons_self
    have hbegun : (s.move i).begun i ≤ n := (Shared.begun_le_run _ schedule i).trans (hn i hi)
    obtain ⟨m₁, hrun, h₁, hentry⟩ := h.move hreach hi hbegun
    obtain ⟨m₂, hrun', h₂, hentry'⟩ := ih h₁ (hreach.trans hrun)
      (fun j hj => hall j (List.mem_cons_of_mem i hj)) hn
    exact ⟨m₂, hrun.trans hrun', h₂, fun p => (hentry' p).trans (hentry p)⟩

/-- A thread that has only to exit gets its turn and does so. -/
theorem exists_exit (hreach : Reaches (step cfg) Always (boot m₀ calls) m)
    (hfault : m.fault = false) (hidle : m.shell.pc = .idle) (hp : p < maxProcesses)
    (h0 : p ≠ 0) (hrun : Runnable m p) (hpc : (m.thread p).pc = .idle)
    (htodo : (m.thread p).todo = [.exit]) :
    ∃ m', Reaches (step cfg) Always m m' ∧ m'.fault = false ∧ m'.shell.pc = .idle ∧
      m'.counter = m.counter ∧ (m'.thread p).pc = .halted ∧
      (∀ q, (m'.thread q).entry = (m.thread q).entry) ∧
      ∀ q, q ≠ p → m'.thread q = m.thread q ∧ (Runnable m q → Runnable m' q) := by
  obtain ⟨hcontexts, hsound⟩ := contexts_of_reaches hreach
  obtain ⟨m₁, hturn, hrot, hfault₁, hcur⟩ := exists_turn hcontexts hsound hfault hidle hp hrun
  have hstart := reaches_start cfg hfault₁ hcur h0 (hrot.thread ▸ hpc)
    (hrot.thread ▸ htodo)
  let m₂ := m₁.setThread p { m₁.thread p with pc := .exitStore, todo := [] }
  have hexit : step cfg m₂ (.exec (newFrame 0)) =
      some ({ m₂ with table := processTerminate m₂.table p }.goto p .halted) := by
    have hpc₂ : (m₂.thread p).pc = .exitStore := congrArg Thread.pc (Machine.setThread_self ..)
    rw [exec_thread_at (m := m₂) hfault₁ hcur h0, Machine.threadStep, hpc₂]
  refine ⟨_, hturn.trans (hstart.tail trivial hexit), hfault₁, ?_, hrot.counter, ?_, fun q => ?_,
    fun q hq => ⟨?_, fun hq' => ?_⟩⟩
  · show m₁.shell.pc = _
    rw [hrot.shell, hidle]
  · rw [Machine.goto_self]
  · rcases eq_or_ne q p with rfl | hq
    · rw [Machine.goto_self]
      show (m₂.thread q).entry = _
      rw [Machine.setThread_self, hrot.thread]
    · rw [Machine.goto_ne hq, ← hrot.thread]
      exact congrArg Thread.entry (Machine.setThread_ne hq)
  · rw [Machine.goto_ne hq, ← hrot.thread]
    exact Machine.setThread_ne hq
  · have hready := (hrot.runnable q hq').resolve_right fun h => hq (h.1.trans hcur)
    refine .inl ?_
    show ((processTerminate m₁.table p) q).state = _
    rw [processTerminate_state, if_neg fun hand => hq hand.1, hready]

/-- Both threads exit when they have made their increments. -/
theorem Plays.finish (h : Plays a b n s m) (hreach : Reaches (step cfg) Always (boot m₀ calls) m)
    (hab : a ≠ b) {v : Int} (hout : Outcome a b n v s) :
    ∃ m', Reaches (step cfg) Always m m' ∧ m'.counter = Int32.ofInt v ∧
      (m'.thread a).pc = .halted ∧ (m'.thread b).pc = .halted ∧
      ∀ q, (m'.thread q).entry = (m.thread q).entry := by
  have hready {i : Fin maxProcesses} (hi : i = a ∨ i = b) (hcount : s.count i = n)
      (hl : s.loaded i = none) :
      (m.thread i).pc = .idle ∧ (m.thread i).todo = [.exit] := by
    have hbegun : n - s.begun i = 0 := by
      rw [Shared.begun, hcount, hl]
      exact Nat.sub_self n
    have htodo := h.todo i hi
    rw [hbegun] at htodo
    exact ⟨(h.pc i hi).trans (congrArg pcOf hl), htodo⟩
  obtain ⟨hapc, hatodo⟩ := hready (.inl rfl) hout.left.1 hout.left.2
  obtain ⟨hbpc, hbtodo⟩ := hready (.inr rfl) hout.right.1 hout.right.2
  have hne : b.val ≠ a.val := fun heq => hab (Fin.ext heq.symm)
  obtain ⟨m₁, hrun, hfault, hidle, hcounter, hhalt, hentry, hother⟩ := exists_exit hreach h.fault
    h.idle a.isLt h.nonzero.1 (h.runnable a (.inl rfl)) hapc hatodo
  obtain ⟨hthread, hrunnable⟩ := hother b hne
  obtain ⟨m₂, hrun', -, -, hcounter', hhalt', hentry', hother'⟩ := exists_exit
    (hreach.trans hrun) hfault hidle b.isLt h.nonzero.2
    (hrunnable (h.runnable b (.inr rfl))) (hthread ▸ hbpc) (hthread ▸ hbtodo)
  refine ⟨m₂, hrun.trans hrun', ?_, ?_, hhalt', fun q => (hentry' q).trans (hentry q)⟩
  · rw [hcounter', hcounter, h.counter, hout.value]
  · rw [(hother' a hne.symm).1, hhalt]

end Plays

/-! ## From the start -/

section Start

variable {cfg : Config} {m : Machine} {todo : List ShellCall}

theorem ShellAt.reset (cfg : Config) (h : ShellAt m .idle (.resetCounter :: todo)) :
    ∃ m', Reaches (step cfg) Always m m' ∧ ShellAt m' .idle todo ∧ m'.counter = 0 ∧
      m'.thread = m.thread ∧ m'.table = m.table := by
  have hstart : step cfg m (.exec (newFrame 0)) = some { m with shell := ⟨.resetStore, todo⟩ } := by
    rw [h.exec, Machine.shellStep, h.shell]
    rfl
  have hat : ShellAt { m with shell := ⟨.resetStore, todo⟩ } .resetStore todo :=
    ⟨h.fault, h.current, rfl⟩
  have hstore : step cfg { m with shell := ⟨.resetStore, todo⟩ } (.exec (newFrame 0)) =
      some ({ m with counter := 0, shell := ⟨.resetStore, todo⟩ }.shellGoto .idle) := by
    rw [hat.exec]
    rfl
  exact ⟨_, (Reaches.refl.tail trivial hstart).tail trivial hstore, ⟨h.fault, h.current, rfl⟩, rfl,
    rfl, rfl⟩

/-- The five calls of the shell leave two racers in the slots 3 and 4, and nothing counted. -/
theorem exists_racers (cfg : Config) (m₀ : Machine) (na nb nc nd : CString) (ta tb ea eb : Nat) :
    ∃ m, Reaches (step cfg) Always (boot m₀ [.create na ta, .create nb tb, .resetCounter,
        .create nc ea, .create nd eb]) m ∧ ShellAt m .idle [] ∧ m.counter = 0 ∧
      m.thread 3 = cfg.newThread ea ∧ m.thread 4 = cfg.newThread eb ∧
      (m.table 3).state = .ready ∧ (m.table 4).state = .ready := by
  have hboot : ShellAt (boot m₀ [.create na ta, .create nb tb, .resetCounter, .create nc ea,
      .create nd eb]) .idle _ := ⟨rfl, rfl, rfl⟩
  have hfree (q : Nat) (hpos : 1 ≤ q) (hlt : q < maxProcesses) :
      ((processInit m₀.table q)).state = .free := by
    rw [processInit, if_neg (by omega), if_pos hlt]
    rfl
  obtain ⟨m₁, h₁, hat₁, hc₁⟩ := exists_create cfg hboot (Nat.le_refl 1) (by decide)
    (fun q _ _ => by omega) (hfree 1 le_rfl (by decide))
  have hs₁ (q : Nat) : (m₁.table q).state =
      if q = 1 then .ready else (processInit m₀.table q).state := hc₁.state q
  obtain ⟨m₂, h₂, hat₂, hc₂⟩ := exists_create cfg hat₁ (show 1 ≤ 2 by decide) (by decide)
    (fun q hlo hhi => by
      obtain rfl : q = 1 := by omega
      rw [hs₁, if_pos rfl]
      intro heq
      cases heq)
    (by rw [hs₁, if_neg (by decide)]; exact hfree 2 (by decide) (by decide))
  obtain ⟨m₃, h₃, hat₃, hzero, hthread₃, htable₃⟩ := hat₂.reset cfg
  have hs₃ (q : Nat) : (m₃.table q).state = if q = 2 then .ready else if q = 1 then .ready
      else (processInit m₀.table q).state := by
    rw [htable₃, hc₂.state, hs₁]
  obtain ⟨m₄, h₄, hat₄, hc₄⟩ := exists_create cfg hat₃ (show 1 ≤ 3 by decide) (by decide)
    (fun q hlo hhi => by
      rw [hs₃]
      obtain rfl | rfl : q = 1 ∨ q = 2 := by omega
      all_goals
        intro heq
        cases heq)
    (by rw [hs₃, if_neg (by decide), if_neg (by decide)]; exact hfree 3 (by decide) (by decide))
  obtain ⟨m₅, h₅, hat₅, hc₅⟩ := exists_create cfg hat₄ (show 1 ≤ 4 by decide) (by decide)
    (fun q hlo hhi => by
      rw [hc₄.state, hs₃]
      obtain rfl | rfl | rfl : q = 1 ∨ q = 2 ∨ q = 3 := by omega
      all_goals
        intro heq
        cases heq)
    (by
      rw [hc₄.state, if_neg (by decide), hs₃, if_neg (by decide), if_neg (by decide)]
      exact hfree 4 (by decide) (by decide))
  refine ⟨m₅, h₁.trans (h₂.trans (h₃.trans (h₄.trans h₅))), hat₅, ?_, ?_, ?_, ?_, ?_⟩
  · rw [hc₅.counter, hc₄.counter, hzero]
  · rw [hc₅.thread, Function.update_of_ne (by decide), hc₄.thread, Function.update_self]
  · rw [hc₅.thread, Function.update_self]
  · rw [hc₅.state, if_neg (by decide), hc₄.state, if_pos rfl]
  · rw [hc₅.state, if_pos rfl]

/-- From a state with two racers that have not started, every number between is reached. -/
theorem exists_outcome {cfg : Config} {a b : Fin maxProcesses} (hab : a ≠ b)
    (hnonzero : a.val ≠ 0 ∧ b.val ≠ 0) {n : Nat} {v : Int} (hlo : 2 ≤ v) (hhi : v ≤ 2 * n)
    {m₀ m : Machine} {calls : List ShellCall} (hreach : Reaches (step cfg) Always (boot m₀ calls) m)
    (hat : ShellAt m .idle []) (hzero : m.counter = 0) {ea eb : Nat}
    (ha : cfg.code ea = List.replicate n .increment ++ [.exit])
    (hb : cfg.code eb = List.replicate n .increment ++ [.exit])
    (hta : m.thread a = cfg.newThread ea) (htb : m.thread b = cfg.newThread eb)
    (hready : (m.table a).state = .ready ∧ (m.table b).state = .ready) :
    ∃ m', Reaches (step cfg) Always m m' ∧ m'.counter = Int32.ofInt v ∧
      ((m'.thread a).entry = some ea ∧ (m'.thread a).pc = .halted) ∧
      (m'.thread b).entry = some eb ∧ (m'.thread b).pc = .halted := by
  obtain ⟨schedule, hall, hout⟩ := exists_schedule hab hlo hhi
  have hplays : Plays a b n Shared.zero m := by
    refine ⟨hat.fault, congrArg Shell.pc hat.shell, hnonzero, fun i hi => ?_, hzero,
      fun i hi => ?_, fun i hi => ?_⟩
    · rcases hi with rfl | rfl
      · exact .inl hready.1
      · exact .inl hready.2
    · rcases hi with rfl | rfl
      · exact congrArg Thread.pc hta
      · exact congrArg Thread.pc htb
    · rcases hi with rfl | rfl
      · exact (congrArg Thread.todo hta).trans ha
      · exact (congrArg Thread.todo htb).trans hb
  have hbegun (i : Fin maxProcesses) (hi : i = a ∨ i = b) :
      (Shared.zero.run schedule).begun i ≤ n := by
    rcases hi with rfl | rfl
    · rw [Shared.begun, hout.left.1, hout.left.2]
      exact le_rfl
    · rw [Shared.begun, hout.right.1, hout.right.2]
      exact le_rfl
  obtain ⟨m₁, hrun₁, hplays₁, hentry⟩ := hplays.run hreach hall hbegun
  obtain ⟨m₂, hrun₂, hcounter, hhalt, hhalt', hentry'⟩ :=
    hplays₁.finish (hreach.trans hrun₁) hab hout
  refine ⟨m₂, hrun₁.trans hrun₂, hcounter, ⟨?_, hhalt⟩, ?_, hhalt'⟩
  · exact ((hentry' a).trans (hentry a)).trans (congrArg Thread.entry hta)
  · exact ((hentry' b).trans (hentry b)).trans (congrArg Thread.entry htb)

/-- Every number between is the end of some run of the five calls. -/
theorem exists_run (cfg : Config) {n : Nat} {v : Int} (hlo : 2 ≤ v) (hhi : v ≤ 2 * n)
    (m₀ : Machine) (na nb nc nd : CString) (ta tb : Nat) {ea eb : Nat}
    (ha : cfg.code ea = List.replicate n .increment ++ [.exit])
    (hb : cfg.code eb = List.replicate n .increment ++ [.exit]) :
    ∃ m, Reaches (step cfg) Always (boot m₀ [.create na ta, .create nb tb, .resetCounter,
        .create nc ea, .create nd eb]) m ∧ m.counter = Int32.ofInt v ∧
      ((m.thread 3).entry = some ea ∧ (m.thread 3).pc = .halted) ∧
      (m.thread 4).entry = some eb ∧ (m.thread 4).pc = .halted := by
  obtain ⟨m, hrun, hat, hzero, hthree, hfour, hready⟩ :=
    exists_racers cfg m₀ na nb nc nd ta tb ea eb
  have hab : (⟨3, by decide⟩ : Fin maxProcesses) ≠ ⟨4, by decide⟩ := by decide
  have hnonzero : (3 : Nat) ≠ 0 ∧ (4 : Nat) ≠ 0 := by decide
  obtain ⟨m', hrun', hrest⟩ :=
    exists_outcome hab hnonzero hlo hhi hrun hat hzero ha hb hthree hfour hready
  exact ⟨m', hrun.trans hrun', hrest⟩

end Start

end SengOs.Kernel
