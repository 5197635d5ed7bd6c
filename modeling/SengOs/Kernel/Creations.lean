import SengOs.Kernel.Sound

/-!
# Creations in turn

No slot is given back and `process_create` takes the first free one. So the `n`-th process that is
created gets slot `n`, however the threads and the timer interleave with the stores of
`process_create`, and from the sixteenth on none is created (`creations_in_turn`).
-/

namespace SengOs.Kernel

open Transition

/-- What the calls create, in their order: the name and the entry point. -/
def creations : List ShellCall → List (CString × Nat)
  | [] => []
  | .create name entry :: calls => (name, entry) :: creations calls
  | _ :: calls => creations calls

/-- The creations that have not returned. -/
def Shell.pending (sh : Shell) : List (CString × Nat) :=
  match sh.pc with
  | .create c _ => (c.name, c.entry) :: creations sh.todo
  | _ => creations sh.todo

/-- Slot `p` has been given to a process with this name and entry point. -/
structure Occupies (m : Machine) (p : Nat) (name : CString) (entry : Nat) : Prop where
  used : (m.table p).state ≠ .free
  entry : (m.thread p).entry = some entry
  name : (m.table p).name = pcbName name

structure Vacant (m : Machine) (p : Nat) : Prop where
  free : (m.table p).state = .free
  entry : (m.thread p).entry = none

/-- The slots behind slot `n` are vacant. -/
def VacantFrom (m : Machine) (n : Nat) : Prop := ∀ p, n < p → p < maxProcesses → Vacant m p

/-- `process_create` fills the slot behind the `n` slots that are given away. -/
structure Filling (m : Machine) (n : Nat) (c : Creation) : Prop where
  slot : c.slot = n + 1
  lt : c.slot < maxProcesses
  entry : (m.thread c.slot).entry = some c.entry
  rest : VacantFrom m (n + 1)

/-- Where `process_create` is when `n` slots are given away. -/
def Creating (m : Machine) (n : Nat) (c : Creation) : CreateStage → Prop
  | .scan => 0 < c.slot ∧ c.slot ≤ n + 1 ∧ VacantFrom m n
  | .push 0 => c.slot = n + 1 ∧ c.slot < maxProcesses ∧ VacantFrom m n
  | .push (_ + 1) | .pid | .state => Filling m n c
  | .esp | .stack | .name => Filling m n c ∧ (m.table c.slot).state ≠ .free

/-- The rest of the table, when `n` slots are given away. -/
def Remaining (m : Machine) (n : Nat) : ShellPc → Prop
  | .create c stage => Creating m n c stage
  | .killStore pid => (m.table pid).state ≠ .free ∧ VacantFrom m n
  | _ => VacantFrom m n

/-- The creations that have returned hold the slots in their order. -/
structure InTurn (all done : List (CString × Nat)) (m : Machine) : Prop where
  split : all = done ++ m.shell.pending
  taken : ∀ p x, done[p]? = some x → p + 1 < maxProcesses → Occupies m (p + 1) x.1 x.2
  remaining : Remaining m done.length m.shell.pc
  outside : ∀ p, p = 0 ∨ maxProcesses ≤ p → (m.thread p).entry = none

/-! ## Slots that a step leaves alone -/

/-- The slot is given away to the same process as before, or still vacant. -/
structure SameSlot (m m' : Machine) (p : Nat) : Prop where
  free : (m'.table p).state = .free ↔ (m.table p).state = .free
  entry : (m'.thread p).entry = (m.thread p).entry
  name : (m'.table p).name = (m.table p).name

section Slots

variable {cfg : Config} {m m' : Machine} {p n : Nat} {name : CString} {entry : Nat}
  {c : Creation} {stage : CreateStage} {all done : List (CString × Nat)}

theorem SameSlot.of_eq (htable : m'.table p = m.table p) (hthread : m'.thread p = m.thread p) :
    SameSlot m m' p := by
  constructor
  · rw [htable]
  · rw [hthread]
  · rw [htable]

theorem Occupies.congr (h : Occupies m p name entry) (hsame : SameSlot m m' p) :
    Occupies m' p name entry :=
  ⟨fun hf => h.used (hsame.free.mp hf), hsame.entry.trans h.entry, hsame.name.trans h.name⟩

theorem VacantFrom.congr (h : VacantFrom m n) (hsame : ∀ p, n < p → SameSlot m m' p) :
    VacantFrom m' n := by
  intro p hp hlt
  have hvacant := h p hp hlt
  exact ⟨(hsame p hp).free.mpr hvacant.free, (hsame p hp).entry.trans hvacant.entry⟩

theorem VacantFrom.mono {k : Nat} (h : VacantFrom m n) (hk : n ≤ k) : VacantFrom m k :=
  fun p hp => h p (hk.trans_lt hp)

theorem Filling.congr (h : Filling m n c) (hsame : ∀ p, SameSlot m m' p) : Filling m' n c where
  slot := h.slot
  lt := h.lt
  entry := (hsame c.slot).entry.trans h.entry
  rest := h.rest.congr fun p _ => hsame p

theorem Remaining.congr {pc : ShellPc} (h : Remaining m n pc) (hsame : ∀ p, SameSlot m m' p) :
    Remaining m' n pc := by
  have hrest {k : Nat} (hv : VacantFrom m k) : VacantFrom m' k := hv.congr fun p _ => hsame p
  have hused {q : Nat} (hq : (m.table q).state ≠ .free) : (m'.table q).state ≠ .free :=
    fun hf => hq ((hsame q).free.mp hf)
  cases pc with
  | create c stage =>
    cases stage with
    | scan => exact ⟨h.1, h.2.1, hrest h.2.2⟩
    | push k =>
      cases k with
      | zero => exact ⟨h.1, h.2.1, hrest h.2.2⟩
      | succ k => exact Filling.congr h hsame
    | pid | state => exact Filling.congr h hsame
    | esp | stack | name => exact ⟨h.1.congr hsame, hused h.2⟩
  | killStore pid => exact ⟨hused h.1, hrest h.2⟩
  | _ => exact hrest h

/-- A step that leaves the slots given away as they are, and no creation returns in it. -/
theorem InTurn.move (h : InTurn all done m) (hpending : m'.shell.pending = m.shell.pending)
    (hremaining : Remaining m' done.length m'.shell.pc)
    (hsame : ∀ p, p ≤ done.length ∨ maxProcesses ≤ p → SameSlot m m' p) : InTurn all done m' where
  split := hpending.symm ▸ h.split
  taken p x hx hlt := by
    have hp : p < done.length := (List.getElem?_eq_some_iff.mp hx).1
    exact (h.taken p x hx hlt).congr (hsame (p + 1) (.inl hp))
  remaining := hremaining
  outside p hp := by
    have hle : p ≤ done.length ∨ maxProcesses ≤ p := hp.imp_left fun hzero => by omega
    exact (hsame p hle).entry.trans (h.outside p hp)

theorem InTurn.congr (h : InTurn all done m) (hshell : m'.shell = m.shell)
    (hsame : ∀ p, SameSlot m m' p) : InTurn all done m' := by
  apply h.move
  · rw [hshell]
  · rw [hshell]
    exact h.remaining.congr hsame
  · intro p _
    exact hsame p

/-- A creation returns: what it was to create is in its slot, unless the table was full. -/
theorem InTurn.returns (h : InTurn all done m) (hpc : m.shell.pc = .create c stage)
    (hidle : m'.shell = ⟨.idle, m.shell.todo⟩) (hsame : ∀ p, p ≠ done.length + 1 → SameSlot m m' p)
    (hsame' : maxProcesses ≤ done.length + 1 → SameSlot m m' (done.length + 1))
    (hfilled : done.length + 1 < maxProcesses →
      Occupies m' (done.length + 1) c.name c.entry)
    (hrest : VacantFrom m (done.length + 1)) :
    InTurn all (done ++ [(c.name, c.entry)]) m' where
  split := by
    have hsplit := h.split
    rw [Shell.pending, hpc] at hsplit
    rw [hidle, hsplit, List.append_assoc]
    rfl
  taken p x hx hlt := by
    rcases Nat.lt_trichotomy p done.length with hp | rfl | hp
    · rw [List.getElem?_append_left hp] at hx
      exact (h.taken p x hx hlt).congr (hsame (p + 1) (by omega))
    · rw [List.getElem?_concat_length, Option.some_inj] at hx
      subst hx
      exact hfilled hlt
    · have hlen := (List.getElem?_eq_some_iff.mp hx).1
      rw [List.length_append, List.length_singleton] at hlen
      omega
  remaining := by
    rw [hidle, List.length_append, List.length_singleton]
    exact hrest.congr fun p hp => hsame p (by omega)
  outside p hp := by
    rcases eq_or_ne p (done.length + 1) with rfl | hne
    · have hfull : maxProcesses ≤ done.length + 1 := by omega
      exact (hsame' hfull).entry.trans (h.outside _ hp)
    · exact (hsame p hne).entry.trans (h.outside p hp)

end Slots

/-! ## Steps -/

section Steps

variable {cfg : Config} {m m' : Machine} {c : Creation} {stage : CreateStage}
  {all done : List (CString × Nat)}

theorem setState_name (t : Table) (p : Nat) (st : ProcessState) (q : Nat) :
    (setState t p st q).name = (t q).name := storePcb_field Pcb.name (by intro; rfl) q

theorem processTerminate_name (t : Table) (pid q : Nat) :
    (processTerminate t pid q).name = (t q).name := by
  unfold processTerminate
  split
  · rfl
  · exact setState_name ..

theorem ThreadStep.sameSlot (h : Sound m) (hs : ThreadStep m m.current m') (q : Nat) :
    SameSlot m m' q where
  free := h.free_iff hs q
  entry := by
    rcases eq_or_ne q m.current with rfl | hne
    · cases hs <;> first | rfl | rw [Machine.setThread_self] | rw [Machine.goto_self]
    · rw [hs.thread_ne hne]
  name := by
    rcases hs.table_cases with heq | ⟨-, heq⟩ | ⟨t, -, heq⟩ | ⟨-, heq⟩
    · rw [heq]
    · rw [heq, setState_name]
    · rw [heq, setState_name]
    · rw [heq, processTerminate_name]

theorem switchTo_sameSlot (h : Sound m) {out : Frame} {next : Nat}
    (hpick : pickNext m.table m.current = some next) (q : Nat) :
    SameSlot m (m.switchTo cfg out next) q where
  free := switchTo_free_iff cfg out h.occupied (pickNext_some hpick).2 q
  entry := rfl
  name := by
    rw [switchTo_table, setEsp, storePcb_field Pcb.name (by intro; rfl)]
    unfold switchStates
    rw [setState_name]
    split
    · exact setState_name ..
    · rfl

theorem goto_sameSlot (p : Nat) (pc : ThreadPc) (q : Nat) : SameSlot m (m.goto p pc) q where
  free := Iff.rfl
  entry := by
    rcases eq_or_ne q p with rfl | hne
    · rw [Machine.goto_self]
    · rw [Machine.goto_ne hne]
  name := rfl

/-- A store of `process_create` to another field than the name. -/
theorem storePcb_sameSlot (f : Pcb → Pcb) {p : Nat} (hstore : m'.table = storePcb m.table p f)
    (hstate : ∀ pcb, (f pcb).state = pcb.state) (hname : ∀ pcb, (f pcb).name = pcb.name)
    (hthread : m'.thread = m.thread) (q : Nat) : SameSlot m m' q where
  free := by rw [hstore, storePcb_field Pcb.state hstate]
  entry := by rw [hthread]
  name := by rw [hstore, storePcb_field Pcb.name hname]

/-- The accesses of `process_create`. -/
theorem InTurn.create (h : InTurn all done m) (hpc : m.shell.pc = .create c stage) :
    ∃ done, InTurn all done (m.createStep cfg c stage) := by
  have hremaining := h.remaining
  rw [hpc] at hremaining
  have hpending {todo : List ShellCall} {c' : Creation} {stage' : CreateStage}
      (htodo : todo = m.shell.todo) (hname : c'.name = c.name) (hentry : c'.entry = c.entry) :
      Shell.pending ⟨.create c' stage', todo⟩ = m.shell.pending := by
    simp only [Shell.pending, hpc, htodo, hname, hentry]
  have hgoto (pc : ShellPc) (p : Nat) : SameSlot m (m.shellGoto pc) p := .of_eq rfl rfl
  cases stage with
  | scan =>
    obtain ⟨hpos, hle, hrest⟩ := hremaining
    dsimp only [Machine.createStep]
    split
    · rename_i hfull
      -- the table is full
      refine ⟨_, h.returns hpc rfl (fun p _ => hgoto _ p) (fun _ => hgoto _ _) (fun hlt => ?_)
        (hrest.mono (Nat.le_succ _))⟩
      omega
    · rename_i hlt
      rw [ge_iff_le, not_le] at hlt
      rcases Nat.lt_or_eq_of_le hle with hbefore | hslot
      · -- a slot that is given away
        obtain ⟨p, hp⟩ := Nat.exists_eq_succ_of_ne_zero hpos.ne'
        rw [Nat.succ_eq_add_one] at hp
        have hp' : p < done.length := by omega
        have hused := (h.taken p _ (List.getElem?_eq_getElem hp') (hp ▸ hlt)).used
        rw [← hp] at hused
        rw [if_neg hused]
        refine ⟨done, h.move (hpending rfl rfl rfl) ⟨Nat.succ_pos _, ?_, ?_⟩ ?_⟩
        · exact Nat.succ_le_succ (by omega)
        · exact hrest.congr fun q _ => hgoto _ q
        · intro q _
          exact hgoto _ q
      · have hfree := (hrest c.slot (by omega) hlt).free
        rw [if_pos hfree]
        refine ⟨done, h.move (hpending rfl rfl rfl) ⟨hslot, hlt, ?_⟩ fun q _ => hgoto _ q⟩
        exact hrest.congr fun q _ => hgoto _ q
  | push k =>
    cases k with
    | zero =>
      obtain ⟨hslot, hlt, hrest⟩ := hremaining
      have hsame (p : Nat) (hp : p ≠ c.slot) : SameSlot m (m.createStep cfg c (.push 0)) p :=
        .of_eq rfl (Function.update_of_ne hp ..)
      refine ⟨done, h.move (hpending rfl rfl rfl) ⟨hslot, hlt, ?_, ?_⟩ fun p hp => hsame p ?_⟩
      · have hthread : (m.createStep cfg c (.push 0)).thread c.slot =
            { Thread.unused with todo := cfg.code c.entry, entry := some c.entry } :=
          Function.update_self ..
        rw [hthread]
      · exact (hrest.mono (Nat.le_succ _)).congr fun p hp => hsame p (by omega)
      · omega
    | succ k =>
      have hsame (p : Nat) : SameSlot m (m.createStep cfg c (.push (k + 1))) p := .of_eq rfl rfl
      have hfilling : Filling (m.createStep cfg c (.push (k + 1))) done.length c :=
        Filling.congr hremaining hsame
      have hpc' : (m.createStep cfg c (.push (k + 1))).shell.pc =
          .create c (if k + 1 + 1 < frameWords then .push (k + 1 + 1) else .pid) := rfl
      refine ⟨done, h.move (hpending rfl rfl rfl) ?_ fun p _ => hsame p⟩
      rw [hpc']
      split <;> exact hfilling
  | pid =>
    have hsame (p : Nat) : SameSlot m (m.createStep cfg c .pid) p := by
      apply storePcb_sameSlot fun pcb => { pcb with pid := c.slot }
      · rfl
      · intro pcb
        rfl
      · intro pcb
        rfl
      · rfl
    exact ⟨done, h.move (hpending rfl rfl rfl) (Filling.congr hremaining hsame) fun p _ => hsame p⟩
  | state =>
    obtain ⟨hslot, hlt, hentry, hrest⟩ := hremaining
    have hsame (p : Nat) (hp : p ≠ c.slot) : SameSlot m (m.createStep cfg c .state) p := by
      refine .of_eq ?_ rfl
      show setState m.table c.slot .ready p = m.table p
      exact storePcb_ne hp
    refine ⟨done, h.move (hpending rfl rfl rfl) ⟨⟨hslot, hlt, hentry, ?_⟩, ?_⟩
      fun p hp => hsame p ?_⟩
    · exact hrest.congr fun p hp => hsame p (by omega)
    · show (setState m.table c.slot .ready c.slot).state ≠ .free
      rw [setState_state, if_pos rfl]
      decide
    · omega
  | esp =>
    have hsame (p : Nat) : SameSlot m (m.createStep cfg c .esp) p := by
      apply storePcb_sameSlot fun pcb =>
        { pcb with esp := cfg.stackBase c.slot + 4 * (newFrame c.entry).top }
      · rfl
      · intro pcb
        rfl
      · intro pcb
        rfl
      · rfl
    refine ⟨done, h.move (hpending rfl rfl rfl) ⟨hremaining.1.congr hsame, ?_⟩ fun p _ => hsame p⟩
    exact fun hf => hremaining.2 ((hsame c.slot).free.mp hf)
  | stack =>
    have hsame (p : Nat) : SameSlot m (m.createStep cfg c .stack) p := by
      apply storePcb_sameSlot fun pcb => { pcb with stack := cfg.stackBase c.slot }
      · rfl
      · intro pcb
        rfl
      · intro pcb
        rfl
      · rfl
    refine ⟨done, h.move (hpending rfl rfl rfl) ⟨hremaining.1.congr hsame, ?_⟩ fun p _ => hsame p⟩
    exact fun hf => hremaining.2 ((hsame c.slot).free.mp hf)
  | name =>
    obtain ⟨⟨hslot, hlt, hentry, hrest⟩, hused⟩ := hremaining
    have hsame (p : Nat) (hp : p ≠ c.slot) : SameSlot m (m.createStep cfg c .name) p := by
      refine .of_eq ?_ rfl
      show storePcb m.table c.slot (fun pcb => { pcb with name := pcbName c.name }) p = m.table p
      exact storePcb_ne hp
    refine ⟨_, h.returns hpc rfl (fun p hp => hsame p (hslot ▸ hp)) (fun hfull => ?_) (fun _ => ?_)
      hrest⟩
    · omega
    · rw [← hslot]
      refine ⟨fun hf => hused ?_, hentry, ?_⟩
      · exact (storePcb_field Pcb.state (by intro; rfl) c.slot).symm.trans hf
      · exact congrArg Pcb.name (storePcb_self _)

theorem InTurn.shell (h : InTurn all done m) (hs : ShellStep cfg m m') :
    ∃ done, InTurn all done m' := by
  have hremaining := h.remaining
  have hsame (p : Nat) {m' : Machine} (htable : m'.table = m.table)
      (hthread : m'.thread = m.thread) : SameSlot m m' p :=
    .of_eq (congrFun htable p) (congrFun hthread p)
  have hvacant {m' : Machine} (hv : VacantFrom m done.length) (htable : m'.table = m.table)
      (hthread : m'.thread = m.thread) : VacantFrom m' done.length :=
    hv.congr fun p _ => hsame p htable hthread
  cases hs with
  | create hpc => exact h.create hpc
  | start hpc htodo =>
    rename_i call rest
    rw [hpc] at hremaining
    refine ⟨done, h.move ?_ ?_ fun p _ => hsame p rfl rfl⟩
    · rw [Shell.pending, Shell.pending, hpc, htodo]
      cases call <;> rfl
    · cases call with
      | create name entry =>
        exact ⟨Nat.one_pos, Nat.le_add_left .., hvacant hremaining rfl rfl⟩
      | _ => exact hvacant hremaining rfl rfl
  | killTest hpc hpid hlt hstate =>
    rw [hpc] at hremaining
    refine ⟨done, h.move ?_ ⟨hstate, hvacant hremaining rfl rfl⟩ fun p _ => hsame p rfl rfl⟩
    rw [Shell.pending, Shell.pending, hpc]
    rfl
  | kill hpc =>
    rename_i pid
    rw [hpc] at hremaining
    have hkilled (q : Nat) : SameSlot m
        ({ m with table := processTerminate m.table pid }.shellGoto .idle) q := by
      refine ⟨?_, rfl, processTerminate_name ..⟩
      show (processTerminate m.table pid q).state = .free ↔ _
      rw [processTerminate_state]
      split
      · rename_i heq
        rw [heq.1]
        exact iff_of_false (by decide) hremaining.1
      · rfl
    refine ⟨done, h.move ?_ (hremaining.2.congr fun p _ => hkilled p) fun p _ => hkilled p⟩
    rw [Shell.pending, Shell.pending, hpc]
    rfl
  | noSuchProcess hpc | initLocked hpc | initOwner hpc | initWaiters hpc | reset hpc =>
    rw [hpc] at hremaining
    refine ⟨done, h.move ?_ (hvacant hremaining rfl rfl) fun p _ => hsame p rfl rfl⟩
    rw [Shell.pending, Shell.pending, hpc]
    rfl

/-- A transition, with what holds of its state in every run. -/
theorem InTurn.step {a : Act} (h : Sound m ∧ ∃ done, InTurn all done m)
    (hs : step cfg m a = some m') : Sound m' ∧ ∃ done, InTurn all done m' := by
  refine ⟨h.1.step hs, ?_⟩
  refine (step_invariant (I := fun m => Sound m ∧ ∃ done, InTurn all done m) ?_ ?_ ?_ ?_ ?_ h hs).2
  · rintro m' ⟨hsound, done, h⟩ hfault hcur hstep
    exact ⟨hsound.thread hfault hcur hstep, done, h.congr hstep.shell_eq (hstep.sameSlot hsound)⟩
  · rintro ⟨hsound, done, h⟩ hfault - -
    exact ⟨hsound.yield hfault, done, h.congr rfl (goto_sameSlot _ _)⟩
  · rintro m' ⟨hsound, done, h⟩ - - hstep
    exact ⟨hsound.shell hstep, h.shell hstep⟩
  · rintro m₁ out next ⟨hsound, done, h⟩ hfault hpick
    exact ⟨hsound.switch hfault hpick, done, h.congr rfl (switchTo_sameSlot hsound hpick)⟩
  · rintro words ⟨hsound, done, h⟩ hfault
    exact ⟨hsound.work hfault words, done, h.congr rfl fun _ => .of_eq rfl rfl⟩

end Steps

/-! ## Runs -/

theorem inTurn_boot (m : Machine) (calls : List ShellCall) :
    InTurn (creations calls) [] (boot m calls) where
  split := rfl
  taken _ _ hx := absurd hx (by simp)
  remaining p hp hlt := by
    refine ⟨?_, rfl⟩
    show (processInit m.table p).state = .free
    rw [processInit, if_neg (by omega), if_pos hlt]
    rfl
  outside _ _ := rfl

theorem inTurn_of_reaches {cfg : Config} {ok : Machine → Act → Prop} {m m' : Machine}
    {calls : List ShellCall} (h : Reaches (step cfg) ok (boot m calls) m') :
    ∃ done, InTurn (creations calls) done m' :=
  (h.invariant (P := fun m => Sound m ∧ ∃ done, InTurn (creations calls) done m)
    ⟨boot_sound m calls, [], inTurn_boot m calls⟩ fun _ _ _ hs _ hstep => InTurn.step hs hstep).2

section Runs

variable {m : Machine} {all done : List (CString × Nat)}

/-- The slot behind those that are given away is vacant as well, unless a creation fills it. -/
theorem Remaining.cases {pc : ShellPc} {n : Nat} (h : Remaining m n pc) :
    VacantFrom m n ∨ ∃ c stage, pc = .create c stage ∧ Filling m n c := by
  cases pc with
  | create c stage =>
    cases stage with
    | scan => exact .inl h.2.2
    | push k =>
      cases k with
      | zero => exact .inl h.2.2
      | succ k => exact .inr ⟨c, .push (k + 1), rfl, h⟩
    | pid | state => exact .inr ⟨c, _, rfl, h⟩
    | esp | stack | name => exact .inr ⟨c, _, rfl, h.1⟩
  | killStore pid => exact .inl h.2
  | _ => exact .inl h

theorem InTurn.vacant (h : InTurn all done m) : VacantFrom m (done.length + 1) := by
  rcases h.remaining.cases with hvacant | ⟨c, stage, -, hfilling⟩
  · exact hvacant.mono (Nat.le_succ _)
  · exact hfilling.rest

/-- What runs in the slot behind those that are given away is what the shell creates. -/
theorem InTurn.next (h : InTurn all done m) {entry : Nat} (hlt : done.length + 1 < maxProcesses)
    (hentry : (m.thread (done.length + 1)).entry = some entry) :
    ∃ name, m.shell.pending.head? = some (name, entry) := by
  rcases h.remaining.cases with hvacant | ⟨c, stage, hpc, hfilling⟩
  · rw [(hvacant _ (Nat.lt_succ_self _) hlt).entry] at hentry
    cases hentry
  · have hrun := hfilling.entry
    rw [hfilling.slot, hentry, Option.some_inj] at hrun
    refine ⟨c.name, ?_⟩
    rw [Shell.pending, hpc, hrun]
    rfl

/-- A thread runs what the creation of its number has given it. -/
theorem InTurn.creation (h : InTurn all done m) {p entry : Nat}
    (hentry : (m.thread p).entry = some entry) :
    ∃ q name, p = q + 1 ∧ p < maxProcesses ∧ all[q]? = some (name, entry) := by
  have hin : p ≠ 0 ∧ p < maxProcesses := by
    by_contra hout
    rw [h.outside p (by omega)] at hentry
    cases hentry
  obtain ⟨q, rfl⟩ := Nat.exists_eq_succ_of_ne_zero hin.1
  rw [h.split]
  rcases Nat.lt_trichotomy q done.length with hq | rfl | hq
  · have hget := List.getElem?_eq_getElem hq
    have heq := (h.taken q _ hget hin.2).entry
    rw [Nat.succ_eq_add_one, heq, Option.some_inj] at hentry
    refine ⟨q, (done[q]).1, rfl, hin.2, ?_⟩
    rw [List.getElem?_append_left hq, hget, ← hentry]
  · obtain ⟨name, hhead⟩ := h.next hin.2 hentry
    refine ⟨done.length, name, rfl, hin.2, ?_⟩
    rw [List.getElem?_append_right le_rfl, Nat.sub_self, ← List.head?_eq_getElem?, hhead]
  · have hvacant := h.vacant (q + 1) (by omega) hin.2
    rw [Nat.succ_eq_add_one, hvacant.entry] at hentry
    cases hentry

end Runs

/-- In every state of every run, with the stores of `process_create` between the steps of threads
and the ticks: the processes created so far, in the order of their creation, hold the slots from 1
on for as long as there are slots; the slots behind are vacant but for one that is being filled;
and a thread runs the entry point that the creation of its number has given it. -/
theorem creations_in_turn (cfg : Config) (m₀ : Machine) (calls : List ShellCall) {m : Machine}
    (h : Reaches (step cfg) Always (boot m₀ calls) m) :
    ∃ done, creations calls = done ++ m.shell.pending ∧
      (∀ p x, done[p]? = some x → p + 1 < maxProcesses → Occupies m (p + 1) x.1 x.2) ∧
      VacantFrom m (done.length + 1) ∧ (m.shell.pc = .idle → VacantFrom m done.length) ∧
      ∀ p entry, (m.thread p).entry = some entry →
        ∃ q name, p = q + 1 ∧ p < maxProcesses ∧ (creations calls)[q]? = some (name, entry) := by
  obtain ⟨done, hturn⟩ := inTurn_of_reaches h
  refine ⟨done, hturn.split, hturn.taken, hturn.vacant, fun hidle => ?_, fun p entry hentry => ?_⟩
  · have hremaining := hturn.remaining
    rw [hidle] at hremaining
    exact hremaining
  · exact hturn.creation hentry

/-- After one creation the process is in slot 1 and slot 2 is vacant. -/
theorem creations_in_turn_one :
    ∃ m, Reaches (step ⟨fun _ => [], 0x20000⟩) Always (boot .blank [.create kernelName 1]) m ∧
      Occupies m 1 kernelName 1 ∧ Vacant m 2 := by
  obtain ⟨m, hm, hP⟩ := reaches_of_any (step ⟨fun _ => [], 0x20000⟩) Always
    (boot .blank [.create kernelName 1]) (execs 16)
    (fun m => match m.shell.pc with | .idle => m.shell.todo.isEmpty | _ => false)
    (by decide +kernel)
  obtain ⟨done, hsplit, htaken, -, hvacant, -⟩ :=
    creations_in_turn ⟨fun _ => [], 0x20000⟩ .blank [.create kernelName 1] hm
  have hidle : m.shell.pc = .idle := by
    split at hP
    · assumption
    · cases hP
  have htodo : m.shell.todo = [] := by
    rw [hidle] at hP
    exact List.isEmpty_iff.mp hP
  rw [Shell.pending, hidle] at hsplit
  dsimp only at hsplit
  rw [htodo, creations, creations, List.append_nil] at hsplit
  subst hsplit
  exact ⟨m, hm, htaken 0 _ rfl (by decide), hvacant hidle 2 (by decide) (by decide)⟩

end SengOs.Kernel
