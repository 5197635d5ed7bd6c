import SengOs.Kernel.Sound

/-!
# The contexts that a switch can load

A process that is not running can be resumed: its saved stack pointer leads to the frame that
`process_create` built or `context_switch` saved for it. The one exception is the slot that
`process_create` has marked READY and not yet given a stack pointer.
-/

namespace SengOs.Kernel

open Transition

/-- The shell is in `process_create`, between its stores to `state` and to `esp` of `p`. -/
def HalfCreated (m : Machine) (p : Nat) : Prop := ∃ c, m.shell.pc = .create c .esp ∧ c.slot = p

/-- The slot number is the pid, and the saved stack pointer points inside the stack of the
slot at a complete switch frame. -/
structure ValidContext (cfg : Config) (m : Machine) (p : Nat) : Prop where
  pid : (m.table p).pid = p
  above : cfg.stackBase p ≤ (m.table p).esp
  below : (m.table p).esp + 4 * frameWords ≤ cfg.stackBase p + stackSize
  frame : m.SavedFrame cfg p

/-- What holds of an occupied slot once it has a stack pointer. -/
structure Resumable (cfg : Config) (m : Machine) (p : Nat) : Prop where
  pid : (m.table p).pid = p
  frame : p ≠ m.current → m.SavedFrame cfg p

structure Contexts (cfg : Config) (m : Machine) : Prop where
  resumable : ∀ p < maxProcesses, (m.table p).state ≠ .free → ¬HalfCreated m p →
    Resumable cfg m p
  half : ∀ p, HalfCreated m p → (m.table p).state = .ready ∨ p = m.current
  kill : ∀ pid, m.shell.pc = .killStore pid → (m.table pid).state ≠ .free

variable {cfg : Config} {m m' : Machine} {p : Nat} {out : Frame}

theorem Resumable.valid (h : Resumable cfg m p) (hp : p ≠ m.current) :
    ValidContext cfg m p := by
  obtain ⟨fr, hfr, hesp, hwords⟩ := h.frame hp
  have hroom := fr.room
  simp only [stackWords, stackSize, frameWords] at hroom
  refine ⟨h.pid, ?_, ?_, fr, hfr, hesp, hwords⟩
  · omega
  · simp only [stackSize, frameWords]
    omega

theorem Resumable.congr (h : Resumable cfg m p) (hcur : m'.current = m.current)
    (hpid : (m'.table p).pid = (m.table p).pid) (hesp : (m'.table p).esp = (m.table p).esp)
    (hframe : m'.frame p = m.frame p)
    (hstack : p ≠ m.current → m'.stackMem p = m.stackMem p) : Resumable cfg m' p := by
  refine ⟨hpid.trans h.pid, fun hp => ?_⟩
  rw [hcur] at hp
  exact (savedFrame_congr hframe hesp (hstack hp)).mpr (h.frame hp)

theorem HalfCreated.not_saved (hsound : Sound m) (h : HalfCreated m p) :
    ¬m.SavedFrame cfg p := by
  obtain ⟨c, hpc, rfl⟩ := h
  exact not_savedFrame (hsound.creating c .esp hpc).2.2.2.1

theorem HalfCreated.ne_current (hsound : Sound m) (hfault : m.fault = false)
    (h : HalfCreated m p) : p ≠ m.current := by
  obtain ⟨c, hpc, rfl⟩ := h
  intro heq
  rw [(hsound.creating c .esp hpc).2.2.2.2 heq.symm] at hfault
  cases hfault

namespace Contexts

theorem thread (h : Contexts cfg m) (hsound : Sound m) (hfault : m.fault = false)
    (hs : ThreadStep m m.current m') : Contexts cfg m' where
  resumable p hp hstate hhalf := by
    have hesp : (m'.table p).esp = (m.table p).esp := by
      rcases hs.table_cases with heq | ⟨-, heq⟩ | ⟨t, -, heq⟩ | ⟨-, heq⟩
      · rw [heq]
      · rw [heq, setState_esp]
      · rw [heq, setState_esp]
      · rw [heq, processTerminate_esp]
    unfold HalfCreated at hhalf
    rw [hs.shell_eq] at hhalf
    have hold := h.resumable p hp (fun hf => hstate ((hsound.free_iff hs p).mpr hf)) hhalf
    exact hold.congr hs.current_eq (hs.pid_eq p) hesp (by rw [hs.frame_eq])
      (fun _ => by rw [hs.stackMem_eq])
  half p hhalf := by
    unfold HalfCreated at hhalf
    rw [hs.shell_eq] at hhalf
    have hne := HalfCreated.ne_current hsound hfault hhalf
    have hready := (h.half p hhalf).resolve_right hne
    refine .inl ?_
    rcases hs.table_cases with heq | ⟨-, heq⟩ | ⟨t, -, heq⟩ | ⟨-, heq⟩
    · rw [heq, hready]
    · rw [heq, setState_state, if_neg hne, hready]
    · rw [heq, setState_state]
      split
      · rfl
      · exact hready
    · rw [heq, processTerminate_state, if_neg fun hand => hne hand.1, hready]
  kill pid hpc := by
    rw [hs.shell_eq] at hpc
    exact fun hf => h.kill pid hpc ((hsound.free_iff hs pid).mp hf)

theorem switch (h : Contexts cfg m) (hsound : Sound m) (hfault : m.fault = false) {next : Nat}
    (hpick : pickNext m.table m.current = some next) :
    Contexts cfg (m.switchTo cfg out next) := by
  have hready := (pickNext_some hpick).2
  have hfree := switchTo_free_iff cfg out hsound.occupied hready
  constructor
  case resumable =>
    intro p hp hstate hhalf
    have hold := h.resumable p hp (fun hf => hstate ((hfree p).mpr hf)) hhalf
    refine ⟨(switchTo_pid p).trans hold.pid, fun _ => ?_⟩
    rcases eq_or_ne p m.current with rfl | hcur
    · exact switchTo_savedFrame_self
    · exact (switchTo_savedFrame_ne _ _ hcur).mpr (hold.frame hcur)
  case half =>
    intro p hhalf
    have hne := HalfCreated.ne_current hsound hfault hhalf
    rcases eq_or_ne p next with rfl | hnext
    · exact .inr rfl
    · refine .inl ?_
      rw [switchTo_state, if_neg hnext, if_neg fun hand => hne hand.1]
      exact (h.half p hhalf).resolve_right hne
  case kill =>
    intro pid hpc
    exact fun hf => h.kill pid hpc ((hfree pid).mp hf)

/-- A transition of the shell keeps the contexts if every slot that is now occupied and has a
stack pointer was so before, with the same frame. -/
theorem shell_congr (h : Contexts cfg m) (hcur : m'.current = m.current)
    (hslot : ∀ p, (m'.table p).state ≠ .free → ¬HalfCreated m' p →
      ((m.table p).state ≠ .free ∧ ¬HalfCreated m p) ∧
        (m'.table p).pid = (m.table p).pid ∧ (m'.table p).esp = (m.table p).esp ∧
        m'.frame p = m.frame p ∧ m'.stackMem p = m.stackMem p)
    (hhalf : ∀ p, HalfCreated m' p → (m'.table p).state = .ready)
    (hkill : ∀ pid, m'.shell.pc = .killStore pid → (m'.table pid).state ≠ .free) :
    Contexts cfg m' where
  resumable p hp hstate hnot := by
    obtain ⟨⟨hold, hnot⟩, hpid, hesp, hframe, hstack⟩ := hslot p hstate hnot
    exact (h.resumable p hp hold hnot).congr hcur hpid hesp hframe fun _ => hstack
  half p hp := .inl (hhalf p hp)
  kill := hkill

theorem not_half (h : ∀ c, m.shell.pc ≠ .create c .esp) (p : Nat) : ¬HalfCreated m p :=
  fun ⟨c, hpc, _⟩ => h c hpc

/-- The store of `esp` completes the context of the slot. -/
theorem esp (h : Contexts cfg m) (hsound : Sound m) {c : Creation}
    (hpc : m.shell.pc = .create c .esp) : Contexts cfg (m.createStep cfg c .esp) := by
  obtain ⟨hpushed, hfree, hpid, -⟩ := hsound.creating c .esp hpc
  have hslot : (m.createStep cfg c .esp).SavedFrame cfg c.slot := by
    refine ⟨newFrame c.entry, Function.update_self .., setEsp_self .., fun k hk => ?_⟩
    have hword := hpushed.words (8 - k) (by simp only [frameWords]; omega)
    rw [show stackWords - 1 - (8 - k) = (newFrame c.entry).top + k by
      simp only [newFrame, stackWords, stackSize, frameWords] at *
      omega] at hword
    refine hword.trans ?_
    unfold pushedWord
    exact if_congr (by simp only [frameWords] at hk; omega) rfl rfl
  constructor
  case resumable =>
    intro p hp hstate _
    have hstate : (m.table p).state ≠ .free := by
      rwa [← setEsp_state m.table c.slot (cfg.stackBase c.slot + 4 * (newFrame c.entry).top) p]
    have hpid' : ((m.createStep cfg c .esp).table p).pid = (m.table p).pid := setEsp_pid ..
    rcases eq_or_ne p c.slot with rfl | hne
    · exact ⟨hpid'.trans hpid, fun _ => hslot⟩
    · have hnot : ¬HalfCreated m p := by
        rintro ⟨c', hpc', rfl⟩
        rw [hpc] at hpc'
        cases hpc'
        exact hne rfl
      refine (h.resumable p hp hstate hnot).congr rfl hpid' ?_ (Function.update_of_ne hne ..)
        fun _ => rfl
      exact congrArg Pcb.esp (setEsp_ne hne)
  case half => exact fun p hhalf => absurd hhalf (not_half (fun _ hpc => by cases hpc) p)
  case kill => exact nofun

theorem create (h : Contexts cfg m) (hsound : Sound m) {c : Creation} {stage : CreateStage}
    (hpc : m.shell.pc = .create c stage) : Contexts cfg (m.createStep cfg c stage) := by
  have hc := hsound.creating c stage hpc
  have hnot (hstage : stage ≠ .esp) (p : Nat) : ¬HalfCreated m p := by
    refine not_half (fun c' hpc' => ?_) p
    rw [hpc] at hpc'
    cases hpc'
    exact hstage rfl
  -- a store to a field that no context depends on
  have hfield (hstage : stage ≠ .esp) (f : Pcb → Pcb) {m' : Machine}
      (htable : m'.table = storePcb m.table c.slot f)
      (hf : ∀ pcb, (f pcb).state = pcb.state ∧ (f pcb).esp = pcb.esp)
      (hpid : ∀ q, (m.table q).state ≠ .free → (m'.table q).pid = (m.table q).pid)
      (hcur : m'.current = m.current) (hframe : m'.frame = m.frame)
      (hstack : m'.stackMem = m.stackMem) (hesp : ∀ c, m'.shell.pc ≠ .create c .esp)
      (hkill : ∀ pid, m'.shell.pc ≠ .killStore pid) : Contexts cfg m' := by
    have hstate (q : Nat) : (m'.table q).state = (m.table q).state := by
      rw [htable]
      exact storePcb_field Pcb.state (fun pcb => (hf pcb).1) q
    refine h.shell_congr hcur (fun q hq _ => ?_) (fun q hq => absurd hq (not_half hesp q))
      (fun pid hpc => absurd hpc (hkill pid))
    rw [hstate] at hq
    refine ⟨⟨hq, hnot hstage q⟩, hpid q hq, ?_, by rw [hframe], by rw [hstack]⟩
    rw [htable]
    exact storePcb_field Pcb.esp (fun pcb => (hf pcb).2) q
  cases stage with
  | scan =>
    have hshell (pc : ShellPc) (hesp : ∀ c, pc ≠ .create c .esp)
        (hkill : ∀ pid, pc ≠ .killStore pid) : Contexts cfg (m.shellGoto pc) :=
      h.shell_congr rfl (fun q hq _ => ⟨⟨hq, hnot nofun q⟩, rfl, rfl, rfl, rfl⟩)
        (fun q hq => absurd hq (not_half hesp q)) (fun pid hpc => absurd hpc (hkill pid))
    dsimp only [Machine.createStep]
    split
    · exact hshell _ nofun nofun
    · split
      · exact hshell _ nofun nofun
      · exact hshell _ (fun _ hpc => by cases hpc) nofun
  | push k =>
    obtain ⟨-, -, hfree⟩ := hc
    have hnext (c' : Creation) : (m.createStep cfg c (.push k)).shell.pc ≠ .create c' .esp := by
      show ShellPc.create c (if _ then _ else _) ≠ _
      split <;> nofun
    refine h.shell_congr rfl (fun q hq _ => ⟨⟨hq, hnot nofun q⟩, rfl, rfl, rfl, ?_⟩)
      (fun q hq => absurd hq (not_half hnext q)) nofun
    refine Function.update_of_ne ?_ ..
    rintro rfl
    exact hq hfree
  | pid =>
    refine hfield nofun (fun pcb => { pcb with pid := c.slot }) rfl (fun _ => ⟨rfl, rfl⟩)
      (fun q hq => ?_) rfl rfl rfl (fun _ hpc => by cases hpc) nofun
    have hne : q ≠ c.slot := by
      rintro rfl
      exact hq hc.2
    show (storePcb m.table c.slot _ q).pid = _
    rw [storePcb_ne hne]
  | state =>
    refine h.shell_congr rfl (fun q hq hhalf => ?_) ?_ nofun
    · have hne : q ≠ c.slot := fun heq => hhalf ⟨c, rfl, heq.symm⟩
      have hq : (m.table q).state ≠ .free := by
        refine fun hf => hq ((setState_state ..).trans ?_)
        rw [if_neg hne, hf]
      exact ⟨⟨hq, hnot nofun q⟩, setState_pid .., setState_esp .., rfl, rfl⟩
    · rintro q ⟨c', hpc', rfl⟩
      cases hpc'
      exact (setState_state ..).trans (if_pos rfl)
  | esp => exact h.esp hsound hpc
  | stack =>
    exact hfield nofun (fun pcb => { pcb with stack := cfg.stackBase c.slot }) rfl
      (fun _ => ⟨rfl, rfl⟩) (fun q _ => storePcb_field Pcb.pid (by intro; rfl) q) rfl rfl rfl
      (fun _ hpc => by cases hpc) nofun
  | name =>
    exact hfield nofun (fun pcb => { pcb with name := pcbName c.name }) rfl
      (fun _ => ⟨rfl, rfl⟩) (fun q _ => storePcb_field Pcb.pid (by intro; rfl) q) rfl rfl rfl
      (fun _ hpc => by cases hpc) nofun

theorem shell (h : Contexts cfg m) (hsound : Sound m) (hs : ShellStep cfg m m') :
    Contexts cfg m' := by
  have hsame {m' : Machine} (hpc : ∀ c, m.shell.pc ≠ .create c .esp)
      (htable : m'.table = m.table) (hcur : m'.current = m.current)
      (hframe : m'.frame = m.frame) (hstack : m'.stackMem = m.stackMem)
      (hesp : ∀ c, m'.shell.pc ≠ .create c .esp)
      (hkill : ∀ pid, m'.shell.pc = .killStore pid → (m'.table pid).state ≠ .free) :
      Contexts cfg m' := by
    refine h.shell_congr hcur (fun q hq _ => ?_) (fun q hq => absurd hq (not_half hesp q)) hkill
    rw [htable] at hq ⊢
    exact ⟨⟨hq, not_half hpc q⟩, rfl, rfl, by rw [hframe], by rw [hstack]⟩
  cases hs with
  | create hpc => exact h.create hsound hpc
  | killTest hpc hpid hlt hstate =>
    refine hsame (fun c => hpc ▸ nofun) rfl rfl rfl rfl (fun _ hpc => by cases hpc) ?_
    rintro _ ⟨⟩
    exact hstate
  | kill hpc =>
    rename_i pid
    refine h.shell_congr rfl (fun q hq _ => ?_)
      (fun q hq => absurd hq (not_half (fun _ hpc => by cases hpc) q)) nofun
    refine ⟨⟨fun hf => ?_, not_half (fun c => hpc ▸ nofun) q⟩, processTerminate_pid ..,
      processTerminate_esp .., rfl, rfl⟩
    rcases eq_or_ne q pid with rfl | hne
    · exact h.kill q hpc hf
    · refine hq ((processTerminate_state ..).trans ?_)
      rw [if_neg fun hand => hne hand.1, hf]
  | start hpc htodo =>
    rename_i call _
    refine hsame (fun c => hpc ▸ nofun) rfl rfl rfl rfl (fun c => ?_) (fun pid => ?_)
    · cases call <;> nofun
    · cases call <;> nofun
  | noSuchProcess hpc | initLocked hpc | initOwner hpc | initWaiters hpc | reset hpc =>
    exact hsame (fun c => hpc ▸ nofun) rfl rfl rfl rfl (fun _ hpc => by cases hpc) nofun

theorem work (h : Contexts cfg m) (words : Nat → Nat) :
    Contexts cfg { m with stackMem := Function.update m.stackMem m.current words } where
  resumable p hp hstate hhalf := (h.resumable p hp hstate hhalf).congr rfl rfl rfl rfl
    fun hne => Function.update_of_ne hne ..
  half := h.half
  kill := h.kill

theorem yield (h : Contexts cfg m) : Contexts cfg (m.goto m.current (.lockXchg true)) where
  resumable p hp hstate hhalf := (h.resumable p hp hstate hhalf).congr rfl rfl rfl rfl
    fun _ => rfl
  half := h.half
  kill := h.kill

theorem step {a : Act} (h : Contexts cfg m ∧ Sound m) (hs : step cfg m a = some m') :
    Contexts cfg m' := by
  refine (step_invariant (I := fun m => Contexts cfg m ∧ Sound m) ?_ ?_ ?_ ?_ ?_ h hs).1
  · exact fun _ h hfault hcur hs => ⟨h.1.thread h.2 hfault hs, h.2.thread hfault hcur hs⟩
  · exact fun h hfault _ _ => ⟨h.1.yield, h.2.yield hfault⟩
  · exact fun _ h _ _ hs => ⟨h.1.shell h.2 hs, h.2.shell hs⟩
  · exact fun _ _ _ h hfault hpick =>
      ⟨h.1.switch h.2 hfault hpick, h.2.switch hfault hpick⟩
  · exact fun words h hfault => ⟨h.1.work words, h.2.work hfault words⟩

end Contexts

theorem boot_contexts (m : Machine) (calls : List ShellCall) : Contexts cfg (boot m calls) where
  resumable p hp hstate _ := by
    rcases eq_or_ne p 0 with rfl | hne
    · exact ⟨rfl, fun h => absurd rfl h⟩
    · refine absurd ?_ hstate
      show (processInit m.table p).state = _
      rw [processInit, if_neg hne, if_pos hp]
      rfl
  half p h := absurd h (Contexts.not_half (fun _ hpc => by cases hpc) p)
  kill := nofun

theorem contexts_of_reaches {ok : Machine → Act → Prop} {calls : List ShellCall}
    (h : Reaches (step cfg) ok (boot m calls) m') : Contexts cfg m' ∧ Sound m' :=
  h.invariant (P := fun m => Contexts cfg m ∧ Sound m) ⟨boot_contexts m calls, boot_sound m calls⟩
    fun _ _ _ h _ hs => ⟨Contexts.step h hs, h.2.step hs⟩

/-- In every run, every READY process that is not current has a valid context exactly when the
shell is not between the stores of a `process_create` to `state` and to `esp`; and the context
that a switch is about to load is valid exactly when it is not that of this slot. -/
theorem ready_contexts_valid_iff (cfg : Config) (m₀ : Machine) (calls : List ShellCall)
    {m : Machine} (h : Reaches (step cfg) Always (boot m₀ calls) m) :
    ((∀ p < maxProcesses, p ≠ m.current → (m.table p).state = .ready → ValidContext cfg m p) ↔
      ¬∃ p, p ≠ m.current ∧ HalfCreated m p) ∧
    ∀ next, pickNext m.table m.current = some next →
      (ValidContext cfg m next ↔ ¬HalfCreated m next) := by
  obtain ⟨hcontexts, hsound⟩ := contexts_of_reaches h
  have hvalid {p : Nat} (hp : p < maxProcesses) (hne : p ≠ m.current)
      (hready : (m.table p).state = .ready) (hnot : ¬HalfCreated m p) :
      ValidContext cfg m p :=
    (hcontexts.resumable p hp (by rw [hready]; decide) hnot).valid hne
  refine ⟨⟨fun hall => ?_, fun hnone p hp hne hready => ?_⟩, fun next hpick => ⟨?_, ?_⟩⟩
  · rintro ⟨p, hne, hhalf⟩
    have hready := (hcontexts.half p hhalf).resolve_right hne
    have hlt : p < maxProcesses := by
      obtain ⟨c, hpc, rfl⟩ := hhalf
      exact (hsound.creating c .esp hpc).1.lt
    exact hhalf.not_saved hsound (hall p hlt hne hready).frame
  · exact hvalid hp hne hready fun hhalf => hnone ⟨p, hne, hhalf⟩
  · exact fun hctx hhalf => hhalf.not_saved hsound hctx.frame
  · obtain ⟨hlt, hready⟩ := pickNext_some hpick
    exact hvalid hlt (pickNext_ne hsound.current_lt hpick) hready

def noCalls : Config := ⟨fun _ => [], 0x20000⟩

/-- A created process has a valid context before it first runs. -/
theorem ready_context_valid_after_create :
    ∃ m, Reaches (step noCalls) Always
        (boot .blank [.create kernelName 0x1000]) m ∧
      (m.table 1).state = .ready ∧ ValidContext noCalls m 1 := by
  obtain ⟨m, hm, hP⟩ := reaches_of_any (step noCalls)
    Always (boot .blank [.create kernelName 0x1000])
    (execs 16)
    (fun m => decide (m.current = 0 ∧ (m.table 1).state = .ready) &&
      m.shell.pc matches .idle) (by decide +kernel)
  rw [Bool.and_eq_true, decide_eq_true_eq] at hP
  obtain ⟨⟨hcur, hready⟩, hidle⟩ := hP
  refine ⟨m, hm, hready, ?_⟩
  refine (ready_contexts_valid_iff _ _ _ hm).1.mpr ?_ 1 (by decide) (by rw [hcur]; decide) hready
  rintro ⟨p, -, c, hpc, -⟩
  rw [hpc] at hidle
  cases hidle

/-- A tick after the store of READY finds a slot with no stack pointer and switches to it. -/
theorem ready_without_context :
    ∃ m, Reaches (step noCalls) Always
        (boot .blank [.create kernelName 0x1000]) m ∧
      1 ≠ m.current ∧ (m.table 1).state = .ready ∧ (m.table 1).esp = 0 ∧
      ¬ValidContext noCalls m 1 ∧ pickNext m.table m.current = some 1 := by
  obtain ⟨m, hm, hP⟩ := reaches_of_any (step noCalls)
    Always (boot .blank [.create kernelName 0x1000])
    (execs 13)
    (fun m => decide (1 ≠ m.current ∧ (m.table 1).state = .ready ∧
      (m.table 1).esp = 0 ∧ (m.frame 1).isNone ∧ pickNext m.table m.current = some 1))
    (by decide +kernel)
  obtain ⟨hcur, hready, hesp, hnone, hpick⟩ := of_decide_eq_true hP
  refine ⟨m, hm, hcur, hready, hesp, fun hctx => ?_, hpick⟩
  exact not_savedFrame (Option.isNone_iff_eq_none.mp hnone) hctx.frame

end SengOs.Kernel
