import SengOs.Kernel.Steps

/-!
# What holds in every run

`Sound` collects the facts that do not depend on what the programs do: the shell is always
READY or RUNNING, a FREE slot has no thread and no frame, and the slot that `process_create`
is working on is in the state that its next store expects.
-/

namespace SengOs.Kernel

open Transition

/-- `process_create` has pushed `n` words onto the stack of its slot. -/
structure Pushed (m : Machine) (c : Creation) (n : Nat) : Prop where
  pos : c.slot ≠ 0
  lt : c.slot < maxProcesses
  words : ∀ j < n, m.stackMem c.slot (stackWords - 1 - j) = pushedWord c.entry j

/-- What `process_create` can rely on at each of its points. Once the slot is READY a switch
to it has no frame to load, which is a fault. -/
def CreateSound (m : Machine) (c : Creation) : CreateStage → Prop
  | .scan => c.slot ≠ 0
  | .push k => k < frameWords ∧ Pushed m c k ∧ (m.table c.slot).state = .free
  | .pid => Pushed m c frameWords ∧ (m.table c.slot).state = .free
  | .state => Pushed m c frameWords ∧ (m.table c.slot).state = .free ∧
      (m.table c.slot).pid = c.slot
  | .esp => Pushed m c frameWords ∧ (m.table c.slot).state ≠ .free ∧
      (m.table c.slot).pid = c.slot ∧ m.frame c.slot = none ∧
      (m.current = c.slot → m.fault = true)
  | .stack | .name => True

structure Sound (m : Machine) : Prop where
  current_lt : m.current < maxProcesses
  occupied : (m.table m.current).state ≠ .free
  shell_state : (m.table 0).state = if m.current = 0 then .running else .ready
  unused : ∀ p, p ≠ 0 → (m.table p).state = .free →
    (m.thread p).Untouched ∧ m.frame p = none
  outside : ∀ p, maxProcesses ≤ p → (m.thread p).Untouched
  woken : ∀ q t, (m.thread q).pc = .unblockStore t → t ≠ 0 ∧ (m.table t).state ≠ .free
  creating : ∀ c stage, m.shell.pc = .create c stage → CreateSound m c stage

/-! ## The slot of a creation is left alone by the others -/

section Creation

variable {m m' : Machine} {c : Creation} {stage : CreateStage}

theorem Pushed.congr {n : Nat} (h : Pushed m c n)
    (hstack : m'.stackMem c.slot = m.stackMem c.slot) : Pushed m' c n :=
  ⟨h.pos, h.lt, fun j hj => by rw [hstack, h.words j hj]⟩

theorem CreateSound.congr (h : CreateSound m c stage)
    (hstate : (m'.table c.slot).state = .free ↔ (m.table c.slot).state = .free)
    (hpid : (m'.table c.slot).pid = (m.table c.slot).pid)
    (hstack : c.slot ≠ m.current → m'.stackMem c.slot = m.stackMem c.slot)
    (hframe : c.slot ≠ m.current → m'.frame c.slot = m.frame c.slot)
    (hcurrent : (m.table m.current).state ≠ .free) (hfault : m.fault = false)
    (hload : m.frame c.slot = none → m'.current = c.slot → m'.current ≠ m.current →
      m'.fault = true) : CreateSound m' c stage := by
  have hfree (hf : (m.table c.slot).state = .free) : c.slot ≠ m.current := by
    intro heq
    rw [heq] at hf
    exact hcurrent hf
  cases stage with
  | scan => exact h
  | push k => exact ⟨h.1, h.2.1.congr (hstack (hfree h.2.2)), hstate.mpr h.2.2⟩
  | pid => exact ⟨h.1.congr (hstack (hfree h.2)), hstate.mpr h.2⟩
  | state =>
    exact ⟨h.1.congr (hstack (hfree h.2.1)), hstate.mpr h.2.1, hpid.trans h.2.2⟩
  | esp =>
    obtain ⟨hpushed, hnfree, hp, hnone, hcur⟩ := h
    have hne : c.slot ≠ m.current := by
      intro heq
      rw [hcur heq.symm] at hfault
      cases hfault
    exact ⟨hpushed.congr (hstack hne), fun hf => hnfree (hstate.mp hf), hpid.trans hp,
      (hframe hne).trans hnone, fun heq => hload hnone heq (heq.trans_ne hne)⟩
  | stack => trivial
  | name => trivial

end Creation

section Switch

variable {cfg : Config} {m : Machine} {out : Frame} {next : Nat}

theorem switchTo_table : (m.switchTo cfg out next).table =
    setEsp (switchStates m.table m.current next) m.current
      (cfg.stackBase m.current + 4 * out.top) := rfl

theorem switchTo_state (q : Nat) :
    ((m.switchTo cfg out next).table q).state =
      if q = next then .running
      else if q = m.current ∧ (m.table m.current).state = .running then .ready
      else (m.table q).state := by
  rw [switchTo_table, setEsp_state, switchStates_state]

@[simp] theorem switchTo_pid (q : Nat) :
    ((m.switchTo cfg out next).table q).pid = (m.table q).pid := by
  rw [switchTo_table, setEsp_pid, switchStates_pid]

theorem switchTo_esp_ne {q : Nat} (hq : q ≠ m.current) :
    ((m.switchTo cfg out next).table q).esp = (m.table q).esp := by
  rw [switchTo_table, setEsp_ne hq, switchStates_esp]

theorem switchTo_stackMem_ne {q : Nat} (hq : q ≠ m.current) :
    (m.switchTo cfg out next).stackMem q = m.stackMem q := Function.update_of_ne hq ..

theorem switchTo_frame_ne {q : Nat} (hq : q ≠ m.current) :
    (m.switchTo cfg out next).frame q = m.frame q := Function.update_of_ne hq ..

/-- The outgoing process can be resumed. -/
theorem switchTo_savedFrame_self :
    (m.switchTo cfg out next).SavedFrame cfg m.current := by
  refine ⟨out, ?_, ?_, fun k hk => ?_⟩
  · show Function.update _ _ _ _ = _
    rw [Function.update_self]
  · rw [switchTo_table, setEsp_self]
  · rw [show (m.switchTo cfg out next).stackMem m.current = fun i =>
      if out.top ≤ i ∧ i < out.top + frameWords then out.words (i - out.top)
      else m.stackMem m.current i from Function.update_self ..]
    dsimp only
    rw [if_pos ⟨Nat.le_add_right .., Nat.add_lt_add_left hk _⟩, Nat.add_sub_cancel_left]

theorem savedFrame_congr {m' : Machine} {q : Nat} (hframe : m'.frame q = m.frame q)
    (hesp : (m'.table q).esp = (m.table q).esp) (hstack : m'.stackMem q = m.stackMem q) :
    m'.SavedFrame cfg q ↔ m.SavedFrame cfg q := by
  unfold Machine.SavedFrame
  rw [hframe, hesp, hstack]

theorem switchTo_savedFrame_ne (out : Frame) (next : Nat) {q : Nat} (hq : q ≠ m.current) :
    (m.switchTo cfg out next).SavedFrame cfg q ↔ m.SavedFrame cfg q :=
  savedFrame_congr (switchTo_frame_ne hq) (switchTo_esp_ne hq) (switchTo_stackMem_ne hq)

/-- A switch faults unless the incoming process has a context. -/
theorem switchTo_fault (hne : next ≠ m.current) :
    (m.switchTo cfg out next).fault = false ↔ m.SavedFrame cfg next := by
  rw [← switchTo_savedFrame_ne out next hne]
  unfold Machine.switchTo
  rw [Bool.not_eq_false', decide_eq_true_eq]
  rfl

theorem not_savedFrame {q : Nat} (h : m.frame q = none) : ¬m.SavedFrame cfg q := by
  rintro ⟨fr, hfr, -⟩
  rw [h] at hfr
  cases hfr

end Switch

/-! ## Preservation -/

section Preservation

variable {cfg : Config} {m m' : Machine}

theorem ThreadStep.pid_eq {p : Nat} (h : ThreadStep m p m') (q : Nat) :
    (m'.table q).pid = (m.table q).pid := by
  rcases h.table_cases with heq | ⟨-, heq⟩ | ⟨t, -, heq⟩ | ⟨-, heq⟩
  · rw [heq]
  · rw [heq, setState_pid]
  · rw [heq, setState_pid]
  · rw [heq, processTerminate_pid]

theorem Sound.free_iff (h : Sound m) (hs : ThreadStep m m.current m') (q : Nat) :
    (m'.table q).state = .free ↔ (m.table q).state = .free := by
  have hset (p : Nat) (st : ProcessState) (hp : (m.table p).state ≠ .free) (hst : st ≠ .free) :
      (setState m.table p st q).state = .free ↔ (m.table q).state = .free := by
    rw [setState_state]
    split
    · rename_i heq
      subst heq
      exact iff_of_false hst hp
    · rfl
  rcases hs.table_cases with heq | ⟨-, heq⟩ | ⟨t, hpc, heq⟩ | ⟨-, heq⟩
  · rw [heq]
  · rw [heq]
    exact hset _ _ h.occupied (by decide)
  · rw [heq]
    exact hset _ _ (h.woken _ _ hpc).2 (by decide)
  · rw [heq]
    unfold processTerminate
    split
    · rfl
    · exact hset _ _ h.occupied (by decide)

theorem Sound.thread (h : Sound m) (hfault : m.fault = false) (hcur : m.current ≠ 0)
    (hs : ThreadStep m m.current m') : Sound m' where
  current_lt := hs.current_eq ▸ h.current_lt
  occupied := by
    rw [hs.current_eq]
    exact fun hf => h.occupied ((h.free_iff hs _).mp hf)
  shell_state := by
    rw [hs.current_eq, ← h.shell_state]
    rcases hs.table_cases with heq | ⟨-, heq⟩ | ⟨t, hpc, heq⟩ | ⟨-, heq⟩
    · rw [heq]
    · rw [heq, setState_state, if_neg hcur.symm]
    · rw [heq, setState_state, if_neg (h.woken _ _ hpc).1.symm]
    · rw [heq, processTerminate_state, if_neg fun hand => hcur hand.1.symm]
  unused p hp hfree := by
    have hfree := (h.free_iff hs p).mp hfree
    have hne : p ≠ m.current := by
      rintro rfl
      exact h.occupied hfree
    rw [hs.thread_ne hne, hs.frame_eq]
    exact h.unused p hp hfree
  outside p hp := by
    rw [hs.thread_ne (h.current_lt.trans_le hp).ne']
    exact h.outside p hp
  woken q t hpc := by
    have hold : t ≠ 0 ∧ (m.table t).state ≠ .free := by
      rcases eq_or_ne q m.current with rfl | hq
      · obtain ⟨-, hblocked, -⟩ := hs.tested hpc
        refine ⟨?_, by rw [hblocked]; decide⟩
        rintro rfl
        rw [h.shell_state, if_neg hcur] at hblocked
        cases hblocked
      · rw [hs.thread_ne hq] at hpc
        exact h.woken q t hpc
    exact ⟨hold.1, fun hf => hold.2 ((h.free_iff hs t).mp hf)⟩
  creating c stage hpc := by
    rw [hs.shell_eq] at hpc
    exact (h.creating c stage hpc).congr (h.free_iff hs _) (hs.pid_eq _)
      (fun _ => by rw [hs.stackMem_eq]) (fun _ => by rw [hs.frame_eq]) h.occupied hfault
      (fun _ _ hne => absurd hs.current_eq hne)

theorem Sound.yield (h : Sound m) (hfault : m.fault = false) :
    Sound (m.goto m.current (.lockXchg true)) where
  current_lt := h.current_lt
  occupied := h.occupied
  shell_state := h.shell_state
  unused p hp hf := by
    have hne : p ≠ m.current := by
      rintro rfl
      exact h.occupied hf
    rw [Machine.goto_ne hne]
    exact h.unused p hp hf
  outside p hp := by
    rw [Machine.goto_ne (h.current_lt.trans_le hp).ne']
    exact h.outside p hp
  woken q t hpc := h.woken q t (Machine.of_goto (P := (· = .unblockStore t)) hpc nofun).2
  creating c stage hpc := (h.creating c stage hpc).congr Iff.rfl rfl (fun _ => rfl)
    (fun _ => rfl) h.occupied hfault (fun _ _ hne => absurd rfl hne)

theorem switchTo_free_iff (cfg : Config) (out : Frame) {next : Nat}
    (hcur : (m.table m.current).state ≠ .free) (hnext : (m.table next).state = .ready) (q : Nat) :
    ((m.switchTo cfg out next).table q).state = .free ↔ (m.table q).state = .free := by
  rw [switchTo_state]
  split
  · rename_i heq
    rw [heq, hnext]
    decide
  · split
    · rename_i heq
      rw [heq.1]
      exact iff_of_false (by decide) hcur
    · rfl

theorem Sound.switch (h : Sound m) (hfault : m.fault = false) {out : Frame} {next : Nat}
    (hpick : pickNext m.table m.current = some next) : Sound (m.switchTo cfg out next) := by
  obtain ⟨hlt, hready⟩ := pickNext_some hpick
  have hne := pickNext_ne h.current_lt hpick
  have hfree := switchTo_free_iff cfg out h.occupied hready
  constructor
  case current_lt => exact hlt
  case occupied =>
    intro hf
    have := (hfree next).mp hf
    rw [hready] at this
    cases this
  case shell_state =>
    show _ = if next = 0 then _ else _
    rw [switchTo_state]
    rcases eq_or_ne next 0 with rfl | hzero
    · rw [if_pos rfl, if_pos rfl]
    · rw [if_neg hzero.symm, if_neg hzero]
      split
      · rfl
      · rename_i hrun
        rcases eq_or_ne m.current 0 with hcur | hcur
        · exact absurd ⟨hcur.symm, by rw [hcur, h.shell_state, if_pos hcur]⟩ hrun
        · rw [h.shell_state, if_neg hcur]
  case unused =>
    intro p hp hf
    have hf := (hfree p).mp hf
    have hcur : p ≠ m.current := by
      rintro rfl
      exact h.occupied hf
    rw [switchTo_frame_ne hcur]
    exact h.unused p hp hf
  case outside => exact h.outside
  case woken =>
    intro q t hpc
    exact ⟨(h.woken q t hpc).1, fun hf => (h.woken q t hpc).2 ((hfree t).mp hf)⟩
  case creating =>
    intro c stage hpc
    refine (h.creating c stage hpc).congr (hfree _) (switchTo_pid _) switchTo_stackMem_ne
      switchTo_frame_ne h.occupied hfault fun hnone hcur _ => ?_
    rw [← Bool.not_eq_false, switchTo_fault hne, show next = c.slot from hcur]
    exact not_savedFrame hnone

theorem Sound.work (h : Sound m) (hfault : m.fault = false) (words : Nat → Nat) :
    Sound { m with stackMem := Function.update m.stackMem m.current words } where
  current_lt := h.current_lt
  occupied := h.occupied
  shell_state := h.shell_state
  unused := h.unused
  outside := h.outside
  woken := h.woken
  creating c stage hpc := (h.creating c stage hpc).congr Iff.rfl rfl
    (fun hne => Function.update_of_ne hne ..) (fun _ => rfl) h.occupied hfault
    (fun _ _ hne => absurd rfl hne)

/-- A transition of the shell preserves `Sound` if it frees no slot, leaves its own state and
the threads alone, except for a thread that it resets, and meets its own next condition. -/
theorem Sound.shell_congr (h : Sound m) (hcur : m'.current = m.current)
    (hfree : ∀ q, (m'.table q).state = .free → (m.table q).state = .free)
    (hzero : (m'.table 0).state = (m.table 0).state)
    (hthread : ∀ q, m'.thread q = m.thread q ∨ (m'.thread q).Untouched)
    (hframe : ∀ q, (m'.table q).state = .free → m'.frame q = m.frame q)
    (hcreating : ∀ c stage, m'.shell.pc = .create c stage → CreateSound m' c stage) :
    Sound m' where
  current_lt := hcur ▸ h.current_lt
  occupied := by
    rw [hcur]
    exact fun hf => h.occupied (hfree _ hf)
  shell_state := by rw [hzero, hcur, h.shell_state]
  unused p hp hf := by
    obtain ⟨huntouched, hnone⟩ := h.unused p hp (hfree p hf)
    rw [hframe p hf]
    refine ⟨?_, hnone⟩
    rcases hthread p with heq | hp
    · rw [heq]
      exact huntouched
    · exact hp
  outside p hp := by
    rcases hthread p with heq | huntouched
    · rw [heq]
      exact h.outside p hp
    · exact huntouched
  woken q t hpc := by
    rcases hthread q with heq | hq
    · rw [heq] at hpc
      exact ⟨(h.woken q t hpc).1, fun hf => (h.woken q t hpc).2 (hfree t hf)⟩
    · rw [hq.pc] at hpc
      cases hpc
  creating := hcreating

theorem Sound.push (h : Sound m) {c : Creation} {k : Nat} (hc : CreateSound m c (.push k)) :
    Sound (m.createStep cfg c (.push k)) := by
  obtain ⟨hk, hpushed, hfree⟩ := hc
  have hwords : Pushed (m.createStep cfg c (.push k)) c (k + 1) := by
    refine ⟨hpushed.pos, hpushed.lt, fun j hj => ?_⟩
    show Function.update m.stackMem c.slot _ c.slot _ = _
    rw [Function.update_self]
    rcases eq_or_ne j k with rfl | hne
    · rw [Function.update_self]
    · rw [Function.update_of_ne, hpushed.words j (by omega)]
      simp only [stackWords, stackSize, frameWords] at *
      omega
  refine h.shell_congr rfl (fun q hf => hf) rfl (fun q => ?_) (fun q _ => rfl)
    fun c' stage hpc => ?_
  · rcases createStep_thread cfg m c (.push k) q with heq | ⟨-, -, heq⟩
    · exact .inl heq
    · rw [heq]
      exact .inr ⟨rfl, rfl, rfl⟩
  · change ShellPc.create c (if k + 1 < frameWords then .push (k + 1) else .pid) = _ at hpc
    cases hpc
    split
    · rename_i hlt
      exact ⟨hlt, hwords, hfree⟩
    · rename_i hlt
      have hend : k + 1 = frameWords := Nat.le_antisymm hk (not_lt.mp hlt)
      rw [hend] at hwords
      exact ⟨hwords, hfree⟩

theorem Sound.create (h : Sound m) {c : Creation} {stage : CreateStage}
    (hpc : m.shell.pc = .create c stage) : Sound (m.createStep cfg c stage) := by
  have hc := h.creating c stage hpc
  cases stage with
  | scan =>
    dsimp only [Machine.createStep]
    split
    · exact h.shell_congr rfl (fun _ hf => hf) rfl (fun _ => .inl rfl) (fun _ _ => rfl) nofun
    · rename_i hlt
      split
      · rename_i hfree
        refine h.shell_congr rfl (fun _ hf => hf) rfl (fun _ => .inl rfl) (fun _ _ => rfl) ?_
        rintro _ _ ⟨⟩
        exact ⟨by decide, ⟨hc, not_le.mp hlt, nofun⟩, hfree⟩
      · refine h.shell_congr rfl (fun _ hf => hf) rfl (fun _ => .inl rfl) (fun _ _ => rfl) ?_
        rintro _ _ ⟨⟩
        exact Nat.succ_ne_zero _
  | push k => exact h.push hc
  | pid =>
    have hstate (q : Nat) : ((m.createStep cfg c .pid).table q).state = (m.table q).state :=
      storePcb_field Pcb.state (by intro; rfl) q
    refine h.shell_congr rfl (fun q hf => hstate q ▸ hf) (hstate 0) (fun _ => .inl rfl)
      (fun _ _ => rfl) ?_
    rintro _ _ ⟨⟩
    refine ⟨hc.1.congr rfl, (hstate c.slot).trans hc.2, ?_⟩
    show (storePcb m.table c.slot _ c.slot).pid = _
    rw [storePcb_self]
  | state =>
    obtain ⟨hpushed, hfree, hpid⟩ := hc
    have hstate (q : Nat) : ((m.createStep cfg c .state).table q).state =
        if q = c.slot then .ready else (m.table q).state := setState_state ..
    have hne : m.current ≠ c.slot := by
      intro heq
      rw [← heq] at hfree
      exact h.occupied hfree
    refine h.shell_congr rfl (fun q hf => ?_) ?_ (fun _ => .inl rfl) (fun _ _ => rfl) ?_
    · rw [hstate] at hf
      split at hf
      · cases hf
      · exact hf
    · rw [hstate, if_neg hpushed.pos.symm]
    · rintro _ _ ⟨⟩
      refine ⟨hpushed.congr rfl, ?_, ?_, (h.unused _ hpushed.pos hfree).2,
        fun heq => absurd heq hne⟩
      · rw [hstate, if_pos rfl]
        decide
      · exact (setState_pid ..).trans hpid
  | esp =>
    obtain ⟨-, hfree, -⟩ := hc
    have hstate (q : Nat) : ((m.createStep cfg c .esp).table q).state = (m.table q).state :=
      setEsp_state ..
    refine h.shell_congr rfl (fun q hf => hstate q ▸ hf) (hstate 0) (fun _ => .inl rfl)
      (fun q hf => ?_) ?_
    · rw [hstate] at hf
      refine Function.update_of_ne ?_ ..
      rintro rfl
      exact hfree hf
    · rintro _ _ ⟨⟩
      trivial
  | stack =>
    have hstate (q : Nat) : ((m.createStep cfg c .stack).table q).state = (m.table q).state :=
      storePcb_field Pcb.state (by intro; rfl) q
    refine h.shell_congr rfl (fun q hf => hstate q ▸ hf) (hstate 0) (fun _ => .inl rfl)
      (fun _ _ => rfl) ?_
    rintro _ _ ⟨⟩
    trivial
  | name =>
    have hstate (q : Nat) : ((m.createStep cfg c .name).table q).state = (m.table q).state :=
      storePcb_field Pcb.state (by intro; rfl) q
    exact h.shell_congr rfl (fun q hf => hstate q ▸ hf) (hstate 0) (fun _ => .inl rfl)
      (fun _ _ => rfl) nofun

theorem Sound.shell (h : Sound m) (hs : ShellStep cfg m m') : Sound m' := by
  have hsame {m' : Machine} (htable : m'.table = m.table) (hcur : m'.current = m.current)
      (hthread : m'.thread = m.thread) (hframe : m'.frame = m.frame)
      (hcreating : ∀ c stage, m'.shell.pc = .create c stage → CreateSound m' c stage) :
      Sound m' :=
    h.shell_congr hcur (fun q hf => htable ▸ hf) (by rw [htable])
      (fun q => .inl (by rw [hthread])) (fun q _ => by rw [hframe]) hcreating
  cases hs with
  | start hpc htodo =>
    rename_i call _
    refine hsame rfl rfl rfl rfl fun c stage hpc => ?_
    cases call <;> cases hpc
    exact Nat.one_ne_zero
  | create hpc => exact h.create hpc
  | kill hpc =>
    rename_i pid
    refine h.shell_congr rfl (fun q hf => ?_) ?_ (fun _ => .inl rfl) (fun _ _ => rfl) nofun
    · have hf := (processTerminate_state m.table pid q).symm.trans hf
      split at hf
      · cases hf
      · exact hf
    · refine (processTerminate_state m.table pid 0).trans (if_neg ?_)
      exact fun hand => hand.2.1 hand.1.symm
  | noSuchProcess | killTest | initLocked | initOwner | initWaiters | reset =>
    exact hsame rfl rfl rfl rfl nofun

/-- A thread that the shell gives a program has made no call, and makes none by that. -/
theorem Sound.shell_thread (h : Sound m) (hs : ShellStep cfg m m') (q : Nat) :
    m'.thread q = m.thread q ∨ (m.thread q).Untouched ∧ ∃ entry, m'.thread q =
      { Thread.unused with todo := cfg.code entry, entry := some entry } := by
  cases hs with
  | create hpc =>
    rename_i c stage
    rcases createStep_thread cfg m c stage q with heq | ⟨rfl, rfl, heq⟩
    · exact .inl heq
    · obtain ⟨-, hpushed, hfree⟩ := h.creating c _ hpc
      exact .inr ⟨(h.unused _ hpushed.pos hfree).1, c.entry, heq⟩
  | _ => exact .inl rfl

theorem Sound.shell_pc (h : Sound m) (hs : ShellStep cfg m m') (q : Nat) :
    (m'.thread q).pc = (m.thread q).pc := by
  rcases h.shell_thread hs q with heq | ⟨huntouched, entry, heq⟩
  · rw [heq]
  · rw [heq, huntouched.pc]
    rfl

theorem Sound.step {a : Act} (h : Sound m) (hs : step cfg m a = some m') : Sound m' :=
  step_invariant (fun _ h hfault hcur hs => h.thread hfault hcur hs)
    (fun h hfault _ _ => h.yield hfault) (fun _ h _ _ hs => h.shell hs)
    (fun _ _ _ h hfault hpick => h.switch hfault hpick) (fun words h hfault => h.work hfault words)
    h hs

end Preservation

theorem boot_sound (m : Machine) (calls : List ShellCall) : Sound (boot m calls) where
  current_lt := Nat.zero_lt_succ 15
  occupied := nofun
  shell_state := rfl
  unused _ _ _ := ⟨⟨rfl, rfl, rfl⟩, rfl⟩
  outside _ _ := ⟨rfl, rfl, rfl⟩
  woken := nofun
  creating := nofun

theorem sound_of_reaches {cfg : Config} {ok : Machine → Act → Prop} {m m' : Machine}
    {calls : List ShellCall} (h : Reaches (step cfg) ok (boot m calls) m') : Sound m' :=
  h.invariant (boot_sound m calls) fun _ _ _ hs _ hstep => hs.step hstep

/-- Only processes of the table make calls. -/
theorem Sound.forall_pc {m : Machine} (h : Sound m) {P : ThreadPc → Prop} (hidle : P .idle)
    (hP : ∀ q < maxProcesses, P (m.thread q).pc) (q : Nat) : P (m.thread q).pc := by
  rcases lt_or_ge q maxProcesses with hq | hq
  · exact hP q hq
  · rw [(h.outside q hq).pc]
    exact hidle

/-! ## A terminated process that still runs -/

/-- It is in the idle loop of `thread_exit`. -/
def Halted (m : Machine) : Prop :=
  (m.table m.current).state = .terminated → (m.thread m.current).pc = .halted

section Halted

variable {cfg : Config} {m m' : Machine}

/-- A thread that makes a transition has not been terminated. -/
theorem Halted.live (h : Halted m) (hs : ThreadStep m m.current m') :
    (m.table m.current).state ≠ .terminated := fun ht => hs.not_halted (h ht)

theorem Halted.thread (h : Halted m) (hs : ThreadStep m m.current m') : Halted m' := by
  intro ht
  have hlive := h.live hs
  rw [hs.current_eq] at ht ⊢
  rcases hs.table_cases with heq | ⟨-, heq⟩ | ⟨t, -, heq⟩ | ⟨⟨-, hhalt⟩, -⟩
  · rw [heq] at ht
    exact absurd ht hlive
  · rw [heq, setState_state, if_pos rfl] at ht
    cases ht
  · rw [heq, setState_state] at ht
    split at ht
    · cases ht
    · exact absurd ht hlive
  · exact hhalt

theorem Halted.shell (hsound : Sound m) (hcur : m.current = 0) (hs : ShellStep cfg m m') :
    Halted m' := by
  intro ht
  have hstate := (hsound.shell hs).shell_state
  rw [hs.current_eq, hcur] at ht hstate
  rw [if_pos rfl, ht] at hstate
  cases hstate

theorem Halted.switch (out : Frame) (next : Nat) : Halted (m.switchTo cfg out next) := by
  intro ht
  change ((m.switchTo cfg out next).table next).state = .terminated at ht
  rw [switchTo_state, if_pos rfl] at ht
  cases ht

theorem Halted.pick (h : Halted m) (out : Frame) : Halted (m.pickAndSwitch cfg out) := by
  rcases pickAndSwitch_cases cfg m out with ⟨-, heq⟩ | ⟨next, -, heq⟩
  · rw [heq]
    exact h
  · rw [heq]
    exact .switch out next

theorem Halted.yield (h : Halted m) (hpc : (m.thread m.current).pc = .lockYield) :
    Halted (m.goto m.current (.lockXchg true)) := by
  intro ht
  have hhalt := h ht
  rw [hpc] at hhalt
  cases hhalt

theorem Halted.step {a : Act} (h : Halted m) (hsound : Sound m) (hs : step cfg m a = some m') :
    Halted m' := by
  obtain ⟨-, hs⟩ := step_cases hs
  cases hs with
  | thread hcur hs => exact h.thread hs
  | yield hcur hpc => exact (h.yield hpc).pick _
  | shell hcur hs => exact .shell hsound hcur hs
  | tick => exact h.pick _
  | work => exact h

end Halted

/-! ## A shell that only creates -/

/-- The shell creates processes and does nothing else. -/
structure Shell.OnlyCreates (sh : Shell) : Prop where
  pc : sh.pc = .idle ∨ ∃ c stage, sh.pc = .create c stage
  todo : ∀ call ∈ sh.todo, ∃ name entry, call = .create name entry

theorem Shell.OnlyCreates.step {cfg : Config} {m m' : Machine} (h : m.shell.OnlyCreates)
    (hs : ShellStep cfg m m') :
    m'.shell.OnlyCreates ∧ m'.mutex = m.mutex ∧ m'.counter = m.counter := by
  have hpc {pc : ShellPc} (heq : m.shell.pc = pc) (hidle : pc ≠ .idle)
      (hcreate : ∀ c stage, pc ≠ .create c stage) : False := by
    rcases h.pc with h | ⟨c, stage, h⟩
    · exact hidle (heq.symm.trans h)
    · exact hcreate c stage (heq.symm.trans h)
  cases hs with
  | start hidle htodo =>
    rename_i call rest
    obtain ⟨name, entry, rfl⟩ := h.todo call (by rw [htodo]; exact List.mem_cons_self)
    refine ⟨⟨.inr ⟨_, _, rfl⟩, fun call hmem => h.todo call ?_⟩, rfl, rfl⟩
    rw [htodo]
    exact List.mem_cons_of_mem _ hmem
  | create =>
    rename_i c stage _
    obtain ⟨htodo, hnext⟩ := createStep_shell cfg m c stage
    refine ⟨⟨hnext, ?_⟩, createStep_shared m c stage⟩
    rw [htodo]
    exact h.todo
  | noSuchProcess heq | killTest heq | kill heq | initLocked heq | initOwner heq
  | initWaiters heq | reset heq => exact (hpc heq nofun nofun).elim

/-- It changes no state but that of the slot it publishes. -/
theorem Shell.OnlyCreates.state_cases {cfg : Config} {m m' : Machine}
    (h : m.shell.OnlyCreates) (hsound : Sound m) (hs : ShellStep cfg m m') (q : Nat) :
    (m'.table q).state = (m.table q).state ∨
      (m.table q).state = .free ∧ (m'.table q).state = .ready := by
  rcases hs.state_cases with heq | ⟨c, hpc, heq⟩ | ⟨pid, hpc, -⟩
  · exact .inl (heq q)
  · obtain ⟨-, hfree, -⟩ := hsound.creating c .state hpc
    rw [heq, setState_state]
    split
    · rename_i hq
      rw [hq]
      exact .inr ⟨hfree, rfl⟩
    · exact .inl rfl
  · rcases h.pc with hidle | ⟨c, stage, hcreate⟩
    · rw [hidle] at hpc
      cases hpc
    · rw [hcreate] at hpc
      cases hpc

theorem boot_onlyCreates (m : Machine) (threads : List (CString × Nat)) :
    (boot m (threads.map fun t => .create t.1 t.2)).shell.OnlyCreates := by
  refine ⟨.inl rfl, fun call hcall => ?_⟩
  obtain ⟨t, -, rfl⟩ := List.mem_map.mp hcall
  exact ⟨t.1, t.2, rfl⟩

/-- No process is BLOCKED at first. -/
theorem boot_not_blocked (m : Machine) (calls : List ShellCall) {p : Nat}
    (hp : p < maxProcesses) : ((boot m calls).table p).state ≠ .blocked := by
  show (processInit m.table p).state ≠ .blocked
  unfold processInit
  rcases eq_or_ne p 0 with hzero | hzero
  · rw [if_pos hzero]
    nofun
  · rw [if_neg hzero, if_pos hp]
    nofun

end SengOs.Kernel
