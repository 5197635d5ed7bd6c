import SengOs.Kernel.SchedInvariant

/-!
# The slots of the process table

No function gives a slot back: `process_create` takes FREE slots only, and no other step makes
a slot FREE. A process that has terminated therefore keeps its slot, and its stack, for good.
-/

namespace SengOs.Kernel

open Transition

def ProcessState.live : ProcessState → Bool
  | .ready | .running | .blocked => true
  | _ => false

/-- `process_create` can return `p` in some state that is reached from `s`. -/
def CanBeCreated (cfg : Config) (s : Sched) (p : Nat) : Prop :=
  ∃ s' name entry, Reaches (Sched.step cfg) Always s s' ∧ s'.state = .running ∧
    (s'.processCreate cfg name entry).1 = p

/-- `process_create` fails only if all slots hold live processes, and the slot of a process
that has terminated and been switched out can be used again. -/
structure SlotsReused (cfg : Config) (s : Sched) : Prop where
  full : ∀ name entry, s.state = .running → (s.processCreate cfg name entry).1 = -1 →
    ∀ p, 1 ≤ p → p < maxProcesses → (s.table p).state.live = true
  reused : ∀ p, 1 ≤ p → p < maxProcesses → p ≠ s.current →
    (s.table p).state = .terminated → CanBeCreated cfg s p

variable {cfg : Config} {s s' : Sched} {c : SchedCall} {p : Nat}

theorem processCreate_cases (cfg : Config) (s : Sched) (name : CString) (entry : Nat) :
    freeSlot s.table = none ∧ (s.processCreate cfg name entry).1 = -1 ∨
      ∃ slot, freeSlot s.table = some slot ∧
        (s.processCreate cfg name entry).1 = (slot : Int) := by
  unfold Sched.processCreate
  split
  · rename_i hnone
    exact .inl ⟨hnone, rfl⟩
  · rename_i slot hslot
    exact .inr ⟨slot, hslot, rfl⟩

/-- A slot is TERMINATED for good. -/
theorem SchedSound.terminated_step (h : SchedSound s) (hs : s.step cfg c = some s')
    (hp : (s.table p).state = .terminated) : (s'.table p).state = .terminated := by
  have hkeeps {q : Nat} {st : ProcessState} (hst : q = p → st = .terminated) :
      (setState s.table q st p).state = .terminated := by
    rw [setState_state]
    split
    · rename_i heq
      exact hst heq.symm
    · exact hp
  cases schedStep_cases h.current_lt hs with
  | same => exact hp
  | create hrun hslot =>
    rename_i slot _ _ _ _
    have hne : p ≠ slot := by
      rintro rfl
      rw [(freeSlot_some hslot).2.2] at hp
      cases hp
    show (storePcb s.table _ _ p).state = _
    rw [storePcb_ne hne]
    exact hp
  | terminate => exact hkeeps fun _ => rfl
  | block hrun =>
    refine hkeeps fun heq => ?_
    rw [← heq, show (s.table s.current).state = _ from hrun] at hp
    cases hp
  | unblock hrun hlt hblocked =>
    refine hkeeps fun heq => ?_
    rw [← heq, hblocked] at hp
    cases hp
  | switch hnext =>
    show (setEsp (switchStates s.table s.current _) _ _ p).state = _
    rw [setEsp_state, switchStates_state]
    split
    · rename_i heq
      rw [heq, (pickNext_some hnext).2] at hp
      cases hp
    · split
      · rename_i hold
        rw [hold.1, hold.2] at hp
        cases hp
      · exact hp

theorem SchedSound.terminated_run (h : SchedSound s)
    (hs : Reaches (Sched.step cfg) Always s s') (hp : (s.table p).state = .terminated) :
    (s'.table p).state = .terminated :=
  (hs.invariant (P := fun s => SchedSound s ∧ (s.table p).state = .terminated) ⟨h, hp⟩
    fun _ _ _ h _ hstep => ⟨h.1.step hstep, h.1.terminated_step hstep h.2⟩).2

/-- So it is never created in again. -/
theorem SchedSound.not_canBeCreated (h : SchedSound s) (hp : (s.table p).state = .terminated) :
    ¬CanBeCreated cfg s p := by
  rintro ⟨s', name, entry, hs, -, hcreate⟩
  have hterm := h.terminated_run hs hp
  rcases processCreate_cases cfg s' name entry with ⟨-, hfail⟩ | ⟨slot, hslot, heq⟩
  · rw [hfail] at hcreate
    omega
  · rw [heq, Int.natCast_inj] at hcreate
    rw [← hcreate, (freeSlot_some hslot).2.2] at hterm
    cases hterm

/-- In every run, slots are reused as long as no process has terminated and been switched
out. -/
theorem slots_reused_iff (cfg : Config) (t : Table) (stackMem : Nat → Nat → Nat)
    (h : Reaches (Sched.step cfg) Always (Sched.init t stackMem) s) :
    SlotsReused cfg s ↔
      ∀ p, 1 ≤ p → p < maxProcesses → p ≠ s.current → (s.table p).state ≠ .terminated := by
  have hsound := schedSound_of_reaches h
  constructor
  · intro hreused p hpos hlt hne hterm
    exact hsound.not_canBeCreated hterm (hreused.reused p hpos hlt hne hterm)
  · intro hnone
    constructor
    · intro name entry hrun hfail p hpos hlt
      rcases processCreate_cases cfg s name entry with ⟨hfull, -⟩ | ⟨slot, -, heq⟩
      · have hused := freeSlot_none hfull hpos hlt
        have hterm : (s.table p).state ≠ .terminated := by
          rcases eq_or_ne p s.current with rfl | hne
          · rw [show (s.table s.current).state = _ from hrun]
            nofun
          · exact hnone p hpos hlt hne
        cases hstate : (s.table p).state with
        | free => exact absurd hstate hused
        | terminated => exact absurd hstate hterm
        | _ => rfl
      · rw [heq] at hfail
        omega
    · exact fun p hpos hlt hne hterm => absurd hterm (hnone p hpos hlt hne)

theorem slots_reused_after_create :
    ∃ s, Reaches (Sched.step ⟨fun _ => [], 0x20000⟩) Always
        (Sched.init (fun _ => Pcb.zero) fun _ _ => 0) s ∧
      (s.table 1).state = .ready ∧ SlotsReused ⟨fun _ => [], 0x20000⟩ s := by
  obtain ⟨s, hs, hP⟩ := reaches_of_any (Sched.step ⟨fun _ => [], 0x20000⟩) Always
    (Sched.init (fun _ => Pcb.zero) fun _ _ => 0) [.create kernelName 1]
    (fun s => decide ((s.table 1).state = .ready ∧
      ∀ p < maxProcesses, (s.table p).state ≠ .terminated)) (by decide +kernel)
  obtain ⟨hready, hnone⟩ := of_decide_eq_true hP
  exact ⟨s, hs, hready,
    (slots_reused_iff ⟨fun _ => [], 0x20000⟩ _ _ hs).mpr fun p _ hlt _ => hnone p hlt⟩

/-- After fifteen creations and one `kill`, `process_create` fails. -/
theorem killed_slot_lost :
    ∃ s, Reaches (Sched.step ⟨fun _ => [], 0x20000⟩) Always
        (Sched.init (fun _ => Pcb.zero) fun _ _ => 0) s ∧
      s.state = .running ∧ (s.table 1).state = .terminated ∧ s.current = 0 ∧
      (s.processCreate ⟨fun _ => [], 0x20000⟩ kernelName 1).1 = -1 ∧
      ¬SlotsReused ⟨fun _ => [], 0x20000⟩ s := by
  obtain ⟨s, hs, hP⟩ := reaches_of_any (Sched.step ⟨fun _ => [], 0x20000⟩) Always
    (Sched.init (fun _ => Pcb.zero) fun _ _ => 0)
    (List.replicate 15 (.create kernelName 1) ++ [.kill 1])
    (fun s => decide (s.state = .running ∧ (s.table 1).state = .terminated ∧ s.current = 0 ∧
      (s.processCreate ⟨fun _ => [], 0x20000⟩ kernelName 1).1 = -1)) (by decide +kernel)
  obtain ⟨hrun, hterm, hcur, hfail⟩ := of_decide_eq_true hP
  refine ⟨s, hs, hrun, hterm, hcur, hfail, fun hreused => ?_⟩
  have hlive := hreused.full kernelName 1 hrun hfail 1 le_rfl (by decide)
  rw [hterm] at hlive
  cases hlive

end SengOs.Kernel
