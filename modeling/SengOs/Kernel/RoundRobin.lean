import SengOs.Kernel.SchedInvariant
import SengOs.Lib.RoundRobin

/-!
# No process is overtaken twice

`pick_and_switch` takes the first READY process after the current one, so that every switch
brings a process that stays READY closer to its turn. No process is then selected twice before
it is, and it is selected after fewer than 16 switches.
-/

namespace SengOs.Kernel

open Transition RoundRobin

/-- The calls that make a `pick_and_switch`. -/
def SchedCall.picks : SchedCall → Bool
  | .tick _ | .yield _ => true
  | _ => false

/-- The call `c` selects `q`. -/
def Selects (s : Sched) (c : SchedCall) (q : Nat) : Prop :=
  c.picks = true ∧ pickNext s.table s.current = some q

instance (s : Sched) (c : SchedCall) (q : Nat) : Decidable (Selects s c q) :=
  inferInstanceAs (Decidable (_ ∧ _))

/-- The number of switches in a run. -/
def switches (l : List (Sched × SchedCall)) : Nat :=
  l.countP fun e => e.2.picks && (pickNext e.1.table e.1.current).isSome

/-- `p` is READY in every state of the run up to the one in which it is selected. -/
structure ReadyUntilSelected (l : List (Sched × SchedCall)) (s' : Sched) (p : Nat) : Prop where
  before : ∀ l₁ e l₂, l = l₁ ++ e :: l₂ → (∀ d ∈ l₁, ¬Selects d.1 d.2 p) →
    (e.1.table p).state = .ready
  last : (∀ d ∈ l, ¬Selects d.1 d.2 p) → (s'.table p).state = .ready

/-- Between two selections of one process every other that is READY is selected, and fewer than
16 switches in a row pass over a process that stays READY. -/
structure Fair (cfg : Config) (s : Sched) : Prop where
  between : ∀ q a s₁ l s₂ b, s.step cfg a = some s₁ → Selects s a q →
    Path (Sched.step cfg) s₁ l s₂ → Selects s₂ b q →
    ∀ p < maxProcesses, ReadyUntilSelected l s₂ p → ∃ e ∈ l, Selects e.1 e.2 p
  switches_lt : ∀ l s', Path (Sched.step cfg) s l s' → ∀ p < maxProcesses,
    (∀ e ∈ l, (e.1.table p).state = .ready) → (s'.table p).state = .ready → switches l < 16

variable {cfg : Config} {s s' : Sched} {c : SchedCall} {p q : Nat}

/-! ## One step -/

theorem SchedSound.current_not_ready (h : SchedSound s) : (s.table s.current).state ≠ .ready := by
  intro hready
  have hstate : s.state = .ready := hready
  rcases h.current_state (by rw [hstate]; nofun) with hblocked | hterm
  · rw [hstate] at hblocked
    cases hblocked
  · rw [hstate] at hterm
    cases hterm

theorem current_of_selects (hs : s.step cfg c = some s') (hsel : Selects s c q) :
    s'.current = q ∧ (s'.table q).state = .running := by
  obtain ⟨hpicks, hnext⟩ := hsel
  have hpick (out : Frame) : (s.pickAndSwitch cfg out).2.current = q ∧
      ((s.pickAndSwitch cfg out).2.table q).state = .running := by
    unfold Sched.pickAndSwitch
    rw [hnext]
    refine ⟨rfl, ?_⟩
    show (setEsp (switchStates s.table s.current q) s.current _ q).state = _
    rw [setEsp_state, switchStates_state, if_pos rfl]
  cases c with
  | tick out =>
    cases hs
    exact hpick out
  | yield out =>
    cases hs
    exact hpick out
  | _ => cases hpicks

theorem current_of_not_selects (hs : s.step cfg c = some s') (hsel : ∀ q, ¬Selects s c q) :
    s'.current = s.current := by
  have hpick (hpicks : c.picks = true) (out : Frame) :
      (s.pickAndSwitch cfg out).2.current = s.current := by
    unfold Sched.pickAndSwitch
    cases hnext : pickNext s.table s.current with
    | none => rfl
    | some next => exact absurd ⟨hpicks, hnext⟩ (hsel next)
  cases c with
  | tick out =>
    cases hs
    exact hpick rfl out
  | yield out =>
    cases hs
    exact hpick rfl out
  | create name entry =>
    obtain ⟨-, heq⟩ := Option.ite_none_right_eq_some.mp hs
    cases heq
    unfold Sched.processCreate
    split <;> rfl
  | _ =>
    obtain ⟨-, heq⟩ := Option.ite_none_right_eq_some.mp hs
    cases heq
    rfl

/-- A selection brings the others that are READY closer. -/
theorem SchedSound.ahead_lt (h : SchedSound s) (hsel : Selects s c q) (hp : p < maxProcesses)
    (hready : (s.table p).state = .ready) (hpq : p ≠ q) :
    ahead maxProcesses q p < ahead maxProcesses s.current p := by
  refine ahead_lt_of_find h.current_lt hp hsel.2 (decide_eq_true hready) ?_ hpq
  rintro rfl
  exact h.current_not_ready hready

/-! ## Runs -/

/-- While `p` stays READY, each switch takes away from its distance. -/
theorem SchedSound.ahead_add_switches (h : SchedSound s) {l : List (Sched × SchedCall)}
    (hl : Path (Sched.step cfg) s l s') (hp : p < maxProcesses)
    (hready : ∀ e ∈ l, (e.1.table p).state = .ready) (hlast : (s'.table p).state = .ready) :
    ahead maxProcesses s'.current p + switches l ≤ ahead maxProcesses s.current p := by
  induction hl with
  | nil => exact le_rfl
  | snoc hl hs ih =>
    rename_i l t t' a
    have ht : (t.table p).state = .ready := hready (t, a) (by simp)
    have hsound : SchedSound t :=
      hl.reaches.invariant h fun _ _ _ hs _ hstep => hs.step hstep
    have hbefore := ih (fun e he => hready e (by simp [he])) ht
    have hsnoc : switches (l ++ [(t, a)]) = switches l +
        if a.picks = true ∧ (pickNext t.table t.current).isSome = true then 1 else 0 := by
      rw [switches, List.countP_append, List.countP_singleton]
      simp only [Bool.and_eq_true]
      rfl
    rw [hsnoc]
    by_cases hsel : a.picks = true ∧ (pickNext t.table t.current).isSome = true
    · obtain ⟨r, hr⟩ := Option.isSome_iff_exists.mp hsel.2
      obtain ⟨hcur, hrun⟩ := current_of_selects hs (q := r) ⟨hsel.1, hr⟩
      have hpr : p ≠ r := by
        rintro rfl
        rw [hlast] at hrun
        cases hrun
      have hlt := hsound.ahead_lt (c := a) ⟨hsel.1, hr⟩ hp ht hpr
      rw [if_pos hsel, hcur]
      omega
    · have hcur := current_of_not_selects hs fun q hq =>
        hsel ⟨hq.1, by rw [hq.2]; rfl⟩
      rw [if_neg hsel, hcur]
      exact hbefore

theorem SchedSound.fair (h : SchedSound s) : Fair cfg s where
  between q a s₁ l s₂ b ha hsel hl hsel' p hp hready := by
    by_contra hnone
    have hnone : ∀ d ∈ l, ¬Selects d.1 d.2 p := fun d hd hd' => hnone ⟨d, hd, hd'⟩
    have hall : ∀ e ∈ l, (e.1.table p).state = .ready := by
      intro e he
      obtain ⟨l₁, l₂, rfl⟩ := List.append_of_mem he
      exact hready.before l₁ e l₂ rfl fun d hd => hnone d (List.mem_append_left _ hd)
    have hlast := hready.last hnone
    obtain ⟨hcur, hrun⟩ := current_of_selects ha hsel
    have h₁ := h.step ha
    have h₂ : SchedSound s₂ := hl.reaches.invariant h₁ fun _ _ _ hs _ hstep => hs.step hstep
    have hpq : p ≠ q := by
      rintro rfl
      -- it is RUNNING when it has been selected
      have hfirst : (s₁.table p).state = .ready := by
        rcases hl.head with ⟨-, rfl⟩ | ⟨c, l', rfl⟩
        · exact hlast
        · exact hall (s₁, c) List.mem_cons_self
      rw [hfirst] at hrun
      cases hrun
    have hlt := h₂.ahead_lt hsel' hp hlast hpq
    have hle := h₁.ahead_add_switches hl hp hall hlast
    rw [hcur] at hle
    omega
  switches_lt l s' hl p hp hall hlast := by
    have hle := h.ahead_add_switches hl hp hall hlast
    have hlt := RoundRobin.ahead_lt h.current_lt hp
    simp only [maxProcesses] at *
    omega

/-- In every run the scheduler is fair. -/
theorem round_robin_fair (cfg : Config) (t : Table) (stackMem : Nat → Nat → Nat)
    (h : Reaches (Sched.step cfg) Always (Sched.init t stackMem) s) : Fair cfg s :=
  (schedSound_of_reaches h).fair

/-- With two threads that are READY. -/
theorem round_robin_fair_two_threads :
    ∃ s, Reaches (Sched.step ⟨fun _ => [], 0x20000⟩) Always
        (Sched.init (fun _ => Pcb.zero) fun _ _ => 0) s ∧ (s.table 1).state = .ready ∧
      (s.table 2).state = .ready ∧ Fair ⟨fun _ => [], 0x20000⟩ s := by
  obtain ⟨s, hs, hP⟩ := reaches_of_any (Sched.step ⟨fun _ => [], 0x20000⟩) Always
    (Sched.init (fun _ => Pcb.zero) fun _ _ => 0)
    [.create kernelName 1, .create kernelName 2, .tick (newFrame 0), .yield (newFrame 0),
      .tick (newFrame 0)]
    (fun s => decide ((s.table 1).state = .ready ∧ (s.table 2).state = .ready))
    (by decide +kernel)
  obtain ⟨hone, htwo⟩ := of_decide_eq_true hP
  exact ⟨s, hs, hone, htwo, round_robin_fair ⟨fun _ => [], 0x20000⟩ _ _ hs⟩

end SengOs.Kernel
