import SengOs.Kernel.Demos
import SengOs.Kernel.Queue

/-!
# A mutex that is initialised again

The command `racem` runs `mutex_init` on a mutex that the threads of an earlier `racem` may
still use. It does no harm when none of them has the mutex, none of them waits in the list and
none is about to store its length. `Settled` says so, step by step, and with it that the list
is used in order and that no kill strikes an unlocker with a waiter in its hands. In the runs
that it allows the mutex excludes, and no waiter is dropped.
-/

namespace SengOs.Kernel

open Transition

/-! ## What is to hold, and when -/

/-- `p` is in the list, or somebody who can still run has taken it from there to wake it. -/
def Listed (m : Machine) (p : Nat) : Prop :=
  (∃ i : Nat, (i : Int) < m.mutex.nwaiters ∧ m.mutex.waiters i = p) ∨
  ∃ q, (m.table q).state ≠ .terminated ∧ (m.thread q).pc.carries m.mutex.waiters = some p

/-- At most one thread is inside its critical section, and no thread that is BLOCKED has been
dropped from the list without being woken. -/
structure RacemSafe (m : Machine) : Prop where
  exclusive : ∀ p q, (m.thread p).holds = true → (m.thread q).holds = true → p = q
  listed : ∀ p, Waits m p → Listed m p

instance (th : Thread) : Decidable th.Critical := inferInstanceAs (Decidable (_ ∨ _))

/-- The next store of the shell disturbs no thread. -/
def ShellPc.Settled (m : Machine) : ShellPc → Prop
  | .initLocked => ∀ q < maxProcesses, ¬(m.thread q).Critical
  | .initWaiters =>
    (∀ q < maxProcesses, (m.thread q).pc.decrementing = false) ∧
    ∀ i < m.mutex.nwaiters.toNat, (m.table (m.mutex.waiters i)).state ≠ .blocked
  | .killStore pid =>
    ∀ t ∈ (m.thread pid).pc.carries m.mutex.waiters, (m.table t).state ≠ .blocked
  | _ => True

instance (m : Machine) (pc : ShellPc) : Decidable (pc.Settled m) :=
  match pc with
  | .initLocked => inferInstanceAs (Decidable (∀ q < maxProcesses, _))
  | .initWaiters => inferInstanceAs (Decidable ((∀ q < maxProcesses, _) ∧ _))
  | .killStore pid =>
    inferInstanceAs (Decidable (∀ t ∈ (m.thread pid).pc.carries m.mutex.waiters, _))
  | .idle | .create _ _ | .killTest _ | .initOwner | .resetStore => isTrue trivial

def Settled (m : Machine) (a : Act) : Prop :=
  ListOrdered m a ∧ (a.isExec = true → m.current = 0 → m.shell.pc.Settled m)

instance (m : Machine) (a : Act) : Decidable (Settled m a) :=
  inferInstanceAs (Decidable (_ ∧ (_ → _ → _)))

variable {cfg : Config} {m m' : Machine} {p : Nat}

/-! ## The length of the list -/

/-- The shell stores to the list only in `mutex_init`. -/
theorem ShellStep.list_cases (hs : ShellStep cfg m m') :
    m'.mutex.waiters = m.mutex.waiters ∧ m'.mutex.nwaiters = m.mutex.nwaiters ∨
    m.shell.pc = .initWaiters ∧
      m' = { m with mutex := { m.mutex with nwaiters := 0 } }.shellGoto .idle := by
  cases hs with
  | create =>
    rw [(createStep_shared m _ _).1]
    exact .inl ⟨rfl, rfl⟩
  | initWaiters hpc => exact .inr ⟨hpc, rfl⟩
  | _ => exact .inl ⟨rfl, rfl⟩

structure Counted (m : Machine) : Prop where
  nonneg : 0 ≤ m.mutex.nwaiters
  loaded : ∀ q v, (m.thread q).pc = .unlockStore v → 0 ≤ v ∧ m.mutex.nwaiters = v + 1
  single : ∀ q r, (m.thread q).pc.decrementing = true → (m.thread r).pc.decrementing = true →
    q = r

namespace Counted

/-- The length is as before, and no thread starts to decrement it. -/
theorem keep (h : Counted m) (hn : m'.mutex.nwaiters = m.mutex.nwaiters)
    (hpc : ∀ q v, (m'.thread q).pc = .unlockStore v → (m.thread q).pc = .unlockStore v) :
    Counted m' where
  nonneg := hn ▸ h.nonneg
  loaded q v hq := by
    rw [hn]
    exact h.loaded q v (hpc q v hq)
  single q r hq hr := by
    obtain ⟨v, hq⟩ := ThreadPc.decrementing_iff.mp hq
    obtain ⟨w, hr⟩ := ThreadPc.decrementing_iff.mp hr
    apply h.single q r
    · rw [hpc q v hq]
      rfl
    · rw [hpc r w hr]
      rfl

/-- A new length, when no thread is left that decrements the old one. -/
theorem of_none (hn : 0 ≤ m'.mutex.nwaiters)
    (hnone : ∀ q, (m'.thread q).pc.decrementing = false) : Counted m' where
  nonneg := hn
  loaded q v hq := by
    have hd := hnone q
    rw [hq] at hd
    cases hd
  single q r hq _ := by
    rw [hnone q] at hq
    cases hq

theorem thread {out : Frame} (h : Counted m) (hsound : Sound m)
    (hord : ListOrdered m (.exec out)) (hs : ThreadStep m m.current m') : Counted m' := by
  obtain ⟨hblock, hload⟩ := hord rfl
  have hkeep (hn : m'.mutex.nwaiters = m.mutex.nwaiters)
      (hp : ∀ v, (m'.thread m.current).pc ≠ .unlockStore v) : Counted m' := by
    refine h.keep hn fun q v hq => ?_
    rcases eq_or_ne q m.current with rfl | hne
    · exact absurd hq (hp v)
    · rwa [hs.thread_ne hne] at hq
  cases hs with
  | start hpc htodo =>
    rename_i call rest
    refine hkeep rfl fun v => ?_
    rw [Machine.setThread_self]
    cases call <;> exact nofun
  | block hpc =>
    have hnone := hsound.forall_pc (P := (·.popping = false)) rfl (hblock hpc)
    apply of_none
    · exact Int.add_nonneg h.nonneg (by decide)
    · intro q
      rw [Bool.eq_false_iff]
      intro hq
      obtain ⟨-, hq⟩ := Machine.of_goto (P := (·.decrementing = true)) hq nofun
      have hpop := hnone q
      rw [ThreadPc.popping_of_decrementing hq] at hpop
      cases hpop
  | blockFault hpc | readFault hpc => exact h.keep rfl fun _ _ => id
  | load hpc =>
    obtain ⟨hpos, hone⟩ := hload hpc
    have hnone := hsound.forall_pc (P := (·.decrementing = false)) rfl hone
    have hself (q : Nat) (hq : (Machine.thread (m.goto m.current
        (.unlockStore (m.mutex.nwaiters - 1))) q).pc.decrementing = true) : q = m.current := by
      by_contra hne
      rw [Machine.goto_ne hne, hnone q] at hq
      cases hq
    constructor
    · exact h.nonneg
    · intro q v hq
      obtain rfl := hself q (by rw [hq]; rfl)
      rw [Machine.goto_self] at hq
      cases hq
      show 0 ≤ m.mutex.nwaiters - 1 ∧ m.mutex.nwaiters = m.mutex.nwaiters - 1 + 1
      omega
    · exact fun q r hq hr => (hself q hq).trans (hself r hr).symm
  | store hpc =>
    apply of_none
    · exact (h.loaded _ _ hpc).1
    · intro q
      rw [Bool.eq_false_iff]
      intro hq
      obtain ⟨hne, hq⟩ := Machine.of_goto (P := (·.decrementing = true)) hq nofun
      exact hne (h.single q m.current hq (by rw [hpc]; rfl))
  | owner | release | incStore =>
    refine hkeep rfl fun v => ?_
    rw [Machine.setThread_self]
    exact nofun
  | _ =>
    refine hkeep rfl fun v => ?_
    rw [Machine.goto_self]
    exact nofun

theorem shell (h : Counted m) (hsound : Sound m) (hsettled : m.shell.pc.Settled m)
    (hs : ShellStep cfg m m') : Counted m' := by
  rcases hs.list_cases with ⟨-, hn⟩ | ⟨hinit, heq⟩
  · exact h.keep hn fun q v hq => (hsound.shell_pc hs q).symm.trans hq
  · rw [hinit] at hsettled
    subst heq
    exact of_none le_rfl (hsound.forall_pc (P := (·.decrementing = false)) rfl hsettled.1)

end Counted

/-! ## The waiters -/

/-- The tickets that can still be used: one is lost with an unlocker that is terminated. -/
def liveTicket (m : Machine) : Place → Option Nat
  | .entry i => ticket m (.entry i)
  | .unlocker q =>
    if (m.table q).state = .terminated then none else ticket m (.unlocker q)

/-- Every waiter has a ticket that can still be used. -/
def Covered (m : Machine) : Prop := Covers (liveTicket m) (Waits m)

theorem liveTicket_entry {i : Nat} : liveTicket m (.entry i) = some p ↔
    (i : Int) < m.mutex.nwaiters ∧ m.mutex.waiters i = p := by
  unfold liveTicket ticket
  simp

theorem liveTicket_unlocker {q : Nat} : liveTicket m (.unlocker q) = some p ↔
    (m.table q).state ≠ .terminated ∧ (m.thread q).pc.carries m.mutex.waiters = some p := by
  unfold liveTicket ticket
  simp

theorem listed_iff : Listed m p ↔ ∃ x, liveTicket m x = some p := by
  constructor
  · rintro (⟨i, hi⟩ | ⟨q, hq⟩)
    · exact ⟨.entry i, liveTicket_entry.mpr hi⟩
    · exact ⟨.unlocker q, liveTicket_unlocker.mpr hq⟩
  · rintro ⟨x, hx⟩
    cases x with
    | entry i => exact .inl ⟨i, liveTicket_entry.mp hx⟩
    | unlocker q => exact .inr ⟨q, liveTicket_unlocker.mp hx⟩

/-- The stores of a thread terminate no other one. -/
theorem ThreadStep.live (hs : ThreadStep m p m') {q : Nat} (hq : q ≠ p)
    (hlive : (m.table q).state ≠ .terminated) : (m'.table q).state ≠ .terminated := by
  rcases hs.table_cases with heq | ⟨-, heq⟩ | ⟨t, -, heq⟩ | ⟨-, heq⟩
  · rwa [heq]
  · rwa [heq, setState_state, if_neg hq]
  · rw [heq, setState_state]
    split
    · nofun
    · exact hlive
  · rwa [heq, processTerminate_state, if_neg fun hand => hq hand.1]

namespace Covered

/-- The list is as before, nobody starts to wait, and the unlockers carry what they carried. -/
theorem keep (h : Covered m) (hwaiters : m'.mutex.waiters = m.mutex.waiters)
    (hn : m'.mutex.nwaiters = m.mutex.nwaiters) (hwaits : ∀ p, Waits m' p → Waits m p)
    (hcarries : ∀ q p, Waits m' p → (m.table q).state ≠ .terminated →
      (m.thread q).pc.carries m.mutex.waiters = some p → (m'.table q).state ≠ .terminated ∧
        (m'.thread q).pc.carries m.mutex.waiters = some p) : Covered m' := by
  refine Covers.keep h hwaits fun x p hp hx => ?_
  cases x with
  | entry i =>
    rw [liveTicket_entry] at hx ⊢
    rwa [hn, hwaiters]
  | unlocker q =>
    rw [liveTicket_unlocker] at hx ⊢
    rw [hwaiters]
    exact hcarries q p hp hx.1 hx.2

/-- A transition of the running thread that leaves the list alone. -/
theorem move (h : Covered m) (hs : ThreadStep m m.current m')
    (hwaiters : m'.mutex.waiters = m.mutex.waiters)
    (hn : m'.mutex.nwaiters = m.mutex.nwaiters) (hwaits : ∀ p, Waits m' p → Waits m p)
    (hcarries : ∀ p, Waits m' p → (m.thread m.current).pc.carries m.mutex.waiters = some p →
      (m'.table m.current).state ≠ .terminated ∧
        (m'.thread m.current).pc.carries m.mutex.waiters = some p) : Covered m' := by
  refine h.keep hwaiters hn hwaits fun q p hp hlive hq => ?_
  rcases eq_or_ne q m.current with rfl | hne
  · exact hcarries p hp hq
  · rw [hs.thread_ne hne]
    exact ⟨hs.live hne hlive, hq⟩

/-- A thread that appends itself to the list has its own ticket. -/
theorem block (h : Covered m) (hlt : m.current < maxProcesses)
    (hnonneg : 0 ≤ m.mutex.nwaiters) (hnone : ∀ q, (m.thread q).pc.popping = false)
    (hpc : (m.thread m.current).pc = .lockBlock) :
    Covered ({ m with
      mutex := m.mutex.append m.current
      table := setState m.table m.current .blocked }.goto m.current .lockYield) := by
  obtain ⟨k, hk⟩ := Int.eq_ofNat_of_zero_le hnonneg
  have hticket := ticket_block hk hnone hpc
  have hempty : liveTicket m (.entry k) = none := if_neg (by omega)
  refine (Covers.issue h hempty).keep (fun q => (waits_block hlt q).mp) fun x p _ hx => ?_
  cases x with
  | entry i =>
    show ticket _ (.entry i) = some p
    rw [hticket]
    exact hx
  | unlocker q =>
    rw [Function.update_of_ne Place.unlocker_ne_entry, liveTicket_unlocker] at hx
    rw [liveTicket_unlocker]
    have hne : q ≠ m.current := by
      rintro rfl
      rw [hpc] at hx
      cases hx.2
    refine ⟨?_, ?_⟩
    · show (setState m.table m.current .blocked q).state ≠ _
      rw [setState_state, if_neg hne]
      exact hx.1
    · show ticket _ (.unlocker q) = some p
      rw [hticket, Function.update_of_ne Place.unlocker_ne_entry]
      exact hx.2

/-- The unlocker that stores the shorter length takes over the last ticket. -/
theorem store (h : Covered m) (hcount : Counted m)
    (hlive : (m.table m.current).state ≠ .terminated) {v : Int}
    (hpc : (m.thread m.current).pc = .unlockStore v) :
    Covered ({ m with mutex := { m.mutex with nwaiters := v } }.goto m.current
      (.unlockRead v)) := by
  obtain ⟨hv, hn⟩ := hcount.loaded _ v hpc
  obtain ⟨k, rfl⟩ := Int.eq_ofNat_of_zero_le hv
  have hticket := ticket_store hn
  have hlast : liveTicket m (.entry k) = some (m.mutex.waiters k) := if_pos (by omega)
  have hempty : liveTicket m (.unlocker m.current) = none := by
    refine (if_neg hlive).trans ?_
    show (m.thread m.current).pc.carries _ = none
    rw [hpc]
    rfl
  refine (Covers.pass h hlast hempty).keep (fun _ => id) fun x p _ hx => ?_
  cases x with
  | entry i =>
    show ticket _ (.entry i) = some p
    rw [hticket]
    exact hx
  | unlocker q =>
    rcases eq_or_ne q m.current with rfl | hne
    · rw [Function.update_self] at hx
      refine liveTicket_unlocker.mpr ⟨hlive, ?_⟩
      rw [Machine.goto_self]
      exact hx
    · rw [Function.update_of_ne (Place.unlocker_ne hne),
        Function.update_of_ne Place.unlocker_ne_entry, liveTicket_unlocker] at hx
      rw [liveTicket_unlocker, Machine.goto_ne hne]
      exact hx

theorem thread {out : Frame} (h : Covered m) (hcount : Counted m) (hsound : Sound m)
    (hhalted : Halted m) (hord : ListOrdered m (.exec out)) (hs : ThreadStep m m.current m') :
    Covered m' := by
  have hlive := hhalted.live hs
  have hmove := h.move hs
  -- a thread that carries no waiter can go anywhere
  have hfree {pc : ThreadPc} (hpc : (m.thread m.current).pc = pc)
      (hcarries : ∀ w, pc.carries w = none) (hwaiters : m'.mutex.waiters = m.mutex.waiters)
      (hn : m'.mutex.nwaiters = m.mutex.nwaiters)
      (hwaits : ∀ p, Waits m' p → Waits m p) : Covered m' := by
    refine hmove hwaiters hn hwaits fun p _ hp => ?_
    rw [hpc, hcarries] at hp
    cases hp
  cases hs with
  | block hpc =>
    have hnone := hsound.forall_pc (P := (·.popping = false)) rfl ((hord rfl).1 hpc)
    exact h.block hsound.current_lt hcount.nonneg hnone hpc
  | blockFault | readFault => exact h.keep rfl rfl (fun _ => id) fun _ _ _ hq hp => ⟨hq, hp⟩
  | store hpc => exact h.store hcount hlive hpc
  | read hpc | isBlocked hpc =>
    refine hmove rfl rfl (fun _ => id) fun p _ hp => ⟨hlive, ?_⟩
    rw [Machine.goto_self]
    rw [hpc] at hp
    exact hp
  | notBlocked hpc ht =>
    -- what it carries does not wait
    refine hmove rfl rfl (fun _ => id) fun p hp ht' => ?_
    rw [hpc] at ht'
    cases ht'
    exact absurd hp ht
  | wake hpc =>
    rename_i t
    refine hmove rfl rfl (fun p hp => ((waits_wake m t p).mp hp).2) fun p hp ht => ?_
    rw [hpc] at ht
    cases ht
    exact absurd rfl ((waits_wake m t t).mp hp).1
  | exit hpc =>
    refine hfree hpc (fun _ => rfl) rfl rfl fun p hp => ⟨hp.1, ?_⟩
    have hblocked := (processTerminate_state ..).symm.trans hp.2
    split at hblocked
    · cases hblocked
    · exact hblocked
  | start hpc | xchgHeld hpc | xchgFree hpc | owner hpc | clearOwner hpc | release hpc
  | someWaiter hpc | noWaiter hpc | load hpc | incLoad hpc | incStore hpc =>
    exact hfree hpc (fun _ => rfl) rfl rfl fun _ => id

/-- The next store of the shell takes no waiter's ticket away. -/
theorem shell (h : Covered m) (hsound : Sound m) (hsettled : m.shell.pc.Settled m)
    (hs : ShellStep cfg m m') : Covered m' := by
  have hpc := hsound.shell_pc hs
  rcases hs.list_cases with ⟨hwaiters, hn⟩ | ⟨hinit, heq⟩
  · have hkeep (hwaits : ∀ p, Waits m' p → Waits m p)
        (hlive : ∀ q p, Waits m p → (m.table q).state ≠ .terminated →
          (m.thread q).pc.carries m.mutex.waiters = some p →
            (m'.table q).state ≠ .terminated) : Covered m' := by
      refine h.keep hwaiters hn hwaits fun q p hp hq ht => ?_
      rw [hpc]
      exact ⟨hlive q p (hwaits p hp) hq ht, ht⟩
    rcases hs.state_cases with heq | ⟨c, hc, heq⟩ | ⟨pid, hkill, heq⟩
    · apply hkeep
      · exact fun p hp => ⟨hp.1, (heq p).symm.trans hp.2⟩
      · intro q _ _ hq _
        rwa [heq]
    · have hstate (q : Nat) := setState_state m.table c.slot .ready q
      rw [← heq] at hstate
      apply hkeep
      · intro p hp
        have hblocked := (hstate p).symm.trans hp.2
        split at hblocked
        · cases hblocked
        · exact ⟨hp.1, hblocked⟩
      · intro q _ _ hq _
        rw [hstate]
        split
        · nofun
        · exact hq
    · have hstate (q : Nat) := processTerminate_state m.table pid q
      rw [← heq] at hstate
      apply hkeep
      · intro p hp
        have hblocked := (hstate p).symm.trans hp.2
        split at hblocked
        · cases hblocked
        · exact ⟨hp.1, hblocked⟩
      · intro q p hp hq ht
        rw [hstate, if_neg]
        · exact hq
        · rintro ⟨rfl, -⟩
          rw [hkill] at hsettled
          exact hsettled p ht hp.2
  · rw [hinit] at hsettled
    subst heq
    refine Covers.keep h (fun _ => id) fun x p hp hx => ?_
    cases x with
    | entry i =>
      obtain ⟨hi, rfl⟩ := liveTicket_entry.mp hx
      exact absurd hp.2 (hsettled.2 i (by omega))
    | unlocker q => exact liveTicket_unlocker.mpr (liveTicket_unlocker.mp hx)

theorem yield (h : Covered m) (hpc : (m.thread m.current).pc = .lockYield) :
    Covered (m.goto m.current (.lockXchg true)) := by
  refine h.keep rfl rfl (fun _ => id) fun q p _ hq ht => ⟨hq, ?_⟩
  rcases eq_or_ne q m.current with rfl | hne
  · rw [hpc] at ht
    cases ht
  · rwa [Machine.goto_ne hne]

theorem switch (h : Covered m) {out : Frame} {next : Nat}
    (hpick : pickNext m.table m.current = some next) : Covered (m.switchTo cfg out next) := by
  have hwaits := Queued.switchTo_waits cfg out (pickNext_some hpick).2
  refine h.keep rfl rfl (fun p => (hwaits p).mp) fun q p _ hq ht => ⟨?_, ht⟩
  rw [switchTo_state]
  split
  · nofun
  · split
    · nofun
    · exact hq

end Covered

/-! ## Every settled run -/

/-- What every settled step preserves. -/
structure Unharmed (m : Machine) : Prop where
  guarded : Guarded m
  counted : Counted m
  covered : Covered m
  sound : Sound m
  halted : Halted m

namespace Unharmed

theorem yield (h : Unharmed m) (hfault : m.fault = false)
    (hpc : (m.thread m.current).pc = .lockYield) :
    Unharmed (m.goto m.current (.lockXchg true)) where
  guarded := by
    apply h.guarded.keep
    · refine forall_thread (P := fun _ th => th.Alternating) (fun q => Machine.goto_ne) ?_
        fun q _ => h.guarded.thread_ok q
      rw [Machine.goto_self]
      exact (h.guarded.thread_ok _).goto (by rw [hpc]; rfl)
    · refine Exclusive.critical_of m.current _ (fun q => Machine.goto_ne) ?_
      rw [Machine.goto_self]
      exact fun hcritical => .inl (hcritical.resolve_right nofun)
    · exact fun _ _ => id
  counted := h.counted.keep rfl fun q v hq =>
    (Machine.of_goto (P := (· = .unlockStore v)) hq nofun).2
  covered := h.covered.yield hpc
  sound := h.sound.yield hfault
  halted := h.halted.yield hpc

theorem pick (h : Unharmed m) (hfault : m.fault = false) (out : Frame) :
    Unharmed (m.pickAndSwitch cfg out) := by
  rcases pickAndSwitch_cases cfg m out with ⟨-, heq⟩ | ⟨next, hpick, heq⟩
  · rw [heq]
    exact h
  · rw [heq]
    constructor
    · exact h.guarded.congr rfl rfl
    · exact h.counted.keep rfl fun _ _ => id
    · exact h.covered.switch hpick
    · exact h.sound.switch hfault hpick
    · exact .switch out next

theorem step {a : Act} (hcfg : cfg.Alternating) (h : Unharmed m) (hsettled : Settled m a)
    (hs : step cfg m a = some m') : Unharmed m' := by
  obtain ⟨hord, hshell⟩ := hsettled
  obtain ⟨hfault, hs⟩ := step_cases hs
  cases hs with
  | thread hcur hs =>
    constructor
    · exact h.guarded.thread hs
    · exact h.counted.thread h.sound hord hs
    · exact h.covered.thread h.counted h.sound h.halted hord hs
    · exact h.sound.thread hfault hcur hs
    · exact h.halted.thread hs
  | yield hcur hpc => exact (h.yield hfault hpc).pick hfault _
  | shell hcur hs =>
    have hsettled := hshell rfl hcur
    constructor
    · refine h.guarded.shell h.sound hcfg (fun hinit q => ?_) hs
      rw [hinit] at hsettled
      rcases lt_or_ge q maxProcesses with hq | hq
      · exact hsettled q hq
      · obtain ⟨hpc, hholds, -⟩ := h.sound.outside q hq
        rintro (hp | hp)
        · rw [hholds] at hp
          cases hp
        · rw [hpc] at hp
          cases hp
    · exact h.counted.shell h.sound hsettled hs
    · exact h.covered.shell h.sound hsettled hs
    · exact h.sound.shell hs
    · exact .shell h.sound hcur hs
  | tick => exact h.pick hfault _
  | work =>
    constructor
    · exact h.guarded.congr rfl rfl
    · exact h.counted.keep rfl fun _ _ => id
    · exact h.covered.keep rfl rfl (fun _ => id) fun _ _ _ hq ht => ⟨hq, ht⟩
    · exact h.sound.work hfault _
    · exact h.halted

end Unharmed

theorem boot_unharmed (m : Machine) (calls : List ShellCall) : Unharmed (boot m calls) where
  guarded := by
    constructor
    · exact fun _ => trivial
    · rintro _ _ (hp | hp) <;> cases hp
    · rintro _ (hp | hp) <;> cases hp
  counted := Counted.of_none le_rfl fun _ => rfl
  covered p hp := absurd hp.2 (boot_not_blocked m calls hp.1)
  sound := boot_sound m calls
  halted := nofun

/-- Whatever the shell does, and whatever the threads are as long as they lock and unlock in
turn: in every settled run the mutex excludes and drops no waiter. -/
theorem racemSafe_of_reaches (hcfg : cfg.Alternating) {m₀ : Machine} {calls : List ShellCall}
    (h : Reaches (step cfg) Settled (boot m₀ calls) m) : RacemSafe m := by
  have hinv : Unharmed m := h.invariant (boot_unharmed m₀ calls)
    fun _ _ _ h hsettled hs => h.step hcfg hsettled hs
  constructor
  · exact fun p q hp hq => hinv.guarded.unique p q (.inl hp) (.inl hq)
  · exact fun p hp => listed_iff.mpr (hinv.covered p hp)

end SengOs.Kernel
