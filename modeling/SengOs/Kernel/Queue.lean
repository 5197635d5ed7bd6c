import SengOs.Kernel.Sound
import SengOs.Lib.Ticket

/-!
# The waiter list

A BLOCKED process is named in exactly one place: in the first `nwaiters` entries of the list,
or by an unlocker that has taken it from there and not yet woken it. `mutex_unlock` handles the
list with interrupts on, and the correspondence lasts as long as no other process uses the list
while one is between its load of `nwaiters` and its last access.
-/

namespace SengOs.Kernel

open Transition

/-- `p` is BLOCKED, as only `mutex_lock` makes it. -/
def Waits (m : Machine) (p : Nat) : Prop := p < maxProcesses ∧ (m.table p).state = .blocked

/-- Between the load of `nwaiters` and its store. -/
def ThreadPc.decrementing : ThreadPc → Bool
  | .unlockStore _ => true
  | _ => false

/-- Between the load of `nwaiters` and the read of `waiters[]`. -/
def ThreadPc.popping : ThreadPc → Bool
  | .unlockStore _ | .unlockRead _ => true
  | _ => false

/-- The waiter that an unlocker has taken from the list. -/
def ThreadPc.carries (waiters : Nat → Nat) : ThreadPc → Option Nat
  | .unlockRead v => some (waiters v.toNat)
  | .unblockTest t | .unblockStore t => some t
  | _ => none

/-- No waiter is appended while a process is between its load of `nwaiters` and its read of
`waiters[]`; and `nwaiters` is loaded when it is positive and no process is between its load and
its store of it. -/
def ListOrdered (m : Machine) (a : Act) : Prop :=
  a.isExec = true →
    ((m.thread m.current).pc = .lockBlock →
      ∀ q < maxProcesses, (m.thread q).pc.popping = false) ∧
    ((m.thread m.current).pc = .unlockLoad →
      0 < m.mutex.nwaiters ∧ ∀ q < maxProcesses, (m.thread q).pc.decrementing = false)

instance (m : Machine) (a : Act) : Decidable (ListOrdered m a) :=
  inferInstanceAs (Decidable (_ → _ ∧ _))

/-- Where a waiter can be named. -/
inductive Place where
  | entry (i : Nat)
  | unlocker (q : Nat)
  deriving DecidableEq

theorem Place.unlocker_ne_entry {q i : Nat} : Place.unlocker q ≠ .entry i := nofun

theorem Place.entry_ne {i k : Nat} (h : i ≠ k) : Place.entry i ≠ .entry k :=
  fun heq => h (Place.entry.inj heq)

theorem Place.unlocker_ne {q r : Nat} (h : q ≠ r) : Place.unlocker q ≠ .unlocker r :=
  fun heq => h (Place.unlocker.inj heq)

def ticket (m : Machine) : Place → Option Nat
  | .entry i => if (i : Int) < m.mutex.nwaiters then some (m.mutex.waiters i) else none
  | .unlocker q => (m.thread q).pc.carries m.mutex.waiters

structure Queued (m : Machine) : Prop where
  nonneg : 0 ≤ m.mutex.nwaiters
  tickets : Ticketed (ticket m) (Waits m)
  loaded : ∀ q v, (m.thread q).pc = .unlockStore v → 0 ≤ v ∧ m.mutex.nwaiters = v + 1
  single : ∀ q r, (m.thread q).pc.decrementing = true → (m.thread r).pc.decrementing = true →
    q = r
  waiting : ∀ p, Waits m p → (m.thread p).pc = .lockYield ∨ (m.thread p).pc = .lockXchg true
  yielding : Waits m m.current → (m.thread m.current).pc = .lockYield

variable {cfg : Config} {m m' : Machine} {p : Nat}

theorem ThreadPc.popping_of_decrementing {pc : ThreadPc} (h : pc.decrementing = true) :
    pc.popping = true := by
  cases pc <;> first | rfl | cases h

theorem ThreadPc.decrementing_iff {pc : ThreadPc} :
    pc.decrementing = true ↔ ∃ v, pc = .unlockStore v := by
  constructor
  · intro h
    cases pc <;> first | exact ⟨_, rfl⟩ | cases h
  · rintro ⟨v, rfl⟩
    rfl

/-- Only the read of `waiters[]` depends on what the list holds. -/
theorem ThreadPc.carries_congr {pc : ThreadPc} (h : pc.popping = false) (w w' : Nat → Nat) :
    pc.carries w = pc.carries w' := by
  cases pc <;> first | rfl | cases h

theorem waits_congr (h : ∀ q, (m'.table q).state = .blocked ↔ (m.table q).state = .blocked)
    (q : Nat) : Waits m' q ↔ Waits m q := and_congr_right fun _ => h q

/-! ## How the tickets move -/

section Moves

variable {k : Nat}

theorem waits_block (hlt : m.current < maxProcesses) (q : Nat) :
    Waits ({ m with
      mutex := m.mutex.append m.current
      table := setState m.table m.current .blocked }.goto m.current .lockYield) q ↔
      q = m.current ∨ Waits m q := by
  show q < maxProcesses ∧ (setState m.table m.current .blocked q).state = .blocked ↔ _
  rw [setState_state]
  rcases eq_or_ne q m.current with rfl | hne
  · rw [if_pos rfl]
    exact iff_of_true ⟨hlt, rfl⟩ (.inl rfl)
  · rw [if_neg hne]
    exact (or_iff_right hne).symm

theorem waits_wake (m : Machine) (t q : Nat) :
    Waits ({ m with table := setState m.table t .ready }.goto m.current .idle) q ↔
      q ≠ t ∧ Waits m q := by
  show q < maxProcesses ∧ (setState m.table t .ready q).state = .blocked ↔ _
  rw [setState_state]
  rcases eq_or_ne q t with rfl | hne
  · rw [if_pos rfl]
    exact iff_of_false nofun fun hq => hq.1 rfl
  · rw [if_neg hne]
    exact (and_iff_right hne).symm

/-- The append to the list issues a ticket. -/
theorem ticket_block (hk : m.mutex.nwaiters = k)
    (hord : ∀ q, (m.thread q).pc.popping = false)
    (hpc : (m.thread m.current).pc = .lockBlock) :
    ticket ({ m with
      mutex := m.mutex.append m.current
      table := setState m.table m.current .blocked }.goto m.current .lockYield) =
      Function.update (ticket m) (.entry k) (some m.current) := by
  funext x
  cases x with
  | entry i =>
    show (if (i : Int) < m.mutex.nwaiters + 1 then
      some (Function.update m.mutex.waiters m.mutex.nwaiters.toNat m.current i) else none) = _
    rw [hk, Int.toNat_natCast]
    rcases eq_or_ne i k with rfl | hne
    · rw [Function.update_self, Function.update_self, if_pos (by omega)]
    · rw [Function.update_of_ne hne, Function.update_of_ne (Place.entry_ne hne)]
      show _ = if (i : Int) < m.mutex.nwaiters then _ else _
      rw [hk]
      exact if_congr (by omega) rfl rfl
  | unlocker q =>
    rw [Function.update_of_ne Place.unlocker_ne_entry]
    show (Machine.thread (Machine.goto _ m.current .lockYield) q).pc.carries _ =
      (m.thread q).pc.carries _
    rcases eq_or_ne q m.current with rfl | hne
    · rw [Machine.goto_self, hpc]
      rfl
    · rw [Machine.goto_ne hne]
      exact ThreadPc.carries_congr (hord q) _ _

/-- The store of the decremented length passes the last entry on to the unlocker. -/
theorem ticket_store (hn : m.mutex.nwaiters = k + 1) :
    ticket ({ m with mutex := { m.mutex with nwaiters := k } }.goto m.current
      (.unlockRead k)) = Function.update (Function.update (ticket m) (.entry k) none)
        (.unlocker m.current) (some (m.mutex.waiters k)) := by
  funext x
  cases x with
  | entry i =>
    rw [Function.update_of_ne Place.unlocker_ne_entry.symm]
    show (if (i : Int) < k then some (m.mutex.waiters i) else none) = _
    rcases eq_or_ne i k with rfl | hne
    · rw [Function.update_self, if_neg (lt_irrefl _)]
    · rw [Function.update_of_ne (Place.entry_ne hne)]
      show _ = if (i : Int) < m.mutex.nwaiters then _ else _
      rw [hn]
      exact if_congr (by omega) rfl rfl
  | unlocker q =>
    show (Machine.thread (Machine.goto _ m.current (.unlockRead k)) q).pc.carries _ = _
    rcases eq_or_ne q m.current with rfl | hne
    · rw [Machine.goto_self, Function.update_self]
      rfl
    · rw [Machine.goto_ne hne, Function.update_of_ne (Place.unlocker_ne hne),
        Function.update_of_ne Place.unlocker_ne_entry]
      rfl

/-- The store of READY redeems the ticket of the process it wakes. -/
theorem ticket_wake (m : Machine) (t : Nat) :
    ticket ({ m with table := setState m.table t .ready }.goto m.current .idle) =
      Function.update (ticket m) (.unlocker m.current) none := by
  funext x
  cases x with
  | entry i =>
    rw [Function.update_of_ne Place.unlocker_ne_entry.symm]
    rfl
  | unlocker q =>
    show (Machine.thread (Machine.goto _ m.current .idle) q).pc.carries _ = _
    rcases eq_or_ne q m.current with rfl | hne
    · rw [Machine.goto_self, Function.update_self]
      rfl
    · rw [Machine.goto_ne hne, Function.update_of_ne (Place.unlocker_ne hne)]
      rfl

end Moves

namespace Queued

theorem ne_of_waits (h : Queued m) (hs : ThreadStep m m.current m') : ¬Waits m m.current :=
  fun hw => hs.not_lockYield (h.yielding hw)

/-- The list is as before, and no thread has moved except to try the `xchg` again. -/
theorem congr (h : Queued m) (hwaiters : m'.mutex.waiters = m.mutex.waiters)
    (hn : m'.mutex.nwaiters = m.mutex.nwaiters)
    (hpc : ∀ q, (m'.thread q).pc = (m.thread q).pc ∨
      (m.thread q).pc = .lockYield ∧ (m'.thread q).pc = .lockXchg true)
    (hwaits : ∀ q, Waits m' q ↔ Waits m q)
    (hyield : Waits m' m'.current → (m'.thread m'.current).pc = .lockYield) : Queued m' where
  nonneg := hn ▸ h.nonneg
  tickets := by
    have heq : ticket m' = ticket m := by
      funext x
      cases x with
      | entry i =>
        dsimp only [ticket]
        rw [hn, hwaiters]
      | unlocker q =>
        dsimp only [ticket]
        rw [hwaiters]
        rcases hpc q with heq | ⟨hold, hnew⟩
        · rw [heq]
        · rw [hold, hnew]
          rfl
    rw [heq]
    exact h.tickets.congr hwaits
  loaded q v hq := by
    rw [hn]
    rcases hpc q with heq | ⟨-, hnew⟩
    · exact h.loaded q v (heq.symm.trans hq)
    · rw [hnew] at hq
      cases hq
  single q r hq hr := by
    have hold {q : Nat} (hq : (m'.thread q).pc.decrementing = true) :
        (m.thread q).pc.decrementing = true := by
      rcases hpc q with heq | ⟨-, hnew⟩
      · rwa [heq] at hq
      · rw [hnew] at hq
        cases hq
    exact h.single q r (hold hq) (hold hr)
  waiting q hq := by
    rcases hpc q with heq | ⟨-, hnew⟩
    · rw [heq]
      exact h.waiting q ((hwaits q).mp hq)
    · exact .inr hnew
  yielding := hyield

/-- A transition of a thread that leaves the list alone and still carries what it carried. -/
theorem quiet (h : Queued m) (hp : ¬Waits m m.current)
    (hwaiters : m'.mutex.waiters = m.mutex.waiters)
    (hn : m'.mutex.nwaiters = m.mutex.nwaiters) (hcur : m'.current = m.current)
    (hthread : ∀ q, q ≠ m.current → m'.thread q = m.thread q)
    (hcarries : (m'.thread m.current).pc.carries m.mutex.waiters =
      (m.thread m.current).pc.carries m.mutex.waiters)
    (hdecr : (m'.thread m.current).pc.decrementing = true → 0 < m.mutex.nwaiters ∧
      (m'.thread m.current).pc = .unlockStore (m.mutex.nwaiters - 1) ∧
      ∀ q, (m.thread q).pc.decrementing = false)
    (hwaits : ∀ q, Waits m' q ↔ Waits m q) : Queued m' where
  nonneg := hn ▸ h.nonneg
  tickets := by
    have heq : ticket m' = ticket m := by
      funext x
      cases x with
      | entry i =>
        dsimp only [ticket]
        rw [hn, hwaiters]
      | unlocker q =>
        dsimp only [ticket]
        rw [hwaiters]
        rcases eq_or_ne q m.current with rfl | hne
        · exact hcarries
        · rw [hthread q hne]
    rw [heq]
    exact h.tickets.congr hwaits
  loaded q v hq := by
    rw [hn]
    rcases eq_or_ne q m.current with rfl | hne
    · obtain ⟨hpos, hpc, -⟩ := hdecr (by rw [hq]; rfl)
      rw [hpc] at hq
      cases hq
      omega
    · rw [hthread q hne] at hq
      exact h.loaded q v hq
  single q r hq hr := by
    rcases eq_or_ne q m.current with rfl | hq'
    · rcases eq_or_ne r m.current with rfl | hr'
      · rfl
      · rw [hthread r hr', (hdecr hq).2.2 r] at hr
        cases hr
    · rcases eq_or_ne r m.current with rfl | hr'
      · rw [hthread q hq', (hdecr hr).2.2 q] at hq
        cases hq
      · rw [hthread q hq'] at hq
        rw [hthread r hr'] at hr
        exact h.single q r hq hr
  waiting q hq := by
    have hq := (hwaits q).mp hq
    have hne : q ≠ m.current := by
      rintro rfl
      exact hp hq
    rw [hthread q hne]
    exact h.waiting q hq
  yielding hq := by
    rw [hcur] at hq
    exact absurd ((hwaits _).mp hq) hp

/-- A thread that blocks gets a ticket. -/
theorem block (h : Queued m) (hlt : m.current < maxProcesses)
    (hord : ∀ q, (m.thread q).pc.popping = false)
    (hpc : (m.thread m.current).pc = .lockBlock) (hp : ¬Waits m m.current) :
    Queued ({ m with
      mutex := m.mutex.append m.current
      table := setState m.table m.current .blocked }.goto m.current .lockYield) := by
  obtain ⟨k, hk⟩ := Int.eq_ofNat_of_zero_le h.nonneg
  have hwaits := waits_block hlt
  have hticket := ticket_block hk hord hpc
  have hfree : ticket m (.entry k) = none := if_neg (by omega)
  constructor
  · exact Int.add_nonneg h.nonneg (by decide)
  · rw [hticket]
    exact (h.tickets.issue hfree hp).congr hwaits
  · intro q v hq
    obtain ⟨-, hq⟩ := Machine.of_goto (P := (· = .unlockStore v)) hq nofun
    have hpop := hord q
    rw [show (m.thread q).pc = _ from hq] at hpop
    cases hpop
  · intro q r hq
    obtain ⟨-, hq⟩ := Machine.of_goto (P := (·.decrementing = true)) hq nofun
    have hpop := hord q
    rw [ThreadPc.popping_of_decrementing hq] at hpop
    cases hpop
  · intro q hq
    rcases eq_or_ne q m.current with rfl | hne
    · rw [Machine.goto_self]
      exact .inl rfl
    · rw [Machine.goto_ne hne]
      exact h.waiting q (((hwaits q).mp hq).resolve_left hne)
  · intro _
    show (Machine.thread (Machine.goto _ m.current .lockYield) m.current).pc = _
    rw [Machine.goto_self]

/-- The store of the decremented length passes the last entry on to the unlocker. -/
theorem store (h : Queued m) {v : Int} (hpc : (m.thread m.current).pc = .unlockStore v)
    (hp : ¬Waits m m.current) :
    Queued ({ m with mutex := { m.mutex with nwaiters := v } }.goto m.current
      (.unlockRead v)) := by
  obtain ⟨hv, hn⟩ := h.loaded _ v hpc
  obtain ⟨k, rfl⟩ := Int.eq_ofNat_of_zero_le hv
  have hticket := ticket_store hn
  have hlast : ticket m (.entry k) = some (m.mutex.waiters k) := if_pos (by omega)
  have hempty : ticket m (.unlocker m.current) = none := by
    show (m.thread m.current).pc.carries _ = none
    rw [hpc]
    rfl
  have hdecr (q : Nat) (hne : q ≠ m.current) : (m.thread q).pc.decrementing ≠ true :=
    fun hq => hne (h.single q m.current hq (by rw [hpc]; rfl))
  constructor
  · exact hv
  · rw [hticket]
    exact (h.tickets.pass hlast hempty).congr fun _ => Iff.rfl
  · intro q v hq
    obtain ⟨hne, hq⟩ := Machine.of_goto (P := (· = .unlockStore v)) hq nofun
    exact absurd (ThreadPc.decrementing_iff.mpr ⟨v, hq⟩) (hdecr q hne)
  · intro q r hq
    obtain ⟨hne, hq⟩ := Machine.of_goto (P := (·.decrementing = true)) hq nofun
    exact absurd hq (hdecr q hne)
  · intro q hq
    rw [Machine.goto_ne]
    · exact h.waiting q hq
    · rintro rfl
      exact hp hq
  · exact fun hq => absurd hq hp

/-- The store of READY redeems the ticket of the process it wakes. -/
theorem wake (h : Queued m) {t : Nat} (hpc : (m.thread m.current).pc = .unblockStore t)
    (hp : ¬Waits m m.current) :
    Queued ({ m with table := setState m.table t .ready }.goto m.current .idle) := by
  have hheld : ticket m (.unlocker m.current) = some t := by
    show (m.thread m.current).pc.carries _ = some t
    rw [hpc]
    rfl
  have hwaits := waits_wake m t
  have hticket := ticket_wake m t
  constructor
  · exact h.nonneg
  · rw [hticket]
    exact (h.tickets.redeem hheld).congr hwaits
  · intro q v hq
    exact h.loaded q v (Machine.of_goto (P := (· = .unlockStore v)) hq nofun).2
  · intro q r hq hr
    apply h.single q r
    · exact (Machine.of_goto (P := (·.decrementing = true)) hq nofun).2
    · exact (Machine.of_goto (P := (·.decrementing = true)) hr nofun).2
  · intro q hq
    have hq := ((hwaits q).mp hq).2
    rw [Machine.goto_ne]
    · exact h.waiting q hq
    · rintro rfl
      exact hp hq
  · exact fun hq => absurd ((hwaits _).mp hq).2 hp

/-- Only the thread's own record changes, in a state `m₁` that differs from `m` in nothing the
list depends on. -/
theorem setThread (h : Queued m) (hp : ¬Waits m m.current) {m₁ : Machine} {th : Thread}
    (hthread : m₁.thread = m.thread) (hwaiters : m₁.mutex.waiters = m.mutex.waiters)
    (hn : m₁.mutex.nwaiters = m.mutex.nwaiters) (hcur : m₁.current = m.current)
    (hwaits : ∀ q, Waits m₁ q ↔ Waits m q)
    (hcarries : th.pc.carries m.mutex.waiters =
      (m.thread m.current).pc.carries m.mutex.waiters)
    (hdecr : th.pc.decrementing = true → 0 < m.mutex.nwaiters ∧
      th.pc = .unlockStore (m.mutex.nwaiters - 1) ∧
      ∀ q, (m.thread q).pc.decrementing = false) : Queued (m₁.setThread m.current th) := by
  apply h.quiet hp
  · exact hwaiters
  · exact hn
  · exact hcur
  · intro q hq
    rw [Machine.setThread_ne hq, hthread]
  · rw [Machine.setThread_self]
    exact hcarries
  · rw [Machine.setThread_self]
    exact hdecr
  · exact hwaits

theorem fault (h : Queued m) : Queued { m with fault := true } :=
  ⟨h.nonneg, h.tickets, h.loaded, h.single, h.waiting, h.yielding⟩

theorem thread {out : Frame} (h : Queued m) (hsound : Sound m)
    (hord : ListOrdered m (.exec out)) (hs : ThreadStep m m.current m') : Queued m' := by
  have hp := h.ne_of_waits hs
  have hgoto {m₁ : Machine} {th : Thread} (hthread : m₁.thread = m.thread)
      (hwaiters : m₁.mutex.waiters = m.mutex.waiters)
      (hn : m₁.mutex.nwaiters = m.mutex.nwaiters) (hcur : m₁.current = m.current)
      (hwaits : ∀ q, Waits m₁ q ↔ Waits m q) (hcarries : th.pc.carries m.mutex.waiters =
        (m.thread m.current).pc.carries m.mutex.waiters) (hdecr : th.pc.decrementing = false) :
      Queued (m₁.setThread m.current th) := by
    refine h.setThread hp hthread hwaiters hn hcur hwaits hcarries fun hd => ?_
    rw [hdecr] at hd
    cases hd
  have hsame (q : Nat) : Waits m q ↔ Waits m q := Iff.rfl
  obtain ⟨hblock, hload⟩ := hord rfl
  cases hs with
  | start hpc htodo =>
    rename_i call rest
    apply hgoto rfl rfl rfl rfl hsame
    · rw [hpc]
      cases call <;> rfl
    · cases call <;> rfl
  | xchgHeld hpc | xchgFree hpc =>
    exact hgoto rfl rfl rfl rfl (fun _ => Iff.rfl) (by rw [hpc]; rfl) rfl
  | block hpc =>
    have hnone := hsound.forall_pc (P := (·.popping = false)) rfl (hblock hpc)
    exact h.block hsound.current_lt hnone hpc hp
  | blockFault | readFault => exact h.fault
  | owner hpc | clearOwner hpc | release hpc =>
    exact hgoto rfl rfl rfl rfl (fun _ => Iff.rfl) (by rw [hpc]; rfl) rfl
  | someWaiter hpc | noWaiter hpc =>
    exact hgoto rfl rfl rfl rfl hsame (by rw [hpc]; rfl) rfl
  | load hpc =>
    obtain ⟨hpos, hone⟩ := hload hpc
    have hone := hsound.forall_pc (P := (·.decrementing = false)) rfl hone
    refine h.setThread hp rfl rfl rfl rfl hsame ?_ fun _ => ⟨hpos, rfl, hone⟩
    rw [hpc]
    rfl
  | store hpc => exact h.store hpc hp
  | read hpc => exact hgoto rfl rfl rfl rfl hsame (by rw [hpc]; rfl) rfl
  | isBlocked hpc => exact hgoto rfl rfl rfl rfl hsame (by rw [hpc]; rfl) rfl
  | notBlocked hpc ht =>
    refine absurd (h.tickets.sound (.unlocker m.current) _ ?_) ht
    show (m.thread m.current).pc.carries _ = _
    rw [hpc]
    rfl
  | wake hpc => exact h.wake hpc hp
  | incLoad hpc => exact hgoto rfl rfl rfl rfl hsame (by rw [hpc]; rfl) rfl
  | incStore hpc =>
    exact hgoto rfl rfl rfl rfl (fun _ => Iff.rfl) (by rw [hpc]; rfl) rfl
  | exit hpc =>
    refine hgoto rfl rfl rfl rfl (fun q => ?_) (by rw [hpc]; rfl) rfl
    refine and_congr_right fun _ => ?_
    show (processTerminate m.table m.current q).state = _ ↔ _
    rw [processTerminate_state]
    split
    · rename_i heq
      rw [heq.1]
      exact iff_of_false nofun fun hb => hp ⟨hsound.current_lt, hb⟩
    · rfl

theorem switchTo_waits (cfg : Config) (out : Frame) {next : Nat}
    (hready : (m.table next).state = .ready) :
    ∀ q, Waits (m.switchTo cfg out next) q ↔ Waits m q := by
  refine waits_congr fun q => ?_
  rw [switchTo_state]
  split
  · rename_i heq
    rw [heq, hready]
    decide
  · split
    · rename_i heq
      rw [heq.1, heq.2]
      decide
    · rfl

/-- A switch, also one in which the running thread yields: the process switched to is READY. -/
theorem switch {out : Frame} (h : Queued m) {m₁ : Machine} {next : Nat}
    (htable : m₁.table = m.table) (hmutex : m₁.mutex = m.mutex)
    (hpc : ∀ q, (m₁.thread q).pc = (m.thread q).pc ∨
      (m.thread q).pc = .lockYield ∧ (m₁.thread q).pc = .lockXchg true)
    (hpick : pickNext m₁.table m₁.current = some next) :
    Queued (m₁.switchTo cfg out next) := by
  have hready := (pickNext_some hpick).2
  have hwaits := switchTo_waits cfg out hready
  have hwaits₁ (q : Nat) : Waits m₁ q ↔ Waits m q := by
    unfold Waits
    rw [htable]
  refine h.congr (congrArg Mutex.waiters hmutex) (congrArg Mutex.nwaiters hmutex) hpc
    (fun q => (hwaits q).trans (hwaits₁ q)) fun hq => ?_
  have hblocked := ((hwaits next).mp hq).2
  rw [hready] at hblocked
  cases hblocked

theorem shell (h : Queued m) (hsound : Sound m) (hcreates : m.shell.OnlyCreates)
    (hs : ShellStep cfg m m') : Queued m' := by
  obtain ⟨-, hmutex, -⟩ := hcreates.step hs
  have hwaits (q : Nat) : Waits m' q ↔ Waits m q := by
    refine waits_congr (fun q => ?_) q
    rcases hcreates.state_cases hsound hs q with heq | ⟨hfree, hready⟩
    · rw [heq]
    · rw [hfree, hready]
      decide
  refine h.congr (congrArg Mutex.waiters hmutex) (congrArg Mutex.nwaiters hmutex)
    (fun q => .inl (hsound.shell_pc hs q)) hwaits fun hq => ?_
  rw [hsound.shell_pc hs]
  rw [hs.current_eq] at hq ⊢
  exact h.yielding ((hwaits _).mp hq)

end Queued

/-- A yield always switches, since the shell is READY. -/
theorem yield_switches (hsound : Sound m) (hcur : m.current ≠ 0) :
    ∃ next, pickNext m.table m.current = some next := by
  refine exists_pickNext hsound.current_lt (by decide) hcur.symm ?_
  rw [hsound.shell_state, if_neg hcur]

/-- What holds of the waiter list in every run in which it is used in order. -/
structure ListSound (m : Machine) : Prop where
  queued : Queued m
  sound : Sound m
  creates : m.shell.OnlyCreates

theorem ListSound.step {a : Act} (h : ListSound m) (hord : ListOrdered m a)
    (hs : step cfg m a = some m') : ListSound m' := by
  have hsound := h.sound.step hs
  obtain ⟨-, hs⟩ := step_cases hs
  have hpick {out : Frame} {m₁ : Machine} (hshell : m₁.shell.OnlyCreates) :
      (m₁.pickAndSwitch cfg out).shell.OnlyCreates := by
    rcases pickAndSwitch_cases cfg m₁ out with ⟨-, heq⟩ | ⟨next, -, heq⟩
    · rw [heq]
      exact hshell
    · rw [heq]
      exact hshell
  cases hs with
  | thread hcur hs =>
    exact ⟨h.queued.thread h.sound hord hs, hsound, hs.shell_eq ▸ h.creates⟩
  | yield hcur hpc =>
    rename_i out
    refine ⟨?_, hsound, hpick h.creates⟩
    obtain ⟨next, hnext⟩ := yield_switches h.sound hcur
    rcases pickAndSwitch_cases cfg (m.goto m.current (.lockXchg true)) out with
      ⟨hnone, -⟩ | ⟨next, hnext, heq⟩
    · rw [show pickNext m.table m.current = none from hnone] at hnext
      cases hnext
    · rw [heq]
      refine h.queued.switch rfl rfl (fun q => ?_) hnext
      rcases eq_or_ne q m.current with rfl | hne
      · rw [Machine.goto_self]
        exact .inr ⟨hpc, rfl⟩
      · rw [Machine.goto_ne hne]
        exact .inl rfl
  | shell hcur hs =>
    exact ⟨h.queued.shell h.sound h.creates hs, hsound, (h.creates.step hs).1⟩
  | tick =>
    rename_i out
    refine ⟨?_, hsound, hpick h.creates⟩
    rcases pickAndSwitch_cases cfg m out with ⟨-, heq⟩ | ⟨next, hnext, heq⟩
    · rw [heq]
      exact h.queued
    · rw [heq]
      exact h.queued.switch rfl rfl (fun _ => .inl rfl) hnext
  | work =>
    exact ⟨h.queued.congr rfl rfl (fun _ => .inl rfl) (fun _ => Iff.rfl) h.queued.yielding,
      hsound, h.creates⟩

theorem boot_listSound (m : Machine) (threads : List (CString × Nat)) :
    ListSound (boot m (threads.map fun t => .create t.1 t.2)) where
  queued := by
    have hnone (p : Nat) : ¬Waits (boot m (threads.map fun t => .create t.1 t.2)) p :=
      fun hp => boot_not_blocked m _ hp.1 hp.2
    have hempty (x : Place) :
        ticket (boot m (threads.map fun t => .create t.1 t.2)) x = none := by
      cases x with
      | entry i =>
        dsimp only [ticket]
        exact if_neg (not_lt.mpr (Int.natCast_nonneg i))
      | unlocker q => rfl
    constructor
    · exact le_refl _
    · constructor
      · intro x p hx
        rw [hempty x] at hx
        cases hx
      · intro x y p hx
        rw [hempty x] at hx
        cases hx
      · exact fun p hp => absurd hp (hnone p)
    · exact nofun
    · exact nofun
    · exact fun p hp => absurd hp (hnone p)
    · exact fun hp => absurd hp (hnone _)
  sound := boot_sound m _
  creates := boot_onlyCreates m threads

end SengOs.Kernel
