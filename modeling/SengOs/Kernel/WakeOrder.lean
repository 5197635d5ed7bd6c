import SengOs.Kernel.MutexCalls

/-!
# Whom `mutex_unlock` wakes

`mutex_unlock` takes the last entry of the waiter list, not the first, and does nothing for it
if it has been killed. So a wake-up reaches a waiter if and only if the last entry is BLOCKED,
and waiters are woken in the order in which they blocked if and only if there was never a choice.
-/

namespace SengOs.Kernel

open Transition

variable {cfg : Config} {y y' : System}

/-! ## Killed waiters -/

/-- `p` is in the waiter list, and alive. -/
def WaitsOn (y : System) (p : Nat) : Prop :=
  p ∈ y.mutex.list ∧ (y.table p).state = .blocked

instance (y : System) (p : Nat) : Decidable (WaitsOn y p) :=
  inferInstanceAs (Decidable (_ ∧ _))

/-- One of the processes that waited before the call is READY after it. -/
def WakesOne (y y' : System) : Prop := ∃ p, WaitsOn y p ∧ (y'.table p).state = .ready

theorem unlock_eq (hs : y.step cfg .unlock = some y') : y' = y.mutexUnlock := by
  obtain ⟨-, heq⟩ := Option.ite_none_right_eq_some.mp hs
  exact (Option.some_inj.mp heq).symm

theorem mutexUnlock_table (hn : 0 < y.mutex.nwaiters) :
    y.mutexUnlock.table = schedulerUnblock y.table y.mutex.lastWaiter := by
  unfold System.mutexUnlock
  dsimp only
  rw [if_pos hn]
  rfl

theorem nwaiters_pos {p : Nat} (hp : p ∈ y.mutex.list) : 0 < y.mutex.nwaiters := by
  have hlen := List.length_pos_of_mem hp
  rw [Mutex.length_list] at hlen
  omega

theorem lastWaiter_mem (hn : 0 < y.mutex.nwaiters) :
    y.mutex.lastWaiter ∈ y.mutex.list := by
  rw [Mutex.list_pop hn]
  exact List.mem_append_right _ (List.mem_singleton_self _)

/-- In every run, with a live waiter, an unlock by the holder wakes a waiter if and only if the
last entry of the list is BLOCKED, that is, has not been killed. -/
theorem unlock_wakes_iff (cfg : Config) (t : Table) (stackMem : Nat → Nat → Nat) (m : Mutex)
    (h : Reaches (System.step cfg) Always (System.init t stackMem m) y)
    (hs : y.step cfg .unlock = some y') (hlive : ∃ p, WaitsOn y p) :
    WakesOne y y' ↔ (y.table y.mutex.lastWaiter).state = .blocked := by
  obtain ⟨-, hlisted⟩ := system_sound h
  obtain ⟨p, hp, -⟩ := hlive
  have hn := nwaiters_pos hp
  have hlast := lastWaiter_mem hn
  have hlt := (hlisted.entries _ hlast).1
  rw [unlock_eq hs]
  unfold WakesOne
  rw [mutexUnlock_table hn]
  constructor
  · rintro ⟨q, ⟨-, hblocked⟩, hready⟩
    rcases schedulerUnblock_cases y.table y.mutex.lastWaiter with hsame | ⟨⟨-, hlast⟩, -⟩
    · rw [hsame, hblocked] at hready
      cases hready
    · exact hlast
  · intro hblocked
    refine ⟨y.mutex.lastWaiter, ⟨hlast, hblocked⟩, ?_⟩
    unfold schedulerUnblock
    rw [if_neg (not_le.mpr hlt), if_pos hblocked, setState_state, if_pos rfl]

/-- Thread 1 holds the mutex and threads 2 and 3 wait for it when the shell kills thread 3. -/
def killedWaiter : List SystemCall :=
  [.sched (.create kernelName 1), .sched (.create kernelName 2), .sched (.create kernelName 3),
    .sched (.tick (newFrame 0)), .lock, .sched (.tick (newFrame 0)), .lock,
    .sched (.yield (newFrame 0)), .lock, .sched (.yield (newFrame 0)), .sched (.kill 3),
    .sched (.tick (newFrame 0))]

/-- The unlock of thread 1 then wakes nobody, though thread 2 waits. -/
theorem wakeup_swallowed :
    ∃ y y', Reaches (System.step ⟨fun _ => [], 0x20000⟩) Always
        (System.init (fun _ => Pcb.zero) (fun _ _ => 0) ⟨0, 0, fun _ => 0, 0⟩) y ∧
      y.step ⟨fun _ => [], 0x20000⟩ .unlock = some y' ∧ (∃ p, WaitsOn y p) ∧ ¬WakesOne y y' := by
  obtain ⟨y, hy, hP⟩ := reaches_of_any (System.step ⟨fun _ => [], 0x20000⟩) Always
    (System.init (fun _ => Pcb.zero) (fun _ _ => 0) ⟨0, 0, fun _ => 0, 0⟩) killedWaiter
    (fun y => decide ((y.state = .running ∧ y.mutex.owner = y.current) ∧ WaitsOn y 2 ∧
      ∀ p ∈ y.mutex.list, (y.mutexUnlock.table p).state ≠ .ready)) (by decide +kernel)
  obtain ⟨hguard, hwaits, hnone⟩ := of_decide_eq_true hP
  exact ⟨y, y.mutexUnlock, hy, if_pos hguard, ⟨2, hwaits⟩,
    fun ⟨p, hp, hready⟩ => hnone p hp.1 hready⟩

theorem unlock_wakes_iff_two_waiters :
    ∃ y y', Reaches (System.step ⟨fun _ => [], 0x20000⟩) Always
        (System.init (fun _ => Pcb.zero) (fun _ _ => 0) ⟨0, 0, fun _ => 0, 0⟩) y ∧
      y.step ⟨fun _ => [], 0x20000⟩ .unlock = some y' ∧ WakesOne y y' := by
  obtain ⟨y, hy, hP⟩ := reaches_of_any (System.step ⟨fun _ => [], 0x20000⟩) Always
    (System.init (fun _ => Pcb.zero) (fun _ _ => 0) ⟨0, 0, fun _ => 0, 0⟩)
    (killedWaiter.take 10 ++ killedWaiter.drop 11)
    (fun y => decide ((y.state = .running ∧ y.mutex.owner = y.current) ∧ WaitsOn y 2 ∧
      (y.table y.mutex.lastWaiter).state = .blocked)) (by decide +kernel)
  obtain ⟨hguard, hwaits, hlast⟩ := of_decide_eq_true hP
  exact ⟨y, y.mutexUnlock, hy, if_pos hguard,
    (unlock_wakes_iff ⟨fun _ => [], 0x20000⟩ _ _ _ hy (if_pos hguard) ⟨2, hwaits⟩).mpr hlast⟩

/-! ## The order of wake-ups -/

/-- The process that blocks in a step. -/
def blockedPid (e : System × SystemCall) : Option Nat :=
  match e.2 with
  | .lock => if e.1.mutex.locked = 1 then some e.1.current else none
  | _ => none

/-- The pid that a step passes to `scheduler_unblock`. -/
def wokenPid (e : System × SystemCall) : Option Nat :=
  match e.2 with
  | .unlock => if 0 < e.1.mutex.nwaiters then some e.1.mutex.lastWaiter else none
  | _ => none

/-- The pids passed to `scheduler_unblock` in a run are a first part of those that blocked. -/
def WokenInOrder (l : List (System × SystemCall)) : Prop :=
  l.filterMap wokenPid <+: l.filterMap blockedPid

instance (l : List (System × SystemCall)) : Decidable (WokenInOrder l) :=
  inferInstanceAs (Decidable (_ <+: _))

/-- The step is no unlock with two or more waiters. -/
def NoChoice (e : System × SystemCall) : Prop := e.2 = .unlock → e.1.mutex.nwaiters ≤ 1

/-- One process has been woken where another one had blocked. -/
def OutOfOrder (l : List (System × SystemCall)) : Prop :=
  ∃ ps p q, p ≠ q ∧ ps ++ [p] <+: l.filterMap wokenPid ∧ ps ++ [q] <+: l.filterMap blockedPid

variable {l : List (System × SystemCall)}

theorem OutOfOrder.not_wokenInOrder (h : OutOfOrder l) : ¬WokenInOrder l := by
  obtain ⟨ps, p, q, hne, hwoken, hblocked⟩ := h
  intro horder
  have heq := (List.prefix_of_prefix_length_le (hwoken.trans horder) hblocked
    (by rw [List.length_append, List.length_append]; rfl)).eq_of_length
    (by rw [List.length_append, List.length_append]; rfl)
  exact hne (List.singleton_inj.mp (List.append_cancel_left heq))

theorem OutOfOrder.append (h : OutOfOrder l) (l' : List (System × SystemCall)) :
    OutOfOrder (l ++ l') := by
  obtain ⟨ps, p, q, hne, hwoken, hblocked⟩ := h
  refine ⟨ps, p, q, hne, ?_, ?_⟩
  · rw [List.filterMap_append]
    exact hwoken.trans (List.prefix_append ..)
  · rw [List.filterMap_append]
    exact hblocked.trans (List.prefix_append ..)

theorem filterMap_snoc (f : System × SystemCall → Option Nat) (e : System × SystemCall) :
    (l ++ [e]).filterMap f = l.filterMap f ++ (f e).toList := by
  rw [List.filterMap_append]
  cases h : f e <;> simp [h]

/-- The whole history of the list: who has blocked has been woken or waits. -/
def Accounted (l : List (System × SystemCall)) (y : System) : Prop :=
  l.filterMap blockedPid = l.filterMap wokenPid ++ y.mutex.list

theorem Accounted.quiet (h : Accounted l y) {e : System × SystemCall} (hb : blockedPid e = none)
    (hw : wokenPid e = none) (hlist : y'.mutex.list = y.mutex.list) :
    Accounted (l ++ [e]) y' := by
  unfold Accounted
  rw [filterMap_snoc, filterMap_snoc, hb, hw, hlist, Option.toList_none, List.append_nil,
    List.append_nil]
  exact h

theorem Accounted.lock (h : Accounted l y) (hlisted : ListedSound y) :
    Accounted (l ++ [(y, .lock)]) y.mutexLock := by
  unfold System.mutexLock
  dsimp only
  split
  · rename_i hlocked
    unfold Accounted
    have hb : blockedPid (y, .lock) = some y.current := if_pos hlocked
    have hw : wokenPid (y, .lock) = none := rfl
    rw [filterMap_snoc, filterMap_snoc, hb, hw, Option.toList_some, Option.toList_none,
      List.append_nil, h]
    dsimp only
    rw [Mutex.list_append (m := { y.mutex with locked := 1 }) hlisted.nonneg,
      List.append_assoc]
    rfl
  · rename_i hlocked
    exact h.quiet (if_neg hlocked) rfl rfl

theorem Accounted.unlock (h : Accounted l y) (hn : y.mutex.nwaiters ≤ 1) :
    Accounted (l ++ [(y, .unlock)]) y.mutexUnlock := by
  unfold System.mutexUnlock
  dsimp only
  split
  · rename_i hpos
    unfold Accounted
    have hb : blockedPid (y, .unlock) = none := rfl
    have hw : wokenPid (y, .unlock) = some y.mutex.lastWaiter := if_pos hpos
    have hempty : { y.mutex with nwaiters := y.mutex.nwaiters - 1 }.list = [] := by
      apply List.eq_nil_of_length_eq_zero
      rw [Mutex.length_list]
      dsimp only
      omega
    have hlist := Mutex.list_pop hpos
    rw [hempty, List.nil_append] at hlist
    have hrest : { y.mutex with
        owner := -1, locked := 0, nwaiters := y.mutex.nwaiters - 1 }.list = [] := hempty
    rw [filterMap_snoc, filterMap_snoc, hb, hw, Option.toList_none, Option.toList_some,
      List.append_nil, h, hlist]
    dsimp only
    rw [hrest, List.append_nil]
  · rename_i hpos
    exact h.quiet rfl (if_neg hpos) rfl

/-- With two waiters or more the one that is woken is not the one that blocked first. -/
theorem Accounted.choice (h : Accounted l y) (hlisted : ListedSound y)
    (hn : 1 < y.mutex.nwaiters) : OutOfOrder (l ++ [(y, .unlock)]) := by
  have hpos : 0 < y.mutex.nwaiters := by omega
  have hb : blockedPid (y, .unlock) = none := rfl
  have hw : wokenPid (y, .unlock) = some y.mutex.lastWaiter := if_pos hpos
  have hlist := Mutex.list_pop hpos
  have hnodup := hlisted.nodup
  obtain ⟨q, qs, hq⟩ : ∃ q qs,
      { y.mutex with nwaiters := y.mutex.nwaiters - 1 }.list = q :: qs := by
    apply List.exists_cons_of_length_pos
    rw [Mutex.length_list]
    dsimp only
    omega
  rw [hq] at hlist
  rw [hlist] at hnodup
  refine ⟨l.filterMap wokenPid, y.mutex.lastWaiter, q, ?_, ?_, ?_⟩
  · intro heq
    exact (List.nodup_append.mp hnodup).2.2 q List.mem_cons_self _
      (List.mem_singleton_self _) heq.symm
  · have hwoken : (l ++ [(y, SystemCall.unlock)]).filterMap wokenPid =
        l.filterMap wokenPid ++ [y.mutex.lastWaiter] := by
      rw [filterMap_snoc, hw, Option.toList_some]
    exact hwoken ▸ List.prefix_refl _
  · rw [filterMap_snoc, hb, Option.toList_none, List.append_nil, h, hlist]
    exact ⟨qs ++ [y.mutex.lastWaiter], by simp⟩

theorem accounted_step {c : SystemCall} (h : Accounted l y) (hlisted : ListedSound y)
    (hs : y.step cfg c = some y') :
    NoChoice (y, c) ∧ Accounted (l ++ [(y, c)]) y' ∨
      ¬NoChoice (y, c) ∧ OutOfOrder (l ++ [(y, c)]) := by
  cases c with
  | sched c =>
    obtain ⟨-, hmap⟩ := Option.ite_none_right_eq_some.mp hs
    obtain ⟨s, -, rfl⟩ := Option.map_eq_some_iff.mp hmap
    exact .inl ⟨nofun, h.quiet rfl rfl rfl⟩
  | lock =>
    obtain ⟨-, heq⟩ := Option.ite_none_right_eq_some.mp hs
    cases heq
    exact .inl ⟨nofun, h.lock hlisted⟩
  | unlock =>
    rw [unlock_eq hs]
    rcases le_or_gt y.mutex.nwaiters 1 with hle | hgt
    · exact .inl ⟨fun _ => hle, h.unlock hle⟩
    · exact .inr ⟨fun hno => absurd (hno rfl) (not_le.mpr hgt), h.choice hlisted hgt⟩

/-- In every run the waiters are woken in the order in which they blocked if and only if
`mutex_unlock` never had two or more of them to choose from. -/
theorem woken_in_order_iff (cfg : Config) (t : Table) (stackMem : Nat → Nat → Nat) (m : Mutex)
    (h : Path (System.step cfg) (System.init t stackMem m) l y) :
    WokenInOrder l ↔ ∀ e ∈ l, e.2 = .unlock → e.1.mutex.nwaiters ≤ 1 := by
  have hinv : (∀ e ∈ l, NoChoice e) ∧ Accounted l y ∨ (∃ e ∈ l, ¬NoChoice e) ∧ OutOfOrder l := by
    induction h with
    | nil => exact .inl ⟨nofun, rfl⟩
    | snoc hl hs ih =>
      rename_i l y y' c
      rcases ih with ⟨hall, hacc⟩ | ⟨⟨e, he, hchoice⟩, hout⟩
      · rcases accounted_step hacc (system_sound hl.reaches).2 hs with ⟨hno, hacc⟩ |
          ⟨hchoice, hout⟩
        · refine .inl ⟨fun e he => ?_, hacc⟩
          rcases List.mem_append.mp he with he | he
          · exact hall e he
          · rw [List.mem_singleton.mp he]
            exact hno
        · exact .inr ⟨⟨(y, c), by simp, hchoice⟩, hout⟩
      · exact .inr ⟨⟨e, List.mem_append_left _ he, hchoice⟩, hout.append _⟩
  rcases hinv with ⟨hall, hacc⟩ | ⟨⟨e, he, hchoice⟩, hout⟩
  · refine iff_of_true ?_ hall
    unfold WokenInOrder
    rw [hacc]
    exact List.prefix_append ..
  · exact iff_of_false hout.not_wokenInOrder fun hall => hchoice (hall e he)

/-- Threads 2 and 3 block, in this order, and thread 1 unlocks. -/
theorem woken_out_of_order :
    ∃ l y, Path (System.step ⟨fun _ => [], 0x20000⟩)
        (System.init (fun _ => Pcb.zero) (fun _ _ => 0) ⟨0, 0, fun _ => 0, 0⟩) l y ∧
      l.filterMap blockedPid = [2, 3] ∧ l.filterMap wokenPid = [3] ∧ ¬WokenInOrder l := by
  obtain ⟨l, y, hl, hP⟩ := path_of_any (System.step ⟨fun _ => [], 0x20000⟩)
    (System.init (fun _ => Pcb.zero) (fun _ _ => 0) ⟨0, 0, fun _ => 0, 0⟩)
    (killedWaiter.take 10 ++ killedWaiter.drop 11 ++ [.unlock])
    (fun r => decide (r.1.filterMap blockedPid = [2, 3] ∧ r.1.filterMap wokenPid = [3] ∧
      ¬WokenInOrder r.1)) (by decide +kernel)
  obtain ⟨hblocked, hwoken, hout⟩ := of_decide_eq_true hP
  exact ⟨l, y, hl, hblocked, hwoken, hout⟩

/-- Thread 2 blocks and is woken. -/
theorem woken_in_order_one_waiter :
    ∃ l y, Path (System.step ⟨fun _ => [], 0x20000⟩)
        (System.init (fun _ => Pcb.zero) (fun _ _ => 0) ⟨0, 0, fun _ => 0, 0⟩) l y ∧
      l.filterMap wokenPid = [2] ∧ WokenInOrder l := by
  obtain ⟨l, y, hl, hP⟩ := path_of_any (System.step ⟨fun _ => [], 0x20000⟩)
    (System.init (fun _ => Pcb.zero) (fun _ _ => 0) ⟨0, 0, fun _ => 0, 0⟩)
    (killedWaiter.take 8 ++ [.sched (.tick (newFrame 0)), .sched (.tick (newFrame 0)), .unlock])
    (fun r => decide (r.1.filterMap wokenPid = [2]) &&
      r.1.all fun e => match e.2 with
        | .unlock => decide (e.1.mutex.nwaiters ≤ 1)
        | _ => true) (by decide +kernel)
  obtain ⟨hwoken, hall⟩ := Bool.and_eq_true_iff.mp hP
  refine ⟨l, y, hl, of_decide_eq_true hwoken,
    (woken_in_order_iff ⟨fun _ => [], 0x20000⟩ _ _ _ hl).mpr fun e he hunlock => ?_⟩
  have hone := List.all_eq_true.mp hall e he
  rw [hunlock] at hone
  exact of_decide_eq_true hone

end SengOs.Kernel
