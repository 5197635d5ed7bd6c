import SengOs.Kernel.InterruptOps

/-!
# Interrupts are transparent

`sound_of_reachable`: in every state of every run, the activations of the running process lie in
its stack below the code that runs, those of every other process below the frame that
`context_switch` left, and the gates are those that `kernel_main` set.

`interrupt_transparent` follows: from an interrupt to the return from its handler, with
whatever interrupts, switches and other processes in between, the process has not noticed.
-/

namespace SengOs.Kernel.Interrupts

open ByteMemory X86 Pic8259
open ContextSwitch (StackLayout AtCall Untouched contextSwitch processCreate
  startContext switchMem)

/-! ## What a write leaves alone -/

section Writes

variable {L : Layout} {m m' : Mem} {p q : Nat} {lo hi : Nat}

/-- Nothing that is written in a stack reaches the interrupt descriptor table. -/
theorem idt_of_stack (hframe : ByteMemory.Frame m m' lo hi) (hp : p < maxProcesses)
    (hlo : L.lo p ≤ lo) (hhi : hi ≤ L.hi p) : Agree m m' L.idt (L.idt + 2048) := by
  have hstacks := L.idt_stacks
  have hboot := L.idt_boot
  refine ((hframe.mono hlo hhi).agree ?_).symm
  simp only [StackLayout.lo, StackLayout.hi, stackSize, maxProcesses] at *
  split <;> omega

theorem idt_of_espField (m : Mem) (v : Word) (hp : p < maxProcesses) :
    Agree m (store m (BitVec.ofNat 32 (L.espField p)) v) L.idt (L.idt + 2048) := by
  have htable := L.idt_table
  refine ((ContextSwitch.espField_frame (L := L.toStackLayout) m v hp).agree ?_).symm
  simp only [StackLayout.espField, maxProcesses] at *
  omega

/-- `process_create` writes in the stack of the new process and in its entry of the table. -/
theorem processCreate_frames (L : Layout) (m : Mem) {slot : Nat}
    (hslot : 1 ≤ slot ∧ slot < maxProcesses) (entry : Word) :
    (∀ p < maxProcesses, p ≠ slot →
      Untouched L.toStackLayout m (processCreate L.toStackLayout m slot entry) p) ∧
    Agree m (processCreate L.toStackLayout m slot entry) L.idt (L.idt + 2048) := by
  have hhi := StackLayout.toNat_hi (L := L.toStackLayout) hslot.2
  have hstack := StackLayout.hi_eq (L := L.toStackLayout) hslot.1
  have hframe := pushAll_frame m (a := BitVec.ofNat 32 (L.hi slot)) (entry :: List.replicate 8 0)
    (by rw [hhi, hstack]; simp)
  rw [hhi] at hframe
  have hlo : L.lo slot ≤ L.hi slot - 4 * (entry :: List.replicate 8 (0 : Word)).length := by
    simp only [List.length_cons, List.length_replicate]
    omega
  refine ⟨fun p hp hne => ?_, ?_⟩
  · exact (ContextSwitch.untouched_of_stack hframe hlo le_rfl hp hslot.2 hne).trans
      (ContextSwitch.untouched_of_espField _ hp hslot.2 hne)
  · exact (idt_of_stack hframe hslot.2 hlo le_rfl).trans (idt_of_espField _ _ hslot.2)

end Writes

/-! ## The invariant -/

structure Sound (L : Layout) (s : State) : Prop where
  valid : s.sys.Valid
  gates : gateAt L.idt s.sys.cpu.mem =
    initialGate (L.handlerAddress .timer) (L.handlerAddress .keyboard)
  running : Chain L s.sys.current s.sys.cpu.mem s.sys.cpu.context s.running
  waiting : ∀ p, s.sys.created p = true → p ≠ s.sys.current →
    ∃ k, ContextSwitch.Waiting L.toStackLayout s.sys.cpu.mem p k ∧
      Chain L p s.sys.cpu.mem k (s.activations p)
  unborn : ∀ p, s.sys.created p = false → s.activations p = []

section Sound

variable {L : Layout} {s s' : State} {m m' : Mem} {p : Nat} {k : Context}
  {as rest : List Activation} {a : Activation}

theorem Sound.current_lt (h : Sound L s) : s.sys.current < maxProcesses := h.valid.current_lt

theorem gates_congr (h : Agree m m' L.idt (L.idt + 2048)) :
    gateAt L.idt m' = gateAt L.idt m := by
  funext num
  obtain ⟨hlo, hhi⟩ := idtEntry_bounds L.idt num
  exact (gateAt_congr (h.mono hlo hhi)).symm

/-- A process that waits keeps its frame and its activations. -/
theorem waiting_untouched (hw : ContextSwitch.Waiting L.toStackLayout m p k)
    (hchain : Chain L p m k as) (hp : p < maxProcesses) (hu : Untouched L.toStackLayout m m' p) :
    ContextSwitch.Waiting L.toStackLayout m' p k ∧ Chain L p m' k as := by
  refine ⟨hw.untouched hp hu, hchain.congr hp (hu.stack.mono ?_ le_rfl)⟩
  have hlo := hw.lo_le
  have hhi := hw.le_hi
  have hlt := StackLayout.hi_lt (L := L.toStackLayout) hp
  rw [hw.saved.esp]
  bv_omega

/-- The running code has written where it may, and its activations still form a chain. -/
theorem Sound.change (h : Sound L s) (c : Core) {as : List Activation}
    (hothers : ∀ p < maxProcesses, s.sys.created p = true → p ≠ s.sys.current →
      Untouched L.toStackLayout s.sys.cpu.mem c.cpu.mem p)
    (hidt : Agree s.sys.cpu.mem c.cpu.mem L.idt (L.idt + 2048))
    (hchain : Chain L s.sys.current c.cpu.mem c.cpu.context as) :
    Sound L ((s.setCore c).setRunning as) where
  valid := ⟨h.valid.created_lt, h.valid.current_created⟩
  gates := (gates_congr hidt).trans h.gates
  running := by
    show Chain L s.sys.current c.cpu.mem c.cpu.context
      (Function.update s.activations s.sys.current as s.sys.current)
    rw [Function.update_self]
    exact hchain
  waiting p hp hne := by
    obtain ⟨k, hw, hk⟩ := h.waiting p hp hne
    have hlt := h.valid.created_lt p hp
    obtain ⟨hw', hk'⟩ := waiting_untouched hw hk hlt (hothers p hlt hp hne)
    have hsame : Function.update s.activations s.sys.current as p = s.activations p :=
      Function.update_of_ne hne ..
    refine ⟨k, hw', ?_⟩
    show Chain L p c.cpu.mem k (Function.update s.activations s.sys.current as p)
    rw [hsame]
    exact hk'
  unborn p hp := by
    have hne : p ≠ s.sys.current := by
      intro heq
      rw [heq] at hp
      cases hp.symm.trans h.valid.current_created
    exact (Function.update_of_ne hne ..).trans (h.unborn p hp)

/-- The running code has written in its own stack. -/
theorem Sound.write (h : Sound L s) (c : Core) {as : List Activation}
    (hframe : ByteMemory.Frame s.sys.cpu.mem c.cpu.mem (L.lo s.sys.current) (L.hi s.sys.current))
    (hchain : Chain L s.sys.current c.cpu.mem c.cpu.context as) :
    Sound L ((s.setCore c).setRunning as) :=
  h.change c
    (fun _ hp _ hne =>
      ContextSwitch.untouched_of_stack hframe le_rfl le_rfl hp h.current_lt hne)
    (idt_of_stack hframe h.current_lt le_rfl le_rfl) hchain

/-- A process that has called `context_switch` waits there with its activations. -/
theorem Chain.caller (h : Chain L s.sys.current s.sys.cpu.mem s.sys.cpu.context s.running)
    (hp : s.sys.current < maxProcesses) {next : Nat} (hcall : AtCall L.toStackLayout s.sys next)
    (hswitches : Switches s as) :
    Chain L s.sys.current (switchMem L.toStackLayout s.sys) s.sys.cpu.caller as := by
  have hlt := StackLayout.hi_lt (L := L.toStackLayout) hp
  have hinside := hcall.inside
  have hagree : Agree s.sys.cpu.mem (switchMem L.toStackLayout s.sys)
      (s.sys.cpu.regs .esp).toNat (L.hi s.sys.current) := by
    have hpush : Agree (pushAll s.sys.cpu.mem (s.sys.cpu.regs .esp)
        (pushOrder.map s.sys.cpu.regs)) s.sys.cpu.mem (s.sys.cpu.regs .esp).toNat
        (L.hi s.sys.current) := hcall.pushAll_frame.agree (Or.inr le_rfl)
    have hfield := (ContextSwitch.espField_frame (L := L.toStackLayout)
      (pushAll s.sys.cpu.mem (s.sys.cpu.regs .esp) (pushOrder.map s.sys.cpu.regs))
      (s.sys.cpu.regs .esp - 32) hp).agree (StackLayout.stack_apart_espField hp hp)
    have hroom := hcall.room
    exact hpush.symm.trans (hfield.symm.mono (by omega) le_rfl)
  have hcaller : (s.sys.cpu.caller.regs .esp).toNat = (s.sys.cpu.regs .esp).toNat + 4 := by
    show (Function.update s.sys.cpu.regs .esp (s.sys.cpu.regs .esp + 4) .esp).toNat = _
    rw [Function.update_self]
    bv_omega
  have hchain := h.congr hp hagree
  cases hswitches with
  | yield hrunning =>
    show (s.sys.cpu.caller.regs .esp).toNat ≤ L.hi s.sys.current
    omega
  | @tick a rest steps hrunning hcalling hesp =>
    rw [hrunning] at hchain
    have hstage := hchain.1.stage
    rw [Stage, if_neg (hcalling ▸ Option.some_ne_none _)] at hstage
    refine hchain.next hp (fun _ _ _ => rfl) ⟨rfl, rfl, rfl⟩
      ⟨hchain.1.position.code, fun steps' hsteps => ?_⟩ ?_
    · obtain ⟨f, hf, hsuffix⟩ := hchain.1.position.calling _ hcalling
      refine ⟨f, hf, ?_⟩
      rw [← Option.some.inj hsteps]
      exact (List.suffix_cons _ steps).trans hsuffix
    · rw [Stage, if_neg (Option.some_ne_none _)]
      refine ⟨?_, hstage.base, hstage.ret, hstage.saved⟩
      show (s.sys.cpu.caller.regs .esp).toNat ≤ a.base.toNat
      omega

/-- A called function goes on. -/
theorem Sound.advance (h : Sound L s) (hrunning : s.running = a :: rest) {step : CStep}
    {steps : List CStep} (hcalling : a.calling = some (step :: steps)) :
    Sound L (s.advance a rest steps) := by
  refine h.write s.core (.refl _ _ _) ?_
  have hchain := h.running
  rw [hrunning] at hchain
  have hstage := hchain.1.stage
  rw [Stage, if_neg (hcalling ▸ Option.some_ne_none _)] at hstage
  refine hchain.next h.current_lt (fun _ _ _ => rfl) ⟨rfl, rfl, rfl⟩
    ⟨hchain.1.position.code, fun steps' hsteps => ?_⟩ ?_
  · obtain ⟨f, hf, hsuffix⟩ := hchain.1.position.calling _ hcalling
    refine ⟨f, hf, ?_⟩
    rw [← Option.some.inj hsteps]
    exact (List.suffix_cons step steps).trans hsuffix
  · rw [Stage, if_neg (Option.some_ne_none _)]
    exact ⟨hstage.esp, hstage.base, hstage.ret, hstage.saved⟩

theorem handlerOf_some {g : Gate} {irq : Irq} (h : L.handlerOf g = some irq) :
    g.handler = L.handlerAddress irq := by
  rw [Layout.handlerOf] at h
  split at h
  · split at h
    · rename_i heq
      cases h
      exact heq
    · split at h
      · rename_i heq
        cases h
        exact heq
      · cases h
  · cases h

theorem Sound.take (h : Sound L s) (hroom : L.lo s.sys.current + 52 ≤ (s.sys.cpu.regs .esp).toNat)
    (num : Vector) (pics : Pair) : Sound L (s.take L num pics) := by
  unfold State.take
  dsimp only
  split
  · exact ⟨h.valid, h.gates, h.running, h.waiting, h.unborn⟩
  · rename_i irq hirq
    have hrunning : Chain L s.sys.current s.core.cpu.mem s.core.cpu.context s.running := h.running
    obtain ⟨hchain, hframe⟩ := hrunning.deliver h.current_lt hroom
      (gateAt L.idt s.sys.cpu.mem num).selector irq
    rw [handlerOf_some hirq]
    have hwrite := h.write _ hframe hchain
    exact ⟨hwrite.valid, hwrite.gates, hwrite.running, hwrite.waiting, hwrite.unborn⟩

theorem Sound.op (h : Sound L s) (hrunning : s.running = a :: rest) (hcalling : a.calling = none)
    {o : Op Callee} {code : List (Op Callee)} (hcode : a.code = o :: code) :
    Sound L (s.execOp L a rest o code) := by
  have hready : Ready L s.sys.current s.core a rest o code :=
    ⟨hrunning ▸ h.running, h.current_lt, hcalling, hcode⟩
  obtain ⟨hchain, hframe⟩ := hready.exec
  exact h.write _ hframe hchain

theorem Sound.ret (h : Sound L s) (hrunning : s.running = a :: rest)
    (hcalling : a.calling = some []) (hesp : s.sys.cpu.regs .esp = a.base) :
    Sound L (s.ret a rest) := by
  have hchain : Chain L s.sys.current s.core.cpu.mem s.core.cpu.context (a :: rest) :=
    hrunning ▸ h.running
  exact h.write _ (.refl _ _ _) (hchain.ret h.current_lt hcalling hesp)

theorem Sound.compute (h : Sound L s) {cpu : Cpu} {flags : Word}
    (hothers : ∀ p < maxProcesses, s.sys.created p = true → p ≠ s.sys.current →
      Untouched L.toStackLayout s.sys.cpu.mem cpu.mem p)
    (hidt : Agree s.sys.cpu.mem cpu.mem L.idt (L.idt + 2048)) (hkeeps : Keeps L s cpu) :
    Sound L (s.setCore ⟨cpu, s.cs, flags⟩) := by
  have hsame : (s.setCore ⟨cpu, s.cs, flags⟩).setRunning s.running =
      s.setCore ⟨cpu, s.cs, flags⟩ := by
    rw [State.setRunning]
    exact congrArg (fun as => { s.setCore ⟨cpu, s.cs, flags⟩ with activations := as })
      (Function.update_eq_self ..)
  rw [← hsame]
  refine h.change _ hothers hidt ?_
  have hchain := h.running
  cases hrunning : s.running with
  | nil =>
    rw [Keeps, hrunning] at hkeeps
    exact hkeeps
  | cons a rest =>
    rw [Keeps, hrunning] at hkeeps
    rw [hrunning] at hchain
    obtain ⟨hcalling, hesp, hbase, htop⟩ := hkeeps
    obtain ⟨hlt, -⟩ := hchain.1.bound h.current_lt
    have hstage := hchain.1.stage
    rw [Stage, if_neg hcalling] at hstage
    have hhi := hchain.1.hi
    refine hchain.next h.current_lt (htop.mono (by omega) le_rfl) ⟨rfl, rfl, rfl⟩
      hchain.1.position ?_
    rw [Stage, if_neg hcalling]
    refine ⟨hesp, hstage.base, ?_, hstage.saved.congr (by omega) (htop.mono le_rfl hhi)⟩
    rw [← hstage.ret]
    exact congrArg (· + _) (load_congr hbase).symm

theorem Sound.create (h : Sound L s) (hprocess : s.running = []) {slot : Nat} {entry : Word}
    (hslot : 1 ≤ slot ∧ slot < maxProcesses) (hfree : s.sys.created slot = false) :
    Sound L { s with
      sys := { s.sys with
        cpu := { s.sys.cpu with mem := processCreate L.toStackLayout s.sys.cpu.mem slot entry }
        created := Function.update s.sys.created slot true } } := by
  obtain ⟨huntouched, hidt⟩ := processCreate_frames L s.sys.cpu.mem hslot entry
  have hstep : ContextSwitch.Step L.toStackLayout s.sys (.create slot entry) _ :=
    .create hslot hfree
  have hvalid := hstep.valid h.valid
  refine ⟨hvalid, (gates_congr hidt).trans h.gates, ?_, fun p hp hne => ?_, fun p hp => ?_⟩
  · show Chain L s.sys.current _ s.sys.cpu.context s.running
    have hchain := h.running
    rw [hprocess] at hchain ⊢
    exact hchain
  · rcases eq_or_ne p slot with rfl | hps
    · refine ⟨_, ContextSwitch.waiting_processCreate hslot.2 hslot.1 entry, ?_⟩
      show Chain L p _ _ (s.activations p)
      rw [h.unborn p hfree]
      show ((startContext L.toStackLayout p entry).regs .esp).toNat ≤ L.hi p
      have hesp : (startContext L.toStackLayout p entry).regs .esp = BitVec.ofNat 32 (L.hi p) := by
        show Function.update (fun _ => (0 : Word)) Reg.esp (BitVec.ofNat 32 (L.hi p)) Reg.esp = _
        rw [Function.update_self]
      rw [hesp, StackLayout.toNat_hi hslot.2]
    · have hcreated : s.sys.created p = true := by
        rw [← hp]
        exact (Function.update_of_ne hps ..).symm
      obtain ⟨k, hw, hk⟩ := h.waiting p hcreated hne
      have hlt := h.valid.created_lt p hcreated
      exact ⟨k, waiting_untouched hw hk hlt (huntouched p hlt hps)⟩
  · have hps : p ≠ slot := by
      rintro rfl
      cases (Function.update_self ..).symm.trans hp
    exact h.unborn p ((Function.update_of_ne hps ..).symm.trans hp)

theorem Sound.switch (h : Sound L s) {next : Nat} (hcall : AtCall L.toStackLayout s.sys next)
    (hswitches : Switches s as) :
    Sound L { s.setRunning as with
      sys := { s.sys with cpu := execAll s.sys.cpu contextSwitch, current := next } } := by
  have hcur := h.current_lt
  have hnext := h.valid.created_lt next hcall.created
  have hmem := hcall.mem_contextSwitch hcur
  have hvalid := ContextSwitch.Step.valid (.switch hcall) h.valid
  have hwait (p : Nat) (hp : s.sys.created p = true) (hne : p ≠ s.sys.current) :
      ∃ k, ContextSwitch.Waiting L.toStackLayout (switchMem L.toStackLayout s.sys) p k ∧
        Chain L p (switchMem L.toStackLayout s.sys) k (s.activations p) ∧
        ContextSwitch.Waiting L.toStackLayout s.sys.cpu.mem p k := by
    obtain ⟨k, hw, hk⟩ := h.waiting p hp hne
    have hlt := h.valid.created_lt p hp
    obtain ⟨hw', hk'⟩ := waiting_untouched hw hk hlt (hcall.untouched hcur hlt hne)
    exact ⟨k, hw', hk', hw⟩
  have hsame (p : Nat) (hne : p ≠ s.sys.current) :
      Function.update s.activations s.sys.current as p = s.activations p :=
    Function.update_of_ne hne ..
  refine ⟨hvalid, ?_, ?_, fun p hp hne => ?_, fun p hp => ?_⟩
  · refine (gates_congr ?_).trans h.gates
    show Agree s.sys.cpu.mem (execAll s.sys.cpu contextSwitch).mem _ _
    rw [hmem]
    have hinside := hcall.inside
    have hroom := hcall.room
    exact (idt_of_stack hcall.pushAll_frame hcur (by omega) (by omega)).trans
      (idt_of_espField _ _ hcur)
  · obtain ⟨k, -, hk, hw⟩ := hwait next hcall.created hcall.ne
    show Chain L next (execAll s.sys.cpu contextSwitch).mem
      (execAll s.sys.cpu contextSwitch).context
      (Function.update s.activations s.sys.current as next)
    rw [hsame next hcall.ne, hcall.exec_contextSwitch hcur hnext hw]
    exact hk
  · show ∃ k, ContextSwitch.Waiting L.toStackLayout (execAll s.sys.cpu contextSwitch).mem p k ∧
      Chain L p (execAll s.sys.cpu contextSwitch).mem k
        (Function.update s.activations s.sys.current as p)
    rw [hmem]
    rcases eq_or_ne p s.sys.current with rfl | hpc
    · refine ⟨_, hcall.waiting_caller hcur, ?_⟩
      rw [Function.update_self]
      exact h.running.caller hcur hcall hswitches
    · obtain ⟨k, hw, hk, -⟩ := hwait p hp hpc
      exact ⟨k, hw, (hsame p hpc).symm ▸ hk⟩
  · have hpc : p ≠ s.sys.current := by
      rintro rfl
      cases h.valid.current_created.symm.trans hp
    exact (hsame p hpc).trans (h.unborn p hp)

theorem Sound.step (h : Sound L s) {act : Act} (hs : Step L s act s') : Sound L s' := by
  cases hs with
  | compute _ hothers hidt _ hkeeps => exact h.compute hothers hidt hkeeps
  | setInterrupts _ _ =>
    exact ⟨⟨h.valid.created_lt, h.valid.current_created⟩, h.gates, h.running, h.waiting, h.unborn⟩
  | create _ hprocess hslot hfree => exact h.create hprocess hslot hfree
  | raise _ => exact ⟨h.valid, h.gates, h.running, h.waiting, h.unborn⟩
  | accept _ _ _ hroom => exact h.take hroom _ _
  | op _ hrunning hcalling hcode => exact h.op hrunning hcalling hcode
  | picSendEoi _ hrunning hcalling =>
    have hadvance := h.advance hrunning hcalling
    exact ⟨hadvance.valid, hadvance.gates, hadvance.running, hadvance.waiting, hadvance.unborn⟩
  | stay _ hrunning hcalling => exact h.advance hrunning hcalling
  | switch _ _ hcall hswitches => exact h.switch hcall hswitches
  | ret _ hrunning hcalling hesp => exact h.ret hrunning hcalling hesp

end Sound

theorem sound_boot (L : Layout) {c : Cpu} {pics : Pair} (h : Boots L c pics) :
    Sound L (boot L c pics) where
  valid := ContextSwitch.valid_boot _
  gates := by
    show gateAt L.idt (idtSetGate L.idt _ 32 _ 0x08 0x8E) = _
    rw [gateAt_idtSetGate, gateAt_idtInit]
    funext num
    rcases eq_or_ne num 32 with rfl | hne
    · rw [Function.update_self]
      rfl
    · rw [Function.update_of_ne hne]
  running := h.stack
  waiting p hp hne := absurd (eq_of_beq hp) hne
  unborn _ _ := rfl

theorem sound_of_reachable {L : Layout} {c : Cpu} {pics : Pair} {s : State} (hboot : Boots L c pics)
    (h : Reachable L c pics s) : Sound L s := by
  induction h with
  | refl => exact sound_boot L hboot
  | tail _ hs ih =>
    obtain ⟨act, hs⟩ := hs
    exact ih.step hs

/-! ## From an interrupt to its return -/

/-- Steps in which the process `p` does not leave its handlers but for `n` of them. -/
def Within (L : Layout) (p n : Nat) : State → State → Prop :=
  Relation.ReflTransGen fun s s' => (∃ act, Step L s act s') ∧ n < (s'.activations p).length

section Return

variable {L : Layout} {s s' s₀ : State} {act : Act} {p n : Nat} {a : Activation}
  {as rest : List Activation}

/-- The activation is another one only in how far it has come. -/
def Activation.Same (a a' : Activation) : Prop := a'.found = a.found ∧ a'.mem = a.mem

theorem setRunning_cases (s : State) (as : List Activation) (p : Nat) :
    p = s.sys.current ∧ (s.setRunning as).activations p = as ∨
      (s.setRunning as).activations p = s.activations p := by
  rcases eq_or_ne p s.sys.current with rfl | hne
  · exact .inl ⟨rfl, Function.update_self ..⟩
  · exact .inr (Function.update_of_ne hne ..)

/-- What a step does to the activations of a process. -/
theorem Step.activations_cases (hs : Step L s act s') (p : Nat) :
    s'.activations p = s.activations p ∨
    (∃ a, s'.activations p = a :: s.activations p) ∨
    (∃ a a' rest, s.activations p = a :: rest ∧ s'.activations p = a' :: rest ∧ a.Same a') ∨
    ∃ a rest code, p = s.sys.current ∧ s.running = a :: rest ∧ a.calling = none ∧
      a.code = .iret :: code ∧ s' = s.execOp L a rest .iret code := by
  -- the innermost activation goes on
  have hnext {a a' : Activation} {rest : List Activation} {t : State}
      (hs' : s'.activations = (t.setRunning (a' :: rest)).activations)
      (ht : t.activations = s.activations) (hcur : t.sys.current = s.sys.current)
      (hrunning : s.running = a :: rest) (hsame : a.Same a') :
      s'.activations p = s.activations p ∨
        ∃ a a' rest, s.activations p = a :: rest ∧ s'.activations p = a' :: rest ∧ a.Same a' := by
    rw [hs']
    rcases setRunning_cases t (a' :: rest) p with ⟨hp, heq⟩ | heq
    · refine .inr ⟨a, a', rest, ?_, heq, hsame⟩
      rw [hp, hcur]
      exact hrunning
    · exact .inl (heq.trans (congrFun ht p))
  have hgoes (h : s'.activations p = s.activations p ∨
      ∃ a a' rest, s.activations p = a :: rest ∧ s'.activations p = a' :: rest ∧ a.Same a') :
      s'.activations p = s.activations p ∨ (∃ a, s'.activations p = a :: s.activations p) ∨
      (∃ a a' rest, s.activations p = a :: rest ∧ s'.activations p = a' :: rest ∧ a.Same a') ∨
      ∃ a rest code, p = s.sys.current ∧ s.running = a :: rest ∧ a.calling = none ∧
        a.code = .iret :: code ∧ s' = s.execOp L a rest .iret code :=
    h.imp_right fun h => .inr (.inl h)
  cases hs with
  | compute | setInterrupts | create | raise => exact .inl rfl
  | @accept num pics _ _ _ _ =>
    unfold State.take
    dsimp only
    split
    · exact .inl rfl
    · rename_i irq _
      rcases setRunning_cases (s.setCore (s.core.deliver (gateAt L.idt s.sys.cpu.mem num).selector
        (gateAt L.idt s.sys.cpu.mem num).handler))
        (s.activation irq :: s.running) p
        with ⟨hp, heq⟩ | heq
      · subst hp
        exact .inr (.inl ⟨_, heq⟩)
      · exact .inl heq
  | @op a rest o code _ hrunning hcalling hcode =>
    cases o with
    | iret =>
      rcases eq_or_ne p s.sys.current with rfl | hne
      · exact .inr (.inr (.inr ⟨a, rest, code, rfl, hrunning, hcalling, hcode, rfl⟩))
      · exact .inl (Function.update_of_ne hne ..)
    | pushad | popad | pushImm | addEsp | call =>
      exact hgoes (hnext (t := s.setCore _) rfl rfl rfl hrunning ⟨rfl, rfl⟩)
  | picSendEoi _ hrunning _ | stay _ hrunning _ =>
    exact hgoes (hnext (t := s) rfl rfl rfl hrunning ⟨rfl, rfl⟩)
  | switch _ _ _ hswitches =>
    cases hswitches with
    | yield hrunning =>
      rcases setRunning_cases s [] p with ⟨hp, heq⟩ | heq
      · subst hp
        exact .inl (heq.trans hrunning.symm)
      · exact .inl heq
    | tick hrunning _ _ => exact hgoes (hnext (t := s) rfl rfl rfl hrunning ⟨rfl, rfl⟩)
  | ret _ hrunning _ _ => exact hgoes (hnext (t := s.setCore _) rfl rfl rfl hrunning ⟨rfl, rfl⟩)

@[simp] theorem running_setRunning (s : State) (as : List Activation) :
    (s.setRunning as).running = as :=
  Function.update_self ..

theorem execOp_iret (s : State) (a : Activation) (rest : List Activation)
    (code : List (Op Callee)) :
    (s.execOp L a rest .iret code).activations s.sys.current = rest :=
  Function.update_self ..

/-- While a process does not leave its handlers but for those of `as`, the next one outside stays
the same one. -/
theorem Within.suffix (h : Within L p as.length s s') {a₀ : Activation}
    (hstart : s.activations p = a₀ :: as) :
    ∃ pre a, s'.activations p = pre ++ a :: as ∧ a₀.Same a := by
  induction h with
  | refl => exact ⟨[], a₀, hstart, rfl, rfl⟩
  | @tail t _ _ hs ih =>
    obtain ⟨⟨act, hs⟩, hlen⟩ := hs
    obtain ⟨pre, a, hold, hsame⟩ := ih
    rcases hs.activations_cases p with heq | ⟨b, heq⟩ | ⟨b, b', rest, hb, heq, hbb⟩ |
      ⟨b, rest, code, rfl, hb, -, -, rfl⟩
    · exact ⟨pre, a, heq.trans hold, hsame⟩
    · exact ⟨b :: pre, a, heq.trans (congrArg _ hold), hsame⟩
    · rw [hold] at hb
      cases pre with
      | nil =>
        obtain ⟨rfl, rfl⟩ := List.cons.inj hb
        exact ⟨[], b', heq, hbb.1.trans hsame.1, hbb.2.trans hsame.2⟩
      | cons c pre =>
        obtain ⟨rfl, rfl⟩ := List.cons.inj hb
        exact ⟨b' :: pre, a, heq, hsame⟩
    · rw [execOp_iret] at hlen
      rw [State.running, hold] at hb
      cases pre with
      | nil =>
        obtain ⟨-, rfl⟩ := List.cons.inj hb
        exact absurd hlen (lt_irrefl _)
      | cons c pre =>
        obtain ⟨-, rfl⟩ := List.cons.inj hb
        exact ⟨pre, a, execOp_iret t b (pre ++ a :: as) code, hsame⟩

theorem Within.reachable {c : Cpu} {pics : Pair} (h : Within L p n s s')
    (hs : Reachable L c pics s) : Reachable L c pics s' := by
  induction h with
  | refl => exact hs
  | tail _ hstep ih => exact ih.tail hstep.1

/-- A processor that has faulted does nothing any more. -/
theorem Within.fault (h : Within L p n s s') (hs' : s'.fault = false) : s.fault = false := by
  cases Relation.ReflTransGen.cases_head h with
  | inl heq => rwa [heq]
  | inr hstep =>
    obtain ⟨t, ⟨⟨act, hs⟩, -⟩, -⟩ := hstep
    cases hs <;> assumption

/-- An interrupt through the gate of a handler. -/
theorem take_some (s : State) {num : Vector} (pics : Pair) {irq : Irq}
    (hirq : L.handlerOf (gateAt L.idt s.sys.cpu.mem num) = some irq) :
    s.take L num pics = { ((s.setCore (s.core.deliver (gateAt L.idt s.sys.cpu.mem num).selector
      (gateAt L.idt s.sys.cpu.mem num).handler)).setRunning
      (s.activation irq :: s.running)) with pics } := by
  unfold State.take
  dsimp only
  rw [hirq]

/-- The process `p` runs, with these activations. -/
structure At (L : Layout) (p : Nat) (a : Activation) (rest : List Activation) (s : State) :
    Prop where
  sound : Sound L s
  fault : s.fault = false
  current : s.sys.current = p
  running : s.running = a :: rest

theorem At.tail (h : At L p a rest s') (hwithin : Within L p rest.length s₀ s)
    (hs : Step L s act s') : Within L p rest.length s₀ s' := by
  refine hwithin.tail ⟨⟨act, hs⟩, ?_⟩
  have hlist : s'.activations p = a :: rest := h.current ▸ h.running
  rw [hlist]
  exact Nat.lt_succ_self _

theorem At.op (h : At L p a rest s) (hcalling : a.calling = none) {o : Op Callee}
    {code : List (Op Callee)} (hcode : a.code = o :: code)
    (hafter : ∀ v, a.after v code o = [{ a with code }]) :
    ∃ s', Step L s .op s' ∧ At L p { a with code } rest s' := by
  have hs : Step L s .op _ := .op h.fault h.running hcalling hcode
  refine ⟨_, hs, h.sound.step hs, h.fault, h.current, ?_⟩
  rw [State.execOp, hafter]
  exact running_setRunning ..

theorem At.call (h : At L p a rest s) (hcalling : a.calling = none) {code : List (Op Callee)}
    (hcode : a.code = .call .picSendEoi :: code) :
    ∃ s' irq, Step L s .op s' ∧
      At L p { a with code, calling := some [.picSendEoi irq] } rest s' ∧
      s'.sys.cpu.regs .esp = Activation.base { a with code } := by
  have hs : Step L s .op _ := .op h.fault h.running hcalling hcode
  have hready : Ready L s.sys.current s.core a rest _ code :=
    ⟨h.running ▸ h.sound.running, h.sound.current_lt, hcalling, hcode⟩
  refine ⟨_, _, hs, ⟨h.sound.step hs, h.fault, h.current, running_setRunning ..⟩, ?_⟩
  show (s.sys.cpu.push (s.sys.cpu.eip + 5)).regs .esp = a.top + offset code - 4
  rw [Cpu.push_esp]
  exact congrArg (· - 4) hready.esp

theorem At.sendEoi (h : At L p a rest s) {irq : BitVec 8} {steps : List CStep}
    (hcalling : a.calling = some (.picSendEoi irq :: steps)) :
    ∃ s', Step L s .picSendEoi s' ∧ At L p { a with calling := some steps } rest s' ∧
      s'.sys.cpu = s.sys.cpu := by
  have hs : Step L s .picSendEoi _ := .picSendEoi h.fault h.running hcalling
  exact ⟨_, hs, ⟨h.sound.step hs, h.fault, h.current,
    running_setRunning s ({ a with calling := some steps } :: rest)⟩, rfl⟩

theorem At.ret (h : At L p a rest s) (hcalling : a.calling = some [])
    (hesp : s.sys.cpu.regs .esp = a.base) :
    ∃ s', Step L s .ret s' ∧ At L p { a with calling := none } rest s' := by
  have hs : Step L s .ret _ := .ret h.fault h.running hcalling hesp
  exact ⟨_, hs, h.sound.step hs, h.fault, h.current, running_setRunning ..⟩

/-- The handler of the keyboard comes to its `iret`, if nothing else happens. -/
theorem At.keyboard_returns (h : At L p a rest s) (hcalling : a.calling = none)
    (hcode : a.code = irq1Handler) :
    ∃ s₃ s₄, Within L p rest.length s s₃ ∧ Step L s₃ .op s₄ ∧ s₄.activations p = rest := by
  obtain ⟨s₁, hs₁, h₁⟩ := h.op hcalling hcode fun _ => rfl
  obtain ⟨s₂, hs₂, h₂⟩ := h₁.op hcalling rfl fun _ => rfl
  obtain ⟨s₃, irq, hs₃, h₃, hesp⟩ := h₂.call hcalling rfl
  obtain ⟨s₄, hs₄, h₄, hcpu⟩ := h₃.sendEoi rfl
  obtain ⟨s₅, hs₅, h₅⟩ := h₄.ret rfl ((congrArg (Cpu.regs · .esp) hcpu).trans hesp)
  obtain ⟨s₆, hs₆, h₆⟩ := h₅.op rfl rfl fun _ => rfl
  obtain ⟨s₇, hs₇, h₇⟩ := h₆.op rfl rfl fun _ => rfl
  have hwithin := h₇.tail (h₆.tail (h₅.tail (h₄.tail (h₃.tail (h₂.tail (h₁.tail .refl hs₁) hs₂) hs₃)
    hs₄) hs₅) hs₆) hs₇
  refine ⟨s₇, _, hwithin, .op h₇.fault h₇.running rfl rfl, ?_⟩
  rw [← h₇.current]
  exact execOp_iret ..

end Return

/-- From an interrupt in a process to the step that leaves its handler, whatever further
interrupts, switches and other processes come in between: the process goes on with the registers,
the instruction pointer, the flags and the stack that the interrupt found. -/
theorem interrupt_transparent {L : Layout} {c : Cpu} {pics : Pair} (hboot : Boots L c pics)
    {s₁ s₂ s₃ s₄ : State} (h : Reachable L c pics s₁) {num : Vector}
    (haccept : Step L s₁ (.accept num) s₂)
    (hwithin : Within L s₁.sys.current s₁.running.length s₂ s₃) {act : Act}
    (hleave : Step L s₃ act s₄)
    (hleft : (s₄.activations s₁.sys.current).length ≤ s₁.running.length) :
    s₄.sys.current = s₁.sys.current ∧ s₄.core.interrupted = s₁.core.interrupted ∧
      s₄.running = s₁.running ∧
      Agree s₁.sys.cpu.mem s₄.sys.cpu.mem (s₁.sys.cpu.regs .esp).toNat (L.hi s₁.sys.current) := by
  have hfault₂ : s₂.fault = false := by
    apply hwithin.fault
    cases hleave <;> assumption
  -- the interrupt has begun an activation
  obtain ⟨a₀, hstart, hfound₀, hmem₀⟩ : ∃ a₀, s₂.activations s₁.sys.current = a₀ :: s₁.running ∧
      a₀.found = s₁.core.interrupted ∧ a₀.mem = s₁.sys.cpu.mem := by
    cases haccept with
    | @accept _ pics _ _ _ _ =>
      unfold State.take at hfault₂ ⊢
      dsimp only at hfault₂ ⊢
      split at hfault₂
      · cases hfault₂
      · rename_i irq _
        exact ⟨s₁.activation irq, Function.update_self .., rfl, rfl⟩
  have hreach₃ : Reachable L c pics s₃ := hwithin.reachable (h.tail ⟨_, haccept⟩)
  have hsound := sound_of_reachable hboot hreach₃
  obtain ⟨pre, a, hlist, hfound, hmem⟩ := hwithin.suffix hstart
  -- only `iret` leaves a handler, and here it leaves this one
  rcases hleave.activations_cases s₁.sys.current with heq | ⟨b, heq⟩ | ⟨b, b', rest, hb, heq, -⟩ |
    ⟨b, rest, code, hcur, hb, hcalling, hcode, rfl⟩
  · rw [heq, hlist, List.length_append, List.length_cons] at hleft
    omega
  · rw [heq, hlist, List.length_cons, List.length_append, List.length_cons] at hleft
    omega
  · rw [hlist] at hb
    have hlen := congrArg List.length hb
    rw [heq] at hleft
    simp only [List.length_append, List.length_cons] at hlen hleft
    omega
  · rw [hcur, execOp_iret] at hleft
    rw [hcur] at hlist
    obtain rfl : pre = [] := by
      have hlen := congrArg List.length (hlist.symm.trans hb)
      simp only [List.length_append, List.length_cons] at hlen
      exact List.eq_nil_of_length_eq_zero (by omega)
    obtain ⟨rfl, rfl⟩ := List.cons.inj (hlist.symm.trans hb)
    have hready : Ready L s₃.sys.current s₃.core a s₁.running .iret code :=
      ⟨hb ▸ hsound.running, hsound.current_lt, hcalling, hcode⟩
    obtain ⟨hback, -, -⟩ := hready.iret
    obtain ⟨-, htop⟩ := hready.chain.1.bound hsound.current_lt
    refine ⟨hcur.symm, hback.trans (hfound.trans hfound₀), execOp_iret s₃ a s₁.running code, ?_⟩
    have hkept := hready.chain.1.kept
    have hesp : (s₁.sys.cpu.regs .esp).toNat = a.top.toNat + 44 := by
      rw [← htop, hfound, hfound₀]
      rfl
    rw [hesp, hcur, ← hmem₀, ← hmem]
    exact hkept

/-- The table at 0x10000, below the process table. -/
def sampleLayout : Layout where
  toStackLayout := ContextSwitch.sampleLayout
  idt := 0x10000
  handlerAddress irq := if irq = .timer then 0x1000 else 0x1100
  entry _ := 0x2000
  idt_stacks := by decide
  idt_boot := by decide
  idt_table := by decide
  handler_ne := by decide

/-- Two controllers that have nothing to do. -/
def samplePics : Pair :=
  let p : Pic := ⟨fun _ => false, fun _ => false, fun _ => false, 0, 0, 0, 0, .mask⟩
  ⟨p, p⟩

theorem sample_boots : Boots sampleLayout ContextSwitch.sampleCpu samplePics :=
  ⟨by decide, fun _ => rfl⟩

/-- PID 0 after `sti`, with a line raised. -/
theorem sample_raised (irq : Fin 16) :
    ∃ s, Reachable sampleLayout ContextSwitch.sampleCpu samplePics s ∧ s.fault = false ∧
      s.running = [] ∧ s.sys.cpu.interrupts = true ∧ s.sys.current = 0 ∧
      s.sys.cpu.regs .esp = 0x8FF00 ∧ s.pics = (picInit samplePics).raise irq := by
  let s₀ := boot sampleLayout ContextSwitch.sampleCpu samplePics
  let s₁ := s₀.setCore { s₀.core with cpu := { s₀.sys.cpu with interrupts := true } }
  have hsti : Step sampleLayout s₀ (.setInterrupts true) s₁ := .setInterrupts rfl rfl
  have hraise : Step sampleLayout s₁ (.raise irq) { s₁ with pics := s₁.pics.raise irq } :=
    .raise rfl
  exact ⟨_, (Relation.ReflTransGen.refl.tail ⟨_, hsti⟩).tail ⟨_, hraise⟩, rfl, rfl, rfl, rfl, rfl,
    rfl⟩

/-- A key after `sti`: the handler has come back, and PID 0 goes on where it was. -/
theorem key_after_sti :
    ∃ s₁ s₄, Reachable sampleLayout ContextSwitch.sampleCpu samplePics s₁ ∧
      Reachable sampleLayout ContextSwitch.sampleCpu samplePics s₄ ∧
      (∃ pics, Step sampleLayout s₁ (.accept 33) (s₁.take sampleLayout 33 pics)) ∧
      s₄.core.interrupted = s₁.core.interrupted := by
  obtain ⟨s₁, hreach, hfault, hrunning, hon, hcur, hesp, hpics⟩ := sample_raised 1
  have hsound := sound_of_reachable sample_boots hreach
  have hnext : ((picInit samplePics).raise 1).master.next = some 1 := by
    rw [picInit_eq]
    decide
  have haccept := ((programmed_picInit samplePics).raise 1).accept_of_next hnext
  rw [← hpics] at haccept
  have hstep : Step sampleLayout s₁ (.accept 33) _ :=
    .accept hfault hon haccept (by rw [hcur, hesp]; decide)
  have hgate : sampleLayout.handlerOf (gateAt sampleLayout.idt s₁.sys.cpu.mem 33) =
      some .keyboard := by
    rw [hsound.gates]
    decide
  have htake := take_some s₁ ⟨s₁.pics.master.acknowledge 1, s₁.pics.slave⟩ hgate
  have hat : At sampleLayout 0 (s₁.activation .keyboard) [] (s₁.take sampleLayout 33
      ⟨s₁.pics.master.acknowledge 1, s₁.pics.slave⟩) := by
    refine ⟨hsound.step hstep, ?_, ?_, ?_⟩
    · rw [htake]
      exact hfault
    · rw [htake]
      exact hcur
    · rw [htake]
      show Function.update s₁.activations s₁.sys.current _ s₁.sys.current = _
      rw [Function.update_self, hrunning]
  obtain ⟨s₃, s₄, hwithin, hleave, hleft⟩ := hat.keyboard_returns rfl rfl
  have hback := interrupt_transparent sample_boots hreach hstep
    (by rw [hcur, hrunning]; exact hwithin) hleave (by rw [hcur, hrunning, hleft])
  exact ⟨s₁, s₄, hreach, (hwithin.reachable (hreach.tail ⟨_, hstep⟩)).tail ⟨_, hleave⟩, ⟨_, hstep⟩,
    hback.2.1⟩

end SengOs.Kernel.Interrupts
