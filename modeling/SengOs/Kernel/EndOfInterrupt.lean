import SengOs.Kernel.Transparency

/-!
# Ends of interrupts

`scheduler_tick` sends an end of interrupt before it switches, and `irq0_handler` sends another
one behind it, when the interrupt flag may be set again. `Served` says why this is right: a
line is in service only from the interrupt to the first end of interrupt of its handler, all of
it with the interrupt flag off. So the first one ends this interrupt and no other, the second one
does nothing, and no interrupt that is let in finds a line in service.
-/

namespace SengOs.Kernel.Interrupts

open ByteMemory X86 Pic8259
open ContextSwitch (contextSwitch)

/-! ## Ends of interrupts still to come -/

def CStep.isEoi : CStep → Bool
  | picSendEoi _ => true
  | pickAndSwitch => false

def isCall : Op Callee → Bool
  | .call _ => true
  | _ => false

/-- The ends of interrupts that an activation has still to send: each function sends one. -/
def Activation.eois (a : Activation) : Nat :=
  (a.calling.getD []).countP CStep.isEoi + a.code.countP isCall

/-- All of them are still to come. -/
def Activation.Unacknowledged (a : Activation) : Prop := a.irq.handler.countP isCall ≤ a.eois

/-- The line of the innermost handler is in service until its first end of interrupt, and
interrupts are off. No other line is, and no other activation has its ends of interrupts to come. -/
structure Served (s : State) : Prop where
  programmed : Programmed s.pics
  fault : s.fault = false
  off : ∀ a rest, s.running = a :: rest → a.Unacknowledged → s.sys.cpu.interrupts = false
  inService : ∀ l, s.pics.master.inService l = true ↔
    ∃ a rest, s.running = a :: rest ∧ a.Unacknowledged ∧ a.irq.line = l
  outer : ∀ a ∈ s.running.tail, ¬a.Unacknowledged
  others : ∀ p, p ≠ s.sys.current → ∀ a ∈ s.activations p, ¬a.Unacknowledged

section Eois

variable {L : Layout} {p : Nat} {m : Mem} {view : Context} {a : Activation} {as : List Activation}
  {s s' : State}

theorem Chain.position (h : Chain L p m view as) (ha : a ∈ as) : a.Position := by
  induction as generalizing view with
  | nil => cases ha
  | cons b rest ih =>
    rcases List.mem_cons.mp ha with rfl | hrest
    · exact h.1.position
    · exact ih h.2 hrest

/-- In a function a handler is not at its beginning any more. -/
theorem Activation.Position.countP_lt (h : a.Position) {steps : List CStep}
    (hcalling : a.calling = some steps) :
    a.code.countP isCall + 1 ≤ a.irq.handler.countP isCall ∧ steps.countP CStep.isEoi ≤ 1 := by
  obtain ⟨f, hcode, hsteps⟩ := h.calling steps hcalling
  have hcount := hcode.sublist.countP_le (p := isCall)
  have hbody := hsteps.sublist.countP_le (p := CStep.isEoi)
  rw [List.countP_cons_of_pos rfl] at hcount
  have hone : (f.body a.irq.number).countP CStep.isEoi = 1 := by
    cases f <;> rfl
  exact ⟨hcount, hone ▸ hbody⟩

theorem Activation.Position.eois_le (h : a.Position) :
    a.eois ≤ a.irq.handler.countP isCall := by
  cases hcalling : a.calling with
  | none =>
    have hcount := h.code.sublist.countP_le (p := isCall)
    rw [eois, hcalling]
    exact (Nat.zero_add _).le.trans hcount
  | some steps =>
    obtain ⟨hcode, hsteps⟩ := h.countP_lt hcalling
    rw [eois, hcalling, Option.getD_some]
    omega

/-- The number that a function passes on is that of a line of the first controller. -/
theorem Activation.Position.irq_lt (h : a.Position) {irq : BitVec 8} {steps : List CStep}
    (hcalling : a.calling = some (.picSendEoi irq :: steps)) : irq < 8 := by
  obtain ⟨f, -, hsteps⟩ := h.calling _ hcalling
  have hmem : CStep.picSendEoi irq ∈ f.body a.irq.number := hsteps.mem List.mem_cons_self
  cases f with
  | schedulerTick =>
    simp only [Callee.body, List.mem_cons, CStep.picSendEoi.injEq, reduceCtorEq,
      List.not_mem_nil, or_false] at hmem
    rw [hmem]
    decide
  | picSendEoi =>
    simp only [Callee.body, List.mem_singleton, CStep.picSendEoi.injEq] at hmem
    rw [hmem]
    cases a.irq <;> decide

/-- `scheduler_tick` has sent its end of interrupt when it switches. -/
theorem Activation.Position.acknowledged_of_pick (h : a.Position) {steps : List CStep}
    (hcalling : a.calling = some (.pickAndSwitch :: steps)) : ¬a.Unacknowledged := by
  obtain ⟨f, hcode, hsteps⟩ := h.calling _ hcalling
  have hnone : steps.countP CStep.isEoi = 0 := by
    cases f with
    | schedulerTick =>
      simp only [Callee.body, List.suffix_cons_iff, List.cons.injEq, reduceCtorEq, false_and,
        true_and, List.suffix_nil, or_false, false_or] at hsteps
      rw [hsteps]
      rfl
    | picSendEoi =>
      simp only [Callee.body, List.suffix_cons_iff, List.cons.injEq, reduceCtorEq, false_and,
        List.suffix_nil, or_false] at hsteps
  obtain ⟨hcount, -⟩ := h.countP_lt hcalling
  rw [Unacknowledged, eois, hcalling, Option.getD_some, List.countP_cons_of_neg (by decide), hnone]
  omega

end Eois

/-! ## Steps -/

section Steps

variable {L : Layout} {a a' : Activation} {as rest : List Activation} {s s' : State} {c : Core}

/-- With nothing in service, another list of activations that have sent theirs. -/
theorem Served.quiet (h : Served s) (has : ∀ a ∈ as, ¬a.Unacknowledged) {t : State}
    (ht : t.sys.current = s.sys.current) (hact : t.activations = s.activations)
    (hfault : t.fault = s.fault) (hprogrammed : Programmed t.pics) (hq : t.pics.master.Quiet) :
    Served (t.setRunning as) where
  programmed := hprogrammed
  fault := hfault.trans h.fault
  off b rest hb hun := by
    rw [running_setRunning] at hb
    exact absurd hun (has b (hb ▸ List.mem_cons_self))
  inService l := by
    rw [running_setRunning]
    refine iff_of_false ?_ ?_
    · show t.pics.master.inService l ≠ true
      rw [hq l]
      exact Bool.false_ne_true
    · rintro ⟨b, rest, rfl, hun, -⟩
      exact has b List.mem_cons_self hun
  outer b hb := by
    rw [running_setRunning] at hb
    exact has b (List.mem_of_mem_tail hb)
  others p hp b hb := by
    have hsame : (t.setRunning as).activations p = s.activations p :=
      (Function.update_of_ne hp ..).trans (congrFun hact p)
    exact h.others p (ht ▸ hp) b (hsame ▸ hb)

/-- The innermost handler goes on, with the same ends of interrupts to come. -/
theorem Served.replace (h : Served s) (hrunning : s.running = a :: rest)
    (hflag : c.cpu.interrupts = s.sys.cpu.interrupts) (hirq : a'.irq = a.irq)
    (heois : a'.eois = a.eois) : Served ((s.setCore c).setRunning (a' :: rest)) := by
  have hsame : a'.Unacknowledged ↔ a.Unacknowledged := by
    rw [Activation.Unacknowledged, Activation.Unacknowledged, hirq, heois]
  refine ⟨h.programmed, h.fault, fun b rest' hb hun => ?_, fun l => ?_, fun b hb => ?_,
    fun p hp b hb => ?_⟩
  · rw [running_setRunning] at hb
    obtain ⟨rfl, -⟩ := List.cons.inj hb
    exact hflag.trans (h.off a rest hrunning (hsame.mp hun))
  · refine (h.inService l).trans ?_
    rw [running_setRunning, hrunning]
    constructor
    · rintro ⟨b, rest', hb, hun, hl⟩
      obtain ⟨rfl, -⟩ := List.cons.inj hb
      exact ⟨a', rest, rfl, hsame.mpr hun, hirq ▸ hl⟩
    · rintro ⟨b, rest', hb, hun, hl⟩
      obtain ⟨rfl, -⟩ := List.cons.inj hb
      exact ⟨a, rest, rfl, hsame.mp hun, hirq ▸ hl⟩
  · rw [running_setRunning] at hb
    exact h.outer b (hrunning ▸ hb)
  · have hold : ((s.setCore c).setRunning (a' :: rest)).activations p = s.activations p :=
      Function.update_of_ne hp ..
    exact h.others p hp b (hold ▸ hb)

/-- Where the innermost handler has sent one, no line is in service. -/
theorem Served.quiet_of_acknowledged (h : Served s)
    (hhead : ∀ a rest, s.running = a :: rest → ¬a.Unacknowledged) : s.pics.master.Quiet := by
  intro l
  rw [← Bool.not_eq_true, h.inService l]
  rintro ⟨a, rest, hrunning, hun, -⟩
  exact hhead a rest hrunning hun

theorem Served.quiet_of_head (h : Served s) (hrunning : s.running = a :: rest)
    (hun : ¬a.Unacknowledged) : s.pics.master.Quiet := by
  refine h.quiet_of_acknowledged fun b rest' hb => ?_
  obtain ⟨rfl, -⟩ := List.cons.inj (hrunning.symm.trans hb)
  exact hun

/-- No interrupt that is let in finds a line in service. -/
theorem Served.quiet_of_on (h : Served s) (hon : s.sys.cpu.interrupts = true) :
    s.pics.master.Quiet := by
  refine h.quiet_of_acknowledged fun a rest hrunning hun => ?_
  rw [h.off a rest hrunning hun] at hon
  cases hon

/-- The first line that is raised comes, as soon as interrupts are on. -/
theorem Served.accept_first (h : Served s) (hon : s.sys.cpu.interrupts = true) {l : Line}
    (hl : l < 2) (hr : s.pics.master.requested l = true)
    (hfirst : ∀ l' < l, s.pics.master.requested l' = false) :
    s.pics.accept = some ((pic1Offset &&& 0xF8) ||| BitVec.ofNat 8 l,
      ⟨s.pics.master.acknowledge l, s.pics.slave⟩) := by
  have hq := h.quiet_of_on hon
  refine h.programmed.accept_of_next (Pic.next_eq_some_iff.mpr
    ⟨⟨hr, ?_, fun l' _ => hq l'⟩, fun l' hlt => .inl (hfirst l' hlt)⟩)
  rw [h.programmed.masked l, decide_eq_false (Fin.not_le.mpr hl)]

/-- All activations of the running process, once the innermost one has sent its own. -/
theorem Served.acknowledged (h : Served s) (hrunning : s.running = a :: rest)
    (ha : ¬a.Unacknowledged) : ∀ b ∈ s.running, ¬b.Unacknowledged := by
  intro b hb
  rw [hrunning] at hb
  rcases List.mem_cons.mp hb with rfl | hrest
  · exact ha
  · exact h.outer b (by rw [hrunning]; exact hrest)

theorem exec_interrupts {o : Op Callee} (ho : o ≠ .iret) :
    (o.exec L.entry c).cpu.interrupts = c.cpu.interrupts := by
  cases o with
  | pushad =>
    show (Instr.pushad.exec c.cpu).interrupts = c.cpu.interrupts
    rw [exec_pushad]
    rfl
  | popad => simp [Op.exec, Instr.exec, pushOrder, Cpu.popReg, Cpu.set]
  | pushImm | addEsp | call => rfl
  | iret => exact absurd rfl ho

theorem Served.op (h : Served s) (hrunning : s.running = a :: rest) (hcalling : a.calling = none)
    (hposition : a.Position) {o : Op Callee} {code : List (Op Callee)}
    (hcode : a.code = o :: code) :
    Served (s.execOp L a rest o code) := by
  rcases eq_or_ne o .iret with rfl | ho
  · -- what follows `iret` sends nothing
    have hsuffix := hposition.code
    rw [hcode] at hsuffix
    have hend : code = [] := by
      rcases op_cases hsuffix with ⟨heq, -⟩ | ⟨heq, -⟩ | ⟨_, heq, -⟩ | ⟨heq, -⟩ | ⟨heq, -⟩ |
        ⟨-, heq⟩
      · cases heq
      · cases heq
      · cases heq
      · cases heq
      · cases heq
      · exact heq
    have ha : ¬a.Unacknowledged := by
      rw [Activation.Unacknowledged, Activation.eois, hcalling, hcode, hend]
      cases a.irq <;> decide
    have hall := h.acknowledged hrunning ha
    refine h.quiet (t := s.setCore (Op.exec L.entry s.core .iret)) (fun b hb => ?_) rfl rfl rfl
      h.programmed (h.quiet_of_head hrunning ha)
    exact hall b (hrunning ▸ List.mem_cons_of_mem a hb)
  · have hflag : (o.exec L.entry s.core).cpu.interrupts = s.sys.cpu.interrupts :=
      exec_interrupts ho
    cases o with
    | iret => exact absurd rfl ho
    | pushad | popad | pushImm | addEsp =>
      refine h.replace hrunning hflag rfl ?_
      rw [Activation.eois, Activation.eois, hcode, List.countP_cons_of_neg Bool.false_ne_true]
    | call f =>
      refine h.replace hrunning hflag rfl ?_
      rw [Activation.eois, Activation.eois, hcode, hcalling, List.countP_cons_of_pos rfl]
      -- each callee sends one end of interrupt
      have hbody (w : Word) : (Callee.body w f).countP CStep.isEoi = 1 := by
        cases f <;> rfl
      show (Callee.body _ f).countP CStep.isEoi + code.countP isCall =
        0 + (code.countP isCall + 1)
      rw [hbody]
      omega

/-- Each call of `pic_send_eoi` is one of the ends of interrupts. -/
theorem eois_picSendEoi {irq : BitVec 8} {steps : List CStep}
    (hcalling : a.calling = some (.picSendEoi irq :: steps)) :
    Activation.eois { a with calling := some steps } + 1 = a.eois := by
  rw [Activation.eois, Activation.eois, hcalling, Option.getD_some, Option.getD_some,
    List.countP_cons_of_pos rfl]
  show List.countP CStep.isEoi steps + List.countP isCall a.code + 1 = _
  omega

theorem Activation.Position.acknowledged_of_picSendEoi (h : a.Position) {irq : BitVec 8}
    {steps : List CStep} (hcalling : a.calling = some (.picSendEoi irq :: steps)) :
    ¬Activation.Unacknowledged { a with calling := some steps } := by
  intro hun
  have hle := h.eois_le
  have hge : a.irq.handler.countP isCall ≤ Activation.eois { a with calling := some steps } := hun
  have heois := eois_picSendEoi hcalling
  omega

/-- The line of a handler with all its ends of interrupts to come is the one in service. -/
theorem Served.inService_iff (h : Served s) (hrunning : s.running = a :: rest)
    (hun : a.Unacknowledged) (l : Line) :
    s.pics.master.inService l = true ↔ l = a.irq.line := by
  rw [h.inService l, hrunning]
  constructor
  · rintro ⟨b, rest', hb, -, rfl⟩
    obtain ⟨rfl, -⟩ := List.cons.inj hb
    rfl
  · rintro rfl
    exact ⟨a, rest, rfl, hun, rfl⟩

theorem Served.picSendEoi (h : Served s) (hrunning : s.running = a :: rest)
    (hposition : a.Position) {irq : BitVec 8} {steps : List CStep}
    (hcalling : a.calling = some (.picSendEoi irq :: steps)) :
    Served { s.advance a rest steps with pics := picSendEoi s.pics irq } ∧
      (picSendEoi s.pics irq).master.Quiet := by
  have hpics := picSendEoi_master s.pics (hposition.irq_lt hcalling)
  have hquiet : s.pics.master.eoi.Quiet := by
    by_cases hun : a.Unacknowledged
    · exact Pic.eoi_of_only (h.inService_iff hrunning hun)
    · have hq := h.quiet_of_head hrunning hun
      rwa [Pic.eoi_quiet hq]
  rw [hpics]
  refine ⟨h.quiet (t := { s with pics := { s.pics with master := s.pics.master.eoi } })
    (fun b hb => ?_) rfl rfl rfl h.programmed.eoi hquiet, hquiet⟩
  rcases List.mem_cons.mp hb with rfl | hrest
  · exact hposition.acknowledged_of_picSendEoi hcalling
  · exact h.outer b (by rw [hrunning]; exact hrest)

/-- The vectors of the two lines lead to their handlers. -/
theorem handlerOf_line {l : Line} (hl : l = 0 ∨ l = 1) (hsound : Sound L s) :
    ∃ irq : Irq, irq.line = l ∧ L.handlerOf (gateAt L.idt s.sys.cpu.mem
      ((pic1Offset &&& 0xF8) ||| BitVec.ofNat 8 l)) = some irq := by
  have hgate (handler : Word) : (gate handler 0x08 0x8E).IsInterrupt := rfl
  have haddress (handler : Word) : (gate handler 0x08 0x8E).handler = handler := rfl
  rw [hsound.gates]
  rcases hl with rfl | rfl
  · refine ⟨.timer, rfl, ?_⟩
    show L.handlerOf (gate (L.handlerAddress .timer) 0x08 0x8E) = _
    rw [Layout.handlerOf, if_pos (hgate _), haddress, if_pos rfl]
  · refine ⟨.keyboard, rfl, ?_⟩
    show L.handlerOf (gate (L.handlerAddress .keyboard) 0x08 0x8E) = _
    rw [Layout.handlerOf, if_pos (hgate _), haddress, if_neg L.handler_ne.symm, if_pos rfl]

/-- What is accepted is the timer or the keyboard, with nothing else in service, and its handler
begins. -/
theorem Served.take_eq (h : Served s) (hsound : Sound L s) {num : Vector} {pics : Pair}
    (haccept : s.pics.accept = some (num, pics)) :
    ∃ irq : Irq, s.pics.master.next = some irq.line ∧
      pics = ⟨s.pics.master.acknowledge irq.line, s.pics.slave⟩ ∧
      s.take L num pics = { ((s.setCore (s.core.deliver (gateAt L.idt s.sys.cpu.mem num).selector
        (gateAt L.idt s.sys.cpu.mem num).handler)).setRunning
        (s.activation irq :: s.running)) with pics } := by
  obtain ⟨l, hnext, rfl, rfl⟩ := h.programmed.accept_cases haccept
  obtain ⟨irq, rfl, hirq⟩ := handlerOf_line (h.programmed.next_lt hnext) hsound
  exact ⟨irq, hnext, rfl, take_some s _ hirq⟩

theorem Served.accept (h : Served s) (hsound : Sound L s) (hon : s.sys.cpu.interrupts = true)
    {num : Vector} {pics : Pair} (haccept : s.pics.accept = some (num, pics)) :
    Served (s.take L num pics) := by
  have hq := h.quiet_of_on hon
  obtain ⟨irq, hnext, rfl, htake⟩ := h.take_eq hsound haccept
  have hnew : (s.activation irq).Unacknowledged := Nat.le_add_left _ _
  have hhead : ∀ a ∈ s.running, ¬a.Unacknowledged := by
    cases hrunning : s.running with
    | nil => exact fun a ha => absurd ha List.not_mem_nil
    | cons b rest =>
      rw [← hrunning]
      refine h.acknowledged hrunning fun hun => ?_
      rw [h.off b rest hrunning hun] at hon
      cases hon
  have hoff : (s.core.deliver (gateAt L.idt s.sys.cpu.mem num).selector
      (gateAt L.idt s.sys.cpu.mem num).handler).cpu.interrupts = false := rfl
  rw [htake]
  generalize s.core.deliver (gateAt L.idt s.sys.cpu.mem num).selector
    (gateAt L.idt s.sys.cpu.mem num).handler = c at hoff ⊢
  have hrun := running_setRunning (s.setCore c) (s.activation irq :: s.running)
  refine ⟨h.programmed.acknowledge irq.line, h.fault, fun _ _ _ _ => hoff, fun l => ?_,
    fun b hb => ?_, fun p hp b hb => ?_⟩
  · have hmode : s.pics.master.mode.getLsbD 1 = false := by
      rw [h.programmed.mode]
      rfl
    have hserved : (s.pics.master.acknowledge irq.line).inService =
        Function.update s.pics.master.inService irq.line true := by
      rw [Pic.acknowledge, hmode]
      rfl
    show (s.pics.master.acknowledge irq.line).inService l = true ↔ _
    rw [hserved]
    constructor
    · intro hl
      rcases eq_or_ne l irq.line with rfl | hne
      · exact ⟨_, s.running, hrun, hnew, rfl⟩
      · rw [Function.update_of_ne hne, hq l] at hl
        cases hl
    · rintro ⟨b, rest, hb, -, rfl⟩
      obtain ⟨rfl, -⟩ := List.cons.inj (hrun.symm.trans hb)
      exact Function.update_self ..
  · have htail : b ∈ ((s.setCore c).setRunning (s.activation irq :: s.running)).running.tail := hb
    rw [hrun] at htail
    exact hhead b htail
  · have hold : ((s.setCore c).setRunning (s.activation irq :: s.running)).activations p =
        s.activations p := Function.update_of_ne hp ..
    exact h.others p hp b (hold ▸ hb)

theorem Served.switch (h : Served s) (hsound : Sound L s) (next : Nat)
    (hswitches : Switches s as) :
    Served { s.setRunning as with
      sys := { s.sys with cpu := execAll s.sys.cpu contextSwitch, current := next } } := by
  obtain ⟨hquiet, has⟩ : s.pics.master.Quiet ∧ ∀ a ∈ as, ¬a.Unacknowledged := by
    cases hswitches with
    | yield hrunning =>
      refine ⟨h.quiet_of_acknowledged fun a rest ha => ?_, fun a ha => absurd ha List.not_mem_nil⟩
      cases hrunning.symm.trans ha
    | @tick a rest steps hrunning hcalling _ =>
      have hposition : a.Position :=
        hsound.running.position (by rw [hrunning]; exact List.mem_cons_self)
      have ha := hposition.acknowledged_of_pick hcalling
      refine ⟨h.quiet_of_head hrunning ha, fun b hb => ?_⟩
      rcases List.mem_cons.mp hb with rfl | hrest
      · rw [Activation.Unacknowledged, Activation.eois, hcalling, Option.getD_some,
          List.countP_cons_of_neg Bool.false_ne_true] at ha
        exact ha
      · exact h.outer b (by rw [hrunning]; exact hrest)
  have hact (p : Nat) : ∀ a ∈ Function.update s.activations s.sys.current as p,
      ¬a.Unacknowledged := by
    intro a ha
    rcases eq_or_ne p s.sys.current with rfl | hne
    · rw [Function.update_self] at ha
      exact has a ha
    · rw [Function.update_of_ne hne] at ha
      exact h.others p hne a ha
  refine ⟨h.programmed, h.fault, fun a rest ha hun => ?_, fun l => ?_, fun a ha => ?_,
    fun p _ a ha => hact p a ha⟩
  · have hmem : a ∈ Function.update s.activations s.sys.current as next := by
      rw [show Function.update s.activations s.sys.current as next = a :: rest from ha]
      exact List.mem_cons_self
    exact absurd hun (hact next a hmem)
  · refine iff_of_false ?_ ?_
    · show s.pics.master.inService l ≠ true
      rw [hquiet l]
      exact Bool.false_ne_true
    · rintro ⟨a, rest, ha, hun, -⟩
      have hmem : a ∈ Function.update s.activations s.sys.current as next := by
        rw [show Function.update s.activations s.sys.current as next = a :: rest from ha]
        exact List.mem_cons_self
      exact hact next a hmem hun
  · exact hact next a (List.mem_of_mem_tail ha)

theorem Served.step (h : Served s) (hsound : Sound L s) {act : Act} (hs : Step L s act s') :
    Served s' := by
  have hhead {a : Activation} {rest : List Activation} (hrunning : s.running = a :: rest) :
      a.Position := hsound.running.position (by rw [hrunning]; exact List.mem_cons_self)
  cases hs with
  | compute _ _ _ hflag _ =>
    exact ⟨h.programmed, h.fault, fun a rest ha hun => hflag.trans (h.off a rest ha hun),
      h.inService, h.outer, h.others⟩
  | setInterrupts _ hprocess =>
    refine ⟨h.programmed, h.fault, fun a rest ha _ => ?_, h.inService, h.outer, h.others⟩
    cases hprocess.symm.trans ha
  | create _ _ _ _ =>
    exact ⟨h.programmed, h.fault, h.off, h.inService, h.outer, h.others⟩
  | @raise irq _ =>
    have hsame : (s.pics.raise irq).master.inService = s.pics.master.inService := by
      rw [Pair.raise]
      split <;> rfl
    refine ⟨h.programmed.raise irq, h.fault, h.off, fun l => ?_, h.outer, h.others⟩
    show (s.pics.raise irq).master.inService l = true ↔ _
    rw [hsame]
    exact h.inService l
  | accept _ hon haccept _ => exact h.accept hsound hon haccept
  | op _ hrunning hcalling hcode => exact h.op hrunning hcalling (hhead hrunning) hcode
  | picSendEoi _ hrunning hcalling => exact (h.picSendEoi hrunning (hhead hrunning) hcalling).1
  | stay _ hrunning hcalling =>
    refine h.replace (c := s.core) hrunning rfl rfl ?_
    rw [Activation.eois, Activation.eois, hcalling, Option.getD_some, Option.getD_some,
      List.countP_cons_of_neg Bool.false_ne_true]
  | switch _ _ _ hswitches => exact h.switch hsound _ hswitches
  | ret _ hrunning hcalling _ =>
    refine h.replace hrunning rfl rfl ?_
    rw [Activation.eois, Activation.eois, hcalling]
    rfl

end Steps

theorem served_boot {L : Layout} {c : Cpu} {pics : Pair} (h : Boots L c pics) :
    Served (boot L c pics) where
  programmed := programmed_picInit pics
  fault := rfl
  off _ _ ha := by cases ha
  inService l := by
    refine iff_of_false ?_ ?_
    · show (picInit pics).master.inService l ≠ true
      rw [picInit_eq]
      show pics.master.inService l ≠ true
      rw [h.quiet l]
      exact Bool.false_ne_true
    · rintro ⟨a, rest, ha, -⟩
      cases ha
  outer a ha := absurd ha List.not_mem_nil
  others _ _ a ha := absurd ha List.not_mem_nil

theorem served_of_reachable {L : Layout} {c : Cpu} {pics : Pair} {s : State}
    (hboot : Boots L c pics) (h : Reachable L c pics s) : Served s := by
  induction h with
  | refl => exact served_boot hboot
  | tail hreach hs ih =>
    obtain ⟨act, hs⟩ := hs
    exact ih.step (sound_of_reachable hboot hreach) hs

/-- In every state of every run: no interrupt has faulted; no line is in service while interrupts
are let in, and else only that of the handler that runs; only the vectors 32 and 33 come, and the
timer is never held back. An end of interrupt leaves no line in service: the first one of a handler
ends its own interrupt, the only one in service, and a further one finds nothing in service and
leaves the controllers as they are. -/
theorem end_of_interrupt {L : Layout} {c : Cpu} {pics : Pair} (hboot : Boots L c pics) {s : State}
    (h : Reachable L c pics s) :
    s.fault = false ∧
    (s.sys.cpu.interrupts = true → s.pics.master.Quiet) ∧
    (∀ l, s.pics.master.inService l = true → s.sys.cpu.interrupts = false ∧
      ∃ a rest, s.running = a :: rest ∧ a.irq.line = l) ∧
    (∀ num pics', s.pics.accept = some (num, pics') → num = 32 ∨ num = 33) ∧
    (s.sys.cpu.interrupts = true → s.pics.master.requested 0 = true →
      ∃ pics', s.pics.accept = some (32, pics')) ∧
    (s.sys.cpu.interrupts = true → s.pics.master.requested 0 = false →
      s.pics.master.requested 1 = true → ∃ pics', s.pics.accept = some (33, pics')) ∧
    ∀ s', Step L s .picSendEoi s' → ∃ a rest a',
      s.running = a :: rest ∧ s'.running = a' :: rest ∧ a'.irq = a.irq ∧
      a'.eois + 1 = a.eois ∧ ¬a'.Unacknowledged ∧ s'.pics.master.Quiet ∧
      (a.Unacknowledged → ∀ l, s.pics.master.inService l = true ↔ l = a.irq.line) ∧
      (¬a.Unacknowledged → s.pics.master.Quiet ∧ s'.pics = s.pics) := by
  have hserved := served_of_reachable hboot h
  have hsound := sound_of_reachable hboot h
  have hprogrammed := hserved.programmed
  refine ⟨hserved.fault, hserved.quiet_of_on, fun l hl => ?_, fun num pics' haccept => ?_,
    fun hon hr => ?_, fun hon hr₀ hr => ?_, fun s' hs => ?_⟩
  · obtain ⟨a, rest, hrunning, hun, hline⟩ := (hserved.inService l).mp hl
    exact ⟨hserved.off a rest hrunning hun, a, rest, hrunning, hline⟩
  · obtain ⟨l, hnext, rfl, -⟩ := hprogrammed.accept_cases haccept
    rcases hprogrammed.next_lt hnext with rfl | rfl
    · exact .inl rfl
    · exact .inr rfl
  · exact ⟨_, hserved.accept_first hon (by decide) hr fun l hl => absurd hl (Fin.not_lt_zero l)⟩
  · have hzero : ∀ l : Line, l < 1 → l = 0 := by decide
    exact ⟨_, hserved.accept_first hon (by decide) hr fun l hl => hzero l hl ▸ hr₀⟩
  · cases hs with
    | @picSendEoi a rest irq steps _ hrunning hcalling =>
      have hposition : a.Position :=
        hsound.running.position (by rw [hrunning]; exact List.mem_cons_self)
      have hrun := running_setRunning s ({ a with calling := some steps } :: rest)
      refine ⟨a, rest, { a with calling := some steps }, hrunning, hrun, rfl,
        eois_picSendEoi hcalling, hposition.acknowledged_of_picSendEoi hcalling,
        (hserved.picSendEoi hrunning hposition hcalling).2, fun hun => ?_, fun hun => ?_⟩
      · exact hserved.inService_iff hrunning hun
      · have hq := hserved.quiet_of_head hrunning hun
        refine ⟨hq, ?_⟩
        show picSendEoi s.pics irq = s.pics
        rw [picSendEoi_master s.pics (hposition.irq_lt hcalling), Pic.eoi_quiet hq]

/-- The timer after `sti`. -/
theorem timer_after_sti :
    ∃ s, Reachable sampleLayout ContextSwitch.sampleCpu samplePics s ∧
      s.sys.cpu.interrupts = true ∧ ∃ pics', s.pics.accept = some (32, pics') := by
  obtain ⟨s, hreach, -, -, hon, -, -, hpics⟩ := sample_raised 0
  have hrequested : s.pics.master.requested 0 = true := by
    rw [hpics]
    rfl
  exact ⟨s, hreach, hon, (end_of_interrupt sample_boots hreach).2.2.2.2.1 hon hrequested⟩

end SengOs.Kernel.Interrupts
