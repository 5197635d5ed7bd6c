import SengOs.Kernel.InterruptFrames

/-!
# The instructions of the handlers

Each instruction of a handler, the return of a function it has called, and the delivery of a
further interrupt lead from a chain of activations to a chain (`Ready.exec`, `Chain.ret`,
`Chain.deliver`), and write within the stack.
-/

namespace SengOs.Kernel.Interrupts

open ByteMemory X86

section Instructions

variable {L : Layout} {p : Nat} {c : Core} {a : Activation} {rest as : List Activation}
  {o : Op Callee} {code : List (Op Callee)}

/-- The processor is between two instructions of the innermost handler. -/
structure Ready (L : Layout) (p : Nat) (c : Core) (a : Activation) (rest : List Activation)
    (o : Op Callee) (code : List (Op Callee)) : Prop where
  chain : Chain L p c.cpu.mem c.cpu.context (a :: rest)
  lt : p < maxProcesses
  calling : a.calling = none
  code : a.code = o :: code

namespace Ready

theorem atOp (h : Ready L p c a rest o code) : AtOp L c.cpu.mem c.cpu.context a := by
  have hstage := h.chain.1.stage
  rwa [Stage, if_pos h.calling] at hstage

theorem suffix (h : Ready L p c a rest o code) : o :: code <:+ a.irq.handler :=
  h.code ▸ h.chain.1.position.code

/-- The instruction behind. -/
theorem next_eip (h : Ready L p c a rest o code) :
    c.cpu.eip + o.size + codeSize code = L.behind a.irq := by
  have heip := h.atOp.eip
  rw [h.code] at heip
  rw [← heip, BitVec.add_assoc]
  rfl

theorem position (h : Ready L p c a rest o code) : Activation.Position { a with code } where
  code := (List.suffix_cons o code).trans h.suffix
  calling steps hsteps := by
    cases h.calling.symm.trans hsteps

/-- The handler goes on with the next instruction. -/
theorem next (h : Ready L p c a rest o code) (c' : Core)
    (hagree : Agree c.cpu.mem c'.cpu.mem (a.top.toNat + 44) (L.hi p))
    (heip : c'.cpu.eip = c.cpu.eip + o.size)
    (hesp : c'.cpu.regs .esp = a.top + offset code)
    (hargument : awaitsArgument code = true →
      load c'.cpu.mem (a.top + offset code) = a.irq.number)
    (hedge : atEdge code = true → offset code = 32 ∧
      (∀ r, r ≠ .esp → c'.cpu.regs r = a.found.regs r) ∧
      IretFrame c'.cpu.mem (a.top + 32) a.found)
    (hinner : atEdge code = false →
      (offset code = 0 ∨ offset code = -4) ∧ Stacked c'.cpu.mem a.top a.found) :
    Chain L p c'.cpu.mem c'.cpu.context ({ a with code } :: rest) := by
  refine h.chain.next h.lt hagree ⟨rfl, rfl, rfl⟩ h.position ?_
  rw [Stage, if_pos h.calling]
  refine ⟨hesp, ?_, hargument, fun he => ?_, fun hi => ?_⟩
  · show c'.cpu.eip + codeSize code = _
    rw [heip, h.next_eip]
  · obtain ⟨hoffset, hregs, hframe⟩ := hedge he
    exact ⟨congrArg (a.top + ·) hoffset, hregs, hframe⟩
  · obtain ⟨hoffset, hstacked⟩ := hinner hi
    refine ⟨?_, hstacked⟩
    show a.top + offset code = a.top ∨ a.top + offset code + 4 = a.top
    rcases hoffset with heq | heq
    · rw [heq]
      exact .inl (BitVec.add_zero _)
    · rw [heq]
      exact .inr (by bv_omega)

theorem esp (h : Ready L p c a rest o code) : c.cpu.regs .esp = a.top + offset (o :: code) := by
  rw [← h.code]
  exact h.atOp.esp

theorem pushad (h : Ready L p c a rest .pushad code) (hoffset : offset code = 0)
    (hedge : atEdge code = false) (harg : awaitsArgument code = false) :
    Chain L p (Instr.pushad.exec c.cpu).mem
        { (Instr.pushad.exec c.cpu).context with eip := c.cpu.eip + 1 } ({ a with code } :: rest) ∧
      ByteMemory.Frame c.cpu.mem (Instr.pushad.exec c.cpu).mem a.top.toNat (a.top.toNat + 32) := by
  obtain ⟨hlt, -⟩ := h.chain.1.bound h.lt
  have hesp : c.cpu.regs .esp = a.top + 32 := by
    rw [h.esp, offset, hoffset]
    rfl
  obtain ⟨-, hregs, hframe⟩ := h.atOp.edge (by rw [h.code]; rfl)
  rw [← hesp] at hframe
  have htop : a.top + 32 - 32 = a.top := by bv_omega
  have hmem : ByteMemory.Frame c.cpu.mem (Instr.pushad.exec c.cpu).mem a.top.toNat
      (a.top.toNat + 32) := by
    have hpush := pushAll_frame c.cpu.mem (a := c.cpu.regs .esp) (pushOrder.map c.cpu.regs)
      (show 32 ≤ _ by bv_omega)
    rw [exec_pushad]
    refine hpush.mono ?_ ?_
    · show a.top.toNat ≤ (c.cpu.regs .esp).toNat - 32
      bv_omega
    · bv_omega
  have hstacked := stacked_pushad hframe hregs (by bv_omega) (by bv_omega)
  rw [hesp, htop] at hstacked
  refine ⟨h.next { c with cpu := { Instr.pushad.exec c.cpu with eip := c.cpu.eip + 1 } }
    (hmem.agree (Or.inr (by omega))).symm rfl ?_ (fun he => ?_) (fun he => ?_)
    (fun _ => ⟨.inl hoffset, hstacked⟩), hmem⟩
  · show (Instr.pushad.exec c.cpu).regs .esp = _
    rw [exec_pushad, hoffset]
    show Function.update c.cpu.regs .esp (c.cpu.regs .esp - 32) .esp = _
    rw [Function.update_self, hesp, htop]
    exact (BitVec.add_zero a.top).symm
  · rw [harg] at he
    cases he
  · rw [hedge] at he
    cases he

theorem popad (h : Ready L p c a rest .popad [.iret]) :
    Chain L p (Instr.popad.exec c.cpu).mem
      { (Instr.popad.exec c.cpu).context with eip := c.cpu.eip + 1 }
      ({ a with code := [.iret] } :: rest) := by
  have hoffset : offset ([.popad, .iret] : List (Op Callee)) = 0#32 := rfl
  have hesp : c.cpu.regs .esp = a.top := by
    rw [h.esp, hoffset, BitVec.add_zero]
  obtain ⟨-, hstacked⟩ := h.atOp.inner (by rw [h.code]; rfl)
  rw [← hesp] at hstacked
  obtain ⟨hregs, hafter, hframe⟩ := popad_stacked hstacked
  rw [hesp] at hafter hframe
  generalize hcpu : Instr.popad.exec c.cpu = cpu at *
  have hmem : cpu.mem = c.cpu.mem := hcpu ▸ exec_popad_mem c.cpu
  refine h.next { c with cpu := { cpu with eip := c.cpu.eip + 1 } } ?_ rfl hafter
    (fun he => ?_) (fun _ => ⟨rfl, hregs, hframe⟩) (fun he => ?_)
  · intro x _ _
    exact congrFun hmem.symm x
  · cases he
  · cases he

/-- The word below ESP is written. -/
theorem push (h : Ready L p c a rest o code) (hinner : atEdge a.code = false) (v : Word) :
    (c.cpu.regs .esp - 4).toNat + 4 = (c.cpu.regs .esp).toNat ∧
      (c.cpu.regs .esp).toNat ≤ a.top.toNat ∧ L.lo p ≤ (c.cpu.regs .esp - 4).toNat ∧
      Stacked (c.cpu.push v).mem a.top a.found := by
  obtain ⟨hlt, -⟩ := h.chain.1.bound h.lt
  have hlo := h.chain.1.lo
  obtain ⟨hcases, hstacked⟩ := h.atOp.inner hinner
  rw [← h.atOp.esp] at hcases
  have hcases' : c.cpu.regs .esp = a.top ∨ c.cpu.regs .esp + 4 = a.top := hcases
  have hle : (c.cpu.regs .esp).toNat ≤ a.top.toNat ∧ 4 ≤ (c.cpu.regs .esp).toNat ∧
      L.lo p + 4 ≤ (c.cpu.regs .esp).toNat := by
    rcases hcases' with heq | heq <;> bv_omega
  refine ⟨by bv_omega, hle.1, by bv_omega, hstacked.congr (by omega) ?_⟩
  have hframe := store_frame c.cpu.mem (c.cpu.regs .esp - 4) v
  exact (hframe.agree (Or.inr (by bv_omega))).symm

theorem pushImm (h : Ready L p c a rest (.pushImm a.irq.number) code) (hoffset : offset code = -4)
    (hedge : atEdge code = false) :
    Chain L p (c.cpu.push a.irq.number).mem
      { (c.cpu.push a.irq.number).context with eip := c.cpu.eip + 2 }
      ({ a with code } :: rest) := by
  obtain ⟨hlow, hle, -, hstacked⟩ := h.push (by rw [h.code]; rfl) a.irq.number
  have hesp : c.cpu.regs .esp - 4 = a.top + offset code := by
    rw [h.esp, offset, hoffset]
    bv_omega
  refine h.next { c with cpu := { c.cpu.push a.irq.number with eip := c.cpu.eip + 2 } } ?_ rfl
    ((c.cpu.push_esp a.irq.number).trans hesp) (fun _ => ?_) (fun he => ?_)
    (fun _ => ⟨.inr hoffset, hstacked⟩)
  · exact ((store_frame c.cpu.mem (c.cpu.regs .esp - 4) a.irq.number).agree
      (Or.inr (by omega))).symm
  · rw [← hesp]
    exact load_store_self ..
  · rw [hedge] at he
    cases he

theorem addEsp (h : Ready L p c a rest (.addEsp 4) code) (hoffset : offset code = 0)
    (hedge : atEdge code = false) (harg : awaitsArgument code = false) :
    Chain L p c.cpu.mem
      ⟨Function.update c.cpu.regs .esp (c.cpu.regs .esp + 4), c.cpu.eip + 3⟩
      ({ a with code } :: rest) := by
  obtain ⟨-, hstacked⟩ := h.atOp.inner (by rw [h.code]; rfl)
  have hesp : c.cpu.regs .esp + 4 = a.top + offset code := by
    rw [h.esp, offset, hoffset]
    bv_omega
  refine h.next
    { c with cpu := { c.cpu.set .esp (c.cpu.regs .esp + 4) with eip := c.cpu.eip + 3 } }
    (fun _ _ _ => rfl) rfl ((c.cpu.set_self .esp _).trans hesp) (fun he => ?_) (fun he => ?_)
    (fun _ => ⟨.inl hoffset, hstacked⟩)
  · rw [harg] at he
    cases he
  · rw [hedge] at he
    cases he

/-- The argument of a called function. -/
theorem body_suffix (h : Ready L p c a rest o code) {f : Callee} (ho : o = .call f) :
    f.body (load c.cpu.mem (c.cpu.regs .esp)) = f.body a.irq.number := by
  cases f with
  | schedulerTick => rfl
  | picSendEoi =>
    have hesp : c.cpu.regs .esp = a.esp := h.atOp.esp
    rw [hesp, h.atOp.argument (by rw [h.code, ho]; rfl)]

theorem call {f : Callee} (h : Ready L p c a rest (.call f) code)
    (hoffset : offset code = 0 ∨ offset code = -4) :
    Chain L p (c.cpu.push (c.cpu.eip + 5)).mem
      { (c.cpu.push (c.cpu.eip + 5)).context with eip := L.entry f }
      ({ a with code, calling := some (f.body (load c.cpu.mem (c.cpu.regs .esp))) } :: rest) := by
  have hinner : atEdge a.code = false := by
    rw [h.code]
    rfl
  obtain ⟨hlow, hle, -, hstacked⟩ := h.push hinner (c.cpu.eip + 5)
  have hesp : c.cpu.regs .esp = a.top + offset code := h.esp
  refine h.chain.next h.lt ?_ ⟨rfl, rfl, rfl⟩ ⟨(List.suffix_cons _ code).trans h.suffix, ?_⟩ ?_
  · exact ((store_frame c.cpu.mem (c.cpu.regs .esp - 4) (c.cpu.eip + 5)).agree
      (Or.inr (by omega))).symm
  · intro steps hsteps
    refine ⟨f, h.suffix, ?_⟩
    have heq : f.body a.irq.number = steps :=
      (h.body_suffix rfl).symm.trans (Option.some.inj hsteps)
    exact heq ▸ List.suffix_refl _
  · rw [Stage, if_neg (Option.some_ne_none _)]
    have hbase : Activation.base { a with
        code, calling := some (f.body (load c.cpu.mem (c.cpu.regs .esp))) } =
        c.cpu.regs .esp - 4 := by
      rw [hesp]
      rfl
    refine ⟨?_, ?_, ?_, hstacked⟩
    · rw [hbase]
      exact le_of_eq (congrArg BitVec.toNat (c.cpu.push_esp (c.cpu.eip + 5)))
    · rw [hbase, hesp]
      show a.top + offset code - 4 + 4 = a.top ∨ a.top + offset code - 4 + 8 = a.top
      rcases hoffset with heq | heq <;> rw [heq]
      · exact .inl (by bv_omega)
      · exact .inr (by bv_omega)
    · rw [hbase]
      show load (store c.cpu.mem (c.cpu.regs .esp - 4) (c.cpu.eip + 5)) (c.cpu.regs .esp - 4) +
        codeSize code = L.behind a.irq
      rw [load_store_self]
      exact h.next_eip

/-- `iret` brings back what the interrupt found. -/
theorem iret (h : Ready L p c a rest .iret code) :
    c.iret.interrupted = a.found ∧ c.iret.cpu.mem = c.cpu.mem ∧
      Chain L p c.cpu.mem a.found.toContext rest := by
  obtain ⟨hesp, hregs, hframe⟩ := h.atOp.edge (by rw [h.code]; rfl)
  have hesp' : c.cpu.regs .esp = a.esp := h.atOp.esp
  rw [← hesp, ← hesp'] at hframe
  exact ⟨interrupted_iret hframe hregs, rfl, h.chain.2⟩

/-- Each instruction leads to a chain, and writes within the stack. -/
theorem exec (h : Ready L p c a rest o code) :
    Chain L p (o.exec L.entry c).cpu.mem (o.exec L.entry c).cpu.context
        (a.after (load c.cpu.mem (c.cpu.regs .esp)) code o ++ rest) ∧
      ByteMemory.Frame c.cpu.mem (o.exec L.entry c).cpu.mem (L.lo p) (L.hi p) := by
  have hlo := h.chain.1.lo
  have hhi := h.chain.1.hi
  have hstore (hinner : atEdge a.code = false) (v : Word) :
      ByteMemory.Frame c.cpu.mem (c.cpu.push v).mem (L.lo p) (L.hi p) := by
    obtain ⟨hlow, hle, hlo', -⟩ := h.push hinner v
    exact (store_frame c.cpu.mem (c.cpu.regs .esp - 4) v).mono hlo' (by omega)
  rcases op_cases h.suffix with ⟨rfl, hoffset, hedge, harg⟩ | ⟨rfl, hoffset, hedge⟩ |
    ⟨f, rfl, hoffset, hedge, harg⟩ | ⟨rfl, hoffset, hedge, harg⟩ | ⟨rfl, rfl⟩ | ⟨rfl, rfl⟩
  · obtain ⟨hchain, hframe⟩ := h.pushad hoffset hedge harg
    exact ⟨hchain, hframe.mono (by omega) (by omega)⟩
  · exact ⟨h.pushImm hoffset hedge, hstore (by rw [h.code]; rfl) _⟩
  · exact ⟨h.call (hoffset.imp And.left And.left), hstore (by rw [h.code]; rfl) _⟩
  · exact ⟨h.addEsp hoffset hedge harg, .refl _ _ _⟩
  · refine ⟨h.popad, fun x _ => ?_⟩
    exact congrFun (exec_popad_mem c.cpu) x
  · obtain ⟨hfound, hmem, hchain⟩ := h.iret
    refine ⟨?_, fun x _ => congrFun hmem x⟩
    show Chain L p c.iret.cpu.mem c.iret.interrupted.toContext rest
    rw [hfound, hmem]
    exact hchain

end Ready

/-- A called function comes back to the instruction behind the call. -/
theorem Chain.ret (h : Chain L p c.cpu.mem c.cpu.context (a :: rest)) (hp : p < maxProcesses)
    {steps : List CStep} (hcalling : a.calling = some steps) (hesp : c.cpu.regs .esp = a.base) :
    Chain L p (Instr.ret.exec c.cpu).mem (Instr.ret.exec c.cpu).context
      ({ a with calling := none } :: rest) := by
  have hstage := h.1.stage
  rw [Stage, if_neg (hcalling ▸ Option.some_ne_none _)] at hstage
  obtain ⟨f, hsuffix, -⟩ := h.1.position.calling steps hcalling
  refine h.next hp (fun _ _ _ => rfl) ⟨rfl, rfl, rfl⟩
    ⟨(List.suffix_cons _ a.code).trans hsuffix, fun _ he => by cases he⟩ ?_
  obtain ⟨hoffset, hedge, harg⟩ : (offset a.code = 0 ∨ offset a.code = -4) ∧
      atEdge a.code = false ∧ awaitsArgument a.code = false := by
    rcases op_cases hsuffix with ⟨heq, -⟩ | ⟨heq, -⟩ | ⟨f', -, hoffset, hedge, harg⟩ | ⟨heq, -⟩ |
      ⟨heq, -⟩ | ⟨heq, -⟩
    · cases heq
    · cases heq
    · exact ⟨hoffset.imp And.left And.left, hedge, harg⟩
    · cases heq
    · cases heq
    · cases heq
  rw [Stage, if_pos rfl]
  refine ⟨?_, ?_, fun he => ?_, fun he => ?_, fun _ => ⟨?_, hstage.saved⟩⟩
  · show (c.cpu.set .esp (c.cpu.regs .esp + 4)).regs .esp = a.esp
    rw [c.cpu.set_self, hesp, Activation.base]
    bv_omega
  · show load c.cpu.mem (c.cpu.regs .esp) + codeSize a.code = _
    rw [hesp, hstage.ret]
  · rw [harg] at he
    cases he
  · rw [hedge] at he
    cases he
  · show a.top + offset a.code = a.top ∨ a.top + offset a.code + 4 = a.top
    rcases hoffset with heq | heq <;> rw [heq]
    · exact .inl (BitVec.add_zero _)
    · exact .inr (by bv_omega)

/-- A further interrupt, through the gate of a handler. -/
theorem Chain.deliver (h : Chain L p c.cpu.mem c.cpu.context as) (hp : p < maxProcesses)
    (hroom : L.lo p + 52 ≤ (c.cpu.regs .esp).toNat) (selector : BitVec 16) (irq : Irq) :
    Chain L p (c.deliver selector (L.handlerAddress irq)).cpu.mem
        (c.deliver selector (L.handlerAddress irq)).cpu.context
        (⟨irq, c.interrupted, c.cpu.mem, irq.handler, none⟩ :: as) ∧
      ByteMemory.Frame c.cpu.mem (c.deliver selector (L.handlerAddress irq)).cpu.mem (L.lo p)
        (L.hi p) := by
  have hesp : (c.cpu.regs .esp).toNat ≤ L.hi p := h.esp_le hp
  have hframe := deliver_frame (c := c) selector (L.handlerAddress irq) (by omega)
  have hiret := iretFrame_deliver (c := c) selector (L.handlerAddress irq) (by omega)
  have hfrom : Agree c.cpu.mem (c.deliver selector (L.handlerAddress irq)).cpu.mem
      (c.cpu.regs .esp).toNat (L.hi p) := (hframe.agree (Or.inr le_rfl)).symm
  have htop : c.cpu.regs .esp - 12 = c.cpu.regs .esp - 44 + 32 := by bv_omega
  refine ⟨⟨⟨⟨List.suffix_refl _, fun _ he => by cases he⟩, ?_, ?_, ?_, ?_⟩, h.congr hp hfrom⟩,
    hframe.mono (by omega) hesp⟩
  · show L.lo p + 8 ≤ (c.cpu.regs .esp - 44).toNat
    bv_omega
  · show (c.cpu.regs .esp - 44).toNat + 44 ≤ L.hi p
    bv_omega
  · show Agree c.cpu.mem _ ((c.cpu.regs .esp - 44).toNat + 44) (L.hi p)
    exact hfrom.mono (by bv_omega) le_rfl
  · rw [Stage, if_pos rfl]
    have hoffset : offset irq.handler = 32 := by cases irq <;> rfl
    have hcpu := deliver_cpu c selector (L.handlerAddress irq)
    have hregs : (c.deliver selector (L.handlerAddress irq)).cpu.regs =
        Function.update c.cpu.regs .esp (c.cpu.regs .esp - 12) := congrArg Cpu.regs hcpu
    refine ⟨?_, rfl, fun he => ?_, fun _ => ⟨?_, fun r hr => ?_, ?_⟩, fun he => ?_⟩
    · show (c.deliver selector (L.handlerAddress irq)).cpu.regs .esp =
        c.cpu.regs .esp - 44 + offset irq.handler
      rw [hregs, Function.update_self, hoffset, htop]
    · cases irq <;> cases he
    · exact congrArg (c.cpu.regs .esp - 44 + ·) hoffset
    · show (c.deliver selector (L.handlerAddress irq)).cpu.regs r = c.cpu.regs r
      rw [hregs, Function.update_of_ne hr]
    · rw [htop] at hiret
      exact hiret
    · cases irq <;> cases he

end Instructions

end SengOs.Kernel.Interrupts
