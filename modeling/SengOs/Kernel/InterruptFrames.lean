import SengOs.Kernel.Interrupts

/-!
# Frames of interrupted processes

What lies on the stack of a process with handlers to return from. The innermost activation is
placed below the code that runs (`Placed`), the next one below the code that the innermost one
has interrupted, and so on (`Chain`). A chain depends on the stack from ESP on
(`Chain.congr`), so that what is pushed below it does no harm.
-/

namespace SengOs.Kernel.Interrupts

open ByteMemory X86 Pic8259
open ContextSwitch (StackLayout)

/-! ## Positions in a handler -/

/-- The registers are not on the stack: before `pushad`, and before `iret`. -/
def atEdge : List (Op Callee) → Bool
  | .pushad :: _ | .iret :: _ => true
  | _ => false

/-- The argument for `pic_send_eoi` is on the stack. -/
def awaitsArgument : List (Op Callee) → Bool
  | .call .picSendEoi :: _ => true
  | _ => false

theorem atEdge_of_awaitsArgument {code : List (Op Callee)} (h : awaitsArgument code = true) :
    atEdge code = false := by
  unfold awaitsArgument at h
  split at h
  · rfl
  · cases h

/-- The code is left of the handler, and the steps are left of a function it calls. -/
structure Activation.Position (a : Activation) : Prop where
  code : a.code <:+ a.irq.handler
  calling : ∀ steps, a.calling = some steps →
    ∃ f, .call f :: a.code <:+ a.irq.handler ∧ steps <:+ f.body a.irq.number

/-- Where the handler ends. -/
def Layout.behind (L : Layout) (irq : Irq) : Word :=
  L.handlerAddress irq + codeSize irq.handler

/-- The instructions of the handlers, with what stands behind each of them. -/
theorem op_cases {irq : Irq} {o : Op Callee} {code : List (Op Callee)}
    (h : o :: code <:+ irq.handler) :
    (o = .pushad ∧ offset code = 0 ∧ atEdge code = false ∧ awaitsArgument code = false) ∨
    (o = .pushImm irq.number ∧ offset code = -4 ∧ atEdge code = false) ∨
    (∃ f, o = .call f ∧ (offset code = 0 ∧ f = .schedulerTick ∨
        offset code = -4 ∧ f = .picSendEoi) ∧
      atEdge code = false ∧ awaitsArgument code = false) ∨
    (o = .addEsp 4 ∧ offset code = 0 ∧ atEdge code = false ∧ awaitsArgument code = false) ∨
    (o = .popad ∧ code = [.iret]) ∨ (o = .iret ∧ code = []) := by
  cases irq with
  | timer =>
    simp only [Irq.handler, irq0Handler, List.suffix_cons_iff, List.cons.injEq, List.suffix_nil,
      reduceCtorEq, or_false] at h
    rcases h with ⟨rfl, rfl⟩ | ⟨rfl, rfl⟩ | ⟨rfl, rfl⟩ | ⟨rfl, rfl⟩ | ⟨rfl, rfl⟩ | ⟨rfl, rfl⟩ |
      ⟨rfl, rfl⟩
    all_goals simp [offset, atEdge, awaitsArgument, Irq.number]
  | keyboard =>
    simp only [Irq.handler, irq1Handler, List.suffix_cons_iff, List.cons.injEq, List.suffix_nil,
      reduceCtorEq, or_false] at h
    rcases h with ⟨rfl, rfl⟩ | ⟨rfl, rfl⟩ | ⟨rfl, rfl⟩ | ⟨rfl, rfl⟩ | ⟨rfl, rfl⟩ | ⟨rfl, rfl⟩
    all_goals simp [offset, atEdge, awaitsArgument, Irq.number]

/-! ## Frames on a stack -/

/-- The code with the state `view` is between two instructions of the handler. -/
structure AtOp (L : Layout) (m : Mem) (view : Context) (a : Activation) : Prop where
  esp : view.regs .esp = a.esp
  eip : view.eip + codeSize a.code = L.behind a.irq
  argument : awaitsArgument a.code = true → load m a.esp = a.irq.number
  edge : atEdge a.code = true → a.esp = a.top + 32 ∧
    (∀ r, r ≠ .esp → view.regs r = a.found.regs r) ∧ IretFrame m (a.top + 32) a.found
  inner : atEdge a.code = false → (a.esp = a.top ∨ a.esp + 4 = a.top) ∧ Stacked m a.top a.found

/-- The code with the state `view` is in a function that the handler called. -/
structure InCall (L : Layout) (m : Mem) (view : Context) (a : Activation) : Prop where
  esp : (view.regs .esp).toNat ≤ a.base.toNat
  base : a.base + 4 = a.top ∨ a.base + 8 = a.top
  ret : load m a.base + codeSize a.code = L.behind a.irq
  saved : Stacked m a.top a.found

def Stage (L : Layout) (m : Mem) (view : Context) (a : Activation) : Prop :=
  if a.calling = none then AtOp L m view a else InCall L m view a

/-- The activation lies on the stack of `p`, below the code with the state `view`, and above it
the stack is as the interrupt found it. -/
structure Placed (L : Layout) (p : Nat) (m : Mem) (view : Context) (a : Activation) : Prop where
  position : a.Position
  lo : L.lo p + 8 ≤ a.top.toNat
  hi : a.top.toNat + 44 ≤ L.hi p
  kept : Agree a.mem m (a.top.toNat + 44) (L.hi p)
  stage : Stage L m view a

/-- The activations of `p`, each below the code that the one before has interrupted. -/
def Chain (L : Layout) (p : Nat) (m : Mem) : Context → List Activation → Prop
  | view, [] => (view.regs .esp).toNat ≤ L.hi p
  | view, a :: rest => Placed L p m view a ∧ Chain L p m a.found.toContext rest

section Chain

variable {L : Layout} {p : Nat} {m m' : Mem} {view view' : Context} {a a' : Activation}
  {as rest : List Activation}

theorem Placed.bound (h : Placed L p m view a) (hp : p < maxProcesses) :
    a.top.toNat + 44 < 2 ^ 32 ∧ (a.found.regs .esp).toNat = a.top.toNat + 44 := by
  have hlt := StackLayout.hi_lt (L := L.toStackLayout) hp
  have hhi := h.hi
  have htop : a.found.regs .esp = a.top + 44 := by
    rw [Activation.top]
    bv_omega
  exact ⟨by omega, by bv_omega⟩

/-- The running code stays below the frame, or at its end. -/
theorem Placed.esp_le (h : Placed L p m view a) (hp : p < maxProcesses) :
    (view.regs .esp).toNat ≤ a.top.toNat + 32 := by
  obtain ⟨hlt, -⟩ := h.bound hp
  have hlo := h.lo
  have hstage := h.stage
  rw [Stage] at hstage
  split at hstage
  · rw [hstage.esp]
    cases hedge : atEdge a.code with
    | true =>
      rw [(hstage.edge hedge).1]
      bv_omega
    | false => rcases (hstage.inner hedge).1 with heq | heq <;> bv_omega
  · have hle := hstage.esp
    rcases hstage.base with heq | heq <;> bv_omega

/-- A frame depends on the stack from ESP on. -/
theorem Stage.congr (h : Stage L m view a) (hlo : 8 ≤ a.top.toNat)
    (hlt : a.top.toNat + 44 < 2 ^ 32) (hagree : Agree m m' (view.regs .esp).toNat
      (a.top.toNat + 44)) : Stage L m' view a := by
  rw [Stage] at h ⊢
  split at h
  · rename_i hnone
    rw [if_pos hnone]
    rw [h.esp] at hagree
    refine ⟨h.esp, h.eip, fun harg => ?_, fun hedge => ?_, fun hinner => ?_⟩
    · have hedge := atEdge_of_awaitsArgument harg
      have hle : a.esp.toNat + 4 ≤ a.top.toNat + 44 := by
        rcases (h.inner hedge).1 with heq | heq <;> bv_omega
      rw [← h.argument harg]
      exact (load_congr (hagree.mono le_rfl hle)).symm
    · obtain ⟨hesp, hregs, hframe⟩ := h.edge hedge
      refine ⟨hesp, hregs, hframe.congr (by bv_omega) (hagree.mono ?_ (by bv_omega))⟩
      rw [hesp]
    · obtain ⟨hesp, hstacked⟩ := h.inner hinner
      refine ⟨hesp, hstacked.congr (by omega) (hagree.mono ?_ le_rfl)⟩
      rcases hesp with heq | heq <;> bv_omega
  · rename_i hsome
    rw [if_neg hsome]
    have hle := h.esp
    have hbase : a.base.toNat + 4 ≤ a.top.toNat := by
      rcases h.base with heq | heq <;> bv_omega
    refine ⟨hle, h.base, ?_, h.saved.congr (by omega) (hagree.mono (by omega) le_rfl)⟩
    rw [← h.ret]
    exact congrArg (· + _) (load_congr (hagree.mono hle (by omega))).symm

theorem Chain.congr (h : Chain L p m view as) (hp : p < maxProcesses)
    (hagree : Agree m m' (view.regs .esp).toNat (L.hi p)) : Chain L p m' view as := by
  induction as generalizing view with
  | nil => exact h
  | cons a rest ih =>
    obtain ⟨hplaced, hrest⟩ := h
    obtain ⟨hlt, hfound⟩ := hplaced.bound hp
    have hesp := hplaced.esp_le hp
    have hlo := hplaced.lo
    have hhi := hplaced.hi
    refine ⟨⟨hplaced.position, hlo, hhi, ?_, ?_⟩, ih hrest (hagree.mono ?_ le_rfl)⟩
    · exact hplaced.kept.trans (hagree.mono (by omega) le_rfl)
    · exact hplaced.stage.congr (by omega) hlt (hagree.mono le_rfl hhi)
    · show (view.regs .esp).toNat ≤ (a.found.regs .esp).toNat
      omega

theorem Chain.esp_le (h : Chain L p m view as) (hp : p < maxProcesses) :
    (view.regs .esp).toNat ≤ L.hi p := by
  cases as with
  | nil => exact h
  | cons a rest =>
    have hesp := h.1.esp_le hp
    have hhi := h.1.hi
    omega

/-- The innermost handler goes on, and nothing above the frame has changed. -/
theorem Chain.next (h : Chain L p m view (a :: rest)) (hp : p < maxProcesses)
    (hagree : Agree m m' (a.top.toNat + 44) (L.hi p))
    (hsame : a'.irq = a.irq ∧ a'.found = a.found ∧ a'.mem = a.mem) (hposition : a'.Position)
    (hstage : Stage L m' view' a') : Chain L p m' view' (a' :: rest) := by
  obtain ⟨hplaced, hrest⟩ := h
  obtain ⟨-, hfound⟩ := hplaced.bound hp
  obtain ⟨-, hfound', hmem⟩ := hsame
  have htop : a'.top = a.top := by rw [Activation.top, Activation.top, hfound']
  refine ⟨⟨hposition, htop ▸ hplaced.lo, htop ▸ hplaced.hi, ?_, hstage⟩, ?_⟩
  · rw [htop, hmem]
    exact hplaced.kept.trans hagree
  · rw [hfound']
    refine hrest.congr hp ?_
    show Agree m m' (a.found.regs .esp).toNat _
    rwa [hfound]

end Chain

end SengOs.Kernel.Interrupts
