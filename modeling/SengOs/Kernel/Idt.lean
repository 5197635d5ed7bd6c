import Mathlib.Data.List.Induction
import SengOs.Lib.ByteMemory

/-!
# `kernel/idt.c`

The interrupt descriptor table, byte by byte, as `idt_init` and `idt_set_gate` write it and as
the processor reads it. The gates are a table indexed by the vector: a call of `idt_set_gate`
replaces one of them (`gateAt_idtSetGate`) and writes nothing else (`idtSetGate_frame`).
-/

namespace SengOs.Kernel

open ByteMemory

abbrev Vector := BitVec 8

/-- The fields of an `idt_entry_t`, the handler address in one piece. -/
@[ext] structure Gate where
  handler : BitVec 32
  selector : BitVec 16
  zero : BitVec 8
  typeAttr : BitVec 8
  deriving DecidableEq

def idtEntrySize : Nat := 8

def idtEntries : Nat := 256

/-- `&idt[num]` -/
def idtEntry (idt : Nat) (num : Vector) : Nat := idt + idtEntrySize * num.toNat

/-- `idt_set_gate` -/
def idtSetGate (idt : Nat) (m : Mem) (num : Vector) (handler : BitVec 32) (sel : BitVec 16)
    (flags : BitVec 8) : Mem :=
  let entry := idtEntry idt num
  let m := storeLE m entry 2 (handler &&& 0xFFFF).toNat
  let m := storeLE m (entry + 2) 2 sel.toNat
  let m := storeLE m (entry + 4) 1 0
  let m := storeLE m (entry + 5) 1 flags.toNat
  storeLE m (entry + 6) 2 ((handler >>> 16) &&& 0xFFFF).toNat

/-- The register that `lidt` loads. -/
structure Idtr where
  limit : BitVec 16
  base : BitVec 32

/-- `idt_init` -/
def idtInit (idt : Nat) (irq0Handler irq1Handler : BitVec 32) (m : Mem) : Mem × Idtr :=
  let m := fill m idt 0 (idtEntrySize * idtEntries)
  let m := idtSetGate idt m 32 irq0Handler 0x08 0x8E
  let m := idtSetGate idt m 33 irq1Handler 0x08 0x8E
  (m, ⟨BitVec.ofNat 16 (idtEntrySize * idtEntries - 1), BitVec.ofNat 32 idt⟩)

/-! ## Gates -/

/-- The gate at a vector, as the processor reads it. -/
def gateAt (idt : Nat) (m : Mem) (num : Vector) : Gate where
  handler := BitVec.ofNat 32
    (loadLE m (idtEntry idt num) 2 + 2 ^ 16 * loadLE m (idtEntry idt num + 6) 2)
  selector := BitVec.ofNat 16 (loadLE m (idtEntry idt num + 2) 2)
  zero := BitVec.ofNat 8 (loadLE m (idtEntry idt num + 4) 1)
  typeAttr := BitVec.ofNat 8 (loadLE m (idtEntry idt num + 5) 1)

/-- A present gate to an interrupt handler of ring 0, which clears the interrupt flag. -/
def Gate.IsInterrupt (g : Gate) : Prop := g.typeAttr = 0x8E

instance (g : Gate) : Decidable g.IsInterrupt := inferInstanceAs (Decidable (_ = _))

/-- The gate that `idt_set_gate` describes. -/
def gate (handler : BitVec 32) (sel : BitVec 16) (flags : BitVec 8) : Gate :=
  ⟨handler, sel, 0, flags⟩

section Gates

variable {idt : Nat} {m m' : Mem} {num num' : Vector} {handler : BitVec 32} {sel : BitVec 16}
  {flags : BitVec 8}

theorem idtEntry_bounds (idt : Nat) (num : Vector) : idt ≤ idtEntry idt num ∧
    idtEntry idt num + idtEntrySize ≤ idt + idtEntrySize * idtEntries := by
  have hlt := num.isLt
  simp only [idtEntry, idtEntrySize, idtEntries] at *
  omega

theorem idtEntry_apart (h : num ≠ num') :
    idtEntry idt num + idtEntrySize ≤ idtEntry idt num' ∨
      idtEntry idt num' + idtEntrySize ≤ idtEntry idt num := by
  have hne : num.toNat ≠ num'.toNat := fun heq => h (BitVec.eq_of_toNat_eq heq)
  simp only [idtEntry, idtEntrySize]
  omega

theorem idtSetGate_frame (idt : Nat) (m : Mem) (num : Vector) (handler : BitVec 32)
    (sel : BitVec 16) (flags : BitVec 8) : Frame m (idtSetGate idt m num handler sel flags)
      (idtEntry idt num) (idtEntry idt num + idtEntrySize) := by
  have hfield (m : Mem) (off n v : Nat) (hoff : off + n ≤ idtEntrySize) :
      Frame m (storeLE m (idtEntry idt num + off) n v) (idtEntry idt num)
        (idtEntry idt num + idtEntrySize) :=
    (storeLE_frame m (idtEntry idt num + off) n v).mono (by omega) (by omega)
  exact ((((hfield _ 0 2 _ (by decide)).trans (hfield _ 2 2 _ (by decide))).trans
    (hfield _ 4 1 _ (by decide))).trans (hfield _ 5 1 _ (by decide))).trans
    (hfield _ 6 2 _ (by decide))

theorem gateAt_congr (h : Agree m m' (idtEntry idt num) (idtEntry idt num + idtEntrySize)) :
    gateAt idt m num = gateAt idt m' num := by
  have hfield (off n : Nat) (hoff : off + n ≤ idtEntrySize) :
      loadLE m (idtEntry idt num + off) n = loadLE m' (idtEntry idt num + off) n :=
    loadLE_congr (h.mono (by omega) (by omega))
  have hlow : loadLE m (idtEntry idt num) 2 = loadLE m' (idtEntry idt num) 2 :=
    hfield 0 2 (by decide)
  rw [gateAt, hlow, hfield 2 2 (by decide), hfield 4 1 (by decide), hfield 5 1 (by decide),
    hfield 6 2 (by decide), gateAt]

/-- The two halves of a handler address. -/
theorem toNat_halves (handler : BitVec 32) :
    (handler &&& 0xFFFF).toNat = handler.toNat % 2 ^ 16 ∧
      ((handler >>> 16) &&& 0xFFFF).toNat = handler.toNat / 2 ^ 16 := by
  have hlt := handler.isLt
  constructor
  · exact Nat.and_two_pow_sub_one_eq_mod handler.toNat 16
  · rw [BitVec.toNat_and, BitVec.toNat_ushiftRight, Nat.shiftRight_eq_div_pow]
    have hmod : handler.toNat / 2 ^ 16 &&& 2 ^ 16 - 1 = handler.toNat / 2 ^ 16 % 2 ^ 16 :=
      Nat.and_two_pow_sub_one_eq_mod _ 16
    exact hmod.trans (Nat.mod_eq_of_lt (by omega))

theorem gateAt_idtSetGate_self (idt : Nat) (m : Mem) (num : Vector) (handler : BitVec 32)
    (sel : BitVec 16) (flags : BitVec 8) :
    gateAt idt (idtSetGate idt m num handler sel flags) num = gate handler sel flags := by
  obtain ⟨hlow, hhigh⟩ := toNat_halves handler
  have hlt := handler.isLt
  have hsel := sel.isLt
  have hflags := flags.isLt
  -- what is stored behind a field does not reach it
  have hkeep (m : Mem) (a n b k v : Nat) (hd : a + n ≤ b) :
      loadLE (storeLE m b k v) a n = loadLE m a n :=
    loadLE_congr ((storeLE_frame m b k v).agree (Or.inl hd))
  ext1
  · show BitVec.ofNat 32 (loadLE _ _ 2 + 2 ^ 16 * loadLE _ _ 2) = handler
    rw [idtSetGate, loadLE_storeLE, hkeep _ _ _ _ _ _ (by omega), hkeep _ _ _ _ _ _ (by omega),
      hkeep _ _ _ _ _ _ (by omega), hkeep _ _ _ _ _ _ (by omega), loadLE_storeLE, hlow, hhigh]
    apply BitVec.eq_of_toNat_eq
    rw [BitVec.toNat_ofNat]
    omega
  · show BitVec.ofNat 16 (loadLE _ _ 2) = sel
    rw [idtSetGate, hkeep _ _ _ _ _ _ (by omega), hkeep _ _ _ _ _ _ (by omega),
      hkeep _ _ _ _ _ _ (by omega), loadLE_storeLE]
    apply BitVec.eq_of_toNat_eq
    rw [BitVec.toNat_ofNat]
    omega
  · show BitVec.ofNat 8 (loadLE _ _ 1) = 0
    rw [idtSetGate, hkeep _ _ _ _ _ _ (by omega), hkeep _ _ _ _ _ _ (by omega), loadLE_storeLE]
    rfl
  · show BitVec.ofNat 8 (loadLE _ _ 1) = flags
    rw [idtSetGate, hkeep _ _ _ _ _ _ (by omega), loadLE_storeLE]
    apply BitVec.eq_of_toNat_eq
    rw [BitVec.toNat_ofNat]
    omega

/-- A call of `idt_set_gate` replaces one gate. -/
theorem gateAt_idtSetGate (idt : Nat) (m : Mem) (num : Vector) (handler : BitVec 32)
    (sel : BitVec 16) (flags : BitVec 8) :
    gateAt idt (idtSetGate idt m num handler sel flags) =
      Function.update (gateAt idt m) num (gate handler sel flags) := by
  funext num'
  rcases eq_or_ne num' num with rfl | hne
  · rw [Function.update_self, gateAt_idtSetGate_self]
  · rw [Function.update_of_ne hne]
    exact gateAt_congr ((idtSetGate_frame idt m num handler sel flags).agree (idtEntry_apart hne))

end Gates

/-! ## Runs -/

/-- The gates that `idt_init` leaves. -/
def initialGate (irq0Handler irq1Handler : BitVec 32) (num : Vector) : Gate :=
  if num = 33 then gate irq1Handler 0x08 0x8E
  else if num = 32 then gate irq0Handler 0x08 0x8E
  else gate 0 0 0

section Runs

variable {idt : Nat} {m : Mem} {irq0Handler irq1Handler : BitVec 32}

theorem gateAt_idtInit (idt : Nat) (irq0Handler irq1Handler : BitVec 32) (m : Mem) :
    gateAt idt (idtInit idt irq0Handler irq1Handler m).1 =
      initialGate irq0Handler irq1Handler := by
  have hzero (num : Vector) :
      gateAt idt (fill m idt 0 (idtEntrySize * idtEntries)) num = gate 0 0 0 := by
    obtain ⟨hlo, hhi⟩ := idtEntry_bounds idt num
    have hfield (off n : Nat) (hoff : off + n ≤ idtEntrySize) :
        loadLE (fill m idt 0 (idtEntrySize * idtEntries)) (idtEntry idt num + off) n = 0 :=
      loadLE_zero fun x h₁ h₂ => fill_inside m idt 0 _ ⟨by omega, by omega⟩
    have hlow : loadLE (fill m idt 0 (idtEntrySize * idtEntries)) (idtEntry idt num) 2 = 0 :=
      hfield 0 2 (by decide)
    rw [gateAt, hlow, hfield 2 2 (by decide), hfield 4 1 (by decide), hfield 5 1 (by decide),
      hfield 6 2 (by decide)]
    rfl
  funext num
  rw [idtInit, gateAt_idtSetGate, gateAt_idtSetGate, initialGate, Function.update_apply,
    Function.update_apply, hzero]

end Runs

end SengOs.Kernel
