import SengOs.Lib.Pic8259

/-!
# `kernel/pic.c`

The bytes that `pic_init` and `pic_send_eoi` write to the ports of the two controllers, in
their order. The delays (`io_wait`, a write to port 0x80) are left out.
-/

namespace SengOs.Kernel

open Pic8259

/-! ## Ports -/

def pic1Cmd : BitVec 16 := 0x20
def pic1Data : BitVec 16 := 0x21
def pic2Cmd : BitVec 16 := 0xA0
def pic2Data : BitVec 16 := 0xA1

def picIcw1 : BitVec 8 := 0x11
def picIcw4 : BitVec 8 := 0x01
def pic1Offset : BitVec 8 := 0x20
def pic2Offset : BitVec 8 := 0x28
def picEoi : BitVec 8 := 0x20

/-- `outb`, for the ports of the controllers. -/
def outb (s : Pair) (port : BitVec 16) (val : BitVec 8) : Pair :=
  if port = pic1Cmd then { s with master := s.master.command val }
  else if port = pic1Data then { s with master := s.master.data val }
  else if port = pic2Cmd then { s with slave := s.slave.command val }
  else if port = pic2Data then { s with slave := s.slave.data val }
  else s

/-- `pic_init` -/
def picInit (s : Pair) : Pair :=
  [(pic1Cmd, picIcw1), (pic2Cmd, picIcw1), (pic1Data, pic1Offset), (pic2Data, pic2Offset),
    (pic1Data, 0x04), (pic2Data, 0x02), (pic1Data, picIcw4), (pic2Data, picIcw4),
    (pic1Data, 0xFC), (pic2Data, 0xFF)].foldl (fun s w => outb s w.1 w.2) s

/-- `pic_send_eoi` -/
def picSendEoi (s : Pair) (irq : BitVec 8) : Pair :=
  outb (if irq ≥ 8 then outb s pic2Cmd picEoi else s) pic1Cmd picEoi

/-! ## What they do -/

/-- The controllers are set up as `pic_init` leaves them, with lines raised since and lines in
service. -/
structure Programmed (s : Pair) : Prop where
  phase : s.master.phase = .mask
  offset : s.master.offset = pic1Offset
  cascade : s.master.cascade = 0x04
  mode : s.master.mode = picIcw4
  masked : ∀ l : Line, s.master.masked l = decide (2 ≤ l)
  slave : ∀ l, s.slave.masked l = true

section Ports

variable (s : Pair) (val : BitVec 8)

theorem outb_pic1Cmd : outb s pic1Cmd val = { s with master := s.master.command val } := rfl

theorem outb_pic1Data : outb s pic1Data val = { s with master := s.master.data val } := rfl

theorem outb_pic2Cmd : outb s pic2Cmd val = { s with slave := s.slave.command val } := rfl

theorem outb_pic2Data : outb s pic2Data val = { s with slave := s.slave.data val } := rfl

end Ports

theorem picInit_eq (s : Pair) : picInit s =
    { master := { s.master with
        requested := fun _ => false, masked := fun l => (0xFC : BitVec 8).getLsbD l
        icw1 := picIcw1, offset := pic1Offset, cascade := 0x04, mode := picIcw4, phase := .mask }
      slave := { s.slave with
        requested := fun _ => false, masked := fun l => (0xFF : BitVec 8).getLsbD l
        icw1 := picIcw1, offset := pic2Offset, cascade := 0x02, mode := picIcw4
        phase := .mask } } := by
  simp only [picInit, List.foldl_cons, List.foldl_nil, outb_pic1Cmd, outb_pic1Data, outb_pic2Cmd,
    outb_pic2Data]
  exact congrArg₂ Pair.mk (s.master.init rfl pic1Offset 0x04 picIcw4 0xFC)
    (s.slave.init rfl pic2Offset 0x02 picIcw4 0xFF)

/-- Whatever state the controllers are in, also in the middle of an initialisation. -/
theorem programmed_picInit (s : Pair) : Programmed (picInit s) := by
  have hmaster : ∀ l : Line, (0xFC : BitVec 8).getLsbD l = decide (2 ≤ l) := by decide
  have hslave : ∀ l : Line, (0xFF : BitVec 8).getLsbD l = true := by decide
  rw [picInit_eq]
  exact ⟨rfl, rfl, rfl, rfl, hmaster, hslave⟩

namespace Programmed

variable {s : Pair} {l : Line}

theorem raise (h : Programmed s) (irq : Fin 16) : Programmed (s.raise irq) := by
  rw [Pair.raise]
  split
  · exact ⟨h.phase, h.offset, h.cascade, h.mode, h.masked, h.slave⟩
  · exact ⟨h.phase, h.offset, h.cascade, h.mode, h.masked, h.slave⟩

theorem acknowledge (h : Programmed s) (l : Line) :
    Programmed { s with master := s.master.acknowledge l } :=
  ⟨h.phase, h.offset, h.cascade, h.mode, h.masked, h.slave⟩

theorem eoi (h : Programmed s) : Programmed { s with master := s.master.eoi } := by
  rw [Pic.eoi]
  split
  · exact ⟨h.phase, h.offset, h.cascade, h.mode, h.masked, h.slave⟩
  · exact h

/-- Only the timer and the keyboard interrupt. -/
theorem next_lt (h : Programmed s) (hnext : s.master.next = some l) : l = 0 ∨ l = 1 := by
  have hmasked := (Pic.next_eq_some_iff.mp hnext).1.2.1
  rw [h.masked, decide_eq_false_iff_not, not_le] at hmasked
  have hline : ∀ l : Line, l < 2 → l = 0 ∨ l = 1 := by decide
  exact hline l hmasked

/-- The second controller does not interrupt, so that the processor deals with the first one. -/
theorem accept_of_next (h : Programmed s) (hnext : s.master.next = some l) :
    s.accept = some ((pic1Offset &&& 0xF8) ||| BitVec.ofNat 8 l,
      ⟨s.master.acknowledge l, s.slave⟩) := by
  have hcascade : s.master.cascade.getLsbD l = false := by
    rw [h.cascade]
    rcases h.next_lt hnext with rfl | rfl
    · decide
    · decide
  rw [Pair.accept_of_next h.slave hnext hcascade, Pic.vector, h.offset]

theorem accept_cases (h : Programmed s) {num : BitVec 8} {s' : Pair}
    (haccept : s.accept = some (num, s')) :
    ∃ l, s.master.next = some l ∧ num = ((pic1Offset &&& 0xF8) ||| BitVec.ofNat 8 l) ∧
      s' = ⟨s.master.acknowledge l, s.slave⟩ := by
  cases hnext : s.master.next with
  | none =>
    rw [Pair.accept_of_none h.slave hnext] at haccept
    cases haccept
  | some l =>
    rw [h.accept_of_next hnext] at haccept
    cases haccept
    exact ⟨l, rfl, rfl, rfl⟩

end Programmed

theorem picSendEoi_master (s : Pair) {irq : BitVec 8} (h : irq < 8) :
    picSendEoi s irq = { s with master := s.master.eoi } := by
  rw [picSendEoi, if_neg (by bv_omega)]
  rfl

end SengOs.Kernel
