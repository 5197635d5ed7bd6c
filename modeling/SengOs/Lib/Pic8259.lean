import Mathlib.Logic.Function.Basic
import Mathlib.Data.Fin.Tuple.Basic
import Mathlib.Order.Fin.Basic

/-!
# The interrupt controller 8259

A controller has eight lines. A line that is raised stays *requested* until the processor takes
the interrupt; from then on it is *in service* until an end of interrupt. The lines are
edge-triggered and fully nested: line 0 comes first, and a line in service holds back itself and
every line behind it (`Pic.next`). A command byte starts the initialisation or ends an
interrupt, a data byte is the next word of the initialisation or else the mask. Rotated
priorities, polling and the special mask mode are left out.

Two controllers are cascaded: the second one requests through a line of the first (`Pair`).

An end of interrupt names no line: it ends the first one in service (`eoi_of_only`, where it is the
only one), and does nothing when no line is (`eoi_quiet`).
-/

namespace SengOs.Pic8259

abbrev Line := Fin 8

/-- What the next data byte is. -/
inductive Phase where
  | mask
  | offset
  | cascade
  | mode
  deriving DecidableEq

structure Pic where
  requested : Line → Bool
  inService : Line → Bool
  masked : Line → Bool
  /-- the initialisation words -/
  icw1 : BitVec 8
  offset : BitVec 8
  cascade : BitVec 8
  mode : BitVec 8
  phase : Phase

namespace Pic

/-- The line that the controller interrupts the processor with. -/
def next (p : Pic) : Option Line :=
  Fin.find? fun l => p.requested l && !p.masked l && (Fin.find? p.inService).all (l < ·)

/-- The number that the controller gives the processor for a line. -/
def vector (p : Pic) (l : Line) : BitVec 8 := (p.offset &&& 0xF8) ||| BitVec.ofNat 8 l

def raise (p : Pic) (l : Line) : Pic := { p with requested := Function.update p.requested l true }

/-- The processor takes the interrupt. With automatic end of interrupt it is over at once. -/
def acknowledge (p : Pic) (l : Line) : Pic :=
  { p with
    requested := Function.update p.requested l false
    inService := if p.mode.getLsbD 1 then p.inService else Function.update p.inService l true }

/-- The non-specific end of interrupt. -/
def eoi (p : Pic) : Pic :=
  match Fin.find? p.inService with
  | some l => { p with inService := Function.update p.inService l false }
  | none => p

/-- The phase behind the word `offset` or `cascade`. -/
def modePhase (p : Pic) : Phase := if p.icw1.getLsbD 0 then .mode else .mask

def command (p : Pic) (v : BitVec 8) : Pic :=
  if v.getLsbD 4 then
    { p with
      requested := fun _ => false, masked := fun _ => false, icw1 := v, mode := 0
      phase := .offset }
  else if v.getLsbD 3 then p
  else if v >>> 5 = 1 then p.eoi
  else if v >>> 5 = 3 then
    { p with inService := Function.update p.inService (Fin.ofNat 8 (v &&& 7).toNat) false }
  else p

def data (p : Pic) (v : BitVec 8) : Pic :=
  match p.phase with
  | .mask => { p with masked := fun l => v.getLsbD l }
  | .offset => { p with offset := v, phase := if p.icw1.getLsbD 1 then p.modePhase else .cascade }
  | .cascade => { p with cascade := v, phase := p.modePhase }
  | .mode => { p with mode := v, phase := .mask }

/-- The words of an initialisation for a pair of controllers, and the mask behind them, from
whatever phase the controller is in. -/
theorem init (p : Pic) {icw1 : BitVec 8} (h : icw1 &&& 0x13 = 0x11)
    (offset cascade mode mask : BitVec 8) :
    ((((p.command icw1).data offset).data cascade).data mode).data mask =
      { p with
        requested := fun _ => false, masked := fun l => mask.getLsbD l
        icw1, offset, cascade, mode, phase := .mask } := by
  have hbit (i : Nat) (hi : (0x13 : BitVec 8).getLsbD i = true) :
      icw1.getLsbD i = (0x11 : BitVec 8).getLsbD i := by
    rw [← h, BitVec.getLsbD_and, hi, Bool.and_true]
  have hicw1 : p.command icw1 =
      { p with
        requested := fun _ => false, masked := fun _ => false, icw1, mode := 0
        phase := .offset } := if_pos (hbit 4 rfl)
  have hsingle : icw1.getLsbD 1 = false := hbit 1 rfl
  have hneeded : icw1.getLsbD 0 = true := hbit 0 rfl
  simp only [hicw1, data, modePhase, hsingle, hneeded, Bool.false_eq_true, if_false, if_true]

/-- No line is in service. -/
def Quiet (p : Pic) : Prop := ∀ l, p.inService l = false

section Service

variable {p : Pic} {l : Line}

/-- No line up to `l` is in service. -/
theorem first_inService : (Fin.find? p.inService).all (l < ·) = true ↔
    ∀ l' ≤ l, p.inService l' = false := by
  cases hfirst : Fin.find? p.inService with
  | none =>
    rw [Fin.find?_eq_none_iff] at hfirst
    exact iff_of_true rfl fun l' _ => hfirst l'
  | some s =>
    obtain ⟨hs, hbefore⟩ := Fin.find?_eq_some_iff.mp hfirst
    rw [Option.all_some, decide_eq_true_eq]
    constructor
    · intro hlt l' hle
      exact hbefore l' (hle.trans_lt hlt)
    · intro hfree
      by_contra hle
      have hno := hfree s (not_lt.mp hle)
      rw [hs] at hno
      cases hno

/-- What the controller interrupts with is requested, not masked and not held back, and the
first of these. -/
theorem next_eq_some_iff : p.next = some l ↔
    (p.requested l = true ∧ p.masked l = false ∧ ∀ l' ≤ l, p.inService l' = false) ∧
      ∀ l' < l, p.requested l' = false ∨ p.masked l' = true := by
  rw [next, Fin.find?_eq_some_iff]
  simp only [Bool.and_eq_true, Bool.not_eq_true', first_inService, and_assoc]
  constructor
  · rintro ⟨hr, hm, hfree, hbefore⟩
    refine ⟨hr, hm, hfree, fun l' hlt => ?_⟩
    have hheld := hbefore l' hlt
    rw [first_inService.mpr fun l'' hle => hfree l'' (hle.trans hlt.le)] at hheld
    cases hr' : p.requested l' with
    | false => exact .inl rfl
    | true =>
      rw [hr'] at hheld
      simpa using hheld
  · rintro ⟨hr, hm, hfree, hbefore⟩
    refine ⟨hr, hm, hfree, fun l' hlt => ?_⟩
    rcases hbefore l' hlt with h | h <;> rw [h] <;> simp

theorem next_of_masked (h : ∀ l, p.masked l = true) : p.next = none := by
  rw [next, Fin.find?_eq_none_iff]
  intro l
  rw [h l]
  simp

theorem eoi_quiet (hq : p.Quiet) : p.eoi = p := by
  rw [eoi, Fin.find?_eq_none_iff.mpr hq]

/-- The last line in service is ended. -/
theorem eoi_of_only (h : ∀ l', p.inService l' = true ↔ l' = l) : p.eoi.Quiet := by
  have hfirst : Fin.find? p.inService = some l := by
    rw [Fin.find?_eq_some_iff]
    refine ⟨(h l).mpr rfl, fun l' hlt => ?_⟩
    rw [← Bool.not_eq_true, h l']
    exact hlt.ne
  intro l'
  rw [eoi, hfirst]
  show Function.update p.inService l false l' = false
  rcases eq_or_ne l' l with rfl | hne
  · rw [Function.update_self]
  · rw [Function.update_of_ne hne, ← Bool.not_eq_true, h l']
    exact hne

end Service

end Pic

/-! ## Two controllers -/

/-- The second controller, on a line of the first one. -/
structure Pair where
  master : Pic
  slave : Pic

namespace Pair

/-- The first controller with the request of the second one. -/
def input (s : Pair) : Pic :=
  if s.slave.next.isSome then
    { s.master with requested := fun l => s.master.requested l || s.master.cascade.getLsbD l }
  else s.master

/-- The lines 0 to 7 are those of the first controller. -/
def raise (s : Pair) (irq : Fin 16) : Pair :=
  if irq.val < 8 then { s with master := s.master.raise (Fin.ofNat 8 irq) }
  else { s with slave := s.slave.raise (Fin.ofNat 8 (irq - 8)) }

/-- The processor takes an interrupt, with the number it gets. For a line with a controller on
it that has the line as its identity, that controller answers. -/
def accept (s : Pair) : Option (BitVec 8 × Pair) :=
  match s.input.next with
  | none => none
  | some l =>
    if s.master.cascade.getLsbD l then
      if s.slave.cascade = BitVec.ofNat 8 l then
        s.slave.next.map fun l' =>
          (s.slave.vector l', ⟨s.input.acknowledge l, s.slave.acknowledge l'⟩)
      else none
    else some (s.master.vector l, { s with master := s.input.acknowledge l })

theorem input_of_masked {s : Pair} (h : ∀ l, s.slave.masked l = true) : s.input = s.master := by
  rw [input, Pic.next_of_masked h]
  rfl

section Accept

variable {s : Pair} {l : Line}

theorem accept_of_next (hslave : ∀ l, s.slave.masked l = true) (hnext : s.master.next = some l)
    (hl : s.master.cascade.getLsbD l = false) :
    s.accept = some (s.master.vector l, ⟨s.master.acknowledge l, s.slave⟩) := by
  unfold accept
  rw [input_of_masked hslave, hnext]
  dsimp only
  rw [hl, if_neg Bool.false_ne_true]

theorem accept_of_none (hslave : ∀ l, s.slave.masked l = true) (hnext : s.master.next = none) :
    s.accept = none := by
  unfold accept
  rw [input_of_masked hslave, hnext]

end Accept

end Pair

end SengOs.Pic8259
