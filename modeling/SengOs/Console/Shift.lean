import SengOs.Console.Keyboard

/-!
# The two shift keys

`kb_getchar` has one flag for two keys: a release of either one clears it. So it is clear while
a key is still held when the last shift code was the release of the other one, and only then
(`shiftAfter_iff`). A key pressed then gives its unshifted character; that is wrong unless it
has none, or the same one with shift (`shift_honoured_iff`).
-/

namespace SengOs.Console

open ByteMemory Shell

/-- The key with the make code `key` is held after the scan codes. -/
def keyHeld (key : Byte) (codes : List Byte) : Bool :=
  codes.foldl (fun held sc =>
    if sc = key then true else if sc = key ||| 0x80 then false else held) false

/-- A shift key is held. -/
def shiftDown (codes : List Byte) : Bool := keyHeld 0x2A codes || keyHeld 0x36 codes

/-- The last code of a shift key was a release. -/
def releasedLast (codes : List Byte) : Bool :=
  codes.foldl (fun released sc =>
    if sc = 0x2A ∨ sc = 0x36 then false
    else if sc = 0xAA ∨ sc = 0xB6 then true
    else released) false

/-! ## The flag -/

theorem keyHeld_concat (key : Byte) (codes : List Byte) (sc : Byte) :
    keyHeld key (codes ++ [sc]) =
      if sc = key then true else if sc = key ||| 0x80 then false else keyHeld key codes := by
  rw [keyHeld, List.foldl_append]
  rfl

theorem releasedLast_concat (codes : List Byte) (sc : Byte) :
    releasedLast (codes ++ [sc]) =
      if sc = 0x2A ∨ sc = 0x36 then false
      else if sc = 0xAA ∨ sc = 0xB6 then true
      else releasedLast codes := by
  rw [releasedLast, List.foldl_append]
  rfl

/-- A break code of a shift key, as `kb_getchar` finds it. -/
theorem isBreak_iff (sc : Byte) :
    sc &&& 0x80 ≠ 0 ∧ (sc &&& 0x7F = 0x2A ∨ sc &&& 0x7F = 0x36) ↔ sc = 0xAA ∨ sc = 0xB6 := by
  revert sc
  decide

theorem kbStep_shift (shift : Bool) (sc : Byte) :
    (kbStep shift sc).1 =
      if sc = 0x2A ∨ sc = 0x36 then true
      else if sc = 0xAA ∨ sc = 0xB6 then false
      else shift := by
  unfold kbStep
  by_cases hhigh : sc &&& 0x80 ≠ 0
  · have hmake : ¬ (sc = 0x2A ∨ sc = 0x36) := by
      rintro (rfl | rfl) <;> exact hhigh rfl
    rw [if_pos hhigh, if_neg hmake]
    by_cases hbreak : sc &&& 0x7F = 0x2A ∨ sc &&& 0x7F = 0x36
    · rw [if_pos ((isBreak_iff sc).mp ⟨hhigh, hbreak⟩)]
      exact congrArg Prod.fst (if_pos hbreak)
    · rw [if_neg fun h => hbreak ((isBreak_iff sc).mpr h).2]
      exact congrArg Prod.fst (if_neg hbreak)
  · rw [if_neg hhigh, if_neg fun h => hhigh ((isBreak_iff sc).mpr h).1]
    split
    · rfl
    · dsimp only
      repeat' split
      all_goals rfl

theorem shiftAfter_concat (codes : List Byte) (sc : Byte) :
    shiftAfter false (codes ++ [sc]) =
      if sc = 0x2A ∨ sc = 0x36 then true
      else if sc = 0xAA ∨ sc = 0xB6 then false
      else shiftAfter false codes := by
  rw [shiftAfter_append, ← kbStep_shift]
  rfl

/-- The flag is set if and only if a shift key is held and the last shift code was not a
release. -/
theorem shiftAfter_iff (codes : List Byte) :
    shiftAfter false codes = (shiftDown codes && !releasedLast codes) := by
  induction codes using List.reverseRecOn with
  | nil => rfl
  | append_singleton codes sc ih =>
    rw [shiftAfter_concat, releasedLast_concat, shiftDown, keyHeld_concat, keyHeld_concat, ih,
      shiftDown]
    by_cases hmake : sc = 0x2A ∨ sc = 0x36
    · rcases hmake with rfl | rfl <;> simp
    rw [if_neg hmake, if_neg hmake]
    by_cases hbreak : sc = 0xAA ∨ sc = 0xB6
    · rw [if_pos hbreak, if_pos hbreak, Bool.not_true, Bool.and_false]
    · have hleft : sc ≠ 0x2A ||| 0x80 := fun h => hbreak (.inl h)
      have hright : sc ≠ 0x36 ||| 0x80 := fun h => hbreak (.inr h)
      simp only [not_or] at hmake
      rw [if_neg hbreak, if_neg hbreak, if_neg hmake.1, if_neg hmake.2, if_neg hleft,
        if_neg hright]

/-! ## Successive calls -/

/-- The `n`-th call of `kb_getchar`, counted from 0. -/
def nthCall : Nat → Bool → List Byte → Option Byte × Bool × List Byte
  | 0, shift, codes => kbGetchar shift codes
  | n + 1, shift, codes => nthCall n (kbGetchar shift codes).2.1 (kbGetchar shift codes).2.2

/-- A character comes from the last code that its call has read. -/
theorem nthCall_some {n : Nat} {shift shift' : Bool} {codes rest : List Byte} {c : Byte}
    (h : nthCall n shift codes = (some c, shift', rest)) :
    ∃ pre sc, codes = pre ++ sc :: rest ∧ kbStep (shiftAfter shift pre) sc = (shift', some c) := by
  induction n generalizing shift codes with
  | zero =>
    obtain ⟨pre, sc, hcodes, -, hsc⟩ := kbGetchar_some h
    exact ⟨pre, sc, hcodes, hsc⟩
  | succ n ih =>
    obtain ⟨pre, sc, hcodes, hsc⟩ := ih h
    cases hget : kbGetchar shift codes with
    | mk c r =>
    obtain ⟨shift₁, codes₁⟩ := r
    rw [hget] at hcodes hsc
    cases c with
    | none =>
      obtain ⟨hempty, -, -⟩ := kbGetchar_none hget
      rw [hempty] at hcodes
      cases pre <;> cases hcodes
    | some c =>
      obtain ⟨pre₁, sc₁, rfl, -, hsc₁⟩ := kbGetchar_some hget
      refine ⟨pre₁ ++ sc₁ :: pre, sc, ?_, ?_⟩
      · dsimp only at hcodes
        rw [hcodes]
        simp
      · rw [shiftAfter_append, shiftAfter, List.foldl_cons, hsc₁]
        exact hsc

theorem nthCall_congr {shift shift' : Bool} {codes codes' : List Byte}
    (h : kbGetchar shift codes = kbGetchar shift' codes') (n : Nat) :
    nthCall n shift codes = nthCall n shift' codes' := by
  cases n with
  | zero => exact h
  | succ n => rw [nthCall, nthCall, h]

/-- Every code that gives a character is read by a call. -/
theorem exists_nthCall {shift shift' : Bool} {pre rest : List Byte} {sc c : Byte}
    (h : kbStep (shiftAfter shift pre) sc = (shift', some c)) :
    ∃ n, nthCall n shift (pre ++ sc :: rest) = (some c, shift', rest) := by
  induction pre generalizing shift with
  | nil => exact ⟨0, kbGetchar_char h rest⟩
  | cons b pre ih =>
    rw [shiftAfter, List.foldl_cons] at h
    obtain ⟨n, hn⟩ := ih h
    cases hstep : kbStep shift b with
    | mk s d =>
    rw [hstep] at hn
    cases d with
    | none => exact ⟨n, (nthCall_congr (kbGetchar_skip hstep _) n).trans hn⟩
    | some d =>
      refine ⟨n + 1, ?_⟩
      rw [List.cons_append, nthCall, kbGetchar_char hstep]
      exact hn

/-! ## The characters -/

/-- Each character comes from the table that the shift keys call for, if and only if no key
that has another character with shift is pressed while a shift key is held though the last
shift code was a release. -/
theorem shift_honoured_iff (codes : List Byte) :
    (∀ n c shift rest pre sc, nthCall n false codes = (some c, shift, rest) →
      codes = pre ++ sc :: rest →
      c = if shiftDown pre then scAsciiShift sc else scAscii sc) ↔
    ∀ pre sc rest, codes = pre ++ sc :: rest → IsPress sc → releasedLast pre = true →
      shiftDown pre = true → scAscii sc = 0 ∨ scAscii sc = scAsciiShift sc := by
  constructor
  · intro h pre sc rest hcodes hpress hreleased hdown
    have hflag : shiftAfter false pre = false := by simp [shiftAfter_iff, hreleased]
    by_cases h0 : scAscii sc = 0
    · exact .inl h0
    · have hstep : kbStep (shiftAfter false pre) sc = (false, some (scAscii sc)) := by
        rw [hflag]
        exact kbStep_of_press hpress h0
      obtain ⟨n, hn⟩ : ∃ n, nthCall n false (pre ++ sc :: rest) =
          (some (scAscii sc), false, rest) := exists_nthCall hstep
      have hc := h n _ _ _ pre sc (hcodes ▸ hn) hcodes
      rw [if_pos hdown] at hc
      exact .inr hc
  · intro h n c shift rest pre sc hn hcodes
    obtain ⟨pre', sc', hcodes', hstep⟩ := nthCall_some hn
    obtain ⟨rfl, heq⟩ := List.append_inj (hcodes'.symm.trans hcodes) (by
      have hlen := congrArg List.length (hcodes'.symm.trans hcodes)
      simp only [List.length_append, List.length_cons] at hlen
      omega)
    cases heq
    obtain ⟨-, hpress, hc, h0⟩ := kbStep_some hstep
    rw [shiftAfter_iff] at hc
    by_cases hdown : shiftDown pre' = true
    · rw [if_pos hdown]
      cases hreleased : releasedLast pre' with
      | false =>
        rw [hdown, hreleased] at hc
        exact hc
      | true =>
        rw [hdown, hreleased] at hc
        rcases h pre' sc rest hcodes hpress hreleased hdown with hzero | hsame
        · exact absurd (hc.trans hzero) h0
        · exact hc.trans hsame
    · rw [if_neg hdown]
      rw [Bool.eq_false_of_not_eq_true hdown] at hc
      exact hc

/-- Both shift keys are pressed, the left one is released, and the key `a` is pressed. -/
theorem shift_forgotten :
    ¬ ∀ n c shift rest pre sc,
      nthCall n false [0x2A, 0x36, 0xAA, 0x1E] = (some c, shift, rest) →
      [0x2A, 0x36, 0xAA, 0x1E] = pre ++ sc :: rest →
      c = if shiftDown pre then scAsciiShift sc else scAscii sc := by
  intro h
  have hc := h 0 (char 'a') false [] [0x2A, 0x36, 0xAA] 0x1E (by decide) rfl
  exact absurd hc (by decide)

end SengOs.Console
