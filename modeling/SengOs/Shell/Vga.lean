import SengOs.Lib.CString
import SengOs.Lib.Numeral

/-!
# `kernel/vga.c`

What is printed is the list of characters passed to `vga_putchar`, without their colours.
`vgaPrintf` goes through its format as `vga_printf` does and takes its arguments from the list
of the words that were passed.
-/

namespace SengOs.Shell

open ByteMemory CString Decimal

/-- The bytes of a literal. -/
def chars (s : String) : List Byte := s.toList.map fun c => BitVec.ofNat 8 c.toNat

/-- A character of the format. -/
def char (c : Char) : Byte := BitVec.ofNat 8 c.toNat

/-! ## Numbers -/

/-- The digits of `n` as `print_uint` puts them into its buffer, the last one first; `room` is
what is left of the 32 bytes. -/
def digits (base : Nat) : Nat → Nat → List Byte
  | 0, _ => []
  | room + 1, n =>
    if n = 0 then []
    else BitVec.ofNat 8 (if n % base < 10 then 0x30 + n % base else 0x61 + n % base - 10) ::
      digits base room (n / base)

def printUint (n base : Nat) : List Byte :=
  if n = 0 then chars "0" else (digits base 32 n).reverse

/-- `%d` -/
def printInt (v : Int) : List Byte :=
  if v < 0 then chars "-" ++ printUint v.natAbs 10 else printUint v.toNat 10

theorem digits_eq {base : Nat} (hb : 1 < base) {room n : Nat} (h : n < base ^ room) :
    digits base room n = (Nat.digits base n).map Numeral.digitByte := by
  induction room generalizing n with
  | zero =>
    cases Nat.lt_one_iff.mp h
    simp [digits]
  | succ room ih =>
    rw [digits]
    split
    · rename_i h0
      rw [h0, Nat.digits_zero, List.map_nil]
    · rename_i h0
      rw [ih (Nat.div_lt_of_lt_mul (by rwa [← pow_succ'])),
        Nat.digits_def' hb (Nat.pos_of_ne_zero h0), List.map_cons, Numeral.digitByte]

/-- `print_uint` prints the numeral of a number whose digits fit into its buffer. -/
theorem printUint_eq {base n : Nat} (hb : 1 < base) (h : n < base ^ 32) :
    printUint n base = Numeral.numeral base n := by
  unfold printUint Numeral.numeral
  split
  · rfl
  · rw [digits_eq hb h, List.map_reverse]

/-- `print_uint` prints a 32-bit number in decimal. -/
theorem printUint_ten {n : Nat} (h : n < 2 ^ 32) : printUint n 10 = numeral n := by
  rw [printUint_eq (by decide) (h.trans (by decide)), Numeral.numeral_ten]

/-! ## `vga_printf` -/

/-- An argument of `vga_printf`: a word, which may be the address of a string. -/
inductive VaArg where
  | word (w : BitVec 32)
  | str (addr : BitVec 32) (s : CString)

/-- What `__builtin_va_arg` finds when it takes the argument for a number. -/
def VaArg.toWord : VaArg → BitVec 32
  | .word w => w
  | .str addr _ => addr

/-- What `%s` prints of its argument. The source would read from any address. -/
def VaArg.string : VaArg → Option (List Byte)
  | .word _ => none
  | .str _ s => some s.bytes

/-- `__builtin_va_arg`, where an argument was passed, and what is printed of it. -/
def vaArg (print : VaArg → Option (List Byte)) : List VaArg → Option (List Byte × List VaArg)
  | [] => none
  | arg :: rest => (print arg).map fun out => (out, rest)

/-- The cases of the `switch`: what is printed, and the arguments left. -/
def vgaConvert (c : Byte) (args : List VaArg) : Option (List Byte × List VaArg) :=
  if c = char 's' then vaArg VaArg.string args
  else if c = char 'c' then vaArg (fun arg => some [arg.toWord.setWidth 8]) args
  else if c = char 'd' then vaArg (fun arg => some (printInt arg.toWord.toInt)) args
  else if c = char 'u' then vaArg (fun arg => some (printUint arg.toWord.toNat 10)) args
  else if c = char 'x' then vaArg (fun arg => some (printUint arg.toWord.toNat 16)) args
  else if c = char '%' then some ([char '%'], args)
  else some ([c], args)

theorem vgaConvert_s (addr : BitVec 32) (s : CString) (args : List VaArg) :
    vgaConvert (char 's') (.str addr s :: args) = some (s.bytes, args) := by
  rw [vgaConvert, if_pos rfl]
  rfl

theorem vgaConvert_d (arg : VaArg) (args : List VaArg) :
    vgaConvert (char 'd') (arg :: args) = some (printInt arg.toWord.toInt, args) := by
  rw [vgaConvert, if_neg (by decide), if_neg (by decide), if_pos rfl]
  rfl

theorem vgaConvert_u (arg : VaArg) (args : List VaArg) :
    vgaConvert (char 'u') (arg :: args) = some (printUint arg.toWord.toNat 10, args) := by
  rw [vgaConvert, if_neg (by decide), if_neg (by decide), if_neg (by decide), if_pos rfl]
  rfl

/-- `vga_printf` knows no flags: it prints the `-` and takes no argument. -/
theorem vgaConvert_minus (args : List VaArg) :
    vgaConvert (char '-') args = some ([char '-'], args) := by
  rw [vgaConvert, if_neg (by decide), if_neg (by decide), if_neg (by decide),
    if_neg (by decide), if_neg (by decide), if_neg (by decide)]

/-- What is printed, and the arguments left. -/
def vgaPrintf : List Byte → List VaArg → Option (List Byte × List VaArg)
  | [], args => some ([], args)
  | c :: fmt, args =>
    if c ≠ char '%' then do
      let r ← vgaPrintf fmt args
      some (c :: r.1, r.2)
    else
      match fmt with
      -- The source would print the NUL and go on behind it.
      | [] => none
      | d :: fmt => do
        let out ← vgaConvert d args
        let r ← vgaPrintf fmt out.2
        some (out.1 ++ r.1, r.2)

/-- The text before the first `%` is printed as it is. -/
theorem vgaPrintf_append {s : List Byte} (hs : char '%' ∉ s) (fmt : List Byte)
    (args : List VaArg) :
    vgaPrintf (s ++ fmt) args = (vgaPrintf fmt args).map fun r => (s ++ r.1, r.2) := by
  induction s with
  | nil => simp
  | cons c s ih =>
    have hc : c ≠ char '%' := fun h => hs (h ▸ List.mem_cons_self)
    rw [List.cons_append, vgaPrintf.eq_def]
    dsimp only
    rw [if_pos hc, ih fun h => hs (List.mem_cons_of_mem c h)]
    cases vgaPrintf fmt args <;> rfl

theorem vgaPrintf_text {s : List Byte} (hs : char '%' ∉ s) (args : List VaArg) :
    vgaPrintf s args = some (s, args) := by
  have h := vgaPrintf_append hs [] args
  simpa [vgaPrintf] using h

theorem vgaPrintf_percent (c : Byte) (fmt : List Byte) (args : List VaArg) :
    vgaPrintf (char '%' :: c :: fmt) args = (vgaConvert c args).bind fun out =>
      (vgaPrintf fmt out.2).map fun r => (out.1 ++ r.1, r.2) := by
  rw [vgaPrintf, if_neg (not_not.mpr rfl)]
  cases vgaConvert c args with
  | none => rfl
  | some out => cases h : vgaPrintf fmt out.2 <;> simp [h]

/-! ## Conversions of a format -/

/-- The places of the `%`s of a format that take an argument. `modifier` are the characters
that may stand between `%` and the letter, `takes` the letters that take an argument; `start`
is the place of the `%` that is being read. -/
def conversions (modifier takes : Byte → Bool) : Option Nat → Nat → List Byte → List Nat
  | _, _, [] => []
  | none, pos, c :: fmt =>
    conversions modifier takes (if c = char '%' then some pos else none) (pos + 1) fmt
  | some start, pos, c :: fmt =>
    if modifier c then conversions modifier takes (some start) (pos + 1) fmt
    else if takes c then start :: conversions modifier takes none (pos + 1) fmt
    else conversions modifier takes none (pos + 1) fmt

/-- The conversions of a format in C. -/
def cConversions (fmt : List Byte) : List Nat :=
  conversions (fun c => isDigit c || c ∈ chars "-+ #.") (fun c => c ≠ char '%') none 0 fmt

/-- The places at which `vga_printf` takes an argument. -/
def vgaConversions (fmt : List Byte) : List Nat :=
  conversions (fun _ => false) (fun c => c ∈ chars "scdux") none 0 fmt

theorem args_of_vaArg {print : VaArg → Option (List Byte)} {args rest : List VaArg}
    {out : List Byte} (h : vaArg print args = some (out, rest)) : ∃ arg, args = arg :: rest := by
  cases args with
  | nil => cases h
  | cons arg args =>
    obtain ⟨out', -, heq⟩ := Option.map_eq_some_iff.mp h
    cases heq
    exact ⟨arg, rfl⟩

/-- A conversion takes one argument if its letter is one of those that take one, and none
otherwise. -/
theorem args_of_vgaConvert {c : Byte} {args rest : List VaArg} {out : List Byte}
    (h : vgaConvert c args = some (out, rest)) :
    ∃ used, args = used ++ rest ∧ used.length = if c ∈ chars "scdux" then 1 else 0 := by
  have hletters : c ∈ chars "scdux" ↔
      c = char 's' ∨ c = char 'c' ∨ c = char 'd' ∨ c = char 'u' ∨ c = char 'x' := by
    simp [chars, char]
  by_cases hc : c ∈ chars "scdux"
  · have htake : ∃ print, vgaConvert c args = vaArg print args := by
      rcases hletters.mp hc with rfl | rfl | rfl | rfl | rfl <;> exact ⟨_, rfl⟩
    obtain ⟨print, heq⟩ := htake
    obtain ⟨arg, rfl⟩ := args_of_vaArg (heq ▸ h)
    exact ⟨[arg], rfl, (if_pos hc).symm⟩
  · refine ⟨[], ?_, (if_neg hc).symm⟩
    rw [hletters] at hc
    simp only [not_or] at hc
    obtain ⟨hs, hc, hd, hu, hx⟩ := hc
    rw [vgaConvert, if_neg hs, if_neg hc, if_neg hd, if_neg hu, if_neg hx] at h
    split at h <;> cases h <;> rfl

/-- The `k`-th argument goes to the `k`-th place of `vgaConversions`, and none is skipped. -/
theorem args_of_vgaPrintf {fmt out : List Byte} {args rest : List VaArg}
    (h : vgaPrintf fmt args = some (out, rest)) :
    ∃ used, args = used ++ rest ∧ used.length = (vgaConversions fmt).length := by
  unfold vgaConversions
  generalize 0 = pos
  fun_induction vgaPrintf fmt args generalizing pos out rest with
  | case1 args =>
    cases h
    exact ⟨[], rfl, rfl⟩
  | case2 args c fmt hc ih =>
    simp only [Option.bind_eq_bind, Option.bind_eq_some_iff] at h
    obtain ⟨r, hr, heq⟩ := h
    cases heq
    rw [conversions, if_neg hc]
    exact ih hr (pos + 1)
  | case3 args c hc => cases h
  | case4 args c hc d fmt ih =>
    simp only [Option.bind_eq_bind, Option.bind_eq_some_iff] at h
    obtain ⟨o, ho, r, hr, heq⟩ := h
    cases heq
    obtain ⟨used, rfl, hused⟩ := args_of_vgaConvert ho
    obtain ⟨used', hrest, hused'⟩ := ih o hr (pos + 1 + 1)
    rw [hrest, ← List.append_assoc]
    refine ⟨used ++ used', rfl, ?_⟩
    rw [conversions, if_pos (not_not.mp hc), conversions, if_neg Bool.false_ne_true,
      List.length_append, hused, hused']
    by_cases hd : d ∈ chars "scdux"
    · rw [if_pos hd, if_pos (decide_eq_true hd), List.length_cons, Nat.add_comm]
    · rw [if_neg hd, if_neg (by rwa [decide_eq_true_eq]), Nat.zero_add]

/-! ## Texts -/

/-- A call that prints. -/
inductive Print where
  | puts (s : List Byte)
  | printf (fmt : List Byte) (args : List VaArg)

def Print.text : Print → Option (List Byte)
  | .puts s => some s
  | .printf fmt args => (vgaPrintf fmt args).map Prod.fst

/-- The text of the calls. -/
def textOf : List Print → Option (List Byte)
  | [] => some []
  | p :: ps => do
    let s ← p.text
    let rest ← textOf ps
    some (s ++ rest)

end SengOs.Shell
