import SengOs.Lib.ByteMemory

/-!
# NUL-terminated strings

A `CString` is the bytes of a C string before its terminator. A string that lies in memory
is seen through its pointer, a function from offsets to bytes; `Spells p s` says that the
bytes at the pointer `p` are those of `s` followed by a NUL. `strlen`, `strcmp` and
`strncpy` are the usual loops.
-/

namespace SengOs

open ByteMemory

/-- The bytes of a NUL-terminated string, without the terminator. -/
@[ext] structure CString where
  bytes : List Byte
  noNul : ∀ b ∈ bytes, b ≠ 0
  deriving DecidableEq

namespace CString

/-- The byte a pointer to the string reads at offset `i`: the terminator past the end. -/
def byteAt (s : CString) (i : Nat) : Byte := s.bytes.getD i 0

/-- The bytes from the pointer `p` on are `s` and then a NUL. -/
def Spells (p : Nat → Byte) : List Byte → Prop
  | [] => p 0 = 0
  | c :: cs => p 0 = c ∧ Spells (fun i => p (i + 1)) cs

/-- The bytes before the first NUL among the `n` bytes at `p`. -/
def read (p : Nat → Byte) : Nat → List Byte
  | 0 => []
  | n + 1 => if p 0 = 0 then [] else p 0 :: read (fun i => p (i + 1)) n

theorem spells_iff (p : Nat → Byte) (s : List Byte) :
    Spells p s ↔ (∀ i, i < s.length → s[i]? = some (p i)) ∧ p s.length = 0 := by
  induction s generalizing p with
  | nil => simp [Spells]
  | cons c cs ih =>
    rw [Spells, ih]
    constructor
    · rintro ⟨h0, hcs, hend⟩
      refine ⟨fun i hi => ?_, hend⟩
      cases i with
      | zero => simp [h0]
      | succ i => simpa using hcs i (by simpa using hi)
    · rintro ⟨hcs, hend⟩
      refine ⟨by simpa using (hcs 0 (by simp)).symm, fun i hi => ?_, hend⟩
      simpa using hcs (i + 1) (by simpa using hi)

theorem read_ne_zero (p : Nat → Byte) (n : Nat) : ∀ b ∈ read p n, b ≠ 0 := by
  induction n generalizing p with
  | zero => simp [read]
  | succ n ih =>
    rw [read]
    split
    · simp
    · rename_i h0
      intro b hb
      rcases List.mem_cons.mp hb with rfl | hb
      · exact h0
      · exact ih _ b hb

theorem read_congr {p q : Nat → Byte} {n : Nat} (h : ∀ i, i < n → p i = q i) :
    read p n = read q n := by
  induction n generalizing p q with
  | zero => rfl
  | succ n ih =>
    rw [read, read, h 0 (Nat.zero_lt_succ n), ih fun i hi => h (i + 1) (Nat.succ_lt_succ hi)]

/-- A spelled string is read back by any window that holds its terminator. -/
theorem read_of_spells {p : Nat → Byte} {s : List Byte} {n : Nat} (hs : ∀ b ∈ s, b ≠ 0)
    (h : Spells p s) (hn : s.length < n) : read p n = s := by
  induction s generalizing p n with
  | nil =>
    cases n with
    | zero => simp at hn
    | succ n => exact if_pos h
  | cons c cs ih =>
    cases n with
    | zero => simp at hn
    | succ n =>
      have hc : p 0 ≠ 0 := h.1 ▸ hs c (by simp)
      have htail := ih (fun b hb => hs b (by simp [hb])) h.2 (by simpa using hn)
      rw [read, if_neg hc, htail, h.1]

/-- A window whose string is shorter than the window holds its terminator. -/
theorem spells_read {p : Nat → Byte} {n : Nat} (h : (read p n).length < n) :
    Spells p (read p n) := by
  induction n generalizing p with
  | zero => simp at h
  | succ n ih =>
    rw [read] at h ⊢
    split
    · rename_i h0
      exact h0
    · rename_i h0
      rw [if_neg h0] at h
      exact ⟨rfl, ih (by simpa using h)⟩

theorem spells_congr {p q : Nat → Byte} {s : List Byte} (h : ∀ i, i ≤ s.length → p i = q i) :
    Spells p s ↔ Spells q s := by
  induction s generalizing p q with
  | nil => rw [Spells, Spells, h 0 le_rfl]
  | cons c cs ih =>
    rw [Spells, Spells, h 0 (Nat.zero_le _),
      ih (fun i hi => h (i + 1) (by simpa using hi))]

theorem spells_unique {p : Nat → Byte} {s t : List Byte} (hs : ∀ b ∈ s, b ≠ 0)
    (ht : ∀ b ∈ t, b ≠ 0) (h : Spells p s) (h' : Spells p t) : s = t := by
  have hread : read p (s.length + t.length + 1) = s := read_of_spells hs h (by omega)
  have hread' : read p (s.length + t.length + 1) = t := read_of_spells ht h' (by omega)
  exact hread.symm.trans hread'

/-! ## The string loops -/

/-- `while (s[n]) n++;` -/
def strlen (s : CString) : Nat := s.bytes.length

/-- `while (*a && *a == *b) { a++; b++; } return *a - *b;` where `b` is a string and `a` is
a pointer into memory. -/
def strcmp (a : Nat → Byte) : List Byte → Int
  | [] => (a 0).toNat
  | c :: cs => if a 0 ≠ 0 ∧ a 0 = c then strcmp (fun i => a (i + 1)) cs
    else (a 0).toNat - c.toNat

theorem strcmp_eq_zero_iff (a : Nat → Byte) {b : List Byte} (hb : ∀ c ∈ b, c ≠ 0) :
    strcmp a b = 0 ↔ Spells a b := by
  induction b generalizing a with
  | nil =>
    rw [strcmp, Spells, Int.natCast_eq_zero]
    exact ⟨fun h => BitVec.eq_of_toNat_eq h, fun h => by rw [h]; rfl⟩
  | cons c cs ih =>
    have hc : c ≠ 0 := hb c (by simp)
    rw [strcmp, Spells]
    split
    · rename_i h
      rw [ih _ (fun x hx => hb x (by simp [hx]))]
      exact ⟨fun h' => ⟨h.2, h'⟩, fun h' => h'.2⟩
    · rename_i h
      have hne : a 0 ≠ c := fun he => h ⟨he ▸ hc, he⟩
      have hnat : (a 0).toNat ≠ c.toNat := fun he => hne (BitVec.eq_of_toNat_eq he)
      constructor
      · intro h0
        omega
      · exact fun h' => absurd h'.1 hne

/-- The copying loop of `strncpy`: `room` is how many bytes may still go before the final
NUL. -/
def strncpyGo (m : Mem) (d : Nat) : List Byte → Nat → Mem
  | c :: cs, room + 1 => strncpyGo (Function.update m d c) (d + 1) cs room
  | _, _ => Function.update m d 0

/-- `while (i + 1 < max && src[i]) { dst[i] = src[i]; i++; } dst[i] = '\0';`, and nothing at
all when `max` is 0. -/
def strncpy (m : Mem) (d : Nat) (src : CString) (max : Nat) : Mem :=
  if max = 0 then m else strncpyGo m d src.bytes (max - 1)

theorem strncpyGo_apply (m : Mem) (d : Nat) (src : List Byte) (room x : Nat)
    (hroom : src.length ≤ room) :
    strncpyGo m d src room x =
      if d ≤ x ∧ x ≤ d + src.length then src.getD (x - d) 0 else m x := by
  induction src generalizing m d room with
  | nil =>
    have hgo : strncpyGo m d [] room = Function.update m d 0 := by cases room <;> rfl
    rw [hgo]
    by_cases hx : x = d
    · subst hx; simp
    · rw [Function.update_of_ne hx, if_neg (by simp only [List.length_nil]; omega)]
  | cons c cs ih =>
    cases room with
    | zero => simp at hroom
    | succ room =>
      rw [strncpyGo, ih _ _ _ (by simpa using hroom)]
      by_cases hx : x = d
      · subst hx; simp
      · rw [Function.update_of_ne hx]
        by_cases hin : d + 1 ≤ x ∧ x ≤ d + 1 + cs.length
        · obtain ⟨k, rfl⟩ : ∃ k, x = d + 1 + k := ⟨x - (d + 1), by omega⟩
          have hk : d + 1 + k - d = k + 1 := by omega
          rw [if_pos hin, if_pos (by simp only [List.length_cons]; omega), hk,
            Nat.add_sub_cancel_left, List.getD_cons_succ]
        · rw [if_neg hin, if_neg (by simp only [List.length_cons]; omega)]

/-- A string that fits is copied whole, terminator included, and nothing else changes. -/
theorem strncpy_apply (m : Mem) (d : Nat) (src : CString) {max : Nat} (x : Nat)
    (hfit : src.bytes.length < max) :
    strncpy m d src max x =
      if d ≤ x ∧ x ≤ d + src.bytes.length then src.byteAt (x - d) else m x := by
  rw [strncpy, if_neg (by omega), strncpyGo_apply _ _ _ _ _ (by omega)]
  rfl

theorem strncpy_frame (m : Mem) (d : Nat) (src : CString) {max : Nat}
    (hfit : src.bytes.length < max) : Frame m (strncpy m d src max) d (d + max) :=
  fun x hx => by rw [strncpy_apply _ _ _ _ hfit, if_neg (by omega)]

/-- The pointer to a string spells it. -/
theorem spells_byteAt (s : CString) : Spells s.byteAt s.bytes := by
  rw [spells_iff]
  refine ⟨fun i hi => ?_, ?_⟩
  · simp [CString.byteAt, hi]
  · simp [CString.byteAt]

end CString

end SengOs
