import Mathlib.Logic.Function.Basic
import Mathlib.Tactic.Ring

/-!
# Byte-addressed memory

A memory is the byte at every address. Multi-byte fields are little-endian, as on x86:
`loadLE m a n` reads the `n` bytes at `a`, `storeLE m a n v` writes the low `n` bytes of
`v` there, one byte after the other. `fill` and `copy` are the loops of `memset` and
`memcpy`; `fill_apply` and `copy_apply` are their closed forms.

Everything a program keeps in a memory is read back through a *window*, a range of
addresses. `loadLE_congr` says that a read depends on its window only, and the lemmas
`*_frame` that a write leaves every address outside its window alone.
`Frame m m' lo hi` collects the latter: it is the frame rule for records laid out side by
side.
-/

namespace SengOs.ByteMemory

/-- One byte of memory. -/
abbrev Byte := BitVec 8

/-- The byte at every address. -/
abbrev Mem := Nat → Byte

/-- `m` and `m'` hold the same bytes at the addresses `lo ≤ a < hi`. -/
def Agree (m m' : Mem) (lo hi : Nat) : Prop := ∀ a, lo ≤ a → a < hi → m a = m' a

theorem Agree.symm {m m' : Mem} {lo hi : Nat} (h : Agree m m' lo hi) : Agree m' m lo hi :=
  fun a h₁ h₂ => (h a h₁ h₂).symm

theorem Agree.trans {m m' m'' : Mem} {lo hi : Nat} (h : Agree m m' lo hi)
    (h' : Agree m' m'' lo hi) : Agree m m'' lo hi :=
  fun a h₁ h₂ => (h a h₁ h₂).trans (h' a h₁ h₂)

theorem Agree.mono {m m' : Mem} {lo hi lo' hi' : Nat} (h : Agree m m' lo hi)
    (hlo : lo ≤ lo') (hhi : hi' ≤ hi) : Agree m m' lo' hi' :=
  fun a h₁ h₂ => h a (hlo.trans h₁) (h₂.trans_le hhi)

/-! ## Little-endian fields -/

/-- The number in the `n` bytes from address `a` on, least significant byte first. -/
def loadLE (m : Mem) (a : Nat) : Nat → Nat
  | 0 => 0
  | n + 1 => (m a).toNat + 256 * loadLE m (a + 1) n

/-- Write the low `n` bytes of `v` from address `a` on, least significant byte first. -/
def storeLE (m : Mem) (a : Nat) : Nat → Nat → Mem
  | 0, _ => m
  | n + 1, v => storeLE (Function.update m a (BitVec.ofNat 8 v)) (a + 1) n (v / 256)

theorem loadLE_lt (m : Mem) (a n : Nat) : loadLE m a n < 256 ^ n := by
  induction n generalizing a with
  | zero => simp [loadLE]
  | succ n ih =>
    have hb : (m a).toNat < 256 := (m a).isLt
    have hrest := ih (a + 1)
    simp only [loadLE, pow_succ]
    omega

theorem loadLE_congr {m m' : Mem} {a n : Nat} (h : Agree m m' a (a + n)) :
    loadLE m a n = loadLE m' a n := by
  induction n generalizing a with
  | zero => rfl
  | succ n ih =>
    have hrest : Agree m m' (a + 1) (a + 1 + n) := h.mono (by omega) (by omega)
    simp only [loadLE, h a le_rfl (by omega), ih hrest]

theorem storeLE_outside (m : Mem) (a n v : Nat) {x : Nat} (hx : x < a ∨ a + n ≤ x) :
    storeLE m a n v x = m x := by
  induction n generalizing m a v with
  | zero => rfl
  | succ n ih =>
    have hxa : x ≠ a := by omega
    rw [storeLE, ih _ _ _ (by omega), Function.update_of_ne hxa]

/-- A field reads back what was stored in it, cut to its width. -/
theorem loadLE_storeLE (m : Mem) (a n v : Nat) :
    loadLE (storeLE m a n v) a n = v % 256 ^ n := by
  induction n generalizing m a v with
  | zero => simp [loadLE, Nat.mod_one]
  | succ n ih =>
    have hhead : storeLE (Function.update m a (BitVec.ofNat 8 v)) (a + 1) n (v / 256) a =
        BitVec.ofNat 8 v := by
      rw [storeLE_outside _ _ _ _ (by omega), Function.update_self]
    have hsplit : v % 256 ^ (n + 1) = v % 256 + 256 * (v / 256 % 256 ^ n) := by
      rw [pow_succ', Nat.mod_mul]
    simp only [loadLE, storeLE, ih, hhead, BitVec.toNat_ofNat, hsplit, Nat.reducePow]

theorem loadLE_zero {m : Mem} {a n : Nat} (h : ∀ x, a ≤ x → x < a + n → m x = 0) :
    loadLE m a n = 0 := by
  induction n generalizing a with
  | zero => rfl
  | succ n ih =>
    rw [loadLE, h a le_rfl (by omega), ih (fun x h₁ h₂ => h x (by omega) (by omega))]
    rfl

theorem eq_zero_of_loadLE {m : Mem} {a n : Nat} (h : loadLE m a n = 0) {x : Nat} (hx : a ≤ x)
    (hx' : x < a + n) : m x = 0 := by
  induction n generalizing a with
  | zero => omega
  | succ n ih =>
    rw [loadLE] at h
    by_cases hxa : x = a
    · subst hxa
      exact BitVec.eq_of_toNat_eq (show (m x).toNat = 0 by omega)
    · exact ih (a := a + 1) (by omega) (by omega) (by omega)

/-- A field determines its bytes. -/
theorem agree_of_loadLE {m m' : Mem} {a n : Nat} (h : loadLE m a n = loadLE m' a n) :
    Agree m m' a (a + n) := by
  induction n generalizing a with
  | zero => exact fun x hx hx' => absurd hx (Nat.not_le_of_lt hx')
  | succ n ih =>
    rw [loadLE, loadLE] at h
    have hlt := (m a).isLt
    have hlt' := (m' a).isLt
    intro x hx hx'
    rcases Nat.eq_or_lt_of_le hx with rfl | hx
    · exact BitVec.eq_of_toNat_eq (by omega)
    · have hrest : Agree m m' (a + 1) (a + 1 + n) := ih (by omega)
      exact hrest x hx (by omega)

/-! ## The loops of `memset` and `memcpy` -/

/-- `while (n--) *d++ = value;` -/
def fill (m : Mem) (d : Nat) (value : Byte) : Nat → Mem
  | 0 => m
  | n + 1 => fill (Function.update m d value) (d + 1) value n

/-- `while (n--) *d++ = *s++;` where `s` is the memory seen from the source pointer on. -/
def copy (m : Mem) (d : Nat) (s : Nat → Byte) : Nat → Mem
  | 0 => m
  | n + 1 => copy (Function.update m d (s 0)) (d + 1) (fun i => s (i + 1)) n

theorem fill_apply (m : Mem) (d : Nat) (value : Byte) (n x : Nat) :
    fill m d value n x = if d ≤ x ∧ x < d + n then value else m x := by
  induction n generalizing m d with
  | zero => simp [fill]
  | succ n ih =>
    rw [fill, ih]
    by_cases hx : x = d
    · subst hx; simp
    · simp only [Function.update_of_ne hx]
      exact if_congr (by omega) rfl rfl

theorem copy_apply (m : Mem) (d : Nat) (s : Nat → Byte) (n x : Nat) :
    copy m d s n x = if d ≤ x ∧ x < d + n then s (x - d) else m x := by
  induction n generalizing m d s with
  | zero => simp [copy]
  | succ n ih =>
    rw [copy, ih]
    by_cases hx : x = d
    · subst hx; simp
    · simp only [Function.update_of_ne hx]
      by_cases hin : d + 1 ≤ x ∧ x < d + 1 + n
      · have hoff : x - (d + 1) + 1 = x - d := by omega
        rw [if_pos hin, if_pos (by omega), hoff]
      · rw [if_neg hin, if_neg (by omega)]

theorem fill_inside (m : Mem) (d : Nat) (value : Byte) (n : Nat) {x : Nat}
    (h : d ≤ x ∧ x < d + n) : fill m d value n x = value := by
  rw [fill_apply, if_pos h]

theorem copy_inside (m : Mem) (d : Nat) (s : Nat → Byte) (n : Nat) {x : Nat}
    (h : d ≤ x ∧ x < d + n) : copy m d s n x = s (x - d) := by
  rw [copy_apply, if_pos h]

/-! ## Runs of bytes -/

/-- The `n` bytes from the pointer `p` on. -/
def bytes (p : Nat → Byte) (n : Nat) : List Byte := (List.range n).map p

@[simp] theorem length_bytes (p : Nat → Byte) (n : Nat) : (bytes p n).length = n := by
  simp [bytes]

theorem getElem?_bytes (p : Nat → Byte) (n i : Nat) :
    (bytes p n)[i]? = if i < n then some (p i) else none := by
  by_cases hi : i < n
  · simp [bytes, hi]
  · simp [bytes, hi]

theorem bytes_add (p : Nat → Byte) (a b : Nat) :
    bytes p (a + b) = bytes p a ++ bytes (fun i => p (a + i)) b := by
  simp only [bytes, List.range_add, List.map_append, List.map_map, Function.comp_def]

theorem bytes_eq_take (p : Nat → Byte) {k n : Nat} (h : k ≤ n) :
    bytes p k = (bytes p n).take k := by
  obtain ⟨m, rfl⟩ := Nat.exists_eq_add_of_le h
  rw [bytes_add, List.take_left' (length_bytes p k)]

theorem bytes_congr {p q : Nat → Byte} {n : Nat} (h : ∀ i, i < n → p i = q i) :
    bytes p n = bytes q n :=
  List.map_congr_left fun i hi => h i (List.mem_range.mp hi)

theorem drop_take_bytes (p : Nat → Byte) (n off count : Nat) :
    ((bytes p n).drop off).take count = bytes (fun i => p (off + i)) (min count (n - off)) := by
  apply List.ext_getElem?
  intro i
  rw [List.getElem?_take, getElem?_bytes]
  by_cases hi : i < count
  · rw [if_pos hi, List.getElem?_drop, getElem?_bytes]
    exact if_congr (by omega) rfl rfl
  · rw [if_neg hi, if_neg (by omega)]

/-! ## Frames -/

/-- `m'` differs from `m` at most inside the window `lo ≤ a < hi`. -/
def Frame (m m' : Mem) (lo hi : Nat) : Prop := ∀ a, a < lo ∨ hi ≤ a → m' a = m a

theorem Frame.refl (m : Mem) (lo hi : Nat) : Frame m m lo hi := fun _ _ => rfl

theorem Frame.trans {m m' m'' : Mem} {lo hi : Nat} (h : Frame m m' lo hi)
    (h' : Frame m' m'' lo hi) : Frame m m'' lo hi :=
  fun a ha => (h' a ha).trans (h a ha)

theorem Frame.mono {m m' : Mem} {lo hi lo' hi' : Nat} (h : Frame m m' lo hi)
    (hlo : lo' ≤ lo) (hhi : hi ≤ hi') : Frame m m' lo' hi' :=
  fun a ha => h a (by omega)

/-- A window apart from the written one is unchanged. -/
theorem Frame.agree {m m' : Mem} {lo hi lo' hi' : Nat} (h : Frame m m' lo hi)
    (hd : hi' ≤ lo ∨ hi ≤ lo') : Agree m' m lo' hi' :=
  fun a h₁ h₂ => h a (by omega)

theorem storeLE_frame (m : Mem) (a n v : Nat) : Frame m (storeLE m a n v) a (a + n) :=
  fun _ hx => storeLE_outside m a n v hx

theorem fill_frame (m : Mem) (d : Nat) (value : Byte) (n : Nat) :
    Frame m (fill m d value n) d (d + n) :=
  fun x hx => by rw [fill_apply, if_neg (by omega)]

theorem copy_frame (m : Mem) (d : Nat) (s : Nat → Byte) (n : Nat) :
    Frame m (copy m d s n) d (d + n) :=
  fun x hx => by rw [copy_apply, if_neg (by omega)]

theorem update_frame (m : Mem) (a : Nat) (b : Byte) :
    Frame m (Function.update m a b) a (a + 1) :=
  fun x hx => Function.update_of_ne (by omega) _ _

end SengOs.ByteMemory
