import Mathlib.Order.Interval.Finset.Nat
import SengOs.Fs.Guarantees

/-!
# What an error code means

A call that fails has changed nothing, and its code tells why. Both are read off the case
lemmas of the functions; the reasons are restated here in terms of the bytes on the disk. The
code -4 of `fs_create` does not occur: with 128 entries for 63 files the directory is never
full.
-/

namespace SengOs.Fs

open ByteMemory CString

instance (m : Mem) (i : Nat) : Decidable (UsedFile m i) :=
  inferInstanceAs (Decidable (_ ∧ _ ∧ _))

/-- Inode `i` holds the file called `name`. -/
def NamedFile (m : Mem) (name : CString) (i : Nat) : Prop :=
  UsedFile m i ∧ Spells (inodeName m i) name.bytes

def FileExists (m : Mem) (name : CString) : Prop := ∃ i, NamedFile m name i

def fileCount (m : Mem) : Nat := ((Finset.range 64).filter (UsedFile m)).card

/-- Empty, or 24 characters or more. -/
def InvalidName (name : CString) : Prop := name.bytes = [] ∨ 24 ≤ name.bytes.length

/-- The value that a call returns. -/
def result (s : FsState) : Call → Int
  | .create name => (fsCreate s name).1
  | .open name => (fsOpen s name).1
  | .read fd buf count => (fsRead s fd buf count).1
  | .write fd buf count => (fsWrite s fd buf count).1
  | .close fd => (fsClose s fd).1
  | .unlink name => (fsUnlink s name).1
  | .size fd => fsSize s fd

/-! ## Files by name -/

section Names

variable {m : Mem} {t : Tables} {fds : Nat → File}

theorem Sound.namedFile_iff (h : Sound (view m) fds) {name : CString} {i : Nat} :
    NamedFile m name i ↔ (view m).HasFile name.bytes i := by
  unfold NamedFile
  rw [h.usedFile_iff]
  constructor
  · rintro ⟨hi, hname⟩
    obtain ⟨d, hd, rfl⟩ := h.file_entry i hi
    have hstr := spells_unique (read_ne_zero _ _) name.noNul
      (spells_inodeName h.toDirSound hd) hname
    exact ⟨hi, (h.name_inode d hd).trans hstr⟩
  · intro hi
    obtain ⟨d, hd, hstr, rfl⟩ := h.hasFile_iff.mp hi
    refine ⟨hi.1, ?_⟩
    rw [← hstr]
    exact spells_inodeName h.toDirSound hd

theorem Sound.fileExists_iff (h : Sound (view m) fds) {name : CString} :
    FileExists m name ↔ ∃ d, (view m).IsEntry d ∧ ((view m).dirent d).str = name.bytes := by
  unfold FileExists
  simp only [h.namedFile_iff, h.hasFile_iff]
  constructor
  · rintro ⟨i, d, hd, hstr, -⟩
    exact ⟨d, hd, hstr⟩
  · rintro ⟨d, hd, hstr⟩
    exact ⟨_, d, hd, hstr, rfl⟩

/-- The inodes 1 to 63 are all there is for files. -/
theorem Sound.fileCount_eq_iff (h : Sound (view m) fds) :
    fileCount m = 63 ↔ ∀ i, 1 ≤ i → i < 64 → (view m).IsFile i := by
  have hsub : (Finset.range 64).filter (UsedFile m) ⊆ Finset.Icc 1 63 := by
    intro i hi
    have hfile := h.usedFile_iff.mp (Finset.mem_filter.mp hi).2
    have := hfile.2.1
    exact Finset.mem_Icc.mpr ⟨hfile.1, by omega⟩
  have hcard : (Finset.Icc 1 63).card = 63 := Nat.card_Icc 1 63
  constructor
  · intro hcount i hi hi'
    have heq := Finset.eq_of_subset_of_card_le hsub (hcard.trans hcount.symm).le
    have hmem : i ∈ Finset.Icc 1 63 := Finset.mem_Icc.mpr ⟨hi, by omega⟩
    rw [← heq] at hmem
    exact h.usedFile_iff.mp (Finset.mem_filter.mp hmem).2
  · intro hall
    refine Eq.trans (congrArg Finset.card (hsub.antisymm fun i hi => ?_)) hcard
    obtain ⟨hi, hi'⟩ := Finset.mem_Icc.mp hi
    have hfile := h.usedFile_iff.mpr (hall i hi (by omega))
    exact Finset.mem_filter.mpr ⟨Finset.mem_range.mpr (by omega), hfile⟩

end Names

/-! ## The codes -/

/-- What `fs_create(name)` returns, and why. -/
structure CreateCodes (s : FsState) (name : CString) : Prop where
  invalid : (fsCreate s (some name)).1 = -1 ↔ InvalidName name
  duplicate : (fsCreate s (some name)).1 = -2 ↔
    ¬InvalidName name ∧ FileExists s.ramdisk name
  full : (fsCreate s (some name)).1 = -3 ↔
    ¬InvalidName name ∧ ¬FileExists s.ramdisk name ∧ fileCount s.ramdisk = 63
  created : ¬InvalidName name → ¬FileExists s.ramdisk name → fileCount s.ramdisk ≠ 63 →
    ∃ i : Nat, (fsCreate s (some name)).1 = i ∧
      NamedFile (fsCreate s (some name)).2.ramdisk name i

structure OpenCodes (s : FsState) (name : CString) : Prop where
  missing : (fsOpen s name).1 = -1 ↔ ¬FileExists s.ramdisk name
  full : (fsOpen s name).1 = -2 ↔ FileExists s.ramdisk name ∧ ∀ n < 32, s.IsOpen n
  opened : FileExists s.ramdisk name → (∃ n < 32, ¬s.IsOpen n) → 0 ≤ (fsOpen s name).1

structure UnlinkCodes (s : FsState) (name : CString) : Prop where
  missing : (fsUnlink s name).1 = -1 ↔ ¬FileExists s.ramdisk name
  inUse : (fsUnlink s name).1 = -2 ↔
    ∃ i, NamedFile s.ramdisk name i ∧ ∃ n, s.IsOpen n ∧ (s.fds n).inode = i
  unlinked : FileExists s.ramdisk name →
    (∀ i n, NamedFile s.ramdisk name i → s.IsOpen n → (s.fds n).inode ≠ i) →
    (fsUnlink s name).1 = 0

/-- Every failing call leaves the state, and its buffer, as it was, and fails for the reason
that its code stands for. -/
structure FailuresExplained (s : FsState) : Prop where
  unchanged : ∀ c, result s c < 0 → exec s c = s
  buffer : ∀ fd buf count, (fsRead s fd buf count).1 < 0 → (fsRead s fd buf count).2.1 = buf
  create : ∀ name, CreateCodes s name
  «open» : ∀ name, OpenCodes s name
  unlink : ∀ name, UnlinkCodes s name

section Codes

variable {s : FsState}

theorem Sound.unchanged (h : Sound (view s.ramdisk) s.fds) {c : Call} (hc : result s c < 0) :
    exec s c = s := by
  cases c with
  | create name =>
    rcases fsCreate_cases h name with ⟨heq, -⟩ | ⟨n, -, -, -, ⟨heq, -⟩ | ⟨-, ⟨heq, -⟩ |
      ⟨i, d, m, heq, -⟩⟩⟩
    · exact congrArg Prod.snd heq
    · exact congrArg Prod.snd heq
    · exact congrArg Prod.snd heq
    · rw [result, heq] at hc
      exact absurd hc (Int.natCast_nonneg i).not_gt
  | «open» name =>
    rcases fsOpen_cases h name with ⟨heq, -⟩ | ⟨d, -, -, ⟨heq, -⟩ | ⟨n, heq, -⟩⟩
    · exact congrArg Prod.snd heq
    · exact congrArg Prod.snd heq
    · rw [result, heq] at hc
      exact absurd hc (Int.natCast_nonneg n).not_gt
  | read fd buf count =>
    rcases fsRead_cases h fd buf count with ⟨heq, -⟩ | ⟨n, out, -, -, -, heq⟩
    · rw [exec, heq]
    · rw [result, heq] at hc
      exact absurd hc (Int.natCast_nonneg _).not_gt
  | write fd buf count =>
    rcases fsWrite_cases h fd buf count with ⟨heq, -⟩ | ⟨n, r, src, s', -, -, -, heq, -⟩
    · exact congrArg Prod.snd heq
    · rw [result, heq] at hc
      exact absurd hc (Int.natCast_nonneg r).not_gt
  | close fd =>
    rcases fsClose_cases s fd with ⟨heq, -⟩ | ⟨n, -, -, heq⟩
    · exact congrArg Prod.snd heq
    · rw [result, heq] at hc
      exact absurd hc (lt_irrefl 0)
  | unlink name =>
    rcases fsUnlink_cases h name with ⟨heq, -⟩ | ⟨d, i, -, -, -, ⟨heq, -⟩ | ⟨-, m, heq, -⟩⟩
    · exact congrArg Prod.snd heq
    · exact congrArg Prod.snd heq
    · rw [result, heq] at hc
      exact absurd hc (lt_irrefl 0)
  | size fd => rfl

theorem Sound.createCodes (h : Sound (view s.ramdisk) s.fds) (name : CString) :
    CreateCodes s name := by
  rcases fsCreate_cases h (some name) with ⟨heq, hbad⟩ | ⟨n, hn, hne, hlen, hrest⟩
  · have hbad : InvalidName name := hbad name rfl
    constructor <;> rw [heq]
    · exact iff_of_true rfl hbad
    · exact iff_of_false (by omega) fun hgood => hgood.1 hbad
    · exact iff_of_false (by omega) fun hgood => hgood.1 hbad
    · exact fun hgood => absurd hbad hgood
  · cases hn
    have hgood : ¬InvalidName name := fun hbad => hbad.elim hne (Nat.not_le_of_lt hlen)
    rcases hrest with ⟨heq, hex⟩ | ⟨hnew, hrest⟩
    · have hex := h.fileExists_iff.mpr hex
      constructor <;> rw [heq]
      · exact iff_of_false (by omega) hgood
      · exact iff_of_true rfl ⟨hgood, hex⟩
      · exact iff_of_false (by omega) fun hnew => hnew.2.1 hex
      · exact fun _ hnew => absurd hex hnew
    · have hnone : ¬FileExists s.ramdisk name := by
        rw [h.fileExists_iff]
        exact fun ⟨d, hd, hstr⟩ => hnew d hd hstr
      rcases hrest with ⟨heq, hall⟩ | ⟨i, d, m, heq, hi, hi', hbit, hd, hd0, hview⟩
      · have hcount := h.fileCount_eq_iff.mpr hall
        constructor <;> rw [heq]
        · exact iff_of_false (by omega) hgood
        · exact iff_of_false (by omega) fun hex => hnone hex.2
        · exact iff_of_true rfl ⟨hgood, hnone, hcount⟩
        · exact fun _ _ hroom => absurd hcount hroom
      · have hroom : fileCount s.ramdisk ≠ 63 := fun hcount =>
          h.not_isFile_of_free hi' hbit (h.fileCount_eq_iff.mp hcount i hi hi')
        have hsound : Sound (view m) s.fds := by
          rw [hview]
          exact h.create hi hi' hbit hd hd0 hne hlen hnew
        constructor <;> rw [heq]
        · exact iff_of_false (by omega) hgood
        · exact iff_of_false (by omega) fun hex => hnone hex.2
        · exact iff_of_false (by omega) fun hfull => hroom hfull.2.2
        · refine fun _ _ _ => ⟨i, rfl, hsound.namedFile_iff.mpr ?_⟩
          rw [hview]
          refine ⟨(Tables.create_isFile hi hi' i).mpr (.inl rfl), ?_⟩
          rw [Tables.create_inode_self]
          exact Inode.str_freshNamed hlen

theorem Sound.openCodes (h : Sound (view s.ramdisk) s.fds) (name : CString) :
    OpenCodes s name := by
  rcases fsOpen_cases h name with ⟨heq, hnone⟩ | ⟨d, hd, hstr, hrest⟩
  · have hnone : ¬FileExists s.ramdisk name := by
      rw [h.fileExists_iff]
      exact fun ⟨d, hd, hstr⟩ => hnone d hd hstr
    constructor <;> rw [heq]
    · exact iff_of_true rfl hnone
    · exact iff_of_false (by omega) fun hex => hnone hex.1
    · exact fun hex => absurd hex hnone
  · have hex : FileExists s.ramdisk name := h.fileExists_iff.mpr ⟨d, hd, hstr⟩
    rcases hrest with ⟨heq, hall⟩ | ⟨n, heq, hn, hfree, -⟩
    · constructor <;> rw [heq]
      · exact iff_of_false (by omega) fun hnone => hnone hex
      · exact iff_of_true rfl ⟨hex, hall⟩
      · exact fun _ ⟨n, hn, hfree⟩ => absurd (hall n hn) hfree
    · constructor <;> rw [heq]
      · exact iff_of_false (by omega) fun hnone => hnone hex
      · exact iff_of_false (by omega) fun hall => hfree (hall.2 n hn)
      · exact fun _ _ => Int.natCast_nonneg n

theorem Sound.unlinkCodes (h : Sound (view s.ramdisk) s.fds) (name : CString) :
    UnlinkCodes s name := by
  rcases fsUnlink_cases h name with ⟨heq, hnone⟩ | ⟨d, i, hd, hstr, rfl, hrest⟩
  · have hnone : ¬FileExists s.ramdisk name := by
      rw [h.fileExists_iff]
      exact fun ⟨d, hd, hstr⟩ => hnone d hd hstr
    constructor <;> rw [heq]
    · exact iff_of_true rfl hnone
    · exact iff_of_false (by omega) fun hopen => hnone (hopen.imp fun _ => And.left)
    · exact fun hex => absurd hex hnone
  · have hself := h.hasFile_of_entry hd
    rw [hstr] at hself
    have hex : FileExists s.ramdisk name := ⟨_, h.namedFile_iff.mpr hself⟩
    rcases hrest with ⟨heq, n, hn, hni⟩ | ⟨hclosed, m, heq, -⟩
    · have hopen : ∃ i, NamedFile s.ramdisk name i ∧ ∃ n, s.IsOpen n ∧ (s.fds n).inode = i :=
        ⟨_, h.namedFile_iff.mpr hself, n, hn, hni⟩
      constructor <;> rw [heq]
      · exact iff_of_false (by omega) fun hnone => hnone hex
      · exact iff_of_true rfl hopen
      · exact fun _ hclosed => absurd hni (hclosed _ n (h.namedFile_iff.mpr hself) hn)
    · constructor <;> rw [heq]
      · exact iff_of_false (by omega) fun hnone => hnone hex
      · refine iff_of_false (by omega) fun ⟨i, hi, n, hn, hni⟩ => hclosed n hn ?_
        rw [hni]
        exact h.hasFile_unique (h.namedFile_iff.mp hi) hself
      · exact fun _ _ => rfl

end Codes

theorem failures_explained (s₀ : FsState) (calls : List Call) :
    FailuresExplained (runCalls (fsInit s₀) calls) := by
  have h := sound_run s₀ calls
  exact {
    unchanged := fun c hc => h.unchanged hc
    buffer := fun fd buf count hr => by
      rcases fsRead_cases h fd buf count with ⟨heq, -⟩ | ⟨n, out, -, -, -, heq⟩
      · rw [heq]
      · rw [heq] at hr
        exact absurd hr (Int.natCast_nonneg _).not_gt
    create := h.createCodes
    «open» := h.openCodes
    unlink := h.unlinkCodes }

end SengOs.Fs
