import SengOs.Lib.FileStore
import SengOs.Fs.Sound

/-!
# The files on the disk

`content t i` is the byte string that inode `i` stands for: byte `p` lies in its block
`p / 4096`. `Tables.abs` reads the whole file system as a `FileStore`: a name is looked up in
the directory as `find_dirent` does, and a descriptor is on the name stored in its inode. The
abstraction of a sound file system is well formed (`Sound.wf`).
-/

namespace SengOs.Fs

open ByteMemory CString

/-- Byte `p` of the file in inode `i`. -/
def Tables.byte (t : Tables) (i p : Nat) : Byte :=
  t.data ((t.inode i).blocks (p / 4096)) (p % 4096)

def Tables.content (t : Tables) (i : Nat) : List Byte := bytes (t.byte i) (t.inode i).size

@[simp] theorem Tables.length_content (t : Tables) (i : Nat) :
    (t.content i).length = (t.inode i).size :=
  length_bytes ..

/-- The file called `n` is in inode `i`. -/
def Tables.HasFile (t : Tables) (n : List Byte) (i : Nat) : Prop :=
  t.IsFile i ∧ (t.inode i).str = n

/-! ## The abstraction -/

def Tables.files (t : Tables) (n : List Byte) : Option (List Byte) :=
  ((List.range 128).find? fun d => (t.dirent d).used != 0 && (t.dirent d).str == n).map
    fun d => t.content (t.dirent d).inode

def Tables.openFiles (t : Tables) (fds : Nat → File) (fd : Nat) : Option (List Byte × Nat) :=
  if fd < 32 ∧ (fds fd).used ≠ 0 then
    some ((t.inode (fds fd).inode).str, (fds fd).offset)
  else none

def Tables.abs (t : Tables) (fds : Nat → File) : FileStore (List Byte) Byte where
  files := t.files
  fds := t.openFiles fds

/-- The abstract file store that a state of the file system stands for. -/
def FsState.abs (s : FsState) : FileStore (List Byte) Byte := (view s.ramdisk).abs s.fds

/-- Names of 1 to 23 bytes without a NUL, 32 descriptors, files of at most 32768 bytes. -/
def fsLimits : FileStore.Limits (List Byte) where
  validName n := n ≠ [] ∧ n.length ≤ 23 ∧ ∀ b ∈ n, b ≠ 0
  maxFds := 32
  maxLen := 32768

/-! ## Looking up a name -/

section Lookup

variable {t t' : Tables} {n : List Byte} {i j : Nat}

theorem DirSound.hasFile_iff (h : DirSound t) :
    t.HasFile n i ↔ ∃ d, t.IsEntry d ∧ (t.dirent d).str = n ∧ (t.dirent d).inode = i := by
  constructor
  · rintro ⟨hi, rfl⟩
    obtain ⟨d, hd, rfl⟩ := h.file_entry i hi
    exact ⟨d, hd, (h.name_inode d hd).symm, rfl⟩
  · rintro ⟨d, hd, rfl, rfl⟩
    exact ⟨h.entry_file d hd, h.name_inode d hd⟩

theorem DirSound.hasFile_unique (h : DirSound t) (hi : t.HasFile n i) (hj : t.HasFile n j) :
    i = j := by
  obtain ⟨d, hd, hdn, rfl⟩ := h.hasFile_iff.mp hi
  obtain ⟨e, he, hen, rfl⟩ := h.hasFile_iff.mp hj
  rw [h.name_inj d e hd he (hdn.trans hen.symm)]

theorem DirSound.files_eq_none_iff (h : DirSound t) : t.files n = none ↔ ∀ i, ¬ t.HasFile n i := by
  rw [Tables.files, Option.map_eq_none_iff, List.find?_range_eq_none]
  constructor
  · rintro hall i hi
    obtain ⟨d, ⟨hd, hu⟩, rfl, -⟩ := h.hasFile_iff.mp hi
    have hd' := hall d hd
    rw [bne_iff_ne.mpr hu, beq_self_eq_true] at hd'
    cases hd'
  · intro hall d hd
    by_cases hu : (t.dirent d).used = 0
    · simp [hu]
    · have hne : (t.dirent d).str ≠ n := fun hs => hall _ (h.hasFile_iff.mpr ⟨d, ⟨hd, hu⟩, hs, rfl⟩)
      simp [hne]

theorem DirSound.files_of_hasFile (h : DirSound t) (hi : t.HasFile n i) :
    t.files n = some (t.content i) := by
  cases hfind : (List.range 128).find?
      (fun d => (t.dirent d).used != 0 && (t.dirent d).str == n) with
  | none => exact absurd hi (h.files_eq_none_iff.mp (by rw [Tables.files, hfind]; rfl) i)
  | some d =>
    obtain ⟨hp, hmem, -⟩ := List.find?_range_eq_some.mp hfind
    rw [Bool.and_eq_true, bne_iff_ne, beq_iff_eq] at hp
    have hd : t.HasFile n (t.dirent d).inode :=
      h.hasFile_iff.mpr ⟨d, ⟨List.mem_range.mp hmem, hp.1⟩, hp.2, rfl⟩
    rw [Tables.files, hfind, h.hasFile_unique hi hd]
    rfl

theorem DirSound.files_eq_some_iff (h : DirSound t) {c : List Byte} :
    t.files n = some c ↔ ∃ i, t.HasFile n i ∧ t.content i = c := by
  constructor
  · intro hc
    by_cases hex : ∃ i, t.HasFile n i
    · obtain ⟨i, hi⟩ := hex
      exact ⟨i, hi, Option.some.inj ((h.files_of_hasFile hi).symm.trans hc)⟩
    · have hnone := h.files_eq_none_iff.mpr fun i hi => hex ⟨i, hi⟩
      exact nomatch hnone.symm.trans hc
  · rintro ⟨i, hi, rfl⟩
    exact h.files_of_hasFile hi

/-- A name is looked up with the same result if it is in the same inode with the same
content. -/
theorem DirSound.files_congr (h : DirSound t) (h' : DirSound t')
    (hsame : ∀ i, t'.HasFile n i ↔ t.HasFile n i)
    (hcontent : ∀ i, t.HasFile n i → t'.content i = t.content i) : t'.files n = t.files n := by
  by_cases hex : ∃ i, t.HasFile n i
  · obtain ⟨i, hi⟩ := hex
    rw [h.files_of_hasFile hi, h'.files_of_hasFile ((hsame i).mpr hi), hcontent i hi]
  · rw [h.files_eq_none_iff.mpr fun i hi => hex ⟨i, hi⟩,
      h'.files_eq_none_iff.mpr fun i hi => hex ⟨i, (hsame i).mp hi⟩]

/-- The entry and the inode of a file called `n`. -/
theorem DirSound.hasFile_of_entry (h : DirSound t) {d : Nat} (hd : t.IsEntry d) :
    t.HasFile (t.dirent d).str (t.dirent d).inode :=
  h.hasFile_iff.mpr ⟨d, hd, rfl, rfl⟩

end Lookup

/-! ## Descriptors -/

section OpenFiles

variable {t t' : Tables} {fds : Nat → File} {fd : Nat}

theorem openFiles_of_open (hfd : fd < 32) (hu : (fds fd).used ≠ 0) :
    t.openFiles fds fd = some ((t.inode (fds fd).inode).str, (fds fd).offset) :=
  if_pos ⟨hfd, hu⟩

theorem openFiles_eq_some_iff {n : List Byte} {off : Nat} :
    t.openFiles fds fd = some (n, off) ↔
      (fd < 32 ∧ (fds fd).used ≠ 0) ∧ (t.inode (fds fd).inode).str = n ∧
        (fds fd).offset = off := by
  unfold Tables.openFiles
  split
  · rename_i h
    rw [Option.some_inj, Prod.mk.injEq]
    exact (and_iff_right h).symm
  · rename_i h
    exact iff_of_false nofun fun h' => h h'.1

theorem openFiles_eq_none_iff : t.openFiles fds fd = none ↔ ¬ (fd < 32 ∧ (fds fd).used ≠ 0) := by
  unfold Tables.openFiles
  split
  · rename_i h; exact iff_of_false nofun (not_not.mpr h)
  · rename_i h; exact iff_of_true rfl h

/-- Open files keep their names as long as their inodes do. -/
theorem openFiles_congr (h : FdSound t fds)
    (hstr : ∀ i, t.IsFile i → (∃ k, k < 32 ∧ (fds k).used ≠ 0 ∧ (fds k).inode = i) →
      (t'.inode i).str = (t.inode i).str) :
    t'.openFiles fds = t.openFiles fds := by
  funext k
  by_cases hk : k < 32 ∧ (fds k).used ≠ 0
  · rw [openFiles_of_open hk.1 hk.2, openFiles_of_open hk.1 hk.2,
      hstr _ ((h.fd_sound k hk.1).file hk.2) ⟨k, hk.1, hk.2, rfl⟩]
  · rw [openFiles_eq_none_iff.mpr hk, openFiles_eq_none_iff.mpr hk]

theorem openFiles_update (hfd : fd < 32) {f : File} (hu : f.used ≠ 0) :
    t.openFiles (Function.update fds fd f) =
      Function.update (t.openFiles fds) fd (some ((t.inode f.inode).str, f.offset)) := by
  funext k
  by_cases hk : k = fd
  · subst hk
    rw [Function.update_self, openFiles_of_open hfd (by rwa [Function.update_self]),
      Function.update_self]
  · rw [Function.update_of_ne hk]
    simp only [Tables.openFiles, Function.update_of_ne hk]

theorem openFiles_close :
    t.openFiles (Function.update fds fd File.zero) =
      Function.update (t.openFiles fds) fd none := by
  funext k
  by_cases hk : k = fd
  · subst hk
    rw [Function.update_self, openFiles_eq_none_iff]
    exact fun h => h.2 (by rw [Function.update_self]; rfl)
  · rw [Function.update_of_ne hk]
    simp only [Tables.openFiles, Function.update_of_ne hk]

end OpenFiles

/-! ## Well-formedness -/

section Wf

variable {t : Tables} {fds : Nat → File}

theorem DirSound.validName (h : DirSound t) {n : List Byte} {i : Nat} (hi : t.HasFile n i) :
    fsLimits.validName n := by
  obtain ⟨d, hd, rfl, -⟩ := h.hasFile_iff.mp hi
  exact ⟨h.name_pos d hd, h.name_le d hd, read_ne_zero _ _⟩

theorem Sound.wf (h : Sound t fds) : FileStore.Wf fsLimits (t.abs fds) where
  name_valid n c hn := by
    obtain ⟨i, hi, -⟩ := h.files_eq_some_iff.mp hn
    exact h.validName hi
  length_le n c hn := by
    obtain ⟨i, hi, rfl⟩ := h.files_eq_some_iff.mp hn
    rw [Tables.length_content]
    exact h.size_le i hi.1
  fd_lt fd o hfd := (openFiles_eq_some_iff.mp hfd).1.1
  fd_file fd n off hfd := by
    obtain ⟨⟨hlt, hu⟩, rfl, rfl⟩ := openFiles_eq_some_iff.mp hfd
    have hf := h.fd_sound fd hlt
    refine ⟨_, h.files_of_hasFile ⟨hf.file hu, rfl⟩, ?_⟩
    rw [Tables.length_content]
    exact hf.offset hu
  finite := by
    refine ((List.range 128).map fun d => (t.dirent d).str).finite_toSet.subset fun n hn => ?_
    obtain ⟨c, hc⟩ := Option.ne_none_iff_exists'.mp hn
    obtain ⟨i, hi, -⟩ := h.files_eq_some_iff.mp hc
    obtain ⟨d, hd, rfl, -⟩ := h.hasFile_iff.mp hi
    exact List.mem_map.mpr ⟨d, List.mem_range.mpr hd.1, rfl⟩

end Wf

end SengOs.Fs
