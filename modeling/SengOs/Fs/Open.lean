import SengOs.Fs.Sound

/-!
# `fs_open`, `fs_close` and `fs_size`

These functions touch the open file table only. `fsOpen_cases` and `fsClose_cases` give the
result of every call on a sound file system.
-/

namespace SengOs.Fs

open ByteMemory CString

/-- Descriptor `n` is open. -/
def FsState.IsOpen (s : FsState) (n : Nat) : Prop := n < 32 ∧ (s.fds n).used ≠ 0

section Descriptors

variable {s : FsState} {fd : Int}

theorem badFd_iff : badFd s fd ↔ ∀ n : Nat, fd = n → ¬ s.IsOpen n := by
  unfold badFd
  simp only [fsMaxFds]
  constructor
  · rintro (h | h | h) n rfl ⟨hn, hu⟩
    · omega
    · omega
    · exact hu h
  · intro h
    by_cases hneg : fd < 0
    · exact Or.inl hneg
    · obtain ⟨n, rfl⟩ := Int.eq_ofNat_of_zero_le (Int.not_lt.mp hneg)
      by_cases hn : n < 32
      · exact Or.inr (Or.inr (not_not.mp fun hu => h n rfl ⟨hn, hu⟩))
      · exact Or.inr (Or.inl (by simp; omega))

theorem not_badFd_iff : ¬ badFd s fd ↔ ∃ n : Nat, fd = n ∧ s.IsOpen n := by
  rw [badFd_iff]
  simp only [not_forall, not_not, exists_prop]

theorem not_badFd_of_isOpen {n : Nat} (h : s.IsOpen n) : ¬ badFd s n :=
  not_badFd_iff.mpr ⟨n, rfl, h⟩

end Descriptors

/-! ## The open file table -/

/-- The descriptor entry that `fs_open` writes for inode `i`. -/
def File.opened (i : Nat) : File := ⟨1, 0, i, 0⟩

section Fds

variable {t : Tables} {fds : Nat → File} {n : Nat}

theorem FileSound.zero : FileSound t File.zero where
  used h := absurd rfl h
  file h := absurd rfl h
  offset h := absurd rfl h
  free _ := rfl

theorem FileSound.opened {i : Nat} (hi : t.IsFile i) : FileSound t (File.opened i) where
  used _ := rfl
  file _ := hi
  offset _ := Nat.zero_le _
  free h := absurd h (by decide : (1 : Byte) ≠ 0)

/-- An open file moved to another position within it. -/
theorem FileSound.seek {f : File} (h : FileSound t f) (hu : f.used ≠ 0) {pos : Nat}
    (hpos : pos ≤ (t.inode f.inode).size) : FileSound t { f with offset := pos } where
  used _ := h.used hu
  file _ := h.file hu
  offset _ := hpos
  free h0 := absurd h0 hu

theorem FdSound.update (h : FdSound t fds) {f : File} (hf : FileSound t f) :
    FdSound t (Function.update fds n f) where
  fd_sound k hk := by
    by_cases hkn : k = n
    · subst hkn; rwa [Function.update_self]
    · rw [Function.update_of_ne hkn]; exact h.fd_sound k hk

theorem Sound.setFd {s : FsState} (h : Sound (view s.ramdisk) s.fds) {f : File}
    (hf : FileSound (view s.ramdisk) f) :
    Sound (view (s.setFd n f).ramdisk) (s.setFd n f).fds :=
  { h with toFdSound := h.toFdSound.update hf }

/-- The test that `fs_read` and `fs_write` make on the inode of a descriptor. -/
theorem Sound.not_rejected {s : FsState} (h : Sound (view s.ramdisk) s.fds) {i : Nat}
    (hi : (view s.ramdisk).IsFile i) :
    ¬ (inodeUsed s.ramdisk i = 0 ∨ inodeType s.ramdisk i ≠ fsFile) := by
  have hused : inodeUsed s.ramdisk i = 1 := (inodeUsed_eq hi.2.1).trans hi.2.2
  have htype : inodeType s.ramdisk i = fsFile :=
    (inodeType_eq hi.2.1).trans (h.file_type _ hi)
  rw [hused, htype]
  decide

theorem setFd_opened {s : FsState} (i : Nat) : (s.setFd n (File.opened i)).fds n = File.opened i :=
  Function.update_self ..

theorem isOpen_opened {s : FsState} (hn : n < 32) (i : Nat) :
    (s.setFd n (File.opened i)).IsOpen n := by
  refine ⟨hn, ?_⟩
  rw [setFd_opened]
  exact (by decide : (1 : Byte) ≠ 0)

end Fds

/-! ## The functions -/

section Functions

variable {s : FsState}

theorem fsOpen_cases (h : Sound (view s.ramdisk) s.fds) (name : CString) :
    (fsOpen s name = (-1, s) ∧
      ∀ d, (view s.ramdisk).IsEntry d → ((view s.ramdisk).dirent d).str ≠ name.bytes) ∨
    ∃ d, (view s.ramdisk).IsEntry d ∧ ((view s.ramdisk).dirent d).str = name.bytes ∧
      ((fsOpen s name = (-2, s) ∧ ∀ n, n < 32 → s.IsOpen n) ∨
       ∃ n : Nat, fsOpen s name =
          ((n : Int), s.setFd n (File.opened ((view s.ramdisk).dirent d).inode)) ∧
        n < 32 ∧ ¬ s.IsOpen n ∧ ∀ k, k < n → s.IsOpen k) := by
  unfold fsOpen
  cases hfind : findDirent s.ramdisk name with
  | none =>
    rw [findDirent_none h.terminated] at hfind
    exact Or.inl ⟨rfl, fun d hd => hfind d hd.1 hd.2⟩
  | some d =>
    obtain ⟨hd, hu, hs⟩ := findDirent_some h.terminated hfind
    have hfile := h.entry_file d ⟨hd, hu⟩
    refine Or.inr ⟨d, ⟨hd, hu⟩, hs, ?_⟩
    have hino := direntInode_eq (m := s.ramdisk) hd
    have hused : inodeUsed s.ramdisk ((view s.ramdisk).dirent d).inode = 1 :=
      (inodeUsed_eq hfile.2.1).trans hfile.2.2
    have hguard : ¬ (((view s.ramdisk).dirent d).inode ≥ fsMaxInodes ∨
        inodeUsed s.ramdisk ((view s.ramdisk).dirent d).inode = 0) := by
      rw [hused]
      have := hfile.2.1
      simp only [fsMaxInodes]
      rintro (hge | h0)
      · omega
      · exact absurd h0 (by decide)
    dsimp only
    rw [hino, if_neg hguard]
    cases hscan : (List.range fsMaxFds).find? (fun fd => (s.fds fd).used == 0) with
    | none =>
      rw [List.find?_range_eq_none] at hscan
      exact Or.inl ⟨rfl, fun n hn => ⟨hn, by simpa using hscan n hn⟩⟩
    | some n =>
      obtain ⟨hfree, hmem, hlow⟩ := List.find?_range_eq_some.mp hscan
      have hn : n < 32 := by simpa using hmem
      refine Or.inr ⟨n, ?_, hn, fun ho => ho.2 (by simpa using hfree), fun k hk =>
        ⟨by omega, by simpa using hlow k hk⟩⟩
      have hmod : ((view s.ramdisk).dirent d).inode % 2 ^ 16 =
          ((view s.ramdisk).dirent d).inode := Nat.mod_eq_of_lt (by have := hfile.2.1; omega)
      dsimp only
      rw [hmod]
      rfl

theorem fsClose_cases (s : FsState) (fd : Int) :
    (fsClose s fd = (-1, s) ∧ ∀ n : Nat, fd = n → ¬ s.IsOpen n) ∨
    ∃ n : Nat, fd = n ∧ s.IsOpen n ∧ fsClose s fd = (0, s.setFd n File.zero) := by
  unfold fsClose
  split
  · rename_i hbad
    exact Or.inl ⟨rfl, badFd_iff.mp hbad⟩
  · rename_i hgood
    obtain ⟨n, rfl, hn⟩ := not_badFd_iff.mp hgood
    exact Or.inr ⟨n, rfl, hn, rfl⟩

theorem fsSize_cases (h : Sound (view s.ramdisk) s.fds) (fd : Int) :
    (fsSize s fd = 0 ∧ ∀ n : Nat, fd = n → ¬ s.IsOpen n) ∨
    ∃ n : Nat, fd = n ∧ s.IsOpen n ∧
      fsSize s fd = ((view s.ramdisk).inode (s.fds n).inode).size := by
  unfold fsSize
  split
  · rename_i hbad
    exact Or.inl ⟨rfl, badFd_iff.mp hbad⟩
  · rename_i hgood
    obtain ⟨n, rfl, hn⟩ := not_badFd_iff.mp hgood
    refine Or.inr ⟨n, rfl, hn, ?_⟩
    rw [Int.toNat_natCast, inodeSize_eq ((h.fd_sound n hn.1).file hn.2).2.1]

end Functions

end SengOs.Fs
