import Mathlib.Data.List.TakeWhile
import SengOs.Fs.Bracket
import SengOs.Shell.Commands

/-!
# What `cat` prints

The loop of `cmd_fs_cat` prints a file in pieces of 255 bytes, each up to its first NUL
(`printed`). It leaves its descriptor at the end of the file, so that the command as a whole
changes nothing.
-/

namespace SengOs.Shell

open ByteMemory CString Fs

/-- The characters printed for a file with content `c`. -/
def printed (c : List Byte) : List Byte :=
  if c = [] then [] else (c.take 255).takeWhile (· != 0) ++ printed (c.drop 255)
termination_by c.length
decreasing_by
  have := List.length_pos_iff.mpr ‹¬c = []›
  rw [List.length_drop]
  omega

/-- Of a file without NULs all is printed. -/
theorem printed_of_noNul {c : List Byte} (h : ∀ b ∈ c, b ≠ 0) : printed c = c := by
  induction c using printed.induct with
  | case1 =>
    rw [printed, if_pos rfl]
  | case2 c hne ih =>
    have hall : (c.take 255).takeWhile (· != 0) = c.take 255 :=
      List.takeWhile_eq_self_iff.mpr fun b hb => bne_iff_ne.mpr (h b (List.mem_of_mem_take hb))
    rw [printed, if_neg hne, ih fun b hb => h b (List.mem_of_mem_drop hb), hall,
      List.take_append_drop]

/-- The string in a buffer of `n` bytes that ends at the latest before byte `k`. -/
theorem read_eq_takeWhile {p : Nat → Byte} {k n : Nat} (hk : p k = 0) (hn : k < n) :
    CString.read p n = (bytes p k).takeWhile (· != 0) := by
  induction n generalizing p k with
  | zero => exact absurd hn (Nat.not_lt_zero k)
  | succ n ih =>
    rw [CString.read]
    cases k with
    | zero =>
      rw [if_pos hk]
      rfl
    | succ k =>
      rw [Nat.add_comm k 1, bytes_add]
      show _ = List.takeWhile _ (p 0 :: bytes (fun i => p (1 + i)) k)
      rw [List.takeWhile_cons]
      split
      · rename_i hzero
        rw [hzero]
        rfl
      · rename_i hne
        rw [if_pos (bne_iff_ne.mpr hne), ih (p := fun i => p (i + 1)) hk (by omega)]
        simp only [Nat.add_comm 1]

/-! ## The loop -/

section Loop

variable {s : FsState} {n : Nat}

/-- The content that is still to be read through a descriptor. -/
def rest (s : FsState) (n : Nat) : List Byte :=
  ((view s.ramdisk).content (s.fds n).inode).drop (s.fds n).offset

theorem length_rest (s : FsState) (n : Nat) : (rest s n).length =
    ((view s.ramdisk).inode (s.fds n).inode).size - (s.fds n).offset := by
  rw [rest, List.length_drop, Tables.length_content]

theorem take_rest (s : FsState) (n count : Nat) : (rest s n).take count =
    bytes (fun x => (view s.ramdisk).byte (s.fds n).inode ((s.fds n).offset + x))
      (s.readable n count) := by
  rw [rest, Tables.content, drop_take_bytes]
  rfl

theorem rest_seek (s : FsState) (n k : Nat) :
    rest (s.seek n ((s.fds n).offset + k)) n = (rest s n).drop k := by
  have hino : ((s.seek n ((s.fds n).offset + k)).fds n).inode = (s.fds n).inode := by
    simp [FsState.seek]
  rw [rest, FsState.seek_offset, hino, rest, List.drop_drop]
  rfl

theorem catLoop_eq (buf : Mem) (h : Sound (view s.ramdisk) s.fds) (hn : s.IsOpen n) :
    catLoop n s buf = (printed (rest s n), s.seek n
      ((view s.ramdisk).inode (s.fds n).inode).size) := by
  induction s, buf using catLoop.induct n with
  | case1 s buf r hpos filled ih =>
    have hr : r = _ := fsRead_open h hn buf 255
    have hoff := (h.fd_sound n hn.1).offset hn.2
    have hlen := length_rest s n
    have hle : (s.fds n).offset + s.readable n 255 ≤
        ((view s.ramdisk).inode (s.fds n).inode).size := by
      unfold FsState.readable
      omega
    rw [hr] at hpos
    have hnonempty : rest s n ≠ [] := by
      rw [← List.length_pos_iff, hlen]
      unfold FsState.readable at hpos
      omega
    have hputs : puts filled 256 = ((rest s n).take 255).takeWhile (· != 0) := by
      have hk : s.readable n 255 < 256 := by
        unfold FsState.readable
        omega
      have hend : filled (s.readable n 255) = 0 := by
        simp only [filled, hr]
        exact Function.update_self ..
      rw [puts, read_eq_takeWhile hend hk, take_rest]
      refine congrArg _ (bytes_congr fun x hx => ?_)
      simp only [filled, hr, Int.toNat_natCast, Option.getD_some]
      rw [Function.update_of_ne (by omega), if_pos hx]
    have hdrop : (rest s n).drop (s.readable n 255) = (rest s n).drop 255 := by
      unfold FsState.readable
      rw [← hlen]
      rcases Nat.le_total 255 (rest s n).length with hlong | hshort
      · rw [Nat.min_eq_left hlong]
      · rw [Nat.min_eq_right hshort, List.drop_length, List.drop_eq_nil_of_le hshort]
    have hstate : r.2.2 = s.seek n ((s.fds n).offset + s.readable n 255) := by rw [hr]
    have hino : ((s.seek n ((s.fds n).offset + s.readable n 255)).fds n).inode =
        (s.fds n).inode := by simp [FsState.seek]
    rw [hstate] at ih
    specialize ih (h.seek hn.1 hn.2 hle) (FsState.isOpen_seek hn)
    rw [catLoop]
    dsimp only
    rw [dif_pos (by rw [← hr] at hpos; exact hpos)]
    show (puts filled 256 ++ (catLoop n r.2.2 filled).1, (catLoop n r.2.2 filled).2) = _
    rw [hstate, ih, rest_seek, hdrop, hputs, FsState.seek_seek, hino, FsState.seek_ramdisk]
    conv_rhs => rw [printed, if_neg hnonempty]
  | case2 s buf r hzero =>
    have hr : r = _ := fsRead_open h hn buf 255
    have hoff := (h.fd_sound n hn.1).offset hn.2
    have hlen := length_rest s n
    have hread : s.readable n 255 = 0 := by
      rw [hr] at hzero
      omega
    have hsize : (s.fds n).offset = ((view s.ramdisk).inode (s.fds n).inode).size := by
      unfold FsState.readable at hread
      omega
    have hempty : rest s n = [] := List.eq_nil_of_length_eq_zero (by omega)
    rw [catLoop]
    dsimp only
    rw [dif_neg hzero, hempty, printed, if_pos rfl]
    show ([], r.2.2) = _
    rw [hr]
    dsimp only
    rw [hread, Nat.add_zero, hsize]

end Loop

/-! ## The command -/

section Command

variable {s : FsState} {name : CString} {i : Nat}

/-- A descriptor that is not open is all zero. -/
theorem setFd_zero_of_closed (h : Sound (view s.ramdisk) s.fds) {n : Nat} (hn : n < 32)
    (hclosed : ¬s.IsOpen n) : s.setFd n File.zero = s := by
  have hzero := (h.fd_sound n hn).free (not_not.mp fun hu => hclosed ⟨hn, hu⟩)
  rw [← hzero]
  exact s.setFd_self n

/-- `cat` of an existing file, with a free descriptor. -/
theorem cmdFsCat_of_hasFile (h : Sound (view s.ramdisk) s.fds)
    (hi : (view s.ramdisk).HasFile name.bytes i) (hfree : ∃ n < 32, ¬s.IsOpen n) (buf : Mem) :
    cmdFsCat s buf name =
      (chars "  " ++ printed ((view s.ramdisk).content i) ++ chars "\n", s) := by
  obtain ⟨d, hd, hstr, -⟩ := h.hasFile_iff.mp hi
  have hname : name.bytes ≠ [] := by
    rw [← hstr]
    exact h.name_pos d hd
  obtain ⟨n, hn, hclosed, hopen⟩ := fsOpen_of_hasFile h hi hfree
  have hrest : rest (s.setFd n (File.opened i)) n = (view s.ramdisk).content i := by
    rw [rest, setFd_opened]
    rfl
  have hisOpen : (s.setFd n (File.opened i)).IsOpen n := isOpen_opened hn i
  unfold cmdFsCat
  dsimp only
  rw [if_neg hname, hopen, if_neg (Int.natCast_nonneg n).not_gt]
  dsimp only
  rw [catLoop_eq buf (h.setFd (.opened hi.1)) hisOpen, hrest,
    fsClose_of_isOpen (FsState.isOpen_seek hisOpen)]
  dsimp only
  rw [FsState.seek, FsState.setFd_setFd, FsState.setFd_setFd, setFd_zero_of_closed h hn hclosed]

end Command

end SengOs.Shell
