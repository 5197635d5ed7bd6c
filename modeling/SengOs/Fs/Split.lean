import SengOs.Fs.Amount

/-!
# Splitting a transfer

The state after a write is determined by the state before it and the bytes written: the
amount decides which blocks the file gains, the content of the file is the splice of the
bytes, and everything else is as before. So two writes in sequence leave the state that one
write of their concatenation leaves, and the same holds for reads, which only move the
offset.
-/

namespace SengOs.Fs

open ByteMemory FileStore

/-- `s'` came from `s` by writing the bytes `xs` through descriptor `n`. -/
structure WroteBytes (s : FsState) (n : Nat) (xs : List Byte) (s' : FsState) : Prop where
  sound : Sound (view s'.ramdisk) s'.fds
  fds : s'.fds = (s.seek n ((s.fds n).offset + xs.length)).fds
  step : Step fsLimits s.abs (.write n xs) s'.abs
  size : ((view s'.ramdisk).inode (s.fds n).inode).size =
    max ((view s.ramdisk).inode (s.fds n).inode).size ((s.fds n).offset + xs.length)
  gained : (view s.ramdisk).Gained (s.fds n).inode
    (blocksOf ((view s.ramdisk).inode (s.fds n).inode).size)
    (blocksOf ((s.fds n).offset + xs.length) -
      blocksOf ((view s.ramdisk).inode (s.fds n).inode).size) (view s'.ramdisk)
  within : (view s.ramdisk).Within (s.fds n).inode (view s'.ramdisk)
  rest : SameRest s.ramdisk s'.ramdisk

section Determined

variable {s s' s'' : FsState} {n : Nat} {xs ys : List Byte}

theorem fsWrite_wroteBytes (h : Sound (view s.ramdisk) s.fds) (hn : s.IsOpen n) (src : Mem)
    (count : Nat) :
    ∃ (r : Nat) (s' : FsState), fsWrite s n (some src) count = ((r : Int), s') ∧
      Placed s n count r s' ∧ WroteBytes s n (bytes src r) s' := by
  obtain ⟨r, s', heq, hw⟩ := fsWrite_open h hn src count
  obtain ⟨hwithin, hrest⟩ := fsWrite_within h hn src count
  have hp := fsWrite_placed h hn heq
  rw [heq] at hwithin hrest
  refine ⟨r, s', heq, hp, hw.sound, ?_, hw.step, ?_, ?_, hwithin, hrest⟩
  · rw [length_bytes, hw.fds]
  · rw [length_bytes, hp.size]
  · rw [length_bytes]
    exact hp.gained

/-- Descriptor `n` stays open on its file, at the end of what was written. -/
theorem WroteBytes.fds_self (hw : WroteBytes s n xs s') :
    s'.fds n = { s.fds n with offset := (s.fds n).offset + xs.length } := by
  rw [hw.fds]
  exact Function.update_self ..

theorem WroteBytes.isOpen (hw : WroteBytes s n xs s') (hn : s.IsOpen n) : s'.IsOpen n := by
  refine ⟨hn.1, ?_⟩
  rw [hw.fds_self]
  exact hn.2

/-- Writing `xs` and then `ys` is writing both. -/
theorem WroteBytes.append (h : Sound (view s.ramdisk) s.fds) (hn : s.IsOpen n)
    (hx : WroteBytes s n xs s') (hy : WroteBytes s' n ys s'') : WroteBytes s n (xs ++ ys) s'' := by
  have hoff := (h.fd_sound n hn.1).offset hn.2
  have hself := hx.fds_self
  have hsize := hx.size
  have hsize' := hy.size
  have hgained := hy.gained
  have hwithin := hy.within
  have hlen : (s.fds n).offset + xs.length + ys.length =
      (s.fds n).offset + (xs ++ ys).length := by
    rw [List.length_append, Nat.add_assoc]
  rw [hself, hsize] at hsize'
  rw [hself, hsize] at hgained
  rw [hself] at hwithin
  dsimp only at hsize' hgained hwithin
  rw [hlen] at hsize' hgained
  have hfirst : blocksOf (max ((view s.ramdisk).inode (s.fds n).inode).size
      ((s.fds n).offset + xs.length)) =
      blocksOf ((view s.ramdisk).inode (s.fds n).inode).size +
        (blocksOf ((s.fds n).offset + xs.length) -
          blocksOf ((view s.ramdisk).inode (s.fds n).inode).size) := by
    simp only [blocksOf]
    omega
  rw [hfirst] at hgained
  have hcount := hx.gained.trans hgained
  have hsum : blocksOf ((s.fds n).offset + xs.length) -
        blocksOf ((view s.ramdisk).inode (s.fds n).inode).size +
      (blocksOf ((s.fds n).offset + (xs ++ ys).length) -
        (blocksOf ((view s.ramdisk).inode (s.fds n).inode).size +
          (blocksOf ((s.fds n).offset + xs.length) -
            blocksOf ((view s.ramdisk).inode (s.fds n).inode).size))) =
      blocksOf ((s.fds n).offset + (xs ++ ys).length) -
        blocksOf ((view s.ramdisk).inode (s.fds n).inode).size := by
    simp only [blocksOf, ← hlen]
    omega
  rw [hsum] at hcount
  constructor
  · exact hy.sound
  · rw [hy.fds, hself]
    dsimp only [FsState.seek, FsState.setFd]
    rw [hself, hx.fds, hlen]
    exact Function.update_idem ..
  · exact hx.step.write_append h.wf hy.step
  · rw [hsize']
    omega
  · exact hcount
  · exact hx.within.trans hwithin
  · exact hx.rest.trans hy.rest

theorem WroteBytes.isFile (hx : WroteBytes s n xs s')
    (hi : (view s.ramdisk).IsFile (s.fds n).inode) :
    (view s'.ramdisk).IsFile (s.fds n).inode := by
  refine ⟨hi.1, hi.2.1, ?_⟩
  rw [hx.gained.inode]
  exact hi.2.2

theorem WroteBytes.files (hx : WroteBytes s n xs s')
    (hi : (view s.ramdisk).IsFile (s.fds n).inode) :
    s'.abs.files ((view s.ramdisk).inode (s.fds n).inode).str =
      some ((view s'.ramdisk).content (s.fds n).inode) := by
  refine hx.sound.files_of_hasFile ⟨hx.isFile hi, ?_⟩
  rw [hx.gained.inode]
  rfl

/-- The data of a block of a sound file is its content, and zeros behind the end. -/
theorem Sound.data_eq {t : Tables} {fds : Nat → File} (h : Sound t fds) {i k : Nat}
    (hi : t.IsFile i) (hk : k < 8) (hne : (t.inode i).blocks k ≠ 0) {o : Nat} (ho : o < 4096) :
    t.data ((t.inode i).blocks k) o = (t.content i)[k * 4096 + o]?.getD 0 := by
  have hdiv : (k * 4096 + o) / 4096 = k := by omega
  have hmod : (k * 4096 + o) % 4096 = o := by omega
  rw [Tables.content, getElem?_bytes]
  split
  · rw [Option.getD_some, Tables.byte, hdiv, hmod]
  · exact h.tail_zero i k o hi hk hne ho (by omega)

/-- The bytes written determine every byte of the state. -/
theorem WroteBytes.unique (h : Sound (view s.ramdisk) s.fds) (hn : s.IsOpen n)
    (hx : WroteBytes s n xs s') (hy : WroteBytes s n xs s'') : s' = s'' := by
  have hi := (h.fd_sound n hn.1).file hn.2
  have hblocks : ∀ k < 8, ((view s''.ramdisk).inode (s.fds n).inode).blocks k =
      ((view s'.ramdisk).inode (s.fds n).inode).blocks k := by
    intro k hk
    rw [hx.gained.blocks k hk, hy.gained.blocks k hk]
  have hpointers : ((view s''.ramdisk).inode (s.fds n).inode).blocks =
      ((view s'.ramdisk).inode (s.fds n).inode).blocks := by
    apply funext
    intro k
    by_cases hk : k < 8
    · exact hblocks k hk
    · rw [view_inode hi.2.1, view_inode hi.2.1]
      exact (if_neg hk).trans (if_neg hk).symm
  have hinode : (view s''.ramdisk).inode = (view s'.ramdisk).inode := by
    apply funext
    intro j
    rcases eq_or_ne j (s.fds n).inode with rfl | hj
    · rw [hx.gained.inode, hy.gained.inode, hx.size, hy.size, hpointers]
    · rw [hx.within.inode j hj, hy.within.inode j hj]
  have hblockBit := blockBit_of_inode hx.sound hy.sound hinode
  have hcontent : (view s''.ramdisk).content (s.fds n).inode =
      (view s'.ramdisk).content (s.fds n).inode := by
    have habs := hx.step.write_deterministic hy.step
    have hfile := hx.files hi
    rw [habs, hy.files hi] at hfile
    exact Option.some.inj hfile
  have hdata : ∀ b, 5 ≤ b → (view s''.ramdisk).data b = (view s'.ramdisk).data b := by
    intro b h5
    apply funext
    intro o
    by_cases ho : o < 4096
    case neg =>
      have hout : ¬ (5 ≤ b ∧ b < 256 ∧ o < 4096) := fun hin => ho hin.2.2
      exact (if_neg hout).trans (if_neg hout).symm
    by_cases hown : ∃ k < 8, ((view s'.ramdisk).inode (s.fds n).inode).blocks k = b
    · obtain ⟨k, hk, rfl⟩ := hown
      have hne : ((view s'.ramdisk).inode (s.fds n).inode).blocks k ≠ 0 := by omega
      rw [hx.sound.data_eq (hx.isFile hi) hk hne ho, ← hcontent, ← hblocks k hk]
      rw [← hblocks k hk] at hne
      exact hy.sound.data_eq (hy.isFile hi) hk hne ho
    · have hfree : ∀ k < 8, ((view s'.ramdisk).inode (s.fds n).inode).blocks k ≠ b :=
        fun k hk hkb => hown ⟨k, hk, hkb⟩
      rw [hx.gained.data b (by omega) hfree,
        hy.gained.data b (by omega) fun k hk hkb => hfree k hk ((hblocks k hk).symm.trans hkb)]
  have hrest : SameRest s'.ramdisk s''.ramdisk :=
    fun a ha => (hy.rest a ha).trans (hx.rest a ha).symm
  have hdisk : s''.ramdisk = s'.ramdisk := by
    apply funext
    intro a
    rcases Nat.lt_or_ge a 20480 with hlt | hge
    · exact eq_of_view hrest (hy.within.inodeBit.trans hx.within.inodeBit.symm) hblockBit hinode
        (hy.within.dirent.trans hx.within.dirent.symm) hlt
    · rcases Nat.lt_or_ge a 1048576 with hlt | hge'
      · have ha : a = a / 4096 * 4096 + a % 4096 := by omega
        rw [ha]
        exact eq_of_data (hdata _ (by omega)) (by omega) (by omega) (by omega)
      · exact hrest a (Or.inr (Or.inr (Or.inr hge')))
  have hfds : s''.fds = s'.fds := hy.fds.trans hx.fds.symm
  cases s'
  cases s''
  cases hdisk
  cases hfds
  rfl

end Determined

/-- What a write takes from the free blocks it adds to its file. -/
theorem blocksOf_max {size free pos : Nat} (hpos : pos ≤ 4096 * (blocksOf size + free)) :
    blocksOf (max size pos) + (free - (blocksOf pos - blocksOf size)) = blocksOf size + free := by
  have hmax : blocksOf (max size pos) = max (blocksOf size) (blocksOf pos) := by
    simp only [blocksOf]
    omega
  have hle : blocksOf pos ≤ blocksOf size + free := by
    simp only [blocksOf] at hpos ⊢
    omega
  omega

/-- A limit `cap` on what two transfers take in sequence. -/
theorem min_add_min (c c' cap : Nat) : min (c + c') cap = min c cap + min c' (cap - min c cap) := by
  omega

section Transfers

variable {s : FsState} {n : Nat}

/-- One write of `xs ++ ys` and two writes, of `xs` and of `ys`. If the first of the two is cut
short, nothing is left for the second. -/
theorem fsWrite_append (h : Sound (view s.ramdisk) s.fds) (hn : s.IsOpen n) {xs ys : List Byte}
    {buf bufx bufy : Mem} (hbuf : bytes buf (xs.length + ys.length) = xs ++ ys)
    (hbufx : bytes bufx xs.length = xs) (hbufy : bytes bufy ys.length = ys) :
    ∃ (r₁ r₂ : Nat) (s₁ s₂ : FsState),
      fsWrite s n (some bufx) xs.length = ((r₁ : Int), s₁) ∧
      fsWrite s₁ n (some bufy) ys.length = ((r₂ : Int), s₂) ∧
      fsWrite s n (some buf) (xs.length + ys.length) = (((r₁ + r₂ : Nat) : Int), s₂) := by
  have hoff := (h.fd_sound n hn.1).offset hn.2
  obtain ⟨r, s', heq, hp, hw⟩ := fsWrite_wroteBytes h hn buf (xs.length + ys.length)
  obtain ⟨r₁, s₁, heq₁, hp₁, hw₁⟩ := fsWrite_wroteBytes h hn bufx xs.length
  obtain ⟨r₂, s₂, heq₂, hp₂, hw₂⟩ :=
    fsWrite_wroteBytes hw₁.sound (hw₁.isOpen hn) bufy ys.length
  have hend : (s.fds n).offset ≤ 4096 * blocksOf
      ((view s.ramdisk).inode (s.fds n).inode).size := by
    simp only [blocksOf]
    omega
  have hamount₁ := hp₁.amount
  have hroom : (s.fds n).offset + r₁ ≤ 4096 * (blocksOf
      ((view s.ramdisk).inode (s.fds n).inode).size + (view s.ramdisk).freeList.length) := by
    omega
  have hamount := hp.amount
  have hamount₂ := hp₂.amount
  rw [hw₁.fds_self] at hamount₂
  dsimp only at hamount₂
  rw [hp₁.size, hp₁.gained.freeList, List.length_drop, length_bytes,
    blocksOf_max hroom] at hamount₂
  generalize 4096 * (blocksOf ((view s.ramdisk).inode (s.fds n).inode).size +
    (view s.ramdisk).freeList.length) = room at hamount hamount₁ hamount₂
  have hsum : r = r₁ + r₂ := by
    rw [hamount, min_add_min, ← hamount₁, hamount₂]
    omega
  have hshort : r₁ < xs.length → r₂ = 0 := by omega
  have hbytes : bytes buf r = bytes bufx r₁ ++ bytes bufy r₂ := by
    rw [bytes_eq_take buf (show r ≤ xs.length + ys.length by omega), hbuf,
      bytes_eq_take bufx (show r₁ ≤ xs.length by omega), hbufx,
      bytes_eq_take bufy (show r₂ ≤ ys.length by omega), hbufy, List.take_append]
    rcases Nat.lt_or_ge r₁ xs.length with hlt | hge
    · rw [hsum, hshort hlt, Nat.add_zero, Nat.sub_eq_zero_of_le hlt.le]
    · rw [List.take_of_length_le hge, List.take_of_length_le (by omega)]
      congr 2
      omega
  rw [hbytes] at hw
  refine ⟨r₁, r₂, s₁, s₂, heq₁, heq₂, heq.trans ?_⟩
  rw [hsum, hw.unique h hn (hw₁.append h hn hw₂)]

theorem FsState.seek_fds_self (s : FsState) (n pos : Nat) :
    (s.seek n pos).fds n = { s.fds n with offset := pos } := Function.update_self ..

theorem FsState.readable_seek (s : FsState) (n pos count : Nat) :
    (s.seek n pos).readable n count =
      min count (((view s.ramdisk).inode (s.fds n).inode).size - pos) := by
  rw [FsState.readable, FsState.seek_fds_self, FsState.seek_ramdisk]

/-- One read of `c₁ + c₂` bytes and two reads, of `c₁` and of `c₂` bytes. -/
theorem fsRead_append (h : Sound (view s.ramdisk) s.fds) (hn : s.IsOpen n) (c₁ c₂ : Nat)
    (out out₁ out₂ : Mem) :
    ∃ (r₁ r₂ : Nat) (buf buf₁ buf₂ : Mem) (s₁ s₂ : FsState),
      fsRead s n (some out₁) c₁ = ((r₁ : Int), some buf₁, s₁) ∧
      fsRead s₁ n (some out₂) c₂ = ((r₂ : Int), some buf₂, s₂) ∧
      fsRead s n (some out) (c₁ + c₂) = (((r₁ + r₂ : Nat) : Int), some buf, s₂) ∧
      bytes buf (r₁ + r₂) = bytes buf₁ r₁ ++ bytes buf₂ r₂ := by
  have hoff := (h.fd_sound n hn.1).offset hn.2
  obtain ⟨r₁, hr₁⟩ : ∃ r₁, s.readable n c₁ = r₁ := ⟨_, rfl⟩
  obtain ⟨pos, hpos⟩ : ∃ pos, (s.fds n).offset + r₁ = pos := ⟨_, rfl⟩
  obtain ⟨r₂, hr₂⟩ : ∃ r₂, (s.seek n pos).readable n c₂ = r₂ := ⟨_, rfl⟩
  have hle : pos ≤ ((view s.ramdisk).inode (s.fds n).inode).size := by
    rw [FsState.readable] at hr₁
    omega
  have hsum : s.readable n (c₁ + c₂) = r₁ + r₂ := by
    rw [FsState.readable_seek] at hr₂
    rw [FsState.readable] at hr₁ ⊢
    rw [min_add_min, hr₁, ← hr₂, ← hpos, Nat.sub_add_eq]
  have hfirst := fsRead_open h hn out₁ c₁
  have hsecond := fsRead_open (h.seek hn.1 hn.2 hle) (FsState.isOpen_seek hn) out₂ c₂
  have hboth := fsRead_open h hn out (c₁ + c₂)
  rw [hr₁, hpos] at hfirst
  rw [hr₂, FsState.seek_fds_self, FsState.seek_seek, FsState.seek_ramdisk] at hsecond
  rw [hsum, ← Nat.add_assoc, hpos] at hboth
  refine ⟨r₁, r₂, _, _, _, _, _, hfirst, hsecond, hboth, ?_⟩
  rw [bytes_add]
  refine congrArg₂ _ (bytes_congr fun x hx => ?_) (bytes_congr fun x hx => ?_)
  · rw [if_pos (by omega), if_pos hx]
  · dsimp only
    rw [if_pos (by omega), if_pos hx, ← hpos, Nat.add_assoc]

end Transfers

/-- In every state of a run a transfer through an open descriptor may be split anywhere. -/
theorem transfers_split (s₀ : FsState) (calls : List Call) (n : Nat)
    (hn : (runCalls (fsInit s₀) calls).IsOpen n) :
    (∀ (xs ys : List Byte) (buf bufx bufy : Mem),
      bytes buf (xs.length + ys.length) = xs ++ ys → bytes bufx xs.length = xs →
      bytes bufy ys.length = ys →
      ∃ (r₁ r₂ : Nat) (s₁ s₂ : FsState),
        fsWrite (runCalls (fsInit s₀) calls) n (some bufx) xs.length = ((r₁ : Int), s₁) ∧
        fsWrite s₁ n (some bufy) ys.length = ((r₂ : Int), s₂) ∧
        fsWrite (runCalls (fsInit s₀) calls) n (some buf) (xs.length + ys.length) =
          (((r₁ + r₂ : Nat) : Int), s₂)) ∧
    ∀ (c₁ c₂ : Nat) (out out₁ out₂ : Mem),
      ∃ (r₁ r₂ : Nat) (buf buf₁ buf₂ : Mem) (s₁ s₂ : FsState),
        fsRead (runCalls (fsInit s₀) calls) n (some out₁) c₁ = ((r₁ : Int), some buf₁, s₁) ∧
        fsRead s₁ n (some out₂) c₂ = ((r₂ : Int), some buf₂, s₂) ∧
        fsRead (runCalls (fsInit s₀) calls) n (some out) (c₁ + c₂) =
          (((r₁ + r₂ : Nat) : Int), some buf, s₂) ∧
        bytes buf (r₁ + r₂) = bytes buf₁ r₁ ++ bytes buf₂ r₂ :=
  ⟨fun _ _ _ _ _ hbuf hbufx hbufy => fsWrite_append (sound_run s₀ calls) hn hbuf hbufx hbufy,
    fun c₁ c₂ out out₁ out₂ => fsRead_append (sound_run s₀ calls) hn c₁ c₂ out out₁ out₂⟩

theorem transfers_split_after_init :
    ∃ n : Nat,
      (∀ (xs ys : List Byte) (buf bufx bufy : Mem),
        bytes buf (xs.length + ys.length) = xs ++ ys → bytes bufx xs.length = xs →
        bytes bufy ys.length = ys →
        ∃ (r₁ r₂ : Nat) (s₁ s₂ : FsState),
          fsWrite (runCalls (fsInit ⟨fun _ => 0, fun _ => File.zero⟩)
            [.create (some rootName), .open rootName]) n (some bufx) xs.length =
              ((r₁ : Int), s₁) ∧
          fsWrite s₁ n (some bufy) ys.length = ((r₂ : Int), s₂) ∧
          fsWrite (runCalls (fsInit ⟨fun _ => 0, fun _ => File.zero⟩)
            [.create (some rootName), .open rootName]) n (some buf) (xs.length + ys.length) =
              (((r₁ + r₂ : Nat) : Int), s₂)) ∧
      ∀ (c₁ c₂ : Nat) (out out₁ out₂ : Mem),
        ∃ (r₁ r₂ : Nat) (buf buf₁ buf₂ : Mem) (s₁ s₂ : FsState),
          fsRead (runCalls (fsInit ⟨fun _ => 0, fun _ => File.zero⟩)
            [.create (some rootName), .open rootName]) n (some out₁) c₁ =
              ((r₁ : Int), some buf₁, s₁) ∧
          fsRead s₁ n (some out₂) c₂ = ((r₂ : Int), some buf₂, s₂) ∧
          fsRead (runCalls (fsInit ⟨fun _ => 0, fun _ => File.zero⟩)
            [.create (some rootName), .open rootName]) n (some out) (c₁ + c₂) =
              (((r₁ + r₂ : Nat) : Int), some buf, s₂) ∧
          bytes buf (r₁ + r₂) = bytes buf₁ r₁ ++ bytes buf₂ r₂ := by
  obtain ⟨n, hn⟩ :=
    isOpen_after_init ⟨fun _ => 0, fun _ => File.zero⟩ not_invalidName_rootName
  exact ⟨n, transfers_split _ _ n hn⟩

end SengOs.Fs
