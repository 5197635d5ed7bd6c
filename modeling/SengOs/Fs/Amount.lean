import SengOs.Lib.FirstFit
import SengOs.Fs.Bracket

/-!
# How much a write accepts

A file of a sound file system has a block for every 4096 bytes begun, so its room is what is
left in its last block and in the free blocks, up to the eight blocks an inode points to.
`Tables.Gained` is what the allocating part of a write does: the file gets the lowest free
blocks, in order, behind the blocks it has. It composes, so the rounds of the loop add up to
one gain, whose length the loop determines from its position and the free blocks alone.
-/

namespace SengOs.Fs

open ByteMemory

/-- The free data blocks, lowest first. -/
def Tables.freeList (t : Tables) : List Nat := FirstFit.clear t.blockBit 5 251

/-- The number of blocks of `size` bytes. -/
def blocksOf (size : Nat) : Nat := (size + 4095) / 4096

/-- From `t` to `t'` file `i` has gained the `c` lowest free blocks, in order, behind its first
`a` blocks, and apart from its size and its blocks nothing has changed. -/
structure Tables.Gained (i a c : Nat) (t t' : Tables) : Prop where
  inode : t'.inode i = { t.inode i with
    size := (t'.inode i).size, blocks := (t'.inode i).blocks }
  blocks : ∀ k < 8, (t'.inode i).blocks k =
    if k < a then (t.inode i).blocks k else (t.freeList.take c)[k - a]?.getD 0
  freeList : t'.freeList = t.freeList.drop c
  data : ∀ b, b ≠ 0 → (∀ k < 8, (t'.inode i).blocks k ≠ b) → t'.data b = t.data b

section Gained

variable {t t' t'' : Tables} {i a c c' : Nat}

theorem Tables.Gained.refl (h : ∀ k < 8, a ≤ k → (t.inode i).blocks k = 0) :
    t.Gained i a 0 t where
  inode := rfl
  blocks k hk := by
    by_cases hka : k < a
    · rw [if_pos hka]
    · rw [if_neg hka, h k hk (by omega), List.take_zero]
      rfl
  freeList := rfl
  data _ _ _ := rfl

theorem Tables.Gained.trans (h : t.Gained i a c t') (h' : t'.Gained i (a + c) c' t'') :
    t.Gained i a (c + c') t'' where
  inode := by rw [h'.inode, h.inode]
  blocks k hk := by
    rw [h'.blocks k hk]
    by_cases hka : k < a
    · rw [if_pos (by omega), if_pos hka, h.blocks k hk, if_pos hka]
    · rw [if_neg hka, List.take_add]
      by_cases hkc : k < a + c
      · rw [if_pos hkc, h.blocks k hk, if_neg hka]
        by_cases hlen : k - a < (t.freeList.take c).length
        · rw [List.getElem?_append_left hlen]
        · have hshort : t.freeList.length ≤ c := by
            rw [List.length_take] at hlen
            omega
          rw [List.drop_eq_nil_of_le hshort, List.take_nil, List.append_nil]
      · rw [if_neg hkc, h.freeList]
        by_cases hshort : t.freeList.length ≤ c
        · rw [List.drop_eq_nil_of_le hshort, List.take_nil, List.append_nil,
            List.getElem?_eq_none (by simp), List.getElem?_eq_none (by simp; omega)]
        · have hlen : (t.freeList.take c).length = c := by
            rw [List.length_take]
            omega
          have hsub : k - (a + c) = k - a - (t.freeList.take c).length := by omega
          rw [hsub, List.getElem?_append_right (by omega)]
  freeList := by rw [h'.freeList, h.freeList, List.drop_drop]
  data b hb hown := by
    refine (h'.data b hb hown).trans (h.data b hb fun k hk hkb => ?_)
    have hkept := h'.blocks k hk
    by_cases hkc : k < a + c
    · rw [if_pos hkc, hkb] at hkept
      exact hown k hk hkept
    · rw [h.blocks k hk, if_neg (by omega), List.getElem?_eq_none] at hkb
      · exact hb hkb.symm
      · simp only [List.length_take]
        omega

end Gained

/-! ## One round -/

section Round

variable {t : Tables} {fds : Nat → File} {i pos b n : Nat} {src : Nat → Byte}

/-- A file has its blocks at the lowest places. -/
theorem ExtentSound.block_iff_lt (h : ExtentSound t) (hi : t.IsFile i) {k : Nat} (hk : k < 8) :
    (t.inode i).blocks k ≠ 0 ↔ k < blocksOf (t.inode i).size := by
  rw [h.block_iff i k hi hk, blocksOf]
  omega

theorem ExtentSound.block_eq_zero (h : ExtentSound t) (hi : t.IsFile i) {k : Nat} (hk : k < 8)
    (hle : blocksOf (t.inode i).size ≤ k) : (t.inode i).blocks k = 0 :=
  not_not.mp fun hne => Nat.not_lt_of_le hle ((h.block_iff_lt hi hk).mp hne)

/-- The first write to a place of a file takes the lowest free block. -/
theorem freeList_ensureBlock {m m' : Mem} {k : Nat} (hi : i < 64) (hk : k < 8)
    (hzero : ((view m).inode i).blocks k = 0) (h : ensureBlock m i k = some m') :
    (view m).freeList = ((view m').inode i).blocks k ::
      FirstFit.clear (Function.update (view m).blockBit (((view m').inode i).blocks k) true)
        5 251 := by
  unfold ensureBlock at h
  rw [inodeBlock_eq hi hk, if_pos hzero] at h
  cases halloc : allocBlock m with
  | none =>
    rw [halloc] at h
    cases h
  | some p =>
    obtain ⟨c, m₁⟩ := p
    rw [halloc] at h
    cases h
    obtain ⟨h5, h256, hbit, hlow, -⟩ := allocBlock_some halloc
    have hmod : c % 2 ^ 32 = c := Nat.mod_eq_of_lt (by omega)
    rw [view_setInodeBlock _ hi hk, hmod]
    simp only [Function.update_self]
    exact FirstFit.clear_eq_cons h5 h256 hbit hlow

/-- A block that is not the written one keeps its data. -/
theorem Tables.writeChunk_data_of_avoids (hpos : pos < 32768) {c : Nat}
    (hown : ∀ k < 8, ((t.writeChunk i pos b n src).inode i).blocks k ≠ c) :
    (t.writeChunk i pos b n src).data c = t.data c := by
  refine Function.update_of_ne ?_ ..
  rintro rfl
  exact hown (pos / 4096) (by omega) Tables.writeChunk_block_self

theorem Tables.writeChunk_inode_eq : (t.writeChunk i pos b n src).inode i =
    { t.inode i with
      size := ((t.writeChunk i pos b n src).inode i).size
      blocks := ((t.writeChunk i pos b n src).inode i).blocks } := by
  rw [writeChunk_inode_self]

/-- A round in a block that the file has gains nothing. -/
theorem Tables.gained_old (h : Sound t fds) (hi : t.IsFile i) (hpos : pos < 32768)
    (hb : Target t i pos b) (hold : pos / 4096 < blocksOf (t.inode i).size) (n : Nat)
    (src : Nat → Byte) : t.Gained i (blocksOf (t.inode i).size) 0 (t.writeChunk i pos b n src) := by
  have hne := (h.block_iff_lt hi (show pos / 4096 < 8 by omega)).mpr hold
  have hblock := hb.here.resolve_right hne
  have hbit : t.blockBit b = true :=
    (h.blockBit_iff b hb.range.2).mpr (Or.inr ⟨i, _, hi, by omega, hblock⟩)
  have hbits : (t.writeChunk i pos b n src).blockBit = t.blockBit := by
    show Function.update t.blockBit b true = t.blockBit
    rw [← hbit, Function.update_eq_self]
  constructor
  · exact Tables.writeChunk_inode_eq
  · intro k hk
    have hsame : ((t.writeChunk i pos b n src).inode i).blocks k = (t.inode i).blocks k := by
      by_cases hkp : k = pos / 4096
      · rw [hkp, Tables.writeChunk_block_self, hblock]
      · exact Tables.writeChunk_block_ne fun hself => hkp hself.2
    rw [hsame]
    split
    · rfl
    · rename_i hlt
      rw [h.block_eq_zero hi hk (by omega), List.take_zero]
      rfl
  · rw [freeList, hbits]
    rfl
  · exact fun c _ hown => Tables.writeChunk_data_of_avoids hpos hown

/-- A round behind the blocks of the file gains the lowest free block. -/
theorem Tables.gained_new (h : Sound t fds) (hi : t.IsFile i) (hpos : pos < 32768)
    (hnew : pos / 4096 = blocksOf (t.inode i).size)
    (hL : t.freeList = b :: (t.writeChunk i pos b n src).freeList) :
    t.Gained i (blocksOf (t.inode i).size) 1 (t.writeChunk i pos b n src) := by
  constructor
  · exact Tables.writeChunk_inode_eq
  · intro k hk
    by_cases hkp : k = pos / 4096
    · rw [hkp, Tables.writeChunk_block_self, if_neg (by omega), hnew, Nat.sub_self, hL]
      rfl
    · rw [Tables.writeChunk_block_ne fun hself => hkp hself.2]
      split
      · rfl
      · rw [h.block_eq_zero hi hk (by omega), List.getElem?_eq_none]
        · rfl
        · simp only [List.length_take]
          omega
  · rw [hL]
    rfl
  · exact fun c _ hown => Tables.writeChunk_data_of_avoids hpos hown

end Round

/-! ## The loop -/

/-- How far the loop of `fs_write` gets from `done` on, and what the file gains on the way. -/
structure LoopAmount (fd i count : Nat) (s : FsState) (done : Nat) (r : Nat × FsState) : Prop where
  amount : r.1 = min count (done + (4096 * (blocksOf ((s.grown fd i).inode i).size +
    (s.grown fd i).freeList.length) - (s.fds fd).offset))
  size : ((r.2.grown fd i).inode i).size =
    max ((s.grown fd i).inode i).size ((s.fds fd).offset + (r.1 - done))
  gained : (s.grown fd i).Gained i (blocksOf ((s.grown fd i).inode i).size)
    (blocksOf ((s.fds fd).offset + (r.1 - done)) - blocksOf ((s.grown fd i).inode i).size)
    (r.2.grown fd i)

section Loop

variable {fd i count done : Nat} {s : FsState}

/-- The offset lies in the blocks of the file or just behind them. -/
theorem WriteInv.offset_le (h : WriteInv fd i count s done) :
    (s.fds fd).offset ≤ ((s.grown fd i).inode i).size :=
  h.inode ▸ (h.sound.fd_sound fd h.isOpen.1).offset h.isOpen.2

/-- Where the file has no block, the offset is at the end of its blocks. -/
theorem WriteInv.at_end (h : WriteInv fd i count s done) (hlt : done < count)
    (hzero : ((view s.ramdisk).inode i).blocks ((s.fds fd).offset / 4096) = 0) :
    (s.fds fd).offset = 4096 * blocksOf ((s.grown fd i).inode i).size := by
  have hi : (s.grown fd i).IsFile i := (Tables.grow_isFile i).mpr h.isFile
  have hoff := h.offset_le
  have hpos := h.offset_lt hlt
  have hiff := h.sound.block_iff_lt hi (show (s.fds fd).offset / 4096 < 8 by omega)
  rw [FsState.grown, Tables.grow_blocks, hzero, ← FsState.grown] at hiff
  have hbehind := not_lt.mp (hiff.not.mp (by simp))
  simp only [blocksOf] at hbehind ⊢
  omega

/-- A round gains the lowest free block if it starts behind the blocks of the file, and no
block if it starts in one of them. -/
theorem WriteInv.round_gained (h : WriteInv fd i count s done) (hlt : done < count) {m : Mem}
    (hm : ensureBlock s.ramdisk i ((s.fds fd).offset / 4096) = some m) {b n : Nat}
    {src : Nat → Byte} (hn : (s.fds fd).offset % 4096 + n ≤ 4096)
    (hb : Target (view s.ramdisk) i (s.fds fd).offset b)
    (hview : view m = (view s.ramdisk).withBlock i ((s.fds fd).offset / 4096) b)
    {t : Tables} (ht : t = (s.grown fd i).writeChunk i (s.fds fd).offset b n src) :
    ∃ c, (s.grown fd i).Gained i (blocksOf ((s.grown fd i).inode i).size) c t ∧
      t.freeList.length + c = (s.grown fd i).freeList.length ∧
      (c = 0 ∧ (s.fds fd).offset + n ≤ 4096 * blocksOf ((s.grown fd i).inode i).size ∨
        c = 1 ∧ (s.fds fd).offset = 4096 * blocksOf ((s.grown fd i).inode i).size) := by
  subst ht
  have hi : (s.grown fd i).IsFile i := (Tables.grow_isFile i).mpr h.isFile
  have hpos := h.offset_lt hlt
  have hk : (s.fds fd).offset / 4096 < 8 := by omega
  have hb' : Target (s.grown fd i) i (s.fds fd).offset b := Tables.target_grow hb
  by_cases hzero : ((view s.ramdisk).inode i).blocks ((s.fds fd).offset / 4096) = 0
  · have hend := h.at_end hlt hzero
    have hfirst := freeList_ensureBlock hi.2.1 hk hzero hm
    have hblock : ((view m).inode i).blocks ((s.fds fd).offset / 4096) = b := by
      rw [hview]
      simp only [Tables.withBlock, Function.update_self]
    rw [hblock] at hfirst
    refine ⟨1, Tables.gained_new h.sound hi hpos (by omega) hfirst, ?_, Or.inr ⟨rfl, hend⟩⟩
    exact (congrArg List.length hfirst).symm
  · have hold : (s.fds fd).offset / 4096 < blocksOf ((s.grown fd i).inode i).size := by
      refine (h.sound.block_iff_lt hi hk).mp ?_
      rwa [FsState.grown, Tables.grow_blocks]
    have hgain := Tables.gained_old h.sound hi hpos hb' hold n src
    exact ⟨0, hgain, by rw [hgain.freeList]; rfl, Or.inl ⟨rfl, by omega⟩⟩

theorem LoopAmount.refl (h : WriteInv fd i count s done)
    (hstop : done < count → (s.fds fd).offset = 4096 * blocksOf ((s.grown fd i).inode i).size ∧
      (s.grown fd i).freeList = []) :
    LoopAmount fd i count s done (done, s) := by
  have hi : (s.grown fd i).IsFile i := (Tables.grow_isFile i).mpr h.isFile
  have hoff := h.offset_le
  have hdone := h.done_le
  have hle : blocksOf (s.fds fd).offset - blocksOf ((s.grown fd i).inode i).size = 0 := by
    simp only [blocksOf]
    omega
  constructor
  · dsimp only
    rcases hdone.eq_or_lt with rfl | hlt
    · omega
    · obtain ⟨hend, hfull⟩ := hstop hlt
      rw [hfull, hend, List.length_nil]
      omega
  · dsimp only
    omega
  · dsimp only
    rw [Nat.sub_self, Nat.add_zero, hle]
    exact .refl fun k hk hak => h.sound.block_eq_zero hi hk hak

/-- A round of `n` bytes at `pos` takes as much of the room as it writes. -/
theorem room_round {size pos n c free free' : Nat} (hn' : n ≤ 4096)
    (hfree : free' + c = free) (hcase : c = 0 ∧ pos + n ≤ 4096 * blocksOf size ∨
      c = 1 ∧ pos = 4096 * blocksOf size) (done : Nat) :
    done + n + (4096 * (blocksOf size + c + free') - (pos + n)) =
      done + (4096 * (blocksOf size + free) - pos) := by
  omega

/-- What the round adds to the blocks of the file, and that a later end `stop` needs them. -/
theorem blocksOf_round {size pos n c stop : Nat} (hpos : pos ≤ size) (hn : 0 < n)
    (hn' : n ≤ 4096) (hcase : c = 0 ∧ pos + n ≤ 4096 * blocksOf size ∨
      c = 1 ∧ pos = 4096 * blocksOf size) (hstop : pos + n ≤ stop) :
    blocksOf (max size (pos + n)) = blocksOf size + c ∧
      (c = 1 → blocksOf size + c ≤ blocksOf stop) := by
  simp only [blocksOf] at hcase ⊢
  omega

/-- A round of `n` bytes that gains `c` blocks, then the rest of the loop. -/
theorem LoopAmount.cons {s' : FsState} {n c : Nat} {r : Nat × FsState}
    (hrest : LoopAmount fd i count s' (done + n) r) (h : WriteInv fd i count s done)
    (hle : done + n ≤ r.1) (hn : 0 < n) (hn' : n ≤ 4096)
    (hoff : (s'.fds fd).offset = (s.fds fd).offset + n)
    (hsize : ((s'.grown fd i).inode i).size =
      max ((s.grown fd i).inode i).size ((s.fds fd).offset + n))
    (hgain : (s.grown fd i).Gained i (blocksOf ((s.grown fd i).inode i).size) c (s'.grown fd i))
    (hfree : (s'.grown fd i).freeList.length + c = (s.grown fd i).freeList.length)
    (hcase : c = 0 ∧ (s.fds fd).offset + n ≤ 4096 * blocksOf ((s.grown fd i).inode i).size ∨
      c = 1 ∧ (s.fds fd).offset = 4096 * blocksOf ((s.grown fd i).inode i).size) :
    LoopAmount fd i count s done r := by
  have hlen : (s.fds fd).offset + n + (r.1 - (done + n)) = (s.fds fd).offset + (r.1 - done) := by
    omega
  have hstop : (s.fds fd).offset + n ≤ (s.fds fd).offset + (r.1 - done) := by omega
  have hroom := room_round hn' hfree hcase done
  obtain ⟨hblocks, hneeded⟩ := blocksOf_round h.offset_le hn hn' hcase hstop
  rw [← hsize] at hblocks
  have hcount : c + (blocksOf ((s.fds fd).offset + (r.1 - done)) -
      (blocksOf ((s.grown fd i).inode i).size + c)) =
      blocksOf ((s.fds fd).offset + (r.1 - done)) -
        blocksOf ((s.grown fd i).inode i).size := by
    rcases hcase with ⟨rfl, -⟩ | ⟨rfl, -⟩
    · rw [Nat.zero_add, Nat.add_zero]
    · have hle' := hneeded rfl
      rw [Nat.add_comm, Nat.sub_add_eq, Nat.sub_add_cancel]
      exact Nat.le_sub_of_add_le' hle'
  obtain ⟨hamount, hsize', hgained⟩ := hrest
  rw [hoff] at hamount hsize' hgained
  rw [hblocks] at hamount hgained
  rw [hlen] at hsize' hgained
  constructor
  · rw [← hroom]
    exact hamount
  · rw [hsize', hsize, max_assoc, max_eq_right hstop]
  · rw [← hcount]
    exact hgain.trans hgained

theorem fsWriteLoop_amount (src : Mem) (s : FsState) (done : Nat)
    (h : WriteInv fd i count s done) :
    LoopAmount fd i count s done (fsWriteLoop fd i count src s done) := by
  induction s, done using fsWriteLoop.induct fd i count src with
  | case1 s done hlt pos hbig =>
    have hpos := h.offset_lt hlt
    simp only [pos, fsBlockSize, fsDirect] at hbig
    omega
  | case2 s done hlt pos hsmall hnone =>
    rw [fsWriteLoop, dif_pos hlt]
    dsimp only
    rw [if_neg hsmall, hnone]
    obtain ⟨-, hzero, hfull⟩ | ⟨b, m, hsome, -⟩ :=
      ensureBlock_cases h.sound.toBlockSound.of_grow h.isFile (h.offset_lt hlt)
    · refine .refl h fun _ => ⟨h.at_end hlt hzero,
        FirstFit.clear_eq_nil fun b h5 h256 => hfull b h5 h256⟩
    · cases hnone.symm.trans hsome
  | case3 s done hlt pos hsmall m hm n m' ih =>
    rw [fsWriteLoop, dif_pos hlt]
    dsimp only
    rw [if_neg hsmall, hm]
    dsimp only
    have hpos := h.offset_lt hlt
    have hchunk : n = min (4096 - (s.fds fd).offset % 4096) (count - done) := chunk_eq ..
    have hadv := ({ s with ramdisk := m' } : FsState).advance_eq_seek fd n
      (show (s.fds fd).offset + n < 2 ^ 32 by omega)
    rw [hadv] at ih ⊢
    obtain ⟨hinv, b, hb, hview, hgrown, -⟩ :=
      h.round hlt hm (fun x => src (done + x)) hchunk rfl
    obtain ⟨c, hgain, hfree, hcase⟩ := h.round_gained hlt hm (by omega) hb hview hgrown
    have hsize := congrArg (fun t => (t.inode i).size) hgrown
    rw [Tables.writeChunk_size_self] at hsize
    exact (ih hinv).cons h (fsWriteLoop_spec src _ _ hinv).le (by omega) (by omega)
      (FsState.seek_offset ..) hsize hgain hfree hcase
  | case4 s done hge =>
    rw [fsWriteLoop, dif_neg hge]
    exact .refl h fun hlt => absurd hlt hge

end Loop

/-! ## The function -/

/-- What `fs_write` did to the tables when it wrote `r` of `count` bytes through descriptor
`n`. -/
structure Placed (s : FsState) (n count r : Nat) (s' : FsState) : Prop where
  amount : r = min count (min (32768 - (s.fds n).offset)
    (4096 * (blocksOf ((view s.ramdisk).inode (s.fds n).inode).size +
      (view s.ramdisk).freeList.length) - (s.fds n).offset))
  size : ((view s'.ramdisk).inode (s.fds n).inode).size =
    max ((view s.ramdisk).inode (s.fds n).inode).size ((s.fds n).offset + r)
  gained : (view s.ramdisk).Gained (s.fds n).inode
    (blocksOf ((view s.ramdisk).inode (s.fds n).inode).size)
    (blocksOf ((s.fds n).offset + r) - blocksOf ((view s.ramdisk).inode (s.fds n).inode).size)
    (view s'.ramdisk)

theorem fsWrite_placed {s s' : FsState} (h : Sound (view s.ramdisk) s.fds) {n : Nat}
    (hn : s.IsOpen n) {src : Mem} {count r : Nat}
    (heq : fsWrite s n (some src) count = ((r : Int), s')) : Placed s n count r s' := by
  have hf := h.fd_sound n hn.1
  have hi := hf.file hn.2
  have hoff := hf.offset hn.2
  have hsize := h.size_le _ hi
  have hstart : s.grown n (s.fds n).inode = view s.ramdisk := Tables.grow_of_le hoff
  have hinv : WriteInv n (s.fds n).inode (min count (32768 - (s.fds n).offset)) s 0 :=
    ⟨by rwa [hstart], hn, rfl, Nat.zero_le _, by omega⟩
  have hspec := fsWriteLoop_spec src s 0 hinv
  have hloop := fsWriteLoop_amount src s 0 hinv
  rw [fsWrite_eq_loop h hn] at heq
  generalize fsWriteLoop n (s.fds n).inode (min count (32768 - (s.fds n).offset)) src s 0 = l
    at hspec hloop heq
  obtain ⟨hr, rfl⟩ := Prod.ext_iff.mp heq
  obtain rfl : l.1 = r := Int.ofNat_inj.mp hr
  have hend : (l.2.fds n).offset < 2 ^ 32 := by
    have hle := hspec.le_count
    rw [hspec.fds, FsState.seek_offset]
    omega
  obtain ⟨hamount, hgrown, hgained⟩ := hloop
  rw [hstart, Nat.sub_zero] at hgained hgrown
  rw [hstart] at hamount
  have hview : view (updateSize l.2 n (s.fds n).inode).ramdisk =
      l.2.grown n (s.fds n).inode := view_updateSize hi.2.1 hend
  constructor
  · omega
  · rw [hview, hgrown]
  · rw [hview]
    exact hgained

/-- The number of non-zero pointers in `inodes[i].blocks`. -/
def blockCount (m : Mem) (i : Nat) : Nat :=
  (List.range fsDirect).countP fun k => inodeBlock m i k != 0

/-- The clear bits of `block_bitmap` from `FS_DATA_START` to `FS_NUM_BLOCKS - 1`, lowest
first. -/
def clearBlocks (m : Mem) : List Nat :=
  (List.range' fsDataStart (fsNumBlocks - fsDataStart)).filter fun b =>
    !bitTest m blockBitmap b

theorem clearBlocks_eq (m : Mem) : clearBlocks m = (view m).freeList := by
  unfold clearBlocks Tables.freeList FirstFit.clear
  refine List.filter_congr fun b hb => ?_
  have hlt := (List.mem_range'_1.mp hb).2
  simp only [fsDataStart, fsNumBlocks, fsDiskSize, fsBlockSize] at hlt
  rw [bitTest_blockBitmap (by omega)]

theorem countP_range_lt (n c : Nat) :
    (List.range n).countP (fun k => decide (k < c)) = min n c := by
  induction n with
  | zero => simp
  | succ n ih =>
    rw [List.range_succ, List.countP_append, ih]
    simp only [List.countP_singleton, decide_eq_true_eq]
    split <;> omega

theorem blockCount_eq {m : Mem} {fds : Nat → File} {i : Nat} (h : Sound (view m) fds)
    (hi : (view m).IsFile i) : blockCount m i = blocksOf (inodeSize m i) := by
  have hle := h.size_le i hi
  have hcongr : ∀ k ∈ List.range 8, (inodeBlock m i k != 0) = true ↔
      decide (k < blocksOf ((view m).inode i).size) = true := by
    intro k hk
    rw [inodeBlock_eq hi.2.1 (List.mem_range.mp hk), bne_iff_ne, decide_eq_true_iff]
    exact h.block_iff_lt hi (List.mem_range.mp hk)
  rw [blockCount, fsDirect, List.countP_congr hcongr, countP_range_lt, inodeSize_eq hi.2.1,
    blocksOf]
  omega

/-- What `fs_write` did with `count` bytes for descriptor `n` when it returned `r`, in terms of
the `A` blocks of the file and the list `F` of the free blocks before the call. -/
structure WroteAmount (s : FsState) (n count r : Nat) (s' : FsState) (A : Nat) (F : List Nat) :
    Prop where
  offset_le : (s.fds n).offset ≤ 32768 ∧ (s.fds n).offset ≤ 4096 * A
  amount : r = min count (min (32768 - (s.fds n).offset)
    (4096 * (A + F.length) - (s.fds n).offset))
  offset : (s'.fds n).offset = (s.fds n).offset + r
  size : inodeSize s'.ramdisk (s.fds n).inode =
    max (inodeSize s.ramdisk (s.fds n).inode) ((s.fds n).offset + r)
  kept : ∀ k < 8, inodeBlock s.ramdisk (s.fds n).inode k ≠ 0 →
    inodeBlock s'.ramdisk (s.fds n).inode k = inodeBlock s.ramdisk (s.fds n).inode k
  blocks : ∀ k < 8, inodeBlock s'.ramdisk (s.fds n).inode k =
    if k < A then inodeBlock s.ramdisk (s.fds n).inode k
    else (F.take (blocksOf ((s.fds n).offset + r) - A))[k - A]?.getD 0
  enough : blocksOf ((s.fds n).offset + r) - A ≤ F.length
  free : clearBlocks s'.ramdisk = F.drop (blocksOf ((s.fds n).offset + r) - A)

theorem fsWrite_amount (s₀ : FsState) (calls : List Call) (n : Nat) (src : Mem) (count : Nat)
    (hn : (runCalls (fsInit s₀) calls).IsOpen n) :
    ∃ (r : Nat) (s' : FsState),
      fsWrite (runCalls (fsInit s₀) calls) n (some src) count = ((r : Int), s') ∧
      WroteAmount (runCalls (fsInit s₀) calls) n count r s'
        (blockCount (runCalls (fsInit s₀) calls).ramdisk
          ((runCalls (fsInit s₀) calls).fds n).inode)
        (clearBlocks (runCalls (fsInit s₀) calls).ramdisk) := by
  have h := sound_run s₀ calls
  generalize runCalls (fsInit s₀) calls = s at h hn
  have hf := h.fd_sound n hn.1
  have hi := hf.file hn.2
  have hoff := hf.offset hn.2
  have hsize := h.size_le _ hi
  obtain ⟨r, s', heq, hw⟩ := fsWrite_open h hn src count
  have hp := fsWrite_placed h hn heq
  refine ⟨r, s', heq, ?_⟩
  rw [blockCount_eq h hi, inodeSize_eq hi.2.1, clearBlocks_eq]
  have hblocks : ∀ k < 8, inodeBlock s'.ramdisk (s.fds n).inode k =
      if k < blocksOf ((view s.ramdisk).inode (s.fds n).inode).size
      then inodeBlock s.ramdisk (s.fds n).inode k
      else ((view s.ramdisk).freeList.take (blocksOf ((s.fds n).offset + r) -
        blocksOf ((view s.ramdisk).inode (s.fds n).inode).size))[k -
          blocksOf ((view s.ramdisk).inode (s.fds n).inode).size]?.getD 0 := by
    intro k hk
    rw [inodeBlock_eq hi.2.1 hk, inodeBlock_eq hi.2.1 hk]
    exact hp.gained.blocks k hk
  constructor
  · simp only [blocksOf]
    omega
  · exact hp.amount
  · rw [hw.fds, FsState.seek_offset]
  · rw [inodeSize_eq hi.2.1, inodeSize_eq hi.2.1]
    exact hp.size
  · intro k hk hne
    rw [inodeBlock_eq hi.2.1 hk] at hne
    rw [hblocks k hk, if_pos ((h.block_iff_lt hi hk).mp hne)]
  · exact hblocks
  · have hamount := hp.amount
    simp only [blocksOf] at hamount ⊢
    omega
  · rw [clearBlocks_eq]
    exact hp.gained.freeList

theorem fsWrite_amount_after_init :
    ∃ (n r : Nat) (s' : FsState),
      fsWrite (runCalls (fsInit ⟨fun _ => 0, fun _ => File.zero⟩)
        [.create (some rootName), .open rootName]) n (some fun _ => 0x41) 5000 =
          ((r : Int), s') ∧
      WroteAmount (runCalls (fsInit ⟨fun _ => 0, fun _ => File.zero⟩)
        [.create (some rootName), .open rootName]) n 5000 r s'
        (blockCount (runCalls (fsInit ⟨fun _ => 0, fun _ => File.zero⟩)
          [.create (some rootName), .open rootName]).ramdisk
          ((runCalls (fsInit ⟨fun _ => 0, fun _ => File.zero⟩)
            [.create (some rootName), .open rootName]).fds n).inode)
        (clearBlocks (runCalls (fsInit ⟨fun _ => 0, fun _ => File.zero⟩)
          [.create (some rootName), .open rootName]).ramdisk) := by
  obtain ⟨n, hn⟩ :=
    isOpen_after_init ⟨fun _ => 0, fun _ => File.zero⟩ not_invalidName_rootName
  exact ⟨n, fsWrite_amount _ _ n _ 5000 hn⟩

end SengOs.Fs
