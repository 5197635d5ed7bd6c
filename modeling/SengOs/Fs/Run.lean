import SengOs.Fs.Create
import SengOs.Fs.Init
import SengOs.Fs.Unlink
import SengOs.Fs.Write

/-!
# Runs of the file system

A run is `fs_init` followed by any calls of the interface with any arguments. `outcome` is
what a successful call did, in the terms of the abstract file store. `refines_exec` is the
simulation: on a sound state a successful call is a `Step` of the abstract store, a failed
call changes nothing at all, and the state after the call is sound. By induction every state
of a run is sound and the successful calls of a run are a `Run` of the abstract store.
-/

namespace SengOs.Fs

open ByteMemory CString FileStore

/-- A call of the interface. `none` is a null pointer. -/
inductive Call where
  | create (name : Option CString)
  | open (name : CString)
  | read (fd : Int) (buf : Option Mem) (count : Nat)
  | write (fd : Int) (buf : Option Mem) (count : Nat)
  | close (fd : Int)
  | unlink (name : CString)
  | size (fd : Int)

/-- The state after a call. -/
def exec (s : FsState) : Call → FsState
  | .create name => (fsCreate s name).2
  | .open name => (fsOpen s name).2
  | .read fd buf count => (fsRead s fd buf count).2.2
  | .write fd buf count => (fsWrite s fd buf count).2
  | .close fd => (fsClose s fd).2
  | .unlink name => (fsUnlink s name).2
  | .size _ => s

def runCalls (s : FsState) (calls : List Call) : FsState := calls.foldl exec s

/-- What a call did if it succeeded. A call has failed when its result is negative;
`fs_size` has no error code and fails when its descriptor is not open. -/
def outcome (s : FsState) : Call → Option (Event (List Byte) Byte)
  | .create name => name.bind fun n =>
    if (fsCreate s name).1 < 0 then none else some (.create n.bytes)
  | .open name =>
    if (fsOpen s name).1 < 0 then none else some (.open name.bytes (fsOpen s name).1.toNat)
  | .read fd buf count => (fsRead s fd buf count).2.1.bind fun out =>
    if (fsRead s fd buf count).1 < 0 then none
    else some (.read fd.toNat count (bytes out (fsRead s fd buf count).1.toNat))
  | .write fd buf count => buf.bind fun src =>
    if (fsWrite s fd buf count).1 < 0 then none
    else some (.write fd.toNat (bytes src (fsWrite s fd buf count).1.toNat))
  | .close fd => if (fsClose s fd).1 < 0 then none else some (.close fd.toNat)
  | .unlink name => if (fsUnlink s name).1 < 0 then none else some (.unlink name.bytes)
  | .size fd => if badFd s fd then none else some (.size fd.toNat (fsSize s fd))

/-- The successful calls of a run. -/
def trace (s : FsState) : List Call → List (Event (List Byte) Byte)
  | [] => []
  | c :: cs => (outcome s c).toList ++ trace (exec s c) cs

/-! ## Each operation on the abstraction -/

section Abstraction

variable {t : Tables} {fds : Nat → File} {i d : Nat}

theorem Tables.abs_create (h : Sound t fds) {name : CString} (hi : 1 ≤ i) (hi' : i < 64)
    (hbit : t.inodeBit i = false) (hd : d < 128) (hd0 : (t.dirent d).used = 0)
    (hname : name.bytes ≠ []) (hlen : name.bytes.length < 24)
    (hnew : ∀ e, t.IsEntry e → (t.dirent e).str ≠ name.bytes) :
    (t.create i d name).abs fds = (t.abs fds).setFile name.bytes (some []) := by
  have hfree := h.not_isFile_of_free hi' hbit
  have h' := h.create hi hi' hbit hd hd0 hname hlen hnew
  have hself : (t.create i d name).HasFile name.bytes i :=
    ⟨(create_isFile hi hi' i).mpr (Or.inl rfl),
      by rw [create_inode_self]; exact Inode.str_freshNamed hlen⟩
  have hold : ∀ {j}, t.IsFile j → (t.create i d name).inode j = t.inode j :=
    fun hj => create_inode_ne fun hji => hfree (hji ▸ hj)
  refine FileStore.ext (funext fun k => ?_) ?_
  · by_cases hk : k = name.bytes
    · subst hk
      rw [setFile_files_self]
      refine (h'.files_of_hasFile hself).trans (congrArg some ?_)
      rw [content, create_inode_self]
      rfl
    · rw [setFile_files_ne hk]
      refine h.files_congr h'.toDirSound (fun j => ?_) fun j hj => ?_
      · rw [HasFile, HasFile, create_isFile hi hi']
        by_cases hji : j = i
        · subst hji
          refine iff_of_false (fun hj => hk ?_) fun hj => hfree hj.1
          exact hj.2.symm.trans hself.2
        · rw [create_inode_ne hji]
          simp only [hji, false_or]
      · rw [content, content, hold hj.1]
        refine bytes_congr fun p _ => ?_
        rw [byte, byte, hold hj.1]
        rfl
  · exact openFiles_congr h.toFdSound fun j hj _ => by rw [hold hj]

theorem Tables.abs_unlink (h : Sound t fds) (hd : t.IsEntry d) (hdi : (t.dirent d).inode = i)
    (hclosed : ∀ n, n < 32 → (fds n).used ≠ 0 → (fds n).inode ≠ i) :
    (t.unlink i d).abs fds = (t.abs fds).setFile (t.dirent d).str none := by
  have h' := h.unlink hd hdi hclosed
  have hself : t.HasFile (t.dirent d).str i := hdi ▸ h.hasFile_of_entry hd
  refine FileStore.ext (funext fun k => ?_) ?_
  · by_cases hk : k = (t.dirent d).str
    · subst hk
      rw [setFile_files_self]
      refine h'.files_eq_none_iff.mpr fun j hj => ?_
      obtain ⟨hji, hj'⟩ := (unlink_isFile j).mp hj.1
      have hstr := hj.2
      rw [unlink_inode_ne hji] at hstr
      exact hji (h.hasFile_unique ⟨hj', hstr⟩ hself)
    · rw [setFile_files_ne hk]
      refine h.files_congr h'.toDirSound (fun j => ?_) fun j hj => ?_
      · rw [HasFile, HasFile, unlink_isFile]
        by_cases hji : j = i
        · subst hji
          refine iff_of_false (fun hj => hj.1.1 rfl) fun hj => hk ?_
          exact hj.2.symm.trans hself.2
        · rw [unlink_inode_ne hji]
          simp only [ne_eq, hji, not_false_iff, true_and]
      · have hji : j ≠ i := fun hji => hk (by rw [← hj.2, hji, hself.2])
        rw [content, content, unlink_inode_ne hji]
        refine bytes_congr fun p _ => ?_
        rw [byte, byte, unlink_inode_ne hji]
        rfl
  · refine openFiles_congr h.toFdSound fun j _ hj => ?_
    obtain ⟨k, hk, hu, hkj⟩ := hj
    rw [unlink_inode_ne fun hji => hclosed k hk hu (hkj.trans hji)]

theorem FsState.abs_setFd (s : FsState) (n : Nat) (f : File) :
    (s.setFd n f).abs = (view s.ramdisk).abs (Function.update s.fds n f) := rfl

theorem Tables.abs_open {n : Nat} (hn : n < 32) :
    t.abs (Function.update fds n (File.opened i)) =
      (t.abs fds).setFd n (some ((t.inode i).str, 0)) :=
  FileStore.ext rfl (openFiles_update hn (by decide : (1 : Byte) ≠ 0))

theorem Tables.abs_close (n : Nat) :
    t.abs (Function.update fds n File.zero) = (t.abs fds).setFd n none :=
  FileStore.ext rfl openFiles_close

end Abstraction

/-! ## The simulation -/

/-- The state after a call is sound; it is one step of the abstract store away if the call
succeeded, and the same if it failed. -/
structure Refines (s : FsState) (o : Option (Event (List Byte) Byte)) (s' : FsState) : Prop where
  sound : Sound (view s'.ramdisk) s'.fds
  step : ∀ e, o = some e → Step fsLimits s.abs e s'.abs
  same : o = none → s' = s

section Simulation

variable {s : FsState}

theorem Refines.failed (h : Sound (view s.ramdisk) s.fds) : Refines s none s :=
  ⟨h, nofun, fun _ => rfl⟩

theorem Refines.succeeded {s' : FsState} {e : Event (List Byte) Byte}
    (h : Sound (view s'.ramdisk) s'.fds) (hs : Step fsLimits s.abs e s'.abs) :
    Refines s (some e) s' :=
  ⟨h, fun e' he => by cases he; exact hs, nofun⟩

theorem isOpen_abs {n : Nat} (hn : s.IsOpen n) :
    s.abs.fds n = some (((view s.ramdisk).inode (s.fds n).inode).str, (s.fds n).offset) :=
  openFiles_of_open hn.1 hn.2

/-- The content of the file that an open descriptor is on. -/
theorem files_of_isOpen (h : Sound (view s.ramdisk) s.fds) {n : Nat} (hn : s.IsOpen n) :
    s.abs.files ((view s.ramdisk).inode (s.fds n).inode).str =
      some ((view s.ramdisk).content (s.fds n).inode) :=
  h.files_of_hasFile ⟨(h.fd_sound n hn.1).file hn.2, rfl⟩

theorem refines_create (h : Sound (view s.ramdisk) s.fds) (name : Option CString) :
    Refines s (outcome s (.create name)) (fsCreate s name).2 := by
  dsimp only [outcome]
  obtain ⟨heq, -⟩ | ⟨n, rfl, hne, hlen, ⟨heq, -⟩ |
    ⟨hnew, ⟨heq, -⟩ | ⟨i, d, m, heq, hi, hi', hbit, hd, hd0, hview⟩⟩⟩ := fsCreate_cases h name
  · rw [heq]
    cases name <;> exact .failed h
  · rw [heq]
    exact .failed h
  · rw [heq]
    exact .failed h
  · rw [heq]
    have hi0 : ¬ (i : Int) < 0 := by omega
    dsimp only [Option.bind_some]
    rw [if_neg hi0]
    refine .succeeded ?_ ?_
    · rw [hview]
      exact h.create hi hi' hbit hd hd0 hne hlen hnew
    · have hnone : s.abs.files n.bytes = none :=
        h.files_eq_none_iff.mpr fun j hj => by
          obtain ⟨e, he, hen, -⟩ := h.hasFile_iff.mp hj
          exact hnew e he hen
      rw [FsState.abs, FsState.abs, hview, Tables.abs_create h hi hi' hbit hd hd0 hne hlen hnew]
      exact .create ⟨hne, by omega, n.noNul⟩ hnone

theorem refines_open (h : Sound (view s.ramdisk) s.fds) (name : CString) :
    Refines s (outcome s (.open name)) (fsOpen s name).2 := by
  dsimp only [outcome]
  obtain ⟨heq, -⟩ | ⟨d, hd, hname, ⟨heq, -⟩ | ⟨n, heq, hn, hfree, hlow⟩⟩ := fsOpen_cases h name
  · rw [heq]
    exact .failed h
  · rw [heq]
    exact .failed h
  · rw [heq]
    have hn0 : ¬ (n : Int) < 0 := by omega
    have hfile := h.entry_file d hd
    dsimp only
    rw [if_neg hn0, Int.toNat_natCast]
    refine .succeeded ?_ ?_
    · exact { h with toFdSound := h.toFdSound.update (.opened hfile) }
    · rw [FsState.abs_setFd, Tables.abs_open hn, h.name_inode d hd, hname]
      have hc : s.abs.files name.bytes = some ((view s.ramdisk).content
          ((view s.ramdisk).dirent d).inode) :=
        h.files_of_hasFile (hname ▸ h.hasFile_of_entry hd)
      exact .open hc hn (openFiles_eq_none_iff.mpr hfree)
        fun k hk => by rw [isOpen_abs (hlow k hk)]; exact nofun

theorem refines_read (h : Sound (view s.ramdisk) s.fds) (fd : Int) (buf : Option Mem)
    (count : Nat) :
    Refines s (outcome s (.read fd buf count)) (fsRead s fd buf count).2.2 := by
  dsimp only [outcome]
  obtain ⟨heq, -⟩ | ⟨n, out, rfl, hn, rfl, heq⟩ := fsRead_cases h fd buf count
  · rw [heq]
    cases buf <;> exact .failed h
  · rw [heq]
    have hr0 : ¬ (s.readable n count : Int) < 0 := by omega
    have hf := h.fd_sound n hn.1
    have hoff := hf.offset hn.2
    have hpos : (s.fds n).offset + s.readable n count ≤
        ((view s.ramdisk).inode (s.fds n).inode).size := by
      unfold FsState.readable
      omega
    dsimp only [Option.bind_some]
    rw [if_neg hr0, Int.toNat_natCast, Int.toNat_natCast]
    refine .succeeded (h.seek hn.1 hn.2 hpos) ?_
    have hbytes : bytes (fun x => if x < s.readable n count then
          (view s.ramdisk).byte (s.fds n).inode ((s.fds n).offset + x) else out x)
          (s.readable n count) =
        (((view s.ramdisk).content (s.fds n).inode).drop (s.fds n).offset).take count := by
      rw [Tables.content, drop_take_bytes]
      exact bytes_congr fun x hx => if_pos hx
    have hstep : Step fsLimits s.abs _ _ := .read (isOpen_abs hn) (files_of_isOpen h hn) hbytes
    rw [length_bytes] at hstep
    rwa [FsState.seek, FsState.abs_setFd, Tables.abs_seek hn.1 hn.2]

theorem refines_write (h : Sound (view s.ramdisk) s.fds) (fd : Int) (buf : Option Mem)
    (count : Nat) :
    Refines s (outcome s (.write fd buf count)) (fsWrite s fd buf count).2 := by
  dsimp only [outcome]
  obtain ⟨heq, -⟩ | ⟨n, r, src, s', rfl, hn, rfl, heq, hw⟩ := fsWrite_cases h fd buf count
  · rw [heq]
    cases buf <;> exact .failed h
  · rw [heq]
    have hr0 : ¬ (r : Int) < 0 := by omega
    dsimp only [Option.bind_some]
    rw [if_neg hr0, Int.toNat_natCast, Int.toNat_natCast]
    exact .succeeded hw.sound hw.step

theorem refines_close (h : Sound (view s.ramdisk) s.fds) (fd : Int) :
    Refines s (outcome s (.close fd)) (fsClose s fd).2 := by
  dsimp only [outcome]
  obtain ⟨heq, -⟩ | ⟨n, rfl, hn, heq⟩ := fsClose_cases s fd
  · rw [heq]
    exact .failed h
  · rw [heq]
    refine .succeeded { h with toFdSound := h.toFdSound.update .zero } ?_
    rw [FsState.abs_setFd, Tables.abs_close, Int.toNat_natCast]
    exact .close fun hnone => openFiles_eq_none_iff.mp hnone hn

theorem refines_unlink (h : Sound (view s.ramdisk) s.fds) (name : CString) :
    Refines s (outcome s (.unlink name)) (fsUnlink s name).2 := by
  dsimp only [outcome]
  obtain ⟨heq, -⟩ | ⟨d, i, hd, hname, hdi, ⟨heq, -⟩ | ⟨hclosed, m, heq, hview⟩⟩ :=
    fsUnlink_cases h name
  · rw [heq]
    exact .failed h
  · rw [heq]
    exact .failed h
  · rw [heq]
    have hclosed' : ∀ n, n < 32 → (s.fds n).used ≠ 0 → (s.fds n).inode ≠ i :=
      fun n hn hu => hclosed n ⟨hn, hu⟩
    refine .succeeded ?_ ?_
    · rw [hview]
      exact h.unlink hd hdi hclosed'
    · rw [FsState.abs, FsState.abs, hview, Tables.abs_unlink h hd hdi hclosed', hname]
      have hself := h.hasFile_of_entry hd
      have hc : s.abs.files name.bytes = some ((view s.ramdisk).content
          ((view s.ramdisk).dirent d).inode) := h.files_of_hasFile (hname ▸ hself)
      refine .unlink hc fun n off hopen => ?_
      obtain ⟨⟨hn, hu⟩, hstr, -⟩ := openFiles_eq_some_iff.mp hopen
      refine hclosed n ⟨hn, hu⟩ ?_
      rw [← hdi]
      exact h.hasFile_unique ⟨(h.fd_sound n hn).file hu, hstr⟩ (hname ▸ hself)

theorem refines_size (h : Sound (view s.ramdisk) s.fds) (fd : Int) :
    Refines s (outcome s (.size fd)) s := by
  dsimp only [outcome]
  obtain ⟨-, hbad⟩ | ⟨n, rfl, hn, heq⟩ := fsSize_cases h fd
  · rw [if_pos (badFd_iff.mpr hbad)]
    exact .failed h
  · rw [if_neg (not_badFd_of_isOpen hn), heq, Int.toNat_natCast, ← Tables.length_content]
    exact .succeeded h (.size (isOpen_abs hn) (files_of_isOpen h hn))

theorem refines_exec (h : Sound (view s.ramdisk) s.fds) (c : Call) :
    Refines s (outcome s c) (exec s c) := by
  cases c with
  | create name => exact refines_create h name
  | «open» name => exact refines_open h name
  | read fd buf count => exact refines_read h fd buf count
  | write fd buf count => exact refines_write h fd buf count
  | close fd => exact refines_close h fd
  | unlink name => exact refines_unlink h name
  | size fd => exact refines_size h fd

end Simulation

/-! ## Runs -/

theorem runCalls_append (s : FsState) (cs cs' : List Call) :
    runCalls s (cs ++ cs') = runCalls (runCalls s cs) cs' :=
  List.foldl_append

/-- Every call keeps the invariant, so every run does. -/
theorem Sound.runCalls {s : FsState} (h : Sound (view s.ramdisk) s.fds) (calls : List Call) :
    Sound (view (Fs.runCalls s calls).ramdisk) (Fs.runCalls s calls).fds := by
  induction calls generalizing s with
  | nil => exact h
  | cons c cs ih => exact ih (refines_exec h c).sound

theorem run_of_sound {s : FsState} (h : Sound (view s.ramdisk) s.fds) (calls : List Call) :
    Run fsLimits s.abs (trace s calls) (runCalls s calls).abs := by
  induction calls generalizing s with
  | nil => exact .nil _
  | cons c cs ih =>
    have hc := refines_exec h c
    have hrest := ih hc.sound
    rw [trace]
    cases ho : outcome s c with
    | none =>
      rw [hc.same ho] at hrest ⊢
      rw [runCalls, List.foldl_cons, hc.same ho]
      exact hrest
    | some e => exact .cons (hc.step e ho) hrest

/-- The invariant in every state that a run reaches. -/
theorem sound_run (s₀ : FsState) (calls : List Call) :
    Sound (view (runCalls (fsInit s₀) calls).ramdisk) (runCalls (fsInit s₀) calls).fds :=
  (sound_fsInit s₀).runCalls calls

end SengOs.Fs
