import Mathlib.Data.Set.Finite.Basic
import SengOs.Lib.Splice

/-!
# An abstract store of files

A `FileStore` maps names to contents and descriptors to a name and an offset, over any type
of names and of bytes. `Step` is the meaning of the successful operations: what each event
requires of the store before it and what the store is after it. `Limits` are the parameters
of a particular store: which names are allowed, how many descriptors there are and how long
a file may get. `Wf` is kept by every step (`Step.wf`).
-/

namespace SengOs

@[ext] structure FileStore (ν β : Type*) where
  files : ν → Option (List β)
  fds : Nat → Option (ν × Nat)

namespace FileStore

variable {ν β : Type*} [DecidableEq ν]

/-- No file and no open descriptor. -/
def empty : FileStore ν β := ⟨fun _ => none, fun _ => none⟩

def setFile (a : FileStore ν β) (n : ν) (c : Option (List β)) : FileStore ν β :=
  { a with files := Function.update a.files n c }

def setFd (a : FileStore ν β) (fd : Nat) (o : Option (ν × Nat)) : FileStore ν β :=
  { a with fds := Function.update a.fds fd o }

section Updates

variable {a : FileStore ν β} {n k : ν} {c : Option (List β)} {fd j : Nat} {o : Option (ν × Nat)}

theorem setFile_files_self : (a.setFile n c).files n = c := Function.update_self ..

theorem setFile_files_ne (h : k ≠ n) : (a.setFile n c).files k = a.files k :=
  Function.update_of_ne h ..

@[simp] theorem setFile_fds : (a.setFile n c).fds = a.fds := rfl

omit [DecidableEq ν] in
theorem setFd_fds_self : (a.setFd fd o).fds fd = o := Function.update_self ..

omit [DecidableEq ν] in
theorem setFd_fds_ne (h : j ≠ fd) : (a.setFd fd o).fds j = a.fds j := Function.update_of_ne h ..

omit [DecidableEq ν] in
@[simp] theorem setFd_files : (a.setFd fd o).files = a.files := rfl

theorem setFile_of_eq (h : a.files n = c) : a.setFile n c = a := by
  subst h
  exact FileStore.ext (Function.update_eq_self ..) rfl

theorem setFile_setFile (d : Option (List β)) : (a.setFile n c).setFile n d = a.setFile n d :=
  FileStore.ext (Function.update_idem ..) rfl

theorem setFile_setFd : (a.setFd fd o).setFile n c = (a.setFile n c).setFd fd o := rfl

omit [DecidableEq ν] in
theorem setFd_of_eq (h : a.fds fd = o) : a.setFd fd o = a := by
  subst h
  exact FileStore.ext rfl (Function.update_eq_self ..)

omit [DecidableEq ν] in
theorem setFd_setFd (o' : Option (ν × Nat)) : (a.setFd fd o).setFd fd o' = a.setFd fd o' :=
  FileStore.ext rfl (Function.update_idem ..)

end Updates

/-- What a successful operation did, with the values it returned. -/
inductive Event (ν β : Type*) where
  | create (n : ν)
  | open (n : ν) (fd : Nat)
  | read (fd count : Nat) (bytes : List β)
  | write (fd : Nat) (bytes : List β)
  | close (fd : Nat)
  | unlink (n : ν)
  | size (fd len : Nat)

structure Limits (ν : Type*) where
  validName : ν → Prop
  maxFds : Nat
  maxLen : Nat

/-- The meaning of the operations.

* `create` adds an empty file under a new name;
* `open` binds the lowest free descriptor to a file at offset 0;
* `read` returns the bytes from the offset to the end, at most `count` of them, and advances
  its descriptor;
* `write` puts bytes at the offset, within the length limit, and advances its descriptor;
* `close` unbinds a descriptor;
* `unlink` removes a file that no descriptor is bound to;
* `size` returns the length of a descriptor's file. -/
inductive Step (lim : Limits ν) : FileStore ν β → Event ν β → FileStore ν β → Prop
  | create {a : FileStore ν β} {n : ν} : lim.validName n → a.files n = none →
      Step lim a (.create n) (a.setFile n (some []))
  | open {a : FileStore ν β} {n : ν} {c : List β} {fd : Nat} : a.files n = some c →
      fd < lim.maxFds → a.fds fd = none → (∀ k, k < fd → a.fds k ≠ none) →
      Step lim a (.open n fd) (a.setFd fd (some (n, 0)))
  | read {a : FileStore ν β} {fd count : Nat} {n : ν} {off : Nat} {c bytes : List β} :
      a.fds fd = some (n, off) → a.files n = some c → bytes = (c.drop off).take count →
      Step lim a (.read fd count bytes) (a.setFd fd (some (n, off + bytes.length)))
  | write {a : FileStore ν β} {fd : Nat} {bytes : List β} {n : ν} {off : Nat} {c : List β} :
      a.fds fd = some (n, off) → a.files n = some c → off + bytes.length ≤ lim.maxLen →
      Step lim a (.write fd bytes)
        ((a.setFile n (some (splice c off bytes))).setFd fd (some (n, off + bytes.length)))
  | close {a : FileStore ν β} {fd : Nat} : a.fds fd ≠ none →
      Step lim a (.close fd) (a.setFd fd none)
  | unlink {a : FileStore ν β} {n : ν} {c : List β} : a.files n = some c →
      (∀ fd off, a.fds fd ≠ some (n, off)) → Step lim a (.unlink n) (a.setFile n none)
  | size {a : FileStore ν β} {fd : Nat} {n : ν} {off : Nat} {c : List β} :
      a.fds fd = some (n, off) → a.files n = some c → Step lim a (.size fd c.length) a

/-- Finitely many files with allowed names and lengths; every descriptor in use is on a
file, at an offset within it. -/
structure Wf (lim : Limits ν) (a : FileStore ν β) : Prop where
  name_valid : ∀ n c, a.files n = some c → lim.validName n
  length_le : ∀ n c, a.files n = some c → c.length ≤ lim.maxLen
  fd_lt : ∀ fd o, a.fds fd = some o → fd < lim.maxFds
  fd_file : ∀ fd n off, a.fds fd = some (n, off) → ∃ c, a.files n = some c ∧ off ≤ c.length
  finite : {n | a.files n ≠ none}.Finite

section Wf

variable {lim : Limits ν} {a : FileStore ν β}

omit [DecidableEq ν] in
theorem Wf.empty : Wf lim (FileStore.empty : FileStore ν β) where
  name_valid _ _ h := nomatch h
  length_le _ _ h := nomatch h
  fd_lt _ _ h := nomatch h
  fd_file _ _ _ h := nomatch h
  finite := by simp [FileStore.empty]

/-- Replacing the content of one file by one that is long enough for its descriptors. -/
theorem Wf.setFile (h : Wf lim a) {n : ν} {c : List β} (hn : lim.validName n)
    (hc : c.length ≤ lim.maxLen) (hoff : ∀ fd off, a.fds fd = some (n, off) → off ≤ c.length) :
    Wf lim (a.setFile n (some c)) where
  name_valid k d hk := by
    by_cases hkn : k = n
    · rwa [hkn]
    · exact h.name_valid k d (by rwa [setFile_files_ne hkn] at hk)
  length_le k d hk := by
    by_cases hkn : k = n
    · subst hkn
      rw [setFile_files_self] at hk
      cases hk
      exact hc
    · exact h.length_le k d (by rwa [setFile_files_ne hkn] at hk)
  fd_lt := h.fd_lt
  fd_file fd k off hk := by
    by_cases hkn : k = n
    · subst hkn
      exact ⟨c, setFile_files_self, hoff fd off hk⟩
    · obtain ⟨d, hd, hle⟩ := h.fd_file fd k off hk
      exact ⟨d, (setFile_files_ne hkn).trans hd, hle⟩
  finite := by
    refine (h.finite.insert n).subset fun k hk => ?_
    by_cases hkn : k = n
    · exact Or.inl hkn
    · refine Or.inr fun hnone => hk ?_
      rwa [setFile_files_ne hkn]

theorem Wf.removeFile (h : Wf lim a) {n : ν} (hfree : ∀ fd off, a.fds fd ≠ some (n, off)) :
    Wf lim (a.setFile n none) := by
  have hold : ∀ k d, (a.setFile n none).files k = some d → k ≠ n ∧ a.files k = some d := by
    intro k d hk
    by_cases hkn : k = n
    · subst hkn
      rw [setFile_files_self] at hk
      cases hk
    · exact ⟨hkn, by rwa [setFile_files_ne hkn] at hk⟩
  refine ⟨fun k d hk => h.name_valid k d (hold k d hk).2,
    fun k d hk => h.length_le k d (hold k d hk).2, h.fd_lt, fun fd k off hk => ?_, ?_⟩
  · have hkn : k ≠ n := fun hkn => hfree fd off (hkn ▸ hk)
    obtain ⟨d, hd, hle⟩ := h.fd_file fd k off hk
    exact ⟨d, (setFile_files_ne hkn).trans hd, hle⟩
  · refine h.finite.subset fun k hk => ?_
    obtain ⟨d, hd⟩ := Option.ne_none_iff_exists'.mp hk
    exact fun hnone => nomatch hnone.symm.trans (hold k d hd).2

omit [DecidableEq ν] in
theorem Wf.setFd (h : Wf lim a) {fd : Nat} {n : ν} {off : Nat} {c : List β}
    (hfd : fd < lim.maxFds) (hn : a.files n = some c) (hoff : off ≤ c.length) :
    Wf lim (a.setFd fd (some (n, off))) where
  name_valid := h.name_valid
  length_le := h.length_le
  fd_lt k o hk := by
    by_cases hkf : k = fd
    · rwa [hkf]
    · exact h.fd_lt k o (by rwa [setFd_fds_ne hkf] at hk)
  fd_file k m p hk := by
    by_cases hkf : k = fd
    · subst hkf
      rw [setFd_fds_self] at hk
      cases hk
      exact ⟨c, hn, hoff⟩
    · exact h.fd_file k m p (by rwa [setFd_fds_ne hkf] at hk)
  finite := h.finite

omit [DecidableEq ν] in
theorem Wf.closeFd (h : Wf lim a) (fd : Nat) : Wf lim (a.setFd fd none) := by
  have hold : ∀ k o, (a.setFd fd none).fds k = some o → a.fds k = some o := by
    intro k o hk
    by_cases hkf : k = fd
    · subst hkf
      rw [setFd_fds_self] at hk
      cases hk
    · rwa [setFd_fds_ne hkf] at hk
  exact ⟨h.name_valid, h.length_le, fun k o hk => h.fd_lt k o (hold k o hk),
    fun k m p hk => h.fd_file k m p (hold k _ hk), h.finite⟩

/-- Every operation keeps the store well formed. -/
theorem Step.wf {a' : FileStore ν β} {e : Event ν β} (hs : Step lim a e a') (h : Wf lim a) :
    Wf lim a' := by
  cases hs with
  | create hn hnone =>
    refine h.setFile hn (Nat.zero_le _) fun fd off hfd => ?_
    obtain ⟨c, hc, -⟩ := h.fd_file fd _ off hfd
    exact nomatch hnone.symm.trans hc
  | «open» hc hfd _ _ => exact h.setFd hfd hc (Nat.zero_le _)
  | @read fd count n off c bytes hfd hc hbytes =>
    obtain ⟨c', hc', hle⟩ := h.fd_file fd n off hfd
    cases hc.symm.trans hc'
    refine h.setFd (h.fd_lt fd _ hfd) hc ?_
    rw [hbytes, List.length_take, List.length_drop]
    omega
  | @write fd bytes n off c hfd hc hlen =>
    obtain ⟨c', hc', hle⟩ := h.fd_file fd n off hfd
    cases hc.symm.trans hc'
    have hsplice := length_splice hle bytes
    have hold := h.length_le n c hc
    refine (h.setFile (h.name_valid n c hc) (by omega) fun fd' off' hfd' => ?_).setFd
      (h.fd_lt fd _ hfd) setFile_files_self (by omega)
    obtain ⟨c', hc', hle'⟩ := h.fd_file fd' n off' hfd'
    cases hc.symm.trans hc'
    omega
  | close _ => exact h.closeFd _
  | unlink _ hfree => exact h.removeFile hfree
  | size _ _ => exact h

end Wf

/-- A descriptor stays on its file until it is closed. -/
theorem Step.fds_name {lim : Limits ν} {a a' : FileStore ν β} {e : Event ν β} {fd off : Nat}
    {n : ν} (h : Step lim a e a') (he : e ≠ .close fd) (hfd : a.fds fd = some (n, off)) :
    ∃ off', a'.fds fd = some (n, off') := by
  cases h with
  | create _ _ => exact ⟨off, hfd⟩
  | @«open» _ _ fd' _ _ hfree _ =>
    have hne : fd ≠ fd' := by
      rintro rfl
      exact nomatch hfree.symm.trans hfd
    exact ⟨off, by rwa [setFd_fds_ne hne]⟩
  | @read fd' _ n' off' _ _ hfd' _ _ =>
    by_cases hne : fd = fd'
    · subst hne
      cases hfd.symm.trans hfd'
      exact ⟨_, setFd_fds_self⟩
    · exact ⟨off, by rwa [setFd_fds_ne hne]⟩
  | @write fd' _ n' off' _ hfd' _ _ =>
    by_cases hne : fd = fd'
    · subst hne
      cases hfd.symm.trans hfd'
      exact ⟨_, setFd_fds_self⟩
    · exact ⟨off, by rwa [setFd_fds_ne hne, setFile_fds]⟩
  | @close fd' _ =>
    have hne : fd ≠ fd' := fun hne => he (hne ▸ rfl)
    exact ⟨off, by rwa [setFd_fds_ne hne]⟩
  | unlink _ _ => exact ⟨off, hfd⟩
  | size _ _ => exact ⟨off, hfd⟩

section Inversion

variable {lim : Limits ν} {a a' : FileStore ν β} {n : ν}

theorem Step.eq_of_create (h : Step lim a (.create n) a') : a' = a.setFile n (some []) := by
  cases h with
  | create _ _ => rfl

theorem Step.eq_of_unlink (h : Step lim a (.unlink n) a') : a' = a.setFile n none := by
  cases h with
  | unlink _ _ => rfl

theorem Step.eq_of_write {fd off : Nat} {c bytes : List β} (h : Step lim a (.write fd bytes) a')
    (hfd : a.fds fd = some (n, off)) (hn : a.files n = some c) :
    a' = (a.setFile n (some (splice c off bytes))).setFd fd (some (n, off + bytes.length)) := by
  cases h with
  | write hfd' hn' _ =>
    cases hfd.symm.trans hfd'
    cases hn.symm.trans hn'
    rfl

end Inversion

section Write

variable {lim : Limits ν} {a a' a'' : FileStore ν β} {fd : Nat}

/-- Writing nothing is a write. -/
theorem Step.write_nil {n : ν} {off : Nat} {c : List β} (hfd : a.fds fd = some (n, off))
    (hn : a.files n = some c) (hoff : off ≤ lim.maxLen) : Step lim a (.write fd []) a := by
  have hself : (a.setFile n (some (splice c off []))).setFd fd
      (some (n, off + ([] : List β).length)) = a := by
    rw [splice_nil, setFile_of_eq hn]
    exact setFd_of_eq hfd
  have hs : Step lim a (.write fd []) _ := .write hfd hn hoff
  rwa [hself] at hs

/-- Two writes in sequence through one descriptor are one write. -/
theorem Step.write_append (h : Wf lim a) {xs ys : List β} (hx : Step lim a (.write fd xs) a')
    (hy : Step lim a' (.write fd ys) a'') : Step lim a (.write fd (xs ++ ys)) a'' := by
  cases hx with
  | @write _ _ n off c hfd hn hlen =>
    cases hy with
    | @write _ _ n' off' c' hfd' hn' hlen' =>
      obtain ⟨d, hd, hle⟩ := h.fd_file fd n off hfd
      cases hn.symm.trans hd
      rw [setFd_fds_self] at hfd'
      cases hfd'
      rw [setFd_files, setFile_files_self] at hn'
      cases hn'
      rw [setFile_setFd, setFd_setFd, setFile_setFile, splice_splice hle]
      have hlength : off + (xs ++ ys).length = off + xs.length + ys.length := by
        rw [List.length_append, Nat.add_assoc]
      rw [← hlength] at hlen' ⊢
      exact Step.write hfd hn hlen'

theorem Step.write_deterministic {xs : List β} (h : Step lim a (.write fd xs) a')
    (h' : Step lim a (.write fd xs) a'') : a' = a'' := by
  cases h with
  | @write _ _ n off c hfd hn hlen =>
    cases h' with
    | @write _ _ n' off' c' hfd' hn' hlen' =>
      cases hfd.symm.trans hfd'
      cases hn.symm.trans hn'
      rfl

end Write

/-- A finite sequence of operations. -/
inductive Run (lim : Limits ν) : FileStore ν β → List (Event ν β) → FileStore ν β → Prop
  | nil (a : FileStore ν β) : Run lim a [] a
  | cons {a a' a'' : FileStore ν β} {e : Event ν β} {es : List (Event ν β)} :
      Step lim a e a' → Run lim a' es a'' → Run lim a (e :: es) a''

theorem Run.append {lim : Limits ν} {a a' a'' : FileStore ν β} {es es' : List (Event ν β)}
    (h : Run lim a es a') (h' : Run lim a' es' a'') : Run lim a (es ++ es') a'' := by
  induction h with
  | nil _ => exact h'
  | cons hs _ ih => exact .cons hs (ih h')

theorem Run.wf {lim : Limits ν} {a a' : FileStore ν β} {es : List (Event ν β)}
    (hr : Run lim a es a') (h : Wf lim a) : Wf lim a' := by
  induction hr with
  | nil _ => exact h
  | cons hs _ ih => exact ih (hs.wf h)

end FileStore

end SengOs
