import Mathlib.Algebra.Order.Ring.Int
import Glidix.Fs.VfsCalls

/-!
# `sys_mv` and its path pointers

`sys_mv` hands its two path pointers to `vfsMove`, which reads the strings there as it reads those of the
kernel.  The other system calls copy a path with `strcpy_u2k` first, which stops at the end of
the user range and at a page that is not mapped.
-/

namespace Glidix.Fs

open Errno

/-! ## Strings of the caller -/

def ADDR_MAX : UInt64 := 0x8000000000

/-- The byte at each address, unless its page is not mapped. -/
abbrev Mapped := UInt64 → Option UInt8

/-- The kernel reads a string: its characters, unless there is a page fault, and the addresses that
were read.  Without a terminator anywhere there is no string either. -/
def readString (mem : Mapped) : (fuel : ℕ) → (addr : UInt64) → Option (List Char) × List UInt64
  | 0, _ => (none, [])
  | fuel + 1, addr =>
    match mem addr with
    | none => (none, [addr])
    | some c =>
      if c = 0 then (some [], [addr])
      else
        let rest := readString mem fuel (addr + 1)
        (rest.1.map (Char.ofNat c.toNat :: ·), addr :: rest.2)

/-- What `strcpy_u2k` copies, unless it returns -1.  Its `count` is never incremented, so that a
string is never too long. -/
def strcpy_u2k (mem : Mapped) : (fuel : ℕ) → (addr : UInt64) → Option (List Char)
  | 0, _ => none
  | fuel + 1, addr =>
    if ADDR_MAX ≤ addr then none
    else
      match mem addr with
      | none => none
      | some c =>
        if c = 0 then some []
        else (strcpy_u2k mem fuel (addr + 1)).map (Char.ofNat c.toNat :: ·)

/-- A string has fewer bytes than there are addresses. -/
def stringFuel : ℕ := 2 ^ 64

/-- What `strcpy_u2k` copies is read without a page fault and below the end of the user range. -/
theorem readString_of_strcpy {mem : Mapped} {fuel : ℕ} {addr : UInt64} {l : List Char}
    (h : strcpy_u2k mem fuel addr = some l) :
    (readString mem fuel addr).1 = some l ∧ ∀ a ∈ (readString mem fuel addr).2, a < ADDR_MAX := by
  induction fuel generalizing addr l with
  | zero => cases h
  | succ fuel ih =>
    rw [strcpy_u2k] at h
    split_ifs at h with hmax
    have hlt : addr < ADDR_MAX := UInt64.not_le.1 hmax
    rw [readString]
    cases hmem : mem addr with
    | none =>
      rw [hmem] at h
      cases h
    | some c =>
      simp only [hmem] at h
      dsimp only
      split_ifs at h ⊢ with hc
      · cases h
        exact ⟨rfl, fun a ha => List.mem_singleton.1 ha ▸ hlt⟩
      · obtain ⟨l', hl', rfl⟩ := Option.map_eq_some_iff.1 h
        obtain ⟨hstring, hreads⟩ := ih hl'
        refine ⟨by rw [hstring]; rfl, fun a ha => ?_⟩
        obtain rfl | ha := List.mem_cons.1 ha
        · exact hlt
        · exact hreads a ha

/-! ## The system call -/

/-- What `ERRNO` is set to. -/
inductive SysError where
  | EBADF
  | EFAULT
  | fs (e : Errno)
  deriving DecidableEq

/-- How `sys_mv` ends: it returns, with an error or without one, or there is a page fault that
nothing catches. -/
inductive MvEnd where
  | returns (error : Option SysError) (s : Vfs)
  | fault

def MvEnd.isFault : MvEnd → Bool
  | .returns _ _ => false
  | .fault => true

def VFS_AT_FDCWD : ℤ := 0xFFFF

namespace Vfs

/-- The file of a descriptor. -/
def ftabGet (s : Vfs) (fd : ℤ) : Option File :=
  if fd < 0 then none else (s.files[fd.toNat]?).join

/-- A reference to the directory that a descriptor stands for; the description is referenced
in between only. -/
def fd2iref (s : Vfs) (c : Caller) (dirfd : ℤ) : Option (Except SysError InodeRef × Vfs) :=
  if dirfd = VFS_AT_FDCWD then (s.vfsGetCurrentDir c).map fun r => (.ok r.1, r.2)
  else
    match s.ftabGet dirfd with
    | none => some (.error .EBADF, s)
    | some fp => do
      let inode ← s.inodes.get fp.iref.inode
      if inode.type ≠ VFS_MODE_DIRECTORY then return (.error (.fs ENOTDIR), s)
      else (s.vfsCopyInodeRef fp.iref).map fun r => (.ok r.1, r.2)

/-- `vfsMove` on the strings at two addresses, with the addresses that are read.  The second string is
read only after the entry of the first was found. -/
def vfsMoveAt (s : Vfs) (mem : Mapped) (c : Caller) (fuel : ℕ) (startold : Option InodeRef)
    (oldpath : UInt64) (startnew : Option InodeRef) (newpath : UInt64) (flags : ℕ) :
    Option (MvEnd × List UInt64) := do
  if flags ≠ 0 ∧ flags ≠ VFS_MV_EXCL then
    let s ← s.vfsUnrefStart startold
    let s ← s.vfsUnrefStart startnew
    return (.returns (some (.fs EINVAL)) s, [])
  else
    let old := readString mem stringFuel oldpath
    match old.1 with
    | none => return (.fault, old.2)
    | some oldstring =>
      match ← vfsGetDentry c fuel s startold oldstring false with
      | (.error e, s) =>
        let s ← s.vfsUnrefStart startnew
        return (.returns (some (.fs e)) s, old.2)
      | (.ok drefOld, s) =>
        let dent ← s.dentry drefOld.dent
        let dir ← s.inodes.get drefOld.dent.1
        if ¬ vfsIsAllowed c dir VFS_ACE_WRITE ∨ dent.temp then
          let s ← s.vfsUnrefDentry drefOld
          let s ← s.vfsUnrefStart startnew
          return (.returns (some (.fs
            (if ¬ vfsIsAllowed c dir VFS_ACE_WRITE then EACCES else EPERM))) s, old.2)
        else
          let new := readString mem stringFuel newpath
          match new.1 with
          | none => return (.fault, old.2 ++ new.2)
          | some newstring =>
            match ← vfsGetDentry c fuel s startnew newstring true with
            | (.error e, s) =>
              let r ← s.failDentry drefOld e
              return (.returns (r.1.map .fs) r.2, old.2 ++ new.2)
            | (.ok drefNew, s) =>
              let r ← s.moveFound c drefOld drefNew flags
              return (.returns (r.1.map .fs) r.2, old.2 ++ new.2)

def sys_mv (s : Vfs) (mem : Mapped) (c : Caller) (fuel : ℕ) (olddirfd : ℤ) (oldpath : UInt64)
    (newdirfd : ℤ) (newpath : UInt64) (flags : ℕ) : Option (MvEnd × List UInt64) := do
  match ← s.fd2iref c olddirfd with
  | (.error e, s) => return (.returns (some e) s, [])
  | (.ok oldstart, s) =>
    match ← s.fd2iref c newdirfd with
    | (.error e, s) =>
      let s ← s.vfsUnrefInode oldstart
      return (.returns (some e) s, [])
    | (.ok newstart, s) =>
      s.vfsMoveAt mem c fuel (some oldstart) oldpath (some newstart) newpath flags

/-! ## With copied strings -/

/-- `sys_mv` with two strings in place of its pointers. -/
def mvStrings (s : Vfs) (c : Caller) (fuel : ℕ) (olddirfd : ℤ) (oldpath : List Char)
    (newdirfd : ℤ) (newpath : List Char) (flags : ℕ) : Option (Option SysError × Vfs) := do
  match ← s.fd2iref c olddirfd with
  | (.error e, s) => return (some e, s)
  | (.ok oldstart, s) =>
    match ← s.fd2iref c newdirfd with
    | (.error e, s) =>
      let s ← s.vfsUnrefInode oldstart
      return (some e, s)
    | (.ok newstart, s) =>
      let r ← s.vfsMove c fuel (some oldstart) oldpath (some newstart) newpath flags
      return (r.1.map .fs, r.2)

section

variable {s : Vfs} {mem : Mapped} {c : Caller} {fuel : ℕ} {olddirfd newdirfd : ℤ}
  {oldpath newpath : UInt64} {flags : ℕ}

/-- `sys_mv` has the effect of `vfsMove` on the strings that `strcpy_u2k` copies, or returns `EFAULT` and
changes nothing when one of them cannot be copied; it reads nothing above the user range. -/
def CopiesPaths (s : Vfs) (mem : Mapped) (c : Caller) (fuel : ℕ) (olddirfd : ℤ) (oldpath : UInt64)
    (newdirfd : ℤ) (newpath : UInt64) (flags : ℕ) : Prop :=
  ∃ reads : List UInt64, (∀ a ∈ reads, a < ADDR_MAX) ∧
    match strcpy_u2k mem stringFuel oldpath, strcpy_u2k mem stringFuel newpath with
    | some old, some new =>
      s.sys_mv mem c fuel olddirfd oldpath newdirfd newpath flags =
        (s.mvStrings c fuel olddirfd old newdirfd new flags).map fun r =>
          (.returns r.1 r.2, reads)
    | _, _ =>
      s.sys_mv mem c fuel olddirfd oldpath newdirfd newpath flags =
        some (.returns (some .EFAULT) s, reads)

variable (s c fuel flags) in
/-- Two strings that can be read are as good as given. -/
theorem vfsMoveAt_of_strings (startold startnew : Option InodeRef) {old new : List Char}
    {oldreads newreads : List UInt64} (hold : readString mem stringFuel oldpath = (some old, oldreads))
    (hnew : readString mem stringFuel newpath = (some new, newreads)) :
    ∃ reads, (∀ a ∈ reads, a ∈ oldreads ∨ a ∈ newreads) ∧
      s.vfsMoveAt mem c fuel startold oldpath startnew newpath flags =
        (s.vfsMove c fuel startold old startnew new flags).map fun r =>
          (.returns (r.1.map .fs) r.2, reads) := by
  unfold vfsMoveAt vfsMove
  split_ifs with hflags
  · refine ⟨[], fun a ha => absurd ha List.not_mem_nil, ?_⟩
    simp only [Option.bind_eq_bind, Option.map_bind, Function.comp_def]
    rfl
  simp only [hold, hnew]
  cases hfound : vfsGetDentry c fuel s startold old false with
  | none => exact ⟨[], fun a ha => absurd ha List.not_mem_nil, rfl⟩
  | some r =>
    obtain ⟨e | drefOld, s⟩ := r
    · refine ⟨oldreads, fun a ha => .inl ha, ?_⟩
      simp only [Option.bind_eq_bind, Option.bind_some, Option.map_bind, Function.comp_def]
      rfl
    simp only [Option.bind_eq_bind, Option.bind_some]
    cases s.dentry drefOld.dent with
    | none => exact ⟨[], fun a ha => absurd ha List.not_mem_nil, rfl⟩
    | some dent =>
      cases s.inodes.get drefOld.dent.1 with
      | none => exact ⟨[], fun a ha => absurd ha List.not_mem_nil, rfl⟩
      | some dir =>
        simp only [Option.bind_some]
        split_ifs with hrefused hallowed
        · refine ⟨oldreads, fun a ha => .inl ha, ?_⟩
          simp only [Option.map_bind, Function.comp_def]
          rfl
        · refine ⟨oldreads, fun a ha => .inl ha, ?_⟩
          simp only [Option.map_bind, Function.comp_def]
          rfl
        · refine ⟨oldreads ++ newreads, fun a ha => List.mem_append.1 ha, ?_⟩
          simp only [Option.map_bind, Function.comp_def]
          congr 1
          funext r
          obtain ⟨e | drefNew, s⟩ := r
          · exact Option.map_eq_bind.symm
          · exact Option.map_eq_bind.symm

variable (s c fuel olddirfd newdirfd flags) in
/-- `sys_mv` on two pointers to strings has the effect that it has on the strings, and reads only these. -/
theorem sys_mv_of_strings {old new : List Char} {oldreads newreads : List UInt64}
    (hold : readString mem stringFuel oldpath = (some old, oldreads))
    (hnew : readString mem stringFuel newpath = (some new, newreads)) :
    ∃ reads, (∀ a ∈ reads, a ∈ oldreads ∨ a ∈ newreads) ∧
      s.sys_mv mem c fuel olddirfd oldpath newdirfd newpath flags =
        (s.mvStrings c fuel olddirfd old newdirfd new flags).map fun r =>
          (.returns r.1 r.2, reads) := by
  have hnone : ∀ a ∈ ([] : List UInt64), a ∈ oldreads ∨ a ∈ newreads := fun a ha =>
    absurd ha List.not_mem_nil
  unfold sys_mv mvStrings
  cases s.fd2iref c olddirfd with
  | none => exact ⟨[], hnone, rfl⟩
  | some r =>
    obtain ⟨e | oldstart, s⟩ := r
    · exact ⟨[], hnone, rfl⟩
    simp only [Option.bind_eq_bind, Option.bind_some]
    cases s.fd2iref c newdirfd with
    | none => exact ⟨[], hnone, rfl⟩
    | some r =>
      obtain ⟨e | newstart, s⟩ := r
      · refine ⟨[], hnone, ?_⟩
        simp only [Option.bind_some, Option.map_bind, Function.comp_def]
        rfl
      obtain ⟨reads, hreads, hmove⟩ := vfsMoveAt_of_strings s c fuel flags (some oldstart)
        (some newstart) hold hnew
      refine ⟨reads, hreads, ?_⟩
      simp only [Option.bind_some, hmove, Option.map_bind, Function.comp_def]
      exact Option.map_eq_bind

theorem fd2iref_ne_efault {dirfd : ℤ} {s' : Vfs} :
    s.fd2iref c dirfd ≠ some (.error .EFAULT, s') := by
  intro h
  unfold fd2iref at h
  split_ifs at h
  · obtain ⟨r, -, he⟩ := Option.map_eq_some_iff.1 h
    cases he
  · split at h
    · cases h
    · obtain ⟨inode, -, h⟩ := Option.bind_eq_some_iff.1 h
      split_ifs at h
      · cases h
      · obtain ⟨r, -, he⟩ := Option.map_eq_some_iff.1 h
        cases he

theorem vfsMoveAt_ne_efault {startold startnew : Option InodeRef} {s' : Vfs} {reads : List UInt64} :
    s.vfsMoveAt mem c fuel startold oldpath startnew newpath flags ≠
      some (.returns (some .EFAULT) s', reads) := by
  intro h
  have hend : ∀ {o : Option (Option Errno × Vfs)} {l : List UInt64},
      (o.bind fun r => some (MvEnd.returns (r.1.map SysError.fs) r.2, l)) ≠
        some (.returns (some .EFAULT) s', reads) := by
    intro o l h
    obtain ⟨⟨e | e, t⟩, -, he⟩ := Option.bind_eq_some_iff.1 h <;> cases he
  unfold vfsMoveAt at h
  split_ifs at h
  · obtain ⟨u, -, h⟩ := Option.bind_eq_some_iff.1 h
    obtain ⟨t, -, h⟩ := Option.bind_eq_some_iff.1 h
    cases h
  dsimp only at h
  split at h
  · cases h
  obtain ⟨⟨e | drefOld, u⟩, -, h⟩ := Option.bind_eq_some_iff.1 h
  · obtain ⟨t, -, h⟩ := Option.bind_eq_some_iff.1 h
    cases h
  obtain ⟨dent, -, h⟩ := Option.bind_eq_some_iff.1 h
  obtain ⟨dir, -, h⟩ := Option.bind_eq_some_iff.1 h
  split_ifs at h
  · obtain ⟨v, -, h⟩ := Option.bind_eq_some_iff.1 h
    obtain ⟨t, -, h⟩ := Option.bind_eq_some_iff.1 h
    cases h
  · obtain ⟨v, -, h⟩ := Option.bind_eq_some_iff.1 h
    obtain ⟨t, -, h⟩ := Option.bind_eq_some_iff.1 h
    cases h
  split at h
  · cases h
  obtain ⟨⟨e | drefNew, t⟩, -, h⟩ := Option.bind_eq_some_iff.1 h
  · exact hend h
  · exact hend h

/-- `sys_mv` does not know the error `EFAULT`. -/
theorem sys_mv_ne_efault {s' : Vfs} {reads : List UInt64} :
    s.sys_mv mem c fuel olddirfd oldpath newdirfd newpath flags ≠
      some (.returns (some .EFAULT) s', reads) := by
  intro h
  unfold sys_mv at h
  obtain ⟨⟨e | oldstart, u⟩, hold, h⟩ := Option.bind_eq_some_iff.1 h
  · cases h
    exact fd2iref_ne_efault hold
  obtain ⟨⟨e | newstart, t⟩, hnew, h⟩ := Option.bind_eq_some_iff.1 h
  · obtain ⟨v, -, h⟩ := Option.bind_eq_some_iff.1 h
    cases h
    exact fd2iref_ne_efault hnew
  · exact vfsMoveAt_ne_efault h

/-- A first path that is not a string in mapped memory ends in a page fault. -/
theorem vfsMoveAt_fault {startold startnew : Option InodeRef}
    (hflags : flags = 0 ∨ flags = VFS_MV_EXCL) (hold : (readString mem stringFuel oldpath).1 = none) :
    s.vfsMoveAt mem c fuel startold oldpath startnew newpath flags =
      some (.fault, (readString mem stringFuel oldpath).2) := by
  unfold vfsMoveAt
  rw [if_neg fun h => hflags.elim h.1 h.2]
  simp only [hold]
  rfl

theorem strings_of_copiesPaths (h : s.CopiesPaths mem c fuel olddirfd oldpath newdirfd newpath flags) :
    (strcpy_u2k mem stringFuel oldpath).isSome ∧ (strcpy_u2k mem stringFuel newpath).isSome := by
  obtain ⟨reads, -, h⟩ := h
  split at h
  · next old new hold hnew =>
    rw [hold, hnew]
    exact ⟨rfl, rfl⟩
  · exact absurd h sys_mv_ne_efault

/-- `sys_mv` treats its paths as the other system calls do exactly if both can be copied. -/
theorem sys_mv_copies_iff : s.CopiesPaths mem c fuel olddirfd oldpath newdirfd newpath flags ↔
    (strcpy_u2k mem stringFuel oldpath).isSome ∧ (strcpy_u2k mem stringFuel newpath).isSome := by
  refine ⟨strings_of_copiesPaths, fun ⟨hold, hnew⟩ => ?_⟩
  obtain ⟨old, hold⟩ := Option.isSome_iff_exists.1 hold
  obtain ⟨new, hnew⟩ := Option.isSome_iff_exists.1 hnew
  obtain ⟨holdstring, holdreads⟩ := readString_of_strcpy hold
  obtain ⟨hnewstring, hnewreads⟩ := readString_of_strcpy hnew
  obtain ⟨reads, hreads, hmv⟩ := sys_mv_of_strings s c fuel olddirfd newdirfd flags
    (Prod.ext holdstring rfl) (Prod.ext hnewstring rfl)
  refine ⟨reads, fun a ha => (hreads a ha).elim (holdreads a) (hnewreads a), ?_⟩
  rw [hold, hnew]
  exact hmv

/-! ## A path in the kernel -/

/-- A string at the start of the upper half of the addresses; nothing else is mapped. -/
def upperString : Mapped := fun a =>
  if a = 0xFFFF800000000000 then some 0x73
  else if a = 0xFFFF800000000001 then some 0
  else none

/-- A process in the root directory. -/
def rootProcess : Vfs :=
  { vfsInit with procs := [⟨⟨kernelRootInode, []⟩, ⟨kernelRootInode, []⟩⟩] }

def user : Caller where
  pid := some 0
  euid := 1000
  egid := 1000
  groups := []
  umask := 0o022
  fsadmin := false
  mount := false
  now := 0

/-- With the address of a string in the kernel, `sys_mv` looks for that string, and with an address that
is not mapped, there is a page fault. -/
theorem sys_mv_trusts_paths :
    ¬ rootProcess.CopiesPaths upperString user 2 VFS_AT_FDCWD 0xFFFF800000000000
        VFS_AT_FDCWD 0xFFFF800000000000 0 ∧
      (rootProcess.sys_mv upperString user 2 VFS_AT_FDCWD 0xFFFF800000000000
        VFS_AT_FDCWD 0xFFFF800000000000 0).map (fun r => (r.1.isFault, r.2)) =
          some (false, [0xFFFF800000000000, 0xFFFF800000000001]) ∧
      (rootProcess.sys_mv upperString user 2 VFS_AT_FDCWD 0x200000 VFS_AT_FDCWD 0x200000 0).map
        (fun r => (r.1.isFault, r.2)) = some (true, [0x200000]) := by
  refine ⟨fun h => ?_, by decide +kernel, by decide +kernel⟩
  have hcopied := (strings_of_copiesPaths h).1
  revert hcopied
  decide +kernel

end

end Vfs

end Glidix.Fs
