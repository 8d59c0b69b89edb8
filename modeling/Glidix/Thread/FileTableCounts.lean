import Glidix.Lib.Tally
import Glidix.Thread.FileTable

/-!
# The references to files

The count of references of every file is the number of slots that hold it plus the number of
references in the hands of threads, in every state that the threads reach.  A step panics, or
takes the placeholder of a reserved descriptor for a file, exactly when it forks a table with a
reserved descriptor, or closes on `exec` a reserved descriptor that has the flag `FD_CLOEXEC`.
-/

namespace Glidix.Thread

/-! ## Counting -/

def FilePtr.refs (f : ℕ) (fp : FilePtr) : ℕ := fp.toList.count f

/-- The slots of a table that hold a file. -/
def FileTable.refs (f : ℕ) (ftab : FileTable) : ℕ := tally (fun slot => slot.fp.refs f) ftab.list

/-- The references in the hands of a thread. -/
def FtabThread.refs (f : ℕ) (thread : FtabThread) : ℕ := thread.hand.count f

/-- Whether a slot is reserved, as a number. -/
def FileTable.reserved (ftab : FileTable) (i : ℕ) : ℕ := if ftab.fp i = .reserve then 1 else 0

def FtabThread.uses (t : ℕ) (thread : FtabThread) : ℕ := if thread.ftab = some t then 1 else 0

/-- How many times a thread has reserved a descriptor of a table. -/
def FtabThread.owns (t i : ℕ) (thread : FtabThread) : ℕ :=
  if thread.ftab = some t then thread.reserved.count i else 0

namespace FtabState

variable (s : FtabState)

/-- The references to a file. -/
def refs (f : ℕ) : ℕ := tally (FileTable.refs f) s.tables + tally (FtabThread.refs f) s.threads

def users (t : ℕ) : ℕ := tally (FtabThread.uses t) s.threads

def owners (t i : ℕ) : ℕ := tally (FtabThread.owns t i) s.threads

/-- Every count of references is exact, and has reached zero once if there are none. -/
def RefcountsExact : Prop :=
  ∀ f file, s.files[f]? = some file →
    file.refcount = (s.refs f : ℤ) ∧ file.destroyed = if s.refs f = 0 then 1 else 0

/-- A step does not fork a table with a reserved descriptor, and does not close on `exec` a reserved
descriptor. -/
def NoPlaceholder : FtabOp → Prop
  | .ftabDup tid => ∀ thread t ftab, s.table tid = some (thread, t, ftab) →
      ∀ slot ∈ ftab.list, slot.fp ≠ .reserve
  | .ftabCloseOnExec tid => ∀ thread t ftab, s.table tid = some (thread, t, ftab) →
      ∀ slot ∈ ftab.list, slot.fp = .reserve → slot.flags &&& FD_CLOEXEC = 0
  | _ => True

end FtabState

/-! ## Files -/

/-- The counts of the files are those of a number of references. -/
structure FilesExact (files : List File) (refs : ℕ → ℕ) : Prop where
  exact : ∀ f file, files[f]? = some file →
    file.refcount = (refs f : ℤ) ∧ file.destroyed = if refs f = 0 then 1 else 0
  bound : ∀ f, files.length ≤ f → refs f = 0

section Files

variable {files files' : List File} {refs refs' : ℕ → ℕ} {f : ℕ} {fp : FilePtr}

theorem FilesExact.congr (h : FilesExact files refs) (he : ∀ g, refs' g = refs g) :
    FilesExact files refs' := by
  rwa [show refs' = refs from funext he]

/-- One more reference to a file that has one. -/
theorem FilesExact.vfsDup (h : FilesExact files refs) (hf : refs f ≠ 0)
    (he : ∀ g, refs' g = refs g + fp.refs g) (hp : fp = .file f)
    (hd : vfsDup files fp = some files') : FilesExact files' refs' := by
  subst hp
  cases hd
  refine ⟨fun g file hg => ?_, fun g hg => ?_⟩
  · rw [he]
    by_cases hgf : f = g
    · subst hgf
      rw [List.getElem?_modify_eq] at hg
      obtain ⟨old, hold, rfl⟩ := Option.map_eq_some_iff.1 hg
      obtain ⟨hcount, hdestroyed⟩ := h.exact f old hold
      simp [FilePtr.refs, FilePtr.toList, hcount, hdestroyed, hf]
    · rw [List.getElem?_modify_ne _ _ hgf] at hg
      simpa [FilePtr.refs, FilePtr.toList, hgf] using h.exact g file hg
  · rw [List.length_modify] at hg
    have hgf : f ≠ g := fun heq => hf (heq ▸ h.bound g hg)
    simp [he, FilePtr.refs, FilePtr.toList, hgf, h.bound g hg]

/-- One reference less. -/
theorem FilesExact.vfsClose (h : FilesExact files refs) (he : ∀ g, refs g = refs' g + fp.refs g)
    (hd : vfsClose files fp = some files') : FilesExact files' refs' := by
  cases fp with
  | null => cases hd
  | reserve => cases hd
  | file f =>
    cases hd
    have hf : refs f = refs' f + 1 := by simp [he, FilePtr.refs, FilePtr.toList]
    refine ⟨fun g file hg => ?_, fun g hg => ?_⟩
    · by_cases hgf : f = g
      · subst hgf
        rw [List.getElem?_modify_eq] at hg
        obtain ⟨old, hold, rfl⟩ := Option.map_eq_some_iff.1 hg
        obtain ⟨hcount, hdestroyed⟩ := h.exact f old hold
        rw [hf] at hcount hdestroyed
        have hless : old.refcount - 1 = refs' f := by omega
        by_cases hzero : refs' f = 0
        · simp [hless, hzero, hdestroyed]
        · simp [hless, hzero, hdestroyed]
      · rw [List.getElem?_modify_ne _ _ hgf] at hg
        have hg' : refs g = refs' g := by simp [he, FilePtr.refs, FilePtr.toList, hgf]
        rw [← hg']
        exact h.exact g file hg
    · rw [List.length_modify] at hg
      have := h.bound g hg
      have := he g
      omega

/-- A new file with one reference. -/
theorem FilesExact.append (h : FilesExact files refs)
    (he : ∀ g, refs' g = refs g + if files.length = g then 1 else 0) :
    FilesExact (files ++ [⟨1, 0⟩]) refs' := by
  refine ⟨fun g file hg => ?_, fun g hg => ?_⟩
  · rw [he]
    rcases Nat.lt_trichotomy g files.length with hlt | rfl | hgt
    · rw [List.getElem?_append_left hlt] at hg
      rw [if_neg (by omega), Nat.add_zero]
      exact h.exact g file hg
    · rw [List.getElem?_concat_length] at hg
      obtain rfl : ⟨1, 0⟩ = file := Option.some.inj hg
      rw [h.bound _ le_rfl, if_pos rfl]
      exact ⟨rfl, rfl⟩
    · rw [List.getElem?_eq_none (by simp only [List.length_append, List.length_singleton]; omega)] at hg
      cases hg
  · rw [List.length_append, List.length_singleton] at hg
    rw [he, h.bound g (by omega), if_neg (by omega)]

end Files

/-! ## Tables -/

section Tables

variable {ftab ftab' : FileTable} {i : ℕ} {fp : FilePtr} {flags : Int32}

theorem FileTable.fp_eq {p : FilePtr} (h : ftab.fp i = p) (hp : p ≠ .null) :
    ∃ flags, ftab.list[i]? = some ⟨p, flags⟩ := by
  cases hs : ftab.list[i]? with
  | none => exact absurd (h.symm.trans (by simp [FileTable.fp, hs])) hp
  | some slot =>
    have hslot : slot.fp = p := by simpa [FileTable.fp, hs] using h
    exact ⟨slot.flags, by rw [← hslot]⟩

theorem FileTable.getElem?_of_lt (h : i < ftab.list.length) :
    ∃ flags, ftab.list[i]? = some ⟨ftab.fp i, flags⟩ :=
  ⟨ftab.list[i].flags, by simp [FileTable.fp, List.getElem?_eq_getElem h]⟩

/-- Writing a slot changes the references by what was in it. -/
theorem FileTable.refs_put (fp : FilePtr) (flags : Int32) (h : i < ftab.list.length) (f : ℕ) :
    (ftab.put i fp flags).refs f + (ftab.fp i).refs f = ftab.refs f + fp.refs f := by
  obtain ⟨old, hold⟩ := ftab.getElem?_of_lt h
  exact tally_set (p := fun slot : Slot => slot.fp.refs f) hold

theorem FileTable.fp_put (h : i < ftab.list.length) (j : ℕ) :
    (ftab.put i fp flags).fp j = if i = j then fp else ftab.fp j := by
  simp only [FileTable.fp, FileTable.put, List.getElem?_set]
  by_cases hj : i = j
  · subst hj
    simp [h]
  · simp [hj]

/-- Leaving the flags of a slot is writing the old ones. -/
theorem FileTable.putFp_eq (h : i < ftab.list.length) :
    ftab.putFp i fp = ftab.put i fp ftab.list[i].flags := by
  simp only [FileTable.putFp, FileTable.put, List.modify_eq_set_getElem? , List.getElem?_eq_getElem h]
  rfl

theorem FileTable.reserved_put (h : i < ftab.list.length) (j : ℕ) :
    (ftab.put i fp flags).reserved j =
      if i = j then (if fp = .reserve then 1 else 0) else ftab.reserved j := by
  simp only [FileTable.reserved, FileTable.fp_put h]
  by_cases hj : i = j
  · simp only [if_pos hj]
  · simp only [if_neg hj]

end Tables

/-! ## The loops over a table -/

section Slots

variable {files files' : List File} {list list' : List Slot} {refs base : ℕ → ℕ}

theorem isSome_vfsDup (files : List File) {fp : FilePtr} (hfp : fp ≠ .null) :
    (vfsDup files fp).isSome ↔ fp ≠ .reserve := by
  cases fp with
  | null => exact absurd rfl hfp
  | reserve => simp [vfsDup]
  | file f => simp [vfsDup]

theorem isSome_vfsClose (files : List File) {fp : FilePtr} (hfp : fp ≠ .null) :
    (vfsClose files fp).isSome ↔ fp ≠ .reserve := by
  cases fp with
  | null => exact absurd rfl hfp
  | reserve => simp [vfsClose]
  | file f => simp [vfsClose]

/-- The table is forked unless a descriptor of it is reserved. -/
theorem isSome_dupSlots (files : List File) :
    (dupSlots files list).isSome ↔ ∀ slot ∈ list, slot.fp ≠ .reserve := by
  induction list generalizing files with
  | nil => simp [dupSlots]
  | cons slot rest ih =>
    rw [List.forall_mem_cons]
    by_cases hnull : slot.fp = .null
    · simp [dupSlots, hnull, ih]
    · rw [← isSome_vfsDup files hnull]
      cases hd : vfsDup files slot.fp with
      | none => simp [dupSlots, hnull, hd]
      | some files₁ =>
        rw [← ih files₁]
        cases hr : dupSlots files₁ rest with
        | none => simp [dupSlots, hnull, hd, hr]
        | some r => simp [dupSlots, hnull, hd, hr]

/-- The new table holds another reference to every file of the old one. -/
theorem dupSlots_spec (h : FilesExact files refs) (hd : dupSlots files list = some (files', list'))
    (hlive : ∀ slot ∈ list, ∀ f, slot.fp = .file f → refs f ≠ 0) :
    FilesExact files' (fun f => refs f + tally (fun slot => slot.fp.refs f) list') ∧
      list'.length = list.length ∧ ∀ slot ∈ list', slot.fp ≠ .reserve := by
  induction list generalizing files refs list' with
  | nil =>
    cases hd
    exact ⟨h, rfl, by simp⟩
  | cons slot rest ih =>
    rw [List.forall_mem_cons] at hlive
    unfold dupSlots at hd
    by_cases hnull : slot.fp = .null
    · rw [if_neg (not_not_intro hnull)] at hd
      obtain ⟨⟨files₁, list₁⟩, hr, he⟩ := Option.map_eq_some_iff.1 hd
      cases he
      obtain ⟨hfiles, hlen, hres⟩ := ih h hr hlive.2
      refine ⟨hfiles.congr fun f => ?_, by simp [hlen], List.forall_mem_cons.2 ⟨by simp, hres⟩⟩
      simp [FilePtr.refs, FilePtr.toList]
    · rw [if_pos hnull] at hd
      obtain ⟨files₀, hdup, hd⟩ := Option.bind_eq_some_iff.1 hd
      obtain ⟨⟨files₁, list₁⟩, hr, he⟩ := Option.bind_eq_some_iff.1 hd
      cases he
      cases hfp : slot.fp with
      | null => exact absurd hfp hnull
      | reserve =>
        rw [hfp] at hdup
        cases hdup
      | file f =>
        have h₀ : FilesExact files₀ (fun g => refs g + slot.fp.refs g) :=
          h.vfsDup (hlive.1 f hfp) (fun _ => rfl) hfp hdup
        obtain ⟨hfiles, hlen, hres⟩ := ih h₀ hr fun slot' hs g hg hzero =>
          hlive.2 slot' hs g hg (Nat.eq_zero_of_add_eq_zero_right hzero)
        refine ⟨hfiles.congr fun g => ?_, by simp [hlen], List.forall_mem_cons.2 ⟨?_, hres⟩⟩
        · rw [tally_cons, Nat.add_assoc]
        · rw [hfp]
          simp

/-- Closing on `exec` succeeds unless a reserved descriptor has the flag. -/
theorem isSome_closeOnExecSlots (files : List File) :
    (closeOnExecSlots files list).isSome ↔
      ∀ slot ∈ list, slot.fp = .reserve → slot.flags &&& FD_CLOEXEC = 0 := by
  induction list generalizing files with
  | nil => simp [closeOnExecSlots]
  | cons slot rest ih =>
    rw [List.forall_mem_cons]
    by_cases hclose : slot.fp ≠ .null ∧ slot.flags &&& FD_CLOEXEC ≠ 0
    · have hiff : (slot.fp = .reserve → slot.flags &&& FD_CLOEXEC = 0) ↔
          (vfsClose files slot.fp).isSome := by
        rw [isSome_vfsClose files hclose.1]
        exact ⟨fun h hr => hclose.2 (h hr), fun h hr => absurd hr h⟩
      rw [hiff]
      cases hd : vfsClose files slot.fp with
      | none => simp [closeOnExecSlots, hclose, hd]
      | some files₁ =>
        rw [← ih files₁]
        cases hr : closeOnExecSlots files₁ rest with
        | none => simp [closeOnExecSlots, hclose, hd, hr]
        | some r => simp [closeOnExecSlots, hclose, hd, hr]
    · have hkeep : slot.fp = .reserve → slot.flags &&& FD_CLOEXEC = 0 := fun hr =>
        not_not.1 fun hne => hclose ⟨by simp [hr], hne⟩
      rw [closeOnExecSlots, if_neg hclose, Option.isSome_map, ih files]
      exact ⟨fun h => ⟨hkeep, h⟩, fun h => h.2⟩

/-- The files of the slots that are emptied lose a reference. -/
theorem closeOnExecSlots_spec (base : ℕ → ℕ) (h : FilesExact files refs)
    (hd : closeOnExecSlots files list = some (files', list'))
    (he : ∀ f, refs f = base f + tally (fun slot => slot.fp.refs f) list) :
    FilesExact files' (fun f => base f + tally (fun slot => slot.fp.refs f) list') ∧
      list'.length = list.length ∧
      ∀ i n, FileTable.reserved ⟨n, list'⟩ i = FileTable.reserved ⟨n, list⟩ i := by
  induction list generalizing files refs base list' with
  | nil =>
    cases hd
    exact ⟨h.congr fun f => (he f).symm, rfl, fun _ _ => rfl⟩
  | cons slot rest ih =>
    unfold closeOnExecSlots at hd
    by_cases hclose : slot.fp ≠ .null ∧ slot.flags &&& FD_CLOEXEC ≠ 0
    · rw [if_pos hclose] at hd
      obtain ⟨files₀, hvfs, hd⟩ := Option.bind_eq_some_iff.1 hd
      obtain ⟨⟨files₁, list₁⟩, hr, heq⟩ := Option.bind_eq_some_iff.1 hd
      cases heq
      have h₀ : FilesExact files₀ (fun f => base f + tally (fun slot => slot.fp.refs f) rest) :=
        h.vfsClose (fun f => by rw [he, tally_cons]; omega) hvfs
      have hreserve : slot.fp ≠ .reserve := by
        rw [← isSome_vfsClose files hclose.1, hvfs]
        rfl
      obtain ⟨hfiles, hlen, hres⟩ := ih base h₀ hr fun _ => rfl
      refine ⟨hfiles.congr fun f => by simp [FilePtr.refs, FilePtr.toList], by simp [hlen],
        fun i n => ?_⟩
      cases i with
      | zero => simp [FileTable.reserved, FileTable.fp, hreserve]
      | succ i => exact hres i n
    · rw [if_neg hclose] at hd
      obtain ⟨⟨files₁, list₁⟩, hr, heq⟩ := Option.map_eq_some_iff.1 hd
      cases heq
      obtain ⟨hfiles, hlen, hres⟩ :=
        ih (fun f => base f + slot.fp.refs f) h hr fun f => by
          rw [he, tally_cons, Nat.add_assoc]
      refine ⟨hfiles.congr fun f => by rw [tally_cons, Nat.add_assoc], by simp [hlen],
        fun i n => ?_⟩
      cases i with
      | zero => rfl
      | succ i => exact hres i n

theorem downrefSlots_spec {l : List ℕ} (hd : downrefSlots list = some l) (f : ℕ) :
    l.count f = tally (fun slot => slot.fp.refs f) list := by
  induction list generalizing l with
  | nil =>
    cases hd
    rfl
  | cons slot rest ih =>
    unfold downrefSlots at hd
    rw [tally_cons]
    cases hfp : slot.fp with
    | null =>
      simp only [hfp] at hd
      simp [ih hd, FilePtr.refs, FilePtr.toList]
    | reserve =>
      simp only [hfp] at hd
      cases hd
    | file g =>
      simp only [hfp] at hd
      obtain ⟨l, hl, rfl⟩ := Option.map_eq_some_iff.1 hd
      rw [List.count_cons, ih hl]
      simp only [FilePtr.refs, FilePtr.toList, List.count_cons, List.count_nil]
      omega

theorem isSome_downrefSlots :
    (downrefSlots list).isSome ↔ ∀ slot ∈ list, slot.fp ≠ .reserve := by
  induction list with
  | nil => simp [downrefSlots]
  | cons slot rest ih =>
    rw [List.forall_mem_cons, ← ih]
    cases hfp : slot.fp with
    | null => simp [downrefSlots, hfp]
    | reserve => simp [downrefSlots, hfp]
    | file f => simp [downrefSlots, hfp]

end Slots

/-! ## The invariant -/

structure FtabState.Inv (s : FtabState) : Prop where
  files : FilesExact s.files s.refs
  /-- A table counts the threads that use it. -/
  users : ∀ t ftab, s.tables[t]? = some ftab → ftab.refcount = (s.users t : ℤ)
  /-- A reserved descriptor belongs to one thread, and the others to none. -/
  owners : ∀ t ftab, s.tables[t]? = some ftab → ∀ i, s.owners t i = ftab.reserved i
  length : ∀ (t : ℕ) (ftab : FileTable), s.tables[t]? = some ftab → ftab.refcount ≠ 0 →
    ftab.list.length = MAX_OPEN_FILES
  inRange : ∀ thread ∈ s.threads, ∀ t, thread.ftab = some t → t < s.tables.length

section Step

variable {s s' : FtabState} {tid t : ℕ} {thread thread' : FtabThread} {ftab ftab' : FileTable}
  {files : List File}

theorem FtabState.table_eq_some : s.table tid = some (thread, t, ftab) ↔
    s.threads[tid]? = some thread ∧ thread.ftab = some t ∧ s.tables[t]? = some ftab := by
  simp only [FtabState.table, Option.bind_eq_bind, Option.bind_eq_some_iff, Option.some.injEq,
    Prod.mk.injEq]
  constructor
  · rintro ⟨_, hthread, _, ht, _, htab, rfl, rfl, rfl⟩
    exact ⟨hthread, ht, htab⟩
  · rintro ⟨hthread, ht, htab⟩
    exact ⟨_, hthread, _, ht, _, htab, rfl, rfl, rfl⟩

/-- A table that a thread uses has all its slots. -/
theorem FtabState.Inv.length_of_table (h : s.Inv) (ht : s.table tid = some (thread, t, ftab)) :
    ftab.list.length = MAX_OPEN_FILES := by
  obtain ⟨hthread, hft, htab⟩ := FtabState.table_eq_some.1 ht
  refine h.length t ftab htab ?_
  have hle : thread.uses t ≤ s.users t := le_tally (List.mem_of_getElem? hthread)
  rw [FtabThread.uses, if_pos hft] at hle
  have := h.users t ftab htab
  omega

/-- How the references change when a thread has done something with its table. -/
theorem FtabState.refs_update (files : List File) (ftab' : FileTable) (thread' : FtabThread)
    (ht : s.table tid = some (thread, t, ftab)) (f : ℕ) :
    (s.update tid t files ftab' thread').refs f + ftab.refs f + thread.refs f =
      s.refs f + ftab'.refs f + thread'.refs f := by
  obtain ⟨hthread, -, htab⟩ := FtabState.table_eq_some.1 ht
  have h₁ := tally_set (p := FileTable.refs f) (x := ftab') htab
  have h₂ := tally_set (p := FtabThread.refs f) (x := thread') hthread
  simp only [FtabState.refs, FtabState.update]
  omega

theorem FtabState.refs_ftab_le (ht : s.table tid = some (thread, t, ftab)) (f : ℕ) :
    ftab.refs f ≤ s.refs f := by
  obtain ⟨-, -, htab⟩ := FtabState.table_eq_some.1 ht
  exact le_trans (le_tally (List.mem_of_getElem? htab)) (Nat.le_add_right _ _)

/-- A step in which a thread changes its table and itself keeps the invariant when the files count
the references, and the thread has the descriptors that become reserved. -/
theorem FtabState.Inv.update (h : s.Inv) (ht : s.table tid = some (thread, t, ftab))
    (hfiles : FilesExact files (s.update tid t files ftab' thread').refs)
    (hftab : thread'.ftab = some t) (hcount : ftab'.refcount = ftab.refcount)
    (hlen : ftab'.list.length = ftab.list.length)
    (hres : ∀ i, thread'.reserved.count i + ftab.reserved i =
      thread.reserved.count i + ftab'.reserved i) :
    (s.update tid t files ftab' thread').Inv := by
  obtain ⟨hthread, hft, htab⟩ := FtabState.table_eq_some.1 ht
  refine ⟨hfiles, fun u x hu => ?_, fun u x hu i => ?_, fun u x hu hx => ?_,
    fun x hx u hu => ?_⟩
  · have husers : (s.update tid t files ftab' thread').users u = s.users u :=
      tally_set_eq hthread (by rw [FtabThread.uses, FtabThread.uses, hftab, hft])
    rw [husers]
    rcases getElem?_set_cases hu with ⟨rfl, rfl⟩ | ⟨-, hu⟩
    · rw [hcount]
      exact h.users _ _ htab
    · exact h.users u x hu
  · have hset := tally_set (p := FtabThread.owns u i) (x := thread') hthread
    simp only [FtabThread.owns, hftab, hft, Option.some.injEq] at hset
    have howners : (s.update tid t files ftab' thread').owners u i =
        tally (FtabThread.owns u i) (s.threads.set tid thread') := rfl
    rcases getElem?_set_cases hu with ⟨rfl, rfl⟩ | ⟨hut, hu⟩
    · have hold := h.owners _ _ htab i
      have hi := hres i
      simp only [if_true] at hset
      simp only [FtabState.owners] at hold
      simp only [howners]
      omega
    · have hold := h.owners u x hu i
      simp only [if_neg (Ne.symm hut), Nat.add_zero] at hset
      simp only [FtabState.owners] at hold
      simp only [howners]
      omega
  · rcases getElem?_set_cases hu with ⟨rfl, rfl⟩ | ⟨-, hu⟩
    · rw [hlen]
      exact h.length _ _ htab (hcount ▸ hx)
    · exact h.length u x hu hx
  · show u < (s.tables.set t ftab').length
    rw [List.length_set]
    rcases List.mem_or_eq_of_mem_set hx with hx | rfl
    · exact h.inRange x hx u hu
    · obtain rfl : t = u := Option.some.inj (hftab.symm.trans hu)
      exact h.inRange thread (List.mem_of_getElem? hthread) _ hft

/-- Such a step when the files stay as they are. -/
theorem FtabState.Inv.update_same (h : s.Inv) (ht : s.table tid = some (thread, t, ftab))
    (hrefs : ∀ f, ftab'.refs f + thread'.refs f = ftab.refs f + thread.refs f)
    (hftab : thread'.ftab = some t) (hcount : ftab'.refcount = ftab.refcount)
    (hlen : ftab'.list.length = ftab.list.length)
    (hres : ∀ i, thread'.reserved.count i + ftab.reserved i =
      thread.reserved.count i + ftab'.reserved i) :
    (s.update tid t s.files ftab' thread').Inv := by
  refine h.update ht (h.files.congr fun f => ?_) hftab hcount hlen hres
  have := FtabState.refs_update s.files ftab' thread' ht f
  have := hrefs f
  omega

/-- Writing a slot by a thread that takes over what the slot held, for what it gives. -/
theorem FtabState.Inv.put {i : ℕ} {fp : FilePtr} {flags : Int32} (h : s.Inv)
    (ht : s.table tid = some (thread, t, ftab)) (hi : i < ftab.list.length)
    (hrefs : ∀ f, thread'.refs f + fp.refs f = thread.refs f + (ftab.fp i).refs f)
    (hftab : thread'.ftab = some t)
    (hres : ∀ j, thread'.reserved.count j + (if i = j then ftab.reserved i else 0) =
      thread.reserved.count j + if i = j then (if fp = .reserve then 1 else 0) else 0) :
    (s.update tid t s.files (ftab.put i fp flags) thread').Inv := by
  refine h.update_same ht (fun f => ?_) hftab rfl (List.length_set ..) fun j => ?_
  · have := ftab.refs_put fp flags hi f
    have := hrefs f
    omega
  · have hj := hres j
    rw [FileTable.reserved_put hi]
    by_cases hij : i = j
    · subst hij
      simpa using hj
    · simp only [if_neg hij] at hj ⊢
      omega

theorem fdIndex_lt {fd : Int32} {i : ℕ} (h : fdIndex fd = some i) : i < MAX_OPEN_FILES := by
  unfold fdIndex at h
  by_cases hfd : fd < 0 ∨ fd ≥ Int32.ofNat MAX_OPEN_FILES
  · rw [if_pos hfd] at h
    cases h
  · rw [if_neg hfd, Option.some.injEq] at h
    rw [not_or, Int32.lt_iff_toInt_lt, ge_iff_le, Int32.le_iff_toInt_le, Int32.toInt_zero] at hfd
    have hmax : (Int32.ofNat MAX_OPEN_FILES).toInt = 256 := rfl
    rw [hmax] at hfd
    unfold MAX_OPEN_FILES
    omega

/-! ## The steps -/

theorem FtabState.Inv.alloc (h : s.Inv) (hs : s.exec (.ftabAlloc tid) = some s') : s'.Inv := by
  obtain ⟨⟨thread, t, ftab⟩, ht, hs⟩ := Option.bind_eq_some_iff.1 hs
  obtain ⟨-, hft, -⟩ := FtabState.table_eq_some.1 ht
  cases hs
  cases hfind : ftab.list.findIdx? (·.fp = .null) with
  | none =>
    simp only
    exact h.update_same ht (fun _ => rfl) hft rfl rfl fun _ => rfl
  | some i =>
    obtain ⟨hi, hnull, -⟩ := List.findIdx?_eq_some_iff_getElem.1 hfind
    have hfp : ftab.fp i = .null := by
      simpa [FileTable.fp, List.getElem?_eq_getElem hi] using hnull
    simp only [FileTable.putFp_eq hi]
    refine h.put ht hi (fun f => ?_) hft fun j => ?_
    · rw [hfp]
      rfl
    · simp only [Option.toList_some, List.singleton_append, List.count_cons, FileTable.reserved, hfp]
      by_cases hij : i = j
      · simp [hij]
      · simp [hij]

theorem FtabState.Inv.set {i : ℕ} {file : Option ℕ} {flags : Int32} (h : s.Inv)
    (he : s.Enabled (.ftabSet tid i file flags))
    (hs : s.exec (.ftabSet tid i file flags) = some s') : s'.Inv := by
  obtain ⟨⟨thread, t, ftab⟩, ht, hi, hfile⟩ := he
  simp only at hi hfile
  obtain ⟨⟨_, _, _⟩, ht', hs⟩ := Option.bind_eq_some_iff.1 hs
  cases ht.symm.trans ht'
  obtain ⟨ftab', hset, hs⟩ := Option.bind_eq_some_iff.1 hs
  obtain ⟨-, hft, -⟩ := FtabState.table_eq_some.1 ht
  cases hs
  unfold ftabSet at hset
  by_cases hreserve : ftab.fp i = .reserve
  · rw [if_neg (not_not_intro hreserve)] at hset
    cases hset
    obtain ⟨_, hslot⟩ := FileTable.fp_eq hreserve (by decide)
    refine h.put ht (List.getElem?_eq_some_iff.1 hslot).1 (fun f => ?_) hft fun j => ?_
    · rw [hreserve]
      cases file with
      | none => rfl
      | some g =>
        simpa [FtabThread.refs, FilePtr.refs, FilePtr.toList, FilePtr.ofOption] using
          (count_erase_add (hfile g rfl) f).symm
    · have hpos := List.count_pos_iff.2 hi
      simp only [List.count_erase, FileTable.reserved, hreserve, if_true]
      by_cases hij : i = j
      · subst hij
        cases file <;> simp [FilePtr.ofOption] <;> omega
      · simp [hij]
  · rw [if_pos hreserve] at hset
    cases hset

theorem FtabState.Inv.open (h : s.Inv) (hs : s.exec (.vfsOpen tid) = some s') : s'.Inv := by
  obtain ⟨⟨thread, t, ftab⟩, ht, hs⟩ := Option.bind_eq_some_iff.1 hs
  obtain ⟨-, hft, -⟩ := FtabState.table_eq_some.1 ht
  cases hs
  refine h.update ht (h.files.append fun f => ?_) hft rfl rfl fun _ => rfl
  have hrefs := FtabState.refs_update (s.files ++ [⟨1, 0⟩]) ftab
    ({ thread with hand := s.files.length :: thread.hand }) ht f
  have hhand : FtabThread.refs f { thread with hand := s.files.length :: thread.hand } =
      thread.refs f + if s.files.length = f then 1 else 0 := by
    simp [FtabThread.refs, List.count_cons]
  omega

theorem FtabState.Inv.get {fd : Int32} (h : s.Inv) (hs : s.exec (.ftabGet tid fd) = some s') :
    s'.Inv := by
  obtain ⟨⟨thread, t, ftab⟩, ht, hs⟩ := Option.bind_eq_some_iff.1 hs
  obtain ⟨⟨files, fp⟩, hget, hs⟩ := Option.bind_eq_some_iff.1 hs
  obtain ⟨-, hft, -⟩ := FtabState.table_eq_some.1 ht
  cases hs
  unfold ftabGet at hget
  cases hfd : fdIndex fd with
  | none =>
    simp only [hfd] at hget
    cases hget
    exact h.update_same ht (fun _ => rfl) hft rfl rfl fun _ => rfl
  | some i =>
    simp only [hfd] at hget
    by_cases hnone : ftab.fp i = .null ∨ ftab.fp i = .reserve
    · rw [if_pos hnone] at hget
      cases hget
      exact h.update_same ht (fun _ => rfl) hft rfl rfl fun _ => rfl
    · rw [if_neg hnone] at hget
      obtain ⟨files', hdup, he⟩ := Option.map_eq_some_iff.1 hget
      cases he
      cases hfp : ftab.fp i with
      | null => exact absurd (Or.inl hfp) hnone
      | reserve => exact absurd (Or.inr hfp) hnone
      | file f =>
        rw [hfp] at hdup
        obtain ⟨_, hslot⟩ := FileTable.fp_eq hfp (by simp)
        have hlive : s.refs f ≠ 0 := by
          have hle : (FilePtr.file f).refs f ≤ ftab.refs f :=
            le_tally (p := fun slot : Slot => slot.fp.refs f) (List.mem_of_getElem? hslot)
          have := FtabState.refs_ftab_le ht f
          simp only [FilePtr.refs, FilePtr.toList, List.count_cons_self, List.count_nil] at hle
          omega
        refine h.update ht (h.files.vfsDup hlive (fun g => ?_) rfl hdup) hft rfl rfl fun _ => rfl
        have hrefs := FtabState.refs_update files ftab
          ({ thread with hand := (FilePtr.file f).toList ++ thread.hand }) ht g
        simp only [FtabThread.refs, List.count_append] at hrefs
        simp only [FilePtr.refs]
        omega

theorem FtabState.Inv.close {fd : Int32} (h : s.Inv) (hs : s.exec (.ftabClose tid fd) = some s') :
    s'.Inv := by
  obtain ⟨⟨thread, t, ftab⟩, ht, hs⟩ := Option.bind_eq_some_iff.1 hs
  obtain ⟨-, hft, -⟩ := FtabState.table_eq_some.1 ht
  cases hs
  cases hfd : fdIndex fd with
  | none =>
    simp only
    exact h.update_same ht (fun _ => rfl) hft rfl rfl fun _ => rfl
  | some i =>
    simp only
    by_cases hreserve : ftab.fp i = .reserve
    · simp only [if_pos hreserve]
      exact h.update_same ht (fun _ => rfl) hft rfl rfl fun _ => rfl
    · have hi : i < ftab.list.length := h.length_of_table ht ▸ fdIndex_lt hfd
      simp only [if_neg hreserve, FileTable.putFp_eq hi]
      refine h.put ht hi (fun f => ?_) hft fun j => ?_
      · simp only [FtabThread.refs, FilePtr.refs, List.count_append]
        simp only [FilePtr.toList, List.count_nil]
        omega
      · simp [FileTable.reserved, hreserve]

theorem FtabState.Inv.ftabPut {fd flags : Int32} {file : ℕ} (h : s.Inv)
    (he : s.Enabled (.ftabPut tid fd file flags))
    (hs : s.exec (.ftabPut tid fd file flags) = some s') : s'.Inv := by
  obtain ⟨⟨thread, t, ftab⟩, ht, hfile⟩ := he
  simp only at hfile
  obtain ⟨⟨_, _, _⟩, ht', hs⟩ := Option.bind_eq_some_iff.1 hs
  cases ht.symm.trans ht'
  obtain ⟨-, hft, -⟩ := FtabState.table_eq_some.1 ht
  cases hs
  cases hfd : fdIndex fd with
  | none =>
    simp only
    exact h.update_same ht (fun _ => rfl) hft rfl rfl fun _ => rfl
  | some i =>
    simp only
    by_cases hreserve : ftab.fp i = .reserve
    · simp only [if_pos hreserve]
      exact h.update_same ht (fun _ => rfl) hft rfl rfl fun _ => rfl
    · have hi : i < ftab.list.length := h.length_of_table ht ▸ fdIndex_lt hfd
      simp only [if_neg hreserve]
      refine h.put ht hi (fun f => ?_) hft fun j => ?_
      · have hcount := count_erase_add hfile f
        simp only [FtabThread.refs, FilePtr.refs, if_true, List.count_append]
        simp only [FilePtr.toList]
        omega
      · simp [FileTable.reserved, hreserve]

theorem FtabState.Inv.setFlags {fd flags : Int32} (h : s.Inv)
    (hs : s.exec (.ftabSetFlags tid fd flags) = some s') : s'.Inv := by
  obtain ⟨⟨thread, t, ftab⟩, ht, hs⟩ := Option.bind_eq_some_iff.1 hs
  obtain ⟨-, hft, -⟩ := FtabState.table_eq_some.1 ht
  cases hs
  cases hfd : fdIndex fd with
  | none =>
    simp only [ftabSetFlags, hfd]
    exact h.update_same ht (fun _ => rfl) hft rfl rfl fun _ => rfl
  | some i =>
    have hi : i < ftab.list.length := h.length_of_table ht ▸ fdIndex_lt hfd
    have hput : { ftab with list := ftab.list.modify i fun slot => { slot with flags := flags } } =
        ftab.put i (ftab.fp i) flags := by
      simp only [FileTable.put, List.modify_eq_set_getElem?, List.getElem?_eq_getElem hi,
        FileTable.fp]
      rfl
    simp only [ftabSetFlags, hfd, hput]
    refine h.put ht hi (fun _ => rfl) hft fun j => rfl

theorem FtabState.Inv.closeOnExec (h : s.Inv) (hs : s.exec (.ftabCloseOnExec tid) = some s') :
    s'.Inv := by
  obtain ⟨⟨thread, t, ftab⟩, ht, hs⟩ := Option.bind_eq_some_iff.1 hs
  obtain ⟨⟨files, ftab'⟩, hclose, hs⟩ := Option.bind_eq_some_iff.1 hs
  obtain ⟨-, hft, -⟩ := FtabState.table_eq_some.1 ht
  cases hs
  obtain ⟨⟨_, list⟩, hslots, he⟩ := Option.map_eq_some_iff.1 hclose
  cases he
  obtain ⟨hfiles, hlen, hres⟩ := closeOnExecSlots_spec (fun f => s.refs f - ftab.refs f)
    h.files hslots fun f => by
      have := FtabState.refs_ftab_le ht f
      unfold FileTable.refs at this ⊢
      omega
  refine h.update ht (hfiles.congr fun f => ?_) hft rfl hlen fun i => ?_
  · have hrefs := FtabState.refs_update files ({ ftab with list := list })
      thread ht f
    have hle := FtabState.refs_ftab_le ht f
    have hnew : FileTable.refs f { ftab with list := list } =
      tally (fun slot => slot.fp.refs f) list := rfl
    omega
  · rw [← hres i ftab.refcount]

theorem FtabState.owners_of_users {i : ℕ} (h : s.users t = 0) : s.owners t i = 0 := by
  rw [FtabState.users, tally_eq_zero] at h
  refine tally_eq_zero.2 fun x hx => if_neg fun hxt => ?_
  have := h x hx
  rw [FtabThread.uses, if_pos hxt] at this
  cases this

theorem FtabState.Inv.users_length (h : s.Inv) : s.users s.tables.length = 0 :=
  tally_eq_zero.2 fun x hx => if_neg fun hxt => Nat.lt_irrefl _ (h.inRange x hx _ hxt)

/-- A thread is created with a new table. -/
theorem FtabState.Inv.append {new : FileTable} (h : s.Inv)
    (hfiles : FilesExact files fun f => s.refs f + new.refs f) (hcount : new.refcount = 1)
    (hlen : new.list.length = MAX_OPEN_FILES) (hres : ∀ i, new.reserved i = 0) :
    FtabState.Inv ⟨files, s.tables ++ [new], s.threads ++ [⟨some s.tables.length, [], []⟩]⟩ := by
  have htables : ∀ u x, (s.tables ++ [new])[u]? = some x →
      u = s.tables.length ∧ x = new ∨ u ≠ s.tables.length ∧ s.tables[u]? = some x := by
    intro u x hu
    rcases Nat.lt_trichotomy u s.tables.length with hlt | rfl | hgt
    · rw [List.getElem?_append_left hlt] at hu
      exact Or.inr ⟨Nat.ne_of_lt hlt, hu⟩
    · rw [List.getElem?_concat_length] at hu
      exact Or.inl ⟨rfl, (Option.some.inj hu).symm⟩
    · rw [List.getElem?_eq_none (by rw [List.length_append, List.length_singleton]; omega)] at hu
      cases hu
  have hnew : s.users s.tables.length = 0 := h.users_length
  refine ⟨hfiles.congr fun f => ?_, fun u x hu => ?_, fun u x hu i => ?_, fun u x hu hx => ?_,
    fun x hx u hu => ?_⟩
  · simp [FtabState.refs, FtabThread.refs]
    omega
  · have husers : FtabState.users ⟨files, s.tables ++ [new],
        s.threads ++ [⟨some s.tables.length, [], []⟩]⟩ u =
        s.users u + if s.tables.length = u then 1 else 0 := by
      simp [FtabState.users, FtabThread.uses]
    rw [husers]
    rcases htables u x hu with ⟨rfl, rfl⟩ | ⟨hne, hu⟩
    · rw [hnew, if_pos rfl, hcount]
      rfl
    · rw [if_neg (Ne.symm hne), Nat.add_zero]
      exact h.users u x hu
  · have howners : FtabState.owners ⟨files, s.tables ++ [new],
        s.threads ++ [⟨some s.tables.length, [], []⟩]⟩ u i = s.owners u i := by
      simp [FtabState.owners, FtabThread.owns]
    rw [howners]
    rcases htables u x hu with ⟨rfl, rfl⟩ | ⟨-, hu⟩
    · rw [hres, FtabState.owners_of_users hnew]
    · exact h.owners u x hu i
  · rcases htables u x hu with ⟨-, rfl⟩ | ⟨-, hu⟩
    · exact hlen
    · exact h.length u x hu hx
  · show u < (s.tables ++ [new]).length
    rw [List.length_append, List.length_singleton]
    rcases List.mem_append.1 hx with hx | hx
    · exact Nat.lt_succ_of_lt (h.inRange x hx u hu)
    · obtain rfl := List.mem_singleton.1 hx
      obtain rfl : s.tables.length = u := Option.some.inj hu
      exact Nat.lt_succ_self _

theorem ftabCreate_refs (f : ℕ) : ftabCreate.refs f = 0 :=
  tally_eq_zero.2 fun slot hs => by
    rw [List.eq_of_mem_replicate hs]
    rfl

theorem reserved_eq_zero {i : ℕ} (h : ∀ slot ∈ ftab.list, slot.fp ≠ .reserve) :
    ftab.reserved i = 0 :=
  if_neg fun hfp => by
    obtain ⟨_, hslot⟩ := FileTable.fp_eq hfp (by decide)
    exact h _ (List.mem_of_getElem? hslot) rfl

theorem FtabState.Inv.create (h : s.Inv) (hs : s.exec .ftabCreate = some s') : s'.Inv := by
  cases hs
  refine h.append (h.files.congr fun f => ?_) rfl List.length_replicate fun i =>
    reserved_eq_zero fun slot hslot => ?_
  · rw [ftabCreate_refs, Nat.add_zero]
  · rw [List.eq_of_mem_replicate hslot]
    decide

theorem FtabState.Inv.dup (h : s.Inv) (hs : s.exec (.ftabDup tid) = some s') : s'.Inv := by
  obtain ⟨⟨thread, t, ftab⟩, ht, hs⟩ := Option.bind_eq_some_iff.1 hs
  obtain ⟨⟨files, new⟩, hdup, hs⟩ := Option.bind_eq_some_iff.1 hs
  obtain ⟨⟨_, list⟩, hslots, he⟩ := Option.map_eq_some_iff.1 hdup
  cases hs
  cases he
  obtain ⟨hfiles, hlen, hres⟩ := dupSlots_spec h.files hslots fun slot hslot f hf hzero => by
    have hle : slot.fp.refs f ≤ ftab.refs f :=
      le_tally (p := fun slot : Slot => slot.fp.refs f) hslot
    have := FtabState.refs_ftab_le ht f
    simp only [hf, FilePtr.refs, FilePtr.toList, List.count_cons_self, List.count_nil] at hle
    omega
  exact h.append hfiles rfl (hlen.trans (h.length_of_table ht)) fun i => reserved_eq_zero hres

theorem FtabState.Inv.upref (h : s.Inv) (hs : s.exec (.ftabUpref tid) = some s') : s'.Inv := by
  obtain ⟨⟨thread, t, ftab⟩, ht, hs⟩ := Option.bind_eq_some_iff.1 hs
  obtain ⟨hthread, hft, htab⟩ := FtabState.table_eq_some.1 ht
  cases hs
  refine ⟨h.files.congr fun f => ?_, fun u x hu => ?_, fun u x hu i => ?_, fun u x hu hx => ?_,
    fun x hx u hu => ?_⟩
  · have hset : tally (FileTable.refs f) (s.tables.set t (ftabUpref ftab)) =
      tally (FileTable.refs f) s.tables := tally_set_eq htab rfl
    simp [FtabState.refs, FtabThread.refs, hset]
  · have husers : FtabState.users ⟨s.files, s.tables.set t (ftabUpref ftab),
        s.threads ++ [⟨some t, [], []⟩]⟩ u = s.users u + if t = u then 1 else 0 := by
      simp [FtabState.users, FtabThread.uses]
    rw [husers]
    rcases getElem?_set_cases hu with ⟨rfl, rfl⟩ | ⟨hne, hu⟩
    · have hold := h.users _ _ htab
      rw [if_pos rfl]
      show ftab.refcount + 1 = _
      omega
    · rw [if_neg (Ne.symm hne), Nat.add_zero]
      exact h.users u x hu
  · have howners : FtabState.owners ⟨s.files, s.tables.set t (ftabUpref ftab),
        s.threads ++ [⟨some t, [], []⟩]⟩ u i = s.owners u i := by
      simp [FtabState.owners, FtabThread.owns]
    rw [howners]
    rcases getElem?_set_cases hu with ⟨rfl, rfl⟩ | ⟨-, hu⟩
    · exact h.owners _ _ htab i
    · exact h.owners u x hu i
  · rcases getElem?_set_cases hu with ⟨rfl, rfl⟩ | ⟨-, hu⟩
    · exact (show ftab.list.length = _ from h.length_of_table ht)
    · exact h.length u x hu hx
  · show u < (s.tables.set t _).length
    rw [List.length_set]
    rcases List.mem_append.1 hx with hx | hx
    · exact h.inRange x hx u hu
    · obtain rfl := List.mem_singleton.1 hx
      obtain rfl : t = u := Option.some.inj hu
      exact h.inRange thread (List.mem_of_getElem? hthread) _ hft

theorem FtabState.Inv.downref (h : s.Inv) (he : s.Enabled (.ftabDownref tid))
    (hs : s.exec (.ftabDownref tid) = some s') : s'.Inv := by
  obtain ⟨⟨thread, t, ftab⟩, ht, hreserved, -⟩ := he
  simp only at hreserved
  obtain ⟨⟨_, _, _⟩, ht', hs⟩ := Option.bind_eq_some_iff.1 hs
  cases ht.symm.trans ht'
  obtain ⟨⟨ftab', l⟩, hdown, hs⟩ := Option.bind_eq_some_iff.1 hs
  obtain ⟨hthread, hft, htab⟩ := FtabState.table_eq_some.1 ht
  cases hs
  have husers := h.users t ftab htab
  have hnew : ∀ u, (s.update tid t s.files ftab'
      { thread with ftab := none, hand := l ++ thread.hand }).users u +
        (if t = u then 1 else 0) = s.users u := by
    intro u
    have := tally_set (p := FtabThread.uses u)
      (x := { thread with ftab := none, hand := l ++ thread.hand }) hthread
    simpa [FtabState.users, FtabState.update, FtabThread.uses, hft] using this
  have howners : ∀ u i, (s.update tid t s.files ftab'
      { thread with ftab := none, hand := l ++ thread.hand }).owners u i = s.owners u i :=
    fun u i => tally_set_eq hthread (by simp [FtabThread.owns, hft, hreserved])
  have hcases : ftab'.refcount = ftab.refcount - 1 ∧
      (∀ f, ftab'.refs f + l.count f = ftab.refs f) ∧
      (ftab'.refcount ≠ 0 → ftab'.list = ftab.list) ∧
      (ftab'.refcount = 0 → ∀ i, ftab'.reserved i = 0) := by
    unfold ftabDownref at hdown
    by_cases hzero : ftab.refcount - 1 = 0
    · rw [if_pos hzero] at hdown
      obtain ⟨l', hl, heq⟩ := Option.map_eq_some_iff.1 hdown
      cases heq
      refine ⟨rfl, fun f => ?_, fun hne => absurd hzero hne, fun _ i => rfl⟩
      rw [downrefSlots_spec hl]
      exact Nat.zero_add _
    · rw [if_neg hzero] at hdown
      cases hdown
      exact ⟨rfl, fun f => rfl, fun _ => rfl, fun hz => absurd hz hzero⟩
  obtain ⟨hcount, hrefs, hlist, hfree⟩ := hcases
  refine ⟨h.files.congr fun f => ?_, fun u x hu => ?_, fun u x hu i => ?_, fun u x hu hx => ?_,
    fun x hx u hu => ?_⟩
  · have := FtabState.refs_update s.files ftab'
      ({ thread with ftab := none, hand := l ++ thread.hand }) ht f
    have := hrefs f
    simp only [FtabThread.refs, List.count_append] at *
    omega
  · have hu' := hnew u
    rcases getElem?_set_cases hu with ⟨rfl, rfl⟩ | ⟨hne, hu⟩
    · rw [if_pos rfl] at hu'
      omega
    · rw [if_neg (Ne.symm hne)] at hu'
      have := h.users u x hu
      omega
  · rcases getElem?_set_cases hu with ⟨rfl, rfl⟩ | ⟨-, hu⟩
    · by_cases hzero : x.refcount = 0
      · have hu' := hnew u
        rw [if_pos rfl] at hu'
        rw [hfree hzero, FtabState.owners_of_users (by omega)]
      · rw [howners, h.owners _ _ htab]
        rw [FileTable.reserved, FileTable.reserved, FileTable.fp, FileTable.fp, hlist hzero]
    · rw [howners, h.owners u x hu]
  · rcases getElem?_set_cases hu with ⟨rfl, rfl⟩ | ⟨-, hu⟩
    · rw [hlist hx]
      exact h.length_of_table ht
    · exact h.length u x hu hx
  · show u < (s.tables.set t _).length
    rw [List.length_set]
    rcases List.mem_or_eq_of_mem_set hx with hx | rfl
    · exact h.inRange x hx u hu
    · cases hu

theorem FtabState.Inv.vfsClose {file : ℕ} (h : s.Inv) (he : s.Enabled (.vfsClose tid file))
    (hs : s.exec (.vfsClose tid file) = some s') : s'.Inv := by
  obtain ⟨thread, hthread, hfile⟩ := he
  obtain ⟨_, hthread', hs⟩ := Option.bind_eq_some_iff.1 hs
  cases hthread.symm.trans hthread'
  obtain ⟨files, hclose, hs⟩ := Option.bind_eq_some_iff.1 hs
  cases hs
  refine ⟨h.files.vfsClose (fun f => ?_) hclose, fun u x hu => ?_, fun u x hu i => ?_, h.length,
    fun x hx u hu => ?_⟩
  · have hset := tally_set (p := FtabThread.refs f)
      (x := { thread with hand := thread.hand.erase file }) hthread
    have hcount := count_erase_add hfile f
    simp only [FtabThread.refs, FtabState.refs, FilePtr.refs, FilePtr.toList] at *
    omega
  · have husers : tally (FtabThread.uses u)
        (s.threads.set tid { thread with hand := thread.hand.erase file }) = s.users u :=
      tally_set_eq hthread rfl
    rw [h.users u x hu, ← husers]
    rfl
  · rw [← h.owners u x hu]
    exact tally_set_eq hthread rfl
  · rcases List.mem_or_eq_of_mem_set hx with hx | rfl
    · exact h.inRange x hx u hu
    · exact h.inRange thread (List.mem_of_getElem? hthread) u hu

/-! ## Panics -/

/-- A descriptor that a thread has reserved is reserved in its table. -/
theorem FtabState.Inv.fp_of_reserved {i : ℕ} (h : s.Inv)
    (ht : s.table tid = some (thread, t, ftab)) (hi : i ∈ thread.reserved) :
    ftab.fp i = .reserve := by
  obtain ⟨hthread, hft, htab⟩ := FtabState.table_eq_some.1 ht
  have hle : thread.owns t i ≤ s.owners t i := le_tally (List.mem_of_getElem? hthread)
  rw [FtabThread.owns, if_pos hft, h.owners t ftab htab, FileTable.reserved] at hle
  have := List.count_pos_iff.2 hi
  by_contra hne
  rw [if_neg hne] at hle
  omega

/-- The last thread that uses a table leaves no descriptor reserved. -/
theorem FtabState.Inv.fp_of_last {slot : Slot} (h : s.Inv)
    (ht : s.table tid = some (thread, t, ftab)) (hreserved : thread.reserved = [])
    (hlast : ftab.refcount - 1 = 0) (hslot : slot ∈ ftab.list) : slot.fp ≠ .reserve := by
  obtain ⟨hthread, hft, htab⟩ := FtabState.table_eq_some.1 ht
  obtain ⟨i, hi⟩ := List.mem_iff_getElem?.1 hslot
  intro hfp
  have husers := h.users t ftab htab
  -- without the thread, nobody uses the table
  let s₀ : FtabState := { s with threads := s.threads.set tid { thread with ftab := none } }
  have hless : s₀.users t + 1 = s.users t := by
    have := tally_set (p := FtabThread.uses t) (x := { thread with ftab := none }) hthread
    simpa [s₀, FtabState.users, FtabThread.uses, hft] using this
  have hsame : s₀.owners t i = s.owners t i :=
    tally_set_eq hthread (by simp [FtabThread.owns, hft, hreserved])
  have hzero : s₀.owners t i = 0 := FtabState.owners_of_users (by omega)
  rw [hsame, h.owners t ftab htab, FileTable.reserved, FileTable.fp, hi, Option.map_some,
    Option.getD_some, if_pos hfp] at hzero
  cases hzero

theorem isSome_ftabGet (ftab : FileTable) (files : List File) (fd : Int32) :
    (ftabGet files ftab fd).isSome := by
  unfold ftabGet
  cases fdIndex fd with
  | none => rfl
  | some i =>
    by_cases hnone : ftab.fp i = .null ∨ ftab.fp i = .reserve
    · simp only [if_pos hnone]
      rfl
    · rw [not_or] at hnone
      simp only [not_or.2 hnone, if_false, Option.isSome_map]
      exact (isSome_vfsDup files hnone.1).2 hnone.2

/-- A step goes through exactly when it does not meet a placeholder. -/
theorem FtabState.Inv.isSome_exec {op : FtabOp} (h : s.Inv) (he : s.Enabled op) :
    (s.exec op).isSome ↔ s.NoPlaceholder op := by
  cases op with
  | ftabCreate => exact iff_of_true rfl trivial
  | vfsOpen tid | ftabAlloc tid | ftabClose tid | ftabSetFlags tid | ftabUpref tid =>
    obtain ⟨x, hx⟩ := Option.isSome_iff_exists.1 he
    exact iff_of_true (by simp [exec, hx]) trivial
  | ftabSet tid i file flags =>
    obtain ⟨⟨thread, t, ftab⟩, ht, hi, -⟩ := he
    have hfp := h.fp_of_reserved ht hi
    rw [Option.mem_def] at ht
    exact iff_of_true (by simp [exec, ht, ftabSet, hfp]) trivial
  | ftabGet tid fd =>
    obtain ⟨⟨thread, t, ftab⟩, ht⟩ := Option.isSome_iff_exists.1 he
    obtain ⟨x, hx⟩ := Option.isSome_iff_exists.1 (isSome_ftabGet ftab s.files fd)
    exact iff_of_true (by simp [exec, ht, hx]) trivial
  | ftabPut tid fd file flags =>
    obtain ⟨x, hx, -⟩ := he
    rw [Option.mem_def] at hx
    exact iff_of_true (by simp [exec, hx]) trivial
  | ftabCloseOnExec tid =>
    obtain ⟨⟨thread, t, ftab⟩, ht⟩ := Option.isSome_iff_exists.1 he
    have hsome : (s.exec (.ftabCloseOnExec tid)).isSome =
        (closeOnExecSlots s.files ftab.list).isSome := by
      cases hc : closeOnExecSlots s.files ftab.list with
      | none => simp [exec, ht, ftabCloseOnExec, hc]
      | some x => simp [exec, ht, ftabCloseOnExec, hc]
    rw [hsome, isSome_closeOnExecSlots]
    simp only [NoPlaceholder, ht, Option.some.injEq, Prod.mk.injEq]
    exact ⟨fun hs _ _ _ heq => heq.2.2 ▸ hs, fun hs => hs _ _ _ ⟨rfl, rfl, rfl⟩⟩
  | ftabDup tid =>
    obtain ⟨⟨thread, t, ftab⟩, ht⟩ := Option.isSome_iff_exists.1 he
    have hsome : (s.exec (.ftabDup tid)).isSome = (dupSlots s.files ftab.list).isSome := by
      cases hc : dupSlots s.files ftab.list with
      | none => simp [exec, ht, ftabDup, hc]
      | some x => simp [exec, ht, ftabDup, hc]
    rw [hsome, isSome_dupSlots]
    simp only [NoPlaceholder, ht, Option.some.injEq, Prod.mk.injEq]
    exact ⟨fun hs _ _ _ heq => heq.2.2 ▸ hs, fun hs => hs _ _ _ ⟨rfl, rfl, rfl⟩⟩
  | ftabDownref tid =>
    obtain ⟨⟨thread, t, ftab⟩, ht, hreserved, -⟩ := he
    have hdown : (ftabDownref ftab).isSome := by
      unfold ftabDownref
      by_cases hzero : ftab.refcount - 1 = 0
      · rw [if_pos hzero, Option.isSome_map, isSome_downrefSlots]
        exact fun slot hslot => h.fp_of_last ht hreserved hzero hslot
      · rw [if_neg hzero]
        rfl
    obtain ⟨x, hx⟩ := Option.isSome_iff_exists.1 hdown
    rw [Option.mem_def] at ht
    exact iff_of_true (by simp [exec, ht, hx]) trivial
  | vfsClose tid file =>
    obtain ⟨thread, ht, -⟩ := he
    rw [Option.mem_def] at ht
    exact iff_of_true (by simp [exec, ht, Thread.vfsClose]) trivial

end Step

/-! ## Runs -/

theorem FtabState.Inv.init : FtabState.Inv ⟨[], [], []⟩ :=
  ⟨⟨by simp, fun _ _ => rfl⟩, by simp, by simp, by simp, by simp⟩

theorem FtabState.Inv.step {s s' : FtabState} {op : FtabOp} (h : s.Inv)
    (hs : ftabSystem.step s op s') : s'.Inv := by
  obtain ⟨he, hs⟩ := hs
  cases op with
  | ftabCreate => exact h.create hs
  | vfsOpen tid => exact h.open hs
  | ftabAlloc tid => exact h.alloc hs
  | ftabSet tid i file flags => exact h.set he hs
  | ftabGet tid fd => exact h.get hs
  | ftabClose tid fd => exact h.close hs
  | ftabPut tid fd file flags => exact h.ftabPut he hs
  | ftabSetFlags tid fd flags => exact h.setFlags hs
  | ftabCloseOnExec tid => exact h.closeOnExec hs
  | ftabDup tid => exact h.dup hs
  | ftabUpref tid => exact h.upref hs
  | ftabDownref tid => exact h.downref he hs
  | vfsClose tid file => exact h.vfsClose he hs

theorem FtabState.Inv.reachable {s : FtabState} (h : ftabSystem.Reachable s) : s.Inv :=
  System.ReachesBy.invariant h (fun _ hs => hs ▸ .init) fun _ _ _ hi _ hs => hi.step hs

/-- In every state that the threads reach, the counts of references are exact, and the next step
does not panic and takes no placeholder for a file, exactly when it does not fork a table with a
reserved descriptor and does not close one on `exec`. -/
theorem ftab_refcounts_exact {s : FtabState} (h : ftabSystem.Reachable s) :
    s.RefcountsExact ∧ ∀ op, s.Enabled op → ((s.exec op).isSome ↔ s.NoPlaceholder op) :=
  ⟨(FtabState.Inv.reachable h).files.exact,
    fun _ he => (FtabState.Inv.reachable h).isSome_exec he⟩

/-- A step of a run given by a list. -/
def FtabState.run (s : FtabState) (op : FtabOp) : Option FtabState :=
  if s.Enabled op then s.exec op else none

theorem reachable_run {ops : List FtabOp} {s : FtabState}
    (h : ops.foldlM FtabState.run ⟨[], [], []⟩ = some s) : ftabSystem.Reachable s := by
  refine System.ReachesBy.foldlM (f := FtabState.run) (fun s op t ht => ⟨trivial, ?_⟩) (.init rfl) h
  unfold FtabState.run at ht
  by_cases he : s.Enabled op
  · rw [if_pos he] at ht
    exact ⟨he, ht⟩
  · rw [if_neg he] at ht
    cases ht

/-- A file that is in a table and in the hands of a thread has two references. -/
theorem ftab_refcounts_exact_two : ∃ s : FtabState, s.files = [⟨2, 0⟩] ∧
    s.RefcountsExact ∧ ∀ op, s.Enabled op → ((s.exec op).isSome ↔ s.NoPlaceholder op) := by
  have hrun : ([.ftabCreate, .ftabAlloc 0, .vfsOpen 0, .ftabSet 0 0 (some 0) 0,
      .ftabGet 0 0].foldlM FtabState.run ⟨[], [], []⟩).map FtabState.files = some [⟨2, 0⟩] := by
    decide
  obtain ⟨s, hs, hfiles⟩ := Option.map_eq_some_iff.1 hrun
  exact ⟨s, hfiles, ftab_refcounts_exact (reachable_run hs)⟩

/-- Two threads share a table, and one forks while the other opens a file. -/
theorem ftab_fork_placeholder : ¬ ∀ s, ftabSystem.Reachable s →
    s.RefcountsExact ∧ ∀ op, s.Enabled op → (s.exec op).isSome := by
  intro h
  have hrun : ([.ftabCreate, .ftabUpref 0, .ftabAlloc 0].foldlM FtabState.run ⟨[], [], []⟩).map
      (fun s => decide (s.Enabled (.ftabDup 1)) && (s.exec (.ftabDup 1)).isNone) = some true := by
    decide
  obtain ⟨s, hs, hfault⟩ := Option.map_eq_some_iff.1 hrun
  rw [Bool.and_eq_true, decide_eq_true_eq, Option.isNone_iff_eq_none] at hfault
  have := (h s (reachable_run hs)).2 _ hfault.1
  rw [hfault.2] at this
  cases this

end Glidix.Thread
