import Mathlib.Tactic.SplitIfs
import Mathlib.Tactic.Common

/-!
# Setting user and group ids

The calls that set the ids of a process.  A call either succeeds or fails with an `ERRNO`.  A process
whose ids are not those of the superuser keeps to the ids it has (`ids_kept`), whatever it calls.
-/

namespace Glidix.Thread.SetIds

inductive Errno where
  | EPERM
  | EINVAL
  | EFAULT
  deriving DecidableEq

/-- The real, effective and saved id: `ruid`, `euid` and `suid`, or `rgid`, `egid` and `sgid`. -/
structure Ids where
  real : UInt64
  effective : UInt64
  saved : UInt64
  deriving DecidableEq

structure Creds where
  uids : Ids
  gids : Ids
  numGroups : Int32
  groups : List UInt64
  deriving DecidableEq

/-! ## Three ids -/

namespace Ids

variable (ids : Ids)

/-- Set the effective id, or all three if it is zero. -/
def set (id : UInt64) : Ids × Option Errno :=
  if ids.effective ≠ 0 ∧ id ≠ ids.effective ∧ id ≠ ids.real then (ids, some .EPERM)
  else
    let ids := if ids.effective = 0 then { ids with real := id, saved := id } else ids
    ({ ids with effective := id }, none)

/-- Set the effective id of a pair; `prev` is the real id before the call. -/
def setReEffective (prev id : UInt64) : Ids × Option Errno :=
  if id = -1 then (ids, none)
  else if id = prev then ({ ids with effective := id }, none)
  else if ids.effective ≠ 0 then (ids, some .EPERM)
  else ({ ids with saved := id, effective := id }, none)

/-- Set the real and the effective id; an id of -1 is not set. -/
def setRe (real effective : UInt64) : Ids × Option Errno :=
  if real = -1 then ids.setReEffective ids.real effective
  else if ids.effective ≠ 0 then (ids, some .EPERM)
  else { ids with real := real }.setReEffective ids.real effective

/-- Set the effective id to one of the three. -/
def setEffective (id : UInt64) : Ids × Option Errno :=
  if ids.effective ≠ 0 ∧ id ≠ ids.effective ∧ id ≠ ids.real ∧ id ≠ ids.saved then
    (ids, some .EPERM)
  else ({ ids with effective := id }, none)

end Ids

/-! ## The calls -/

namespace Creds

variable (c : Creds)

/-- The user ids after a call that sets them. -/
def withUids (r : Ids × Option Errno) : Creds × Option Errno := ({ c with uids := r.1 }, r.2)

/-- The group ids after a call that sets them. -/
def withGids (r : Ids × Option Errno) : Creds × Option Errno := ({ c with gids := r.1 }, r.2)

def sys_setuid (uid : UInt64) : Creds × Option Errno := c.withUids (c.uids.set uid)

def sys_setgid (gid : UInt64) : Creds × Option Errno := c.withGids (c.gids.set gid)

def sys_setreuid (ruid euid : UInt64) : Creds × Option Errno := c.withUids (c.uids.setRe ruid euid)

def sys_setregid (rgid egid : UInt64) : Creds × Option Errno := c.withGids (c.gids.setRe rgid egid)

def sys_seteuid (euid : UInt64) : Creds × Option Errno := c.withUids (c.uids.setEffective euid)

def sys_setegid (egid : UInt64) : Creds × Option Errno := c.withGids (c.gids.setEffective egid)

/-- `copied` is what `memcpy_u2k` leaves in the array of groups, and whether it fails. -/
def sys_setgroups (count : Int32) (copied : List UInt64 × Bool) : Creds × Option Errno :=
  if c.gids.effective ≠ 0 then (c, some .EPERM)
  else if count > 16 then (c, some .EINVAL)
  else if copied.2 then ({ c with groups := copied.1 }, some .EFAULT)
  else ({ c with groups := copied.1, numGroups := count }, none)

end Creds

inductive Call where
  | setuid (uid : UInt64)
  | setreuid (ruid euid : UInt64)
  | seteuid (euid : UInt64)
  | setgid (gid : UInt64)
  | setregid (rgid egid : UInt64)
  | setegid (egid : UInt64)
  | setgroups (count : Int32) (copied : List UInt64 × Bool)

namespace Creds

variable (c : Creds)

def exec : Call → Creds × Option Errno
  | .setuid uid => c.sys_setuid uid
  | .setreuid ruid euid => c.sys_setreuid ruid euid
  | .seteuid euid => c.sys_seteuid euid
  | .setgid gid => c.sys_setgid gid
  | .setregid rgid egid => c.sys_setregid rgid egid
  | .setegid egid => c.sys_setegid egid
  | .setgroups count copied => c.sys_setgroups count copied

/-- The ids after some calls. -/
def run (calls : List Call) : Creds := calls.foldl (fun c call => (c.exec call).1) c

end Creds

/-! ## What the calls keep -/

namespace Ids

variable {ids init : Ids} {id prev real effective : UInt64}

/-- None of the three ids is the superuser's. -/
structure NonZero (ids : Ids) : Prop where
  real : ids.real ≠ 0
  effective : ids.effective ≠ 0
  saved : ids.saved ≠ 0

/-- The id is one of the three. -/
def Has (ids : Ids) (id : UInt64) : Prop := id = ids.real ∨ id = ids.effective ∨ id = ids.saved

/-- The three ids are among those of `init`. -/
structure Within (init ids : Ids) : Prop where
  real : init.Has ids.real
  effective : init.Has ids.effective
  saved : init.Has ids.saved

theorem Within.refl (ids : Ids) : ids.Within ids where
  real := Or.inl rfl
  effective := Or.inr (Or.inl rfl)
  saved := Or.inr (Or.inr rfl)

theorem Has.ne_zero (h : init.Has id) (hinit : init.NonZero) : id ≠ 0 := by
  rcases h with h | h | h
  · rw [h]; exact hinit.real
  · rw [h]; exact hinit.effective
  · rw [h]; exact hinit.saved

/-- Another effective id that is among those of `init`. -/
theorem Within.withEffective (h : init.Within ids) (hid : init.Has id) :
    init.Within { ids with effective := id } where
  real := h.real
  effective := hid
  saved := h.saved

variable (hinit : init.NonZero) (h : init.Within ids)
include hinit h

theorem Within.set (id : UInt64) : init.Within (ids.set id).1 := by
  have hzero : ids.effective ≠ 0 := h.effective.ne_zero hinit
  unfold Ids.set
  split_ifs with hperm
  · exact h
  · apply h.withEffective
    by_cases he : id = ids.effective
    · rw [he]; exact h.effective
    · have hr : id = ids.real := by
        by_contra hr
        exact hperm ⟨hzero, he, hr⟩
      rw [hr]; exact h.real

theorem Within.setReEffective (hprev : init.Has prev) (id : UInt64) :
    init.Within (ids.setReEffective prev id).1 := by
  have hzero : ids.effective ≠ 0 := h.effective.ne_zero hinit
  unfold Ids.setReEffective
  split_ifs with hnone heq
  · exact h
  · rw [heq]
    exact h.withEffective hprev
  · exact h

theorem Within.setRe (real effective : UInt64) : init.Within (ids.setRe real effective).1 := by
  have hzero : ids.effective ≠ 0 := h.effective.ne_zero hinit
  unfold Ids.setRe
  split_ifs with hnone
  · exact h.setReEffective hinit h.real effective
  · exact h

theorem Within.setEffective (id : UInt64) : init.Within (ids.setEffective id).1 := by
  have hzero : ids.effective ≠ 0 := h.effective.ne_zero hinit
  unfold Ids.setEffective
  split_ifs with hperm
  · exact h
  · apply h.withEffective
    by_cases he : id = ids.effective
    · rw [he]; exact h.effective
    · by_cases hr : id = ids.real
      · rw [hr]; exact h.real
      · have hs : id = ids.saved := by
          by_contra hs
          exact hperm ⟨hzero, he, hr, hs⟩
        rw [hs]; exact h.saved

end Ids

section Refused

variable {ids : Ids} {id prev real effective : UInt64}

theorem set_refused (h : (ids.set id).2 = some .EPERM) : (ids.set id).1 = ids := by
  unfold Ids.set at h ⊢
  split_ifs at h ⊢ with hperm
  · rfl

theorem setReEffective_refused (h : (ids.setReEffective prev id).2 = some .EPERM) :
    (ids.setReEffective prev id).1 = ids ∧ ids.effective ≠ 0 := by
  unfold Ids.setReEffective at h ⊢
  split_ifs at h ⊢ with hnone heq hzero
  · exact ⟨rfl, hzero⟩

theorem setRe_refused (h : (ids.setRe real effective).2 = some .EPERM) :
    (ids.setRe real effective).1 = ids := by
  unfold Ids.setRe at h ⊢
  split_ifs at h ⊢ with hnone hzero
  · exact (setReEffective_refused h).1
  · rfl
  · -- the real id was set, so the effective id is zero and the rest is not refused
    exact absurd (setReEffective_refused h).2 hzero

theorem setEffective_refused (h : (ids.setEffective id).2 = some .EPERM) :
    (ids.setEffective id).1 = ids := by
  unfold Ids.setEffective at h ⊢
  split_ifs at h ⊢ with hperm
  · rfl

end Refused

namespace Creds

variable {c init : Creds}

theorem withUids_refused {r : Ids × Option Errno} (h : r.2 = some .EPERM → r.1 = c.uids)
    (hperm : (c.withUids r).2 = some .EPERM) : (c.withUids r).1 = c := by
  rw [withUids, h hperm]

theorem withGids_refused {r : Ids × Option Errno} (h : r.2 = some .EPERM → r.1 = c.gids)
    (hperm : (c.withGids r).2 = some .EPERM) : (c.withGids r).1 = c := by
  rw [withGids, h hperm]

/-- A call that fails with `EPERM` changes nothing. -/
theorem exec_refused (call : Call) (h : (c.exec call).2 = some .EPERM) : (c.exec call).1 = c := by
  cases call with
  | setuid uid => exact withUids_refused set_refused h
  | setreuid ruid euid => exact withUids_refused setRe_refused h
  | seteuid euid => exact withUids_refused setEffective_refused h
  | setgid gid => exact withGids_refused set_refused h
  | setregid rgid egid => exact withGids_refused setRe_refused h
  | setegid egid => exact withGids_refused setEffective_refused h
  | setgroups count copied =>
    rw [exec, sys_setgroups] at h ⊢
    split_ifs at h ⊢
    · rfl
    · rfl
    · cases h

theorem uids_exec (hinit : init.uids.NonZero) (h : init.uids.Within c.uids) (call : Call) :
    init.uids.Within (c.exec call).1.uids := by
  cases call with
  | setuid uid => exact h.set hinit uid
  | setreuid ruid euid => exact h.setRe hinit ruid euid
  | seteuid euid => exact h.setEffective hinit euid
  | setgid | setregid | setegid => exact h
  | setgroups count copied =>
    rw [exec, sys_setgroups]
    split_ifs
    · exact h
    · exact h
    · exact h
    · exact h

/-- What the group calls keep: the three ids are among the first ones, and the groups are those. -/
structure GidsKept (init c : Creds) : Prop where
  gids : init.gids.Within c.gids
  numGroups : c.numGroups = init.numGroups
  groups : c.groups = init.groups

theorem gids_exec (hinit : init.gids.NonZero) (h : init.GidsKept c) (call : Call) :
    init.GidsKept (c.exec call).1 := by
  cases call with
  | setuid | setreuid | seteuid => exact ⟨h.gids, h.numGroups, h.groups⟩
  | setgid gid => exact ⟨h.gids.set hinit gid, h.numGroups, h.groups⟩
  | setregid rgid egid => exact ⟨h.gids.setRe hinit rgid egid, h.numGroups, h.groups⟩
  | setegid egid => exact ⟨h.gids.setEffective hinit egid, h.numGroups, h.groups⟩
  | setgroups count copied =>
    have hzero : c.gids.effective ≠ 0 := h.gids.effective.ne_zero hinit
    rw [exec, sys_setgroups, if_pos hzero]
    exact h

/-- What every call keeps holds after any calls. -/
theorem run_invariant {I : Creds → Prop} (hstep : ∀ c call, I c → I (c.exec call).1) (h : I c)
    (calls : List Call) : I (c.run calls) := by
  induction calls generalizing c with
  | nil => exact h
  | cons call calls ih => exact ih (hstep c call h)

/-- After any calls, a process that began without an id of zero has only ids that it began with, and a
call that is refused changes none of them. -/
theorem ids_kept (init : Creds) (calls : List Call) (call : Call) :
    (init.uids.NonZero → init.uids.Within (init.run calls).uids) ∧
    (init.gids.NonZero → init.GidsKept (init.run calls)) ∧
    (((init.run calls).exec call).2 = some .EPERM →
      ((init.run calls).exec call).1 = init.run calls) := by
  refine ⟨fun hinit => ?_, fun hinit => ?_, exec_refused call⟩
  · apply run_invariant (I := fun c => init.uids.Within c.uids)
    · exact fun c call h => uids_exec hinit h call
    · exact .refl _
  · apply run_invariant (I := init.GidsKept)
    · exact fun c call h => gids_exec hinit h call
    · exact ⟨.refl _, rfl, rfl⟩

/-- The user 1000 drops to its saved id and is not let back to the superuser. -/
theorem ids_kept_user :
    let init : Creds := ⟨⟨1000, 1001, 1002⟩, ⟨100, 100, 100⟩, 0, []⟩
    let end_ := init.run [.seteuid 1002, .setuid 1000, .setreuid 0 0, .setgroups 1 ([0], false)]
    init.uids.NonZero ∧ init.gids.NonZero ∧ init.uids.Within end_.uids ∧ init.GidsKept end_ ∧
      (end_.exec (.setuid 0)).1 = end_ := by
  intro init end_
  have huids : init.uids.NonZero := by constructor <;> decide
  have hgids : init.gids.NonZero := by constructor <;> decide
  obtain ⟨hu, hg, hperm⟩ := ids_kept init
    [.seteuid 1002, .setuid 1000, .setreuid 0 0, .setgroups 1 ([0], false)] (.setuid 0)
  exact ⟨huids, hgids, hu huids, hg hgids, hperm (by decide)⟩

end Creds

end Glidix.Thread.SetIds
