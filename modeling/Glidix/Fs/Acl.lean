import Mathlib.Data.List.Nodup
import Mathlib.Data.Nat.Bitwise
import Mathlib.Logic.Function.Basic
import Glidix.Fs.Vfs

/-!
# Access control lists

An inode has a fixed number of slots for entries about users and groups.  `sys_aclput` changes the entry of a user or
a group or takes an unused slot for it, and `sys_aclclear` frees the slot.  Which slot an entry is in does not matter:
the calls act on a partial map from users and groups to permissions, and an access is decided by that map.
-/

namespace Glidix.Fs.Acl

/-! ## The calls -/

/-- The loops over the slots: the first slot that passes the test is changed, if there is one. -/
def changeFirst (p : AccessControlEntry → Bool) (f : AccessControlEntry → AccessControlEntry) :
    List AccessControlEntry → Option (List AccessControlEntry)
  | [] => none
  | ace :: acl => if p ace then some (f ace :: acl) else (changeFirst p f acl).map (ace :: ·)

/-- The entry is about this user or group. -/
def about (type : AceType) (id : ℕ) (ace : AccessControlEntry) : Bool :=
  ace.ace_type = type ∧ ace.ace_id = id

def aclput (type : AceType) (id perms : ℕ) (acl : List AccessControlEntry) :
    Option (List AccessControlEntry) :=
  match changeFirst (about type id) ({ · with ace_perms := perms }) acl with
  | some acl => some acl
  | none => changeFirst (·.ace_type = .unused) (fun _ => ⟨id, type, perms⟩) acl

def aclclear (type : AceType) (id : ℕ) (acl : List AccessControlEntry) : List AccessControlEntry :=
  (changeFirst (about type id) (fun _ => ⟨0, .unused, 0⟩) acl).getD acl

/-- `VFS_ACE_USER` and `VFS_ACE_GROUP`. -/
def aceType (type : Int32) : Option AceType :=
  if type = 1 then some .user else if type = 2 then some .group else none

/-- The arguments that both calls check: the type and the number. -/
def checkId (type id : Int32) : Option (AceType × ℕ) :=
  match aceType type with
  | none => none
  | some type => if id < 0 ∨ id &&& 0xFFFF ≠ id then none else some (type, id.toInt.toNat)

/-- What `sys_aclput` does from where the path has been looked up. -/
def sys_aclput (c : Caller) (type id perms : Int32) (inode : Inode) : Except Errno Inode :=
  match checkId type id with
  | none => .error .EINVAL
  | some who =>
    if perms &&& 7 ≠ perms then .error .EINVAL
    else if inode.uid ≠ c.euid ∧ ¬c.fsadmin then .error .EACCES
    else
      match aclput who.1 who.2 perms.toInt.toNat inode.acl with
      | none => .error .EOVERFLOW
      | some acl => .ok { inode with acl }

/-- What `sys_aclclear` does from where the path has been looked up. -/
def sys_aclclear (c : Caller) (type id : Int32) (inode : Inode) : Except Errno Inode :=
  match checkId type id with
  | none => .error .EINVAL
  | some who =>
    if inode.uid ≠ c.euid ∧ ¬c.fsadmin then .error .EACCES
    else .ok { inode with acl := aclclear who.1 who.2 inode.acl }

/-! ## The map -/

/-- The permissions that a list gives to users and groups. -/
abbrev Policy := AceType × ℕ → Option ℕ

/-- The permissions of the first entry. -/
def policyOf (acl : List AccessControlEntry) : Policy :=
  fun who => (acl.find? (about who.1 who.2)).map (·.ace_perms)

/-- No two slots are about the same user or group. -/
def Distinct (acl : List AccessControlEntry) : Prop :=
  acl.Pairwise fun a b => a.ace_type ≠ .unused → about a.ace_type a.ace_id b = false

/-- What the map says about an access: the entry of the user decides; else the entries of the groups do together,
bit by bit; else the mode of the file does. -/
def Policy.Allows (policy : Policy) (c : Caller) (inode : Inode) (perms : ℕ) : Prop :=
  c.fsadmin = true ∨
    match policy (.user, c.euid) with
    | some p => ∀ k, perms.testBit k = true → p.testBit k = true
    | none =>
      if ∃ gid ∈ c.egid :: c.groups, policy (.group, gid) ≠ none then
        ∀ k, perms.testBit k = true →
          ∃ gid ∈ c.egid :: c.groups, ∃ p, policy (.group, gid) = some p ∧ p.testBit k = true
      else ∀ k, perms.testBit k = true → (unixPerms c inode).testBit k = true

/-! ## One slot changes -/

variable {acl acl' l : List AccessControlEntry} {p : AccessControlEntry → Bool}
  {a b ace : AccessControlEntry}
  {f : AccessControlEntry → AccessControlEntry} {type : AceType} {id perms : ℕ} {who : AceType × ℕ}

theorem about_iff : about type id ace = true ↔ ace.ace_type = type ∧ ace.ace_id = id := decide_eq_true_iff

theorem changeFirst_none : changeFirst p f acl = none ↔ ∀ ace ∈ acl, p ace = false := by
  induction acl with
  | nil => simp [changeFirst]
  | cons ace acl ih => cases h : p ace <;> simp [changeFirst, h, ih]

/-- The slot that changes: those before it do not pass the test. -/
theorem changeFirst_some (h : changeFirst p f acl = some acl') :
    ∃ pre ace post, acl = pre ++ ace :: post ∧ acl' = pre ++ f ace :: post ∧ p ace = true ∧
      ∀ e ∈ pre, p e = false := by
  induction acl generalizing acl' with
  | nil => cases h
  | cons ace acl ih =>
    rw [changeFirst] at h
    split_ifs at h with hp
    · cases h
      exact ⟨[], ace, acl, rfl, rfl, hp, fun e he => absurd he List.not_mem_nil⟩
    · obtain ⟨rest, hrest, rfl⟩ := Option.map_eq_some_iff.1 h
      obtain ⟨pre, e, post, rfl, rfl, he, hpre⟩ := ih hrest
      refine ⟨ace :: pre, e, post, rfl, rfl, he, fun x hx => ?_⟩
      rcases List.mem_cons.1 hx with rfl | hx
      · exact Bool.eq_false_of_not_eq_true hp
      · exact hpre x hx

theorem policyOf_keep {pre post : List AccessControlEntry} (ha : about who.1 who.2 a = false)
    (hb : about who.1 who.2 b = false) :
    policyOf (pre ++ a :: post) who = policyOf (pre ++ b :: post) who := by
  simp [policyOf, List.find?_append, ha, hb]

theorem policyOf_at {pre post : List AccessControlEntry} (hpre : ∀ e ∈ pre, about who.1 who.2 e = false)
    (ha : about who.1 who.2 a = true) : policyOf (pre ++ a :: post) who = some a.ace_perms := by
  have hnone : pre.find? (about who.1 who.2) = none :=
    List.find?_eq_none.2 fun e he => by simp [hpre e he]
  simp [policyOf, List.find?_append, hnone, ha]

theorem policyOf_none (h : ∀ e ∈ acl, about who.1 who.2 e = false) : policyOf acl who = none := by
  have hnone : acl.find? (about who.1 who.2) = none := List.find?_eq_none.2 fun e he => by simp [h e he]
  simp [policyOf, hnone]

/-- In a list without duplicates an entry is the one that is found. -/
theorem policyOf_of_mem (hacl : Distinct acl) (he : ace ∈ acl) (hused : ace.ace_type ≠ .unused) :
    policyOf acl (ace.ace_type, ace.ace_id) = some ace.ace_perms := by
  obtain ⟨pre, post, rfl⟩ := List.append_of_mem he
  refine policyOf_at (fun e hpre => ?_) (about_iff.2 ⟨rfl, rfl⟩)
  rw [Bool.eq_false_iff]
  intro habout
  obtain ⟨htype, hid⟩ := about_iff.1 habout
  have hpair := (List.pairwise_append.1 hacl).2.2 e hpre ace List.mem_cons_self (htype ▸ hused)
  rw [about, htype, hid] at hpair
  simp at hpair

/-- A slot takes an entry that no other slot is about, or one that is about nothing. -/
theorem Distinct.replace {pre post : List AccessControlEntry} (h : Distinct (pre ++ a :: post))
    (hpre : ∀ e ∈ pre, e.ace_type ≠ .unused → about e.ace_type e.ace_id b = false)
    (hpost : b.ace_type ≠ .unused → ∀ e ∈ post, about b.ace_type b.ace_id e = false) :
    Distinct (pre ++ b :: post) := by
  obtain ⟨hleft, hright, hcross⟩ := List.pairwise_append.1 h
  obtain ⟨-, hrest⟩ := List.pairwise_cons.1 hright
  refine List.pairwise_append.2 ⟨hleft, List.pairwise_cons.2 ⟨fun e he hb => hpost hb e he, hrest⟩, ?_⟩
  intro e he x hx
  rcases List.mem_cons.1 hx with rfl | hx
  · exact hpre e he
  · exact hcross e he x (List.mem_cons_of_mem a hx)

/-! ## What the calls do to the map -/

/-- The entry that `sys_aclput` and `sys_aclclear` find: nothing else is about the same user or group. -/
theorem Distinct.alone {pre post : List AccessControlEntry} (h : Distinct (pre ++ ace :: post))
    (hace : about type id ace = true) (htype : type ≠ .unused) :
    (∀ e ∈ pre, about type id e = false) ∧ ∀ e ∈ post, about type id e = false := by
  obtain ⟨rfl, rfl⟩ := about_iff.1 hace
  obtain ⟨-, hright, hcross⟩ := List.pairwise_append.1 h
  refine ⟨fun e he => ?_, fun e he => (List.pairwise_cons.1 hright).1 e he htype⟩
  rw [Bool.eq_false_iff]
  intro habout
  obtain ⟨heq, hid⟩ := about_iff.1 habout
  have hpair := hcross e he ace List.mem_cons_self (heq ▸ htype)
  rw [about, heq, hid] at hpair
  simp at hpair

theorem about_update (who' : AceType × ℕ) (hne : who' ≠ (type, id)) (ha : about type id a = true) :
    about who'.1 who'.2 a = false := by
  rw [Bool.eq_false_iff]
  intro h
  obtain ⟨rfl, rfl⟩ := about_iff.1 ha
  obtain ⟨h1, h2⟩ := about_iff.1 h
  exact hne (Prod.ext h1.symm h2.symm)

theorem about_unused (who : AceType × ℕ) (hwho : who.1 ≠ .unused) (ha : a.ace_type = .unused) :
    about who.1 who.2 a = false := by
  rw [Bool.eq_false_iff]
  exact fun h => hwho ((about_iff.1 h).1.symm.trans ha)

/-- The map after `sys_aclput` found a slot. -/
theorem aclput_some (hacl : Distinct acl) (htype : type ≠ .unused)
    (h : aclput type id perms acl = some acl') :
    Distinct acl' ∧ acl'.length = acl.length ∧
      ∀ who : AceType × ℕ, who.1 ≠ .unused →
        policyOf acl' who = Function.update (policyOf acl) (type, id) (some perms) who := by
  unfold aclput at h
  split at h
  · rename_i found hfound
    cases h
    obtain ⟨pre, ace, post, rfl, rfl, hace, -⟩ := changeFirst_some hfound
    obtain ⟨hpre, hpost⟩ := hacl.alone hace htype
    obtain ⟨rfl, rfl⟩ := about_iff.1 hace
    refine ⟨hacl.replace (fun e he hused => ?_) fun _ => hpost, by simp, fun who hwho => ?_⟩
    · exact (List.pairwise_append.1 hacl).2.2 e he ace List.mem_cons_self hused
    · by_cases heq : who = (ace.ace_type, ace.ace_id)
      · rw [heq, Function.update_self]
        exact policyOf_at hpre hace
      · rw [Function.update_of_ne heq]
        exact policyOf_keep (about_update who heq hace) (about_update who heq hace)
  · rename_i hnone
    have hnew := changeFirst_none.1 hnone
    obtain ⟨pre, ace, post, rfl, rfl, hace, -⟩ := changeFirst_some h
    have hunused : ace.ace_type = .unused := of_decide_eq_true hace
    have hself : about type id ⟨id, type, perms⟩ = true := about_iff.2 ⟨rfl, rfl⟩
    have hpre : ∀ e ∈ pre, about type id e = false := fun e he => hnew e (List.mem_append_left _ he)
    refine ⟨hacl.replace (fun e he hused => ?_) fun _ e he => ?_, by simp, fun who hwho => ?_⟩
    · refine about_update (e.ace_type, e.ace_id) (fun heq => ?_) hself
      have hfalse := hpre e he
      rw [Prod.mk.injEq] at heq
      rw [about, heq.1, heq.2] at hfalse
      simp at hfalse
    · exact hnew e (List.mem_append_right _ (List.mem_cons_of_mem ace he))
    · by_cases heq : who = (type, id)
      · rw [heq, Function.update_self]
        exact policyOf_at hpre hself
      · rw [Function.update_of_ne heq]
        exact policyOf_keep (about_update who heq hself) (about_unused who hwho hunused)

/-- The map after `sys_aclclear`. -/
theorem aclclear_spec (id : ℕ) (hacl : Distinct acl) (htype : type ≠ .unused) :
    Distinct (aclclear type id acl) ∧ (aclclear type id acl).length = acl.length ∧
      ∀ who : AceType × ℕ, who.1 ≠ .unused →
        policyOf (aclclear type id acl) who = Function.update (policyOf acl) (type, id) none who := by
  unfold aclclear
  cases hfound : changeFirst (about type id) (fun _ => ⟨0, .unused, 0⟩) acl with
  | none =>
    have hnew := changeFirst_none.1 hfound
    refine ⟨hacl, rfl, fun who hwho => ?_⟩
    by_cases heq : who = (type, id)
    · rw [heq, Function.update_self]
      exact policyOf_none hnew
    · rw [Function.update_of_ne heq]
      rfl
  | some acl' =>
    obtain ⟨pre, ace, post, rfl, rfl, hace, -⟩ := changeFirst_some hfound
    obtain ⟨hpre, hpost⟩ := hacl.alone hace htype
    refine ⟨hacl.replace (fun e he hused => ?_) fun h => absurd rfl h, by simp, fun who hwho => ?_⟩
    · exact about_unused (e.ace_type, e.ace_id) hused rfl
    · by_cases heq : who = (type, id)
      · rw [heq, Function.update_self, Option.getD_some]
        refine policyOf_none fun e he => ?_
        rcases List.mem_append.1 he with he | he
        · exact hpre e he
        · rcases List.mem_cons.1 he with rfl | he
          · exact about_unused (type, id) htype rfl
          · exact hpost e he
      · rw [Function.update_of_ne heq, Option.getD_some]
        exact policyOf_keep (about_unused who hwho rfl) (about_update who heq hace)

/-- There is no room when every slot has an entry, and none of them is about the user or group. -/
theorem aclput_none : aclput type id perms acl = none ↔
    (∀ e ∈ acl, about type id e = false) ∧ ∀ e ∈ acl, e.ace_type ≠ .unused := by
  unfold aclput
  cases hfound : changeFirst (about type id) ({ · with ace_perms := perms }) acl with
  | some found =>
    obtain ⟨pre, ace, post, rfl, -, hace, -⟩ := changeFirst_some hfound
    refine iff_of_false (fun h => by cases h) fun h => ?_
    rw [h.1 ace (List.mem_append_right _ List.mem_cons_self)] at hace
    cases hace
  | none =>
    have hnew := changeFirst_none.1 hfound
    dsimp only
    rw [changeFirst_none]
    simp only [decide_eq_false_iff_not]
    exact ⟨fun h => ⟨hnew, h⟩, fun h => h.2⟩

/-! ## Accesses -/

variable {c : Caller} {inode : Inode} {k total : ℕ} {policy policy' : Policy}

theorem and_eq_iff (p perms : ℕ) :
    p &&& perms = perms ↔ ∀ k, perms.testBit k = true → p.testBit k = true := by
  constructor
  · intro h k hk
    rw [← h, Nat.testBit_and, Bool.and_eq_true] at hk
    exact hk.1
  · intro h
    refine Nat.eq_of_testBit_eq fun k => ?_
    rw [Nat.testBit_and]
    cases hk : perms.testBit k with
    | true => rw [h k hk, Bool.and_true]
    | false => rw [Bool.and_false]

theorem testBit_foldl (mine : List AccessControlEntry) (acc : ℕ) :
    (mine.foldl (fun perms e => perms ||| e.ace_perms) acc).testBit k = true ↔
      acc.testBit k = true ∨ ∃ e ∈ mine, e.ace_perms.testBit k = true := by
  induction mine generalizing acc with
  | nil => simp
  | cons e mine ih => simp [ih, Nat.testBit_or, or_assoc]

/-- An entry about a group of the caller. -/
def Mine (c : Caller) (ace : AccessControlEntry) : Prop :=
  ace.ace_type = .group ∧ (ace.ace_id = c.egid ∨ ace.ace_id ∈ c.groups)

instance (c : Caller) (ace : AccessControlEntry) : Decidable (Mine c ace) :=
  inferInstanceAs (Decidable (_ ∧ _))

theorem groupPerms_cases (c : Caller) (acl : List AccessControlEntry) :
    groupPerms c acl = none ∧ (∀ e ∈ acl, ¬Mine c e) ∨
      ∃ total, groupPerms c acl = some total ∧ (∃ e ∈ acl, Mine c e) ∧
        ∀ k, total.testBit k = true ↔ ∃ e ∈ acl, Mine c e ∧ e.ace_perms.testBit k = true := by
  unfold groupPerms
  dsimp only
  split_ifs with hnone
  · refine .inl ⟨rfl, fun e he hmine => ?_⟩
    exact absurd (List.mem_filter.2 ⟨he, decide_eq_true hmine⟩) (hnone ▸ List.not_mem_nil)
  · refine .inr ⟨_, rfl, ?_, fun k => ?_⟩
    · obtain ⟨e, he⟩ := List.exists_mem_of_ne_nil _ hnone
      obtain ⟨he, hmine⟩ := List.mem_filter.1 he
      exact ⟨e, he, of_decide_eq_true hmine⟩
    · rw [testBit_foldl, Nat.zero_testBit]
      simp only [Bool.false_eq_true, false_or, List.mem_filter, decide_eq_true_iff]
      exact exists_congr fun e => and_assoc

/-- The entry of a group of the caller is what the map says about the group. -/
theorem exists_mine (hacl : Distinct acl) (q : ℕ → Prop) :
    (∃ e ∈ acl, Mine c e ∧ q e.ace_perms) ↔
      ∃ gid ∈ c.egid :: c.groups, ∃ p, policyOf acl (.group, gid) = some p ∧ q p := by
  constructor
  · rintro ⟨e, he, ⟨htype, hid⟩, hq⟩
    have hused : e.ace_type ≠ .unused := fun h => by rw [htype] at h; cases h
    have hpolicy := policyOf_of_mem hacl he hused
    rw [htype] at hpolicy
    exact ⟨e.ace_id, List.mem_cons.2 hid, e.ace_perms, hpolicy, hq⟩
  · rintro ⟨gid, hgid, p, hp, hq⟩
    obtain ⟨e, he, rfl⟩ := Option.map_eq_some_iff.1 hp
    obtain ⟨htype, rfl⟩ := about_iff.1 (List.find?_some he)
    exact ⟨e, List.mem_of_find?_eq_some he, ⟨htype, List.mem_cons.1 hgid⟩, hq⟩

theorem vfsIsAllowed_iff (hacl : Distinct inode.acl) :
    vfsIsAllowed c inode perms = true ↔ (policyOf inode.acl).Allows c inode perms := by
  unfold vfsIsAllowed Policy.Allows
  by_cases hadmin : c.fsadmin = true
  · simp [hadmin]
  rw [if_neg hadmin, or_iff_right hadmin]
  have huser : policyOf inode.acl (.user, c.euid) =
      (inode.acl.find? fun e => e.ace_type = .user ∧ e.ace_id = c.euid).map (·.ace_perms) := rfl
  rw [huser]
  cases inode.acl.find? fun e => e.ace_type = .user ∧ e.ace_id = c.euid with
  | some e => simp only [Option.map_some, decide_eq_true_iff, and_eq_iff]
  | none =>
    simp only [Option.map_none, decide_eq_true_iff, and_eq_iff]
    have hany : (∃ e ∈ inode.acl, Mine c e) ↔
        ∃ gid ∈ c.egid :: c.groups, policyOf inode.acl (.group, gid) ≠ none := by
      have hmine := exists_mine (c := c) hacl fun _ => True
      simp only [and_true] at hmine
      simp only [hmine, Option.ne_none_iff_exists']
    obtain ⟨hnone, hno⟩ | ⟨total, hsome, hyes, hbits⟩ := groupPerms_cases c inode.acl
    · have hempty : ¬∃ gid ∈ c.egid :: c.groups, policyOf inode.acl (.group, gid) ≠ none := by
        rw [← hany]
        rintro ⟨e, he, hmine⟩
        exact hno e he hmine
      rw [hnone, if_neg hempty]
      rfl
    · rw [hsome, if_pos (hany.1 hyes)]
      simp only [Option.getD_some, hbits]
      exact forall_congr' fun k => imp_congr_right fun _ => exists_mine hacl fun p => p.testBit k = true

/-- Only what the map says of users and groups counts. -/
theorem Policy.allows_congr (h : ∀ who : AceType × ℕ, who.1 ≠ .unused → policy who = policy' who) :
    policy.Allows c inode perms ↔ policy'.Allows c inode perms := by
  have huser : policy (.user, c.euid) = policy' (.user, c.euid) := h _ (by simp)
  have hgroup : ∀ gid, policy (.group, gid) = policy' (.group, gid) := fun gid => h _ (by simp)
  unfold Policy.Allows
  rw [huser]
  simp only [hgroup]

/-! ## Runs -/

inductive Call
  | put (c : Caller) (type id perms : Int32)
  | clear (c : Caller) (type id : Int32)

def Call.exec (inode : Inode) : Call → Except Errno Inode
  | .put c type id perms => sys_aclput c type id perms inode
  | .clear c type id => sys_aclclear c type id inode

/-- What a call that succeeds means for the map. -/
def Call.act (policy : Policy) : Call → Policy
  | .put _ type id perms => ((checkId type id).map fun who => Function.update policy who (some perms.toInt.toNat)).getD policy
  | .clear _ type id => ((checkId type id).map fun who => Function.update policy who none).getD policy

/-- A call on the inode, and on the map if it succeeds. -/
def step (s : Inode × Policy) (call : Call) : Inode × Policy :=
  match call.exec s.1 with
  | .ok inode => (inode, call.act s.2)
  | .error _ => s

structure Tracks (s : Inode × Policy) : Prop where
  distinct : Distinct s.1.acl
  agrees : ∀ who : AceType × ℕ, who.1 ≠ .unused → policyOf s.1.acl who = s.2 who

theorem checkId_used {type id : Int32} (h : checkId type id = some who) : who.1 ≠ .unused := by
  unfold checkId at h
  split at h
  · cases h
  · rename_i htype
    split_ifs at h
    cases h
    unfold aceType at htype
    split_ifs at htype <;>
    · cases htype
      simp

theorem update_agrees {p : Option ℕ} (h : ∀ who : AceType × ℕ, who.1 ≠ .unused → policy who = policy' who)
    (w : AceType × ℕ) (hw : w.1 ≠ .unused) :
    Function.update policy who p w = Function.update policy' who p w := by
  by_cases heq : w = who
  · rw [heq, Function.update_self, Function.update_self]
  · rw [Function.update_of_ne heq, Function.update_of_ne heq, h w hw]

theorem Tracks.step {s : Inode × Policy} (h : Tracks s) (call : Call) : Tracks (step s call) := by
  unfold Acl.step
  cases hexec : call.exec s.1 with
  | error e => exact h
  | ok inode =>
    dsimp only
    cases call with
    | put c type id perms =>
      change sys_aclput c type id perms s.1 = .ok inode at hexec
      unfold sys_aclput at hexec
      cases hwho : checkId type id with
      | none =>
        rw [hwho] at hexec
        cases hexec
      | some who =>
        have hused := checkId_used hwho
        rw [hwho] at hexec
        dsimp only at hexec
        split_ifs at hexec
        cases hput : aclput who.1 who.2 perms.toInt.toNat s.1.acl with
        | none =>
          rw [hput] at hexec
          cases hexec
        | some acl =>
          rw [hput] at hexec
          cases hexec
          obtain ⟨hdistinct, -, hpolicy⟩ := aclput_some h.distinct hused hput
          refine ⟨hdistinct, fun w hw => ?_⟩
          rw [hpolicy w hw, Call.act, hwho]
          exact update_agrees h.agrees w hw
    | clear c type id =>
      change sys_aclclear c type id s.1 = .ok inode at hexec
      unfold sys_aclclear at hexec
      cases hwho : checkId type id with
      | none =>
        rw [hwho] at hexec
        cases hexec
      | some who =>
        have hused := checkId_used hwho
        rw [hwho] at hexec
        dsimp only at hexec
        split_ifs at hexec
        cases hexec
        obtain ⟨hdistinct, -, hpolicy⟩ := aclclear_spec who.2 h.distinct hused
        refine ⟨hdistinct, fun w hw => ?_⟩
        rw [hpolicy w hw, Call.act, hwho]
        exact update_agrees h.agrees w hw

theorem Tracks.run {s : Inode × Policy} (h : Tracks s) (calls : List Call) :
    Tracks (calls.foldl Acl.step s) := by
  induction calls generalizing s with
  | nil => exact h
  | cons call calls ih => exact ih (h.step call)

/-- After any calls, accesses to the inode are decided by the map that the calls made, and there is room for an entry
unless every slot is taken. -/
theorem access_decided_by_policy (start : Inode) (hstart : Distinct start.acl) (calls : List Call) :
    (∀ c perms, vfsIsAllowed c (calls.foldl step (start, policyOf start.acl)).1 perms = true ↔
      (calls.foldl step (start, policyOf start.acl)).2.Allows c
        (calls.foldl step (start, policyOf start.acl)).1 perms) ∧
    ∀ type id perms, type ≠ .unused →
      (aclput type id perms (calls.foldl step (start, policyOf start.acl)).1.acl = none ↔
        (calls.foldl step (start, policyOf start.acl)).2 (type, id) = none ∧
          ∀ e ∈ (calls.foldl step (start, policyOf start.acl)).1.acl, e.ace_type ≠ .unused) := by
  have htracks : Tracks (calls.foldl step (start, policyOf start.acl)) :=
    Tracks.run ⟨hstart, fun _ _ => rfl⟩ calls
  generalize calls.foldl step (start, policyOf start.acl) = s at htracks ⊢
  refine ⟨fun c perms => ?_, fun type id perms htype => ?_⟩
  · rw [vfsIsAllowed_iff htracks.distinct]
    exact Policy.allows_congr htracks.agrees
  · rw [aclput_none, ← htracks.agrees (type, id) htype]
    refine and_congr_left fun _ => ?_
    rw [policyOf, Option.map_eq_none_iff, List.find?_eq_none]
    simp only [Bool.not_eq_true]

theorem distinct_unused (n : ℕ) : Distinct (List.replicate n ⟨0, .unused, 0⟩) := by
  simp [Distinct, List.pairwise_replicate]

/-- A user who is not an administrator. -/
def user (euid : ℕ) : Caller where
  pid := some 1
  euid := euid
  egid := 5
  groups := [6]
  umask := 0
  fsadmin := false
  mount := false
  now := 0

theorem access_decided_by_policy_unused :
    vfsIsAllowed (user 7) ([Call.put (user 0) 2 6 4].foldl step
        ({ Inode.zero with acl := List.replicate 128 ⟨0, .unused, 0⟩ },
          policyOf (List.replicate 128 ⟨0, .unused, 0⟩))).1 4
        = true ↔
      ([Call.put (user 0) 2 6 4].foldl step ({ Inode.zero with acl := List.replicate 128 ⟨0, .unused, 0⟩ },
        policyOf (List.replicate 128 ⟨0, .unused, 0⟩))).2.Allows (user 7)
        ([Call.put (user 0) 2 6 4].foldl step ({ Inode.zero with acl := List.replicate 128 ⟨0, .unused, 0⟩ },
          policyOf (List.replicate 128 ⟨0, .unused, 0⟩))).1 4 :=
  (access_decided_by_policy
    { Inode.zero with acl := List.replicate 128 ⟨0, .unused, 0⟩ } (distinct_unused 128)
    [.put (user 0) 2 6 4]).1 (user 7) 4

end Glidix.Fs.Acl
