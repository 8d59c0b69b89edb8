import Mathlib.Data.List.Nodup
import Glidix.Users.Userctl

/-!
# The tables stay consistent

No two users share a name or a number, and no two groups do.  Every user has a password hash and is in the group of
its number, and every member of a group is a user.  The commands keep this, so it holds of the files after any number
of runs.
-/

namespace Glidix.Users

open Libc Libc.Strtok

/-- The members of a group. -/
def GroupEntry.users (ent : GroupEntry) : List (List UInt8) := tokens [COMMA] ent.members

structure Tables.Consistent (t : Tables) : Prop where
  proper : t.Proper
  usernames : (t.passwd.map (·.username)).Nodup
  uids : (t.passwd.map (·.uid)).Nodup
  groupnames : (t.group.map (·.groupname)).Nodup
  gids : (t.group.map (·.gid)).Nodup
  shadow : t.shadow.map (·.username) = t.passwd.map (·.username)
  primary : ∀ ent ∈ t.passwd, ∃ g ∈ t.group, g.gid = ent.gid ∧ ent.username ∈ g.users
  members : ∀ g ∈ t.group, ∀ m ∈ g.users, m ∈ t.passwd.map (·.username)
  /-- No comma too many. -/
  joined : ∀ g ∈ t.group, [COMMA].intercalate g.users = g.members

variable {t t' : Tables} {username hash home shell : List UInt8} {info : Option (List UInt8)}
  {g g' : GroupEntry}
  {used : List UInt16} {id n : UInt16} {table table' : List ShadowEntry}

/-! ## Numbers -/

theorem allocId_notMem (h : allocId used id = some n) : n ∉ used := by
  fun_induction allocId used id with
  | case1 => cases h
  | case2 id hid hmem ih => exact ih h
  | case3 id hid hmem =>
    cases h
    exact hmem

/-! ## The members of a group -/

theorem mem_users {m : List UInt8} (h : m ∈ g.users) : m ≠ [] ∧ COMMA ∉ m ∧ ∀ c ∈ m, c ∈ g.members := by
  rw [GroupEntry.users, tokens_eq] at h
  obtain ⟨hne, hall⟩ := mem_pieces h
  exact ⟨hne, fun hc => (hall _ hc).2 (List.mem_singleton.2 rfl), fun c hc => (hall c hc).1⟩

theorem users_singleton {name members : List UInt8} {gid : UInt16} (hne : members ≠ [])
    (hcomma : COMMA ∉ members) :
    GroupEntry.users ⟨name, EX, gid, members⟩ = [members] := by
  have htokens : tokens [COMMA] ([COMMA].intercalate [members]) = [members] :=
    tokens_intercalate (by simp [hne, hcomma])
  simpa [GroupEntry.users] using htokens

theorem intercalate_concat {c : UInt8} {ts : List (List UInt8)} {u : List UInt8} (h : ts ≠ []) :
    [c].intercalate (ts ++ [u]) = [c].intercalate ts ++ c :: u := by
  induction ts with
  | nil => exact absurd rfl h
  | cons v ts ih =>
    cases ts with
    | nil => simp [List.intercalate_cons_cons]
    | cons w ts =>
      rw [List.cons_append, List.cons_append, List.intercalate_cons_cons, ← List.cons_append,
        ih (List.cons_ne_nil w ts), List.intercalate_cons_cons, List.append_assoc _ _ (c :: u)]

theorem intercalate_eq_nil {c : UInt8} {ts : List (List UInt8)} (h : ∀ u ∈ ts, u ≠ []) :
    [c].intercalate ts = [] ↔ ts = [] := by
  cases ts with
  | nil => simp
  | cons v ts =>
    have hv : v ≠ [] := h v List.mem_cons_self
    cases ts with
    | nil => simpa using hv
    | cons w ts => simp [List.intercalate_cons_cons]

/-- The loop of `removeFromGroup` joins the members that stay. -/
theorem foldl_keepMember {ts toks : List (List UInt8)} (hts : ∀ u ∈ ts, u ≠ [])
    (htoks : ∀ u ∈ toks, u ≠ []) :
    toks.foldl (keepMember username) ([COMMA].intercalate ts) =
      [COMMA].intercalate (ts ++ toks.filter (· ≠ username)) := by
  induction toks generalizing ts with
  | nil => simp
  | cons tok toks ih =>
    have htok : tok ≠ [] := htoks tok List.mem_cons_self
    have hrest : ∀ u ∈ toks, u ≠ [] := fun u hu => htoks u (List.mem_cons_of_mem tok hu)
    rw [List.foldl_cons]
    by_cases heq : tok = username
    · rw [keepMember, if_pos heq, ih hts hrest, List.filter_cons_of_neg (by simp [heq])]
    · have hstep : keepMember username ([COMMA].intercalate ts) tok = [COMMA].intercalate (ts ++ [tok]) := by
        rw [keepMember, if_neg heq]
        by_cases hnil : ts = []
        · rw [if_pos ((intercalate_eq_nil hts).2 hnil), hnil]
          simp
        · rw [if_neg fun h => hnil ((intercalate_eq_nil hts).1 h), intercalate_concat hnil]
      have hmem : ∀ u ∈ ts ++ [tok], u ≠ [] := by
        intro u hu
        rcases List.mem_append.1 hu with hu | hu
        · exact hts u hu
        · exact List.mem_singleton.1 hu ▸ htok
      rw [hstep, ih hmem hrest, List.filter_cons_of_pos (by simp [heq]), List.append_assoc,
        List.singleton_append]

theorem removeFromGroup_eq (username : List UInt8) (g : GroupEntry) :
    removeFromGroup username g =
      if g.users.filter (· ≠ username) = [] then none
      else some { g with members := [COMMA].intercalate (g.users.filter (· ≠ username)) } := by
  have htoks : ∀ u ∈ g.users, u ≠ [] := fun u hu => (mem_users hu).1
  have hfilter : ∀ u ∈ g.users.filter (· ≠ username), u ≠ [] := fun u hu => htoks u (List.mem_filter.1 hu).1
  have hfold : g.users.foldl (keepMember username) ([COMMA].intercalate []) = _ :=
    foldl_keepMember (fun _ h => absurd h List.not_mem_nil) htoks
  rw [List.nil_append, List.intercalate_nil] at hfold
  rw [removeFromGroup, ← GroupEntry.users, hfold]
  simp only [intercalate_eq_nil hfilter]

/-- What a group is like after a removal that leaves it. -/
theorem removeFromGroup_some (h : removeFromGroup username g = some g') :
    g'.groupname = g.groupname ∧ g'.gid = g.gid ∧ g'.ex = g.ex ∧ g'.users = g.users.filter (· ≠ username) ∧
      g'.users ≠ [] ∧ g'.members = [COMMA].intercalate g'.users := by
  rw [removeFromGroup_eq] at h
  split_ifs at h with hnil
  cases h
  have husers : GroupEntry.users { g with members := [COMMA].intercalate (g.users.filter (· ≠ username)) } =
      g.users.filter (· ≠ username) :=
    tokens_intercalate fun u hu =>
      ⟨(mem_users (List.mem_filter.1 hu).1).1, (mem_users (List.mem_filter.1 hu).1).2.1⟩
  exact ⟨rfl, rfl, rfl, husers, husers.trans_ne hnil,
    congrArg ([COMMA].intercalate ·) husers.symm⟩

/-- A group the user is not in stays as it is. -/
theorem removeFromGroup_of_notMem (hjoined : [COMMA].intercalate g.users = g.members) (hne : g.members ≠ [])
    (h : username ∉ g.users) : removeFromGroup username g = some g := by
  have hfilter : g.users.filter (· ≠ username) = g.users :=
    List.filter_eq_self.2 fun u hu => decide_eq_true fun heq => h (heq ▸ hu)
  have husers : g.users ≠ [] := fun hnil => hne (by rw [← hjoined, hnil]; rfl)
  rw [removeFromGroup_eq, hfilter, if_neg husers, hjoined]

theorem filterMap_keys {α : Type} (key : GroupEntry → α) (f : GroupEntry → Option GroupEntry)
    (hkey : ∀ g g', f g = some g' → key g' = key g) (l : List GroupEntry) :
    ((l.filterMap f).map key).Sublist (l.map key) := by
  induction l with
  | nil => exact List.Sublist.refl _
  | cons g l ih =>
    cases hg : f g with
    | none =>
      rw [List.filterMap_cons_none hg, List.map_cons]
      exact ih.cons (key g)
    | some g' =>
      rw [List.filterMap_cons_some hg, List.map_cons, List.map_cons, hkey g g' hg]
      exact ih.cons_cons (key g)

/-! ## `adduser` -/

/-- What `adduser` does when it does not fail. -/
theorem Tables.adduser_some (h : t.adduser username hash home shell info = some t') :
    username ∉ t.passwd.map (·.username) ∧ username ∉ t.group.map (·.groupname) ∧
      ∃ uid gid, uid ∉ t.passwd.map (·.uid) ∧ gid ∉ t.group.map (·.gid) ∧
        t' = ⟨t.passwd ++ [⟨username, EX, uid, gid, info.getD username, home, shell⟩],
          t.group ++ [⟨username, EX, gid, username⟩],
          t.shadow ++ [⟨username, hash, RESV, RESV, RESV, RESV, RESV, RESV⟩]⟩ := by
  unfold Tables.adduser at h
  split_ifs at h with hpasswd hgroup
  cases huid : allocId (t.passwd.map (·.uid)) 1000 with
  | none =>
    rw [huid] at h
    cases h
  | some uid =>
    cases hgid : allocId (t.group.map (·.gid)) 1000 with
    | none =>
      rw [huid, hgid] at h
      cases h
    | some gid =>
      rw [huid, hgid] at h
      cases h
      refine ⟨?_, ?_, uid, gid, allocId_notMem huid, allocId_notMem hgid, rfl⟩
      · simpa using hpasswd
      · simpa using hgroup

theorem nodup_map_concat {α β : Type} {key : α → β} {l : List α} {x : α} (h : (l.map key).Nodup)
    (hx : key x ∉ l.map key) : ((l ++ [x]).map key).Nodup := by
  rw [List.map_append, List.map_singleton]
  exact List.nodup_append.2 ⟨h, List.nodup_singleton _, fun a ha b hb => by
    rw [List.mem_singleton.1 hb]
    exact fun heq => hx (heq ▸ ha)⟩

theorem Tables.Consistent.adduser (ht : t.Consistent) (husername : Text username) (hcomma : COMMA ∉ username)
    (hhash : Text hash) (hhome : Text home) (hshell : Text shell) (hinfo : Text (info.getD username))
    (h : t.adduser username hash home shell info = some t') : t'.Consistent := by
  obtain ⟨hpasswd, hgroup, uid, gid, huid, hgid, rfl⟩ := Tables.adduser_some h
  have husers : GroupEntry.users ⟨username, EX, gid, username⟩ = [username] :=
    users_singleton husername.ne_nil hcomma
  have hresv : Text RESV := by decide
  refine ⟨⟨?_, ?_, ?_⟩, ?_, ?_, ?_, ?_, ?_, ?_, ?_, ?_⟩
  · exact List.forall_mem_append.2 ⟨ht.proper.passwd, by simpa using ⟨husername, rfl, hinfo, hhome, hshell⟩⟩
  · exact List.forall_mem_append.2 ⟨ht.proper.group, by simpa using ⟨husername, rfl, husername⟩⟩
  · refine List.forall_mem_append.2 ⟨ht.proper.shadow, ?_⟩
    simp [ShadowEntry.Proper, ShadowEntry.fields, husername, hhash, hresv]
  · exact nodup_map_concat ht.usernames hpasswd
  · exact nodup_map_concat ht.uids huid
  · exact nodup_map_concat ht.groupnames hgroup
  · exact nodup_map_concat ht.gids hgid
  · rw [List.map_append, List.map_append, ht.shadow]
    rfl
  · intro ent hent
    rcases List.mem_append.1 hent with hent | hent
    · obtain ⟨g, hg, hprimary⟩ := ht.primary ent hent
      exact ⟨g, List.mem_append_left _ hg, hprimary⟩
    · rw [List.mem_singleton.1 hent]
      exact ⟨_, List.mem_append_right _ List.mem_cons_self, rfl, husers ▸ List.mem_cons_self⟩
  · intro g hg m hm
    rw [List.map_append]
    rcases List.mem_append.1 hg with hg | hg
    · exact List.mem_append_left _ (ht.members g hg m hm)
    · rw [List.mem_singleton.1 hg, husers] at hm
      exact List.mem_append_right _ hm
  · intro g hg
    rcases List.mem_append.1 hg with hg | hg
    · exact ht.joined g hg
    · rw [List.mem_singleton.1 hg, husers]
      simp

/-! ## `rmuser` -/

theorem Tables.rmuser_some (h : t.rmuser username = some t') :
    username ∈ t.passwd.map (·.username) ∧
      t' = ⟨t.passwd.eraseP (·.username == username), t.group.filterMap (removeFromGroup username),
        t.shadow.eraseP (·.username == username)⟩ := by
  unfold Tables.rmuser at h
  split_ifs at h with hany
  cases h
  exact ⟨by simpa using hany, rfl⟩

theorem map_eraseP {α β : Type} [BEq β] [LawfulBEq β] (key : α → β) (b : β) (l : List α) :
    (l.eraseP (key · == b)).map key = (l.map key).erase b := by
  rw [List.erase_eq_eraseP', List.eraseP_map]
  rfl

/-- The entry that is removed is the only one with the name. -/
theorem mem_eraseP_key {α β : Type} [BEq β] [LawfulBEq β] {key : α → β} {b : β} {l : List α} {x : α}
    (hl : (l.map key).Nodup) : x ∈ l.eraseP (key · == b) ↔ x ∈ l ∧ key x ≠ b := by
  constructor
  · intro hmem
    have hkey := List.mem_map_of_mem (f := key) hmem
    rw [map_eraseP] at hkey
    exact ⟨List.mem_of_mem_eraseP hmem, fun heq => hl.not_mem_erase (heq ▸ hkey)⟩
  · rintro ⟨hmem, hne⟩
    exact (List.mem_eraseP_of_neg (by simpa using hne)).2 hmem

theorem Tables.Consistent.mem_rmuser_passwd (ht : t.Consistent) (h : t.rmuser username = some t')
    {ent : PasswdEntry} : ent ∈ t'.passwd ↔ ent ∈ t.passwd ∧ ent.username ≠ username := by
  obtain ⟨-, rfl⟩ := Tables.rmuser_some h
  exact mem_eraseP_key ht.usernames

theorem Tables.Consistent.mem_rmuser_shadow (ht : t.Consistent) (h : t.rmuser username = some t')
    {ent : ShadowEntry} : ent ∈ t'.shadow ↔ ent ∈ t.shadow ∧ ent.username ≠ username := by
  have hnodup : (t.shadow.map (·.username)).Nodup := ht.shadow ▸ ht.usernames
  obtain ⟨-, rfl⟩ := Tables.rmuser_some h
  exact mem_eraseP_key hnodup

/-- What was appended under a new name is what is removed under it. -/
theorem eraseP_concat {α β : Type} [BEq β] [LawfulBEq β] {key : α → β} {b : β} {l : List α} {x : α}
    (hl : b ∉ l.map key) (hx : key x = b) : (l ++ [x]).eraseP (key · == b) = l := by
  have hold : ∀ y ∈ l, ¬(key y == b) = true := fun y hy heq => hl (List.mem_map.2 ⟨y, hy, eq_of_beq heq⟩)
  rw [List.eraseP_append_right _ hold, List.eraseP_cons_of_pos (by simp [hx]), List.append_nil]

theorem mem_removed (hg : g' ∈ t.group.filterMap (removeFromGroup username)) :
    ∃ g ∈ t.group, removeFromGroup username g = some g' := List.mem_filterMap.1 hg

/-- A group keeps every member but the one that is removed, and is kept for them. -/
theorem Tables.rmuser_group {m : List UInt8} (hg : g ∈ t.group) (hm : m ∈ g.users) (hne : m ≠ username) :
    ∃ g' ∈ t.group.filterMap (removeFromGroup username),
      g'.groupname = g.groupname ∧ g'.gid = g.gid ∧ m ∈ g'.users := by
  have hmem : m ∈ g.users.filter (· ≠ username) := List.mem_filter.2 ⟨hm, decide_eq_true hne⟩
  cases hrm : removeFromGroup username g with
  | none =>
    rw [removeFromGroup_eq, if_neg (List.ne_nil_of_mem hmem)] at hrm
    cases hrm
  | some g' =>
    obtain ⟨hname, hgid, -, husers, -, -⟩ := removeFromGroup_some hrm
    exact ⟨g', List.mem_filterMap.2 ⟨g, hg, hrm⟩, hname, hgid, husers ▸ hmem⟩

theorem text_members {ts : List (List UInt8)} (hne : ts ≠ [])
    (hts : ∀ u ∈ ts, u ≠ [] ∧ ∀ c ∈ u, c ∈ g.members)
    (h : Text g.members) : Text ([COMMA].intercalate ts) := by
  have hmem : ∀ c ∈ [COMMA].intercalate ts, c = COMMA ∨ c ∈ g.members := by
    intro c hc
    obtain hc | ⟨u, hu, hc⟩ := mem_intercalate hc
    · exact .inl hc
    · exact .inr ((hts u hu).2 c hc)
  refine ⟨fun hnil => hne ((intercalate_eq_nil fun u hu => (hts u hu).1).1 hnil), fun hc => ?_, fun hc => ?_,
    fun hc => ?_⟩
  · rcases hmem _ hc with hc | hc
    · exact absurd hc (by decide)
    · exact h.colon hc
  · rcases hmem _ hc with hc | hc
    · exact absurd hc (by decide)
    · exact h.newline hc
  · rcases hmem _ hc with hc | hc
    · exact absurd hc (by decide)
    · exact h.nul hc

theorem Tables.Consistent.rmuser (ht : t.Consistent) (h : t.rmuser username = some t') : t'.Consistent := by
  obtain ⟨-, rfl⟩ := Tables.rmuser_some h
  refine ⟨⟨?_, ?_, ?_⟩, ?_, ?_, ?_, ?_, ?_, ?_, ?_, ?_⟩
  · exact fun ent hent => ht.proper.passwd ent (List.mem_of_mem_eraseP hent)
  · intro g' hg'
    obtain ⟨g, hg, hrm⟩ := mem_removed hg'
    obtain ⟨hname, -, hex, husers, hne, hmembers⟩ := removeFromGroup_some hrm
    have hproper := ht.proper.group g hg
    refine ⟨hname ▸ hproper.groupname, hex ▸ hproper.ex, hmembers ▸ text_members hne ?_ hproper.members⟩
    intro u hu
    rw [husers] at hu
    exact ⟨(mem_users (List.mem_filter.1 hu).1).1, (mem_users (List.mem_filter.1 hu).1).2.2⟩
  · exact fun ent hent => ht.proper.shadow ent (List.mem_of_mem_eraseP hent)
  · exact ht.usernames.sublist (List.eraseP_sublist.map _)
  · exact ht.uids.sublist (List.eraseP_sublist.map _)
  · exact ht.groupnames.sublist (filterMap_keys _ _ (fun g g' hrm => (removeFromGroup_some hrm).1) _)
  · exact ht.gids.sublist (filterMap_keys _ _ (fun g g' hrm => (removeFromGroup_some hrm).2.1) _)
  · dsimp only
    rw [map_eraseP ShadowEntry.username, map_eraseP PasswdEntry.username]
    exact congrArg (List.erase · username) ht.shadow
  · intro ent hent
    obtain ⟨hmem, hne⟩ := (mem_eraseP_key ht.usernames).1 hent
    obtain ⟨g, hg, hgid, huser⟩ := ht.primary ent hmem
    obtain ⟨g', hg', -, hgid', huser'⟩ := Tables.rmuser_group hg huser hne
    exact ⟨g', hg', hgid'.trans hgid, huser'⟩
  · intro g' hg' m hm
    obtain ⟨g, hg, hrm⟩ := mem_removed hg'
    obtain ⟨-, -, -, husers, -, -⟩ := removeFromGroup_some hrm
    rw [husers] at hm
    obtain ⟨hm, hne⟩ := List.mem_filter.1 hm
    obtain ⟨ent, hent, rfl⟩ := List.mem_map.1 (ht.members g hg m hm)
    exact List.mem_map_of_mem ((mem_eraseP_key ht.usernames).2 ⟨hent, of_decide_eq_true hne⟩)
  · intro g' hg'
    obtain ⟨g, hg, hrm⟩ := mem_removed hg'
    exact (removeFromGroup_some hrm).2.2.2.2.2.symm

/-! ## `hash` -/

theorem setHash_some (h : setHash username hash table = some table') :
    table'.map (·.username) = table.map (·.username) ∧
      ∀ ent ∈ table', ent ∈ table ∨ ∃ old ∈ table, ent = { old with hash := hash } := by
  induction table generalizing table' with
  | nil => cases h
  | cons e table ih =>
    rw [setHash] at h
    split_ifs at h with heq
    · cases h
      refine ⟨rfl, fun ent hent => ?_⟩
      rcases List.mem_cons.1 hent with rfl | hent
      · exact .inr ⟨e, List.mem_cons_self, rfl⟩
      · exact .inl (List.mem_cons_of_mem e hent)
    · obtain ⟨rest, hrest, rfl⟩ := Option.map_eq_some_iff.1 h
      obtain ⟨hnames, hmem⟩ := ih hrest
      refine ⟨by rw [List.map_cons, List.map_cons, hnames], fun ent hent => ?_⟩
      rcases List.mem_cons.1 hent with rfl | hent
      · exact .inl List.mem_cons_self
      · rcases hmem ent hent with hent | ⟨old, hold, rfl⟩
        · exact .inl (List.mem_cons_of_mem e hent)
        · exact .inr ⟨old, List.mem_cons_of_mem e hold, rfl⟩

theorem Tables.Consistent.setHash (ht : t.Consistent) (hhash : Text hash)
    (h : setHash username hash t.shadow = some table) : Tables.Consistent { t with shadow := table } := by
  obtain ⟨hnames, hmem⟩ := setHash_some h
  have hproper : ∀ ent ∈ table, ent.Proper := by
    intro ent hent
    rcases hmem ent hent with hent | ⟨old, hold, rfl⟩
    · exact ht.proper.shadow ent hent
    · have htext := ht.proper.shadow old hold
      intro u hu
      rcases List.mem_cons.1 hu with rfl | hu
      · exact htext _ List.mem_cons_self
      · rcases List.mem_cons.1 hu with rfl | hu
        · exact hhash
        · exact htext u (List.mem_cons_of_mem _ (List.mem_cons_of_mem _ hu))
  exact ⟨⟨ht.proper.passwd, ht.proper.group, hproper⟩, ht.usernames, ht.uids, ht.groupnames, ht.gids,
    hnames.trans ht.shadow, ht.primary, ht.members, ht.joined⟩

end Glidix.Users
