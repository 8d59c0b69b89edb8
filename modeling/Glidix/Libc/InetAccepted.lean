import Glidix.Libc.InetParse

/-!
# The texts that the parsers accept

`inet_pton4` accepts four runs of digits that are `Loose`.  `inet_pton6` accepts these, also behind
`::ffff:`, and up to eight groups, with the gap between them or without.
-/

namespace Glidix.Libc.Inet

variable {text quad : List UInt8} {s e s' e' : List (List UInt8)} {addr : List UInt16}

theorem inet_pton4_iff (htext : 0 ∉ text) : (∃ r, inet_pton4 (text ++ [0]) = some r) ∧
    (inet_pton4 (text ++ [0]) = some (some quad) ↔ Pieces 3 [] quad text) :=
  pton4Loop_iff 3 rfl htext

theorem Pieces.dot_mem {k : ℕ} {dst : List UInt8} (h : Pieces (k + 1) dst quad text) :
    DOT ∈ text := by
  obtain ⟨pieces, hlen, -, rfl, -⟩ := h
  match pieces with
  | p :: q :: pieces => simp

/-- Groups without a gap. -/
def Plain (s : List (List UInt8)) (text : List UInt8) : Prop :=
  s ≠ [] ∧ (∀ p ∈ s, HexGroup p) ∧ text = joined s

/-- Groups with a gap; there may be none on either side. -/
def Gapped (s e : List (List UInt8)) (text : List UInt8) : Prop :=
  (∀ p ∈ s ++ e, HexGroup p) ∧ text = joined s ++ (GAP ++ joined e)

/-! ## One reading -/

theorem Plain.reads (h : Plain s text) (hle : s.length ≤ 8) :
    Reads ⟨[], [], false⟩ text ⟨s.map hexValue, [], false⟩ := by
  obtain ⟨hs, hhex, rfl⟩ := h
  exact reads_joined_start (g := ⟨[], [], false⟩) rfl hs hhex (by simpa using hle)

theorem Gapped.reads (h : Gapped s e text) (hs : s ≠ []) (hle : s.length + e.length ≤ 8) :
    Reads ⟨[], [], false⟩ text ⟨s.map hexValue, e.map hexValue, true⟩ := by
  obtain ⟨hhex, rfl⟩ := h
  exact reads_joined_gap (g := ⟨[], [], false⟩) rfl hs hhex (by simp; omega) (by simp; omega)

theorem Gapped.reads_stop (h : Gapped [] e text) (he : e ≠ []) (hle : e.length ≤ 8) :
    text = GAP ++ joined e ∧ Reads ⟨[], [], true⟩ (joined e) ⟨[], e.map hexValue, true⟩ :=
  ⟨h.2, reads_joined_stop (g := ⟨[], [], true⟩) rfl he h.1 (by simpa using hle)⟩

theorem Reads.unique {g g' g'' : Groups} (h : Reads g text g') (h' : Reads g text g'') :
    g' = g'' := by
  have hloop := h.loop (Nat.lt_succ_self _)
  rw [h'.loop (Nat.lt_succ_self _)] at hloop
  simpa using hloop.symm

/-- What the loop reads does not start with a gap. -/
theorem Reads.ne_gap {g g' : Groups} (h : Reads g text g') : ¬ GAP <+: text := by
  obtain ⟨c, q, rfl, hc⟩ := h.head
  exact fun hp => ne_colon_of_isDigit hc (List.cons_prefix_cons.1 hp).1.symm

theorem Gapped.gap_prefix (h : Gapped [] e text) : GAP <+: text := ⟨joined e, h.2.symm⟩

theorem joined_ne_nil (he : e ≠ []) (hhex : ∀ p ∈ e, HexGroup p) : joined e ≠ [] := by
  cases e with
  | nil => exact absurd rfl he
  | cons p e =>
    have hp := (hhex p List.mem_cons_self).1
    by_cases hnil : e = []
    · rwa [hnil, joined_singleton]
    · rw [joined_cons hnil]
      simp

theorem Plain.length_unique (h : Plain s text) (h' : Plain s' text) (hle : s.length ≤ 8)
    (hle' : s'.length ≤ 8) : s.length = s'.length := by
  have heq := congrArg (fun g => g.start.length) ((h.reads hle).unique (h'.reads hle'))
  simpa using heq

theorem Plain.not_gapped (h : Plain s text) (h' : Gapped s' e' text) (hle : s.length ≤ 8)
    (hle' : s'.length + e'.length ≤ 8) : False := by
  by_cases hnil : s' = []
  · subst hnil
    exact (h.reads hle).ne_gap h'.gap_prefix
  · exact absurd (congrArg Groups.gap ((h.reads hle).unique (h'.reads hnil hle')))
      Bool.false_ne_true

theorem Gapped.length_unique (h : Gapped s e text) (h' : Gapped s' e' text)
    (hle : s.length + e.length ≤ 8) (hle' : s'.length + e'.length ≤ 8) :
    s.length + e.length = s'.length + e'.length := by
  by_cases hs : s = []
  · subst hs
    by_cases hs' : s' = []
    · subst hs'
      have hjoined : joined e = joined e' := List.append_cancel_left (h.2.symm.trans h'.2)
      by_cases he : e = []
      · by_cases he' : e' = []
        · rw [he, he']
        · rw [he] at hjoined
          exact absurd hjoined.symm (joined_ne_nil he' h'.1)
      · by_cases he' : e' = []
        · rw [he'] at hjoined
          exact absurd hjoined (joined_ne_nil he h.1)
        · have hread := (h.reads_stop he (by simpa using hle)).2
          rw [hjoined] at hread
          have heq := congrArg (fun g => g.stop.length)
            (hread.unique (h'.reads_stop he' (by simpa using hle')).2)
          simpa using heq
    · exact absurd h.gap_prefix (h'.reads hs' hle').ne_gap
  · by_cases hs' : s' = []
    · subst hs'
      exact absurd h'.gap_prefix (h.reads hs hle).ne_gap
    · have heq := congrArg (fun g => g.start.length + g.stop.length)
        ((h.reads hs hle).unique (h'.reads hs' hle'))
      simpa using heq

/-! ## The general case -/

/-- The address that the groups make, unless they are too many. -/
def addressOf (groups : Groups) : Option (List UInt16) :=
  if 8 < groups.start.length + groups.stop.length then none else some groups.address

theorem ptonGroups_eq {src : List UInt8} {leading : Bool} {r : Option Groups}
    (h : memcmpEq GAP src = some leading)
    (hloop : groupsLoop ((if leading then src.drop 2 else src).length + 1) ⟨[], [], leading⟩
      (if leading then src.drop 2 else src) = some r) :
    ptonGroups src = some (r.bind addressOf) := by
  simp only [ptonGroups, h, Option.bind_eq_bind, Option.bind_some, hloop]
  cases r with
  | none => rfl
  | some groups =>
    simp only [addressOf, Option.bind_some]
    split_ifs <;> rfl

theorem memcmpEq_gap_of_not (htext : 0 ∉ text) (h : ¬ GAP <+: text) :
    memcmpEq GAP (text ++ [0]) = some false := by
  obtain ⟨rest, rfl, -⟩ | ⟨-, hcmp⟩ := @memcmpEq_terminated _ GAP (by decide) htext
  · exact absurd (List.prefix_append _ _) h
  · exact hcmp

theorem ptonGroups_not_gap {r : Option Groups} (htext : 0 ∉ text) (h : ¬ GAP <+: text)
    (hloop : groupsLoop ((text ++ [0]).length + 1) ⟨[], [], false⟩ (text ++ [0]) = some r) :
    ptonGroups (text ++ [0]) = some (r.bind addressOf) :=
  ptonGroups_eq (memcmpEq_gap_of_not htext h) hloop

theorem ptonGroups_gap {rest : List UInt8} {r : Option Groups}
    (hloop : groupsLoop ((rest ++ [0]).length + 1) ⟨[], [], true⟩ (rest ++ [0]) = some r) :
    ptonGroups (GAP ++ rest ++ [0]) = some (r.bind addressOf) := by
  have hcmp : memcmpEq GAP (GAP ++ rest ++ [0]) = some true := by
    rw [List.append_assoc]
    exact memcmpEq_append GAP _
  exact ptonGroups_eq hcmp hloop

theorem ptonGroups_plain (h : Plain s text) (htext : 0 ∉ text) (hle : s.length ≤ 8) :
    ptonGroups (text ++ [0]) = some (some (Groups.address ⟨s.map hexValue, [], false⟩)) := by
  have hread := h.reads hle
  rw [ptonGroups_not_gap htext hread.ne_gap (hread.loop (by rw [List.length_append]; omega)), Option.bind_some,
    addressOf, if_neg (by simp; omega)]

theorem ptonGroups_gapped (h : Gapped s e text) (htext : 0 ∉ text) (hne : s ≠ [] ∨ e ≠ [])
    (hle : s.length + e.length ≤ 8) :
    ptonGroups (text ++ [0]) = some (some (Groups.address ⟨s.map hexValue, e.map hexValue, true⟩)) := by
  by_cases hs : s = []
  · subst hs
    obtain ⟨rfl, hread⟩ := h.reads_stop (hne.resolve_left fun hn => hn rfl) (by simpa using hle)
    rw [ptonGroups_gap (hread.loop (by rw [List.length_append]; omega)), Option.bind_some, addressOf,
      if_neg (by simp at hle ⊢; omega)]
    rfl
  · have hread := h.reads hs hle
    rw [ptonGroups_not_gap htext hread.ne_gap (hread.loop (by rw [List.length_append]; omega)), Option.bind_some,
      addressOf, if_neg (by simp; omega)]

/-- What the general case accepts. -/
theorem ptonGroups_accepts (htext : 0 ∉ text) : ∃ r, ptonGroups (text ++ [0]) = some r ∧
    (r.isSome = true → (∃ s, Plain s text ∧ s.length ≤ 8) ∨
      ∃ s e, Gapped s e text ∧ s.length + e.length ≤ 8) := by
  by_cases hgap : GAP <+: text
  · obtain ⟨rest, rfl⟩ := hgap
    obtain ⟨r, hr, hall⟩ := groupsLoop_reads (g := ⟨[], [], true⟩)
      (show rest.length < (rest ++ [0]).length + 1 by rw [List.length_append]; omega)
      fun h => htext (List.mem_append_right _ h)
    refine ⟨_, ptonGroups_gap hr, fun hsome => .inr ?_⟩
    cases r with
    | none => cases hsome
    | some groups =>
      obtain ⟨e, -, hhex, hle, rfl, -⟩ := (hall groups rfl).stop_spelled rfl (Nat.zero_le _)
      exact ⟨[], e, ⟨hhex, rfl⟩, by simpa using hle⟩
  · obtain ⟨r, hr, hall⟩ := groupsLoop_reads (g := ⟨[], [], false⟩)
      (show text.length < (text ++ [0]).length + 1 by rw [List.length_append]; omega) htext
    refine ⟨_, ptonGroups_not_gap htext hgap hr, fun hsome => ?_⟩
    cases r with
    | none => cases hsome
    | some groups =>
      obtain ⟨s, e, hs, hhex, hle, -, ⟨rfl, rfl, rfl⟩ | ⟨rfl, rfl⟩⟩ :=
        (hall groups rfl).start_spelled rfl (Nat.zero_le _) (Nat.zero_le _)
      · exact .inl ⟨s, ⟨hs, by simpa using hhex, rfl⟩, by simpa using hle⟩
      · refine .inr ⟨s, e, ⟨hhex, rfl⟩, ?_⟩
        by_contra hgt
        rw [Option.bind_some, addressOf, if_pos (by simpa using hgt)] at hsome
        cases hsome

/-! ## The special cases -/

/-- No groups have a dot. -/
theorem HexGroup.dot_not_mem {p : List UInt8} (h : HexGroup p) : DOT ∉ p := fun hd =>
  absurd (h.2.2 DOT hd) (by decide)

theorem joined_not_mem {c : UInt8} (hc : c ≠ COLON) (h : ∀ p ∈ s, c ∉ p) : c ∉ joined s := by
  induction s with
  | nil => simp [joined, List.intercalate]
  | cons p s ih =>
    obtain ⟨hp, hs⟩ := List.forall_mem_cons.1 h
    by_cases hnil : s = []
    · rwa [hnil, joined_singleton]
    · rw [joined_cons hnil]
      simp [hp, hc, ih hs]

theorem HexGroup.nul_not_mem {p : List UInt8} (h : HexGroup p) : 0 ∉ p := fun hd =>
  ne_zero_of_isDigit (h.2.2 0 hd) rfl

theorem Gapped.not_mem {c : UInt8} (h : Gapped s e text) (hc : c ≠ COLON)
    (hno : ∀ p, HexGroup p → c ∉ p) : c ∉ text := by
  obtain ⟨hhex, rfl⟩ := h
  have hs := joined_not_mem hc fun p hp => hno p (hhex p (List.mem_append_left _ hp))
  have he := joined_not_mem hc fun p hp => hno p (hhex p (List.mem_append_right _ hp))
  simp [hs, he, GAP, hc]

theorem Plain.not_mem {c : UInt8} (h : Plain s text) (hc : c ≠ COLON)
    (hno : ∀ p, HexGroup p → c ∉ p) : c ∉ text := by
  obtain ⟨-, hhex, rfl⟩ := h
  exact joined_not_mem hc fun p hp => hno p (hhex p hp)

theorem inet_pton4_no_dot (htext : 0 ∉ text) (hdot : DOT ∉ text) :
    inet_pton4 (text ++ [0]) = some none := by
  obtain ⟨⟨r, hr⟩, -⟩ := @inet_pton4_iff _ [] htext
  cases r with
  | none => exact hr
  | some quad => exact absurd ((inet_pton4_iff htext).2.1 hr).dot_mem hdot

end Glidix.Libc.Inet
