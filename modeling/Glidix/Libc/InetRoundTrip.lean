import Mathlib.Data.List.Basic
import Glidix.Libc.InetAccepted

/-!
# Addresses that are written and read

The text of an address is read back as the address.  The parsers accept more than the grammar of
addresses has: numbers without digits or with a value that an `int` does not hold, fewer than eight
groups without a gap, and eight groups with one.
-/

namespace Glidix.Libc.Inet

variable {text quad : List UInt8} {s e : List (List UInt8)} {addr : List UInt16}

/-! ## `inet_pton6` -/

theorem strcmp_eq {pattern : List UInt8} (hpattern : 0 ∉ pattern) (htext : 0 ∉ text) :
    memcmpEq (pattern ++ [0]) (text ++ [0]) = some (decide (text = pattern)) := by
  induction pattern generalizing text with
  | nil =>
    cases text with
    | nil => rfl
    | cons d text => exact (if_neg (List.ne_of_not_mem_cons htext)).trans (by simp)
  | cons c pattern ih =>
    cases text with
    | nil => exact (if_neg (List.ne_of_not_mem_cons hpattern).symm).trans (by simp)
    | cons d text =>
      by_cases hcd : c = d
      · subst hcd
        refine (if_pos rfl).trans ?_
        have hrec := ih (List.not_mem_of_not_mem_cons hpattern) (List.not_mem_of_not_mem_cons htext)
        simpa using hrec
      · exact (if_neg hcd).trans (by simp [Ne.symm hcd])

theorem inet_pton6_quad (htext : 0 ∉ text) (h : Pieces 3 [] quad text) :
    inet_pton6 (text ++ [0]) = some (some (mapped quad)) := by
  rw [inet_pton6, (inet_pton4_iff htext).2.2 h]
  rfl

theorem inet_pton6_gap : inet_pton6 (GAP ++ [0]) = some (some (List.replicate 8 0)) := by decide

/-- What is left when the text is no quad and no gap. -/
theorem inet_pton6_rest (htext : 0 ∉ text) (hquad : inet_pton4 (text ++ [0]) = some none)
    (hgap : text ≠ GAP) : inet_pton6 (text ++ [0]) = (memcmpEq MAPPED (text ++ [0])).bind fun b =>
      if b then (inet_pton4 ((text ++ [0]).drop 7)).bind fun r => match r with
          | some quad => some (some (mapped quad))
          | none => ptonGroups (text ++ [0])
      else ptonGroups (text ++ [0]) := by
  have hcmp : memcmpEq (GAP ++ [0]) (text ++ [0]) = some false := by
    rw [strcmp_eq (by decide) htext, decide_eq_false hgap]
  simp only [inet_pton6, hquad, hcmp, Option.bind_eq_bind, Option.bind_some, Bool.false_eq_true,
    if_false]
  congr 1
  funext b
  split_ifs
  · congr 1
    funext r
    cases r <;> rfl
  · rfl

theorem not_pieces_colon {k : ℕ} {dst rest : List UInt8} : ¬ Pieces k dst quad (COLON :: rest) := by
  intro h
  obtain ⟨j, -, hcolon, -⟩ := (pieces_stop (p := []) (fun _ hc => absurd hc List.not_mem_nil)
    (show isDigit 10 COLON = false by decide)).1 h
  exact absurd hcolon (by decide)

theorem inet_pton4_colon {rest : List UInt8} (htext : 0 ∉ COLON :: rest) :
    inet_pton4 (COLON :: rest ++ [0]) = some none := by
  obtain ⟨⟨r, hr⟩, -⟩ := @inet_pton4_iff _ [] htext
  cases r with
  | none => exact hr
  | some quad => exact absurd ((inet_pton4_iff htext).2.1 hr) not_pieces_colon

theorem inet_pton6_mapped (htext : 0 ∉ text) (h : Pieces 3 [] quad text) :
    inet_pton6 (MAPPED ++ text ++ [0]) = some (some (mapped quad)) := by
  have hall : 0 ∉ MAPPED ++ text := fun h =>
    (List.mem_append.1 h).elim (fun h => absurd h (by decide)) htext
  have hcmp : memcmpEq MAPPED (MAPPED ++ text ++ [0]) = some true := by
    rw [List.append_assoc]
    exact memcmpEq_append MAPPED _
  rw [inet_pton6_rest hall (inet_pton4_colon hall) (by simp [MAPPED, GAP]), hcmp, Option.bind_some,
    if_pos rfl]
  have hdrop : (MAPPED ++ text ++ [0]).drop 7 = text ++ [0] := by simp [MAPPED]
  rw [hdrop, (inet_pton4_iff htext).2.2 h]
  rfl

/-- Without a dot it is groups. -/
theorem inet_pton6_groups (htext : 0 ∉ text) (hdot : DOT ∉ text) (hgap : text ≠ GAP) :
    inet_pton6 (text ++ [0]) = ptonGroups (text ++ [0]) := by
  rw [inet_pton6_rest htext (inet_pton4_no_dot htext hdot) hgap]
  obtain ⟨rest, rfl, hcmp⟩ | ⟨-, hcmp⟩ := @memcmpEq_terminated _ MAPPED (by decide) htext
  · have hdrop : (MAPPED ++ rest ++ [0]).drop 7 = rest ++ [0] := by simp [MAPPED]
    rw [hcmp, Option.bind_some, if_pos rfl, hdrop, inet_pton4_no_dot
      (fun h => htext (List.mem_append_right _ h)) fun h => hdot (List.mem_append_right _ h)]
    rfl
  · rw [hcmp]
    rfl

theorem inet_pton6_plain (h : Plain s text) (hle : s.length ≤ 8) :
    inet_pton6 (text ++ [0]) = some (some (Groups.address ⟨s.map hexValue, [], false⟩)) := by
  have hnul := h.not_mem (c := 0) (by decide) fun p hp => hp.nul_not_mem
  have hgap : text ≠ GAP := fun heq =>
    (h.reads hle).ne_gap (heq ▸ List.prefix_rfl)
  rw [inet_pton6_groups hnul (h.not_mem (by decide) fun p hp => hp.dot_not_mem) hgap,
    ptonGroups_plain h hnul hle]

theorem inet_pton6_gapped (h : Gapped s e text) (hle : s.length + e.length ≤ 8) :
    inet_pton6 (text ++ [0]) =
      some (some (Groups.address ⟨s.map hexValue, e.map hexValue, true⟩)) := by
  by_cases hnil : s = [] ∧ e = []
  · obtain ⟨rfl, rfl⟩ := hnil
    obtain rfl : text = GAP := h.2
    exact inet_pton6_gap
  · have hnul := h.not_mem (c := 0) (by decide) fun p hp => hp.nul_not_mem
    have hne : s ≠ [] ∨ e ≠ [] := not_and_or.1 hnil
    have hgap : text ≠ GAP := by
      intro heq
      have hempty : Gapped [] [] text := ⟨by simp, heq⟩
      have hlen := h.length_unique hempty hle (by simp)
      exact hnil (by simpa using hlen)
    rw [inet_pton6_groups hnul (h.not_mem (by decide) fun p hp => hp.dot_not_mem) hgap,
      ptonGroups_gapped h hnul hne hle]

theorem quad_loose_iff : Quad Loose text ↔ ∃ quad, Pieces 3 [] quad text :=
  ⟨fun ⟨pieces, hlen, hall, htext⟩ => ⟨_, pieces, hlen, hall, htext, rfl⟩,
    fun ⟨_, pieces, hlen, hall, htext, _⟩ => ⟨pieces, hlen, hall, htext⟩⟩

/-- What `inet_pton6` accepts. -/
def Accepted6 (text : List UInt8) : Prop :=
  Quad Loose text ∨ (∃ q, text = MAPPED ++ q ∧ Quad Loose q) ∨ (∃ s, Plain s text ∧ s.length ≤ 8) ∨
    ∃ s e, Gapped s e text ∧ s.length + e.length ≤ 8

theorem Accepted6.accepted (h : Accepted6 text) (htext : 0 ∉ text) :
    ∃ addr, inet_pton6 (text ++ [0]) = some (some addr) := by
  obtain h | ⟨q, rfl, h⟩ | ⟨s, h, hle⟩ | ⟨s, e, h, hle⟩ := h
  · obtain ⟨quad, h⟩ := quad_loose_iff.1 h
    exact ⟨_, inet_pton6_quad htext h⟩
  · obtain ⟨quad, h⟩ := quad_loose_iff.1 h
    exact ⟨_, inet_pton6_mapped (fun hq => htext (List.mem_append_right _ hq)) h⟩
  · exact ⟨_, inet_pton6_plain h hle⟩
  · exact ⟨_, inet_pton6_gapped h hle⟩

/-- Nothing behind the terminator is read, and nothing else is accepted. -/
theorem inet_pton6_accepts (htext : 0 ∉ text) : ∃ r, inet_pton6 (text ++ [0]) = some r ∧
    (r.isSome = true → Accepted6 text) := by
  have hgeneral : ∃ r, ptonGroups (text ++ [0]) = some r ∧ (r.isSome = true → Accepted6 text) := by
    obtain ⟨r, hr, hall⟩ := ptonGroups_accepts htext
    exact ⟨r, hr, fun hsome => .inr (.inr (hall hsome))⟩
  obtain ⟨⟨r, hr⟩, -⟩ := @inet_pton4_iff _ [] htext
  cases r with
  | some quad =>
    have hpieces := (inet_pton4_iff htext).2.1 hr
    exact ⟨_, inet_pton6_quad htext hpieces, fun _ => .inl (quad_loose_iff.2 ⟨quad, hpieces⟩)⟩
  | none =>
    by_cases hgap : text = GAP
    · subst hgap
      exact ⟨_, inet_pton6_gap, fun _ => .inr (.inr (.inr ⟨[], [], ⟨by simp, rfl⟩, by simp⟩))⟩
    · rw [inet_pton6_rest htext hr hgap]
      obtain ⟨q, rfl, hcmp⟩ | ⟨-, hcmp⟩ := @memcmpEq_terminated _ MAPPED (by decide) htext
      · have hq : 0 ∉ q := fun h => htext (List.mem_append_right _ h)
        have hdrop : (MAPPED ++ q ++ [0]).drop 7 = q ++ [0] := by simp [MAPPED]
        obtain ⟨⟨r, hr⟩, -⟩ := @inet_pton4_iff _ [] hq
        rw [hcmp, Option.bind_some, if_pos rfl, hdrop, hr, Option.bind_some]
        cases r with
        | none => exact hgeneral
        | some quad =>
          exact ⟨_, rfl, fun _ => .inr (.inl ⟨q, rfl,
            quad_loose_iff.2 ⟨quad, (inet_pton4_iff hq).2.1 hr⟩⟩)⟩
      · rw [hcmp]
        exact hgeneral

/-! ## The grammar of addresses -/

/-- A decimal number up to 255. -/
def Octet (p : List UInt8) : Prop :=
  p ≠ [] ∧ (∀ c ∈ p, isDigit 10 c = true) ∧ valueFrom 10 0 p ≤ 255

/-- An address, as an IPv6 address: a dotted quad, the same behind `::ffff:`, eight groups, or up to
seven with a gap. -/
def Address6 (text : List UInt8) : Prop :=
  Quad Octet text ∨ (∃ q, text = MAPPED ++ q ∧ Quad Octet q) ∨ (∃ s, Plain s text ∧ s.length = 8) ∨
    ∃ s e, Gapped s e text ∧ s.length + e.length ≤ 7

/-- A number has no digits, or a value above 255 that an `int` takes for another one. -/
def Misread4 (text : List UInt8) : Prop := Quad Loose text ∧ ¬ Quad Octet text

/-- A misread quad, fewer than eight groups without a gap, or eight with one. -/
def Misread6 (text : List UInt8) : Prop :=
  Misread4 text ∨ (∃ q, text = MAPPED ++ q ∧ Misread4 q) ∨ (∃ s, Plain s text ∧ s.length < 8) ∨
    ∃ s e, Gapped s e text ∧ s.length + e.length = 8

theorem decimal_digit {c : UInt8} (h : isDigit 10 c = true) :
    digitOf c = some (c.toNat - 0x30) ∧ 0x30 ≤ c.toNat ∧ c.toNat ≤ 0x39 := by
  obtain ⟨digit, hdigit, hlt⟩ := isDigit_iff.1 h
  have hof := hdigit
  rw [digitOf] at hof
  split_ifs at hof with hd hl hu
  · exact ⟨hof ▸ hdigit, UInt8.le_iff_toNat_le.1 hd.1, UInt8.le_iff_toNat_le.1 hd.2⟩
  · have hle : 0x61 ≤ c.toNat := UInt8.le_iff_toNat_le.1 hl.1
    have := Option.some.inj hof
    omega
  · have hle : 0x41 ≤ c.toNat := UInt8.le_iff_toNat_le.1 hu.1
    have := Option.some.inj hof
    omega

theorem number_eq {p : List UInt8} {v : ℕ} (hp : ∀ c ∈ p, isDigit 10 c = true)
    (hle : valueFrom 10 v p < 2 ^ 31) : number v p = valueFrom 10 v p := by
  induction p generalizing v with
  | nil => rfl
  | cons c p ih =>
    obtain ⟨hc, hp⟩ := List.forall_mem_cons.1 hp
    have hdigit := decimal_digit hc
    have hvalue : valueFrom 10 v (c :: p) = valueFrom 10 (v * 10 + (c.toNat - 0x30)) p := by
      simp [valueFrom, hdigit.1]
    rw [hvalue] at hle ⊢
    have hstep := (le_valueFrom (by decide) _ _).trans_lt hle
    have hint : int32 (v * 10 + (c.toNat - 0x30 : ℤ)) = ((v * 10 + (c.toNat - 0x30) : ℕ) : ℤ) := by
      rw [int32]
      omega
    rw [← ih hp hle, ← hint]
    rfl

theorem Octet.loose {p : List UInt8} (h : Octet p) : Loose p := by
  refine ⟨h.2.1, ?_⟩
  have heq : number 0 p = (valueFrom 10 0 p : ℤ) :=
    number_eq (v := 0) h.2.1 (h.2.2.trans_lt (by decide))
  rw [heq]
  exact Int.ofNat_le.2 h.2.2

theorem Quad.mono {P Q : List UInt8 → Prop} (hpq : ∀ p, P p → Q p) (h : Quad P text) : Quad Q text := by
  obtain ⟨pieces, hlen, hall, htext⟩ := h
  exact ⟨pieces, hlen, fun p hp => hpq p (hall p hp), htext⟩

theorem quad_loose (h : Quad Octet text) : Quad Loose text := h.mono fun _ => Octet.loose

theorem Quad.dot_mem (h : Quad Loose text) : DOT ∈ text := by
  obtain ⟨quad, h⟩ := quad_loose_iff.1 h
  exact h.dot_mem

theorem Quad.not_mapped {q : List UInt8} (h : Quad Loose (MAPPED ++ q)) : False := by
  obtain ⟨quad, h⟩ := quad_loose_iff.1 h
  exact not_pieces_colon h

theorem Plain.dot_not_mem (h : Plain s text) : DOT ∉ text :=
  h.not_mem (by decide) fun _ hp => hp.dot_not_mem

theorem Gapped.dot_not_mem (h : Gapped s e text) : DOT ∉ text :=
  h.not_mem (by decide) fun _ hp => hp.dot_not_mem

theorem accepted6_iff : Accepted6 text ↔ Address6 text ∨ Misread6 text := by
  constructor
  · rintro (h | ⟨q, rfl, h⟩ | ⟨s, h, hle⟩ | ⟨s, e, h, hle⟩)
    · by_cases hoctet : Quad Octet text
      · exact .inl (.inl hoctet)
      · exact .inr (.inl ⟨h, hoctet⟩)
    · by_cases hoctet : Quad Octet q
      · exact .inl (.inr (.inl ⟨q, rfl, hoctet⟩))
      · exact .inr (.inr (.inl ⟨q, rfl, h, hoctet⟩))
    · rcases hle.lt_or_eq with hlt | heq
      · exact .inr (.inr (.inr (.inl ⟨s, h, hlt⟩)))
      · exact .inl (.inr (.inr (.inl ⟨s, h, heq⟩)))
    · rcases hle.lt_or_eq with hlt | heq
      · exact .inl (.inr (.inr (.inr ⟨s, e, h, Nat.le_of_lt_succ hlt⟩)))
      · exact .inr (.inr (.inr (.inr ⟨s, e, h, heq⟩)))
  · rintro ((h | ⟨q, rfl, h⟩ | ⟨s, h, hle⟩ | ⟨s, e, h, hle⟩) |
      (h | ⟨q, rfl, h⟩ | ⟨s, h, hle⟩ | ⟨s, e, h, hle⟩))
    · exact .inl (quad_loose h)
    · exact .inr (.inl ⟨q, rfl, quad_loose h⟩)
    · exact .inr (.inr (.inl ⟨s, h, hle.le⟩))
    · exact .inr (.inr (.inr ⟨s, e, h, by omega⟩))
    · exact .inl h.1
    · exact .inr (.inl ⟨q, rfl, h.1⟩)
    · exact .inr (.inr (.inl ⟨s, h, hle.le⟩))
    · exact .inr (.inr (.inr ⟨s, e, h, hle.le⟩))

/-- No text is both. -/
theorem Address6.not_misread (h : Address6 text) : ¬ Misread6 text := by
  intro hm
  obtain h | ⟨q, rfl, h⟩ | ⟨s, h, hlen⟩ | ⟨s, e, h, hlen⟩ := h
  · obtain hm | ⟨q, rfl, -⟩ | ⟨s, hm, -⟩ | ⟨s, e, hm, -⟩ := hm
    · exact hm.2 h
    · exact (quad_loose h).not_mapped
    · exact hm.dot_not_mem (quad_loose h).dot_mem
    · exact hm.dot_not_mem (quad_loose h).dot_mem
  · have hdot : DOT ∈ MAPPED ++ q := List.mem_append_right _ (quad_loose h).dot_mem
    obtain hm | ⟨q', heq, hm⟩ | ⟨s, hm, -⟩ | ⟨s, e, hm, -⟩ := hm
    · exact hm.1.not_mapped
    · rw [← List.append_cancel_left heq] at hm
      exact hm.2 h
    · exact hm.dot_not_mem hdot
    · exact hm.dot_not_mem hdot
  · obtain hm | ⟨q, rfl, hm⟩ | ⟨s', hm, hlt⟩ | ⟨s', e', hm, hle⟩ := hm
    · exact h.dot_not_mem hm.1.dot_mem
    · exact h.dot_not_mem (List.mem_append_right _ hm.1.dot_mem)
    · have := h.length_unique hm hlen.le hlt.le
      omega
    · exact h.not_gapped hm hlen.le hle.le
  · obtain hm | ⟨q, rfl, hm⟩ | ⟨s', hm, hlt⟩ | ⟨s', e', hm, hle⟩ := hm
    · exact h.dot_not_mem hm.1.dot_mem
    · exact h.dot_not_mem (List.mem_append_right _ hm.1.dot_mem)
    · exact hm.not_gapped h hlt.le (by omega)
    · have := h.length_unique hm (by omega) hle.le
      omega

/-! ## Addresses as text -/

theorem numeral_loose (byte : UInt8) :
    Loose (numeral 10 byte.toNat) ∧ byteOf (numeral 10 byte.toNat) = byte := by
  have hlt := byte.toNat_lt
  have hdigits : ∀ c ∈ numeral 10 byte.toNat, isDigit 10 c = true :=
    isDigit_of_mem_numeral (by decide) (by decide)
  have hvalue := @valueFrom_numeral 10 (by decide) (by decide) byte.toNat
  have heq : number 0 (numeral 10 byte.toNat) = (byte.toNat : ℤ) := by
    have := number_eq (v := 0) hdigits (by rw [hvalue]; omega)
    rwa [hvalue] at this
  refine ⟨⟨hdigits, by rw [heq]; omega⟩, ?_⟩
  rw [byteOf, heq]
  have hmod : ((byte.toNat : ℤ) % 256).toNat = byte.toNat := by omega
  rw [hmod, UInt8.ofNat_toNat]

/-- The text of four bytes is a quad that gives them. -/
theorem quadText_pieces {src : List UInt8} (h : src.length = 4) : Pieces 3 [] src (quadText src) := by
  refine ⟨_, by simpa using h, ?_, rfl, ?_⟩
  · intro p hp
    obtain ⟨byte, -, rfl⟩ := List.mem_map.1 hp
    exact (numeral_loose byte).1
  · rw [List.map_map, List.nil_append]
    exact (List.map_id'' (fun byte => (numeral_loose byte).2) src).symm

theorem quadText_eq (a b c d : UInt8) : quadText [a, b, c, d] =
    numeral 10 a.toNat ++ DOT :: (numeral 10 b.toNat ++ DOT :: (numeral 10 c.toNat ++
      DOT :: numeral 10 d.toNat)) := by
  simp [quadText, List.intercalate]

theorem nul_not_mem_numeral (byte : UInt8) : 0 ∉ numeral 10 byte.toNat := fun h =>
  absurd ((numeral_loose byte).1.1 0 h) (by decide)

theorem quadText_spec {src : List UInt8} (h : src.length = 4) :
    0 ∉ quadText src ∧ (quadText src).length < 16 := by
  have hlen (byte : UInt8) : (numeral 10 byte.toNat).length ≤ 3 :=
    length_numeral_le (k := 2) (by have := byte.toNat_lt; omega)
  match src, h with
  | [a, b, c, d], _ =>
    rw [quadText_eq]
    refine ⟨?_, ?_⟩
    · have hdot : (0 : UInt8) ≠ DOT := by decide
      simp [nul_not_mem_numeral, hdot]
    · have ha := hlen a
      have hb := hlen b
      have hc := hlen c
      have hd := hlen d
      simp only [List.length_append, List.length_cons]
      omega

/-- The text of an IPv4 address fits, and is read back as the address. -/
theorem inet_ntop4_spec {src : List UInt8} {size : ℕ} (h : src.length = 4)
    (htext : inet_ntop4 src size = some text) :
    text.length < size ∧ inet_pton4 (text ++ [0]) = some (some src) := by
  rw [inet_ntop4] at htext
  split_ifs at htext with hsize
  obtain rfl := Option.some.inj htext
  obtain ⟨hnul, hlen⟩ := quadText_spec h
  exact ⟨hlen.trans_le (Nat.not_lt.1 hsize), (inet_pton4_iff hnul).2.2 (quadText_pieces h)⟩

/-! ### Groups as text -/

def hexText (group : UInt16) : List UInt8 := numeral 16 group.toNat

theorem hexText_spec (group : UInt16) :
    HexGroup (hexText group) ∧ hexValue (hexText group) = group := by
  have hlen : (hexText group).length ≤ 4 :=
    length_numeral_le (k := 3) (by have := group.toNat_lt; omega)
  refine ⟨⟨numeral_ne_nil, hlen, isDigit_of_mem_numeral (by decide) (by decide)⟩, ?_⟩
  rw [hexValue, hexText, valueFrom_numeral (by decide) (by decide), UInt16.ofNat_toNat]

theorem hexGroups (l : List UInt16) : ∀ p ∈ l.map hexText, HexGroup p := fun p hp => by
  obtain ⟨group, -, rfl⟩ := List.mem_map.1 hp
  exact (hexText_spec group).1

theorem map_hexValue (l : List UInt16) : (l.map hexText).map hexValue = l := by
  rw [List.map_map]
  exact List.map_id'' (fun group => (hexText_spec group).2) l

/-- Turns that append groups, with colons between them and `last` behind them. -/
theorem flatten_mapIdx {l : List UInt16} {turn : ℕ → UInt16 → List UInt8} {last : List UInt8}
    (hl : l ≠ []) (h : ∀ j (hj : j < l.length), turn j l[j] =
      hexText l[j] ++ if j + 1 = l.length then last else [COLON]) :
    (l.mapIdx turn).flatten = joined (l.map hexText) ++ last := by
  induction l generalizing turn with
  | nil => exact absurd rfl hl
  | cons group l ih =>
    have hfirst := h 0 (Nat.succ_pos _)
    rw [List.mapIdx_cons, List.flatten_cons, List.map_cons]
    by_cases hnil : l = []
    · subst hnil
      rw [List.mapIdx_nil, List.flatten_nil, List.append_nil, List.map_nil, joined_singleton]
      simpa using hfirst
    · have hlen : 0 + 1 ≠ (group :: l).length := by
        have := List.length_pos_iff.2 hnil
        simp
        omega
      have hrest := @ih (fun j => turn (j + 1)) hnil fun j hj => by
        have hstep := h (j + 1) (Nat.succ_lt_succ hj)
        simpa using hstep
      rw [hrest, joined_cons (by simpa using hnil)]
      rw [if_neg hlen] at hfirst
      rw [show turn 0 group = hexText group ++ [COLON] from hfirst]
      simp

/-- Nothing, or a trail that is not empty. -/
def IsTrail (src : List UInt16) (found : ℤ × ℕ) : Prop :=
  found = (-1, 0) ∨ ∃ i : ℕ, found = ((i : ℤ), trailSize src i) ∧ 0 < trailSize src i

theorem longestTrail_isTrail (src : List UInt16) : IsTrail src (longestTrail src) := by
  have hfold (l : List ℕ) (found : ℤ × ℕ) (h : IsTrail src found) : IsTrail src
      (l.foldl (fun found i =>
        if found.2 < trailSize src i then ((i : ℤ), trailSize src i) else found) found) := by
    induction l generalizing found with
    | nil => exact h
    | cons i l ih =>
      refine ih _ ?_
      dsimp only
      split_ifs with hlt
      · exact .inr ⟨i, rfl, (Nat.zero_le _).trans_lt hlt⟩
      · exact h
  exact hfold _ _ (.inl rfl)

theorem trail_split (src : List UInt16) (i : ℕ) : src = src.take i ++
    (List.replicate (trailSize src i) 0 ++ src.drop (i + trailSize src i)) := by
  have hzero : (src.drop i).takeWhile (· = 0) = List.replicate (trailSize src i) 0 :=
    List.eq_replicate_iff.2 ⟨rfl, fun b hb => by simpa using List.mem_takeWhile_imp hb⟩
  have hdrop : (src.drop i).dropWhile (· = 0) = src.drop (i + trailSize src i) := by
    rw [← List.drop_drop]
    refine (@List.drop_left' _ ((src.drop i).takeWhile (· = 0)) _ _ rfl).symm.trans ?_
    rw [List.takeWhile_append_dropWhile, trailSize]
  rw [← hzero, ← hdrop, List.takeWhile_append_dropWhile, List.take_append_drop]

theorem joined_hexText (l : List UInt16) {turn : ℕ → UInt16 → List UInt8}
    (h : ∀ j (hj : j < l.length), turn j l[j] =
      hexText l[j] ++ if j + 1 = l.length then [] else [COLON]) :
    (l.mapIdx turn).flatten = joined (l.map hexText) := by
  by_cases hnil : l = []
  · subst hnil
    rfl
  · rw [flatten_mapIdx hnil h, List.append_nil]

/-- Without a trail the groups stand next to each other. -/
theorem groupText_plain {src : List UInt16} (h : src.length = 8) :
    (src.mapIdx (groupText (-1) 0)).flatten = joined (src.map hexText) := by
  refine joined_hexText src fun j hj => ?_
  have hin : (j : ℤ) < -1 ∨ (-1 : ℤ) + (0 : ℕ) ≤ j := .inr (by omega)
  have hlast : (j : ℤ) ≠ -1 - 1 ∧ j ≠ 7 ↔ ¬ j + 1 = src.length := by omega
  rw [groupText, if_pos hin, if_neg (show ¬ (j : ℤ) = -1 - 1 by omega), List.append_nil]
  simp only [hlast, ite_not]
  rfl

/-- With a trail the gap stands in its place. -/
theorem groupText_gapped {src : List UInt16} {i n : ℕ} (h : src.length = 8) (hn : n = trailSize src i)
    (hpos : 0 < n) : (if (i : ℤ) = 0 then GAP else []) ++ (src.mapIdx (groupText i n)).flatten =
      joined ((src.take i).map hexText) ++ (GAP ++ joined ((src.drop (i + n)).map hexText)) := by
  have hle : n ≤ 8 - i := by
    have := (List.takeWhile_prefix (l := src.drop i) (· = 0)).length_le
    rw [List.length_drop, h] at this
    exact hn ▸ this
  have htake : (src.take i).length = i := List.length_take_of_le (by omega)
  have hpost : (src.drop (i + n)).length = 8 - (i + n) := by rw [List.length_drop, h]
  have hzeros : ((List.replicate n (0 : UInt16)).mapIdx
      fun j group => groupText i n (j + i) group).flatten = [] := by
    rw [List.flatten_eq_nil_iff]
    intro turn hturn
    obtain ⟨j, hj, rfl⟩ := List.mem_mapIdx.1 hturn
    rw [List.length_replicate] at hj
    rw [groupText, if_neg (by omega), if_neg (by omega), List.append_nil]
  have hbehind : ((src.drop (i + n)).mapIdx
      fun j group => groupText i n (j + n + i) group).flatten =
        joined ((src.drop (i + n)).map hexText) := by
    refine joined_hexText _ fun j hj => ?_
    have hlast : ((j + n + i : ℕ) : ℤ) ≠ i - 1 ∧ j + n + i ≠ 7 ↔
        ¬ j + 1 = (src.drop (i + n)).length := by omega
    rw [groupText, if_pos (by omega), if_neg (show ¬ ((j + n + i : ℕ) : ℤ) = i - 1 by omega),
      List.append_nil]
    simp only [hlast, ite_not]
    rfl
  have hbefore : (if (i : ℤ) = 0 then GAP else []) ++ ((src.take i).mapIdx (groupText i n)).flatten =
      joined ((src.take i).map hexText) ++ GAP := by
    by_cases hzero : i = 0
    · subst hzero
      rfl
    · rw [if_neg (by omega), List.nil_append]
      refine flatten_mapIdx (by rw [← List.length_pos_iff, htake]; omega) fun j hj => ?_
      rw [htake] at hj
      rw [groupText, if_pos (by omega), htake]
      by_cases hlast : j + 1 = i
      · rw [if_pos hlast, if_neg (by omega), if_pos (by omega), List.append_nil]
        rfl
      · rw [if_neg hlast, if_pos (by omega), if_neg (by omega), List.append_nil]
        rfl
  have hsplit : (src.mapIdx (groupText i n)).flatten =
      ((src.take i).mapIdx (groupText i n)).flatten ++ joined ((src.drop (i + n)).map hexText) := by
    have hsrc := trail_split src i
    rw [← hn] at hsrc
    conv_lhs => rw [hsrc]
    rw [List.mapIdx_append, List.flatten_append, htake, List.mapIdx_append, List.flatten_append,
      hzeros, List.nil_append, List.length_replicate, hbehind]
  rw [hsplit, ← List.append_assoc, hbefore, List.append_assoc]

theorem length_joined_le (h : ∀ p ∈ s, HexGroup p) : (joined s).length ≤ 5 * s.length := by
  induction s with
  | nil => exact Nat.le_refl _
  | cons p s ih =>
    obtain ⟨hp, hs⟩ := List.forall_mem_cons.1 h
    have hlen := hp.2.1
    by_cases hnil : s = []
    · rw [hnil, joined_singleton]
      simp
      omega
    · rw [joined_cons hnil]
      have := ih hs
      simp
      omega

theorem groupBytes_value (group : UInt16) : UInt16.ofNat
    (((groupBytes group).getD 0 0).toNat * 256 + ((groupBytes group).getD 1 0).toNat) = group := by
  have hlt := group.toNat_lt
  have hhigh : (UInt8.ofNat (group.toNat / 256)).toNat = group.toNat / 256 :=
    UInt8.toNat_ofNat_of_lt (show _ < 256 by omega)
  have hlow : (UInt8.ofNat (group.toNat % 256)).toNat = group.toNat % 256 :=
    UInt8.toNat_ofNat_of_lt (Nat.mod_lt _ (by decide))
  simp only [groupBytes, List.getD_cons_zero, List.getD_cons_succ, hhigh, hlow]
  rw [Nat.div_add_mod', UInt16.ofNat_toNat]

theorem mapped_groupBytes {src : List UInt16} (h : src.length = 8) (hmap : is_4map6_addr src = true) :
    mapped ((src.drop 6).flatMap groupBytes) = src := by
  obtain ⟨x, y, hdrop⟩ := List.length_eq_two.1 (show (src.drop 6).length = 2 by simp [h])
  have htake : src.take 6 = [0, 0, 0, 0, 0, 0xFFFF] := of_decide_eq_true hmap
  have hsrc : src = [0, 0, 0, 0, 0, 0xFFFF, x, y] := by
    rw [← List.take_append_drop 6 src, htake, hdrop]
    rfl
  have hx := groupBytes_value x
  have hy := groupBytes_value y
  rw [hdrop, hsrc, mapped]
  exact congrArg₂ (fun x y => [0, 0, 0, 0, 0, 0xFFFF, x, y]) hx hy

/-- The text of an IPv6 address fits, and is read back as the address. -/
theorem inet_ntop6_spec {src : List UInt16} {size : ℕ} (h : src.length = 8)
    (htext : inet_ntop6 src size = some text) :
    text.length < size ∧ inet_pton6 (text ++ [0]) = some (some src) := by
  rw [inet_ntop6] at htext
  split_ifs at htext with hsize hmap
  · obtain rfl := Option.some.inj htext
    have hlen : ((src.drop 6).flatMap groupBytes).length = 4 := by
      obtain ⟨x, y, hdrop⟩ := List.length_eq_two.1 (show (src.drop 6).length = 2 by simp [h])
      rw [hdrop]
      rfl
    obtain ⟨hnul, hshort⟩ := quadText_spec hlen
    have hmapped : MAPPED.length = 7 := rfl
    refine ⟨?_, ?_⟩
    · rw [List.length_append]
      have : INET6_ADDRSTRLEN = 82 := rfl
      omega
    · rw [inet_pton6_mapped hnul (quadText_pieces hlen), mapped_groupBytes h hmap]
  · obtain hnone | ⟨i, hsome, hpos⟩ := longestTrail_isTrail src
    · rw [hnone] at htext
      obtain rfl : _ = text := Option.some.inj htext
      have hplain : Plain (src.map hexText) (joined (src.map hexText)) :=
        ⟨by simp [← List.length_pos_iff, h], hexGroups src, rfl⟩
      have hlen := length_joined_le (hexGroups src)
      have : INET6_ADDRSTRLEN = 82 := rfl
      rw [if_neg (by decide), List.nil_append, groupText_plain h,
        inet_pton6_plain hplain (by simp [h])]
      refine ⟨by simp [h] at hlen; omega, ?_⟩
      rw [map_hexValue]
      simp [Groups.address, h]
    · rw [hsome] at htext
      obtain rfl : _ = text := Option.some.inj htext
      have hsplit := trail_split src i
      have hlens := congrArg List.length hsplit
      simp only [List.length_append, List.length_replicate] at hlens
      have hgapped : Gapped ((src.take i).map hexText) ((src.drop (i + trailSize src i)).map hexText)
          (joined ((src.take i).map hexText) ++
            (GAP ++ joined ((src.drop (i + trailSize src i)).map hexText))) :=
        ⟨fun p hp => (List.mem_append.1 hp).elim (hexGroups _ p) (hexGroups _ p), rfl⟩
      have hstart := length_joined_le (hexGroups (src.take i))
      have hstop := length_joined_le (hexGroups (src.drop (i + trailSize src i)))
      have : INET6_ADDRSTRLEN = 82 := rfl
      have hgap : GAP.length = 2 := rfl
      rw [groupText_gapped h rfl hpos,
        inet_pton6_gapped hgapped (by simp only [List.length_map]; omega)]
      refine ⟨by simp only [List.length_append, List.length_map] at *; omega, ?_⟩
      rw [map_hexValue, map_hexValue, Groups.address]
      conv_rhs => rw [hsplit]
      have hsize : 8 - ((src.take i).length + (src.drop (i + trailSize src i)).length) =
          trailSize src i := by omega
      rw [hsize, List.append_assoc]

/-! ## The parsers and the grammar -/

/-- The texts of addresses are read back and fit, the parsers never read behind the terminator, and
they agree with the grammar except on the texts that they misread. -/
theorem inet_right_iff (htext : 0 ∉ text) :
    (∀ src size out, src.length = 4 → inet_ntop4 src size = some out →
      out.length < size ∧ inet_pton4 (out ++ [0]) = some (some src)) ∧
    (∀ src size out, src.length = 8 → inet_ntop6 src size = some out →
      out.length < size ∧ inet_pton6 (out ++ [0]) = some (some src)) ∧
    ∃ r r', inet_pton4 (text ++ [0]) = some r ∧ inet_pton6 (text ++ [0]) = some r' ∧
      ((r.isSome = true ↔ Quad Octet text) ↔ ¬ Misread4 text) ∧
      ((r'.isSome = true ↔ Address6 text) ↔ ¬ Misread6 text) := by
  refine ⟨fun _ _ _ => inet_ntop4_spec, fun _ _ _ => inet_ntop6_spec, ?_⟩
  obtain ⟨⟨r, hr⟩, -⟩ := @inet_pton4_iff _ [] htext
  obtain ⟨r', hr', haccepts⟩ := inet_pton6_accepts htext
  have hloose : r.isSome = true ↔ Quad Loose text := by
    rw [quad_loose_iff, Option.isSome_iff_exists]
    refine exists_congr fun quad => ?_
    rw [← (inet_pton4_iff htext).2, hr, Option.some.injEq]
  have haccepted : r'.isSome = true ↔ Address6 text ∨ Misread6 text := by
    rw [← accepted6_iff]
    refine ⟨haccepts, fun h => ?_⟩
    obtain ⟨addr, haddr⟩ := h.accepted htext
    rw [Option.some.inj (hr'.symm.trans haddr)]
    rfl
  refine ⟨r, r', hr, hr', ?_, ?_⟩
  · rw [hloose]
    constructor
    · exact fun h hm => hm.2 (h.1 hm.1)
    · exact fun hm => ⟨fun h => not_not.1 fun hn => hm ⟨h, hn⟩, quad_loose⟩
  · rw [haccepted]
    constructor
    · exact fun h hm => (h.1 (.inr hm)).not_misread hm
    · exact fun hm => ⟨fun h => h.resolve_right hm, .inl⟩

theorem inet_right_localhost :
    ∃ r r', inet_pton4 (quadText [127, 0, 0, 1] ++ [0]) = some r ∧
      inet_pton6 (quadText [127, 0, 0, 1] ++ [0]) = some r' ∧
      ((r.isSome = true ↔ Quad Octet (quadText [127, 0, 0, 1])) ↔
        ¬ Misread4 (quadText [127, 0, 0, 1])) ∧
      ((r'.isSome = true ↔ Address6 (quadText [127, 0, 0, 1])) ↔
        ¬ Misread6 (quadText [127, 0, 0, 1])) :=
  (inet_right_iff (quadText_spec rfl).1).2.2

/-- Three dots are read as the address of four zeroes. -/
theorem inet_pton4_dots : ¬ ∀ text : List UInt8, 0 ∉ text →
    ((∃ quad, inet_pton4 (text ++ [0]) = some (some quad)) ↔ Quad Octet text) := by
  intro h
  obtain ⟨pieces, hlen, hall, htext⟩ := (h [DOT, DOT, DOT] (by decide)).1 ⟨[0, 0, 0, 0], by decide⟩
  match pieces with
  | p :: q :: pieces =>
    obtain ⟨hne, hdigits, -⟩ := hall p List.mem_cons_self
    obtain ⟨c, p, rfl⟩ := List.exists_cons_of_ne_nil hne
    rw [intercalate_cons (List.cons_ne_nil _ _)] at htext
    obtain ⟨rfl, -⟩ := List.cons_eq_cons.1 htext
    exact absurd (hdigits DOT List.mem_cons_self) (by decide)

end Glidix.Libc.Inet
