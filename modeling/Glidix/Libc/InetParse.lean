import Mathlib.Tactic.SplitIfs
import Glidix.Libc.Inet

/-!
# The texts that are read as addresses

`inet_pton4` reads four runs of digits, of which it compares the value, as an `int`, with 255.
`Reads` is the grammar of the loop of `inet_pton6`, step by step.
-/

namespace Glidix.Libc.Inet

variable {c : UInt8} {text src p : List UInt8}

/-- What `memcmp` compares is there. -/
theorem memcmpEq_append (text src : List UInt8) : memcmpEq text (text ++ src) = some true := by
  induction text with
  | nil => rfl
  | cons c text ih => rw [List.cons_append, memcmpEq, if_pos rfl, ih]

/-- A text without the terminator is compared up to the terminator at most. -/
theorem memcmpEq_terminated {pattern : List UInt8} (hpattern : 0 ∉ pattern) (h : 0 ∉ text) :
    (∃ rest, text = pattern ++ rest ∧ memcmpEq pattern (text ++ [0]) = some true) ∨
      (¬ pattern <+: text ∧ memcmpEq pattern (text ++ [0]) = some false) := by
  induction pattern generalizing text with
  | nil => exact .inl ⟨text, rfl, rfl⟩
  | cons c pattern ih =>
    have hc : c ≠ 0 := (List.ne_of_not_mem_cons hpattern).symm
    have hrest := List.not_mem_of_not_mem_cons hpattern
    cases text with
    | nil => exact .inr ⟨by simp, if_neg hc⟩
    | cons d text =>
      by_cases hcd : c = d
      · subst hcd
        have hstep : memcmpEq (c :: pattern) (c :: text ++ [0]) = memcmpEq pattern (text ++ [0]) :=
          if_pos rfl
        rw [hstep]
        obtain ⟨rest, rfl, h'⟩ | ⟨hne, h'⟩ := ih hrest (List.not_mem_of_not_mem_cons h)
        · exact .inl ⟨rest, rfl, h'⟩
        · exact .inr ⟨fun hp => hne (List.cons_prefix_cons.1 hp).2, h'⟩
      · exact .inr ⟨fun hp => hcd (List.cons_prefix_cons.1 hp).1, if_neg hcd⟩

/-! ## Dotted quads -/

section Quad

variable {dst quad : List UInt8} {v : ℤ}

/-- The number that a run of digits leaves in an `int`. -/
def number (v : ℤ) (digits : List UInt8) : ℤ :=
  digits.foldl (fun v c => int32 (v * 10 + (c.toNat - 0x30 : ℤ))) v

/-- What `inet_pton4` takes for one of its numbers: digits, or none, with a value that is not above
255 when it has been stored into an `int`. -/
def Loose (p : List UInt8) : Prop := (∀ c ∈ p, isDigit 10 c = true) ∧ number 0 p ≤ 255

def byteOf (p : List UInt8) : UInt8 := UInt8.ofNat (number 0 p % 256).toNat

/-- Four pieces with dots between them. -/
def Quad (P : List UInt8 → Prop) (text : List UInt8) : Prop :=
  ∃ pieces : List (List UInt8), pieces.length = 4 ∧ (∀ p ∈ pieces, P p) ∧
    text = [DOT].intercalate pieces

theorem pton4Loop_digits (h : ∀ c ∈ p, isDigit 10 c = true) :
    pton4Loop dst v (p ++ src) = pton4Loop dst (number v p) src := by
  induction p generalizing v with
  | nil => rfl
  | cons c p ih =>
    obtain ⟨hc, hp⟩ := List.forall_mem_cons.1 h
    rw [List.cons_append, pton4Loop, if_pos hc, ih hp]
    rfl

theorem pton4Loop_stop (h : isDigit 10 c = false) : pton4Loop dst v (c :: src) =
    if 255 < v then some none
    else if dst.length = 3 then
      if c ≠ 0 then some none else some (some (dst ++ [UInt8.ofNat (v % 256).toNat]))
    else if c ≠ DOT then some none
    else pton4Loop (dst ++ [UInt8.ofNat (v % 256).toNat]) 0 src := by
  rw [pton4Loop, h]
  simp

theorem intercalate_cons {pieces : List (List UInt8)} {sep : List UInt8} (h : pieces ≠ []) :
    sep.intercalate (p :: pieces) = p ++ (sep ++ sep.intercalate pieces) := by
  cases pieces with
  | nil => exact absurd rfl h
  | cons q pieces => simp [List.intercalate, List.intersperse]

/-- Where the digits of a text end. -/
theorem span_digits (text : List UInt8) (base : ℕ) : ∃ p rest, text = p ++ rest ∧
    (∀ c ∈ p, isDigit base c = true) ∧ ∀ c ∈ rest.head?, isDigit base c = false := by
  refine ⟨text.takeWhile (isDigit base), text.dropWhile (isDigit base),
    List.takeWhile_append_dropWhile.symm, fun c hc => List.mem_takeWhile_imp hc, fun c hc => ?_⟩
  have hstop := List.head?_dropWhile_not (isDigit base) text
  rw [Option.mem_def.1 hc] at hstop
  exact hstop

/-- Digits end in one place. -/
theorem digits_unique {base : ℕ} {q u : List UInt8} {x : UInt8}
    (hp : ∀ c ∈ p, isDigit base c = true) (hq : ∀ c ∈ q, isDigit base c = true)
    (hc : isDigit base c = false) (hx : isDigit base x = false) (h : p ++ c :: src = q ++ x :: u) :
    p = q ∧ c = x ∧ src = u := by
  induction p generalizing q with
  | nil =>
    cases q with
    | nil => exact ⟨rfl, List.cons_eq_cons.1 h⟩
    | cons y q =>
      obtain ⟨rfl, -⟩ := List.cons_eq_cons.1 h
      exact absurd (hq c List.mem_cons_self) (by rw [hc]; exact Bool.false_ne_true)
  | cons y p ih =>
    cases q with
    | nil =>
      obtain ⟨rfl, -⟩ := List.cons_eq_cons.1 h
      exact absurd (hp y List.mem_cons_self) (by rw [hx]; exact Bool.false_ne_true)
    | cons z q =>
      obtain ⟨rfl, hrest⟩ := List.cons_eq_cons.1 h
      obtain ⟨rfl, heq⟩ := ih (List.forall_mem_cons.1 hp).2 (List.forall_mem_cons.1 hq).2 hrest
      exact ⟨rfl, heq⟩

/-- `k + 1` pieces with dots between them. -/
def Pieces (k : ℕ) (dst quad text : List UInt8) : Prop :=
  ∃ pieces : List (List UInt8), pieces.length = k + 1 ∧ (∀ p ∈ pieces, Loose p) ∧
    text = [DOT].intercalate pieces ∧ quad = dst ++ pieces.map byteOf

theorem isDigit_dot : isDigit 10 DOT = false := by decide

theorem pieces_digits (hp : ∀ c ∈ p, isDigit 10 c = true) {k : ℕ} :
    Pieces k dst quad p ↔ k = 0 ∧ number 0 p ≤ 255 ∧ quad = dst ++ [byteOf p] := by
  constructor
  · rintro ⟨pieces, hlen, hloose, htext, hquad⟩
    match pieces with
    | [q] =>
      have hq : p = q := by simpa [List.intercalate] using htext
      subst hq
      exact ⟨by simpa using hlen.symm, (hloose p List.mem_cons_self).2, hquad⟩
    | q :: r :: pieces =>
      rw [intercalate_cons (List.cons_ne_nil _ _)] at htext
      have hdot : DOT ∈ p := by simp [htext]
      exact absurd (hp DOT hdot) (by decide)
  · rintro ⟨rfl, hle, rfl⟩
    exact ⟨[p], rfl, by simpa using ⟨hp, hle⟩, by simp [List.intercalate], rfl⟩

theorem pieces_stop (hp : ∀ c ∈ p, isDigit 10 c = true) (hc : isDigit 10 c = false) {k : ℕ} :
    Pieces k dst quad (p ++ c :: src) ↔
      ∃ j, k = j + 1 ∧ c = DOT ∧ number 0 p ≤ 255 ∧ Pieces j (dst ++ [byteOf p]) quad src := by
  constructor
  · rintro ⟨pieces, hlen, hloose, htext, hquad⟩
    match pieces with
    | [q] =>
      have hmem : c ∈ q := by
        have hq : p ++ c :: src = q := by simpa [List.intercalate] using htext
        simp [← hq]
      exact absurd ((hloose q List.mem_cons_self).1 c hmem) (by rw [hc]; exact Bool.false_ne_true)
    | q :: r :: pieces =>
      rw [intercalate_cons (List.cons_ne_nil _ _)] at htext
      obtain ⟨hq, hrest⟩ := List.forall_mem_cons.1 hloose
      obtain ⟨rfl, rfl, rfl⟩ := digits_unique hp hq.1 hc isDigit_dot htext
      exact ⟨k - 1, by simp at hlen; omega, rfl, hq.2, r :: pieces, by simp at hlen ⊢; omega, hrest,
        rfl, by simpa using hquad⟩
  · rintro ⟨j, rfl, rfl, hle, pieces, hlen, hloose, rfl, rfl⟩
    have hne : pieces ≠ [] := List.ne_nil_of_length_eq_add_one hlen
    refine ⟨p :: pieces, by simp [hlen], List.forall_mem_cons.2 ⟨⟨hp, hle⟩, hloose⟩, ?_, by simp⟩
    rw [intercalate_cons hne]
    rfl

/-- The loop reads the numbers that are missing, and nothing behind the terminator. -/
theorem pton4Loop_iff (k : ℕ) (hdst : dst.length + k = 3) (htext : 0 ∉ text) :
    (∃ r, pton4Loop dst 0 (text ++ [0]) = some r) ∧
      (pton4Loop dst 0 (text ++ [0]) = some (some quad) ↔ Pieces k dst quad text) := by
  induction k generalizing dst text with
  | zero =>
    rw [Nat.add_zero] at hdst
    obtain ⟨p, rest, rfl, hp, hrest⟩ := span_digits text 10
    rw [List.append_assoc, pton4Loop_digits hp]
    cases rest with
    | nil =>
      rw [List.append_nil, List.nil_append, pton4Loop_stop (by decide), pieces_digits hp,
        if_pos hdst, if_neg (show ¬ (0 : UInt8) ≠ 0 from fun h => h rfl)]
      split_ifs with hle
      · exact ⟨⟨_, rfl⟩, nofun, fun h => absurd h.2.1 (Int.not_le.2 hle)⟩
      · simp [Int.not_lt.1 hle, byteOf, eq_comm]
    | cons c rest =>
      have hc : c ≠ 0 := fun h => htext (by simp [h])
      rw [List.cons_append, pton4Loop_stop (hrest c rfl), pieces_stop hp (hrest c rfl), if_pos hdst,
        if_pos hc]
      split_ifs <;> simp
  | succ k ih =>
    have hne : dst.length ≠ 3 := by omega
    obtain ⟨p, rest, rfl, hp, hrest⟩ := span_digits text 10
    rw [List.append_assoc, pton4Loop_digits hp]
    cases rest with
    | nil =>
      rw [List.append_nil, List.nil_append, pton4Loop_stop (by decide), pieces_digits hp,
        if_neg hne, if_pos (show (0 : UInt8) ≠ DOT by decide)]
      split_ifs <;> simp
    | cons c rest =>
      have htail : 0 ∉ rest := fun h => htext (by simp [h])
      rw [List.cons_append, pton4Loop_stop (hrest c rfl), pieces_stop hp (hrest c rfl), if_neg hne]
      split_ifs with hle hc
      · exact ⟨⟨_, rfl⟩, nofun, fun ⟨_, _, _, h, _⟩ => absurd h (Int.not_le.2 hle)⟩
      · exact ⟨⟨_, rfl⟩, nofun, fun ⟨_, _, h, _⟩ => absurd h hc⟩
      · obtain ⟨hend, hiff⟩ := @ih rest (dst ++ [byteOf p]) (by simp; omega) htail
        refine ⟨hend, hiff.trans ⟨fun h => ⟨k, rfl, not_not.1 hc, Int.not_lt.1 hle, h⟩, ?_⟩⟩
        rintro ⟨j, hj, -, -, h⟩
        rwa [Nat.succ_inj.1 hj]

end Quad

/-! ## Groups -/

section Groups

variable {g g' : Groups} {fuel : ℕ}

/-- One to four hexadecimal digits. -/
def HexGroup (p : List UInt8) : Prop :=
  p ≠ [] ∧ p.length ≤ 4 ∧ ∀ c ∈ p, isDigit 16 c = true

def hexValue (p : List UInt8) : UInt16 := UInt16.ofNat (valueFrom 16 0 p)

theorem ne_zero_of_isDigit (h : isDigit 16 c = true) : c ≠ 0 := by
  rintro rfl
  exact absurd h (by decide)

theorem nextgroupLoop_digits {count result : ℕ} (hp : ∀ c ∈ p, isDigit 16 c = true)
    (hcount : count + p.length ≤ 4) : nextgroupLoop count result (p ++ src) =
      nextgroupLoop (count + p.length) (valueFrom 16 result p) src := by
  induction p generalizing count result with
  | nil => rfl
  | cons c p ih =>
    obtain ⟨hc, hp⟩ := List.forall_mem_cons.1 hp
    obtain ⟨digit, hdigit, hlt⟩ := isDigit_iff.1 hc
    rw [List.length_cons] at hcount
    rw [List.cons_append, nextgroupLoop, if_neg (ne_zero_of_isDigit hc), hdigit]
    dsimp only
    rw [if_pos hlt, if_neg (by omega), ih hp (by omega), List.length_cons, Nat.add_assoc,
      Nat.add_comm 1]
    simp [valueFrom, hdigit]

theorem nextgroupLoop_stop {count result : ℕ} (hc : isDigit 16 c = false) :
    nextgroupLoop count result (c :: src) =
      some (if count = 0 then none else some (UInt16.ofNat result, c :: src)) := by
  rw [nextgroupLoop]
  by_cases hzero : c = 0
  · rw [if_pos hzero]
  · rw [if_neg hzero]
    cases hdigit : digitOf c with
    | none => rfl
    | some digit =>
      have hge : ¬ digit < 16 := fun hlt =>
        absurd (isDigit_iff.2 ⟨digit, hdigit, hlt⟩) (by rw [hc]; exact Bool.false_ne_true)
      dsimp only
      rw [if_neg hge]

/-- Digits that end are a group, unless there are none or too many. -/
theorem nextgroup_eq (hp : ∀ c ∈ p, isDigit 16 c = true) (hc : isDigit 16 c = false) :
    (HexGroup p ∧ inet6_nextgroup (p ++ c :: src) = some (some (hexValue p, c :: src))) ∨
      (¬ HexGroup p ∧ inet6_nextgroup (p ++ c :: src) = some none) := by
  by_cases hlen : p.length ≤ 4
  · rw [inet6_nextgroup, nextgroupLoop_digits hp (by omega), nextgroupLoop_stop hc, Nat.zero_add]
    by_cases hnil : p = []
    · exact .inr ⟨fun h => h.1 hnil, by simp [hnil]⟩
    · exact .inl ⟨⟨hnil, hlen, hp⟩, by simp [hnil, hexValue]⟩
  · refine .inr ⟨fun h => hlen h.2.1, ?_⟩
    have hsplit : p ++ c :: src = p.take 4 ++ (p.drop 4 ++ c :: src) := by
      rw [← List.append_assoc, List.take_append_drop]
    have htake : (p.take 4).length = 4 := List.length_take_of_le (by omega)
    rw [hsplit, inet6_nextgroup, nextgroupLoop_digits (fun c hc => hp c (List.mem_of_mem_take hc))
      (by omega), htake]
    obtain ⟨d, q, hd⟩ : ∃ d q, p.drop 4 = d :: q :=
      List.exists_cons_of_ne_nil (by simpa [List.drop_eq_nil_iff] using hlen)
    have hdmem : d ∈ p := List.mem_of_mem_drop (hd ▸ List.mem_cons_self)
    obtain ⟨digit, hdigit, hlt⟩ := isDigit_iff.1 (hp d hdmem)
    rw [hd, List.cons_append, nextgroupLoop, if_neg (ne_zero_of_isDigit (hp d hdmem)), hdigit]
    dsimp only
    rw [if_pos hlt, if_pos rfl]

/-- The texts that the loop reads, with the groups that it has before and afterwards. -/
inductive Reads : Groups → List UInt8 → Groups → Prop
  | last {g g' : Groups} {p : List UInt8} :
      HexGroup p → g.add (hexValue p) = some g' → Reads g p g'
  | next {g g₁ g' : Groups} {p text : List UInt8} :
      HexGroup p → g.add (hexValue p) = some g₁ → Reads g₁ text g' → Reads g (p ++ COLON :: text) g'
  | gap {g g₁ g' : Groups} {p text : List UInt8} :
      HexGroup p → g.gap = false → g.add (hexValue p) = some g₁ →
        Reads { g₁ with gap := true } text g' → Reads g (p ++ COLON :: COLON :: text) g'
  | ending {g g₁ : Groups} {p : List UInt8} :
      HexGroup p → g.gap = false → g.add (hexValue p) = some g₁ →
        Reads g (p ++ [COLON, COLON]) { g₁ with gap := true }

theorem Groups.gap_add {group : UInt16} (h : g.add group = some g') : g'.gap = g.gap := by
  rw [Groups.add] at h
  split_ifs at h <;> cases h <;> rfl

theorem groupsLoop_none (h : inet6_nextgroup src = some none) :
    groupsLoop (fuel + 1) g src = some none := by
  simp [groupsLoop, h]

theorem groupsLoop_full {group : UInt16} {rest : List UInt8}
    (h : inet6_nextgroup src = some (some (group, rest))) (hadd : g.add group = none) :
    groupsLoop (fuel + 1) g src = some none := by
  simp [groupsLoop, h, hadd]

/-- A turn of the loop behind its group. -/
theorem groupsLoop_group {group : UInt16} {rest : List UInt8}
    (h : inet6_nextgroup src = some (some (group, c :: rest))) (hadd : g.add group = some g') :
    groupsLoop (fuel + 1) g src =
      if c = 0 then some (some g')
      else (memcmpEq GAP (c :: rest)).bind fun gap =>
        if gap then
          if g'.gap then some none
          else rest.tail.head?.bind fun d =>
            if d = 0 then some (some { g' with gap := true })
            else groupsLoop fuel { g' with gap := true } rest.tail
        else if c ≠ COLON then some none
        else groupsLoop fuel g' rest := by
  simp [groupsLoop, h, hadd]

theorem HexGroup.head (h : HexGroup p) : ∃ c q, p = c :: q ∧ isDigit 16 c = true := by
  obtain ⟨c, q, rfl⟩ := List.exists_cons_of_ne_nil h.1
  exact ⟨c, q, rfl, h.2.2 c List.mem_cons_self⟩

theorem Reads.head (h : Reads g text g') : ∃ c q, text = c :: q ∧ isDigit 16 c = true := by
  have hp : ∃ p rest, text = p ++ rest ∧ HexGroup p := by
    cases h with
    | last hp _ => exact ⟨_, [], (List.append_nil _).symm, hp⟩
    | next hp _ _ => exact ⟨_, _, rfl, hp⟩
    | gap hp _ _ _ => exact ⟨_, _, rfl, hp⟩
    | ending hp _ _ => exact ⟨_, _, rfl, hp⟩
  obtain ⟨p, rest, rfl, hp⟩ := hp
  obtain ⟨c, q, rfl, hc⟩ := hp.head
  exact ⟨c, q ++ rest, rfl, hc⟩

theorem HexGroup.nextgroup (h : HexGroup p) (hc : isDigit 16 c = false) :
    inet6_nextgroup (p ++ c :: src) = some (some (hexValue p, c :: src)) :=
  (nextgroup_eq h.2.2 hc).elim And.right fun hn => absurd h hn.1

theorem ne_colon_of_isDigit (h : isDigit 16 c = true) : c ≠ COLON := by
  rintro rfl
  exact absurd h (by decide)

/-- The loop reads the texts of the grammar. -/
theorem Reads.loop (h : Reads g text g') (hfuel : text.length < fuel) :
    groupsLoop fuel g (text ++ [0]) = some (some g') := by
  have hnul : isDigit 16 0 = false := by decide
  have hcolon : isDigit 16 COLON = false := by decide
  induction h generalizing fuel with
  | last hp hadd =>
    obtain ⟨fuel, rfl⟩ := Nat.exists_eq_add_of_lt hfuel
    rw [groupsLoop_group (hp.nextgroup hnul) hadd, if_pos rfl]
  | next hp hadd hrest ih =>
    obtain ⟨fuel, rfl⟩ := Nat.exists_eq_add_of_lt hfuel
    obtain ⟨c, q, rfl, hc⟩ := hrest.head
    have hgap : memcmpEq GAP (COLON :: (c :: q ++ [0])) = some false := by
      simp [memcmpEq, GAP, (ne_colon_of_isDigit hc).symm]
    rw [List.append_assoc, List.cons_append, groupsLoop_group (hp.nextgroup hcolon) hadd,
      if_neg (by decide), hgap, Option.bind_some, if_neg Bool.false_ne_true, if_neg (fun h => h rfl)]
    exact ih (by simp; omega)
  | gap hp hgap hadd hrest ih =>
    obtain ⟨fuel, rfl⟩ := Nat.exists_eq_add_of_lt hfuel
    obtain ⟨c, q, rfl, hc⟩ := hrest.head
    rw [List.append_assoc, List.cons_append, groupsLoop_group (hp.nextgroup hcolon) hadd,
      if_neg (by decide), List.cons_append, show memcmpEq GAP (COLON :: COLON :: (c :: q ++ [0])) =
        some true from memcmpEq_append GAP _, Option.bind_some, if_pos rfl,
      if_neg (by rw [Groups.gap_add hadd, hgap]; exact Bool.false_ne_true)]
    refine (if_neg (ne_zero_of_isDigit hc)).trans ?_
    exact ih (by simp; omega)
  | ending hp hgap hadd =>
    obtain ⟨fuel, rfl⟩ := Nat.exists_eq_add_of_lt hfuel
    rw [List.append_assoc, List.cons_append, groupsLoop_group (hp.nextgroup hcolon) hadd,
      if_neg (by decide), List.cons_append, show memcmpEq GAP (COLON :: COLON :: ([] ++ [0])) =
        some true from memcmpEq_append GAP _, Option.bind_some, if_pos rfl,
      if_neg (by rw [Groups.gap_add hadd, hgap]; exact Bool.false_ne_true)]
    rfl

/-- The loop ends within the text, and what it accepts is in the grammar. -/
theorem groupsLoop_reads (hfuel : text.length < fuel) (htext : 0 ∉ text) :
    ∃ r, groupsLoop fuel g (text ++ [0]) = some r ∧ ∀ g' ∈ r, Reads g text g' := by
  induction fuel generalizing g text with
  | zero => omega
  | succ fuel ih =>
    obtain ⟨p, rest, rfl, hp, hrest⟩ := span_digits text 16
    rw [List.append_assoc]
    cases rest with
    | nil =>
      rw [List.append_nil, List.nil_append]
      obtain ⟨hhex, hnext⟩ | ⟨-, hnext⟩ := @nextgroup_eq 0 [] p hp (by decide)
      · cases hadd : g.add (hexValue p) with
        | none => exact ⟨none, groupsLoop_full hnext hadd, by simp⟩
        | some g₁ =>
          refine ⟨some g₁, by rw [groupsLoop_group hnext hadd, if_pos rfl], fun g' hg' => ?_⟩
          obtain rfl := Option.some.inj hg'
          exact .last hhex hadd
      · exact ⟨none, groupsLoop_none hnext, by simp⟩
    | cons c rest =>
      have hc : c ≠ 0 := fun h => htext (by simp [h])
      have hzero : 0 ∉ rest := fun h => htext (by simp [h])
      rw [List.cons_append]
      obtain ⟨hhex, hnext⟩ | ⟨-, hnext⟩ := @nextgroup_eq c (rest ++ [0]) p hp (hrest c rfl)
      · cases hadd : g.add (hexValue p) with
        | none => exact ⟨none, groupsLoop_full hnext hadd, by simp⟩
        | some g₁ =>
          rw [groupsLoop_group hnext hadd, if_neg hc]
          have hctext : 0 ∉ c :: rest := fun h => (List.mem_cons.1 h).elim (fun h => hc h.symm) hzero
          obtain ⟨rest', hrest', hcmp⟩ | ⟨hne, hcmp⟩ :=
            @memcmpEq_terminated (c :: rest) GAP (by decide) hctext
          · obtain ⟨rfl, hrest''⟩ := List.cons_eq_cons.1 hrest'
            obtain rfl : rest = COLON :: rest' := hrest''
            rw [← List.cons_append, hcmp, Option.bind_some, if_pos rfl]
            by_cases hgap : g₁.gap = true
            · exact ⟨none, if_pos hgap, by simp⟩
            · rw [if_neg hgap]
              have hg : g.gap = false := by rw [← Groups.gap_add hadd]; exact Bool.eq_false_iff.2 hgap
              cases rest' with
              | nil =>
                refine ⟨some { g₁ with gap := true }, rfl, fun g' hg' => ?_⟩
                obtain rfl := Option.some.inj hg'
                exact .ending hhex hg hadd
              | cons d rest' =>
                have hd : d ≠ 0 := fun h => hzero (by simp [h])
                have hrest₂ : 0 ∉ d :: rest' := fun h => hzero (List.mem_cons_of_mem _ h)
                obtain ⟨r, hr, hall⟩ := @ih (d :: rest') { g₁ with gap := true }
                  (by simp at hfuel ⊢; omega) hrest₂
                refine ⟨r, ?_, fun g' hg' => .gap hhex hg hadd (hall g' hg')⟩
                rw [← hr]
                exact if_neg hd
          · rw [← List.cons_append, hcmp, Option.bind_some, if_neg Bool.false_ne_true]
            by_cases hcolon : c = COLON
            · subst hcolon
              obtain ⟨r, hr, hall⟩ := @ih rest g₁ (by simp at hfuel; omega) hzero
              exact ⟨r, (if_neg fun h => h rfl).trans hr, fun g' hg' => .next hhex hadd (hall g' hg')⟩
            · exact ⟨none, if_pos hcolon, by simp⟩
      · exact ⟨none, groupsLoop_none hnext, by simp⟩

/-! ### What the grammar spells -/

/-- Groups with colons between them. -/
def joined (groups : List (List UInt8)) : List UInt8 := [COLON].intercalate groups

theorem joined_cons {groups : List (List UInt8)} (h : groups ≠ []) :
    joined (p :: groups) = p ++ COLON :: joined groups :=
  intercalate_cons h

theorem joined_singleton : joined [p] = p := by simp [joined, List.intercalate]

variable {s e : List (List UInt8)}

theorem Groups.add_some {group : UInt16} (h : g.add group = some g') :
    (g.gap = true ∧ g.stop.length ≠ 8 ∧ g' = { g with stop := g.stop ++ [group] }) ∨
      (g.gap = false ∧ g.start.length ≠ 8 ∧ g' = { g with start := g.start ++ [group] }) := by
  rw [Groups.add] at h
  split_ifs at h with hg hlen hlen
  · exact .inl ⟨hg, hlen, (Option.some.inj h).symm⟩
  · exact .inr ⟨Bool.eq_false_iff.2 hg, hlen, (Option.some.inj h).symm⟩

theorem Groups.add_gap (group : UInt16) (hg : g.gap = true) (hle : g.stop.length < 8) :
    g.add group = some { g with stop := g.stop ++ [group] } := by
  rw [Groups.add, if_pos hg, if_neg (by omega)]

theorem Groups.add_start (group : UInt16) (hg : g.gap = false) (hle : g.start.length < 8) :
    g.add group = some { g with start := g.start ++ [group] } := by
  rw [Groups.add, if_neg (by rw [hg]; exact Bool.false_ne_true), if_neg (by omega)]

/-- Groups behind the gap. -/
theorem reads_joined_stop (hg : g.gap = true) (he : e ≠ []) (hhex : ∀ p ∈ e, HexGroup p)
    (hle : g.stop.length + e.length ≤ 8) :
    Reads g (joined e) { g with stop := g.stop ++ e.map hexValue } := by
  induction e generalizing g with
  | nil => exact absurd rfl he
  | cons p e ih =>
    obtain ⟨hp, hrest⟩ := List.forall_mem_cons.1 hhex
    rw [List.length_cons] at hle
    have hadd := Groups.add_gap (hexValue p) hg (by omega)
    by_cases hnil : e = []
    · subst hnil
      rw [joined_singleton]
      exact .last hp hadd
    · rw [joined_cons hnil]
      refine .next hp hadd ?_
      have hrec := ih (g := { g with stop := g.stop ++ [hexValue p] }) hg hnil hrest
        (by simp; omega)
      simpa using hrec

/-- Groups before the gap, the gap, and groups behind it. -/
theorem reads_joined_gap (hg : g.gap = false) (hs : s ≠ []) (hhex : ∀ p ∈ s ++ e, HexGroup p)
    (hstart : g.start.length + s.length ≤ 8) (hstop : g.stop.length + e.length ≤ 8) :
    Reads g (joined s ++ (GAP ++ joined e))
      ⟨g.start ++ s.map hexValue, g.stop ++ e.map hexValue, true⟩ := by
  induction s generalizing g with
  | nil => exact absurd rfl hs
  | cons p s ih =>
    obtain ⟨hp, hrest⟩ := List.forall_mem_cons.1 hhex
    rw [List.length_cons] at hstart
    have hadd := Groups.add_start (hexValue p) hg (by omega)
    by_cases hnil : s = []
    · subst hnil
      rw [joined_singleton]
      by_cases hend : e = []
      · subst hend
        have hlast := Reads.ending hp hg hadd
        simpa [GAP, joined, List.intercalate] using hlast
      · refine .gap hp hg hadd ?_
        exact reads_joined_stop (g := ⟨g.start ++ [hexValue p], g.stop, true⟩) rfl hend hrest hstop
    · rw [joined_cons hnil, List.append_assoc, List.cons_append]
      refine .next hp hadd ?_
      have hrec := ih (g := { g with start := g.start ++ [hexValue p] }) hg hnil hrest
        (by simp; omega) hstop
      simpa using hrec

theorem reads_joined_start (hg : g.gap = false) (hs : s ≠ []) (hhex : ∀ p ∈ s, HexGroup p)
    (hle : g.start.length + s.length ≤ 8) :
    Reads g (joined s) { g with start := g.start ++ s.map hexValue } := by
  induction s generalizing g with
  | nil => exact absurd rfl hs
  | cons p s ih =>
    obtain ⟨hp, hrest⟩ := List.forall_mem_cons.1 hhex
    rw [List.length_cons] at hle
    have hadd := Groups.add_start (hexValue p) hg (by omega)
    by_cases hnil : s = []
    · subst hnil
      rw [joined_singleton]
      exact .last hp hadd
    · rw [joined_cons hnil]
      refine .next hp hadd ?_
      have hrec := ih (g := { g with start := g.start ++ [hexValue p] }) hg hnil hrest
        (by simp; omega)
      simpa using hrec

/-- Behind the gap the loop can only have read groups. -/
theorem Reads.stop_spelled (h : Reads g text g') (hg : g.gap = true) (hle : g.stop.length ≤ 8) :
    ∃ e, e ≠ [] ∧ (∀ p ∈ e, HexGroup p) ∧ g.stop.length + e.length ≤ 8 ∧ text = joined e ∧
      g' = { g with stop := g.stop ++ e.map hexValue } := by
  induction h with
  | @last g g' p hp hadd =>
    obtain ⟨-, hne, rfl⟩ | ⟨hf, -⟩ := Groups.add_some hadd
    · exact ⟨[p], List.cons_ne_nil _ _, by simpa using hp, by simp; omega, joined_singleton.symm, rfl⟩
    · exact absurd (hg.symm.trans hf) (by decide)
  | @next g g₁ g' p text hp hadd _ ih =>
    obtain ⟨-, hne, rfl⟩ | ⟨hf, -⟩ := Groups.add_some hadd
    · obtain ⟨e, hnil, hhex, hlen, rfl, rfl⟩ := ih hg (by simp; omega)
      refine ⟨p :: e, List.cons_ne_nil _ _, List.forall_mem_cons.2 ⟨hp, hhex⟩, ?_, ?_, by simp⟩
      · simp at hlen ⊢
        omega
      · exact (joined_cons hnil).symm
    · exact absurd (hg.symm.trans hf) (by decide)
  | gap _ hf _ _ _ => exact absurd (hg.symm.trans hf) (by decide)
  | ending _ hf _ => exact absurd (hg.symm.trans hf) (by decide)

/-- Before the gap it can have read groups, and perhaps the gap and what is behind it. -/
theorem Reads.start_spelled (h : Reads g text g') (hg : g.gap = false)
    (hstart : g.start.length ≤ 8) (hstop : g.stop.length ≤ 8) :
    ∃ s e, s ≠ [] ∧ (∀ p ∈ s ++ e, HexGroup p) ∧ g.start.length + s.length ≤ 8 ∧
      g.stop.length + e.length ≤ 8 ∧
      ((e = [] ∧ text = joined s ∧ g' = { g with start := g.start ++ s.map hexValue }) ∨
        (text = joined s ++ (GAP ++ joined e) ∧
          g' = ⟨g.start ++ s.map hexValue, g.stop ++ e.map hexValue, true⟩)) := by
  induction h with
  | @last g g' p hp hadd =>
    obtain ⟨ht, -⟩ | ⟨-, hne, rfl⟩ := Groups.add_some hadd
    · exact absurd (ht.symm.trans hg) (by decide)
    · exact ⟨[p], [], List.cons_ne_nil _ _, by simpa using hp, by simp; omega, by simpa using hstop,
        .inl ⟨rfl, joined_singleton.symm, rfl⟩⟩
  | @next g g₁ g' p text hp hadd _ ih =>
    obtain ⟨ht, -⟩ | ⟨-, hne, rfl⟩ := Groups.add_some hadd
    · exact absurd (ht.symm.trans hg) (by decide)
    · obtain ⟨s, e, hnil, hhex, hlen, hlen', hcase⟩ := ih hg (by simp; omega) hstop
      refine ⟨p :: s, e, List.cons_ne_nil _ _, List.forall_mem_cons.2 ⟨hp, hhex⟩, ?_, hlen', ?_⟩
      · simp at hlen ⊢
        omega
      · rw [joined_cons hnil]
        obtain ⟨rfl, rfl, rfl⟩ | ⟨rfl, rfl⟩ := hcase
        · exact .inl ⟨rfl, rfl, by simp⟩
        · exact .inr ⟨by simp, by simp⟩
  | @gap g g₁ g' p text hp _ hadd hrest _ =>
    obtain ⟨ht, -⟩ | ⟨-, hne, rfl⟩ := Groups.add_some hadd
    · exact absurd (ht.symm.trans hg) (by decide)
    · obtain ⟨e, -, hhex, hlen, rfl, rfl⟩ := hrest.stop_spelled rfl hstop
      refine ⟨[p], e, List.cons_ne_nil _ _, List.forall_mem_cons.2 ⟨hp, hhex⟩, ?_, hlen, .inr ⟨?_, ?_⟩⟩
      · simp
        omega
      · rw [joined_singleton]
        rfl
      · rfl
  | @ending g g₁ p hp _ hadd =>
    obtain ⟨ht, -⟩ | ⟨-, hne, rfl⟩ := Groups.add_some hadd
    · exact absurd (ht.symm.trans hg) (by decide)
    · refine ⟨[p], [], List.cons_ne_nil _ _, by simpa using hp, by simp; omega, by simpa using hstop,
        .inr ⟨?_, by simp⟩⟩
      simp [joined, List.intercalate, GAP]

end Groups

end Glidix.Libc.Inet
