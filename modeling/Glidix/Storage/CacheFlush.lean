import Mathlib.Data.Fintype.Card
import Glidix.Storage.CacheTree

/-!
# Flushing and freeing tracks

`sdFlushTree` writes exactly the dirty tracks, and leaves none dirty (`Flushed`); `sdTryFree` takes
one track out of the cache and writes it if it is dirty (`Freed`), and always ends.
-/

namespace Glidix.Storage

open Bytes Radix

/-! ## Flushing -/

section Flush

variable {α : Type} {d d' : Drive} {pos k : ℕ}

/-- What is written for track `t` of a node whose children have `k` digits: `w` says it for the
children. -/
def written (w : α → ℕ → ℕ → Option UInt8) (k : ℕ) (node : Fin 128 → Option (BlockEntry × α))
    (t o : ℕ) : Option UInt8 :=
  match node (digit 128 k t) with
  | none => none
  | some (entry, child) => if entry.dirty = true then w child t o else none

/-- `flush` does its work for the children of a node: it leaves `R` and writes `w`. -/
def Flushes (flush : Drive → α → ℕ → α × Drive) (R : α → α → Prop)
    (w : α → ℕ → ℕ → Option UInt8) (k : ℕ) (d : Drive) (child : α) (i : ℕ) : Prop :=
  ∀ d₁, d.Same d₁ → d₁.Same (flush d₁ child i).2 ∧ R child (flush d₁ child i).1 ∧
    ∀ t o, o < SD_TRACK_SIZE → (flush d₁ child i).2.disk (t * SD_TRACK_SIZE + o) =
      if t / 128 ^ k = i then (w child t o).getD (d₁.disk (t * SD_TRACK_SIZE + o))
      else d₁.disk (t * SD_TRACK_SIZE + o)

/-- An entry after it was flushed. -/
def EntryFlushed (R : α → α → Prop) : Option (BlockEntry × α) → Option (BlockEntry × α) → Prop
  | none, entry' => entry' = none
  | some (entry, child), entry' =>
    if entry.dirty = true then ∃ child', entry' = some ({ entry with dirty := false }, child') ∧
      R child child'
    else entry' = some (entry, child)

theorem div_eq_mul_add {t i : ℕ} (hi : i < 128) :
    t / 128 ^ k = pos * 128 + i ↔ t / 128 ^ (k + 1) = pos ∧ t / 128 ^ k % 128 = i := by
  rw [Nat.pow_succ, ← Nat.div_div_eq_div_mul]
  omega

section Loop

variable {flush : Drive → α → ℕ → α × Drive} {R : α → α → Prop} {w : α → ℕ → ℕ → Option UInt8}

theorem flushEntry_step (i : Fin 128) (node : Fin 128 → Option (BlockEntry × α))
    (hflush : ∀ e child, node i = some (e, child) → Flushes flush R w k d child (pos * 128 + i)) :
    let s := flushEntry flush pos (node, d) i
    d.Same s.2 ∧ (∀ j, j ≠ i → s.1 j = node j) ∧ EntryFlushed R (node i) (s.1 i) ∧
    ∀ t o, o < SD_TRACK_SIZE → s.2.disk (t * SD_TRACK_SIZE + o) =
      if t / 128 ^ (k + 1) = pos ∧ digit 128 k t = i then
        (written w k node t o).getD (d.disk (t * SD_TRACK_SIZE + o))
      else d.disk (t * SD_TRACK_SIZE + o) := by
  have hplace : ∀ t, (t / 128 ^ (k + 1) = pos ∧ digit 128 k t = i ↔
      t / 128 ^ k = pos * 128 + i) := fun t => by
    rw [div_eq_mul_add i.isLt, Fin.ext_iff, digit_val]
  cases hnode : node i with
  | none =>
    simp only [flushEntry, hnode]
    refine ⟨Drive.Same.refl d, fun _ _ => trivial, rfl, fun t o _ => ?_⟩
    split_ifs with h
    · rw [written, h.2, hnode]
      rfl
    · rfl
  | some x =>
    obtain ⟨entry, child⟩ := x
    cases hdirty : entry.dirty with
    | false =>
      simp only [flushEntry, hnode, hdirty, Bool.false_eq_true, if_false, EntryFlushed]
      refine ⟨Drive.Same.refl d, fun _ _ => trivial, trivial, fun t o _ => ?_⟩
      split_ifs with h
      · rw [written, h.2, hnode]
        simp [hdirty]
      · rfl
    | true =>
      obtain ⟨hsame, hR, hdisk⟩ := hflush entry child hnode d (Drive.Same.refl d)
      simp only [flushEntry, hnode, hdirty, if_true, EntryFlushed]
      refine ⟨hsame, fun j hj => Function.update_of_ne hj _ _,
        ⟨_, Function.update_self .., hR⟩, fun t o ho => ?_⟩
      rw [hdisk t o ho]
      by_cases h : t / 128 ^ (k + 1) = pos ∧ digit 128 k t = i
      · rw [if_pos h, if_pos ((hplace t).1 h), written, h.2, hnode]
        simp only [hdirty, if_true]
      · rw [if_neg h, if_neg fun ht => h ((hplace t).2 ht)]

/-- The loop over the entries of a node. -/
theorem foldl_flushEntry (l : List (Fin 128)) (hl : l.Nodup)
    (node : Fin 128 → Option (BlockEntry × α))
    (hflush : ∀ i ∈ l, ∀ e child, node i = some (e, child) →
      Flushes flush R w k d child (pos * 128 + i)) :
    let s := l.foldl (flushEntry flush pos) (node, d)
    d.Same s.2 ∧ (∀ i ∉ l, s.1 i = node i) ∧ (∀ i ∈ l, EntryFlushed R (node i) (s.1 i)) ∧
    ∀ t o, o < SD_TRACK_SIZE → s.2.disk (t * SD_TRACK_SIZE + o) =
      if t / 128 ^ (k + 1) = pos ∧ digit 128 k t ∈ l then
        (written w k node t o).getD (d.disk (t * SD_TRACK_SIZE + o))
      else d.disk (t * SD_TRACK_SIZE + o) := by
  induction l generalizing node d with
  | nil => simp [Drive.Same.refl]
  | cons i l ih =>
    obtain ⟨hi, hl⟩ := List.nodup_cons.1 hl
    obtain ⟨hsame₁, hother₁, hentry₁, hdisk₁⟩ :=
      flushEntry_step i node (hflush i List.mem_cons_self)
    rw [List.foldl_cons]
    set s₁ := flushEntry flush pos (node, d) i with hs₁
    have hkeep : ∀ j ∈ l, s₁.1 j = node j := fun j hj =>
      hother₁ j fun e => hi (e ▸ hj)
    obtain ⟨hsame, hother, hentry, hdisk⟩ := ih hl (d := s₁.2) s₁.1 fun j hj e child hjc d₁ hd₁ => by
      rw [hkeep j hj] at hjc
      exact hflush j (List.mem_cons_of_mem i hj) e child hjc d₁ (hsame₁.trans hd₁)
    refine ⟨hsame₁.trans hsame, fun j hj => ?_, fun j hj => ?_, fun t o ho => ?_⟩
    · obtain ⟨hji, hjl⟩ := not_or.1 fun h => hj (List.mem_cons.2 h)
      exact (hother j hjl).trans (hother₁ j hji)
    · rcases List.mem_cons.1 hj with rfl | hj
      · rw [hother j hi]
        exact hentry₁
      · rw [← hkeep j hj]
        exact hentry j hj
    · rw [hdisk t o ho, hdisk₁ t o ho]
      by_cases hpos : t / 128 ^ (k + 1) = pos
      · simp only [hpos, true_and, List.mem_cons]
        by_cases hti : digit 128 k t = i
        · have htl : digit 128 k t ∉ l := hti ▸ hi
          rw [if_neg htl, if_pos hti, if_pos (Or.inl hti)]
        · rw [if_neg hti]
          by_cases htl : digit 128 k t ∈ l
          · have hw : written w k s₁.1 t o = written w k node t o := by
              rw [written, written, hkeep _ htl]
            rw [if_pos htl, if_pos (Or.inr htl), hw]
          · rw [if_neg htl, if_neg (not_or.2 ⟨hti, htl⟩)]
      · simp only [hpos, false_and, if_false]

end Loop

/-- A track as it is found after a flush. -/
def clean (x : BlockEntry × Bytes) : BlockEntry × Bytes := ({ x.1 with dirty := false }, x.2)

theorem clean_of_not_dirty {x : BlockEntry × Bytes} (h : ¬ x.1.dirty = true) : clean x = x := by
  obtain ⟨⟨dirty, usage⟩, track⟩ := x
  obtain rfl : dirty = false := Bool.eq_false_iff.2 h
  rfl

/-- What a flush writes for a track that is found. -/
def dirtyByte (found : Option (BlockEntry × Bytes)) (o : ℕ) : Option UInt8 :=
  match found with
  | none => none
  | some (entry, track) => if entry.dirty = true then some (track o) else none

theorem dirtyByte_of_clean {found : Option (BlockEntry × Bytes)} {o : ℕ}
    (h : ∀ x, found = some x → ¬ x.1.dirty = true) : dirtyByte found o = none := by
  cases found with
  | none => rfl
  | some x => exact if_neg (h x rfl)

/-- What `sdFlushTree` does to a node, which has the tracks whose number begins with `pos`. -/
structure Flushed (n pos : ℕ) (d : Drive) (node : BlockTreeNode n) (d' : Drive)
    (node' : BlockTreeNode n) : Prop where
  same : d.Same d'
  find : ∀ t, find n node' t = (find n node t).map clean
  dirtyPaths : DirtyPaths n node'
  disk : ∀ t o, o < SD_TRACK_SIZE → d'.disk (t * SD_TRACK_SIZE + o) =
    if t / 128 ^ (n + 1) = pos then
      (dirtyByte (Radix.find n node t) o).getD (d.disk (t * SD_TRACK_SIZE + o))
    else d.disk (t * SD_TRACK_SIZE + o)

theorem sdFlushTree_spec (hd : d.Ok) (n pos : ℕ) (node : BlockTreeNode n) (hp : DirtyPaths n node)
    (hhas : ∀ t x, t / 128 ^ (n + 1) = pos → find n node t = some x → d.Has t) :
    Flushed n pos d node (sdFlushTree n d node pos).2 (sdFlushTree n d node pos).1 := by
  induction n generalizing d pos with
  | zero =>
    have hflush : ∀ i ∈ List.finRange 128, ∀ e track, node i = some (e, track) →
        Flushes (fun d track i => (track, d.writeTrack (i * SD_TRACK_SIZE) track)) Eq
          (fun (track : Bytes) _ o => some (track o)) 0 d track (pos * 128 + i) := by
      intro i _ e track hi d₁ hd₁
      have hplace : (pos * 128 + i) / 128 ^ (0 + 1) = pos ∧ (pos * 128 + i) / 128 ^ 0 % 128 = i :=
        (div_eq_mul_add i.isLt).1 (Nat.div_one _)
      have hfind : find 0 node (pos * 128 + i) = some (e, track) := by
        rw [find, show digit 128 0 (pos * 128 + i) = i from Fin.ext hplace.2, hi]
      refine ⟨d₁.writeTrack_same _ _, rfl, fun t o ho => ?_⟩
      rw [pow_zero, Nat.div_one]
      exact d₁.disk_writeTrack (hd₁.ok hd) (hd₁.has (hhas _ _ hplace.1 hfind)) track ho
    obtain ⟨hsame, -, hentry, hdisk⟩ := foldl_flushEntry _ (List.nodup_finRange 128) node hflush
    rw [sdFlushTree]
    generalize (List.finRange 128).foldl _ (node, d) = s at hsame hentry hdisk ⊢
    refine ⟨hsame, fun t => ?_, trivial, fun t o ho => ?_⟩
    · have he := hentry (digit 128 0 t) (List.mem_finRange _)
      rw [find, find]
      revert he
      cases node (digit 128 0 t) with
      | none => exact fun he => he
      | some x =>
        intro he
        rw [EntryFlushed] at he
        split_ifs at he with hx
        · obtain ⟨track, he, rfl⟩ := he
          exact he
        · exact he.trans (congrArg some (clean_of_not_dirty hx).symm)
    · rw [hdisk t o ho]
      simp only [List.mem_finRange, and_true]
      refine if_congr Iff.rfl (congrArg (Option.getD · _) ?_) rfl
      rw [written, find]
      cases node (digit 128 0 t) <;> rfl
  | succ n ih =>
    have hin : ∀ i : Fin 128, ∀ x, node i = some x → ∀ t, t / 128 ^ (n + 1) = pos * 128 + i →
        t / 128 ^ (n + 2) = pos ∧ find (n + 1) node t = find n x.2 t := by
      intro i x hi t ht
      obtain ⟨hpos, hdigit⟩ := (div_eq_mul_add i.isLt).1 ht
      have hdigit' : digit 128 (n + 1) t = i := Fin.ext hdigit
      exact ⟨hpos, find_of_some (by rw [hdigit', hi])⟩
    have hflush : ∀ i ∈ List.finRange 128, ∀ e child, node i = some (e, child) →
        Flushes (fun d => sdFlushTree n d)
          (fun c c₁ => (∀ t, find n c₁ t = (find n c t).map clean) ∧ DirtyPaths n c₁)
          (fun c t o => dirtyByte (find n c t) o) (n + 1) d child (pos * 128 + i) := by
      intro i _ e child hi d₁ hd₁
      have hf := ih (hd₁.ok hd) (pos * 128 + i) child (hp i (e, child) hi).1 fun t x ht hx => by
        obtain ⟨hpos, hfind⟩ := hin i (e, child) hi t ht
        exact hd₁.has (hhas t x hpos (hfind.trans hx))
      exact ⟨hf.same, ⟨hf.find, hf.dirtyPaths⟩, hf.disk⟩
    obtain ⟨hsame, -, hentry, hdisk⟩ := foldl_flushEntry _ (List.nodup_finRange 128) node hflush
    rw [sdFlushTree]
    generalize (List.finRange 128).foldl _ (node, d) = s at hsame hentry hdisk ⊢
    -- an entry and what is below it, before and after
    have hbelow : ∀ i, (node i = none ∧ s.1 i = none) ∨ ∃ x x', node i = some x ∧
        s.1 i = some x' ∧ DirtyPaths n x'.2 ∧ (∀ t, find n x'.2 t = (find n x.2 t).map clean) := by
      intro i
      have he := hentry i (List.mem_finRange i)
      cases hx : node i with
      | none =>
        rw [hx] at he
        exact Or.inl ⟨rfl, he⟩
      | some x =>
        obtain ⟨hclosed, hclean⟩ := hp i x hx
        rw [hx, EntryFlushed] at he
        refine Or.inr ⟨x, ?_⟩
        split_ifs at he with hdirty
        · obtain ⟨child, he, hfind, hchild⟩ := he
          exact ⟨_, rfl, he, hchild, hfind⟩
        · refine ⟨x, rfl, he, hclosed, fun t => ?_⟩
          cases hf : find n x.2 t with
          | none => rfl
          | some y => exact congrArg some (clean_of_not_dirty (hclean hdirty t y hf)).symm
    refine ⟨hsame, fun t => ?_, fun i x' hi => ?_, fun t o ho => ?_⟩
    · rcases hbelow (digit 128 (n + 1) t) with ⟨hx, hx'⟩ | ⟨x, x', hx, hx', -, hfind⟩
      · rw [find_of_none hx, find_of_none hx']
        rfl
      · rw [find_of_some hx, find_of_some hx']
        exact hfind t
    · rcases hbelow i with ⟨-, hx'⟩ | ⟨x, y, -, hx', hclosed, hfind⟩
      · cases hi.symm.trans hx'
      · obtain rfl := Option.some.inj (hi.symm.trans hx')
        refine ⟨hclosed, fun _ t z hz => ?_⟩
        rw [hfind t] at hz
        obtain ⟨z, -, rfl⟩ := Option.map_eq_some_iff.1 hz
        exact Bool.false_ne_true
    · rw [hdisk t o ho]
      simp only [List.mem_finRange, and_true]
      refine if_congr Iff.rfl (congrArg (Option.getD · _) ?_) rfl
      rw [written]
      cases hx : node (digit 128 (n + 1) t) with
      | none =>
        rw [find_of_none hx]
        rfl
      | some x =>
        rw [find_of_some hx]
        by_cases hdirty : x.1.dirty = true
        · exact if_pos hdirty
        · rw [dirtyByte_of_clean fun y hy => (hp _ x hx).2 hdirty t y hy]
          exact if_neg hdirty

end Flush

/-! ## Freeing -/

section Free

variable {α : Type} {d d' : Drive} {addr : ℕ}

theorem foldl_lowest (node : Fin 128 → Option (BlockEntry × α)) (l : List (Fin 128))
    (acc : Option (Fin 128 × ℕ)) (hacc : ∀ i u, acc = some (i, u) → ∃ x, node i = some x) :
    let r := l.foldl (fun lowest i =>
      match node i, lowest with
      | none, _ => lowest
      | some e, none => some (i, e.1.usage)
      | some e, some (_, usage) => if e.1.usage < usage then some (i, e.1.usage) else lowest) acc
    (r = none → acc = none ∧ ∀ i ∈ l, node i = none) ∧
      ∀ i u, r = some (i, u) → ∃ x, node i = some x := by
  induction l generalizing acc with
  | nil => exact ⟨fun h => ⟨h, by simp⟩, hacc⟩
  | cons i l ih =>
    rw [List.foldl_cons]
    cases hi : node i with
    | none =>
      obtain ⟨hnone, hsome⟩ := ih acc hacc
      exact ⟨fun h => ⟨(hnone h).1, List.forall_mem_cons.2 ⟨hi, (hnone h).2⟩⟩, hsome⟩
    | some e =>
      have hnew : ∀ j u, (some (i, e.1.usage) : Option (Fin 128 × ℕ)) = some (j, u) →
          ∃ x, node j = some x := fun j u h => by
        obtain ⟨rfl, -⟩ := Prod.ext_iff.1 (Option.some.inj h)
        exact ⟨e, hi⟩
      cases acc with
      | none =>
        obtain ⟨hnone, hsome⟩ := ih _ hnew
        exact ⟨fun h => (by cases (hnone h).1), hsome⟩
      | some a =>
        by_cases hlt : e.1.usage < a.2
        · obtain ⟨hnone, hsome⟩ := ih _ hnew
          simp only [hlt, if_true]
          exact ⟨fun h => (by cases (hnone h).1), hsome⟩
        · obtain ⟨hnone, hsome⟩ := ih _ hacc
          simp only [hlt, if_false]
          exact ⟨fun h => (by cases (hnone h).1), hsome⟩

theorem lowestUsage_spec (node : Fin 128 → Option (BlockEntry × α)) :
    (lowestUsage node = none → ∀ i, node i = none) ∧
    ∀ i u, lowestUsage node = some (i, u) → ∃ x, node i = some x := by
  obtain ⟨hnone, hsome⟩ := foldl_lowest node (List.finRange 128) none (by simp)
  exact ⟨fun h i => (hnone h).2 i (List.mem_finRange i), hsome⟩

/-- What `sdTryFree` does to a node, which has the tracks whose number begins with `addr`: it takes
out track `t`, or finds none. -/
structure Freed (n addr : ℕ) (d : Drive) (node : BlockTreeNode n) (d' : Drive)
    (node' : BlockTreeNode n) (freed : Bool) : Prop where
  same : d.Same d'
  dirtyPaths : DirtyPaths n node'
  found : freed = true → ∃ t x, t / 128 ^ (n + 1) = addr ∧ find n node t = some x ∧
    find n node' t = none ∧ (∀ u, ¬ SameKey 128 n u t → find n node' u = find n node u) ∧
    ∀ u o, o < SD_TRACK_SIZE → d'.disk (u * SD_TRACK_SIZE + o) =
      if u = t then (dirtyByte (some x) o).getD (d.disk (u * SD_TRACK_SIZE + o))
      else d.disk (u * SD_TRACK_SIZE + o)
  nothing : freed = false → d' = d ∧ ∀ t, find n node t = none ∧ find n node' t = none

theorem Freed.of_none {n : ℕ} {node : BlockTreeNode n} (hp : DirtyPaths n node)
    (h : ∀ t, find n node t = none) : Freed n addr d node d node false :=
  ⟨Drive.Same.refl d, hp, fun h => (nomatch h), fun _ => ⟨rfl, fun t => ⟨h t, h t⟩⟩⟩

/-- The number of entries in use. -/
def used (node : Fin 128 → Option (BlockEntry × α)) : ℕ :=
  (Finset.univ.filter fun i => (node i).isSome).card

theorem used_update_lt {node : Fin 128 → Option (BlockEntry × α)} {i : Fin 128}
    {x : BlockEntry × α} (h : node i = some x) : used (Function.update node i none) < used node := by
  refine Finset.card_lt_card (Finset.ssubset_iff_subset_ne.2 ⟨fun j hj => ?_, fun he => ?_⟩)
  · rw [Finset.mem_filter] at hj ⊢
    by_cases hij : j = i
    · rw [hij, Function.update_self] at hj
      cases hj.2
    · rwa [Function.update_of_ne hij] at hj
  · have hi : i ∈ Finset.univ.filter fun j => (node j).isSome := by simp [h]
    rw [← he] at hi
    simp at hi

theorem tryFreeLoop_spec {n : ℕ} (rounds : ℕ) (node : BlockTreeNode (n + 1))
    (hused : used node < rounds) (hp : DirtyPaths (n + 1) node)
    (hfree : ∀ i x, node i = some x → ∃ child d' freed,
      sdTryFree n d x.2 (addr * 128 + i) = some (child, d', freed) ∧
      Freed n (addr * 128 + i) d x.2 d' child freed) :
    ∃ node' d' freed, tryFreeLoop (sdTryFree n) addr rounds d node = some (node', d', freed) ∧
      Freed (n + 1) addr d node d' node' freed := by
  induction rounds generalizing node with
  | zero => omega
  | succ rounds ih =>
    obtain ⟨hnone, hsome⟩ := lowestUsage_spec node
    rw [tryFreeLoop]
    cases hlow : lowestUsage node with
    | none =>
      exact ⟨node, d, false, rfl, Freed.of_none hp fun t => find_of_none (hnone hlow _)⟩
    | some low =>
      obtain ⟨i, usage⟩ := low
      obtain ⟨x, hx⟩ := hsome i usage hlow
      obtain ⟨child, d', freed, hexec, hf⟩ := hfree i x hx
      obtain ⟨hclosed, hclean⟩ := hp i x hx
      simp only [hx, hexec]
      have hfind : ∀ t, digit 128 (n + 1) t = i → find (n + 1) node t = find n x.2 t :=
        fun t ht => find_of_some (by rw [ht, hx])
      cases freed with
      | true =>
        obtain ⟨t, y, ht, hy, hgone, hother, hdisk⟩ := hf.found rfl
        obtain ⟨haddr, hval⟩ := (div_eq_mul_add i.isLt).1 ht
        have hdigit : digit 128 (n + 1) t = i := Fin.ext hval
        refine ⟨_, d', true, rfl, hf.same, hp.update_some hf.dirtyPaths fun hd u z hz => ?_,
          fun _ => ⟨t, y, haddr, (hfind t hdigit).trans hy, ?_, fun u hu => ?_, hdisk⟩,
          fun h => (nomatch h)⟩
        · by_cases hu : SameKey 128 n u t
          · rw [find_congr n child hu, hgone] at hz
            cases hz
          · rw [hother u hu] at hz
            exact hclean hd u z hz
        · exact (find_update_self node hdigit).trans hgone
        · by_cases hdu : digit 128 (n + 1) u = i
          · rw [find_update_self node hdu, hfind u hdu]
            exact hother u fun hk => hu (sameKey_succ.2 ⟨hdu.trans hdigit.symm, hk⟩)
          · exact find_update_of_ne hdu
      | false =>
        obtain ⟨rfl, hempty⟩ := hf.nothing rfl
        set node₁ : BlockTreeNode (n + 1) := Function.update node i none with hnode₁
        have hsame : ∀ t, find (n + 1) node₁ t = find (n + 1) node t := fun t => by
          by_cases hdt : digit 128 (n + 1) t = i
          · rw [find_remove_self node hdt, hfind t hdt, (hempty t).1]
          · exact find_update_of_ne hdt
        have hlt : used node₁ < used node := used_update_lt hx
        obtain ⟨node', d'', freed, hexec', hf'⟩ := ih node₁ (by omega) hp.update_none
          fun j y hj => hfree j y (by
            by_cases hji : j = i
            · rw [hnode₁, hji, Function.update_self] at hj
              cases hj
            · rwa [hnode₁, Function.update_of_ne hji] at hj)
        refine ⟨node', d'', freed, hexec', hf'.same, hf'.dirtyPaths, ?_, ?_⟩
        · simp only [← hsame]
          exact hf'.found
        · simp only [← hsame]
          exact hf'.nothing

/-- `sdTryFree` ends, and takes out one track if there is any. -/
theorem sdTryFree_spec (hd : d.Ok) (n addr : ℕ) (node : BlockTreeNode n) (hp : DirtyPaths n node)
    (hhas : ∀ t x, t / 128 ^ (n + 1) = addr → find n node t = some x → d.Has t) :
    ∃ node' d' freed, sdTryFree n d node addr = some (node', d', freed) ∧
      Freed n addr d node d' node' freed := by
  induction n generalizing addr with
  | zero =>
    obtain ⟨hnone, hsome⟩ := lowestUsage_spec node
    rw [sdTryFree]
    cases hlow : lowestUsage node with
    | none => exact ⟨node, d, false, rfl, Freed.of_none hp fun t => hnone hlow _⟩
    | some low =>
      obtain ⟨i, usage⟩ := low
      obtain ⟨⟨entry, track⟩, hx⟩ := hsome i usage hlow
      have hplace : (addr * 128 + i) / 128 ^ (0 + 1) = addr ∧ (addr * 128 + i) / 128 ^ 0 % 128 = i :=
        (div_eq_mul_add i.isLt).1 (Nat.div_one _)
      have hdigit : digit 128 0 (addr * 128 + i) = i := Fin.ext hplace.2
      have hfind : find 0 node (addr * 128 + i) = some (entry, track) := by rw [find, hdigit, hx]
      simp only [hx]
      refine ⟨_, _, true, rfl, ?_, trivial, fun _ => ⟨addr * 128 + i, _, hplace.1, hfind,
        find_zero_update_self node hdigit, fun u hu => ?_, fun u o ho => ?_⟩, fun h => by cases h⟩
      · split_ifs
        · exact d.writeTrack_same _ _
        · exact Drive.Same.refl d
      · exact find_zero_update_of_ne node fun h => hu (sameKey_zero.2 (h.trans hdigit.symm))
      · cases hdirty : entry.dirty with
        | true =>
          rw [if_pos rfl, d.disk_writeTrack hd (hhas _ _ hplace.1 hfind) track ho, dirtyByte]
          simp [hdirty]
        | false => simp [dirtyByte, hdirty]
  | succ n ih =>
    rw [sdTryFree]
    refine tryFreeLoop_spec 129 node ?_ hp fun i x hx => ?_
    · exact Nat.lt_succ_of_le ((Finset.card_le_univ _).trans_eq (Fintype.card_fin 128))
    · refine ih (addr * 128 + i) x.2 (hp i x hx).1 fun t y ht hy => ?_
      obtain ⟨haddr, hval⟩ := (div_eq_mul_add i.isLt).1 ht
      have hdigit : digit 128 (n + 1) t = i := Fin.ext hval
      exact hhas t y haddr ((find_of_some (by rw [hdigit, hx])).trans hy)

end Free

end Glidix.Storage
