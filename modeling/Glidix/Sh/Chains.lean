import Glidix.Sh.Command

/-!
# Chains of commands

`cmdRun` ends a chain at the first operator that the status does not satisfy, where the evaluation from left to right
skips one command.  A line of assignments performs those of its last command only, and returns a status that nothing
has set.
-/

namespace Glidix.Sh

/-! ## Chains as they are written -/

/-- A word of a command, or a redirection with its target. -/
inductive Item
  | word (token : List UInt8)
  | redir (op target : List UInt8)

def Item.tokens : Item → List (List UInt8)
  | .word token => [token]
  | .redir op target => [op, target]

def Item.word? : Item → Option (List UInt8)
  | .word token => some token
  | .redir _ _ => none

/-- The commands of a pipeline from left to right. -/
structure Pipeline where
  first : List Item
  rest : List (List Item)

def Pipeline.members (p : Pipeline) : List (List Item) := p.first :: p.rest

inductive ChainOp
  | and
  | or
  deriving DecidableEq

def ChainOp.token : ChainOp → List UInt8
  | .and => [AMPERSAND, AMPERSAND]
  | .or => [PIPE, PIPE]

structure Chain where
  first : Pipeline
  rest : List (ChainOp × Pipeline)

def Chain.members (c : Chain) : List (List Item) := c.first.members ++ c.rest.flatMap fun p => p.2.members

def wordsOf (m : List Item) : List (List UInt8) := m.filterMap Item.word?

def memberTokens (m : List Item) : List (List UInt8) := m.flatMap Item.tokens

def Pipeline.tokens (p : Pipeline) : List (List UInt8) :=
  memberTokens p.first ++ p.rest.flatMap fun m => [PIPE] :: memberTokens m

def Chain.tokens (c : Chain) : List (List UInt8) :=
  c.first.tokens ++ c.rest.flatMap fun p => p.1.token :: p.2.tokens

/-- The tokens of a command are words, of which only the first may be a subshell or a group, and redirections. -/
def ItemsOk : (first : Bool) → List Item → Prop
  | _, [] => True
  | first, .word token :: rest =>
    token.getLast? ≠ some GREATER ∧ token ∉ [[PIPE], [PIPE, PIPE], [AMPERSAND, AMPERSAND]] ∧
      (token.head?.any isOpening = true → first = true) ∧ ItemsOk false rest
  | first, .redir op _ :: rest => op.getLast? = some GREATER ∧ ItemsOk first rest

/-- Every command is one, and has a word. -/
def Chain.Ok (c : Chain) : Prop := ∀ m ∈ c.members, ItemsOk true m ∧ wordsOf m ≠ []

/-! ## What the loop makes of them -/

/-- A word without its quotes. -/
def canon (token : List UInt8) : List UInt8 :=
  match strCanon token with
  | .ok word => word
  | .error _ => []

/-- The loop looks for `=` in a word without leaving the word. -/
def Safe (token : List UInt8) : Prop :=
  ∃ word found, strCanon token = .ok word ∧ strFind [EQUALS] QUOTES {} word = .ok found

def assigns (token : List UInt8) : Bool :=
  match strFind [EQUALS] QUOTES {} (canon token) with
  | .ok found => found.isSome
  | .error _ => false

def Item.redir? : Item → Option CmdRedir
  | .word _ => none
  | .redir op target => some ⟨(redirOf op).1, (redirOf op).2, target⟩

def memberOf (m : List Item) : CmdMember := ⟨(wordsOf m).map canon, m.filterMap Item.redir?⟩

/-- The members of the group of a pipeline. -/
def Pipeline.group (p : Pipeline) : List CmdMember := (p.members.map memberOf).reverse

/-- The groups of a chain; nothing sets `mustSucceed` of the last one. -/
def groupsFrom (last : Option Bool) : List CmdMember → List (ChainOp × List CmdMember) → List CmdGroup
  | g, [] => [⟨g, last⟩]
  | g, (op, g') :: rest => ⟨g, some (op = .and)⟩ :: groupsFrom none g' rest

def Chain.groups (c : Chain) : List CmdGroup :=
  groupsFrom (some false) c.first.group (c.rest.map fun p => (p.1, p.2.group))

def assignsAll (m : List Item) : Bool := (wordsOf m).all assigns

/-- Every word of the chain is an assignment. -/
def Chain.assignsOnly (c : Chain) : Bool := c.members.all assignsAll

section Parsing

variable {s s' s'' : ParseState} {a b : List (List UInt8)} {m : List Item} {p q : Prop}

/-- The loop goes through the tokens to a state, or leaves a word that is not safe. -/
def Reaches (s : ParseState) (tokens : List (List UInt8)) (safe : Prop) (s' : ParseState) : Prop :=
  safe ∧ parseTokens s tokens = .ok s' ∨ ¬ safe ∧ ∃ e, parseTokens s tokens = .error (.crash e)

theorem Reaches.append (h : Reaches s a p s') (h' : Reaches s' b q s'') : Reaches s (a ++ b) (p ∧ q) s'' := by
  have happ : parseTokens s (a ++ b) = (parseTokens s a).bind fun s => parseTokens s b :=
    List.foldlM_append
  rcases h with ⟨hp, ha⟩ | ⟨hp, e, ha⟩
  · rw [ha] at happ
    rcases h' with ⟨hq, hb⟩ | ⟨hq, e, hb⟩
    · exact Or.inl ⟨⟨hp, hq⟩, happ.trans hb⟩
    · exact Or.inr ⟨fun h => hq h.2, e, happ.trans hb⟩
  · rw [ha] at happ
    exact Or.inr ⟨fun h => hp h.1, e, happ⟩

theorem Reaches.congr (h : Reaches s a p s') (hpq : p ↔ q) : Reaches s a q s' :=
  (propext hpq : p = q) ▸ h

theorem Reaches.single {token : List UInt8} (h : parseToken s token = .ok s') : Reaches s [token] True s' := by
  refine Or.inl ⟨trivial, ?_⟩
  rw [parseTokens, List.foldlM_cons, h]
  rfl

theorem parseToken_word {token : List UInt8} (hnext : s.nextRedir = none) (hlast : token.getLast? ≠ some GREATER)
    (hpipe : token ≠ [PIPE]) (hor : token ≠ [PIPE, PIPE]) (hand : token ≠ [AMPERSAND, AMPERSAND])
    (hsub : ¬ (token.head?.any isOpening = true ∧ s.currentMember.tokens ≠ [])) :
    parseToken s token =
      match strCanon token with
      | .error e => .error (.crash e)
      | .ok word =>
        match strFind [EQUALS] QUOTES {} word with
        | .error e => .error (.crash e)
        | .ok found => .ok (s.addToken word found.isSome) := by
  rw [parseToken, hnext]
  dsimp only
  exact (if_neg hlast).trans ((if_neg hpipe).trans
    ((if_neg hor).trans ((if_neg hand).trans (if_neg hsub))))

theorem reaches_word {token : List UInt8} {first : Bool} {rest : List Item} (hnext : s.nextRedir = none)
    (hok : ItemsOk first (.word token :: rest)) (hfirst : first = true → s.currentMember.tokens = []) :
    Reaches s [token] (Safe token) (s.addToken (canon token) (assigns token)) := by
  obtain ⟨hlast, hop, hopen, -⟩ := hok
  simp only [List.mem_cons, List.not_mem_nil, or_false, not_or] at hop
  have hsub : ¬ (token.head?.any isOpening = true ∧ s.currentMember.tokens ≠ []) :=
    fun h => h.2 (hfirst (hopen h.1))
  have hparse := parseToken_word hnext hlast hop.1 hop.2.1 hop.2.2 hsub
  have hsingle : parseTokens s [token] = (parseToken s token).bind fun s => .ok s := rfl
  unfold Reaches
  rw [hsingle, hparse]
  cases hcanon : strCanon token with
  | error e =>
    refine Or.inr ⟨?_, e, rfl⟩
    rintro ⟨word, found, hword, -⟩
    cases hcanon.symm.trans hword
  | ok word =>
    have hword : canon token = word := by rw [canon, hcanon]
    dsimp only
    cases hfind : strFind [EQUALS] QUOTES {} word with
    | error e =>
      refine Or.inr ⟨?_, e, rfl⟩
      rintro ⟨word', found, hword', hfound⟩
      obtain rfl := Except.ok.inj (hcanon.symm.trans hword')
      cases hfind.symm.trans hfound
    | ok found =>
      refine Or.inl ⟨⟨word, found, hcanon, hfind⟩, ?_⟩
      rw [assigns, hword, hfind]
      rfl

theorem reaches_redir {op : List UInt8} (target : List UInt8) (hnext : s.nextRedir = none) (hop : op.getLast? = some GREATER) :
    Reaches s [op, target] True (s.addRedir ⟨(redirOf op).1, (redirOf op).2, target⟩) := by
  have hfirst : parseToken s op = .ok { s with nextRedir := some (redirOf op) } := by
    rw [parseToken, hnext]
    exact if_pos hop
  exact ((Reaches.single hfirst).append (Reaches.single rfl)).congr (and_self_iff)

/-- The state behind the tokens of a command. -/
def ParseState.addMember (s : ParseState) (m : List Item) : ParseState :=
  { s with
    currentMember :=
      ⟨s.currentMember.tokens ++ (memberOf m).tokens, s.currentMember.redir ++ (memberOf m).redir⟩
    isVarSetting := s.isVarSetting && assignsAll m }

theorem reaches_member (hnext : s.nextRedir = none) {first : Bool} (hok : ItemsOk first m)
    (hfirst : first = true → s.currentMember.tokens = []) :
    Reaches s (memberTokens m) (∀ token ∈ wordsOf m, Safe token) (s.addMember m) := by
  induction m generalizing s first with
  | nil =>
    refine Or.inl ⟨fun _ h => (nomatch h), ?_⟩
    simp [parseTokens, memberTokens, ParseState.addMember, memberOf, wordsOf, assignsAll]
    rfl
  | cons item m ih =>
    cases item with
    | word token =>
      have hword := reaches_word hnext hok hfirst
      have hrest := ih (s := s.addToken (canon token) (assigns token)) hnext hok.2.2.2 (fun h => nomatch h)
      have hstate : (s.addToken (canon token) (assigns token)).addMember m = s.addMember (.word token :: m) := by
        simp [ParseState.addMember, ParseState.addToken, memberOf, wordsOf, assignsAll, Item.word?, Item.redir?,
          List.filterMap_cons, Bool.and_assoc]
      rw [hstate] at hrest
      refine (hword.append hrest).congr ?_
      simp [wordsOf, Item.word?]
    | redir op target =>
      have hredir := reaches_redir target hnext hok.1
      have hrest := ih (s := s.addRedir ⟨(redirOf op).1, (redirOf op).2, target⟩) rfl hok.2 hfirst
      have hstate : (s.addRedir ⟨(redirOf op).1, (redirOf op).2, target⟩).addMember m =
          s.addMember (.redir op target :: m) := by
        simp [ParseState.addMember, ParseState.addRedir, memberOf, wordsOf, assignsAll, Item.word?, Item.redir?,
          List.filterMap_cons, hnext]
      rw [hstate] at hrest
      refine (hredir.append hrest).congr ?_
      simp [wordsOf, Item.word?]

/-- The state at the start of the next command of a pipeline. -/
def ParseState.nextMember (s : ParseState) : ParseState :=
  { s with currentMember := .empty, others := s.currentMember :: s.others }

theorem reaches_pipe (hnext : s.nextRedir = none) : Reaches s [[PIPE]] True s.nextMember := by
  apply Reaches.single
  rw [parseToken, ParseState.nextMember, hnext]
  rfl

/-- The state behind the commands of a pipeline. -/
def ParseState.addPipeline (s : ParseState) (m : List Item) : List (List Item) → ParseState
  | [] => s.addMember m
  | m' :: rest => (s.addMember m).nextMember.addPipeline m' rest

theorem reaches_pipeline (m : List Item) (rest : List (List Item)) (hnext : s.nextRedir = none) (hempty : s.currentMember.tokens = [])
    (hok : ∀ m' ∈ m :: rest, ItemsOk true m') :
    Reaches s (memberTokens m ++ rest.flatMap fun m => [PIPE] :: memberTokens m)
      (∀ m' ∈ m :: rest, ∀ token ∈ wordsOf m', Safe token) (s.addPipeline m rest) := by
  induction rest generalizing s m with
  | nil =>
    have hmember := reaches_member hnext (hok m List.mem_cons_self) fun _ => hempty
    rw [List.flatMap_nil, List.append_nil]
    exact hmember.congr (by simp)
  | cons m' rest ih =>
    have hmember := reaches_member hnext (hok m List.mem_cons_self) fun _ => hempty
    have hpipe := reaches_pipe (s := s.addMember m) hnext
    have hrest := ih m' (s := (s.addMember m).nextMember) hnext rfl
      fun m'' h => hok m'' (List.mem_cons_of_mem m h)
    have hall := (hmember.append hpipe).append hrest
    rw [List.append_assoc] at hall
    exact hall.congr (by simp)

/-- What the commands of a pipeline leave in the state. -/
theorem addPipeline_spec (s : ParseState) (m : List Item) (rest : List (List Item)) (hempty : s.currentMember = .empty) :
    (s.addPipeline m rest).currentMember :: (s.addPipeline m rest).others =
        ((m :: rest).map memberOf).reverse ++ s.others ∧
      (s.addPipeline m rest).groups = s.groups ∧ (s.addPipeline m rest).mustSucceed = s.mustSucceed ∧
      (s.addPipeline m rest).nextRedir = s.nextRedir ∧
      (s.addPipeline m rest).isVarSetting = (s.isVarSetting && (m :: rest).all assignsAll) := by
  induction rest generalizing s m with
  | nil => simp [ParseState.addPipeline, ParseState.addMember, hempty]
  | cons m' rest ih =>
    obtain ⟨hmembers, hgroups, hmust, hnext, hvar⟩ := ih (s.addMember m).nextMember m' rfl
    rw [ParseState.addPipeline, hmembers, hgroups, hmust, hnext, hvar]
    simp [ParseState.addMember, ParseState.nextMember, hempty, Bool.and_assoc]

/-- The state behind the pipelines of a chain. -/
def ParseState.addChain (s : ParseState) (p : Pipeline) : List (ChainOp × Pipeline) → ParseState
  | [] => s.addPipeline p.first p.rest
  | (op, p') :: rest => ((s.addPipeline p.first p.rest).nextGroup (op = .and)).addChain p' rest

theorem reaches_op (op : ChainOp) (hnext : s.nextRedir = none) :
    Reaches s [op.token] True (s.nextGroup (op = .and)) := by
  apply Reaches.single
  rw [parseToken, hnext]
  cases op <;> rfl

theorem reaches_chain (first : Pipeline) (rest : List (ChainOp × Pipeline)) (hnext : s.nextRedir = none)
    (hempty : s.currentMember = .empty) (hok : ∀ m ∈ (⟨first, rest⟩ : Chain).members, ItemsOk true m) :
    Reaches s (⟨first, rest⟩ : Chain).tokens (∀ m ∈ (⟨first, rest⟩ : Chain).members, ∀ token ∈ wordsOf m, Safe token)
      (s.addChain first rest) := by
  induction rest generalizing s first with
  | nil =>
    have hpipeline := reaches_pipeline first.first first.rest hnext (by rw [hempty]) fun m h =>
      hok m (List.mem_append_left _ h)
    rw [Chain.tokens, List.flatMap_nil, List.append_nil]
    exact hpipeline.congr (by simp [Chain.members, Pipeline.members])
  | cons p rest ih =>
    obtain ⟨op, second⟩ := p
    have hpipeline := reaches_pipeline first.first first.rest hnext (by rw [hempty]) fun m h =>
      hok m (List.mem_append_left _ h)
    have hspec := addPipeline_spec s first.first first.rest hempty
    have hnext' := hspec.2.2.2.1.trans hnext
    have hop := reaches_op op hnext'
    have hrest := ih second (s := (s.addPipeline first.first first.rest).nextGroup (op = .and)) hnext' rfl
      fun m h => hok m (List.mem_append_right _ h)
    have hall := (hpipeline.append hop).append hrest
    rw [List.append_assoc] at hall
    refine hall.congr ?_
    rw [and_true]
    exact List.forall_mem_append.symm

/-- The groups of the chain that the loop has built, and whether it has seen assignments only. -/
theorem addChain_spec (s : ParseState) (first : Pipeline) (rest : List (ChainOp × Pipeline))
    (hempty : s.currentMember = .empty) (hothers : s.others = []) :
    (s.addChain first rest).chain =
        s.groups ++ groupsFrom s.mustSucceed first.group (rest.map fun p => (p.1, p.2.group)) ∧
      (s.addChain first rest).nextRedir = s.nextRedir ∧
      (s.addChain first rest).isVarSetting =
        (s.isVarSetting && (⟨first, rest⟩ : Chain).members.all assignsAll) := by
  obtain ⟨hmembers, hgroups, hmust, hnext, hvar⟩ := addPipeline_spec s first.first first.rest hempty
  rw [hothers, List.append_nil] at hmembers
  induction rest generalizing s first with
  | nil =>
    rw [ParseState.addChain, ParseState.chain, hmembers, hgroups, hmust, hnext, hvar]
    exact ⟨rfl, rfl, by simp [Chain.members, Pipeline.members]⟩
  | cons p rest ih =>
    obtain ⟨op, second⟩ := p
    have hspec := addPipeline_spec ((s.addPipeline first.first first.rest).nextGroup (op = .and)) second.first
      second.rest rfl
    obtain ⟨hchain, hnext', hvar'⟩ := ih ((s.addPipeline first.first first.rest).nextGroup (op = .and)) second
      rfl rfl (by rw [hspec.1]; exact List.append_nil _) hspec.2.1 hspec.2.2.1 hspec.2.2.2.1 hspec.2.2.2.2
    rw [ParseState.addChain, hchain, hnext', hvar']
    refine ⟨?_, hnext, ?_⟩
    · simp [ParseState.nextGroup, hmembers, hgroups, groupsFrom, Pipeline.group, Pipeline.members]
    · simp [ParseState.nextGroup, hvar, Chain.members, Pipeline.members, Bool.and_assoc]

/-- The loop ends with the last command. -/
theorem addChain_last (s : ParseState) (first : Pipeline) (rest : List (ChainOp × Pipeline))
    (hempty : s.currentMember = .empty) (hothers : s.others = []) : ∃ front last,
      (⟨first, rest⟩ : Chain).members = front ++ [last] ∧ (s.addChain first rest).currentMember = memberOf last := by
  induction rest generalizing s first with
  | nil =>
    have hmembers := (addPipeline_spec s first.first first.rest hempty).1
    rw [hothers, List.append_nil] at hmembers
    have hlast := List.dropLast_append_getLast (List.cons_ne_nil first.first first.rest)
    refine ⟨_, _, (List.append_nil _).trans hlast.symm, ?_⟩
    rw [← hlast, List.map_append, List.reverse_append] at hmembers
    exact (List.cons.inj hmembers).1
  | cons p rest ih =>
    obtain ⟨front, last, hmembers, hcurrent⟩ :=
      ih ((s.addPipeline first.first first.rest).nextGroup (p.1 = .and)) p.2 rfl rfl
    refine ⟨first.members ++ front, last, ?_, hcurrent⟩
    rw [List.append_assoc, ← hmembers]
    rfl

end Parsing

/-! ## Evaluation from left to right -/

def ChainOp.satisfied (op : ChainOp) (status : Int32) : Bool :=
  match op with
  | .and => success status
  | .or => !success status

section Evaluation

variable {W : Type} (executeGroup : W → List CmdMember → Int32 × W)

/-- A group is executed when the status so far satisfies the operator in front of it, and skipped otherwise. -/
def andOr : Int32 → W → List (ChainOp × List CmdMember) → List (List CmdMember) × Int32 × W
  | status, w, [] => ([], status, w)
  | status, w, (op, g) :: rest =>
    if op.satisfied status then
      let (status, w) := executeGroup w g
      let (executed, status, w) := andOr status w rest
      (g :: executed, status, w)
    else andOr status w rest

/-- The same up to the first operator that the status does not satisfy. -/
def stopAt : Int32 → W → List (ChainOp × List CmdMember) → List (List CmdMember) × Int32 × W
  | status, w, [] => ([], status, w)
  | status, w, (op, g) :: rest =>
    if op.satisfied status then
      let (status, w) := executeGroup w g
      let (executed, status, w) := stopAt status w rest
      (g :: executed, status, w)
    else ([], status, w)

/-- Behind the first operator that the status does not satisfy, all operators are the same. -/
def SkipsRest : Int32 → W → List (ChainOp × List CmdMember) → Prop
  | _, _, [] => True
  | status, w, (op, g) :: rest =>
    if op.satisfied status then SkipsRest (executeGroup w g).1 (executeGroup w g).2 rest
    else ∀ p ∈ rest, p.1 = op

variable {executeGroup} {status : Int32} {w : W} {rest : List (ChainOp × List CmdMember)} {op : ChainOp}

theorem andOr_of_unsatisfied (h : ∀ p ∈ rest, p.1.satisfied status = false) :
    andOr executeGroup status w rest = ([], status, w) := by
  induction rest with
  | nil => rfl
  | cons p rest ih =>
    have hp := h p List.mem_cons_self
    rw [andOr, if_neg (by rw [hp]; decide)]
    exact ih fun p' hp' => h p' (List.mem_cons_of_mem p hp')

theorem satisfied_of_ne {op' : ChainOp} (h : op.satisfied status = false) (hne : op' ≠ op) :
    op'.satisfied status = true := by
  cases op <;> cases op' <;> simp_all [ChainOp.satisfied]

/-- Skipping is the same as stopping exactly if no later operator is satisfied. -/
theorem andOr_eq_nil_iff (h : op.satisfied status = false) :
    (andOr executeGroup status w rest).1 = [] ↔ ∀ p ∈ rest, p.1 = op := by
  induction rest with
  | nil => exact iff_of_true rfl (fun p hp => (nomatch hp))
  | cons p rest ih =>
    rw [andOr]
    by_cases hp : p.1 = op
    · rw [hp, if_neg (by rw [h]; decide), ih, List.forall_mem_cons]
      exact ⟨fun hrest => ⟨hp, hrest⟩, fun hall => hall.2⟩
    · rw [if_pos (satisfied_of_ne h hp)]
      exact iff_of_false (List.cons_ne_nil _ _) (fun hall => hp (hall p List.mem_cons_self))

theorem stopAt_iff (executeGroup : W → List CmdMember → Int32 × W) (status : Int32) (w : W)
    (rest : List (ChainOp × List CmdMember)) :
    (stopAt executeGroup status w rest).1 = (andOr executeGroup status w rest).1 ↔
      SkipsRest executeGroup status w rest := by
  induction rest generalizing status w with
  | nil => exact iff_of_true rfl trivial
  | cons p rest ih =>
    rw [stopAt, andOr, SkipsRest]
    by_cases hsat : p.1.satisfied status = true
    · rw [if_pos hsat, if_pos hsat, if_pos hsat, ← ih]
      exact List.cons_inj_right p.2
    · rw [if_neg hsat, if_neg hsat, if_neg hsat, ← andOr_eq_nil_iff (Bool.eq_false_iff.2 hsat)]
      exact eq_comm

theorem stopAt_eq (h : SkipsRest executeGroup status w rest) :
    stopAt executeGroup status w rest = andOr executeGroup status w rest := by
  induction rest generalizing status w with
  | nil => rfl
  | cons p rest ih =>
    rw [SkipsRest] at h
    rw [stopAt, andOr]
    by_cases hsat : p.1.satisfied status = true
    · rw [if_pos hsat] at h
      rw [if_pos hsat, if_pos hsat]
      dsimp only
      rw [ih h]
    · rw [if_neg hsat] at h
      have hfalse := Bool.eq_false_iff.2 hsat
      rw [if_neg hsat, if_neg hsat, andOr_of_unsatisfied fun p' hp' => by rw [h p' hp']; exact hfalse]

theorem unsatisfied_iff (op : ChainOp) (status : Int32) :
    some (success status) ≠ some (decide (op = .and)) ↔ ¬ op.satisfied status = true := by
  cases op <;> simp [ChainOp.satisfied]

/-- The loop over the groups of a chain. -/
theorem executeLoop_groupsFrom (last : Option Bool) (g : List CmdMember)
    (rest : List (ChainOp × List CmdMember)) (status : Int32) (w : W) :
    executeLoop executeGroup (groupsFrom last g rest) status w =
      (g :: (stopAt executeGroup (executeGroup w g).1 (executeGroup w g).2 rest).1,
        (stopAt executeGroup (executeGroup w g).1 (executeGroup w g).2 rest).2) := by
  induction rest generalizing last g status w with
  | nil =>
    rw [groupsFrom, executeLoop, stopAt]
    dsimp only
    split
    · rfl
    · rfl
  | cons p rest ih =>
    obtain ⟨op, g'⟩ := p
    have hop := unsatisfied_iff op (executeGroup w g).1
    rw [groupsFrom, executeLoop, stopAt]
    dsimp only
    by_cases hsat : op.satisfied (executeGroup w g).1 = true
    · rw [if_neg (fun h => hop.1 h hsat), if_pos hsat, ih]
    · rw [if_pos (hop.2 hsat), if_neg hsat]

end Evaluation

/-! ## Lines -/

section Lines

variable {W : Type} {executeGroup : W → List CmdMember → Int32 × W} {c : Chain} {cmd : List UInt8} {status : Int32}
  {w : W}

/-- The groups that follow the first one, with the operators in front of them. -/
def Chain.restGroups (c : Chain) : List (ChainOp × List CmdMember) := c.rest.map fun p => (p.1, p.2.group)

/-- A chain of assignments performs them all and returns 0; any other chain is evaluated from left to right. -/
def AndOrRight (executeGroup : W → List CmdMember → Int32 × W) (c : Chain) (w : W) (r : CmdResult W) : Prop :=
  if c.assignsOnly then
    r = ⟨[], c.members.flatMap fun m => (wordsOf m).map canon, 0, w⟩
  else
    let (status, w) := executeGroup w c.first.group
    let (executed, status, w) := andOr executeGroup status w c.restGroups
    r = ⟨c.first.group :: executed, [], exitCode status, w⟩

/-- The words of the chain are safe.  Assignments are those of one command, and the status that nothing has set stands
for success; in any other chain the operators behind the first one that is not satisfied are all the same. -/
def ChainFits (executeGroup : W → List CmdMember → Int32 × W) (c : Chain) (status : Int32) (w : W) : Prop :=
  (∀ m ∈ c.members, ∀ token ∈ wordsOf m, Safe token) ∧
    if c.assignsOnly then c.first.rest = [] ∧ c.rest = [] ∧ exitCode status = 0
    else SkipsRest executeGroup (executeGroup w c.first.group).1 (executeGroup w c.first.group).2 c.restGroups

theorem cmdParse_chain (hok : c.Ok) (hline : strTokens (cmd.length + 2) (some cmd) = .ok c.tokens) :
    (∀ m ∈ c.members, ∀ token ∈ wordsOf m, Safe token) ∧
        cmdParse cmd = .ok (ParseState.init.addChain c.first c.rest) ∨
      ¬ (∀ m ∈ c.members, ∀ token ∈ wordsOf m, Safe token) ∧ ∃ e, cmdParse cmd = .error (.crash e) := by
  have hnext : (ParseState.init.addChain c.first c.rest).nextRedir = none :=
    (addChain_spec .init c.first c.rest rfl rfl).2.1
  have hfinish : (ParseState.init.addChain c.first c.rest).finish = ParseState.init.addChain c.first c.rest := by
    rw [ParseState.finish, hnext]
  rcases reaches_chain c.first c.rest (s := .init) rfl rfl fun m hm => (hok m hm).1 with
    ⟨hsafe, hparse⟩ | ⟨hbad, e, hparse⟩
  · refine Or.inl ⟨hsafe, ?_⟩
    rw [cmdParse, hline]
    dsimp only
    rw [hparse, Except.map, hfinish]
  · refine Or.inr ⟨hbad, e, ?_⟩
    rw [cmdParse, hline]
    dsimp only
    rw [hparse, Except.map]

theorem words_eq_last_iff {front : List (List Item)} (last : List Item) (hwords : ∀ m ∈ front, wordsOf m ≠ []) :
    (wordsOf last).map canon = ((front ++ [last]).flatMap fun m => (wordsOf m).map canon) ↔ front = [] := by
  rw [List.flatMap_append, List.flatMap_singleton]
  cases front with
  | nil => simp
  | cons m front =>
    have hne := List.length_pos_of_ne_nil (hwords m List.mem_cons_self)
    refine iff_of_false (fun heq => ?_) (List.cons_ne_nil _ _)
    have hlen := congrArg List.length heq
    rw [List.flatMap_cons, List.length_append, List.length_append, List.length_map] at hlen
    simp only [List.length_map] at hlen
    omega

theorem front_eq_nil_iff {front : List (List Item)} {last : List Item} (h : c.members = front ++ [last]) :
    front = [] ↔ c.first.rest = [] ∧ c.rest = [] := by
  have hlen := congrArg List.length h
  simp only [Chain.members, Pipeline.members, List.length_append, List.length_cons, List.length_nil] at hlen
  rw [← List.length_eq_zero_iff, ← List.length_eq_zero_iff (l := c.first.rest)]
  cases hrest : c.rest with
  | nil =>
    rw [hrest, List.flatMap_nil, List.length_nil] at hlen
    simp only [and_true]
    omega
  | cons p rest =>
    rw [hrest, List.flatMap_cons, List.length_append, List.length_cons] at hlen
    refine iff_of_false (by omega) (fun h => List.cons_ne_nil _ _ h.2)

end Lines

end Glidix.Sh
