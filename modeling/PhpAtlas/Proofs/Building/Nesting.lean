import PhpAtlas.Proofs.Building.Headers
import PhpAtlas.Proofs.Composing

/-! # The depth of a tree

Blocks, parentheses and conditionals that are not an `elseif` are finished from
parts that rules one level deeper have read. So they nest in each other only as deep
as rules do. Prefix operators, names of variables and right operands have no level.
-/

namespace PhpAtlas

namespace Arena

variable {a b : Arena} {C : Payload (Option NodeId) → Nat → Prop} {i j n n' start stop : Nat}
variable {payload : Payload (Option NodeId)}

/-- The node is one of those that count. -/
def Counts (C : Payload (Option NodeId) → Nat → Prop) (a : Arena) (i : NodeId) : Prop :=
  ∃ node, a.node? i = some node ∧ C node.payload node.start

/-- Of the nodes that count, at most `n` nest in each other from this one on. -/
def Nests (C : Payload (Option NodeId) → Nat → Prop) (a : Arena) : Nat → NodeId → Prop
  | 0, _ => False
  | n + 1, i => ∀ j, Relation.TransGen a.IsChild i j → j < i ∧ (a.Counts C j → a.Nests C n j)

theorem Counts.lt_size (h : a.Counts C i) : i < a.size := by
  obtain ⟨node, hn, -⟩ := h
  exact lt_size_of_payload? (payload?_of_node? hn)

theorem counts_added_of_lt (hi : i < a.size) :
    (a.added payload start stop).Counts C i ↔ a.Counts C i := by
  rw [Counts, Counts, node?_added_of_lt hi]
  cases a.node? i with
  | none => exact Iff.rfl
  | some node => simp only [Option.map_some, Option.some.injEq, exists_eq_left']; split <;> rfl

theorem counts_added_size : (a.added payload start stop).Counts C a.size ↔ C payload start := by
  obtain ⟨q, hq⟩ := exists_node?_added a payload start stop
  simp only [Counts, hq, Option.some.injEq, exists_eq_left']

theorem Nests.succ (h : a.Nests C n i) : a.Nests C (n + 1) i := by
  induction n generalizing i with
  | zero => exact h.elim
  | succ n ih => exact fun j hj => ⟨(h j hj).1, fun hc => ih ((h j hj).2 hc)⟩

theorem Nests.added (h : a.Nests C n i) (hi : i < a.size) :
    (a.added payload start stop).Nests C n i := by
  induction n generalizing i with
  | zero => exact h
  | succ n ih =>
    have hback (j : NodeId) (hj : Relation.TransGen (a.added payload start stop).IsChild i j) :
        Relation.TransGen a.IsChild i j := by
      induction hj with
      | single hc =>
        rw [IsChild, children_added, if_neg (Nat.ne_of_lt hi)] at hc
        exact .single hc
      | tail _ hc ih =>
        rw [IsChild, children_added, if_neg (Nat.ne_of_lt ((h _ ih).1.trans hi))] at hc
        exact ih.tail hc
    intro j hj
    obtain ⟨hlt, hn⟩ := h j (hback j hj)
    have hlt' : j < a.size := hlt.trans hi
    exact ⟨hlt, fun hc => ih (hn ((counts_added_of_lt hlt').mp hc)) hlt'⟩

/-- What hangs from the nodes has been there before the node that is added. -/
theorem Since.reaches_of_added {lo : Nat} {ids : List NodeId} (h : a.Since lo ids) (hi : i ∈ ids)
    (hr : (a.added payload start stop).Reaches i j) : a.Reaches i j := by
  induction hr with
  | refl => exact .refl
  | tail _ hc ih =>
    rw [IsChild, children_added, if_neg (Nat.ne_of_lt (h.of_reaches hi ih).2)] at hc
    exact ih.tail hc

/-- A node that is made of new nodes has one level more than they have. -/
theorem Since.nests_added {lo : Nat} (h : a.Since lo (childrenOf payload))
    (hn : ∀ j, lo ≤ j → a.Counts C j → a.Nests C n j) :
    (a.added payload start stop).Nests C (n + 1) a.size := by
  intro j hj
  obtain ⟨c, hc, hr⟩ := Relation.TransGen.head'_iff.mp hj
  rw [IsChild, children_added, if_pos rfl] at hc
  obtain ⟨hlo, hlt⟩ := h.of_reaches hc (h.reaches_of_added hc hr)
  exact ⟨hlt, fun hcount => (hn j hlo ((counts_added_of_lt hlt).mp hcount)).added hlt⟩

theorem Nests.length_le (h : a.Nests C n i) {path : List NodeId}
    (hp : (i :: path).IsChain (Relation.TransGen a.IsChild)) (hc : ∀ j ∈ path, a.Counts C j) :
    path.length + 1 ≤ n := by
  induction n generalizing i path with
  | zero => exact h.elim
  | succ n ih =>
    cases path with
    | nil => exact Nat.succ_le_succ (Nat.zero_le n)
    | cons j path =>
      obtain ⟨hij, hp⟩ := List.isChain_cons_cons.mp hp
      have hj : a.Counts C j := hc j List.mem_cons_self
      have hrest : ∀ k ∈ path, a.Counts C k := fun k hk => hc k (List.mem_cons_of_mem j hk)
      exact Nat.succ_le_succ (ih ((h j hij).2 hj) hp hrest)

end Arena

namespace Grammar

open Arena Item

variable {α β : Type} {ts : List Token} {n k start : Nat} {s s' s₁ : State} {m : Parse α}
variable {f : α → Parse β} {payload : Payload (Option NodeId)} {r : Option NodeId}

/-- The construct is a block, or in parentheses, or a conditional that is no `elseif`. -/
def Guarded (ts : List Token) : Payload (Option NodeId) → Nat → Prop
  | .block _, _ | .parenthesized _, _ => True
  | .ifStatement .., start => ∀ t ∈ ts, t.start = start → t.kind ≠ .keyword .elseIfKw
  | _, _ => False

theorem not_guarded (h : payload.isSimple = true ∨ payload.isOperation = true) :
    ¬Guarded ts payload start := by
  cases payload <;> first | exact id | simp [Payload.isSimple, Payload.isOperation] at h

/-- What has been added to the tree nests at most `n` times. -/
structure Rise (ts : List Token) (n : Nat) (s s' : State) : Prop where
  later : Later s s'
  depth : s'.depth = s.depth
  size : s.arena.size ≤ s'.arena.size
  counts : ∀ i < s.arena.size, s'.arena.Counts (Guarded ts) i ↔ s.arena.Counts (Guarded ts) i
  keeps : ∀ n, ∀ i < s.arena.size, s.arena.Nests (Guarded ts) n i → s'.arena.Nests (Guarded ts) n i
  nests : ∀ i, s.arena.size ≤ i → s'.arena.Counts (Guarded ts) i → s'.arena.Nests (Guarded ts) n i

theorem Rise.of_eq (hl : Later s s') (hd : s'.depth = s.depth) (ha : s'.arena = s.arena) :
    Rise ts n s s' where
  later := hl
  depth := hd
  size := ha ▸ le_rfl
  counts i _ := by rw [ha]
  keeps n i _ h := by rwa [ha]
  nests i hi hc := absurd (ha ▸ hc.lt_size) (not_lt.mpr hi)

theorem Rise.trans (h : Rise ts n s s₁) (h' : Rise ts n s₁ s') : Rise ts n s s' where
  later := h.later.trans h'.later
  depth := h'.depth.trans h.depth
  size := h.size.trans h'.size
  counts i hi := (h'.counts i (hi.trans_le h.size)).trans (h.counts i hi)
  keeps n i hi hn := h'.keeps n i (hi.trans_le h.size) (h.keeps n i hi hn)
  nests i hi hc := by
    rcases Nat.lt_or_ge i s₁.arena.size with hlt | hge
    · exact h'.keeps n i hlt (h.nests i hi ((h'.counts i hlt).mp hc))
    · exact h'.nests i hge hc

theorem Rise.succ (h : Rise ts n s s') : Rise ts (n + 1) s s' :=
  { h with nests := fun i hi hc => (h.nests i hi hc).succ }

/-- A node is added that does not count, or that nests as deep as the nodes may. -/
theorem Rise.node (h : Guarded ts payload start →
      ∀ stop, (s.arena.added payload start stop).Nests (Guarded ts) n s.arena.size)
    (hr : (done payload start).run s = some (r, s')) : Rise ts n s s' := by
  cases hr
  refine ⟨Later.of_eq rfl, rfl, ?_, fun i hi => counts_added_of_lt hi, fun n i hi hn => hn.added hi,
    fun i hi hc => ?_⟩
  · exact (Nat.le_succ _).trans size_added.ge
  · have hlt : i < s.arena.size + 1 := hc.lt_size.trans_eq size_added
    obtain rfl := Nat.le_antisymm hi (Nat.le_of_lt_succ hlt)
    exact h (counts_added_size.mp hc) _

/-- The rule runs no deeper than rules do, on tokens of the source. -/
structure Inside (ts : List Token) (s : State) : Prop where
  depth : s.depth ≤ maxDepth
  tokens : s.stream.tokens <:+ ts

theorem Inside.rise (h : Inside ts s) (hr : Rise ts n s s') : Inside ts s' :=
  ⟨hr.depth.trans_le h.depth, List.IsSuffix.trans hr.later h.tokens⟩

/-- What the rule adds nests no more often than rules can be run `k` levels deeper. -/
def RisesFrom (ts : List Token) (k : Nat) (s : State) (m : Parse α) : Prop :=
  ∀ r s', m.run s = some (r, s') → Rise ts (maxDepth + 1 - (s.depth + k)) s s'

def Rises (ts : List Token) (k : Nat) (m : Parse α) : Prop :=
  ∀ s, Inside ts s → RisesFrom ts k s m

theorem RisesFrom.outermost (hs : Inside ts s) (h : RisesFrom ts 1 s m) : RisesFrom ts 0 s m := by
  intro r s' hr
  have hn : maxDepth + 1 - (s.depth + 0) = maxDepth + 1 - (s.depth + 1) + 1 := by
    have := hs.depth
    omega
  rw [hn]
  exact (h r s' hr).succ

theorem Rises.outermost (h : Rises ts 1 m) : Rises ts 0 m := fun s hs => (h s hs).outermost hs

theorem rises_of_eq (h : ∀ s r s', m.run s = some (r, s') →
    Later s s' ∧ s'.depth = s.depth ∧ s'.arena = s.arena) : Rises ts k m :=
  fun s _ r s' hr => have ⟨hl, hd, ha⟩ := h s r s' hr; .of_eq hl hd ha

theorem RisesFrom.bind (hs : Inside ts s) (hm : RisesFrom ts k s m)
    (hf : ∀ a s', Inside ts s' → RisesFrom ts k s' (f a)) : RisesFrom ts k s (m >>= f) := by
  intro r s'' hr
  obtain ⟨a, s', hr, hr'⟩ := run_bind_eq_some hr
  have h := hm a s' hr
  have h' := hf a s' (hs.rise h) r s'' hr'
  rw [h.depth] at h'
  exact h.trans h'

theorem later_report {fault : SyntaxFault} (h : (report fault).run s = some ((), s')) :
    Later s s' ∧ s'.depth = s.depth ∧ s'.arena = s.arena := by
  obtain ⟨_, _, rfl⟩ := exists_of_report h
  exact ⟨.of_eq rfl, rfl, rfl⟩

theorem inherited_rises (ts : List Token) (k : Nat) : Inherited fun _ m => Rises ts k m where
  pure _ := rises_of_eq fun s _ _ hr => by cases hr; exact ⟨Later.refl s, rfl, rfl⟩
  bind hm hf s hs := (hm s hs).bind hs hf
  look hm := rises_of_eq fun s _ _ hr => by
    rw [hm s] at hr
    cases hr
    exact ⟨Later.refl s, rfl, rfl⟩
  outOfSteps := fun _ _ _ _ hr => by
    rw [run_outOfSteps] at hr
    cases hr
  advance := rises_of_eq fun s _ _ hr => by
    cases hr
    exact ⟨s.stream.tokens_next_suffix, rfl, rfl⟩
  report _ := rises_of_eq fun _ _ _ hr => later_report hr

theorem rises_node (h : ¬Guarded ts payload start) : Rises ts k (node payload start) :=
  fun _ _ i _ hr => .node (fun hg => absurd hg h) (r := some i) (by cases hr; rfl)

theorem composed_rises (ts : List Token) (k : Nat) : Composed fun _ m => Rises ts k m where
  __ := inherited_rises ts k
  takeDoc := rises_of_eq fun s _ _ hr => by cases hr; exact ⟨.of_eq rfl, rfl, rfl⟩
  node h := rises_node (not_guarded (.inl (Payload.isSimple_of_isElementary h)))
  property _ _ := rises_node (not_guarded (.inl rfl))

/-- What a rule one level deeper adds has one level less. -/
theorem Rises.nested {recover : Parse Unit} {rule : Parse (Option NodeId)}
    (hr : Rises ts 1 recover) (h : Rises ts 0 rule) : Rises ts 1 (nested recover rule) := by
  intro s hs r s' hrun
  rcases run_nested_eq_some hrun with ⟨-, s₁, s₂, hreport, hrecover, rfl⟩ | ⟨s₁, hd, hrule, rfl⟩
  · obtain ⟨hl, hd, ha⟩ := later_report hreport
    have hback : Rise ts (maxDepth + 1 - (s.depth + 1)) s { s₁ with depth := s₁.depth - 1 } :=
      .of_eq hl (congrArg (· - 1) hd) ha
    have hrest := hr _ (hs.rise hback) _ _ hrecover
    rw [hback.depth] at hrest
    exact hback.trans hrest
  · have hrise := h { s with depth := s.depth + 1 } ⟨hd, hs.tokens⟩ r s₁ hrule
    exact { hrise with depth := congrArg (· - 1) hrise.depth }

/-- A construct that counts is finished from parts that rules one level deeper have read. -/
theorem Rises.guarded {out : α → List Item} {payload : α → Payload (Option NodeId)}
    (hb : ∀ t ∈ ts, t.Bare) (hm : Rises ts 1 m) (hf : Forms m [] out)
    (hc : ∀ a, childrenOf (payload a) = nodesOf (out a)) :
    Rises ts 0 (m >>= fun a => done (payload a) start) := by
  intro s hs r s' hr
  obtain ⟨a, s₁, hr, hdone⟩ := run_bind_eq_some hr
  have hn : maxDepth + 1 - (s.depth + 0) = maxDepth + 1 - (s.depth + 1) + 1 := by
    have := hs.depth
    omega
  have hbare : s.Bare := fun t ht => hb t (hs.tokens.subset ht)
  have hworks : Works (s, []) (s₁, out a) := hf _ s [] a s₁ hbare rfl hr
  have hsince : s₁.arena.Since s.arena.size (childrenOf (payload a)) := by
    rw [hc a]
    exact hworks.preserves (fun _ _ => Work.fresh) (since_nil s.arena)
  have hrise := hm s hs a s₁ hr
  rw [hn]
  exact hrise.succ.trans (.node (fun _ _ => hsince.nests_added hrise.nests) hdone)

/-! ## Rules -/

/-- Statements and expressions are one level deeper than the rules that they are made of. -/
structure RisesRules (ts : List Token) (rules : Rules) : Prop where
  builds : Builds rules
  expression : Rises ts 1 (rules .expression)
  statement : Rises ts 1 (rules .statement)
  operand (level : Nat) : Rises ts 0 (rules (.operand level))
  unary : Rises ts 0 (rules .unary)
  primary : Rises ts 0 (rules .primary)
  /-- An `elseif` does not count. -/
  elseIf : ∀ s, Inside ts s → s.stream.current.kind = .keyword .elseIfKw →
    RisesFrom ts 1 s (rules .ifStatement)

variable {self : Rules}

theorem rises_parentheses (hb : ∀ t ∈ ts, t.Bare) (h : RisesRules ts self) :
    Rises ts 0 (parentheses self start) := by
  have hi {k : Nat} := inherited_rises ts k
  have hm : Rises ts 1 (bracketed self .closeParen ")") :=
    hi.bind h.expression fun _ => hi.bind (hi.discard hi.expect) fun _ => hi.pure _
  refine hi.bind hi.advance fun _ => ?_
  exact hm.guarded hb (forms_bracketed h.builds) fun e => by cases e <;> rfl

/-- The statements of a block and its closing bracket. -/
def blockParts (self : Rules) (n : Nat) : Parse (List (Option NodeId)) := do
  let statements ← statementList self .closeBrace false n
  discard (expect .closeBrace "\x7d")
  return statements

theorem block_eq : block self n = (do
    let t ← token
    discard (expect .openBrace "\x7b")
    let statements ← blockParts self n
    done (.block statements) t.start) := by
  simp only [block, blockParts, bind_assoc, pure_bind]

theorem rises_block (hb : ∀ t ∈ ts, t.Bare) (h : RisesRules ts self) :
    Rises ts 0 (block self n) := by
  have hi {k : Nat} := inherited_rises ts k
  have hm : Rises ts 1 (blockParts self n) :=
    hi.bind ((composed_rises ts 1).statementList h.statement) fun _ =>
      hi.bind (hi.discard hi.expect) fun _ => hi.pure _
  have hf : Forms (blockParts self n) [] many :=
    (forms_statementList h.builds).bind fun _ => quiet_expect.discard.next fun _ => .pure (.refl _)
  rw [block_eq]
  refine hi.looking looks_token fun t => hi.bind (hi.discard hi.expect) fun _ => ?_
  exact hm.guarded hb hf fun _ => (nodesOf_many _).symm

/-! ## Conditionals -/

/-- What stands between the keyword of a conditional and its end. -/
def conditionalParts (self : Rules) :
    Parse (Option NodeId × Option NodeId × Option NodeId) := do
  discard (expect .openParen "(")
  let condition ← self .expression
  discard (expect .closeParen ")")
  refuseColon
  let thenBranch ← self .statement
  let elseBranch ← elseBranch self
  return (condition, thenBranch, elseBranch)

theorem ifStatement_eq : ifStatement self = (do
    let t ← token
    advance
    let parts ← conditionalParts self
    done (.ifStatement parts.1 parts.2.1 parts.2.2) t.start) := by
  simp only [ifStatement, conditionalParts, bind_assoc, pure_bind]

theorem rises_elseBranch (h : RisesRules ts self) : Rises ts 1 (elseBranch self) := by
  have hi := inherited_rises ts 1
  intro s hs r s' hr
  rw [elseBranch, (looks_isAt _).run_bind] at hr
  split at hr
  · next he => exact h.elseIf s hs (eq_of_beq he) r s' hr
  · refine hi.bind hi.accept (fun _ => ?_) s hs r s' hr
    exact Inherited.ite (P := fun _ m => Rises ts 1 m) h.statement (hi.pure none)

theorem rises_conditionalParts (h : RisesRules ts self) : Rises ts 1 (conditionalParts self) := by
  have hi := inherited_rises ts 1
  refine hi.bind (hi.discard hi.expect) fun _ => hi.bind h.expression fun _ => ?_
  refine hi.bind (hi.discard hi.expect) fun _ => hi.bind hi.refuseColon fun _ => ?_
  exact hi.bind h.statement fun _ => hi.bind (rises_elseBranch h) fun _ => hi.pure _

theorem forms_conditionalParts (h : Builds self) :
    Forms (conditionalParts self) [] fun p => one p.1 ++ opt p.2.1 ++ opt p.2.2 := by
  refine quiet_expect.discard.next fun _ => h.expression.next fun _ => ?_
  refine quiet_expect.discard.next fun _ => inherited_quiet.refuseColon.next fun _ => ?_
  refine h.statement.next fun _ => (forms_elseBranch h).next fun _ => ?_
  exact .pure (.refl _)

theorem rises_ifStatement (hb : ∀ t ∈ ts, t.Bare) (h : RisesRules ts self) :
    Rises ts 0 (ifStatement self) := by
  have hi := inherited_rises ts 0
  rw [ifStatement_eq]
  refine hi.looking looks_token fun t => hi.bind hi.advance fun _ => ?_
  refine (rises_conditionalParts h).guarded hb (forms_conditionalParts h.builds) ?_
  rintro ⟨_ | _, _ | _, _ | _⟩ <;> rfl

theorem risesFrom_elseIf (h : RisesRules ts self) (hs : Inside ts s)
    (hk : s.stream.current.kind = .keyword .elseIfKw) : RisesFrom ts 1 s (ifStatement self) := by
  have hi := inherited_rises ts 1
  have hmem : s.stream.current ∈ ts := hs.tokens.subset List.mem_cons_self
  rw [ifStatement_eq]
  intro r s' hr
  rw [looks_token.run_bind] at hr
  refine RisesFrom.bind hs (hi.advance s hs) (fun _ s₁ h₁ => ?_) r s' hr
  refine RisesFrom.bind h₁ (rises_conditionalParts h s₁ h₁) fun parts s₂ h₂ r s' hr => ?_
  have hguarded : ¬Guarded ts (.ifStatement parts.1 parts.2.1 parts.2.2) s.stream.current.start :=
    fun hg => hg _ hmem rfl hk
  exact .node (fun hg => absurd hg hguarded) hr

theorem risesRules (hb : ∀ t ∈ ts, t.Bare) (n : Nat) : RisesRules ts (rules n) := by
  induction n with
  | zero =>
    have hi {k : Nat} := inherited_rises ts k
    exact
      { builds := builds_rules 0
        expression := hi.outOfSteps
        statement := hi.outOfSteps
        operand := fun _ => hi.outOfSteps
        unary := hi.outOfSteps
        primary := hi.outOfSteps
        elseIf := fun s hs _ => hi.outOfSteps s hs }
  | succ n ih =>
    have hc {k : Nat} := composed_rises ts k
    have he : OfExpressions (fun _ m => Rises ts 0 m) (rules n) :=
      { expression := ih.expression.outermost
        operand := ih.operand
        unary := ih.unary
        primary := ih.primary
        parentheses := fun _ => rises_parentheses hb ih }
    have hoperation {k : Nat} {payload : Payload (Option NodeId)} (start : Nat)
        (h : payload.isOperation = true) : Rises ts k (node payload start) :=
      rises_node (not_guarded (.inr h))
    have hdone {payload : Payload (Option NodeId)} {start : Nat}
        (h : ∀ ts, ¬Guarded ts payload start) : Rises ts 0 (done payload start) :=
      fun s _ r s' hr => .node (fun hg => absurd hg (h ts)) hr
    have hfunction (form : FunctionForm) (start : Nat) (found : Modifiers) (doc : Option String) :
        Rises ts 0 (functionLike (rules n) n form start found doc) :=
      hc.functionLike he (rises_block hb ih) fun _ => hdone fun _ => id
    have hs : OfStatements (fun _ m => Rises ts 0 m) (rules n) n :=
      { he with
        statement := ih.statement.outermost
        block := rises_block hb ih
        ifStatement := rises_ifStatement hb ih
        function := hc.looking looks_token fun _ => hc.bind hc.takeDoc fun _ => hfunction _ _ _ _
        classDeclaration := hc.classDeclaration he (hfunction _) fun _ _ _ => hdone fun _ => id }
    exact
      { builds := builds_rules (n + 1)
        expression := .nested ((inherited_rises ts 1).pure ()) (hc.assignment he hoperation)
        statement := .nested (inherited_rises ts 1).advance (hc.statementBody hs)
        operand := fun _ => hc.operandRule he hoperation
        unary := hc.unaryRule he
        primary := hc.primaryRule he
        elseIf := fun _ => risesFrom_elseIf ih }

/-- From the first token of a source to its last, what is added nests at most as deep as rules. -/
theorem rise_ofSource (source : List Char) : ∃ statements s,
    Rise (Token.ofSource source) maxDepth (.atFirst source) s ∧ Parsed.ofSource source =
      ⟨s.arena.added (.sourceFile statements) 0 s.stream.current.stop, s.arena.size,
        s.diagnostics.toList⟩ := by
  obtain ⟨statements, s, hlist, -, he⟩ := run_statements source
  have hb : ∀ t ∈ Token.ofSource source, t.Bare := (Token.scans_ofSource source).bare
  have hs : Inside (Token.ofSource source) (.atFirst source) :=
    ⟨Nat.zero_le _, (tokens_atFirst source).symm ▸ List.suffix_rfl⟩
  have hrise := (composed_rises _ _).statementList (risesRules hb _).statement _ hs _ _ hlist
  exact ⟨statements, s, hrise, he⟩

end Grammar

namespace Parsed

open Arena Grammar

variable {source : List Char}

/-- The node is a block, an expression in parentheses, or a conditional that is no `elseif`. -/
def Levelled (source : List Char) (i : NodeId) : Prop :=
  (ofSource source).arena.Counts (Guarded (Token.ofSource source)) i

/-- From a node that has a level on, no more such nodes nest in each other than there are levels. -/
theorem Levelled.nests {i : NodeId} (h : Levelled source i) :
    (ofSource source).arena.Nests (Guarded (Token.ofSource source)) maxDepth i := by
  obtain ⟨statements, s, hrise, he⟩ := rise_ofSource source
  rw [Levelled, he] at h
  rw [he]
  have hlt : i < s.arena.size := by
    refine Nat.lt_of_le_of_ne (Nat.le_of_lt_succ (h.lt_size.trans_eq size_added)) ?_
    rintro rfl
    exact counts_added_size.mp h
  exact (hrise.nests i (Nat.zero_le i) ((counts_added_of_lt hlt).mp h)).added hlt

/-- Blocks, parentheses and conditionals that are no `elseif` nest in each other only as deep as rules
may be run, whatever stands between them. -/
theorem length_le_maxDepth {path : List NodeId}
    (hpath : path.IsChain (Relation.TransGen (ofSource source).arena.IsChild))
    (hl : ∀ i ∈ path, Levelled source i) : path.length ≤ maxDepth := by
  cases path with
  | nil => exact Nat.zero_le _
  | cons i path =>
    have hi : Levelled source i := hl i List.mem_cons_self
    exact hi.nests.length_le hpath fun j hj => hl j (List.mem_cons_of_mem i hj)

theorem length_le_maxDepth_blocks :
    ([1, 0].IsChain (Relation.TransGen (ofSource "<?php \x7b\x7b\x7d\x7d".toList).arena.IsChild) ∧
      ∀ i ∈ [1, 0], Levelled "<?php \x7b\x7b\x7d\x7d".toList i) ∧ [1, 0].length ≤ maxDepth := by
  have hpath : [1, 0].IsChain
      (Relation.TransGen (ofSource "<?php \x7b\x7b\x7d\x7d".toList).arena.IsChild) := by
    have hchild : 0 ∈ (ofSource "<?php \x7b\x7b\x7d\x7d".toList).arena.children 1 := by decide +kernel
    exact .cons_cons (.single hchild) (.singleton 0)
  have hl : ∀ i ∈ [1, 0], Levelled "<?php \x7b\x7b\x7d\x7d".toList i := by
    intro i hi
    rcases List.mem_cons.mp hi with rfl | hi
    · exact ⟨_, rfl, trivial⟩
    · obtain rfl := List.mem_singleton.mp hi
      exact ⟨_, rfl, trivial⟩
  exact ⟨⟨hpath, hl⟩, length_le_maxDepth hpath hl⟩

end Parsed

end PhpAtlas
