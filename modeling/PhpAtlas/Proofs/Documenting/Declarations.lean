import PhpAtlas.Proofs.Documenting.Rules

/-! # Declarations and their comments

Statements run with the comment of the current token waiting, and leave it so. A
member of a class-like may leave the comment of its first token taken away, but
then the token has not been read, and the loop over the members passes over it.
-/

namespace PhpAtlas

open Token

theorem TokenKind.endsDoc_of_modifier? {kind : TokenKind} {m : Modifier}
    (h : kind.modifier? = some m) : kind.endsDoc = false := by
  cases kind <;> first | rfl | cases h

namespace Grammar

theorem endsDoc_of_startsHint {kind : TokenKind} (h : startsHint kind = true) :
    kind.endsDoc = false := by
  cases kind <;> first | rfl | cases h

variable {ts : List Token} {s s' : State} {α β : Type} {m : Parse α} {f : α → Parse β}
variable {g : State → α} {payload : Payload (Option NodeId)} {start n bound : Nat} {self : Rules}
variable {kind : TokenKind} {spelling : String} {found : Modifiers} {doc : Option String}

/-! ## Rules that start with a waiting comment -/

/-- What the rule leaves when it is run from the state: the comment of the current token waits. -/
def AttendsFrom (ts : List Token) (s : State) (m : Parse α) : Prop :=
  ∀ a s', m.run s = some (a, s') → s'.Resting ts ∧ s'.stream.Fresh

/-- If the comment of the current token waits, it waits after the rule, too. -/
def Attends (ts : List Token) (m : Parse α) : Prop :=
  ∀ s, s.Resting ts → s.stream.Fresh → AttendsFrom ts s m

theorem Settles.attends (h : Settles ts m) : Attends ts m := by
  intro s hs hf a s' hr
  obtain ⟨hs', he | hf'⟩ := h s hs a s' hr
  · exact ⟨hs', he ▸ hf⟩
  · exact ⟨hs', hf'⟩

namespace AttendsFrom

theorem bindRun (h : ∀ a s', m.run s = some (a, s') → AttendsFrom ts s' (f a)) :
    AttendsFrom ts s (m >>= f) := by
  intro b s'' hr
  obtain ⟨a, s', hr, hr'⟩ := run_bind_eq_some hr
  exact h a s' hr b s'' hr'

theorem bind (hm : AttendsFrom ts s m) (hf : ∀ a, Attends ts (f a)) : AttendsFrom ts s (m >>= f) :=
  bindRun fun a s' hr =>
    let ⟨hs, hfresh⟩ := hm a s' hr
    hf a s' hs hfresh

theorem look (hm : Looks m g) (h : AttendsFrom ts s (f (g s))) : AttendsFrom ts s (m >>= f) := by
  intro b s' hr
  rw [hm.run_bind] at hr
  exact h b s' hr

/-- Whatever the comment is, a token that is read leaves that of the next one waiting. -/
theorem advance (hts : Closed ts) (hs : s.Resting ts)
    (hk : s.stream.current.kind ≠ .endOfFile) : AttendsFrom ts s advance := by
  intro _ _ hr
  cases hr
  exact ⟨hs.next, TokenStream.fresh_next_of_closed (hs.closed hts) hk⟩

theorem expect (hts : Closed ts) (hs : s.Resting ts) (hk : s.stream.current.kind = kind)
    (hne : kind ≠ .endOfFile) : AttendsFrom ts s (discard (expect kind spelling)) := by
  intro _ s' hr
  obtain rfl : s.next = s' := by
    rw [run_discard_expect_of_kind hk] at hr
    cases hr
    rfl
  exact ⟨hs.next, TokenStream.fresh_next_of_closed (hs.closed hts) (hk ▸ hne)⟩

end AttendsFrom

theorem growing_attends (ts : List Token) : Growing fun _ m => Attends ts m :=
  have hg := growing_settles ts
  { pure := fun a => (hg.pure a).attends
    bind := fun hm hf s hs hfresh => (hm s hs hfresh).bind hf
    look := fun hm => (hg.look hm).attends
    outOfSteps := hg.outOfSteps.attends
    advance := hg.advance.attends
    report := fun _ => settles_report.attends
    node := fun h => (hg.node h).attends }

theorem attends_done (hd : ∀ doc, payload.doc? = some doc → Documents ts start doc) :
    Attends ts (done payload start) :=
  (growing_attends ts).bind (settles_node hd).attends fun _ => (growing_attends ts).pure _

theorem attends_undocumented (h : payload.doc? = none) : Attends ts (done payload start) :=
  attends_done fun doc hd => by cases h.symm.trans hd

theorem OfExpressions.attends (h : OfExpressions (fun _ m => Settles ts m) self) :
    OfExpressions (fun _ m => Attends ts m) self where
  expression := h.expression.attends
  operand level := (h.operand level).attends
  unary := h.unary.attends
  primary := h.primary.attends
  parentheses start := (h.parentheses start).attends

theorem AttendsFrom.settles (h : AttendsFrom ts s m) : SettlesFrom ts s m := fun a s' hr =>
  let ⟨hs, hf⟩ := h a s' hr
  ⟨hs, .inr hf⟩

/-- What the rule leaves: the comment of the current token waits, or the token is still the same. -/
def PausesFrom (ts : List Token) (s : State) (m : Parse α) : Prop :=
  ∀ a s', m.run s = some (a, s') →
    s'.Resting ts ∧ (s'.stream.Fresh ∨ s'.stream.current = s.stream.current)

theorem PausesFrom.look (hm : Looks m g) (h : PausesFrom ts s (f (g s))) :
    PausesFrom ts s (m >>= f) := by
  intro b s' hr
  rw [hm.run_bind] at hr
  exact h b s' hr

/-- A comment that is taken away from the current token does not wait until the token is read. -/
theorem PausesFrom.takeDoc {f : Option String → Parse β}
    (h : SettlesFrom ts { s with stream := s.stream.dropDoc } (f s.stream.doc)) :
    PausesFrom ts s (Grammar.takeDoc >>= f) := by
  intro b s' hr
  obtain ⟨hs', he | hf⟩ := h b s' hr
  · exact ⟨hs', .inr (by rw [he]; rfl)⟩
  · exact ⟨hs', .inl hf⟩

theorem AttendsFrom.takeDoc {f : Option String → Parse β}
    (h : AttendsFrom ts { s with stream := s.stream.dropDoc } (f s.stream.doc)) :
    AttendsFrom ts s (Grammar.takeDoc >>= f) :=
  h

theorem SettlesFrom.map {g : α → β} (hm : SettlesFrom ts s m) : SettlesFrom ts s (g <$> m) := by
  rw [← bind_pure_comp]
  exact hm.bind fun _ => (growing_settles ts).pure _

/-! ## Modifiers -/

/-- Modifiers are read only where the first token is one. -/
theorem modifiers_cases {found' : Modifiers}
    (hr : (modifiers n found).run s = some (found', s')) :
    (s' = s ∧ found' = found) ∨ ∃ m, s.stream.current.kind.modifier? = some m := by
  cases n with
  | zero => cases hr
  | succ n =>
    rw [modifiers, looks_token.run_bind] at hr
    split at hr
    · next m hm => exact .inr ⟨m, hm⟩
    · cases hr
      exact .inl ⟨rfl, rfl⟩

/-- A modifier is read, unless it can be the class before a double colon. -/
theorem attendsFrom_modifiers (hts : Closed ts) (hs : s.Resting ts) {m : Modifier}
    (hm : s.stream.current.kind.modifier? = some m)
    (hk : s.stream.current.kind ≠ .keyword .staticKw) :
    AttendsFrom ts s (modifiers n found) := by
  have hne : s.stream.current.kind ≠ .endOfFile := fun he => by cases he ▸ hm
  cases n with
  | zero => exact fun _ _ hr => nomatch hr
  | succ n =>
    rw [modifiers]
    refine .look looks_token ?_
    rw [hm]
    refine .look (looks_kindAhead 1) ?_
    rw [if_neg (by simp [hk])]
    exact (AttendsFrom.advance hts hs hne).bind fun _ => (growing_attends ts).modifiers

theorem kind_of_classForm? {t : Token} (h : (classForm? t).isSome) :
    t.kind.modifier? = none ∧ t.kind.endsDoc = false ∧ t.kind ≠ .endOfFile := by
  unfold classForm? at h
  split at h
  · next hk => exact hk ▸ ⟨rfl, rfl, by decide⟩
  · next hk => exact hk ▸ ⟨rfl, rfl, by decide⟩
  · next hk => exact hk ▸ ⟨rfl, rfl, by decide⟩
  · split at h
    · next hw =>
      have hk : t.kind = .identifier := eq_of_beq (Bool.and_eq_true_iff.mp hw).1
      exact hk ▸ ⟨rfl, rfl, by decide⟩
    · cases h

/-- A class-like can start with the token. -/
def OpensClass (t : Token) : Prop :=
  (classForm? t).isSome ∨ ∃ m, t.kind.modifier? = some m ∧ t.kind ≠ .keyword .staticKw

theorem OpensClass.documents {t : Token} (h : OpensClass t) :
    t.kind.endsDoc = false ∧ t.kind ≠ .endOfFile := by
  rcases h with hform | ⟨m, hm, -⟩
  · exact (kind_of_classForm? hform).2
  · exact ⟨TokenKind.endsDoc_of_modifier? hm, fun he => by cases he ▸ hm⟩

/-- The modifiers in front of a class-like are followed by its keyword, or some have been read. -/
theorem modifiers_of_opensClass (hts : Closed ts) (hs : s.Resting ts)
    (ho : OpensClass s.stream.current) {found' : Modifiers}
    (hr : (modifiers n found).run s = some (found', s')) :
    s'.Resting ts ∧ (s'.stream.Fresh ∨ (classForm? s'.stream.current).isSome) := by
  rcases ho with hform | ⟨m, hm, hne⟩
  · rcases modifiers_cases hr with ⟨rfl, -⟩ | ⟨m, hm⟩
    · exact ⟨hs, .inr hform⟩
    · cases (kind_of_classForm? hform).1.symm.trans hm
  · obtain ⟨hs', hf⟩ := attendsFrom_modifiers hts hs hm hne _ _ hr
    exact ⟨hs', .inl hf⟩

/-- What rules that use other rules rely on. -/
structure AttendsStatements (ts : List Token) (rules : Rules) : Prop where
  closed : Closed ts
  expressions : OfExpressions (fun _ m => Settles ts m) rules
  statement : Attends ts (rules .statement)
  ifStatement : Attends ts (rules .ifStatement)

namespace AttendsStatements

variable (h : AttendsStatements ts self)

include h

/-! ## Functions -/

theorem block : Attends ts (block self n) :=
  (growing_attends ts).block h.statement fun _ _ => attends_undocumented rfl

theorem functionLike {form : FunctionForm} (hs : s.Resting ts)
    (hk : s.stream.current.kind = .keyword .functionKw) (hd : Documents ts start doc) :
    AttendsFrom ts s (functionLike self n form start found doc) := by
  have hg := growing_attends ts
  unfold Grammar.functionLike
  refine (AttendsFrom.expect h.closed hs hk (by decide)).bind fun _ => ?_
  refine hg.bind hg.accept fun _ => hg.bind hg.declaredName fun _ => ?_
  refine hg.bind (hg.parameterList h.expressions.attends) fun _ => ?_
  refine hg.bind hg.hintAfterColon fun _ => ?_
  refine hg.bind (hg.functionBody h.block) fun _ => attends_done ?_
  rintro _ ⟨⟩
  exact hd

theorem functionDeclaration (hs : s.Resting ts) (hf : s.stream.Fresh)
    (hk : s.stream.current.kind = .keyword .functionKw) :
    AttendsFrom ts s (functionDeclaration self n) := by
  intro a s' hr
  have hd : Documents ts s.stream.current.start s.stream.doc :=
    hs.documents hf (hk ▸ rfl) (hk ▸ by decide)
  exact h.functionLike hs.dropDoc hk hd a s' hr

/-! ## Members -/

theorem classMember (hs : s.Resting ts) (hf : s.stream.Fresh)
    (hk : s.stream.current.kind ≠ .endOfFile) : PausesFrom ts s (classMember self n) := by
  have hg := growing_settles ts
  have he := h.expressions
  have hd := hs.documents hf
  unfold Grammar.classMember
  refine .look looks_token (.takeDoc (.look (looks_isAt _) ?_))
  have hs₁ := hs.dropDoc
  split
  · exact (hg.map hg.traitUse) _ hs₁
  · refine .look (looks_isAtWord _) ?_
    split
    · exact (hg.map (hg.enumCase he)) _ hs₁
    · refine .bindRun (hg.modifiers _ hs₁) fun found s₂ hr => .look looks_token ?_
      have hs₂ := (hg.modifiers _ hs₁ _ _ hr).1
      have hfirst := modifiers_cases hr
      split
      · exact hg.constants he s₂ hs₂
      · next hfunction =>
        refine .map (h.functionLike hs₂ hfunction (hd ?_ hk)).settles
        rcases hfirst with ⟨rfl, -⟩ | ⟨m, hm⟩
        · exact hfunction ▸ rfl
        · exact TokenKind.endsDoc_of_modifier? hm
      · exact hg.bind hg.advance (fun _ => hg.pure _) s₂ hs₂
      · split
        · exact hg.bind settles_report (fun _ => hg.pure _) s₂ hs₂
        · next hhint =>
          have hends : s.stream.current.kind.endsDoc = false := by
            rcases hfirst with ⟨rfl, rfl⟩ | ⟨m, hm⟩
            · have hempty : Modifiers.empty.isEmpty = true := rfl
              rw [hempty, Bool.true_and, Bool.not_eq_true', Bool.not_eq_false] at hhint
              exact endsDoc_of_startsHint hhint
            · exact TokenKind.endsDoc_of_modifier? hm
          refine hg.properties he (fun d hdoc => ?_) s₂ hs₂
          refine settles_node fun _ hsome => ?_
          obtain rfl := Option.some.inj hsome
          exact hdoc ▸ hd hends hk

/-- A token that a member has not read is passed over. -/
theorem passOverMember {before : Token} (hs : s.Resting ts)
    (hf : s.stream.Fresh ∨ s.stream.current = before) (hk : before.kind ≠ .endOfFile) :
    AttendsFrom ts s (passOverMember before) := by
  have hg := growing_attends ts
  rcases hf with hf | rfl
  · exact hg.passOverMember s hs hf
  · unfold Grammar.passOverMember
    refine .look looks_token ?_
    rw [if_pos (beq_self_eq_true _)]
    refine .bindRun fun _ s' hr => ?_
    obtain ⟨hs', he | hf'⟩ := settles_report s hs _ _ hr
    · exact .advance h.closed hs' (he ▸ hk)
    · exact hg.advance s' hs' hf'

theorem classMembers : Attends ts (classMembers self bound n) := by
  have hg := growing_attends ts
  induction n with
  | zero => exact hg.outOfSteps
  | succ n ih =>
    intro s hs hf
    refine .look (looks_isAtEndOr _) ?_
    split
    · exact hg.pure _ s hs hf
    · next hk =>
      have hne : s.stream.current.kind ≠ .endOfFile := by
        simp only [Bool.or_eq_true, beq_iff_eq, not_or] at hk
        exact hk.2
      refine .look looks_token (.bindRun fun members s₁ hr => ?_)
      obtain ⟨hs₁, hf₁⟩ := h.classMember hs hf hne _ _ hr
      refine (h.passOverMember hs₁ hf₁ hne).bind fun _ => hg.bind ih fun _ => hg.pure _

theorem classBody : Attends ts (classBody self n) := by
  have hg := growing_attends ts
  apply hg.bind hg.expect
  rintro (_ | _)
  · exact hg.pure _
  · exact hg.bind h.classMembers fun _ => hg.bind (hg.discard hg.expect) fun _ => hg.pure _

/-! ## Classes -/

theorem classDeclaration (hs : s.Resting ts) (hf : s.stream.Fresh)
    (ho : OpensClass s.stream.current) : AttendsFrom ts s (Grammar.classDeclaration self n) := by
  have hg := growing_attends ts
  have hd : Documents ts s.stream.current.start s.stream.doc :=
    hs.documents hf ho.documents.1 ho.documents.2
  unfold Grammar.classDeclaration
  refine .look looks_token (.takeDoc (.bindRun fun found s₂ hr => .look looks_token ?_))
  obtain ⟨hs₂, hform⟩ := modifiers_of_opensClass h.closed hs.dropDoc ho hr
  split
  · next form hsome =>
    refine (AttendsFrom.advance h.closed hs₂ (ne_endOfFile_of_classForm? hsome)).bind fun _ => ?_
    refine hg.bind hg.declaredName fun _ => hg.bind hg.backingHint fun _ => ?_
    refine hg.bind hg.parentNames fun _ => hg.bind hg.interfaceNames fun _ => ?_
    refine hg.bind h.classBody fun _ => attends_done ?_
    rintro _ ⟨⟩
    exact hd
  · next hnone =>
    have hfresh : s₂.stream.Fresh := hform.resolve_right fun hsome =>
      let ⟨form, hform⟩ := Option.isSome_iff_exists.mp hsome
      hnone form hform
    exact hg.bind settles_report.attends (fun _ => hg.pure _) s₂ hs₂ hfresh

/-! ## Statements -/

theorem statementBody : Attends ts (statementBody self n) := by
  have hg := growing_attends ts
  have he := h.expressions.attends
  have hexpression : Attends ts (expressionStatement self) := hg.expressionStatement he
  have hskipped : Attends ts (skippedStatement n) := hg.bind hg.skipStatement fun _ => hg.pure none
  have hskip : Attends ts (advance >>= fun _ => return (none : Option NodeId)) :=
    hg.bind hg.advance fun _ => hg.pure none
  intro s hs hf
  have hkeyword (ho : (classForm? s.stream.current).isSome) :
      AttendsFrom ts s (Grammar.classDeclaration self n) :=
    h.classDeclaration hs hf (.inl ho)
  have hmodifier (m : Modifier) (hm : s.stream.current.kind.modifier? = some m)
      (hne : s.stream.current.kind ≠ .keyword .staticKw) :
      AttendsFrom ts s (Grammar.classDeclaration self n) :=
    h.classDeclaration hs hf (.inr ⟨m, hm, hne⟩)
  refine .look looks_token ?_
  split
  · exact hskip s hs hf
  · exact hskip s hs hf
  · exact hskip s hs hf
  · exact hg.bind hg.advance (fun _ => attends_undocumented rfl) s hs hf
  · exact h.block s hs hf
  · refine .look looks_isAtNamespace ?_
    split
    · exact hg.namespaceDeclaration h.statement s hs hf
    · exact hexpression s hs hf
  · exact hg.importDeclaration s hs hf
  · next hk => exact hkeyword (by simp [classForm?, hk])
  · next hk => exact hkeyword (by simp [classForm?, hk])
  · next hk => exact hkeyword (by simp [classForm?, hk])
  · next hk => exact hmodifier .abstractMod (hk ▸ rfl) (hk ▸ by decide)
  · next hk => exact hmodifier .finalMod (hk ▸ rfl) (hk ▸ by decide)
  · next hk => exact hmodifier .readonlyMod (hk ▸ rfl) (hk ▸ by decide)
  · next hk =>
    obtain ⟨g, hname⟩ := looks_isAtFunctionName
    refine .look hname ?_
    split
    · exact h.functionDeclaration hs hf hk
    · exact hexpression s hs hf
  · exact hg.returnStatement he s hs hf
  · exact hg.ifStatement he.expression h.statement h.ifStatement
      (fun _ _ _ _ => attends_undocumented rfl) s hs hf
  · exact hskipped s hs hf
  · refine .look (looks_kindAhead 1) ?_
    split
    · exact hexpression s hs hf
    · exact hskipped s hs hf
  · refine .look looks_isAtEnum ?_
    split
    · next hk henum =>
      have hword : s.stream.current.isWord "enum" = true := (Bool.and_eq_true_iff.mp henum).1
      exact hkeyword (by simp [classForm?, hk, hword])
    · split
      · exact hskipped s hs hf
      · exact hexpression s hs hf
  · exact hexpression s hs hf

end AttendsStatements

theorem attends_rules (hts : Closed ts) (n : Nat) : AttendsStatements ts (rules n) := by
  have hg := growing_attends ts
  induction n with
  | zero => exact ⟨hts, settles_rules ts 0, hg.outOfSteps, hg.outOfSteps⟩
  | succ n ih =>
    have hdepth (d : Nat → Nat) :
        Attends ts (modify fun s => { s with depth := d s.depth } : Parse PUnit) :=
      (settles_depth d).attends
    exact
      { closed := hts
        expressions := settles_rules ts (n + 1)
        statement := hg.nested hdepth settles_report.attends hg.advance ih.statementBody
        ifStatement := hg.ifStatement ih.expressions.attends.expression ih.statement ih.ifStatement
          fun _ _ _ _ => attends_undocumented rfl }

end Grammar

end PhpAtlas
