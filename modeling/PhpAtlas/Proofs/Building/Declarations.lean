import PhpAtlas.Grammar.Declaration
import PhpAtlas.Proofs.Building.Expressions

/-! # How declarations are formed

Names, parents, interfaces and members are finished in the order in which a
declaration lists them, and so are the statements of a namespace. A declaration
begins with its first modifier or its keyword.
-/

namespace PhpAtlas.Grammar

open Item

variable {n pos : Nat} {t : Token}

/-! ## Runs, modifiers and imports -/

theorem formsAt_importDeclaration (ht : t.kind ≠ .endOfFile) :
    FormsAt t (importDeclaration n) [] one := by
  refine .note fun _ => .begin ht (inherited_quiet.importForm.next fun _ => ?_)
  refine inherited_quiet.importItems.next fun _ => ?_
  exact quiet_expectSemicolon.next fun _ => forms_done [] trivial rfl fun _ => trivial

/-! ## Lists of statements -/

variable {self : Rules}

theorem forms_statementList {closing : TokenKind} {stopAtNamespace : Bool} (h : Builds self) :
    Forms (statementList self closing stopAtNamespace n) [] many := by
  induction n with
  | zero => exact forms_outOfSteps
  | succ n ih =>
    refine (looks_isAtEndOr _).quiet.next fun _ => .ite (.pure (.refl _)) ?_
    refine looks_isAtNamespace.quiet.next fun _ => .ite (.pure (.refl _)) ?_
    refine looks_token.quiet.next fun _ => h.statement.bind fun r => ?_
    refine inherited_quiet.passOver.next fun _ => ih.next fun rest => .pure ?_
    cases r <;> exact .refl _

theorem formsAt_block (h : Builds self) (ht : t.kind = .openBrace) :
    FormsAt t (block self n) [] one := by
  refine .note fun _ => .expect ht (by decide) ((forms_statementList h).next fun statements => ?_)
  exact quiet_expect.discard.next fun _ => forms_done statements trivial rfl id

/-! ## Functions -/

theorem forms_parameter (h : Builds self) : Forms (parameter self n) [] one := by
  refine fun t => .note fun _ => (inherited_quiet.modifiers.next fun _ =>
    inherited_quiet.parameterHint.next fun _ => ?_) t
  refine quiet_accept.next fun _ => quiet_accept.next fun _ => fun t => .token fun _ => ?_
  refine .accept (by decide) ?_ fun _ => ?_
  · rw [if_pos rfl]
    refine (forms_initialValue h).next fun initial => ?_
    cases initial with
    | none => exact forms_done [] trivial rfl fun _ => trivial
    | some value => exact forms_done [some value] trivial rfl fun _ => trivial
  · exact (forms_fail t).drop (List.nil_sublist _)

theorem forms_parameterItems {bound : Nat} (h : Builds self) :
    Forms (parameterItems self bound n) [] many := by
  induction n with
  | zero => exact forms_outOfSteps
  | succ n ih =>
    refine (looks_isAtEndOr _).quiet.next fun _ => .ite (.pure (.refl _)) ?_
    apply (forms_parameter h).bind
    intro r
    cases r with
    | none => exact .pure (List.nil_sublist _)
    | some item =>
      refine quiet_accept.next fun _ => .ite ?_ (.pure (.refl _))
      exact ih.next fun rest => .pure (.refl _)

theorem forms_parameterList (h : Builds self) : Forms (parameterList self n) [] many := by
  refine quiet_expect.next fun _ => .ite ?_ (.pure (.refl _))
  exact (forms_parameterItems h).bind fun _ => quiet_expect.discard.next fun _ => .pure (.refl _)

theorem forms_declaredName {fits : TokenKind → Bool} {part : String}
    (hf : ∀ kind, fits kind = true → kind.isMemberName = true) :
    Forms (declaredName fits part) [] one := by
  apply (forms_identifierOf hf).bind
  intro r
  cases r with
  | none => exact forms_fail
  | some name => exact .pure (.refl _)

theorem forms_functionBody (h : Builds self) : Forms (functionBody self n) [] opt := by
  refine fun t => .look (looks_isAt _) fun s hs => .ite (fun hb => ?_) fun _ => ?_
  · exact (formsAt_block h (hs ▸ eq_of_beq hb)).opt
  · exact .of (quiet_expectSemicolon.next fun _ => .pure (.refl _))

/-- The slots of a function that are not left out. -/
abbrev functionParts (d : FunctionDecl (Option NodeId)) : List (Option NodeId) :=
  (d.name :: d.parameters) ++ d.body.toList.map some

theorem childrenOf_function {form : FunctionForm} (d : FunctionDecl (Option NodeId)) :
    Arena.childrenOf (.function form d) = idsOf (functionParts d) := by
  obtain ⟨name, _, _, ps, _, body, _⟩ := d
  show idsOf ((name :: ps) ++ [body]) = idsOf ((name :: ps) ++ body.toList.map some)
  rw [idsOf, idsOf, List.filterMap_append, List.filterMap_append]
  cases body <;> rfl

theorem whole_function {form : FunctionForm} {d : FunctionDecl (Option NodeId)}
    (h : ∀ x ∈ functionParts d, x.isSome) : (Payload.function form d).Whole :=
  ⟨h _ List.mem_cons_self,
    fun x hx => h x (List.mem_append_left _ (List.mem_cons_of_mem _ hx))⟩

theorem formsAt_functionLike {form : FunctionForm} {found : Modifiers} {doc : Option String}
    (h : Builds self) (ht : t.kind = .keyword .functionKw) :
    FormsAt t (functionLike self n form pos found doc) [mark pos] one := by
  refine .expect ht (by decide) (quiet_accept.next fun byRef => ?_)
  refine (forms_declaredName fun _ hk => hk).next fun name => ?_
  refine (forms_parameterList h).next fun ps => ?_
  refine inherited_quiet.hintAfterColon.next fun type => (forms_functionBody h).next fun body => ?_
  refine .of_eq ?_ (forms_done (functionParts _) trivial (childrenOf_function _) whole_function)
  rw [functionParts, many_append]
  rfl

theorem formsAt_functionDeclaration (h : Builds self) (ht : t.kind = .keyword .functionKw) :
    FormsAt t (functionDeclaration self n) [] one :=
  .note fun _ => .takeDoc fun _ => formsAt_functionLike h ht

/-! ## Class members -/

theorem forms_classNames : Forms (classNames n) [] many := by
  induction n with
  | zero => exact forms_outOfSteps
  | succ n ih =>
    refine forms_classNameRule.bind fun name => quiet_accept.next fun _ => .ite ?_ (.pure (.refl _))
    exact ih.next fun rest => .pure (.refl _)

theorem formsAt_traitUse (ht : t.kind ≠ .endOfFile) : FormsAt t (traitUse n) [] one := by
  refine .note fun _ => .begin ht (forms_classNames.next fun traits => ?_)
  exact inherited_quiet.conflictRules.next fun _ => forms_done traits trivial rfl id

theorem formsAt_enumCase (h : Builds self) (ht : t.kind ≠ .endOfFile) :
    FormsAt t (enumCase self pos) [mark pos] one := by
  refine .begin ht (looks_token.quiet.next fun _ => .ite ?_ (quiet_advance.next fun _ => ?_))
  · exact forms_fail.drop (List.nil_sublist _)
  · refine (forms_initialValue h).next fun value => quiet_expectSemicolon.next fun _ => ?_
    cases value with
    | none => exact forms_done [] trivial rfl fun _ => trivial
    | some value => exact forms_done [some value] trivial rfl fun _ => trivial

/-- The items of a list that one declaration begins all start where it does. -/
theorem forms_item {payload : Payload (Option NodeId)} (parts : List (Option NodeId))
    {f : NodeId → Parse (List (Option NodeId))} (hb : payload.Bare)
    (hc : Arena.childrenOf payload = idsOf parts)
    (hw : (∀ x ∈ parts, x.isSome) → payload.Whole)
    (hf : ∀ item, Forms (f item) [slot (some item), begun pos] many) :
    Forms (node payload pos >>= f) (begun pos :: many parts) many :=
  (forms_node parts hb hc hw).bind fun item => (hf item).drop (List.sublist_cons_self _ _)

theorem forms_constantItems {found : Modifiers} (h : Builds self) :
    Forms (constantItems self pos found n) [begun pos] many := by
  induction n with
  | zero => exact forms_outOfSteps
  | succ n ih =>
    refine looks_token.quiet.next fun t => .ite ?_ ?_
    · exact quiet_report.next fun _ => .pure (List.nil_sublist _)
    · refine quiet_advance.next fun _ => quiet_expect.discard.next fun _ => ?_
      refine h.expression.next fun value => forms_item [value] trivial rfl (fun _ => trivial) fun item => ?_
      refine quiet_accept.next fun _ => .ite ?_ ?_
      · exact (ih.frame (one (some item))).bind fun rest => .pure (.refl _)
      · exact quiet_expectSemicolon.next fun _ => .pure (List.sublist_append_left [_] [_])

theorem formsAt_constants {found : Modifiers} (h : Builds self) (ht : t.kind ≠ .endOfFile) :
    FormsAt t (constants self n pos found) [mark pos] many :=
  .begin ht (inherited_quiet.constantHint.next fun _ => forms_constantItems h)

theorem forms_propertyItems {found : Modifiers} {type : Option TypeHint} {doc : Option String}
    (h : Builds self) : Forms (propertyItems self pos found type doc n) [mark pos] many := by
  induction n with
  | zero => exact forms_outOfSteps
  | succ n ih =>
    refine fun t => .token fun _ => .accept (by decide) ?_ fun _ => ?_
    · rw [if_neg (by decide)]
      have hrest (item : NodeId) : Forms (do
          if ← accept .comma then
            let rest ← propertyItems self pos found type doc n
            return some item :: rest
          expectSemicolon
          return [some item]) [slot (some item), begun pos] many := by
        refine quiet_accept.next fun _ => .ite ?_ ?_
        · exact (ih.forget.frame (one (some item))).bind fun rest => .pure (.refl _)
        · exact quiet_expectSemicolon.next fun _ => .pure (List.sublist_append_left [_] [_])
      refine (forms_initialValue h).next fun initial => ?_
      cases initial with
      | none => exact forms_item [] trivial rfl (fun _ => trivial) hrest
      | some value => exact forms_item [some value] trivial rfl (fun _ => trivial) hrest
    · exact .of (quiet_report.next fun _ => .pure (List.nil_sublist _))

theorem forms_properties {found : Modifiers} {doc : Option String} (h : Builds self) :
    Forms (properties self n pos found doc) [mark pos] many :=
  inherited_quiet.propertyHint.next fun _ => forms_propertyItems h

theorem forms_classMember (h : Builds self) : Forms (classMember self n) [] many := by
  refine fun t => .note fun _ => .takeDoc fun doc => ?_
  refine .look (looks_isAt _) fun s hs => .ite (fun hu => ?_) fun _ => ?_
  · have ht : t.kind = .keyword .useKw := hs ▸ eq_of_beq hu
    exact ((formsAt_traitUse (ht ▸ by decide)).drop (List.nil_sublist _)).single
  refine .look (looks_isAtWord _) fun s hs => .ite (fun hw => ?_) fun _ => ?_
  · have ht : t.kind ≠ .endOfFile := ne_endOfFile_of_isWord (hs ▸ hw)
    exact (formsAt_enumCase h ht).single
  refine .of (inherited_quiet.modifiers.next fun found => fun t => .token fun _ => ?_)
  split
  · next hk => exact formsAt_constants h (hk ▸ by decide)
  · next hk => exact (formsAt_functionLike h hk).single
  · exact .of (quiet_advance.next fun _ => .pure (List.nil_sublist _))
  · refine .ite (fun _ => ?_) fun _ => forms_properties h t
    exact .of (quiet_report.next fun _ => .pure (List.nil_sublist _))

theorem forms_classMembers {bound : Nat} (h : Builds self) :
    Forms (classMembers self bound n) [] many := by
  induction n with
  | zero => exact forms_outOfSteps
  | succ n ih =>
    refine (looks_isAtEndOr _).quiet.next fun _ => .ite (.pure (.refl _)) ?_
    refine looks_token.quiet.next fun _ => ?_
    apply (forms_classMember h).bind
    intro found
    refine inherited_quiet.passOverMember.next fun _ => ih.next fun rest => .pure ?_
    rw [many_append]

/-! ## Classes and namespaces -/

theorem forms_parentNames {form : ClassForm} : Forms (parentNames n form) [] many := by
  refine quiet_accept.next fun _ => .ite ?_ (.pure (.refl _))
  exact .ite forms_classNames forms_classNameRule.single

theorem forms_interfaceNames {form : ClassForm} : Forms (interfaceNames n form) [] many := by
  refine .ite ?_ (.pure (.refl _))
  exact quiet_accept.next fun _ => .ite forms_classNames (.pure (.refl _))

theorem forms_classBody (h : Builds self) : Forms (classBody self n) [] many := by
  refine quiet_expect.next fun _ => .ite ?_ (.pure (.refl _))
  exact (forms_classMembers h).bind fun _ => quiet_expect.discard.next fun _ => .pure (.refl _)

/-- The slots of a class-like. -/
abbrev classParts (d : ClassDecl (Option NodeId)) : List (Option NodeId) :=
  (d.name :: d.parents) ++ d.interfaces ++ d.members

theorem whole_classLike {form : ClassForm} {d : ClassDecl (Option NodeId)}
    (h : ∀ x ∈ classParts d, x.isSome) : (Payload.classLike form d).Whole := by
  refine ⟨h _ (by simp), fun x hx => h x ?_, fun x hx => h x ?_, fun x hx => h x ?_⟩
  all_goals simp [hx]

theorem forms_classDeclaration (h : Builds self) : Forms (classDeclaration self n) [] one := by
  refine fun t => .note fun _ => .takeDoc fun doc => .of ?_
  apply inherited_quiet.modifiers.next
  intro found
  refine fun t => .token fun _ => ?_
  split
  · next form hform =>
    have hn (kind : TokenKind) (hk : (kind == .identifier) = true) : kind.isMemberName = true := by
      rw [eq_of_beq hk]
      rfl
    refine .begin (ne_endOfFile_of_classForm? hform) ((forms_declaredName hn).next fun name => ?_)
    refine inherited_quiet.backingHint.next fun _ => forms_parentNames.next fun parents => ?_
    refine forms_interfaceNames.next fun interfaces => (forms_classBody h).next fun members => ?_
    refine .of_eq ?_ (forms_done (classParts _) trivial rfl whole_classLike)
    rw [classParts, many_append, many_append]
    rfl
  · exact .of (forms_report.next fun _ => .pure (List.sublist_append_right [_] _))

/-- The name of a namespace is taken from a token whose value is bare. -/
theorem forms_namespaceName {β : Type} {f : Option String → Parse β} {inp : List Item}
    {res : β → List Item}
    (hf : ∀ name, (∀ home, name = some home → Unrooted home ∧ home ≠ "") → Forms (f name) inp res) :
    Forms (namespaceName >>= f) inp res := by
  unfold namespaceName
  rw [bind_assoc]
  refine fun t => .token fun ht => ?_
  split
  · next hk =>
    have hk : t.kind = .identifier ∨ t.kind = .qualifiedName := by simpa using hk
    rw [bind_assoc]
    refine .of (quiet_advance.next fun _ => ?_)
    rw [pure_bind]
    refine hf _ ?_
    rintro home ⟨⟩
    exact ht.value hk
  · rw [pure_bind]
    exact hf none nofun t

theorem formsAt_namespaceDeclaration (h : Builds self) (ht : t.kind ≠ .endOfFile) :
    FormsAt t (namespaceDeclaration self n) [] one := by
  refine .note fun _ => .begin ht (forms_namespaceName fun name hn => ?_)
  have hb (statements : List (Option NodeId)) (braced : Bool) :
      (Payload.namespaceBlock name statements braced).Bare := by
    cases name with
    | none => trivial
    | some home => exact hn home rfl
  refine quiet_accept.next fun _ => .ite ?_ ?_
  · refine (forms_statementList h).next fun statements => quiet_expect.discard.next fun _ => ?_
    exact forms_done statements (hb statements true) rfl id
  · apply inherited_quiet.namespaceEnd.next
    intro _
    refine (forms_statementList h).next fun statements => ?_
    exact forms_done statements (hb statements false) rfl id

end PhpAtlas.Grammar
