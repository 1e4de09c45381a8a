import PhpAtlas.Proofs.Building.Headers
import PhpAtlas.Proofs.Building.Holes

/-! # Names of declarations

The name of a class-like or a function is read as an identifier before the rest
of it, and stays one while nodes are added behind it. So in a source without
reports every declaration has a name.
-/

namespace PhpAtlas

/-- The node of the name of a declaration. -/
def Payload.nameSlot? {α : Type} : Payload (Option α) → Option α
  | classLike _ d => d.name
  | function _ d => d.name
  | _ => none

namespace Arena

variable {a b : Arena} {i k start stop : Nat} {payload : Payload (Option NodeId)}
variable {ok : Arena → Payload (Option NodeId) → Prop} {name : String}

theorem lt_size_of_identifier? (h : a.identifier? k = some name) : k < a.size := by
  unfold identifier? at h
  split at h
  · next hp => exact lt_size_of_payload? hp
  · cases h

theorem identifier?_added (h : a.identifier? k = some name) :
    (a.added payload start stop).identifier? k = some name := by
  have hk : k ≠ a.size := Nat.ne_of_lt (lt_size_of_identifier? h)
  rw [identifier?, payload?_added, if_neg hk]
  exact h

theorem Extends.identifier? (h : a.Extends ok b) (hk : a.identifier? k = some name) :
    b.identifier? k = some name := by
  induction h with
  | refl => exact hk
  | tail _ hb ih =>
    obtain ⟨_, _, _, -, rfl⟩ := hb
    exact identifier?_added ih

end Arena

namespace Grammar

open Arena

variable {payload : Payload (Option NodeId)} {self : Rules} {n start : Nat} {s s' : State}
variable {fits : TokenKind → Bool} {part : String} {k : NodeId} {name : Option NodeId}

/-- Where a declaration has a name, it is an identifier. -/
def Identified (a : Arena) (payload : Payload (Option NodeId)) : Prop :=
  ∀ k, payload.nameSlot? = some k → ∃ name, a.identifier? k = some name

theorem identified (h : payload.nameSlot? = none) (a : Arena) : Identified a payload := by
  intro k hk
  cases h.symm.trans hk

theorem nameSlot?_of_isSimple (h : payload.isSimple = true) : payload.nameSlot? = none := by
  cases payload <;> first | rfl | cases h

theorem nameSlot?_of_isOperation (h : payload.isOperation = true) : payload.nameSlot? = none := by
  cases payload <;> first | rfl | cases h

theorem identifier?_of_done {text : String}
    (h : (done (.identifier text) start).run s = some (some k, s')) :
    s'.arena.identifier? k = some text := by
  cases h
  show (s.arena.added (.identifier text) start (max s.readTo start)).identifier? s.arena.size = _
  rw [identifier?, payload?_added, if_pos rfl]

theorem identifier?_of_identifierOf (h : (identifierOf fits).run s = some (some k, s')) :
    ∃ name, s'.arena.identifier? k = some name := by
  rw [identifierOf, looks_token.run_bind] at h
  split at h
  · obtain ⟨_, s₁, -, h⟩ := run_bind_eq_some h
    exact ⟨_, identifier?_of_done h⟩
  · cases h

theorem identifier?_of_declaredName (h : (declaredName fits part).run s = some (name, s')) :
    ∀ k, name = some k → ∃ text, s'.arena.identifier? k = some text := by
  rintro k rfl
  obtain ⟨found, s₁, hfound, h⟩ := run_bind_eq_some h
  cases found with
  | some found =>
    cases h
    exact identifier?_of_identifierOf hfound
  | none =>
    obtain ⟨_, s₂, -, h⟩ := run_bind_eq_some h
    cases h

theorem composed_identified : Composed fun _ m => Adds Identified m :=
  adds_composed fun h a => identified (nameSlot?_of_isSimple h) a

/-- The rules that a rule is run with give declarations identifiers as names. -/
structure AddsIdentified (rules : Rules) : Prop extends
    OfExpressions (fun _ m => Adds Identified m) rules where
  statement : Adds Identified (rules .statement)
  ifStatement : Adds Identified (rules .ifStatement)

namespace AddsIdentified

variable (h : AddsIdentified self)

include h

theorem block : Adds Identified (block self n) :=
  composed_identified.block h.statement fun _ _ => adds_done (identified rfl)

theorem functionLike {form : FunctionForm} {found : Modifiers} {doc : Option String} :
    Adds Identified (functionLike self n form start found doc) := by
  have hc := composed_identified
  refine (hc.discard hc.expect).bind fun _ => hc.accept.bind fun byRef => fun s hs => ?_
  refine hc.declaredName.bindFrom hs fun name s₁ hs₁ hname _ => ?_
  refine (hc.parameterList h.toOfExpressions).bindFrom hs₁ fun parameters s₂ hs₂ _ h₂ => ?_
  refine hc.hintAfterColon.bindFrom hs₂ fun type s₃ hs₃ _ h₃ => ?_
  refine (hc.functionBody h.block).bindFrom hs₃ fun body s₄ _ _ h₄ => addsFrom_done fun k hk => ?_
  obtain ⟨text, htext⟩ := identifier?_of_declaredName hname k hk
  exact ⟨text, Extends.identifier? ((h₂.trans h₃).trans h₄) htext⟩

theorem classDeclaration : Adds Identified (classDeclaration self n) := by
  have hc := composed_identified
  refine .look looks_token fun _ => hc.takeDoc.bind fun doc => hc.modifiers.bind fun found => ?_
  refine .look looks_token fun t => ?_
  split
  · refine hc.advance.bind fun _ => fun s hs => ?_
    refine hc.declaredName.bindFrom hs fun name s₁ hs₁ hname _ => ?_
    refine hc.backingHint.bindFrom hs₁ fun _ s₂ hs₂ _ h₂ => ?_
    refine hc.parentNames.bindFrom hs₂ fun parents s₃ hs₃ _ h₃ => ?_
    refine hc.interfaceNames.bindFrom hs₃ fun interfaces s₄ hs₄ _ h₄ => ?_
    refine (hc.classBody h.toOfExpressions fun _ _ _ => h.functionLike).bindFrom hs₄
      fun members s₅ _ _ h₅ => addsFrom_done fun k hk => ?_
    obtain ⟨text, htext⟩ := identifier?_of_declaredName hname k hk
    exact ⟨text, Extends.identifier? (((h₂.trans h₃).trans h₄).trans h₅) htext⟩
  · exact adds_report.bind fun _ => hc.pure none

theorem ofStatements : OfStatements (fun _ m => Adds Identified m) self n where
  toOfExpressions := h.toOfExpressions
  statement := h.statement
  block := h.block
  ifStatement := composed_identified.ifStatement h.expression h.statement h.ifStatement
    fun _ _ _ _ => adds_done (identified rfl)
  function := .look looks_token fun _ => adds_takeDoc.bind fun _ => h.functionLike
  classDeclaration := h.classDeclaration

end AddsIdentified

theorem addsIdentified_rules (n : Nat) : AddsIdentified (rules n) := by
  have hc := composed_identified
  have hdone {payload : Payload (Option NodeId)} {start : Nat} (h : payload.nameSlot? = none) :
      Adds Identified (done payload start) :=
    adds_done (identified h)
  induction n with
  | zero =>
    have hparentheses (start : Nat) : Adds Identified (parentheses (rules 0) start) :=
      hc.parentheses hc.outOfSteps fun _ => hdone rfl
    exact ⟨⟨hc.outOfSteps, fun _ => hc.outOfSteps, hc.outOfSteps, hc.outOfSteps, hparentheses⟩,
      hc.outOfSteps, hc.outOfSteps⟩
  | succ n ih =>
    have he := ih.toOfExpressions
    have hs : OfStatements (fun _ m => Adds Identified m) (rules n) n := ih.ofStatements
    have hoperation {payload : Payload (Option NodeId)} (start : Nat)
        (h : payload.isOperation = true) : Adds Identified (node payload start) :=
      adds_node (identified (nameSlot?_of_isOperation h))
    have hexpression : Adds Identified (rules (n + 1) .expression) :=
      .nested .pure (hc.assignment he hoperation)
    exact
      { expression := hexpression
        operand := fun _ => hc.operandRule he hoperation
        unary := hc.unaryRule he
        primary := hc.primaryRule he
        parentheses := fun _ => hc.parentheses hexpression fun _ => hdone rfl
        statement := .nested adds_advance (hc.statementBody hs)
        ifStatement := hs.ifStatement }

end Grammar

open Grammar

/-- In a source without reports every class-like and every function has a name. -/
theorem Parsed.exists_declaredName? {source : List Char} {i : NodeId}
    {payload : Payload (Option NodeId)} (h : (ofSource source).diagnostics = [])
    (hi : (ofSource source).arena.payload? i = some payload)
    (hd : payload.isClassLike = true ∨ payload.isFunction = true) :
    ∃ name, (ofSource source).arena.declaredName? i = some name := by
  obtain ⟨n, hn, rfl⟩ := Option.map_eq_some_iff.mp hi
  obtain ⟨c, hc, he⟩ := allowed_ofSource (fun h a => identified (nameSlot?_of_isSimple h) a)
    (fun n => (addsIdentified_rules n).statement) hi
  have hwhole : n.payload.Whole := whole_ofSource h i n hn
  have hdeclared : (ofSource source).arena.declaredName? i =
      n.payload.nameSlot?.bind (ofSource source).arena.identifier? := by
    rw [Arena.declaredName?, hi]
    cases hp : n.payload <;> rfl
  obtain ⟨k, hk⟩ : ∃ k, n.payload.nameSlot? = some k := by
    cases hp : n.payload <;> rw [hp] at hwhole hd
    case classLike => exact Option.isSome_iff_exists.mp hwhole.1
    case function => exact Option.isSome_iff_exists.mp hwhole.1
    all_goals rcases hd with hd | hd <;> cases hd
  obtain ⟨name, hname⟩ := hc k hk
  exact ⟨name, by rw [hdeclared, hk]; exact Arena.Extends.identifier? he hname⟩

end PhpAtlas
