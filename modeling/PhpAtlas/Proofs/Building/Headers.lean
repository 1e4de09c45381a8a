import PhpAtlas.Proofs.Building.Additions
import PhpAtlas.Proofs.Building.Sources

/-! # Headers of functions

What stands between the keyword and the body of a function is finished after
everything before it, and is made of names, parameters and expressions. So a
class-like in a function is in its body.
-/

namespace PhpAtlas

namespace Arena

variable {a b : Arena} {i j start stop : Nat} {payload : Payload (Option NodeId)}

/-- Nothing under the node is a class-like. -/
def PlainUnder (a : Arena) (i : NodeId) : Prop :=
  ∀ j, a.Reaches i j → ∃ payload, a.payload? j = some payload ∧ payload.isClassLike = false

theorem PlainUnder.added (h : a.PlainUnder i) : (a.added payload start stop).PlainUnder i := by
  have hback (j : NodeId) (hr : (a.added payload start stop).Reaches i j) : a.Reaches i j := by
    induction hr with
    | refl => exact .refl
    | @tail k j _ hj ih =>
      obtain ⟨_, hk, -⟩ := h k ih
      apply ih.tail
      rwa [IsChild, children_added, if_neg (Nat.ne_of_lt (lt_size_of_payload? hk))] at hj
  intro j hr
  obtain ⟨q, hq, hp⟩ := h j (hback j hr)
  refine ⟨q, ?_, hp⟩
  rw [payload?_added, if_neg (Nat.ne_of_lt (lt_size_of_payload? hq)), hq]

/-- The nodes, and all under them, have been added since there were `lo` nodes. -/
structure Since (a : Arena) (lo : Nat) (ids : List NodeId) : Prop where
  size : lo ≤ a.size
  within : ∀ i ∈ ids, lo ≤ i ∧ i < a.size
  child : ∀ i, lo ≤ i → ∀ c ∈ a.children i, lo ≤ c ∧ c < a.size

theorem since_nil (a : Arena) : a.Since a.size [] where
  size := le_rfl
  within := nofun
  child _ hi _ hc := absurd (lt_size_of_mem_children hc) (not_lt.mpr hi)

theorem Since.sublist {lo : Nat} {ids ids' : List NodeId} (h : a.Since lo ids)
    (hs : ids'.Sublist ids) : a.Since lo ids' :=
  ⟨h.size, fun i hi => h.within i (hs.subset hi), h.child⟩

theorem Since.add {lo : Nat} {ids : List NodeId} (h : a.Since lo (ids ++ childrenOf payload)) :
    (a.added payload start stop).Since lo (ids ++ [a.size]) := by
  have hlt {i : Nat} (hi : lo ≤ i ∧ i < a.size) : lo ≤ i ∧ i < a.size + 1 :=
    ⟨hi.1, Nat.lt_succ_of_lt hi.2⟩
  constructor
  · rw [size_added]
    exact Nat.le_succ_of_le h.size
  · intro i hi
    rw [size_added]
    rcases List.mem_append.mp hi with hi | hi
    · exact hlt (h.within i (List.mem_append_left _ hi))
    · rw [List.mem_singleton.mp hi]
      exact ⟨h.size, Nat.lt_succ_self _⟩
  · intro i hi c hc
    rw [children_added] at hc
    rw [size_added]
    split at hc
    · exact hlt (h.within c (List.mem_append_right _ hc))
    · exact hlt (h.child i hi c hc)

theorem Since.of_reaches {lo : Nat} {ids : List NodeId} (h : a.Since lo ids) (hi : i ∈ ids)
    (hr : a.Reaches i j) : lo ≤ j ∧ j < a.size := by
  induction hr with
  | refl => exact h.within i hi
  | tail _ hc ih => exact h.child _ ih.1 _ hc

variable {ok : Arena → Payload (Option NodeId) → Prop}

theorem Extends.plainUnder (h : a.Extends ok b) (hi : a.PlainUnder i) : b.PlainUnder i := by
  induction h with
  | refl => exact hi
  | tail _ hb ih =>
    obtain ⟨_, _, _, -, rfl⟩ := hb
    exact ih.added

end Arena

namespace Grammar

open Arena Item

variable {α : Type} {m : Parse α} {c d : State × List Item} {lo : Nat}

/-- What is in hand has been added since there were `lo` nodes. -/
abbrev Fresh (lo : Nat) (c : State × List Item) : Prop := c.1.arena.Since lo (nodesOf c.2)

theorem Work.fresh (hw : Work c d) (hc : Fresh lo c) : Fresh lo d := by
  rcases hw.arena_cases with ⟨ha, hs⟩ | ⟨payload, start, stop, ids, -, hin, ha, hout⟩
  · rw [Fresh, ha]
    exact hc.sublist hs
  · rw [Fresh, hin] at hc
    rw [Fresh, ha, hout]
    exact hc.add

/-- What rules without declarations have added since is plain. -/
theorem not_isClassLike_of_extends {a b : Arena} (h : a.Extends Plain b) {j : NodeId}
    {payload : Payload (Option NodeId)} (hj : a.size ≤ j) (hp : b.payload? j = some payload) :
    payload.isClassLike = false := by
  induction h with
  | refl => exact absurd (lt_size_of_payload? hp) (not_lt.mpr hj)
  | tail _ hb ih =>
    obtain ⟨new, _, _, hnew, rfl⟩ := hb
    rw [payload?_added] at hp
    split at hp
    · cases hp
      exact hnew.1
    · exact ih hp

theorem plainUnder_of_extends {a b : Arena} {ids : List NodeId} (h : b.Since a.size ids)
    (he : a.Extends Plain b) : ∀ i ∈ ids, b.PlainUnder i := by
  intro i hi j hr
  obtain ⟨hlo, hlt⟩ := h.of_reaches hi hr
  obtain ⟨n, hn⟩ := exists_node? hlt
  have hp := payload?_of_node? hn
  exact ⟨_, hp, not_isClassLike_of_extends he hlo hp⟩

/-! ## Functions -/

/-- Nothing in the name and the parameters of a function is a class-like. -/
def Orderly (a : Arena) (payload : Payload (Option NodeId)) : Prop :=
  ∀ form d, payload = .function form d → ∀ i ∈ idsOf (d.name :: d.parameters), a.PlainUnder i

variable {payload : Payload (Option NodeId)}

theorem orderly (h : payload.isFunction = false) (a : Arena) : Orderly a payload := by
  rintro form d rfl
  cases h

theorem Adds.orderly (hm : Adds Plain m) : Adds Orderly m :=
  hm.mono fun a _ h => Grammar.orderly h.2 a

/-- The rules that a rule is run with add functions in order, and expressions no declarations. -/
structure AddsOrderly (rules : Rules) : Prop extends AddsPlain rules where
  builds : Builds rules
  statement : Adds Orderly (rules .statement)
  ifStatement : Adds Orderly (rules .ifStatement)

variable {self : Rules} {n start : Nat} {ok : Arena → Payload (Option NodeId) → Prop}

theorem composed_addsOrderly : Composed fun _ m => Adds Orderly m :=
  adds_composed fun h a => orderly (plain_of_isSimple h a).2 a

theorem AddsOrderly.block (h : AddsOrderly self) : Adds Orderly (block self n) :=
  composed_addsOrderly.block h.statement fun _ _ => adds_done (orderly rfl)

/-- The name and the parameters that are read one after the other have no class-like in them. -/
theorem plainUnder_header {s s' s'' : State} {part : String} {name : Option NodeId}
    {parameters : List (Option NodeId)} (h : AddsOrderly self) (hs : s.Bare)
    (hn : (declaredName TokenKind.isMemberName part).run s = some (name, s'))
    (hp : (parameterList self n).run s' = some (parameters, s'')) :
    ∀ i ∈ idsOf (name :: parameters), s''.arena.PlainUnder i := by
  obtain ⟨hl, he⟩ := composed_addsPlain.declaredName s hs name s' hn
  obtain ⟨-, he'⟩ :=
    composed_addsPlain.parameterList h.ofExpressions s' (hs.later hl) parameters s'' hp
  have hname : Works (s, []) (s', one name) :=
    forms_declaredName (fun _ hk => hk) _ s [] name s' hs rfl hn
  have hparameters : Works (s', one name) (s'', one name ++ many parameters) :=
    forms_parameterList h.builds _ s' (one name) parameters s'' (hs.later hl) rfl hp
  have hfresh : Fresh s.arena.size (s'', many (name :: parameters)) :=
    Works.preserves (fun _ _ => Work.fresh) (hname.trans hparameters) (since_nil s.arena)
  rw [← nodesOf_many]
  exact plainUnder_of_extends hfresh (he.trans he')

theorem adds_functionLike {form : FunctionForm} {found : Modifiers} {doc : Option String}
    (h : AddsOrderly self) : Adds Orderly (functionLike self n form start found doc) := by
  intro s hs
  have hi : Inherited fun _ m => Adds Orderly m := adds_inherited
  have hparameters : Adds Orderly (parameterList self n) :=
    (composed_addsPlain.parameterList h.ofExpressions).orderly
  have hbody : Adds Orderly (functionBody self n) := composed_addsOrderly.functionBody h.block
  refine Adds.bindFrom hs (hi.discard hi.expect) fun _ s₁ hs₁ _ _ => ?_
  refine Adds.bindFrom hs₁ hi.accept fun byRef s₂ hs₂ _ _ => ?_
  refine composed_addsPlain.declaredName.orderly.bindFrom hs₂ fun name s₃ hs₃ hn _ => ?_
  refine hparameters.bindFrom hs₃ fun parameters s₄ hs₄ hp _ => ?_
  have hheader := plainUnder_header h hs₂ hn hp
  -- What follows adds nodes behind the header and leaves it as it is.
  refine Adds.bindFrom hs₄ hi.hintAfterColon fun type s₅ hs₅ _ htype => ?_
  refine hbody.bindFrom hs₅ fun body s₆ _ _ hbody => addsFrom_done ?_
  rintro _ _ ⟨⟩ i hi
  exact Extends.plainUnder (htype.trans hbody) (hheader i hi)

theorem AddsOrderly.ofStatements (h : AddsOrderly self) :
    OfStatements (fun _ m => Adds Orderly m) self n :=
  have hc := composed_addsOrderly
  have he : OfExpressions (fun _ m => Adds Orderly m) self :=
    { expression := h.expression.orderly
      operand := fun level => (h.operand level).orderly
      unary := h.unary.orderly
      primary := h.primary.orderly
      parentheses := fun start => (h.ofExpressions.parentheses start).orderly }
  { toOfExpressions := he
    statement := h.statement
    block := h.block
    ifStatement := hc.ifStatement he.expression h.statement h.ifStatement fun _ _ _ _ =>
      adds_done (orderly rfl)
    function := .look looks_token fun _ => adds_takeDoc.bind fun _ => adds_functionLike h
    classDeclaration := hc.classDeclaration he (fun _ _ _ => adds_functionLike h) fun _ _ _ =>
      adds_done (orderly rfl) }

theorem addsOrderly_rules (n : Nat) : AddsOrderly (rules n) := by
  induction n with
  | zero =>
    exact ⟨⟨adds_outOfSteps, fun _ => adds_outOfSteps, adds_outOfSteps, adds_outOfSteps⟩,
      builds_rules 0, adds_outOfSteps, adds_outOfSteps⟩
  | succ n ih =>
    have hc := composed_addsPlain
    have he := ih.ofExpressions
    have hoperation {payload : Payload (Option NodeId)} (start : Nat)
        (h : payload.isOperation = true) : Adds Plain (node payload start) :=
      adds_node (plain_of_isOperation h)
    exact
      { expression := .nested .pure (hc.assignment he hoperation)
        operand := fun _ => hc.operandRule he hoperation
        unary := hc.unaryRule he
        primary := hc.primaryRule he
        builds := builds_rules (n + 1)
        statement := .nested adds_advance (composed_addsOrderly.statementBody ih.ofStatements)
        ifStatement := ih.ofStatements.ifStatement (n := n) }

/-! ## Whole sources -/

/-- No class-like is in the name or the parameters of a function. -/
def HeadersPlain (a : Arena) : Prop :=
  ∀ i form d, a.payload? i = some (.function form d) →
    ∀ j ∈ idsOf (d.name :: d.parameters), a.PlainUnder j

theorem HeadersPlain.congr {a b : Arena} (ha : HeadersPlain a) (hn : b.nodes = a.nodes) :
    HeadersPlain b := by
  intro i form d hi j hj k hr
  rw [payload?_congr hn] at hi ⊢
  rw [reaches_congr hn] at hr
  exact ha i form d hi j hj k hr

/-- If there is none in its body either, no class-like is in a function. -/
theorem HeadersPlain.isClassLike_eq_false {a : Arena} (ha : HeadersPlain a) {f : NodeId}
    {form : FunctionForm} {d : FunctionDecl (Option NodeId)}
    (hf : a.payload? f = some (.function form d))
    (hbody : ∀ i ∈ d.body, ∀ j, a.Reaches i j → a.isClassLike j = false) :
    ∀ j, a.Reaches f j → a.isClassLike j = false := by
  intro j hr
  rcases Relation.ReflTransGen.cases_head hr with rfl | ⟨c, hc, hr⟩
  · exact isClassLike_of_payload? hf
  · rw [IsChild, children_of_payload? hf] at hc
    obtain ⟨_, he, rfl⟩ := List.mem_filterMap.mp hc
    have hslot : some c ∈ (d.name :: d.parameters) ++ [d.body] := he
    rcases List.mem_append.mp hslot with hheader | hlast
    · obtain ⟨q, hq, hplain⟩ := ha f form d hf c (List.mem_filterMap.mpr ⟨_, hheader, rfl⟩) j hr
      exact (isClassLike_of_payload? hq).trans hplain
    · exact hbody c (List.mem_singleton.mp hlast).symm j hr

end Grammar

open Grammar

theorem Parsed.headersPlain_ofSource (source : List Char) :
    HeadersPlain (ofSource source).arena := by
  intro i form d hi j hj
  obtain ⟨c, hc, he⟩ := allowed_ofSource (fun h a => orderly (plain_of_isSimple h a).2 a)
    (fun n => (addsOrderly_rules n).statement) hi
  exact Arena.Extends.plainUnder he (hc form d rfl j hj)

end PhpAtlas
