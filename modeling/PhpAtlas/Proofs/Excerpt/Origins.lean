import PhpAtlas.Proofs.Brackets.Statements
import PhpAtlas.Proofs.Building.Nesting
import PhpAtlas.Proofs.Excerpt.Functions

/-! # Where functions are read

A function in a source without reports has been read by the rule for functions, inside
of a statement. What is read later adds nodes and changes none but for their parents.
-/

namespace PhpAtlas

/-- What is declared where the construct is a function that is no method. -/
def Payload.ownFunction? {α : Type} : Payload α → Option (FunctionDecl α)
  | .function .function d => some d
  | _ => none

def Payload.isOwnFunction {α : Type} (payload : Payload α) : Bool := payload.ownFunction?.isSome

theorem Payload.eq_of_ownFunction? {α : Type} {payload : Payload α} {d : FunctionDecl α}
    (h : payload.ownFunction? = some d) : payload = .function .function d := by
  unfold ownFunction? at h
  split at h
  · exact congrArg _ (Option.some.inj h)
  · cases h

theorem Payload.isOwnFunction_of_isSimple {α : Type} {payload : Payload α}
    (h : payload.isSimple = true) : payload.isOwnFunction = false := by
  cases payload <;> first | rfl | cases h

theorem Payload.isOwnFunction_of_isOperation {α : Type} {payload : Payload α}
    (h : payload.isOperation = true) : payload.isOwnFunction = false := by
  cases payload <;> first | rfl | cases h

namespace Arena

variable {a b c : Arena} {payload : Payload (Option NodeId)} {start stop : Nat}

/-- `b` has the nodes of `a` and more. -/
structure PrefixOf (a b : Arena) : Prop where
  size : a.size ≤ b.size
  payload : ∀ i < a.size, b.payload? i = a.payload? i
  span : ∀ i < a.size, b.span? i = a.span? i

theorem PrefixOf.refl (a : Arena) : a.PrefixOf a := ⟨le_rfl, fun _ _ => rfl, fun _ _ => rfl⟩

theorem PrefixOf.trans (h : a.PrefixOf b) (h' : b.PrefixOf c) : a.PrefixOf c where
  size := h.size.trans h'.size
  payload i hi := (h'.payload i (hi.trans_le h.size)).trans (h.payload i hi)
  span i hi := (h'.span i (hi.trans_le h.size)).trans (h.span i hi)

theorem prefixOf_added : a.PrefixOf (a.added payload start stop) where
  size := size_added ▸ Nat.le_succ _
  payload _ hi := payload?_added.trans (if_neg hi.ne)
  span _ hi := span?_added.trans (if_neg hi.ne)

theorem PrefixOf.children_eq (h : a.PrefixOf b) {i : NodeId} (hi : i < a.size) :
    b.children i = a.children i := by
  obtain ⟨n, hn⟩ := exists_node? hi
  have hp := payload?_of_node? hn
  rw [children_of_payload? hp, children_of_payload? ((h.payload i hi).trans hp)]

/-- What is under the nodes stays under them. -/
theorem Since.of_reaches_prefix {lo : Nat} {ids : List NodeId} {i j : NodeId} (hs : a.Since lo ids)
    (h : a.PrefixOf b) (hi : i ∈ ids) (hr : b.Reaches i j) : lo ≤ j ∧ j < a.size := by
  induction hr with
  | refl => exact hs.within i hi
  | tail _ hc ih =>
    rw [IsChild, h.children_eq ih.2] at hc
    exact hs.child _ ih.1 _ hc

end Arena

namespace Grammar

variable {α β : Type} {d n : Nat} {s s' s₁ : State} {m : Parse α} {f : α → Parse β}
variable {ts us : List Token} {a b : Arena} {i : NodeId} {payload : Payload (Option NodeId)}
variable {start : Nat}

/-- The function has been read by its rule, inside of a statement and without a report. -/
def ReadFrom (ts : List Token) (b : Arena) (i : NodeId) : Prop :=
  ∃ n s s', (functionDeclaration (rules n) n).run s = some (some i, s') ∧ s'.Clean ∧ 0 < s.depth ∧
    s.stream.tokens <:+ ts ∧ s'.arena.PrefixOf b

theorem ReadFrom.mono (h : ReadFrom ts a i) (ht : ts <:+ us) (hb : a.PrefixOf b) :
    ReadFrom us b i := by
  obtain ⟨n, s, s', hr, hc, hd, hs, ha⟩ := h
  exact ⟨n, s, s', hr, hc, hd, List.IsSuffix.trans hs ht, ha.trans hb⟩

/-- Between the states nothing is reported, and the functions that are added have been read by their
rule. -/
structure Attributed (s s' : State) : Prop where
  clean : s.Clean
  later : Later s s'
  kept : s.arena.PrefixOf s'.arena
  functions : ∀ i payload, s.arena.size ≤ i → s'.arena.payload? i = some payload →
    payload.isOwnFunction = true → ReadFrom s.stream.tokens s'.arena i

theorem Attributed.of_eq (hc : s.Clean) (hl : Later s s') (ha : s'.arena = s.arena) :
    Attributed s s' where
  clean := hc
  later := hl
  kept := ha ▸ .refl _
  functions _ _ hi hp _ := absurd (Arena.lt_size_of_payload? (ha ▸ hp)) (not_lt.mpr hi)

theorem Attributed.trans (h : Attributed s s₁) (h' : Attributed s₁ s') : Attributed s s' where
  clean := h.clean
  later := h.later.trans h'.later
  kept := h.kept.trans h'.kept
  functions i payload hi hp hf := by
    rcases Nat.lt_or_ge i s₁.arena.size with hlt | hge
    · rw [h'.kept.payload i hlt] at hp
      exact (h.functions i payload hi hp hf).mono List.suffix_rfl h'.kept
    · exact (h'.functions i payload hge hp hf).mono h.later (.refl _)

theorem Attributed.noded (h : Attributed s s₁)
    (hn : payload.isOwnFunction = true →
      ReadFrom s.stream.tokens (s₁.noded payload start).arena s₁.arena.size) :
    Attributed s (s₁.noded payload start) where
  clean := h.clean
  later := h.later
  kept := h.kept.trans Arena.prefixOf_added
  functions i p hi hp hf := by
    rw [State.payload?_noded] at hp
    split at hp
    · next he =>
      cases hp
      exact he ▸ hn hf
    · exact (h.functions i p hi hp hf).mono List.suffix_rfl Arena.prefixOf_added

/-- The rule does so inside of `d` statements and expressions. -/
def Attributes (d : Nat) (m : Parse α) : Prop :=
  ∀ s a s', d ≤ s.depth → m.run s = some (a, s') →
    s'.depth = s.depth ∧ (s'.Clean → Attributed s s')

theorem Attributes.mono {d' : Nat} (h : Attributes d m) (hd : d ≤ d') : Attributes d' m :=
  fun s a s' hs => h s a s' (hd.trans hs)

theorem Attributes.bind (hm : Attributes d m) (hf : ∀ a, Attributes d (f a)) :
    Attributes d (m >>= f) := by
  intro s b s'' hd hr
  obtain ⟨a, s', hr, hr'⟩ := run_bind_eq_some hr
  obtain ⟨hdepth, h⟩ := hm s a s' hd hr
  obtain ⟨hdepth', h'⟩ := hf a s' b s'' (hd.trans hdepth.ge) hr'
  refine ⟨hdepth'.trans hdepth, fun hc => ?_⟩
  exact (h (h' hc).clean).trans (h' hc)

theorem attributes_of_eq (h : ∀ s a s', m.run s = some (a, s') → s'.depth = s.depth ∧
    (s'.Clean → s.Clean) ∧ Later s s' ∧ s'.arena = s.arena) : Attributes d m := by
  intro s a s' _ hr
  obtain ⟨hd, hc, hl, ha⟩ := h s a s' hr
  exact ⟨hd, fun hclean => .of_eq (hc hclean) hl ha⟩

theorem attributes_node (h : payload.isOwnFunction = false) :
    Attributes d (node payload start) := by
  intro s a s' _ hr
  obtain rfl : s' = s.noded payload start := by cases hr; rfl
  refine ⟨rfl, fun hc => ?_⟩
  have hs : Attributed s s := .of_eq hc (Later.refl s) rfl
  exact hs.noded fun hf => Bool.noConfusion (h.symm.trans hf)

theorem attributes_done (h : payload.isOwnFunction = false) :
    Attributes d (done payload start) :=
  (attributes_node h).bind fun _ => attributes_of_eq fun s _ _ hr => by
    cases hr
    exact ⟨rfl, id, Later.refl s, rfl⟩

theorem inherited_attributes : Inherited fun _ m => Attributes d m where
  pure _ := attributes_of_eq fun s _ _ hr => by cases hr; exact ⟨rfl, id, Later.refl s, rfl⟩
  bind := .bind
  look hm := attributes_of_eq fun s _ _ hr => by
    rw [hm s] at hr
    cases hr
    exact ⟨rfl, id, Later.refl s, rfl⟩
  outOfSteps := fun _ _ _ _ hr => nomatch hr
  advance := attributes_of_eq fun s _ _ hr => by
    cases hr
    exact ⟨rfl, id, s.stream.tokens_next_suffix, rfl⟩
  report _ := attributes_of_eq fun s _ _ hr => by
    obtain ⟨hl, hd, ha⟩ := later_report hr
    exact ⟨hd, fun hc => absurd hc (not_clean_report hr), hl, ha⟩

theorem composed_attributes : Composed fun _ m => Attributes d m where
  __ := inherited_attributes
  takeDoc := attributes_of_eq fun s _ _ hr => by cases hr; exact ⟨rfl, id, .of_eq rfl, rfl⟩
  node h := attributes_node (Payload.isOwnFunction_of_isSimple (Payload.isSimple_of_isElementary h))
  property _ _ := attributes_node rfl

theorem Attributes.nested {recover : Parse Unit} {rule : Parse (Option NodeId)}
    (hrecover : Attributes 0 recover) (h : Attributes 1 rule) :
    Attributes 0 (nested recover rule) := by
  intro s a s' _ hr
  rcases run_nested_eq_some hr with ⟨-, s₁, s₂, hreport, hback, rfl⟩ | ⟨s₁, -, hrule, rfl⟩
  · obtain ⟨-, hd, -⟩ := later_report hreport
    obtain ⟨hd', hc⟩ := hrecover _ () s' (Nat.zero_le _) hback
    refine ⟨hd'.trans (congrArg (· - 1) hd), fun hclean => ?_⟩
    have hclean₁ : s₁.Clean := (hc hclean).clean
    exact absurd hclean₁ (not_clean_report hreport)
  · obtain ⟨hd, hc⟩ := h { s with depth := s.depth + 1 } a s₁ (Nat.succ_pos s.depth) hrule
    refine ⟨congrArg (· - 1) hd, fun hclean => ?_⟩
    have ha := hc hclean
    exact ⟨ha.clean, ha.later, ha.kept, ha.functions⟩

/-! ## Rules -/

theorem attributes_functionDeclaration
    (h : ∀ doc, Attributes 1 (functionDecl (rules n) n .empty doc)) :
    Attributes 1 (functionDeclaration (rules n) n) := by
  intro s a s' hd hr
  have hlike : (functionLike (rules n) n .function s.stream.current.start .empty s.stream.doc).run
      s.dropDoc = some (a, s') := hr
  rw [functionLike_eq_decl] at hlike
  obtain ⟨d, s₁, hparts, hdone⟩ := run_bind_eq_some hlike
  obtain ⟨hdepth, ha⟩ := h _ s.dropDoc d s₁ hd hparts
  cases hdone
  refine ⟨hdepth, fun hclean => ?_⟩
  have hnoded : Attributed s.dropDoc (s₁.noded (.function .function d) s.stream.current.start) :=
    (ha hclean).noded fun _ => ⟨n, s, _, hr, hclean, hd, List.suffix_rfl, .refl _⟩
  exact ⟨hnoded.clean, hnoded.later, hnoded.kept, hnoded.functions⟩

theorem attributes_rules (n : Nat) (goal : Goal) : Attributes 0 (rules n goal) := by
  induction n generalizing goal with
  | zero => exact inherited_attributes.outOfSteps
  | succ n ih =>
    have hc {d : Nat} := composed_attributes (d := d)
    have he {d : Nat} (goal : Goal) : Attributes d (rules n goal) := (ih goal).mono (Nat.zero_le d)
    have hes {d : Nat} : OfExpressions (fun _ m => Attributes d m) (rules n) :=
      { expression := he .expression
        operand := fun level => he (.operand level)
        unary := he .unary
        primary := he .primary
        parentheses := fun _ => hc.parentheses (he .expression) fun _ => attributes_done rfl }
    have hoperation {d : Nat} {payload : Payload (Option NodeId)} (start : Nat)
        (h : payload.isOperation = true) : Attributes d (node payload start) :=
      attributes_node (Payload.isOwnFunction_of_isOperation h)
    have hblock : Attributes 1 (block (rules n) n) :=
      hc.block (he .statement) fun _ _ => attributes_done rfl
    have hif {d : Nat} : Attributes d (ifStatement (rules n)) :=
      hc.ifStatement (he .expression) (he .statement) (he .ifStatement) fun _ _ _ _ =>
        attributes_done rfl
    have hs : OfStatements (fun _ m => Attributes 1 m) (rules n) n :=
      { toOfExpressions := hes
        statement := he .statement
        block := hblock
        ifStatement := hif
        function := attributes_functionDeclaration fun _ => hc.functionDecl hes hblock
        classDeclaration := hc.classDeclaration hes
          (fun _ _ _ => hc.functionLike hes hblock fun _ => attributes_done rfl)
          fun _ _ _ => attributes_done rfl }
    cases goal with
    | expression => exact .nested (inherited_attributes.pure ()) (hc.assignment hes hoperation)
    | operand level => exact hc.operandRule hes hoperation
    | unary => exact hc.unaryRule hes
    | primary => exact hc.primaryRule hes
    | statement => exact .nested inherited_attributes.advance (hc.statementBody hs)
    | ifStatement => exact hif

/-- A function of an accepted source has been read by its rule, on tokens of the source. -/
theorem readFrom_ofSource {source : List Char} (h : (Parsed.ofSource source).diagnostics = [])
    {d : FunctionDecl (Option NodeId)}
    (hi : (Parsed.ofSource source).arena.payload? i = some (.function .function d)) :
    ReadFrom (Token.ofSource source) (Parsed.ofSource source).arena i := by
  obtain ⟨statements, s, hlist, hclean, -, he⟩ := clean_statements h
  have hstatements : Attributes 0 (statementList (rules (Grammar.bound source.length)) .endOfFile
      false (Grammar.bound source.length)) :=
    composed_attributes.statementList (attributes_rules _ .statement)
  obtain ⟨-, ha⟩ := hstatements _ _ s (Nat.zero_le _) hlist
  rw [he] at hi ⊢
  dsimp only at hi
  rw [Arena.payload?_added] at hi
  split at hi
  · cases hi
  · have hread := (ha hclean).functions i _ (Nat.zero_le i) hi rfl
    rw [tokens_atFirst] at hread
    exact hread.mono List.suffix_rfl Arena.prefixOf_added

end Grammar

end PhpAtlas
