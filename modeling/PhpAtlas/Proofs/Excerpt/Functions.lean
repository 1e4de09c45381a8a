import PhpAtlas.Proofs.Excerpt.Matching

/-! # Functions on their own

A function with a body is read up to the closing brace of the body, and its last two
nodes come after that. So its excerpt determines its nodes.
-/

namespace PhpAtlas

/-- Documentation comments do not matter for the tokens ahead. -/
theorem TokenStream.peek_dropDoc (s : TokenStream) (n : Nat) : s.dropDoc.peek n = s.peek n := by
  have htokens {s r : TokenStream} (h : r.tokens = s.tokens) : r.peek n = s.peek n := by
    induction n generalizing s r with
    | zero => exact (List.cons.inj h).1
    | succ n ih =>
      have ha : r.ahead = s.ahead := (List.cons.inj h).2
      refine ih ?_
      simp only [next, ha]
      split
      · exact h
      · rfl
  exact htokens rfl

namespace Grammar

/-- What has been read of a function before the closing brace of its body. -/
structure OpenFunction where
  byRef : Bool
  name : Option NodeId
  parameters : List (Option NodeId)
  returnType : Option TypeHint
  /-- Where the body starts, and its statements. -/
  body : Option (Nat × List (Option NodeId))

namespace OpenFunction

/-- The declaration with a body that has been read to its end. -/
def decl (f : OpenFunction) (modifiers : Modifiers) (doc : Option String) (body : Option NodeId) :
    FunctionDecl (Option NodeId) :=
  ⟨f.name, modifiers, f.byRef, f.parameters, f.returnType, body, doc⟩

def map (number : Option NodeId → Option NodeId) (place : Nat → Nat) (f : OpenFunction) :
    OpenFunction :=
  ⟨f.byRef, number f.name, f.parameters.map number, f.returnType,
    f.body.map fun b => (place b.1, b.2.map number)⟩

end OpenFunction

variable (self : Rules)

/-- A function after its name, up to the closing brace of its body. -/
def openSignature (n : Nat) (byRef : Bool) (name : Option NodeId) : Parse OpenFunction := do
  let parameters ← parameterList self n
  let returnType ← hintAfterColon n
  if ← isAt .openBrace then
    let t ← token
    discard (expect .openBrace "\x7b")
    let statements ← statementList self .closeBrace false n
    return ⟨byRef, name, parameters, returnType, some (t.start, statements)⟩
  else return ⟨byRef, name, parameters, returnType, none⟩

/-- A function after its keyword. -/
def openFunction (n : Nat) : Parse OpenFunction := do
  let byRef ← accept .ampersand
  let name ← declaredName TokenKind.isMemberName "function name"
  openSignature self n byRef name

/-- What is left of the body. -/
def closeBody : Option (Nat × List (Option NodeId)) → Parse (Option NodeId)
  | some (start, statements) => do
      discard (expect .closeBrace "\x7d")
      done (.block statements) start
  | none => do
      expectSemicolon
      return none

variable {self : Rules} {self' : Rules} {n n' start : Nat} {form : FunctionForm}
variable {modifiers : Modifiers} {doc : Option String} {s s' r r' : State}

theorem functionLike_eq : functionLike self n form start modifiers doc = (do
    discard (expect (.keyword .functionKw) "function")
    let f ← openFunction self n
    let body ← closeBody f.body
    done (.function form (f.decl modifiers doc body)) start) := by
  unfold functionLike openFunction openSignature functionBody
  simp only [bind_assoc]
  refine bind_congr fun _ => bind_congr fun byRef => bind_congr fun name => ?_
  refine bind_congr fun parameters => bind_congr fun returnType => bind_congr fun b => ?_
  cases b with
  | true => simp only [if_true, block, closeBody, OpenFunction.decl, bind_assoc, pure_bind]
  | false =>
    simp only [Bool.false_eq_true, if_false, closeBody, OpenFunction.decl, bind_assoc, pure_bind]

theorem run_discard_expect {kind : TokenKind} {spelling : String} {a : Unit}
    (h : (Functor.discard (expect kind spelling)).run s = some (a, s')) :
    ∃ b, (expect kind spelling).run s = some (b, s') := by
  rw [run_discard] at h
  obtain ⟨⟨b, s₁⟩, hb, he⟩ := Option.map_eq_some_iff.mp h
  cases he
  exact ⟨b, hb⟩

theorem run_closeBody_of_kind (h : s.stream.current.kind = .closeBrace)
    (b : Nat × List (Option NodeId)) : (closeBody (some b)).run s =
      some (some s.arena.size, s.next.noded (.block b.2) b.1) := by
  rw [closeBody, run_bind_of_eq (run_discard_expect_of_kind h)]
  rfl

theorem kind_of_closeBody {b : Nat × List (Option NodeId)} {body : Option NodeId}
    (h : (closeBody (some b)).run s = some (body, s')) (hc : s'.Clean) :
    s.stream.current.kind = .closeBrace := by
  obtain ⟨_, s₁, h₁, h₂⟩ := run_bind_eq_some h
  cases h₂
  obtain ⟨_, h₁⟩ := run_discard_expect h₁
  exact kind_of_expect h₁ hc

theorem body_of_closeBody {b : Option (Nat × List (Option NodeId))} {body : NodeId}
    (h : (closeBody b).run s = some (some body, s')) : ∃ c, b = some c := by
  cases b with
  | none =>
    obtain ⟨_, _, _, h⟩ := run_bind_eq_some h
    cases h
  | some c => exact ⟨c, rfl⟩

/-- The state with no documentation comment pending. -/
abbrev State.dropDoc (s : State) : State := { s with stream := s.stream.dropDoc }

/-- A function is read to the end of its body before it is a node. -/
theorem run_functionDeclaration {i : Option NodeId}
    (h : (functionDeclaration self n).run s = some (i, s'))
    (hk : s.stream.current.kind = .keyword .functionKw) :
    ∃ f body s₁ s₂, (openFunction self n).run s.dropDoc.next =
        some (f, s₁) ∧ (closeBody f.body).run s₁ = some (body, s₂) ∧ i = some s₂.arena.size ∧
      s' = s₂.noded (.function .function (f.decl .empty s.stream.doc body)) s.stream.current.start := by
  have hrun : (functionLike self n .function s.stream.current.start .empty s.stream.doc).run
      s.dropDoc = some (i, s') := h
  rw [functionLike_eq] at hrun
  obtain ⟨_, s₀, h₀, hrun⟩ := run_bind_eq_some hrun
  obtain ⟨_, h₀⟩ := run_discard_expect h₀
  have he := h₀.symm.trans (@run_expect_of_kind s.dropDoc _ _ hk)
  cases he
  obtain ⟨f, s₁, h₁, hrun⟩ := run_bind_eq_some hrun
  obtain ⟨body, s₂, h₂, hrun⟩ := run_bind_eq_some hrun
  cases hrun
  exact ⟨f, body, s₁, s₂, h₁, h₂, rfl, rfl⟩

namespace Pairing

variable {L : Pairing}

theorem follows_openSignature (h : L.FollowsRules self self') (byRef : Bool) (name : Option NodeId) :
    L.Follows (openSignature self n byRef name) (OpenFunction.map L.ids L.place)
      (openSignature self' n' byRef (L.ids name)) := by
  refine (follows_parameterList h).bind fun parameters => follows_hintAfterColon.bind fun type t => ?_
  refine .isAt (.ite (fun _ => .token ?_) fun _ => .pure)
  refine (follows_expect.discard t).bind fun _ => (follows_statementList h).bind fun _ => .pure

theorem follows_openFunction (h : L.FollowsRules self self') :
    L.Follows (openFunction self n) (OpenFunction.map L.ids L.place) (openFunction self' n') :=
  follows_accept.bind fun byRef => follows_declaredName.bind fun name =>
    follows_openSignature h byRef name

end Pairing

/-- A function has been read up to the brace that closes its body. -/
structure Unclosed (n : Nat) (s : State) (f : OpenFunction) (b : Nat × List (Option NodeId))
    (s₁ : State) : Prop where
  keyword : s.stream.current.kind = .keyword .functionKw
  run : (openFunction (rules n) n).run s.dropDoc.next = some (f, s₁)
  body : f.body = some b
  clean : s₁.Clean
  brace : s₁.stream.current.kind = .closeBrace

/-- The state after the brace, with nodes for the body and for the function. -/
def OpenFunction.closed (f : OpenFunction) (b : Nat × List (Option NodeId)) (s s₁ : State) : State :=
  (s₁.next.noded (.block b.2) b.1).noded
    (.function .function (f.decl .empty s.stream.doc (some s₁.arena.size))) s.stream.current.start

variable {f : OpenFunction} {b : Nat × List (Option NodeId)} {s₁ : State} {ts rest inner : List Token}

namespace Pairing

variable {L : Pairing}

theorem keeps_openSignature {byRef : Bool} {name : Option NodeId} :
    L.Keeps (openSignature (rules n) n byRef name) := by
  have h : L.FollowsRules (rules n) (rules n) := follows_rules
  have hs : L.Follows (openSignature (rules n) n byRef name) (OpenFunction.map L.ids L.place)
      (openSignature (rules n) n byRef (L.ids name)) := follows_openSignature h byRef name
  exact hs.keeps

theorem keeps_openFunction : L.Keeps (openFunction (rules n) n) :=
  inherited_keeps.bind inherited_keeps.accept fun _ => follows_declaredName.keeps.bind fun _ =>
    keeps_openSignature

theorem keeps_closeBody {b : Option (Nat × List (Option NodeId))} : L.Keeps (closeBody b) := by
  cases b with
  | none => exact inherited_keeps.bind inherited_keeps.expectSemicolon fun _ => inherited_keeps.pure _
  | some b =>
    exact inherited_keeps.bind (inherited_keeps.discard inherited_keeps.expect) fun _ =>
      follows_done.keeps

end Pairing

/-- A rule for functions that reports nothing has read the keyword. -/
theorem keyword_of_functionDeclaration {i : Option NodeId}
    (h : (functionDeclaration (rules n) n).run s = some (i, s')) (hc : s'.Clean) :
    s.stream.current.kind = .keyword .functionKw := by
  have hrun : (functionLike (rules n) n .function s.stream.current.start .empty s.stream.doc).run
      s.dropDoc = some (i, s') := h
  rw [functionLike_eq] at hrun
  obtain ⟨_, s₀, h₀, hrun⟩ := run_bind_eq_some hrun
  obtain ⟨_, h₀⟩ := run_discard_expect h₀
  obtain ⟨hc₀, -⟩ := Pairing.later_of_keeps (fun ts => Pairing.keeps_openFunction.bind fun f =>
    Pairing.keeps_closeBody.bind fun _ => Pairing.follows_done.keeps) hrun hc
  exact @kind_of_expect s.dropDoc _ _ _ _ h₀ hc₀

/-- A function with a body is read up to a brace, and then its last two nodes are added. -/
theorem exists_unclosed {i : NodeId}
    (hrun : (functionDeclaration (rules n) n).run s = some (some i, s')) (hclean : s'.Clean)
    (hbody : ∃ form d, s'.arena.payload? i = some (.function form d) ∧ d.body.isSome = true) :
    ∃ f b s₁, Unclosed n s f b s₁ ∧ i = s₁.arena.size + 1 ∧ s' = f.closed b s s₁ := by
  have hk := keyword_of_functionDeclaration hrun hclean
  obtain ⟨f, body, s₁, s₂, h₁, h₂, hi, rfl⟩ := run_functionDeclaration hrun hk
  obtain rfl := Option.some.inj hi
  have hclean₂ : s₂.Clean := hclean
  obtain ⟨b, hb⟩ : ∃ b, f.body = some b := by
    obtain ⟨form, d, hp, hd⟩ := hbody
    rw [State.payload?_noded, if_pos rfl] at hp
    cases hp
    obtain ⟨j, hj⟩ := Option.isSome_iff_exists.mp hd
    obtain rfl : body = some j := hj
    exact body_of_closeBody h₂
  rw [hb] at h₂
  have hk₁ := kind_of_closeBody h₂ hclean₂
  cases h₂.symm.trans (run_closeBody_of_kind hk₁ b)
  exact ⟨f, b, s₁, ⟨hk, h₁, hb, hclean, hk₁⟩, State.size_noded, rfl⟩

namespace Unclosed

variable (h : Unclosed n s f b s₁)

include h

variable (hclosed : Token.Closed s.stream.tokens)

include hclosed

/-- What is left at the brace is left after the keyword. -/
theorem exists_inner : ∃ inner, s.stream.ahead = inner ++ s₁.stream.tokens := by
  obtain ⟨-, inner, hi⟩ :=
    Pairing.later_of_keeps (fun _ => Pairing.keeps_openFunction) h.run h.clean
  refine ⟨inner, hi.trans (@Excerpt.tokens_next_of_ahead s.stream.dropDoc fun ha => ?_) |>.symm⟩
  have ha : s.stream.ahead = [] := ha
  have hc : Token.Closed [s.stream.current] := by rwa [TokenStream.tokens, ha] at hclosed
  exact absurd (h.keyword.symm.trans hc) (by decide)

theorem later : s₁.stream.tokens <:+ s.stream.tokens := by
  obtain ⟨inner, hi⟩ := h.exists_inner hclosed
  exact List.IsSuffix.trans ⟨inner, hi.symm⟩ (List.suffix_cons _ _)

theorem ahead_ne_nil : s₁.stream.ahead ≠ [] := by
  intro ha
  have hc := hclosed.of_suffix (h.later hclosed) (List.cons_ne_nil _ _)
  rw [TokenStream.tokens, ha] at hc
  exact absurd (h.brace.symm.trans hc) (by decide)

end Unclosed

theorem isMemberName_of_declaredName {fits : TokenKind → Bool} {part : String}
    {name : Option NodeId} (h : (declaredName fits part).run s = some (name, s')) (hc : s'.Clean) :
    fits s.stream.current.kind = true := by
  by_contra hk
  have hnone : (identifierOf fits).run s = some (none, s) := by
    rw [identifierOf, looks_token.run_bind, if_neg hk]
    rfl
  rw [declaredName, run_bind_of_eq hnone] at h
  obtain ⟨_, s₁, hr, h⟩ := run_bind_eq_some h
  cases h
  exact not_clean_report hr hc

/-- The name of a function comes next, or behind a reference. -/
theorem isMemberName_of_openFunction (h : (openFunction (rules n) n).run s = some (f, s'))
    (hc : s'.Clean) :
    (if s.stream.current.kind == .ampersand then (s.stream.peek 1).kind
      else s.stream.current.kind).isMemberName = true := by
  obtain ⟨byRef, s₁, h₁, h⟩ := run_bind_eq_some h
  obtain ⟨name, s₂, h₂, h⟩ := run_bind_eq_some h
  obtain ⟨hc₂, -⟩ := Pairing.later_of_keeps (fun _ => Pairing.keeps_openSignature) h hc
  have hname := isMemberName_of_declaredName h₂ hc₂
  rw [accept, (looks_isAt _).run_bind] at h₁
  split at h₁
  · next ha =>
    cases h₁
    rwa [if_pos ha]
  · next ha =>
    cases h₁
    rwa [if_neg ha]

namespace Excerpt

variable {X : Excerpt}

/-- A run stands where the excerpt starts in the other source, and has read nothing of note before. -/
structure Starts (X : Excerpt) (s r : State) : Prop where
  tokens : ∃ inner, s.stream.ahead = inner ++ X.last :: X.after ∧ r.stream.tokens =
    ({ s.stream.current with doc := none } :: inner ++ [X.last]).map X.shift.token ++ X.rest
  doc : r.stream.doc = none
  depth : r.depth ≤ s.depth
  clean : r.Clean
  empty : r.arena.size = 0

theorem Starts.current (h : X.Starts s r) :
    r.stream.current = X.shift.token { s.stream.current with doc := none } := by
  obtain ⟨inner, -, hr⟩ := h.tokens
  exact TokenStream.current_of_tokens hr

/-- After their keywords two functions are in step. -/
theorem Starts.afterKeyword (h : X.Starts s r) (ho : X.origin = s.stream.current.start)
    (hbase : X.base = s.arena.size) (hlaid : Token.Laid s.stream.tokens) :
    X.Matches s.dropDoc.next r.dropDoc.next := by
  have hahead : X.Abreast s.stream.ahead r.stream.ahead := by
    obtain ⟨inner, hs, hr⟩ := h.tokens
    refine ⟨⟨inner, hs, (List.cons.inj hr).2⟩, fun t ht => ?_⟩
    exact ho ▸ hlaid.start_le t (List.mem_cons_of_mem _ ht)
  have hmirrors : X.Mirrors s.dropDoc.next r.dropDoc.next :=
    mirrors_of_empty hbase h.empty (congrArg Token.stop h.current)
  exact { hmirrors with
    abreast := @Abreast.next X s.stream.dropDoc r.stream.dropDoc hahead
    doc := @Abreast.doc_next X s.stream.dropDoc r.stream.dropDoc hahead rfl
    depth := h.depth
    clean := h.clean }

variable {d : FunctionDecl (Option NodeId)}

/-- A documentation comment makes no other difference. -/
theorem Mirrors.copies (h : X.Mirrors (s.noded (.function form { d with doc := none }) start) r) :
    X.Copies s.arena.size (s.noded (.function form d) start).arena r.arena where
  payload j hj _ := by
    rw [h.payload j hj, State.payload?_noded, State.payload?_noded]
    by_cases hi : j = s.arena.size
    · rw [if_pos hi, if_pos hi]
      simp only [Option.map_some, if_pos hi]
      rfl
    · simp only [if_neg hi]
  span j hj _ := by
    rw [h.span j hj, State.span?_noded, State.span?_noded]

end Excerpt

theorem OpenFunction.size_closed : (f.closed b s s₁).arena.size = s₁.arena.size + 1 + 1 := by
  rw [closed, State.size_noded, State.size_noded]
  rfl

/-- A function ends with the brace. -/
theorem OpenFunction.span?_closed (hlaid : Token.Laid s.stream.tokens)
    (hl : s₁.stream.tokens <:+ s.stream.tokens) :
    (f.closed b s s₁).arena.span? (s₁.arena.size + 1) =
      some ⟨s.stream.current.start, s₁.stream.current.stop⟩ := by
  have hlast := hl.subset List.mem_cons_self
  have hle := (hlaid.start_le _ hlast).trans (hlaid.filled _ hlast).start_le_stop
  have hsize : s₁.arena.size + 1 = (s₁.next.noded (.block b.2) b.1).arena.size :=
    (@State.size_noded s₁.next _ _).symm
  rw [closed, State.span?_noded, if_pos hsize]
  exact congrArg (fun stop => some (Span.mk s.stream.current.start stop)) (max_eq_left hle)

namespace Unclosed

variable (h : Unclosed n s f b s₁) (hahead : s₁.stream.ahead ≠ []) {target : Nat}

/-- The excerpt from the keyword of a function to its closing brace. -/
def excerpt (target : Nat) (rest : List Token) : Excerpt :=
  ⟨s.stream.current.start, target, s.arena.size, s₁.stream.current, s₁.stream.ahead, h.brace, hahead,
    rest⟩

variable (hlaid : Token.Laid s.stream.tokens)

include hlaid

variable {a : Option NodeId} (hr : (h.excerpt hahead target rest).Starts s r)

include hr

/-- In the other source the function after the keyword is told from a closure in the same way. -/
theorem isAtFunctionName : (if (r.stream.peek 1).kind == .ampersand then (r.stream.peek 2).kind
    else (r.stream.peek 1).kind).isMemberName = true := by
  have hmatches := hr.afterKeyword rfl rfl hlaid
  have hname := isMemberName_of_openFunction h.run h.clean
  have hcurrent := (Excerpt.pairing _).current hmatches
  have hone : r.dropDoc.next.stream.current = r.stream.peek 1 := TokenStream.peek_dropDoc r.stream 1
  have htwo : r.dropDoc.next.stream.peek 1 = r.stream.peek 2 := TokenStream.peek_dropDoc r.stream 2
  rw [← hone, ← htwo, hcurrent]
  split at hname
  · next ha =>
    have hinner : s.dropDoc.next.stream.current.kind.Inner :=
      eq_of_beq ha ▸ TokenKind.inner_ampersand
    rw [(Excerpt.pairing _).ahead hmatches hinner]
    exact (congrArg TokenKind.isMemberName (if_pos ha)).trans hname
  · next ha => exact (congrArg TokenKind.isMemberName (if_neg ha)).trans hname

/-- A function that has been read without a report is the same in every source that has its tokens,
up to what is documented in front of it. -/
theorem copies (hrest : rest ≠ []) (hrun : (functionDeclaration (rules n') n').run r = some (a, r')) :
    a = some ((h.excerpt hahead target rest).shift.number (s₁.arena.size + 1)) ∧ r'.Clean ∧
      r'.stream.tokens = rest ∧ (h.excerpt hahead target rest).Copies (s₁.arena.size + 1)
        (f.closed b s s₁).arena r'.arena := by
  let X := h.excerpt hahead target rest
  have hmatches := hr.afterKeyword rfl rfl hlaid
  have hcur := hr.current
  have hk : r.stream.current.kind = .keyword .functionKw := hcur ▸ h.keyword
  obtain ⟨f', body', r₁, r₂, h₁', h₂', rfl, rfl⟩ := run_functionDeclaration hrun hk
  obtain ⟨-, hrel⟩ := @Pairing.follows_openFunction (rules n) (rules n') n n' X.pairing
    Pairing.follows_rules _ _ f s₁ rfl h.run ⟨h.clean, List.suffix_rfl⟩
  obtain ⟨rfl, hmatch⟩ := hrel _ f' r₁ hmatches h₁'
  have hk₁' : r₁.stream.current.kind = .closeBrace :=
    (congrArg Token.kind hmatch.abreast.current).trans h.brace
  rw [OpenFunction.map, h.body] at h₂'
  cases h₂'.symm.trans (run_closeBody_of_kind hk₁' _)
  -- The brace is read in both runs, and the nodes of the body and of the function are added.
  have hmirrors : X.Mirrors s₁.next r₁.next :=
    { hmatch.toMirrors with readTo := congrArg Token.stop hmatch.abreast.current }
  have hblock := hmirrors.noded (.block b.2) b.1
  have hfinal := hblock.noded (.function .function (f.decl .empty none (some s₁.arena.size)))
    s.stream.current.start
  have hbody' : X.shift.ids (some s₁.arena.size) = some r₁.arena.size :=
    congrArg some hmirrors.size.symm
  have hrest' : r₁.stream.ahead = rest := (List.cons.inj hmatch.abreast.rest).2
  rw [hr.doc, hcur, ← hbody']
  refine ⟨congrArg some (hblock.size.trans ?_), hmatch.clean, ?_, ?_⟩
  · rw [State.size_noded]
    rfl
  · exact (Excerpt.tokens_next_of_ahead (hrest' ▸ hrest)).trans hrest'
  · have := Excerpt.Mirrors.copies (d := f.decl .empty s.stream.doc (some s₁.arena.size)) hfinal
    rwa [State.size_noded] at this

end Unclosed

end Grammar

end PhpAtlas
