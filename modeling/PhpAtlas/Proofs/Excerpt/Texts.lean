import PhpAtlas.Proofs.Building.Opened
import PhpAtlas.Proofs.Excerpt.Copies
import PhpAtlas.Proofs.Excerpt.Origins
import PhpAtlas.Proofs.Token.SlicedSources
import PhpAtlas.Resolve.Cache

/-! # Texts of functions

The text that a function with a body covers is a function on its own: neither the
scanner nor the rules have looked at what is around it.
-/

namespace PhpAtlas

namespace Grammar

variable {n : Nat} {s s₁ s' : State} {f : OpenFunction} {b : Nat × List (Option NodeId)}
variable {i : NodeId} {rest : List Token} {cs : List Char} {X : Excerpt}

theorem Excerpt.Copies.mono {a a' b b' : Arena} (h : X.Copies i a b) (hi : i < a.size)
    (ha : a.PrefixOf a') (hb : b.PrefixOf b') : X.Copies i a' b' := by
  have hlt (j : NodeId) (hj : X.base ≤ j) (hji : j ≤ i) : X.shift.number j < b.size := by
    obtain ⟨n, hn⟩ := Arena.exists_node? (hji.trans_lt hi)
    exact Arena.lt_size_of_payload? (h.payload_eq hj hji (Arena.payload?_of_node? hn))
  constructor
  · intro j hj hji
    rw [hb.payload _ (hlt j hj hji), ha.payload j (hji.trans_lt hi), h.payload j hj hji]
  · intro j hj hji
    rw [hb.span _ (hlt j hj hji), ha.span j (hji.trans_lt hi), h.span j hj hji]

/-! ## One run -/

/-- Everything under a function has been added since its keyword. -/
theorem since_functionDeclaration
    (h : (functionDeclaration (rules n) n).run s = some (some i, s')) (hc : s'.Clean) (hb : s.Bare) :
    s'.arena.Since s.arena.size [i] := by
  have hk := keyword_of_functionDeclaration h hc
  have hw : Works (s, []) (s', Item.one (some i)) :=
    formsAt_functionDeclaration (builds_rules n) hk s [] (some i) s' hb rfl h
  exact hw.preserves (fun _ _ => Work.fresh) (Arena.since_nil s.arena)

/-- Before the function the source of an excerpt has an opening tag and nothing else. -/
theorem starts_opened (hd : 0 < s.depth) {inner : List Token}
    (hs : s.stream.ahead = inner ++ X.last :: X.after) (ht : (State.opened cs).stream.tokens =
      ({ s.stream.current with doc := none } :: inner ++ [X.last]).map X.shift.token ++ X.rest) :
    X.Starts s { State.opened cs with depth := 1 } where
  tokens := ⟨inner, hs, ht⟩
  doc := doc_opened (congrArg Token.doc (TokenStream.current_of_tokens ht))
  depth := hd
  clean := ⟨rfl, rfl⟩
  empty := rfl

/-! ## The source of a function -/

theorem run_statement_function {r : Option NodeId} (hk : s.stream.current.kind = .keyword .functionKw)
    (hname : (if (s.stream.peek 1).kind == .ampersand then (s.stream.peek 2).kind
      else (s.stream.peek 1).kind).isMemberName = true) (hd : s.depth < maxDepth)
    (h : (rules (n + 1) .statement).run s = some (r, s')) :
    ∃ s₁, (functionDeclaration (rules n) n).run { s with depth := s.depth + 1 } = some (r, s₁) ∧
      s' = { s₁ with depth := s₁.depth - 1 } := by
  rcases run_nested_eq_some h with ⟨hdeep, -⟩ | ⟨s₁, -, hbody, rfl⟩
  · omega
  · refine ⟨s₁, ?_, rfl⟩
    rw [statementBody, looks_token.run_bind] at hbody
    simp only [hk] at hbody
    rw [looks_isAtFunctionName_eq.run_bind, if_pos hname] at hbody
    exact hbody

/-- A source with the tokens of a function behind an opening tag is read as the function. -/
theorem Unclosed.parsed (h : Unclosed n s f b s₁) (hahead : s₁.stream.ahead ≠ [])
    (hlaid : Token.Laid s.stream.tokens) (hd : 0 < s.depth) {inner : List Token} {e : Token}
    (he : e.kind = .endOfFile) (hs : s.stream.ahead = inner ++ s₁.stream.tokens)
    (ht : (State.opened cs).stream.tokens =
      ({ s.stream.current with doc := none } :: inner ++ [s₁.stream.current]).map
        (h.excerpt hahead 6 [e]).shift.token ++ [e]) :
    ∃ p X, p = Parsed.ofSource ("<?php ".toList ++ cs) ∧ X = h.excerpt hahead 6 [e] ∧
      p.diagnostics = [] ∧ p.arena.payload? p.root =
        some (.sourceFile [some (X.shift.number (s₁.arena.size + 1))]) ∧
      X.Copies (s₁.arena.size + 1) (f.closed b s s₁).arena p.arena := by
  have hstarts : (h.excerpt hahead 6 [e]).Starts s { State.opened cs with depth := 1 } :=
    starts_opened hd hs ht
  have hk : (State.opened cs).stream.current.kind = .keyword .functionKw :=
    (congrArg Token.kind hstarts.current).trans h.keyword
  have hname := h.isAtFunctionName hahead hlaid hstarts
  obtain ⟨m, a, r, -, hrun, hparsed⟩ :=
    @exists_only_statement cs (by rw [hk]; nofun) (by rw [hk]; nofun)
  obtain ⟨r, hfunction, rfl⟩ :=
    run_statement_function (s := .opened cs) hk hname (Nat.succ_pos 255) hrun
  obtain ⟨rfl, hclean, htokens, hcopies⟩ :=
    h.copies hahead hlaid hstarts (List.cons_ne_nil e []) hfunction
  have hend : r.stream.current.kind = .endOfFile := TokenStream.current_of_tokens htokens ▸ he
  have hlt : s₁.arena.size + 1 < (f.closed b s s₁).arena.size :=
    OpenFunction.size_closed ▸ Nat.lt_succ_self _
  refine ⟨_, _, (hparsed hend).symm, rfl, ?_, ?_, hcopies.mono hlt (.refl _) Arena.prefixOf_added⟩
  · rw [hclean.1]
  · exact Arena.payload?_added.trans (if_pos rfl)

end Grammar

namespace Parsed

open Arena Grammar

variable {source : List Char} {i j : NodeId} {n k : Node} {d : FunctionDecl (Option NodeId)}

theorem forest_ofSource (source : List Char) : (ofSource source).arena.Forest := by
  obtain ⟨s, root, hs, -, he⟩ := sound_ofSource source
  exact he ▸ hs.forest

/-- The node of a source is its last one. -/
theorem exists_root (source : List Char) : ∃ statements,
    (ofSource source).arena.payload? (ofSource source).root = some (.sourceFile statements) ∧
      (ofSource source).arena.size = (ofSource source).root + 1 := by
  obtain ⟨statements, s, -, -, he⟩ := run_statements source
  refine ⟨statements, ?_⟩
  rw [he, payload?_added, if_pos rfl, size_added]
  exact ⟨rfl, rfl⟩

/-- What is under a node other than the root is not in front of it. -/
theorem start_le_of_mem_descendants (hn : (ofSource source).arena.node? i = some n)
    (hi : i ≠ (ofSource source).root) (hj : j ∈ (ofSource source).arena.descendants i)
    (hk : (ofSource source).arena.node? j = some k) : n.start ≤ k.start ∧ n.start ≤ k.stop := by
  obtain ⟨hnested, hfilled⟩ := nested_ofSource source
  obtain ⟨_, -, hsize⟩ := exists_root source
  have hforest := forest_ofSource source
  have hlt : i < (ofSource source).arena.size := lt_size_of_payload? (payload?_of_node? hn)
  have hr := (hforest.mem_descendants hlt).mp hj
  have hstart : n.start ≤ k.start := by
    clear hj hi
    induction hr generalizing k with
    | refl => exact (Option.some.inj (hn.symm.trans hk) ▸ le_rfl)
    | @tail p j _ hc ih =>
      obtain ⟨m, hm⟩ := exists_node? (lt_size_of_mem_children hc)
      obtain ⟨s, hs, hle, -⟩ := hnested.within p m.span (span?_of_node? hm) j hc
      obtain rfl := Option.some.inj (hs.symm.trans (span?_of_node? hk))
      exact (ih hm).trans hle
  refine ⟨hstart, hstart.trans ?_⟩
  rcases hfilled j k.span (span?_of_node? hk) with hf | rfl
  · exact hf.le
  · have hle := hforest.le_of_reaches hr
    exact absurd (Nat.le_antisymm (Nat.le_of_lt_succ (hlt.trans_eq hsize)) hle) hi

/-- A function with a body has been read up to the brace that closes the body. -/
theorem exists_unclosed_ofSource (h : (ofSource source).diagnostics = [])
    (hp : (ofSource source).arena.payload? i = some (.function .function d))
    (hbody : d.body.isSome = true) : ∃ m s f b s₁, Unclosed m s f b s₁ ∧ 0 < s.depth ∧
      s.stream.tokens <:+ Token.ofSource source ∧ i = s₁.arena.size + 1 ∧
      (f.closed b s s₁).arena.PrefixOf (ofSource source).arena ∧
      (f.closed b s s₁).arena.Since s.arena.size [s₁.arena.size + 1] := by
  obtain ⟨m, s, s', hrun, hclean, hdepth, hs, hkept⟩ := readFrom_ofSource h hp
  have hsince := since_functionDeclaration hrun hclean fun t ht =>
    (Token.scans_ofSource source).bare t (hs.subset ht)
  have hlt := (hsince.within i List.mem_cons_self).2
  have hp' := (hkept.payload i hlt).symm.trans hp
  obtain ⟨f, b, s₁, hu, rfl, rfl⟩ := exists_unclosed hrun hclean ⟨_, d, hp', hbody⟩
  exact ⟨m, s, f, b, s₁, hu, hdepth, hs, rfl, hkept, hsince⟩

/-- The text that is reported of a declaration is the one that its node covers. -/
theorem text_of_extract? {path : FilePath} {f : Declaration}
    (hn : (ofSource source).arena.node? i = some n)
    (hf : Declaration.extract? (.ofParsed path source (ofSource source)) i = some f) :
    f.text = String.ofList (n.span.text source) := by
  obtain ⟨k, hk, hf⟩ := Option.bind_eq_some_iff.mp hf
  obtain ⟨name, -, hf⟩ := Option.bind_eq_some_iff.mp hf
  have hnodes := (ofSource source).arena.nodes_decorate (ofSource source).root
  obtain rfl := Option.some.inj ((hk.symm.trans (node?_congr hnodes)).trans hn)
  exact congrArg Declaration.text (Option.some.inj hf).symm

/-- Behind an opening tag the text of a function with a body has a tree with the same nodes. -/
theorem exists_copies (h : (ofSource source).diagnostics = [])
    (hn : (ofSource source).arena.node? i = some n) (hd : n.payload = .function .function d)
    (hbody : d.body.isSome = true) :
    ∃ (p : Parsed) (X : Excerpt), p = ofSource ("<?php ".toList ++ n.span.text source) ∧
      p.diagnostics = [] ∧ p.arena.payload? p.root = some (.sourceFile [some (X.shift.number i)]) ∧
      X.origin = n.start ∧ X.target = "<?php ".length ∧
      X.Copies i (ofSource source).arena p.arena ∧
      ∀ j, (ofSource source).arena.Reaches i j → X.base ≤ j := by
  obtain ⟨m, s, f, b, s₁, hu, hdepth, hs, rfl, hkept, hsince⟩ :=
    exists_unclosed_ofSource h (hd ▸ payload?_of_node? hn) hbody
  have hlt : s₁.arena.size + 1 < (f.closed b s s₁).arena.size :=
    OpenFunction.size_closed ▸ Nat.lt_succ_self _
  have hscans := Token.scans_ofSource source
  have hclosed := hscans.closed.of_suffix hs (List.cons_ne_nil _ _)
  have hlaid := hscans.laid.of_suffix hs
  have hspan : n.span = ⟨s.stream.current.start, s₁.stream.current.stop⟩ := by
    have hspan := f.span?_closed (b := b) hlaid (hu.later hclosed)
    rw [← hkept.span _ hlt, span?_of_node? hn] at hspan
    exact Option.some.inj hspan
  -- The tokens from the keyword to the brace are those of the text.
  obtain ⟨us, hus⟩ := hs
  obtain ⟨inner, hinner⟩ := hu.exists_inner hclosed
  have hsource : Token.ofSource source =
      us ++ s.stream.current :: (inner ++ s₁.stream.current :: s₁.stream.ahead) := by
    rw [← hus, TokenStream.tokens, hinner]
    rfl
  obtain ⟨e, he, hslice⟩ := Token.exists_scans_slice hsource hu.keyword hu.brace 6
  rw [← hspan] at hslice
  have htokens := (stream_opened (n.span.text source)).2.unique hslice
  obtain ⟨p, X, hp, rfl, hdiagnostics, hroot, hcopies⟩ :=
    hu.parsed (hu.ahead_ne_nil hclosed) hlaid hdepth he hinner htokens
  refine ⟨p, _, hp, hdiagnostics, hroot, (congrArg Span.start hspan).symm, rfl,
    hcopies.mono hlt hkept (.refl _), fun j hj => ?_⟩
  exact (hsince.of_reaches_prefix hkept List.mem_cons_self hj).1

/-- The text of a function with a body is a declaration on its own: behind an opening tag it is read
without diagnostics, and as nothing but the same function. -/
theorem ofSource_text_of_function (h : (ofSource source).diagnostics = [])
    (hn : (ofSource source).arena.node? i = some n) (hd : n.payload = .function .function d)
    (hbody : d.body.isSome = true) :
    (∀ path f, Declaration.extract? (.ofParsed path source (ofSource source)) i = some f →
      f.text = String.ofList (n.span.text source)) ∧
    ∃ p number, p = ofSource ("<?php ".toList ++ n.span.text source) ∧ p.diagnostics = [] ∧
      p.arena.payload? p.root = some (.sourceFile [some (number i)]) ∧
      p.arena.kind? (number i) = some .functionDeclaration ∧
      (ofSource source).arena.Restates p.arena i n.start "<?php ".length number := by
  obtain ⟨p, X, hp, hdiagnostics, hroot, horigin, htarget, hcopies, hbase⟩ :=
    exists_copies h hn hd hbody
  have hforest := forest_ofSource source
  have hlt : i < (ofSource source).arena.size := lt_size_of_payload? (payload?_of_node? hn)
  have hne : i ≠ (ofSource source).root := by
    rintro rfl
    obtain ⟨_, hr, -⟩ := exists_root source
    cases hr.symm.trans ((payload?_of_node? hn).trans (congrArg some hd))
  have hrestates : (ofSource source).arena.Restates p.arena i n.start "<?php ".length
      X.shift.number := by
    rw [← horigin, ← htarget]
    refine hcopies.restates hforest hlt (fun j hj => hbase j ((hforest.mem_descendants hlt).mp hj))
      (hp ▸ forest_ofSource _) fun j hj k hk => ?_
    obtain ⟨hs, ht⟩ := start_le_of_mem_descendants hn hne hj hk
    exact ⟨horigin.trans_le hs, horigin.trans_le ht⟩
  refine ⟨fun path f hf => text_of_extract? hn hf, p, X.shift.number, hp, hdiagnostics, hroot, ?_,
    hrestates⟩
  obtain ⟨k, k', hk, hk', hpayload, -⟩ := hrestates.node i (hforest.root_mem_descendants hlt)
  cases hk.symm.trans hn
  rw [kind?, hk', Option.map_some, Node.kind, hpayload, if_pos rfl, hd]
  rfl

/-- A function that is documented, with something behind it. -/
theorem ofSource_text_of_function_documented : ∃ source i n d,
    source = "<?php /** a */ function f($a) \x7b return $a; \x7d echo 1;".toList ∧
      n.span.text source = "function f($a) \x7b return $a; \x7d".toList ∧ d.doc = some "/** a */" ∧
      ((ofSource source).diagnostics = [] ∧ (ofSource source).arena.node? i = some n ∧
        n.payload = .function .function d ∧ d.body.isSome = true) ∧
      ∃ p number, p = ofSource ("<?php ".toList ++ n.span.text source) ∧ p.diagnostics = [] ∧
        p.arena.payload? p.root = some (.sourceFile [some (number i)]) ∧
        p.arena.kind? (number i) = some .functionDeclaration ∧
        (ofSource source).arena.Restates p.arena i n.start "<?php ".length number := by
  obtain ⟨source, hsource⟩ : ∃ source,
    source = "<?php /** a */ function f($a) \x7b return $a; \x7d echo 1;".toList := ⟨_, rfl⟩
  have h : (ofSource source).diagnostics = [] := hsource ▸ by decide +kernel
  have hp : (((ofSource source).arena.payload? 5).bind Payload.ownFunction?).any
      (fun d => d.doc == some "/** a */" && d.body.isSome) = true := hsource ▸ by decide +kernel
  have hs : (ofSource source).arena.span? 5 = some ⟨15, 44⟩ := hsource ▸ by decide +kernel
  have ht : (Span.mk 15 44).text source = "function f($a) \x7b return $a; \x7d".toList :=
    hsource ▸ by decide +kernel
  obtain ⟨d, hp, htest⟩ := (Option.any_eq_true _ _).mp hp
  obtain ⟨payload, hp, hfunction⟩ := Option.bind_eq_some_iff.mp hp
  obtain ⟨hdoc, hbody⟩ := Bool.and_eq_true_iff.mp htest
  obtain ⟨n, hn, rfl, hspan⟩ := exists_node?_of_span? hp hs
  have hd := Payload.eq_of_ownFunction? hfunction
  exact ⟨source, 5, n, d, hsource, hspan ▸ ht, eq_of_beq hdoc, ⟨h, hn, hd, hbody⟩,
    (ofSource_text_of_function h hn hd hbody).2⟩

end Parsed

end PhpAtlas
