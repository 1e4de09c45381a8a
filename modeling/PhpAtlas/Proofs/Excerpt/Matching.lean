import PhpAtlas.Proofs.Excerpt.Statements
import PhpAtlas.Proofs.Building.Spans

/-! # Excerpts

A piece of a source that ends with a closing brace stands in another source, where
its nodes are the first ones. As long as the brace has not been read, the two runs
stand at the same tokens and have the same nodes.
-/

namespace PhpAtlas

/-- The same construct without a documentation comment, if it is a function. -/
def Payload.undocumented {α : Type} : Payload α → Payload α
  | .function form d => .function form { d with doc := none }
  | payload => payload

namespace Grammar

namespace State

variable {s : State} {payload : Payload (Option NodeId)} {start : Nat} {i : NodeId}

theorem size_noded : (s.noded payload start).arena.size = s.arena.size + 1 := Arena.size_added

theorem payload?_noded : (s.noded payload start).arena.payload? i =
    if i = s.arena.size then some payload else s.arena.payload? i :=
  Arena.payload?_added

theorem span?_noded : (s.noded payload start).arena.span? i =
    if i = s.arena.size then some ⟨start, max s.readTo start⟩ else s.arena.span? i :=
  Arena.span?_added

end State

/-- A piece of a source and where it stands in another one. -/
structure Excerpt where
  /-- Where the piece starts in the source, and where in the other one. -/
  origin : Nat
  target : Nat
  /-- The number of its first node. -/
  base : NodeId
  /-- Its last token, and what follows in the source. -/
  last : Token
  after : List Token
  last_kind : last.kind = .closeBrace
  after_ne_nil : after ≠ []
  /-- What follows in the other source. -/
  rest : List Token

namespace Excerpt

variable (X : Excerpt)

abbrev shift : Relocation where
  place x := x + X.target - X.origin
  number i := i - X.base

/-- The nodes of the piece are those of the other tree. -/
structure Mirrors (s r : State) : Prop where
  readTo : r.readTo = X.shift.place s.readTo
  base_le : X.base ≤ s.arena.size
  size : r.arena.size = X.shift.number s.arena.size
  payload : ∀ i, X.base ≤ i →
    r.arena.payload? (X.shift.number i) = (s.arena.payload? i).map (Payload.map X.shift.ids)
  span : ∀ i, X.base ≤ i → r.arena.span? (X.shift.number i) =
    (s.arena.span? i).map fun p => ⟨X.shift.place p.start, X.shift.place p.stop⟩

/-- The nodes of the piece, up to `i`, are those of the other tree, where `i` is not documented. -/
structure Copies (i : NodeId) (a b : Arena) : Prop where
  payload : ∀ j, X.base ≤ j → j ≤ i → b.payload? (X.shift.number j) =
    (a.payload? j).map fun p => (if j = i then p.undocumented else p).map X.shift.ids
  span : ∀ j, X.base ≤ j → j ≤ i → b.span? (X.shift.number j) =
    (a.span? j).map fun p => ⟨X.shift.place p.start, X.shift.place p.stop⟩

/-- The tokens are the same up to the end of the piece. -/
structure Abreast (ts us : List Token) : Prop where
  tokens : ∃ inner, ts = inner ++ X.last :: X.after ∧
    us = (inner ++ [X.last]).map X.shift.token ++ X.rest
  origin_le : ∀ t ∈ ts, X.origin ≤ t.start

/-- Both runs stand before the same tokens, and have the same nodes. -/
structure Matches (s r : State) : Prop extends X.Mirrors s r where
  abreast : X.Abreast s.stream.tokens r.stream.tokens
  doc : r.stream.doc = s.stream.doc
  depth : r.depth ≤ s.depth
  clean : r.Clean

/-- Nothing has been reported, and the last token of the piece has not been read. -/
def Kept (s : State) : Prop := s.Clean ∧ X.last :: X.after <:+ s.stream.tokens

variable {X} {s r : State} {t : Token} {ts us : List Token} {i : NodeId}

theorem number_inj {i j : Nat} (hi : X.base ≤ i) (hj : X.base ≤ j)
    (h : X.shift.number i = X.shift.number j) : i = j :=
  (Nat.sub_eq_iff_eq_add hi).mp h |>.trans (Nat.sub_add_cancel hj)

theorem Mirrors.noded (h : X.Mirrors s r) (payload : Payload (Option NodeId)) (start : Nat) :
    X.Mirrors (s.noded payload start)
      (r.noded (payload.map X.shift.ids) (X.shift.place start)) := by
  have hnew (i : NodeId) (hi : X.base ≤ i) : X.shift.number i = r.arena.size ↔ i = s.arena.size :=
    h.size ▸ ⟨number_inj hi h.base_le, congrArg _⟩
  have hstop : max r.readTo (X.shift.place start) = X.shift.place (max s.readTo start) := by
    rw [h.readTo]
    dsimp only
    omega
  refine ⟨h.readTo, ?_, ?_, fun i hi => ?_, fun i hi => ?_⟩
  · exact State.size_noded ▸ Nat.le_succ_of_le h.base_le
  · rw [State.size_noded, State.size_noded, h.size]
    exact (Nat.sub_add_comm h.base_le).symm
  · rw [State.payload?_noded, State.payload?_noded]
    by_cases hn : i = s.arena.size
    · rw [if_pos ((hnew i hi).mpr hn), if_pos hn]
      rfl
    · rw [if_neg fun hr => hn ((hnew i hi).mp hr), if_neg hn, h.payload i hi]
  · rw [State.span?_noded, State.span?_noded]
    by_cases hn : i = s.arena.size
    · rw [if_pos ((hnew i hi).mpr hn), if_pos hn, hstop]
      rfl
    · rw [if_neg fun hr => hn ((hnew i hi).mp hr), if_neg hn, h.span i hi]

/-- Where the other tree has no nodes and the piece no first one, they agree. -/
theorem mirrors_of_empty (hs : X.base = s.arena.size) (hr : r.arena.size = 0)
    (hreadTo : r.readTo = X.shift.place s.readTo) : X.Mirrors s r where
  readTo := hreadTo
  base_le := hs.le
  size := hr.trans (hs ▸ (Nat.sub_self _).symm)
  payload i hi := by
    rw [Arena.payload?, Arena.node?_eq_none_iff.mpr (hr ▸ Nat.zero_le _), Arena.payload?,
      Arena.node?_eq_none_iff.mpr (hs ▸ hi)]
    rfl
  span i hi := by
    rw [Arena.span?, Arena.node?_eq_none_iff.mpr (hr ▸ Nat.zero_le _), Arena.span?,
      Arena.node?_eq_none_iff.mpr (hs ▸ hi)]
    rfl

/-- The last token of the piece is next, or it is further ahead. -/
theorem Abreast.cases (h : X.Abreast (t :: ts) us) :
    (t = X.last ∧ ts = X.after ∧ us = X.shift.token t :: X.rest) ∨
      ∃ us', us = X.shift.token t :: us' ∧ X.Abreast ts us' := by
  obtain ⟨⟨inner, hts, hus⟩, hle⟩ := h
  cases inner with
  | nil =>
    cases hts
    exact .inl ⟨rfl, rfl, hus⟩
  | cons u inner =>
    cases hts
    exact .inr ⟨_, hus, ⟨inner, rfl, rfl⟩, (List.forall_mem_cons.mp hle).2⟩

theorem Abreast.ne_nil (h : X.Abreast ts us) : ts ≠ [] := by
  obtain ⟨⟨inner, rfl, -⟩, -⟩ := h
  exact List.append_ne_nil_of_right_ne_nil _ (List.cons_ne_nil _ _)

theorem Abreast.ne_nil' (h : X.Abreast ts us) : us ≠ [] := by
  obtain ⟨⟨inner, -, rfl⟩, -⟩ := h
  rw [List.map_append, List.append_assoc]
  exact List.append_ne_nil_of_right_ne_nil _ (List.cons_ne_nil _ _)

theorem Abreast.head (h : X.Abreast (t :: ts) us) : ∃ us', us = X.shift.token t :: us' := by
  obtain ⟨rfl, -, hus⟩ | ⟨us', hus, -⟩ := h.cases
  · exact ⟨_, hus⟩
  · exact ⟨us', hus⟩

theorem Abreast.rest (h : X.Abreast (X.last :: X.after) us) :
    us = X.shift.token X.last :: X.rest := by
  obtain ⟨⟨inner, hts, rfl⟩, -⟩ := h
  have hl := congrArg List.length hts
  obtain rfl : inner = [] := by
    apply List.eq_nil_of_length_eq_zero
    simp only [List.length_cons, List.length_append] at hl
    omega
  rfl

theorem tokens_next_of_ahead {s : TokenStream} (h : s.ahead ≠ []) : s.next.tokens = s.ahead := by
  obtain ⟨t, ts, ht⟩ := List.ne_nil_iff_exists_cons.mp h
  rw [TokenStream.tokens_next (congrArg (s.current :: ·) ht), ht]

section

variable {s r : TokenStream} (h : X.Abreast s.tokens r.tokens)

include h

theorem Abreast.current : r.current = X.shift.token s.current :=
  TokenStream.current_of_tokens h.head.choose_spec

theorem Abreast.ahead (hs : ¬(s.current = X.last ∧ s.ahead = X.after)) :
    X.Abreast s.ahead r.ahead := by
  rcases h.cases with ⟨ht, hts, -⟩ | ⟨us, hr, h⟩
  · exact absurd ⟨ht, hts⟩ hs
  · obtain rfl : r.ahead = us := (List.cons.inj hr).2
    exact h

/-- Before a token other than a closing brace the piece goes on. -/
theorem Abreast.ahead_of_inner (hs : s.current.kind.Inner) : X.Abreast s.ahead r.ahead :=
  h.ahead fun hl => hs.1 (hl.1 ▸ X.last_kind)

/-- So it does as long as its last token is kept. -/
theorem Abreast.ahead_of_suffix (hk : X.last :: X.after <:+ s.next.tokens) :
    X.Abreast s.ahead r.ahead := by
  refine h.ahead fun ⟨_, ha⟩ => ?_
  rw [tokens_next_of_ahead (ha ▸ X.after_ne_nil), ha] at hk
  exact Nat.not_succ_le_self _ hk.length_le

omit h

theorem Abreast.next (h : X.Abreast s.ahead r.ahead) : X.Abreast s.next.tokens r.next.tokens := by
  rwa [tokens_next_of_ahead h.ne_nil, tokens_next_of_ahead h.ne_nil']

theorem Abreast.doc_next (h : X.Abreast s.ahead r.ahead) (hd : r.doc = s.doc) :
    r.next.doc = s.next.doc := by
  obtain ⟨t, ts, ht⟩ := List.ne_nil_iff_exists_cons.mp h.ne_nil
  obtain ⟨us, hu⟩ := (ht ▸ h).head
  simp only [TokenStream.next, ht, hu, hd, Relocation.token]

end

/-- The rules keep such runs in step. -/
def pairing (X : Excerpt) : Pairing where
  toRelocation := X.shift
  Kept := X.Kept
  Rel := X.Matches
  kept_next h := ⟨h.1, h.2.trans (TokenStream.tokens_next_suffix _)⟩
  not_kept_report hr h := not_clean_report hr h.1
  kept_of_eq h ht hd hl := ⟨⟨hd ▸ h.1.1, hl ▸ h.1.2⟩, ht ▸ h.2⟩
  current h := h.abreast.current
  ahead h hs := (h.abreast.ahead_of_inner hs).next.current
  further h hs hs' := ((h.abreast.ahead_of_inner hs).next.ahead_of_inner hs').next.current
  place_inj {s s' _ _} h h' heq := by
    have hs := h.abreast.origin_le s.stream.current List.mem_cons_self
    have hs' := h'.abreast.origin_le s'.stream.current List.mem_cons_self
    dsimp only at heq
    omega
  next {s r} h hk := {
    h with
    abreast := (h.abreast.ahead_of_suffix hk.2).next
    readTo := congrArg Token.stop h.abreast.current
    doc := (h.abreast.ahead_of_suffix hk.2).doc_next h.doc
    clean := h.clean }
  size h := h.size
  noded payload start h := { h.noded payload start with
    abreast := h.abreast, doc := h.doc, depth := h.depth, clean := h.clean }
  doc h := h.doc
  dropDoc h := { h with doc := rfl }
  depth_le h := h.depth
  deepened h hd := { h with depth := hd }

end Excerpt

end Grammar

end PhpAtlas
