import PhpAtlas.Proofs.Building.Statements

/-! # Missing parts

Of several faults at one token only the first is reported, so a rule may have no
result and report nothing. There is a report all the same, since the fault that
keeps it back has been reported. So nothing is missing in the tree of a source
without reports.
-/

namespace PhpAtlas

namespace Grammar

open Item

variable {s s' : State} {xs ys : List Item} {c d : State × List Item} {fault : SyntaxFault}

/-! ## Steps -/

/-- A fault that keeps reports back is among the reports. -/
def State.Noted (s : State) : Prop := s.lastFault ≠ none → s.diagnostics ≠ #[]

theorem State.Noted.report (h : s.Noted) (hr : (report fault).run s = some ((), s')) :
    s'.diagnostics ≠ #[] := by
  cases hr
  dsimp only
  split
  · next hf => exact h (hf ▸ Option.some_ne_none _)
  · exact Array.push_ne_empty

/-- The step reports a fault, or leaves the reports alone and adds no missing part. -/
theorem Work.report_or (hw : Work c d) :
    (∃ fault, (Grammar.report fault).run c.1 = some ((), d.1)) ∨
      d.1.diagnostics = c.1.diagnostics ∧ d.1.lastFault = c.1.lastFault ∧
        (slot none ∈ d.2 → slot none ∈ c.2) := by
  cases hw with
  | report h => exact .inl ⟨_, h⟩
  | advance h | takeDoc h =>
    cases h
    exact .inr ⟨rfl, rfl, id⟩
  | depth => exact .inr ⟨rfl, rfl, id⟩
  | drop h => exact .inr ⟨rfl, rfl, fun hm => h.subset hm⟩
  | note | first | forget => exact .inr ⟨rfl, rfl, by simp⟩
  | begin _ h =>
    cases h
    exact .inr ⟨rfl, rfl, by simp⟩
  | finish _ _ _ h =>
    cases h
    refine .inr ⟨rfl, rfl, fun hm => ?_⟩
    simp only [List.mem_append, List.mem_cons, reduceCtorEq, slot.injEq, List.not_mem_nil,
      or_false] at hm
    exact List.mem_append_left _ hm

/-- For what is missing in the hands there is a report. -/
structure Accounted (c : State × List Item) : Prop where
  noted : c.1.Noted
  hole : slot none ∈ c.2 → c.1.diagnostics ≠ #[]

theorem Work.accounted (hw : Work c d) (hc : Accounted c) : Accounted d := by
  rcases hw.report_or with ⟨fault, hr⟩ | ⟨hd, hf, hi⟩
  · exact ⟨fun _ => hc.noted.report hr, fun _ => hc.noted.report hr⟩
  · constructor
    · rw [State.Noted, hd, hf]
      exact hc.noted
    · rw [hd]
      exact fun hm => hc.hole (hi hm)

/-- Without reports the nodes are whole. -/
def Complete (s : State) : Prop :=
  s.diagnostics = #[] → ∀ i n, s.arena.node? i = some n → n.payload.Whole

/-- Without reports no part is missing. -/
theorem Accounted.isSome {parts : List (Option NodeId)} (h : Accounted (s, xs))
    (hs : many parts <:+ xs) (hd : s.diagnostics = #[]) : ∀ x ∈ parts, x.isSome := by
  intro x hx
  cases x with
  | some => rfl
  | none => exact absurd hd (h.hole (hs.subset (List.mem_map_of_mem hx)))

theorem Work.complete (hw : Work c d) (ha : Accounted c) (hc : Complete c.1) : Complete d.1 := by
  cases hw with
  | report h => exact fun hd => absurd hd (ha.noted.report h)
  | advance h | takeDoc h | begin _ h =>
    cases h
    exact hc
  | depth | drop | note | first | forget => exact hc
  | @finish s s' xs pos parts payload i _ _ hw h =>
    cases h
    intro hd
    exact Arena.payload_added (hc hd) (hw (ha.isSome many_suffix hd))

/-! ## Rules -/

variable {α : Type} {text : List Char} {m : Parse (Option α)}

/-- A state that may come up while a text is read as a source or as a type. Whatever does not report
a fault leaves the reports alone and goes on in the text, or stays where it is. -/
inductive Reached (text : List Char) : State → Prop
  | source : Reached text (.before text)
  | type : Reached text { stream := .ofTokens (Token.ofTagged text) }
  | report {s s' : State} {fault : SyntaxFault} (h : Reached text s)
      (hr : (Grammar.report fault).run s = some ((), s')) : Reached text s'
  | goOn {s s' : State} (h : Reached text s) (hl : Later s s')
      (hd : s'.diagnostics = s.diagnostics) (hf : s'.lastFault = s.lastFault) : Reached text s'

theorem Reached.bare (h : Reached text s) : s.Bare := by
  induction h with
  | source => exact bare_before text
  | type => exact bare_ofTokens (Token.scans_listFrom (Nat.lt_succ_self _)).bare
  | @report s _ _ _ hr ih =>
    have hw : Work (s, []) (_, _) := .report hr
    exact ih.later hw.later
  | goOn _ hl _ _ ih => exact ih.later hl

theorem Reached.noted (h : Reached text s) : s.Noted := by
  induction h with
  | source | type => exact fun hf => absurd rfl hf
  | report _ hr ih => exact fun _ => ih.report hr
  | goOn _ _ hd hf ih =>
    rw [State.Noted, hd, hf]
    exact ih

theorem Works.reached (hw : Works c d) (h : Reached text c.1) : Reached text d.1 := by
  apply hw.preserves (P := fun c => Reached text c.1) _ h
  intro c d hw h
  rcases hw.report_or with ⟨fault, hr⟩ | ⟨hd, hf, -⟩
  · exact h.report hr
  · exact h.goOn hw.later hd hf

theorem Forms.reached {β : Type} {m : Parse β} {out : β → List Item} (hm : Forms m [] out) {r : β}
    (h : Reached text s) (hr : m.run s = some (r, s')) : Reached text s' :=
  Works.reached (hm _ s [] r s' h.bare rfl hr) h

/-- Where the rule has no result, a fault has been reported. -/
def Reports (text : List Char) (m : Parse (Option α)) : Prop :=
  ∀ s r s', Reached text s → m.run s = some (r, s') →
    Reached text s' ∧ (r = none → s'.diagnostics ≠ #[])

/-- A rule reports what is missing if a missing part is what it leaves without a result. -/
theorem Forms.reports {out : Option α → List Item} (hm : Forms m [] out)
    (ho : out none = [slot none]) : Reports text m := by
  intro s r s' h hr
  have hw : Works (s, []) (s', out r) := hm _ s [] r s' h.bare rfl hr
  have ha : Accounted (s', out r) := hw.preserves (fun _ _ => Work.accounted) ⟨h.noted, nofun⟩
  refine ⟨hm.reached h hr, ?_⟩
  rintro rfl
  exact ha.hole (ho ▸ List.mem_cons_self)

theorem reports_enumCase (n start : Nat) : Reports text (enumCase (rules n) start) := by
  intro s r s' h hr
  obtain ⟨_, s₁, hadvance, hr⟩ := run_bind_eq_some hr
  have h₁ : Reached text s₁ := quiet_advance.reached h hadvance
  rw [looks_token.run_bind] at hr
  split at hr
  · exact forms_fail.reports rfl s₁ r s' h₁ hr
  · obtain ⟨_, s₂, hname, hr⟩ := run_bind_eq_some hr
    have h₂ : Reached text s₂ := quiet_advance.reached h₁ hname
    obtain ⟨value, s₃, hvalue, hr⟩ := run_bind_eq_some hr
    have h₃ : Reached text s₃ := (forms_initialValue (builds_rules n)).reached h₂ hvalue
    obtain ⟨_, s₄, hsemicolon, hr⟩ := run_bind_eq_some hr
    have h₄ : Reached text s₄ := quiet_expectSemicolon.reached h₃ hsemicolon
    cases hr
    exact ⟨h₄.goOn (.of_eq rfl) rfl rfl, nofun⟩

end Grammar

open Grammar

/-- Nothing is missing in silence: where a rule for a part has no result a fault has been reported,
and a source without reports has all its parts. -/
structure NoSilentHoles (text : List Char) : Prop where
  expression : ∀ n, Reports text (rules n .expression)
  hint : ∀ n, Reports text (hint n)
  className : Reports text classNameRule
  classReference : ∀ n, Reports text (classReference (rules n))
  memberName : ∀ n, Reports text (memberName (rules n))
  parameter : ∀ n bound, Reports text (parameter (rules n) bound)
  enumCase : ∀ n start, Reports text (enumCase (rules n) start)
  whole : (Parsed.ofSource text).diagnostics = [] →
    ∀ i k, (Parsed.ofSource text).arena.node? i = some k → k.payload.Whole

theorem Parsed.whole_ofSource {source : List Char} (h : (ofSource source).diagnostics = []) :
    ∀ i k, (ofSource source).arena.node? i = some k → k.payload.Whole := by
  obtain ⟨statements, s, hw, -, he⟩ := works_ofSource source
  have hboth : Accounted (s, Item.many statements) ∧ Complete s := by
    apply hw.preserves (P := fun c => Accounted c ∧ Complete c.1)
    · exact fun c d hw h => ⟨hw.accounted h.1, hw.complete h.1 h.2⟩
    · exact ⟨⟨nofun, nofun⟩, fun _ _ _ hn => by cases hn⟩
  rw [he] at h ⊢
  have hd : s.diagnostics = #[] := by simpa using h
  exact Arena.payload_added (hboth.2 hd) (hboth.1.isSome (List.suffix_refl _) hd)

theorem Parsed.no_silent_holes (text : List Char) : NoSilentHoles text where
  expression n := (builds_rules n).expression.reports rfl
  hint _ := forms_hint.reports rfl
  className := forms_classNameRule.reports rfl
  classReference n := (forms_classReference (builds_rules n)).reports rfl
  memberName n := (forms_memberName (builds_rules n)).reports rfl
  parameter n _ := (forms_parameter (builds_rules n)).reports rfl
  enumCase := reports_enumCase
  whole := whole_ofSource

end PhpAtlas
