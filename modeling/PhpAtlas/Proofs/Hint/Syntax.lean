import PhpAtlas.Proofs.Building.Holes
import PhpAtlas.Proofs.Reading.Expressions
import PhpAtlas.Proofs.Token.Words

/-! # What a type is

The grammar of types says which runs of tokens are a type, by their kinds and
texts alone. Without a report the rules for types read such a run, and where
there is one they read it to its end.
-/

namespace PhpAtlas

namespace HintSyntax

/-- One element stands for itself; only more of them make a type of their own. -/
def grouped (form : List TypeHint → TypeHint) (first : TypeHint) (rest : List TypeHint) :
    TypeHint :=
  if rest.isEmpty then first else form (first :: rest)

/-- A type that is one token. -/
inductive Single : List Token → TypeHint → Prop
  | static {t : Token} (hk : t.kind = .keyword .staticKw) : Single [t] (.keyword "static")
  | builtIn {t : Token} (hk : t.kind = .identifier) (h : lower t.text ∈ typeKeywords) :
      Single [t] (.keyword (lower t.text))
  | unqualified {t : Token} (hk : t.kind = .identifier) (h : lower t.text ∉ typeKeywords) :
      Single [t] (.name ⟨t.text, .unqualified⟩)
  | qualified {t : Token} (hk : t.kind = .qualifiedName) : Single [t] (.name ⟨t.text, .qualified⟩)
  | fullyQualified {t : Token} {s : String} (hk : t.kind = .fullyQualifiedName)
      (ht : t.text = "\\" ++ s) : Single [t] (.name ⟨s, .fullyQualified⟩)

/-- Any number of elements, each of which stands after a separator. -/
inductive Further (sep : TokenKind) (p : List Token → TypeHint → Prop) :
    List Token → List TypeHint → Prop
  | none : Further sep p [] []
  | more {t : Token} {ts us : List Token} {h : TypeHint} {hs : List TypeHint} (ht : t.kind = sep)
      (hp : p ts h) (rest : Further sep p us hs) : Further sep p (t :: (ts ++ us)) (h :: hs)

inductive Intersection : List Token → TypeHint → Prop
  | mk {ts us : List Token} {first : TypeHint} {rest : List TypeHint} (hf : Single ts first)
      (hr : Further .ampersand Single us rest) :
      Intersection (ts ++ us) (grouped .intersection first rest)

inductive Member : List Token → TypeHint → Prop
  | bare {ts : List Token} {h : TypeHint} (hi : Intersection ts h) : Member ts h
  | group {l r : Token} {ts : List Token} {h : TypeHint} (hl : l.kind = .openParen)
      (hi : Intersection ts h) (hr : r.kind = .closeParen) : Member (l :: (ts ++ [r])) h

/-- The tokens are a type. -/
inductive Derives : List Token → TypeHint → Prop
  | nullable {q : Token} {ts : List Token} {h : TypeHint} (hq : q.kind = .question)
      (hs : Single ts h) : Derives (q :: ts) (.nullable h)
  | union {ts us : List Token} {first : TypeHint} {rest : List TypeHint} (hf : Member ts first)
      (hr : Further .bar Member us rest) : Derives (ts ++ us) (grouped .union first rest)

/-- The tokens of the text up to the end of it are a type. -/
def Spells (text : List Char) (h : TypeHint) : Prop :=
  ∃ ts last, Token.ofTagged text = ts ++ [last] ∧ last.kind = .endOfFile ∧ Derives ts h

end HintSyntax

open HintSyntax

/-! ## One token -/

theorem mem_typeKeywords {s : String} : lower s ∈ typeKeywords ↔ isTypeKeyword s = true := by
  simp [isTypeKeyword]

theorem WrittenName.ofText_eq (s : String) : ofText s =
    if s.toList.head? = some '\\' then ⟨String.ofList s.toList.tail, .fullyQualified⟩
    else ⟨s, if s.toList.contains '\\' then .qualified else .unqualified⟩ := by
  unfold ofText
  split
  · next h => simp [h]
  · next h =>
    have hn : ¬s.toList.head? = some '\\' := by
      intro hh
      obtain ⟨cs, hcs⟩ := List.head?_eq_some_iff.mp hh
      exact h cs hcs
    rw [if_neg hn]

/-- The form of a name goes with the kind of its token. -/
theorem ofText_of_nameKind {s : String} :
    (Lexeme.nameKind s.toList = .identifier → WrittenName.ofText s = ⟨s, .unqualified⟩) ∧
    (Lexeme.nameKind s.toList = .qualifiedName → WrittenName.ofText s = ⟨s, .qualified⟩) ∧
    (Lexeme.nameKind s.toList = .fullyQualifiedName → ∃ u, s = "\\" ++ u ∧
      WrittenName.ofText s = ⟨u, .fullyQualified⟩) := by
  rw [WrittenName.ofText_eq]
  unfold Lexeme.nameKind
  split
  · next h =>
    refine ⟨nofun, nofun, fun _ => ⟨String.ofList s.toList.tail, ?_, rfl⟩⟩
    obtain ⟨cs, hcs⟩ := List.head?_eq_some_iff.mp h
    apply String.toList_injective
    simp [hcs]
  · split
    · next h => exact ⟨nofun, fun _ => rfl, nofun⟩
    · split
      · exact ⟨nofun, nofun, nofun⟩
      · exact ⟨fun _ => rfl, nofun, nofun⟩

/-- The form of a name goes with the kind of its token. -/
theorem Token.Named.ofText_value {t : Token} (hn : t.Named) :
    (t.kind = .identifier → WrittenName.ofText t.value = ⟨t.text, .unqualified⟩) ∧
    (t.kind = .qualifiedName → WrittenName.ofText t.value = ⟨t.text, .qualified⟩) ∧
    (t.kind = .fullyQualifiedName → ∃ u, t.text = "\\" ++ u ∧
      WrittenName.ofText t.value = ⟨u, .fullyQualified⟩) := by
  obtain ⟨hu, hq, hf⟩ := ofText_of_nameKind (s := t.text)
  refine ⟨fun hk => ?_, fun hk => ?_, fun hk => ?_⟩
  all_goals
    have hname : t.kind.isName = true := by rw [hk]; rfl
    have hkind := (hn.kind hname).trans hk
    rw [hn.value hname]
  · exact hu hkind
  · exact hq hkind
  · exact hf hkind

theorem Token.Named.single_iff {t : Token} {h : TypeHint} (hn : t.Named) :
    Grammar.hintOfToken? t = some h ↔ Single [t] h := by
  obtain ⟨hu, hq, hf⟩ := hn.ofText_value
  constructor
  · intro ho
    unfold Grammar.hintOfToken? at ho
    split at ho
    · next hk =>
      obtain rfl := Option.some.inj ho
      exact .static hk
    · next hk =>
      obtain rfl := Option.some.inj ho
      split
      · next hw => exact .builtIn hk (mem_typeKeywords.mpr hw)
      · next hw =>
        rw [hu hk]
        exact .unqualified hk fun hm => hw (mem_typeKeywords.mp hm)
    · next hk =>
      obtain rfl := Option.some.inj ho
      rw [hq hk]
      exact .qualified hk
    · next hk =>
      obtain rfl := Option.some.inj ho
      obtain ⟨u, htext, he⟩ := hf hk
      rw [he]
      exact .fullyQualified hk htext
    · cases ho
  · intro hs
    cases hs with
    | static hk => simp [Grammar.hintOfToken?, hk]
    | builtIn hk hw => simp [Grammar.hintOfToken?, hk, mem_typeKeywords.mp hw, TypeHint.keywordOf]
    | unqualified hk hw =>
      have hw : isTypeKeyword t.text = false := by simpa [mem_typeKeywords] using hw
      simp [Grammar.hintOfToken?, hk, hw, hu hk]
    | qualified hk => simp [Grammar.hintOfToken?, hk, hq hk]
    | @fullyQualified t s hk ht =>
      obtain ⟨u, htext, he⟩ := hf hk
      obtain rfl : u = s := by
        apply String.toList_injective
        simpa using congrArg String.toList (htext.symm.trans ht)
      simp [Grammar.hintOfToken?, hk, he]

namespace HintSyntax

variable {ts us rest : List Token} {a : TypeHint} {hints : List TypeHint}
variable {sep kind : TokenKind} {p : List Token → TypeHint → Prop}

/-- A type that is one token is named by the token or is a keyword, so that the token is neither
the end nor a sign. -/
theorem Single.exists_token (h : Single ts a) :
    ∃ t, ts = [t] ∧ (t.kind.isName || t.kind == .keyword .staticKw) = true := by
  cases h with
  | static hk | builtIn hk | unqualified hk | qualified hk | fullyQualified hk =>
    exact ⟨_, rfl, by simp [hk, TokenKind.isName]⟩

theorem Intersection.exists_head (h : Intersection ts a) :
    ∃ t us, ts = t :: us ∧ (t.kind.isName || t.kind == .keyword .staticKw) = true := by
  obtain ⟨hf, hr⟩ := h
  obtain ⟨t, rfl, hk⟩ := hf.exists_token
  exact ⟨t, _, rfl, hk⟩

theorem Member.exists_head (h : Member ts a) : ∃ t us, ts = t :: us ∧ t.kind ≠ .question := by
  cases h with
  | bare hi =>
    obtain ⟨t, us, rfl, hk⟩ := hi.exists_head
    refine ⟨t, us, rfl, fun he => ?_⟩
    simp [he, TokenKind.isName] at hk
  | group hl => exact ⟨_, _, rfl, hl ▸ by decide⟩

theorem Further.head_ne (h : Further sep p us hints) (hs : sep ≠ kind)
    (hr : ∀ t ∈ rest.head?, t.kind ≠ kind) : ∀ t ∈ (us ++ rest).head?, t.kind ≠ kind := by
  cases h with
  | none => exact hr
  | more ht =>
    rintro t ⟨⟩
    exact ht ▸ hs

end HintSyntax

namespace Grammar

variable {α : Type} {text : List Char} {s s' : State} {k n : Nat}

/-! ## States while a text is read -/

theorem Reached.exists_scan (h : Reached text s) : ∃ inTags ts, Token.Scans inTags ⟨0, text⟩ ts ∧
    s.stream.tokens <:+ (TokenStream.ofTokens ts).tokens := by
  induction h with
  | source => exact ⟨_, _, Token.scans_ofSource text, List.suffix_refl _⟩
  | type => exact ⟨_, _, Token.scans_listFrom (Nat.lt_succ_self _), List.suffix_refl _⟩
  | @report s _ _ _ hr ih =>
    obtain ⟨inTags, ts, hs, hl⟩ := ih
    have hw : Work (s, []) (_, _) := .report hr
    exact ⟨inTags, ts, hs, List.IsSuffix.trans hw.later hl⟩
  | goOn _ hl _ _ ih =>
    obtain ⟨inTags, ts, hs, hl'⟩ := ih
    exact ⟨inTags, ts, hs, List.IsSuffix.trans hl hl'⟩

theorem Reached.closed (h : Reached text s) : Token.Closed s.stream.tokens := by
  obtain ⟨inTags, ts, hs, hl⟩ := h.exists_scan
  exact (TokenStream.closed_ofTokens hs.closed).of_suffix hl (List.cons_ne_nil _ _)

theorem Reached.named (h : Reached text s) : ∀ t ∈ s.stream.tokens, t.Named := by
  obtain ⟨inTags, ts, hs, hl⟩ := h.exists_scan
  intro t ht
  rcases List.mem_cons.mp (hl.subset ht) with rfl | ht
  · constructor <;> exact nofun
  · exact hs.named t ht

theorem unreported_report {fault : SyntaxFault} (hr : (report fault).run s = some ((), s'))
    (hd : s'.diagnostics = #[]) : s.diagnostics = #[] := by
  cases hr
  dsimp only at hd
  split at hd
  · exact hd
  · exact absurd hd Array.push_ne_empty

/-- A rule does not take back what has been reported. -/
theorem Works.unreported {c d : State × List Item} (hw : Works c d)
    (hd : d.1.diagnostics = #[]) : c.1.diagnostics = #[] := by
  induction hw with
  | refl => exact hd
  | tail _ hw ih =>
    apply ih
    rcases hw.report_or with ⟨fault, hr⟩ | ⟨he, -, -⟩
    · exact unreported_report hr hd
    · rw [← he, hd]

theorem Forms.unreported {m : Parse α} {out : α → List Item} (hm : Forms m [] out) {r : α}
    (h : Reached text s) (hr : m.run s = some (r, s')) (hd : s'.diagnostics = #[]) :
    s.diagnostics = #[] :=
  Works.unreported (hm _ s [] r s' h.bare rfl hr) hd

theorem Reached.tokens_advance (h : Reached text s) (hk : s.stream.current.kind ≠ .endOfFile)
    (hr : advance.run s = some ((), s')) :
    s.stream.tokens = s.stream.current :: s'.stream.tokens := by
  cases hr
  have hc := h.closed
  unfold TokenStream.next
  cases ha : s.stream.ahead with
  | nil => exact absurd (ha ▸ hc : Token.Closed [s.stream.current]) hk
  | cons t ts => simp only [TokenStream.tokens, ha]

theorem run_accept {kind : TokenKind} {b : Bool} (hr : (accept kind).run s = some (b, s')) :
    b = true ∧ s.stream.current.kind = kind ∧ advance.run s = some ((), s') ∨
      b = false ∧ s.stream.current.kind ≠ kind ∧ s' = s := by
  rw [accept, (looks_isAt kind).run_bind] at hr
  split at hr
  · next hk =>
    obtain ⟨_, s₁, ha, hr⟩ := run_bind_eq_some hr
    cases hr
    exact .inl ⟨rfl, eq_of_beq hk, ha⟩
  · next hk =>
    cases hr
    exact .inr ⟨rfl, fun he => hk (beq_iff_eq.mpr he), rfl⟩

/-- A spelling that is expected has been read if nothing is reported. -/
theorem Reached.tokens_expect {kind : TokenKind} {spelling : String} (h : Reached text s)
    (hr : (discard (expect kind spelling)).run s = some ((), s')) (hd : s'.diagnostics = #[])
    (hk : kind ≠ .endOfFile) :
    s.stream.current.kind = kind ∧ s.stream.tokens = s.stream.current :: s'.stream.tokens := by
  rw [run_discard] at hr
  obtain ⟨⟨b, _⟩, he, hs⟩ := Option.map_eq_some_iff.mp hr
  cases hs
  obtain ⟨b, s₁, ha, hm⟩ := run_bind_eq_some he
  rcases run_accept ha with ⟨rfl, hc, ha⟩ | ⟨rfl, -, rfl⟩
  · cases hm
    exact ⟨hc, h.tokens_advance (hc ▸ hk) ha⟩
  · obtain ⟨_, s₂, hr, hp⟩ := run_bind_eq_some hm
    cases hp
    exact absurd hd (h.noted.report hr)

/-! ## What the rules find -/

/-- What the rule finds without a report is what `p` says of the tokens that it has read. -/
def Justified (text : List Char) (p : List Token → α → Prop) (m : Parse (Option α)) : Prop :=
  ∀ s a s', Reached text s → m.run s = some (some a, s') → s'.diagnostics = #[] →
    ∃ ts, s.stream.tokens = ts ++ s'.stream.tokens ∧ p ts a

theorem justified_singleHint : Justified text Single singleHint := by
  intro s a s' h hr _
  rw [singleHint, looks_token.run_bind] at hr
  split at hr
  · next ho =>
    obtain ⟨_, s₁, ha, hr⟩ := run_bind_eq_some hr
    cases hr
    have hs : Single [s.stream.current] a :=
      (h.named _ List.mem_cons_self).single_iff.mp ho
    have hk : s.stream.current.kind ≠ .endOfFile := by
      obtain ⟨t, ht, hk⟩ := hs.exists_token
      obtain ⟨rfl, -⟩ := List.cons.inj ht
      intro he
      simp [he, TokenKind.isName] at hk
    exact ⟨[s.stream.current], h.tokens_advance hk ha, hs⟩
  · cases hr

theorem justified_joinedHints : Justified text (Further .ampersand Single) (joinedHints n) := by
  induction n with
  | zero => exact fun s a s' _ hr => nomatch hr
  | succ n ih =>
    intro s hints s' h hr hd
    rw [joinedHints, (looks_kindAhead 1).run_bind, (looks_isAt .ampersand).run_bind] at hr
    split at hr
    · next hc =>
      have hk : s.stream.current.kind = .ampersand := by simp_all
      obtain ⟨_, s₁, ha, hr⟩ := run_bind_eq_some hr
      obtain ⟨first, s₂, hf, hr⟩ := run_bind_eq_some hr
      have h₁ : Reached text s₁ := quiet_advance.reached h ha
      have h₂ : Reached text s₂ := forms_singleHint.reached h₁ hf
      cases first with
      | none => cases hr
      | some first =>
        obtain ⟨rest, s₃, hj, hr⟩ := run_bind_eq_some hr
        cases rest with
        | none => cases hr
        | some rest =>
          cases hr
          obtain ⟨us, hus, hrest⟩ := ih s₂ rest s' h₂ hj hd
          have hd₂ : s₂.diagnostics = #[] := forms_joinedHints.unreported h₂ hj hd
          obtain ⟨ts, hts, hfirst⟩ := justified_singleHint s₁ first s₂ h₁ hf hd₂
          refine ⟨s.stream.current :: (ts ++ us), ?_, .more hk hfirst hrest⟩
          rw [h.tokens_advance (hk ▸ by decide) ha, hts, hus]
          simp
    · cases hr
      exact ⟨[], rfl, .none⟩

theorem justified_intersectionHint : Justified text Intersection (intersectionHint n) := by
  intro s a s' h hr hd
  obtain ⟨first, s₁, hf, hr⟩ := run_bind_eq_some hr
  have h₁ : Reached text s₁ := forms_singleHint.reached h hf
  cases first with
  | none => cases hr
  | some first =>
    obtain ⟨rest, s₂, hj, hr⟩ := run_bind_eq_some hr
    cases rest with
    | none => cases hr
    | some rest =>
      cases hr
      obtain ⟨us, hus, hrest⟩ := justified_joinedHints s₁ rest s' h₁ hj hd
      have hd₁ : s₁.diagnostics = #[] := forms_joinedHints.unreported h₁ hj hd
      obtain ⟨ts, hts, hfirst⟩ := justified_singleHint s first s₁ h hf hd₁
      refine ⟨ts ++ us, ?_, .mk hfirst hrest⟩
      rw [hts, hus]
      simp

theorem justified_memberHint : Justified text Member (memberHint n) := by
  intro s a s' h hm hd
  obtain ⟨b, s₁, ha, hr⟩ := run_bind_eq_some hm
  have h₁ : Reached text s₁ := quiet_accept.reached h ha
  rcases run_accept ha with ⟨rfl, hl, ha⟩ | ⟨rfl, -, rfl⟩
  · rw [if_pos rfl] at hr
    obtain ⟨inner, s₂, hi, hr⟩ := run_bind_eq_some hr
    have h₂ : Reached text s₂ := forms_intersectionHint.reached h₁ hi
    cases inner with
    | none => cases hr
    | some inner =>
      obtain ⟨_, s₃, he, hr⟩ := run_bind_eq_some hr
      cases hr
      have hd₂ : s₂.diagnostics = #[] := quiet_expect.discard.unreported h₂ he hd
      obtain ⟨ts, hts, hi⟩ := justified_intersectionHint s₁ _ s₂ h₁ hi hd₂
      obtain ⟨hk, hc⟩ := h₂.tokens_expect he hd (by decide)
      refine ⟨s.stream.current :: (ts ++ [s₂.stream.current]), ?_, .group hl hi hk⟩
      rw [h.tokens_advance (hl ▸ by decide) ha, hts, hc]
      simp
  · obtain ⟨ts, hts, hi⟩ := justified_intersectionHint _ a s' h hr hd
    exact ⟨ts, hts, .bare hi⟩

theorem justified_unitedHints {bound : Nat} : Justified text (Further .bar Member) (unitedHints bound n) := by
  induction n with
  | zero => exact fun s a s' _ hr => nomatch hr
  | succ n ih =>
    intro s hints s' h hm hd
    obtain ⟨b, s₁, ha, hr⟩ := run_bind_eq_some hm
    have h₁ : Reached text s₁ := quiet_accept.reached h ha
    rcases run_accept ha with ⟨rfl, hk, ha⟩ | ⟨rfl, -, rfl⟩
    · rw [if_pos rfl] at hr
      obtain ⟨first, s₂, hf, hr⟩ := run_bind_eq_some hr
      have h₂ : Reached text s₂ := forms_memberHint.reached h₁ hf
      cases first with
      | none => cases hr
      | some first =>
        obtain ⟨rest, s₃, hu, hr⟩ := run_bind_eq_some hr
        cases rest with
        | none => cases hr
        | some rest =>
          cases hr
          obtain ⟨us, hus, hrest⟩ := ih s₂ rest s' h₂ hu hd
          have hd₂ : s₂.diagnostics = #[] := forms_unitedHints.unreported h₂ hu hd
          obtain ⟨ts, hts, hfirst⟩ := justified_memberHint s₁ first s₂ h₁ hf hd₂
          refine ⟨s.stream.current :: (ts ++ us), ?_, .more hk hfirst hrest⟩
          rw [h.tokens_advance (hk ▸ by decide) ha, hts, hus]
          simp
    · cases hr
      exact ⟨[], rfl, .none⟩

theorem justified_hint : Justified text Derives (hint n) := by
  intro s a s' h hm hd
  obtain ⟨b, s₁, ha, hr⟩ := run_bind_eq_some hm
  have h₁ : Reached text s₁ := quiet_accept.reached h ha
  rcases run_accept ha with ⟨rfl, hq, ha⟩ | ⟨rfl, -, rfl⟩
  · rw [if_pos rfl] at hr
    obtain ⟨inner, s₂, hi, hr⟩ := run_bind_eq_some hr
    cases inner with
    | none => cases hr
    | some inner =>
      cases hr
      obtain ⟨ts, hts, hs⟩ := justified_singleHint s₁ inner s' h₁ hi hd
      refine ⟨s.stream.current :: ts, ?_, .nullable hq hs⟩
      rw [h.tokens_advance (hq ▸ by decide) ha, hts, List.cons_append]
  · rw [if_neg Bool.false_ne_true] at hr
    obtain ⟨first, s₂, hf, hr⟩ := run_bind_eq_some hr
    have h₂ : Reached text s₂ := forms_memberHint.reached h₁ hf
    cases first with
    | none => cases hr
    | some first =>
      obtain ⟨rest, s₃, hu, hr⟩ := run_bind_eq_some hr
      cases rest with
      | none => cases hr
      | some rest =>
        cases hr
        obtain ⟨us, hus, hrest⟩ := justified_unitedHints s₂ rest s' h₂ hu hd
        have hd₂ : s₂.diagnostics = #[] := forms_unitedHints.unreported h₂ hu hd
        obtain ⟨ts, hts, hfirst⟩ := justified_memberHint _ first s₂ h₁ hf hd₂
        refine ⟨ts ++ us, ?_, .union hfirst hrest⟩
        rw [hts, hus]
        simp

/-! ## What the rules do not miss -/

variable {t : Token} {ts us rest : List Token} {a : TypeHint} {d : Array Diagnostic}
variable {kind : TokenKind}

/-- The state stands before `ts`, more tokens follow, and `d` has been reported. -/
structure Before (d : Array Diagnostic) (s : State) (ts rest : List Token) : Prop where
  tokens : s.stream.tokens = ts ++ rest
  ne_nil : rest ≠ []
  named : ∀ t ∈ ts ++ rest, t.Named
  reports : s.diagnostics = d

namespace Before

theorem first (h : Before d s (ts ++ us) rest) : Before d s ts (us ++ rest) where
  tokens := by rw [h.tokens, List.append_assoc]
  ne_nil := by simp [h.ne_nil]
  named := by simpa only [List.append_assoc] using h.named
  reports := h.reports

theorem second (h : Before d s [] (us ++ rest)) (hr : rest ≠ []) : Before d s us rest :=
  ⟨h.tokens, hr, h.named, h.reports⟩

theorem current (h : Before d s ts rest) (ht : ts ++ rest = t :: us) : s.stream.current = t :=
  (List.cons.inj (h.tokens.trans ht)).1

theorem tokens_next (h : Before d s (t :: ts) rest) : s.stream.next.tokens = ts ++ rest := by
  obtain ⟨-, ha⟩ := List.cons.inj h.tokens
  unfold TokenStream.next
  split
  · next hn =>
    have : ts ++ rest = [] := ha.symm.trans hn
    simp [h.ne_nil] at this
  · next hn =>
    exact hn.symm.trans ha

theorem advance (h : Before d s (t :: ts) rest) :
    Yields Grammar.advance s fun _ s' => Before d s' ts rest :=
  ⟨(), _, rfl, h.tokens_next, h.ne_nil, fun u hu => h.named u (List.mem_cons_of_mem _ hu), h.reports⟩

theorem accept (h : Before d s (t :: ts) rest) (hk : t.kind = kind) :
    Yields (Grammar.accept kind) s fun b s' => b = true ∧ Before d s' ts rest := by
  refine (looks_isAt kind).yields ?_
  rw [if_pos (beq_iff_eq.mpr (h.current rfl ▸ hk))]
  exact h.advance.bind fun _ _ hb => .pure ⟨rfl, hb⟩

theorem expect {spelling : String} (h : Before d s (t :: ts) rest) (hk : t.kind = kind) :
    Yields (discard (Grammar.expect kind spelling)) s fun _ s' => Before d s' ts rest := by
  refine .map ((h.accept hk).bind ?_)
  rintro _ s' ⟨rfl, hs'⟩
  exact .pure hs'

theorem current_ne (h : Before d s [] rest) (hr : ∀ t ∈ rest.head?, t.kind ≠ kind) :
    s.stream.current.kind ≠ kind :=
  hr _ (List.head?_eq_some_iff.mpr ⟨_, h.tokens.symm⟩)

end Before

theorem yields_accept_of_ne (h : s.stream.current.kind ≠ kind) :
    Yields (accept kind) s fun b s' => b = false ∧ s' = s := by
  refine (looks_isAt kind).yields ?_
  rw [if_neg fun he => h (eq_of_beq he)]
  exact .pure ⟨rfl, rfl⟩

/-- Where a token follows that is of none of the kinds in `stops`, the rule finds what `p` says of
fewer than `n` tokens. -/
def Finds (p : List Token → α → Prop) (stops : List TokenKind) (n : Nat) (m : Parse (Option α)) :
    Prop :=
  ∀ d s ts a rest, p ts a → Before d s ts rest → (∀ t ∈ rest.head?, t.kind ∉ stops) →
    ts.length < n → Yields m s fun r s' => r = some a ∧ Before d s' [] rest

theorem finds_singleHint : Finds Single [] n singleHint := by
  intro d s ts a rest hp hs _ _
  obtain ⟨t, rfl, -⟩ := hp.exists_token
  have ho : hintOfToken? s.stream.current = some a :=
    hs.current rfl ▸ (hs.named t List.mem_cons_self).single_iff.mpr hp
  refine looks_token.yields ?_
  rw [ho]
  exact hs.advance.bind fun _ _ hs' => .pure ⟨rfl, hs'⟩

theorem finds_joinedHints : Finds (Further .ampersand Single) [.ampersand] n (joinedHints n) := by
  induction n with
  | zero => exact fun _ _ _ _ _ _ _ _ h => absurd h (Nat.not_lt_zero _)
  | succ n ih =>
    intro d s ts hints rest hp hs hstop hlt
    refine (looks_kindAhead 1).yields ((looks_isAt _).yields ?_)
    cases hp with
    | none =>
      have hk : s.stream.current.kind ≠ .ampersand := hs.current_ne (by simpa using hstop)
      rw [if_neg (by simp [hk])]
      exact .pure ⟨rfl, hs⟩
    | @more t vs us h hs' ht hfirst hrest =>
      obtain ⟨v, rfl, hv⟩ := hfirst.exists_token
      have hpeek : s.stream.peek 1 = v := (List.cons.inj hs.tokens_next).1
      have hlt : us.length < n := by
        simp only [List.length_cons, List.length_append] at hlt
        omega
      rw [if_pos (by simp [hs.current rfl, ht, hpeek, hv])]
      refine hs.advance.bind fun _ s₁ hs₁ => ?_
      refine (finds_singleHint (n := 2) d s₁ [v] h _ hfirst hs₁.first (by simp) (by simp)).bind ?_
      rintro _ s₂ ⟨rfl, hs₂⟩
      refine (ih d s₂ us hs' rest hrest (hs₂.second hs.ne_nil) hstop hlt).bind ?_
      rintro _ s₃ ⟨rfl, hs₃⟩
      exact .pure ⟨rfl, hs₃⟩

theorem finds_intersectionHint : Finds Intersection [.ampersand] n (intersectionHint n) := by
  intro d s ts a rest hp hs hstop hlt
  obtain @⟨ts, us, first, others, hf, hr⟩ := hp
  rw [List.length_append] at hlt
  obtain ⟨t, rfl, -⟩ := hf.exists_token
  refine (finds_singleHint (n := 2) d s [t] first _ hf hs.first (by simp) (by simp)).bind ?_
  rintro _ s₁ ⟨rfl, hs₁⟩
  have hjoined := finds_joinedHints (n := n) d s₁ us others rest hr (hs₁.second hs.ne_nil) hstop
  refine (hjoined (by omega)).bind ?_
  rintro _ s₂ ⟨rfl, hs₂⟩
  exact .pure ⟨rfl, hs₂⟩

theorem finds_memberHint : Finds Member [.ampersand] n (memberHint n) := by
  intro d s ts a rest hp hs hstop hlt
  cases hp with
  | bare hi =>
    obtain ⟨t, us, rfl, hk⟩ := hi.exists_head
    have hne : s.stream.current.kind ≠ .openParen := by
      intro he
      simp [← hs.current rfl, he, TokenKind.isName] at hk
    refine (yields_accept_of_ne hne).bind ?_
    rintro _ _ ⟨rfl, rfl⟩
    exact finds_intersectionHint d _ _ a rest hi hs hstop hlt
  | @group l r ts _ hl hi hr =>
    have hlt : ts.length < n := by
      simp only [List.length_cons, List.length_append] at hlt
      omega
    refine (hs.accept hl).bind ?_
    rintro _ s₁ ⟨rfl, hs₁⟩
    have hclose : ∀ t ∈ ([r] ++ rest).head?, t.kind ∉ [TokenKind.ampersand] := by simp [hr]
    refine (finds_intersectionHint d s₁ ts a _ hi hs₁.first hclose hlt).bind ?_
    rintro _ s₂ ⟨rfl, hs₂⟩
    refine ((hs₂.second hs.ne_nil).expect hr).bind fun _ s₃ hs₃ => ?_
    exact .pure ⟨rfl, hs₃⟩

theorem finds_unitedHints {bound : Nat} (hn : n ≤ bound) :
    Finds (Further .bar Member) [.ampersand, .bar] n (unitedHints bound n) := by
  induction n with
  | zero => exact fun _ _ _ _ _ _ _ _ h => absurd h (Nat.not_lt_zero _)
  | succ n ih =>
    intro d s ts hints rest hp hs hstop hlt
    cases hp with
    | none =>
      have hk : s.stream.current.kind ≠ .bar := hs.current_ne (by simp_all)
      refine (yields_accept_of_ne hk).bind ?_
      rintro _ _ ⟨rfl, rfl⟩
      exact .pure ⟨rfl, hs⟩
    | @more t ts us h hs' ht hfirst hrest =>
      simp only [List.length_cons, List.length_append] at hlt
      refine (hs.accept ht).bind ?_
      rintro _ s₁ ⟨rfl, hs₁⟩
      have hne : ∀ t ∈ (us ++ rest).head?, t.kind ≠ .ampersand :=
        hrest.head_ne (by decide) (by simp_all)
      have hfollow : ∀ t ∈ (us ++ rest).head?, t.kind ∉ [TokenKind.ampersand] := by simpa using hne
      refine (finds_memberHint d s₁ ts h _ hfirst hs₁.first hfollow (by omega)).bind ?_
      rintro _ s₂ ⟨rfl, hs₂⟩
      refine (ih (by omega) d s₂ us hs' rest hrest (hs₂.second hs.ne_nil) hstop (by omega)).bind ?_
      rintro _ s₃ ⟨rfl, hs₃⟩
      exact .pure ⟨rfl, hs₃⟩

theorem finds_hint : Finds Derives [.ampersand, .bar] n (hint n) := by
  intro d s ts a rest hp hs hstop hlt
  cases hp with
  | nullable hq hi =>
    refine (hs.accept hq).bind ?_
    rintro _ s₁ ⟨rfl, hs₁⟩
    refine (finds_singleHint (n := n) d s₁ _ _ rest hi hs₁ (by simp) (by simp_all; omega)).bind ?_
    rintro _ s₂ ⟨rfl, hs₂⟩
    exact .pure ⟨rfl, hs₂⟩
  | @union ts us first others hf hr =>
    rw [List.length_append] at hlt
    have hne : s.stream.current.kind ≠ .question := by
      obtain ⟨t, vs, rfl, hk⟩ := hf.exists_head
      exact hs.current rfl ▸ hk
    refine (yields_accept_of_ne hne).bind ?_
    rintro _ _ ⟨rfl, rfl⟩
    have hne : ∀ t ∈ (us ++ rest).head?, t.kind ≠ .ampersand := hr.head_ne (by decide) (by simp_all)
    have hfollow : ∀ t ∈ (us ++ rest).head?, t.kind ∉ [TokenKind.ampersand] := by simpa using hne
    refine (finds_memberHint d _ ts first _ hf hs.first hfollow (by omega)).bind ?_
    rintro _ s₁ ⟨rfl, hs₁⟩
    have hunited := finds_unitedHints (le_refl n) d s₁ us others rest hr (hs₁.second hs.ne_nil) hstop
    refine (hunited (by omega)).bind ?_
    rintro _ s₂ ⟨rfl, hs₂⟩
    exact .pure ⟨rfl, hs₂⟩

/-! ## A text that is a type -/

theorem scans_ofTagged (text : List Char) : Token.Scans true ⟨0, text⟩ (Token.ofTagged text) :=
  Token.scans_listFrom (Nat.lt_succ_self _)

theorem Reached.eq_last (h : Reached text s) (hk : s.stream.current.kind = .endOfFile) :
    s.stream.tokens = [s.stream.current] := by
  rw [TokenStream.tokens, h.closed.eq_nil hk]

/-- A type that is found in a text without a report has been read to the end of the text. -/
theorem justified_loneHint {n : Nat} {a : TypeHint}
    (hr : (loneHint n).run { stream := .ofTokens (Token.ofTagged text) } = some (some a, s'))
    (hd : s'.diagnostics = #[]) : Spells text a := by
  have h : Reached text { stream := .ofTokens (Token.ofTagged text) } := .type
  obtain ⟨_, s₁, ha, hr⟩ := run_bind_eq_some hr
  obtain ⟨found, s₂, hf, hr⟩ := run_bind_eq_some hr
  have h₁ : Reached text s₁ := quiet_advance.reached h ha
  have h₂ : Reached text s₂ := forms_hint.reached h₁ hf
  cases found with
  | none => cases hr
  | some found =>
    rw [(looks_isAt .endOfFile).run_bind] at hr
    split at hr
    · next hk =>
      cases hr
      obtain ⟨ts, hts, hp⟩ := justified_hint s₁ a s' h₁ hf hd
      refine ⟨ts, s'.stream.current, ?_, eq_of_beq hk, hp⟩
      have hall := h.tokens_advance nofun ha
      rw [hts, h₂.eq_last (eq_of_beq hk)] at hall
      exact (List.cons.inj hall).2
    · obtain ⟨_, s₃, ht, hr⟩ := run_bind_eq_some hr
      cases hr
      exact absurd hd (h₂.noted.report ht)

theorem finds_loneHint {ts : List Token} {last : Token} {a : TypeHint} {n : Nat}
    (h : Token.ofTagged text = ts ++ [last]) (hl : last.kind = .endOfFile) (hp : Derives ts a)
    (hn : ts.length < n) :
    Yields (loneHint n) { stream := .ofTokens (Token.ofTagged text) } fun r s' =>
      r = some a ∧ s'.diagnostics = #[] := by
  have htokens : (TokenStream.ofTokens (Token.ofTagged text)).tokens = .beforeFirst :: ts ++ [last] := by
    rw [List.cons_append, ← h]
    rfl
  have hs : Before #[] { stream := .ofTokens (Token.ofTagged text) } (.beforeFirst :: ts) [last] :=
    ⟨htokens, List.cons_ne_nil _ _, htokens ▸ Reached.type.named, rfl⟩
  refine hs.advance.bind fun _ s₁ hs₁ => ?_
  have hstop : ∀ t ∈ [last].head?, t.kind ∉ [TokenKind.ampersand, TokenKind.bar] := by simp [hl]
  refine (finds_hint #[] s₁ ts a [last] hp hs₁ hstop hn).bind ?_
  rintro _ s₂ ⟨rfl, hs₂⟩
  refine (looks_isAt .endOfFile).yields ?_
  rw [if_pos]
  · exact .pure ⟨rfl, hs₂.reports⟩
  · have hlast : s₂.stream.current = last := hs₂.current rfl
    simp [hlast, hl]

theorem fits_loneHint {k n : Nat} (hn : k - 1 < n) : Fits k (loneHint n) := by
  refine .advance ((fits_hint hn).bind fun r => ?_)
  cases r with
  | none => exact .pure
  | some found =>
    refine (looks_isAt _).fits.bind fun _ => .ite (fun _ => .pure) fun _ => ?_
    exact fits_report.bind fun _ => .pure

theorem forms_loneHint {n : Nat} : Forms (loneHint n) [] Item.gap := by
  refine quiet_advance.next fun _ => forms_hint.bind fun r => ?_
  cases r with
  | none => exact .pure (.refl _)
  | some found =>
    refine (looks_isAt _).quiet.next fun _ => .ite (.pure (.refl _)) ?_
    exact quiet_report.next fun _ => .pure (.refl _)

end Grammar

namespace TypeHint

variable {text : List Char} {h : TypeHint}

/-- The rule for a text that is one type comes to an end, with a type or with a report. -/
theorem exists_run (text : List Char) : ∃ r s',
    (Grammar.loneHint (Token.ofTagged text).length).run
      { stream := .ofTokens (Token.ofTagged text) } = some (r, s') ∧
    (r = none → s'.diagnostics ≠ #[]) := by
  have hs : Grammar.Reached text { stream := .ofTokens (Token.ofTagged text) } := .type
  have hpos : 0 < (Token.ofTagged text).length :=
    List.length_pos_iff.mpr (Grammar.scans_ofTagged text).closed.ne_nil
  have hfits := Grammar.fits_loneHint (Nat.sub_one_lt_of_lt hpos)
  obtain ⟨r, s', hr, -⟩ := hfits.yields ⟨hs.closed, le_rfl⟩
  exact ⟨r, s', hr, (Grammar.forms_loneHint.reports rfl _ r s' hs hr).2⟩

theorem parse_eq_ok_iff : parse text = .ok h ↔ Spells text h := by
  constructor
  · intro hp
    simp only [parse] at hp
    split at hp
    · next found s' hr =>
      split at hp
      · next hd =>
        cases hp
        exact Grammar.justified_loneHint hr (Array.isEmpty_iff.mp hd)
      · cases hp
    · cases hp
    · cases hp
  · rintro ⟨ts, last, ht, hl, hp⟩
    have hlt : ts.length < (Token.ofTagged text).length := by simp [ht]
    obtain ⟨r, s', hr, rfl, hd⟩ := Grammar.finds_loneHint ht hl hp hlt
    simp only [parse, hr, hd]
    rfl

/-- What is wrong with a text that is no type is said. -/
theorem exists_diagnostic (hp : ∀ h, parse text ≠ .ok h) :
    ∃ d ds, parse text = .error (d :: ds) := by
  obtain ⟨r, s', hr, hn⟩ := exists_run text
  have he : parse text = .error s'.diagnostics.toList ∧ s'.diagnostics ≠ #[] := by
    cases r with
    | none => exact ⟨by simp only [parse, hr], hn rfl⟩
    | some found =>
      have hd : s'.diagnostics ≠ #[] := by
        intro hd
        refine hp found ?_
        simp only [parse, hr, hd]
        rfl
      refine ⟨?_, hd⟩
      simp only [parse, hr]
      rw [if_neg]
      simpa using hd
  obtain ⟨d, ds, hds⟩ := List.exists_cons_of_ne_nil (l := s'.diagnostics.toList) (by simpa using he.2)
  exact ⟨d, ds, hds ▸ he.1⟩

/-- A text is read as a type exactly if its tokens up to the end are that type by the grammar;
otherwise there is something wrong with it. -/
theorem parse_iff_derives (text : List Char) :
    (∀ h, parse text = .ok h ↔ Spells text h) ∧
    ((∃ h, Spells text h) ∨ ∃ d ds, parse text = .error (d :: ds)) := by
  refine ⟨fun _ => parse_eq_ok_iff, ?_⟩
  by_cases hp : ∃ h, parse text = .ok h
  · obtain ⟨h, hp⟩ := hp
    exact .inl ⟨h, parse_eq_ok_iff.mp hp⟩
  · exact .inr (exists_diagnostic fun h hh => hp ⟨h, hh⟩)

/-- A group that is not closed leaves a type, but also a report. -/
example : parse "(A&B".toList = .error [⟨4, 0, .missing ")"⟩] := by decide +kernel

end TypeHint

end PhpAtlas
