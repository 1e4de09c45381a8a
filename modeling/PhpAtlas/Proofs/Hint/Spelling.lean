import PhpAtlas.Proofs.Hint.Syntax

/-! # The texts of types

The text of a type that the grammar derives is read as tokens from which the
grammar derives the same type. A type that is one token is spelled like the
token. The signs of the other types end a name before them, and are not read
together with the start of a type behind them.
-/

namespace PhpAtlas

open HintSyntax

namespace HintSyntax

/-! ## Types that the grammar derives -/

/-- A token that is spelled like the type stands for it. -/
structure Leaf (h : TypeHint) : Prop where
  name : Lexeme.IsName h.text.toList
  stands : ∀ t : Token, t.kind = Lexeme.nameKind h.text.toList → t.text = h.text → Single [t] h

/-- A type that can be a member of a union. -/
inductive Operand : TypeHint → Prop
  | leaf {h : TypeHint} (hl : Leaf h) : Operand h
  | intersection {first second : TypeHint} {rest : List TypeHint}
      (hl : ∀ h ∈ first :: second :: rest, Leaf h) :
      Operand (.intersection (first :: second :: rest))

/-- A type that can be written. -/
inductive Written : TypeHint → Prop
  | nullable {h : TypeHint} (hl : Leaf h) : Written (.nullable h)
  | operand {h : TypeHint} (ho : Operand h) : Written h
  | union {first second : TypeHint} {rest : List TypeHint}
      (ho : ∀ h ∈ first :: second :: rest, Operand h) : Written (.union (first :: second :: rest))

variable {ts : List Token} {h first : TypeHint} {rest hs : List TypeHint} {sep : TokenKind}

theorem typeKeywords_spelled : ∀ s ∈ typeKeywords,
    s.toList.head?.any isNameStart = true ∧ (Lexeme.nameEnd 0 s.toList).rest = [] ∧
      lower s = s ∧ (Lexeme.nameKind s.toList = .identifier ∨
        s = "static" ∧ Lexeme.nameKind s.toList = .keyword .staticKw) := by
  decide +kernel

theorem leaf_keyword {s : String} (hs : s ∈ typeKeywords) : Leaf (.keyword s) := by
  obtain ⟨hc, he, hl, hk⟩ := typeKeywords_spelled s hs
  obtain ⟨c, hc, ho⟩ := (Option.any_eq_true _ _).mp hc
  obtain ⟨cs, hcs⟩ := List.head?_eq_some_iff.mp hc
  refine ⟨⟨⟨c, cs, hcs, .inr ho⟩, he⟩, fun t ht htext => ?_⟩
  change t.text = s at htext
  rcases hk with hk | ⟨rfl, hk⟩
  · have hb : Single [t] (.keyword (lower t.text)) := .builtIn (ht.trans hk) (by rwa [htext, hl])
    rwa [htext, hl] at hb
  · exact .static (ht.trans hk)

/-- A name that stands for the type makes it a leaf with every token that is the same name. -/
theorem leaf_of_named {t : Token} (ht : t.Named) (hk : t.kind.isName = true)
    (htext : h.text = t.text) (hs : ∀ u : Token, u.kind = t.kind → u.text = t.text → Single [u] h) :
    Leaf h := by
  refine ⟨htext ▸ ht.spelled hk, fun u hu hutext => ?_⟩
  rw [htext] at hu hutext
  exact hs u (hu.trans (ht.kind hk)) hutext

theorem Single.leaf (hs : Single ts h) (hn : ∀ t ∈ ts, t.Named) : Leaf h := by
  cases hs with
  | static => exact leaf_keyword (by decide)
  | builtIn _ hw => exact leaf_keyword hw
  | unqualified hk hw =>
    refine leaf_of_named (hn _ List.mem_cons_self) (hk ▸ rfl) rfl fun u hu htext => ?_
    rw [← htext] at hw ⊢
    exact .unqualified (hu.trans hk) hw
  | qualified hk =>
    refine leaf_of_named (hn _ List.mem_cons_self) (hk ▸ rfl) rfl fun u hu htext => ?_
    rw [← htext]
    exact .qualified (hu.trans hk)
  | fullyQualified hk ht =>
    refine leaf_of_named (hn _ List.mem_cons_self) (hk ▸ rfl) ht.symm fun u hu htext => ?_
    exact .fullyQualified (hu.trans hk) (htext.trans ht)

theorem Further.forall {p : List Token → TypeHint → Prop} {q : TypeHint → Prop}
    (h : Further sep p ts hs) (hq : ∀ us h, p us h → (∀ t ∈ us, t.Named) → q h)
    (hn : ∀ t ∈ ts, t.Named) : ∀ h ∈ hs, q h := by
  induction h with
  | none => exact nofun
  | @more t us vs h hs ht hp _ ih =>
    rintro x (_ | ⟨_, hx⟩)
    · exact hq us h hp fun u hu => hn u (by simp [hu])
    · exact ih (fun u hu => hn u (by simp [hu])) x hx

theorem Intersection.operand (hi : Intersection ts h) (hn : ∀ t ∈ ts, t.Named) : Operand h := by
  obtain @⟨ts, us, first, rest, hf, hr⟩ := hi
  have hfirst : Leaf first := hf.leaf fun t ht => hn t (List.mem_append_left _ ht)
  have hrest : ∀ h ∈ rest, Leaf h :=
    hr.forall (fun _ _ hs => hs.leaf) fun t ht => hn t (List.mem_append_right _ ht)
  cases rest with
  | nil => exact .leaf hfirst
  | cons second rest => exact .intersection (List.forall_mem_cons.mpr ⟨hfirst, hrest⟩)

theorem Member.operand (hm : Member ts h) (hn : ∀ t ∈ ts, t.Named) : Operand h := by
  cases hm with
  | bare hi => exact hi.operand hn
  | group _ hi => exact hi.operand fun t ht => hn t (by simp [ht])

theorem Derives.written (hd : Derives ts h) (hn : ∀ t ∈ ts, t.Named) : Written h := by
  cases hd with
  | nullable _ hs => exact .nullable (hs.leaf fun t ht => hn t (List.mem_cons_of_mem _ ht))
  | @union ts us first rest hf hr =>
    have hfirst : Operand first := hf.operand fun t ht => hn t (List.mem_append_left _ ht)
    have hrest : ∀ h ∈ rest, Operand h :=
      hr.forall (fun _ _ hm => hm.operand) fun t ht => hn t (List.mem_append_right _ ht)
    cases rest with
    | nil => exact .operand hfirst
    | cons second rest => exact .union (List.forall_mem_cons.mpr ⟨hfirst, hrest⟩)

/-! ## Signs -/

/-- The text starts as a type does that is no nullable. -/
def Opens (w : List Char) : Prop := ∃ c cs, w = c :: cs ∧ (OpensName c ∨ c = '(')

/-- A sign that stands before a type. -/
inductive Sign : Char → TokenKind → Prop
  | question : Sign '?' .question
  | bar : Sign '|' .bar
  | ampersand : Sign '&' .ampersand
  | openParen : Sign '(' .openParen

theorem Opens.head_ne {w : List Char} (h : Opens w) :
    ∃ c cs, w = c :: cs ∧ ∀ d ∈ ['?', '|', '&', '=', '-', '>'], (d == c) = false := by
  obtain ⟨c, cs, rfl, hc⟩ := h
  refine ⟨c, cs, rfl, fun d hd => ?_⟩
  have hsign : isNameStart d = false ∧ d ≠ '\\' ∧ d ≠ '(' := by
    simp only [List.mem_cons, List.not_mem_nil, or_false] at hd
    rcases hd with rfl | rfl | rfl | rfl | rfl | rfl <;> decide
  rw [beq_eq_false_iff_ne, ne_comm]
  rcases hc with hc | rfl
  · exact hc.ne hsign.1 hsign.2.1
  · exact hsign.2.2.symm

theorem inTags_sign {c : Char} {cs : List Char} {kind : TokenKind} (pos : Nat) (hc : Sign c kind)
    (ho : Opens cs) : Lexeme.inTags ⟨pos, c :: cs⟩ = ⟨kind, [], ⟨pos + 1, cs⟩⟩ := by
  obtain ⟨d, ds, rfl, hd⟩ := ho.head_ne
  simp only [List.mem_cons, List.not_mem_nil, or_false, forall_eq_or_imp, forall_eq] at hd
  obtain ⟨h1, h2, h3, h4, h5, h6⟩ := hd
  have hp : Lexeme.inTags ⟨pos, c :: d :: ds⟩ = Lexeme.punctuation ⟨pos, c :: d :: ds⟩ := by
    cases hc <;> rfl
  rw [hp]
  cases hc with
  | openParen => rfl
  | question | bar | ampersand =>
    simp [Lexeme.punctuation, Lexeme.spellings, List.isPrefixOf, h1, h2, h3, h4, h5, h6]

theorem reads_sign {c : Char} {cs : List Char} {kind : TokenKind} (pos : Nat) (hc : Sign c kind)
    (ho : Opens cs) :
    ∃ t, Token.Reads ⟨pos, c :: cs⟩ [t] ⟨pos + 1, cs⟩ ∧ t.kind = kind := by
  have hk : kind ≠ .endOfFile ∧ kind ≠ .openTag ∧ kind ≠ .closeTag ∧ Trivia.isGap c = false ∧
      c ≠ '#' ∧ c ≠ '/' := by
    cases hc <;> decide
  obtain ⟨h1, h2, h3, hg, hh, hs⟩ := hk
  obtain ⟨t, ht, hk, -⟩ := Token.reads_lexeme hg hh hs (inTags_sign pos hc ho) h1 h2 h3
  exact ⟨t, ht, hk⟩

theorem reads_closeParen (pos : Nat) (cs : List Char) :
    ∃ t, Token.Reads ⟨pos, ')' :: cs⟩ [t] ⟨pos + 1, cs⟩ ∧ t.kind = .closeParen := by
  have hl : Lexeme.inTags ⟨pos, ')' :: cs⟩ = ⟨.closeParen, [], ⟨pos + 1, cs⟩⟩ := rfl
  obtain ⟨t, ht, hk, -⟩ := Token.reads_lexeme (by decide) (by decide) (by decide) hl nofun nofun nofun
  exact ⟨t, ht, hk⟩

/-! ## Texts -/

/-- Before the end of a name the text is read as tokens that `p` holds of. -/
def Spelled (w : List Char) (p : List Token → Prop) : Prop :=
  ∀ pos rest, EndsNames rest → ∃ ts stop, Token.Reads ⟨pos, w ++ rest⟩ ts ⟨stop, rest⟩ ∧ p ts

theorem Leaf.opens (hl : Leaf h) : Opens h.text.toList := by
  obtain ⟨c, cs, hw, hc⟩ := hl.name.starts
  exact ⟨c, cs, hw, .inl hc⟩

theorem Leaf.spelled (hl : Leaf h) : Spelled h.text.toList (Single · h) := by
  intro pos rest hr
  obtain ⟨t, ht, hk, htext⟩ := Token.reads_name pos hl.name hr
  exact ⟨[t], _, ht, hl.stands t hk (by rw [htext, String.ofList_toList])⟩

theorem Leaf.exists_token (hl : Leaf h) : ∃ t, Single [t] h :=
  ⟨⟨Lexeme.nameKind h.text.toList, 0, 0, h.text, "", none⟩, hl.stands _ rfl rfl⟩

variable {print : TypeHint → String} {p : List Token → TypeHint → Prop} {c : Char}

/-- The elements, each behind a sign. -/
def further (c : Char) (print : TypeHint → String) (hs : List TypeHint) : List Char :=
  hs.flatMap fun h => c :: (print h).toList

theorem endsNames_further {rest : List Char} (hc : isNamePart c = false ∧ c ≠ '\\')
    (hr : EndsNames rest) : EndsNames (further c print hs ++ rest) := by
  cases hs with
  | nil => exact hr
  | cons => rintro _ ⟨⟩; exact hc

theorem opens_append {w v : List Char} (hw : Opens w) : Opens (w ++ v) := by
  obtain ⟨c, cs, rfl, hc⟩ := hw
  exact ⟨c, cs ++ v, rfl, hc⟩

theorem endsName_sign {kind : TokenKind} (hc : Sign c kind) :
    isNamePart c = false ∧ c ≠ '\\' := by
  cases hc <;> decide

theorem spelled_further (hc : Sign c sep)
    (hs' : ∀ h ∈ hs, Opens (print h).toList ∧ Spelled (print h).toList (p · h)) :
    Spelled (further c print hs) (Further sep p · hs) := by
  induction hs with
  | nil => exact fun pos rest _ => ⟨[], pos, .done, .none⟩
  | cons h hs ih =>
    intro pos rest hr
    obtain ⟨⟨ho, hw⟩, hs'⟩ := List.forall_mem_cons.mp hs'
    have hends : EndsNames (further c print hs ++ rest) := endsNames_further (endsName_sign hc) hr
    obtain ⟨t, ht, hk⟩ := reads_sign pos hc (opens_append ho)
    obtain ⟨ts, stop, hts, hp⟩ := hw (pos + 1) _ hends
    obtain ⟨us, stop', hus, hf⟩ := ih hs' stop rest hr
    refine ⟨t :: (ts ++ us), stop', ?_, .more hk hp hf⟩
    have he : further c print (h :: hs) ++ rest =
        c :: ((print h).toList ++ (further c print hs ++ rest)) := by
      simp [further]
    rw [he]
    exact ht.trans (hts.trans hus)

/-- Elements with signs between them. -/
theorem toList_joinWith {s : String} (hs : s = String.singleton c) :
    (joinWith s (print first :: rest.map print)).toList =
      (print first).toList ++ further c print rest := by
  induction rest generalizing first with
  | nil => simp [joinWith, further]
  | cons h rest ih =>
    rw [List.map_cons, joinWith, String.toList_append, String.toList_append, ih, hs]
    · simp [further]
    · simp

theorem spelled_joined {s : String} (hsep : s = String.singleton c) (hc : Sign c sep)
    (hl : ∀ h ∈ first :: rest, Opens (print h).toList ∧ Spelled (print h).toList (p · h)) :
    Opens (joinWith s ((first :: rest).map print)).toList ∧
    Spelled (joinWith s ((first :: rest).map print)).toList fun ts =>
      ∃ us vs, ts = us ++ vs ∧ p us first ∧ Further sep p vs rest := by
  obtain ⟨⟨ho, hw⟩, hrest⟩ := List.forall_mem_cons.mp hl
  rw [List.map_cons, toList_joinWith hsep]
  refine ⟨opens_append ho, fun pos after hr => ?_⟩
  obtain ⟨us, stop, hus, hp⟩ := hw pos _ (endsNames_further (endsName_sign hc) hr)
  obtain ⟨vs, stop', hvs, hf⟩ := spelled_further hc hrest stop after hr
  rw [List.append_assoc]
  exact ⟨us ++ vs, stop', hus.trans hvs, us, vs, rfl, hp, hf⟩

theorem parts_eq (hs : List TypeHint) : TypeHint.parts hs = hs.map TypeHint.text := by
  induction hs with
  | nil => rfl
  | cons h hs ih => rw [TypeHint.parts, ih, List.map_cons]

/-- The text of a member of a union. -/
def memberText : TypeHint → String
  | .intersection hs => "(" ++ TypeHint.text (.intersection hs) ++ ")"
  | h => h.text

theorem Leaf.memberText (hl : Leaf h) : memberText h = h.text := by
  obtain ⟨t, ht⟩ := hl.exists_token
  cases ht <;> rfl

theorem unionParts_eq (hs : List TypeHint) : TypeHint.unionParts hs = hs.map memberText := by
  induction hs with
  | nil => rfl
  | cons h hs ih => cases h <;> simp [TypeHint.unionParts, ih, memberText, TypeHint.text]

theorem spelled_intersection {second : TypeHint} (hl : ∀ h ∈ first :: second :: rest, Leaf h) :
    Opens (TypeHint.intersection (first :: second :: rest)).text.toList ∧
    Spelled (TypeHint.intersection (first :: second :: rest)).text.toList
      (Intersection · (.intersection (first :: second :: rest))) := by
  rw [TypeHint.text, parts_eq]
  obtain ⟨ho, hw⟩ := spelled_joined rfl .ampersand
    fun h hh => ⟨(hl h hh).opens, (hl h hh).spelled⟩
  refine ⟨ho, fun pos after hr => ?_⟩
  obtain ⟨_, stop, hts, us, vs, rfl, hf, hrest⟩ := hw pos after hr
  exact ⟨us ++ vs, stop, hts, .mk hf hrest⟩

theorem Operand.spelled (ho : Operand h) :
    Spelled h.text.toList (Intersection · h) := by
  cases ho with
  | leaf hl =>
    intro pos after hr
    obtain ⟨ts, stop, hts, hs⟩ := hl.spelled pos after hr
    have hi : Intersection (ts ++ []) h := .mk hs (.none : Further .ampersand Single [] [])
    exact ⟨ts, stop, hts, by simpa using hi⟩
  | intersection hl => exact (spelled_intersection hl).2

theorem Operand.spelled_member (ho : Operand h) :
    Opens (memberText h).toList ∧ Spelled (memberText h).toList (Member · h) := by
  cases ho with
  | leaf hl =>
    rw [hl.memberText]
    refine ⟨hl.opens, fun pos after hr => ?_⟩
    obtain ⟨ts, stop, hts, hi⟩ := (Operand.leaf hl).spelled pos after hr
    exact ⟨ts, stop, hts, .bare hi⟩
  | @intersection first second rest hl =>
    obtain ⟨ho, hw⟩ := spelled_intersection hl
    have htext : (memberText (.intersection (first :: second :: rest))).toList =
        '(' :: ((TypeHint.intersection (first :: second :: rest)).text.toList ++ [')']) := by
      simp [memberText]
    rw [htext]
    refine ⟨⟨_, _, rfl, .inr rfl⟩, fun pos after hr => ?_⟩
    have hclose : EndsNames (')' :: after) := by
      rintro _ ⟨⟩
      decide
    obtain ⟨l, hl, hlk⟩ := reads_sign pos .openParen (opens_append ho)
    obtain ⟨ts, stop, hts, hi⟩ := hw (pos + 1) _ hclose
    obtain ⟨r, hr, hrk⟩ := reads_closeParen stop after
    refine ⟨l :: (ts ++ [r]), stop + 1, ?_, .group hlk hi hrk⟩
    simpa using hl.trans (hts.trans hr)

theorem Written.spelled (hw : Written h) : Spelled h.text.toList (Derives · h) := by
  intro pos after hr
  cases hw with
  | @nullable h hl =>
    obtain ⟨q, hq, hk⟩ := reads_sign pos .question (opens_append hl.opens)
    obtain ⟨ts, stop, hts, hs⟩ := hl.spelled (pos + 1) after hr
    refine ⟨q :: ts, stop, ?_, .nullable hk hs⟩
    simpa [TypeHint.text] using hq.trans hts
  | operand ho =>
    obtain ⟨ts, stop, hts, hi⟩ := ho.spelled pos after hr
    have hd : Derives (ts ++ []) h := .union (.bare hi) (.none : Further .bar Member [] [])
    exact ⟨ts, stop, hts, by simpa using hd⟩
  | union ho =>
    rw [TypeHint.text, unionParts_eq]
    obtain ⟨-, hu⟩ := spelled_joined rfl .bar fun h hh => (ho h hh).spelled_member
    obtain ⟨_, stop, hts, us, vs, rfl, hf, hrest⟩ := hu pos after hr
    exact ⟨us ++ vs, stop, hts, .union hf hrest⟩

end HintSyntax

/-! ## Reading a text back -/

namespace TypeHint

variable {text : List Char} {h : TypeHint}

theorem written_of_parse (hp : parse text = .ok h) : Written h := by
  obtain ⟨ts, last, ht, -, hd⟩ := parse_eq_ok_iff.mp hp
  refine hd.written fun t hts => ?_
  have hs := (Grammar.scans_ofTagged text).named
  exact hs t (ht ▸ List.mem_append_left _ hts)

theorem parse_text_of_written (hw : Written h) : parse h.text.toList = .ok h := by
  obtain ⟨ts, stop, hts, hd⟩ := hw.spelled 0 [] nofun
  obtain ⟨last, hl, hk⟩ := Token.scans_nil stop
  rw [List.append_nil] at hts
  have hscan := (hts.scans hl).unique (Grammar.scans_ofTagged h.text.toList)
  exact parse_eq_ok_iff.mpr ⟨ts, last, hscan.symm, hk, hd⟩

/-- The text of a type that has been read from some text is read as the same type. -/
theorem parse_text (hp : parse text = .ok h) : parse h.text.toList = .ok h :=
  parse_text_of_written (written_of_parse hp)

theorem parse_text_of_group :
    parse "(a & \\B\\é) | NULL".toList = .ok (.union
      [.intersection [.name ⟨"a", .unqualified⟩, .name ⟨"B\\é", .fullyQualified⟩],
        .keyword "null"]) ∧
    parse "(a&\\B\\é)|null".toList = .ok (.union
      [.intersection [.name ⟨"a", .unqualified⟩, .name ⟨"B\\é", .fullyQualified⟩],
        .keyword "null"]) := by
  have hp : parse "(a & \\B\\é) | NULL".toList = .ok (.union
      [.intersection [.name ⟨"a", .unqualified⟩, .name ⟨"B\\é", .fullyQualified⟩],
        .keyword "null"]) := by
    decide +kernel
  exact ⟨hp, parse_text hp⟩

end TypeHint

end PhpAtlas
