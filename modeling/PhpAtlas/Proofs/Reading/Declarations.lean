import PhpAtlas.Grammar.Declaration
import PhpAtlas.Proofs.Reading.Expressions

/-! # Declarations come to an end

Lists of statements and of members pass over a token that nothing has read, so
that each round of theirs takes at least one token.
-/

namespace PhpAtlas.Grammar

variable {t : Token} {k n : Nat} {s s' : State}

/-! ## Lists of statements -/

theorem turns_skipStatement : Turns k fun depth n => skipStatement n depth := by
  refine .of_round fun depth => .token fun t => ?_
  by_cases ht : t.kind = .endOfFile
  · rw [ht]
    exact .leave .pure
  · have step (d : Nat) : RoundFrom k (fun depth n => skipStatement n depth) (At t)
        fun n => advance >>= fun _ => skipStatement n d :=
      .advance ht .goOn
    split
    · exact .leave .pure
    · exact step _
    · exact step _
    · exact step _
    · exact step _
    · exact step _
    · refine .ite (fun _ => .leave .pure) fun _ => .advance ht ?_
      refine .next (fun _ => looks_token.fits) fun _ => ?_
      exact .ite (fun _ => .leave .pure) fun _ => .goOn
    · exact .advance ht (.ite (fun _ => .leave .pure) fun _ => .goOn)
    · exact .ite (fun _ => .leave .pure) fun _ => step _
    · exact step _

theorem fits_skipStatement {depth : Nat} (hn : k < n) : Fits k (skipStatement n depth) :=
  turns_skipStatement.fits hn (i := depth)

/-- Passes over a token on a condition that holds of a token that nothing has read. -/
theorem yields_guard (stuck : Token → Bool) (fault : SyntaxFault) (hs : Ready k s)
    (ht : s.stream.current.kind ≠ .endOfFile) (hb : stuck s.stream.current = true)
    (h : Later s s') :
    Yields
      (do
        let after ← token
        if stuck after then
          report fault
          advance)
      s' fun _ s'' => Later s s'' ∧ s''.stream.left < s.stream.left := by
  have hs' := hs.later h
  rcases h.lt_or_eq with hlt | heq
  · have hf : Fits k (token >>= fun after =>
        if stuck after = true then report fault >>= fun _ => advance else pure ()) :=
      looks_token.fits.bind fun _ =>
        .ite (fun _ => fits_report.bind fun _ => fits_advance) fun _ => .pure
    exact (hf.yields hs').mono fun _ _ h' => ⟨h.trans h', h'.left_le.trans_lt hlt⟩
  · refine looks_token.yields ?_
    rw [heq, if_pos hb]
    have hr : Yields (report fault) s' fun _ s'' => s''.stream = s'.stream :=
      ⟨(), _, rfl, by dsimp only; split <;> rfl⟩
    refine hr.bind fun _ s'' h'' => ?_
    have hs'' := hs'.later (.of_eq (congrArg TokenStream.tokens h''))
    have ht' : s''.stream.current.kind ≠ .endOfFile := by rwa [h'', heq]
    refine (spendsAt_advance ht' s'' hs'' rfl).mono fun _ _ h₃ => ?_
    rw [Later, h''] at h₃
    exact ⟨h.trans h₃.1, h₃.2.trans_le h.left_le⟩

variable {self : Rules}

theorem turns_statementList {closing : TokenKind} {stopAtNamespace : Bool}
    (hst : Fits k (self .statement)) :
    Turns k fun (_ : Unit) n => statementList self closing stopAtNamespace n := by
  intro _ s hs
  have leave (found : List (Option NodeId)) : Yields (pure found) s fun _ s' => Later s s' :=
    .pure (.refl s)
  refine .look (looks_isAtEndOr closing) (.ite (fun _ => .leave (.refl s) (leave [])) fun h => ?_)
  have ht : s.stream.current.kind ≠ .endOfFile := fun hk => h (by simp [hk])
  refine .look looks_isAtNamespace (.ite (fun _ => .leave (.refl s) (leave [])) fun _ => ?_)
  refine .look looks_token (.bind (hst.yields hs) fun statement s' h' => ?_)
  have hg := yields_guard (fun after => after.start == s.stream.current.start &&
    after.kind == s.stream.current.kind) (.expected "declaration or statement") hs ht (by simp) h'
  refine .bind hg fun _ s'' h'' => ?_
  exact .again (i := ()) (fun rest => if statement.isSome then statement :: rest else rest)
    h''.1 h''.2

theorem fits_statementList {closing : TokenKind} {stopAtNamespace : Bool}
    (hst : Fits k (self .statement)) (hn : k < n) :
    Fits k (statementList self closing stopAtNamespace n) :=
  (turns_statementList hst).fits hn (i := ())

/-- A list that goes on at namespaces stops before its closing token or at the end of the file. -/
theorem statementList_stops {closing : TokenKind} {found : List (Option NodeId)}
    (h : (statementList self closing false n).run s = some (found, s')) :
    s'.stream.current.kind = closing ∨ s'.stream.current.kind = .endOfFile := by
  induction n generalizing s found with
  | zero => cases h
  | succ n ih =>
    rw [statementList, (looks_isAtEndOr closing).run_bind] at h
    split at h
    · next hc =>
      cases h
      simpa using hc
    · rw [looks_isAtNamespace.run_bind, if_neg (by simp), looks_token.run_bind] at h
      obtain ⟨_, _, _, h⟩ := run_bind_eq_some h
      obtain ⟨_, _, _, h⟩ := run_bind_eq_some h
      obtain ⟨_, _, hrest, h⟩ := run_bind_eq_some h
      cases h
      exact ih hrest

theorem fitsAt_block (ht : t.kind = .openBrace) (hst : 0 < k → Fits (k - 1) (self .statement))
    (hn : k < n) : FitsAt t k (block self n) := by
  refine .token (((spendsAt_expect ht (by decide)).map.bind fun hk _ => ?_).fitsAt)
  refine (fits_statementList (hst hk) (by omega)).bind fun _ => ?_
  exact fits_expect.discard.bind fun _ => fits_done

/-! ## Imports -/

theorem turns_modifiers : Turns k fun found n => modifiers n found := by
  refine .of_round fun found => .token fun t => ?_
  cases h : t.kind.modifier? with
  | none => exact .leave .pure
  | some modifier =>
    have ht : t.kind ≠ .endOfFile := by
      intro hk
      rw [hk] at h
      cases h
    refine .look (looks_kindAhead 1) fun _ => .ite (fun _ => .leave .pure) fun _ => ?_
    exact .advance ht .goOn

theorem fits_modifiers {found : Modifiers} (hn : k < n) : Fits k (modifiers n found) :=
  turns_modifiers.fits hn (i := found)

theorem fits_importAlias : Fits k importAlias := by
  refine fits_accept.bind fun _ => .ite (fun _ => ?_) fun _ => .pure
  refine looks_token.fits.bind fun _ => fits_accept.bind fun _ => .ite (fun _ => .pure) fun _ => ?_
  exact fits_report.bind fun _ => .pure

theorem turns_groupItems {shared : String} : Turns k fun (_ : Unit) n => groupItems shared n := by
  refine .of_round fun _ => .token fun t => .ite (fun _ => .leave .pure) fun h => ?_
  refine .advance (ne_endOfFile_of_isName (by simpa using h)) (.next (fun _ => fits_importAlias) fun asName => ?_)
  refine .next (fun _ => fits_accept) fun _ => .ite (fun _ => ?_) fun _ => .leave .pure
  exact .again (i := ()) ((⟨shared ++ "\\" ++ t.value, asName⟩ : Import) :: ·)

theorem fits_groupItems {shared : String} (hn : k < n) : Fits k (groupItems shared n) :=
  turns_groupItems.fits hn (i := ())

theorem fits_importGroup {shared : String} (hn : k < n) : Fits k (importGroup n shared) := by
  refine fits_expect.bind fun _ => .ite (fun _ => ?_) fun _ => .pure
  exact (fits_groupItems hn).bind fun _ => fits_expect.discard.bind fun _ => .pure

theorem fits_importTail {name : String} (hn : k < n) : Fits k (importTail n name) := by
  refine looks_token.fits.bind fun _ => .ite (fun _ => ?_) fun _ => ?_
  · exact fits_advance.bind fun _ => fits_importGroup hn
  · exact fits_importAlias.bind fun _ => .pure

theorem turns_importItems {bound : Nat} (hb : k < bound) :
    Turns k fun (_ : Unit) n => importItems bound n := by
  refine .of_round fun _ => .token fun t => .ite (fun _ => .leave ?_) fun h => ?_
  · exact fits_report.bind fun _ => .pure
  · refine .advance (ne_endOfFile_of_isName (by simpa using h)) ?_
    refine .next (fun _ => fits_importTail (by omega)) fun items => ?_
    refine .next (fun _ => fits_accept) fun _ => .ite (fun _ => ?_) fun _ => .leave .pure
    exact .again (i := ()) (items ++ ·)

theorem fits_importItems {bound : Nat} (hb : k < bound) (hn : k < n) :
    Fits k (importItems bound n) :=
  (turns_importItems hb).fits hn (i := ())

theorem fits_importForm : Fits k importForm := by
  refine fits_accept.bind fun _ => .ite (fun _ => .pure) fun _ => ?_
  exact fits_accept.bind fun _ => .ite (fun _ => .pure) fun _ => .pure

theorem fits_importDeclaration (hn : k < n) : Fits k (importDeclaration n) := by
  refine looks_token.fits.bind fun _ => fits_advance.bind fun _ => fits_importForm.bind fun _ => ?_
  refine (fits_importItems hn hn).bind fun _ => ?_
  exact fits_expectSemicolon.bind fun _ => fits_done

/-! ## Functions -/

theorem fits_parameterHint (hn : k < n) : Fits k (parameterHint n) :=
  looks_token.fits.bind fun _ => .ite (fun _ => .pure) fun _ => fits_hint hn

theorem fits_parameter (he : Fits k (self .expression)) (hn : k < n) :
    Fits k (parameter self n) := by
  refine looks_token.fits.bind fun _ => (fits_modifiers hn).bind fun _ => ?_
  refine (fits_parameterHint hn).bind fun _ => fits_accept.bind fun _ => fits_accept.bind fun _ => ?_
  refine looks_token.fits.bind fun _ => fits_accept.bind fun _ => .ite (fun _ => ?_) fun _ => fits_fail
  exact (fits_initialValue he).bind fun _ => fits_done

theorem turns_parameterItems {bound : Nat} (he : Fits k (self .expression)) (hb : k < bound) :
    Turns k fun (_ : Unit) n => parameterItems self bound n := by
  refine .of_round fun _ => .bind (looks_isAtEndOr _).fits fun _ => ?_
  refine .ite (fun _ => .leave .pure) fun _ => .bind (fits_parameter he hb) fun r => ?_
  cases r with
  | none => exact .leave .pure
  | some item => exact .accept (by decide) (.again (i := ()) (some item :: ·)) (.leave .pure)

theorem fits_parameterItems {bound : Nat} (he : Fits k (self .expression)) (hb : k < bound)
    (hn : k < n) : Fits k (parameterItems self bound n) :=
  (turns_parameterItems he hb).fits hn (i := ())

theorem fits_parameterList (he : Fits k (self .expression)) (hn : k < n) :
    Fits k (parameterList self n) := by
  refine fits_expect.bind fun _ => .ite (fun _ => ?_) fun _ => .pure
  exact (fits_parameterItems he hn hn).bind fun _ => fits_expect.discard.bind fun _ => .pure

theorem fits_declaredName {fits : TokenKind → Bool} {part : String} :
    Fits k (declaredName fits part) := by
  apply (fits_identifierOf fits).bind
  intro r
  cases r with
  | none => exact fits_fail
  | some name => exact .pure

theorem fits_functionBody (hst : Fits k (self .statement)) (hn : k < n) :
    Fits k (functionBody self n) := by
  refine fun t => .isAt ?_
  split
  · next h => exact fitsAt_block (eq_of_beq h) (fun _ => hst.mono (Nat.sub_le ..)) hn
  · exact (fits_expectSemicolon.bind fun _ => .pure) t

theorem fitsAt_functionLike {form : FunctionForm} {start : Nat} {found : Modifiers}
    {doc : Option String} (ht : t.kind = .keyword .functionKw)
    (he : 0 < k → Fits (k - 1) (self .expression)) (hst : 0 < k → Fits (k - 1) (self .statement))
    (hn : k < n) : FitsAt t k (functionLike self n form start found doc) := by
  refine ((spendsAt_expect ht (by decide)).map.bind fun hk _ => ?_).fitsAt
  refine fits_accept.bind fun _ => fits_declaredName.bind fun _ => ?_
  refine (fits_parameterList (he hk) (by omega)).bind fun _ => ?_
  refine (fits_hintAfterColon (by omega)).bind fun _ => ?_
  exact (fits_functionBody (hst hk) (by omega)).bind fun _ => fits_done

theorem fitsAt_functionDeclaration (ht : t.kind = .keyword .functionKw)
    (he : 0 < k → Fits (k - 1) (self .expression)) (hst : 0 < k → Fits (k - 1) (self .statement))
    (hn : k < n) : FitsAt t k (functionDeclaration self n) :=
  .token (.takeDoc fun _ => fitsAt_functionLike ht he hst hn)

/-! ## Class members -/

theorem turns_classNames : Turns k fun (_ : Unit) n => classNames n := by
  refine .of_round fun _ => .bind fits_classNameRule fun name => ?_
  exact .accept (by decide) (.again (i := ()) (name :: ·)) (.leave .pure)

theorem fits_classNames (hn : k < n) : Fits k (classNames n) := turns_classNames.fits hn (i := ())

theorem fits_traitUse (hn : k < n) : Fits k (traitUse n) := by
  refine looks_token.fits.bind fun _ => fits_advance.bind fun _ => (fits_classNames hn).bind fun _ => ?_
  have hc : Fits k (conflictRules n) :=
    (looks_isAt _).fits.bind fun _ => .ite (fun _ => fits_skipStatement hn) fun _ => fits_expectSemicolon
  exact hc.bind fun _ => fits_done

theorem fits_enumCase {start : Nat} (he : Fits k (self .expression)) :
    Fits k (enumCase self start) := by
  refine fits_advance.bind fun _ => looks_token.fits.bind fun _ => .ite (fun _ => fits_fail) fun _ => ?_
  refine fits_advance.bind fun _ => (fits_initialValue he).bind fun _ => ?_
  exact fits_expectSemicolon.bind fun _ => fits_done

theorem turns_constantItems {start : Nat} {found : Modifiers} (he : Fits k (self .expression)) :
    Turns k fun (_ : Unit) n => constantItems self start found n := by
  refine .of_round fun _ => .token fun t => .ite (fun _ => .leave ?_) fun h => ?_
  · exact fits_report.bind fun _ => .pure
  · refine .advance (ne_endOfFile_of_isMemberName (by simpa using h)) ?_
    refine .next (fun _ => fits_expect.discard) fun _ => ?_
    refine .next (fun _ => he.mono (Nat.sub_le ..)) fun value => ?_
    refine .next (fun _ => fits_node) fun item => .next (fun _ => fits_accept) fun _ => ?_
    refine .ite (fun _ => .again (i := ()) (some item :: ·)) fun _ => .leave ?_
    exact fits_expectSemicolon.bind fun _ => .pure

theorem fits_constantItems {start : Nat} {found : Modifiers} (he : Fits k (self .expression))
    (hn : k < n) : Fits k (constantItems self start found n) :=
  (turns_constantItems he).fits hn (i := ())

theorem fits_constants {start : Nat} {found : Modifiers} (he : Fits k (self .expression))
    (hn : k < n) : Fits k (constants self n start found) := by
  have hc : Fits k (constantHint n) :=
    looks_token.fits.bind fun _ => (looks_kindAhead 1).fits.bind fun _ =>
      .ite (fun _ => (fits_hint hn).discard) fun _ => .pure
  exact fits_advance.bind fun _ => hc.bind fun _ => fits_constantItems he hn

theorem turns_propertyItems {start : Nat} {found : Modifiers} {type : Option TypeHint}
    {doc : Option String} (he : Fits k (self .expression)) :
    Turns k fun (_ : Unit) n => propertyItems self start found type doc n := by
  refine .of_round fun _ => .token fun t => .accept (by decide) ?_ (.leave ?_)
  · refine .next (fun _ => fits_initialValue (he.mono (Nat.sub_le ..))) fun initial => ?_
    refine .next (fun _ => fits_node) fun item => .next (fun _ => fits_accept) fun _ => ?_
    refine .ite (fun _ => .again (i := ()) (some item :: ·)) fun _ => .leave ?_
    exact fits_expectSemicolon.bind fun _ => .pure
  · exact fits_report.bind fun _ => .pure

theorem fits_propertyItems {start : Nat} {found : Modifiers} {type : Option TypeHint}
    {doc : Option String} (he : Fits k (self .expression)) (hn : k < n) :
    Fits k (propertyItems self start found type doc n) :=
  (turns_propertyItems he).fits hn (i := ())

theorem fits_properties {start : Nat} {found : Modifiers} {doc : Option String}
    (he : Fits k (self .expression)) (hn : k < n) : Fits k (properties self n start found doc) := by
  have hp : Fits k (propertyHint n) :=
    (looks_isAt _).fits.bind fun _ => .ite (fun _ => .pure) fun _ => fits_hint hn
  exact hp.bind fun _ => fits_propertyItems he hn

theorem fits_classMember (he : Fits k (self .expression)) (hst : Fits k (self .statement))
    (hn : k < n) : Fits k (classMember self n) := by
  refine looks_token.fits.bind fun _ => fits_takeDoc.bind fun _ => (looks_isAt _).fits.bind fun _ => ?_
  refine .ite (fun _ => (fits_traitUse hn).map) fun _ => (looks_isAtWord _).fits.bind fun _ => ?_
  refine .ite (fun _ => (fits_enumCase he).map) fun _ => (fits_modifiers hn).bind fun _ t => ?_
  refine .token ?_
  split
  · exact fits_constants he hn t
  · next ht =>
    refine FitsAt.map ?_
    exact fitsAt_functionLike ht (fun _ => he.mono (Nat.sub_le ..))
      (fun _ => hst.mono (Nat.sub_le ..)) hn
  · exact (fits_advance.bind fun _ => .pure) t
  · split
    · exact (fits_report.bind fun _ => .pure) t
    · exact fits_properties he hn t

theorem turns_classMembers {bound : Nat} (he : Fits k (self .expression))
    (hst : Fits k (self .statement)) (hb : k < bound) :
    Turns k fun (_ : Unit) n => classMembers self bound n := by
  intro _ s hs
  have leave (found : List (Option NodeId)) : Yields (pure found) s fun _ s' => Later s s' :=
    .pure (.refl s)
  refine .look (looks_isAtEndOr _) (.ite (fun _ => .leave (.refl s) (leave [])) fun h => ?_)
  have ht : s.stream.current.kind ≠ .endOfFile := fun hk => h (by simp [hk])
  refine .look looks_token (.bind ((fits_classMember he hst hb).yields hs) fun found s' h' => ?_)
  have hg := yields_guard (fun after => after.start == s.stream.current.start)
    (.expected "class member") hs ht (by simp) h'
  refine .bind hg fun _ s'' h'' => ?_
  exact .again (i := ()) (found ++ ·) h''.1 h''.2

theorem fits_classMembers {bound : Nat} (he : Fits k (self .expression))
    (hst : Fits k (self .statement)) (hb : k < bound) (hn : k < n) :
    Fits k (classMembers self bound n) :=
  (turns_classMembers he hst hb).fits hn (i := ())

/-! ## Classes and namespaces -/

theorem fits_parentNames {form : ClassForm} (hn : k < n) : Fits k (parentNames n form) := by
  refine fits_accept.bind fun _ => .ite (fun _ => ?_) fun _ => .pure
  exact .ite (fun _ => fits_classNames hn) fun _ => fits_classNameRule.map

theorem fits_interfaceNames {form : ClassForm} (hn : k < n) : Fits k (interfaceNames n form) := by
  refine .ite (fun _ => ?_) fun _ => .pure
  exact fits_accept.bind fun _ => .ite (fun _ => fits_classNames hn) fun _ => .pure

theorem fits_classBody (he : Fits k (self .expression)) (hst : Fits k (self .statement))
    (hn : k < n) : Fits k (classBody self n) := by
  refine fits_expect.bind fun _ => .ite (fun _ => ?_) fun _ => .pure
  exact (fits_classMembers he hst hn hn).bind fun _ => fits_expect.discard.bind fun _ => .pure

theorem fits_classDeclaration (he : 0 < k → Fits (k - 1) (self .expression))
    (hst : 0 < k → Fits (k - 1) (self .statement)) (hn : k < n) :
    Fits k (classDeclaration self n) := by
  refine looks_token.fits.bind fun _ => fits_takeDoc.bind fun _ => (fits_modifiers hn).bind fun _ t => ?_
  refine .token ?_
  cases h : classForm? t with
  | none => exact (fits_report.bind fun _ => .pure) t
  | some form =>
    refine .advance (ne_endOfFile_of_classForm? h) fun hk => fits_declaredName.bind fun _ => ?_
    have hb : Fits (k - 1) (backingHint n form) :=
      .ite (fun _ => (fits_hintAfterColon (by omega)).discard) fun _ => .pure
    refine hb.bind fun _ => (fits_parentNames (by omega)).bind fun _ => ?_
    refine (fits_interfaceNames (by omega)).bind fun _ => ?_
    exact (fits_classBody (he hk) (hst hk) (by omega)).bind fun _ => fits_done

theorem fits_namespaceName : Fits k namespaceName := by
  refine looks_token.fits.bind fun _ => .ite (fun _ => ?_) fun _ => .pure
  exact fits_advance.bind fun _ => .pure

theorem fits_namespaceEnd {name : Option String} : Fits k (namespaceEnd name) := by
  unfold namespaceEnd
  split
  · exact fits_report.bind fun _ => fits_expectSemicolon
  · exact fits_expectSemicolon

theorem fitsAt_namespaceDeclaration (ht : t.kind ≠ .endOfFile)
    (hst : 0 < k → Fits (k - 1) (self .statement)) (hn : k < n) :
    FitsAt t k (namespaceDeclaration self n) := by
  refine .token (.advance ht fun hk => fits_namespaceName.bind fun _ => fits_accept.bind fun _ => ?_)
  have hl {closing : TokenKind} {stop : Bool} : Fits (k - 1) (statementList self closing stop n) :=
    fits_statementList (hst hk) (by omega)
  refine .ite (fun _ => ?_) fun _ => ?_
  · exact hl.bind fun _ => fits_expect.discard.bind fun _ => fits_done
  · exact fits_namespaceEnd.bind fun _ => hl.bind fun _ => fits_done

end PhpAtlas.Grammar
