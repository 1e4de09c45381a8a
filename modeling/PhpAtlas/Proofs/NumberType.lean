import PhpAtlas.ExpressionType
import PhpAtlas.Proofs.Operators.Reading
import PhpAtlas.Proofs.Token.Numbers

/-! # Types of numbers

The type of a number is guessed from its characters. It is the type that the number
has by the way it is written.
-/

namespace PhpAtlas

open String (utf8Len)
open Arena (typeOfNumber)

variable {w u : List Char} {a : Arena} {i : NodeId} {value : String}

namespace Numeral

/-! ## How numbers are told apart -/

/-- An integer that is not hexadecimal has no letters but the one for its base. -/
theorem IsInteger.hexadecimal_or_subset (h : IsInteger w) :
    (∃ mark ∈ ['x', 'X'], ∃ u, w = '0' :: mark :: u) ∨ w ⊆ decimalDigits ++ "_oObB".toList := by
  cases h with
  | decimal hw => exact .inr (hw.subset (by decide))
  | @based marks digits u mark hb hm hw =>
    have hbases : ∀ b ∈ bases, b.1 = ['x', 'X'] ∨ b.1 ⊆ decimalDigits ++ "_oObB".toList ∧
        '_' :: b.2 ⊆ decimalDigits ++ "_oObB".toList := by decide
    obtain rfl | ⟨hmarks, hdigits⟩ := hbases _ hb
    · exact .inl ⟨mark, hm, u, rfl⟩
    · right
      rw [List.cons_subset, List.cons_subset]
      exact ⟨by decide, hmarks hm, hw.subset hdigits⟩

theorem Pointed.dot_mem (h : Pointed w) : '.' ∈ w := by
  cases h <;> simp

theorem IsFloat.exists_mark (h : IsFloat w) : ∃ c ∈ w, c ∈ ['.', 'e', 'E'] := by
  cases h with
  | pointed hw => exact ⟨'.', hw.dot_mem, by decide⟩
  | @exponent mark w sign v _ hm => exact ⟨mark, by simp, List.mem_cons_of_mem _ hm⟩

/-! ## What is guessed from the characters -/

theorem typeOfNumber_of_hexadecimal {mark : Char} (hm : mark ∈ ['x', 'X']) :
    typeOfNumber (String.ofList ('0' :: mark :: u)) = .simple .int := by
  have hlower : ∀ c ∈ ['x', 'X'], c.toLower = 'x' :=
    List.all_iff_forall_prop.mp (by decide)
  simp [typeOfNumber, lower, hlower mark hm]

theorem typeOfNumber_of_unmarked (h : ∀ c ∈ u, c.toLower ≠ '.' ∧ c.toLower ≠ 'e') :
    typeOfNumber (String.ofList u) = .simple .int := by
  simp only [typeOfNumber, lower, String.toList_ofList]
  rw [if_neg]
  simp only [Bool.and_eq_true, Bool.or_eq_true, List.contains_iff_mem, List.mem_map]
  rintro ⟨-, ⟨c, hc, he⟩ | ⟨c, hc, he⟩⟩
  · exact (h c hc).1 he
  · exact (h c hc).2 he

theorem typeOfNumber_of_marked (hx : ∀ c ∈ u, c.toLower ≠ 'x')
    (h : ∃ c ∈ u, c.toLower = '.' ∨ c.toLower = 'e') :
    typeOfNumber (String.ofList u) = .simple .float := by
  have hp : ['0', 'x'].isPrefixOf (u.map Char.toLower) = false := by
    rw [Bool.eq_false_iff, ne_eq, List.isPrefixOf_iff_prefix]
    intro hp
    obtain ⟨c, hc, he⟩ := List.mem_map.mp (hp.subset (by simp : 'x' ∈ ['0', 'x']))
    exact hx c hc he
  simp only [typeOfNumber, lower, String.toList_ofList, hp]
  rw [if_pos]
  simp only [Bool.not_false, Bool.true_and, Bool.or_eq_true, List.contains_iff_mem, List.mem_map]
  obtain ⟨c, hc, he | he⟩ := h
  · exact .inl ⟨c, hc, he⟩
  · exact .inr ⟨c, hc, he⟩

theorem typeOfNumber_of_isInteger (h : IsInteger w) :
    typeOfNumber (String.ofList (w.filter (· != '_'))) = .simple .int := by
  rcases h.hexadecimal_or_subset with ⟨mark, hm, u, rfl⟩ | hw
  · have hu : ∀ c ∈ ['x', 'X'], c ≠ '_' := List.all_iff_forall_prop.mp (by decide)
    rw [List.filter_cons_of_pos (by decide), List.filter_cons_of_pos (by simpa using hu mark hm)]
    exact typeOfNumber_of_hexadecimal hm
  · have hplain : ∀ c ∈ decimalDigits ++ "_oObB".toList, c.toLower ≠ '.' ∧ c.toLower ≠ 'e' :=
      List.all_iff_forall_prop.mp (by decide)
    exact typeOfNumber_of_unmarked fun c hc => hplain c (hw (List.mem_of_mem_filter hc))

theorem typeOfNumber_of_isFloat (h : IsFloat w) :
    typeOfNumber (String.ofList (w.filter (· != '_'))) = .simple .float := by
  have hx : ∀ c ∈ decimalDigits ++ "_.eE+-".toList, c.toLower ≠ 'x' :=
    List.all_iff_forall_prop.mp (by decide)
  have hmarks : ∀ c ∈ ['.', 'e', 'E'], c ≠ '_' ∧ (c.toLower = '.' ∨ c.toLower = 'e') :=
    List.all_iff_forall_prop.mp (by decide)
  obtain ⟨c, hc, hm⟩ := h.exists_mark
  obtain ⟨hu, hlower⟩ := hmarks c hm
  refine typeOfNumber_of_marked (fun c hc => hx c (h.subset (List.mem_of_mem_filter hc))) ?_
  exact ⟨c, List.mem_filter.mpr ⟨hc, by simpa using hu⟩, hlower⟩

theorem IsInteger.not_isFloat (h : IsInteger w) : ¬IsFloat w := by
  intro hf
  have heq := (typeOfNumber_of_isInteger h).symm.trans (typeOfNumber_of_isFloat hf)
  cases heq

/-- What is guessed from the characters is how the number is written. -/
theorem IsNumeral.typeOfNumber_iff (h : IsNumeral w) :
    let type := typeOfNumber (String.ofList (w.filter (· != '_')))
    (type = .simple .float ↔ IsFloat w) ∧ (type = .simple .int ↔ IsInteger w) := by
  rcases h with h | h
  · simp [typeOfNumber_of_isInteger h, h, h.not_isFloat]
  · have hi : ¬IsInteger w := fun hi => hi.not_isFloat h
    simp [typeOfNumber_of_isFloat h, h, hi]

end Numeral

namespace Arena

/-- The type of a number depends on nothing around it. -/
theorem typeOf_number (h : a.payload? i = some (.literal .number value)) :
    a.typeOf (some i) = typeOfNumber value := by
  have hu : a.unparenthesized? i = some i := by
    rw [unparenthesized?]
    cases a.size with
    | zero => rfl
    | succ n => simp only [unwrap, h]
  rw [typeOf, typeWithin]
  simp only [Option.bind_some, hu, h]

end Arena

namespace Grammar

open Numeral

/-- A number is read as one node, whatever follows it. -/
theorem run_primary_number {s : State} {t : Token} (ht : s.stream.current = t)
    (hk : t.kind = .number) (self : Rules) (n : Nat) :
    (primary self n).run s = some (some s.arena.size,
      { s.next with arena := s.arena.added (.literal .number t.value) t.start (max t.stop t.start) }) := by
  rw [primary, looks_token.run_bind, ht]
  simp only [hk]
  rw [run_bind_of_eq run_advance_next]
  subst ht
  rfl

/-- A number is one token exactly if its exponent has no sign, a digit stands behind its point and
what follows ends it; an integer has neither. The value of the token is the number without its
underscores, and the literal that is read from it is a float exactly if the number is one. -/
theorem number_literal (hn : IsNumeral w) (pos : Nat) (rest : List Char) :
    let t : Token :=
      ⟨.number, pos, pos + utf8Len w, String.ofList w, String.ofList (w.filter (· != '_')), none⟩
    (Token.next true ⟨pos, w ++ rest⟩ = (t, ⟨pos + utf8Len w, rest⟩, true) ↔
      Undivided w ∧ EndsNumbers rest) ∧
    (IsInteger w → Undivided w) ∧
    ∀ (self : Rules) (n : Nat) (s : State), s.stream.current = t →
      ∃ s', (primary self n).run s = some (some s.arena.size, s') ∧
        ∀ b, s'.arena.PrefixOf b →
          b.payload? s.arena.size = some (.literal .number t.value) ∧
          (b.typeOf (some s.arena.size) = .simple .float ↔ IsFloat w) ∧
          (b.typeOf (some s.arena.size) = .simple .int ↔ IsInteger w) := by
  intro t
  refine ⟨Token.next_number_iff hn, IsInteger.undivided, fun self n s hs => ?_⟩
  refine ⟨_, run_primary_number hs rfl self n, fun b hb => ?_⟩
  have hp : b.payload? s.arena.size = some (.literal .number t.value) := by
    refine hb.payload?_eq_some ?_
    rw [Arena.payload?_added, if_pos rfl]
  rw [Arena.typeOf_number hp]
  exact ⟨hp, hn.typeOfNumber_iff⟩

theorem number_literal_separated :
    let t : Token := ⟨.number, 6, 13, "1_0.5e3", "10.5e3", none⟩
    IsNumeral "1_0.5e3".toList ∧
      Token.next true ⟨6, "1_0.5e3;".toList⟩ = (t, ⟨13, [';']⟩, true) ∧
      ∃ s', (primary (rules 0) 0).run { stream := ⟨t, [.endAt 13], none⟩ } = some (some 0, s') ∧
        s'.arena.typeOf (some 0) = .simple .float := by
  have hten : Digits decimalDigits ['1', '_', '0'] := .apart (by decide) (.one (by decide))
  have hfive : Digits decimalDigits ['5'] := .one (by decide)
  have hthree : Digits decimalDigits ['3'] := .one (by decide)
  have hf : IsFloat ((['1', '_', '0'] ++ '.' :: ['5']) ++ 'e' :: ([] ++ ['3'])) :=
    .exponent (.inr (.around hten hfive)) (by decide) (by decide) hthree
  obtain ⟨htoken, -, htype⟩ := number_literal (.inr hf) 6 [';']
  obtain ⟨s', hs', hb⟩ := htype (rules 0) 0 { stream := ⟨_, [.endAt 13], none⟩ } rfl
  exact ⟨.inr hf, htoken.mpr ⟨by decide, by decide⟩, s', hs', (hb _ (.refl _)).2.1.mpr hf⟩

end Grammar

end PhpAtlas
