import Mathlib.Logic.Relation
import PhpAtlas.Proofs.Passing
import PhpAtlas.Proofs.Reading.Fits
import PhpAtlas.Proofs.Token.Names
import PhpAtlas.Proofs.Tree.Forest

/-! # How rules work

While rules run they have things in their hands: the places where constructs
start and the parts that have been read. What a rule does to a state and to
what is in its hands is a sequence of elementary steps. So a property of the
trees that rules build is proved for each of these steps, not for each rule.
-/

namespace PhpAtlas

namespace Payload

variable {α : Type}

/-- The names that full names are made of have no backslash before them. -/
def Bare : Payload α → Prop
  | identifier text => Unrooted text
  | namespaceBlock (some home) _ _ => Unrooted home ∧ home ≠ ""
  | _ => True

/-- No part is missing without which the construct is not well-formed. The key of an entry of an
array may be missing, like the branches of a conditional and the body of a function. -/
def Whole : Payload (Option α) → Prop
  | sourceFile statements | namespaceBlock _ statements _ | block statements =>
      ∀ x ∈ statements, x.isSome
  | classLike _ d =>
      d.name.isSome ∧ (∀ x ∈ d.parents, x.isSome) ∧ (∀ x ∈ d.interfaces, x.isSome) ∧
        ∀ x ∈ d.members, x.isSome
  | traitUse traits => ∀ x ∈ traits, x.isSome
  | function _ d => d.name.isSome ∧ ∀ x ∈ d.parameters, x.isSome
  | expressionStatement e | parenthesized e => e.isSome
  | ifStatement condition _ _ => condition.isSome
  | assign target value _ => target.isSome ∧ value.isSome
  | binary left _ right => left.isSome ∧ right.isSome
  | unary _ operand _ => operand.isSome
  | conditional condition _ whenFalse => condition.isSome ∧ whenFalse.isSome
  | call form target member arguments _ =>
      target.isSome ∧ (form ≠ .function → member.isSome) ∧ ∀ x ∈ arguments, x.isSome
  | access _ target _ _ => target.isSome
  | newObject classRef arguments => classRef.isSome ∧ ∀ x ∈ arguments, x.isSome
  | array entries => ∀ e ∈ entries, e.2.isSome
  | .variable text e => e.isSome = text.isNone
  | _ => True

end Payload

namespace Grammar

/-- What a rule can have in its hands. -/
inductive Item
  /-- A place where a construct may start. -/
  | mark (pos : Nat)
  /-- A place where a construct starts of which a token has been read. -/
  | begun (pos : Nat)
  /-- A part of a construct, if there is one. -/
  | slot (part : Option NodeId)

namespace Item

/-- The node that is in a slot. -/
def id? : Item → Option NodeId
  | slot part => part
  | _ => none

/-- One part, present or missing. -/
abbrev one (part : Option NodeId) : List Item := [slot part]

abbrev many (parts : List (Option NodeId)) : List Item := parts.map slot

/-- A part that does not count as missing where there is none. -/
abbrev opt (part : Option NodeId) : List Item := many (part.toList.map some)

/-- What a rule without nodes leaves, which counts as a missing part where the rule fails. -/
def gap {α : Type} : Option α → List Item
  | none => [slot none]
  | some _ => []

theorem many_append (parts parts' : List (Option NodeId)) :
    many (parts ++ parts') = many parts ++ many parts' :=
  List.map_append

/-- The parts of a construct stand last. -/
theorem many_suffix {xs : List Item} {x : Item} {parts : List (Option NodeId)} :
    many parts <:+ xs ++ x :: many parts :=
  (List.suffix_cons _ _).trans (List.suffix_append _ _)

theorem opt_sublist_one (part : Option NodeId) : (opt part).Sublist (one part) := by
  cases part
  · exact List.nil_sublist _
  · exact .refl _

end Item

open Item

/-- The nodes in a list of slots. -/
abbrev idsOf (parts : List (Option NodeId)) : List NodeId := parts.filterMap id

/-- One step of a rule. What is not of use any more is dropped. -/
inductive Work : State × List Item → State × List Item → Prop
  | advance {s s' xs} (h : advance.run s = some ((), s')) : Work (s, xs) (s', xs)
  | report {s s' xs fault} (h : (report fault).run s = some ((), s')) :
      Work (s, xs) (s', xs ++ [slot none])
  | takeDoc {s s' xs doc} (h : takeDoc.run s = some (doc, s')) : Work (s, xs) (s', xs)
  | depth {s xs} (d : Nat) : Work (s, xs) ({ s with depth := d }, xs)
  | drop {s xs ys} (h : ys.Sublist xs) : Work (s, xs) (s, ys)
  /-- A construct may start at the current token. -/
  | note {s xs} : Work (s, xs) (s, xs ++ [mark s.stream.current.start])
  /-- Reading a token begins the construct that starts there. -/
  | begin {s s' xs pos} (hk : s.stream.current.kind ≠ .endOfFile)
      (h : Grammar.advance.run s = some ((), s')) :
      Work (s, xs ++ [mark pos]) (s', xs ++ [begun pos])
  /-- A part of it that has been read begins a construct, too. -/
  | first {s xs pos i} :
      Work (s, xs ++ [mark pos, slot (some i)]) (s, xs ++ [begun pos, slot (some i)])
  | forget {s xs pos} : Work (s, xs ++ [begun pos]) (s, xs ++ [mark pos])
  /-- A construct is finished from its parts, and is whole if none of them is missing. -/
  | finish {s s' xs pos parts payload i} (hb : payload.Bare)
      (hc : Arena.childrenOf payload = idsOf parts)
      (hw : (∀ x ∈ parts, x.isSome) → payload.Whole)
      (h : (node payload pos).run s = some (i, s')) :
      Work (s, xs ++ begun pos :: many parts) (s', xs ++ [begun pos, slot (some i), begun pos])

variable {c d e : State × List Item}

/-- Any number of steps. -/
abbrev Works : State × List Item → State × List Item → Prop := Relation.ReflTransGen Work

/-- What every step preserves holds after any number of them. -/
theorem Works.preserves {P : State × List Item → Prop} (step : ∀ c d, Work c d → P c → P d)
    (h : Works c d) (hc : P c) : P d := by
  induction h with
  | refl => exact hc
  | tail _ hw ih => exact step _ _ hw ih

theorem Work.later (h : Work c d) : Later c.1 d.1 := by
  cases h with
  | advance h => cases h; exact TokenStream.tokens_next_suffix _
  | report h => obtain ⟨_, _, rfl⟩ := exists_of_report h; exact .of_eq rfl
  | takeDoc h => cases h; exact .of_eq rfl
  | depth | drop | note | first | forget => exact .of_eq rfl
  | begin _ h => cases h; exact TokenStream.tokens_next_suffix _
  | finish _ _ _ h => cases h; exact .of_eq rfl

theorem Works.later (h : Works c d) : Later c.1 d.1 := by
  induction h with
  | refl => exact Later.refl c.1
  | tail _ hw ih => exact ih.trans hw.later

/-! ## What rules leave -/

/-- The names in the tokens ahead have no backslash before them. -/
def State.Bare (s : State) : Prop := ∀ t ∈ s.stream.tokens, t.Bare

theorem State.Bare.later {s s' : State} (h : s.Bare) (hl : Later s s') : s'.Bare :=
  fun t ht => h t (hl.subset ht)

variable {α β : Type} {s s' : State} {t : Token} {m : Parse α} {f : α → Parse β}
variable {xs ys inp inp' : List Item} {mid out out' : α → List Item} {res : β → List Item}

/-- At the token `t`, the rule takes `inp` out of the hands and leaves what `out` has of its
result. -/
def FormsAt (t : Token) (m : Parse α) (inp : List Item) (out : α → List Item) : Prop :=
  ∀ s xs r s', s.Bare → s.stream.current = t → m.run s = some (r, s') →
    Works (s, xs ++ inp) (s', xs ++ out r)

/-- The same at any token. -/
def Forms (m : Parse α) (inp : List Item) (out : α → List Item) : Prop := ∀ t, FormsAt t m inp out

/-- The rule leaves the hands as they are. -/
abbrev Quiet (m : Parse α) : Prop := Forms m [] fun _ => []

theorem FormsAt.of (hm : Forms m inp out) : FormsAt t m inp out := hm t

theorem FormsAt.pure {a : α} (h : (out a).Sublist inp) : FormsAt t (Pure.pure a) inp out := by
  intro s xs r s' _ _ hr
  cases hr
  exact .single (.drop (.append_left h xs))

theorem Forms.pure {a : α} (h : (out a).Sublist inp) : Forms (Pure.pure a) inp out :=
  fun _ => .pure h

theorem FormsAt.bind (hm : FormsAt t m inp mid) (hf : ∀ a, Forms (f a) (mid a) res) :
    FormsAt t (m >>= f) inp res := by
  intro s xs r s'' hs ht h
  obtain ⟨a, s', hr, hr'⟩ := run_bind_eq_some h
  have hw := hm s xs a s' hs ht hr
  exact hw.trans (hf a _ s' xs r s'' (hs.later hw.later) rfl hr')

theorem Forms.bind (hm : Forms m inp mid) (hf : ∀ a, Forms (f a) (mid a) res) :
    Forms (m >>= f) inp res :=
  fun t => (hm t).bind hf

/-- More may be in the hands before what the rule takes. -/
theorem FormsAt.frame (hm : FormsAt t m inp out) (ys : List Item) :
    FormsAt t m (ys ++ inp) fun r => ys ++ out r := by
  intro s xs r s' hs ht hr
  rw [← List.append_assoc, ← List.append_assoc]
  exact hm s _ r s' hs ht hr

theorem Forms.frame (hm : Forms m inp out) (ys : List Item) :
    Forms m (ys ++ inp) fun r => ys ++ out r :=
  fun t => (hm t).frame ys

/-- The rule runs while `inp` waits for what comes next. -/
theorem FormsAt.next (hm : FormsAt t m [] mid) (hf : ∀ a, Forms (f a) (inp ++ mid a) res) :
    FormsAt t (m >>= f) inp res := by
  have h := hm.frame inp
  rw [List.append_nil] at h
  exact h.bind hf

theorem Forms.next (hm : Forms m [] mid) (hf : ∀ a, Forms (f a) (inp ++ mid a) res) :
    Forms (m >>= f) inp res :=
  fun t => (hm t).next hf

/-- Something of the result may be dropped. -/
theorem FormsAt.mono (hm : FormsAt t m inp out) (h : ∀ r, (out' r).Sublist (out r)) :
    FormsAt t m inp out' := by
  intro s xs r s' hs ht hr
  exact (hm s xs r s' hs ht hr).tail (.drop (.append_left (h r) xs))

theorem Forms.mono (hm : Forms m inp out) (h : ∀ r, (out' r).Sublist (out r)) :
    Forms m inp out' :=
  fun t => (hm t).mono h

/-- Something may be dropped before the rule runs. -/
theorem FormsAt.drop (h : inp'.Sublist inp) (hm : FormsAt t m inp' out) : FormsAt t m inp out := by
  intro s xs r s' hs ht hr
  exact .head (.drop (.append_left h xs)) (hm s xs r s' hs ht hr)

theorem Forms.drop (h : inp'.Sublist inp) (hm : Forms m inp' out) : Forms m inp out :=
  fun t => (hm t).drop h

theorem Forms.of_eq (h : inp = inp') (hm : Forms m inp' out) : Forms m inp out := h ▸ hm

theorem FormsAt.map {g : α → β} (hm : FormsAt t m inp fun r => res (g r)) :
    FormsAt t (g <$> m) inp res := by
  rw [← bind_pure_comp]
  exact hm.bind fun a => .pure (.refl _)

theorem Forms.map {g : α → β} (hm : Forms m inp fun r => res (g r)) : Forms (g <$> m) inp res :=
  fun t => (hm t).map

theorem FormsAt.ite {p : Prop} [Decidable p] {m₁ m₂ : Parse α} (h₁ : p → FormsAt t m₁ inp out)
    (h₂ : ¬p → FormsAt t m₂ inp out) : FormsAt t (if p then m₁ else m₂) inp out := by
  split
  · next h => exact h₁ h
  · next h => exact h₂ h

theorem Forms.ite {p : Prop} [Decidable p] {m₁ m₂ : Parse α} (h₁ : Forms m₁ inp out)
    (h₂ : Forms m₂ inp out) : Forms (if p then m₁ else m₂) inp out :=
  fun t => .ite (fun _ => h₁ t) fun _ => h₂ t

/-! ## Rules that leave nothing -/

theorem Quiet.next (hm : Quiet m) (hf : ∀ a, Forms (f a) inp res) : Forms (m >>= f) inp res := by
  apply Forms.next hm
  intro a
  rw [List.append_nil]
  exact hf a

theorem Quiet.discard (hm : Quiet m) : Quiet (Functor.discard m) := Forms.map hm

theorem Looks.quiet {g : State → α} (hm : Looks m g) : Quiet m := by
  intro t s xs r s' _ _ h
  rw [hm s] at h
  cases h
  exact .refl

theorem run_outOfSteps : (outOfSteps : Parse α).run s = none := rfl

theorem forms_outOfSteps : Forms (outOfSteps : Parse α) inp out := by
  intro t s xs r s' _ _ h
  rw [run_outOfSteps] at h
  cases h

theorem quiet_advance : Quiet advance := by
  intro t s xs r s' _ _ h
  exact .single (.advance h)

/-- A report stands for what is missing. -/
theorem forms_report {fault : SyntaxFault} : Forms (report fault) [] fun _ => [slot none] := by
  intro t s xs r s' _ _ h
  rw [List.append_nil]
  exact .single (.report h)

theorem quiet_report {fault : SyntaxFault} : Quiet (report fault) :=
  forms_report.mono fun _ => List.nil_sublist _

theorem quiet_depth (d : Nat → Nat) :
    Quiet (modify fun s => { s with depth := d s.depth } : Parse PUnit) := by
  intro t s xs r s' _ _ h
  cases h
  exact .single (.depth _)

variable {kind : TokenKind} {spelling part : String}

/-- Rules that only pass over tokens leave the hands as they are. -/
theorem inherited_quiet : Inherited fun _ m => Quiet m where
  pure _ := .pure (.refl _)
  bind hm hf := hm.next hf
  look hm := hm.quiet
  outOfSteps := forms_outOfSteps
  advance := quiet_advance
  report _ := quiet_report

theorem quiet_accept : Quiet (accept kind) := inherited_quiet.accept

theorem quiet_expect : Quiet (expect kind spelling) := inherited_quiet.expect

theorem quiet_expectSemicolon : Quiet expectSemicolon := inherited_quiet.expectSemicolon

/-! ## Rules at a token -/

variable {pos : Nat} {payload : Payload (Option NodeId)}

theorem FormsAt.look {g : State → α} (hm : Looks m g)
    (h : ∀ s, s.stream.current = t → FormsAt t (f (g s)) inp res) : FormsAt t (m >>= f) inp res := by
  intro s xs r s' hs ht hr
  rw [hm.run_bind] at hr
  exact h s ht s xs r s' hs ht hr

theorem FormsAt.token {f : Token → Parse β} (h : t.Bare → FormsAt t (f t) inp res) :
    FormsAt t (Grammar.token >>= f) inp res := by
  rintro s xs r s' hs rfl hr
  rw [looks_token.run_bind] at hr
  exact h (hs _ List.mem_cons_self) s xs r s' hs rfl hr

/-- It is noted where the rule starts. -/
theorem FormsAt.marked (hm : FormsAt t m [mark t.start] out) : FormsAt t m [] out := by
  rintro s xs r s' hs rfl hr
  rw [List.append_nil]
  exact .head .note (hm s xs r s' hs rfl hr)

theorem FormsAt.note {f : Token → Parse β} (h : t.Bare → FormsAt t (f t) [mark t.start] res) :
    FormsAt t (Grammar.token >>= f) [] res :=
  .token fun ht => (h ht).marked

theorem FormsAt.takeDoc {f : Option String → Parse β} (h : ∀ doc, FormsAt t (f doc) inp res) :
    FormsAt t (Grammar.takeDoc >>= f) inp res := by
  intro s xs r s' hs ht hr
  have hd : Work (s, xs ++ inp) ({ s with stream := s.stream.dropDoc }, xs ++ inp) := .takeDoc rfl
  exact .head hd (h _ _ xs r s' hs ht hr)

/-- The token that is read begins the construct. -/
theorem FormsAt.begin {f : PUnit → Parse β} (ht : t.kind ≠ .endOfFile)
    (hf : Forms (f ()) [begun pos] res) : FormsAt t (advance >>= f) [mark pos] res := by
  rintro s xs r s'' hs rfl h
  obtain ⟨a, s', hr, hr'⟩ := run_bind_eq_some h
  have hw : Work (s, xs ++ [mark pos]) (s', xs ++ [begun pos]) := .begin ht hr
  exact .head hw (hf _ s' xs r s'' (hs.later hw.later) rfl hr')

/-- So does a token that is accepted. -/
theorem FormsAt.accept {f : Bool → Parse β} (hk : kind ≠ .endOfFile)
    (h₁ : Forms (f true) [begun pos] res) (h₂ : t.kind ≠ kind → FormsAt t (f false) [mark pos] res) :
    FormsAt t (Grammar.accept kind >>= f) [mark pos] res := by
  unfold Grammar.accept
  rw [bind_assoc]
  refine .look (looks_isAt kind) fun s hs => ?_
  rw [hs]
  split
  · next h =>
    have ht : t.kind ≠ .endOfFile := eq_of_beq h ▸ hk
    rw [bind_assoc]
    refine .begin ht ?_
    rwa [pure_bind]
  · next h =>
    rw [pure_bind]
    exact h₂ fun ht => h (beq_iff_eq.mpr ht)

/-- And one that is expected and there. -/
theorem FormsAt.expect {f : PUnit → Parse β} (ht : t.kind = kind) (hk : kind ≠ .endOfFile)
    (hf : Forms (f ()) [begun pos] res) :
    FormsAt t (discard (Grammar.expect kind spelling) >>= f) [mark pos] res := by
  unfold Grammar.expect
  rw [Functor.discard, map_const, Function.comp_apply, bind_map_left, bind_assoc]
  refine .accept hk ?_ fun hne => absurd ht hne
  rw [if_pos rfl, pure_bind]
  exact hf

/-- And a part that is read first. -/
theorem FormsAt.first {m : Parse (Option NodeId)} {f : Option NodeId → Parse β}
    (hm : FormsAt t m [] one) (h₀ : Forms (f none) [slot none] res)
    (h₁ : ∀ e, Forms (f (some e)) [begun pos, slot (some e)] res) :
    FormsAt t (m >>= f) [mark pos] res := by
  refine hm.next fun r => ?_
  cases r with
  | none => exact h₀.drop (List.sublist_append_right [mark pos] _)
  | some e =>
    intro t s xs r s' hs ht hr
    exact .head .first (h₁ e t s xs r s' hs ht hr)

/-- A place where something has been read is still a place. -/
theorem Forms.forget (hm : Forms m [mark pos] out) : Forms m [begun pos] out := by
  intro t s xs r s' hs ht hr
  exact .head .forget (hm t s xs r s' hs ht hr)

/-! ## Rules that finish a construct -/

theorem forms_node (parts : List (Option NodeId)) (hb : payload.Bare)
    (hc : Arena.childrenOf payload = idsOf parts)
    (hw : (∀ x ∈ parts, x.isSome) → payload.Whole) :
    Forms (node payload pos) (begun pos :: many parts) fun i =>
      [begun pos, slot (some i), begun pos] := by
  intro t s xs r s' _ _ hr
  exact .single (.finish hb hc hw hr)

/-- The place is kept for a construct that goes on from there. -/
theorem forms_part (parts : List (Option NodeId)) (hb : payload.Bare)
    (hc : Arena.childrenOf payload = idsOf parts)
    (hw : (∀ x ∈ parts, x.isSome) → payload.Whole) :
    Forms (done payload pos) (begun pos :: many parts) fun r => begun pos :: one r := by
  refine (forms_node parts hb hc hw).bind fun i => .pure ?_
  exact List.Sublist.cons_cons _ (List.Sublist.cons_cons _ (List.nil_sublist _))

theorem forms_done (parts : List (Option NodeId)) (hb : payload.Bare)
    (hc : Arena.childrenOf payload = idsOf parts)
    (hw : (∀ x ∈ parts, x.isSome) → payload.Whole) :
    Forms (done payload pos) (begun pos :: many parts) one :=
  (forms_part parts hb hc hw).mono fun _ => List.sublist_cons_self _ _

theorem FormsAt.opt {m : Parse (Option NodeId)} (hm : FormsAt t m inp one) :
    FormsAt t m inp Item.opt :=
  hm.mono opt_sublist_one

theorem Forms.opt {m : Parse (Option NodeId)} (hm : Forms m inp one) : Forms m inp Item.opt :=
  fun t => (hm t).opt

/-- One part, as a list. -/
theorem FormsAt.single {m : Parse (Option NodeId)} (hm : FormsAt t m inp one) :
    FormsAt t (List.singleton <$> m) inp many :=
  .map hm

theorem Forms.single {m : Parse (Option NodeId)} (hm : Forms m inp one) :
    Forms (List.singleton <$> m) inp many :=
  .map hm

theorem forms_fail : Forms (fail part) [] one := forms_report.bind fun _ => .pure (.refl _)

/-- A rule that is not run for the depth of the nesting is missing. -/
theorem Forms.nested {recover : Parse Unit} {m : Parse (Option NodeId)}
    {found : Option NodeId → List Item} (hr : Quiet recover) (hm : Forms m [] found)
    (hn : (found none).Sublist [slot none]) : Forms (nested recover m) [] found := by
  unfold Grammar.nested
  refine (quiet_depth (· + 1)).next fun _ => looks_get.quiet.next fun s => ?_
  refine .ite ?_ ?_
  · refine forms_report.bind fun _ => (quiet_depth (· - 1)).next fun _ => ?_
    exact hr.next fun _ => .pure hn
  · exact hm.bind fun r => (quiet_depth (· - 1)).next fun _ => .pure (.refl _)

end Grammar

end PhpAtlas
