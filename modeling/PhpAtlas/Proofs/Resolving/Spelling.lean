import PhpAtlas.Proofs.Resolving.Entries
import PhpAtlas.Reflection.SourceIndex

/-! # The spelling of names

A name is looked up without its leading backslashes and in lower case. Calls by
name that differ in no more than that want the same declaration, so that a
resolver does the same in both.
-/

namespace PhpAtlas

variable {a b m n : String}

/-! ## Reflection -/

namespace ClassInfo

variable (c : ClassInfo)

theorem method?_congr (h : lower m = lower n) : c.method? m = c.method? n := by
  simp only [method?, sameName, h]

theorem wanted?_congr (h : lookupKey a = lookupKey b) : c.wanted? a = c.wanted? b := by
  have hn : c.hasName a = c.hasName b := congrArg (lower c.name == ·) h
  rw [wanted?, wanted?, hn]

end ClassInfo

/-- A provider that does not look at how a name is spelled. -/
structure Provider.Insensitive (p : Provider) : Prop where
  class?_congr : ∀ {a b}, lookupKey a = lookupKey b → p.class? a = p.class? b
  function?_congr : ∀ {a b}, lookupKey a = lookupKey b → p.function? a = p.function? b

theorem Catalog.insensitive (t : Catalog) : t.provider.Insensitive where
  class?_congr h := by simp only [provider, h]
  function?_congr h := by simp only [provider, h]

theorem SourceIndex.insensitive (x : SourceIndex) : x.provider.Insensitive where
  class?_congr h := by simp only [provider, SourceIndex.class?, h]
  function?_congr h := by simp only [provider, SourceIndex.function?, h]

namespace Provider

variable {p : Provider}

theorem searchMethod_congr (h : lower m = lower n) (limit : Nat) (visited stack : List String) :
    p.searchMethod m limit visited stack = p.searchMethod n limit visited stack := by
  induction limit generalizing visited stack with
  | zero => rfl
  | succ limit ih => simp only [searchMethod, ClassInfo.method?_congr _ h, ih]

/-- Only the class that a search starts from has a spelling of its own; it goes on with names from
reflection. -/
theorem searchMethod_singleton_congr (hk : lower a = lower b) (hc : p.class? a = p.class? b)
    (method : String) (limit : Nat) :
    p.searchMethod method limit [] [a] = p.searchMethod method limit [] [b] := by
  cases limit with
  | zero => rfl
  | succ limit =>
    simp only [searchMethod, List.contains_nil, Bool.false_eq_true, not_false_eq_true,
      List.dropWhile_cons_of_neg, hk, hc]

namespace Insensitive

variable (hp : p.Insensitive)

include hp

theorem method?_congr (hc : lookupKey a = lookupKey b) (hm : lower m = lower n) :
    p.method? a m = p.method? b n := by
  have hk : lookupKey (dropLeadingBackslashes a) = lookupKey (dropLeadingBackslashes b) := by
    rw [lookupKey_dropLeadingBackslashes, hc, lookupKey_dropLeadingBackslashes]
  rw [method?, method?, searchMethod_congr hm]
  exact searchMethod_singleton_congr hc (hp.class?_congr hk) n _

theorem resolveMethod?_congr (hc : lookupKey a = lookupKey b) (hm : lower m = lower n) :
    p.resolveMethod? a m = p.resolveMethod? b n := by
  have hk : p.knowsClass a = p.knowsClass b := by rw [knowsClass, knowsClass, hp.class?_congr hc]
  rw [resolveMethod?, resolveMethod?, hk, hp.method?_congr hc hm]

/-- Also the short name that a namespaced name falls back to. -/
theorem resolveFunction?_congr (h : lookupKey a = lookupKey b) :
    p.resolveFunction? a = p.resolveFunction? b := by
  have hl : lower (dropLeadingBackslashes a) = lower (dropLeadingBackslashes b) := h
  have hs : (dropLeadingBackslashes a).toList.contains '\\' =
      (dropLeadingBackslashes b).toList.contains '\\' := by
    rw [← contains_backslash_lower, hl, contains_backslash_lower]
  have hk : lookupKey (lastSegment (dropLeadingBackslashes a)) =
      lookupKey (lastSegment (dropLeadingBackslashes b)) := by
    simp only [lookupKey, lower_dropLeadingBackslashes, lower_lastSegment, hl]
  simp only [resolveFunction?, hp.function?_congr h, hs, hp.function?_congr hk]

theorem wantedClass?_congr (h : lookupKey a = lookupKey b) :
    p.wantedClass? a = p.wantedClass? b := by
  simp only [wantedClass?, hp.class?_congr h, ClassInfo.wanted?_congr _ h]

end Insensitive

end Provider

/-! ## Runs -/

/-- Calls by name that differ in the case of names and in leading backslashes at most. Methods
have no backslashes. -/
inductive Query.Alike : Query → Query → Prop
  | method {a b m n : String} (hc : lookupKey a = lookupKey b) (hm : lower m = lower n) :
      Alike (.method a m) (.method b n)
  | classNamed {a b : String} (h : lookupKey a = lookupKey b) :
      Alike (.classNamed a) (.classNamed b)
  | function {a b : String} (h : lookupKey a = lookupKey b) : Alike (.function a) (.function b)
  | reset : Alike .reset .reset

/-- The same for steps. What the reader gives does not depend on the names. -/
structure Step.Alike (x y : Step) : Prop where
  read : x.read = y.read
  query : x.query.Alike y.query

variable {r : ResolverContext}

theorem Query.Alike.wanted?_eq (hp : r.provider.Insensitive) {q q' : Query} (h : q.Alike q') :
    q.wanted? r = q'.wanted? r := by
  cases h with
  | method hc hm =>
    simp only [wanted?, Provider.wantedMethod?, hp.resolveMethod?_congr hc hm]
  | classNamed h => exact hp.wantedClass?_congr h
  | function h => simp only [wanted?, Provider.wantedFunction?, hp.resolveFunction?_congr h]
  | reset => rfl

theorem Query.Alike.ask_eq (hp : r.provider.Insensitive) {q q' : Query} (h : q.Alike q')
    (s : ResolverState) : q.ask r s = q'.ask r s := by
  by_cases hq : q = .reset
  · subst hq
    cases h
    rfl
  · have hq' : q' ≠ .reset := by
      rintro rfl
      cases h
      exact hq rfl
    rw [Query.ask_eq r hq, Query.ask_eq r hq', h.wanted?_eq hp]

theorem Step.Alike.ask_eq (hp : r.provider.Insensitive) {x y : Step} (h : x.Alike y)
    (s : ResolverState) : x.ask r s = y.ask r s := by
  have hc : x.context r = y.context r := by rw [context, context, h.read]
  rw [Step.ask, Step.ask, hc]
  exact Query.Alike.ask_eq (r := y.context r) hp h.query s

theorem Step.play_congr (hp : r.provider.Insensitive) {xs ys : List Step}
    (h : List.Forall₂ Step.Alike xs ys) (s : ResolverState) : play r xs s = play r ys s := by
  induction h generalizing s with
  | nil => rfl
  | cons h _ ih => simp only [play_cons, h.ask_eq hp, ih]

/-- With either kind of reflection, runs that differ in the spelling of names only give the same
answers one by one and end with the same counts and the same cache. -/
theorem spelling_irrelevant (r : ResolverContext)
    (hp : (∃ t : Catalog, r.provider = t.provider) ∨ ∃ x : SourceIndex, r.provider = x.provider)
    {xs ys : List Step} (h : List.Forall₂ Step.Alike xs ys) (s : ResolverState) :
    Step.play r xs s = Step.play r ys s := by
  have hi : r.provider.Insensitive := by
    obtain ⟨t, ht⟩ | ⟨x, hx⟩ := hp
    · exact ht ▸ t.insensitive
    · exact hx ▸ x.insensitive
  exact Step.play_congr hi h s

namespace TwoCases

def read : FileTexts := fun path =>
  if path.parts = [.name "a.php"] then
    some "<?php namespace App; class A { function run() {} } class B extends A {}"
  else if path.parts = [.name "f.php"] then some "<?php function help() {}" else none

def index : SourceIndex := .ofFiles [⟨"a.php"⟩, ⟨"f.php"⟩] [] read

def catalog : Catalog := { classes := index.classes, functions := index.functions }

def plain : List Step :=
  [⟨read, .method "App\\B" "run"⟩, ⟨read, .classNamed "App\\A"⟩, ⟨read, .function "App\\help"⟩]

def other : List Step :=
  [⟨read, .method "\\app\\b" "RUN"⟩, ⟨read, .classNamed "\\\\APP\\a"⟩,
    ⟨read, .function "\\aPP\\HELP"⟩]

end TwoCases

open TwoCases in
/-- An inherited method, a class, and a function found under its short name. -/
theorem spelling_irrelevant_two_cases :
    (Step.play { provider := index.provider, read } plain {}).1.map Option.isSome =
        [true, true, true] ∧
      Step.play { provider := index.provider, read } plain {} =
        Step.play { provider := index.provider, read } other {} ∧
      Step.play { provider := catalog.provider, read } plain {} =
        Step.play { provider := catalog.provider, read } other {} := by
  have h : List.Forall₂ Step.Alike plain other :=
    .cons ⟨rfl, .method (by decide +kernel) (by decide +kernel)⟩
      (.cons ⟨rfl, .classNamed (by decide +kernel)⟩
        (.cons ⟨rfl, .function (by decide +kernel)⟩ .nil))
  exact ⟨by decide +kernel,
    spelling_irrelevant { provider := index.provider, read } (.inr ⟨index, rfl⟩) h {},
    spelling_irrelevant { provider := catalog.provider, read } (.inl ⟨catalog, rfl⟩) h {}⟩

end PhpAtlas
