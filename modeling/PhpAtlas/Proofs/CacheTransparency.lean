import Mathlib.Data.List.Forall2
import Mathlib.Data.Option.Basic
import PhpAtlas.Proofs.Names
import PhpAtlas.Resolve.Resolver

/-! # The cache does not show

A resolver answers every question as one with an empty cache would, whatever
was asked before. Each entry of the cache is tied to what its key determines of
a look-up: the lower-cased names and the parts of the path.
-/

namespace PhpAtlas

/-! ## Look-ups up to the spelling of paths -/

/-- Equality of declarations; a path counts by its parts. -/
def Declaration.Same (d e : Declaration) : Prop :=
  ∃ path : FilePath, d.path.parts = path.parts ∧ { d with path } = e

theorem Declaration.Same.refl (d : Declaration) : d.Same d := ⟨d.path, rfl, rfl⟩

/-- The same for files with their trees. -/
def CodeFile.Same (f g : CodeFile) : Prop :=
  ∃ path : FilePath, f.path.parts = path.parts ∧ { f with path } = g

/-- What a look-up gives, up to the spelling of paths. -/
inductive SameLookup : Except Absence Declaration → Except Absence Declaration → Prop
  | found {d e : Declaration} (h : d.Same e) : SameLookup (.ok d) (.ok e)
  | missing (reason : Absence) : SameLookup (.error reason) (.error reason)

namespace SameLookup

variable {x y : Except Absence Declaration}

theorem refl : ∀ x, SameLookup x x
  | .ok d => .found (.refl d)
  | .error reason => .missing reason

theorem toOption (h : SameLookup x y) : Option.Rel Declaration.Same x.toOption y.toOption := by
  cases h with
  | found h => exact .some h
  | missing => exact .none

end SameLookup

theorem Arena.memberMethod?_congr (a : Arena) (i : NodeId) {m n : String}
    (h : lower m = lower n) : a.memberMethod? i m = a.memberMethod? i n := by
  have hd : a.declaresMethod m = a.declaresMethod n := by
    funext j
    rw [declaresMethod, declaresMethod, sameName_congr h]
  rw [memberMethod?, memberMethod?, hd]

namespace CodeFile

variable {f g : CodeFile}

theorem Same.arena (h : f.Same g) : f.arena = g.arena := by
  obtain ⟨path, -, rfl⟩ := h
  rfl

theorem Same.declaration (h : f.Same g) (i : Option NodeId) :
    SameLookup (f.declaration i) (g.declaration i) := by
  obtain ⟨path, hp, rfl⟩ := h
  cases i with
  | none => exact .missing _
  | some i =>
    simp only [CodeFile.declaration, Declaration.extract?, Option.bind_some]
    cases f.arena.node? i with
    | none => exact .missing _
    | some n =>
      cases f.arena.declaredName? i with
      | none => exact .missing _
      | some name => exact .found ⟨path, hp, rfl⟩

theorem Same.namedClass? (h : f.Same g) {c d : ClassInfo} (hn : lower c.name = lower d.name) :
    f.namedClass? c = g.namedClass? d := by
  obtain ⟨path, -, rfl⟩ := h
  rw [CodeFile.namedClass?, ClassInfo.hasName_congr hn]
  rfl

theorem Same.ownerOf? (h : f.Same g) {c d : ClassInfo} (hn : lower c.name = lower d.name) :
    f.ownerOf? c = g.ownerOf? d := by
  rw [CodeFile.ownerOf?, h.namedClass? hn]
  obtain ⟨path, -, rfl⟩ := h
  rfl

theorem Same.classDeclaration (h : f.Same g) {c d : ClassInfo} (hn : lower c.name = lower d.name) :
    SameLookup (classDeclaration c f) (classDeclaration d g) := by
  rw [CodeFile.classDeclaration, CodeFile.classDeclaration, h.namedClass? hn]
  exact h.declaration _

theorem Same.functionDeclaration (h : f.Same g) {a b : FunctionInfo}
    (hn : lower a.name = lower b.name) :
    SameLookup (functionDeclaration a f) (functionDeclaration b g) := by
  have hf : f.namedFunction? a.name = g.namedFunction? b.name := by
    obtain ⟨path, -, rfl⟩ := h
    rw [namedFunction?, sameName_congr hn]
    rfl
  rw [CodeFile.functionDeclaration, CodeFile.functionDeclaration, hf]
  exact h.declaration _

theorem Same.methodDeclaration (h : f.Same g) {c d : ClassInfo} {m n : String}
    (hn : lower c.name = lower d.name) (hm : lower m = lower n) :
    SameLookup (methodDeclaration c m f) (methodDeclaration d n g) := by
  rw [CodeFile.methodDeclaration, CodeFile.methodDeclaration, h.ownerOf? hn, h.arena]
  cases g.ownerOf? d with
  | none => exact .missing _
  | some owner =>
    simp only [g.arena.memberMethod?_congr owner hm]
    cases g.arena.memberMethod? owner n with
    | none => exact .missing _
    | some i => exact h.declaration (some i)

end CodeFile

/-! ## Entries and look-ups -/

def Outcome.toExcept : Outcome → Except Absence Declaration
  | found _ d => .ok d
  | missing reason => .error reason

theorem Outcome.found?_map_snd (e : Outcome) : e.found?.map Prod.snd = e.toExcept.toOption := by
  cases e <;> rfl

theorem SymbolId.of_eq_iff {a b : String} {p q : Option FilePath} (ha : Unrooted a)
    (hb : Unrooted b) : SymbolId.of a p = SymbolId.of b q ↔
      lower a = lower b ∧ p.map FilePath.parts = q.map FilePath.parts := by
  rw [of, of, mk.injEq, lookupKey_of_unrooted ha, lookupKey_of_unrooted hb]

/-- A method is found on a class that the provider knows. -/
theorem Provider.class?_of_searchMethod (p : Provider) {method : String} {limit : Nat}
    {visited stack : List String} {m : FoundMethod}
    (h : p.searchMethod method limit visited stack = some m) :
    ∃ name, p.class? name = some m.owner := by
  induction limit generalizing visited stack with
  | zero => cases h
  | succ limit ih =>
    simp only [searchMethod] at h
    split at h
    · cases h
    · split at h
      · exact ih h
      · next c hc =>
        split at h
        · obtain rfl := Option.some.inj h
          exact ⟨_, hc⟩
        · exact ih h

namespace ResolverContext

/-- The provider and the reader answer alike for one name and one path. -/
structure Steady (r : ResolverContext) : Prop where
  read_eq : ∀ p q : FilePath, p.parts = q.parts → r.read p = r.read q
  parse_same : ∀ (p q : FilePath) (text : String), p.parts = q.parts →
    Option.Rel CodeFile.Same (r.parse p text) (r.parse q text)
  class_unrooted : ∀ name c, r.provider.class? name = some c → Unrooted c.name
  function_unrooted : ∀ name f, r.provider.function? name = some f → Unrooted f.name

variable (r : ResolverContext)

/-- The look-up that an entry of the cache stands for. -/
def lookup (file : Option FilePath) (find : CodeFile → Except Absence Declaration) :
    Except Absence Declaration := (r.load file {}).1 >>= find

theorem load_fst (file : Option FilePath) (u : Usage) : (r.load file u).1 = (r.load file {}).1 := by
  cases file with
  | none => rfl
  | some path =>
    simp only [load]
    cases r.read path with
    | none => rfl
    | some text =>
      simp only
      cases r.parse path text <;> rfl

variable {r} in
theorem Steady.lookup_same (h : r.Steady) {p q : Option FilePath}
    (hp : p.map FilePath.parts = q.map FilePath.parts)
    {find find' : CodeFile → Except Absence Declaration}
    (hf : ∀ f g : CodeFile, f.Same g → SameLookup (find f) (find' g)) :
    SameLookup (r.lookup p find) (r.lookup q find') := by
  match p, q, hp with
  | none, none, _ => exact .missing .nativeSymbol
  | some p, some q, hp =>
    have hp : p.parts = q.parts := Option.some.inj hp
    simp only [lookup, load, h.read_eq p q hp]
    cases r.read q with
    | none => exact .missing .unreadableFile
    | some text =>
      simp only
      cases hx : r.parse p text with
      | none =>
        have hs := h.parse_same p q text hp
        rw [hx] at hs
        generalize r.parse q text = y at hs ⊢
        cases hs
        exact .missing .unparseableFile
      | some f =>
        have hs := h.parse_same p q text hp
        rw [hx] at hs
        generalize r.parse q text = y at hs ⊢
        cases hs with
        | some hs => exact hf _ _ hs

theorem compute_toExcept (file : Option FilePath) (find : CodeFile → Except Absence Declaration)
    (s : ResolverState) : (r.compute file find s).1.toExcept = r.lookup file find := by
  simp only [compute, lookup]
  rw [← r.load_fst file { s.usage with misses := s.usage.misses + 1 }]
  cases (r.load file { s.usage with misses := s.usage.misses + 1 }).1 >>= find <;> rfl

theorem compute_cache (file : Option FilePath) (find : CodeFile → Except Absence Declaration)
    (s : ResolverState) : (r.compute file find s).2.cache = s.cache := by
  simp only [compute]
  cases (r.load file { s.usage with misses := s.usage.misses + 1 }).1 >>= find <;> rfl

/-- Every entry is what the look-up under its key would give. -/
structure SoundCache (c : Cache) : Prop where
  method : ∀ (owner : ClassInfo) (method : String) (e : Outcome), Unrooted owner.name →
    c.method? (.of owner.name owner.file) method = some e →
      SameLookup e.toExcept (r.lookup owner.file (CodeFile.methodDeclaration owner method))
  function : ∀ (f : FunctionInfo) (e : Outcome), Unrooted f.name →
    c.function? (.of f.name f.file) = some e →
      SameLookup e.toExcept (r.lookup f.file (CodeFile.functionDeclaration f))
  classLike : ∀ (c' : ClassInfo) (e : Outcome), Unrooted c'.name →
    c.class? (.of c'.name c'.file) = some e →
      SameLookup e.toExcept (r.lookup c'.file (CodeFile.classDeclaration c'))

theorem soundCache_empty : r.SoundCache {} := by
  constructor <;> (intros; contradiction)

/-- A question that a resolver with a sound cache answers as one with an empty cache does. -/
def Transparent (ask : ResolverState → Found × ResolverState) : Prop :=
  ∀ s, r.SoundCache s.cache →
    Option.Rel Declaration.Same ((ask s).1.map Prod.snd) ((ask {}).1.map Prod.snd) ∧
      r.SoundCache (ask s).2.cache

theorem transparent_none : r.Transparent fun s => (none, s) := fun _ hs => ⟨.none, hs⟩

theorem remember_none_fst (store : Outcome → Cache → Cache) (file : Option FilePath)
    (find : CodeFile → Except Absence Declaration) (s : ResolverState) :
    (r.remember none store file find s).1.map Prod.snd = (r.lookup file find).toOption := by
  rw [← r.compute_toExcept file find s, ← Outcome.found?_map_snd]
  rfl

theorem remember_none_cache (store : Outcome → Cache → Cache) (file : Option FilePath)
    (find : CodeFile → Except Absence Declaration) (s : ResolverState) :
    (r.remember none store file find s).2.cache = store (r.compute file find s).1 s.cache := by
  rw [← r.compute_cache file find s]
  rfl

theorem transparent_remember (known : Cache → Option Outcome) (store : Outcome → Cache → Cache)
    (file : Option FilePath) (find : CodeFile → Except Absence Declaration) (he : known {} = none)
    (hk : ∀ c e, r.SoundCache c → known c = some e → SameLookup e.toExcept (r.lookup file find))
    (hs : ∀ c e, r.SoundCache c → e.toExcept = r.lookup file find → r.SoundCache (store e c)) :
    r.Transparent fun s => r.remember (known s.cache) store file find s := by
  intro s hc
  beta_reduce
  rw [show known ({} : ResolverState).cache = none from he, r.remember_none_fst]
  cases hn : known s.cache with
  | none =>
    rw [r.remember_none_fst, r.remember_none_cache]
    exact ⟨(SameLookup.refl _).toOption, hs _ _ hc (r.compute_toExcept file find s)⟩
  | some e =>
    have ha : (r.remember (some e) store file find s).1.map Prod.snd = e.toExcept.toOption :=
      e.found?_map_snd
    rw [ha]
    exact ⟨(hk _ e hc hn).toOption, hc⟩

variable {r} (hr : r.Steady)

include hr

theorem Steady.transparent_methodOf {owner : ClassInfo} (ho : Unrooted owner.name)
    (method : String) : r.Transparent (r.methodOf owner method) := by
  refine r.transparent_remember (·.method? (.of owner.name owner.file) method) _ _ _ rfl
    (fun c e hc hn => hc.method owner method e ho hn) fun c e hc he => ⟨?_, hc.function, hc.classLike⟩
  intro owner' method' e' ho' hl
  simp only [Cache.method?, List.lookup_cons] at hl
  split at hl
  · next hk =>
    obtain rfl : e = e' := Option.some.inj hl
    obtain ⟨hkey, hm⟩ := Prod.mk.inj (beq_iff_eq.mp hk)
    obtain ⟨hn, hf⟩ := (SymbolId.of_eq_iff ho' ho).mp hkey
    rw [he]
    exact hr.lookup_same hf.symm fun f g h => h.methodDeclaration hn.symm hm.symm
  · exact hc.method owner' method' e' ho' hl

theorem Steady.transparent_functionOf {f : FunctionInfo} (hf : Unrooted f.name) :
    r.Transparent (r.functionOf f) := by
  refine r.transparent_remember (·.function? (.of f.name f.file)) _ _ _ rfl
    (fun c e hc hn => hc.function f e hf hn) fun c e hc he => ⟨hc.method, ?_, hc.classLike⟩
  intro f' e' hf' hl
  simp only [Cache.function?, List.lookup_cons] at hl
  split at hl
  · next hk =>
    obtain rfl : e = e' := Option.some.inj hl
    obtain ⟨hn, hp⟩ := (SymbolId.of_eq_iff hf' hf).mp (beq_iff_eq.mp hk)
    rw [he]
    exact hr.lookup_same hp.symm fun _ _ h => h.functionDeclaration hn.symm
  · exact hc.function f' e' hf' hl

theorem Steady.transparent_classOf {c : ClassInfo} (hc : Unrooted c.name) (requested : String) :
    r.Transparent (r.classOf c requested) := by
  by_cases hn : (c.builtin || !c.hasName requested) = true
  · have h : r.classOf c requested = fun s => (none, s) := by
      funext s
      rw [classOf, if_pos hn]
    rw [h]
    exact r.transparent_none
  · have h : r.classOf c requested = fun s => r.remember (s.cache.class? (.of c.name c.file))
        (fun e cache => { cache with classes := (.of c.name c.file, e) :: cache.classes })
        c.file (CodeFile.classDeclaration c) s := by
      funext s
      rw [classOf, if_neg hn]
    rw [h]
    refine r.transparent_remember (·.class? (.of c.name c.file)) _ _ _ rfl
      (fun cache e hs hl => hs.classLike c e hc hl) fun cache e hs he => ⟨hs.method, hs.function, ?_⟩
    intro c' e' hc' hl
    simp only [Cache.class?, List.lookup_cons] at hl
    split at hl
    · next hk =>
      obtain rfl : e = e' := Option.some.inj hl
      obtain ⟨hm, hp⟩ := (SymbolId.of_eq_iff hc' hc).mp (beq_iff_eq.mp hk)
      rw [he]
      exact hr.lookup_same hp.symm fun _ _ h => h.classDeclaration hm.symm
    · exact hs.classLike c' e' hc' hl

theorem Steady.unrooted_owner {className method : String} {m : FoundMethod}
    (h : r.provider.resolveMethod? className method = some m) : Unrooted m.owner.name := by
  unfold Provider.resolveMethod? at h
  split at h
  · obtain ⟨name, hc⟩ := r.provider.class?_of_searchMethod h
    exact hr.class_unrooted name m.owner hc
  · cases h

theorem Steady.transparent_method (className method : String) :
    r.Transparent (r.method className method) := by
  unfold ResolverContext.method
  cases h : r.provider.resolveMethod? className method with
  | none => exact r.transparent_none
  | some m => exact hr.transparent_methodOf (hr.unrooted_owner h) m.method.name

theorem Steady.transparent_className (name : String) : r.Transparent (r.className name) := by
  unfold ResolverContext.className
  cases h : r.provider.class? name with
  | none => exact r.transparent_none
  | some c => exact hr.transparent_classOf (hr.class_unrooted name c h) name

theorem Steady.transparent_function (name : String) : r.Transparent (r.function name) := by
  unfold ResolverContext.function
  cases h : r.provider.resolveFunction? name with
  | none => exact r.transparent_none
  | some f =>
    refine hr.transparent_functionOf ?_
    unfold Provider.resolveFunction? at h
    split at h
    · next f' hf =>
      obtain rfl := Option.some.inj h
      exact hr.function_unrooted _ _ hf
    · simp only at h
      split at h
      · exact hr.function_unrooted _ _ h
      · cases h

theorem Steady.transparent_classFromType (t : PhpType) : r.Transparent (r.classFromType t) := by
  unfold ResolverContext.classFromType
  cases classOfType? t with
  | none => exact r.transparent_none
  | some name => exact hr.transparent_className name

theorem Steady.transparent_methodFromCall (a : Arena) (call : NodeId) :
    r.Transparent (r.methodFromCall a call) := by
  unfold ResolverContext.methodFromCall
  cases r.callee? a call with
  | none => exact r.transparent_none
  | some m => exact hr.transparent_method m.1 m.2

theorem Steady.transparent_methodFromObjectCall (a : Arena) (call : NodeId) :
    r.Transparent (r.methodFromObjectCall a call) := by
  unfold ResolverContext.methodFromObjectCall
  by_cases h : a.kind? call = some .methodCall
  · simp only [if_pos h]
    exact hr.transparent_methodFromCall a call
  · simp only [if_neg h]
    exact r.transparent_none

end ResolverContext

/-! ## Runs of a resolver -/

/-- What can be asked of a resolver; a reset has no answer. -/
inductive Query
  | method (className method : String)
  | methodOf (owner : ClassInfo) (method : String)
  | function (name : String)
  | functionOf (f : FunctionInfo)
  | classOf (c : ClassInfo) (requested : String)
  | classNamed (name : String)
  | classFromType (t : PhpType)
  | methodFromCall (a : Arena) (call : NodeId)
  | methodFromObjectCall (a : Arena) (call : NodeId)
  | reset

namespace Query

/-- Reflections have names in their kept form. -/
def Kept : Query → Prop
  | methodOf c _ | classOf c _ => Unrooted c.name
  | functionOf f => Unrooted f.name
  | _ => True

variable (r : ResolverContext)

def ask : Query → ResolverState → ResolverContext.Found × ResolverState
  | method owner m => r.method owner m
  | methodOf owner m => r.methodOf owner m
  | function name => r.function name
  | functionOf f => r.functionOf f
  | classOf c requested => r.classOf c requested
  | classNamed name => r.className name
  | classFromType t => r.classFromType t
  | methodFromCall a call => r.methodFromCall a call
  | methodFromObjectCall a call => r.methodFromObjectCall a call
  | reset => fun s => (none, s.reset)

/-- The declaration that a resolver in the given state answers with. -/
def answer (q : Query) (s : ResolverState) : Option Declaration := (q.ask r s).1.map Prod.snd

/-- The answers to questions that are asked one after the other. -/
def answers : List Query → ResolverState → List (Option Declaration)
  | [], _ => []
  | q :: qs, s => q.answer r s :: answers qs (q.ask r s).2

/-- The state that a run of questions ends in. -/
def after (qs : List Query) (s : ResolverState) : ResolverState :=
  qs.foldl (fun s q => (q.ask r s).2) s

variable {r}

theorem transparent_ask (hr : r.Steady) {q : Query} (hq : q.Kept) : r.Transparent (q.ask r) := by
  cases q with
  | method owner m => exact hr.transparent_method owner m
  | methodOf owner m => exact hr.transparent_methodOf hq m
  | function name => exact hr.transparent_function name
  | functionOf f => exact hr.transparent_functionOf hq
  | classOf c requested => exact hr.transparent_classOf hq requested
  | classNamed name => exact hr.transparent_className name
  | classFromType t => exact hr.transparent_classFromType t
  | methodFromCall a call => exact hr.transparent_methodFromCall a call
  | methodFromObjectCall a call => exact hr.transparent_methodFromObjectCall a call
  | reset => exact fun s _ => ⟨.none, r.soundCache_empty⟩

theorem answers_same (hr : r.Steady) (qs : List Query) (hq : ∀ q ∈ qs, q.Kept) (s : ResolverState)
    (hs : r.SoundCache s.cache) :
    List.Forall₂ (Option.Rel Declaration.Same) (answers r qs s) (qs.map fun q => q.answer r {}) := by
  induction qs generalizing s with
  | nil => exact .nil
  | cons q qs ih =>
    obtain ⟨ha, hc⟩ := transparent_ask hr (hq q List.mem_cons_self) s hs
    exact .cons ha (ih (fun p hp => hq p (List.mem_cons_of_mem q hp)) _ hc)

theorem soundCache_after (hr : r.Steady) (qs : List Query) (hq : ∀ q ∈ qs, q.Kept) :
    r.SoundCache (after r qs {}).cache := by
  refine List.foldlRecOn (motive := fun s : ResolverState => r.SoundCache s.cache) qs _
    r.soundCache_empty ?_
  intro s hs q hm
  exact (transparent_ask hr (hq q hm) s hs).2

end Query

theorem CodeFile.parse?_same (p q : FilePath) (text : String) (h : p.parts = q.parts) :
    Option.Rel CodeFile.Same (CodeFile.parse? p text) (CodeFile.parse? q text) := by
  simp only [CodeFile.parse?]
  by_cases hd : (Parsed.ofSource text.toList).diagnostics.isEmpty = true
  · rw [if_pos hd, if_pos hd]
    exact .some ⟨q, h, rfl⟩
  · rw [if_neg hd, if_neg hd]
    exact .none

/-- Each answer in a run is the answer of a new resolver to the same question. -/
theorem cache_transparent (provider : Provider) (read : FileTexts)
    (typeOf : Arena → Option NodeId → PhpType)
    (hc : ∀ name c, provider.class? name = some c → Unrooted c.name)
    (hf : ∀ name f, provider.function? name = some f → Unrooted f.name)
    (hread : ∀ p q : FilePath, p.parts = q.parts → read p = read q)
    (qs : List Query) (hq : ∀ q ∈ qs, q.Kept) :
    List.Forall₂ (Option.Rel Declaration.Same)
      (Query.answers { provider, read, typeOf } qs {})
      (qs.map fun q => q.answer { provider, read, typeOf } {}) :=
  Query.answers_same ⟨hread, CodeFile.parse?_same, hc, hf⟩ qs hq {}
    (ResolverContext.soundCache_empty _)

namespace TwoSpellings

def read : FileTexts := fun p =>
  if p.parts = [.name "src", .name "a.php"] then some "<?php class A { function m() {} }" else none

def classAt (path : String) : ClassInfo :=
  { name := "A", file := some ⟨path⟩, methods := [⟨"m", false⟩] }

def catalog : Catalog := { classes := [classAt "src//a.php"] }

def questions : List Query :=
  [.classOf (classAt "src/a.php") "a", .classNamed "A", .reset, .method "A" "M"]

end TwoSpellings

open TwoSpellings in
/-- One class under two spellings of its path, with a reset between the questions. -/
theorem cache_transparent_two_spellings :
    (Query.answers { provider := catalog.provider, read } questions {}).map Option.isSome =
        [true, true, false, true] ∧
      List.Forall₂ (Option.Rel Declaration.Same)
        (Query.answers { provider := catalog.provider, read } questions {})
        (questions.map fun q => q.answer { provider := catalog.provider, read } {}) := by
  have hc : ∀ name c, catalog.provider.class? name = some c → Unrooted c.name := by
    intro name c h
    obtain rfl : c = classAt "src//a.php" := List.mem_singleton.mp (catalog.mem_of_class? h)
    exact show Unrooted "A" by decide +kernel
  have hf : ∀ name f, catalog.provider.function? name = some f → Unrooted f.name := by
    intro name f h
    cases catalog.mem_of_function? h
  have hread : ∀ p q : FilePath, p.parts = q.parts → read p = read q := by
    intro p q h
    simp only [TwoSpellings.read, h]
  have hq : ∀ q ∈ questions, q.Kept := by
    intro q hq
    simp only [questions, List.mem_cons, List.not_mem_nil, or_false] at hq
    rcases hq with rfl | rfl | rfl | rfl
    · exact show Unrooted "A" by decide +kernel
    all_goals exact trivial
  exact ⟨by decide +kernel,
    cache_transparent catalog.provider read Arena.typeOf hc hf hread questions hq⟩

end PhpAtlas
