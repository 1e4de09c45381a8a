import PhpAtlas.Proofs.CacheTransparency
import PhpAtlas.Proofs.Index.Declared

/-! # The index and the resolver agree

A resolver over an index finds what the index lists. Both walk the same tree in
the same order and compare names alike, so that of several declarations of one
name they take the same one.
-/

namespace PhpAtlas

/-! ## Answers of a new resolver -/

namespace ResolverContext

variable {r : ResolverContext} {c : ClassInfo} {m : MethodInfo}

theorem lookup_of_read {path : FilePath} {file : CodeFile}
    (h : (r.read path).bind (r.parse path) = some file)
    (find : CodeFile → Except Absence Declaration) : r.lookup (some path) find = find file := by
  obtain ⟨text, hr, hp⟩ := Option.bind_eq_some_iff.mp h
  simp only [lookup, load, hr, hp]
  rfl

theorem answer_classNamed (hc : r.provider.class? c.name = some c) (hb : c.builtin = false)
    (hu : Unrooted c.name) : (Query.classNamed c.name).answer r {} =
      (r.lookup c.file (CodeFile.classDeclaration c)).toOption := by
  have hn : c.hasName c.name = true := (ClassInfo.hasName_iff hu).mpr rfl
  simp only [Query.answer, Query.ask, className, hc, classOf, hb, hn, Bool.not_true, Bool.or_self,
    Bool.false_eq_true, if_false]
  exact r.remember_none_fst _ _ _ _

theorem answer_functionOf (f : FunctionInfo) : (Query.functionOf f).answer r {} =
    (r.lookup f.file (CodeFile.functionDeclaration f)).toOption :=
  r.remember_none_fst _ _ _ _

/-- The search for a method that a class lists stops at the class. -/
theorem answer_method (hc : r.provider.class? c.name = some c) (hu : Unrooted c.name)
    (hm : m ∈ c.methods) : ∃ m' ∈ c.methods, lower m'.name = lower m.name ∧
      (Query.method c.name m.name).answer r {} =
        (r.lookup c.file (CodeFile.methodDeclaration c m'.name)).toOption := by
  have hown : (c.methods.find? fun m' => sameName m'.name m.name).isSome = true :=
    List.find?_isSome.mpr ⟨m, hm, sameName_iff.mpr rfl⟩
  obtain ⟨m', hm'⟩ := Option.isSome_iff_exists.mp hown
  have hfound : r.provider.resolveMethod? c.name m.name = some ⟨m', c⟩ := by
    have hknown : r.provider.knowsClass c.name = true := by rw [Provider.knowsClass, hc]; rfl
    rw [Provider.resolveMethod?, if_pos hknown, Provider.method?,
      dropLeadingBackslashes_of_unrooted hu, maxHierarchy, Provider.searchMethod]
    simp only [List.dropWhile_cons, List.contains_nil, Bool.false_eq_true, if_false, hc,
      ClassInfo.method?, hm']
  have hsame := List.find?_some hm'
  refine ⟨m', List.mem_of_find?_eq_some hm', sameName_iff.mp hsame, ?_⟩
  simp only [Query.answer, Query.ask, method, hfound]
  exact r.remember_none_fst _ _ _ _

end ResolverContext

/-! ## Agreement -/

namespace SourceIndex

variable {x : SourceIndex} {read : FileTexts} {typeOf : Arena → Option NodeId → PhpType}
variable {answer answer' : Query → Option Declaration} {c : ClassInfo} {f : FunctionInfo}

/-- A resolver over the index that reads files as the index does. -/
def resolver (x : SourceIndex) (read : FileTexts) (typeOf : Arena → Option NodeId → PhpType) :
    ResolverContext := { provider := x.provider, read, typeOf }

/-- Whatever the index lists, the answers have its declaration, in the file and the class that the
index says. -/
structure Agrees (x : SourceIndex) (answer : Query → Option Declaration) : Prop where
  classes : ∀ c ∈ x.classes, ∃ d, answer (.classNamed c.name) = some d ∧
    c.file.map FilePath.parts = some d.path.parts ∧ d.kind.isClassLike = true ∧
      d.className? = some c.name
  methods : ∀ c ∈ x.classes, ∀ m ∈ c.methods, ∃ d, answer (.method c.name m.name) = some d ∧
    c.file.map FilePath.parts = some d.path.parts ∧ d.kind = .methodDeclaration ∧
      d.className? = some c.name ∧ sameName d.name m.name = true
  functions : ∀ f ∈ x.functions, ∃ d, answer (.functionOf f) = some d ∧
    f.file.map FilePath.parts = some d.path.parts ∧ d.kind = .functionDeclaration

/-- A look-up of a listed class is one in the file that the class was listed for. -/
theorem Indexed.lookup_class (h : Indexed read x)
    (typeOf : Arena → Option NodeId → PhpType) (hc : c ∈ x.classes) :
    ∃ file : CodeFile, file.Decorated ∧ FirstIn ClassInfo.name file.symbols.classes c ∧
      c.file.map FilePath.parts = some file.path.parts ∧
        ∀ find, (x.resolver read typeOf).lookup c.file find = find file := by
  obtain ⟨path, file, hfile, hfirst⟩ := h.classes c hc
  obtain ⟨rfl, hdec⟩ := CodeFile.read_eq_some hfile
  obtain ⟨-, hpath, -⟩ := CodeFile.of_mem_classes hfirst.mem
  rw [hpath]
  exact ⟨file, hdec, hfirst, rfl, ResolverContext.lookup_of_read hfile⟩

theorem Indexed.lookup_function (h : Indexed read x)
    (typeOf : Arena → Option NodeId → PhpType) (hf : f ∈ x.functions) :
    ∃ file : CodeFile, file.Decorated ∧ FirstIn FunctionInfo.name file.symbols.functions f ∧
      f.file.map FilePath.parts = some file.path.parts ∧
        ∀ find, (x.resolver read typeOf).lookup f.file find = find file := by
  obtain ⟨path, file, hfile, hfirst⟩ := h.functions f hf
  obtain ⟨rfl, hdec⟩ := CodeFile.read_eq_some hfile
  obtain ⟨-, hpath⟩ := CodeFile.of_mem_functions hfirst.mem
  rw [hpath]
  exact ⟨file, hdec, hfirst, rfl, ResolverContext.lookup_of_read hfile⟩

theorem Indexed.agrees (h : Indexed read x) :
    x.Agrees fun q => q.answer (x.resolver read typeOf) {} := by
  constructor
  · intro c hc
    obtain ⟨file, hdec, hfirst, hpath, hlookup⟩ := h.lookup_class typeOf hc
    obtain ⟨hu, -, hb⟩ := CodeFile.of_mem_classes hfirst.mem
    obtain ⟨d, hd, hdp, hkind, hclass⟩ := hdec.classDeclaration_of_first hfirst
    refine ⟨d, ?_, by rw [hpath, hdp], hkind, hclass⟩
    rw [ResolverContext.answer_classNamed (h.class?_eq hc) hb hu, hlookup, hd]
    rfl
  · intro c hc m hm
    obtain ⟨file, hdec, hfirst, hpath, hlookup⟩ := h.lookup_class typeOf hc
    obtain ⟨hu, -⟩ := CodeFile.of_mem_classes hfirst.mem
    obtain ⟨m', hm', hsame, ha⟩ := ResolverContext.answer_method
      (r := x.resolver read typeOf) (h.class?_eq hc) hu hm
    obtain ⟨d, hd, hdp, hkind, hclass, hname⟩ := hdec.methodDeclaration_of_first hfirst hm'
    refine ⟨d, ?_, by rw [hpath, hdp], hkind, hclass, sameName_iff.mpr (hname.trans hsame)⟩
    rw [ha, hlookup, hd]
    rfl
  · intro f hf
    obtain ⟨file, hdec, hfirst, hpath, hlookup⟩ := h.lookup_function typeOf hf
    obtain ⟨d, hd, hdp, hkind⟩ := hdec.functionDeclaration_of_first hfirst
    refine ⟨d, ?_, by rw [hpath, hdp], hkind⟩
    rw [ResolverContext.answer_functionOf, hlookup, hd]
    rfl

theorem exists_of_same {a : Option Declaration} {d : Declaration}
    (h : Option.Rel Declaration.Same a (some d)) : ∃ d', a = some d' ∧ d'.Same d := by
  cases h with
  | some h => exact ⟨_, rfl, h⟩

/-- Agreement does not depend on how paths are spelled. -/
theorem Agrees.of_same (h : x.Agrees answer) (hu : ∀ f ∈ x.functions, Unrooted f.name)
    (hs : ∀ q : Query, q.Kept → Option.Rel Declaration.Same (answer' q) (answer q)) :
    x.Agrees answer' := by
  constructor
  · intro c hc
    obtain ⟨d, ha, hd⟩ := h.classes c hc
    obtain ⟨d', ha', path, hp, rfl⟩ := exists_of_same (ha ▸ hs (.classNamed c.name) trivial)
    exact ⟨d', ha', hp ▸ hd⟩
  · intro c hc m hm
    obtain ⟨d, ha, hd⟩ := h.methods c hc m hm
    obtain ⟨d', ha', path, hp, rfl⟩ := exists_of_same (ha ▸ hs (.method c.name m.name) trivial)
    exact ⟨d', ha', hp ▸ hd⟩
  · intro f hf
    obtain ⟨d, ha, hd⟩ := h.functions f hf
    obtain ⟨d', ha', path, hp, rfl⟩ := exists_of_same (ha ▸ hs (.functionOf f) (hu f hf))
    exact ⟨d', ha', hp ▸ hd⟩

theorem Indexed.steady (h : Indexed read x)
    (hread : ∀ p q : FilePath, p.parts = q.parts → read p = read q) :
    (x.resolver read typeOf).Steady :=
  ⟨hread, CodeFile.parse?_same, fun _ _ hc => h.class?_unrooted hc,
    fun _ _ hf => h.function?_unrooted hf⟩

/-- A resolver over an index of some files finds what the index lists. It does when it is new, and
it does after any run of questions if one path is read in one way, however it is spelled. -/
theorem agrees_ofFiles (files : List FilePath) (natives : List String) (read : FileTexts)
    (typeOf : Arena → Option NodeId → PhpType) :
    ((ofFiles files natives read).Agrees fun q =>
        q.answer ((ofFiles files natives read).resolver read typeOf) {}) ∧
      ((∀ p q : FilePath, p.parts = q.parts → read p = read q) →
        ∀ qs : List Query, (∀ q ∈ qs, q.Kept) → (ofFiles files natives read).Agrees fun q =>
          q.answer ((ofFiles files natives read).resolver read typeOf)
            (Query.after ((ofFiles files natives read).resolver read typeOf) qs {})) := by
  have hx : Indexed read (ofFiles files natives read) := indexed_ofFiles files natives read
  generalize ofFiles files natives read = x at hx ⊢
  have hnew : x.Agrees fun q => q.answer (x.resolver read typeOf) {} := hx.agrees
  refine ⟨hnew, ?_⟩
  intro hread qs hqs
  have hr : (x.resolver read typeOf).Steady := hx.steady hread
  have hsound := Query.soundCache_after hr qs hqs
  refine hnew.of_same (fun f hf => hx.unrooted_function hf) ?_
  intro q hq
  exact (Query.transparent_ask hr hq _ hsound).1

namespace Duplicates

def texts : FileTexts := fun p =>
  if p.parts = [.name "a.php"] then
    some "<?php namespace N; { class A { function m() {} } } class a {} function f() {}"
  else if p.parts = [.name "b.php"] then
    some "<?php namespace n; class A {} function F() {} namespace M; class A {} function f() {}"
  else none

def index : SourceIndex := ofFiles [⟨"a.php"⟩, ⟨"b.php"⟩] ["n\\a"] texts

def questions : List Query := [.classNamed "n\\A", .method "\\N\\a" "M", .function "\\N\\F"]

end Duplicates

open Duplicates in
/-- Two files that declare one class and one function in different case, in blocks and in several
namespaces. -/
theorem agrees_ofFiles_duplicates :
    index.classes.map ClassInfo.name = ["N\\A", "M\\A"] ∧
      index.functions.map FunctionInfo.name = ["N\\f", "M\\f"] ∧
      (∀ p q : FilePath, p.parts = q.parts → texts p = texts q) ∧
      index.Agrees fun q => q.answer (index.resolver texts Arena.typeOf)
        (Query.after (index.resolver texts Arena.typeOf) questions {}) := by
  have hread : ∀ p q : FilePath, p.parts = q.parts → texts p = texts q := by
    intro p q h
    simp only [texts, h]
  have hq : ∀ q ∈ questions, q.Kept := by
    intro q hq
    simp only [questions, List.mem_cons, List.not_mem_nil, or_false] at hq
    rcases hq with rfl | rfl | rfl
    all_goals exact trivial
  obtain ⟨hc, hf⟩ : index.classes.map ClassInfo.name = ["N\\A", "M\\A"] ∧
      index.functions.map FunctionInfo.name = ["N\\f", "M\\f"] := by decide +kernel
  refine ⟨hc, hf, hread, ?_⟩
  exact (agrees_ofFiles [⟨"a.php"⟩, ⟨"b.php"⟩] ["n\\a"] texts Arena.typeOf).2 hread questions hq

end SourceIndex

end PhpAtlas
