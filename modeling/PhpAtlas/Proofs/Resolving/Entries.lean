import Mathlib.Data.List.Perm.Basic
import PhpAtlas.Proofs.CacheTransparency

/-! # The three tables as one

Every question to a resolver needs no entry of the cache at all, or exactly one.
What it does is fixed by that entry's key and by how the declaration behind it
is looked up.
-/

namespace PhpAtlas

/-- The key of an entry. A class and a function of one name are two symbols. -/
inductive EntryKey
  | method (owner : SymbolId) (name : String)
  | function (symbol : SymbolId)
  | classLike (symbol : SymbolId)
  deriving DecidableEq, Repr

namespace Cache

variable (c : Cache) {k l : EntryKey} {e : Outcome}

def outcome? : EntryKey → Option Outcome
  | .method owner name => c.methods.lookup (owner, name)
  | .function symbol => c.functions.lookup symbol
  | .classLike symbol => c.classes.lookup symbol

def insert (k : EntryKey) (e : Outcome) : Cache :=
  match k with
  | .method owner name => { c with methods := ((owner, name), e) :: c.methods }
  | .function symbol => { c with functions := (symbol, e) :: c.functions }
  | .classLike symbol => { c with classes := (symbol, e) :: c.classes }

def keys : List EntryKey :=
  c.methods.map (fun x => .method x.1.1 x.1.2) ++ c.functions.map (fun x => .function x.1) ++
    c.classes.map (fun x => .classLike x.1)

theorem length_keys : c.keys.length = c.size := by
  simp only [keys, size, List.length_append, List.length_map]

theorem mem_keys_iff : k ∈ c.keys ↔ (c.outcome? k).isSome := by
  cases k <;> simp [keys, outcome?, List.lookup_isSome_iff]

theorem keys_insert : (c.insert k e).keys.Perm (k :: c.keys) := by
  cases k with
  | method owner name => exact .refl _
  | function symbol =>
    simp only [keys, insert, List.map_cons, List.append_assoc]
    exact List.perm_middle
  | classLike symbol =>
    simp only [keys, insert, List.map_cons]
    exact List.perm_middle

theorem size_insert : (c.insert k e).size = c.size + 1 := by
  rw [← length_keys, ← length_keys, (c.keys_insert).length_eq, List.length_cons]

theorem lookup_cons_of_ne {α β : Type} [BEq α] [LawfulBEq α] {a b : α} {y : β} {xs : List (α × β)}
    (h : a ≠ b) : ((b, y) :: xs).lookup a = xs.lookup a := by
  rw [List.lookup_cons, beq_false_of_ne h]

theorem outcome?_insert_of_ne (h : l ≠ k) : (c.insert k e).outcome? l = c.outcome? l := by
  cases k with
  | method owner name =>
    cases l with
    | method owner' name' =>
      refine lookup_cons_of_ne fun he => h ?_
      cases he
      rfl
    | function | classLike => rfl
  | function symbol =>
    cases l with
    | function symbol' => exact lookup_cons_of_ne fun he => h (congrArg _ he)
    | method | classLike => rfl
  | classLike symbol =>
    cases l with
    | classLike symbol' => exact lookup_cons_of_ne fun he => h (congrArg _ he)
    | method | function => rfl

end Cache

/-- A declaration that is looked up. -/
inductive Wanted
  | method (owner : ClassInfo) (name : String)
  | function (f : FunctionInfo)
  | classLike (c : ClassInfo)

namespace Wanted

def key : Wanted → EntryKey
  | method owner name => .method (.of owner.name owner.file) (lower name)
  | function f => .function (.of f.name f.file)
  | classLike c => .classLike (.of c.name c.file)

def file : Wanted → Option FilePath
  | method owner _ => owner.file
  | function f => f.file
  | classLike c => c.file

def find : Wanted → CodeFile → Except Absence Declaration
  | method owner name => CodeFile.methodDeclaration owner name
  | function f => CodeFile.functionDeclaration f
  | classLike c => CodeFile.classDeclaration c

end Wanted

/-- Native classes, and classes that are asked for by another name, have no entry. -/
def ClassInfo.wanted? (c : ClassInfo) (requested : String) : Option Wanted :=
  if c.builtin || !c.hasName requested then none else some (.classLike c)

namespace Provider

variable (p : Provider)

def wantedMethod? (className method : String) : Option Wanted :=
  (p.resolveMethod? className method).map fun m => .method m.owner m.method.name

def wantedFunction? (name : String) : Option Wanted :=
  (p.resolveFunction? name).map .function

def wantedClass? (name : String) : Option Wanted := (p.class? name).bind fun c => c.wanted? name

end Provider

namespace ResolverContext

variable (r : ResolverContext)

def wantedByCall? (a : Arena) (call : NodeId) : Option Wanted :=
  (r.callee? a call).bind fun callee => r.provider.wantedMethod? callee.1 callee.2

/-- Answers from the entry of a declaration, which is made if it is missing. -/
def fetch (w : Wanted) (s : ResolverState) : Found × ResolverState :=
  r.remember (s.cache.outcome? w.key) (fun e c => c.insert w.key e) w.file w.find s

def fetch? : Option Wanted → ResolverState → Found × ResolverState
  | none, s => (none, s)
  | some w, s => r.fetch w s

variable (s : ResolverState)

theorem methodOf_eq (owner : ClassInfo) (name : String) :
    r.methodOf owner name s = r.fetch (.method owner name) s := rfl

theorem functionOf_eq (f : FunctionInfo) : r.functionOf f s = r.fetch (.function f) s := rfl

theorem classOf_eq (c : ClassInfo) (requested : String) :
    r.classOf c requested s = r.fetch? (c.wanted? requested) s := by
  unfold classOf ClassInfo.wanted?
  split
  · rfl
  · rfl

theorem method_eq (className name : String) :
    r.method className name s = r.fetch? (r.provider.wantedMethod? className name) s := by
  unfold ResolverContext.method Provider.wantedMethod?
  cases r.provider.resolveMethod? className name with
  | none => rfl
  | some m => exact r.methodOf_eq s m.owner m.method.name

theorem function_eq (name : String) :
    r.function name s = r.fetch? (r.provider.wantedFunction? name) s := by
  unfold ResolverContext.function Provider.wantedFunction?
  cases r.provider.resolveFunction? name with
  | none => rfl
  | some f => exact r.functionOf_eq s f

theorem className_eq (name : String) :
    r.className name s = r.fetch? (r.provider.wantedClass? name) s := by
  unfold ResolverContext.className Provider.wantedClass?
  cases r.provider.class? name with
  | none => rfl
  | some c => exact r.classOf_eq s c name

theorem classFromType_eq (t : PhpType) :
    r.classFromType t s = r.fetch? ((classOfType? t).bind r.provider.wantedClass?) s := by
  unfold ResolverContext.classFromType
  cases classOfType? t with
  | none => rfl
  | some name => exact r.className_eq s name

theorem methodFromCall_eq (a : Arena) (call : NodeId) :
    r.methodFromCall a call s = r.fetch? (r.wantedByCall? a call) s := by
  unfold ResolverContext.methodFromCall wantedByCall?
  cases r.callee? a call with
  | none => rfl
  | some callee => exact r.method_eq s callee.1 callee.2

end ResolverContext

namespace Query

variable (r : ResolverContext)

/-- The declaration that a question needs the entry of. -/
def wanted? : Query → Option Wanted
  | method className name => r.provider.wantedMethod? className name
  | methodOf owner name => some (.method owner name)
  | function name => r.provider.wantedFunction? name
  | functionOf f => some (.function f)
  | classOf c requested => c.wanted? requested
  | classNamed name => r.provider.wantedClass? name
  | classFromType t => (ResolverContext.classOfType? t).bind r.provider.wantedClass?
  | methodFromCall a call => r.wantedByCall? a call
  | methodFromObjectCall a call =>
      if a.kind? call = some .methodCall then r.wantedByCall? a call else none
  | reset => none

theorem ask_eq {q : Query} (hq : q ≠ reset) (s : ResolverState) :
    q.ask r s = r.fetch? (q.wanted? r) s := by
  cases q with
  | method className name => exact r.method_eq s className name
  | methodOf owner name => exact r.methodOf_eq s owner name
  | function name => exact r.function_eq s name
  | functionOf f => exact r.functionOf_eq s f
  | classOf c requested => exact r.classOf_eq s c requested
  | classNamed name => exact r.className_eq s name
  | classFromType t => exact r.classFromType_eq s t
  | methodFromCall a call => exact r.methodFromCall_eq s a call
  | methodFromObjectCall a call =>
    simp only [ask, wanted?, ResolverContext.methodFromObjectCall]
    split
    · exact r.methodFromCall_eq s a call
    · rfl
  | reset => exact absurd rfl hq

end Query

/-! ## Runs -/

/-- A question in a run, with what the reader gives while it is answered. -/
structure Step where
  read : FileTexts
  query : Query

namespace Step

variable (r : ResolverContext)

def context (x : Step) : ResolverContext := { r with read := x.read }

def ask (x : Step) (s : ResolverState) : ResolverContext.Found × ResolverState :=
  x.query.ask (x.context r) s

/-- The answers to the steps of a run, and the state that the run ends in. -/
def play : List Step → ResolverState → List ResolverContext.Found × ResolverState
  | [], s => ([], s)
  | x :: xs, s =>
      let (found, s) := x.ask r s
      let (rest, s) := play xs s
      (found :: rest, s)

@[simp] theorem play_nil (s : ResolverState) : play r [] s = ([], s) := rfl

@[simp] theorem play_cons (x : Step) (xs : List Step) (s : ResolverState) :
    play r (x :: xs) s =
      ((x.ask r s).1 :: (play r xs (x.ask r s).2).1, (play r xs (x.ask r s).2).2) := rfl

theorem play_append (xs ys : List Step) (s : ResolverState) :
    (play r (xs ++ ys) s).2 = (play r ys (play r xs s).2).2 := by
  induction xs generalizing s with
  | nil => rfl
  | cons x xs ih => exact ih (x.ask r s).2

end Step

end PhpAtlas
