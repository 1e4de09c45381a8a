import PhpAtlas.ExpressionType
import PhpAtlas.Proofs.Building.Work
import PhpAtlas.Proofs.Tree.Placed

/-! # Named declarations

In a decorated tree the full name of a declaration is its own name behind the
namespace around it. A class-like is the class that its members are in.
-/

namespace PhpAtlas

theorem unrooted_append {s t : String} (h : Unrooted s) (hs : s ≠ "") : Unrooted (s ++ t) := by
  unfold Unrooted at h ⊢
  rw [String.toList_append]
  cases hl : s.toList with
  | nil => exact absurd (String.toList_eq_nil_iff.mp hl) hs
  | cons c cs => simpa [hl] using h

/-- The namespace around has no backslash before it. -/
def Context.Bare (c : Context) : Prop :=
  ∀ home, c.scope.namespaceName = some home → Unrooted home ∧ home ≠ ""

theorem Context.Bare.qualify {c : Context} (h : c.Bare) {name : String} (hn : Unrooted name) :
    Unrooted (c.scope.qualify name) := by
  unfold Scope.qualify
  split
  · next home hs =>
    obtain ⟨hu, he⟩ := h home hs
    rw [String.append_assoc]
    exact unrooted_append hu he
  · exact hn

namespace Arena

variable {a b : Arena} {c : Context} {i j k : NodeId} {n : Node} {name : String}
variable {form : ClassForm} {cls : ClassDecl (Option NodeId)}
variable {kind : FunctionForm} {fn : FunctionDecl (Option NodeId)}

/-- All names in the tree are bare. -/
def Bare (a : Arena) : Prop := ∀ i n, a.node? i = some n → n.payload.Bare

/-! ## Names -/

theorem identifier?_congr (h : b.nodes = a.nodes) : b.identifier? = a.identifier? := by
  funext i
  rw [identifier?, identifier?, payload?_congr h]

theorem declaredName?_congr (h : b.nodes = a.nodes) : b.declaredName? = a.declaredName? := by
  funext i
  rw [declaredName?, declaredName?, payload?_congr h, identifier?_congr h]

theorem Bare.identifier (h : a.Bare) (hi : a.identifier? i = some name) : Unrooted name := by
  unfold identifier? payload? at hi
  cases hn : a.node? i with
  | none => simp [hn] at hi
  | some n =>
    have hb : n.payload.Bare := h i n hn
    rw [hn, Option.map_some] at hi
    split at hi
    · next text hp =>
      obtain rfl := Option.some.inj hi
      rwa [Option.some.inj hp] at hb
    · cases hi

theorem Bare.declaredName (h : a.Bare) (hi : a.declaredName? i = some name) : Unrooted name := by
  unfold declaredName? at hi
  split at hi
  · obtain ⟨k, -, hk⟩ := Option.bind_eq_some_iff.mp hi
    exact h.identifier hk
  · obtain ⟨k, -, hk⟩ := Option.bind_eq_some_iff.mp hi
    exact h.identifier hk
  · cases hi

/-! ## Contexts -/

theorem namespaceName_addImport (form : ImportForm) (s : Scope) (i : Import) :
    (s.addImport form i).namespaceName = s.namespaceName := by
  cases form <;> rfl

theorem namespaceName_addImports (form : ImportForm) (items : List Import) (s : Scope) :
    (items.foldl (Scope.addImport form) s).namespaceName = s.namespaceName := by
  induction items generalizing s with
  | nil => rfl
  | cons i items ih => rw [List.foldl_cons, ih, namespaceName_addImport]

theorem namespaceName_regionScope (a : Arena) (region : NodeId) (home : Option String) :
    (a.regionScope region home).namespaceName = home := by
  unfold regionScope
  refine List.foldlRecOn (motive := fun s : Scope => s.namespaceName = home) _ _ rfl ?_
  intro s hs i _
  split
  · exact (namespaceName_addImports _ _ s).trans hs
  · exact hs

theorem bare_inside (hc : c.Bare) (hn : n.payload.Bare) : (a.inside c i n).Bare := by
  unfold Arena.inside enterNode
  split
  · next home statements braced hp =>
    intro home' hh
    have hs : (a.regionScope i home).namespaceName = some home' := hh
    rw [namespaceName_regionScope] at hs
    rw [hp, hs] at hn
    exact hn
  all_goals exact hc

/-- Every node of a placed tree was entered from a context. -/
theorem Placed.of_reaches (h : a.Placed c i) (ha : a.Bare) (hc : c.Bare) (hr : a.Reaches i j) :
    ∃ c' : Context, c'.Bare ∧ a.Placed c' j := by
  induction hr with
  | refl => exact ⟨c, hc, h⟩
  | tail _ hk ih =>
    obtain ⟨c', hc', hp⟩ := ih
    cases hp with
    | enter b hn _ _ _ hcs => exact ⟨_, bare_inside hc' (ha _ _ hn), hcs _ hk⟩

/-! ## Declarations -/

theorem Placed.classLike (h : a.Placed c i) (hp : a.payload? i = some (.classLike form cls)) :
    a.fullName? i = (a.declaredName? i).map c.scope.qualify ∧ a.className? i = a.fullName? i ∧
      ∀ k ∈ a.children i, ∃ c' : Context, c'.className = a.fullName? i ∧ a.Placed c' k := by
  cases h with
  | @enter _ _ n b hn hb _ hpl hcs =>
    have hpn : n.payload = .classLike form cls := by simpa [payload?, hn] using hp
    have hf : a.fullName? i = (a.declaredName? i).map c.scope.qualify := by
      rw [fullName?, hpl, declaredName?, hp, ← identifier?_congr hb]
      simp only [Option.bind_some, enterNode, hpn, Context.placement]
    have hclass : (b.inside c i n).className = a.fullName? i := by
      rw [hf, declaredName?, hp, ← identifier?_congr hb]
      simp only [inside, enterNode, hpn]
    refine ⟨hf, ?_, ?_⟩
    · rw [className?, hpl]
      exact hclass
    · intro k hk
      exact ⟨_, hclass, hcs k hk⟩

theorem Placed.function (h : a.Placed c i) (hp : a.payload? i = some (.function kind fn)) :
    a.className? i = c.className ∧
      a.fullName? i = if kind = .function then (a.declaredName? i).map c.scope.qualify else none := by
  cases h with
  | @enter _ _ n b hn hb _ hpl _ =>
    have hpn : n.payload = .function kind fn := by simpa [payload?, hn] using hp
    constructor
    · rw [className?, hpl]
      simp only [Option.bind_some, Context.placement, inside, enterNode, hpn]
    · rw [fullName?, hpl, declaredName?, hp, ← identifier?_congr hb]
      simp only [Option.bind_some, enterNode, hpn, Context.placement]

/-- A class-like under a placed node that has a full name is the class that it and its methods
are in. -/
theorem Placed.named_classLike (h : a.Placed c i) (ha : a.Bare) (hc : c.Bare) (hr : a.Reaches i j)
    (hp : a.payload? j = some (.classLike form cls)) (hf : a.fullName? j = some name) :
    Unrooted name ∧ (∃ short, a.declaredName? j = some short) ∧ a.className? j = some name ∧
      ∀ k ∈ a.children j, ∀ kind fn, a.payload? k = some (.function kind fn) →
        a.className? k = some name := by
  obtain ⟨c', hc', hj⟩ := h.of_reaches ha hc hr
  obtain ⟨hfull, hclass, hchild⟩ := hj.classLike hp
  obtain ⟨short, hs, rfl⟩ := Option.map_eq_some_iff.mp (hfull.symm.trans hf)
  refine ⟨hc'.qualify (ha.declaredName hs), ⟨short, hs⟩, hclass.trans hf, ?_⟩
  intro k hk kind fn hm
  obtain ⟨c'', hc'', hpk⟩ := hchild k hk
  rw [(hpk.function hm).1, hc'', hf]

theorem Placed.named_function (h : a.Placed c i) (ha : a.Bare) (hc : c.Bare) (hr : a.Reaches i j)
    (hp : a.payload? j = some (.function kind fn)) (hf : a.fullName? j = some name) :
    Unrooted name ∧ ∃ short, a.declaredName? j = some short := by
  obtain ⟨c', hc', hj⟩ := h.of_reaches ha hc hr
  have hfull := (hj.function hp).2
  rw [hf] at hfull
  split at hfull
  · obtain ⟨short, hs, rfl⟩ := Option.map_eq_some_iff.mp hfull.symm
    exact ⟨hc'.qualify (ha.declaredName hs), short, hs⟩
  · cases hfull

end Arena

end PhpAtlas
