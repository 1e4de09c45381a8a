import Mathlib.Data.List.Induction
import Mathlib.Data.List.Pairwise
import Mathlib.Data.String.Basic
import PhpAtlas.Proofs.Tree.Named

/-! # Imports of a region

A scope has the imports that stand directly in its region: of two that are seen
under one name the later one, in the order of the names.
-/

namespace PhpAtlas

namespace ImportTable

variable {t : ImportTable} {key name k n : String}

/-- The keys stand in order, so that there is no key twice. -/
def Ordered (t : ImportTable) : Prop := t.Pairwise fun x y => x.1 < y.1

/-- The entries of imports that are made one after the other. -/
def ofImports (items : List Import) : ImportTable :=
  items.foldl (fun t i => t.insert (lower i.localName) i.name) []

/-- What the last of the imports that are seen under a key imports. -/
def last? (items : List Import) (key : String) : Option String :=
  (items.reverse.find? fun i => lower i.localName = key).map Import.name

theorem mem_insert (h : t.Ordered) :
    (k, n) ∈ t.insert key name ↔ k = key ∧ n = name ∨ k ≠ key ∧ (k, n) ∈ t := by
  induction t with
  | nil => simp [insert]
  | cons e t ih =>
    obtain ⟨k', n'⟩ := e
    obtain ⟨hlt, ht⟩ := List.pairwise_cons.mp h
    have hne : (k, n) ∈ t → k ≠ k' := fun hm => (hlt (k, n) hm).ne'
    rw [insert]
    split
    · next heq =>
      obtain rfl := beq_iff_eq.mp heq
      simp only [List.mem_cons, Prod.mk.injEq]
      grind
    · next hkey =>
      have hkey' : key ≠ k' := fun he => hkey (beq_iff_eq.mpr he)
      split
      · next hkey =>
        have hold : (k, n) ∈ (k', n') :: t → k ≠ key := by
          rintro hm rfl
          rcases List.mem_cons.mp hm with he | hm
          · exact hkey' (congrArg Prod.fst he)
          · exact lt_asymm hkey (hlt _ hm)
        rw [List.mem_cons, Prod.mk.injEq]
        grind
      · rw [List.mem_cons, ih ht, List.mem_cons, Prod.mk.injEq]
        have hold : k = k' → k ≠ key := fun he => he ▸ hkey'.symm
        grind

theorem Ordered.insert (h : t.Ordered) (key name : String) : (t.insert key name).Ordered := by
  induction t with
  | nil => exact List.pairwise_singleton _ _
  | cons e t ih =>
    obtain ⟨k, n⟩ := e
    obtain ⟨hlt, ht⟩ := List.pairwise_cons.mp h
    rw [ImportTable.insert]
    split
    · next heq =>
      obtain rfl := beq_iff_eq.mp heq
      exact List.pairwise_cons.mpr ⟨hlt, ht⟩
    · next hkey =>
      have hkey' : key ≠ k := fun he => hkey (beq_iff_eq.mpr he)
      split
      · next hkey =>
        refine List.pairwise_cons.mpr ⟨fun e he => ?_, h⟩
        rcases List.mem_cons.mp he with rfl | he
        · exact hkey
        · exact hkey.trans (hlt e he)
      · next hkey =>
        have hgt : k < key := lt_of_le_of_ne (not_lt.mp hkey) hkey'.symm
        refine List.pairwise_cons.mpr ⟨fun (k', n') he => ?_, ih ht⟩
        rcases (mem_insert ht).mp he with ⟨rfl, -⟩ | ⟨-, he⟩
        · exact hgt
        · exact hlt _ he

theorem ofImports_concat (items : List Import) (i : Import) :
    ofImports (items ++ [i]) = (ofImports items).insert (lower i.localName) i.name := by
  rw [ofImports, List.foldl_append]
  rfl

theorem last?_concat (items : List Import) (i : Import) (key : String) :
    last? (items ++ [i]) key = if lower i.localName = key then some i.name else last? items key := by
  rw [last?, List.reverse_append, List.reverse_singleton, List.singleton_append, List.find?_cons]
  split
  · next h => rw [if_pos (of_decide_eq_true h), Option.map_some]
  · next h => rw [if_neg (of_decide_eq_false h), last?]

theorem ordered_ofImports (items : List Import) : (ofImports items).Ordered := by
  induction items using List.reverseRecOn with
  | nil => exact .nil
  | append_singleton items i ih =>
    rw [ofImports_concat]
    exact ih.insert _ _

/-- The later one of the imports wins. -/
theorem mem_ofImports {items : List Import} :
    (k, n) ∈ ofImports items ↔ last? items k = some n := by
  induction items using List.reverseRecOn with
  | nil => simp [ofImports, last?]
  | append_singleton items i ih =>
    rw [ofImports_concat, mem_insert (ordered_ofImports items), last?_concat, ih]
    split
    · next h => simp [h, eq_comm]
    · next h => simp [Ne.symm h]

end ImportTable

/-! ## Regions -/

/-- The entries of a scope for one form of imports, of which constants have none. -/
def Scope.table (s : Scope) : ImportForm → ImportTable
  | .classLike => s.classImports
  | .function => s.functionImports
  | .constant => []

namespace Arena

variable {form f : ImportForm}

/-- The imports of a form directly in a region. -/
def regionImports (a : Arena) (region : NodeId) (form : ImportForm) : List Import :=
  (a.regionStatements region).flatMap fun i =>
    match a.payload? i with
    | some (.imports f items) => if f = form then items else []
    | _ => []

theorem table_addImports (hform : form ≠ .constant) (s : Scope) (items : List Import) :
    (items.foldl (Scope.addImport f) s).table form = (if f = form then items else []).foldl
      (fun t i => t.insert (lower i.localName) i.name) (s.table form) := by
  induction items generalizing s with
  | nil => rw [ite_self]; rfl
  | cons i items ih =>
    rw [List.foldl_cons, ih]
    cases f <;> cases form <;> first | rfl | exact absurd rfl hform

theorem table_regionScope (a : Arena) (hform : form ≠ .constant) (region : NodeId)
    (home : Option String) :
    (a.regionScope region home).table form = .ofImports (a.regionImports region form) := by
  have hempty : Scope.table { namespaceName := home } form = [] := by cases form <;> rfl
  rw [regionScope, ImportTable.ofImports, regionImports]
  generalize ({ namespaceName := home } : Scope) = s at hempty ⊢
  rw [← hempty]
  clear hempty
  induction a.regionStatements region generalizing s with
  | nil => rfl
  | cons i ids ih =>
    rw [List.foldl_cons, ih, List.flatMap_cons, List.foldl_append]
    cases a.payload? i with
    | none => rfl
    | some payload =>
      cases payload with
      | imports f items => simp only [table_addImports hform]
      | _ => rfl

end Arena

/-- The scope has the imports directly in a region and no others. -/
structure Scope.OfRegion (s : Scope) (a : Arena) (region : NodeId) (home : Option String) :
    Prop where
  namespaceName : s.namespaceName = home
  classes : ∀ key name, (key, name) ∈ s.classImports ↔
    ImportTable.last? (a.regionImports region .classLike) key = some name
  functions : ∀ key name, (key, name) ∈ s.functionImports ↔
    ImportTable.last? (a.regionImports region .function) key = some name
  ordered : s.classImports.Ordered ∧ s.functionImports.Ordered

theorem Arena.ofRegion_regionScope (a : Arena) (region : NodeId) (home : Option String) :
    (a.regionScope region home).OfRegion a region home := by
  have hc : (a.regionScope region home).classImports = _ :=
    a.table_regionScope (show ImportForm.classLike ≠ .constant by decide) region home
  have hf : (a.regionScope region home).functionImports = _ :=
    a.table_regionScope (show ImportForm.function ≠ .constant by decide) region home
  exact
    { namespaceName := a.namespaceName_regionScope region home
      classes := fun _ _ => hc ▸ ImportTable.mem_ofImports
      functions := fun _ _ => hf ▸ ImportTable.mem_ofImports
      ordered := ⟨hc ▸ ImportTable.ordered_ofImports _, hf ▸ ImportTable.ordered_ofImports _⟩ }

end PhpAtlas
