import Mathlib.Data.List.Pairwise
import PhpAtlas.Proofs.Names
import PhpAtlas.Reflection.SourceIndex

/-! # Listed symbols

An index lists of each name the first declaration. It comes from a file that
was read and is in the language, and no declaration before it in that file has
the name.
-/

namespace PhpAtlas

/-! ## First entries -/

section First

variable {α : Type} {key : α → String} {xs ys : List α} {x y : α}

/-- Adds an entry unless its name is taken. -/
def insertBy (key : α → String) (xs : List α) (x : α) : List α :=
  if xs.any fun y => sameName (key y) (key x) then xs else xs ++ [x]

/-- No two entries have one name. -/
def Distinct (key : α → String) (xs : List α) : Prop :=
  xs.Pairwise fun x y => lower (key x) ≠ lower (key y)

/-- The entry is in the list, and none before it has its name. -/
def FirstIn (key : α → String) (xs : List α) (x : α) : Prop :=
  ∃ before after, xs = before ++ x :: after ∧ ∀ y ∈ before, lower (key y) ≠ lower (key x)

theorem FirstIn.mem (h : FirstIn key xs x) : x ∈ xs := by
  obtain ⟨before, after, rfl, -⟩ := h
  exact List.mem_append_right before List.mem_cons_self

theorem taken_iff :
    (xs.any fun y => sameName (key y) (key x)) = true ↔ ∃ y ∈ xs, lower (key y) = lower (key x) := by
  simp only [List.any_eq_true, sameName_iff]

theorem insertBy_cases (key : α → String) (xs : List α) (x : α) :
    (∃ y ∈ xs, lower (key y) = lower (key x)) ∧ insertBy key xs x = xs ∨
      (∀ y ∈ xs, lower (key y) ≠ lower (key x)) ∧ insertBy key xs x = xs ++ [x] := by
  unfold insertBy
  split
  · next h => exact .inl ⟨taken_iff.mp h, rfl⟩
  · next h => exact .inr ⟨fun y hy he => h (taken_iff.mpr ⟨y, hy, he⟩), rfl⟩

theorem Distinct.insertBy (h : Distinct key xs) (x : α) : Distinct key (insertBy key xs x) := by
  rcases insertBy_cases key xs x with ⟨-, he⟩ | ⟨hfree, he⟩
  · rwa [he]
  · rw [he]
    refine List.pairwise_append.mpr ⟨h, List.pairwise_singleton _ x, ?_⟩
    intro y hy z hz
    obtain rfl := List.mem_singleton.mp hz
    exact hfree y hy

theorem Distinct.foldl (h : Distinct key xs) (ys : List α) :
    Distinct key (ys.foldl (PhpAtlas.insertBy key) xs) := by
  induction ys generalizing xs with
  | nil => exact h
  | cons y ys ih => exact ih (h.insertBy y)

/-- An entry was there, or it is the first one of its name among those that were added. -/
theorem mem_foldl_insertBy (h : x ∈ ys.foldl (insertBy key) xs) : x ∈ xs ∨ FirstIn key ys x := by
  suffices hs : x ∈ xs ∨ (∀ y ∈ xs, lower (key y) ≠ lower (key x)) ∧ FirstIn key ys x from
    hs.imp_right And.right
  induction ys generalizing xs with
  | nil => exact .inl h
  | cons y ys ih =>
    rw [List.foldl_cons] at h
    have hnew := ih h
    rcases insertBy_cases key xs y with ⟨⟨z, hz, hzy⟩, he⟩ | ⟨hfree, he⟩
    · rw [he] at hnew
      refine hnew.imp_right fun ⟨hx, before, after, hys, hb⟩ => ⟨hx, y :: before, after, ?_, ?_⟩
      · rw [hys, List.cons_append]
      · exact List.forall_mem_cons.mpr ⟨hzy ▸ hx z hz, hb⟩
    · rw [he] at hnew
      rcases hnew with hx | ⟨hx, before, after, hys, hb⟩
      · rcases List.mem_append.mp hx with hx | hx
        · exact .inl hx
        · obtain rfl := List.mem_singleton.mp hx
          exact .inr ⟨hfree, [], ys, rfl, nofun⟩
      · refine .inr ⟨fun z hz => hx z (List.mem_append_left _ hz), y :: before, after, ?_, ?_⟩
        · rw [hys, List.cons_append]
        · exact List.forall_mem_cons.mpr ⟨hx y (List.mem_append_right _ List.mem_cons_self), hb⟩

/-- Where the entries are what `f` makes of a list, a search by name finds the element that the
first entry comes from. -/
theorem FirstIn.find?_of_filterMap {β : Type} {f : β → Option α} {l : List β} {p : β → Bool}
    (h : FirstIn key (l.filterMap f) x)
    (hp : ∀ i ∈ l, p i = true ↔ ∃ y, f i = some y ∧ lower (key y) = lower (key x)) :
    ∃ i ∈ l, f i = some x ∧ l.find? p = some i := by
  obtain ⟨xs, ys, he, hfirst⟩ := h
  obtain ⟨l₁, l₂, rfl, rfl, h₂⟩ := List.filterMap_eq_append_iff.mp he
  obtain ⟨l₃, i, l₄, rfl, hnone, hi, -⟩ := List.filterMap_eq_cons_iff.mp h₂
  have hmem : i ∈ l₁ ++ (l₃ ++ i :: l₄) := by simp
  refine ⟨i, hmem, hi, ?_⟩
  rw [← List.append_assoc] at hp hmem ⊢
  apply List.find?_eq_some_iff_append.mpr
  refine ⟨(hp i hmem).mpr ⟨x, hi, rfl⟩, l₁ ++ l₃, l₄, rfl, ?_⟩
  intro j hj
  rw [Bool.not_eq_true', ← Bool.not_eq_true, hp j (List.mem_append_left _ hj)]
  rintro ⟨y, hy, hyx⟩
  rcases List.mem_append.mp hj with hj | hj
  · exact hfirst y (List.mem_filterMap.mpr ⟨j, hj, hy⟩) hyx
  · rw [hnone j hj] at hy
    cases hy

/-- Among entries of distinct names, a look-up by name finds the entry itself. -/
theorem Distinct.find?_eq (h : Distinct key xs) (hx : x ∈ xs) :
    (xs.find? fun y => lower (key y) == lower (key x)) = some x := by
  obtain ⟨before, after, rfl⟩ := List.append_of_mem hx
  refine List.find?_eq_some_iff_append.mpr ⟨beq_self_eq_true _, before, after, rfl, ?_⟩
  intro y hy
  obtain ⟨-, -, hsep⟩ := List.pairwise_append.mp h
  simpa using hsep y hy x List.mem_cons_self

end First

/-! ## Classes and functions of a file -/

namespace CodeFile

variable {file : CodeFile} {i : NodeId} {c : ClassInfo} {f : FunctionInfo} {name : String}
variable {form : ClassForm} {d : ClassDecl (Option NodeId)}

theorem exists_classInfo? (hp : file.arena.payload? i = some (.classLike form d))
    (hf : file.arena.fullName? i = some name) :
    ∃ c, file.classInfo? i = some c ∧ c.name = dropLeadingBackslashes name := by
  simp only [classInfo?, hp, hf, Option.bind_eq_bind, Option.bind_some]
  exact ⟨_, rfl, rfl⟩

theorem classInfo?_eq_some (h : file.classInfo? i = some c) : ∃ form d name,
    file.arena.payload? i = some (.classLike form d) ∧ file.arena.fullName? i = some name ∧
      c.name = dropLeadingBackslashes name ∧ c.file = some file.path ∧ c.builtin = false ∧
      c.methods = (d.members.filterMap id).filterMap file.methodInfo? := by
  unfold classInfo? at h
  obtain ⟨payload, hp, h⟩ := Option.bind_eq_some_iff.mp h
  split at h
  · next form d =>
    obtain ⟨name, hf, h⟩ := Option.bind_eq_some_iff.mp h
    obtain rfl := Option.some.inj h
    exact ⟨form, d, name, hp, hf, rfl, rfl, rfl, rfl⟩
  · cases h

theorem of_mem_classes (h : c ∈ file.symbols.classes) :
    Unrooted c.name ∧ c.file = some file.path ∧ c.builtin = false := by
  obtain ⟨i, -, hi⟩ := List.mem_filterMap.mp h
  obtain ⟨form, d, name, -, -, hname, hfile, hbuiltin, -⟩ := classInfo?_eq_some hi
  exact ⟨hname ▸ unrooted_dropLeadingBackslashes name, hfile, hbuiltin⟩

theorem of_mem_functions (h : f ∈ file.symbols.functions) :
    Unrooted f.name ∧ f.file = some file.path := by
  obtain ⟨i, -, hi⟩ := List.mem_filterMap.mp h
  obtain ⟨name, -, rfl⟩ := Option.map_eq_some_iff.mp hi
  exact ⟨FunctionInfo.unrooted_of name _, rfl⟩

end CodeFile

/-! ## Indexes -/

namespace SourceIndex

variable {read : FileTexts} {x : SourceIndex} {c : ClassInfo} {f : FunctionInfo} {name : String}

/-- Each listed symbol is the first one of its name in some file. -/
structure Indexed (read : FileTexts) (x : SourceIndex) : Prop where
  classes : ∀ c ∈ x.classes, ∃ path file, (read path).bind (CodeFile.parse? path) = some file ∧
    FirstIn ClassInfo.name file.symbols.classes c
  functions : ∀ f ∈ x.functions, ∃ path file,
    (read path).bind (CodeFile.parse? path) = some file ∧
      FirstIn FunctionInfo.name file.symbols.functions f
  distinctClasses : Distinct ClassInfo.name x.classes
  distinctFunctions : Distinct FunctionInfo.name x.functions
  natives : ∀ c ∈ x.extraNatives, Unrooted c.name

theorem Indexed.addFile (h : Indexed read x) (path : FilePath) :
    Indexed read (x.addFile read path) := by
  unfold SourceIndex.addFile
  split
  · exact ⟨h.classes, h.functions, h.distinctClasses, h.distinctFunctions, h.natives⟩
  · next file hfile =>
    refine ⟨?_, ?_, h.distinctClasses.foldl _, h.distinctFunctions.foldl _, h.natives⟩
    · intro c hc
      rcases mem_foldl_insertBy hc with hc | hc
      · exact h.classes c hc
      · exact ⟨path, file, hfile, hc⟩
    · intro f hf
      rcases mem_foldl_insertBy hf with hf | hf
      · exact h.functions f hf
      · exact ⟨path, file, hfile, hf⟩

theorem indexed_ofFiles (files : List FilePath) (natives : List String) (read : FileTexts) :
    Indexed read (ofFiles files natives read) := by
  refine List.foldlRecOn (motive := Indexed read) files _ ?_ fun x hx path _ => hx.addFile path
  refine ⟨nofun, nofun, .nil, .nil, ?_⟩
  intro c hc
  obtain ⟨name, -, rfl⟩ := List.mem_map.mp (List.mem_reverse.mp hc)
  exact unrooted_dropLeadingBackslashes name

theorem Indexed.unrooted_class (h : Indexed read x) (hc : c ∈ x.classes) : Unrooted c.name := by
  obtain ⟨path, file, -, hfirst⟩ := h.classes c hc
  exact (CodeFile.of_mem_classes hfirst.mem).1

theorem Indexed.unrooted_function (h : Indexed read x) (hf : f ∈ x.functions) :
    Unrooted f.name := by
  obtain ⟨path, file, -, hfirst⟩ := h.functions f hf
  exact (CodeFile.of_mem_functions hfirst.mem).1

theorem Indexed.class?_unrooted (h : Indexed read x) (hc : x.class? name = some c) :
    Unrooted c.name := by
  have hm := List.mem_of_find?_eq_some hc
  rw [List.append_assoc, List.mem_append, List.mem_append] at hm
  rcases hm with hm | hm | hm
  · exact h.unrooted_class hm
  · exact h.natives c hm
  · exact (by decide +kernel : ∀ c ∈ Natives.classes, Unrooted c.name) c hm

theorem Indexed.function?_unrooted (h : Indexed read x) (hf : x.function? name = some f) :
    Unrooted f.name := by
  rcases List.mem_append.mp (List.mem_of_find?_eq_some hf) with hm | hm
  · exact h.unrooted_function hm
  · obtain ⟨name, -, rfl⟩ := List.mem_map.mp hm
    exact FunctionInfo.unrooted_of name none

/-- A listed class is found under its name, whatever is native. -/
theorem Indexed.class?_eq (h : Indexed read x) (hc : c ∈ x.classes) :
    x.class? c.name = some c := by
  rw [class?, lookupKey_of_unrooted (h.unrooted_class hc), List.append_assoc, List.find?_append,
    h.distinctClasses.find?_eq hc, Option.some_or]

end SourceIndex

end PhpAtlas
