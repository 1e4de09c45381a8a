import PhpAtlas.Proofs.Building.Sources
import PhpAtlas.Proofs.Index.Listed
import PhpAtlas.Proofs.Tree.Named
import PhpAtlas.Resolve.Resolver

/-! # Declarations of a file

In a file the first symbol of a name is looked up as the node that it is listed
for. The declaration that is cut out there has the node's kind, name and class.
-/

namespace PhpAtlas

/-! ## Kinds of declarations -/

namespace Payload

variable {α : Type} {payload : Payload α}

theorem isClassLike_classLike (form : ClassForm) (d : ClassDecl α) :
    (Payload.classLike form d).kind.isClassLike = true := by
  cases form <;> rfl

theorem eq_classLike (h : payload.kind.isClassLike = true) :
    ∃ form d, payload = .classLike form d := by
  unfold kind at h
  split at h
  all_goals first | exact ⟨_, _, rfl⟩ | cases h

theorem eq_method (h : payload.kind = .methodDeclaration) : ∃ d, payload = .function .method d := by
  unfold kind at h
  split at h
  all_goals first | exact ⟨_, rfl⟩ | cases h

theorem eq_function (h : payload.kind = .functionDeclaration) :
    ∃ d, payload = .function .function d := by
  unfold kind at h
  split at h
  all_goals first | exact ⟨_, rfl⟩ | cases h

end Payload

namespace Arena

variable {a : Arena} {i : NodeId} {n : Node}

theorem kind?_eq : a.kind? i = (a.payload? i).map Payload.kind := by
  rw [kind?, payload?, Option.map_map]
  rfl

theorem declaresMethod_iff {name : String} :
    a.declaresMethod name i = true ↔ a.kind? i = some .methodDeclaration ∧
      ∃ short, a.declaredName? i = some short ∧ lower name = lower short := by
  simp only [declaresMethod, Bool.and_eq_true, beq_iff_eq, Option.any_eq_true, sameName_iff]

/-- The root of a detached tree stays in the class that it was in. -/
theorem className?_detach (h : a.node? i = some n) :
    (a.detach i).className? 0 = a.className? i := by
  obtain ⟨rest, hd⟩ : ∃ rest, a.descendants i = i :: rest := by
    rw [descendants, walk, h]
    exact ⟨_, rfl⟩
  have hp : (a.detach i).placement? 0 =
      some (relinkPlacement (a.descendants i).idxOf? ((a.placement? i).getD {})) := by
    simp only [placement?, detach, hd, List.map_cons, List.getElem?_toArray,
      List.getElem?_cons_zero]
  rw [className?, hp, className?, Option.bind_some]
  cases a.placement? i with
  | none => rfl
  | some p => rfl

end Arena

namespace CodeFile

variable {file : CodeFile} {i : NodeId} {name : String}

/-! ## Files in the language -/

/-- The tree of the file has bare names and is placed from its root. -/
structure Decorated (file : CodeFile) : Prop where
  bare : file.arena.Bare
  placed : ∃ c : Context, c.Bare ∧ file.arena.Placed c file.root

theorem decorated_ofParsed (path : FilePath) (text : List Char) :
    (ofParsed path text (Parsed.ofSource text)).Decorated := by
  obtain ⟨s, root, hs, hl, he⟩ := Parsed.sound_ofSource text
  have hr : root < s.arena.size := hl.lt root List.mem_cons_self
  rw [he]
  refine ⟨?_, _, ?_, hs.forest.placed_decorate hr⟩
  · intro i n hn
    exact hs.nodes i n ((Arena.node?_congr (s.arena.nodes_decorate root)).symm.trans hn)
  · intro home hh
    have hnone : (s.arena.undecorated.regionScope root none).namespaceName = some home := hh
    rw [Arena.namespaceName_regionScope] at hnone
    cases hnone

theorem parse?_eq_some {path : FilePath} {text : String} (h : parse? path text = some file) :
    file.path = path ∧ file.Decorated := by
  unfold parse? at h
  extract_lets parsed at h
  split at h
  · obtain rfl := Option.some.inj h
    exact ⟨rfl, decorated_ofParsed path text.toList⟩
  · cases h

theorem read_eq_some {read : FileTexts} {path : FilePath}
    (h : (read path).bind (parse? path) = some file) : file.path = path ∧ file.Decorated := by
  obtain ⟨text, -, ht⟩ := Option.bind_eq_some_iff.mp h
  exact parse?_eq_some ht

theorem mem_classLikes (hi : i ∈ file.classLikes) : file.arena.Reaches file.root i ∧
    ∃ form cls, file.arena.payload? i = some (.classLike form cls) := by
  obtain ⟨hr, n, hn, hk⟩ := Arena.mem_allWithin hi
  obtain ⟨form, cls, hp⟩ := Payload.eq_classLike hk
  exact ⟨hr, form, cls, hp ▸ Arena.payload?_of_node? hn⟩

theorem mem_functionDeclarations (hi : i ∈ file.functionDeclarations) :
    file.arena.Reaches file.root i ∧
      ∃ fn, file.arena.payload? i = some (.function .function fn) := by
  obtain ⟨hr, n, hn, hk⟩ := Arena.mem_allWithin hi
  have hfn : n.kind = .functionDeclaration := by simpa [Arena.isOfKind] using hk
  obtain ⟨fn, hp⟩ := Payload.eq_function hfn
  exact ⟨hr, fn, hp ▸ Arena.payload?_of_node? hn⟩

theorem Decorated.named_classLike (hd : file.Decorated) (hi : i ∈ file.classLikes)
    (hf : file.arena.fullName? i = some name) :
    Unrooted name ∧ (∃ short, file.arena.declaredName? i = some short) ∧
      file.arena.className? i = some name ∧
      ∀ k ∈ file.arena.children i, ∀ kind fn, file.arena.payload? k = some (.function kind fn) →
        file.arena.className? k = some name := by
  obtain ⟨hr, form, cls, hp⟩ := mem_classLikes hi
  obtain ⟨c, hc, hplaced⟩ := hd.placed
  exact hplaced.named_classLike hd.bare hc hr hp hf

theorem Decorated.named_function (hd : file.Decorated) (hi : i ∈ file.functionDeclarations)
    (hf : file.arena.fullName? i = some name) :
    Unrooted name ∧ ∃ short, file.arena.declaredName? i = some short := by
  obtain ⟨hr, fn, hp⟩ := mem_functionDeclarations hi
  obtain ⟨c, hc, hplaced⟩ := hd.placed
  exact hplaced.named_function hd.bare hc hr hp hf

end CodeFile

/-! ## Declarations at nodes -/

/-- The declaration is the one at a node of a file. -/
structure Declaration.At (d : Declaration) (file : CodeFile) (i : NodeId) : Prop where
  path : d.path = file.path
  kind : file.arena.kind? i = some d.kind
  name : file.arena.declaredName? i = some d.name
  className : d.className? = file.arena.className? i

/-- The declaration has the kind of its node. -/
theorem Declaration.At.kind_eq {d : Declaration} {file : CodeFile} {i : NodeId}
    {payload : Payload (Option NodeId)} (h : d.At file i)
    (hp : file.arena.payload? i = some payload) : d.kind = payload.kind := by
  have hk := h.kind
  rw [Arena.kind?_eq, hp] at hk
  exact (Option.some.inj hk).symm

namespace CodeFile

variable {file : CodeFile} {i k : NodeId} {c : ClassInfo} {f : FunctionInfo} {m : MethodInfo}
variable {short name : String} {form : ClassForm} {cls : ClassDecl (Option NodeId)}

theorem exists_node?_of_declaredName? (h : file.arena.declaredName? i = some short) :
    ∃ n, file.arena.node? i = some n := by
  cases hn : file.arena.node? i with
  | some n => exact ⟨n, rfl⟩
  | none =>
    rw [Arena.declaredName?, Arena.payload?, hn] at h
    cases h

theorem declaration_at (h : file.arena.declaredName? i = some short) :
    ∃ d, file.declaration (some i) = .ok d ∧ d.At file i := by
  obtain ⟨n, hn⟩ := exists_node?_of_declaredName? h
  have he : Declaration.extract? file i = some ⟨file.arena.detach i, n.kind, short, file.path,
      n.span, String.ofList (n.span.text file.text)⟩ := by
    rw [Declaration.extract?, hn, h]
    rfl
  refine ⟨_, by rw [CodeFile.declaration, Option.bind_some, he], rfl, ?_, h, ?_⟩
  · rw [Arena.kind?, hn]
    rfl
  · exact Arena.className?_detach hn

theorem hasName_iff_classInfo? (hi : i ∈ file.classLikes) :
    (file.arena.fullName? i).any c.hasName = true ↔
      ∃ d, file.classInfo? i = some d ∧ lower d.name = lower c.name := by
  simp only [Option.any_eq_true, ClassInfo.hasName, sameName_iff]
  constructor
  · rintro ⟨name, hf, hn⟩
    obtain ⟨-, form, cls, hp⟩ := mem_classLikes hi
    obtain ⟨d, hd, hname⟩ := exists_classInfo? hp hf
    exact ⟨d, hd, by rw [hname, hn]⟩
  · rintro ⟨d, hd, hn⟩
    obtain ⟨form, cls, name, -, hf, hname, -⟩ := classInfo?_eq_some hd
    exact ⟨name, hf, by rw [← hn, hname]⟩

/-- The first class-like of a name is the node that the class is looked up as. -/
theorem namedClass?_of_first (h : FirstIn ClassInfo.name file.symbols.classes c) :
    ∃ i ∈ file.classLikes, file.classInfo? i = some c ∧ file.namedClass? c = some i :=
  h.find?_of_filterMap fun _ hi => hasName_iff_classInfo? hi

theorem Decorated.name_of_fullName? (hd : file.Decorated) (hi : i ∈ file.functionDeclarations)
    (hf : file.arena.fullName? i = some name) :
    (FunctionInfo.of name (some file.path)).name = name :=
  dropLeadingBackslashes_of_unrooted (hd.named_function hi hf).1

theorem Decorated.sameName_iff_functionInfo (hd : file.Decorated)
    (hi : i ∈ file.functionDeclarations) :
    (file.arena.fullName? i).any (sameName f.name) = true ↔
      ∃ g, (file.arena.fullName? i).map (fun name => FunctionInfo.of name (some file.path)) = some g ∧
        lower g.name = lower f.name := by
  simp only [Option.any_eq_true, Option.map_eq_some_iff, sameName_iff]
  constructor
  · rintro ⟨name, hf, hn⟩
    exact ⟨_, ⟨name, hf, rfl⟩, by rw [hd.name_of_fullName? hi hf, hn]⟩
  · rintro ⟨-, ⟨name, hf, rfl⟩, hn⟩
    exact ⟨name, hf, by rw [← hn, hd.name_of_fullName? hi hf]⟩

/-- The first function of a name is the node that the function is looked up as. -/
theorem Decorated.namedFunction?_of_first (hd : file.Decorated)
    (h : FirstIn FunctionInfo.name file.symbols.functions f) :
    ∃ i ∈ file.functionDeclarations, file.arena.fullName? i = some f.name ∧
      file.namedFunction? f.name = some i := by
  obtain ⟨i, hi, hinfo, hfound⟩ :=
    h.find?_of_filterMap fun _ hi => hd.sameName_iff_functionInfo hi
  obtain ⟨name, hf, rfl⟩ := Option.map_eq_some_iff.mp hinfo
  exact ⟨i, hi, by rw [hd.name_of_fullName? hi hf, hf], hfound⟩

theorem methodInfo?_eq_some (h : file.methodInfo? k = some m) :
    file.arena.kind? k = some .methodDeclaration ∧ file.arena.declaredName? k = some m.name := by
  unfold methodInfo? at h
  split at h
  · next fn hp =>
    obtain ⟨name, hn, rfl⟩ := Option.map_eq_some_iff.mp h
    constructor
    · rw [Arena.kind?_eq, hp]
      rfl
    · exact hn
  · cases h

theorem mem_children_of_mem_members (hp : file.arena.payload? i = some (.classLike form cls))
    (hk : k ∈ cls.members.filterMap id) : k ∈ file.arena.children i := by
  obtain ⟨member, hm, hid⟩ := List.mem_filterMap.mp hk
  rw [Arena.children_of_payload? hp]
  refine List.mem_filterMap.mpr ⟨member, ?_, hid⟩
  exact List.mem_cons_of_mem _ (List.mem_append_right _ hm)

/-- A listed method is found among the members of its class-like. -/
theorem memberMethod?_of_mem (hp : file.arena.payload? i = some (.classLike form cls))
    (hm : m ∈ (cls.members.filterMap id).filterMap file.methodInfo?) : ∃ k fn short,
    file.arena.memberMethod? i m.name = some k ∧ k ∈ file.arena.children i ∧
      file.arena.payload? k = some (.function .method fn) ∧
      file.arena.declaredName? k = some short ∧ lower m.name = lower short := by
  obtain ⟨k₀, hk₀, hi₀⟩ := List.mem_filterMap.mp hm
  obtain ⟨hkind, hdecl⟩ := methodInfo?_eq_some hi₀
  have hd : file.arena.declaresMethod m.name k₀ = true :=
    Arena.declaresMethod_iff.mpr ⟨hkind, m.name, hdecl, rfl⟩
  obtain ⟨k, hk⟩ := Option.isSome_iff_exists.mp (List.find?_isSome.mpr ⟨k₀, hk₀, hd⟩)
  have hfound : file.arena.memberMethod? i m.name = some k := by
    rw [Arena.memberMethod?, hp]
    exact hk
  obtain ⟨hkk, short, hs, hsame⟩ := Arena.declaresMethod_iff.mp (List.find?_some hk)
  obtain ⟨payload, hpk, hkind⟩ := Option.map_eq_some_iff.mp (Arena.kind?_eq.symm.trans hkk)
  obtain ⟨fn, rfl⟩ := Payload.eq_method hkind
  have hchild := mem_children_of_mem_members hp (List.mem_of_find?_eq_some hk)
  exact ⟨k, fn, short, hfound, hchild, hpk, hs, hsame⟩

/-! ## Look-ups of listed symbols -/

/-- The class that an entry lists has its declaration at the node that the entry comes from. -/
theorem Decorated.classDeclaration_of_first (hd : file.Decorated)
    (h : FirstIn ClassInfo.name file.symbols.classes c) : ∃ d, classDeclaration c file = .ok d ∧
      d.path = file.path ∧ d.kind.isClassLike = true ∧ d.className? = some c.name := by
  obtain ⟨i, hi, hinfo, hfound⟩ := namedClass?_of_first h
  obtain ⟨form, cls, name, hp, hf, hname, -⟩ := classInfo?_eq_some hinfo
  obtain ⟨hu, ⟨short, hs⟩, hclass, -⟩ := hd.named_classLike hi hf
  obtain ⟨d, hok, hat⟩ := declaration_at hs
  rw [dropLeadingBackslashes_of_unrooted hu] at hname
  refine ⟨d, by rw [classDeclaration, hfound, hok], hat.path, ?_, ?_⟩
  · rw [hat.kind_eq hp, Payload.isClassLike_classLike]
  · rw [hat.className, hclass, hname]

theorem Decorated.methodDeclaration_of_first (hd : file.Decorated)
    (h : FirstIn ClassInfo.name file.symbols.classes c) (hm : m ∈ c.methods) :
    ∃ d, methodDeclaration c m.name file = .ok d ∧ d.path = file.path ∧
      d.kind = .methodDeclaration ∧ d.className? = some c.name ∧ lower d.name = lower m.name := by
  obtain ⟨i, hi, hinfo, hfound⟩ := namedClass?_of_first h
  obtain ⟨form, cls, name, hp, hf, hname, -, -, hmethods⟩ := classInfo?_eq_some hinfo
  obtain ⟨hu, -, -, hchild⟩ := hd.named_classLike hi hf
  obtain ⟨k, fn, short, hk, hkc, hkp, hs, hsame⟩ := memberMethod?_of_mem hp (hmethods ▸ hm)
  obtain ⟨d, hok, hat⟩ := declaration_at hs
  rw [dropLeadingBackslashes_of_unrooted hu] at hname
  have howner : file.ownerOf? c = some i := by rw [ownerOf?, hfound]
  refine ⟨d, ?_, hat.path, ?_, ?_, ?_⟩
  · rw [methodDeclaration, howner]
    simp only [hk, hok]
  · exact hat.kind_eq hkp
  · rw [hat.className, hchild k hkc _ fn hkp, hname]
  · rw [hsame, Option.some.inj (hat.name.symm.trans hs)]

theorem Decorated.functionDeclaration_of_first (hd : file.Decorated)
    (h : FirstIn FunctionInfo.name file.symbols.functions f) :
    ∃ d, functionDeclaration f file = .ok d ∧ d.path = file.path ∧
      d.kind = .functionDeclaration := by
  obtain ⟨i, hi, hf, hfound⟩ := hd.namedFunction?_of_first h
  obtain ⟨-, short, hs⟩ := hd.named_function hi hf
  obtain ⟨d, hok, hat⟩ := declaration_at hs
  obtain ⟨-, fn, hp⟩ := mem_functionDeclarations hi
  exact ⟨d, by rw [functionDeclaration, hfound, hok], hat.path, hat.kind_eq hp⟩

end CodeFile

end PhpAtlas
