import PhpAtlas.Proofs.Building.DeclaredNames
import PhpAtlas.Proofs.Index.Declared
import PhpAtlas.Proofs.Tree.Decorated
import PhpAtlas.Proofs.Tree.Searching

/-! # First declarations

An index takes up every file that is in the language, and lists the first of
the declarations of each name. No declaration is missed: in a file without
syntax errors each has a name, and a search finds it.
-/

namespace PhpAtlas

/-! ## First entries of a list -/

section Firsts

variable {α : Type} {key : α → String} {xs : List α} {x y : α}

/-- The entries whose name none of the entries before them has, in their order. -/
def firsts (key : α → String) (xs : List α) : List α :=
  (xs.zipIdx.filter fun (x, i) => !(xs.take i).any fun y => sameName (key y) (key x)).map Prod.fst

theorem firsts_concat (key : α → String) (xs : List α) (x : α) :
    firsts key (xs ++ [x]) =
      firsts key xs ++ if xs.any fun y => sameName (key y) (key x) then [] else [x] := by
  have hold : xs.zipIdx.filter (fun (x', i) =>
      !((xs ++ [x]).take i).any fun y => sameName (key y) (key x')) =
      xs.zipIdx.filter fun (x', i) => !(xs.take i).any fun y => sameName (key y) (key x') := by
    refine List.filter_congr ?_
    rintro ⟨x', i⟩ hi
    have hlt : i < xs.length := by
      have := List.snd_lt_of_mem_zipIdx hi
      simpa using this
    dsimp only
    rw [List.take_append_of_le_length hlt.le]
  have htake : (xs ++ [x]).take xs.length = xs := List.take_left
  rw [firsts, List.zipIdx_append, List.filter_append, List.map_append, hold, firsts]
  refine congrArg _ ?_
  simp only [List.zipIdx_singleton, Nat.zero_add, List.filter_cons, htake, List.filter_nil]
  split
  · next h => rw [if_neg (by simpa using h)]; rfl
  · next h => rw [if_pos (by simpa using h)]; rfl

/-- The names of the first entries are those of all entries. -/
theorem exists_mem_firsts_iff {name : String} :
    (∃ y ∈ firsts key xs, lower (key y) = name) ↔ ∃ y ∈ xs, lower (key y) = name := by
  induction xs using List.reverseRecOn with
  | nil => rfl
  | append_singleton xs x ih =>
    rw [firsts_concat]
    split
    · next h =>
      obtain ⟨z, hz, hzx⟩ := taken_iff.mp h
      rw [List.append_nil, ih]
      constructor
      · rintro ⟨y, hy, hn⟩
        exact ⟨y, List.mem_append_left _ hy, hn⟩
      · rintro ⟨y, hy, hn⟩
        rcases List.mem_append.mp hy with hy | hy
        · exact ⟨y, hy, hn⟩
        · obtain rfl := List.mem_singleton.mp hy
          exact ⟨z, hz, hzx.trans hn⟩
    · simp only [List.mem_append, or_and_right, exists_or, ih]

/-- Entries that are added one by one unless their names are taken are the first ones. -/
theorem foldl_insertBy (key : α → String) (xs : List α) :
    xs.foldl (insertBy key) [] = firsts key xs := by
  induction xs using List.reverseRecOn with
  | nil => rfl
  | append_singleton xs x ih =>
    have htaken : ((firsts key xs).any fun y => sameName (key y) (key x)) =
        xs.any fun y => sameName (key y) (key x) := by
      rw [Bool.eq_iff_iff, taken_iff, taken_iff, exists_mem_firsts_iff]
    rw [List.foldl_append, ih, firsts_concat, List.foldl_cons, List.foldl_nil, insertBy, htaken]
    split
    · rw [List.append_nil]
    · rfl

/-- A list has of each name the first entry, and these entries are in their order. -/
structure ListsFirsts (key : α → String) (xs ys : List α) : Prop where
  eq : ys = firsts key xs
  distinct : Distinct key ys
  all : ∀ x ∈ xs, ∃ y ∈ ys, lower (key y) = lower (key x)

theorem listsFirsts_foldl (key : α → String) (xs : List α) :
    ListsFirsts key xs (xs.foldl (insertBy key) []) where
  eq := foldl_insertBy key xs
  distinct := Distinct.foldl .nil xs
  all x hx := by
    rw [foldl_insertBy]
    exact exists_mem_firsts_iff.mpr ⟨x, hx, rfl⟩

/-- A function that is defined on a list gives one result for each of its elements. -/
theorem forall₂_filterMap {β : Type} {f : α → Option β} {R : α → β → Prop}
    (h : ∀ x ∈ xs, ∃ y, f x = some y ∧ R x y) : List.Forall₂ R xs (xs.filterMap f) := by
  induction xs with
  | nil => exact .nil
  | cons x xs ih =>
    obtain ⟨hx, hxs⟩ := List.forall_mem_cons.mp h
    obtain ⟨y, hy, hr⟩ := hx
    rw [List.filterMap_cons_some hy]
    exact .cons hr (ih hxs)

end Firsts

/-! ## Declarations of a file -/

/-- In a source without syntax errors every declaration has a full name, which is its name behind the
namespace around it. -/
theorem Parsed.exists_fullName? {source : List Char} {i : NodeId}
    {payload : Payload (Option NodeId)} (h : (ofSource source).diagnostics = [])
    (hr : (ofSource source).decorated.arena.Reaches (ofSource source).root i)
    (hp : (ofSource source).decorated.arena.payload? i = some payload)
    (hd : payload.kind.isClassLike = true ∨ payload.kind = .functionDeclaration) :
    ∃ name, (ofSource source).decorated.arena.fullName? i = some name ∧
      (ofSource source).decorated.arena.qualifiedName? i = some name := by
  have hnodes : (ofSource source).decorated.arena.nodes = (ofSource source).arena.nodes :=
    Arena.nodes_decorate ..
  obtain ⟨place, hplace, along⟩ := (decoratedTree_ofSource source).placed i hr
  obtain ⟨hdeclares, hplaced⟩ : (payload.isClassLike = true ∨ payload.isFunction = true) ∧
      place.fullName = (ofSource source).decorated.arena.qualifiedName? i := by
    rcases hd with hd | hd
    · obtain ⟨form, d, rfl⟩ := Payload.eq_classLike hd
      exact ⟨.inl rfl, along.classLikeName form d hp⟩
    · obtain ⟨d, rfl⟩ := Payload.eq_function hd
      exact ⟨.inr rfl, along.functionName d hp⟩
  obtain ⟨short, hshort⟩ := exists_declaredName? h (Arena.payload?_congr hnodes ▸ hp) hdeclares
  rw [← Arena.declaredName?_congr hnodes] at hshort
  have hfull : (ofSource source).decorated.arena.fullName? i =
      (ofSource source).decorated.arena.qualifiedName? i := by
    rw [Arena.fullName?, hplace, Option.bind_some, hplaced]
  rw [hfull, Arena.qualifiedName?, hshort]
  exact ⟨_, rfl, rfl⟩

namespace CodeFile

variable {file : CodeFile} {path : FilePath} {text : String} {i : NodeId}
variable {payload : Payload (Option NodeId)}

/-- The nodes of some kinds in the order of a walk. -/
def nodesOfKind (file : CodeFile) (p : NodeKind → Bool) : List NodeId :=
  (file.arena.descendants file.root).filter fun i => (file.arena.kind? i).any p

/-- The class is read off the node, and has the name of the node behind the namespace around it. -/
structure DeclaresClass (file : CodeFile) (i : NodeId) (c : ClassInfo) : Prop where
  info : file.classInfo? i = some c
  name : file.arena.qualifiedName? i = some c.name
  path : c.file = some file.path

structure DeclaresFunction (file : CodeFile) (i : NodeId) (f : FunctionInfo) : Prop where
  name : file.arena.qualifiedName? i = some f.name
  path : f.file = some file.path

theorem parse?_cases (h : parse? path text = some file) :
    (Parsed.ofSource text.toList).diagnostics = [] ∧
      file = ofParsed path text.toList (Parsed.ofSource text.toList) := by
  unfold parse? at h
  extract_lets parsed at h
  split at h
  · next hd => exact ⟨List.isEmpty_iff.mp hd, (Option.some.inj h).symm⟩
  · cases h

/-- In a file a search finds the nodes of a walk that are of the kind. -/
theorem allWithin_eq (h : parse? path text = some file) (p : NodeKind → Bool) :
    file.arena.allWithin file.root (fun _ n => p n.kind) = file.nodesOfKind p := by
  obtain ⟨-, rfl⟩ := parse?_cases h
  have hall := (Parsed.searches_agree text.toList).2.all
    [(Parsed.ofSource text.toList).root] fun _ n => p n.kind
  rw [List.flatMap_singleton] at hall
  refine hall.trans (List.filter_congr fun i _ => ?_)
  rw [Arena.satisfies, Arena.kind?, Option.any_map]
  rfl

theorem exists_fullName? (h : parse? path text = some file) (hr : file.arena.Reaches file.root i)
    (hp : file.arena.payload? i = some payload)
    (hd : payload.kind.isClassLike = true ∨ payload.kind = .functionDeclaration) :
    ∃ name, file.arena.fullName? i = some name ∧ file.arena.qualifiedName? i = some name := by
  obtain ⟨hdiagnostics, rfl⟩ := parse?_cases h
  exact Parsed.exists_fullName? hdiagnostics hr hp hd

theorem classLikes_eq (h : parse? path text = some file) :
    file.classLikes = file.nodesOfKind NodeKind.isClassLike :=
  allWithin_eq h NodeKind.isClassLike

theorem functionDeclarations_eq (h : parse? path text = some file) :
    file.functionDeclarations = file.nodesOfKind (· == .functionDeclaration) := by
  have hkind : Arena.isOfKind [.functionDeclaration] =
      fun _ n => n.kind == .functionDeclaration := by
    funext i n
    simp only [Arena.isOfKind, List.contains_cons, List.contains_nil, Bool.or_false]
  rw [functionDeclarations, hkind]
  exact allWithin_eq h (· == .functionDeclaration)

/-- A file has one class for each class-like in it, in their order. -/
theorem forall₂_classes (h : parse? path text = some file) :
    List.Forall₂ file.DeclaresClass (file.nodesOfKind NodeKind.isClassLike)
      file.symbols.classes := by
  rw [← classLikes_eq h]
  refine forall₂_filterMap fun i hi => ?_
  obtain ⟨hr, form, d, hp⟩ := mem_classLikes hi
  obtain ⟨name, hfull, hname⟩ := exists_fullName? h hr hp (.inl (Payload.isClassLike_classLike _ _))
  obtain ⟨c, hc, hcn⟩ := exists_classInfo? hp hfull
  obtain ⟨-, -, -, -, -, -, hfile, -⟩ := classInfo?_eq_some hc
  have hu := ((parse?_eq_some h).2.named_classLike hi hfull).1
  rw [dropLeadingBackslashes_of_unrooted hu] at hcn
  exact ⟨c, hc, hc, hcn ▸ hname, hfile⟩

/-- A file has one function for each function declaration in it, in their order. -/
theorem forall₂_functions (h : parse? path text = some file) :
    List.Forall₂ file.DeclaresFunction (file.nodesOfKind (· == .functionDeclaration))
      file.symbols.functions := by
  rw [← functionDeclarations_eq h]
  refine forall₂_filterMap fun i hi => ?_
  obtain ⟨hr, d, hp⟩ := mem_functionDeclarations hi
  obtain ⟨name, hfull, hname⟩ := exists_fullName? h hr hp (.inr rfl)
  refine ⟨_, Option.map_eq_some_iff.mpr ⟨name, hfull, rfl⟩, ?_, rfl⟩
  rw [(parse?_eq_some h).2.name_of_fullName? hi hfull]
  exact hname

end CodeFile

/-! ## Files of an index -/

namespace SourceIndex

variable {read : FileTexts} {files : List FilePath} {natives : List String} {x : SourceIndex}

/-- Whether the file can be read and has no syntax error. -/
def isIndexed (read : FileTexts) (path : FilePath) : Bool :=
  (read path).any fun text => (Parsed.ofSource text.toList).diagnostics.isEmpty

/-- The files that can be read and have no syntax errors. -/
def parsedFiles (read : FileTexts) (files : List FilePath) : List CodeFile :=
  files.filterMap fun path => (read path).bind (CodeFile.parse? path)

/-- The places where the files have nodes of some kinds, in the order of the files and of a walk through
each of them. -/
def placesOfKind (read : FileTexts) (files : List FilePath) (p : NodeKind → Bool) :
    List (CodeFile × NodeId) :=
  (parsedFiles read files).flatMap fun file => (file.nodesOfKind p).map (file, ·)

theorem isIndexed_eq (read : FileTexts) (path : FilePath) :
    isIndexed read path = ((read path).bind (CodeFile.parse? path)).isSome := by
  rw [isIndexed]
  cases read path with
  | none => rfl
  | some text =>
    rw [Option.any_some, Option.bind_some, CodeFile.parse?]
    split
    · next h => exact h
    · next h => exact Bool.eq_false_iff.mpr h

/-- What files add to an index. -/
theorem foldl_addFile (x : SourceIndex) (files : List FilePath) :
    files.foldl (addFile read) x =
      { x with
        classes := ((parsedFiles read files).flatMap fun file => file.symbols.classes).foldl
          insertClass x.classes
        functions := ((parsedFiles read files).flatMap fun file => file.symbols.functions).foldl
          insertFunction x.functions
        files := x.files ++ files.filter (isIndexed read)
        skipped := x.skipped ++ files.filter fun path => !isIndexed read path } := by
  induction files generalizing x with
  | nil => simp [parsedFiles]
  | cons path files ih =>
    rw [List.foldl_cons, ih, addFile]
    have hindexed := isIndexed_eq read path
    cases hfile : (read path).bind (CodeFile.parse? path) with
    | none =>
      rw [hfile] at hindexed
      simp [parsedFiles, hfile, hindexed]
    | some file =>
      rw [hfile] at hindexed
      simp [parsedFiles, hfile, hindexed]

/-- One entry for each place, file by file. -/
theorem forall₂_places {α : Type} {p : NodeKind → Bool} {R : CodeFile → NodeId → α → Prop}
    {entries : CodeFile → List α}
    (h : ∀ path text file, CodeFile.parse? path text = some file →
      List.Forall₂ (R file) (file.nodesOfKind p) (entries file)) :
    List.Forall₂ (fun place x => R place.1 place.2 x) (placesOfKind read files p)
      ((parsedFiles read files).flatMap entries) := by
  have hparsed : List.Forall₂ (fun file file' => file = file' ∧ file ∈ parsedFiles read files)
      (parsedFiles read files) (parsedFiles read files) :=
    List.forall₂_same.mpr fun file hfile => ⟨rfl, hfile⟩
  refine List.rel_flatMap hparsed ?_
  rintro file _ ⟨rfl, hfile⟩
  obtain ⟨path, -, hpath⟩ := List.mem_filterMap.mp hfile
  obtain ⟨text, -, hparse⟩ := Option.bind_eq_some_iff.mp hpath
  exact List.forall₂_map_left_iff.mpr (h path text file hparse)

/-- Whether a name stands for the name in look-ups. -/
def answersTo (name other : String) : Bool := lower other == lookupKey name

/-- An index has taken up the files, and each is indexed or skipped. It lists of the declarations in the
files that are indexed the first of each name. Classes of the files stand before those that are taken
for native, of which the last counts, and these before the native ones; likewise functions. -/
structure Indexes (read : FileTexts) (paths : List FilePath) (natives : List String)
    (x : SourceIndex) : Prop where
  files : x.files = paths.filter (isIndexed read)
  skipped : x.skipped = paths.filter fun path => !isIndexed read path
  classes : ∃ declared : List ClassInfo,
    List.Forall₂ (fun place c => place.1.DeclaresClass place.2 c)
      (placesOfKind read x.files NodeKind.isClassLike) declared ∧
    ListsFirsts ClassInfo.name declared x.classes
  functions : ∃ declared : List FunctionInfo,
    List.Forall₂ (fun place f => place.1.DeclaresFunction place.2 f)
      (placesOfKind read x.files (· == .functionDeclaration)) declared ∧
    ListsFirsts FunctionInfo.name declared x.functions
  class? : ∀ name, x.class? name =
    ((x.classes.find? fun c => answersTo name c.name).or
      ((natives.map ClassInfo.native).reverse.find? fun c => answersTo name c.name)).or
        (Natives.classes.find? fun c => answersTo name c.name)
  function? : ∀ name, x.function? name =
    (x.functions.find? fun f => answersTo name f.name).or
      (Natives.functions.find? fun f => answersTo name f.name)

theorem parsedFiles_filter (read : FileTexts) (files : List FilePath) :
    parsedFiles read (files.filter (isIndexed read)) = parsedFiles read files := by
  rw [parsedFiles, parsedFiles, List.filterMap_filter]
  refine List.filterMap_congr fun path _ => ?_
  rw [isIndexed_eq]
  cases (read path).bind (CodeFile.parse? path) <;> rfl

theorem placesOfKind_filter (p : NodeKind → Bool) :
    placesOfKind read (files.filter (isIndexed read)) p = placesOfKind read files p := by
  rw [placesOfKind, parsedFiles_filter, placesOfKind]

/-- Whatever the files are, no file is lost and the first declaration of each name is kept. -/
theorem indexes_ofFiles (paths : List FilePath) (natives : List String) (read : FileTexts) :
    Indexes read paths natives (ofFiles paths natives read) := by
  rw [ofFiles, foldl_addFile]
  simp only [List.nil_append]
  constructor
  case files => rfl
  case skipped => rfl
  case classes =>
    rw [placesOfKind_filter]
    exact ⟨_, forall₂_places fun _ _ _ => CodeFile.forall₂_classes, listsFirsts_foldl _ _⟩
  case functions =>
    rw [placesOfKind_filter]
    exact ⟨_, forall₂_places fun _ _ _ => CodeFile.forall₂_functions, listsFirsts_foldl _ _⟩
  case class? =>
    intro name
    rw [SourceIndex.class?, List.find?_append, List.find?_append]
    rfl
  case function? =>
    intro name
    rw [SourceIndex.function?, List.find?_append]
    rfl

end SourceIndex

end PhpAtlas
