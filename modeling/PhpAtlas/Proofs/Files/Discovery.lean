import PhpAtlas.Files.Discover
import PhpAtlas.Proofs.Files.Paths
import PhpAtlas.Proofs.Names

/-! # What is found

Leaving out a directory as soon as it is excluded is the same as leaving out
each file below it, since the parts of a path begin with those of the paths above
it. So what is found are the files below the roots that are wanted themselves.
-/

namespace PhpAtlas

variable {α : Type}

/-! ## Trees of names -/

namespace FileTree

/-- The names of a tree can stand in paths, and tell the entries of each directory apart. -/
inductive WellNamed : FileTree α → Prop
  | file (content : α) : WellNamed (.file content)
  | directory {entries : List (String × FileTree α)} (hd : (entries.map Prod.fst).Nodup)
      (hn : ∀ e ∈ entries, IsFileName e.1) (ht : ∀ e ∈ entries, WellNamed e.2) :
      WellNamed (.directory entries)

/-- What stands in a tree under some names, from the first to the last. -/
def below? (t : FileTree α) : List String → Option (FileTree α)
  | [] => some t
  | name :: names => (t.entries.lookup name).bind (below? · names)

variable {t u : FileTree α} {above : List (FileTree α)} {name : String} {names : List String}
variable {segments : List (List Char)} {content : α}

theorem WellNamed.empty : (empty : FileTree α).WellNamed := .directory .nil nofun nofun

theorem WellNamed.cons {entries : List (String × FileTree α)}
    (h : (FileTree.directory entries).WellNamed) (hn : IsFileName name) (hnew : name ∉ entries.map Prod.fst)
    (ht : t.WellNamed) : (FileTree.directory ((name, t) :: entries)).WellNamed := by
  cases h with
  | directory hd hns hts =>
    exact .directory (List.nodup_cons.mpr ⟨hnew, hd⟩) (List.forall_mem_cons.mpr ⟨hn, hns⟩)
      (List.forall_mem_cons.mpr ⟨ht, hts⟩)

theorem lookup_eq_some_iff {entries : List (String × FileTree α)}
    (hd : (entries.map Prod.fst).Nodup) : entries.lookup name = some t ↔ (name, t) ∈ entries := by
  induction entries with
  | nil => simp
  | cons e entries ih =>
    obtain ⟨other, u⟩ := e
    obtain ⟨hnew, hd⟩ := List.nodup_cons.mp hd
    rw [List.lookup_cons, List.mem_cons, Prod.mk.injEq]
    split
    · next heq =>
      obtain rfl := eq_of_beq heq
      have hnot : (name, t) ∉ entries := fun h => hnew (List.mem_map.mpr ⟨_, h, rfl⟩)
      simp [hnot, eq_comm]
    · next hne =>
      have hne : name ≠ other := by simpa using hne
      simp [ih hd, hne]

theorem WellNamed.entry (ht : t.WellNamed) (h : t.entries.lookup name = some u) :
    IsFileName name ∧ u.WellNamed := by
  cases ht with
  | file => cases h
  | directory hd hn ht =>
    have hm := (lookup_eq_some_iff hd).mp h
    exact ⟨hn _ hm, ht _ hm⟩

theorem WellNamed.isFileName_of_below (ht : t.WellNamed) (h : t.below? names = some u) :
    ∀ name ∈ names, IsFileName name := by
  induction names generalizing t with
  | nil => nofun
  | cons name names ih =>
    obtain ⟨next, hl, h⟩ := Option.bind_eq_some_iff.mp h
    obtain ⟨hname, hnext⟩ := ht.entry hl
    exact List.forall_mem_cons.mpr ⟨hname, ih hnext h⟩

/-! ## Following segments -/

theorem follow_cons (segment : List Char) (segments : List (List Char)) (t : FileTree α)
    (above : List (FileTree α)) :
    follow (segment :: segments) t above =
      if t.isFile then none
      else if segment.isEmpty || segment == ['.'] then follow segments t above
      else if segment == ['.', '.'] then
        match above with
        | [] => none
        | outer :: above => follow segments outer above
      else (t.entries.lookup (String.ofList segment)).bind (follow segments · (t :: above)) :=
  follow.eq_def ..

theorem follow_of_isFileName (hn : IsFileName name) :
    follow (name.toList :: segments) t above =
      (t.entries.lookup name).bind (follow segments · (t :: above)) := by
  rw [follow_cons]
  split
  · next hf =>
    cases t with
    | file => rfl
    | directory => cases hf
  · have hnoise : (name.toList.isEmpty || name.toList == ['.']) = false := by
      simp [hn.ne_empty, hn.ne_here]
    have hup : (name.toList == ['.', '.']) = false := by simpa using hn.ne_up
    rw [hnoise, if_neg Bool.false_ne_true, hup, if_neg Bool.false_ne_true, String.ofList_toList]

theorem follow_names (hn : ∀ name ∈ names, IsFileName name) :
    follow (names.map String.toList) t above = t.below? names := by
  induction names generalizing t above with
  | nil => rfl
  | cons name names ih =>
    obtain ⟨hname, hn⟩ := List.forall_mem_cons.mp hn
    rw [List.map_cons, follow_of_isFileName hname, below?]
    exact congrArg _ (funext fun u => ih hn)

/-- Following segments one after the other, where the last of them lead from a tree to the same
wherever it stands. -/
theorem follow_append {last : List (List Char)} {f : FileTree α → Option (FileTree α)}
    (hf : ∀ t above, follow last t above = f t) :
    follow (segments ++ last) t above = (follow segments t above).bind f := by
  induction segments generalizing t above with
  | nil => exact hf t above
  | cons segment segments ih =>
    rw [List.cons_append, follow_cons, follow_cons]
    split
    · rfl
    · split
      · exact ih
      · split
        · cases above with
          | nil => rfl
          | cons outer above => exact ih
        · rw [Option.bind_assoc]
          exact congrArg _ (funext fun u => ih)

theorem follow_append_names (hn : ∀ name ∈ names, IsFileName name) :
    follow (segments ++ names.map String.toList) t above =
      (follow segments t above).bind (·.below? names) :=
  follow_append fun _ _ => follow_names hn

/-- A separator behind a path does not lead elsewhere. -/
theorem follow_concat_nil (h : follow (segments ++ [[]]) t above = some u) :
    follow segments t above = some u := by
  have hlast : ∀ (t : FileTree α) above, follow [[]] t above = if t.isFile then none else some t :=
    fun t above => follow_cons [] [] t above
  rw [follow_append hlast] at h
  obtain ⟨v, hv, h⟩ := Option.bind_eq_some_iff.mp h
  split at h
  · cases h
  · rwa [← h]

/-- Segments that do not count can be left out. -/
theorem follow_counts (h : follow segments t above = some u) :
    follow (segments.filter FilePath.counts) t above = some u := by
  induction segments generalizing t above with
  | nil => exact h
  | cons segment segments ih =>
    rw [follow_cons] at h
    split at h
    · cases h
    · next hf =>
      split at h
      · next hnoise =>
        have hc : FilePath.counts segment = false := by
          simpa [FilePath.counts, imp_iff_not_or] using hnoise
        rw [List.filter_cons_of_neg (by simp [hc])]
        exact ih h
      · next hnoise =>
        have hc : FilePath.counts segment = true := by
          simpa [FilePath.counts] using hnoise
        rw [List.filter_cons_of_pos hc, follow_cons, if_neg hf, if_neg hnoise]
        split at h
        · next hup =>
          rw [if_pos hup]
          cases above with
          | nil => cases h
          | cons outer above => exact ih h
        · next hup =>
          rw [if_neg hup]
          obtain ⟨next, hl, h⟩ := Option.bind_eq_some_iff.mp h
          exact Option.bind_eq_some_iff.mpr ⟨next, hl, ih h⟩

theorem WellNamed.follow (ht : t.WellNamed) (ha : ∀ u ∈ above, u.WellNamed)
    (h : FileTree.follow segments t above = some u) : u.WellNamed := by
  induction segments generalizing t above with
  | nil =>
    obtain rfl := Option.some.inj h
    exact ht
  | cons segment segments ih =>
    rw [follow_cons] at h
    split at h
    · cases h
    · split at h
      · exact ih ht ha h
      · split at h
        · cases above with
          | nil => cases h
          | cons outer above =>
            obtain ⟨ho, ha⟩ := List.forall_mem_cons.mp ha
            exact ih ho ha h
        · obtain ⟨next, hl, h⟩ := Option.bind_eq_some_iff.mp h
          exact ih (ht.entry hl).2 (List.forall_mem_cons.mpr ⟨ht, ha⟩) h

end FileTree

/-- A path with names behind it, as a walk from the path writes it. -/
def FilePath.under (p : FilePath) (names : List String) : FilePath :=
  names.foldl (fun p name => p.join ⟨name⟩) p

namespace FileSystem

/-- The trees of a file system are well-named. -/
structure WellNamed (s : FileSystem α) : Prop where
  here : s.here.WellNamed
  root : s.root.WellNamed

variable {s : FileSystem α} {t u : FileTree α} {p q : FilePath} {name : String}
variable {names : List String}

/-- The directory from which a path is followed. -/
def top (s : FileSystem α) (p : FilePath) : FileTree α := if p.isAbsolute then s.root else s.here

theorem at?_eq (hp : p.text ≠ "") :
    s.at? p = (s.top p).follow (splitAtEach '/' p.text.toList) [] := by
  rw [at?, if_neg (by simpa using hp), top]

theorem at?_eq_some_iff : s.at? p = some t ↔
    p.text ≠ "" ∧ (s.top p).follow (splitAtEach '/' p.text.toList) [] = some t := by
  by_cases hp : p.text = ""
  · simp [at?, hp]
  · rw [at?_eq hp, and_iff_right hp]

theorem WellNamed.at? (hs : s.WellNamed) (h : s.at? p = some t) : t.WellNamed := by
  refine FileTree.WellNamed.follow ?_ (List.forall_mem_nil _) (at?_eq_some_iff.mp h).2
  unfold top
  split
  · exact hs.root
  · exact hs.here

theorem at?_join (hp : s.at? p = some t) (hn : IsFileName name) :
    s.at? (p.join ⟨name⟩) = t.entries.lookup name := by
  obtain ⟨hne, hp⟩ := at?_eq_some_iff.mp hp
  obtain ⟨habs, dirs, -, hsplit, hbase⟩ := FilePath.splitAtEach_join hne hn
  have hdirs : (s.top p).follow dirs [] = some t := by
    rcases hbase with hbase | hbase
    · rwa [hbase] at hp
    · rw [hbase] at hp
      exact FileTree.follow_concat_nil hp
  have htop : s.top (p.join ⟨name⟩) = s.top p := by rw [top, habs, top]
  have hname : [name.toList] = [name].map String.toList := rfl
  rw [at?_eq (FilePath.join_text_ne_empty hne hn), htop, hsplit, hname,
    FileTree.follow_append_names (List.forall_mem_singleton.mpr hn), hdirs]
  exact Option.bind_fun_some _

theorem at?_under (hp : s.at? p = some t) (ht : t.WellNamed) (h : t.below? names = some u) :
    s.at? (p.under names) = some u := by
  induction names generalizing p t with
  | nil => exact hp.trans h
  | cons name names ih =>
    obtain ⟨next, hl, h⟩ := Option.bind_eq_some_iff.mp h
    obtain ⟨hname, hnext⟩ := ht.entry hl
    exact ih ((at?_join hp hname).trans hl) hnext h

/-- What stands at a path that is another one up to some names stands below what stands there. -/
theorem below_of_parts (hp : s.at? p = some t) (hq : s.at? q = some u)
    (h : q.parts = p.parts ++ names.map .name) : t.below? names = some u := by
  obtain ⟨habs, hsegments, hnames⟩ := FilePath.segments_of_parts h
  have htop : s.top q = s.top p := by rw [top, habs, top]
  have hp : (s.top p).follow p.segments [] = some t :=
    FileTree.follow_counts (at?_eq_some_iff.mp hp).2
  have hq : (s.top q).follow q.segments [] = some u :=
    FileTree.follow_counts (at?_eq_some_iff.mp hq).2
  rwa [htop, hsegments, FileTree.follow_append_names hnames, hp] at hq

end FileSystem

theorem FilePath.parts_under {p : FilePath} {names : List String} (hp : p.text ≠ "")
    (hn : ∀ name ∈ names, IsFileName name) :
    (p.under names).parts = p.parts ++ names.map .name := by
  induction names generalizing p with
  | nil => exact (List.append_nil _).symm
  | cons name names ih =>
    obtain ⟨hname, hn⟩ := List.forall_mem_cons.mp hn
    refine (ih (join_text_ne_empty hp hname) hn).trans ?_
    rw [parts_join hp hname, List.append_assoc]
    rfl

/-! ## Walks -/

namespace FileQuery

variable {q : FileQuery} {s : FileSystem α} {t : FileTree α} {p r : FilePath}

theorem excludes_iff : q.excludes p = true ↔ ∃ e ∈ q.excluded, e.parts <+: p.parts := by
  simp only [excludes, List.any_eq_true, FilePath.contains, List.isPrefixOf_iff_prefix]

theorem excludes_beneath (h : p.parts <+: r.parts) (hp : q.excludes p = true) :
    q.excludes r = true := by
  obtain ⟨e, he, hep⟩ := excludes_iff.mp hp
  exact excludes_iff.mpr ⟨e, he, hep.trans h⟩

theorem wantsExtension_iff : q.wantsExtension p = true ↔
    ∃ ext, p.HasExtension ext ∧ ∃ wanted ∈ q.extensions, lower ext = lower (bareExtension wanted) := by
  simp only [wantsExtension, Option.any_eq_true, FilePath.extension?_eq_some_iff, List.any_eq_true,
    sameName_iff]

theorem filesOfEntries_eq (q : FileQuery) (p : FilePath) (entries : List (String × FileTree α)) :
    q.filesOfEntries p entries = entries.flatMap fun e => q.filesOf (p.join ⟨e.1⟩) e.2 := by
  induction entries with
  | nil => rw [filesOfEntries, List.flatMap_nil]
  | cons e entries ih => rw [filesOfEntries, ih, List.flatMap_cons]

/-- There is a file at the path below the path at which the tree stands. -/
def HasFile (t : FileTree α) (p r : FilePath) : Prop :=
  ∃ names content, t.below? names = some (.file content) ∧ r = p.under names

theorem hasFile_file {content : α} : HasFile (.file content) p r ↔ r = p := by
  constructor
  · rintro ⟨_ | ⟨name, names⟩, c, h, rfl⟩
    · rfl
    · cases h
  · rintro rfl
    exact ⟨[], content, rfl, rfl⟩

theorem hasFile_directory {entries : List (String × FileTree α)}
    (hd : (entries.map Prod.fst).Nodup) :
    HasFile (.directory entries) p r ↔ ∃ e ∈ entries, HasFile e.2 (p.join ⟨e.1⟩) r := by
  constructor
  · rintro ⟨_ | ⟨name, names⟩, c, h, rfl⟩
    · cases h
    · obtain ⟨u, hl, h⟩ := Option.bind_eq_some_iff.mp h
      exact ⟨(name, u), (FileTree.lookup_eq_some_iff hd).mp hl, names, c, h, rfl⟩
  · rintro ⟨⟨name, u⟩, he, names, c, h, rfl⟩
    exact ⟨name :: names, c,
      Option.bind_eq_some_iff.mpr ⟨u, (FileTree.lookup_eq_some_iff hd).mpr he, h⟩, rfl⟩

theorem HasFile.parts_prefix (h : HasFile t p r) (hp : p.text ≠ "") (ht : t.WellNamed) :
    p.parts <+: r.parts := by
  obtain ⟨names, content, hbelow, rfl⟩ := h
  rw [FilePath.parts_under hp (ht.isFileName_of_below hbelow)]
  exact List.prefix_append _ _

/-- A walk from a path finds the files below it that are wanted themselves: whatever is excluded
above them excludes them too. -/
theorem mem_filesOf (hp : p.text ≠ "") (ht : t.WellNamed) : r ∈ q.filesOf p t ↔
    HasFile t p r ∧ q.excludes r = false ∧ q.wantsExtension r = true := by
  induction ht generalizing p with
  | file content =>
    have hwanted : (q.excludes p || !q.wantsExtension p) = true ↔
        ¬(q.excludes p = false ∧ q.wantsExtension p = true) := by
      cases q.excludes p <;> cases q.wantsExtension p <;> simp
    rw [hasFile_file, filesOf]
    split
    · next h =>
      refine iff_of_false List.not_mem_nil ?_
      rintro ⟨rfl, hr⟩
      exact hwanted.mp h hr
    · next h =>
      rw [List.mem_singleton]
      refine ⟨?_, And.left⟩
      rintro rfl
      exact ⟨rfl, not_not.mp (mt hwanted.mpr h)⟩
  | @directory entries hd hn ht ih =>
    rw [filesOf]
    split
    · next hx =>
      refine iff_of_false List.not_mem_nil ?_
      rintro ⟨hfile, hr, -⟩
      have hbelow := hfile.parts_prefix hp (.directory hd hn ht)
      exact Bool.false_ne_true (hr.symm.trans (excludes_beneath hbelow hx))
    · have hentry (e : String × FileTree α) (he : e ∈ entries) :=
        ih e he (FilePath.join_text_ne_empty hp (hn e he))
      rw [filesOfEntries_eq, List.mem_flatMap, hasFile_directory hd]
      constructor
      · rintro ⟨e, he, hr⟩
        obtain ⟨hfile, hwanted⟩ := (hentry e he).mp hr
        exact ⟨⟨e, he, hfile⟩, hwanted⟩
      · rintro ⟨⟨e, he, hfile⟩, hwanted⟩
        exact ⟨e, he, (hentry e he).mpr ⟨hfile, hwanted⟩⟩

/-! ## Lists of paths -/

section Repeats

variable {ps : List FilePath}

theorem dropRepeats_sublist (ps : List FilePath) : (dropRepeats ps).Sublist ps := by
  induction ps with
  | nil => exact .slnil
  | cons p rest ih =>
    rw [dropRepeats]
    split
    · exact List.singleton_sublist.mpr List.mem_cons_self
    · next kept hk =>
      rw [hk] at ih
      split
      · exact ((List.sublist_cons_self _ _).trans ih).cons_cons p
      · exact ih.cons_cons p

theorem exists_mem_dropRepeats (h : p ∈ ps) : ∃ r ∈ dropRepeats ps, r.parts = p.parts := by
  induction ps with
  | nil => cases h
  | cons first rest ih =>
    rw [dropRepeats]
    rcases List.mem_cons.mp h with rfl | h
    · split
      · exact ⟨p, List.mem_cons_self, rfl⟩
      · split <;> exact ⟨p, List.mem_cons_self, rfl⟩
    · obtain ⟨r, hr, hrp⟩ := ih h
      split
      · next hk => exact absurd (hk ▸ hr) List.not_mem_nil
      · next second kept hk =>
        rw [hk] at hr
        split
        · next hsame =>
          rcases List.mem_cons.mp hr with rfl | hr
          · exact ⟨first, List.mem_cons_self, (eq_of_beq hsame).trans hrp⟩
          · exact ⟨r, List.mem_cons_of_mem _ hr, hrp⟩
        · exact ⟨r, List.mem_cons_of_mem _ hr, hrp⟩

/-- Sorted paths are sorted strictly once repeated ones are left out. -/
theorem pairwise_dropRepeats (h : ps.Pairwise fun p r => p.le r = true) :
    (dropRepeats ps).Pairwise FilePath.Precedes := by
  induction ps with
  | nil => exact .nil
  | cons p rest ih =>
    obtain ⟨hp, hrest⟩ := List.pairwise_cons.mp h
    have ih := ih hrest
    rw [dropRepeats]
    split
    · exact List.pairwise_singleton _ _
    · next second kept hk =>
      have hsecond := FilePath.le_iff.mp
        (hp second ((dropRepeats_sublist rest).subset (hk ▸ List.mem_cons_self)))
      rw [hk] at ih
      obtain ⟨hkept, hpairs⟩ := List.pairwise_cons.mp ih
      split
      · next hsame =>
        refine List.pairwise_cons.mpr ⟨fun r hr => ?_, hpairs⟩
        rw [FilePath.Precedes, eq_of_beq hsame]
        exact hkept r hr
      · next hother =>
        have hsecond := hsecond.resolve_left fun heq => hother (beq_iff_eq.mpr heq)
        refine List.pairwise_cons.mpr ⟨List.forall_mem_cons.mpr ⟨hsecond, fun r hr => ?_⟩, ih⟩
        exact FilePath.precedes_trans hsecond (hkept r hr)

end Repeats

/-! ## What is found -/

/-- A path names a file that is wanted: a root that exists or something below one, with a wanted
extension, and not below anything that is excluded. -/
structure Wants (q : FileQuery) (s : FileSystem α) (p : FilePath) : Prop where
  file : s.isFile p = true
  rooted : ∃ root ∈ q.roots, (s.at? root).isSome = true ∧
    ∃ names : List String, p.parts = root.parts ++ names.map .name
  extension : ∃ ext, p.HasExtension ext ∧
    ∃ wanted ∈ q.extensions, lower ext = lower (bareExtension wanted)
  included : ∀ e ∈ q.excluded, ¬e.parts <+: p.parts

/-- Paths are the wanted files, sorted and each once. Paths with the same parts are one path. -/
structure Finds (q : FileQuery) (s : FileSystem α) (found : List FilePath) : Prop where
  sorted : found.Pairwise FilePath.Precedes
  distinct : (found.map FilePath.parts).Nodup
  sound : ∀ p ∈ found, q.Wants s p
  complete : ∀ p, q.Wants s p → ∃ r ∈ found, r.parts = p.parts

theorem wants_of_mem_filesOf (hs : s.WellNamed) {root : FilePath} (hroot : root ∈ q.roots)
    (ht : s.at? root = some t) (hr : r ∈ q.filesOf root t) : q.Wants s r := by
  have hne := (FileSystem.at?_eq_some_iff.mp ht).1
  obtain ⟨⟨names, content, hbelow, rfl⟩, hx, hw⟩ := (mem_filesOf hne (hs.at? ht)).mp hr
  refine ⟨?_, ⟨root, hroot, by rw [ht]; rfl, names, ?_⟩, wantsExtension_iff.mp hw, ?_⟩
  · rw [FileSystem.isFile, FileSystem.at?_under ht (hs.at? ht) hbelow]
    rfl
  · exact FilePath.parts_under hne ((hs.at? ht).isFileName_of_below hbelow)
  · intro e he hep
    exact Bool.false_ne_true (hx.symm.trans (excludes_iff.mpr ⟨e, he, hep⟩))

theorem Wants.exists_mem_filesOf (hs : s.WellNamed) (hp : q.Wants s p) :
    ∃ root ∈ q.roots, ∃ t, s.at? root = some t ∧ ∃ r ∈ q.filesOf root t, r.parts = p.parts := by
  obtain ⟨root, hroot, hsome, names, hparts⟩ := hp.rooted
  obtain ⟨t, ht⟩ := Option.isSome_iff_exists.mp hsome
  obtain ⟨u, hu, hfile⟩ := (Option.any_eq_true _ _).mp hp.file
  have hbelow := FileSystem.below_of_parts ht hu hparts
  have hne := (FileSystem.at?_eq_some_iff.mp ht).1
  have hsame : (root.under names).parts = p.parts :=
    (FilePath.parts_under hne ((hs.at? ht).isFileName_of_below hbelow)).trans hparts.symm
  cases u with
  | directory entries => cases hfile
  | file content =>
    refine ⟨root, hroot, t, ht, root.under names,
      (mem_filesOf hne (hs.at? ht)).mpr ⟨⟨names, content, hbelow, rfl⟩, ?_, ?_⟩, hsame⟩
    · refine Bool.eq_false_iff.mpr fun hx => ?_
      obtain ⟨e, he, hep⟩ := excludes_iff.mp hx
      exact hp.included e he (hsame ▸ hep)
    · obtain ⟨ext, hext, hwanted⟩ := hp.extension
      exact wantsExtension_iff.mpr ⟨ext, by rwa [FilePath.HasExtension, hsame], hwanted⟩

/-- What is found are the wanted files: a walk that leaves out excluded directories finds what one
finds who looks at each file below the roots by itself. -/
theorem finds_discover (q : FileQuery) (s : FileSystem α) (hs : s.WellNamed) :
    q.Finds s (q.discover s) := by
  unfold discover
  extract_lets found
  have hmem : ∀ r, r ∈ found ↔ ∃ root ∈ q.roots, ∃ t, s.at? root = some t ∧ r ∈ q.filesOf root t := by
    intro r
    rw [List.mem_flatMap]
    refine exists_congr fun root => and_congr_right fun _ => ?_
    cases s.at? root <;> simp
  have hle : (found.mergeSort FilePath.le).Pairwise fun p r => p.le r = true := by
    refine List.pairwise_mergeSort ?_ ?_ found
    · exact fun _ _ _ => FilePath.le_trans
    · exact FilePath.le_total
  have hsorted := pairwise_dropRepeats hle
  refine ⟨hsorted, ?_, fun p hp => ?_, fun p hp => ?_⟩
  · refine List.pairwise_map.mpr (hsorted.imp fun {p r} hpr heq => ?_)
    exact FilePath.precedes_irrefl r (by rwa [FilePath.Precedes, heq] at hpr)
  · obtain ⟨root, hroot, t, ht, hp⟩ :=
      (hmem p).mp (List.mem_mergeSort.mp ((dropRepeats_sublist _).subset hp))
    exact wants_of_mem_filesOf hs hroot ht hp
  · obtain ⟨root, hroot, t, ht, r, hr, hrp⟩ := hp.exists_mem_filesOf hs
    obtain ⟨kept, hkept, hsame⟩ :=
      exists_mem_dropRepeats (List.mem_mergeSort.mpr ((hmem r).mpr ⟨root, hroot, t, ht, hr⟩))
    exact ⟨kept, hkept, hsame.trans hrp⟩

namespace Overlapping

def sources : List (String × FileTree Unit) :=
  [("a", .directory [("x.PHP", .file ()), ("y.txt", .file ())]), ("old.php", .file ()),
    ("vendor", .directory [("v.php", .file ())]), ("z.php", .file ())]

def project : FileSystem Unit := { here := .directory [("src", .directory sources)] }

def query : FileQuery where
  roots := [⟨"src/a/x.PHP"⟩, ⟨"src//a"⟩, ⟨"src"⟩, ⟨"src/z.php"⟩, ⟨"src/vendor"⟩]
  excluded := [⟨"src/vendor"⟩, ⟨"src/./old.php"⟩]
  extensions := ["..php"]

end Overlapping

open Overlapping in
/-- Roots inside of each other, some of which are files, where a directory that is a root and a
file are left out. -/
theorem finds_discover_overlapping :
    query.discover project = [⟨"src/a/x.PHP"⟩, ⟨"src/z.php"⟩] ∧
      project.WellNamed ∧ query.Finds project (query.discover project) := by
  have hfound : (query.roots.flatMap fun root =>
      ((project.at? root).map (query.filesOf root)).getD []) =
        [⟨"src/a/x.PHP"⟩, ⟨"src//a/x.PHP"⟩, ⟨"src/a/x.PHP"⟩, ⟨"src/z.php"⟩, ⟨"src/z.php"⟩] := by
    decide +kernel
  have hdiscover : query.discover project = [⟨"src/a/x.PHP"⟩, ⟨"src/z.php"⟩] := by
    rw [discover, hfound, List.mergeSort_of_pairwise (by decide +kernel)]
    decide +kernel
  have hsources : (FileTree.directory sources).WellNamed := by
    have hfile : (FileTree.file ()).WellNamed := .file ()
    refine .cons (.cons (.cons (.cons .empty ?_ ?_ hfile) ?_ ?_ ?vendor) ?_ ?_ hfile) ?_ ?_ ?a
    case vendor =>
      refine .cons .empty ?_ ?_ hfile
      all_goals decide
    case a =>
      refine .cons (.cons .empty ?_ ?_ hfile) ?_ ?_ hfile
      all_goals decide
    all_goals decide
  have hs : project.WellNamed := by
    refine ⟨.cons .empty ?_ ?_ hsources, .empty⟩
    all_goals decide
  exact ⟨hdiscover, hs, finds_discover query project hs⟩

end FileQuery

end PhpAtlas
