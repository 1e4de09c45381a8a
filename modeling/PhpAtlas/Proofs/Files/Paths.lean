import Mathlib.Data.List.Lex
import Mathlib.Data.List.TakeDrop
import Mathlib.Data.List.TakeWhile
import Mathlib.Data.String.Basic
import PhpAtlas.Files.FilePath

/-! # Paths by their parts

The parts of a path are what its text says between separators, less what does
not count. A name is put behind a path by one more part, and paths are ordered
as words of parts are.
-/

namespace PhpAtlas

/-! ## Pieces of texts -/

section Pieces

variable {sep : Char} {cs ds : List Char}

theorem splitAtEach_ne_nil (sep : Char) (cs : List Char) : splitAtEach sep cs ≠ [] := by
  induction cs with
  | nil => simp [splitAtEach]
  | cons c cs ih =>
    rw [splitAtEach]
    split
    · exact List.cons_ne_nil _ _
    · split <;> exact List.cons_ne_nil _ _

theorem splitAtEach_append (sep : Char) (cs ds : List Char) :
    splitAtEach sep (cs ++ sep :: ds) = splitAtEach sep cs ++ splitAtEach sep ds := by
  induction cs with
  | nil => simp [splitAtEach]
  | cons c cs ih =>
    rw [List.cons_append, splitAtEach, ih, splitAtEach]
    split
    · rfl
    · obtain ⟨piece, pieces, hp⟩ := List.exists_cons_of_ne_nil (splitAtEach_ne_nil sep cs)
      rw [hp]
      rfl

theorem splitAtEach_of_not_mem (h : sep ∉ cs) : splitAtEach sep cs = [cs] := by
  induction cs with
  | nil => rfl
  | cons c cs ih =>
    obtain ⟨hc, hcs⟩ := not_or.mp (mt List.mem_cons.mpr h)
    rw [splitAtEach, ih hcs, if_neg (by simpa using Ne.symm hc)]

theorem not_mem_of_mem_splitAtEach (h : ds ∈ splitAtEach sep cs) : sep ∉ ds := by
  induction cs generalizing ds with
  | nil => simp_all [splitAtEach]
  | cons c cs ih =>
    rw [splitAtEach] at h
    split at h
    · rcases List.mem_cons.mp h with rfl | h
      · exact List.not_mem_nil
      · exact ih h
    · next hc =>
      have hc : c ≠ sep := by simpa using hc
      obtain ⟨piece, pieces, hp⟩ := List.exists_cons_of_ne_nil (splitAtEach_ne_nil sep cs)
      rw [hp] at h ih
      rcases List.mem_cons.mp h with rfl | h
      · exact mt List.mem_cons.mp (not_or.mpr ⟨hc.symm, ih List.mem_cons_self⟩)
      · exact ih (List.mem_cons_of_mem _ h)

end Pieces

/-- A name that a file or a directory can have. -/
structure IsFileName (name : String) : Prop where
  ne_empty : name.toList ≠ []
  ne_here : name.toList ≠ ['.']
  ne_up : name.toList ≠ ['.', '.']
  undivided : '/' ∉ name.toList

instance (name : String) : Decidable (IsFileName name) :=
  decidable_of_iff (name.toList ≠ [] ∧ name.toList ≠ ['.'] ∧ name.toList ≠ ['.', '.'] ∧
      '/' ∉ name.toList)
    ⟨fun ⟨h₁, h₂, h₃, h₄⟩ => ⟨h₁, h₂, h₃, h₄⟩, fun ⟨h₁, h₂, h₃, h₄⟩ => ⟨h₁, h₂, h₃, h₄⟩⟩

/-- What counts at the beginning of a path only. -/
def PathPart.isLead : PathPart → Bool
  | root | here => true
  | _ => false

namespace FilePath

variable {p base : FilePath} {name : String} {names : List String}

/-! ## Segments -/

/-- Whether a segment counts wherever it stands. -/
def counts (segment : List Char) : Bool := !segment.isEmpty && segment != ['.']

/-- The segments of the text that count wherever they stand. -/
def segments (p : FilePath) : List (List Char) := (splitAtEach '/' p.text.toList).filter counts

/-- The part that counts only at the beginning of the path, if there is one. -/
def lead (p : FilePath) : List PathPart :=
  if p.isAbsolute then [.root]
  else if (splitAtEach '/' p.text.toList).head? == some ['.'] then [.here]
  else []

theorem parts_eq (p : FilePath) : p.parts = p.lead ++ p.segments.map PathPart.ofSegment := by
  unfold parts lead segments counts
  extract_lets segments named
  split
  · rfl
  · split
    · rfl
    · rfl

theorem counts_of_isFileName (hn : IsFileName name) : counts name.toList = true := by
  simp [counts, hn.ne_empty, hn.ne_here]

theorem ofSegment_of_isFileName (hn : IsFileName name) :
    PathPart.ofSegment name.toList = .name name := by
  simp [PathPart.ofSegment, hn.ne_up]

/-- The text of a path with a name behind it: the segments before the name are those of the path, or
those before the separator that the path ends with. -/
theorem splitAtEach_join (hb : base.text ≠ "") (hn : IsFileName name) :
    (base.join ⟨name⟩).isAbsolute = base.isAbsolute ∧
      ∃ dirs, dirs ≠ [] ∧
        splitAtEach '/' (base.join ⟨name⟩).text.toList = dirs ++ [name.toList] ∧
        (splitAtEach '/' base.text.toList = dirs ∨
          splitAtEach '/' base.text.toList = dirs ++ [[]]) := by
  have habs : isAbsolute ⟨name⟩ = false := by
    refine beq_eq_false_iff_ne.mpr fun h => ?_
    obtain ⟨cs, h⟩ := List.head?_eq_some_iff.mp h
    exact hn.undivided (h ▸ List.mem_cons_self)
  have hname := splitAtEach_of_not_mem hn.undivided
  obtain ⟨c, cs, hc⟩ := List.exists_cons_of_ne_nil (mt String.toList_eq_nil_iff.mp hb)
  by_cases hlast : base.text.toList.getLast? = some '/'
  · obtain ⟨b, hbase⟩ := List.getLast?_eq_some_iff.mp hlast
    have hjoin : (base.join ⟨name⟩).text.toList = b ++ '/' :: name.toList := by
      simp [join, habs, hbase]
    refine ⟨?_, splitAtEach '/' b, splitAtEach_ne_nil _ _, ?_, .inr ?_⟩
    · rw [isAbsolute, hjoin, isAbsolute, hbase]
      cases b <;> rfl
    · rw [hjoin, splitAtEach_append, hname]
    · rw [hbase, splitAtEach_append]
      rfl
  · have hjoin : (base.join ⟨name⟩).text.toList = base.text.toList ++ '/' :: name.toList := by
      have hempty : base.text.toList.isEmpty = false := by rw [hc]; rfl
      simp [join, habs, hempty, hlast]
    refine ⟨?_, splitAtEach '/' base.text.toList, splitAtEach_ne_nil _ _, ?_, .inl rfl⟩
    · rw [isAbsolute, hjoin, isAbsolute, hc]
      rfl
    · rw [hjoin, splitAtEach_append, hname]

theorem join_text_ne_empty (hb : base.text ≠ "") (hn : IsFileName name) :
    (base.join ⟨name⟩).text ≠ "" := by
  intro h
  obtain ⟨-, dirs, hd, hs, -⟩ := splitAtEach_join hb hn
  rw [h] at hs
  exact hd (by simpa [splitAtEach] using congrArg List.length hs)

theorem parts_join (hb : base.text ≠ "") (hn : IsFileName name) :
    (base.join ⟨name⟩).parts = base.parts ++ [.name name] := by
  obtain ⟨habs, dirs, hd, hs, hbase⟩ := splitAtEach_join hb hn
  have hlead : (base.join ⟨name⟩).lead = base.lead := by
    have hhead : (dirs ++ [name.toList]).head? = (splitAtEach '/' base.text.toList).head? := by
      obtain ⟨d, ds, rfl⟩ := List.exists_cons_of_ne_nil hd
      rcases hbase with hbase | hbase <;> rw [hbase] <;> rfl
    rw [lead, lead, habs, hs, hhead]
  have hsegments : (base.join ⟨name⟩).segments = base.segments ++ [name.toList] := by
    have hcounts : [name.toList].filter counts = [name.toList] := by
      simp [counts_of_isFileName hn]
    have hnoise : [([] : List Char)].filter counts = [] := by simp [counts]
    rw [segments, hs, segments, List.filter_append, hcounts]
    rcases hbase with hbase | hbase
    · rw [hbase]
    · rw [hbase, List.filter_append, hnoise, List.append_nil]
  rw [parts_eq, hlead, hsegments, List.map_append, parts_eq, List.append_assoc]
  simp [ofSegment_of_isFileName hn]

/-! ## Names behind a path -/

theorem isLead_ofSegment (segment : List Char) : (PathPart.ofSegment segment).isLead = false := by
  unfold PathPart.ofSegment
  split <;> rfl

theorem ofSegment_eq_name_iff {segment : List Char} :
    PathPart.ofSegment segment = .name name ↔ segment = name.toList ∧ segment ≠ ['.', '.'] := by
  unfold PathPart.ofSegment
  split
  · next h => simp [eq_of_beq h]
  · next h =>
    have h : segment ≠ ['.', '.'] := by simpa using h
    rw [PathPart.name.injEq, and_iff_left h]
    constructor
    · rintro rfl
      exact String.toList_ofList.symm
    · rintro rfl
      exact String.ofList_toList

theorem ofSegment_injective : Function.Injective PathPart.ofSegment := by
  intro s t h
  unfold PathPart.ofSegment at h
  split at h
  · next hs =>
    split at h
    · next ht => exact (eq_of_beq hs).trans (eq_of_beq ht).symm
    · cases h
  · split at h
    · cases h
    · exact String.ofList_injective (PathPart.name.inj h)

theorem takeWhile_append_of_nil {α : Type} {f : α → Bool} {xs ys : List α}
    (h : ys.takeWhile f = []) : (xs ++ ys).takeWhile f = xs.takeWhile f := by
  rw [List.takeWhile_append, h]
  split
  · next hlen =>
    rw [List.append_nil]
    exact ((List.takeWhile_prefix f).eq_of_length hlen).symm
  · rfl

theorem lead_eq (p : FilePath) : p.lead = p.parts.takeWhile PathPart.isLead := by
  have hsegments : (p.segments.map PathPart.ofSegment).takeWhile PathPart.isLead = [] := by
    cases p.segments with
    | nil => rfl
    | cons s segments => simp [isLead_ofSegment]
  rw [parts_eq, takeWhile_append_of_nil hsegments, lead]
  split
  · rfl
  · split <;> rfl

theorem isAbsolute_iff (p : FilePath) : p.isAbsolute = true ↔ p.lead = [.root] := by
  rw [lead]
  split
  · simp_all
  · split <;> simp_all

theorem eq_toList_of_map {below : List (List Char)}
    (h : below.map PathPart.ofSegment = names.map .name) :
    below = names.map String.toList ∧ ∀ name ∈ names, name.toList ≠ ['.', '.'] := by
  induction names generalizing below with
  | nil => exact ⟨List.map_eq_nil_iff.mp h, nofun⟩
  | cons name names ih =>
    obtain ⟨segment, rest, rfl, hs, hrest⟩ := List.map_eq_cons_iff.mp h
    obtain ⟨rfl, hup⟩ := ofSegment_eq_name_iff.mp hs
    obtain ⟨rfl, hups⟩ := ih hrest
    exact ⟨rfl, List.forall_mem_cons.mpr ⟨hup, hups⟩⟩

/-- A path that is another one up to some names. -/
theorem segments_of_parts (h : p.parts = base.parts ++ names.map .name) :
    p.isAbsolute = base.isAbsolute ∧ p.segments = base.segments ++ names.map String.toList ∧
      ∀ name ∈ names, IsFileName name := by
  have hnames : (names.map PathPart.name).takeWhile PathPart.isLead = [] := by
    cases names <;> rfl
  have hlead : p.lead = base.lead := by
    rw [lead_eq, lead_eq, h, takeWhile_append_of_nil hnames]
  have hparts : p.segments.map PathPart.ofSegment =
      base.segments.map PathPart.ofSegment ++ names.map .name := by
    rw [parts_eq, parts_eq, hlead, List.append_assoc] at h
    exact List.append_cancel_left h
  obtain ⟨above, below, hsegments, habove, hbelow⟩ := List.map_eq_append_iff.mp hparts
  obtain rfl := (List.map_injective_iff.mpr ofSegment_injective) habove
  obtain ⟨rfl, hup⟩ := eq_toList_of_map hbelow
  refine ⟨?_, hsegments, fun name hname => ?_⟩
  · rw [Bool.eq_iff_iff, isAbsolute_iff, isAbsolute_iff, hlead]
  · have hmem : name.toList ∈ p.segments := by
      rw [hsegments]
      exact List.mem_append_right _ (List.mem_map_of_mem hname)
    obtain ⟨hpiece, hcounts⟩ := List.mem_filter.mp hmem
    have hcounts : name.toList ≠ [] ∧ name.toList ≠ ['.'] := by simpa [counts] using hcounts
    exact ⟨hcounts.1, hcounts.2, hup name hname, not_mem_of_mem_splitAtEach hpiece⟩

/-! ## Extensions -/

/-- The name of the file is a text that is not empty, a dot, and the extension, in which there is no
dot. -/
def HasExtension (p : FilePath) (ext : String) : Prop :=
  ∃ stem : String, stem ≠ "" ∧ p.parts.getLast? = some (.name (stem ++ "." ++ ext)) ∧
    '.' ∉ ext.toList

theorem span_eq_iff {α : Type} {f : α → Bool} {xs ys rest : List α} {x : α} :
    xs.span f = (ys, x :: rest) ↔ xs = ys ++ x :: rest ∧ (∀ y ∈ ys, f y = true) ∧ f x = false := by
  rw [List.span_eq_takeWhile_dropWhile, Prod.mk.injEq]
  constructor
  · rintro ⟨rfl, hrest⟩
    refine ⟨?_, fun y => List.mem_takeWhile_imp, ?_⟩
    · rw [← hrest, List.takeWhile_append_dropWhile]
    · simpa [hrest] using List.head?_dropWhile_not f xs
  · rintro ⟨rfl, hys, hx⟩
    rw [List.takeWhile_append_of_pos hys, List.dropWhile_append_of_pos hys]
    simp [hx]

theorem extension?_eq_some_iff {ext : String} : p.extension? = some ext ↔ p.HasExtension ext := by
  unfold extension? HasExtension
  constructor
  · intro h
    split at h
    · next s hs =>
      extract_lets reversed at h
      split at h
      · next after dot c rest hspan =>
        obtain ⟨hname, hafter, hdot⟩ := span_eq_iff.mp hspan
        obtain rfl := Option.some.inj h
        obtain rfl : dot = '.' := by simpa using hdot
        have hs' : s = String.ofList (rest.reverse ++ [c]) ++ "." ++ String.ofList after.reverse := by
          rw [← String.toList_inj, ← List.reverse_inj]
          exact hname.trans (by simp)
        refine ⟨String.ofList (rest.reverse ++ [c]), by simp, hs' ▸ hs, fun hmem => ?_⟩
        simpa using hafter '.' (by simpa using hmem)
      · cases h
    · cases h
  · rintro ⟨stem, hstem, hlast, hext⟩
    obtain ⟨cs, c, hc⟩ := (List.eq_nil_or_concat stem.toList).resolve_left
      (mt String.toList_eq_nil_iff.mp hstem)
    have hspan : (stem ++ "." ++ ext).toList.reverse.span (· != '.') =
        (ext.toList.reverse, '.' :: c :: cs.reverse) := by
      refine span_eq_iff.mpr ⟨by simp [hc], fun y hy => ?_, rfl⟩
      simpa using fun h : y = '.' => hext (h ▸ List.mem_reverse.mp hy)
    simp only [hlast, hspan, List.reverse_reverse, String.ofList_toList]

/-! ## The order of paths -/

end FilePath

namespace PathPart

variable {p q r : PathPart}

/-- Parts are in the order of what they are, and names among each other in alphabetical order. -/
theorem before_iff : p.before q = true ↔
    p.rank < q.rank ∨ ∃ s t, p = .name s ∧ q = .name t ∧ s < t := by
  cases p <;> cases q <;> simp [before, rank]

theorem before_trans (hpq : p.before q = true) (hqr : q.before r = true) : p.before r = true := by
  rw [before_iff] at hpq hqr ⊢
  rcases hpq with hpq | ⟨s, t, rfl, rfl, hst⟩
  · rcases hqr with hqr | ⟨t, u, rfl, rfl, -⟩
    · exact .inl (hpq.trans hqr)
    · exact .inl hpq
  · rcases hqr with hqr | ⟨t', u, ht, rfl, htu⟩
    · exact .inl hqr
    · obtain rfl := PathPart.name.inj ht
      exact .inr ⟨s, u, rfl, rfl, hst.trans htu⟩

instance : Std.Asymm fun p q : PathPart => p.before q = true where
  asymm p q hpq hqp := by
    rcases before_iff.mp (before_trans hpq hqp) with h | ⟨s, t, rfl, ht, hst⟩
    · exact lt_irrefl _ h
    · exact hst.ne (PathPart.name.inj ht)

instance : Std.Trichotomous fun p q : PathPart => p.before q = true where
  trichotomous p q hpq hqp := by
    rw [before_iff, not_or] at hpq hqp
    have hrank : p.rank = q.rank := le_antisymm (not_lt.mp hqp.1) (not_lt.mp hpq.1)
    cases p <;> cases q <;> first | rfl | cases hrank
    next s t =>
      have hst : ¬s < t := fun h => hpq.2 ⟨s, t, rfl, rfl, h⟩
      have hts : ¬t < s := fun h => hqp.2 ⟨t, s, rfl, rfl, h⟩
      exact congrArg _ (le_antisymm (not_lt.mp hts) (not_lt.mp hst))

end PathPart

namespace FilePath

/-- The order of paths: the first parts that differ decide, and a path stands before those below it. -/
def Precedes (p q : FilePath) : Prop := List.Lex (fun a b => a.before b = true) p.parts q.parts

variable {p q r : FilePath} {ps qs : List PathPart}

theorem partsLe_iff :
    partsLe ps qs = true ↔ ps = qs ∨ List.Lex (fun a b => a.before b = true) ps qs := by
  induction ps generalizing qs with
  | nil =>
    cases qs with
    | nil => simp [partsLe]
    | cons b qs => simp [partsLe]
  | cons a ps ih =>
    cases qs with
    | nil => simp [partsLe]
    | cons b qs =>
      by_cases hab : a = b
      · subst hab
        simp [partsLe, ih, List.lex_cons_iff]
      · rw [partsLe, if_neg (by simpa using hab)]
        constructor
        · exact fun h => .inr (.rel h)
        · rintro (h | h)
          · exact absurd (List.cons.inj h).1 hab
          · cases h with
            | rel h => exact h
            | cons => exact absurd rfl hab

theorem le_iff : p.le q = true ↔ p.parts = q.parts ∨ p.Precedes q := partsLe_iff

theorem precedes_irrefl (p : FilePath) : ¬p.Precedes p :=
  irrefl_of (List.Lex fun a b : PathPart => a.before b = true) p.parts

theorem precedes_trans (hpq : p.Precedes q) (hqr : q.Precedes r) : p.Precedes r :=
  List.lex_trans PathPart.before_trans hpq hqr

theorem le_trans (hpq : p.le q = true) (hqr : q.le r = true) : p.le r = true := by
  rw [le_iff] at hpq hqr ⊢
  rcases hpq with hpq | hpq
  · exact hqr.imp hpq.trans fun h => by rwa [Precedes, hpq]
  · rcases hqr with hqr | hqr
    · exact .inr (by rwa [Precedes, ← hqr])
    · exact .inr (precedes_trans hpq hqr)

theorem le_total (p q : FilePath) : (p.le q || q.le p) = true := by
  rw [Bool.or_eq_true, le_iff, le_iff]
  rcases trichotomous_of (List.Lex fun a b : PathPart => a.before b = true) p.parts q.parts with
    h | h | h
  · exact .inl (.inr h)
  · exact .inl (.inl h)
  · exact .inr (.inr h)

end FilePath

end PhpAtlas
