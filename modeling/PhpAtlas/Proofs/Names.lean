import Mathlib.Data.List.Basic
import PhpAtlas.Reflection.Basic

/-! # Names that are compared

Names are compared by their lower-case form. A name in its kept form has no
leading backslash, so that looking it up does not change it.
-/

namespace PhpAtlas

variable {a b : String}

/-- A name that does not start with a backslash. -/
def Unrooted (s : String) : Prop := s.toList.head? ≠ some '\\'

instance (s : String) : Decidable (Unrooted s) := inferInstanceAs (Decidable (_ ≠ _))

theorem sameName_iff : sameName a b = true ↔ lower a = lower b := beq_iff_eq

theorem sameName_congr (h : lower a = lower b) : sameName a = sameName b := by
  funext name
  rw [sameName, sameName, h]

theorem dropLeadingBackslashes_of_unrooted (h : Unrooted a) : dropLeadingBackslashes a = a := by
  unfold Unrooted at h
  have hd : a.toList.dropWhile (· == '\\') = a.toList := by
    cases hl : a.toList with
    | nil => rfl
    | cons c cs => exact List.dropWhile_cons_of_neg (by simpa [hl] using h)
  rw [dropLeadingBackslashes, hd, String.ofList_toList]

theorem unrooted_dropLeadingBackslashes (s : String) : Unrooted (dropLeadingBackslashes s) := by
  unfold Unrooted dropLeadingBackslashes
  rw [String.toList_ofList]
  intro h
  have hp := List.head?_dropWhile_not (· == '\\') s.toList
  rw [h] at hp
  simp at hp

theorem dropLeadingBackslashes_idem (s : String) :
    dropLeadingBackslashes (dropLeadingBackslashes s) = dropLeadingBackslashes s :=
  dropLeadingBackslashes_of_unrooted (unrooted_dropLeadingBackslashes s)

theorem lookupKey_of_unrooted (h : Unrooted a) : lookupKey a = lower a := by
  rw [lookupKey, dropLeadingBackslashes_of_unrooted h]

theorem lookupKey_dropLeadingBackslashes (s : String) :
    lookupKey (dropLeadingBackslashes s) = lookupKey s := by
  rw [lookupKey, dropLeadingBackslashes_idem, lookupKey]

/-! ## Case does not touch backslashes -/

theorem toLower_eq_backslash_iff (c : Char) : c.toLower = '\\' ↔ c = '\\' := by
  delta Char.toLower
  split
  · next hu =>
    have hne : c.val + ('a'.val - 'A'.val) ≠ '\\'.val := by
      intro hv
      have hc : c.val = '\\'.val - ('a'.val - 'A'.val) := by rw [← hv]; simp
      rw [hc] at hu
      exact absurd hu (by decide)
    constructor
    · exact fun h => absurd (congrArg Char.val h) hne
    · rintro rfl
      exact absurd hu (by decide)
  · rfl

theorem toList_lower (s : String) : (lower s).toList = s.toList.map Char.toLower := by
  rw [lower, String.toList_ofList]

theorem lower_dropLeadingBackslashes (s : String) :
    lower (dropLeadingBackslashes s) = dropLeadingBackslashes (lower s) := by
  have hp : (· == '\\') ∘ Char.toLower = (· == '\\') := by
    funext c
    simp [toLower_eq_backslash_iff]
  rw [dropLeadingBackslashes, dropLeadingBackslashes, toList_lower, List.dropWhile_map, hp, lower,
    String.toList_ofList]

theorem lower_lastSegment (s : String) : lower (lastSegment s) = lastSegment (lower s) := by
  have hp : (· != '\\') ∘ Char.toLower = (· != '\\') := by
    funext c
    simp [bne, toLower_eq_backslash_iff]
  rw [lastSegment, lastSegment, toList_lower, ← List.map_reverse, List.takeWhile_map, hp,
    ← List.map_reverse, lower, String.toList_ofList]

theorem contains_backslash_lower (s : String) :
    (lower s).toList.contains '\\' = s.toList.contains '\\' := by
  rw [toList_lower]
  simp [toLower_eq_backslash_iff]

namespace ClassInfo

theorem hasName_congr {c d : ClassInfo} (h : lower c.name = lower d.name) :
    c.hasName = d.hasName := by
  funext name
  rw [hasName, hasName, sameName_congr h]

theorem hasName_iff {c : ClassInfo} (h : Unrooted b) : c.hasName b = true ↔ lower c.name = lower b := by
  rw [hasName, dropLeadingBackslashes_of_unrooted h, sameName_iff]

end ClassInfo

namespace Catalog

variable (t : Catalog) {name : String}

theorem mem_of_class? {c : ClassInfo} (h : t.provider.class? name = some c) : c ∈ t.classes :=
  List.mem_of_find?_eq_some h

theorem mem_of_function? {f : FunctionInfo} (h : t.provider.function? name = some f) :
    f ∈ t.functions := List.mem_of_find?_eq_some h

end Catalog

theorem FunctionInfo.unrooted_of (name : String) (file : Option FilePath) :
    Unrooted (FunctionInfo.of name file).name := unrooted_dropLeadingBackslashes name

end PhpAtlas
