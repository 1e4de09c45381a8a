import Mathlib.Data.List.Induction
import PhpAtlas.Proofs.PhpType.Constructors

/-! # Merging types

A union lists what its parts add to it, each member where it occurs first. So parts may
be united beforehand, and their order is the order of the members and nothing else.
-/

namespace PhpAtlas

section EraseDups

variable {α : Type} [BEq α] [LawfulBEq α] {x y : α} {xs ys : List α}

/-- The list has what occurs in the other one, each once and in the order of the first occurrences. -/
structure FirstOccurrences (xs ys : List α) : Prop where
  mem_iff : ∀ x, x ∈ xs ↔ x ∈ ys
  nodup : xs.Nodup
  ordered : xs.Pairwise fun x y => ys.idxOf x < ys.idxOf y

theorem eraseDups_concat (xs : List α) (y : α) :
    (xs ++ [y]).eraseDups = if y ∈ xs then xs.eraseDups else xs.eraseDups ++ [y] := by
  rw [List.eraseDups_append]
  split
  · next h => simp [List.removeAll, h]
  · next h => simp [List.removeAll, h, eraseDups_of_nodup (List.nodup_singleton y)]

theorem eraseDups_filter (p : α → Bool) (xs : List α) :
    (xs.filter p).eraseDups = xs.eraseDups.filter p := by
  induction xs using List.reverseRecOn with
  | nil => rfl
  | append_singleton xs y ih =>
    by_cases hp : p y = true
    · have hmem : y ∈ xs.filter p ↔ y ∈ xs := by simp [hp]
      rw [List.filter_append, List.filter_cons_of_pos hp, List.filter_nil, eraseDups_concat,
        eraseDups_concat, ih]
      split_ifs <;> simp_all
    · rw [List.filter_append, List.filter_cons_of_neg hp, List.filter_nil, List.append_nil, ih,
        eraseDups_concat]
      split_ifs
      · rfl
      · simp [hp]

/-- Duplicates may be erased from both parts of a list beforehand. -/
theorem eraseDups_append_eraseDups (xs ys : List α) :
    (xs.eraseDups ++ ys.eraseDups).eraseDups = (xs ++ ys).eraseDups := by
  have hremove : ys.eraseDups.removeAll xs.eraseDups = (ys.removeAll xs).eraseDups := by
    rw [List.removeAll, List.removeAll, eraseDups_filter]
    exact List.filter_congr fun y _ => by simp
  have hnodup := nodup_eraseDups (ys.removeAll xs)
  rw [List.eraseDups_append, List.eraseDups_append, eraseDups_of_nodup (nodup_eraseDups xs), hremove,
    eraseDups_of_nodup hnodup]

theorem firstOccurrences_eraseDups (xs : List α) : FirstOccurrences xs.eraseDups xs where
  mem_iff _ := List.mem_eraseDups
  nodup := nodup_eraseDups xs
  ordered := by
    induction xs using List.reverseRecOn with
    | nil => exact .nil
    | append_singleton xs y ih =>
      have hfront : xs.eraseDups.Pairwise fun x z => (xs ++ [y]).idxOf x < (xs ++ [y]).idxOf z := by
        refine ih.imp_of_mem fun {x z} hx hz h => ?_
        rw [List.mem_eraseDups] at hx hz
        rwa [List.idxOf_append_of_mem hx, List.idxOf_append_of_mem hz]
      rw [eraseDups_concat]
      split
      · exact hfront
      · next hy =>
        refine List.pairwise_append.mpr ⟨hfront, List.pairwise_singleton _ _, fun x hx z hz => ?_⟩
        obtain rfl := List.mem_singleton.mp hz
        rw [List.mem_eraseDups] at hx
        rw [List.idxOf_append_of_mem hx, List.idxOf_append_of_notMem hy]
        exact Nat.lt_of_lt_of_le (List.idxOf_lt_length_of_mem hx) (Nat.le_add_right _ _)

theorem perm_eraseDups (h : xs.Perm ys) : xs.eraseDups.Perm ys.eraseDups :=
  (List.perm_ext_iff_of_nodup (nodup_eraseDups xs) (nodup_eraseDups ys)).mpr fun x => by
    rw [List.mem_eraseDups, List.mem_eraseDups, h.mem_iff]

end EraseDups

namespace PhpType

variable {t : PhpType} {ts us : List PhpType}

/-- A type with which a union may be formed in any grouping: a union has two different members, and
what is nullable is not null. -/
def Mergeable : PhpType → Prop
  | union ts => ∃ s ∈ ts, ∃ t ∈ ts, s ≠ t
  | nullable t => t ≠ null
  | _ => True

theorem Canonical.mergeable (h : t.Canonical) : t.Mergeable := by
  have hr : t.Regular := h t (mem_subterms_self t)
  cases t with
  | union ts =>
    obtain ⟨hl, hd, -⟩ := hr
    match ts, hl, hd with
    | s :: t :: _, _, hd =>
      have hne : s ≠ t := fun heq => (List.nodup_cons.mp hd).1 (heq ▸ List.mem_cons_self)
      exact ⟨s, List.mem_cons_self, t, List.mem_cons_of_mem _ List.mem_cons_self, hne⟩
  | nullable t => exact hr.2.1
  | _ => trivial

/-- The union of members that are known to be different. -/
def gather : List PhpType → PhpType
  | [] => simple .never
  | [t] => t
  | members => union members

theorem unite_eq_gather (ts : List PhpType) : unite ts = gather (ts.flatMap parts).eraseDups := rfl

theorem gather_of_two_le (h : 2 ≤ ts.length) : gather ts = union ts := by
  match ts, h with
  | _ :: _ :: _, _ => rfl

/-- A part is undivided, or another part of the type is different. -/
theorem Mergeable.undivided_or_exists_ne (h : t.Mergeable) (m : PhpType) :
    t.Undivided ∨ ∃ u ∈ t.parts, u ≠ m := by
  cases t with
  | union ts =>
    obtain ⟨s, hs, t, ht, hne⟩ := h
    by_cases hm : s = m
    · exact .inr ⟨t, ht, hm ▸ hne.symm⟩
    · exact .inr ⟨s, hs, hm⟩
  | nullable t =>
    by_cases hm : t = m
    · exact .inr ⟨null, by simp [parts], hm ▸ Ne.symm h⟩
    · exact .inr ⟨t, by simp [parts], hm⟩
  | _ => exact .inl trivial

theorem Mergeable.parts_ne_nil (h : t.Mergeable) : t.parts ≠ [] := by
  rcases h.undivided_or_exists_ne t with hu | ⟨u, hu, -⟩
  · simp [parts_of_undivided hu]
  · exact List.ne_nil_of_mem hu

/-- The parts of a union are its members. -/
theorem parts_unite (hne : ts ≠ []) (h : ∀ t ∈ ts, t.Mergeable) :
    (unite ts).parts = (ts.flatMap parts).eraseDups := by
  obtain ⟨t, rest, rfl⟩ := List.exists_cons_of_ne_nil hne
  have ht := h t List.mem_cons_self
  have hparts (u : PhpType) (hu : u ∈ t.parts) : u ∈ ((t :: rest).flatMap parts).eraseDups :=
    List.mem_eraseDups.mpr (List.mem_flatMap.mpr ⟨t, List.mem_cons_self, hu⟩)
  rw [unite_eq_gather]
  match hmembers : ((t :: rest).flatMap parts).eraseDups with
  | [] =>
    obtain ⟨u, hu⟩ := List.exists_mem_of_ne_nil _ ht.parts_ne_nil
    exact absurd (hmembers ▸ hparts u hu) List.not_mem_nil
  | [m] =>
    -- All parts of the first type are `m` then, and only an undivided type has no other part.
    have hone (u : PhpType) (hu : u ∈ t.parts) : u = m :=
      List.mem_singleton.mp (hmembers ▸ hparts u hu)
    rcases ht.undivided_or_exists_ne m with hu | ⟨u, hu, hne⟩
    · have hm : t = m := hone t (by simp [parts_of_undivided hu])
      exact parts_of_undivided (hm ▸ hu)
    · exact absurd (hone u hu) hne
  | _ :: _ :: _ => rfl

theorem gather_perm (h : ts.Perm us) : gather ts = gather us ∨
    gather ts = union ts ∧ gather us = union us := by
  by_cases hl : 2 ≤ ts.length
  · exact .inr ⟨gather_of_two_le hl, gather_of_two_le (h.length_eq ▸ hl)⟩
  · left
    match ts with
    | [] => rw [List.nil_perm.mp h]
    | [t] => rw [List.singleton_perm.mp h]
    | _ :: _ :: _ => simp at hl

/-- A union is the same one if some of its types are united beforehand. Its members are those of its types,
in the order in which they occur first, and types in another order give the members in another
order. -/
theorem unite_merges (hts : ts ≠ []) (hus : us ≠ []) (ht : ∀ t ∈ ts, t.Mergeable)
    (hu : ∀ u ∈ us, u.Mergeable) :
    unite (ts ++ us) = unite [unite ts, unite us] ∧
    unite [unite ts] = unite ts ∧
    FirstOccurrences (unite ts).parts (ts.flatMap parts) ∧
    ∀ vs, vs.Perm ts → unite vs = unite ts ∨
      ∃ ms ms', unite vs = union ms ∧ unite ts = union ms' ∧ ms.Perm ms' := by
  have hparts := parts_unite hts ht
  refine ⟨?_, ?_, ?_, fun vs hv => ?_⟩
  · rw [unite_eq_gather, unite_eq_gather [unite ts, unite us], List.flatMap_append,
      ← eraseDups_append_eraseDups, ← hparts, ← parts_unite hus hu]
    simp
  · rw [unite_eq_gather, List.flatMap_singleton, hparts, eraseDups_of_nodup (nodup_eraseDups _),
      ← unite_eq_gather]
  · exact hparts ▸ firstOccurrences_eraseDups _
  · have hperm := perm_eraseDups (hv.flatMap_right parts)
    rw [unite_eq_gather, unite_eq_gather ts]
    rcases gather_perm hperm with he | ⟨hv, ht⟩
    · exact .inl he
    · exact .inr ⟨_, _, hv, ht, hperm⟩

theorem unite_merges_nullable :
    let ts := [nullable (simple .int), simple .string]
    let us := [union [simple .bool, simple .int]]
    ts ≠ [] ∧ us ≠ [] ∧ (∀ t ∈ ts, t.Mergeable) ∧ (∀ u ∈ us, u.Mergeable) ∧
      unite (ts ++ us) = unite [unite ts, unite us] ∧
      unite (ts ++ us) = union [simple .int, null, simple .string, simple .bool] := by
  intro ts us
  have hcanonical : ∀ t ∈ ts ++ us, t.Canonical := by decide
  have ht : ∀ t ∈ ts, t.Mergeable := fun t h => (hcanonical t (List.mem_append_left _ h)).mergeable
  have hu : ∀ u ∈ us, u.Mergeable := fun u h => (hcanonical u (List.mem_append_right _ h)).mergeable
  have hts : ts ≠ [] := List.cons_ne_nil _ _
  have hus : us ≠ [] := List.cons_ne_nil _ _
  exact ⟨hts, hus, ht, hu, (unite_merges hts hus ht hu).1, by decide⟩

end PhpType

end PhpAtlas
