import PhpAtlas.Proofs.Hierarchy.Preorder
import PhpAtlas.Proofs.Resolving.Spelling

/-! # The search for a method

The search takes the first class-like that declares the method among the first
names in depth-first order. If all names that are reached are among these, the
search misses no declaration. Its limit counts names, so in a wide hierarchy a
declaration can be missed that is a single link away.
-/

namespace PhpAtlas.Provider

variable {p : Provider} {n : Nat} {key name next last method className : String}
variable {visited others names rest keys : List String}

/-- The method as the class-like with the name declares it itself. -/
def declared? (p : Provider) (method name : String) : Option FoundMethod :=
  (p.class? name).bind fun c => (c.method? method).map (⟨·, c⟩)

theorem Insensitive.ignoresCase (hp : p.Insensitive) : p.IgnoresCase := fun a b h =>
  hp.class?_congr <| by
    rw [lookupKey, lookupKey, lower_dropLeadingBackslashes, lower_dropLeadingBackslashes, h]

/-! ## The search and the order -/

theorem searchMethod_nil : p.searchMethod method n visited [] = none := by
  cases n <;> rfl

theorem searchMethod_cons_of_mem (hv : lower name ∈ visited) :
    p.searchMethod method n visited (name :: names) = p.searchMethod method n visited names := by
  cases n <;> simp [searchMethod, hv]

theorem searchMethod_cons_of_not_mem (hv : lower name ∉ visited) :
    p.searchMethod method (n + 1) visited (name :: names) = (p.declared? method name).or
      (p.searchMethod method n (lower name :: visited) (p.ancestors name ++ names)) := by
  have hd : (name :: names).dropWhile (fun name => visited.contains (lower name)) =
      name :: names := List.dropWhile_cons_of_neg (by simpa using hv)
  rw [searchMethod, hd]
  dsimp only
  rw [declared?, ancestors]
  cases p.class? name with
  | none => rfl
  | some c => cases hm : c.method? method <;> simp [hm]

/-- The order of the visited names does not matter. -/
theorem searchMethod_visited_congr (h : ∀ key, key ∈ visited ↔ key ∈ others) :
    p.searchMethod method n visited names = p.searchMethod method n others names := by
  induction n generalizing visited others names with
  | zero => rfl
  | succ n ih =>
    have hc : (fun name => visited.contains (lower name)) =
        fun name => others.contains (lower name) := by
      funext name
      rw [Bool.eq_iff_iff, List.contains_iff_mem, List.contains_iff_mem, h]
    have hcons (name : String) (key : String) :
        key ∈ lower name :: visited ↔ key ∈ lower name :: others := by
      rw [List.mem_cons, List.mem_cons, h]
    simp only [searchMethod, hc, ih (hcons _)]

/-- Some names are searched in depth-first order before the search goes on with the rest. -/
theorem searchMethod_append (n : Nat) (visited names rest : List String) :
    p.searchMethod method n visited (names ++ rest) =
      ((p.preorder n visited names).findSome? (p.declared? method)).or
        (p.searchMethod method (n - (p.preorder n visited names).length)
          (visited ++ (p.preorder n visited names).map lower) rest) := by
  fun_induction preorder p n visited names generalizing rest with
  | case1 => simp
  | case2 => simp [searchMethod]
  | case3 n visited name names hv ih => rw [List.cons_append, searchMethod_cons_of_mem hv, ih]
  | case4 n visited name names hv below ih ih' =>
    have hbelow : p.searchMethod method n (lower name :: visited)
          (p.ancestors name ++ (names ++ rest)) =
        (below.findSome? (p.declared? method)).or (p.searchMethod method (n - below.length)
          (visited ++ lower name :: below.map lower) (names ++ rest)) := by
      have hvisited (key : String) :
          key ∈ lower name :: visited ↔ key ∈ visited ++ [lower name] := by
        simp [or_comm]
      rw [searchMethod_visited_congr hvisited, ih (names ++ rest), List.append_assoc,
        List.singleton_append]
    rw [List.cons_append, searchMethod_cons_of_not_mem hv, hbelow, ih', sub_length_visit]
    cases hd : p.declared? method name <;>
      simp [List.findSome?_append, Option.or_assoc, hd]

/-- The search takes the first declaration among the first names in depth-first order. -/
theorem method?_eq_findSome? : p.method? className method =
    (p.preorder maxHierarchy [] [dropLeadingBackslashes className]).findSome?
      (p.declared? method) := by
  have h := @searchMethod_append p method maxHierarchy [] [dropLeadingBackslashes className] []
  rwa [searchMethod_nil, Option.or_none] at h

theorem DepthFirst.method?_eq
    (h : p.DepthFirst [] [dropLeadingBackslashes className] names)
    (hlen : names.length ≤ maxHierarchy) :
    p.method? className method = names.findSome? (p.declared? method) := by
  rw [method?_eq_findSome?, h.preorder_eq, List.take_of_length_le hlen]

theorem IgnoresCase.declared?_eq (hp : p.IgnoresCase) {a b : String} (h : lower a = lower b) :
    p.declared? method a = p.declared? method b := by
  rw [declared?, declared?, hp a b h]

/-- Where no more names are reached than the search visits, it takes the first declaration in
depth-first order, where no name is repeated, and it finds none exactly if no class-like that is
reached has one. -/
theorem method?_depthFirst (hp : p.IgnoresCase) (hlen : keys.length ≤ maxHierarchy)
    (hk : ∀ name, p.Reaches (dropLeadingBackslashes className) name → lower name ∈ keys)
    (method : String) :
    (∃! order, p.DepthFirst [] [dropLeadingBackslashes className] order) ∧
    (∀ order, p.DepthFirst [] [dropLeadingBackslashes className] order →
      (order.map lower).Nodup ∧
        p.method? className method = order.findSome? (p.declared? method)) ∧
    (p.method? className method = none ↔
      ∀ name, p.Reaches (dropLeadingBackslashes className) name →
        p.declared? method name = none) := by
  obtain ⟨order, horder, hle⟩ := exists_depthFirst (List.forall_mem_singleton.mpr hk)
  have hfind := @DepthFirst.method?_eq _ method _ _ horder (Nat.le_trans hle hlen)
  refine ⟨⟨order, horder, fun _ h => h.unique horder⟩, fun other h => ?_, ?_⟩
  · exact ⟨h.nodup List.nodup_nil, by rw [hfind, horder.unique h]⟩
  · rw [hfind, List.findSome?_eq_none_iff]
    constructor
    · intro h name hname
      obtain ⟨x, hx, hl⟩ := List.mem_map.mp
        (horder.complete hp (List.mem_singleton_self _) hname)
      rw [← hp.declared?_eq hl, h x hx]
    · intro h x hx
      obtain ⟨a, ha, hr⟩ := horder.reaches hx
      exact h x (List.mem_singleton.mp ha ▸ hr)

/-- A class-like that inherits from itself, and one that is reached in two ways. -/
def diamond : Catalog where
  classes :=
    [{ name := "A", traits := ["T"], parent := some "B", interfaces := ["I"] },
      { name := "T", form := .trait, traits := ["a"] },
      { name := "B", parent := some "A", interfaces := ["i"], methods := [⟨"run", false⟩] },
      { name := "I", form := .interface, interfaces := ["U"], methods := [⟨"Run", true⟩] }]

theorem method?_depthFirst_diamond :
    let p := diamond.provider
    let a := dropLeadingBackslashes "\\A"
    (p.IgnoresCase ∧
        ∀ name, p.Reaches a name → lower name ∈ ["A", "T", "B", "I", "U"].map lower) ∧
      (∃! order, p.DepthFirst [] [a] order) ∧
      (∀ order, p.DepthFirst [] [a] order → (order.map lower).Nodup ∧
        p.method? "\\A" "RUN" = order.findSome? (p.declared? "RUN")) ∧
      (p.method? "\\A" "RUN" = none ↔
        ∀ name, p.Reaches a name → p.declared? "RUN" name = none) := by
  intro p a
  have hp : p.IgnoresCase := diamond.insensitive.ignoresCase
  have hk (name : String) (hr : p.Reaches a name) :
      lower name ∈ ["A", "T", "B", "I", "U"].map lower :=
    hr.mem_of_closed hp (by decide +kernel) (by decide +kernel)
  exact ⟨⟨hp, hk⟩, method?_depthFirst hp (by decide) hk "RUN"⟩

example : diamond.provider.method? "\\A" "RUN" =
    diamond.provider.declared? "run" "B" := by decide +kernel

/-! ## The limit -/

/-- A chain of links from a name to another one, with none of the visited names in it. The keys have
all its names, and all names that are reached from what stands before the next link. -/
inductive LeadsTo (p : Provider) (keys visited : List String) : String → String → Prop
  | here {name : String} (hk : lower name ∈ keys) (hv : lower name ∉ visited) :
      LeadsTo p keys visited name name
  | link {name next last : String} {before after : List String} (hk : lower name ∈ keys)
      (hv : lower name ∉ visited) (ha : p.ancestors name = before ++ next :: after)
      (hb : ∀ a ∈ before, ∀ b, p.Reaches a b → lower b ∈ keys)
      (h : LeadsTo p keys visited next last) : LeadsTo p keys visited name last

theorem LeadsTo.first (h : p.LeadsTo keys visited name last) :
    lower name ∈ keys ∧ lower name ∉ visited := by
  cases h with
  | here hk hv | link hk hv => exact ⟨hk, hv⟩

/-- After the last of some names on a chain it goes on without them. -/
theorem LeadsTo.after (h : p.LeadsTo keys visited name last) (passed : List String) :
    p.LeadsTo keys (visited ++ passed) name last ∨ lower last ∈ passed ∨
      ∃ a before next after, lower a ∈ passed ∧ p.ancestors a = before ++ next :: after ∧
        (∀ a ∈ before, ∀ b, p.Reaches a b → lower b ∈ keys) ∧
          p.LeadsTo keys (visited ++ passed) next last := by
  induction h with
  | @here name hk hv =>
    by_cases hs : lower name ∈ passed
    · exact .inr (.inl hs)
    · exact .inl (.here hk (by simp [hv, hs]))
  | @link name next last before after hk hv ha hb _ ih =>
    rcases ih with hn | ih
    · by_cases hs : lower name ∈ passed
      · exact .inr (.inr ⟨name, before, next, after, hs, ha, hb, hn⟩)
      · exact .inl (.link hk (by simp [hv, hs]) ha hb hn)
    · exact .inr ih

theorem length_lt_of_not_mem (hd : visited.Nodup) (hs : visited ⊆ keys) (hk : key ∈ keys)
    (hv : key ∉ visited) : visited.length < keys.length :=
  (List.Nodup.subperm (List.nodup_cons.mpr ⟨hv, hd⟩) (List.cons_subset.mpr ⟨hk, hs⟩)).length_le

/-- The end of a chain is among the first names, if these are as many as the keys. -/
theorem LeadsTo.mem_preorder (hp : p.IgnoresCase) (h : p.LeadsTo keys visited name last)
    (hd : visited.Nodup) (hs : visited ⊆ keys) (hlen : keys.length ≤ n + visited.length) :
    lower last ∈ (p.preorder n visited (name :: names)).map lower := by
  induction n using Nat.strongRecOn generalizing visited name names with | _ n ih =>
  obtain ⟨hk, hv⟩ := h.first
  have hlt := length_lt_of_not_mem hd hs hk hv
  obtain ⟨n, rfl⟩ : ∃ k, n = k + 1 := ⟨n - 1, by omega⟩
  rw [preorder_cons_of_not_mem hv, List.map_cons, List.map_append]
  rcases h.after [lower name] with h | hl | ⟨a, before, next, after, ha, hanc, hb, h⟩
  · exact absurd (by simp) h.first.2
  · exact List.mem_cons.mpr (.inl (List.mem_singleton.mp hl))
  · rw [hp.ancestors_eq (List.mem_singleton.mp ha)] at hanc
    refine List.mem_cons_of_mem _ (List.mem_append_left _ ?_)
    rw [hanc, preorder_append, List.map_append]
    -- What stands before the link takes some of the names, but none that is not a key.
    let reached := p.preorder n (visited ++ [lower name]) before
    have hlen' : reached.length ≤ n := length_preorder_le _ _ _
    have hd' : (visited ++ [lower name] ++ reached.map lower).Nodup :=
      nodup_preorder _ _ (by simpa using List.Nodup.concat hv hd)
    have hs' : visited ++ [lower name] ++ reached.map lower ⊆ keys := by
      simp only [List.append_subset, List.cons_subset, List.nil_subset, and_true]
      refine ⟨⟨hs, hk⟩, fun key hkey => ?_⟩
      obtain ⟨b, hm, rfl⟩ := List.mem_map.mp hkey
      obtain ⟨a, ha, hr⟩ := reaches_of_mem_preorder hm
      exact hb a ha b hr
    have hcount : (visited ++ [lower name] ++ reached.map lower).length =
        visited.length + 1 + reached.length := by
      simp only [List.length_append, List.length_singleton, List.length_map]
    rcases h.after (reached.map lower) with h | hl | ⟨a, _, c, _, ha, hanc, -, h⟩
    · refine List.mem_append_right _ (ih (n - reached.length) (by omega) h hd' hs' ?_)
      change keys.length ≤
        n - reached.length + (visited ++ [lower name] ++ reached.map lower).length
      omega
    · exact List.mem_append_left _ hl
    · -- All that is reached from them has been visited, so the chain cannot come from there.
      have hlt' := length_lt_of_not_mem hd' hs' h.first.1 h.first.2
      obtain ⟨x, hx, hl⟩ := List.mem_map.mp ha
      have horder := depthFirst_preorder (p := p) (show reached.length < n by omega)
      refine absurd (horder.closed hx ?_) h.first.2
      rw [hp.ancestors_eq hl, hanc]
      exact List.mem_append_right _ List.mem_cons_self

/-- The search takes the first declaration among as many names as its limit says, in depth-first
order. So it finds a method at the end of a chain if the names of the chain, with all that are
reached from what stands before its links, are no more than that. -/
theorem method?_first_names (p : Provider) (className method : String) :
    p.method? className method =
      (p.preorder maxHierarchy [] [dropLeadingBackslashes className]).findSome?
        (p.declared? method) ∧
    (p.IgnoresCase → ∀ keys last, keys.length ≤ maxHierarchy →
      p.LeadsTo keys [] (dropLeadingBackslashes className) last →
        (p.declared? method last).isSome → (p.method? className method).isSome) := by
  refine ⟨method?_eq_findSome?, fun hp keys last hlen h hl => ?_⟩
  have hm : lower last ∈
      (p.preorder maxHierarchy [] [dropLeadingBackslashes className]).map lower :=
    h.mem_preorder hp List.nodup_nil (List.nil_subset _) hlen
  obtain ⟨x, hx, hxl⟩ := List.mem_map.mp hm
  rw [method?_eq_findSome?, List.findSome?_isSome_iff]
  exact ⟨x, hx, hp.declared?_eq hxl ▸ hl⟩

/-- A class with some traits, a parent that declares a method, and some interfaces. -/
def broad (traits interfaces : Nat) : Catalog where
  classes :=
    [{ name := "A"
       traits := (List.range traits).map fun i => "T" ++ toString i
       parent := some "P"
       interfaces := (List.range interfaces).map fun i => "I" ++ toString i },
      { name := "P", methods := [⟨"m", false⟩] }]

/-- The interfaces behind the parent do not count. -/
theorem method?_first_names_broad :
    let p := (broad 0 100).provider
    (p.IgnoresCase ∧ p.LeadsTo ["a", "p"] [] (dropLeadingBackslashes "A") "P" ∧
      (p.declared? "m" "P").isSome) ∧
      p.method? "A" "m" = (p.preorder maxHierarchy [] [dropLeadingBackslashes "A"]).findSome?
        (p.declared? "m") ∧ (p.method? "A" "m").isSome := by
  intro p
  have hp : p.IgnoresCase := (broad 0 100).insensitive.ignoresCase
  have hd : (p.declared? "m" "P").isSome := by decide +kernel
  have ha : p.ancestors (dropLeadingBackslashes "A") =
      [] ++ "P" :: (List.range 100).map fun i => "I" ++ toString i := by decide +kernel
  have hl : p.LeadsTo ["a", "p"] [] (dropLeadingBackslashes "A") "P" :=
    .link (by decide +kernel) List.not_mem_nil ha nofun (.here (by decide +kernel) List.not_mem_nil)
  exact ⟨⟨hp, hl, hd⟩, (method?_first_names p "A" "m").1,
    (method?_first_names p "A" "m").2 hp _ _ (by decide) hl hd⟩

/-- Where a class has traits enough, the parent is not searched. -/
theorem exists_method?_eq_none : ∃ p : Provider, p.IgnoresCase ∧ "P" ∈ p.ancestors "A" ∧
    (p.declared? "m" "P").isSome ∧ p.method? "A" "m" = none :=
  ⟨(broad 63 0).provider, (broad 63 0).insensitive.ignoresCase, by decide +kernel,
    by decide +kernel, by decide +kernel⟩

end PhpAtlas.Provider
