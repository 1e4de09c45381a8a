import Mathlib.Data.List.Nodup
import Mathlib.Data.List.Perm.Subperm
import Mathlib.Logic.Relation
import PhpAtlas.Proofs.Names

/-! # Depth-first order of a hierarchy

Names lead to the names that their class-likes inherit from. A hierarchy has a
depth-first order, in which every name stands before what is reached from it and
has not been visited yet, and the first names of this order exist also where the
hierarchy is without end.
-/

namespace PhpAtlas.Provider

variable {p : Provider} {n : Nat} {a b key name next last : String}
variable {visited names order before after keys : List String}

/-- The names that a name leads to; an unknown one leads nowhere. -/
def ancestors (p : Provider) (name : String) : List String :=
  match p.class? name with
  | some c => c.ancestors
  | none => []

/-- A name leads to another one by any number of links. -/
def Reaches (p : Provider) : String → String → Prop :=
  Relation.ReflTransGen fun a b => b ∈ p.ancestors a

/-- Class-likes are looked up without regard to case. -/
def IgnoresCase (p : Provider) : Prop := ∀ a b, lower a = lower b → p.class? a = p.class? b

/-- The names and what they lead to in depth-first order: a name, what is reached from it, and then
the names after it. Each name stands once, and not if it has been visited before. -/
inductive DepthFirst (p : Provider) : List String → List String → List String → Prop
  | nil {visited : List String} : DepthFirst p visited [] []
  | skip {visited names order : List String} {name : String} (hv : lower name ∈ visited)
      (h : DepthFirst p visited names order) : DepthFirst p visited (name :: names) order
  | visit {visited names below after : List String} {name : String} (hv : lower name ∉ visited)
      (hb : DepthFirst p (visited ++ [lower name]) (p.ancestors name) below)
      (ha : DepthFirst p (visited ++ lower name :: below.map lower) names after) :
      DepthFirst p visited (name :: names) (name :: (below ++ after))

/-- The first names of that order. -/
def preorder (p : Provider) : Nat → List String → List String → List String
  | _, _, [] => []
  | 0, _, _ :: _ => []
  | n + 1, visited, name :: names =>
      if lower name ∈ visited then preorder p (n + 1) visited names
      else
        let below := preorder p n (visited ++ [lower name]) (p.ancestors name)
        name :: (below ++
          preorder p (n - below.length) (visited ++ lower name :: below.map lower) names)
termination_by n _ names => (n, names.length)
decreasing_by
  · exact Prod.Lex.right _ (Nat.lt_succ_self _)
  · exact Prod.Lex.left _ _ (Nat.lt_succ_self n)
  · exact Prod.Lex.left _ _ (Nat.lt_succ_of_le (Nat.sub_le ..))

theorem IgnoresCase.ancestors_eq (hp : p.IgnoresCase) (h : lower a = lower b) :
    p.ancestors a = p.ancestors b := by
  rw [ancestors, ancestors, hp a b h]

/-- Names that lead to no others but for case have all that is reached from them. -/
theorem Reaches.mem_of_closed (hp : p.IgnoresCase)
    (hc : ∀ a ∈ names, ∀ b ∈ p.ancestors a, lower b ∈ names.map lower)
    (ha : lower a ∈ names.map lower) (hr : p.Reaches a b) : lower b ∈ names.map lower := by
  induction hr with
  | refl => exact ha
  | tail _ hb ih =>
    obtain ⟨x, hx, hl⟩ := List.mem_map.mp ih
    exact hc x hx _ (hp.ancestors_eq hl ▸ hb)

@[simp] theorem preorder_nil : p.preorder n visited [] = [] := by
  rw [preorder]

@[simp] theorem preorder_zero : p.preorder 0 visited names = [] := by
  cases names <;> rw [preorder]

theorem preorder_cons_of_mem (hv : lower name ∈ visited) :
    p.preorder n visited (name :: names) = p.preorder n visited names := by
  cases n with
  | zero => simp
  | succ n => rw [preorder, if_pos hv]

theorem preorder_cons_of_not_mem (hv : lower name ∉ visited) :
    p.preorder (n + 1) visited (name :: names) =
      name :: (p.preorder n (visited ++ [lower name]) (p.ancestors name) ++
        p.preorder (n - (p.preorder n (visited ++ [lower name]) (p.ancestors name)).length)
          (visited ++ lower name ::
            (p.preorder n (visited ++ [lower name]) (p.ancestors name)).map lower) names) := by
  rw [preorder, if_neg hv]

/-! ## The first names -/

/-- What is left of the number after a name, what is below it and what comes after it. -/
theorem sub_length_visit (n : Nat) (name : String) (below after : List String) :
    n + 1 - (name :: (below ++ after)).length = n - below.length - after.length := by
  rw [List.length_cons, List.length_append]
  omega

theorem length_preorder_le (n : Nat) (visited names : List String) :
    (p.preorder n visited names).length ≤ n := by
  fun_induction preorder p n visited names with
  | case1 => simp
  | case2 => simp
  | case3 n visited name names hv ih => exact ih
  | case4 n visited name names hv below ih ih' =>
    have ih : below.length ≤ n := ih
    rw [List.length_cons, List.length_append]
    omega

/-- No name stands twice, and none has been visited. -/
theorem nodup_preorder (n : Nat) (names : List String) (hd : visited.Nodup) :
    (visited ++ (p.preorder n visited names).map lower).Nodup := by
  fun_induction preorder p n visited names with
  | case1 => simpa
  | case2 => simpa
  | case3 n visited name names hv ih => exact ih hd
  | case4 n visited name names hv below ih ih' =>
    have hname : (visited ++ [lower name]).Nodup := by
      simpa using List.Nodup.concat hv hd
    have hbelow : (visited ++ lower name :: below.map lower).Nodup := by simpa using ih hname
    simpa using ih' hbelow

theorem reaches_of_mem_preorder (h : b ∈ p.preorder n visited names) :
    ∃ a ∈ names, p.Reaches a b := by
  fun_induction preorder p n visited names with
  | case1 => cases h
  | case2 => cases h
  | case3 n visited name names hv ih =>
    obtain ⟨a, ha, hr⟩ := ih h
    exact ⟨a, List.mem_cons_of_mem _ ha, hr⟩
  | case4 n visited name names hv below ih ih' =>
    rcases List.mem_cons.mp h with rfl | h
    · exact ⟨b, List.mem_cons_self, .refl⟩
    · rcases List.mem_append.mp h with h | h
      · obtain ⟨a, ha, hr⟩ := ih h
        exact ⟨name, List.mem_cons_self, hr.head ha⟩
      · obtain ⟨a, ha, hr⟩ := ih' h
        exact ⟨a, List.mem_cons_of_mem _ ha, hr⟩

theorem preorder_append (n : Nat) (visited before after : List String) :
    p.preorder n visited (before ++ after) = p.preorder n visited before ++
      p.preorder (n - (p.preorder n visited before).length)
        (visited ++ (p.preorder n visited before).map lower) after := by
  fun_induction preorder p n visited before with
  | case1 => simp
  | case2 => simp
  | case3 n visited name names hv ih => rw [List.cons_append, preorder_cons_of_mem hv, ih]
  | case4 n visited name names hv below ih ih' =>
    rw [List.cons_append, preorder_cons_of_not_mem hv, sub_length_visit]
    change name :: (below ++ p.preorder (n - below.length) _ (names ++ after)) = _
    rw [ih']
    simp

/-- As long as names are left over, the first names are all names. -/
theorem depthFirst_preorder (h : (p.preorder n visited names).length < n) :
    p.DepthFirst visited names (p.preorder n visited names) := by
  fun_induction preorder p n visited names with
  | case1 => exact .nil
  | case2 => cases h
  | case3 n visited name names hv ih => exact .skip hv (ih h)
  | case4 n visited name names hv below ih ih' =>
    rw [List.length_cons, List.length_append] at h
    exact .visit hv (ih (show below.length < n by omega)) (ih' (by omega))

/-! ## The whole order -/

theorem DepthFirst.preorder_eq (h : p.DepthFirst visited names order) (n : Nat) :
    p.preorder n visited names = order.take n := by
  induction h generalizing n with
  | nil => simp
  | skip hv _ ih => rw [preorder_cons_of_mem hv, ih]
  | @visit visited names below after name hv _ _ ih ih' =>
    cases n with
    | zero => simp
    | succ n =>
      rw [preorder_cons_of_not_mem hv, ih, List.take_succ_cons, List.take_append]
      rcases Nat.le_total below.length n with hn | hn
      · rw [List.take_of_length_le hn, ih']
      · rw [List.length_take_of_le hn, Nat.sub_self, Nat.sub_eq_zero_of_le hn]
        simp

theorem DepthFirst.unique {other : List String} (h : p.DepthFirst visited names order)
    (h' : p.DepthFirst visited names other) : order = other := by
  have ho := h.preorder_eq (order.length + other.length)
  rw [h'.preorder_eq, List.take_of_length_le (by omega), List.take_of_length_le (by omega)] at ho
  exact ho.symm

theorem DepthFirst.covers (h : p.DepthFirst visited names order) (ha : a ∈ names) :
    lower a ∈ visited ++ order.map lower := by
  induction h with
  | nil => cases ha
  | skip hv _ ih =>
    rcases List.mem_cons.mp ha with rfl | ha
    · exact List.mem_append_left _ hv
    · exact ih ha
  | visit hv _ _ _ ih' =>
    rcases List.mem_cons.mp ha with rfl | ha
    · simp
    · simpa using ih' ha

/-- What a name leads to stands in the order, too, or has been visited. -/
theorem DepthFirst.closed (h : p.DepthFirst visited names order) (ha : a ∈ order)
    (hb : b ∈ p.ancestors a) : lower b ∈ visited ++ order.map lower := by
  induction h with
  | nil => cases ha
  | skip _ _ ih => exact ih ha
  | @visit visited names below after name hv h _ ih ih' =>
    have horder : visited ++ (name :: (below ++ after)).map lower =
        visited ++ [lower name] ++ below.map lower ++ after.map lower := by simp
    rw [horder]
    rcases List.mem_cons.mp ha with rfl | ha
    · exact List.mem_append_left _ (h.covers hb)
    · rcases List.mem_append.mp ha with ha | ha
      · exact List.mem_append_left _ (ih ha)
      · simpa using ih' ha

theorem DepthFirst.reaches (h : p.DepthFirst visited names order) (hb : b ∈ order) :
    ∃ a ∈ names, p.Reaches a b := by
  rw [← List.take_length (l := order), ← h.preorder_eq] at hb
  exact reaches_of_mem_preorder hb

theorem DepthFirst.nodup (h : p.DepthFirst visited names order) (hd : visited.Nodup) :
    (visited ++ order.map lower).Nodup := by
  rw [← List.take_length (l := order), ← h.preorder_eq]
  exact nodup_preorder _ _ hd

/-- The order has all names that are reached. -/
theorem DepthFirst.complete (hp : p.IgnoresCase) (h : p.DepthFirst [] names order) (ha : a ∈ names)
    (hr : p.Reaches a b) : lower b ∈ order.map lower :=
  hr.mem_of_closed hp (fun _ hx _ hy => h.closed hx hy) (h.covers ha)

/-- There is an order if finitely many different names are reached. -/
theorem exists_depthFirst (hk : ∀ a ∈ names, ∀ b, p.Reaches a b → lower b ∈ keys) :
    ∃ order, p.DepthFirst [] names order ∧ order.length ≤ keys.length := by
  have hlen : (p.preorder (keys.length + 1) [] names).length ≤ keys.length := by
    rw [← List.length_map (f := lower)]
    refine (List.Nodup.subperm (nodup_preorder _ _ List.nodup_nil) ?_).length_le
    intro key hkey
    obtain ⟨b, hb, rfl⟩ := List.mem_map.mp hkey
    obtain ⟨a, ha, hr⟩ := reaches_of_mem_preorder hb
    exact hk a ha b hr
  exact ⟨_, depthFirst_preorder (Nat.lt_succ_of_le hlen), hlen⟩

end PhpAtlas.Provider
