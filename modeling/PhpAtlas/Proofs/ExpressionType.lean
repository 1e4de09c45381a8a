import PhpAtlas.ExpressionType
import PhpAtlas.Proofs.Building.Headers
import PhpAtlas.Proofs.Tree.Decorated
import PhpAtlas.Proofs.Tree.Detached

/-! # Types in detached functions

Reading off a type follows links to children, to the function around a node and
from there to every node of the function. If no class-like stands between, these
links stay in the function, and so the type is the same where the function has
been detached.
-/

namespace PhpAtlas.Arena

variable {a : Arena} {n x : NodeId} {payload : Payload (Option NodeId)}

/-! ## What a node of the copy says -/

section Copy

variable (h : a.Forest) (hn : n < a.size) (hx : x ∈ a.descendants n)

include h hn hx

theorem Forest.payload?_detach : (a.detach n).payload? ((a.descendants n).idxOf x) =
    (a.payload? x).map (Payload.map (Option.map (a.descendants n).idxOf)) := by
  obtain ⟨k, hk⟩ := h.node?_of_mem_descendants hn hx
  rw [payload?, h.node?_detach hn hx, hk, Option.map_some, h.relink_eq hn hx hk, payload?, hk]
  rfl

theorem Forest.mem_descendants_of_slot (hp : a.payload? x = some payload) {e : Option NodeId}
    (he : e ∈ payload.slots) : ∀ c ∈ e, c ∈ a.descendants n := by
  rintro c rfl
  apply h.mem_descendants_of_child hn hx
  rw [children_of_payload? hp]
  exact List.mem_filterMap.mpr ⟨some c, he, rfl⟩

theorem Forest.className?_detach :
    (a.detach n).className? ((a.descendants n).idxOf x) = a.className? x := by
  obtain ⟨p, hp⟩ := h.exists_placement? (h.lt_of_mem_descendants hn hx)
  rw [className?, placement?_detach hx, className?, hp]
  rfl

theorem Forest.parentClassName?_detach :
    (a.detach n).parentClassName? ((a.descendants n).idxOf x) = a.parentClassName? x := by
  obtain ⟨p, hp⟩ := h.exists_placement? (h.lt_of_mem_descendants hn hx)
  rw [parentClassName?, placement?_detach hx, parentClassName?, hp]
  rfl

theorem Forest.fullName?_detach :
    (a.detach n).fullName? ((a.descendants n).idxOf x) = a.fullName? x := by
  obtain ⟨p, hp⟩ := h.exists_placement? (h.lt_of_mem_descendants hn hx)
  rw [fullName?, placement?_detach hx, fullName?, hp]
  rfl

theorem Forest.functionOf?_detach :
    (a.detach n).functionOf? ((a.descendants n).idxOf x) =
      (a.functionOf? x).bind (a.descendants n).idxOf? := by
  obtain ⟨p, hp⟩ := h.exists_placement? (h.lt_of_mem_descendants hn hx)
  rw [functionOf?, placement?_detach hx, functionOf?, hp]
  rfl

theorem Forest.variableName?_detach :
    (a.detach n).variableName? ((a.descendants n).idxOf x) = a.variableName? x := by
  rw [variableName?, h.payload?_detach hn hx, variableName?]
  rcases a.payload? x with _ | payload
  · rfl
  · cases payload <;> rfl

theorem Forest.typeOfThis_detach :
    (a.detach n).typeOfThis ((a.descendants n).idxOf x) = a.typeOfThis x := by
  rw [typeOfThis, h.className?_detach hn hx, typeOfThis]

theorem Forest.typeOfName_detach (name : WrittenName) :
    (a.detach n).typeOfName ((a.descendants n).idxOf x) name = a.typeOfName x name := by
  rw [typeOfName, h.className?_detach hn hx, h.parentClassName?_detach hn hx,
    h.fullName?_detach hn hx, typeOfName]

theorem Forest.scopeAt?_detach :
    (a.detach n).scopeAt? ((a.descendants n).idxOf x) = a.scopeAt? x :=
  (h.copyOf_detach hn).scope x hx

end Copy

section Links

variable (h : a.Forest) (hn : n < a.size)

include h hn

theorem Forest.typeOfNew_detach {e : Option NodeId} (he : ∀ x ∈ e, x ∈ a.descendants n) :
    (a.detach n).typeOfNew (e.map (a.descendants n).idxOf) = a.typeOfNew e := by
  cases e with
  | none => rfl
  | some x =>
    have hx := he x rfl
    rw [typeOfNew, Option.map_some, Option.bind_some, h.payload?_detach hn hx, typeOfNew,
      Option.bind_some]
    rcases a.payload? x with _ | payload
    · rfl
    · cases payload with
      | name name =>
        dsimp only [Option.map_some, Payload.map]
        rw [h.typeOfName_detach hn hx]
      | _ => rfl

/-! ## Parentheses -/

theorem Forest.length_descendants_lt {c : NodeId} (hc : c ∈ a.children n) :
    (a.descendants c).length < (a.descendants n).length := by
  have hcs := h.lt_size_of_child hc
  have hd : (n :: a.descendants c).Nodup := by
    refine List.nodup_cons.mpr ⟨fun hm => ?_, h.nodup_descendants hcs⟩
    have hle := h.le_of_reaches ((h.mem_descendants hcs).mp hm)
    exact absurd (h.before n c hc) (not_lt.mpr hle)
  have hroot := h.root_mem_descendants hn
  have hsub : n :: a.descendants c ⊆ a.descendants n :=
    List.cons_subset.mpr ⟨hroot, h.descendants_subset hn (h.mem_descendants_of_child hn hroot hc)⟩
  exact (hd.subperm hsub).length_le

/-- As many steps as there are nodes under the node are enough. -/
theorem Forest.unwrap_eq {fuel fuel' : Nat} (hf : (a.descendants n).length ≤ fuel)
    (hf' : (a.descendants n).length ≤ fuel') : a.unwrap fuel n = a.unwrap fuel' n := by
  induction fuel generalizing n fuel' with
  | zero =>
    have hempty := List.length_eq_zero_iff.mp (Nat.le_zero.mp hf)
    exact absurd (h.root_mem_descendants hn) (hempty ▸ List.not_mem_nil)
  | succ fuel ih =>
    have hpos : 0 < (a.descendants n).length :=
      List.length_pos_of_mem (h.root_mem_descendants hn)
    obtain ⟨fuel', rfl⟩ := Nat.exists_eq_add_one_of_ne_zero (hpos.trans_le hf').ne'
    rw [unwrap, unwrap]
    split
    · next inner hp =>
      cases inner with
      | none => rfl
      | some c =>
        have hc : c ∈ a.children n := by
          rw [children_of_payload? hp]
          exact List.mem_singleton_self c
        have hlt := h.length_descendants_lt hn hc
        exact ih (h.lt_size_of_child hc) (by omega) (by omega)
    · rfl

theorem Forest.unwrap_mem {fuel : Nat} {y : NodeId} (hx : x ∈ a.descendants n)
    (hy : a.unwrap fuel x = some y) : y ∈ a.descendants n := by
  induction fuel generalizing x with
  | zero =>
    cases hy
    exact hx
  | succ fuel ih =>
    rw [unwrap] at hy
    split at hy
    · next inner hp =>
      obtain ⟨c, rfl, hc⟩ := Option.bind_eq_some_iff.mp hy
      exact ih (h.mem_descendants_of_slot hn hx hp List.mem_cons_self c rfl) hc
    · cases hy
      exact hx

theorem Forest.unwrap_detach {fuel : Nat} (hx : x ∈ a.descendants n) :
    (a.detach n).unwrap fuel ((a.descendants n).idxOf x) =
      (a.unwrap fuel x).map (a.descendants n).idxOf := by
  induction fuel generalizing x with
  | zero => rfl
  | succ fuel ih =>
    rw [unwrap, h.payload?_detach hn hx, unwrap]
    rcases hp : a.payload? x with _ | payload
    · rfl
    · cases payload with
      | parenthesized inner =>
        cases inner with
        | none => rfl
        | some c => exact ih (h.mem_descendants_of_slot hn hx hp List.mem_cons_self c rfl)
      | _ => rfl

theorem Forest.unparenthesized?_detach (hx : x ∈ a.descendants n) :
    (a.detach n).unparenthesized? ((a.descendants n).idxOf x) =
      (a.unparenthesized? x).map (a.descendants n).idxOf := by
  have hxs := h.lt_of_mem_descendants hn hx
  have hsize : (a.descendants x).length ≤ a.size := by
    rw [h.descendants_eq]
    exact h.length_treeOrder_le x
  rw [unparenthesized?, h.unwrap_detach hn hx, h.size_detach hn, unparenthesized?,
    h.unwrap_eq hxs (h.length_descendants_le hn hx) hsize]

/-! ## Assignments -/

theorem Forest.assignmentTo?_detach {name : String} {stop : Nat} (hx : x ∈ a.descendants n) :
    (a.detach n).assignmentTo? name stop ((a.descendants n).idxOf x) =
      (a.assignmentTo? name stop x).map (Prod.map id (Option.map (a.descendants n).idxOf)) := by
  obtain ⟨k, hk⟩ := h.node?_of_mem_descendants hn hx
  have hp := payload?_of_node? hk
  rw [assignmentTo?, h.node?_detach hn hx, hk, Option.map_some, h.relink_eq hn hx hk, assignmentTo?,
    hk]
  obtain ⟨payload, start, stop, parent⟩ := k
  cases payload with
  | assign target value byRef =>
    have ht : (target.map (a.descendants n).idxOf).bind (a.detach n).variableName? =
        target.bind a.variableName? := by
      cases target with
      | none => rfl
      | some t =>
        have htarget := h.mem_descendants_of_slot hn hx hp List.mem_cons_self t rfl
        exact h.variableName?_detach hn htarget
    show (if _ then _ else _) = Option.map _ (if _ then _ else _)
    rw [ht, apply_ite (Option.map _)]
    rfl
  | _ => rfl

theorem Forest.assignmentTo?_mem {name : String} {stop start : Nat} {value : Option NodeId}
    (hx : x ∈ a.descendants n) (hv : a.assignmentTo? name stop x = some (start, value)) :
    ∀ v ∈ value, v ∈ a.descendants n := by
  obtain ⟨k, hk, hv⟩ := Option.bind_eq_some_iff.mp hv
  have hp := payload?_of_node? hk
  split at hv
  · next target value' byRef hassign =>
    split at hv
    · cases hv
      rw [hassign] at hp
      exact h.mem_descendants_of_slot hn hx hp (by simp [Payload.slots])
    · cases hv
  · cases hv

end Links

/-- Which of two assignments is later does not depend on their values. -/
theorem laterOf_map (g : Option NodeId → Option NodeId) (best : Option (Nat × Option NodeId))
    (next : Nat × Option NodeId) :
    laterOf (best.map (Prod.map id g)) (Prod.map id g next) =
      (laterOf best next).map (Prod.map id g) := by
  cases best with
  | none => rfl
  | some b =>
    show (if next.1 < b.1 then _ else _) = Option.map _ (if next.1 < b.1 then _ else _)
    rw [apply_ite (Option.map _)]
    rfl

theorem foldl_laterOf_map (g : Option NodeId → Option NodeId) (found : List (Nat × Option NodeId))
    (best : Option (Nat × Option NodeId)) :
    (found.map (Prod.map id g)).foldl laterOf (best.map (Prod.map id g)) =
      (found.foldl laterOf best).map (Prod.map id g) := by
  induction found generalizing best with
  | nil => rfl
  | cons next found ih => rw [List.map_cons, List.foldl_cons, laterOf_map, ih, List.foldl_cons]

theorem mem_of_foldl_laterOf {found : List (Nat × Option NodeId)}
    {best : Option (Nat × Option NodeId)} {r : Nat × Option NodeId}
    (hr : found.foldl laterOf best = some r) : r ∈ found ∨ best = some r := by
  induction found generalizing best with
  | nil => exact .inr hr
  | cons next found ih =>
    rcases ih hr with hm | he
    · exact .inl (List.mem_cons_of_mem _ hm)
    · have hcases : next = r ∨ best = some r := by
        cases best with
        | none => exact .inl (Option.some.inj he)
        | some b =>
          rw [laterOf] at he
          split at he
          · exact .inr he
          · exact .inl (Option.some.inj he)
      rcases hcases with rfl | hb
      · exact .inl List.mem_cons_self
      · exact .inr hb

/-! ## Links to functions -/

/-- Around every node of the tree there is a function that is in the tree. -/
def FunctionsWithin (a : Arena) (n : NodeId) : Prop :=
  ∀ x ∈ a.descendants n, ∃ g ∈ a.descendants n, a.functionOf? x = some g

/-- The assignments before a use in a function are looked for in the function. -/
theorem lastAssignment?_eq {name : String} {k : Node} {g : NodeId} (hk : a.node? x = some k)
    (hf : a.functionOf? x = some g) : a.lastAssignment? x name =
      (((a.descendants g).filterMap (a.assignmentTo? name k.start)).foldl laterOf none).map
        Prod.snd := by
  have hregion : a.regionOf x = g := by rw [regionOf, hf, Option.getD_some]
  rw [lastAssignment?, hk, hregion]
  show Option.bind (List.foldl laterOf none _) _ = _
  cases ((a.descendants g).filterMap (a.assignmentTo? name k.start)).foldl laterOf none <;> rfl

/-- The parameter at a node, if it has the name. -/
def parameterNamed? (a : Arena) (name : String) (i : NodeId) :
    Option (ParameterDecl (Option NodeId)) :=
  match a.payload? i with
  | some (.parameter p) => if p.name = name then some p else none
  | _ => none

theorem typeOfParameter?_eq {name : String} {g : NodeId} {form : FunctionForm}
    {d : FunctionDecl (Option NodeId)} (hg : a.payload? g = some (.function form d)) :
    a.typeOfParameter? g name =
      ((d.parameters.filterMap id).findSome? (a.parameterNamed? name)).bind fun parameter =>
        parameter.type.map fun hint =>
          let t := PhpType.ofHint
            ⟨(a.scopeAt? g).getD {}, a.className? g, a.parentClassName? g⟩ hint
          if parameter.variadic then .array (.simple .int) t else t := by
  rw [typeOfParameter?, hg]
  show Option.bind ((d.parameters.filterMap id).findSome? (a.parameterNamed? name)) _ = _
  refine congrArg (Option.bind _) (funext fun parameter => ?_)
  cases parameter.type <;> rfl

theorem typeOfParameter?_eq_none {name : String} {g : NodeId} (hg : a.payload? g = some payload)
    (hf : payload.isFunction = false) : a.typeOfParameter? g name = none := by
  rw [typeOfParameter?, hg]
  cases payload with
  | function form d => cases hf
  | _ => rfl

section Within

variable (h : a.Forest) (hn : n < a.size)

include h hn

theorem Forest.functionOf?_detach_of_mem {g : NodeId} (hx : x ∈ a.descendants n)
    (hg : g ∈ a.descendants n) (hf : a.functionOf? x = some g) :
    (a.detach n).functionOf? ((a.descendants n).idxOf x) = some ((a.descendants n).idxOf g) := by
  rw [h.functionOf?_detach hn hx, hf, Option.bind_some, idxOf?_of_mem hg]

theorem Forest.lastAssignment?_detach {name : String} {g : NodeId} (hx : x ∈ a.descendants n)
    (hg : g ∈ a.descendants n) (hf : a.functionOf? x = some g) :
    (a.detach n).lastAssignment? ((a.descendants n).idxOf x) name =
      (a.lastAssignment? x name).map (Option.map (a.descendants n).idxOf) := by
  obtain ⟨k, hk⟩ := h.node?_of_mem_descendants hn hx
  have hk' := h.node?_detach hn hx
  rw [hk, Option.map_some] at hk'
  have hfound : ((a.detach n).descendants ((a.descendants n).idxOf g)).filterMap
      ((a.detach n).assignmentTo? name k.start) =
        ((a.descendants g).filterMap (a.assignmentTo? name k.start)).map
          (Prod.map id (Option.map (a.descendants n).idxOf)) := by
    rw [h.descendants_detach hn hg, List.filterMap_map, List.map_filterMap]
    refine List.filterMap_congr fun y hy => ?_
    exact h.assignmentTo?_detach hn (h.descendants_subset hn hg hy)
  have hfold := foldl_laterOf_map (Option.map (a.descendants n).idxOf)
    ((a.descendants g).filterMap (a.assignmentTo? name k.start)) none
  rw [Option.map_none] at hfold
  rw [lastAssignment?_eq hk' (h.functionOf?_detach_of_mem hn hx hg hf), lastAssignment?_eq hk hf,
    relink, hfound, hfold, Option.map_map, Option.map_map]
  rfl

theorem Forest.lastAssignment?_mem {name : String} {g : NodeId} {value : Option NodeId}
    (hx : x ∈ a.descendants n) (hg : g ∈ a.descendants n) (hf : a.functionOf? x = some g)
    (hv : a.lastAssignment? x name = some value) : ∀ v ∈ value, v ∈ a.descendants n := by
  obtain ⟨k, hk⟩ := h.node?_of_mem_descendants hn hx
  rw [lastAssignment?_eq hk hf] at hv
  obtain ⟨⟨start, v⟩, hfold, rfl⟩ := Option.map_eq_some_iff.mp hv
  obtain hm | hnone := mem_of_foldl_laterOf hfold
  · obtain ⟨y, hy, hassign⟩ := List.mem_filterMap.mp hm
    exact h.assignmentTo?_mem hn (h.descendants_subset hn hg hy) hassign
  · cases hnone

theorem Forest.parameterNamed?_detach {name : String} (hx : x ∈ a.descendants n) :
    (a.detach n).parameterNamed? name ((a.descendants n).idxOf x) =
      (a.parameterNamed? name x).map fun p =>
        { p with initial := p.initial.map (a.descendants n).idxOf } := by
  rw [parameterNamed?, h.payload?_detach hn hx, parameterNamed?]
  rcases a.payload? x with _ | payload
  · rfl
  · cases payload with
    | parameter p =>
      show (if p.name = name then _ else _) = Option.map _ (if p.name = name then _ else _)
      rw [apply_ite (Option.map _)]
      rfl
    | _ => rfl

theorem Forest.findSome?_parameterNamed?_detach {name : String} {parameters : List (Option NodeId)}
    (hm : ∀ e ∈ parameters, ∀ c ∈ e, c ∈ a.descendants n) :
    ((parameters.map (Option.map (a.descendants n).idxOf)).filterMap id).findSome?
        ((a.detach n).parameterNamed? name) =
      ((parameters.filterMap id).findSome? (a.parameterNamed? name)).map fun p =>
        { p with initial := p.initial.map (a.descendants n).idxOf } := by
  induction parameters with
  | nil => rfl
  | cons e parameters ih =>
    have ih' := ih fun e he => hm e (List.mem_cons_of_mem _ he)
    cases e with
    | none => exact ih'
    | some c =>
      show List.findSome? _ ((a.descendants n).idxOf c :: List.filterMap id _) =
        Option.map _ (List.findSome? _ (c :: List.filterMap id parameters))
      rw [List.findSome?_cons, List.findSome?_cons,
        h.parameterNamed?_detach hn (hm _ List.mem_cons_self c rfl)]
      cases a.parameterNamed? name c with
      | none => exact ih'
      | some p => rfl

theorem Forest.typeOfParameter?_detach {name : String} {g : NodeId} (hg : g ∈ a.descendants n) :
    (a.detach n).typeOfParameter? ((a.descendants n).idxOf g) name =
      a.typeOfParameter? g name := by
  have hpayload := h.payload?_detach hn hg
  rcases hp : a.payload? g with _ | payload
  · rw [typeOfParameter?, hpayload, hp, typeOfParameter?, hp]
    rfl
  · rw [hp] at hpayload
    cases payload with
    | function form d =>
      rw [typeOfParameter?_eq hp, typeOfParameter?_eq hpayload, h.scopeAt?_detach hn hg,
        h.className?_detach hn hg, h.parentClassName?_detach hn hg,
        h.findSome?_parameterNamed?_detach hn, Option.bind_map]
      · rfl
      · intro e he
        apply h.mem_descendants_of_slot hn hg hp
        exact List.mem_cons_of_mem _ (List.mem_append_left _ he)
    | _ => rw [typeOfParameter?_eq_none hp rfl, typeOfParameter?_eq_none hpayload rfl]

theorem Forest.declaredType_detach {name : String} {g : NodeId} (hx : x ∈ a.descendants n)
    (hg : g ∈ a.descendants n) (hf : a.functionOf? x = some g) :
    (a.detach n).declaredType ((a.descendants n).idxOf x) name = a.declaredType x name := by
  rw [declaredType, h.functionOf?_detach_of_mem hn hx hg hf, Option.bind_some,
    h.typeOfParameter?_detach hn hg, declaredType, hf, Option.bind_some]

/-! ## Types -/

theorem Forest.bind_unparenthesized?_detach {e : Option NodeId}
    (he : ∀ x ∈ e, x ∈ a.descendants n) :
    (e.map (a.descendants n).idxOf).bind (a.detach n).unparenthesized? =
        (e.bind a.unparenthesized?).map (a.descendants n).idxOf ∧
      ∀ x ∈ e.bind a.unparenthesized?, x ∈ a.descendants n := by
  cases e with
  | none => exact ⟨rfl, nofun⟩
  | some x =>
    have hx := he x rfl
    exact ⟨h.unparenthesized?_detach hn hx, fun y hy => h.unwrap_mem hn hx hy⟩

/-- With functions around all of its nodes that are in the tree, a tree has the types that it has in
its place. The induction is on the bound, which both sides spend alike. -/
theorem Forest.typeWithin_detach (hw : a.FunctionsWithin n) {depth : Nat} {e : Option NodeId}
    (he : ∀ x ∈ e, x ∈ a.descendants n) :
    (a.detach n).typeWithin depth (e.map (a.descendants n).idxOf) = a.typeWithin depth e := by
  induction depth generalizing e with
  | zero => rfl
  | succ depth ih =>
    obtain ⟨hu, hm⟩ := h.bind_unparenthesized?_detach hn he
    rw [typeWithin, hu, typeWithin]
    rcases hi : e.bind a.unparenthesized? with _ | i
    · rfl
    have hid := hm i hi
    have hpayload := h.payload?_detach hn hid
    dsimp only [Option.map_some]
    rw [hpayload]
    rcases hp : a.payload? i with _ | payload
    · rfl
    have hs {e : Option NodeId} (hslot : e ∈ payload.slots) :
        (a.detach n).typeWithin depth (e.map (a.descendants n).idxOf) = a.typeWithin depth e :=
      ih (h.mem_descendants_of_slot hn hid hp hslot)
    cases payload with
    | «variable» text target =>
      cases text with
      | none => rfl
      | some name =>
        obtain ⟨g, hg, hf⟩ := hw i hid
        dsimp only [Option.map_some, Payload.map]
        rw [h.typeOfThis_detach hn hid, h.lastAssignment?_detach hn hid hg hf,
          h.declaredType_detach hn hid hg hf]
        cases hl : a.lastAssignment? i name with
        | none => rfl
        | some value =>
          dsimp only [Option.map_some]
          rw [ih (h.lastAssignment?_mem hn hid hg hf hl)]
    | name name => exact h.typeOfName_detach hn hid name
    | newObject classRef arguments =>
      exact h.typeOfNew_detach hn (h.mem_descendants_of_slot hn hid hp List.mem_cons_self)
    | literal form value => cases form <;> rfl
    | assign target value byRef => exact hs (List.mem_cons_of_mem _ List.mem_cons_self)
    | conditional condition whenTrue whenFalse =>
      have hchosen : (a.detach n).typeWithin depth (whenTrue.map (a.descendants n).idxOf <|>
          condition.map (a.descendants n).idxOf) = a.typeWithin depth (whenTrue <|> condition) := by
        cases whenTrue with
        | none => exact hs List.mem_cons_self
        | some e => exact hs (List.mem_cons_of_mem _ List.mem_cons_self)
      dsimp only [Option.map_some, Payload.map]
      rw [hchosen, hs (e := whenFalse) (by simp [Payload.slots])]
    | binary left operator right =>
      dsimp only [Option.map_some, Payload.map]
      rw [hs List.mem_cons_self, hs (List.mem_cons_of_mem _ List.mem_cons_self)]
    | unary operator operand before =>
      dsimp only [Option.map_some, Payload.map]
      rw [hs List.mem_cons_self]
    | _ => rfl

end Within

/-! ## Functions without classes -/

variable {root f : NodeId} {form : FunctionForm} {d : FunctionDecl (Option NodeId)}

/-- Without a class-like between, the function around a node of a function is the function or one in
it. -/
theorem DecoratedTree.functionsWithin (h : a.DecoratedTree root) (hf : a.Reaches root f)
    (hp : a.payload? f = some (.function form d))
    (hclass : ∀ x, a.Reaches f x → a.isClassLike x = false) : a.FunctionsWithin f := by
  have hpath (x : NodeId) (hx : a.Reaches f x) :
      ∃ g, a.Reaches f g ∧ a.functionOn? (a.path x) = some g := by
    induction hx with
    | refl =>
      refine ⟨f, .refl, ?_⟩
      obtain ⟨rest, hrest⟩ := List.head?_eq_some_iff.mp (head?_path (h.lt_size hf))
      rw [hrest, functionOn?_cons, hclass f .refl, isFunction_of_payload? hp]
      rfl
    | @tail y x hy hx ih =>
      have hreach := hy.tail hx
      rw [h.forest.path_of_child hx, functionOn?_cons, hclass x hreach]
      cases a.isFunction x with
      | true => exact ⟨x, hreach, rfl⟩
      | false => exact ih
  intro x hx
  have hr := (h.mem_descendants hf).mp hx
  obtain ⟨g, hg, hon⟩ := hpath x hr
  exact ⟨g, (h.mem_descendants hf).mpr hg, (h.functionOf?_eq (hf.trans hr)).trans hon⟩

end PhpAtlas.Arena

namespace PhpAtlas.Parsed

open Arena Grammar

variable {f x : NodeId} {form : FunctionForm} {d : FunctionDecl (Option NodeId)}

/-- Types are read off a function or a method without class-likes in its body as off the whole file:
in the tree that is detached there, every node has the type that it has in its place. -/
theorem typeOf_detach_ofSource (source : List Char)
    (hf : f ∈ (ofSource source).decorated.arena.descendants (ofSource source).root)
    (hd : (ofSource source).decorated.arena.payload? f = some (.function form d))
    (hbody : ∀ i ∈ d.body, ∀ j ∈ (ofSource source).decorated.arena.descendants i,
      (ofSource source).decorated.arena.isClassLike j = false)
    (hx : x ∈ (ofSource source).decorated.arena.descendants f) :
    ((ofSource source).decorated.arena.detach f).typeOf
        (some (((ofSource source).decorated.arena.descendants f).idxOf x)) =
      (ofSource source).decorated.arena.typeOf (some x) := by
  have tree := decoratedTree_ofSource source
  have hnodes : (ofSource source).decorated.arena.nodes = (ofSource source).arena.nodes :=
    (ofSource source).arena.nodes_decorate _
  have hreach := (tree.mem_descendants .refl).mp hf
  have hlt := tree.lt_size hreach
  have hslot : d.body ∈ (Payload.function form d).slots :=
    List.mem_cons_of_mem _ (List.mem_append_right _ (List.mem_singleton_self _))
  have hin := tree.forest.mem_descendants_of_slot hlt (tree.forest.root_mem_descendants hlt) hd hslot
  have hclass := ((headersPlain_ofSource source).congr hnodes).isClassLike_eq_false hd
    fun i hi j hij =>
      have his := tree.forest.lt_of_mem_descendants hlt (hin i hi)
      hbody i hi j ((tree.forest.mem_descendants his).mpr hij)
  have hw := tree.functionsWithin hreach hd hclass
  exact tree.forest.typeWithin_detach hlt hw (e := some x) fun y hy => by
    cases hy
    exact hx

/-- A source with a method that returns what it has assigned from its parameter. -/
def assigningMethod : List Char :=
  "<?php class A { function f(B $b) { $x = $b; return $x; } }".toList

/-- The type goes from the use of a variable through its assignment to a parameter. -/
theorem typeOf_detach_assigningMethod :
    ∃ a, a = (ofSource assigningMethod).decorated.arena ∧ a.kind? 10 = some .methodDeclaration ∧
      (a.descendants 10).idxOf 7 = 9 ∧ a.typeOf (some 7) = .ofClass "B" ∧
      (a.detach 10).typeOf (some 9) = .ofClass "B" := by
  have hevaluated : let p := ofSource assigningMethod
      10 ∈ p.decorated.arena.descendants p.root ∧
      7 ∈ p.decorated.arena.descendants 10 ∧
      (p.decorated.arena.descendants 10).idxOf 7 = 9 ∧
      p.decorated.arena.typeOf (some 7) = .ofClass "B" ∧
      (∀ j ∈ p.decorated.arena.descendants 9, p.decorated.arena.isClassLike j = false) ∧
      p.decorated.arena.kind? 10 = some .methodDeclaration ∧
      (p.decorated.arena.payload? 10).any
        (fun payload => payload.isFunction && payload.slots.getLast? == some (some 9)) = true := by
    decide +kernel
  obtain ⟨hf, hx, hplace, htype, hplain, hkind, hbody⟩ := hevaluated
  refine ⟨_, rfl, hkind, hplace, htype, ?_⟩
  obtain ⟨payload, hd, hb⟩ := (Option.any_eq_true _ _).mp hbody
  cases payload with
  | function form d =>
    have hlast : ((d.name :: d.parameters) ++ [d.body]).getLast? = some (some 9) := eq_of_beq hb
    rw [List.getLast?_concat] at hlast
    rw [← hplace, ← htype]
    apply typeOf_detach_ofSource assigningMethod hf hd _ hx
    rw [Option.some.inj hlast]
    rintro _ ⟨⟩
    exact hplain
  | _ => cases hb

end PhpAtlas.Parsed
