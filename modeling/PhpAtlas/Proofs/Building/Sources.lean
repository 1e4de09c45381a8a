import PhpAtlas.Proofs.Building.Statements
import PhpAtlas.Proofs.Tree.Placed

/-! # The tree of a source

The arena that a source is read into is a forest in postorder, whatever is wrong
with the source, and the node of the source is a root of it. A rule hands each
node that it finishes to one parent, gives it as its result, or drops it.
-/

namespace PhpAtlas

namespace Grammar

open Item

/-- The arena is a forest, and names in it are bare. -/
structure Sound (s : State) : Prop where
  forest : s.arena.Forest
  nodes : ∀ i n, s.arena.node? i = some n → n.payload.Bare

/-- The nodes in a list of items. -/
abbrev nodesOf (items : List Item) : List NodeId := items.filterMap Item.id?

theorem nodesOf_append (xs ys : List Item) : nodesOf (xs ++ ys) = nodesOf xs ++ nodesOf ys :=
  List.filterMap_append

theorem nodesOf_many (parts : List (Option NodeId)) : nodesOf (many parts) = idsOf parts := by
  rw [nodesOf, List.filterMap_map]
  rfl

variable {s : State} {xs ys zs : List Item} {c d : State × List Item}

theorem nodesOf_same (h : nodesOf ys = nodesOf zs) :
    (nodesOf (xs ++ ys)).Sublist (nodesOf (xs ++ zs)) := by
  rw [nodesOf_append, nodesOf_append, h]

theorem nodesOf_concat {x : Item} (h : x.id? = none) :
    (nodesOf (xs ++ [x])).Sublist (nodesOf xs) := by
  have hx : nodesOf [x] = [] := List.filterMap_cons_none h
  rw [nodesOf_append, hx, List.append_nil]

/-- All that a step does to the arena and to the nodes in hand: it lets go of some of them, or makes
the last ones the children of a new node. -/
theorem Work.arena_cases (hw : Work c d) :
    (d.1.arena = c.1.arena ∧ (nodesOf d.2).Sublist (nodesOf c.2)) ∨
      ∃ payload start stop ids, payload.Bare ∧ nodesOf c.2 = ids ++ Arena.childrenOf payload ∧
        d.1.arena = c.1.arena.added payload start stop ∧ nodesOf d.2 = ids ++ [c.1.arena.size] := by
  cases hw with
  | advance h => cases h; exact .inl ⟨rfl, .refl _⟩
  | report h =>
    obtain ⟨_, _, rfl⟩ := exists_of_report h
    exact .inl ⟨rfl, nodesOf_concat rfl⟩
  | takeDoc h => cases h; exact .inl ⟨rfl, .refl _⟩
  | depth => exact .inl ⟨rfl, .refl _⟩
  | drop h => exact .inl ⟨rfl, h.filterMap _⟩
  | note => exact .inl ⟨rfl, nodesOf_concat rfl⟩
  | begin _ h => cases h; exact .inl ⟨rfl, nodesOf_same rfl⟩
  | first => exact .inl ⟨rfl, nodesOf_same rfl⟩
  | forget => exact .inl ⟨rfl, nodesOf_same rfl⟩
  | @finish s s' xs pos parts payload i hb hchildren _ h =>
    cases h
    refine .inr ⟨payload, pos, max s.readTo pos, nodesOf xs, hb, ?_, rfl, nodesOf_append ..⟩
    rw [hchildren, ← nodesOf_many, nodesOf_append]
    rfl

/-- The nodes in hand are loose. -/
def Tidy (c : State × List Item) : Prop := Sound c.1 ∧ c.1.arena.Loose (nodesOf c.2)

theorem Work.tidy (hw : Work c d) (hc : Tidy c) : Tidy d := by
  obtain ⟨⟨hf, hn⟩, hl⟩ := hc
  rcases hw.arena_cases with ⟨ha, hs⟩ | ⟨payload, start, stop, ids, hb, hin, ha, hout⟩
  · exact ⟨⟨ha ▸ hf, ha ▸ hn⟩, ha ▸ hl.sublist hs⟩
  · rw [hin] at hl
    have hforest : (c.1.arena.added payload start stop).Forest :=
      hf.add (hl.sublist (List.sublist_append_right ..))
    exact ⟨⟨ha ▸ hforest, ha ▸ Arena.payload_added hn hb⟩, ha ▸ hout ▸ hl.add⟩

theorem tidy_atFirst (source : List Char) : Tidy (.atFirst source, []) :=
  ⟨⟨Arena.forest_empty, fun _ _ hn => by cases hn⟩, .nil⟩

end Grammar

open Grammar

theorem Parsed.sound_ofSource (source : List Char) : ∃ s root,
    Sound s ∧ s.arena.Loose [root] ∧ ofSource source = ⟨s.arena, root, s.diagnostics.toList⟩ := by
  obtain ⟨statements, s, hw, -, he⟩ := works_ofSource source
  obtain ⟨hs, hl⟩ := hw.preserves (fun _ _ => Work.tidy) (tidy_atFirst source)
  have hl' : s.arena.Loose ([] ++ Arena.childrenOf (.sourceFile statements)) := by
    rwa [nodesOf_many] at hl
  refine ⟨{ s with arena := s.arena.added (.sourceFile statements) 0 s.stream.current.stop }, _, ?_,
    hl'.add, he⟩
  exact ⟨hs.forest.add hl', Arena.payload_added hs.nodes trivial⟩

/-- The nodes are a forest in the order in which they were finished, and a walk from the root visits
what is under the root, parents first. -/
structure Arena.InPostorder (a : Arena) (root : NodeId) : Prop where
  placements : a.placements.size = a.nodes.size
  ordered : ∀ i, (a.children i).Pairwise (· < ·)
  child : ∀ i, ∀ c ∈ a.children i, c < i ∧ c < a.size ∧ a.parent? c = some i
  parent : ∀ c p, a.parent? c = some p → c ∈ a.children p
  unique : ∀ i j c, c ∈ a.children i → c ∈ a.children j → i = j
  nodup : ∀ i, (a.children i).Nodup
  root_lt : root < a.size
  root_parent : a.parent? root = none
  array : ∀ i entries, a.payload? i = some (.array entries) →
    (entries.map Prod.fst).length = (entries.map Prod.snd).length
  walk : ∀ j, j ∈ a.descendants root ↔ a.Reaches root j
  once : (a.descendants root).Nodup
  parents_first : (a.descendants root).Pairwise fun x y => x ∉ a.children y

theorem Arena.Forest.inPostorder {a : Arena} (h : a.Forest) {root : NodeId} (hr : root < a.size)
    (hp : a.parent? root = none) : a.InPostorder root where
  placements := h.placements
  ordered := h.ordered
  child i c hc := ⟨h.before i c hc, h.lt_size_of_child hc, (h.parent c i).mpr hc⟩
  parent c p := (h.parent c p).mp
  unique _ _ _ := h.parent_unique
  nodup i := (h.ordered i).imp Nat.ne_of_lt
  root_lt := hr
  root_parent := hp
  array i entries _ := by rw [List.length_map, List.length_map]
  walk j := by
    rw [h.descendants_eq]
    exact h.mem_treeOrder hr
  once := by
    rw [h.descendants_eq]
    exact h.nodup_treeOrder hr
  parents_first := by
    rw [h.descendants_eq]
    exact h.pairwise_treeOrder hr

/-- The tree of a source is in postorder, whatever is wrong with the source, and stays so when it is
decorated. -/
theorem Parsed.ofSource_in_postorder (source : List Char) :
    (ofSource source).arena.InPostorder (ofSource source).root ∧
      (ofSource source).decorated.arena.InPostorder (ofSource source).root := by
  obtain ⟨s, root, hs, hl, he⟩ := sound_ofSource source
  rw [he]
  have hlt : root < s.arena.size := hl.lt root List.mem_cons_self
  have hp : s.arena.parent? root = none := hl.parentless root List.mem_cons_self
  constructor
  · exact hs.forest.inPostorder hlt hp
  · have hn : (s.arena.decorate (some root)).nodes = s.arena.nodes := s.arena.nodes_decorate root
    apply (hs.forest.decorate root).inPostorder
    · rwa [Arena.size, hn]
    · rwa [Arena.parent?_congr hn]

end PhpAtlas
