import PhpAtlas.Proofs.Building.Spans
import PhpAtlas.Proofs.Token.Overrun

/-! # Positions in the source

Nodes start and end where tokens do, and a report covers a token. So all positions lie
in the source if the ends of its tokens do.
-/

namespace PhpAtlas

open String (utf8Len)

namespace Grammar

variable {s s' : State} {xs ys zs : List Item} {c d : State × List Item} {n : Nat}

/-- The item has no place beyond the offset. -/
def Item.UpTo (n : Nat) : Item → Prop
  | mark pos | begun pos => pos ≤ n
  | slot _ => True

/-- No token, node or report goes beyond the offset, nor does anything that is in hand. -/
structure UpTo (n : Nat) (c : State × List Item) : Prop where
  tokens : ∀ t ∈ c.1.stream.tokens, t.start ≤ t.stop ∧ t.stop ≤ n
  read : c.1.readTo ≤ n
  items : ∀ x ∈ c.2, x.UpTo n
  nodes : ∀ i s, c.1.arena.span? i = some s → s.stop ≤ n
  reports : ∀ d ∈ c.1.diagnostics, d.start + d.length ≤ n

namespace UpTo

theorem current (h : UpTo n (s, xs)) :
    s.stream.current.start ≤ s.stream.current.stop ∧ s.stream.current.stop ≤ n :=
  h.tokens _ List.mem_cons_self

theorem advance (h : UpTo n (s, xs)) (ha : advance.run s = some ((), s')) : UpTo n (s', xs) := by
  have hread := h.current.2
  cases ha
  exact
    { h with
      tokens := fun t ht => h.tokens t ((TokenStream.tokens_next_suffix _).subset ht)
      read := hread }

theorem report {fault : SyntaxFault} (h : UpTo n (s, xs))
    (hr : (report fault).run s = some ((), s')) : UpTo n (s', xs) := by
  obtain ⟨hle, hstop⟩ := h.current
  cases hr
  dsimp only
  split
  · exact h
  · refine { h with reports := fun d hd => ?_ }
    rcases Array.mem_push.mp hd with hd | rfl
    · exact h.reports d hd
    · exact (Nat.add_sub_of_le hle).trans_le hstop

/-- Items can give way to others that do not go further. -/
theorem swap (h : UpTo n (s, xs ++ ys)) (hz : (∀ y ∈ ys, y.UpTo n) → ∀ z ∈ zs, z.UpTo n) :
    UpTo n (s, xs ++ zs) :=
  have ⟨hxs, hys⟩ := List.forall_mem_append.mp h.items
  { h with items := List.forall_mem_append.mpr ⟨hxs, hz hys⟩ }

theorem items_append (h : UpTo n (s, xs)) (hy : ∀ y ∈ ys, y.UpTo n) : UpTo n (s, xs ++ ys) :=
  { h with items := List.forall_mem_append.mpr ⟨h.items, hy⟩ }

end UpTo

theorem Work.upTo (hw : Work c d) (h : UpTo n c) : UpTo n d := by
  cases hw with
  | advance ha => exact h.advance ha
  | report hr => exact (h.report hr).items_append (List.forall_mem_singleton.mpr trivial)
  | takeDoc ht =>
    cases ht
    exact { h with }
  | depth => exact { h with }
  | drop hs => exact { h with items := fun x hx => h.items x (hs.subset hx) }
  | note =>
    exact h.items_append (List.forall_mem_singleton.mpr (h.current.1.trans h.current.2))
  | @begin s s' xs pos _ ha =>
    refine (h.advance ha).swap fun hy => List.forall_mem_singleton.mpr ?_
    exact hy (.mark pos) List.mem_cons_self
  | @first s xs pos i =>
    refine h.swap fun hy => List.forall_mem_cons.mpr ⟨?_, List.forall_mem_singleton.mpr trivial⟩
    exact hy (.mark pos) List.mem_cons_self
  | @forget s xs pos =>
    refine h.swap fun hy => List.forall_mem_singleton.mpr ?_
    exact hy (.begun pos) List.mem_cons_self
  | @finish s s' xs pos parts payload i _ _ _ hnode =>
    have hpos : pos ≤ n := h.items (.begun pos) (by simp)
    have hitems : ∀ z ∈ [Item.begun pos, .slot (some i), .begun pos], z.UpTo n := by
      simp [Item.UpTo, hpos]
    cases hnode
    refine { h.swap fun _ => hitems with nodes := fun j t ht => ?_ }
    have ht : (s.arena.added payload pos (max s.readTo pos)).span? j = some t := ht
    rw [Arena.span?_added] at ht
    split at ht
    · obtain rfl := Option.some.inj ht
      exact max_le h.read hpos
    · exact h.nodes j t ht

theorem upTo_atFirst {source : List Char} (h : ∀ t ∈ Token.ofSource source, t.stop ≤ n) :
    UpTo n (.atFirst source, []) where
  tokens t ht := by
    rw [tokens_atFirst] at ht
    exact ⟨((Token.scans_ofSource source).laid.filled t ht).start_le_stop, h t ht⟩
  read := Nat.zero_le n
  items := nofun
  nodes i s hi := absurd (Arena.lt_size_of_span? hi) (Nat.not_lt_zero i)
  reports := nofun

end Grammar

open Grammar

/-- All positions that are reported of the source: the ends of tokens, nodes and diagnostics. -/
structure Parsed.UpTo (source : List Char) (n : Nat) : Prop where
  tokens : ∀ t ∈ Token.ofSource source, t.stop ≤ n
  nodes : ∀ i node, (ofSource source).arena.node? i = some node → node.stop ≤ n
  diagnostics : ∀ d ∈ (ofSource source).diagnostics, d.start + d.length ≤ n

theorem Parsed.upTo_of_tokens {source : List Char} {n : Nat}
    (h : ∀ t ∈ Token.ofSource source, t.stop ≤ n) : UpTo source n := by
  obtain ⟨statements, s, hw, -, he⟩ := works_ofSource source
  have hs : Grammar.UpTo n (s, Item.many statements) :=
    hw.preserves (fun _ _ => Work.upTo) (upTo_atFirst h)
  refine ⟨h, fun i node hi => ?_, fun d hd => ?_⟩
  · rw [he] at hi
    have hspan : (s.arena.added (.sourceFile statements) 0 s.stream.current.stop).span? i =
        some node.span := by rw [Arena.span?, hi]; rfl
    rw [Arena.span?_added] at hspan
    split at hspan
    · exact (congrArg Span.stop (Option.some.inj hspan)).ge.trans hs.current.2
    · exact hs.nodes i _ hspan
  · rw [he] at hd
    exact hs.reports d (Array.mem_toList_iff.mp hd)

/-- No position goes further than one byte past the end of the source. All positions lie in the
source, unless the source ends with a backslash in a string in double quotes that is not closed, or
in such a quoted text of an attribute group. -/
theorem Parsed.upTo_iff (source : List Char) : UpTo source (utf8Len source + 1) ∧
    (UpTo source (utf8Len source) ↔ ¬Token.Dangling source) :=
  have ⟨hle, hiff⟩ := Token.stop_le source
  ⟨upTo_of_tokens hle, fun h => hiff.mp h.tokens, fun h => upTo_of_tokens (hiff.mpr h)⟩

theorem Parsed.not_upTo_of_open_string :
    ¬UpTo "<?php \"\\".toList (utf8Len "<?php \"\\".toList) := by
  intro h
  have hs : ¬∀ t ∈ Token.ofSource "<?php \"\\".toList, t.stop ≤ utf8Len "<?php \"\\".toList := by
    decide +kernel
  exact hs h.tokens

end PhpAtlas
