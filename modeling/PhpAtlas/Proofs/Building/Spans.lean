import PhpAtlas.Proofs.Building.Statements
import PhpAtlas.Proofs.Token.Places

/-! # Spans of nodes

Every node covers some of the text, children lie in the spans of their parents
and follow each other, whatever is wrong with the source. What a rule has in
its hands starts in the order in which it was taken up, and a node is
finished only after a token or a part that starts no earlier than the node.
-/

namespace PhpAtlas

namespace Arena

variable {a : Arena} {payload : Payload (Option NodeId)} {start stop : Nat} {i j : NodeId}
variable {s : Span}

def span? (a : Arena) (i : NodeId) : Option Span := (a.node? i).map Node.span

theorem lt_size_of_span? (h : a.span? i = some s) : i < a.size := by
  by_contra hi
  rw [span?, node?_eq_none_iff.mpr (not_lt.mp hi)] at h
  cases h

theorem span?_added : (a.added payload start stop).span? i =
    if i = a.size then some ⟨start, stop⟩ else a.span? i := by
  have hspan : (Node.span ∘ fun n => if i ∈ childrenOf payload then { n with parent := some a.size }
      else n) = Node.span := by
    ext n
    rw [Function.comp_apply]
    split
    · rfl
    · rfl
  rw [span?, node?_added, Option.map_map, hspan]
  split
  · rfl
  · rfl

theorem span?_added_size : (a.added payload start stop).span? a.size = some ⟨start, stop⟩ := by
  rw [span?_added, if_pos rfl]

theorem span?_added_of_lt (h : i < a.size) : (a.added payload start stop).span? i = a.span? i := by
  rw [span?_added, if_neg (Nat.ne_of_lt h)]

theorem span?_added_of_some (h : a.span? i = some s) :
    (a.added payload start stop).span? i = some s :=
  (span?_added_of_lt (lt_size_of_span? h)).trans h

/-- The one node starts no later than the other, and ends no later. -/
def NotAfter (a : Arena) (i j : NodeId) : Prop :=
  ∀ s t, a.span? i = some s → a.span? j = some t → s.start ≤ t.start ∧ s.stop ≤ t.stop

/-- The node lies between two places. -/
def Between (a : Arena) (start stop : Nat) (i : NodeId) : Prop :=
  ∃ s, a.span? i = some s ∧ start ≤ s.start ∧ s.stop ≤ stop

/-- The children of a node lie in its span, one after another. -/
structure Nested (a : Arena) : Prop where
  within : ∀ i s, a.span? i = some s → ∀ c ∈ a.children i, a.Between s.start s.stop c
  ordered : ∀ i, (a.children i).Pairwise a.NotAfter

theorem Between.added (h : a.Between start stop i) (start' stop' : Nat) :
    (a.added payload start' stop').Between start stop i := by
  obtain ⟨s, hs, hi⟩ := h
  exact ⟨s, span?_added_of_some hs, hi⟩

theorem NotAfter.added (h : a.NotAfter i j) (hi : i < a.size) (hj : j < a.size) :
    (a.added payload start stop).NotAfter i j := by
  intro s t hs ht
  rw [span?_added_of_lt hi] at hs
  rw [span?_added_of_lt hj] at ht
  exact h s t hs ht

theorem nested_empty : Nested {} where
  within i s h := by simp [span?, node?] at h
  ordered i := by simp [children, node?]

theorem Nested.lt_size (h : a.Nested) {c : NodeId} (hc : c ∈ a.children i) : c < a.size := by
  obtain ⟨n, hn⟩ := exists_node? (lt_size_of_mem_children hc)
  obtain ⟨s, hs, -⟩ := h.within i n.span (by rw [span?, hn]; rfl) c hc
  exact lt_size_of_span? hs

theorem Nested.add (h : a.Nested) (hw : ∀ c ∈ childrenOf payload, a.Between start stop c)
    (ho : (childrenOf payload).Pairwise a.NotAfter) : (a.added payload start stop).Nested where
  within i s hs c hc := by
    rw [children_added] at hc
    split at hc
    · next hi =>
      rw [span?_added, if_pos hi] at hs
      obtain rfl := Option.some.inj hs
      exact (hw c hc).added _ _
    · next hi =>
      rw [span?_added, if_neg hi] at hs
      exact (h.within i s hs c hc).added _ _
  ordered i := by
    have hlt : ∀ c ∈ childrenOf payload, c < a.size := fun c hc =>
      let ⟨_, hs, _⟩ := hw c hc
      lt_size_of_span? hs
    rw [children_added]
    split
    · exact ho.imp_of_mem fun hc hd hcd => hcd.added (hlt _ hc) (hlt _ hd)
    · exact (h.ordered i).imp_of_mem fun hc hd hcd => hcd.added (h.lt_size hc) (h.lt_size hd)

end Arena

namespace TokenStream

/-- The next token starts where the current one ends, or after that. -/
theorem stop_le_start_next {s : TokenStream} (hc : Token.Closed s.tokens)
    (hl : Token.Laid s.tokens) : s.current.stop ≤ s.next.current.start := by
  unfold next
  cases ha : s.ahead with
  | nil =>
    have hk : s.current.kind = .endOfFile := by
      rw [tokens, ha] at hc
      exact hc
    have hf := hl.filled _ List.mem_cons_self
    rw [Token.Filled, if_pos hk] at hf
    exact hf.le
  | cons t ts =>
    have ho := hl.ordered
    rw [tokens, ha] at ho
    exact (List.pairwise_cons.mp ho).1 t List.mem_cons_self

end TokenStream

namespace Grammar

open Item

/-! ## Places in hand -/

/-- The tokens ahead stand one after another behind what has been read. -/
structure State.Aligned (s : State) : Prop where
  closed : Token.Closed s.stream.tokens
  laid : Token.Laid s.stream.tokens
  read : s.readTo ≤ s.stream.current.start

/-- A place is before the current token, and what has been read of a construct is not empty. -/
def Item.Within (s : State) : Item → Prop
  | mark pos => pos ≤ s.stream.current.start
  | begun pos => pos < s.readTo
  | slot none => True
  | slot (some i) => ∃ n, s.arena.span? i = some n ∧ n.start < n.stop ∧ n.stop ≤ s.readTo

/-- Where the item starts. -/
def Item.start? (a : Arena) : Item → Option Nat
  | mark pos | begun pos => some pos
  | slot part => part.bind fun i => (a.span? i).map Span.start

/-- Where the node that is in a slot ends. -/
def Item.stop? (a : Arena) : Item → Option Nat
  | slot part => part.bind fun i => (a.span? i).map Span.stop
  | _ => none

/-- The one item starts no later than the other, and stops no later. -/
structure Item.Before (a : Arena) (x y : Item) : Prop where
  start : ∀ p q, x.start? a = some p → y.start? a = some q → p ≤ q
  stop : ∀ p q, x.stop? a = some p → y.stop? a = some q → p ≤ q

/-- What holds of spans while rules run. -/
structure Spanned (c : State × List Item) : Prop where
  aligned : c.1.Aligned
  within : ∀ x ∈ c.2, x.Within c.1
  ordered : c.2.Pairwise (Item.Before c.1.arena)
  filled : ∀ i s, c.1.arena.span? i = some s → s.start < s.stop
  nested : c.1.arena.Nested

variable {s s' : State} {xs ys : List Item} {x y : Item} {c d : State × List Item}
variable {a : Arena} {pos stop : Nat} {payload : Payload (Option NodeId)}
variable {parts : List (Option NodeId)} {i : NodeId}

namespace State.Aligned

theorem stop_le (h : s.Aligned) : s.stream.current.stop ≤ s.stream.next.current.start :=
  TokenStream.stop_le_start_next h.closed h.laid

theorem filled (h : s.Aligned) : s.stream.current.Filled := h.laid.filled _ List.mem_cons_self

theorem advance (h : s.Aligned) (ha : advance.run s = some ((), s')) : s'.Aligned := by
  cases ha
  have hs := TokenStream.tokens_next_suffix s.stream
  exact ⟨h.closed.of_suffix hs (List.cons_ne_nil _ _), h.laid.of_suffix hs, h.stop_le⟩

end State.Aligned

namespace Item

theorem Within.mono (h : x.Within s) (hr : s.readTo ≤ s'.readTo)
    (hp : s.stream.current.start ≤ s'.stream.current.start)
    (ha : ∀ i n, s.arena.span? i = some n → s'.arena.span? i = some n) : x.Within s' := by
  cases x with
  | mark pos => exact h.trans hp
  | begun pos => exact h.trans_le hr
  | slot part =>
    cases part with
    | none => trivial
    | some i =>
      obtain ⟨n, hn, hlt, hle⟩ := h
      exact ⟨n, ha i n hn, hlt, hle.trans hr⟩

theorem Within.start_le (h : x.Within s) (hs : s.Aligned) {p : Nat}
    (hp : x.start? s.arena = some p) : p ≤ s.stream.current.start := by
  cases x with
  | mark pos =>
    cases hp
    exact h
  | begun pos =>
    cases hp
    exact h.le.trans hs.read
  | slot part =>
    cases part with
    | none => cases hp
    | some i =>
      obtain ⟨n, hn, hlt, hle⟩ := h
      simp only [start?, Option.bind_some, hn, Option.map_some, Option.some.injEq] at hp
      exact hp ▸ hlt.le.trans (hle.trans hs.read)

theorem Within.stop_le (h : x.Within s) {p : Nat} (hp : x.stop? s.arena = some p) :
    p ≤ s.readTo := by
  cases x with
  | mark | begun => cases hp
  | slot part =>
    cases part with
    | none => cases hp
    | some i =>
      obtain ⟨n, hn, -, hle⟩ := h
      simp only [stop?, Option.bind_some, hn, Option.map_some, Option.some.injEq] at hp
      exact hp ▸ hle

/-- A new node does not move what is in the hands. -/
theorem Within.added (h : x.Within s) :
    x.start? (s.arena.added payload pos stop) = x.start? s.arena ∧
      x.stop? (s.arena.added payload pos stop) = x.stop? s.arena := by
  cases x with
  | mark | begun => exact ⟨rfl, rfl⟩
  | slot part =>
    cases part with
    | none => exact ⟨rfl, rfl⟩
    | some i =>
      obtain ⟨n, hn, -⟩ := h
      simp only [start?, stop?, Option.bind_some, hn, Arena.span?_added_of_some hn, and_self]

theorem Before.added (h : x.Before s.arena y) (hx : x.Within s) (hy : y.Within s) :
    x.Before (s.arena.added payload pos stop) y := by
  constructor
  · rw [hx.added.1, hy.added.1]
    exact h.start
  · rw [hx.added.2, hy.added.2]
    exact h.stop

/-- What is in the hands is before whatever is taken up at the current token. -/
theorem Within.before_note (h : x.Within s) (hs : s.Aligned) :
    x.Before s.arena (mark s.stream.current.start) := by
  constructor
  · rintro p q hp ⟨⟩
    exact h.start_le hs hp
  · rintro p q hp ⟨⟩

theorem before_slot_none : x.Before a (slot none) := by
  constructor
  · rintro p q hp ⟨⟩
  · rintro p q hp ⟨⟩

end Item

theorem idsOf_before (h : (many parts).Pairwise (Item.Before a)) :
    (idsOf parts).Pairwise a.NotAfter := by
  rw [List.pairwise_map] at h
  rw [List.pairwise_filterMap]
  apply h.imp
  rintro _ _ hb i rfl j rfl s t hs ht
  exact ⟨hb.start _ _ (by simp [start?, hs]) (by simp [start?, ht]),
    hb.stop _ _ (by simp [stop?, hs]) (by simp [stop?, ht])⟩

/-! ## Steps -/

namespace Spanned

/-- The state may move on over the same nodes. -/
theorem moved (h : Spanned (s, xs)) (hs : s'.Aligned) (hr : s.readTo ≤ s'.readTo)
    (hp : s.stream.current.start ≤ s'.stream.current.start) (ha : s'.arena = s.arena) :
    Spanned (s', xs) where
  aligned := hs
  within x hx := (h.within x hx).mono hr hp fun i n hi => ha ▸ hi
  ordered := by
    rw [ha]
    exact h.ordered
  filled := by
    rw [ha]
    exact h.filled
  nested := by
    rw [ha]
    exact h.nested

/-- It may be another one at the same place. -/
theorem unmoved (h : Spanned (s, xs)) (ht : s'.stream.tokens = s.stream.tokens)
    (hr : s'.readTo = s.readTo) (ha : s'.arena = s.arena) : Spanned (s', xs) := by
  have hp : s'.stream.current = s.stream.current := (List.cons.inj ht).1
  have hs := h.aligned
  apply h.moved ⟨ht ▸ hs.closed, ht ▸ hs.laid, ?_⟩ hr.ge (congrArg Token.start hp).ge ha
  rw [hr, hp]
  exact hs.read

theorem advance (h : Spanned (s, xs)) (ha : advance.run s = some ((), s')) : Spanned (s', xs) := by
  have hs := h.aligned.advance ha
  have hf := h.aligned.filled.start_le_stop
  cases ha
  exact h.moved hs (h.aligned.read.trans hf) (hf.trans h.aligned.stop_le) rfl

theorem sublist (h : Spanned (s, xs)) (hs : ys.Sublist xs) : Spanned (s, ys) :=
  { h with
    within := fun x hx => h.within x (hs.subset hx)
    ordered := h.ordered.sublist hs }

theorem before (h : Spanned (s, xs ++ x :: ys)) (hy : y ∈ ys) : x.Before s.arena y :=
  (List.pairwise_cons.mp (List.pairwise_append.mp h.ordered).2.1).1 y hy

theorem concat (h : Spanned (s, xs)) (hx : x.Within s) (hb : ∀ y ∈ xs, y.Before s.arena x) :
    Spanned (s, xs ++ [x]) :=
  { h with
    within := by
      intro y hy
      rcases List.mem_append.mp hy with hy | hy
      · exact h.within y hy
      · exact List.mem_singleton.mp hy ▸ hx
    ordered := by
      apply List.pairwise_append.mpr
      refine ⟨h.ordered, List.pairwise_singleton _ _, fun y hy z hz => ?_⟩
      exact List.mem_singleton.mp hz ▸ hb y hy }

/-- An item may start where the last one does, if it does not stop before what has been read. -/
theorem again (h : Spanned (s, xs ++ [x])) (hy : y.Within s)
    (hs : y.start? s.arena = x.start? s.arena)
    (ht : ∀ q, y.stop? s.arena = some q → s.readTo ≤ q) : Spanned (s, xs ++ [x] ++ [y]) := by
  have hlast : ∀ z ∈ xs, z.Before s.arena x := fun z hz =>
    (List.pairwise_append.mp h.ordered).2.2 z hz x List.mem_cons_self
  apply h.concat hy
  intro z hz
  constructor
  · intro p q hp hq
    rcases List.mem_append.mp hz with hz | hz
    · exact (hlast z hz).start p q hp (hs ▸ hq)
    · rw [List.mem_singleton.mp hz, ← hs, hq] at hp
      exact (Option.some.inj hp).ge
  · intro p q hp hq
    exact ((h.within z hz).stop_le hp).trans (ht q hq)

/-- An item gives way to one at the same place. -/
theorem swap {z : Item} (h : Spanned (s, xs ++ x :: ys)) (hz : z.Within s)
    (h₁ : z.start? s.arena = x.start? s.arena) (h₂ : z.stop? s.arena = x.stop? s.arena) :
    Spanned (s, xs ++ z :: ys) :=
  { h with
    within := by
      intro y hy
      rcases List.mem_append.mp hy with hy | hy
      · exact h.within y (List.mem_append_left _ hy)
      · rcases List.mem_cons.mp hy with rfl | hy
        · exact hz
        · exact h.within y (List.mem_append_right _ (List.mem_cons_of_mem _ hy))
    ordered := by
      have ho := h.ordered
      simp only [List.pairwise_append, List.pairwise_cons, List.forall_mem_cons] at ho ⊢
      obtain ⟨hxs, ⟨hx, hys⟩, hxys⟩ := ho
      refine ⟨hxs, ⟨fun y hy => ?_, hys⟩, fun y hy => ⟨?_, (hxys y hy).2⟩⟩
      · exact ⟨h₁ ▸ (hx y hy).start, h₂ ▸ (hx y hy).stop⟩
      · exact ⟨h₁ ▸ (hxys y hy).1.start, h₂ ▸ (hxys y hy).1.stop⟩ }

theorem span_of_mem (h : Spanned (s, xs)) (hs : many parts <:+ xs) (hi : i ∈ idsOf parts) :
    slot (some i) ∈ many parts ∧ ∃ n, s.arena.span? i = some n ∧ n.stop ≤ s.readTo := by
  obtain ⟨part, hpart, rfl⟩ := List.mem_filterMap.mp hi
  have hm : slot (some i) ∈ many parts := List.mem_map_of_mem hpart
  obtain ⟨n, hn, -, hle⟩ := h.within _ (hs.subset hm)
  exact ⟨hm, n, hn, hle⟩

/-- A construct contains its parts, which stand after its start. -/
theorem between (h : Spanned (s, xs ++ begun pos :: many parts)) :
    ∀ c ∈ idsOf parts, s.arena.Between pos s.readTo c := by
  intro c hc
  obtain ⟨hm, n, hn, hle⟩ := h.span_of_mem many_suffix hc
  exact ⟨n, hn, (h.before hm).start pos n.start rfl (by simp [start?, hn]), hle⟩

/-- A node that spans what has been read of the construct contains its parts. -/
theorem add (h : Spanned (s, xs ++ begun pos :: many parts))
    (hc : Arena.childrenOf payload = idsOf parts) :
    Spanned ({ s with arena := s.arena.added payload pos s.readTo }, xs ++ [begun pos]) := by
  have hpos : pos < s.readTo := h.within (begun pos) (by simp)
  have hxs : Spanned (s, xs ++ [begun pos]) :=
    h.sublist (.append_left (List.Sublist.cons_cons _ (List.nil_sublist _)) xs)
  exact
    { aligned := ⟨h.aligned.closed, h.aligned.laid, h.aligned.read⟩
      within := fun x hx =>
        (hxs.within x hx).mono le_rfl le_rfl fun _ _ => Arena.span?_added_of_some
      ordered := hxs.ordered.imp_of_mem fun hx hy hb => hb.added (hxs.within _ hx) (hxs.within _ hy)
      filled := by
        intro i t ht
        rw [Arena.span?_added] at ht
        split at ht
        · obtain rfl := Option.some.inj ht
          exact hpos
        · exact h.filled i t ht
      nested := by
        apply h.nested.add
        · rw [hc]
          exact h.between
        · rw [hc]
          exact idsOf_before (h.ordered.sublist many_suffix.sublist) }

/-- The new node stands where its construct has begun. -/
theorem finish (h : Spanned (s, xs ++ begun pos :: many parts))
    (hc : Arena.childrenOf payload = idsOf parts) :
    Spanned ({ s with arena := s.arena.added payload pos s.readTo },
      xs ++ [begun pos, slot (some s.arena.size), begun pos]) := by
  have hpos : pos < s.readTo := h.within (begun pos) (by simp)
  have hnew : (s.arena.added payload pos s.readTo).span? s.arena.size = some ⟨pos, s.readTo⟩ :=
    Arena.span?_added_size
  have hslot := (h.add hc).again (y := slot (some s.arena.size)) ⟨_, hnew, hpos, le_rfl⟩
    (by simp [start?, hnew]) (by simp [stop?, hnew])
  have hbegun := hslot.again (y := begun pos) hpos (by simp [start?, hnew]) nofun
  simpa using hbegun

end Spanned

theorem Work.spanned (hw : Work c d) (hc : Spanned c) : Spanned d := by
  cases hw with
  | advance h => exact hc.advance h
  | @report s s' xs fault h =>
    have hs : Spanned (s', xs) := by
      obtain ⟨_, _, rfl⟩ := exists_of_report h
      exact hc.unmoved rfl rfl rfl
    exact hs.concat trivial fun _ _ => before_slot_none
  | takeDoc h =>
    cases h
    exact hc.unmoved rfl rfl rfl
  | depth => exact hc.unmoved rfl rfl rfl
  | drop h => exact hc.sublist h
  | note => exact hc.concat (le_refl _) fun x hx => (hc.within x hx).before_note hc.aligned
  | @begin s s' xs pos hk h =>
    have hp : pos ≤ s.stream.current.start := hc.within (mark pos) (by simp)
    have hf := hc.aligned.filled
    rw [Token.Filled, if_neg hk] at hf
    refine (hc.advance h).swap ?_ rfl rfl
    cases h
    exact hp.trans_lt hf
  | @first s xs pos i =>
    obtain ⟨n, hn, hlt, hle⟩ := hc.within (slot (some i)) (by simp)
    have hb := hc.before List.mem_cons_self
    have hp : pos ≤ n.start := hb.start pos n.start rfl (by simp [start?, hn])
    exact hc.swap (hp.trans_lt (hlt.trans_le hle)) rfl rfl
  | @forget s xs pos =>
    have hp : pos < s.readTo := hc.within (begun pos) (by simp)
    exact hc.swap (hp.le.trans hc.aligned.read) rfl rfl
  | @finish s s' xs pos parts payload i _ hchildren _ h =>
    have hp : pos < s.readTo := hc.within (begun pos) (by simp)
    cases h
    show Spanned ({ s with arena := s.arena.added payload pos (max s.readTo pos) }, _)
    rw [Nat.max_eq_left hp.le]
    exact hc.finish hchildren

theorem spanned_atFirst (source : List Char) : Spanned (.atFirst source, []) := by
  have hs := Token.scans_ofSource source
  have ht := tokens_atFirst source
  exact
    { aligned := ⟨ht ▸ hs.closed, ht ▸ hs.laid, Nat.zero_le _⟩
      within := fun x hx => absurd hx List.not_mem_nil
      ordered := .nil
      filled := fun i s hi => absurd (Arena.lt_size_of_span? hi) (Nat.not_lt_zero i)
      nested := Arena.nested_empty }

end Grammar

open Grammar

/-- Spans nest: a node covers some of the text unless it is the root, contains its children, and of
two children the first neither starts nor stops after the second. -/
structure Arena.SpansNest (a : Arena) (root : NodeId) : Prop where
  filled : ∀ i n, a.node? i = some n → n.start < n.stop ∨ i = root
  within : ∀ i n, a.node? i = some n → ∀ c ∈ n.children,
    ∃ m, a.node? c = some m ∧ n.start ≤ m.start ∧ m.stop ≤ n.stop
  ordered : ∀ i n, a.node? i = some n → n.children.Pairwise fun c d =>
    ∀ m k, a.node? c = some m → a.node? d = some k → m.start ≤ k.start ∧ m.stop ≤ k.stop

theorem Arena.Nested.spansNest {a : Arena} {root : NodeId} (h : a.Nested)
    (hf : ∀ i s, a.span? i = some s → s.start < s.stop ∨ i = root) : a.SpansNest root := by
  have hspan : ∀ i n, a.node? i = some n → a.span? i = some n.span := by
    intro i n hn
    rw [span?, hn, Option.map_some]
  constructor
  · exact fun i n hn => hf i n.span (hspan i n hn)
  · intro i n hn c hc
    rw [← children_of_node? hn] at hc
    obtain ⟨s, hs, hle⟩ := h.within i n.span (hspan i n hn) c hc
    obtain ⟨m, hm, rfl⟩ := Option.map_eq_some_iff.mp hs
    exact ⟨m, hm, hle⟩
  · intro i n hn
    rw [← children_of_node? hn]
    exact (h.ordered i).imp fun hcd m k hm hk => hcd m.span k.span (hspan _ m hm) (hspan _ k hk)

/-- The spans of a source nest, and only that of the source itself can be empty. -/
theorem Parsed.nested_ofSource (source : List Char) : (ofSource source).arena.Nested ∧
    ∀ i s, (ofSource source).arena.span? i = some s →
      s.start < s.stop ∨ i = (ofSource source).root := by
  obtain ⟨statements, s, hw, -, he⟩ := works_ofSource source
  have hs : Spanned (s, Item.many statements) :=
    hw.preserves (fun _ _ => Work.spanned) (spanned_atFirst source)
  rw [he]
  constructor
  · apply hs.nested.add
    · intro c hc
      obtain ⟨-, n, hn, hle⟩ := hs.span_of_mem (List.suffix_refl _) hc
      have hread := hs.aligned.read.trans hs.aligned.filled.start_le_stop
      exact ⟨n, hn, Nat.zero_le _, hle.trans hread⟩
    · exact idsOf_before hs.ordered
  · intro i t ht
    rw [Arena.span?_added] at ht
    split at ht
    · next hi => exact .inr hi
    · exact .inl (hs.filled i t ht)

/-- The spans of the nodes of a source nest, whatever is wrong with the source. -/
theorem Parsed.ofSource_spans_nest (source : List Char) :
    (ofSource source).arena.SpansNest (ofSource source).root := by
  obtain ⟨hnested, hfilled⟩ := nested_ofSource source
  exact hnested.spansNest hfilled

end PhpAtlas
