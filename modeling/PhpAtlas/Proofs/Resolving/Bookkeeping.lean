import PhpAtlas.Proofs.Resolving.Entries

/-! # What the counts of a resolver say

The counts are compared with the cache and with the calls of the reader. To see
the calls, resolving is written for a reader that acts in any monad; run with a
reader that keeps a log, it is the resolver and its log is the list of calls.
-/

namespace PhpAtlas

namespace ResolverContext

/-! ## A reader that acts -/

section Acting

variable {m : Type → Type} [Monad m] (r : ResolverContext)

/-- The same as `load`, for a reader that acts. -/
def loadM (read : FilePath → m (Option String)) (file : Option FilePath) (u : Usage) :
    m (Except Absence CodeFile × Usage) :=
  match file with
  | none => pure (.error .nativeSymbol, u)
  | some path => do
      let u := { u with filesRead := u.filesRead + 1 }
      match ← read path with
      | none => pure (.error .unreadableFile, u)
      | some text =>
          let u := { u with filesParsed := u.filesParsed + 1 }
          match r.parse path text with
          | none => pure (.error .unparseableFile, u)
          | some file => pure (.ok file, u)

/-- The same as `compute`. -/
def computeM (read : FilePath → m (Option String)) (file : Option FilePath)
    (find : CodeFile → Except Absence Declaration) (s : ResolverState) :
    m (Outcome × ResolverState) := do
  let (loaded, usage) ← r.loadM read file { s.usage with misses := s.usage.misses + 1 }
  match loaded >>= find with
  | .ok d => pure (.found s.serial d, { s with usage, serial := s.serial + 1 })
  | .error reason => pure (.missing reason, { s with usage })

/-- The same as `fetch`. The reader is told which entry it is called for. -/
def fetchM (read : EntryKey → FilePath → m (Option String)) (w : Wanted) (s : ResolverState) :
    m (Found × ResolverState) :=
  match s.cache.outcome? w.key with
  | some entry => pure (entry.found?, { s with usage := s.usage.countHit entry })
  | none => do
      let (entry, s) ← r.computeM (read w.key) w.file w.find s
      pure (entry.found?, { s with cache := s.cache.insert w.key entry })

/-- The same as `fetch?`. -/
def fetchM? (read : EntryKey → FilePath → m (Option String)) :
    Option Wanted → ResolverState → m (Found × ResolverState)
  | none, s => pure (none, s)
  | some w, s => r.fetchM read w s

end Acting

/-- The calls of a reader, the last one first, each with the entry that it was made for. -/
abbrev ReadLog := List (EntryKey × FilePath)

/-- A reader that keeps a log of its calls. -/
def logging (read : FileTexts) (k : EntryKey) (path : FilePath) :
    StateM ReadLog (Option String) := do
  modify ((k, path) :: ·)
  return read path

/-- The calls that an entry takes: one if there is a file. -/
def callsFor (k : EntryKey) (file : Option FilePath) : ReadLog := file.toList.map (k, ·)

section Calls

variable {k : EntryKey} {log : ReadLog} {keys : List EntryKey} (file : Option FilePath)

theorem length_callsFor_append :
    (callsFor k file ++ log).length = log.length + file.toList.length := by
  rw [callsFor, List.length_append, List.length_map, Nat.add_comm]

theorem callsFor_append_subset (h : log.map Prod.fst ⊆ keys) :
    (callsFor k file ++ log).map Prod.fst ⊆ k :: keys := by
  cases file with
  | none => exact List.subset_cons_of_subset k h
  | some path => exact List.cons_subset_cons k h

theorem callsFor_append_nodup (hk : k ∉ log.map Prod.fst) (h : (log.map Prod.fst).Nodup) :
    ((callsFor k file ++ log).map Prod.fst).Nodup := by
  cases file with
  | none => exact h
  | some path => exact List.nodup_cons.mpr ⟨hk, h⟩

end Calls

variable (r : ResolverContext) (k : EntryKey) (log : ReadLog)

theorem logged_bind {α β : Type} (x : StateM ReadLog α) (f : α → StateM ReadLog β) :
    (x >>= f).run log = (f (x.run log).1).run (x.run log).2 := rfl

theorem loadM_logging (file : Option FilePath) (u : Usage) :
    (r.loadM (logging r.read k) file u).run log = (r.load file u, callsFor k file ++ log) := by
  cases file with
  | none => rfl
  | some path =>
    have hl : (logging r.read k path).run log = (r.read path, (k, path) :: log) := rfl
    simp only [loadM, load, logged_bind, hl]
    cases r.read path with
    | none => rfl
    | some text =>
      simp only
      cases r.parse path text <;> rfl

theorem computeM_logging (file : Option FilePath) (find : CodeFile → Except Absence Declaration)
    (s : ResolverState) : (r.computeM (logging r.read k) file find s).run log =
      (r.compute file find s, callsFor k file ++ log) := by
  simp only [computeM, compute, logged_bind, loadM_logging]
  cases (r.load file { s.usage with misses := s.usage.misses + 1 }).1 >>= find <;> rfl

theorem fetchM_logging (w : Wanted) (s : ResolverState) :
    (r.fetchM (logging r.read) w s).run log = (r.fetch w s,
      if (s.cache.outcome? w.key).isSome then log else callsFor w.key w.file ++ log) := by
  simp only [fetchM, fetch, remember]
  cases s.cache.outcome? w.key with
  | none =>
    simp only [logged_bind, computeM_logging]
    rfl
  | some e => rfl

theorem fetchM?_fst (w : Option Wanted) (s : ResolverState) :
    ((r.fetchM? (logging r.read) w s).run log).1 = r.fetch? w s := by
  cases w with
  | none => rfl
  | some w => exact congrArg Prod.fst (r.fetchM_logging log w s)

end ResolverContext

open ResolverContext

/-! ## One question -/

/-- The counts after a miss that takes the given file. -/
structure Usage.Missed (u : Usage) (file : Option FilePath) (v : Usage) : Prop where
  misses : v.misses = u.misses + 1
  filesRead : v.filesRead = u.filesRead + file.toList.length
  filesParsed_le : v.filesParsed ≤ u.filesParsed + file.toList.length
  hits : v.hits = u.hits
  negativeHits : v.negativeHits = u.negativeHits

namespace ResolverContext

variable (r : ResolverContext) (file : Option FilePath)

theorem load_missed (u : Usage) :
    u.Missed file (r.load file { u with misses := u.misses + 1 }).2 := by
  cases file with
  | none => exact ⟨rfl, rfl, Nat.le_refl _, rfl, rfl⟩
  | some path =>
    simp only [load]
    cases r.read path with
    | none => exact ⟨rfl, rfl, Nat.le_succ _, rfl, rfl⟩
    | some text =>
      simp only
      cases r.parse path text with
      | none => exact ⟨rfl, rfl, Nat.le_refl _, rfl, rfl⟩
      | some file => exact ⟨rfl, rfl, Nat.le_refl _, rfl, rfl⟩

theorem compute_missed (find : CodeFile → Except Absence Declaration) (s : ResolverState) :
    s.usage.Missed file (r.compute file find s).2.usage := by
  have h : (r.compute file find s).2.usage =
      (r.load file { s.usage with misses := s.usage.misses + 1 }).2 := by
    simp only [compute]
    cases (r.load file { s.usage with misses := s.usage.misses + 1 }).1 >>= find <;> rfl
  rw [h]
  exact r.load_missed file s.usage

end ResolverContext

/-- A resolver together with the calls of its reader since the last reset. -/
structure Watched where
  state : ResolverState := {}
  reads : ReadLog := []

namespace Watched

variable (r : ResolverContext) {w v : Watched}

def ofRun (run : (Found × ResolverState) × ReadLog) : Watched :=
  { state := run.1.2, reads := run.2 }

def step (w : Watched) (x : Step) : Watched :=
  match x.query with
  | .reset => { state := w.state.reset }
  | q =>
      ofRun (((x.context r).fetchM? (logging x.read) (q.wanted? (x.context r)) w.state).run w.reads)

theorem step_reset {x : Step} (h : x.query = .reset) : w.step r x = { state := w.state.reset } := by
  rw [step, h]

theorem step_of_ne_reset {x : Step} (h : x.query ≠ .reset) : w.step r x = ofRun
    (((x.context r).fetchM? (logging x.read) (x.query.wanted? (x.context r)) w.state).run
      w.reads) := by
  unfold step
  split
  · contradiction
  · rfl

/-- To watch a resolver does not change what it does. -/
theorem state_step (x : Step) : (w.step r x).state = (x.ask r w.state).2 := by
  by_cases h : x.query = .reset
  · rw [step_reset r h, Step.ask, h]
    rfl
  · rw [step_of_ne_reset r h, Step.ask, Query.ask_eq _ h, ← fetchM?_fst _ w.reads]
    rfl

/-- What a question does to a resolver: nothing, a hit or a miss. -/
inductive Moves (w : Watched) : Watched → Prop
  | idle : Moves w w
  | hit {k : EntryKey} {e : Outcome} (h : w.state.cache.outcome? k = some e) :
      Moves w { w with state := { w.state with usage := w.state.usage.countHit e } }
  | miss {k : EntryKey} {e : Outcome} {file : Option FilePath} {s : ResolverState}
      (h : w.state.cache.outcome? k = none) (hc : s.cache = w.state.cache.insert k e)
      (hu : w.state.usage.Missed file s.usage) :
      Moves w { state := s, reads := callsFor k file ++ w.reads }

theorem moves_fetch (d : Wanted) :
    Moves w (ofRun ((r.fetchM (logging r.read) d w.state).run w.reads)) := by
  rw [fetchM_logging]
  cases h : w.state.cache.outcome? d.key with
  | some e =>
    simp only [fetch, h]
    exact .hit h
  | none =>
    simp only [fetch, h]
    have hc := r.compute_cache d.file d.find w.state
    have hu := r.compute_missed d.file d.find w.state
    exact .miss h (congrArg (Cache.insert · d.key _) hc) hu

theorem moves_step {x : Step} (h : x.query ≠ .reset) : Moves w (w.step r x) := by
  rw [step_of_ne_reset r h]
  cases x.query.wanted? (x.context r) with
  | none => exact .idle
  | some d => exact moves_fetch (x.context r) d

/-! ## Runs -/

/-- The counts agree with the cache and with the calls of the reader, of which there is one for an
entry at most. -/
structure Balanced (w : Watched) : Prop where
  misses : w.state.usage.misses = w.state.cache.size
  keys_nodup : w.state.cache.keys.Nodup
  filesParsed_le : w.state.usage.filesParsed ≤ w.state.usage.filesRead
  filesRead_le : w.state.usage.filesRead ≤ w.state.usage.misses
  negativeHits_le : w.state.usage.negativeHits ≤ w.state.usage.hits
  filesRead : w.state.usage.filesRead = w.reads.length
  reads_stored : w.reads.map Prod.fst ⊆ w.state.cache.keys
  reads_nodup : (w.reads.map Prod.fst).Nodup

theorem balanced_reset (s : ResolverState) : Balanced { state := s.reset } :=
  ⟨rfl, .nil, Nat.le_refl _, Nat.le_refl _, Nat.le_refl _, rfl, List.nil_subset _, .nil⟩

theorem Moves.balanced (h : Moves w v) (hw : w.Balanced) : v.Balanced := by
  cases h with
  | idle => exact hw
  | @hit k e h =>
    refine ⟨hw.misses, hw.keys_nodup, hw.filesParsed_le, hw.filesRead_le, ?_, hw.filesRead,
      hw.reads_stored, hw.reads_nodup⟩
    have hn := hw.negativeHits_le
    simp only [Usage.countHit]
    split <;> omega
  | @miss k e file s h hc hu =>
    -- What was read for is stored, so the missing entry was not read for.
    have hk : k ∉ w.state.cache.keys := by
      rw [Cache.mem_keys_iff, h]
      exact Bool.false_ne_true
    have hkeys : s.cache.keys.Perm (k :: w.state.cache.keys) := hc ▸ Cache.keys_insert _
    have hsize : s.cache.size = w.state.cache.size + 1 := hc ▸ Cache.size_insert _
    have hone : file.toList.length ≤ 1 := Option.length_toList_le
    have ⟨hm, _, hp, hr, hn, hl, hsub, hnd⟩ := hw
    have ⟨hm', hr', hp', hh', hn'⟩ := hu
    exact {
      misses := by simp only; omega
      keys_nodup := hkeys.nodup_iff.mpr (List.nodup_cons.mpr ⟨hk, hw.keys_nodup⟩)
      filesParsed_le := by simp only; omega
      filesRead_le := by simp only; omega
      negativeHits_le := by simp only; omega
      filesRead := by simp only [length_callsFor_append]; omega
      reads_stored := fun _ hl => hkeys.mem_iff.mpr (callsFor_append_subset file hsub hl)
      reads_nodup := callsFor_append_nodup file (fun hl => hk (hsub hl)) hnd }

/-- An entry that is there is kept. -/
theorem Moves.outcome? (h : Moves w v) {k : EntryKey} {e : Outcome}
    (he : w.state.cache.outcome? k = some e) : v.state.cache.outcome? k = some e := by
  cases h with
  | idle => exact he
  | hit => exact he
  | miss h hc =>
    rw [hc, Cache.outcome?_insert_of_ne]
    · exact he
    · rintro rfl
      cases h.symm.trans he

/-- A run of a new resolver. -/
def watch (steps : List Step) : Watched := steps.foldl (step r) {}

theorem state_foldl_step (steps : List Step) :
    (steps.foldl (step r) w).state = (Step.play r steps w.state).2 := by
  induction steps generalizing w with
  | nil => rfl
  | cons x xs ih => rw [List.foldl_cons, ih, state_step, Step.play_cons]

theorem balanced_watch (steps : List Step) : (watch r steps).Balanced := by
  refine List.foldlRecOn steps _ (balanced_reset {}) fun w hw x _ => ?_
  by_cases h : x.query = .reset
  · rw [step_reset r h]
    exact balanced_reset w.state
  · exact (moves_step r h).balanced hw

theorem outcome?_foldl_step {steps : List Step} (hs : ∀ x ∈ steps, x.query ≠ .reset) {k : EntryKey}
    {e : Outcome} (he : w.state.cache.outcome? k = some e) :
    (steps.foldl (step r) w).state.cache.outcome? k = some e := by
  induction steps generalizing w with
  | nil => exact he
  | cons x xs ih =>
    obtain ⟨hx, hxs⟩ := List.forall_mem_cons.mp hs
    exact ih hxs ((moves_step r hx).outcome? he)

end Watched

/-- What a new resolver counts is balanced in every state that it gets to, and its entries stay as
they are until the next reset. -/
theorem run_balanced (r : ResolverContext) (steps : List Step) :
    (Watched.watch r steps).state = (Step.play r steps {}).2 ∧ (Watched.watch r steps).Balanced ∧
      ∀ more : List Step, (∀ x ∈ more, x.query ≠ .reset) → ∀ k e,
        (Step.play r steps {}).2.cache.outcome? k = some e →
          (Step.play r (steps ++ more) {}).2.cache.outcome? k = some e := by
  have hs : (Watched.watch r steps).state = (Step.play r steps {}).2 :=
    Watched.state_foldl_step r steps
  refine ⟨hs, Watched.balanced_watch r steps, fun more hm k e he => ?_⟩
  rw [Step.play_append, ← hs, ← Watched.state_foldl_step]
  exact Watched.outcome?_foldl_step r hm (hs ▸ he)

namespace BrokenFiles

def classAt (name path : String) : ClassInfo :=
  { name, file := some ⟨path⟩, methods := [⟨"m", false⟩] }

def catalog : Catalog :=
  { classes := [classAt "A" "a.php", classAt "B" "b.php", classAt "C" "c.php", .native "N"] }

def whole : FileTexts := fun _ => some "<?php class A { function m() {} }"

def broken : FileTexts := fun path =>
  if path.parts = [.name "a.php"] then whole path
  else if path.parts = [.name "b.php"] then some "<?php class" else none

def context : ResolverContext := { provider := catalog.provider, read := broken }

def steps : List Step :=
  [⟨whole, .classNamed "A"⟩, ⟨broken, .reset⟩, ⟨broken, .method "A" "m"⟩, ⟨broken, .classNamed "B"⟩,
    ⟨broken, .classNamed "C"⟩, ⟨broken, .classNamed "c"⟩, ⟨broken, .classNamed "N"⟩]

def more : List Step := [⟨whole, .classNamed "C"⟩, ⟨whole, .method "b" "M"⟩]

end BrokenFiles

open BrokenFiles in
/-- A file that could not be read is not tried again when it can be. -/
theorem run_balanced_broken_files :
    (Step.play context steps {}).2.usage =
        { filesRead := 3, filesParsed := 2, hits := 1, negativeHits := 1, misses := 3 } ∧
      (Watched.watch context steps).Balanced ∧ ∃ e,
        (Step.play context steps {}).2.cache.outcome? (Wanted.classLike (classAt "C" "c.php")).key =
            some e ∧
          (Step.play context (steps ++ more) {}).2.cache.outcome?
            (Wanted.classLike (classAt "C" "c.php")).key = some e := by
  have hm : ∀ x ∈ more, x.query ≠ .reset := by
    intro x hx
    simp only [more, List.mem_cons, List.not_mem_nil, or_false] at hx
    rcases hx with rfl | rfl <;> nofun
  obtain ⟨-, hb, hk⟩ := run_balanced context steps
  obtain ⟨e, he⟩ := Option.isSome_iff_exists.mp
    (show ((Step.play context steps {}).2.cache.outcome?
      (Wanted.classLike (classAt "C" "c.php")).key).isSome = true by decide +kernel)
  exact ⟨by decide +kernel, hb, e, he, hk more hm _ e he⟩

end PhpAtlas
