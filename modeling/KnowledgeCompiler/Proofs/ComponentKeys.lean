import KnowledgeCompiler.Proofs.ComponentCache

/-! What a cache hands out for a formula belongs to the same formula up to names.

A cache holds nothing but components that were added to it, each under the key of its formula and with the
renaming into the variables of that key. A look-up adds nothing. So a component that is found under the key of
another formula was stored under the same key, and the keys decide.
-/

namespace KnowledgeCompiler

/-- A cache after components were added to it under the keys of their formulas, last one first, with look-ups of
any keys in between.
-/
inductive ComponentCache.Holds (scheme : CachingScheme) : List (Residual × NodeId) → ComponentCache → Prop where
  | empty : Holds scheme [] { scheme }
  | added {stored : List (Residual × NodeId)} {cache : ComponentCache} (holds : Holds scheme stored cache)
      (g : Residual) (proper : g.current.Proper) (node : NodeId)
      : Holds scheme ((g, node) :: stored)
          (cache.add (scheme.keyOf g).1 { node, names := (scheme.keyOf g).2 })
  | asked {stored : List (Residual × NodeId)} {cache : ComponentCache} (holds : Holds scheme stored cache)
      (key : ComponentKey)
      : Holds scheme stored (cache.get key).2

/-- What is found in a cache was stored under the same key, with the names of that key; induction on the history of
the cache.
-/
theorem ComponentCache.Holds.origin {scheme : CachingScheme} {stored : List (Residual × NodeId)}
    {cache : ComponentCache} (holds : Holds scheme stored cache) {key : ComponentKey} {entry : CacheEntry}
    (found : cache.entries.peek? key = some entry)
    : ∃ g : Residual, (g, entry.node) ∈ stored ∧ g.current.Proper ∧ scheme.keyOf g = (key, entry.names) := by
  induction holds with
  | empty =>
      rw [Tally.peek?, Std.TreeMap.getElem?_emptyc] at found
      cases found
  | @added stored cache _ g proper node ih =>
      obtain ⟨rfl, rfl⟩ | before := peek?_add found
      · exact ⟨g, List.mem_cons_self, proper, rfl⟩
      · obtain ⟨source, member, rest⟩ := ih before
        exact ⟨source, List.mem_cons_of_mem _ member, rest⟩
  | @asked stored cache _ asked ih =>
      apply ih
      rw [Tally.peek?, ← (cache.get_eq asked).2.2]
      exact found

/-- Two formulas with one key are the same up to names: both keys come without names and the formulas are the same
set of clauses, or both come with names, and these together carry the one set of clauses onto the other. So a
component that a cache finds for a formula was stored for the same formula up to names, and never under a key of
the other sort.
-/
theorem CachingScheme.equal_keys (scheme : CachingScheme) {g h : Residual} (proper : g.current.Proper)
    (proper' : h.current.Proper)
    : ((scheme.keyOf g).1 = (scheme.keyOf h).1
        → SameUpToNames g.current h.current (scheme.keyOf g).2 (scheme.keyOf h).2)
      ∧ ∀ stored cache, ComponentCache.Holds scheme stored cache
        → ∀ entry, (cache.get (scheme.keyOf h).1).1 = some entry
          → entry.names.isSome = (scheme.keyOf h).2.isSome
            ∧ ∃ source : Residual, (source, entry.node) ∈ stored
              ∧ scheme.keyOf source = ((scheme.keyOf h).1, entry.names)
              ∧ SameUpToNames source.current h.current entry.names (scheme.keyOf h).2 := by
  refine ⟨scheme.sameUpToNames proper proper', fun stored cache holds entry found => ?_⟩
  rw [(cache.get_eq _).1] at found
  obtain ⟨source, member, properSource, keyed⟩ := holds.origin found
  have keys : (scheme.keyOf source).1 = (scheme.keyOf h).1 := by rw [keyed]
  have alike := scheme.sameUpToNames properSource proper' keys
  rw [keyed] at alike
  exact ⟨alike.isSome_eq, source, member, keyed, alike⟩

/-- A chain of implications on the variables 1, 2, 3 and another one on 6, 4, 5 have one key with names, and the node
that is stored for the one is found for the other.
-/
theorem CachingScheme.equal_keys_chain
    : let scheme := CachingScheme.upToNames 2
      let g := Residual.ofClauses [[-1, 2], [-2, 3], [1, 2, 3]]
      let h := Residual.ofClauses [[4, 5, 6], [5, -4], [4, -6]]
      let cache := ComponentCache.add { scheme } (scheme.keyOf g).1 { node := 7, names := (scheme.keyOf g).2 }
      (cache.get (scheme.keyOf h).1).1 = some { node := 7, names := (scheme.keyOf g).2 }
        ∧ SameUpToNames g.current h.current (scheme.keyOf g).2 (scheme.keyOf h).2
        ∧ ∃ source : Residual, (source, 7) ∈ [(g, 7)]
          ∧ SameUpToNames source.current h.current (scheme.keyOf g).2 (scheme.keyOf h).2 := by
  intro scheme g h cache
  have proper : ∀ clause ∈ g.current, ∀ l ∈ clause, Lit.Proper l := by decide +kernel
  have proper' : ∀ clause ∈ h.current, ∀ l ∈ clause, Lit.Proper l := by decide +kernel
  have holds : ComponentCache.Holds scheme [(g, 7)] cache := .added .empty g proper 7
  have found : (cache.get (scheme.keyOf h).1).1 = some { node := 7, names := (scheme.keyOf g).2 } := by
    decide +kernel
  obtain ⟨alike, stored⟩ := scheme.equal_keys proper proper'
  obtain ⟨_, source, member, _, same⟩ := stored [(g, 7)] cache holds _ found
  exact ⟨found, alike (by decide +kernel), source, member, same⟩

end KnowledgeCompiler
