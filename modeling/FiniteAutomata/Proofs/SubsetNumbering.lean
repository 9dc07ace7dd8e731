import FiniteAutomata.Proofs.Acceptance
import FiniteAutomata.Proofs.Relabelling
import FiniteAutomata.Proofs.SubsetLoop

/-! The sets and their numbers. The second search of the subset construction numbers exactly the sets that the first
one discovers, in the same order. Each entry of the table turns into one edge, since the sets have different numbers
and no key is recorded twice. So a word leads to the number of the set of all states that it leads to, and it leads
nowhere when there is no such state. -/

namespace FiniteAutomata

open Automaton

variable {a : Automaton} {m : SubsetMemo} {limit : Option Nat} {set : SortedSet StateId} {s : Symbol}
  {w : List Symbol}

theorem SortedSet.ne_empty_iff : set ≠ ∅ ↔ ∃ q, q ∈ set := by
  constructor
  · intro hne
    by_contra hnone
    exact hne (SortedSet.ext fun q => iff_of_false (fun hq => hnone ⟨q, hq⟩) (SortedSet.not_mem_empty q))
  · rintro ⟨q, hq⟩ rfl
    exact SortedSet.not_mem_empty q hq

namespace Automaton

section States

variable (hfree : a.EpsilonFree)

include hfree

theorem EpsilonFree.mem_closure {start : List StateId} {q : StateId} : q ∈ a.closure start ↔ q ∈ start := by
  simp only [Automaton.mem_closure, hfree.path_nil, exists_eq_right]

/-- Without edges under epsilon a step leads to the targets of the edges under its symbol. -/
theorem EpsilonFree.step_eq : a.step set s = a.targetSet set s := by
  apply SortedSet.ext
  intro q
  simp only [step, hfree.mem_closure, targetSet, SortedSet.mem_ofList]

theorem EpsilonFree.statesAfter_eq : a.statesAfter w = w.foldl a.targetSet a.initial := by
  have hstep : a.step = a.targetSet := funext fun _ => funext fun _ => hfree.step_eq
  have hclosure : a.closure a.initial.toList = a.initial := SortedSet.ext fun _ => hfree.mem_closure
  rw [statesAfter, hstep, hclosure]

end States

/-- Nothing leads out of the empty set. -/
theorem foldl_targetSet_empty (a : Automaton) (w : List Symbol) : w.foldl a.targetSet ∅ = ∅ := by
  induction w with
  | nil => rfl
  | cons s w ih =>
      have hempty : a.targetSet ∅ s = ∅ := rfl
      rw [List.foldl_cons, hempty, ih]

/-- A set that is reached has a member, when there is an initial state. -/
theorem ne_empty_of_mem_reachedSets (h : a.Valid) (hinitial : a.initial ≠ ∅) (hset : set ∈ a.reachedSets) :
    set ≠ ∅ := by
  obtain ⟨first, hfirst, hleads⟩ := (Search.mem_reach_iff (bounded_sets h.initial_mem h.target_mem)).1 hset
  rw [List.mem_singleton.1 hfirst] at hleads
  rcases Relation.ReflTransGen.cases_tail hleads with rfl | ⟨before, _, hmove⟩
  · exact hinitial
  · obtain ⟨s, hmove⟩ := mem_followingSets.1 hmove
    exact SortedSet.ne_empty_iff.2 (mem_subsetRow.1 hmove).2

theorem initial_mem_reachedSets (a : Automaton) : a.initial ∈ a.reachedSets :=
  Search.mem_reach_of_mem (List.mem_singleton.2 rfl)

theorem targetSet_mem_reachedSets (h : a.Valid) (hset : set ∈ a.reachedSets) (hne : a.targetSet set s ≠ ∅) :
    a.targetSet set s ∈ a.reachedSets := by
  have hmove : (s, a.targetSet set s) ∈ a.subsetRow set := mem_subsetRow.2 ⟨rfl, SortedSet.ne_empty_iff.1 hne⟩
  exact Search.reach_closed (bounded_sets h.initial_mem h.target_mem) hset (mem_followingSets.2 ⟨s, hmove⟩)

/-- A word does not lead out of the sets that are reached, unless it leads nowhere. -/
theorem foldl_targetSet_mem_reachedSets (h : a.Valid) (hset : set ∈ a.reachedSets)
    (hne : w.foldl a.targetSet set ≠ ∅) : w.foldl a.targetSet set ∈ a.reachedSets := by
  induction w generalizing set with
  | nil => exact hset
  | cons s w ih =>
      rw [List.foldl_cons] at hne ⊢
      have hnext : a.targetSet set s ≠ ∅ := by
        intro hempty
        rw [hempty, foldl_targetSet_empty] at hne
        exact hne rfl
      exact ih (targetSet_mem_reachedSets h hset hnext) hne

theorem initial_ne_empty_of_withSingleInitial {single : Automaton} (hinitial : a.initial ≠ ∅)
    (hsingle : a.withSingleInitial = .ok single) : single.initial ≠ ∅ := by
  unfold withSingleInitial at hsingle
  split at hsingle
  · cases hsingle
    exact hinitial
  · obtain ⟨first, _, hok⟩ := bind_eq_ok.1 hsingle
    cases hok
    exact SortedSet.ne_empty_iff.2 ⟨first, mem_initial_startingFrom.2 rfl⟩

end Automaton

namespace SubsetMemo

/-- The edge of an entry, between the positions of its sets. -/
def edgeOf (sets : List (SortedSet StateId)) (entry : SubsetKey × SortedSet StateId) : Edge :=
  ⟨sets.idxOf entry.1.set, entry.1.symbol, sets.idxOf entry.2⟩

/-- Both searches go through the same sets: the first one ends with the table `m` when it has discovered `sets`, and
the second one with an automaton whose states are the positions in `sets`. Its edges are those of the entries, and a
word leads to the position of the set of states to which it leads. -/
structure Numbers (m : SubsetMemo) (a : Automaton) (limit : Option Nat) (sets : List (SortedSet StateId)) : Prop where
  discovered : ∃ first, SubsetSearch.start a limit = .ok first ∧
    Loop.Ends (SubsetSearch.turn a limit) sets.length first ⟨sets, [], m⟩
  numbered : Loop.Ends (Tour.turn (m.row a.alphabet) (·.any fun q => decide (q ∈ a.final)) fun _ => false) sets.length
    (.start (fun _ => false) a.alphabet a.initial) ⟨sets.zipIdx, [], m.toAutomaton a⟩
  nodup : sets.Nodup
  ne_empty : ∀ set ∈ sets, set ≠ ∅
  nodup_keys : (m.entries.map (·.1)).Nodup
  mem_sets : ∀ entry ∈ m.entries, entry.1.set ∈ sets ∧ entry.2 ∈ sets
  edges_perm : (m.entries.map (edgeOf sets)).Perm (m.toAutomaton a).edges
  edgeCount : (m.toAutomaton a).edgeCount = m.size
  initial : (m.toAutomaton a).initialState? = some 0
  statesAfter_mem : ∀ w, a.statesAfter w ≠ ∅ → a.statesAfter w ∈ sets
  follow? : ∀ w, (m.toAutomaton a).follow? 0 w =
    if a.statesAfter w = ∅ then none else some (sets.idxOf (a.statesAfter w))

namespace Complete

variable (hm : Complete a m) (h : a.Valid) (hfree : a.EpsilonFree)

section Keys

include hm

/-- A set is visited once, and under a symbol it has one move. -/
theorem nodup_keys : (m.entries.map (·.1)).Nodup := by
  have hrow : ∀ set ∈ a.reachedSets, ((a.movesFrom set).map (·.1)).Nodup := by
    intro set _
    have hkeys : (a.movesFrom set).map (·.1) = (a.leavingSymbols set).toList.map (SubsetKey.mk set) := by
      simp [movesFrom, subsetRow]
    rw [hkeys]
    exact (SortedSet.nodup_toList _).map fun s t heq => congrArg SubsetKey.symbol heq
  rw [hm, List.map_flatMap]
  refine List.nodup_flatMap.2 ⟨hrow, ?_⟩
  apply (Search.nodup_reach _ _ _).imp
  intro set set' hne key hkey hkey'
  obtain ⟨⟨⟨_, s⟩, next⟩, hmove, rfl⟩ := List.mem_map.1 hkey
  obtain ⟨⟨⟨_, t⟩, next'⟩, hmove', heq⟩ := List.mem_map.1 hkey'
  cases heq
  exact hne ((mem_movesFrom.1 hmove).1.trans (mem_movesFrom.1 hmove').1.symm)

end Keys

include hm h

theorem mem_sets {entry : SubsetKey × SortedSet StateId} (hentry : entry ∈ m.entries) :
    entry.1.set ∈ a.reachedSets ∧ entry.2 ∈ a.reachedSets := by
  obtain ⟨⟨set, s⟩, next⟩ := entry
  obtain ⟨hset, hmove⟩ := hm.mem_entries.1 hentry
  have hbounded := bounded_sets h.initial_mem h.target_mem
  exact ⟨hset, Search.reach_closed hbounded hset (mem_followingSets.2 ⟨s, hmove⟩)⟩

include hfree

theorem found_eq : found (m.row a.alphabet) (1 + m.size) a.initial = a.reachedSets := hm.numbering_eq h hfree

theorem position_eq (set : SortedSet StateId) :
    position (m.row a.alphabet) (1 + m.size) a.initial set = a.reachedSets.idxOf set := by
  rw [position, hm.found_eq h hfree]

/-- The edges are those of the entries. -/
theorem hasEdge_iff {i j : StateId} : (m.toAutomaton a).HasEdge i s j ↔
    ∃ entry ∈ m.entries, edgeOf a.reachedSets entry = ⟨i, s, j⟩ := by
  rw [toAutomaton_eq_ofSearch, hasEdge_ofSearch]
  simp only [hm.found_eq h hfree, hm.position_eq h hfree]
  constructor
  · rintro ⟨set, hset, next, hmove, rfl, rfl⟩
    rw [hm.row_eq h hfree hset] at hmove
    exact ⟨(⟨set, s⟩, next), hm.mem_entries.2 ⟨hset, hmove⟩, rfl⟩
  · rintro ⟨⟨⟨set, t⟩, next⟩, hentry, heq⟩
    cases heq
    obtain ⟨hset, hmove⟩ := hm.mem_entries.1 hentry
    rw [← hm.row_eq h hfree hset] at hmove
    exact ⟨set, hset, next, hmove, rfl, rfl⟩

theorem edges_perm : (m.entries.map (edgeOf a.reachedSets)).Perm (m.toAutomaton a).edges := by
  have hnodup : (m.entries.map (edgeOf a.reachedSets)).Nodup := by
    apply hm.nodup_keys.of_map.map_on
    rintro ⟨⟨set, s⟩, next⟩ hentry ⟨⟨set', s'⟩, next'⟩ hentry' heq
    simp only [edgeOf, Edge.mk.injEq] at heq
    obtain rfl := (List.idxOf_inj (hm.mem_sets h hentry).1).1 heq.1
    obtain rfl := heq.2.1
    obtain rfl := (List.idxOf_inj (hm.mem_sets h hentry).2).1 heq.2.2
    rfl
  refine (List.perm_ext_iff_of_nodup hnodup (m.toAutomaton a).table.nodup_edges).2 ?_
  rintro ⟨i, s, j⟩
  rw [List.mem_map, ← hm.hasEdge_iff h hfree]
  exact mem_edges.symm

theorem edgeCount_eq : (m.toAutomaton a).edgeCount = m.size := by
  rw [← length_edges, ← (hm.edges_perm h hfree).length_eq, List.length_map, size]

theorem ends_numbered :
    Loop.Ends (Tour.turn (m.row a.alphabet) (·.any fun q => decide (q ∈ a.final)) fun _ => false) a.reachedSets.length
      (.start (fun _ => false) a.alphabet a.initial) ⟨a.reachedSets.zipIdx, [], m.toAutomaton a⟩ := by
  have hsearch : ofSearch (m.row a.alphabet) (1 + m.size) a.initial
      (fun set => (set.any fun q => decide (q ∈ a.final)) || false) a.alphabet = m.toAutomaton a := by
    simp only [Bool.or_false]
    rfl
  rw [← hsearch, ← hm.found_eq h hfree]
  exact Tour.ends_start (m.rows a.alphabet a.initial)

section Words

variable (hdeterministic : (m.toAutomaton a).Deterministic)

include hdeterministic

/-- Under a symbol a set leads to the set of all targets, unless there are none. -/
theorem successor?_idxOf (hset : set ∈ a.reachedSets) : (m.toAutomaton a).successor? (a.reachedSets.idxOf set) s =
    if a.targetSet set s = ∅ then none else some (a.reachedSets.idxOf (a.targetSet set s)) := by
  apply Option.ext
  intro j
  rw [hdeterministic.successor?_eq_some_iff, hm.hasEdge_iff h hfree]
  constructor
  · rintro ⟨⟨⟨set', t⟩, next⟩, hentry, heq⟩
    simp only [edgeOf, Edge.mk.injEq] at heq
    obtain ⟨hidx, rfl, rfl⟩ := heq
    obtain rfl := (List.idxOf_inj (hm.mem_sets h hentry).1).1 hidx
    obtain ⟨rfl, hmember⟩ := mem_subsetRow.1 (hm.mem_entries.1 hentry).2
    rw [if_neg (SortedSet.ne_empty_iff.2 hmember)]
  · intro hsome
    split at hsome
    · cases hsome
    · next hne =>
        cases hsome
        have hmove := mem_subsetRow.2 ⟨rfl, SortedSet.ne_empty_iff.1 hne⟩
        exact ⟨_, hm.mem_entries.2 ⟨hset, hmove⟩, rfl⟩

/-- A set and its position read a word together. The induction is on the word. -/
theorem follow?_idxOf (hset : set ∈ a.reachedSets) (hne : set ≠ ∅) :
    (m.toAutomaton a).follow? (a.reachedSets.idxOf set) w =
      if w.foldl a.targetSet set = ∅ then none else some (a.reachedSets.idxOf (w.foldl a.targetSet set)) := by
  induction w generalizing set with
  | nil => exact (if_neg hne).symm
  | cons s w ih =>
      rw [List.foldl_cons, follow?_cons, hm.successor?_idxOf h hfree hdeterministic hset]
      by_cases hnext : a.targetSet set s = ∅
      · rw [if_pos hnext, hnext, foldl_targetSet_empty, if_pos rfl]
        rfl
      · rw [if_neg hnext]
        exact ih (targetSet_mem_reachedSets h hset hnext) hnext

end Words

end Complete

/-- A table that is built without being stopped by the limit holds the sets and their numbers. -/
theorem numbers_of_build (h : a.Valid) (hfree : a.EpsilonFree) (hepsilon : epsilon ∉ a.alphabet)
    (hinitial : a.initial ≠ ∅) (hok : build a limit = .ok m) : m.Numbers a limit a.reachedSets := by
  have hm := complete_of_build h hok
  have hdeterministic := (m.valid_toAutomaton hepsilon).deterministic rfl
  have hfirst : a.reachedSets.idxOf a.initial = 0 := by
    rw [← hm.position_eq h hfree]
    exact position_first
  exact {
    discovered := SubsetSearch.ends_of_build h hok
    numbered := hm.ends_numbered h hfree
    nodup := Search.nodup_reach _ _ _
    ne_empty := fun set => ne_empty_of_mem_reachedSets h hinitial
    nodup_keys := hm.nodup_keys
    mem_sets := fun entry => hm.mem_sets h
    edges_perm := hm.edges_perm h hfree
    edgeCount := hm.edgeCount_eq h hfree
    initial := rfl
    statesAfter_mem := fun w hne => by
      rw [hfree.statesAfter_eq] at hne ⊢
      exact foldl_targetSet_mem_reachedSets h a.initial_mem_reachedSets hne
    follow? := fun w => by
      rw [hfree.statesAfter_eq, ← hfirst]
      exact hm.follow?_idxOf h hfree hdeterministic a.initial_mem_reachedSets hinitial }

end SubsetMemo

namespace Automaton

/-- For a well-formed automaton with some initial state, the subset construction goes through the same sets twice. Once
there is one initial state and no edge under epsilon, without a limit nothing stops it. With a limit that does not stop
it, the result is the automaton of the sets and their numbers. -/
theorem determinize_numbers_sets {single : Automaton} (hvalidate : a.validate = .ok ()) (hkind : a.kind = .nfa)
    (hinitial : a.initial ≠ ∅) (hsingle : a.withSingleInitial = .ok single) :
    (∀ w q, q ∈ single.eliminateEpsilon.statesAfter w ↔
      ∃ p ∈ single.eliminateEpsilon.initial, single.eliminateEpsilon.Path p w q) ∧
    (∃ m, SubsetMemo.build single.eliminateEpsilon none = .ok m) ∧
    ∀ limit m, SubsetMemo.build single.eliminateEpsilon limit = .ok m →
      a.determinize limit = .ok (m.toAutomaton single.eliminateEpsilon) ∧
        ∃ sets, m.Numbers single.eliminateEpsilon limit sets := by
  have hvalid := validate_eq_ok_iff.1 hvalidate
  have hfree := (withSingleInitial_spec hvalid hsingle).1.eliminateEpsilon
  have hepsilon : epsilon ∉ single.eliminateEpsilon.alphabet := single.alphabet.not_mem_erase epsilon
  have hsome := initial_ne_empty_of_withSingleInitial hinitial hsingle
  refine ⟨fun w q => mem_foldl_step, SubsetMemo.exists_build_none _, fun limit m hm => ⟨?_, ?_⟩⟩
  · have hnfa : a.kind ≠ .dfa := by
      rw [hkind]
      decide
    exact determinize_eq_ok.2 ⟨hvalid, .inr ⟨hnfa, .inr ⟨hinitial, single, m, hsingle, hm, rfl⟩⟩⟩
  · exact ⟨_, SubsetMemo.numbers_of_build hfree epsilonFree_eliminateEpsilon hepsilon hsome hm⟩

/-- Three entries become the three edges, and after `ab` the state is the number of the set that holds just 0. -/
theorem determinize_numbers_sets_silentCycle :
    silentCycle.validate = .ok () ∧ silentCycle.kind = .nfa ∧ silentCycle.initial ≠ ∅ ∧
      silentCycle.withSingleInitial = .ok (silentCycle.startingFrom 3) ∧
      ∃ (m : SubsetMemo) (sets : List (SortedSet StateId)),
        m.Numbers (silentCycle.startingFrom 3).eliminateEpsilon none sets ∧ m.size = 3 ∧
        silentCycleSubsets.follow? 0 ["a", "b"] = some (sets.idxOf (.ofList [0])) := by
  have hvalidate : silentCycle.validate = .ok () := by decide +kernel
  have hinitial : silentCycle.initial ≠ ∅ := by decide +kernel
  have hsingle : silentCycle.withSingleInitial = .ok (silentCycle.startingFrom 3) := by decide +kernel
  obtain ⟨_, ⟨m, hm⟩, hnumbers⟩ := determinize_numbers_sets hvalidate rfl hinitial hsingle
  obtain ⟨hresult, sets, hsets⟩ := hnumbers none m hm
  have hsubsets : silentCycle.determinize none = .ok silentCycleSubsets := by decide +kernel
  have heq : m.toAutomaton (silentCycle.startingFrom 3).eliminateEpsilon = silentCycleSubsets :=
    Except.ok.inj (hresult.symm.trans hsubsets)
  have hafter : (silentCycle.startingFrom 3).eliminateEpsilon.statesAfter ["a", "b"] = .ofList [0] := by
    decide +kernel
  have hsize := hsets.edgeCount
  have hfollow := hsets.follow? ["a", "b"]
  rw [heq] at hsize hfollow
  rw [hafter] at hfollow
  refine ⟨hvalidate, rfl, hinitial, hsingle, m, sets, hsets, ?_, ?_⟩
  · rw [← hsize]
    decide +kernel
  · rw [hfollow]
    exact if_neg (by decide +kernel)

end Automaton

end FiniteAutomata
