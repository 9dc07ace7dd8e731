import FiniteAutomata.Proofs.Paths
import FiniteAutomata.SubsetConstruction
import Mathlib.Data.List.Basic
import Mathlib.Data.List.Nodup
import Mathlib.Data.List.Perm.Subperm
import Mathlib.Data.List.Sublists

/-! The two searches of the subset construction. There are no more sets of states than the fuel of the
first search, so unless the limit stops it the memo table holds exactly the moves of the sets that are
reached; the second search reads these moves back and meets the same sets in the same order. -/

namespace FiniteAutomata

variable {a : Automaton} {limit : Option Nat}

namespace Automaton

/-- The sets that follow a set, by ascending symbols. -/
def followingSets (a : Automaton) (set : SortedSet StateId) : List (SortedSet StateId) :=
  (a.subsetRow set).map (·.2)

/-- The memo entries of a set. -/
def movesFrom (a : Automaton) (set : SortedSet StateId) : List (SubsetKey × SortedSet StateId) :=
  (a.subsetRow set).map fun move => (⟨set, move.1⟩, move.2)

/-- All sets of states that words lead to, in the order of their discovery. -/
def reachedSets (a : Automaton) : List (SortedSet StateId) :=
  Search.reach a.followingSets a.setCount [a.initial]

theorem mem_followingSets {set set' : SortedSet StateId} :
    set' ∈ a.followingSets set ↔ ∃ s, (s, set') ∈ a.subsetRow set := by
  simp [followingSets]

theorem mem_movesFrom {set set' visited : SortedSet StateId} {s : Symbol} :
    (⟨set, s⟩, set') ∈ a.movesFrom visited ↔ visited = set ∧ (s, set') ∈ a.subsetRow set := by
  rw [movesFrom, List.mem_map]
  refine ⟨?_, ?_⟩
  · intro hmoves
    obtain ⟨⟨s, set'⟩, hmove, heq⟩ := hmoves
    cases heq
    exact ⟨rfl, hmove⟩
  · intro hmoves
    obtain ⟨rfl, hmove⟩ := hmoves
    exact ⟨(s, set'), hmove, rfl⟩

/-- A set of states is an ascending selection from all states, of which there are two to the number of
states. -/
theorem length_le_of_sets_of_states {sets : List (SortedSet StateId)} (hnodup : sets.Nodup)
    (hsets : ∀ set ∈ sets, ∀ q ∈ set, q ∈ a.states) : sets.length ≤ a.setCount := by
  have hinj : ∀ set ∈ sets, ∀ set' ∈ sets, set.toList = set'.toList → set = set' := by
    rintro ⟨l, _⟩ _ ⟨l', _⟩ _ rfl
    rfl
  have hsublists : sets.map (·.toList) ⊆ a.states.toList.sublists := by
    intro l hl
    obtain ⟨set, hset, rfl⟩ := List.mem_map.1 hl
    have heq : set = a.states.filter fun q => decide (q ∈ set) := by
      apply SortedSet.ext
      intro q
      rw [SortedSet.mem_filter, decide_eq_true_eq]
      exact ⟨fun hq => ⟨hsets set hset q hq, hq⟩, fun hq => hq.2⟩
    rw [List.mem_sublists, heq]
    exact List.filter_sublist
  calc sets.length = (sets.map (·.toList)).length := (List.length_map _).symm
    _ ≤ a.states.toList.sublists.length :=
        (List.subperm_of_subset (hnodup.map_on hinj) hsublists).length_le
    _ = a.setCount := List.length_sublists _

theorem bounded_sets (hinitial : ∀ q ∈ a.initial, q ∈ a.states)
    (htarget : ∀ p s q, a.HasEdge p s q → q ∈ a.states) :
    Search.Bounded a.followingSets a.setCount [a.initial] (fun set => ∀ q ∈ set, q ∈ a.states) where
  start set hset := by
    rw [List.mem_singleton.1 hset]
    exact hinitial
  next set _ set' hset' := by
    obtain ⟨s, hmove⟩ := mem_followingSets.1 hset'
    intro q hq
    rw [(mem_subsetRow.1 hmove).1, mem_targetSet] at hq
    obtain ⟨p, _, hedge⟩ := hq
    exact htarget p s q hedge
  length_le _ hnodup hsets := length_le_of_sets_of_states hnodup hsets

end Automaton

namespace SubsetMemo

open Automaton

variable {m : SubsetMemo}

theorem discover_eq_ok {found sets new : List (SortedSet StateId)}
    (h : discover limit found sets = .ok new) : new = Search.fresh found sets := by
  induction sets generalizing found new with
  | nil =>
      cases h
      rfl
  | cons set sets ih =>
      rw [discover] at h
      rw [Search.fresh]
      split at h
      · rename_i hmem
        rw [if_pos hmem]
        exact ih h
      · rename_i hmem
        rw [if_neg hmem]
        obtain ⟨_, _, h⟩ := bind_eq_ok.1 h
        obtain ⟨rest, hrest, h⟩ := bind_eq_ok.1 h
        cases h
        rw [ih hrest]

theorem discover_unlimited (found sets : List (SortedSet StateId)) :
    discover none found sets = .ok (Search.fresh found sets) := by
  induction sets generalizing found with
  | nil => rfl
  | cons set sets ih =>
      rw [discover, Search.fresh]
      split
      · exact ih found
      · exact bind_eq_ok.2 ⟨_, rfl, bind_eq_ok.2 ⟨_, ih (set :: found), rfl⟩⟩

/-- A search that the limit does not stop goes on in the same way without a limit. -/
theorem explore_unlimited {fuel : Nat} {visited queue : List (SortedSet StateId)} {m' : SubsetMemo}
    (hok : explore a limit fuel visited queue m = .ok m') : explore a none fuel visited queue m = .ok m' := by
  induction fuel generalizing visited queue m with
  | zero => exact hok
  | succ fuel ih =>
      cases queue with
      | nil => exact hok
      | cons set queue =>
          obtain ⟨new, hnew, hok⟩ := bind_eq_ok.1 hok
          rw [discover_eq_ok hnew] at hok
          exact bind_eq_ok.2 ⟨_, discover_unlimited _ _, ih hok⟩

theorem build_unlimited (hok : build a limit = .ok m) : build a none = .ok m := by
  obtain ⟨_, _, hok⟩ := bind_eq_ok.1 hok
  exact bind_eq_ok.2 ⟨_, rfl, explore_unlimited hok⟩

/-- A search that the limit does not stop records the moves of every set that it finds. -/
theorem explore_eq_ok {bound : Nat} {start : List (SortedSet StateId)} {inside : SortedSet StateId → Prop}
    (h : Search.Bounded a.followingSets bound start inside) (fuel : Nat)
    {visited queue : List (SortedSet StateId)} {m' : SubsetMemo}
    (hfrontier : Search.Frontier a.followingSets visited queue)
    (hinside : ∀ set ∈ visited ++ queue, inside set) (hfuel : bound ≤ visited.length + fuel)
    (hm : m.entries = visited.flatMap a.movesFrom) (hok : explore a limit fuel visited queue m = .ok m') :
    m'.entries = (Search.explore a.followingSets fuel visited queue).flatMap a.movesFrom := by
  induction fuel generalizing visited queue m with
  | zero =>
      obtain rfl := h.queue_eq_nil hfrontier hinside hfuel
      cases hok
      simpa [Search.explore] using hm
  | succ fuel ih =>
      cases queue with
      | nil =>
          cases hok
          exact hm
      | cons set queue =>
          rw [explore] at hok
          obtain ⟨new, hnew, hok⟩ := bind_eq_ok.1 hok
          rw [discover_eq_ok hnew] at hok
          refine ih hfrontier.visit (h.visit hinside) ?_ ?_ hok
          · rw [List.length_append, List.length_singleton]
            omega
          · rw [List.flatMap_append, List.flatMap_singleton, ← hm]
            rfl

theorem mem_entries_of_successor? {set set' : SortedSet StateId} {s : Symbol}
    (h : m.successor? set s = some set') : (⟨set, s⟩, set') ∈ m.entries := by
  obtain ⟨before, after, hentries, _⟩ := List.lookup_eq_some_iff.1 h
  rw [hentries]
  exact List.mem_append_right _ List.mem_cons_self

theorem mem_row {alphabet : SortedSet Symbol} {set set' : SortedSet StateId} {s : Symbol} :
    (s, set') ∈ m.row alphabet set ↔ s ∈ alphabet ∧ m.successor? set s = some set' := by
  simp only [row, List.mem_filterMap, Option.map_eq_some_iff, Prod.mk.injEq, SortedSet.mem_toList]
  refine ⟨?_, ?_⟩
  · intro hmem
    obtain ⟨_, hs, _, hfound, rfl, rfl⟩ := hmem
    exact ⟨hs, hfound⟩
  · intro hmem
    obtain ⟨hs, hfound⟩ := hmem
    exact ⟨s, hs, set', hfound, rfl, rfl⟩

/-- The second search meets the first set and sets that the table holds. -/
theorem bounded_row (m : SubsetMemo) (alphabet : SortedSet Symbol) (first : SortedSet StateId) :
    Search.Bounded (fun set => (m.row alphabet set).map (·.2)) (1 + m.size) [first]
      (· ∈ first :: m.entries.map (·.2)) := by
  apply Search.Bounded.of_list
  · intro set hset
    rw [List.mem_singleton.1 hset]
    exact List.mem_cons_self
  · intro set set' hset'
    obtain ⟨⟨s, _⟩, hmove, rfl⟩ := List.mem_map.1 hset'
    exact List.mem_cons_of_mem _ (List.mem_map_of_mem (mem_entries_of_successor? (mem_row.1 hmove).2))
  · rw [List.length_cons, List.length_map, Nat.add_comm, size]

/-- The table holds the moves of all sets that are reached. -/
def Complete (a : Automaton) (m : SubsetMemo) : Prop := m.entries = a.reachedSets.flatMap a.movesFrom

theorem complete_of_build (h : a.Valid) (hok : build a limit = .ok m) : Complete a m := by
  obtain ⟨_, _, hok⟩ := bind_eq_ok.1 hok
  have hbounded := bounded_sets h.initial_mem h.target_mem
  exact explore_eq_ok hbounded _ (.init a.followingSets [a.initial])
    (Search.inside_of_fresh hbounded) (Nat.le_add_left _ _) rfl hok

namespace Complete

variable {set set' : SortedSet StateId} {s : Symbol}

theorem mem_entries (hm : Complete a m) :
    (⟨set, s⟩, set') ∈ m.entries ↔ set ∈ a.reachedSets ∧ (s, set') ∈ a.subsetRow set := by
  rw [hm, List.mem_flatMap]
  simp only [mem_movesFrom]
  refine ⟨?_, ?_⟩
  · intro hmoves
    obtain ⟨_, hset, rfl, hmove⟩ := hmoves
    exact ⟨hset, hmove⟩
  · intro hmoves
    obtain ⟨hset, hmove⟩ := hmoves
    exact ⟨set, hset, rfl, hmove⟩

/-- Look-ups find exactly the moves, since a set has one move under a symbol. -/
theorem successor?_eq_some (hm : Complete a m) :
    m.successor? set s = some set' ↔ set ∈ a.reachedSets ∧ (s, set') ∈ a.subsetRow set := by
  rw [← hm.mem_entries]
  refine ⟨mem_entries_of_successor?, fun hentry => ?_⟩
  cases hfound : m.successor? set s with
  | none =>
      have hne := List.lookup_eq_none_iff.1 hfound _ hentry
      simp at hne
  | some found =>
      have hmove := (hm.mem_entries.1 (mem_entries_of_successor? hfound)).2
      rw [(mem_subsetRow.1 hmove).1, (mem_subsetRow.1 (hm.mem_entries.1 hentry).2).1]

/-- The row that is read back along the alphabet is the row that was recorded. -/
theorem row_eq (hm : Complete a m) (h : a.Valid) (hfree : a.EpsilonFree) (hset : set ∈ a.reachedSets) :
    m.row a.alphabet set = a.subsetRow set := by
  have hleaving : a.leavingSymbols set = a.alphabet.filter fun s => decide (s ∈ a.leavingSymbols set) := by
    apply SortedSet.ext
    intro s
    rw [SortedSet.mem_filter, decide_eq_true_eq]
    refine ⟨fun hs => ⟨?_, hs⟩, fun hs => hs.2⟩
    obtain ⟨p, _, q, hedge⟩ := mem_leavingSymbols.1 hs
    exact hfree.symbol_mem h hedge
  rw [row, subsetRow, hleaving]
  show _ = (List.filter _ a.alphabet.toList).map _
  rw [← List.filterMap_eq_map, List.filterMap_filter]
  refine List.filterMap_congr fun s _ => ?_
  by_cases hs : s ∈ a.leavingSymbols set
  · have hmove : (s, a.targetSet set s) ∈ a.subsetRow set :=
      List.mem_map.2 ⟨s, hs, rfl⟩
    simp [hm.successor?_eq_some.2 ⟨hset, hmove⟩, hs]
  · cases hfound : m.successor? set s with
    | none => simp [hs]
    | some set' =>
        obtain ⟨_, hmove⟩ := hm.successor?_eq_some.1 hfound
        obtain ⟨_, hs', heq⟩ := List.mem_map.1 hmove
        cases heq
        exact absurd hs' hs

/-- The second search meets the sets of the first one in the same order. -/
theorem numbering_eq (hm : Complete a m) (h : a.Valid) (hfree : a.EpsilonFree) :
    m.numbering a = a.reachedSets := by
  have hbounded := bounded_sets h.initial_mem h.target_mem
  refine Search.reach_congr hbounded (bounded_row m a.alphabet a.initial) fun set hset => ?_
  rw [hm.row_eq h hfree hset]
  rfl

end Complete

end SubsetMemo

end FiniteAutomata
