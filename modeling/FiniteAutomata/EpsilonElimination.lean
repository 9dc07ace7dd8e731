import FiniteAutomata.Automaton.Acceptance
import FiniteAutomata.OperationFailure

/-!
Automata without edges under epsilon. The edges of a state are replaced by the other edges of all
states in its closure, and the closure decides whether the state is final; the targets need not be
closed, since each of them has got its own closure.
-/

namespace FiniteAutomata.Automaton

/-- The automaton with `first` as its only initial state, from which edges under epsilon lead to the
initial states that it replaces. -/
def startingFrom (a : Automaton) (first : StateId) : Automaton :=
  { kind := .nfa
    states := a.states.insert first
    alphabet := a.alphabet
    initial := .ofList [first]
    final := if a.initial.any (fun q => decide (q ∈ a.final)) then a.final.insert first else a.final
    table := a.table.insertAll (a.initial.toList.map fun q => ⟨first, epsilon, q⟩) }

/-- The automaton started from a new state, unless it has at most one initial state. -/
def withSingleInitial (a : Automaton) : Except OperationFailure Automaton :=
  if a.initial.size ≤ 1 then .ok a
  else do
    let first ← a.freshState
    return a.startingFrom first

/-- The edges of a state in the automaton without epsilon. -/
def closedEdges (a : Automaton) (p : StateId) : List Edge :=
  (a.closure [p]).toList.flatMap fun q =>
    ((a.row q).toList.filter (!·.isEpsilon)).map fun t => ⟨p, t.symbol, t.target⟩

/-- The automaton that reads the same words without edges under epsilon. -/
def eliminateEpsilon (a : Automaton) : Automaton :=
  { kind := .nfa
    states := a.states
    alphabet := a.alphabet.erase epsilon
    initial := a.initial
    final := a.states.filter fun p => (a.closure [p]).any fun q => decide (q ∈ a.final)
    table := .ofEdges (a.states.toList.flatMap a.closedEdges) }

theorem hasEdge_startingFrom {a : Automaton} {first p q : StateId} {s : Symbol} :
    (a.startingFrom first).HasEdge p s q ↔
      a.HasEdge p s q ∨ p = first ∧ s = epsilon ∧ q ∈ a.initial := by
  show ⟨p, s, q⟩ ∈ a.table.insertAll _ ↔ _
  rw [TransitionTable.mem_insertAll]
  refine or_congr Iff.rfl ?_
  simp only [List.mem_map, Edge.mk.injEq, SortedSet.mem_toList]
  constructor
  · rintro ⟨_, hq, rfl, rfl, rfl⟩
    exact ⟨rfl, rfl, hq⟩
  · rintro ⟨rfl, rfl, hq⟩
    exact ⟨q, hq, rfl, rfl, rfl⟩

theorem mem_closedEdges {a : Automaton} {p : StateId} {e : Edge} :
    e ∈ a.closedEdges p ↔
      e.source = p ∧ e.symbol ≠ epsilon ∧ ∃ q ∈ a.closure [p], a.HasEdge q e.symbol e.target := by
  obtain ⟨p', s, r⟩ := e
  simp only [closedEdges, List.mem_flatMap, List.mem_map, List.mem_filter, Edge.mk.injEq,
    Transition.isEpsilon, Bool.not_eq_true', beq_eq_false_iff_ne, SortedSet.mem_toList,
    hasEdge_iff_mem_row]
  constructor
  · rintro ⟨q, hq, ⟨_, _⟩, ⟨ht, hs⟩, rfl, rfl, rfl⟩
    exact ⟨rfl, hs, q, hq, ht⟩
  · rintro ⟨rfl, hs, q, hq, ht⟩
    exact ⟨q, hq, ⟨s, r⟩, ⟨ht, hs⟩, rfl, rfl, rfl⟩

/-- An edge stands for a path under epsilon with one other edge at its end. -/
theorem hasEdge_eliminateEpsilon {a : Automaton} {p r : StateId} {s : Symbol} :
    a.eliminateEpsilon.HasEdge p s r ↔
      p ∈ a.states ∧ s ≠ epsilon ∧ ∃ q ∈ a.closure [p], a.HasEdge q s r := by
  show ⟨p, s, r⟩ ∈ TransitionTable.ofEdges (a.states.toList.flatMap a.closedEdges) ↔ _
  rw [TransitionTable.mem_ofEdges, List.mem_flatMap]
  constructor
  · rintro ⟨p', hp, he⟩
    obtain ⟨rfl, h⟩ := mem_closedEdges.1 he
    exact ⟨hp, h⟩
  · rintro ⟨hp, h⟩
    exact ⟨p, hp, mem_closedEdges.2 ⟨rfl, h⟩⟩

end FiniteAutomata.Automaton
