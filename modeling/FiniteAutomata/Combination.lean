import FiniteAutomata.DisjointSum
import FiniteAutomata.Minimization
import FiniteAutomata.Product

/-!
Union, concatenation and intersection of the words of two automata. Each result is determinized and
then minimized.
-/

namespace FiniteAutomata

namespace DisjointSum

def alternatives (sum : DisjointSum) : Except OperationFailure Automaton := do
  let both := { sum.automaton with
    initial := sum.left.initial ∪ sum.right.initial
    final := sum.left.final ∪ sum.right.final }
  let first ← both.freshState
  return both.startingFrom first

/-- Both automata in a row: edges under epsilon lead from the final states of the left one to the
initial states of the right one. -/
def sequence (sum : DisjointSum) : Automaton :=
  let both := sum.automaton
  { both with
    initial := sum.left.initial
    final := sum.right.final
    table := both.table.insertAll (sum.left.final.toList.flatMap fun p =>
      sum.right.initial.toList.map fun q => ⟨p, epsilon, q⟩) }

theorem hasEdge_sequence {sum : DisjointSum} {p q : StateId} {s : Symbol} :
    sum.sequence.HasEdge p s q ↔
      sum.automaton.HasEdge p s q ∨ p ∈ sum.left.final ∧ s = epsilon ∧ q ∈ sum.right.initial := by
  show ⟨p, s, q⟩ ∈ sum.automaton.table.insertAll _ ↔ _
  rw [TransitionTable.mem_insertAll]
  refine or_congr Iff.rfl ?_
  simp only [List.mem_flatMap, List.mem_map, Edge.mk.injEq, SortedSet.mem_toList]
  constructor
  · rintro ⟨_, hp, _, hq, rfl, rfl, rfl⟩
    exact ⟨hp, rfl, hq⟩
  · rintro ⟨hp, rfl, hq⟩
    exact ⟨p, hp, q, hq, rfl, rfl, rfl⟩

end DisjointSum

namespace Automaton

/-- The minimal automaton of the words of an automaton, found from a deterministic one. -/
def normalize (a : Automaton) (limit : Option Nat) : Except OperationFailure Automaton := do
  let deterministic ← a.determinize limit
  deterministic.minimize limit

def union (a b : Automaton) (limit : Option Nat) : Except OperationFailure Automaton := do
  let sum ← DisjointSum.build a b
  let joined ← sum.alternatives
  joined.normalize limit

/-- The minimal automaton of the words that consist of a word of `a` and a word of `b`. -/
def concatenation (a b : Automaton) (limit : Option Nat) : Except OperationFailure Automaton := do
  let sum ← DisjointSum.build a b
  sum.sequence.normalize limit

def intersection (a b : Automaton) (limit : Option Nat) : Except OperationFailure Automaton := do
  a.check
  b.check
  let left ← a.determinize limit
  let right ← b.determinize limit
  (Product.automaton left right).normalize limit

end Automaton

end FiniteAutomata
