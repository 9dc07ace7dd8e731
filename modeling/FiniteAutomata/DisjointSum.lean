import FiniteAutomata.Automaton.Numbering
import FiniteAutomata.OperationFailure

/-!
Two automata side by side. The left one keeps its states, and the states of the right one get the
numbers above them.
-/

namespace FiniteAutomata

structure DisjointSum where
  left : Automaton
  right : Automaton

namespace DisjointSum

/-- The left automaton, and the right one numbered above the left states. -/
def build (left right : Automaton) : Except OperationFailure DisjointSum := do
  left.check
  right.check
  let start ← left.freshState
  let above ← (right.renumber start).mapError .invalid
  match above.states.toList.find? fun q => decide (q ∈ left.states) with
  | some q => throw (.collision q)
  | none => return { left, right := above }

def automaton (sum : DisjointSum) : Automaton :=
  { kind := .nfa
    states := sum.left.states ∪ sum.right.states
    alphabet := sum.left.alphabet ∪ sum.right.alphabet
    table := sum.left.table.insertAll sum.right.edges }

theorem hasEdge_automaton {sum : DisjointSum} {p q : StateId} {s : Symbol} :
    sum.automaton.HasEdge p s q ↔ sum.left.HasEdge p s q ∨ sum.right.HasEdge p s q := by
  show ⟨p, s, q⟩ ∈ sum.left.table.insertAll sum.right.edges ↔ _
  rw [TransitionTable.mem_insertAll, Automaton.mem_edges]
  rfl

end DisjointSum

end FiniteAutomata
