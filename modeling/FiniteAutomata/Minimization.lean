import FiniteAutomata.Automaton.Numbering
import FiniteAutomata.Determinization
import FiniteAutomata.Refinement
import FiniteAutomata.Trimming

/-!
Minimization: determinize, trim, and merge equivalent states. The result is numbered in breadth-first
order, so that automata which accept the same words over the same alphabet have the same result.
-/

namespace FiniteAutomata.Automaton

def mergedInitial (a : Automaton) (t : PairTable) : StateId := t.representative (a.initialState?.getD 0)

/-- The edges of a state, with every target replaced by the state that stands for it. -/
def mergedEdges (a : Automaton) (t : PairTable) (q : StateId) : List Edge :=
  (a.row q).toList.map fun τ => ⟨q, τ.symbol, t.representative τ.target⟩

/-- The states that stand for their class and are reached from the initial one. -/
def keptStates (a : Automaton) (t : PairTable) : List StateId :=
  Search.reach (fun q => (a.mergedEdges t q).map (·.target)) (1 + a.edgeCount) [a.mergedInitial t]

def quotient (a : Automaton) (t : PairTable) : Automaton :=
  { kind := .dfa
    states := .ofList (a.keptStates t)
    alphabet := a.alphabet
    initial := .ofList [a.mergedInitial t]
    final := .ofList ((a.keptStates t).filter fun q => decide (q ∈ a.final))
    table := .ofEdges ((a.keptStates t).flatMap (a.mergedEdges t)) }

/-- The automaton with equivalent states merged. It has to be deterministic and trimmed. -/
def reduce (a : Automaton) : Except Fault Automaton := do
  let numbered ← a.renumber 0
  (numbered.quotient numbered.refinement.table).renumber 0

/-- The smallest deterministic automaton that accepts the same words. -/
def minimize (a : Automaton) (limit : Option Nat) : Except OperationFailure Automaton := do
  let deterministic ← a.determinize limit
  deterministic.trim.reduce.mapError .invalid

end FiniteAutomata.Automaton
