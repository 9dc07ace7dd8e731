import FiniteAutomata.EpsilonElimination
import FiniteAutomata.SubsetConstruction

/-!
Determinization: one initial state, no edges under epsilon, and then the subset construction.
-/

namespace FiniteAutomata.Automaton

/-- A deterministic automaton that accepts the same words. An automaton that is deterministic already
is the result itself. With a limit the operation fails when the subset construction finds more sets. -/
def determinize (a : Automaton) (limit : Option Nat) : Except OperationFailure Automaton := do
  a.check
  if a.isDeterministic then return a
  if a.initial.isEmpty then return emptyLanguage (a.alphabet.erase epsilon)
  let single ← a.withSingleInitial
  let epsilonFree := single.eliminateEpsilon
  let memo ← SubsetMemo.build epsilonFree limit
  return memo.toAutomaton epsilonFree

end FiniteAutomata.Automaton
