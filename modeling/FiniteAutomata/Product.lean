import FiniteAutomata.Automaton

/-!
The product of two deterministic automata, in which both read the same word. Its states are the pairs
that are reached from the pair of initial states, numbered breadth first along the symbols of the left
automaton in ascending order.
-/

namespace FiniteAutomata.Product

/-- The pairs that follow a pair, each after its symbol. -/
def row (a b : Automaton) (pair : StateId × StateId) : List (Symbol × StateId × StateId) :=
  a.alphabet.toList.filterMap fun s =>
    match a.successor? pair.1 s, b.successor? pair.2 s with
    | some p, some q => some (s, p, q)
    | _, _ => none

/-- The pairs reached from a pair, in breadth-first order. Apart from the first one, each of them holds
the targets of two edges. -/
def pairs (a b : Automaton) (first : StateId × StateId) : List (StateId × StateId) :=
  Search.reach (fun pair => (row a b pair).map (·.2)) (1 + a.edgeCount * b.edgeCount) [first]

/-- The product automaton, which accepts what both automata accept. -/
def automaton (a b : Automaton) : Automaton :=
  match a.initialState?, b.initialState? with
  | some p, some q =>
    let pairs := pairs a b (p, q)
    { kind := .dfa
      states := .ofList (List.range pairs.length)
      alphabet := a.alphabet ∪ b.alphabet
      initial := .ofList [0]
      final := .ofList
        ((pairs.filter fun pair => decide (pair.1 ∈ a.final) && decide (pair.2 ∈ b.final)).map pairs.idxOf)
      table := .ofEdges (pairs.flatMap fun pair =>
        (row a b pair).map fun m => ⟨pairs.idxOf pair, m.1, pairs.idxOf m.2⟩) }
  | _, _ => .emptyLanguage (a.alphabet ∪ b.alphabet)

end FiniteAutomata.Product
