import FiniteAutomata.Automaton

/-!
The words of an automaton. `Automaton.Recognizes` states acceptance by paths of edges, and
`Automaton.accepts` decides it by following the set of the states that can be reached.
-/

namespace FiniteAutomata.Automaton

/-- A path from one state to another that consumes a word. An edge under epsilon may be taken
without consuming a symbol. -/
inductive Path (a : Automaton) : StateId → List Symbol → StateId → Prop where
  | nil (p : StateId) : Path a p [] p
  | silent {p q r : StateId} {w : List Symbol} : a.HasEdge p epsilon q → Path a q w r → Path a p w r
  | read {p q r : StateId} {s : Symbol} {w : List Symbol} :
    a.HasEdge p s q → Path a q w r → Path a p (s :: w) r

/-- Some path from an initial to a final state consumes the word. -/
def Recognizes (a : Automaton) (w : List Symbol) : Prop :=
  ∃ p ∈ a.initial, ∃ q ∈ a.final, a.Path p w q

/-- The states reached from some states by edges under epsilon. -/
def closure (a : Automaton) (start : List StateId) : SortedSet StateId :=
  .ofList (a.table.reach Transition.isEpsilon start)

/-- The states reached from some states by an edge under `s` and then edges under epsilon. -/
def step (a : Automaton) (current : SortedSet StateId) (s : Symbol) : SortedSet StateId :=
  a.closure (current.toList.flatMap fun q => a.successors q s)

def statesAfter (a : Automaton) (w : List Symbol) : SortedSet StateId :=
  w.foldl a.step (a.closure a.initial.toList)

def accepts (a : Automaton) (w : List Symbol) : Bool := (a.statesAfter w).any fun q => decide (q ∈ a.final)

end FiniteAutomata.Automaton
