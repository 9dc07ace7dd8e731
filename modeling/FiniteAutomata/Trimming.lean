import FiniteAutomata.Automaton

/-!
Removing the states that no accepted word needs: first those that are not reached from the initial
state, then those from which no final state is reached.
-/

namespace FiniteAutomata

def TransitionTable.filter (keep : Edge → Bool) (t : TransitionTable) : TransitionTable :=
  ofEdges (t.edges.filter keep)

@[simp] theorem TransitionTable.mem_filter {keep : Edge → Bool} {t : TransitionTable} {e : Edge} :
    e ∈ t.filter keep ↔ e ∈ t ∧ keep e = true := by
  simp [filter]

namespace Automaton

/-- The edges by target. The row of a state lists symbols and sources. -/
def incoming (a : Automaton) : TransitionTable := a.table.reverse

/-- The states reached from one state, which becomes the initial one. -/
def partReachedFrom (a : Automaton) (first : StateId) : Automaton :=
  let reached := a.table.reach (fun _ => true) [first]
  let kept := a.states.filter fun q => decide (q ∈ reached)
  { kind := .dfa
    states := kept.insert first
    alphabet := a.alphabet
    initial := .ofList [first]
    final := kept.filter fun q => decide (q ∈ a.final)
    table := a.table.filter fun e => decide (e.source ∈ kept) }

def reachablePart (a : Automaton) : Automaton :=
  match a.initialState? with
  | none => emptyLanguage a.alphabet
  | some first => a.partReachedFrom first

def productivePart (a : Automaton) : Automaton :=
  let useful := a.incoming.reach (fun _ => true) a.final.toList
  let initial := a.initial.filter fun q => decide (q ∈ useful)
  let kept := a.states.filter fun q => decide (q ∈ useful)
  { kind := .dfa
    states := kept ∪ initial
    alphabet := a.alphabet
    initial
    final := kept.filter fun q => decide (q ∈ a.final)
    table := a.table.filter fun e => decide (e.source ∈ kept) && decide (e.target ∈ useful) }

/-- The states from which a final state is reached, or the empty language when no initial state is
among them. -/
def usefulPart (a : Automaton) : Automaton :=
  let part := a.productivePart
  if a.final.isEmpty || part.initial.isEmpty then emptyLanguage a.alphabet else part

/-- Both removals, in this order. -/
def trim (a : Automaton) : Automaton := a.reachablePart.usefulPart

end Automaton

end FiniteAutomata
