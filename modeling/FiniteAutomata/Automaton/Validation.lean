import FiniteAutomata.Automaton

/-!
Well-formed automata. `Automaton.Valid` states what a well-formed automaton is, and
`Automaton.validate` finds the first fault of one that is not: marks first, then the edges in
ascending order, then what only a deterministic automaton has to keep.
-/

namespace FiniteAutomata

inductive Fault where
  | danglingEdge (source : StateId) (symbol : Symbol) (target : StateId)
  | unknownState (state : StateId)
  /-- The symbol of an edge is neither epsilon nor in the alphabet. -/
  | unknownSymbol (source : StateId) (symbol : Symbol)
  | initialStateCount (count : Nat)
  /-- A deterministic automaton has epsilon in its alphabet or on an edge. -/
  | epsilonInDfa
  | nondeterministic (source : StateId) (symbol : Symbol)
  /-- Numbering `count` states from `start` needs a number above the largest one. -/
  | idOverflow (start : StateId) (count : Nat)
deriving DecidableEq

def Fault.message : Fault → String
  | .danglingEdge p s q => s!"Transition {p} --[{s}]-> {q} refers to a state that does not exist"
  | .unknownState q => s!"State {q} is marked initial or final but is not a state of the automaton"
  | .unknownSymbol p s => s!"Symbol {s} used by state {p} is not part of the alphabet"
  | .initialStateCount n => s!"A DFA must have exactly one initial state, found {n}"
  | .epsilonInDfa => "A DFA cannot contain epsilon transitions"
  | .nondeterministic p s => s!"State {p} of a DFA has more than one transition on symbol {s}"
  | .idOverflow start n => s!"Renaming {n} states starting at {start} overflows the state index range"

namespace Automaton

/-- One initial state, no epsilon, and at most one edge for each state and symbol. -/
structure Deterministic (a : Automaton) : Prop where
  one_initial : a.initial.size = 1
  epsilon_not_mem : epsilon ∉ a.alphabet
  no_epsilon : ∀ p q, ¬ a.HasEdge p epsilon q
  functional : ∀ p s q r, a.HasEdge p s q → a.HasEdge p s r → q = r

/-- All marks and edges stay inside the states and the alphabet, and an automaton that claims to be
deterministic is. -/
structure Valid (a : Automaton) : Prop where
  initial_mem : ∀ q ∈ a.initial, q ∈ a.states
  final_mem : ∀ q ∈ a.final, q ∈ a.states
  source_mem : ∀ p s q, a.HasEdge p s q → p ∈ a.states
  target_mem : ∀ p s q, a.HasEdge p s q → q ∈ a.states
  symbol_mem : ∀ p s q, a.HasEdge p s q → s = epsilon ∨ s ∈ a.alphabet
  deterministic : a.kind = .dfa → a.Deterministic

def markFault? (a : Automaton) : Option Fault :=
  ((a.initial.toList ++ a.final.toList).find? fun q => !decide (q ∈ a.states)).map .unknownState

def edgeFault? (a : Automaton) (e : Edge) : Option Fault :=
  if e.source ∉ a.states ∨ e.target ∉ a.states then some (.danglingEdge e.source e.symbol e.target)
  else if e.symbol ≠ epsilon ∧ e.symbol ∉ a.alphabet then some (.unknownSymbol e.source e.symbol)
  else none

/-- The first transition under epsilon or under a symbol of an earlier transition, among the
transitions of the state `p`; `seen` holds the symbols of the earlier ones. -/
def rowFault? (p : StateId) (seen : List Symbol) : List Transition → Option Fault
  | [] => none
  | t :: ts =>
    if t.isEpsilon then some .epsilonInDfa
    else if t.symbol ∈ seen then some (.nondeterministic p t.symbol)
    else rowFault? p (t.symbol :: seen) ts

def determinismFault? (a : Automaton) : Option Fault :=
  if a.initial.size ≠ 1 then some (.initialStateCount a.initial.size)
  else if epsilon ∈ a.alphabet then some .epsilonInDfa
  else a.table.rows.entries.findSome? fun r => rowFault? r.1 [] r.2.toList

def firstFault? (a : Automaton) : Option Fault :=
  a.markFault? <|> a.edges.findSome? a.edgeFault? <|>
    if a.isDeterministic then a.determinismFault? else none

def validate (a : Automaton) : Except Fault Unit :=
  match a.firstFault? with
  | some fault => .error fault
  | none => .ok ()

end Automaton

end FiniteAutomata
