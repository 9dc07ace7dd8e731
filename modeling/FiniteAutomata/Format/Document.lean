import FiniteAutomata.Automaton

/-!
Automaton files as data. A document has a header with the kind and the symbols, and state lines with
a marker, a state and one list of targets for each symbol. Several lines may describe one state; the
automaton of a document collects what all of them say.
-/

namespace FiniteAutomata.Format

/-- The kind of an automaton and the symbols of its columns. -/
structure Header where
  kind : Kind
  symbols : List Symbol
deriving DecidableEq

/-- One line about a state: its marks, and its targets under each symbol of the header. -/
structure StateLine where
  isInitial : Bool
  isFinal : Bool
  state : StateId
  targets : List (List StateId)
deriving DecidableEq

structure Document where
  header : Header
  lines : List StateLine
deriving DecidableEq

def StateLine.mentioned (line : StateLine) : List StateId := line.state :: line.targets.flatten

def StateLine.edges (symbols : List Symbol) (line : StateLine) : List Edge :=
  (symbols.zip line.targets).flatMap fun column => column.2.map fun q => ⟨line.state, column.1, q⟩

namespace Document

def automaton (d : Document) : Automaton :=
  { kind := d.header.kind
    states := .ofList (d.lines.flatMap (·.mentioned))
    alphabet := .ofList d.header.symbols
    initial := .ofList ((d.lines.filter (·.isInitial)).map (·.state))
    final := .ofList ((d.lines.filter (·.isFinal)).map (·.state))
    table := .ofEdges (d.lines.flatMap (·.edges d.header.symbols)) }

def lineOf (a : Automaton) (q : StateId) : StateLine :=
  { isInitial := decide (q ∈ a.initial)
    isFinal := decide (q ∈ a.final)
    state := q
    targets := a.alphabet.toList.map (a.successors q) }

/-- The document of an automaton: its symbols in ascending order, and one line for each state in
ascending order. An edge under a symbol outside the alphabet has no column. -/
def ofAutomaton (a : Automaton) : Document :=
  { header := { kind := a.kind, symbols := a.alphabet.toList }
    lines := a.states.toList.map (lineOf a) }

end Document

end FiniteAutomata.Format
