import FiniteAutomata.TransitionTable

/-!
Finite automata, built by adding states, symbols, marks and transitions in any order. Nothing forces
an edge to stay inside the states and the alphabet while an automaton is built; `Automaton.validate`
checks it.
-/

namespace FiniteAutomata

inductive Kind where
  | nfa
  | dfa
deriving DecidableEq, Inhabited

def Kind.name : Kind → String
  | .nfa => "NFA"
  | .dfa => "DFA"

/-- A finite automaton. Its edges may leave or enter numbers that are not among its states. -/
structure Automaton where
  kind : Kind
  states : SortedSet StateId := ∅
  alphabet : SortedSet Symbol := ∅
  initial : SortedSet StateId := ∅
  final : SortedSet StateId := ∅
  table : TransitionTable := ∅
deriving DecidableEq, Inhabited

namespace Automaton

def empty (kind : Kind) : Automaton := { kind }

/-- The automaton that accepts no word: the state 0, which is initial and not final. -/
def emptyLanguage (alphabet : SortedSet Symbol) : Automaton :=
  { kind := .dfa, states := .ofList [0], alphabet, initial := .ofList [0] }

def isDeterministic (a : Automaton) : Bool := a.kind == .dfa

def withKind (a : Automaton) (kind : Kind) : Automaton := { a with kind }

def addState (a : Automaton) (q : StateId) : Automaton := { a with states := a.states.insert q }

def addSymbol (a : Automaton) (s : Symbol) : Automaton := { a with alphabet := a.alphabet.insert s }

/-- The automaton with `q` as a state and as an initial state. -/
def addInitial (a : Automaton) (q : StateId) : Automaton :=
  { a with states := a.states.insert q, initial := a.initial.insert q }

def addFinal (a : Automaton) (q : StateId) : Automaton :=
  { a with states := a.states.insert q, final := a.final.insert q }

/-- The automaton with an edge added; the ends of the edge and its symbol are not added. -/
def addEdge (a : Automaton) (e : Edge) : Automaton := { a with table := a.table.insert e }

def clear (a : Automaton) : Automaton := empty a.kind

/-- The smallest initial state. -/
def initialState? (a : Automaton) : Option StateId := a.initial.min?

def largestState? (a : Automaton) : Option StateId := a.states.max?

def row (a : Automaton) (q : StateId) : SortedSet Transition := a.table.row q

/-- The targets of the transitions of a state under a symbol, in ascending order. -/
def successors (a : Automaton) (q : StateId) (s : Symbol) : List StateId :=
  ((a.row q).toList.filter (·.symbol == s)).map (·.target)

/-- The smallest target of the transitions of a state under a symbol. -/
def successor? (a : Automaton) (q : StateId) (s : Symbol) : Option StateId := (a.successors q s).head?

/-- The edges, in ascending order of source, symbol and target. -/
def edges (a : Automaton) : List Edge := a.table.edges

def stateCount (a : Automaton) : Nat := a.states.size

def edgeCount (a : Automaton) : Nat := a.table.size

/-- Whether an edge leads from `p` to `q` under `s`. -/
def HasEdge (a : Automaton) (p : StateId) (s : Symbol) (q : StateId) : Prop := ⟨p, s, q⟩ ∈ a.table

instance (a : Automaton) (p : StateId) (s : Symbol) (q : StateId) : Decidable (a.HasEdge p s q) :=
  inferInstanceAs (Decidable (⟨p, s, q⟩ ∈ a.table))

theorem hasEdge_iff_mem_row {a : Automaton} {p q : StateId} {s : Symbol} :
    a.HasEdge p s q ↔ ⟨s, q⟩ ∈ a.row p := Iff.rfl

theorem mem_edges {a : Automaton} {p q : StateId} {s : Symbol} :
    ⟨p, s, q⟩ ∈ a.edges ↔ a.HasEdge p s q := TransitionTable.mem_edges

theorem length_edges (a : Automaton) : a.edges.length = a.edgeCount := a.table.length_edges

theorem hasEdge_addEdge {a : Automaton} {e : Edge} {p q : StateId} {s : Symbol} :
    (a.addEdge e).HasEdge p s q ↔ ⟨p, s, q⟩ = e ∨ a.HasEdge p s q := TransitionTable.mem_insert

theorem mem_successors {a : Automaton} {p q : StateId} {s : Symbol} :
    q ∈ a.successors p s ↔ a.HasEdge p s q := by
  simp only [successors, List.mem_map, List.mem_filter, beq_iff_eq, hasEdge_iff_mem_row]
  constructor
  · rintro ⟨⟨_, _⟩, ⟨h, rfl⟩, rfl⟩
    exact h
  · exact fun h => ⟨⟨s, q⟩, ⟨h, rfl⟩, rfl⟩

theorem hasEdge_of_successor? {a : Automaton} {p q : StateId} {s : Symbol}
    (h : a.successor? p s = some q) : a.HasEdge p s q :=
  mem_successors.1 (List.mem_of_head? h)

theorem not_hasEdge_of_successor? {a : Automaton} {p q : StateId} {s : Symbol}
    (h : a.successor? p s = none) : ¬ a.HasEdge p s q := by
  rw [← mem_successors, List.head?_eq_none_iff.1 h]
  exact List.not_mem_nil

/-- Two automata of one kind are equal when they have the same states, symbols, marks and rows. -/
theorem ext {a b : Automaton} (kind : a.kind = b.kind) (states : ∀ q, q ∈ a.states ↔ q ∈ b.states)
    (alphabet : ∀ s, s ∈ a.alphabet ↔ s ∈ b.alphabet) (initial : ∀ q, q ∈ a.initial ↔ q ∈ b.initial)
    (final : ∀ q, q ∈ a.final ↔ q ∈ b.final) (table : a.table = b.table) : a = b := by
  obtain ⟨k, s, l, i, f, t⟩ := a
  obtain ⟨k', s', l', i', f', t'⟩ := b
  obtain rfl : k = k' := kind
  obtain rfl : s = s' := SortedSet.ext states
  obtain rfl : l = l' := SortedSet.ext alphabet
  obtain rfl : i = i' := SortedSet.ext initial
  obtain rfl : f = f' := SortedSet.ext final
  obtain rfl : t = t' := table
  rfl

end Automaton

end FiniteAutomata
