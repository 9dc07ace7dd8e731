import FiniteAutomata.OperationFailure

/-!
The subset construction. A state of the deterministic automaton is a set of states of the given one,
which must be without edges under epsilon. A first search discovers the sets breadth first and records
in a memo table which set follows which; a second search, along the table, numbers the sets and builds
the automaton.
-/

namespace FiniteAutomata

namespace Automaton

def targetSet (a : Automaton) (set : SortedSet StateId) (s : Symbol) : SortedSet StateId :=
  .ofList (set.toList.flatMap fun q => a.successors q s)

def leavingSymbols (a : Automaton) (set : SortedSet StateId) : SortedSet Symbol :=
  .ofList (set.toList.flatMap fun q => (a.row q).toList.map (·.symbol))

/-- The sets that follow a set, each after its symbol. -/
def subsetRow (a : Automaton) (set : SortedSet StateId) : List (Symbol × SortedSet StateId) :=
  (a.leavingSymbols set).toList.map fun s => (s, a.targetSet set s)

/-- The number of sets of states, which bounds the searches for them. -/
def setCount (a : Automaton) : Nat := Nat.pow 2 a.stateCount

@[simp] theorem mem_targetSet {a : Automaton} {set : SortedSet StateId} {s : Symbol} {q : StateId} :
    q ∈ a.targetSet set s ↔ ∃ p ∈ set, a.HasEdge p s q := by
  simp [targetSet, mem_successors, SortedSet.mem_toList]

@[simp] theorem mem_leavingSymbols {a : Automaton} {set : SortedSet StateId} {s : Symbol} :
    s ∈ a.leavingSymbols set ↔ ∃ p ∈ set, ∃ q, a.HasEdge p s q := by
  simp only [leavingSymbols, SortedSet.mem_ofList, List.mem_flatMap, List.mem_map,
    SortedSet.mem_toList, hasEdge_iff_mem_row]
  constructor
  · rintro ⟨p, hp, ⟨_, q⟩, ht, rfl⟩
    exact ⟨p, hp, q, ht⟩
  · rintro ⟨p, hp, q, ht⟩
    exact ⟨p, hp, ⟨s, q⟩, ht, rfl⟩

/-- A move leads to the set of all targets under its symbol, which is not empty. -/
theorem mem_subsetRow {a : Automaton} {set set' : SortedSet StateId} {s : Symbol} :
    (s, set') ∈ a.subsetRow set ↔ set' = a.targetSet set s ∧ ∃ q, q ∈ set' := by
  simp only [subsetRow, List.mem_map, SortedSet.mem_toList, mem_leavingSymbols, Prod.mk.injEq]
  constructor
  · rintro ⟨_, ⟨p, hp, q, ht⟩, rfl, rfl⟩
    exact ⟨rfl, q, mem_targetSet.2 ⟨p, hp, ht⟩⟩
  · rintro ⟨rfl, q, hq⟩
    obtain ⟨p, hp, ht⟩ := mem_targetSet.1 hq
    exact ⟨s, ⟨p, hp, q, ht⟩, rfl, rfl⟩

end Automaton

/-- A set of states and a symbol that leaves it. -/
structure SubsetKey where
  set : SortedSet StateId
  symbol : Symbol
deriving DecidableEq

/-- The set that follows each visited set under each symbol that leaves it. -/
structure SubsetMemo where
  entries : List (SubsetKey × SortedSet StateId)
deriving DecidableEq

namespace SubsetMemo

instance : EmptyCollection SubsetMemo := ⟨⟨[]⟩⟩

def size (m : SubsetMemo) : Nat := m.entries.length

def successor? (m : SubsetMemo) (set : SortedSet StateId) (s : Symbol) : Option (SortedSet StateId) :=
  m.entries.lookup ⟨set, s⟩

def record (m : SubsetMemo) (set : SortedSet StateId) (row : List (Symbol × SortedSet StateId)) :
    SubsetMemo :=
  ⟨m.entries ++ row.map fun move => (⟨set, move.1⟩, move.2)⟩

/-- Fails when `count` sets are more than the limit allows. -/
def checkLimit (limit : Option Nat) (count : Nat) : Except OperationFailure Unit :=
  match limit with
  | some limit => if limit < count then .error (.limitExceeded limit) else .ok ()
  | none => .ok ()

/-- The sets of a list that are not among the `found` ones, each once. Every one of them counts
against the limit as it is met. -/
def discover (limit : Option Nat) (found : List (SortedSet StateId)) :
    List (SortedSet StateId) → Except OperationFailure (List (SortedSet StateId))
  | [] => .ok []
  | set :: sets =>
    if set ∈ found then discover limit found sets
    else do
      checkLimit limit (found.length + 1)
      let rest ← discover limit (set :: found) sets
      return set :: rest

/-- Visits the sets of `queue` in order, puts the sets that follow each one and are new at the end of
the queue, and records the moves; at most `fuel` sets are visited. -/
def explore (a : Automaton) (limit : Option Nat) :
    (fuel : Nat) → (visited queue : List (SortedSet StateId)) → SubsetMemo →
      Except OperationFailure SubsetMemo
  | 0, _, _, m => .ok m
  | _ + 1, _, [], m => .ok m
  | fuel + 1, visited, set :: queue, m => do
    let row := a.subsetRow set
    let new ← discover limit (visited ++ set :: queue) (row.map (·.2))
    explore a limit fuel (visited ++ [set]) (queue ++ new) (m.record set row)

/-- The table of all sets that are reached from the set of initial states, or a failure when there are
more of them than the limit allows. -/
def build (a : Automaton) (limit : Option Nat) : Except OperationFailure SubsetMemo := do
  checkLimit limit 1
  explore a limit a.setCount [] [a.initial] ∅

/-- The moves that the table holds for a set, in the order of an alphabet. -/
def row (m : SubsetMemo) (alphabet : SortedSet Symbol) (set : SortedSet StateId) :
    List (Symbol × SortedSet StateId) :=
  alphabet.toList.filterMap fun s => (m.successor? set s).map fun set' => (s, set')

/-- The sets reached from the set of initial states of `a` by moves of the table, in breadth-first
order. A set is numbered by its position. -/
def numbering (m : SubsetMemo) (a : Automaton) : List (SortedSet StateId) :=
  Search.reach (fun set => (m.row a.alphabet set).map (·.2)) (1 + m.size) [a.initial]

/-- The deterministic automaton whose states are the numbers of the sets. -/
def toAutomaton (m : SubsetMemo) (a : Automaton) : Automaton :=
  let sets := m.numbering a
  { kind := .dfa
    states := .ofList (List.range sets.length)
    alphabet := a.alphabet
    initial := .ofList [0]
    final := .ofList ((sets.filter (·.any fun q => decide (q ∈ a.final))).map sets.idxOf)
    table := .ofEdges (sets.flatMap fun set =>
      (m.row a.alphabet set).map fun move => ⟨sets.idxOf set, move.1, sets.idxOf move.2⟩) }

end SubsetMemo

end FiniteAutomata
