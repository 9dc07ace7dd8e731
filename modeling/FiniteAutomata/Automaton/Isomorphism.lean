import FiniteAutomata.Automaton

/-!
Equality of deterministic automata up to the names of their states. `Automaton.IsIsomorphism` says
what a renaming keeps, and `Automaton.isIsomorphic` looks for one by walking through both automata at
once from their initial states.
-/

namespace FiniteAutomata.Automaton

/-- `f` maps the states of `a` one to one onto those of `b`, and keeps marks and edges. -/
structure IsIsomorphism (a b : Automaton) (f : StateId → StateId) : Prop where
  alphabet : a.alphabet = b.alphabet
  injective : ∀ p ∈ a.states, ∀ q ∈ a.states, f p = f q → p = q
  states : ∀ q, q ∈ b.states ↔ ∃ p ∈ a.states, f p = q
  initial : ∀ p ∈ a.states, f p ∈ b.initial ↔ p ∈ a.initial
  final : ∀ p ∈ a.states, f p ∈ b.final ↔ p ∈ a.final
  edges : ∀ p ∈ a.states, ∀ s, ∀ q ∈ a.states, b.HasEdge (f p) s (f q) ↔ a.HasEdge p s q

/-- Pairs of states that have to correspond to each other, in the order in which they were found. -/
abbrev Pairing := List (StateId × StateId)

namespace Pairing

def rightOf? (pairs : Pairing) (p : StateId) : Option StateId := (pairs.find? (·.1 == p)).map (·.2)

def leftOf? (pairs : Pairing) (q : StateId) : Option StateId := (pairs.find? (·.2 == q)).map (·.1)

/-- The pairs with `p` and `q` made partners, unless one of them has another partner. -/
def join? (pairs : Pairing) (p q : StateId) : Option Pairing :=
  match pairs.rightOf? p, pairs.leftOf? q with
  | none, none => some (pairs ++ [(p, q)])
  | some q', some _ => if q' = q then some pairs else none
  | _, _ => none

end Pairing

/-- The pairs with the targets of some transitions of the left automaton joined to the targets from
the right state `q` under the same symbols. -/
def joinTargets? (b : Automaton) (q : StateId) (pairs : Pairing) : List Transition → Option Pairing
  | [] => some pairs
  | t :: ts => do
    let target ← b.successor? q t.symbol
    let pairs ← pairs.join? t.target target
    joinTargets? b q pairs ts

/-- The pairs once the ones from the position `i` on have been compared, at most `fuel` of them. -/
def comparePairs? (a b : Automaton) : (fuel i : Nat) → Pairing → Option Pairing
  | 0, _, pairs => some pairs
  | fuel + 1, i, pairs =>
    match pairs[i]? with
    | none => some pairs
    | some (p, q) =>
      if decide (p ∈ a.final) = decide (q ∈ b.final) ∧ (a.row p).size = (b.row q).size then do
        let pairs ← joinTargets? b q pairs (a.row p).toList
        comparePairs? a b fuel (i + 1) pairs
      else none

/-- Whether two deterministic automata are equal up to the names of their states, all of which are
reached from the initial state. -/
def isIsomorphic (a b : Automaton) : Bool :=
  if a.alphabet = b.alphabet ∧ a.stateCount = b.stateCount ∧ a.edgeCount = b.edgeCount then
    match a.initialState?, b.initialState? with
    | some p, some q =>
      match comparePairs? a b (1 + a.edgeCount) 0 [(p, q)] with
      | some pairs => pairs.length == a.stateCount
      | none => false
    | none, none => true
    | _, _ => false
  else false

end FiniteAutomata.Automaton
