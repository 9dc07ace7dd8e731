import FiniteAutomata.Automaton
import FiniteAutomata.Random.Source

/-!
Random automata over lower case letters. The result depends on the stream of words only.
-/

namespace FiniteAutomata.Random

def threeInTen : Draw Bool := Draw.isBelow 5534023222112865280

def oneInFive : Draw Bool := Draw.isBelow 3689348814741910528

/-- The first `n` lower case letters, and all of them when there are fewer. -/
def letters (n : Nat) : List Symbol :=
  (List.range (min n 26)).map fun i => String.singleton (Char.ofNat ('a'.toNat + i))

/-- The automaton with the states from 0 to `count - 1` added, each of them final or not. -/
def addStates (count : Nat) (a : Automaton) : Draw Automaton :=
  (List.range count).foldlM (fun a q => do
    let isFinal ← threeInTen
    return if isFinal then (a.addState q).addFinal q else a.addState q) a

/-- The automaton with the state 0 and, unless it is deterministic, perhaps another state made
initial. -/
def addInitial (count : Nat) (a : Automaton) : Draw Automaton := do
  let a := a.addInitial 0
  if a.isDeterministic then return a
  if ← threeInTen then
    let q ← Draw.below count
    return a.addInitial q
  return a

def anySymbol (symbols : List Symbol) : Draw Symbol := do
  let i ← Draw.below symbols.length
  return symbols.getD i epsilon

/-- The automaton with an edge from `p` to any state added. The symbol is any of `symbols` or, unless
the automaton is deterministic, epsilon. In a deterministic automaton the first edge under a symbol
stays the only one. -/
def addEdge (count : Nat) (symbols : List Symbol) (p : StateId) (a : Automaton) : Draw Automaton := do
  let q ← Draw.below count
  if a.isDeterministic then
    let s ← anySymbol symbols
    return if (a.successor? p s).isNone then a.addEdge ⟨p, s, q⟩ else a
  if ← oneInFive then
    return a.addEdge ⟨p, epsilon, q⟩
  let s ← anySymbol symbols
  return a.addEdge ⟨p, s, q⟩

def addEdgesFrom (count : Nat) (symbols : List Symbol) (outdegree : Nat) (a : Automaton) (p : StateId) :
    Draw Automaton := do
  let edges ← Draw.below (outdegree + 1)
  (List.range edges).foldlM (fun a _ => addEdge count symbols p a) a

/-- An automaton of a kind, with `count` states, at most 26 symbols and at most `outdegree` edges from
each state. -/
def generate (kind : Kind) (count symbolCount outdegree : Nat) : Draw Automaton := do
  let symbols := letters symbolCount
  let a ← addStates count { kind, alphabet := .ofList symbols }
  if count = 0 then return a
  let a ← addInitial count a
  if symbols.isEmpty then return a
  (List.range count).foldlM (addEdgesFrom count symbols outdegree) a

end FiniteAutomata.Random
