import FiniteAutomata.Automaton
import FiniteAutomata.Text.Quoted

/-!
Automata as text for the eye: a summary with the counts, and a listing that adds the symbols, the
marked states and the edges.
-/

namespace FiniteAutomata.Automaton

open Text

def braces (texts : List String) : String := "\x7b" ++ ", ".intercalate texts ++ "\x7d"

def summary (a : Automaton) : String :=
  s!"Kind: {a.kind.name}\nNumber of states: {a.stateCount}\nNumber of symbols: {a.alphabet.size}\n" ++
    s!"Number of transitions: {a.edgeCount}"

/-- The summary, the alphabet, the marked states and the edges, one on a line. -/
def listing (a : Automaton) : String :=
  let alphabet := braces (a.alphabet.toList.map Quoted.quote)
  let initial := braces (a.initial.toList.map toString)
  let final := braces (a.final.toList.map toString)
  let edges := a.edges.map fun e => s!"{e.source} --[{e.symbol}]-> {e.target}\n"
  s!"{a.summary}\nAlphabet: {alphabet}\nInitial states: {initial}\nFinal states: {final}\n" ++
    String.join edges

end FiniteAutomata.Automaton
