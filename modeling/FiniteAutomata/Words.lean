import FiniteAutomata.Automaton.Acceptance

/-!
Lists of words, by length first and then in the order of their symbols.
-/

namespace FiniteAutomata

/-- Every word of the list followed by every symbol. -/
def extendWords (symbols : List Symbol) (words : List (List Symbol)) : List (List Symbol) :=
  words.flatMap fun w => symbols.map fun s => w ++ [s]

theorem mem_extendWords {symbols : List Symbol} {words : List (List Symbol)} {w : List Symbol} :
    w ∈ extendWords symbols words ↔ ∃ v ∈ words, ∃ s ∈ symbols, v ++ [s] = w := by
  simp [extendWords]

/-- The words of the list, and all words that go on from them by at most `n` symbols. -/
def wordsFrom (symbols : List Symbol) : (n : Nat) → List (List Symbol) → List (List Symbol)
  | 0, words => words
  | n + 1, words => words ++ wordsFrom symbols n (extendWords symbols words)

/-- The words of at most `n` symbols over the given symbols other than epsilon. -/
def wordsUpTo (symbols : List Symbol) (n : Nat) : List (List Symbol) :=
  wordsFrom ((SortedSet.ofList symbols).erase epsilon).toList n [[]]

def Automaton.languageUpTo (a : Automaton) (n : Nat) : List (List Symbol) :=
  (wordsUpTo a.alphabet.toList n).filter a.accepts

end FiniteAutomata
