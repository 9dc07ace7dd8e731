import FiniteAutomata.Proofs.DisjointSum
import FiniteAutomata.Proofs.Minimization
import FiniteAutomata.Proofs.Product

/-! The words of combined automata. Each combination determinizes and minimizes an automaton that has the
words that are asked for, and both steps keep words, so what remains of a combination is the automaton that
it starts from. The right operand of a sum is renumbered first, which is why that operand has to be one that
can be built. -/

namespace FiniteAutomata.Automaton

variable {a b c d m u : Automaton} {limit : Option Nat} {w : List Symbol}

theorem Determinizes.minimizes (hd : a.Determinizes d) (hm : d.Minimizes m) : a.Minimizes m where
  reduced := hm.reduced
  rows := hm.rows
  renumber := hm.renumber
  alphabet := by
    rw [hm.alphabet, hd.alphabet, erase_epsilon_erase]
  recognizes w hw := (hm.recognizes w hw).trans (hd.recognizes w hw)

theorem normalize_spec (hm : a.normalize limit = .ok m) : a.Valid ∧ a.Minimizes m := by
  obtain ⟨d, hd, hm⟩ := bind_eq_ok.1 hm
  obtain ⟨hvalid, hdeterminizes⟩ := determinize_spec hd
  exact ⟨hvalid, hdeterminizes.minimizes (minimize_spec hm).2⟩

/-- The result minimizes the sum, started from a new state. -/
theorem exists_of_union (hu : a.union b limit = .ok u) : ∃ sum joined,
    DisjointSum.build a b = .ok sum ∧ sum.alternatives = .ok joined ∧ joined.Minimizes u := by
  obtain ⟨sum, hsum, hu⟩ := bind_eq_ok.1 hu
  obtain ⟨joined, hjoined, hu⟩ := bind_eq_ok.1 hu
  exact ⟨sum, joined, hsum, hjoined, (normalize_spec hu).2⟩

/-- The result minimizes the sum, put in a row. -/
theorem exists_of_concatenation (hc : a.concatenation b limit = .ok c) : ∃ sum,
    DisjointSum.build a b = .ok sum ∧ sum.sequence.Minimizes c := by
  obtain ⟨sum, hsum, hc⟩ := bind_eq_ok.1 hc
  exact ⟨sum, hsum, (normalize_spec hc).2⟩

/-- The result minimizes the product of deterministic automata for the operands. -/
theorem exists_of_intersection (hm : a.intersection b limit = .ok m) : ∃ left right,
    a.Determinizes left ∧ b.Determinizes right ∧ (Product.automaton left right).Minimizes m := by
  obtain ⟨_, _, hm⟩ := bind_eq_ok.1 hm
  obtain ⟨_, _, hm⟩ := bind_eq_ok.1 hm
  obtain ⟨left, hleft, hm⟩ := bind_eq_ok.1 hm
  obtain ⟨right, hright, hm⟩ := bind_eq_ok.1 hm
  exact ⟨left, right, (determinize_spec hleft).2, (determinize_spec hright).2, (normalize_spec hm).2⟩

theorem erase_epsilon_union (alphabet alphabet' : SortedSet Symbol) :
    alphabet.erase epsilon ∪ alphabet'.erase epsilon = (alphabet ∪ alphabet').erase epsilon := by
  apply SortedSet.ext
  intro s
  simp only [SortedSet.mem_union, SortedSet.mem_erase, or_and_right]

/-- The product has the symbols of both operands except for epsilon. -/
theorem alphabet_of_intersection (hm : a.intersection b limit = .ok m) :
    m.alphabet = (a.alphabet ∪ b.alphabet).erase epsilon := by
  obtain ⟨left, right, hleft, hright, hminimizes⟩ := exists_of_intersection hm
  rw [hminimizes.alphabet, Product.alphabet_automaton, hleft.alphabet, hright.alphabet, erase_epsilon_union,
    erase_epsilon_erase]

/-- A concatenation accepts the words that consist of a word of the left operand and a word of the right
one, whichever of them are empty and whatever numbers the states have. -/
theorem concatenation_accepts_iff (hb : b.Built) (hc : a.concatenation b limit = .ok c) (hw : epsilon ∉ w) :
    c.accepts w = true ↔ ∃ u v, w = u ++ v ∧ a.accepts u = true ∧ b.accepts v = true := by
  obtain ⟨sum, hsum, hminimizes⟩ := exists_of_concatenation hc
  have hjoins := DisjointSum.joins_of_build hb.noEmptyRow hsum
  simp only [accepts_iff_recognizes]
  rw [hminimizes.recognizes w hw, DisjointSum.recognizes_sequence hjoins.separate hw, hjoins.left]
  simp only [hjoins.recognizes_right]

/-- The empty word and the word `a`. Both numbers of states are those of states of the silent cycle too. -/
def optionalA : Automaton :=
  ((((((empty .nfa).addSymbol "a").addSymbol "c").addInitial 0).addFinal 2).addEdge ⟨0, "a", 2⟩).addEdge
    ⟨0, epsilon, 2⟩

theorem built_optionalA : optionalA.Built :=
  ((((((Built.empty .nfa).addSymbol "a").addSymbol "c").addInitial 0).addFinal 2).addEdge _).addEdge _

def alternatingThenOptionalA : Automaton :=
  { kind := .dfa
    states := .ofList [0, 1, 2]
    alphabet := .ofList ["a", "b", "c"]
    initial := .ofList [0]
    final := .ofList [1, 2]
    table := .ofEdges [⟨0, "a", 1⟩, ⟨1, "a", 2⟩, ⟨1, "b", 0⟩] }

theorem concatenation_accepts_iff_optionalA :
    optionalA.Built ∧ silentCycle.concatenation optionalA none = .ok alternatingThenOptionalA ∧
      epsilon ∉ ["a", "b", "a", "a"] ∧ (alternatingThenOptionalA.accepts ["a", "b", "a", "a"] = true ↔
        ∃ u v, ["a", "b", "a", "a"] = u ++ v ∧ silentCycle.accepts u = true ∧ optionalA.accepts v = true) := by
  have hc : silentCycle.concatenation optionalA none = .ok alternatingThenOptionalA := by decide +kernel
  have hw : epsilon ∉ ["a", "b", "a", "a"] := by decide
  exact ⟨built_optionalA, hc, hw, concatenation_accepts_iff built_optionalA hc hw⟩

/-- A union accepts the words that one of the operands accepts. -/
theorem union_accepts (hb : b.Built) (hu : a.union b limit = .ok u) (hw : epsilon ∉ w) :
    u.accepts w = (a.accepts w || b.accepts w) := by
  obtain ⟨sum, joined, hsum, hjoined, hminimizes⟩ := exists_of_union hu
  have hjoins := DisjointSum.joins_of_build hb.noEmptyRow hsum
  rw [Bool.eq_iff_iff, Bool.or_eq_true]
  simp only [accepts_iff_recognizes]
  calc u.Recognizes w ↔ joined.Recognizes w := hminimizes.recognizes w hw
    _ ↔ sum.left.Recognizes w ∨ sum.right.Recognizes w :=
        DisjointSum.recognizes_alternatives hjoins.separate hjoined hw
    _ ↔ a.Recognizes w ∨ b.Recognizes w := by rw [hjoins.left, hjoins.recognizes_right]

def alternatingOrEmpty : Automaton :=
  { kind := .dfa
    states := .ofList [0, 1, 2]
    alphabet := .ofList ["a", "b", "c"]
    initial := .ofList [0]
    final := .ofList [0, 1]
    table := .ofEdges [⟨0, "a", 1⟩, ⟨1, "b", 2⟩, ⟨2, "a", 1⟩] }

theorem union_accepts_optionalA :
    optionalA.Built ∧ silentCycle.union optionalA none = .ok alternatingOrEmpty ∧ epsilon ∉ ["a", "b", "a"] ∧
      alternatingOrEmpty.accepts ["a", "b", "a"] =
        (silentCycle.accepts ["a", "b", "a"] || optionalA.accepts ["a", "b", "a"]) := by
  have hu : silentCycle.union optionalA none = .ok alternatingOrEmpty := by decide +kernel
  have hw : epsilon ∉ ["a", "b", "a"] := by decide
  exact ⟨built_optionalA, hu, hw, union_accepts built_optionalA hu hw⟩

/-- An intersection accepts the words that both operands accept, over the symbols of both. -/
theorem intersection_accepts (hm : a.intersection b limit = .ok m) :
    (∀ w, epsilon ∉ w → m.accepts w = (a.accepts w && b.accepts w)) ∧
      m.alphabet = (a.alphabet ∪ b.alphabet).erase epsilon := by
  refine ⟨fun w hw => ?_, alphabet_of_intersection hm⟩
  obtain ⟨left, right, hleft, hright, hminimizes⟩ := exists_of_intersection hm
  have hleftdet := hleft.valid.deterministic hleft.kind
  have hrightdet := hright.valid.deterministic hright.kind
  rw [Bool.eq_iff_iff, Bool.and_eq_true]
  simp only [accepts_iff_recognizes]
  calc m.Recognizes w ↔ (Product.automaton left right).Recognizes w := hminimizes.recognizes w hw
    _ ↔ left.Recognizes w ∧ right.Recognizes w := Product.recognizes_product hleft.valid hleftdet hrightdet
    _ ↔ a.Recognizes w ∧ b.Recognizes w := and_congr (hleft.recognizes w hw) (hright.recognizes w hw)

def onlyA : Automaton :=
  { kind := .dfa
    states := .ofList [0, 1]
    alphabet := .ofList ["a", "b", "c"]
    initial := .ofList [0]
    final := .ofList [1]
    table := .ofEdges [⟨0, "a", 1⟩] }

theorem intersection_accepts_optionalA :
    silentCycle.intersection optionalA (some 3) = .ok onlyA ∧
      (∀ w, epsilon ∉ w → onlyA.accepts w = (silentCycle.accepts w && optionalA.accepts w)) ∧
      onlyA.alphabet = (silentCycle.alphabet ∪ optionalA.alphabet).erase epsilon := by
  have hm : silentCycle.intersection optionalA (some 3) = .ok onlyA := by decide +kernel
  exact ⟨hm, intersection_accepts hm⟩

end FiniteAutomata.Automaton
