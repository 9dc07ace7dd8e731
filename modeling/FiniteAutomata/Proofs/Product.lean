import FiniteAutomata.Product
import FiniteAutomata.Proofs.SearchAutomaton
import FiniteAutomata.Proofs.Trimming
import Mathlib.Data.List.ProdSigma

/-! The product of two deterministic automata accepts the words that both accept. A move of a pair is a pair
of edges under one symbol, so a word is read by both automata or by none. The symbols of the left automaton
are enough for that, although the product has those of both. -/

namespace FiniteAutomata.Product

open Automaton

variable {a b : Automaton} {pair next first : StateId × StateId} {p q : StateId} {s : Symbol} {w : List Symbol}

theorem mem_row : (s, next) ∈ row a b pair ↔
    s ∈ a.alphabet ∧ a.successor? pair.1 s = some next.1 ∧ b.successor? pair.2 s = some next.2 := by
  rw [row, List.mem_filterMap]
  refine ⟨?_, ?_⟩
  · intro hmem
    obtain ⟨t, ht, hmove⟩ := hmem
    split at hmove
    · next hp hq =>
        cases hmove
        exact ⟨ht, hp, hq⟩
    · cases hmove
  · intro hmem
    obtain ⟨hs, hp, hq⟩ := hmem
    refine ⟨s, hs, ?_⟩
    rw [hp, hq]

/-- There are no more pairs of targets than pairs of edges. -/
theorem bounded_pairs (a b : Automaton) (first : StateId × StateId) :
    Search.Bounded (fun pair => (row a b pair).map (·.2)) (1 + a.edgeCount * b.edgeCount) [first]
      (· ∈ first :: a.edges.map (·.target) ×ˢ b.edges.map (·.target)) := by
  apply Search.Bounded.of_list
  · intro pair hpair
    rw [List.mem_singleton.1 hpair]
    exact List.mem_cons_self
  · intro pair next hnext
    obtain ⟨⟨s, _⟩, hmove, rfl⟩ := List.mem_map.1 hnext
    obtain ⟨_, hp, hq⟩ := mem_row.1 hmove
    have hp' := List.mem_map_of_mem (f := Edge.target) (mem_edges.2 (hasEdge_of_successor? hp))
    have hq' := List.mem_map_of_mem (f := Edge.target) (mem_edges.2 (hasEdge_of_successor? hq))
    exact List.mem_cons_of_mem _ (List.mem_product.2 ⟨hp', hq'⟩)
  · simp [List.length_product, length_edges, Nat.add_comm]

theorem rows_product (a b : Automaton) (first : StateId × StateId) :
    Rows (row a b) (1 + a.edgeCount * b.edgeCount) first a.alphabet where
  bounded := ⟨_, bounded_pairs a b first⟩
  ascending pair := by
    refine ascending_filterMap fun s move hmove => ?_
    split at hmove
    · cases hmove
      rfl
    · cases hmove
  symbol_mem pair s next hmove := (mem_row.1 hmove).1

/-- The product is what the search along the pairs builds. -/
theorem automaton_eq_ofSearch (hp : a.initialState? = some p) (hq : b.initialState? = some q) :
    automaton a b = ofSearch (row a b) (1 + a.edgeCount * b.edgeCount) (p, q)
      (fun pair => decide (pair.1 ∈ a.final) && decide (pair.2 ∈ b.final)) (a.alphabet ∪ b.alphabet) := by
  rw [automaton, hp, hq]
  rfl

theorem alphabet_automaton (a b : Automaton) : (automaton a b).alphabet = a.alphabet ∪ b.alphabet := by
  rw [automaton]
  split <;> rfl

/-- The product of two deterministic automata is one too. -/
theorem valid_automaton (ha : a.Deterministic) (hb : b.Deterministic) :
    (automaton a b).kind = .dfa ∧ (automaton a b).Valid := by
  obtain ⟨p, hp⟩ := ha.exists_initial
  obtain ⟨q, hq⟩ := hb.exists_initial
  rw [automaton_eq_ofSearch (congrArg List.head? hp) (congrArg List.head? hq)]
  refine ⟨rfl, (rows_product a b (p, q)).valid_ofSearch (fun s hs => SortedSet.mem_union.2 (.inl hs)) ?_⟩
  rw [SortedSet.mem_union]
  exact not_or.2 ⟨ha.epsilon_not_mem, hb.epsilon_not_mem⟩

section Words

variable (ha : a.Valid) (hadet : a.Deterministic) (hbdet : b.Deterministic)

include ha hadet hbdet

theorem mem_row_iff_hasEdge : (s, next) ∈ row a b pair ↔
    a.HasEdge pair.1 s next.1 ∧ b.HasEdge pair.2 s next.2 := by
  rw [mem_row, hadet.successor?_eq_some_iff, hbdet.successor?_eq_some_iff, and_iff_right_iff_imp]
  exact fun hedges => hadet.epsilonFree.symbol_mem ha hedges.1

theorem recognizes_product : (automaton a b).Recognizes w ↔ a.Recognizes w ∧ b.Recognizes w := by
  obtain ⟨p, hp⟩ := hadet.exists_initial
  obtain ⟨q, hq⟩ := hbdet.exists_initial
  rw [automaton_eq_ofSearch (congrArg List.head? hp) (congrArg List.head? hq), recognizes_iff_of_initial hp,
    recognizes_iff_of_initial hq]
  refine (rows_product a b (p, q)).recognizes_ofSearch
    (fun pair w => a.AcceptsFrom pair.1 w ∧ b.AcceptsFrom pair.2 w) hadet.epsilon_not_mem ?_ ?_
  · intro pair
    rw [hadet.epsilonFree.acceptsFrom_nil, hbdet.epsilonFree.acceptsFrom_nil]
    simp
  · intro pair _ s w
    rw [hadet.epsilonFree.acceptsFrom_cons, hbdet.epsilonFree.acceptsFrom_cons]
    simp only [mem_row_iff_hasEdge ha hadet hbdet]
    refine ⟨?_, ?_⟩
    · intro hboth
      obtain ⟨⟨p', hp', hleft⟩, q', hq', hright⟩ := hboth
      exact ⟨(p', q'), ⟨hp', hq'⟩, hleft, hright⟩
    · intro hboth
      obtain ⟨⟨p', q'⟩, ⟨hp', hq'⟩, hleft, hright⟩ := hboth
      exact ⟨⟨p', hp', hleft⟩, q', hq', hright⟩

end Words

end FiniteAutomata.Product
