import FiniteAutomata.Proofs.SearchAutomaton
import FiniteAutomata.Proofs.SubsetSearch

/-! The words of the automaton that the subset construction builds. It is built by the search along the
memo table, so it is well-formed whatever the table holds. When the table is complete, a set accepts the
words that the given automaton accepts from some member of the set. -/

namespace FiniteAutomata.SubsetMemo

open Automaton

variable {a : Automaton} {m : SubsetMemo} {w : List Symbol}

theorem rows (m : SubsetMemo) (alphabet : SortedSet Symbol) (first : SortedSet StateId) :
    Rows (m.row alphabet) (1 + m.size) first alphabet where
  bounded := ⟨_, bounded_row m alphabet first⟩
  ascending set := by
    refine ascending_filterMap fun s move hmove => ?_
    obtain ⟨set', _, rfl⟩ := Option.map_eq_some_iff.1 hmove
    rfl
  symbol_mem set s set' hmove := (mem_row.1 hmove).1

/-- The result is what the second search builds. -/
theorem toAutomaton_eq_ofSearch (m : SubsetMemo) (a : Automaton) : m.toAutomaton a =
    ofSearch (m.row a.alphabet) (1 + m.size) a.initial (·.any fun q => decide (q ∈ a.final)) a.alphabet := rfl

theorem valid_toAutomaton (m : SubsetMemo) (hepsilon : epsilon ∉ a.alphabet) : (m.toAutomaton a).Valid :=
  (m.rows a.alphabet a.initial).valid_ofSearch (fun _ hs => hs) hepsilon

/-- A set accepts what its members accept. A set and its members read a symbol together. -/
theorem Complete.recognizes (hm : Complete a m) (h : a.Valid) (hfree : a.EpsilonFree)
    (hepsilon : epsilon ∉ a.alphabet) : (m.toAutomaton a).Recognizes w ↔ a.Recognizes w := by
  rw [toAutomaton_eq_ofSearch, recognizes_iff]
  refine (m.rows a.alphabet a.initial).recognizes_ofSearch (fun set w => ∃ p ∈ set, a.AcceptsFrom p w)
    hepsilon ?_ ?_
  · intro set
    simp only [hfree.acceptsFrom_nil, SortedSet.any, List.any_eq_true, decide_eq_true_eq,
      SortedSet.mem_toList]
  · intro set hset s w
    have hreached : set ∈ a.reachedSets := hm.numbering_eq h hfree ▸ hset
    simp only [hfree.acceptsFrom_cons, hm.row_eq h hfree hreached, mem_subsetRow]
    refine ⟨?_, ?_⟩
    · intro hstep
      obtain ⟨p, hp, q, hedge, hrest⟩ := hstep
      have hq : q ∈ a.targetSet set s := mem_targetSet.2 ⟨p, hp, hedge⟩
      exact ⟨_, ⟨rfl, q, hq⟩, q, hq, hrest⟩
    · intro hstep
      obtain ⟨_, ⟨rfl, _⟩, q, hq, hrest⟩ := hstep
      obtain ⟨p, hp, hedge⟩ := mem_targetSet.1 hq
      exact ⟨p, hp, q, hedge, hrest⟩

end FiniteAutomata.SubsetMemo
