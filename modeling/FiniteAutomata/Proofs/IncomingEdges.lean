import FiniteAutomata.Proofs.Tables
import FiniteAutomata.Trimming
import Mathlib.Algebra.BigOperators.Group.Finset.Basic
import Mathlib.Data.List.Perm.Basic

/-! The edges by target. They are collected into one list for each target, in the order of the edges, and each list
is then sorted. Nothing is lost or repeated on the way: a list holds an element for each edge into its state, so
whatever method sorts it makes it the row of the reversed table. An automaton need not be well-formed for that. -/

namespace FiniteAutomata

namespace Transition

/-- By ascending symbols, and under one symbol by ascending states. -/
def Precedes (σ τ : Transition) : Prop := σ.symbol < τ.symbol ∨ σ.symbol = τ.symbol ∧ σ.target < τ.target

theorem eq_of_not_precedes {σ τ : Transition} (hσ : ¬ σ.Precedes τ) (hτ : ¬ τ.Precedes σ) : σ = τ := by
  obtain ⟨s, p⟩ := σ
  obtain ⟨t, q⟩ := τ
  have hsymbol := Std.lt_trichotomy s t
  have htarget := Nat.lt_trichotomy p q
  simp only [Precedes, Transition.mk.injEq] at *
  grind

theorem Precedes.asymm {σ τ : Transition} (h : σ.Precedes τ) : ¬ τ.Precedes σ := by
  have hlt : ∀ {s t : Symbol}, s < t → ¬ t < s := String.lt_asymm
  unfold Precedes at h ⊢
  grind

end Transition

/-- An edge as its target sees it: the symbol and the source. -/
def Edge.entering (e : Edge) : Transition := ⟨e.symbol, e.source⟩

namespace Automaton

variable {a : Automaton} {p q : StateId} {s : Symbol}

section Lists

/-- The lists with one edge more, which goes behind those with the same target. -/
def collectIncoming (lists : SortedMap StateId (List Transition)) (e : Edge) :
    SortedMap StateId (List Transition) :=
  lists.insert e.target ((lists.find? e.target).getD [] ++ [e.entering])

/-- The list of each target, before it is sorted. -/
def incomingLists (a : Automaton) : SortedMap StateId (List Transition) := a.edges.foldl collectIncoming ∅

/-- The sources of the edges into a state, one for each edge. -/
def predecessors (a : Automaton) (q : StateId) : List StateId := (a.incoming.row q).toList.map (·.target)

theorem mem_incoming : ⟨s, p⟩ ∈ a.incoming.row q ↔ a.HasEdge p s q := TransitionTable.mem_reverse

theorem mem_predecessors : p ∈ a.predecessors q ↔ ∃ s, a.HasEdge p s q := by
  rw [predecessors, List.mem_map]
  constructor
  · rintro ⟨⟨s, p⟩, hmem, rfl⟩
    exact ⟨s, mem_incoming.1 hmem⟩
  · rintro ⟨s, hedge⟩
    exact ⟨⟨s, p⟩, mem_incoming.2 hedge, rfl⟩

/-- Collecting edges adds to the list of a state the edges into this state. -/
theorem find?_foldl_collectIncoming (edges : List Edge) (lists : SortedMap StateId (List Transition))
    (q : StateId) : ((edges.foldl collectIncoming lists).find? q).getD [] =
      (lists.find? q).getD [] ++ (edges.filter (·.target = q)).map Edge.entering := by
  induction edges generalizing lists with
  | nil => simp
  | cons e edges ih =>
      rw [List.foldl_cons, ih, collectIncoming, SortedMap.find?_insert]
      by_cases htarget : q = e.target
      · simp [htarget]
      · simp [htarget, Ne.symm htarget]

theorem find?_incomingLists (a : Automaton) (q : StateId) :
    (a.incomingLists.find? q).getD [] = (a.edges.filter (·.target = q)).map Edge.entering :=
  find?_foldl_collectIncoming a.edges ∅ q

/-- A list holds what the row holds, in the order of the sources. -/
theorem incomingLists_perm (a : Automaton) (q : StateId) :
    ((a.incomingLists.find? q).getD []).Perm (a.incoming.row q).toList := by
  have hnodup : ((a.edges.filter (·.target = q)).map Edge.entering).Nodup := by
    apply (a.table.nodup_edges.filter _).map_on
    rintro ⟨p, s, q'⟩ he ⟨p', s', q''⟩ he' heq
    obtain rfl : q' = q := by simpa using (List.mem_filter.1 he).2
    obtain rfl : q'' = q' := by simpa using (List.mem_filter.1 he').2
    cases heq
    rfl
  rw [find?_incomingLists]
  refine (List.perm_ext_iff_of_nodup hnodup (SortedSet.nodup_toList _)).2 ?_
  rintro ⟨s, p⟩
  rw [SortedSet.mem_toList, mem_incoming, ← mem_edges, List.mem_map]
  constructor
  · rintro ⟨⟨p', s', q'⟩, he, heq⟩
    obtain ⟨hedge, htarget⟩ := List.mem_filter.1 he
    obtain rfl : q' = q := by simpa using htarget
    cases heq
    exact hedge
  · intro hedge
    exact ⟨⟨p, s, q⟩, List.mem_filter.2 ⟨hedge, by simp⟩, rfl⟩

end Lists

section Sorting

theorem pairwise_precedes_incoming (a : Automaton) (q : StateId) :
    (a.incoming.row q).toList.Pairwise Transition.Precedes :=
  (a.incoming.row q).ascending.imp Transition.compare_eq_lt_iff_lt.1

/-- Sorting leaves no choice. -/
theorem eq_incoming_of_sorted {sorted : List Transition}
    (hperm : sorted.Perm ((a.incomingLists.find? q).getD []))
    (hsorted : sorted.Pairwise fun σ τ => ¬ τ.Precedes σ) : sorted = (a.incoming.row q).toList := by
  have hrow := (a.pairwise_precedes_incoming q).imp Transition.Precedes.asymm
  refine (hperm.trans (a.incomingLists_perm q)).eq_of_pairwise ?_ hsorted hrow
  intro σ τ _ _ hτσ hστ
  exact Transition.eq_of_not_precedes hστ hτσ

end Sorting

/-- As many edges enter a state as have it for a target. -/
theorem size_incoming (a : Automaton) (q : StateId) :
    (a.incoming.row q).size = (a.edges.map (·.target)).count q :=
  calc (a.incoming.row q).size = ((a.edges.filter (·.target = q)).map Edge.entering).length := by
        rw [← a.find?_incomingLists q]
        exact (a.incomingLists_perm q).length_eq.symm
    _ = (a.edges.map (·.target)).count q := by
        rw [List.length_map, List.count, List.countP_map, List.countP_eq_length_filter]
        rfl

/-- For every state the incoming transitions are listed by ascending symbols and sources, one for each edge into the
state, whether the automaton is well-formed or not. Any way of sorting what has been collected gives this list. The
predecessors are the sources of these edges, and over all targets there are as many incoming transitions as edges. -/
theorem incoming_exact (a : Automaton) :
    (∀ q sorted, sorted.Perm ((a.incomingLists.find? q).getD []) →
      (sorted.Pairwise fun σ τ => ¬ τ.Precedes σ) → sorted = (a.incoming.row q).toList) ∧
    (∀ q, (a.incoming.row q).toList.Pairwise Transition.Precedes) ∧
    (∀ q s p, (a.incoming.row q).toList.count ⟨s, p⟩ = if a.HasEdge p s q then 1 else 0) ∧
    (∀ q p, p ∈ a.predecessors q ↔ ∃ s, a.HasEdge p s q) ∧
    ∑ q ∈ (a.edges.map (·.target)).toFinset, (a.incoming.row q).size = a.edgeCount := by
  refine ⟨fun q sorted => eq_incoming_of_sorted, a.pairwise_precedes_incoming, fun q s p => ?_,
    fun q p => mem_predecessors, ?_⟩
  · rw [(SortedSet.nodup_toList _).count]
    simp only [SortedSet.mem_toList, mem_incoming]
  · simp only [size_incoming]
    rw [List.sum_toFinset_count_eq_length, List.length_map, length_edges]

/-- Two edges between the same states, a loop, and an edge to what is not a state. -/
def parallelEdges : Automaton :=
  { kind := .nfa
    states := .ofList [0, 1]
    alphabet := .ofList ["a", "b"]
    table := .ofEdges [⟨0, "a", 1⟩, ⟨0, "b", 1⟩, ⟨1, "a", 1⟩, ⟨1, "b", 7⟩] }

/-- The loop is collected last and comes before the second edge. -/
theorem incoming_exact_parallelEdges :
    ((parallelEdges.incomingLists.find? 1).getD [] = [⟨"a", 0⟩, ⟨"b", 0⟩, ⟨"a", 1⟩]) ∧
      (parallelEdges.incoming.row 1).toList = [⟨"a", 0⟩, ⟨"a", 1⟩, ⟨"b", 0⟩] ∧
      7 ∉ parallelEdges.states ∧ 1 ∈ parallelEdges.predecessors 7 := by
  obtain ⟨hsort, _, _, hpredecessors, _⟩ := incoming_exact parallelEdges
  have hcollected : (parallelEdges.incomingLists.find? 1).getD [] = [⟨"a", 0⟩, ⟨"b", 0⟩, ⟨"a", 1⟩] := by
    decide +kernel
  have hperm : [⟨"a", 0⟩, ⟨"a", 1⟩, ⟨"b", 0⟩].Perm ((parallelEdges.incomingLists.find? 1).getD []) := by
    rw [hcollected]
    decide
  have hsorted : [(⟨"a", 0⟩ : Transition), ⟨"a", 1⟩, ⟨"b", 0⟩].Pairwise fun σ τ => ¬ τ.Precedes σ := by
    simp only [Transition.Precedes]
    decide
  have hedge : parallelEdges.HasEdge 1 "b" 7 := by decide +kernel
  exact ⟨hcollected, (hsort 1 _ hperm hsorted).symm, by decide +kernel, (hpredecessors 7 1).2 ⟨"b", hedge⟩⟩

end Automaton

end FiniteAutomata
