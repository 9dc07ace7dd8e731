import FiniteAutomata.Minimization
import FiniteAutomata.Proofs.Refinement
import FiniteAutomata.Proofs.Tables
import Mathlib.Order.Bounds.Basic

/-! Merging the states of a trimmed automaton that have the same future. The smallest state of a class
stands for it, so two states have one representative exactly when they have the same future. A state
and its representative are related by a bisimulation, which gives the words of the quotient; no two of
the states that are kept have the same future. -/

namespace FiniteAutomata.Automaton

variable {a : Automaton} {t : PairTable} {i p p' q : StateId} {s : Symbol} {w : List Symbol}

section Representative

variable (hnumbered : a.Numbered) (ht : Classifies t a)

include ht

theorem Classifies.marked_self (hq : q ∈ a.states) : t.marked q q = true :=
  (ht q hq q hq).2 (.refl a q)

include hnumbered

theorem representative_mem (hq : q ∈ a.states) : t.representative q ∈ a.states := by
  have hle := (PairTable.representative_spec (ht.marked_self hq)).2 q (ht.marked_self hq)
  exact (hnumbered _).2 (Nat.lt_of_le_of_lt hle ((hnumbered q).1 hq))

theorem sameFuture_representative (hq : q ∈ a.states) : SameFuture a a q (t.representative q) :=
  (ht q hq _ (representative_mem hnumbered ht hq)).1
    (PairTable.representative_spec (ht.marked_self hq)).1

/-- The representative is the smallest state of its class. -/
theorem isLeast_representative (hq : q ∈ a.states) :
    IsLeast { p | p ∈ a.states ∧ SameFuture a a q p } (t.representative q) := by
  refine ⟨⟨representative_mem hnumbered ht hq, sameFuture_representative hnumbered ht hq⟩, fun p hp => ?_⟩
  exact (PairTable.representative_spec (ht.marked_self hq)).2 p ((ht q hq p hp.1).2 hp.2)

theorem representative_eq_iff (hp : p ∈ a.states) (hq : q ∈ a.states) :
    t.representative p = t.representative q ↔ SameFuture a a p q := by
  have hpself := sameFuture_representative hnumbered ht hp
  have hqself := sameFuture_representative hnumbered ht hq
  refine ⟨?_, ?_⟩
  · intro heq
    rw [heq] at hpself
    exact hpself.trans hqself.symm
  · intro hsame
    have hclass : { r | r ∈ a.states ∧ SameFuture a a p r } = { r | r ∈ a.states ∧ SameFuture a a q r } := by
      ext r
      exact and_congr_right fun _ => ⟨hsame.symm.trans, hsame.trans⟩
    have hleast := isLeast_representative hnumbered ht hp
    rw [hclass] at hleast
    exact hleast.unique (isLeast_representative hnumbered ht hq)

/-- The marks are an equivalence on the numbers of the states. -/
theorem Classifies.equivalence : Equivalence fun i j : Fin a.stateCount => t.marked i j = true := by
  have hmarked : ∀ i j : Fin a.stateCount, t.marked i j = true ↔ SameFuture a a i j := fun i j =>
    ht i ((hnumbered i).2 i.2) j ((hnumbered j).2 j.2)
  refine ⟨fun i => ?_, fun {i j} hij => ?_, fun {i j k} hij hjk => ?_⟩
  · exact (hmarked i i).2 (.refl a i)
  · exact (hmarked j i).2 ((hmarked i j).1 hij).symm
  · exact (hmarked i k).2 (((hmarked i j).1 hij).trans ((hmarked j k).1 hjk))

end Representative

section Kept

theorem mem_mergedEdges {e : Edge} : e ∈ a.mergedEdges t p ↔
    e.source = p ∧ ∃ q, a.HasEdge p e.symbol q ∧ t.representative q = e.target := by
  obtain ⟨p', s, q'⟩ := e
  rw [mergedEdges, List.mem_map]
  refine ⟨?_, ?_⟩
  · intro hstep
    obtain ⟨⟨s, q⟩, hedge, heq⟩ := hstep
    cases heq
    exact ⟨rfl, q, hedge, rfl⟩
  · intro hstep
    obtain ⟨rfl, q, hedge, rfl⟩ := hstep
    exact ⟨⟨s, q⟩, hedge, rfl⟩

theorem mem_mergedTargets : p' ∈ (a.mergedEdges t p).map (·.target) ↔
    ∃ s q, a.HasEdge p s q ∧ t.representative q = p' := by
  rw [List.mem_map]
  refine ⟨?_, ?_⟩
  · intro hmem
    obtain ⟨e, he, rfl⟩ := hmem
    obtain ⟨_, q, hedge, heq⟩ := mem_mergedEdges.1 he
    exact ⟨e.symbol, q, hedge, heq⟩
  · intro hstep
    obtain ⟨s, q, hedge, heq⟩ := hstep
    exact ⟨⟨p, s, p'⟩, mem_mergedEdges.2 ⟨rfl, q, hedge, heq⟩, rfl⟩

/-- The search meets representatives of targets only, and there are no more of them than edges. -/
theorem bounded_mergedTargets (a : Automaton) (t : PairTable) :
    Search.Bounded (fun q => (a.mergedEdges t q).map (·.target)) (1 + a.edgeCount) [a.mergedInitial t]
      (· ∈ a.mergedInitial t :: a.edges.map fun e => t.representative e.target) := by
  apply Search.Bounded.of_list
  · intro q hq
    rw [List.mem_singleton.1 hq]
    exact List.mem_cons_self
  · intro p p' hp'
    obtain ⟨s, q, hedge, heq⟩ := mem_mergedTargets.1 hp'
    exact List.mem_cons_of_mem _ (List.mem_map.2 ⟨⟨p, s, q⟩, mem_edges.2 hedge, heq⟩)
  · rw [List.length_cons, List.length_map, length_edges, Nat.add_comm]

theorem mergedInitial_mem_keptStates : a.mergedInitial t ∈ a.keptStates t :=
  Search.mem_reach_of_mem List.mem_cons_self

theorem mem_keptStates : q ∈ a.keptStates t ↔
    Search.Leads (fun q => (a.mergedEdges t q).map (·.target)) (a.mergedInitial t) q := by
  rw [keptStates, Search.mem_reach_iff (bounded_mergedTargets a t)]
  simp only [List.mem_singleton, exists_eq_left]

theorem representative_mem_keptStates (hp : p ∈ a.keptStates t) (hedge : a.HasEdge p s q) :
    t.representative q ∈ a.keptStates t :=
  Search.reach_closed (bounded_mergedTargets a t) hp (mem_mergedTargets.2 ⟨s, q, hedge, rfl⟩)

theorem hasEdge_quotient : (a.quotient t).HasEdge p s p' ↔
    p ∈ a.keptStates t ∧ ∃ q, a.HasEdge p s q ∧ t.representative q = p' := by
  apply TransitionTable.mem_ofEdges.trans
  simp only [List.mem_flatMap, mem_mergedEdges]
  refine ⟨?_, ?_⟩
  · intro hstep
    obtain ⟨_, hkept, rfl, hedge⟩ := hstep
    exact ⟨hkept, hedge⟩
  · intro hstep
    obtain ⟨hkept, hedge⟩ := hstep
    exact ⟨p, hkept, rfl, hedge⟩

theorem mem_states_quotient : q ∈ (a.quotient t).states ↔ q ∈ a.keptStates t := SortedSet.mem_ofList

theorem mem_initial_quotient : q ∈ (a.quotient t).initial ↔ q = a.mergedInitial t :=
  SortedSet.mem_ofList.trans List.mem_singleton

theorem mem_final_quotient : q ∈ (a.quotient t).final ↔ q ∈ a.keptStates t ∧ q ∈ a.final := by
  apply SortedSet.mem_ofList.trans
  rw [List.mem_filter, decide_eq_true_eq]

theorem reaches_quotient (hq : q ∈ a.keptStates t) : (a.quotient t).Reaches (a.mergedInitial t) q := by
  have hleads := mem_keptStates.1 hq
  induction hleads with
  | refl => exact ⟨[], .nil _⟩
  | tail hleads htarget ih =>
      have hkept := mem_keptStates.2 hleads
      obtain ⟨s, r, hold, heq⟩ := mem_mergedTargets.1 htarget
      exact (ih hkept).trans (HasEdge.reaches (hasEdge_quotient.2 ⟨hkept, r, hold, heq⟩))

end Kept

section Result

variable (h : a.Trimmed) (hnumbered : a.Numbered) (ht : Classifies t a)

theorem mergedInitial_eq (hi : a.initial.toList = [i]) : a.mergedInitial t = t.representative i := by
  rw [mergedInitial, initialState?_of_initial hi]
  rfl

theorem deterministic_quotient (hdeterministic : a.Deterministic) : (a.quotient t).Deterministic where
  one_initial := rfl
  epsilon_not_mem := hdeterministic.epsilon_not_mem
  no_epsilon p q hedge := by
    obtain ⟨_, q₀, hold, _⟩ := hasEdge_quotient.1 hedge
    exact hdeterministic.no_epsilon p q₀ hold
  functional p s q r hq hr := by
    obtain ⟨_, q₀, holdq, rfl⟩ := hasEdge_quotient.1 hq
    obtain ⟨_, r₀, holdr, rfl⟩ := hasEdge_quotient.1 hr
    rw [hdeterministic.functional p s q₀ r₀ holdq holdr]

include h

theorem valid_quotient : (a.quotient t).Valid where
  initial_mem q hq := by
    rw [mem_initial_quotient.1 hq]
    exact mem_states_quotient.2 mergedInitial_mem_keptStates
  final_mem q hq := mem_states_quotient.2 (mem_final_quotient.1 hq).1
  source_mem p s q hedge := mem_states_quotient.2 (hasEdge_quotient.1 hedge).1
  target_mem p s q hedge := by
    obtain ⟨hp, r, hold, rfl⟩ := hasEdge_quotient.1 hedge
    exact mem_states_quotient.2 (representative_mem_keptStates hp hold)
  symbol_mem p s q hedge := by
    obtain ⟨_, r, hold, _⟩ := hasEdge_quotient.1 hedge
    exact h.valid.symbol_mem p s r hold
  deterministic _ := deterministic_quotient h.deterministic

theorem exists_represented (hq : q ∈ a.keptStates t) : ∃ p ∈ a.states, t.representative p = q := by
  obtain ⟨i, hi⟩ := h.deterministic.exists_initial
  rcases mem_keptStates.1 hq with _ | ⟨_, htarget⟩
  · exact ⟨i, h.valid.initial_mem i ((mem_initial_of_singleton hi).2 rfl), (mergedInitial_eq hi).symm⟩
  · obtain ⟨s, r, hedge, heq⟩ := mem_mergedTargets.1 htarget
    exact ⟨r, h.valid.target_mem _ s r hedge, heq⟩

include hnumbered ht

theorem mem_states_of_mem_keptStates (hq : q ∈ a.keptStates t) : q ∈ a.states := by
  obtain ⟨p, hp, rfl⟩ := exists_represented h hq
  exact representative_mem hnumbered ht hp

/-- A state that is kept stands for itself. -/
theorem representative_of_mem_keptStates (hq : q ∈ a.keptStates t) : t.representative q = q := by
  obtain ⟨p, hp, rfl⟩ := exists_represented h hq
  rw [representative_eq_iff hnumbered ht (representative_mem hnumbered ht hp) hp]
  exact (sameFuture_representative hnumbered ht hp).symm

theorem bisimulation_quotient : Bisimulation (a.quotient t) a fun p q =>
    p ∈ a.keptStates t ∧ q ∈ a.states ∧ t.representative q = p := by
  have hdeterministic := h.deterministic
  refine ⟨?_, ?_, ?_⟩
  · intro p q hpq
    obtain ⟨hp, hq, rfl⟩ := hpq
    have hempty := sameFuture_representative hnumbered ht hq []
    rw [hdeterministic.epsilonFree.acceptsFrom_nil, hdeterministic.epsilonFree.acceptsFrom_nil] at hempty
    rw [mem_final_quotient, and_iff_right hp, hempty]
  · intro p q s p' hpq hedge
    obtain ⟨hp, hq, rfl⟩ := hpq
    obtain ⟨_, r, hold, rfl⟩ := hasEdge_quotient.1 hedge
    have hsame := (sameFuture_representative hnumbered ht hq).symm
    obtain ⟨q', hq', hfuture⟩ :=
      hdeterministic.exists_edge hdeterministic hsame hold (h.productive _ s r hold)
    have hr := h.valid.target_mem _ s r hold
    have hmem := h.valid.target_mem q s q' hq'
    refine ⟨q', hq', representative_mem_keptStates hp hold, hmem, ?_⟩
    exact (representative_eq_iff hnumbered ht hmem hr).2 hfuture.symm
  · intro p q s q' hpq hedge
    obtain ⟨hp, hq, rfl⟩ := hpq
    have hsame := sameFuture_representative hnumbered ht hq
    obtain ⟨r, hr, hfuture⟩ :=
      hdeterministic.exists_edge hdeterministic hsame hedge (h.productive q s q' hedge)
    have hrmem := h.valid.target_mem _ s r hr
    have hmem := h.valid.target_mem q s q' hedge
    refine ⟨t.representative r, hasEdge_quotient.2 ⟨hp, r, hr, rfl⟩,
      representative_mem_keptStates hp hr, hmem, ?_⟩
    exact (representative_eq_iff hnumbered ht hmem hrmem).2 hfuture

theorem sameFuture_quotient (hq : q ∈ a.states) (hkept : t.representative q ∈ a.keptStates t) :
    SameFuture (a.quotient t) a (t.representative q) q :=
  (bisimulation_quotient h hnumbered ht).sameFuture (deterministic_quotient h.deterministic).epsilonFree
    h.deterministic.epsilonFree ⟨hkept, hq, rfl⟩

theorem sameFuture_of_mem_keptStates (hq : q ∈ a.keptStates t) : SameFuture (a.quotient t) a q q := by
  have hself := representative_of_mem_keptStates h hnumbered ht hq
  have hsame := sameFuture_quotient h hnumbered ht (mem_states_of_mem_keptStates h hnumbered ht hq)
    (hself.symm ▸ hq)
  rwa [hself] at hsame

theorem recognizes_quotient : (a.quotient t).Recognizes w ↔ a.Recognizes w := by
  obtain ⟨i, hi⟩ := h.deterministic.exists_initial
  have hmem := h.valid.initial_mem i ((mem_initial_of_singleton hi).2 rfl)
  have hkept : t.representative i ∈ a.keptStates t := mergedInitial_eq hi ▸ mergedInitial_mem_keptStates
  have hinitial : (a.quotient t).initial.toList = [t.representative i] := by
    rw [← mergedInitial_eq hi]
    rfl
  rw [recognizes_iff_of_initial hi, recognizes_iff_of_initial hinitial]
  exact sameFuture_quotient h hnumbered ht hmem hkept w

/-- Merging the states with the same future leaves an automaton in which no two states have one. -/
theorem reduced_quotient : (a.quotient t).Reduced where
  kind := rfl
  valid := valid_quotient h
  reached q hq := ⟨_, mem_initial_quotient.2 rfl,
    reaches_quotient (mem_states_quotient.1 hq)⟩
  productive p s q hedge := by
    obtain ⟨hp, r, hold, rfl⟩ := hasEdge_quotient.1 hedge
    have hsame := sameFuture_quotient h hnumbered ht (h.valid.target_mem p s r hold)
      (representative_mem_keptStates hp hold)
    exact hsame.productive_iff.2 (h.productive p s r hold)
  distinct p hp q hq hsame := by
    have hp := mem_states_quotient.1 hp
    have hq := mem_states_quotient.1 hq
    have hfuture := ((sameFuture_of_mem_keptStates h hnumbered ht hp).symm.trans hsame).trans
      (sameFuture_of_mem_keptStates h hnumbered ht hq)
    rw [← representative_of_mem_keptStates h hnumbered ht hp,
      ← representative_of_mem_keptStates h hnumbered ht hq]
    exact (representative_eq_iff hnumbered ht (mem_states_of_mem_keptStates h hnumbered ht hp)
      (mem_states_of_mem_keptStates h hnumbered ht hq)).2 hfuture

theorem stateCount_quotient_le : (a.quotient t).stateCount ≤ a.stateCount := by
  apply stateCount_le_of_subset
  intro q hq
  exact mem_states_of_mem_keptStates h hnumbered ht (mem_states_quotient.1 hq)

end Result

theorem noEmptyRow_quotient : (a.quotient t).table.NoEmptyRow := TransitionTable.noEmptyRow_ofEdges _

end FiniteAutomata.Automaton
