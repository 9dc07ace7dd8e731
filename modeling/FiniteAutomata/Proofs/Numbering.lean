import FiniteAutomata.Proofs.Isomorphism
import FiniteAutomata.Proofs.Tables

/-! Renumbering is an isomorphism. The new number of a state is its position in a list that holds every
state once, counted from the start, so the numbers are distinct and without a gap; the only failure is
that the last one would be too large. -/

namespace FiniteAutomata.Automaton

variable {a b : Automaton} {f : StateId → StateId} {p q p' q' : StateId} {s : Symbol} {start number : Nat}

section Relabel

variable (h : a.Valid) (hrows : a.table.NoEmptyRow)
  (hf : ∀ p ∈ a.states, ∀ q ∈ a.states, f p = f q → p = q)

include h hf

theorem separatesSources : TransitionTable.SeparatesSources f a.table :=
  fun _ _ hd he heq => hf _ (h.source_mem _ _ _ hd) _ (h.source_mem _ _ _ he) heq

include hrows

theorem hasEdge_relabel :
    (a.relabel f).HasEdge p' s q' ↔ ∃ p q, a.HasEdge p s q ∧ f p = p' ∧ f q = q' :=
  TransitionTable.mem_relabel hrows (separatesSources h hf)

theorem isIsomorphism_relabel : IsIsomorphism a (a.relabel f) f where
  alphabet := rfl
  injective := hf
  states q := SortedSet.mem_map
  initial p hp := by
    refine SortedSet.mem_map.trans ⟨fun hmem => ?_, fun hmem => ⟨p, hmem, rfl⟩⟩
    obtain ⟨i, hi, heq⟩ := hmem
    rwa [← hf i (h.initial_mem i hi) p hp heq]
  final p hp := by
    refine SortedSet.mem_map.trans ⟨fun hmem => ?_, fun hmem => ⟨p, hmem, rfl⟩⟩
    obtain ⟨q, hq, heq⟩ := hmem
    rwa [← hf q (h.final_mem q hq) p hp heq]
  edges p hp s q hq := by
    rw [hasEdge_relabel h hrows hf]
    refine ⟨?_, ?_⟩
    · intro hstep
      obtain ⟨p₀, q₀, hedge, hpeq, hqeq⟩ := hstep
      rwa [← hf p₀ (h.source_mem _ _ _ hedge) p hp hpeq, ← hf q₀ (h.target_mem _ _ _ hedge) q hq hqeq]
    · intro hedge
      exact ⟨p, q, hedge, rfl, rfl⟩

theorem Deterministic.relabel (hdeterministic : a.Deterministic) : (a.relabel f).Deterministic where
  one_initial := by
    obtain ⟨i, hi⟩ := hdeterministic.exists_initial
    show (SortedSet.ofList (a.initial.toList.map f)).size = 1
    rw [hi]
    rfl
  epsilon_not_mem := hdeterministic.epsilon_not_mem
  no_epsilon p' q' hedge := by
    obtain ⟨p, q, hedge, _, _⟩ := (hasEdge_relabel h hrows hf).1 hedge
    exact hdeterministic.no_epsilon p q hedge
  functional p' s q' r' hq hr := by
    obtain ⟨p, q, hold, hp, rfl⟩ := (hasEdge_relabel h hrows hf).1 hq
    obtain ⟨p₀, r, hold₀, hp₀, rfl⟩ := (hasEdge_relabel h hrows hf).1 hr
    obtain rfl := hf p₀ (h.source_mem _ _ _ hold₀) p (h.source_mem _ _ _ hold) (hp₀.trans hp.symm)
    rw [hdeterministic.functional p₀ s q r hold hold₀]

theorem Valid.relabel : (a.relabel f).Valid where
  initial_mem q' hq' := by
    obtain ⟨q, hq, rfl⟩ := SortedSet.mem_map.1 hq'
    exact SortedSet.mem_map.2 ⟨q, h.initial_mem q hq, rfl⟩
  final_mem q' hq' := by
    obtain ⟨q, hq, rfl⟩ := SortedSet.mem_map.1 hq'
    exact SortedSet.mem_map.2 ⟨q, h.final_mem q hq, rfl⟩
  source_mem p' s q' hedge := by
    obtain ⟨p, q, hold, hp, _⟩ := (hasEdge_relabel h hrows hf).1 hedge
    exact SortedSet.mem_map.2 ⟨p, h.source_mem p s q hold, hp⟩
  target_mem p' s q' hedge := by
    obtain ⟨p, q, hold, _, hq⟩ := (hasEdge_relabel h hrows hf).1 hedge
    exact SortedSet.mem_map.2 ⟨q, h.target_mem p s q hold, hq⟩
  symbol_mem p' s q' hedge := by
    obtain ⟨p, q, hedge, _, _⟩ := (hasEdge_relabel h hrows hf).1 hedge
    exact h.symbol_mem p s q hedge
  deterministic hkind := Deterministic.relabel h hrows hf (h.deterministic hkind)

end Relabel

section Order

theorem mem_reachable : q ∈ a.reachable ↔ ∃ i ∈ a.initial, a.Reaches i q := by
  rw [reachable, TransitionTable.mem_reach]
  simp only [chain_iff_reaches, SortedSet.mem_toList]

theorem Valid.mem_states_of_reachable (h : a.Valid) (hq : q ∈ a.reachable) : q ∈ a.states := by
  obtain ⟨i, hi, w, hpath⟩ := mem_reachable.1 hq
  exact h.mem_states_of_path (h.initial_mem i hi) hpath

/-- Every state is numbered, and nothing else is. -/
theorem mem_numberingOrder (h : a.Valid) : q ∈ a.numberingOrder ↔ q ∈ a.states := by
  rw [numberingOrder, List.mem_append, List.mem_filter, SortedSet.mem_toList]
  by_cases hq : q ∈ a.reachable
  · exact iff_of_true (.inl hq) (h.mem_states_of_reachable hq)
  · simp [hq]

theorem nodup_numberingOrder (a : Automaton) : a.numberingOrder.Nodup := by
  refine List.nodup_append.2 ⟨Search.nodup_reach _ _ _, ?_, ?_⟩
  · exact (SortedSet.nodup_toList a.states).filter _
  · intro p hp q hq heq
    rw [List.mem_filter, ← heq] at hq
    simpa [hp] using hq.2

theorem length_numberingOrder (h : a.Valid) : a.numberingOrder.length = a.stateCount := by
  refine ((List.perm_ext_iff_of_nodup a.nodup_numberingOrder (SortedSet.nodup_toList a.states)).2 ?_).length_eq
  intro q
  rw [mem_numberingOrder h, SortedSet.mem_toList]

theorem numberIn_of_mem {order : List StateId} (hq : q ∈ order) :
    numberIn order start q = start + order.idxOf q := by
  have hindex : order.idxOf? q = some (order.idxOf q) :=
    List.findIdx?_eq_some_of_exists ⟨q, hq, beq_self_eq_true q⟩
  rw [numberIn, hindex]

/-- Counted from zero, what is numbered has its position as its number. -/
theorem map_numberIn_numberingOrder (a : Automaton) :
    a.numberingOrder.map (numberIn a.numberingOrder 0) = List.range a.numberingOrder.length := by
  rw [← Search.map_idxOf_eq_range a.nodup_numberingOrder]
  refine List.map_congr_left fun q hq => ?_
  rw [numberIn_of_mem hq, Nat.zero_add]

/-- Different states get different numbers. -/
theorem numberIn_injective (h : a.Valid) (start : Nat) : ∀ p ∈ a.states, ∀ q ∈ a.states,
    numberIn a.numberingOrder start p = numberIn a.numberingOrder start q → p = q := by
  intro p hp q hq heq
  have hp' := (mem_numberingOrder h).2 hp
  have hq' := (mem_numberingOrder h).2 hq
  rw [numberIn_of_mem hp', numberIn_of_mem hq', Nat.add_left_cancel_iff] at heq
  exact (List.idxOf_inj hp').1 heq

/-- The numbers of the states are the next ones from the start. -/
theorem exists_numberIn_iff (h : a.Valid) :
    (∃ q ∈ a.states, numberIn a.numberingOrder start q = number) ↔
      start ≤ number ∧ number < start + a.stateCount := by
  rw [← length_numberingOrder h]
  refine ⟨?_, ?_⟩
  · intro hmem
    obtain ⟨q, hq, rfl⟩ := hmem
    have hmem := (mem_numberingOrder h).2 hq
    have hlt := List.idxOf_lt_length_iff.2 hmem
    rw [numberIn_of_mem hmem]
    omega
  · intro hnumber
    have hlt : number - start < a.numberingOrder.length := by omega
    have hmem := List.getElem_mem hlt
    refine ⟨a.numberingOrder[number - start], (mem_numberingOrder h).1 hmem, ?_⟩
    rw [numberIn_of_mem hmem, a.nodup_numberingOrder.idxOf_getElem]
    exact Nat.add_sub_cancel' hnumber.1

end Order

section Renumber

variable (h : a.Valid)

include h

/-- Renumbering fails only when the last number would be too large. -/
theorem renumber_eq_ok : a.renumber start = .ok b ↔
    (a.stateCount = 0 ∨ start + (a.stateCount - 1) ≤ StateId.largest) ∧
      a.relabel (numberIn a.numberingOrder start) = b := by
  have hfits : ¬ (a.numberingOrder ≠ [] ∧ StateId.largest < start + (a.numberingOrder.length - 1)) ↔
      a.stateCount = 0 ∨ start + (a.stateCount - 1) ≤ StateId.largest := by
    rw [← length_numberingOrder h, not_and_or, not_not, Nat.not_lt, ← List.length_eq_zero_iff]
  rw [← hfits, renumber_eq]
  split
  · next hlarge =>
      refine ⟨?_, ?_⟩
      · intro hb
        cases hb
      · intro hb
        exact absurd hlarge hb.1
  · next hsmall =>
      rw [Except.ok.injEq]
      exact (and_iff_right hsmall).symm

/-- The result is the same automaton under other names of its states, which are the next numbers from
the start. -/
theorem renumber_spec (hrows : a.table.NoEmptyRow) (hb : a.renumber start = .ok b) :
    IsIsomorphism a b (numberIn a.numberingOrder start) ∧ b.kind = a.kind ∧ b.Valid ∧
      b.table.NoEmptyRow ∧ ∀ number, number ∈ b.states ↔ start ≤ number ∧ number < start + a.stateCount := by
  obtain ⟨_, rfl⟩ := (renumber_eq_ok h).1 hb
  have hinjective := numberIn_injective h start
  have hisomorphism := isIsomorphism_relabel h hrows hinjective
  refine ⟨hisomorphism, rfl, Valid.relabel h hrows hinjective, hrows.relabel _, ?_⟩
  intro number
  rw [hisomorphism.states, exists_numberIn_iff h]

end Renumber

end FiniteAutomata.Automaton
