import FiniteAutomata.Proofs.Determinization
import FiniteAutomata.Proofs.Futures
import FiniteAutomata.Proofs.Tables
import FiniteAutomata.Trimming

/-! What is left after trimming a deterministic automaton. The first part keeps the states that the
initial state reaches, the second one those from which a final state is reached; both keep the words.
An automaton without words becomes the one state that is initial and not final. Either way every edge
of the result leads to a state from which some word is accepted. -/

namespace FiniteAutomata.Automaton

variable {a : Automaton} {i p q : StateId} {s : Symbol} {w : List Symbol}

/-- A deterministic automaton without states that are not reached. -/
structure Accessible (a : Automaton) : Prop where
  kind : a.kind = .dfa
  valid : a.Valid
  reached : ∀ q ∈ a.states, ∃ i ∈ a.initial, a.Reaches i q

/-- A deterministic automaton without states that are not reached, and without edges to states from
which no word is accepted. -/
structure Trimmed (a : Automaton) : Prop extends a.Accessible where
  productive : ∀ p s q, a.HasEdge p s q → a.Productive q

/-- A trimmed automaton in which no two states have the same future. -/
structure Reduced (a : Automaton) : Prop extends a.Trimmed where
  distinct : ∀ p ∈ a.states, ∀ q ∈ a.states, SameFuture a a p q → p = q

theorem Accessible.deterministic (h : a.Accessible) : a.Deterministic := h.valid.deterministic h.kind

theorem trimmed_emptyLanguage {alphabet : SortedSet Symbol} (hepsilon : epsilon ∉ alphabet) :
    (emptyLanguage alphabet).Trimmed where
  kind := rfl
  valid := valid_emptyLanguage hepsilon
  reached q hq := ⟨q, hq, [], .nil q⟩
  productive _ _ _ hedge := absurd hedge not_hasEdge_emptyLanguage

section Reachable

theorem initialState?_of_initial (hi : a.initial.toList = [i]) : a.initialState? = some i := by
  rw [initialState?, SortedSet.min?, hi]
  rfl

theorem reachablePart_of_initial (hi : a.initial.toList = [i]) :
    a.reachablePart = a.partReachedFrom i := by
  rw [reachablePart, initialState?_of_initial hi]

theorem mem_kept : (q ∈ a.states.filter fun q => decide (q ∈ a.table.reach (fun _ => true) [i])) ↔
    q ∈ a.states ∧ a.Reaches i q := by
  rw [SortedSet.mem_filter, decide_eq_true_eq, TransitionTable.mem_reach]
  simp only [List.mem_singleton, exists_eq_left, chain_iff_reaches]

variable (h : a.Valid) (hi : a.initial.toList = [i])

include hi in
theorem mem_initial_of_singleton : q ∈ a.initial ↔ q = i := by
  rw [← SortedSet.mem_toList, hi, List.mem_singleton]

include hi in
theorem recognizes_iff_of_initial : a.Recognizes w ↔ a.AcceptsFrom i w := by
  rw [recognizes_iff]
  simp only [mem_initial_of_singleton hi, exists_eq_left]

theorem mem_initial_partReachedFrom : q ∈ (a.partReachedFrom i).initial ↔ q = i :=
  SortedSet.mem_ofList.trans List.mem_singleton

include h in
theorem mem_final_partReachedFrom : q ∈ (a.partReachedFrom i).final ↔ q ∈ a.final ∧ a.Reaches i q := by
  apply SortedSet.mem_filter.trans
  rw [mem_kept, decide_eq_true_eq]
  refine ⟨?_, ?_⟩
  · intro hq
    exact ⟨hq.2, hq.1.2⟩
  · intro hq
    exact ⟨⟨h.final_mem q hq.1, hq.2⟩, hq.1⟩

include h in
theorem hasEdge_partReachedFrom : (a.partReachedFrom i).HasEdge p s q ↔ a.HasEdge p s q ∧ a.Reaches i p := by
  apply TransitionTable.mem_filter.trans
  rw [decide_eq_true_eq, mem_kept]
  refine ⟨?_, ?_⟩
  · intro hedge
    exact ⟨hedge.1, hedge.2.2⟩
  · intro hedge
    exact ⟨hedge.1, h.source_mem p s q hedge.1, hedge.2⟩

include h in
theorem path_partReachedFrom : (a.partReachedFrom i).Path i w q ↔ a.Path i w q := by
  have hkept : ∀ p s q, a.Reaches i p → a.HasEdge p s q →
      (a.partReachedFrom i).HasEdge p s q ∧ a.Reaches i q := by
    intro p s q hp hedge
    exact ⟨(hasEdge_partReachedFrom h).2 ⟨hedge, hp⟩, hp.trans (HasEdge.reaches hedge)⟩
  refine ⟨?_, ?_⟩
  · exact Path.mono fun p s q hedge => ((hasEdge_partReachedFrom h).1 hedge).1
  · exact fun hpath => (Path.transfer hkept ⟨[], .nil i⟩ hpath).1

include h hi

theorem mem_states_partReachedFrom : q ∈ (a.partReachedFrom i).states ↔ q ∈ a.states ∧ a.Reaches i q := by
  apply SortedSet.mem_insert.trans
  rw [mem_kept, or_iff_right_iff_imp]
  rintro rfl
  exact ⟨h.initial_mem q ((mem_initial_of_singleton hi).2 rfl), [], .nil q⟩

theorem recognizes_partReachedFrom : (a.partReachedFrom i).Recognizes w ↔ a.Recognizes w := by
  simp only [Recognizes, mem_initial_partReachedFrom, mem_initial_of_singleton hi, exists_eq_left,
    mem_final_partReachedFrom h, path_partReachedFrom h]
  refine exists_congr fun q => ?_
  refine ⟨?_, ?_⟩
  · intro hq
    exact ⟨hq.1.1, hq.2⟩
  · intro hq
    exact ⟨⟨hq.1, w, hq.2⟩, hq.2⟩

theorem accessible_partReachedFrom (hkind : a.kind = .dfa) : (a.partReachedFrom i).Accessible where
  kind := rfl
  valid :=
    { initial_mem := by
        intro q hq
        rw [mem_initial_partReachedFrom.1 hq]
        exact (mem_states_partReachedFrom h hi).2
          ⟨h.initial_mem i ((mem_initial_of_singleton hi).2 rfl), [], .nil i⟩
      final_mem := by
        intro q hq
        obtain ⟨hfinal, hreaches⟩ := (mem_final_partReachedFrom h).1 hq
        exact (mem_states_partReachedFrom h hi).2 ⟨h.final_mem q hfinal, hreaches⟩
      source_mem := by
        intro p s q hedge
        obtain ⟨hedge, hreaches⟩ := (hasEdge_partReachedFrom h).1 hedge
        exact (mem_states_partReachedFrom h hi).2 ⟨h.source_mem p s q hedge, hreaches⟩
      target_mem := by
        intro p s q hedge
        obtain ⟨hedge, hreaches⟩ := (hasEdge_partReachedFrom h).1 hedge
        exact (mem_states_partReachedFrom h hi).2
          ⟨h.target_mem p s q hedge, hreaches.trans (HasEdge.reaches hedge)⟩
      symbol_mem := by
        intro p s q hedge
        exact h.symbol_mem p s q ((hasEdge_partReachedFrom h).1 hedge).1
      deterministic := by
        intro _
        exact (h.deterministic hkind).of_edges rfl rfl fun p s q hedge =>
          ((hasEdge_partReachedFrom h).1 hedge).1 }
  reached q hq := by
    obtain ⟨_, w, hpath⟩ := (mem_states_partReachedFrom h hi).1 hq
    exact ⟨i, mem_initial_partReachedFrom.2 rfl, w,
      (path_partReachedFrom h).2 hpath⟩

end Reachable

section Useful

theorem chain_incoming_iff_reaches :
    a.incoming.Chain (fun _ => true) q p ↔ a.Reaches p q := by
  rw [← chain_iff_reaches]
  have hswap : (fun q p => ∃ s, (fun _ => true) (⟨s, p⟩ : Transition) = true ∧ ⟨q, s, p⟩ ∈ a.incoming) =
      Function.swap fun p q => ∃ s, (fun _ => true) (⟨s, q⟩ : Transition) = true ∧ ⟨p, s, q⟩ ∈ a.table := by
    funext q p
    simp only [incoming, TransitionTable.mem_reverse, Function.swap]
  rw [TransitionTable.Chain, hswap, Relation.reflTransGen_swap]
  rfl

/-- Searching backwards from the final states finds the productive states. -/
theorem mem_useful : q ∈ a.incoming.reach (fun _ => true) a.final.toList ↔ a.Productive q := by
  rw [TransitionTable.mem_reach, productive_iff_reaches]
  simp only [chain_incoming_iff_reaches, SortedSet.mem_toList]

theorem mem_initial_productivePart : q ∈ a.productivePart.initial ↔ q ∈ a.initial ∧ a.Productive q := by
  apply SortedSet.mem_filter.trans
  rw [decide_eq_true_eq, mem_useful]

theorem usefulPart_of_not_productive (h : ∀ i ∈ a.initial, ¬ a.Productive i) :
    a.usefulPart = emptyLanguage a.alphabet := by
  rw [usefulPart]
  apply if_pos
  rw [Bool.or_eq_true]
  right
  rw [SortedSet.isEmpty_iff]
  apply SortedSet.ext
  intro q
  rw [mem_initial_productivePart]
  exact iff_of_false (fun hq => h q hq.1 hq.2) (SortedSet.not_mem_empty q)

theorem usefulPart_of_productive (hi : i ∈ a.initial) (hproductive : a.Productive i) :
    a.usefulPart = a.productivePart := by
  rw [usefulPart]
  apply if_neg
  rw [Bool.or_eq_true, SortedSet.isEmpty_iff, SortedSet.isEmpty_iff]
  rintro (hfinal | hinitial)
  · obtain ⟨w, q, hq, _⟩ := hproductive
    rw [hfinal] at hq
    exact SortedSet.not_mem_empty q hq
  · have hmem := mem_initial_productivePart.2 ⟨hi, hproductive⟩
    rw [hinitial] at hmem
    exact SortedSet.not_mem_empty i hmem

section Valid

variable (h : a.Valid)

include h

theorem mem_states_productivePart : q ∈ a.productivePart.states ↔ q ∈ a.states ∧ a.Productive q := by
  apply SortedSet.mem_union.trans
  rw [SortedSet.mem_filter, SortedSet.mem_filter, decide_eq_true_eq, mem_useful, or_iff_left_iff_imp]
  exact fun hq => ⟨h.initial_mem q hq.1, hq.2⟩

theorem mem_final_productivePart : q ∈ a.productivePart.final ↔ q ∈ a.final := by
  apply SortedSet.mem_filter.trans
  rw [SortedSet.mem_filter, decide_eq_true_eq, decide_eq_true_eq, mem_useful, and_iff_right_iff_imp]
  exact fun hq => ⟨h.final_mem q hq, [], q, hq, .nil q⟩

theorem hasEdge_productivePart : a.productivePart.HasEdge p s q ↔ a.HasEdge p s q ∧ a.Productive q := by
  apply TransitionTable.mem_filter.trans
  rw [Bool.and_eq_true, decide_eq_true_eq, decide_eq_true_eq, SortedSet.mem_filter, decide_eq_true_eq,
    mem_useful, mem_useful]
  refine ⟨?_, ?_⟩
  · intro hedge
    exact ⟨hedge.1, hedge.2.2⟩
  · intro hedge
    exact ⟨hedge.1, ⟨h.source_mem p s q hedge.1, (HasEdge.reaches hedge.1).productive hedge.2⟩, hedge.2⟩

theorem path_productivePart (hq : a.Productive q) : a.productivePart.Path p w q ↔ a.Path p w q := by
  refine ⟨?_, ?_⟩
  · exact Path.mono fun p s q hedge => ((hasEdge_productivePart h).1 hedge).1
  · intro hpath
    induction hpath with
    | nil p => exact .nil p
    | silent hedge hrest ih =>
        have hproductive := Reaches.productive ⟨_, hrest⟩ hq
        exact .silent ((hasEdge_productivePart h).2 ⟨hedge, hproductive⟩) (ih hq)
    | read hedge hrest ih =>
        have hproductive := Reaches.productive ⟨_, hrest⟩ hq
        exact .read ((hasEdge_productivePart h).2 ⟨hedge, hproductive⟩) (ih hq)

theorem acceptsFrom_productivePart : a.productivePart.AcceptsFrom p w ↔ a.AcceptsFrom p w := by
  refine exists_congr fun q => ?_
  rw [mem_final_productivePart h]
  refine and_congr_right fun hq => ?_
  exact path_productivePart h ⟨[], q, hq, .nil q⟩

theorem recognizes_usefulPart : a.usefulPart.Recognizes w ↔ a.Recognizes w := by
  by_cases hproductive : ∃ i ∈ a.initial, a.Productive i
  · obtain ⟨i, hi, hproductive⟩ := hproductive
    rw [usefulPart_of_productive hi hproductive]
    simp only [recognizes_iff, acceptsFrom_productivePart h, mem_initial_productivePart]
    refine exists_congr fun p => ⟨fun hp => ⟨hp.1.1, hp.2⟩, fun hp => ⟨⟨hp.1, w, hp.2⟩, hp.2⟩⟩
  · have hnone : ∀ i ∈ a.initial, ¬ a.Productive i := by
      intro i hi hproductive'
      exact hproductive ⟨i, hi, hproductive'⟩
    rw [usefulPart_of_not_productive hnone]
    refine iff_of_false not_recognizes_emptyLanguage fun hrecognizes => ?_
    obtain ⟨i, hi, haccepts⟩ := recognizes_iff.1 hrecognizes
    exact hnone i hi ⟨w, haccepts⟩

end Valid

theorem Accessible.trimmed_productivePart (h : a.Accessible) (hi : a.initial.toList = [i])
    (hproductive : a.Productive i) : a.productivePart.Trimmed where
  kind := rfl
  valid :=
    { initial_mem := by
        intro q hq
        obtain ⟨hq, hproductive⟩ := mem_initial_productivePart.1 hq
        exact (mem_states_productivePart h.valid).2 ⟨h.valid.initial_mem q hq, hproductive⟩
      final_mem := by
        intro q hq
        have hq := (mem_final_productivePart h.valid).1 hq
        exact (mem_states_productivePart h.valid).2 ⟨h.valid.final_mem q hq, [], q, hq, .nil q⟩
      source_mem := by
        intro p s q hedge
        obtain ⟨hedge, hq⟩ := (hasEdge_productivePart h.valid).1 hedge
        exact (mem_states_productivePart h.valid).2
          ⟨h.valid.source_mem p s q hedge, (HasEdge.reaches hedge).productive hq⟩
      target_mem := by
        intro p s q hedge
        obtain ⟨hedge, hq⟩ := (hasEdge_productivePart h.valid).1 hedge
        exact (mem_states_productivePart h.valid).2 ⟨h.valid.target_mem p s q hedge, hq⟩
      symbol_mem := by
        intro p s q hedge
        exact h.valid.symbol_mem p s q ((hasEdge_productivePart h.valid).1 hedge).1
      deterministic := by
        intro _
        have hinitial : a.productivePart.initial = a.initial := by
          apply SortedSet.ext
          intro q
          rw [mem_initial_productivePart, and_iff_left_iff_imp, mem_initial_of_singleton hi]
          rintro rfl
          exact hproductive
        refine h.deterministic.of_edges ?_ rfl fun p s q hedge =>
          ((hasEdge_productivePart h.valid).1 hedge).1
        rw [hinitial]
        exact h.deterministic.one_initial }
  reached q hq := by
    obtain ⟨hq, hproductive'⟩ := (mem_states_productivePart h.valid).1 hq
    obtain ⟨j, hj, w, hpath⟩ := h.reached q hq
    obtain rfl := (mem_initial_of_singleton hi).1 hj
    exact ⟨j, mem_initial_productivePart.2 ⟨hj, hproductive⟩, w,
      (path_productivePart h.valid hproductive').2 hpath⟩
  productive p s q hedge := by
    obtain ⟨w, haccepts⟩ := ((hasEdge_productivePart h.valid).1 hedge).2
    exact ⟨w, (acceptsFrom_productivePart h.valid).2 haccepts⟩

end Useful

/-- Trimming keeps the words and the alphabet. -/
theorem trim_spec (h : a.Valid) (hkind : a.kind = .dfa) :
    a.trim.Trimmed ∧ a.trim.alphabet = a.alphabet ∧ ∀ w, a.trim.Recognizes w ↔ a.Recognizes w := by
  obtain ⟨i, hi⟩ := (h.deterministic hkind).exists_initial
  have hpart := accessible_partReachedFrom h hi hkind
  have hinitial : (a.partReachedFrom i).initial.toList = [i] := rfl
  rw [trim, reachablePart_of_initial hi]
  have hword : ∀ w, (a.partReachedFrom i).usefulPart.Recognizes w ↔ a.Recognizes w := fun w =>
    (recognizes_usefulPart hpart.valid).trans (recognizes_partReachedFrom h hi)
  by_cases hproductive : (a.partReachedFrom i).Productive i
  · have heq := usefulPart_of_productive (mem_initial_partReachedFrom.2 rfl) hproductive
    rw [heq] at hword ⊢
    exact ⟨hpart.trimmed_productivePart hinitial hproductive, rfl, hword⟩
  · have heq : (a.partReachedFrom i).usefulPart = emptyLanguage (a.partReachedFrom i).alphabet := by
      apply usefulPart_of_not_productive
      intro q hq
      rwa [mem_initial_partReachedFrom.1 hq]
    rw [heq] at hword ⊢
    exact ⟨trimmed_emptyLanguage hpart.deterministic.epsilon_not_mem, rfl, hword⟩

theorem noEmptyRow_trim (a : Automaton) : a.trim.table.NoEmptyRow := by
  rw [trim, usefulPart]
  split
  · exact TransitionTable.noEmptyRow_empty
  · exact TransitionTable.noEmptyRow_ofEdges _

theorem stateCount_le_of_subset {b : Automaton} (hsubset : ∀ q ∈ a.states, q ∈ b.states) :
    a.stateCount ≤ b.stateCount :=
  (List.subperm_of_subset (SortedSet.nodup_toList a.states) hsubset).length_le

theorem stateCount_trim_le (h : a.Valid) (hkind : a.kind = .dfa) : a.trim.stateCount ≤ a.stateCount := by
  obtain ⟨i, hi⟩ := (h.deterministic hkind).exists_initial
  have hpart := accessible_partReachedFrom h hi hkind
  rw [trim, reachablePart_of_initial hi, usefulPart]
  split
  · exact List.length_pos_of_mem (h.initial_mem i ((mem_initial_of_singleton hi).2 rfl))
  · apply stateCount_le_of_subset
    intro q hq
    have hreached := ((mem_states_productivePart hpart.valid).1 hq).1
    exact ((mem_states_partReachedFrom h hi).1 hreached).1

end FiniteAutomata.Automaton
