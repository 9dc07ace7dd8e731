import FiniteAutomata.Proofs.Trimming

/-! Exactness of trimming. Of a deterministic automaton that accepts some word there remain the states on paths from
the initial state to a final one, with all marks and edges among them; without such a word there remains the automaton
of the empty language. The search for states that reach a final one runs in the part that the first search has left,
and finds the same states as in the whole automaton, since no path leaves that part. Trimming what is left changes
nothing: each of its states still lies on such a path. -/

namespace FiniteAutomata.Automaton

variable {a b c : Automaton} {i q : StateId} {w : List Symbol}

/-- `b` consists of the states of `a` on paths from an initial to a final state, and of all that `a` has among
them. -/
structure IsTrimPart (a b : Automaton) : Prop where
  kind : b.kind = .dfa
  alphabet : b.alphabet = a.alphabet
  initial : b.initial = a.initial
  states : ∀ q, q ∈ b.states ↔ q ∈ a.states ∧ (∃ i ∈ a.initial, a.Reaches i q) ∧ ∃ f ∈ a.final, a.Reaches q f
  final : ∀ q, q ∈ b.final ↔ q ∈ a.final ∧ q ∈ b.states
  edges : ∀ p s q, b.HasEdge p s q ↔ a.HasEdge p s q ∧ p ∈ b.states ∧ q ∈ b.states

/-- There is only one such part. -/
theorem IsTrimPart.unique (hb : a.IsTrimPart b) (hc : a.IsTrimPart c) (hrowsb : b.table.NoEmptyRow)
    (hrowsc : c.table.NoEmptyRow) : b = c := by
  have hstates : ∀ q, q ∈ b.states ↔ q ∈ c.states := fun q => (hb.states q).trans (hc.states q).symm
  refine ext (hb.kind.trans hc.kind.symm) hstates ?_ ?_ ?_ ?_
  · intro s
    rw [hb.alphabet, hc.alphabet]
  · intro q
    rw [hb.initial, hc.initial]
  · intro q
    rw [hb.final, hc.final, hstates]
  · apply TransitionTable.ext_of_edges hrowsb hrowsc
    rintro ⟨p, s, q⟩
    calc b.HasEdge p s q ↔ a.HasEdge p s q ∧ p ∈ b.states ∧ q ∈ b.states := hb.edges p s q
      _ ↔ a.HasEdge p s q ∧ p ∈ c.states ∧ q ∈ c.states := by rw [hstates, hstates]
      _ ↔ c.HasEdge p s q := (hc.edges p s q).symm

section Parts

variable (h : a.Valid) (hi : a.initial.toList = [i])

include h hi

/-- No edge leaves the part that the initial state reaches. -/
theorem hasPart_partReachedFrom : a.HasPart (a.partReachedFrom i) := by
  intro p hp s q
  have hreaches := ((mem_states_partReachedFrom h hi).1 hp).2
  rw [hasEdge_partReachedFrom h, and_iff_left hreaches]

variable (hkind : a.kind = .dfa)

include hkind

theorem productive_partReachedFrom (hq : q ∈ (a.partReachedFrom i).states) :
    (a.partReachedFrom i).Productive q ↔ a.Productive q := by
  have hfinal : ∀ q ∈ (a.partReachedFrom i).states, q ∈ a.final ↔ q ∈ (a.partReachedFrom i).final := by
    intro q hq
    rw [mem_final_partReachedFrom h, and_iff_left ((mem_states_partReachedFrom h hi).1 hq).2]
  have hvalid := (accessible_partReachedFrom h hi hkind).valid
  exact exists_congr fun w => ((hasPart_partReachedFrom h hi).acceptsFrom_iff hvalid hq hfinal).symm

/-- The two searches together keep the states on paths from the initial state to a final one. -/
theorem mem_states_trimmedPart : q ∈ (a.partReachedFrom i).productivePart.states ↔
    q ∈ a.states ∧ a.Reaches i q ∧ a.Productive q := by
  rw [mem_states_productivePart (accessible_partReachedFrom h hi hkind).valid, ← and_assoc,
    ← mem_states_partReachedFrom h hi]
  exact and_congr_right (productive_partReachedFrom h hi hkind)

theorem isTrimPart_trimmedPart (hproductive : (a.partReachedFrom i).Productive i) :
    a.IsTrimPart (a.partReachedFrom i).productivePart := by
  have hreached := accessible_partReachedFrom h hi hkind
  have hvalid := (hreached.trimmed_productivePart rfl hproductive).valid
  have hkept : ∀ q, q ∈ (a.partReachedFrom i).productivePart.states ↔
      q ∈ a.states ∧ a.Reaches i q ∧ a.Productive q := fun q => mem_states_trimmedPart h hi hkind
  refine ⟨rfl, rfl, ?_, ?_, ?_, ?_⟩
  · apply SortedSet.ext
    intro q
    rw [mem_initial_productivePart, mem_initial_partReachedFrom, mem_initial_of_singleton hi, and_iff_left_iff_imp]
    rintro rfl
    exact hproductive
  · intro q
    simp only [hkept, mem_initial_of_singleton hi, exists_eq_left, productive_iff_reaches]
  · intro q
    refine ⟨fun hq => ⟨?_, hvalid.final_mem q hq⟩, ?_⟩
    · exact ((mem_final_partReachedFrom h).1 ((mem_final_productivePart hreached.valid).1 hq)).1
    · intro hq
      have hreaches := ((hkept q).1 hq.2).2.1
      exact (mem_final_productivePart hreached.valid).2 ((mem_final_partReachedFrom h).2 ⟨hq.1, hreaches⟩)
  · intro p s q
    refine ⟨fun hedge => ⟨?_, hvalid.source_mem p s q hedge, hvalid.target_mem p s q hedge⟩, ?_⟩
    · exact ((hasEdge_partReachedFrom h).1 ((hasEdge_productivePart hreached.valid).1 hedge).1).1
    · intro hedge
      obtain ⟨hedge, hp, hq⟩ := hedge
      have hreaches := ((hkept p).1 hp).2.1
      have hq := ((mem_states_productivePart hreached.valid).1 hq).2
      exact (hasEdge_productivePart hreached.valid).2 ⟨(hasEdge_partReachedFrom h).2 ⟨hedge, hreaches⟩, hq⟩

end Parts

section Trim

variable (h : a.Valid) (hkind : a.kind = .dfa)

include h hkind

theorem isTrimPart_trim (hw : a.Recognizes w) : a.IsTrimPart a.trim := by
  obtain ⟨i, hi⟩ := (h.deterministic hkind).exists_initial
  have hproductive : (a.partReachedFrom i).Productive i :=
    ⟨w, (recognizes_iff_of_initial rfl).1 ((recognizes_partReachedFrom h hi).2 hw)⟩
  rw [trim, reachablePart_of_initial hi, usefulPart_of_productive (mem_initial_partReachedFrom.2 rfl) hproductive]
  exact isTrimPart_trimmedPart h hi hkind hproductive

theorem trim_of_no_word (hnone : ∀ w, ¬ a.Recognizes w) : a.trim = emptyLanguage a.alphabet := by
  obtain ⟨i, hi⟩ := (h.deterministic hkind).exists_initial
  rw [trim, reachablePart_of_initial hi]
  apply usefulPart_of_not_productive
  intro q hq hproductive
  rw [mem_initial_partReachedFrom.1 hq] at hproductive
  obtain ⟨w, haccepts⟩ := hproductive
  exact hnone w ((recognizes_partReachedFrom h hi).1 ((recognizes_iff_of_initial rfl).2 haccepts))

end Trim

/-- From a productive state only productive ones are reached in a trimmed automaton. -/
theorem Trimmed.productive_of_reaches (h : a.Trimmed) (hi : a.Productive i) (hreaches : a.Reaches i q) :
    a.Productive q := by
  obtain ⟨w, hpath⟩ := hreaches
  induction hpath with
  | nil => exact hi
  | silent hedge _ ih | read hedge _ ih => exact ih (h.productive _ _ _ hedge)

/-- All of a trimmed automaton with a word lies on paths from the initial to a final state. -/
theorem Trimmed.isTrimPart_self (h : a.Trimmed) (hw : a.Recognizes w) : a.IsTrimPart a where
  kind := h.kind
  alphabet := rfl
  initial := rfl
  states q := by
    rw [iff_self_and]
    intro hq
    obtain ⟨i, hi, hreaches⟩ := h.reached q hq
    obtain ⟨j, hj⟩ := h.deterministic.exists_initial
    obtain rfl := (mem_initial_of_singleton hj).1 hi
    have hproductive : a.Productive i := ⟨w, (recognizes_iff_of_initial hj).1 hw⟩
    exact ⟨⟨i, hi, hreaches⟩, productive_iff_reaches.1 (h.productive_of_reaches hproductive hreaches)⟩
  final q := by
    rw [iff_self_and]
    exact h.valid.final_mem q
  edges p s q := by
    rw [iff_self_and]
    exact fun hedge => ⟨h.valid.source_mem p s q hedge, h.valid.target_mem p s q hedge⟩

theorem trim_trim (h : a.Valid) (hkind : a.kind = .dfa) : a.trim.trim = a.trim := by
  obtain ⟨htrimmed, halphabet, hwords⟩ := trim_spec h hkind
  by_cases hsome : ∃ w, a.Recognizes w
  · obtain ⟨w, hw⟩ := hsome
    have hw := (hwords w).2 hw
    exact (isTrimPart_trim htrimmed.valid htrimmed.kind hw).unique (htrimmed.isTrimPart_self hw)
      (noEmptyRow_trim _) (noEmptyRow_trim _)
  · have hnone := not_exists.1 hsome
    calc a.trim.trim = emptyLanguage a.trim.alphabet :=
          trim_of_no_word htrimmed.valid htrimmed.kind fun w => mt (hwords w).1 (hnone w)
      _ = emptyLanguage a.alphabet := by rw [halphabet]
      _ = a.trim := (trim_of_no_word h hkind hnone).symm

/-- Trimming a deterministic automaton keeps its words. If there are any, it keeps exactly the states on paths from the
initial to a final state, with all marks and edges among them; if there are none, the automaton of the empty language
remains. What remains is not changed by trimming it again, and the merging of states relies on that. -/
theorem trim_exact (hvalidate : a.validate = .ok ()) (hkind : a.kind = .dfa) :
    (∀ w, a.trim.accepts w = a.accepts w) ∧
    ((∃ w, a.accepts w = true) → a.IsTrimPart a.trim) ∧
    ((∀ w, a.accepts w = false) → a.trim = emptyLanguage a.alphabet) ∧
    a.trim.trim = a.trim := by
  have h := validate_eq_ok_iff.1 hvalidate
  refine ⟨fun w => ?_, ?_, ?_, trim_trim h hkind⟩
  · rw [Bool.eq_iff_iff, accepts_iff_recognizes, accepts_iff_recognizes]
    exact (trim_spec h hkind).2.2 w
  · intro hsome
    obtain ⟨w, hw⟩ := hsome
    exact isTrimPart_trim h hkind (accepts_iff_recognizes.1 hw)
  · intro hnone
    apply trim_of_no_word h hkind
    intro w hw
    rw [← accepts_iff_recognizes, hnone w] at hw
    exact Bool.false_ne_true hw

/-- A chain of states with a cycle behind its end that leads nowhere and a state before it that is not reached. -/
def chainWithExcess (final : List StateId) : Automaton :=
  { kind := .dfa
    states := .ofList [4, 5, 6, 7, 9]
    alphabet := .ofList ["a", "b"]
    initial := .ofList [6]
    final := .ofList final
    table := .ofEdges [⟨5, "a", 4⟩, ⟨6, "a", 9⟩, ⟨9, "a", 4⟩, ⟨9, "b", 7⟩, ⟨7, "b", 7⟩] }

/-- With final states on the chain the excess goes; with none but the unreached one all goes. -/
theorem trim_exact_chainWithExcess :
    (chainWithExcess [4, 6, 9]).validate = .ok () ∧ (chainWithExcess [5]).validate = .ok () ∧
      (chainWithExcess [4, 6, 9]).accepts ["a", "a"] = true ∧
      (chainWithExcess [4, 6, 9]).IsTrimPart (chainWithExcess [4, 6, 9]).trim ∧
      (chainWithExcess [4, 6, 9]).trim.states = .ofList [4, 6, 9] ∧
      (chainWithExcess [4, 6, 9]).trim.trim = (chainWithExcess [4, 6, 9]).trim ∧
      (∀ w, (chainWithExcess [5]).accepts w = false) ∧
      (chainWithExcess [5]).trim = emptyLanguage (.ofList ["a", "b"]) := by
  have hvalid : (chainWithExcess [4, 6, 9]).validate = .ok () := by decide +kernel
  have hvalid' : (chainWithExcess [5]).validate = .ok () := by decide +kernel
  have haccepts : (chainWithExcess [4, 6, 9]).accepts ["a", "a"] = true := by decide +kernel
  have hstates : (chainWithExcess [4, 6, 9]).trim.states = .ofList [4, 6, 9] := by decide +kernel
  have hempty : (chainWithExcess [5]).trim = emptyLanguage (.ofList ["a", "b"]) := by decide +kernel
  obtain ⟨_, hpart, _, hagain⟩ := trim_exact hvalid rfl
  obtain ⟨hwords, _, hnone, _⟩ := trim_exact hvalid' rfl
  have hrejects : ∀ w, (chainWithExcess [5]).accepts w = false := by
    intro w
    rw [← hwords w, hempty, Bool.eq_false_iff, Ne, accepts_iff_recognizes]
    exact not_recognizes_emptyLanguage
  exact ⟨hvalid, hvalid', haccepts, hpart ⟨_, haccepts⟩, hstates, hagain, hrejects, hnone hrejects⟩

end FiniteAutomata.Automaton
