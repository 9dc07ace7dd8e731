import FiniteAutomata.OperationFailure
import Mathlib.Data.List.Nodup
import Mathlib.Data.Option.Basic

/-! Validation decides well-formedness: `Automaton.validate` succeeds on exactly the automata that are
`Valid`. Each of the three groups of faults is matched with the fields of `Valid` that it guards. -/

namespace FiniteAutomata.Automaton

variable {a : Automaton}

theorem markFault?_eq_none :
    a.markFault? = none ↔ (∀ q ∈ a.initial, q ∈ a.states) ∧ ∀ q ∈ a.final, q ∈ a.states := by
  simp [markFault?, SortedSet.mem_toList]

theorem edgeFault?_eq_none {e : Edge} :
    a.edgeFault? e = none ↔
      e.source ∈ a.states ∧ e.target ∈ a.states ∧ (e.symbol = epsilon ∨ e.symbol ∈ a.alphabet) := by
  unfold edgeFault?
  by_cases hsource : e.source ∈ a.states <;> by_cases htarget : e.target ∈ a.states <;>
    by_cases hsymbol : e.symbol = epsilon <;> simp [hsource, htarget, hsymbol]

theorem findSome?_edgeFault?_eq_none :
    a.edges.findSome? a.edgeFault? = none ↔ ∀ p s q, a.HasEdge p s q →
      p ∈ a.states ∧ q ∈ a.states ∧ (s = epsilon ∨ s ∈ a.alphabet) := by
  rw [List.findSome?_eq_none_iff]
  refine ⟨?_, ?_⟩
  · intro h p s q hedge
    exact edgeFault?_eq_none.1 (h _ (mem_edges.2 hedge))
  · rintro h ⟨p, s, q⟩ he
    exact edgeFault?_eq_none.2 (h p s q (mem_edges.1 he))

/-- A row passes when its symbols are neither epsilon nor repeated. -/
theorem rowFault?_eq_none {p : StateId} {seen : List Symbol} {ts : List Transition} :
    rowFault? p seen ts = none ↔
      (∀ t ∈ ts, t.symbol ≠ epsilon ∧ t.symbol ∉ seen) ∧ (ts.map (·.symbol)).Nodup := by
  induction ts generalizing seen with
  | nil => simp [rowFault?]
  | cons t ts ih =>
      rw [rowFault?, List.map_cons, List.nodup_cons, List.forall_mem_cons]
      by_cases hepsilon : t.symbol = epsilon
      · simp [Transition.isEpsilon, hepsilon]
      by_cases hseen : t.symbol ∈ seen
      · simp [Transition.isEpsilon, hepsilon, hseen]
      rw [if_neg (by simpa [Transition.isEpsilon] using hepsilon), if_neg hseen, ih]
      simp only [List.mem_cons, not_or, List.mem_map, not_exists, not_and]
      refine ⟨?_, ?_⟩
      · intro hfaultless
        obtain ⟨hrest, hnodup⟩ := hfaultless
        exact ⟨⟨⟨hepsilon, hseen⟩, fun u hu => ⟨(hrest u hu).1, (hrest u hu).2.2⟩⟩,
          fun u hu => (hrest u hu).2.1, hnodup⟩
      · intro hfaultless
        obtain ⟨⟨_, hrest⟩, hne, hnodup⟩ := hfaultless
        exact ⟨fun u hu => ⟨(hrest u hu).1, hne u hu, (hrest u hu).2⟩, hnodup⟩

/-- Every row lists each symbol at most once exactly when symbols determine targets. -/
theorem nodup_symbols_iff :
    (∀ p, ((a.row p).toList.map (·.symbol)).Nodup) ↔
      ∀ p s q r, a.HasEdge p s q → a.HasEdge p s r → q = r := by
  refine ⟨?_, ?_⟩
  · intro h p s q r hq hr
    have heq := List.inj_on_of_nodup_map (h p) hq hr rfl
    exact congrArg Transition.target heq
  · intro h p
    apply (SortedSet.nodup_toList (a.row p)).map_on
    rintro ⟨s, q⟩ hq ⟨_, r⟩ hr rfl
    rw [h p s q r hq hr]

theorem rows_faultless_iff :
    (a.table.rows.entries.findSome? fun r => rowFault? r.1 [] r.2.toList) = none ↔
      (∀ p q, ¬ a.HasEdge p epsilon q) ∧ ∀ p s q r, a.HasEdge p s q → a.HasEdge p s r → q = r := by
  have hrow : (a.table.rows.entries.findSome? fun r => rowFault? r.1 [] r.2.toList) = none ↔
      ∀ p, rowFault? p [] (a.row p).toList = none := by
    rw [List.findSome?_eq_none_iff]
    refine ⟨?_, ?_⟩
    · intro h p
      cases hfind : a.table.rows.find? p with
      | none => rw [row, TransitionTable.row, hfind]; rfl
      | some ts =>
          rw [row, TransitionTable.row, hfind]
          exact h _ (SortedMap.mem_entries_iff.2 hfind)
    · rintro h ⟨p, ts⟩ hentry
      have hts := h p
      rwa [row, TransitionTable.row, SortedMap.mem_entries_iff.1 hentry] at hts
  rw [hrow, ← nodup_symbols_iff]
  simp only [rowFault?_eq_none, List.not_mem_nil, not_false_eq_true, and_true, forall_and]
  refine and_congr ⟨fun h p q hedge => h p _ hedge rfl, ?_⟩ Iff.rfl
  rintro h p ⟨s, q⟩ hedge rfl
  exact h p q hedge

theorem determinismFault?_eq_none : a.determinismFault? = none ↔ a.Deterministic := by
  unfold determinismFault?
  by_cases hsize : a.initial.size = 1
  · by_cases halphabet : epsilon ∈ a.alphabet
    · simp only [hsize, halphabet, ne_eq, not_true_eq_false, if_false, if_true, reduceCtorEq, false_iff]
      exact fun h => h.epsilon_not_mem halphabet
    · rw [if_neg (not_not.2 hsize), if_neg halphabet, rows_faultless_iff]
      exact ⟨fun h => ⟨hsize, halphabet, h.1, h.2⟩, fun h => ⟨h.no_epsilon, h.functional⟩⟩
  · simp only [hsize, ne_eq, not_false_eq_true, if_true, reduceCtorEq, false_iff]
    exact fun h => hsize h.one_initial

theorem firstFault?_eq_none : a.firstFault? = none ↔ a.Valid := by
  have hkind : (if a.isDeterministic then a.determinismFault? else none) = none ↔
      (a.kind = .dfa → a.Deterministic) := by
    rw [← determinismFault?_eq_none, isDeterministic]
    by_cases hdfa : a.kind = .dfa <;> simp [hdfa]
  rw [firstFault?, Option.orElse_eq_none, Option.orElse_eq_none, markFault?_eq_none,
    findSome?_edgeFault?_eq_none, hkind]
  refine ⟨?_, ?_⟩
  · intro hfaultless
    obtain ⟨⟨hinitial, hfinal⟩, hedges, hdeterministic⟩ := hfaultless
    exact ⟨hinitial, hfinal, fun p s q h => (hedges p s q h).1, fun p s q h => (hedges p s q h).2.1,
      fun p s q h => (hedges p s q h).2.2, hdeterministic⟩
  · intro h
    exact ⟨⟨h.initial_mem, h.final_mem⟩,
      fun p s q hedge => ⟨h.source_mem p s q hedge, h.target_mem p s q hedge, h.symbol_mem p s q hedge⟩,
      h.deterministic⟩

theorem validate_eq_ok_iff : a.validate = .ok () ↔ a.Valid := by
  rw [← firstFault?_eq_none, validate]
  cases a.firstFault? <;> simp

theorem check_eq_ok_iff : a.check = .ok () ↔ a.Valid := mapError_eq_ok.trans validate_eq_ok_iff

end FiniteAutomata.Automaton
