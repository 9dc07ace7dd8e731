import FiniteAutomata.Proofs.Tables

/-! Automata that are built step by step. States, symbols, marks and edges may be added in any order and
the states renumbered in between, and nothing else makes an automaton. Whatever is built in this way holds
no empty row, which is what renumbering it and telling it from another automaton depend on. -/

namespace FiniteAutomata.Automaton

variable {a b : Automaton} {start : StateId}

/-- The automata that can be built. An edge may be added before its ends and its symbol, or without them. -/
inductive Built : Automaton → Prop where
  | empty (kind : Kind) : Built (.empty kind)
  | emptyLanguage (alphabet : SortedSet Symbol) : Built (.emptyLanguage alphabet)
  | withKind {a : Automaton} (h : Built a) (kind : Kind) : Built (a.withKind kind)
  | addState {a : Automaton} (h : Built a) (q : StateId) : Built (a.addState q)
  | addSymbol {a : Automaton} (h : Built a) (s : Symbol) : Built (a.addSymbol s)
  | addInitial {a : Automaton} (h : Built a) (q : StateId) : Built (a.addInitial q)
  | addFinal {a : Automaton} (h : Built a) (q : StateId) : Built (a.addFinal q)
  | addEdge {a : Automaton} (h : Built a) (e : Edge) : Built (a.addEdge e)
  | renumber {a b : Automaton} {start : StateId} (h : Built a) (hb : a.renumber start = .ok b) : Built b
  | clear {a : Automaton} (h : Built a) : Built a.clear

theorem eq_relabel_of_renumber (hb : a.renumber start = .ok b) :
    b = a.relabel (numberIn a.numberingOrder start) := by
  rw [renumber_eq] at hb
  split at hb
  · cases hb
  · cases hb
    rfl

/-- No step leaves an empty row behind. -/
theorem Built.noEmptyRow (h : a.Built) : a.table.NoEmptyRow := by
  induction h with
  | empty | emptyLanguage | clear => exact TransitionTable.noEmptyRow_empty
  | withKind _ _ ih | addState _ _ ih | addSymbol _ _ ih | addInitial _ _ ih | addFinal _ _ ih => exact ih
  | addEdge _ e ih => exact ih.insert e
  | renumber _ hb ih =>
      rw [eq_relabel_of_renumber hb]
      exact ih.relabel _

/-- A mark makes a state, and renumbering takes marks and states along. -/
theorem Built.marks_mem (h : a.Built) : (∀ q ∈ a.initial, q ∈ a.states) ∧ ∀ q ∈ a.final, q ∈ a.states := by
  induction h with
  | empty | emptyLanguage | clear => simp [Automaton.empty, Automaton.emptyLanguage, Automaton.clear]
  | withKind _ _ ih | addSymbol _ _ ih | addEdge _ _ ih => exact ih
  | addState _ p ih =>
      simp only [Automaton.addState, SortedSet.mem_insert]
      exact ⟨fun q hq => .inr (ih.1 q hq), fun q hq => .inr (ih.2 q hq)⟩
  | addInitial _ p ih =>
      simp only [Automaton.addInitial, SortedSet.mem_insert]
      exact ⟨fun q hq => hq.imp_right (ih.1 q), fun q hq => .inr (ih.2 q hq)⟩
  | addFinal _ p ih =>
      simp only [Automaton.addFinal, SortedSet.mem_insert]
      exact ⟨fun q hq => .inr (ih.1 q hq), fun q hq => hq.imp_right (ih.2 q)⟩
  | renumber _ hb ih =>
      rw [eq_relabel_of_renumber hb]
      simp only [relabel, SortedSet.mem_map]
      exact ⟨fun q hq => hq.imp fun p hp => hp.imp_left (ih.1 p),
        fun q hq => hq.imp fun p hp => hp.imp_left (ih.2 p)⟩

section Bulk

theorem Built.addStates (h : a.Built) (set : SortedSet StateId) : Built { a with states := a.states ∪ set } := by
  show Built { a with states := set.toList.foldl .insert a.states }
  induction set.toList generalizing a with
  | nil => exact h
  | cons q l ih => exact ih (h.addState q)

theorem Built.addSymbols (h : a.Built) (set : SortedSet Symbol) :
    Built { a with alphabet := a.alphabet ∪ set } := by
  show Built { a with alphabet := set.toList.foldl .insert a.alphabet }
  induction set.toList generalizing a with
  | nil => exact h
  | cons s l ih => exact ih (h.addSymbol s)

theorem Built.addInitials (h : a.Built) (set : SortedSet StateId) :
    Built { a with states := a.states ∪ set, initial := a.initial ∪ set } := by
  show Built { a with
    states := set.toList.foldl .insert a.states, initial := set.toList.foldl .insert a.initial }
  induction set.toList generalizing a with
  | nil => exact h
  | cons q l ih => exact ih (h.addInitial q)

theorem Built.addFinals (h : a.Built) (set : SortedSet StateId) :
    Built { a with states := a.states ∪ set, final := a.final ∪ set } := by
  show Built { a with
    states := set.toList.foldl .insert a.states, final := set.toList.foldl .insert a.final }
  induction set.toList generalizing a with
  | nil => exact h
  | cons q l ih => exact ih (h.addFinal q)

theorem Built.addEdges (h : a.Built) (edges : List Edge) : Built { a with table := a.table.insertAll edges } := by
  induction edges generalizing a with
  | nil => exact h
  | cons e edges ih => exact ih (h.addEdge e)

end Bulk

/-- Exactly the automata whose marks are states and whose tables hold no empty row can be built. -/
theorem built_iff : a.Built ↔
    (∀ q ∈ a.initial, q ∈ a.states) ∧ (∀ q ∈ a.final, q ∈ a.states) ∧ a.table.NoEmptyRow := by
  refine ⟨fun h => ⟨h.marks_mem.1, h.marks_mem.2, h.noEmptyRow⟩, fun h => ?_⟩
  obtain ⟨hinitial, hfinal, hrows⟩ := h
  have heq : (⟨a.kind, ∅ ∪ a.initial ∪ a.final ∪ a.states, ∅ ∪ a.alphabet, ∅ ∪ a.initial, ∅ ∪ a.final,
      .ofEdges a.edges⟩ : Automaton) = a := by
    refine Automaton.ext rfl (fun q => ?_) (fun s => ?_) (fun q => ?_) (fun q => ?_) ?_
    · simp only [SortedSet.mem_union, SortedSet.not_mem_empty, false_or]
      exact or_iff_right_of_imp fun hmark => hmark.elim (hinitial q) (hfinal q)
    · simp
    · simp
    · simp
    · exact TransitionTable.ext_of_edges (TransitionTable.noEmptyRow_ofEdges _) hrows fun e => by
        rw [TransitionTable.mem_ofEdges, edges, TransitionTable.mem_edges]
  rw [← heq]
  exact (((((Built.empty a.kind).addInitials a.initial).addFinals a.final).addStates a.states).addSymbols
    a.alphabet).addEdges a.edges

theorem Valid.built (h : a.Valid) (hrows : a.table.NoEmptyRow) : a.Built :=
  built_iff.2 ⟨h.initial_mem, h.final_mem, hrows⟩

end FiniteAutomata.Automaton
