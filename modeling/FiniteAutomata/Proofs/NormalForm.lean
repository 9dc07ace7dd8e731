import FiniteAutomata.CommandLine.Job
import FiniteAutomata.Proofs.Combination

/-! The form of results. Every operation returns a well-formed deterministic automaton over the symbols of
its operands, and the states of all results but one have their numbers from a breadth-first search: those of
subsets and pairs because they are the positions in such a search, those of minimized automata because they
are renumbered. The exception is a deterministic automaton that is its own determinization. -/

namespace FiniteAutomata.Automaton

variable {a b d m r : Automaton} {alphabet : SortedSet Symbol} {limit : Option Nat}

/-- A well-formed deterministic automaton over the symbols of an alphabet, except for epsilon. -/
structure DeterministicOver (alphabet : SortedSet Symbol) (a : Automaton) : Prop where
  kind : a.kind = .dfa
  validate : a.validate = .ok ()
  deterministic : a.Deterministic
  edge_mem : ∀ p s q, a.HasEdge p s q → p ∈ a.states ∧ s ∈ a.alphabet ∧ q ∈ a.states
  alphabet_eq : a.alphabet = alphabet.erase epsilon

theorem Valid.deterministicOver (h : a.Valid) (hkind : a.kind = .dfa)
    (halphabet : a.alphabet = alphabet.erase epsilon) : a.DeterministicOver alphabet where
  kind := hkind
  validate := validate_eq_ok_iff.2 h
  deterministic := h.deterministic hkind
  edge_mem p s q hedge :=
    ⟨h.source_mem p s q hedge, (h.deterministic hkind).epsilonFree.symbol_mem h hedge,
      h.target_mem p s q hedge⟩
  alphabet_eq := halphabet

/-- The states are numbered from zero in the order of a breadth-first search, which goes along each row by
ascending symbols. -/
structure BreadthFirst (a : Automaton) : Prop where
  states : ∀ q, q ∈ a.states ↔ q < a.stateCount
  initial : ∀ q, q ∈ a.initial ↔ q = 0
  reached : ∀ q ∈ a.states, a.Reaches 0 q
  order : a.reachable = List.range a.stateCount

/-- The search is enough: it lists every state, and the initial one first. -/
theorem Accessible.breadthFirst {n : Nat} (h : a.Accessible) (horder : a.reachable = List.range n) :
    a.BreadthFirst := by
  have hcount : a.stateCount = n := by
    rw [← length_numberingOrder h.valid, numberingOrder_eq_reachable h, horder, List.length_range]
  have hinitial : ∀ q, q ∈ a.initial ↔ q = 0 := by
    obtain ⟨i, hi⟩ := h.deterministic.exists_initial
    obtain ⟨rest, hfirst⟩ := Search.reach_singleton (fun q => (a.row q).toList.map (·.target))
      ([i].length + a.table.size) i
    rw [reachable_eq_reach, hi, hfirst] at horder
    have hzero : i = 0 := by
      cases n with
      | zero => cases horder
      | succ n =>
          rw [List.range_succ_eq_map] at horder
          exact (List.cons.inj horder).1
    intro q
    rw [mem_initial_of_singleton hi, hzero]
  refine ⟨fun q => ?_, hinitial, fun q hq => ?_, hcount ▸ horder⟩
  · rw [hcount, ← mem_numberingOrder h.valid, numberingOrder_eq_reachable h, horder, List.mem_range]
  · obtain ⟨i, hi, hreaches⟩ := h.reached q hq
    rwa [(hinitial i).1 hi] at hreaches

theorem BreadthFirst.accessible (h : a.BreadthFirst) (hvalid : a.Valid) (hkind : a.kind = .dfa) :
    a.Accessible where
  kind := hkind
  valid := hvalid
  reached q hq := ⟨0, (h.initial 0).2 rfl, h.reached q hq⟩

theorem BreadthFirst.numberIn_eq_self (h : a.BreadthFirst) (haccessible : a.Accessible) {q : StateId}
    (hq : q ∈ a.states) : numberIn a.numberingOrder 0 q = q := by
  have hmem := (mem_numberingOrder haccessible.valid).2 hq
  rw [numberIn_of_mem hmem, Nat.zero_add, numberingOrder_eq_reachable haccessible, h.order]
  have hposition := (List.nodup_range (n := a.stateCount)).idxOf_getElem q (by simpa using (h.states q).1 hq)
  rwa [List.getElem_range] at hposition

/-- Numbering such an automaton once more changes nothing, as long as its numbers are ones that a state can
have. -/
theorem BreadthFirst.renumber_eq_self (h : a.BreadthFirst) (haccessible : a.Accessible)
    (hrows : a.table.NoEmptyRow) (hfits : ∀ q ∈ a.states, q ≤ StateId.largest) : a.renumber 0 = .ok a := by
  have hvalid := haccessible.valid
  have hinjective := numberIn_injective hvalid 0
  have hlast : a.stateCount = 0 ∨ 0 + (a.stateCount - 1) ≤ StateId.largest := by
    rw [Nat.zero_add]
    exact (Nat.eq_zero_or_pos a.stateCount).imp_right fun hpos =>
      hfits _ ((h.states _).2 (Nat.sub_one_lt_of_lt hpos))
  refine (renumber_eq_ok hvalid).2 ⟨hlast, ?_⟩
  exact (isIsomorphism_relabel hvalid hrows hinjective).image_eq (.refl a)
    (fun q hq => h.numberIn_eq_self haccessible hq) (Valid.relabel hvalid hrows hinjective) hvalid
    (hrows.relabel _) hrows rfl

/-- Numbering from zero puts the states in breadth-first order. -/
theorem Accessible.breadthFirst_of_renumber (h : a.Accessible) (hrows : a.table.NoEmptyRow)
    (hb : a.renumber 0 = .ok b) : b.BreadthFirst := by
  obtain ⟨hf, hkind, hvalid, _⟩ := renumber_spec h.valid hrows hb
  have hb := hf.accessible hvalid h (hkind.trans h.kind)
  apply hb.breadthFirst
  rw [reachable_map hf h hb, ← numberingOrder_eq_reachable h, map_numberIn_numberingOrder]

/-- What a search builds has the numbers of the search. -/
theorem Rows.breadthFirst_ofSearch {α : Type} [DecidableEq α] [BEq α] [LawfulBEq α]
    {row : α → List (Symbol × α)} {bound : Nat} {first : α} {symbols : SortedSet Symbol} {final : α → Bool}
    (h : Rows row bound first symbols) (hsymbols : ∀ s ∈ symbols, s ∈ alphabet) (hepsilon : epsilon ∉ alphabet) :
    (ofSearch row bound first final alphabet).BreadthFirst := by
  have hreachable : (ofSearch row bound first final alphabet).reachable =
      List.range (found row bound first).length := h.reachable_ofSearch
  have haccessible : (ofSearch row bound first final alphabet).Accessible := by
    refine ⟨rfl, h.valid_ofSearch hsymbols hepsilon, fun q hq => mem_reachable.1 ?_⟩
    rw [hreachable, List.mem_range]
    exact mem_states_ofSearch.1 hq
  exact haccessible.breadthFirst hreachable

/-- An automaton that is not its own determinization gets new states, numbered as they are found. -/
theorem breadthFirst_of_determinize (hd : a.determinize limit = .ok d) (hkind : a.kind ≠ .dfa) :
    d.BreadthFirst ∧ d.table.NoEmptyRow := by
  obtain ⟨_, hresult⟩ := determinize_eq_ok.1 hd
  have hepsilon : ∀ alphabet : SortedSet Symbol, epsilon ∉ alphabet.erase epsilon :=
    fun alphabet => alphabet.not_mem_erase epsilon
  rcases hresult with ⟨hdfa, _⟩ | ⟨_, ⟨_, rfl⟩ | ⟨_, single, m, _, _, rfl⟩⟩
  · exact absurd hdfa hkind
  · have horder : (emptyLanguage (a.alphabet.erase epsilon)).reachable = List.range 1 := rfl
    exact ⟨(trimmed_emptyLanguage (hepsilon _)).toAccessible.breadthFirst horder,
      TransitionTable.noEmptyRow_empty⟩
  · exact ⟨(m.rows _ _).breadthFirst_ofSearch (fun _ hs => hs) (hepsilon _), TransitionTable.noEmptyRow_ofEdges _⟩

theorem Determinizes.deterministicOver (h : a.Determinizes d) : d.DeterministicOver a.alphabet :=
  h.valid.deterministicOver h.kind h.alphabet

theorem Minimizes.deterministicOver (h : a.Minimizes m) : m.DeterministicOver a.alphabet :=
  h.reduced.valid.deterministicOver h.reduced.kind h.alphabet

theorem Minimizes.breadthFirst (h : a.Minimizes m) : m.BreadthFirst :=
  h.reduced.toAccessible.breadthFirst_of_renumber h.rows h.renumber

theorem Minimizes.built (h : a.Minimizes m) : m.Built := h.reduced.valid.built h.rows

end FiniteAutomata.Automaton

namespace FiniteAutomata.CommandLine

open Automaton

variable {a b r : Automaton} {limit : Option Nat}

theorem UnaryOperation.normalForm {operation : UnaryOperation} (hr : operation.apply limit a = .ok r) :
    r.DeterministicOver a.alphabet ∧ (¬ (operation = .determinization ∧ a.kind = .dfa) →
      r.BreadthFirst ∧ ((operation = .determinization → ∀ q ∈ r.states, q ≤ StateId.largest) →
        r.renumber 0 = .ok r)) := by
  cases operation with
  | determinization =>
      have hover := (determinize_spec hr).2.deterministicOver
      refine ⟨hover, fun hkind => ?_⟩
      obtain ⟨horder, hrows⟩ := breadthFirst_of_determinize hr fun hdfa => hkind ⟨rfl, hdfa⟩
      refine ⟨horder, fun hfits => ?_⟩
      exact horder.renumber_eq_self (horder.accessible (validate_eq_ok_iff.1 hover.validate) hover.kind) hrows
        (hfits rfl)
  | minimization =>
      have hminimizes := (minimize_spec hr).2
      exact ⟨hminimizes.deterministicOver, fun _ => ⟨hminimizes.breadthFirst, fun _ => hminimizes.renumber⟩⟩

/-- Every combination minimizes an automaton over the symbols of both operands. -/
theorem BinaryOperation.exists_minimizes {operation : BinaryOperation} (hr : operation.apply limit a b = .ok r) :
    ∃ c : Automaton, c.alphabet.erase epsilon = (a.alphabet ∪ b.alphabet).erase epsilon ∧ c.Minimizes r := by
  cases operation with
  | union =>
      obtain ⟨sum, joined, hsum, hjoined, hminimizes⟩ := exists_of_union hr
      obtain ⟨first, _, rfl⟩ := DisjointSum.exists_of_alternatives hjoined
      exact ⟨_, congrArg (·.erase epsilon) (DisjointSum.alphabet_of_build hsum), hminimizes⟩
  | intersection =>
      obtain ⟨left, right, _, _, hminimizes⟩ := exists_of_intersection hr
      refine ⟨_, ?_, hminimizes⟩
      rw [← hminimizes.alphabet]
      exact alphabet_of_intersection hr
  | concatenation =>
      obtain ⟨sum, hsum, hminimizes⟩ := exists_of_concatenation hr
      exact ⟨_, congrArg (·.erase epsilon) (DisjointSum.alphabet_of_build hsum), hminimizes⟩

theorem BinaryOperation.normalForm {operation : BinaryOperation} (hr : operation.apply limit a b = .ok r) :
    r.DeterministicOver (a.alphabet ∪ b.alphabet) ∧ r.BreadthFirst ∧ r.renumber 0 = .ok r := by
  obtain ⟨c, halphabet, hminimizes⟩ := BinaryOperation.exists_minimizes hr
  have hover := hminimizes.deterministicOver
  exact ⟨{ hover with alphabet_eq := hover.alphabet_eq.trans halphabet }, hminimizes.breadthFirst,
    hminimizes.renumber⟩

/-- The result of an operation can be an operand again. -/
theorem UnaryOperation.built {operation : UnaryOperation} (ha : a.Built) (hr : operation.apply limit a = .ok r) :
    r.Built := by
  cases operation with
  | determinization =>
      by_cases hkind : a.kind = .dfa
      · rw [UnaryOperation.apply, determinize_eq_self (determinize_spec hr).1 hkind] at hr
        exact Except.ok.inj hr ▸ ha
      · exact (determinize_spec hr).2.valid.built (breadthFirst_of_determinize hr hkind).2
  | minimization => exact (minimize_spec hr).2.built

theorem BinaryOperation.built {operation : BinaryOperation} (hr : operation.apply limit a b = .ok r) : r.Built := by
  obtain ⟨c, _, hminimizes⟩ := BinaryOperation.exists_minimizes hr
  exact hminimizes.built

/-- Every operation returns a well-formed deterministic automaton over the symbols of its operands. Its
states are numbered in breadth-first order, and numbering them once more changes nothing, except for a
deterministic automaton that is its own determinization. A determinization does not compare its numbers with
the largest one that a state can have, so its result is asked to keep below that one. -/
theorem results_normalForm :
    (∀ (operation : UnaryOperation) (limit : Option Nat) (a r : Automaton), operation.apply limit a = .ok r →
      r.DeterministicOver a.alphabet ∧ (¬ (operation = .determinization ∧ a.kind = .dfa) →
        r.BreadthFirst ∧ ((operation = .determinization → ∀ q ∈ r.states, q ≤ StateId.largest) →
          r.renumber 0 = .ok r))) ∧
    ∀ (operation : BinaryOperation) (limit : Option Nat) (a b r : Automaton), operation.apply limit a b = .ok r →
      r.DeterministicOver (a.alphabet ∪ b.alphabet) ∧ r.BreadthFirst ∧ r.renumber 0 = .ok r :=
  ⟨fun _ _ _ _ => UnaryOperation.normalForm, fun _ _ _ _ _ => BinaryOperation.normalForm⟩

theorem results_normalForm_silentCycle :
    (UnaryOperation.determinization.apply (some 3) silentCycle = .ok silentCycleSubsets ∧
      silentCycleSubsets.DeterministicOver silentCycle.alphabet ∧ silentCycleSubsets.BreadthFirst ∧
      silentCycleSubsets.renumber 0 = .ok silentCycleSubsets) ∧
    BinaryOperation.union.apply none silentCycle optionalA = .ok alternatingOrEmpty ∧
      alternatingOrEmpty.DeterministicOver (silentCycle.alphabet ∪ optionalA.alphabet) ∧
      alternatingOrEmpty.BreadthFirst ∧ alternatingOrEmpty.renumber 0 = .ok alternatingOrEmpty := by
  have hd : UnaryOperation.determinization.apply (some 3) silentCycle = .ok silentCycleSubsets := by
    decide +kernel
  have hu : BinaryOperation.union.apply none silentCycle optionalA = .ok alternatingOrEmpty := by
    decide +kernel
  have hfits : ∀ q ∈ silentCycleSubsets.states, q ≤ StateId.largest := by decide +kernel
  obtain ⟨hover, hnumbered⟩ := results_normalForm.1 .determinization (some 3) silentCycle silentCycleSubsets hd
  obtain ⟨horder, hrenumber⟩ := hnumbered (by decide)
  exact ⟨⟨hd, hover, horder, hrenumber fun _ => hfits⟩, hu,
    results_normalForm.2 .union none silentCycle optionalA alternatingOrEmpty hu⟩

end FiniteAutomata.CommandLine
