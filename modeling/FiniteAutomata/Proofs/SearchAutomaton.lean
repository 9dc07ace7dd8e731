import FiniteAutomata.Automaton.Numbering
import FiniteAutomata.Proofs.Paths

/-! Automata that a search builds. What the search finds is numbered by its position, and the moves along
the rows are the edges. When the rows are those of a deterministic machine the result is a well-formed
deterministic automaton that accepts what the machine accepts, and its states have the numbers that
breadth-first numbering gives them. -/

namespace FiniteAutomata.Automaton

section Reachable

theorem toList_filter_true (row : SortedSet Transition) : (row.filter fun _ => true).toList = row.toList :=
  List.filter_true row.toList

/-- The search for the reached states goes along whole rows. -/
theorem reachable_eq_reach (a : Automaton) : a.reachable =
    Search.reach (fun q => (a.row q).toList.map (·.target)) (a.initial.toList.length + a.table.size)
      a.initial.toList := by
  simp only [reachable, TransitionTable.reach, toList_filter_true]
  rfl

theorem bounded_row_targets (a : Automaton) :
    Search.Bounded (fun q => (a.row q).toList.map (·.target)) (a.initial.toList.length + a.table.size)
      a.initial.toList (· ∈ a.initial.toList ++ a.table.edges.map (·.target)) := by
  have hbounded := TransitionTable.bounded_targets a.table (fun _ => true) a.initial.toList
  simp only [toList_filter_true] at hbounded
  exact hbounded

end Reachable

variable {α : Type} {row : α → List (Symbol × α)} {bound : Nat} {first x y y' : α} {final : α → Bool}
  {alphabet symbols : SortedSet Symbol} {i j : StateId} {s : Symbol} {w : List Symbol}

/-- The rows of a deterministic machine over some symbols: a search along them is bounded, and each row
lists its moves by ascending symbols. -/
structure Rows (row : α → List (Symbol × α)) (bound : Nat) (first : α) (symbols : SortedSet Symbol) :
    Prop where
  bounded : ∃ inside, Search.Bounded (fun x => (row x).map (·.2)) bound [first] inside
  ascending : ∀ x, (row x).Pairwise fun σ τ => compare σ.1 τ.1 = .lt
  symbol_mem : ∀ x s y, (s, y) ∈ row x → s ∈ symbols

/-- Rows that are read off along an alphabet list their symbols in its order. -/
theorem ascending_filterMap {f : Symbol → Option (Symbol × α)} (hf : ∀ s move, f s = some move → move.1 = s) :
    (alphabet.toList.filterMap f).Pairwise fun σ τ => compare σ.1 τ.1 = .lt := by
  rw [List.pairwise_filterMap]
  refine alphabet.ascending.imp fun hlt σ hσ τ hτ => ?_
  rwa [hf _ σ hσ, hf _ τ hτ]

/-- A row has one move under a symbol. -/
theorem Rows.functional (h : Rows row bound first symbols) (hy : (s, y) ∈ row x) (hy' : (s, y') ∈ row x) :
    y = y' := by
  have hnodup : ((row x).map (·.1)).Nodup := by
    refine List.pairwise_map.2 ((h.ascending x).imp fun hlt heq => ?_)
    rw [heq] at hlt
    simp at hlt
  exact congrArg Prod.snd (List.inj_on_of_nodup_map hnodup hy hy' rfl)

variable [DecidableEq α]

/-- What is found from `first` along rows of moves, each of them under its symbol. -/
def found (row : α → List (Symbol × α)) (bound : Nat) (first : α) : List α :=
  Search.reach (fun x => (row x).map (·.2)) bound [first]

theorem first_mem_found : first ∈ found row bound first :=
  Search.mem_reach_of_mem (List.mem_singleton.2 rfl)

theorem Rows.mem_found (h : Rows row bound first symbols) (hx : x ∈ found row bound first)
    (hmove : (s, y) ∈ row x) : y ∈ found row bound first := by
  obtain ⟨inside, hbounded⟩ := h.bounded
  exact Search.reach_closed hbounded hx (List.mem_map_of_mem hmove)

variable [BEq α]

def position (row : α → List (Symbol × α)) (bound : Nat) (first x : α) : StateId :=
  (found row bound first).idxOf x

/-- The automaton whose states are the positions of what is found. -/
def ofSearch (row : α → List (Symbol × α)) (bound : Nat) (first : α) (final : α → Bool)
    (alphabet : SortedSet Symbol) : Automaton :=
  { kind := .dfa
    states := .ofList (List.range (found row bound first).length)
    alphabet
    initial := .ofList [0]
    final := .ofList (((found row bound first).filter final).map (position row bound first))
    table := .ofEdges ((found row bound first).flatMap fun x =>
      (row x).map fun move => ⟨position row bound first x, move.1, position row bound first move.2⟩) }

theorem mem_states_ofSearch :
    i ∈ (ofSearch row bound first final alphabet).states ↔ i < (found row bound first).length :=
  SortedSet.mem_ofList.trans List.mem_range

theorem stateCount_ofSearch :
    (ofSearch row bound first final alphabet).stateCount = (found row bound first).length := by
  have hascending : (List.range (found row bound first).length).Pairwise fun i j => compare i j = .lt :=
    List.pairwise_lt_range.imp Nat.compare_eq_lt.2
  have hlist : (ofSearch row bound first final alphabet).states.toList =
      List.range (found row bound first).length := SortedSet.toList_eq hascending fun _ => SortedSet.mem_ofList
  rw [stateCount, SortedSet.size, hlist, List.length_range]

theorem mem_initial_ofSearch : i ∈ (ofSearch row bound first final alphabet).initial ↔ i = 0 :=
  SortedSet.mem_ofList.trans List.mem_singleton

theorem mem_final_ofSearch : i ∈ (ofSearch row bound first final alphabet).final ↔
    ∃ x ∈ found row bound first, final x = true ∧ position row bound first x = i := by
  apply SortedSet.mem_ofList.trans
  simp only [List.mem_map, List.mem_filter, and_assoc]

/-- The edges are the moves between what is found. -/
theorem hasEdge_ofSearch : (ofSearch row bound first final alphabet).HasEdge i s j ↔
    ∃ x ∈ found row bound first, ∃ y, (s, y) ∈ row x ∧
      position row bound first x = i ∧ position row bound first y = j := by
  apply TransitionTable.mem_ofEdges.trans
  simp only [List.mem_flatMap, List.mem_map, Edge.mk.injEq, Prod.exists]
  refine exists_congr fun x => and_congr_right fun _ => ⟨?_, ?_⟩
  · intro hmoves
    obtain ⟨s, y, hmove, hi, rfl, hj⟩ := hmoves
    exact ⟨y, hmove, hi, hj⟩
  · intro hmoves
    obtain ⟨y, hmove, hi, hj⟩ := hmoves
    exact ⟨s, y, hmove, hi, rfl, hj⟩

theorem Rows.epsilonFree (h : Rows row bound first symbols) (hepsilon : epsilon ∉ symbols) :
    (ofSearch row bound first final alphabet).EpsilonFree := by
  intro i j hedge
  obtain ⟨x, _, y, hmove, _, _⟩ := hasEdge_ofSearch.1 hedge
  exact hepsilon (h.symbol_mem x epsilon y hmove)

variable [LawfulBEq α]

theorem position_first : position row bound first first = 0 := by
  obtain ⟨rest, hfound⟩ := Search.reach_singleton (fun x => (row x).map (·.2)) bound first
  rw [position, found, hfound, List.idxOf_cons_self]

/-- What is found at an index has this index for its position. -/
theorem position_of_getElem? (hx : (found row bound first)[i]? = some x) : position row bound first x = i := by
  obtain ⟨hi, rfl⟩ := List.getElem?_eq_some_iff.1 hx
  exact List.Nodup.idxOf_getElem (Search.nodup_reach _ _ _) i hi

section Position

variable (hx : x ∈ found row bound first)

include hx

theorem position_inj : position row bound first x = position row bound first y ↔ x = y := List.idxOf_inj hx

theorem position_mem_states :
    position row bound first x ∈ (ofSearch row bound first final alphabet).states :=
  mem_states_ofSearch.2 (List.idxOf_lt_length_iff.2 hx)

theorem mem_final_position :
    position row bound first x ∈ (ofSearch row bound first final alphabet).final ↔ final x = true := by
  rw [mem_final_ofSearch]
  refine ⟨?_, ?_⟩
  · intro hfinal
    obtain ⟨y, hy, hfinal, heq⟩ := hfinal
    rwa [← (position_inj hy).1 heq]
  · intro hfinal
    exact ⟨x, hx, hfinal, rfl⟩

theorem hasEdge_position :
    (ofSearch row bound first final alphabet).HasEdge (position row bound first x) s j ↔
      ∃ y, (s, y) ∈ row x ∧ position row bound first y = j := by
  rw [hasEdge_ofSearch]
  refine ⟨?_, ?_⟩
  · intro hmoves
    obtain ⟨x', hx', y, hmove, heq, hj⟩ := hmoves
    exact ⟨y, (position_inj hx').1 heq ▸ hmove, hj⟩
  · intro hmoves
    obtain ⟨y, hmove, hj⟩ := hmoves
    exact ⟨x, hx, y, hmove, rfl, hj⟩

/-- Between two positions the edges are the moves between what is there. -/
theorem hasEdge_positions (hy : y ∈ found row bound first) : (ofSearch row bound first final alphabet).HasEdge
    (position row bound first x) s (position row bound first y) ↔ (s, y) ∈ row x := by
  rw [hasEdge_position hx]
  refine ⟨?_, fun hmove => ⟨y, hmove, rfl⟩⟩
  rintro ⟨y', hmove, heq⟩
  rwa [(position_inj hy).1 heq.symm]

end Position

theorem map_position_found : (found row bound first).map (position row bound first) =
    List.range (found row bound first).length :=
  Search.map_idxOf_eq_range (Search.nodup_reach _ _ _)

namespace Rows

variable (h : Rows row bound first symbols)

include h

/-- The automaton is as well-formed as the machine: one state at the start, no epsilon, and one edge for
each state and symbol. -/
theorem valid_ofSearch (hsymbols : ∀ s ∈ symbols, s ∈ alphabet) (hepsilon : epsilon ∉ alphabet) :
    (ofSearch row bound first final alphabet).Valid where
  initial_mem i hi := by
    rw [mem_initial_ofSearch.1 hi, mem_states_ofSearch]
    exact List.length_pos_of_mem first_mem_found
  final_mem i hi := by
    obtain ⟨x, hx, _, rfl⟩ := mem_final_ofSearch.1 hi
    exact position_mem_states hx
  source_mem i s j hedge := by
    obtain ⟨x, hx, _, _, rfl, _⟩ := hasEdge_ofSearch.1 hedge
    exact position_mem_states hx
  target_mem i s j hedge := by
    obtain ⟨x, hx, y, hmove, _, rfl⟩ := hasEdge_ofSearch.1 hedge
    exact position_mem_states (h.mem_found hx hmove)
  symbol_mem i s j hedge := by
    obtain ⟨x, _, y, hmove, _, _⟩ := hasEdge_ofSearch.1 hedge
    exact .inr (hsymbols s (h.symbol_mem x s y hmove))
  deterministic _ :=
    { one_initial := rfl
      epsilon_not_mem := hepsilon
      no_epsilon := h.epsilonFree fun hmem => hepsilon (hsymbols epsilon hmem)
      functional := by
        intro i s j k hj hk
        obtain ⟨x, hx, y, hmove, rfl, rfl⟩ := hasEdge_ofSearch.1 hj
        obtain ⟨y', hmove', rfl⟩ := (hasEdge_position hx).1 hk
        rw [h.functional hmove hmove'] }

/-- The row of a position is the row of what is there. -/
theorem row_position (hx : x ∈ found row bound first) :
    ((ofSearch row bound first final alphabet).row (position row bound first x)).toList =
      (row x).map fun move => ⟨move.1, position row bound first move.2⟩ := by
  have hascending : ((row x).map fun move => (⟨move.1, position row bound first move.2⟩ : Transition)).Pairwise
      fun σ τ => compare σ τ = .lt :=
    List.pairwise_map.2 ((h.ascending x).imp fun hlt => Transition.compare_eq_lt_iff.2 (.inl hlt))
  refine SortedSet.toList_eq hascending ?_
  rintro ⟨s, j⟩
  rw [← hasEdge_iff_mem_row, hasEdge_position hx, List.mem_map]
  simp only [Prod.exists, Transition.mk.injEq]
  refine ⟨?_, ?_⟩
  · intro hmoves
    obtain ⟨y, hmove, rfl⟩ := hmoves
    exact ⟨s, y, hmove, rfl, rfl⟩
  · intro hmoves
    obtain ⟨_, y, hmove, rfl, rfl⟩ := hmoves
    exact ⟨y, hmove, rfl⟩

/-- A search of the automaton meets the positions in their order. -/
theorem reachable_ofSearch : (ofSearch row bound first final alphabet).reachable =
    List.range (found row bound first).length := by
  obtain ⟨inside, hbounded⟩ := h.bounded
  have hbound := (ofSearch row bound first final alphabet).bounded_row_targets
  have hinitial : (ofSearch row bound first final alphabet).initial.toList =
      [first].map (position row bound first) := by
    rw [List.map_singleton, position_first]
    rfl
  rw [reachable_eq_reach, ← map_position_found]
  rw [hinitial] at hbound ⊢
  refine Search.reach_map (position row bound first) (fun x y hx _ => (position_inj hx).1) hbounded.reached
    hbound fun x hx => ?_
  rw [h.row_position hx, List.map_map, List.map_map]
  rfl

/-- The words of the automaton are those of the machine, given by the words that each `x` accepts. The
induction is on the word; the automaton and the machine read a symbol together. -/
theorem acceptsFrom_position (accepts : α → List Symbol → Prop) (hepsilon : epsilon ∉ symbols)
    (hnil : ∀ x, accepts x [] ↔ final x = true)
    (hcons : ∀ x ∈ found row bound first, ∀ s w, accepts x (s :: w) ↔ ∃ y, (s, y) ∈ row x ∧ accepts y w)
    (hx : x ∈ found row bound first) :
    (ofSearch row bound first final alphabet).AcceptsFrom (position row bound first x) w ↔ accepts x w := by
  induction w generalizing x with
  | nil => rw [(h.epsilonFree hepsilon).acceptsFrom_nil, mem_final_position hx, hnil]
  | cons s w ih =>
      rw [(h.epsilonFree hepsilon).acceptsFrom_cons, hcons x hx]
      simp only [hasEdge_position hx]
      refine ⟨?_, ?_⟩
      · intro hstep
        obtain ⟨_, ⟨y, hmove, rfl⟩, hrest⟩ := hstep
        exact ⟨y, hmove, (ih (h.mem_found hx hmove)).1 hrest⟩
      · intro hstep
        obtain ⟨y, hmove, hrest⟩ := hstep
        exact ⟨_, ⟨y, hmove, rfl⟩, (ih (h.mem_found hx hmove)).2 hrest⟩

theorem recognizes_ofSearch (accepts : α → List Symbol → Prop) (hepsilon : epsilon ∉ symbols)
    (hnil : ∀ x, accepts x [] ↔ final x = true)
    (hcons : ∀ x ∈ found row bound first, ∀ s w, accepts x (s :: w) ↔ ∃ y, (s, y) ∈ row x ∧ accepts y w) :
    (ofSearch row bound first final alphabet).Recognizes w ↔ accepts first w := by
  have hfirst : (ofSearch row bound first final alphabet).AcceptsFrom (position row bound first first) w ↔
      accepts first w := h.acceptsFrom_position accepts hepsilon hnil hcons first_mem_found
  rw [position_first] at hfirst
  rw [recognizes_iff]
  simpa only [mem_initial_ofSearch, exists_eq_left] using hfirst

end Rows

end FiniteAutomata.Automaton
