import FiniteAutomata.Proofs.Renumbering
import FiniteAutomata.Proofs.StateLimit

/-! Determinization does not see the numbers of states. A one-to-one map of the states is followed through
the phases: it extends to the new initial state, it carries silent paths and with them the automaton without
epsilon, and applied to whole sets it carries the rows of the subset construction. These rows list their moves
by symbols, so both searches find corresponding sets in one order and number them alike, and a limit stops
both or neither. -/

namespace FiniteAutomata

open Std

namespace SortedSet

variable {α β : Type} [Ord α] [TransOrd α] [LawfulEqOrd α] [Ord β] [TransOrd β] [LawfulEqOrd β] {f : α → β}
  {set set' : SortedSet α}

omit [TransOrd α] in
theorem size_map (hf : ∀ a ∈ set, ∀ b ∈ set, f a = f b → a = b) : (set.map f).size = set.size := by
  have hnodup : (set.toList.map f).Nodup := set.nodup_toList.map_on hf
  have hperm := (List.perm_ext_iff_of_nodup (set.map f).nodup_toList hnodup).2 fun b => mem_ofList
  rw [size, hperm.length_eq, List.length_map, size]

/-- Sets on which a map is one to one are determined by their images. -/
theorem eq_of_map_eq {inside : α → Prop} (hf : ∀ a, inside a → ∀ b, inside b → f a = f b → a = b)
    (hset : ∀ a ∈ set, inside a) (hset' : ∀ a ∈ set', inside a) (heq : set.map f = set'.map f) :
    set = set' := by
  have hmem : ∀ a, f a ∈ set.map f ↔ f a ∈ set'.map f := fun a => by rw [heq]
  simp only [mem_map] at hmem
  apply ext
  intro a
  refine ⟨?_, ?_⟩
  · intro ha
    obtain ⟨b, hb, hba⟩ := (hmem a).1 ⟨a, ha, rfl⟩
    rwa [← hf b (hset' b hb) a (hset a ha) hba]
  · intro ha
    obtain ⟨b, hb, hba⟩ := (hmem a).2 ⟨a, ha, rfl⟩
    rwa [← hf b (hset b hb) a (hset' a ha) hba]

end SortedSet

namespace Automaton

section Search

variable {α β : Type} [DecidableEq α] [BEq α] [LawfulBEq α] [DecidableEq β] [BEq β] [LawfulBEq β]
  {row : α → List (Symbol × α)} {row' : β → List (Symbol × β)} {bound bound' : Nat} {first x : α}
  {inside : α → Prop} {inside' : β → Prop} {final : α → Bool} {final' : β → Bool} {f : α → β}
  (h : Search.Bounded (fun x => (row x).map (·.2)) bound [first] inside)
  (h' : Search.Bounded (fun y => (row' y).map (·.2)) bound' [f first] inside')
  (hf : ∀ x y, inside x → inside y → f x = f y → x = y)
  (hrow : ∀ x, inside x → row' (f x) = (row x).map fun move => (move.1, f move.2))

include h h' hf hrow

omit [BEq α] [LawfulBEq α] [BEq β] [LawfulBEq β] in
theorem found_map : found row' bound' (f first) = (found row bound first).map f := by
  refine Search.reach_map f hf h h' fun x hx => ?_
  rw [hrow x hx, List.map_map, List.map_map]
  rfl

theorem position_map (hx : x ∈ found row bound first) :
    position row' bound' (f first) (f x) = position row bound first x := by
  have hnodup : (found row' bound' (f first)).Nodup := Search.nodup_reach _ _ _
  rw [found_map h h' hf hrow] at hnodup
  rw [position, found_map h h' hf hrow]
  exact Search.idxOf_map hnodup hx

/-- A search for the images builds the same automaton. -/
theorem ofSearch_map (hfinal : ∀ x, inside x → final' (f x) = final x) {alphabet : SortedSet Symbol} :
    ofSearch row' bound' (f first) final' alphabet = ofSearch row bound first final alphabet := by
  have hinside : ∀ x ∈ found row bound first, inside x := fun x hx => Search.inside_of_mem_reach h hx
  have hmarks : ((found row' bound' (f first)).filter final').map (position row' bound' (f first)) =
      ((found row bound first).filter final).map (position row bound first) := by
    have hfilter : (found row bound first).filter (final' ∘ f) = (found row bound first).filter final :=
      List.filter_congr fun x hx => hfinal x (hinside x hx)
    rw [found_map h h' hf hrow, List.filter_map, List.map_map, hfilter]
    exact List.map_congr_left fun x hx => position_map h h' hf hrow (List.mem_of_mem_filter hx)
  have hedges : ((found row' bound' (f first)).flatMap fun y => (row' y).map fun move =>
        (⟨position row' bound' (f first) y, move.1, position row' bound' (f first) move.2⟩ : Edge)) =
      (found row bound first).flatMap fun x => (row x).map fun move =>
        ⟨position row bound first x, move.1, position row bound first move.2⟩ := by
    rw [found_map h h' hf hrow, List.flatMap_map]
    refine List.flatMap_congr fun x hx => ?_
    rw [hrow x (hinside x hx), List.map_map]
    refine List.map_congr_left fun move hmove => ?_
    have hnext := Search.reach_closed h hx (List.mem_map_of_mem hmove)
    rw [Function.comp, position_map h h' hf hrow hx, position_map h h' hf hrow hnext]
  rw [ofSearch, ofSearch, hmarks, hedges, found_map h h' hf hrow, List.length_map]

end Search

/-- The automaton of all sets of states that are reached, along the rows of the given automaton itself. -/
def subsetAutomaton (a : Automaton) : Automaton :=
  ofSearch a.subsetRow a.setCount a.initial (·.any fun q => decide (q ∈ a.final)) a.alphabet

end Automaton

namespace SubsetMemo

open Automaton

variable {a : Automaton} {m : SubsetMemo} {limit : Option Nat}

/-- A complete table leads to the automaton along the rows that it holds. -/
theorem Complete.toAutomaton_eq (hm : Complete a m) (h : a.Valid) (hfree : a.EpsilonFree) :
    m.toAutomaton a = a.subsetAutomaton := by
  have hbounded := (bounded_sets h.initial_mem h.target_mem).reached
  rw [toAutomaton_eq_ofSearch, subsetAutomaton]
  refine ofSearch_map (f := id) hbounded (bounded_row m a.alphabet a.initial) (fun _ _ _ _ heq => heq)
    (fun set hset => ?_) fun _ _ => rfl
  rw [id, hm.row_eq h hfree hset]
  exact (List.map_id _).symm

/-- Without a limit nothing stops the search. -/
theorem exists_build_none (a : Automaton) : ∃ m, build a none = .ok m := by
  obtain ⟨m, hm⟩ := exists_build_iff.2 (Nat.le_refl a.reachedSets.length)
  exact ⟨m, build_unlimited hm⟩

/-- The construction compares the limit with the number of all sets that are reached, and nothing else can
stop it. -/
theorem toAutomaton_of_build (h : a.Valid) (hfree : a.EpsilonFree) (limit : Option Nat) :
    (do let m ← build a limit; return m.toAutomaton a) =
      (do checkLimit limit a.reachedSets.length; return a.subsetAutomaton) := by
  have hresult : ∀ {limit m}, build a limit = .ok m → m.toAutomaton a = a.subsetAutomaton :=
    fun hm => (complete_of_build h hm).toAutomaton_eq h hfree
  cases limit with
  | none =>
      obtain ⟨m, hm⟩ := exists_build_none a
      rw [hm, ← hresult hm]
      rfl
  | some k =>
      by_cases hle : a.reachedSets.length ≤ k
      · obtain ⟨m, hm⟩ := exists_build_iff.2 hle
        have hchecked : checkLimit (some k) a.reachedSets.length = .ok () := checkLimit_eq_ok.2 hle
        rw [hm, hchecked, ← hresult hm]
        rfl
      · have hstopped : build a (some k) = .error (.limitExceeded k) := by
          rcases (onlyStops_build a).unlimited_or_stopped k with heq | hstopped
          · rw [← exists_build_iff, heq] at hle
            exact absurd (exists_build_none a) hle
          · exact hstopped
        rw [hstopped, checkLimit, if_pos (Nat.not_le.1 hle)]
        rfl

end SubsetMemo

namespace Automaton

variable {a b single : Automaton} {f : StateId → StateId} {p q first : StateId} {s : Symbol}
  {set : SortedSet StateId} {limit : Option Nat}

namespace IsImage

variable (himage : IsImage f a b) (h : a.Valid)

include himage

/-- What a map does outside the states plays no part. -/
theorem congr {g : StateId → StateId} (h : a.Valid) (heq : ∀ q ∈ a.states, g q = f q) : IsImage g a b := by
  have hexists : ∀ {set : SortedSet StateId} (q' : StateId), (∀ q ∈ set, q ∈ a.states) →
      ((∃ q ∈ set, f q = q') ↔ ∃ q ∈ set, g q = q') := by
    intro set q' hset
    exact exists_congr fun q => and_congr_right fun hq => by rw [heq q (hset q hq)]
  refine ⟨himage.kind, himage.alphabet, ?_, ?_, ?_, ?_, ?_⟩
  · intro p hp q hq hpq
    rw [heq p hp, heq q hq] at hpq
    exact himage.injective p hp q hq hpq
  · exact fun q' => (himage.states q').trans (hexists q' fun q hq => hq)
  · exact fun q' => (himage.initial q').trans (hexists q' h.initial_mem)
  · exact fun q' => (himage.final q').trans (hexists q' h.final_mem)
  · intro p' s q'
    rw [himage.edges]
    refine exists_congr fun p => exists_congr fun q => and_congr_right fun hedge => ?_
    rw [heq p (h.source_mem p s q hedge), heq q (h.target_mem p s q hedge)]

theorem initial_eq : b.initial = a.initial.map f := by
  apply SortedSet.ext
  intro q'
  rw [himage.initial, SortedSet.mem_map]

include h

theorem mem_initial_iff (hp : p ∈ a.states) : f p ∈ b.initial ↔ p ∈ a.initial := by
  rw [himage.initial]
  refine ⟨?_, fun hp => ⟨p, hp, rfl⟩⟩
  intro hmem
  obtain ⟨q, hq, heq⟩ := hmem
  rwa [← himage.injective q (h.initial_mem q hq) p hp heq]

theorem mem_final_iff (hp : p ∈ a.states) : f p ∈ b.final ↔ p ∈ a.final := by
  rw [himage.final]
  refine ⟨?_, fun hp => ⟨p, hp, rfl⟩⟩
  intro hmem
  obtain ⟨q, hq, heq⟩ := hmem
  rwa [← himage.injective q (h.final_mem q hq) p hp heq]

/-- The edges that leave an image are the images of the edges that leave the state. -/
theorem hasEdge_iff {q' : StateId} (hp : p ∈ a.states) :
    b.HasEdge (f p) s q' ↔ ∃ q, a.HasEdge p s q ∧ f q = q' := by
  rw [himage.edges]
  refine ⟨?_, ?_⟩
  · intro hedges
    obtain ⟨r, q, hedge, heq, hq⟩ := hedges
    rw [himage.injective r (h.source_mem r s q hedge) p hp heq] at hedge
    exact ⟨q, hedge, hq⟩
  · intro hedges
    obtain ⟨q, hedge, hq⟩ := hedges
    exact ⟨p, q, hedge, rfl, hq⟩

theorem isIsomorphism : IsIsomorphism a b f where
  alphabet := himage.alphabet.symm
  injective := himage.injective
  states := himage.states
  initial _ hp := himage.mem_initial_iff h hp
  final _ hp := himage.mem_final_iff h hp
  edges p hp s q hq := by
    rw [himage.hasEdge_iff h hp]
    refine ⟨?_, fun hedge => ⟨q, hedge, rfl⟩⟩
    intro hedges
    obtain ⟨r, hedge, heq⟩ := hedges
    rwa [← himage.injective r (h.target_mem p s r hedge) q hq heq]

theorem path_iff {w : List Symbol} {q' : StateId} (hb : b.Valid) (hp : p ∈ a.states) :
    b.Path (f p) w q' ↔ ∃ q, a.Path p w q ∧ f q = q' :=
  (himage.isIsomorphism h).path_iff h hb hp

theorem valid (hkind : a.kind = .nfa) : b.Valid where
  initial_mem q' hq' := by
    obtain ⟨q, hq, rfl⟩ := (himage.initial q').1 hq'
    exact (himage.states _).2 ⟨q, h.initial_mem q hq, rfl⟩
  final_mem q' hq' := by
    obtain ⟨q, hq, rfl⟩ := (himage.final q').1 hq'
    exact (himage.states _).2 ⟨q, h.final_mem q hq, rfl⟩
  source_mem p' s q' hedge := by
    obtain ⟨p, q, hold, rfl, _⟩ := (himage.edges p' s q').1 hedge
    exact (himage.states _).2 ⟨p, h.source_mem p s q hold, rfl⟩
  target_mem p' s q' hedge := by
    obtain ⟨p, q, hold, _, rfl⟩ := (himage.edges p' s q').1 hedge
    exact (himage.states _).2 ⟨q, h.target_mem p s q hold, rfl⟩
  symbol_mem p' s q' hedge := by
    obtain ⟨p, q, hold, _, _⟩ := (himage.edges p' s q').1 hedge
    rw [himage.alphabet]
    exact h.symbol_mem p s q hold
  deterministic hdfa := by
    rw [himage.kind, hkind] at hdfa
    cases hdfa

theorem exists_initial_final_iff : (∃ q' ∈ b.initial, q' ∈ b.final) ↔ ∃ q ∈ a.initial, q ∈ a.final := by
  refine ⟨?_, ?_⟩
  · intro hmarks
    obtain ⟨q', hinitial, hfinal⟩ := hmarks
    obtain ⟨q, hq, rfl⟩ := (himage.initial q').1 hinitial
    exact ⟨q, hq, (himage.mem_final_iff h (h.initial_mem q hq)).1 hfinal⟩
  · intro hmarks
    obtain ⟨q, hinitial, hfinal⟩ := hmarks
    exact ⟨f q, (himage.initial _).2 ⟨q, hinitial, rfl⟩, (himage.final _).2 ⟨q, hfinal, rfl⟩⟩

/-- New initial states correspond when the map takes one to the other. -/
theorem startingFrom (hfirst : first ∉ a.states) (hfirst' : f first ∉ b.states) :
    IsImage f (a.startingFrom first) (b.startingFrom (f first)) where
  kind := rfl
  alphabet := himage.alphabet
  injective p hp q hq heq := by
    have hnew : ∀ r ∈ a.states, f r ≠ f first := by
      intro r hr heq
      exact hfirst' (heq ▸ (himage.states _).2 ⟨r, hr, rfl⟩)
    rcases mem_states_startingFrom.1 hp with rfl | hold <;> rcases mem_states_startingFrom.1 hq with rfl | hold'
    · rfl
    · exact absurd heq.symm (hnew q hold')
    · exact absurd heq (hnew p hold)
    · exact himage.injective p hold q hold' heq
  states q' := by
    simp only [mem_states_startingFrom, himage.states, or_and_right, exists_or, exists_eq_left,
      eq_comm (a := q')]
  initial q' := by
    simp only [mem_initial_startingFrom, exists_eq_left, eq_comm (a := q')]
  final q' := by
    simp only [mem_final_startingFrom, himage.final q', himage.exists_initial_final_iff h, or_and_right,
      exists_or]
    refine or_congr_right ⟨?_, ?_⟩
    · intro hmark
      obtain ⟨rfl, hmarks⟩ := hmark
      exact ⟨first, ⟨rfl, hmarks⟩, rfl⟩
    · intro hmark
      obtain ⟨_, ⟨rfl, hmarks⟩, rfl⟩ := hmark
      exact ⟨rfl, hmarks⟩
  edges p' s q' := by
    simp only [hasEdge_startingFrom, himage.edges, himage.initial q', or_and_right, exists_or]
    refine or_congr_right ⟨?_, ?_⟩
    · intro hedge
      obtain ⟨rfl, rfl, q, hq, rfl⟩ := hedge
      exact ⟨first, q, ⟨rfl, rfl, hq⟩, rfl, rfl⟩
    · intro hedge
      obtain ⟨_, q, ⟨rfl, rfl, hq⟩, rfl, rfl⟩ := hedge
      exact ⟨rfl, rfl, q, hq, rfl⟩

/-- Both automata need a new initial state or neither does, and the map extends to it. -/
theorem withSingleInitial {single' : Automaton} (hsingle : a.withSingleInitial = .ok single)
    (hsingle' : b.withSingleInitial = .ok single') : ∃ g, IsImage g single single' := by
  have hsize : b.initial.size = a.initial.size := by
    rw [himage.initial_eq]
    exact SortedSet.size_map fun p hp q hq =>
      himage.injective p (h.initial_mem p hp) q (h.initial_mem q hq)
  rw [Automaton.withSingleInitial] at hsingle hsingle'
  rw [hsize] at hsingle'
  split at hsingle
  · next hone =>
      rw [if_pos hone] at hsingle'
      cases hsingle
      cases hsingle'
      exact ⟨f, himage⟩
  · next hmore =>
      rw [if_neg hmore] at hsingle'
      obtain ⟨first, hfresh, heq⟩ := bind_eq_ok.1 hsingle
      obtain ⟨first', hfresh', heq'⟩ := bind_eq_ok.1 hsingle'
      cases heq
      cases heq'
      have hfirst := not_mem_of_freshState hfresh
      have hfirst' := not_mem_of_freshState hfresh'
      have hextended : IsImage (Function.update f first first') a b := by
        refine himage.congr h fun q hq => Function.update_of_ne ?_ _ _
        rintro rfl
        exact hfirst hq
      have hnew : Function.update f first first' first = first' := Function.update_self first first' f
      have hstart := hextended.startingFrom h hfirst
      rw [hnew] at hstart
      exact ⟨_, hstart hfirst'⟩

/-- Silent paths lead from images to images, so eliminating epsilon keeps the correspondence. -/
theorem eliminateEpsilon (hb : b.Valid) : IsImage f a.eliminateEpsilon b.eliminateEpsilon where
  kind := rfl
  alphabet := congrArg (·.erase epsilon) himage.alphabet
  injective := himage.injective
  states := himage.states
  initial := himage.initial
  final q' := by
    simp only [mem_final_eliminateEpsilon]
    refine ⟨?_, ?_⟩
    · intro hmark
      obtain ⟨hq', r', hr', hrun⟩ := hmark
      obtain ⟨q, hq, rfl⟩ := (himage.states q').1 hq'
      obtain ⟨r, hold, rfl⟩ := (himage.path_iff h hb hq).1 hrun
      exact ⟨q, ⟨hq, r, (himage.mem_final_iff h (h.mem_states_of_path hq hold)).1 hr', hold⟩, rfl⟩
    · intro hmark
      obtain ⟨q, ⟨hq, r, hr, hrun⟩, rfl⟩ := hmark
      exact ⟨(himage.states _).2 ⟨q, hq, rfl⟩, f r, (himage.final _).2 ⟨r, hr, rfl⟩,
        (himage.path_iff h hb hq).2 ⟨r, hrun, rfl⟩⟩
  edges p' s q' := by
    simp only [hasEdge_eliminateEpsilon_iff_path]
    refine ⟨?_, ?_⟩
    · intro hedge
      obtain ⟨hp', hs, r', hrun, hedge⟩ := hedge
      obtain ⟨p, hp, rfl⟩ := (himage.states p').1 hp'
      obtain ⟨r, hold, rfl⟩ := (himage.path_iff h hb hp).1 hrun
      obtain ⟨q, hlast, rfl⟩ := (himage.hasEdge_iff h (h.mem_states_of_path hp hold)).1 hedge
      exact ⟨p, q, ⟨hp, hs, r, hold, hlast⟩, rfl, rfl⟩
    · intro hedge
      obtain ⟨p, q, ⟨hp, hs, r, hrun, hedge⟩, rfl, rfl⟩ := hedge
      exact ⟨(himage.states _).2 ⟨p, hp, rfl⟩, hs, f r, (himage.path_iff h hb hp).2 ⟨r, hrun, rfl⟩,
        (himage.edges _ s _).2 ⟨r, q, hedge, rfl, rfl⟩⟩

section Sets

variable (hset : ∀ q ∈ set, q ∈ a.states)

include hset

theorem targetSet_map : b.targetSet (set.map f) s = (a.targetSet set s).map f := by
  apply SortedSet.ext
  intro q'
  simp only [mem_targetSet, SortedSet.mem_map]
  refine ⟨?_, ?_⟩
  · intro hmem
    obtain ⟨_, ⟨p, hp, rfl⟩, hedge⟩ := hmem
    obtain ⟨q, hold, rfl⟩ := (himage.hasEdge_iff h (hset p hp)).1 hedge
    exact ⟨q, ⟨p, hp, hold⟩, rfl⟩
  · intro hmem
    obtain ⟨q, ⟨p, hp, hedge⟩, rfl⟩ := hmem
    exact ⟨f p, ⟨p, hp, rfl⟩, (himage.edges _ s _).2 ⟨p, q, hedge, rfl, rfl⟩⟩

theorem leavingSymbols_map : b.leavingSymbols (set.map f) = a.leavingSymbols set := by
  apply SortedSet.ext
  intro s
  simp only [mem_leavingSymbols, SortedSet.mem_map]
  refine ⟨?_, ?_⟩
  · intro hmem
    obtain ⟨_, ⟨p, hp, rfl⟩, q', hedge⟩ := hmem
    obtain ⟨q, hold, rfl⟩ := (himage.hasEdge_iff h (hset p hp)).1 hedge
    exact ⟨p, hp, q, hold⟩
  · intro hmem
    obtain ⟨p, hp, q, hedge⟩ := hmem
    exact ⟨f p, ⟨p, hp, rfl⟩, f q, (himage.edges _ s _).2 ⟨p, q, hedge, rfl, rfl⟩⟩

/-- The moves of an image set are the moves of the set, in the same order. -/
theorem subsetRow_map : b.subsetRow (set.map f) = (a.subsetRow set).map fun move => (move.1, move.2.map f) := by
  simp only [subsetRow, himage.leavingSymbols_map h hset, himage.targetSet_map h hset, List.map_map,
    Function.comp_def]

theorem any_final_map : ((set.map f).any fun q => decide (q ∈ b.final)) = set.any fun q => decide (q ∈ a.final) := by
  rw [Bool.eq_iff_iff]
  simp only [SortedSet.any, List.any_eq_true, decide_eq_true_eq, SortedSet.mem_toList, SortedSet.mem_map]
  refine ⟨?_, ?_⟩
  · intro hmem
    obtain ⟨_, ⟨q, hq, rfl⟩, hfinal⟩ := hmem
    exact ⟨q, hq, (himage.mem_final_iff h (hset q hq)).1 hfinal⟩
  · intro hmem
    obtain ⟨q, hq, hfinal⟩ := hmem
    exact ⟨f q, ⟨q, hq, rfl⟩, (himage.final _).2 ⟨q, hfinal, rfl⟩⟩

end Sets

variable (hb : b.Valid)

include hb

/-- The subset construction finds the images of the sets in the same order, so it finds as many sets and
builds the same automaton. -/
theorem subsets_eq : b.reachedSets.length = a.reachedSets.length ∧ b.subsetAutomaton = a.subsetAutomaton := by
  have hbounded := bounded_sets h.initial_mem h.target_mem
  have hbounded' := bounded_sets hb.initial_mem hb.target_mem
  rw [himage.initial_eq] at hbounded'
  have hinj : ∀ set set' : SortedSet StateId, (∀ q ∈ set, q ∈ a.states) → (∀ q ∈ set', q ∈ a.states) →
      set.map f = set'.map f → set = set' :=
    fun set set' hset hset' => SortedSet.eq_of_map_eq himage.injective hset hset'
  have hrow : ∀ set : SortedSet StateId, (∀ q ∈ set, q ∈ a.states) →
      b.subsetRow (set.map f) = (a.subsetRow set).map fun move => (move.1, move.2.map f) :=
    fun _ hset => himage.subsetRow_map h hset
  refine ⟨?_, ?_⟩
  · have hfound := found_map (f := fun set : SortedSet StateId => set.map f) hbounded hbounded' hinj hrow
    rw [← himage.initial_eq] at hfound
    exact (congrArg List.length hfound).trans (List.length_map _)
  · rw [subsetAutomaton, subsetAutomaton, himage.initial_eq, himage.alphabet]
    exact ofSearch_map (f := fun set : SortedSet StateId => set.map f) hbounded hbounded' hinj hrow
      fun set hset => himage.any_final_map h hset

end IsImage

section Determinization

/-- The outcome for an automaton with initial states. -/
theorem determinize_eq (h : a.Valid) (hkind : a.kind = .nfa) (hinitial : a.initial ≠ ∅) (limit : Option Nat) :
    a.determinize limit = (do
      let single ← a.withSingleInitial
      SubsetMemo.checkLimit limit single.eliminateEpsilon.reachedSets.length
      return single.eliminateEpsilon.subsetAutomaton) := by
  have hnfa : a.isDeterministic = false := by
    rw [isDeterministic, hkind]
    rfl
  have hnonempty : a.initial.isEmpty = false := Bool.eq_false_iff.2 (mt SortedSet.isEmpty_iff.1 hinitial)
  rw [determinize, check_eq_ok_iff.2 h, hnfa, hnonempty]
  cases hsingle : a.withSingleInitial with
  | error failure => rfl
  | ok single =>
      have hvalid := (withSingleInitial_spec h hsingle).1.eliminateEpsilon
      exact SubsetMemo.toAutomaton_of_build hvalid epsilonFree_eliminateEpsilon limit

/-- When the numbers of states do not run out, the subset construction is reached. -/
theorem exists_withSingleInitial (h : a.Valid) (hkind : a.kind = .nfa) (hinitial : a.initial ≠ ∅)
    (hids : ∀ q, a.determinize limit ≠ .error (.idsExhausted q)) :
    ∃ single, a.withSingleInitial = .ok single ∧ single.Valid ∧ a.determinize limit = do
      SubsetMemo.checkLimit limit single.eliminateEpsilon.reachedSets.length
      return single.eliminateEpsilon.subsetAutomaton := by
  rw [determinize_eq h hkind hinitial] at hids ⊢
  cases hsingle : a.withSingleInitial with
  | error failure =>
      obtain ⟨_, hfresh⟩ := withSingleInitial_eq_error.1 hsingle
      obtain ⟨q, _, _, rfl⟩ := freshState_eq_error.1 hfresh
      rw [hsingle] at hids
      exact absurd rfl (hids q)
  | ok single => exact ⟨single, rfl, (withSingleInitial_spec h hsingle).1, rfl⟩

/-- A relabelled automaton has the same determinization, with the same numbers, or both are stopped by the
limit, unless the numbers of states run out for one of the two. -/
theorem determinize_relabelled (hvalidate : a.validate = .ok ()) (hkind : a.kind = .nfa) (himage : IsImage f a b)
    (ha : ∀ q, a.determinize limit ≠ .error (.idsExhausted q))
    (hb : ∀ q, b.determinize limit ≠ .error (.idsExhausted q)) :
    b.determinize limit = a.determinize limit ∧
      ((∃ d, a.determinize limit = .ok d) ∨
        ∃ k, limit = some k ∧ a.determinize limit = .error (.limitExceeded k)) := by
  have h := validate_eq_ok_iff.1 hvalidate
  have hvalid := himage.valid h hkind
  have hnfa : a.kind ≠ .dfa := by
    rw [hkind]
    decide
  by_cases hinitial : a.initial = ∅
  · have hinitial' : b.initial = ∅ := by
      rw [himage.initial_eq, hinitial]
      rfl
    have hd : a.determinize limit = .ok (emptyLanguage (a.alphabet.erase epsilon)) :=
      determinize_eq_ok.2 ⟨h, .inr ⟨hnfa, .inl ⟨hinitial, rfl⟩⟩⟩
    have hd' : b.determinize limit = .ok (emptyLanguage (b.alphabet.erase epsilon)) :=
      determinize_eq_ok.2 ⟨hvalid, .inr ⟨himage.kind.trans_ne hnfa, .inl ⟨hinitial', rfl⟩⟩⟩
    rw [hd, hd', himage.alphabet]
    exact ⟨rfl, .inl ⟨_, rfl⟩⟩
  · have hinitial' : b.initial ≠ ∅ := by
      intro hempty
      apply hinitial
      apply SortedSet.ext
      intro q
      refine iff_of_false (fun hq => ?_) (SortedSet.not_mem_empty q)
      have hmem := (himage.initial _).2 ⟨q, hq, rfl⟩
      rw [hempty] at hmem
      exact SortedSet.not_mem_empty _ hmem
    have hkind' : b.kind = .nfa := himage.kind.trans hkind
    obtain ⟨single, hsingle, hsvalid, hd⟩ := exists_withSingleInitial h hkind hinitial ha
    obtain ⟨single', hsingle', hsvalid', hd'⟩ := exists_withSingleInitial hvalid hkind' hinitial' hb
    obtain ⟨g, hsimage⟩ := himage.withSingleInitial h hsingle hsingle'
    obtain ⟨hcount, hsubsets⟩ := (hsimage.eliminateEpsilon hsvalid hsvalid').subsets_eq
      hsvalid.eliminateEpsilon hsvalid'.eliminateEpsilon
    rw [hd, hd', hcount, hsubsets]
    refine ⟨rfl, ?_⟩
    cases limit with
    | none => exact .inl ⟨_, rfl⟩
    | some k =>
        rw [SubsetMemo.checkLimit]
        split
        · exact .inr ⟨k, rfl, rfl⟩
        · exact .inl ⟨_, rfl⟩

/-- The cycle of silent edges with its three states numbered downwards from 10. -/
def silentCycleDownwards : Automaton := silentCycle.relabel fun q => 10 - q

/-- The order of the states is turned round, and still three sets are found and one set less stops the search. -/
theorem determinize_relabelled_silentCycle :
    silentCycle.validate = .ok () ∧ silentCycle.kind = .nfa ∧
      IsImage (fun q => 10 - q) silentCycle silentCycleDownwards ∧
      silentCycle.determinize (some 3) = .ok silentCycleSubsets ∧
      silentCycleDownwards.determinize (some 3) = silentCycle.determinize (some 3) ∧
      silentCycle.determinize (some 2) = .error (.limitExceeded 2) ∧
      silentCycleDownwards.determinize (some 2) = silentCycle.determinize (some 2) := by
  have hvalidate : silentCycle.validate = .ok () := by decide +kernel
  have himage : IsImage (fun q => 10 - q) silentCycle silentCycleDownwards :=
    isImage_relabel (validate_eq_ok_iff.1 hvalidate) (TransitionTable.noEmptyRow_ofEdges _) (by decide)
  have hthree : silentCycle.determinize (some 3) = .ok silentCycleSubsets := by decide +kernel
  have hthree' : silentCycleDownwards.determinize (some 3) = .ok silentCycleSubsets := by decide +kernel
  have htwo : silentCycle.determinize (some 2) = .error (.limitExceeded 2) := by decide +kernel
  have htwo' : silentCycleDownwards.determinize (some 2) = .error (.limitExceeded 2) := by decide +kernel
  have hadmitted := determinize_relabelled hvalidate rfl himage
    (fun q => by rw [hthree]; exact nofun) (fun q => by rw [hthree']; exact nofun)
  have hstopped := determinize_relabelled hvalidate rfl himage
    (fun q => by rw [htwo]; simp) (fun q => by rw [htwo']; simp)
  exact ⟨hvalidate, rfl, himage, hthree, hadmitted.1, htwo, hstopped.1⟩

end Determinization

end Automaton

end FiniteAutomata
