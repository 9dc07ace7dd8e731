import FiniteAutomata.Proofs.Construction
import FiniteAutomata.Proofs.Numbering
import FiniteAutomata.Proofs.SearchAutomaton

/-! The breadth-first numbering does not see the names of states. The transitions of a deterministic
automaton are ordered by their symbols alone, so a renaming takes them over in their order, the search
of one automaton is the renamed search of the other, and both give a state and its image the same
number. Two isomorphic automata without unreached states are therefore numbered to the same automaton.
Since each of them is isomorphic to its own result, no others are. -/

namespace FiniteAutomata.Automaton

open Std

variable {a b c : Automaton} {f g : StateId → StateId} {q : StateId} {start : Nat}

namespace IsIsomorphism

protected theorem refl (a : Automaton) : IsIsomorphism a a id where
  alphabet := rfl
  injective _ _ _ _ heq := heq
  states q := by simp
  initial _ _ := Iff.rfl
  final _ _ := Iff.rfl
  edges _ _ _ _ _ := Iff.rfl

theorem trans (hab : IsIsomorphism a b f) (hbc : IsIsomorphism b c g) : IsIsomorphism a c (g ∘ f) where
  alphabet := hab.alphabet.trans hbc.alphabet
  injective p hp q hq heq :=
    hab.injective p hp q hq
      (hbc.injective _ ((hab.states _).2 ⟨p, hp, rfl⟩) _ ((hab.states _).2 ⟨q, hq, rfl⟩) heq)
  states r := by
    rw [hbc.states]
    refine ⟨?_, ?_⟩
    · intro hmem
      obtain ⟨q, hq, rfl⟩ := hmem
      obtain ⟨p, hp, rfl⟩ := (hab.states q).1 hq
      exact ⟨p, hp, rfl⟩
    · intro hmem
      obtain ⟨p, hp, rfl⟩ := hmem
      exact ⟨f p, (hab.states _).2 ⟨p, hp, rfl⟩, rfl⟩
  initial p hp := (hbc.initial _ ((hab.states _).2 ⟨p, hp, rfl⟩)).trans (hab.initial p hp)
  final p hp := (hbc.final _ ((hab.states _).2 ⟨p, hp, rfl⟩)).trans (hab.final p hp)
  edges p hp s q hq :=
    (hbc.edges _ ((hab.states _).2 ⟨p, hp, rfl⟩) s _ ((hab.states _).2 ⟨q, hq, rfl⟩)).trans
      (hab.edges p hp s q hq)

/-- An isomorphism can be turned around. -/
theorem exists_symm (h : IsIsomorphism a b f) : ∃ g, IsIsomorphism b a g := by
  choose! g hmem hright using fun q => (h.states q).1
  have himage : ∀ p ∈ a.states, f p ∈ b.states := fun p hp => (h.states _).2 ⟨p, hp, rfl⟩
  have hleft : ∀ p ∈ a.states, g (f p) = p := fun p hp =>
    h.injective _ (hmem _ (himage p hp)) p hp (hright _ (himage p hp))
  refine ⟨g, h.alphabet.symm, ?_, ?_, ?_, ?_, ?_⟩
  · intro p hp q hq heq
    rw [← hright p hp, ← hright q hq, heq]
  · intro p
    refine ⟨fun hp => ⟨f p, himage p hp, hleft p hp⟩, ?_⟩
    rintro ⟨q, hq, rfl⟩
    exact hmem q hq
  · intro q hq
    rw [← h.initial _ (hmem q hq), hright q hq]
  · intro q hq
    rw [← h.final _ (hmem q hq), hright q hq]
  · intro p hp s q hq
    rw [← h.edges _ (hmem p hp) s _ (hmem q hq), hright p hp, hright q hq]

/-- Marks of two images are equal when they come from the same states. -/
theorem marks_congr {marks marksb marksc : SortedSet StateId} (hb : IsIsomorphism a b f)
    (hstates : ∀ q, q ∈ b.states ↔ q ∈ c.states) (heq : ∀ q ∈ a.states, f q = g q)
    (hmarksb : ∀ p ∈ a.states, f p ∈ marksb ↔ p ∈ marks)
    (hmarksc : ∀ p ∈ a.states, g p ∈ marksc ↔ p ∈ marks) (hsubsetb : ∀ q ∈ marksb, q ∈ b.states)
    (hsubsetc : ∀ q ∈ marksc, q ∈ c.states) (q : StateId) : q ∈ marksb ↔ q ∈ marksc := by
  have hmark : q ∈ b.states → (q ∈ marksb ↔ q ∈ marksc) := by
    intro hq
    obtain ⟨p, hp, rfl⟩ := (hb.states q).1 hq
    rw [hmarksb p hp, heq p hp, hmarksc p hp]
  exact ⟨fun hq => (hmark (hsubsetb q hq)).1 hq, fun hq => (hmark ((hstates q).2 (hsubsetc q hq))).2 hq⟩

/-- Two images under renamings that agree on the states are equal. -/
theorem image_eq (hb : IsIsomorphism a b f) (hc : IsIsomorphism a c g) (heq : ∀ q ∈ a.states, f q = g q)
    (hvalidb : b.Valid) (hvalidc : c.Valid) (hrowsb : b.table.NoEmptyRow) (hrowsc : c.table.NoEmptyRow)
    (hkind : b.kind = c.kind) : b = c := by
  have hstates : ∀ q, q ∈ b.states ↔ q ∈ c.states := by
    intro q
    rw [hb.states, hc.states]
    exact exists_congr fun p => and_congr_right fun hp => by rw [heq p hp]
  refine ext hkind hstates ?_ ?_ ?_ ?_
  · intro s
    rw [← hb.alphabet, ← hc.alphabet]
  · exact hb.marks_congr hstates heq hb.initial hc.initial hvalidb.initial_mem hvalidc.initial_mem
  · exact hb.marks_congr hstates heq hb.final hc.final hvalidb.final_mem hvalidc.final_mem
  · apply TransitionTable.ext_of_edges hrowsb hrowsc
    rintro ⟨p, s, q⟩
    have hedges : p ∈ b.states → q ∈ b.states → (b.HasEdge p s q ↔ c.HasEdge p s q) := by
      intro hp hq
      obtain ⟨p, hp₀, rfl⟩ := (hb.states p).1 hp
      obtain ⟨q, hq₀, rfl⟩ := (hb.states q).1 hq
      rw [hb.edges p hp₀ s q hq₀, heq p hp₀, heq q hq₀, hc.edges p hp₀ s q hq₀]
    refine ⟨?_, ?_⟩
    · intro hedge
      exact (hedges (hvalidb.source_mem p s q hedge) (hvalidb.target_mem p s q hedge)).1 hedge
    · intro hedge
      exact (hedges ((hstates p).2 (hvalidc.source_mem p s q hedge))
        ((hstates q).2 (hvalidc.target_mem p s q hedge))).2 hedge

end IsIsomorphism

section Order

/-- In a row of a deterministic automaton the symbols alone ascend, so the targets may be renamed. -/
theorem Deterministic.ascending_mapTarget (h : a.Deterministic) (f : StateId → StateId) (p : StateId) :
    ((a.row p).toList.map (Transition.mapTarget f)).Pairwise fun σ τ => compare σ τ = .lt := by
  rw [List.pairwise_map]
  apply (a.row p).ascending.imp_of_mem
  rintro ⟨s, q⟩ ⟨s', r⟩ hq hr hlt
  rw [Transition.compare_eq_lt_iff] at hlt ⊢
  rcases hlt with hlt | ⟨hsymbol, hlt⟩
  · exact .inl hlt
  · have heq : q = r := h.functional p s q r hq (by rw [show s = s' from hsymbol]; exact hr)
    rw [heq] at hlt
    exact absurd hlt (by simp)

variable (h : IsIsomorphism a b f) (ha : a.Accessible) (hb : b.Accessible)

include h ha hb

theorem row_map (hp : p ∈ a.states) :
    (b.row (f p)).toList = (a.row p).toList.map (Transition.mapTarget f) := by
  refine SortedSet.toList_eq (ha.deterministic.ascending_mapTarget f p) ?_
  rintro ⟨s, q'⟩
  rw [← hasEdge_iff_mem_row, h.hasEdge_iff ha.valid hb.valid hp, List.mem_map]
  refine ⟨?_, ?_⟩
  · intro hstep
    obtain ⟨q, hedge, rfl⟩ := hstep
    exact ⟨⟨s, q⟩, hedge, rfl⟩
  · intro hstep
    obtain ⟨⟨s, q⟩, hedge, heq⟩ := hstep
    cases heq
    exact ⟨q, hedge, rfl⟩

theorem initial_map : b.initial.toList = a.initial.toList.map f := by
  obtain ⟨i, hi⟩ := ha.deterministic.exists_initial
  obtain ⟨j, hj⟩ := hb.deterministic.exists_initial
  have hmem : i ∈ a.initial := (mem_initial_of_singleton hi).2 rfl
  have himage := (h.initial i (ha.valid.initial_mem i hmem)).2 hmem
  rw [hi, hj, List.map_singleton, (mem_initial_of_singleton hj).1 himage]

/-- The search finds the images in the same order. -/
theorem reachable_map : b.reachable = a.reachable.map f := by
  have hbound := b.bounded_row_targets
  rw [reachable_eq_reach, reachable_eq_reach]
  rw [initial_map h ha hb] at hbound ⊢
  refine Search.reach_map f ?_ a.bounded_row_targets.reached hbound ?_
  · intro p q hp hq
    rw [← reachable_eq_reach] at hp hq
    exact h.injective p (ha.valid.mem_states_of_reachable hp) q (ha.valid.mem_states_of_reachable hq)
  · intro p hp
    rw [← reachable_eq_reach] at hp
    rw [row_map h ha hb (ha.valid.mem_states_of_reachable hp), List.map_map, List.map_map]
    rfl

omit h hb in
theorem numberingOrder_eq_reachable : a.numberingOrder = a.reachable := by
  have hrest : a.states.toList.filter (fun q => !decide (q ∈ a.reachable)) = [] := by
    rw [List.filter_eq_nil_iff]
    intro q hq
    have hreached := mem_reachable.2 (ha.reached q hq)
    simp [hreached]
  show a.reachable ++ a.states.toList.filter (fun q => !decide (q ∈ a.reachable)) = a.reachable
  rw [hrest, List.append_nil]

theorem numberingOrder_map : b.numberingOrder = a.numberingOrder.map f := by
  rw [numberingOrder_eq_reachable ha, numberingOrder_eq_reachable hb, reachable_map h ha hb]

theorem stateCount_eq : b.stateCount = a.stateCount := by
  rw [← length_numberingOrder ha.valid, ← length_numberingOrder hb.valid, numberingOrder_map h ha hb,
    List.length_map]

end Order

section Numbers

variable (h : IsIsomorphism a b f)

theorem numberIn_map (ha : a.Valid) (horder : b.numberingOrder = a.numberingOrder.map f) (hq : q ∈ a.states) :
    numberIn b.numberingOrder start (f q) = numberIn a.numberingOrder start q := by
  have hmem := (mem_numberingOrder ha).2 hq
  have hnodup : (a.numberingOrder.map f).Nodup := horder ▸ b.nodup_numberingOrder
  rw [horder, numberIn_of_mem (List.mem_map_of_mem hmem), numberIn_of_mem hmem, Search.idxOf_map hnodup hmem]

include h

/-- What has its states numbered in the same order is numbered to the same automaton, or has too many states as
well. -/
theorem renumber_eq_of_numberingOrder_map (ha : a.Valid) (hb : b.Valid) (hkind : a.kind = b.kind)
    (hrowsa : a.table.NoEmptyRow) (hrowsb : b.table.NoEmptyRow)
    (horder : b.numberingOrder = a.numberingOrder.map f) (start : Nat) : a.renumber start = b.renumber start := by
  have hkind : (a.relabel (numberIn a.numberingOrder start)).kind =
      (b.relabel (numberIn b.numberingOrder start)).kind := hkind
  have hinja := numberIn_injective ha start
  have hinjb := numberIn_injective hb start
  have himage := (isIsomorphism_relabel ha hrowsa hinja).image_eq
    (h.trans (isIsomorphism_relabel hb hrowsb hinjb)) (fun q hq => (numberIn_map ha horder hq).symm)
    (Valid.relabel ha hrowsa hinja) (Valid.relabel hb hrowsb hinjb) (hrowsa.relabel _) (hrowsb.relabel _) hkind
  rw [renumber_eq, renumber_eq, himage, horder, List.length_map]
  simp

/-- Isomorphic automata are numbered to the same automaton, or both have too many states. -/
theorem renumber_eq_of_isIsomorphism (ha : a.Accessible) (hb : b.Accessible) (hrowsa : a.table.NoEmptyRow)
    (hrowsb : b.table.NoEmptyRow) (start : Nat) : a.renumber start = b.renumber start :=
  renumber_eq_of_numberingOrder_map h ha.valid hb.valid (ha.kind.trans hb.kind.symm) hrowsa hrowsb
    (numberingOrder_map h ha hb) start

end Numbers

section CanonicalForm

variable {m n : Automaton}

/-- The numbered automaton is a canonical form: two deterministic automata of which every state is reached are
numbered to the same automaton exactly when they are isomorphic, whatever number the first state gets. -/
theorem renumber_eq_iff_isomorphic (ha : a.Built) (hb : b.Built) (hvalida : a.validate = .ok ())
    (hvalidb : b.validate = .ok ()) (hkinda : a.kind = .dfa) (hkindb : b.kind = .dfa)
    (hreacheda : ∀ q ∈ a.states, ∃ i ∈ a.initial, a.Reaches i q)
    (hreachedb : ∀ q ∈ b.states, ∃ i ∈ b.initial, b.Reaches i q)
    (hm : a.renumber start = .ok m) (hn : b.renumber start = .ok n) :
    m = n ↔ ∃ f, IsIsomorphism a b f := by
  have hvalida := validate_eq_ok_iff.1 hvalida
  have hvalidb := validate_eq_ok_iff.1 hvalidb
  refine ⟨?_, ?_⟩
  · rintro rfl
    have hto := (renumber_spec hvalida ha.noEmptyRow hm).1
    obtain ⟨g, hback⟩ := (renumber_spec hvalidb hb.noEmptyRow hn).1.exists_symm
    exact ⟨_, hto.trans hback⟩
  · intro hisomorphic
    obtain ⟨f, hf⟩ := hisomorphic
    have hsame := renumber_eq_of_isIsomorphism hf ⟨hkinda, hvalida, hreacheda⟩ ⟨hkindb, hvalidb, hreachedb⟩
      ha.noEmptyRow hb.noEmptyRow start
    rw [hm, hn] at hsame
    exact Except.ok.inj hsame

/-- A state with two edges, one of which leads to a state with an edge back. -/
def fork (root onA onB final : StateId) : Automaton :=
  { kind := .dfa
    states := .ofList [root, onA, onB]
    alphabet := .ofList ["a", "b"]
    initial := .ofList [root]
    final := .ofList [final]
    table := .ofEdges [⟨root, "a", onA⟩, ⟨root, "b", onB⟩, ⟨onB, "a", root⟩] }

theorem fork_spec (root onA onB final : StateId) (hvalidate : (fork root onA onB final).validate = .ok ()) :
    (fork root onA onB final).Built ∧ (fork root onA onB final).Accessible := by
  have hvalid := validate_eq_ok_iff.1 hvalidate
  refine ⟨hvalid.built (TransitionTable.noEmptyRow_ofEdges _), rfl, hvalid, fun q hq => ?_⟩
  have hedgeA : (fork root onA onB final).HasEdge root "a" onA := TransitionTable.mem_ofEdges.2 (by simp)
  have hedgeB : (fork root onA onB final).HasEdge root "b" onB := TransitionTable.mem_ofEdges.2 (by simp)
  refine ⟨root, SortedSet.mem_ofList.2 (List.mem_singleton_self root), ?_⟩
  have hq := SortedSet.mem_ofList.1 hq
  simp only [List.mem_cons, List.not_mem_nil, or_false] at hq
  rcases hq with rfl | rfl | rfl
  · exact ⟨[], .nil q⟩
  · exact hedgeA.reaches
  · exact hedgeB.reaches

/-- The order of the numbers does not matter, but it does matter which of the states is final. -/
theorem renumber_eq_iff_isomorphic_fork :
    (∀ x ∈ [fork 8 5 3 5, fork 4 7 9 7, fork 8 5 3 3], x.Built ∧ x.Accessible) ∧
    (fork 8 5 3 5).renumber 2 = .ok (fork 2 3 4 3) ∧ (fork 4 7 9 7).renumber 2 = .ok (fork 2 3 4 3) ∧
    (fork 8 5 3 3).renumber 2 = .ok (fork 2 3 4 4) ∧
    (∃ f, IsIsomorphism (fork 8 5 3 5) (fork 4 7 9 7) f) ∧
    ¬ ∃ f, IsIsomorphism (fork 8 5 3 5) (fork 8 5 3 3) f := by
  have hvalidl : (fork 8 5 3 5).validate = .ok () := by decide +kernel
  have hvalidm : (fork 4 7 9 7).validate = .ok () := by decide +kernel
  have hvalidn : (fork 8 5 3 3).validate = .ok () := by decide +kernel
  obtain ⟨hbuiltl, hl⟩ := fork_spec 8 5 3 5 hvalidl
  obtain ⟨hbuiltm, hm⟩ := fork_spec 4 7 9 7 hvalidm
  obtain ⟨hbuiltn, hn⟩ := fork_spec 8 5 3 3 hvalidn
  have hrenumberl : (fork 8 5 3 5).renumber 2 = .ok (fork 2 3 4 3) := by decide +kernel
  have hrenumberm : (fork 4 7 9 7).renumber 2 = .ok (fork 2 3 4 3) := by decide +kernel
  have hrenumbern : (fork 8 5 3 3).renumber 2 = .ok (fork 2 3 4 4) := by decide +kernel
  have hsame := renumber_eq_iff_isomorphic hbuiltl hbuiltm hvalidl hvalidm rfl rfl hl.reached hm.reached
    hrenumberl hrenumberm
  have hdiffer := renumber_eq_iff_isomorphic hbuiltl hbuiltn hvalidl hvalidn rfl rfl hl.reached hn.reached
    hrenumberl hrenumbern
  have hne : fork 2 3 4 3 ≠ fork 2 3 4 4 := by decide +kernel
  refine ⟨?_, hrenumberl, hrenumberm, hrenumbern, hsame.1 rfl, fun hisomorphic => hne (hdiffer.2 hisomorphic)⟩
  exact List.forall_mem_cons.2 ⟨⟨hbuiltl, hl⟩, List.forall_mem_cons.2 ⟨⟨hbuiltm, hm⟩,
    List.forall_mem_singleton.2 ⟨hbuiltn, hn⟩⟩⟩

end CanonicalForm

end FiniteAutomata.Automaton
