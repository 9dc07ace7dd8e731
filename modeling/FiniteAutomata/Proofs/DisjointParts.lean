import FiniteAutomata.Proofs.Acceptance
import FiniteAutomata.Proofs.Failures
import Mathlib.Order.Bounds.Defs

/-! What the sum of two automata holds. The right automaton is an image of its operand on the next numbers above the
left states, so no number is taken twice and no row of transitions is put in place of another. The states and the
edges of the sum are therefore counted part by part, and since an edge stays in its part, so does a path: from a state
of a part the sum reads what the part reads alone, whichever states are final. -/

namespace FiniteAutomata

open Automaton

variable {a b c part : Automaton} {sum : DisjointSum} {p q : StateId} {w : List Symbol}

/-- A list of all elements of two disjoint lists is as long as both together. -/
theorem length_eq_add {α : Type} {l k m : List α} (hl : l.Nodup) (hk : k.Nodup) (hm : m.Nodup)
    (hdisjoint : ∀ x ∈ l, x ∉ k) (hmem : ∀ x, x ∈ m ↔ x ∈ l ∨ x ∈ k) : m.length = l.length + k.length := by
  have hnodup : (l ++ k).Nodup := hl.append hk fun x hx hx' => hdisjoint x hx hx'
  have hperm : m.Perm (l ++ k) := (List.perm_ext_iff_of_nodup hm hnodup).2 fun x => by rw [hmem, List.mem_append]
  rw [hperm.length_eq, List.length_append]

namespace Automaton

theorem IsImage.stateCount_eq {f : StateId → StateId} (himage : IsImage f a b) : b.stateCount = a.stateCount := by
  have hstates : b.states = a.states.map f :=
    SortedSet.ext fun q => (himage.states q).trans SortedSet.mem_map.symm
  rw [stateCount, hstates, SortedSet.size_map himage.injective, stateCount]

theorem eq_offset_of_freshState {first : StateId} (hfresh : a.freshState = .ok first) : first = a.offset := by
  unfold freshState at hfresh
  unfold offset
  cases hmax : a.largestState? with
  | none =>
      rw [hmax] at hfresh
      exact (Except.ok.inj hfresh).symm
  | some q =>
      simp only [hmax] at hfresh
      split at hfresh
      · exact (Except.ok.inj hfresh).symm
      · cases hfresh

/-- No smaller number is above all states. -/
theorem isLeast_offset (a : Automaton) : IsLeast { n : Nat | ∀ q ∈ a.states, q < n } a.offset := by
  unfold offset
  cases hmax : a.largestState? with
  | none =>
      refine ⟨fun q hq => ?_, fun n _ => Nat.zero_le n⟩
      rw [SortedSet.eq_empty_of_max? hmax] at hq
      exact absurd hq (SortedSet.not_mem_empty q)
  | some m =>
      obtain ⟨hm, hle⟩ := largestState?_eq_some_iff.1 hmax
      exact ⟨fun q hq => Nat.lt_succ_of_le (hle q hq), fun n hn => hn m hm⟩

/-- From a state of a part the same words are accepted as in the part alone, whichever states are final. -/
theorem HasPart.accepts_startedAt (h : c.HasPart part) (hvalid : part.Valid) (hp : p ∈ part.states)
    (final : SortedSet StateId) (w : List Symbol) :
    ({ c with final }.startedAt p).accepts w = ({ part with final }.startedAt p).accepts w := by
  have hwhole : ∀ q, { c with final }.Path p w q ↔ c.Path p w q := fun q => path_congr rfl
  have hpart : ∀ q, { part with final }.Path p w q ↔ part.Path p w q := fun q => path_congr rfl
  rw [Bool.eq_iff_iff, Automaton.accepts_startedAt, Automaton.accepts_startedAt]
  simp only [AcceptsFrom, hwhole, hpart, h.path_iff hvalid hp]

end Automaton

namespace DisjointSum

/-- The states, symbols and edges of `c` are those of the two automata. No edge leads from one of them to the other, so
from each state the words of its own automaton are accepted. -/
structure IsDisjointUnion (c left right : Automaton) : Prop where
  kind : c.kind = .nfa
  initial : c.initial = ∅
  final : c.final = ∅
  alphabet : c.alphabet = left.alphabet ∪ right.alphabet
  states : c.states = left.states ∪ right.states
  edges : ∀ p s q, c.HasEdge p s q ↔ left.HasEdge p s q ∨ right.HasEdge p s q
  disjoint : ∀ q ∈ left.states, q ∉ right.states
  inside : ∀ p s q, c.HasEdge p s q →
    p ∈ left.states ∧ q ∈ left.states ∨ p ∈ right.states ∧ q ∈ right.states
  leftWords : ∀ p ∈ left.states, ∀ final w,
    ({ c with final }.startedAt p).accepts w = ({ left with final }.startedAt p).accepts w
  rightWords : ∀ p ∈ right.states, ∀ final w,
    ({ c with final }.startedAt p).accepts w = ({ right with final }.startedAt p).accepts w

section Parts

variable (h : sum.Separate)

include h

theorem isDisjointUnion_automaton : IsDisjointUnion sum.automaton sum.left sum.right where
  kind := rfl
  initial := rfl
  final := rfl
  alphabet := rfl
  states := rfl
  edges _ _ _ := hasEdge_automaton
  disjoint := h.disjoint
  inside p s q hedge := by
    rcases hasEdge_automaton.1 hedge with hleft | hright
    · exact .inl ⟨h.left.source_mem p s q hleft, h.left.target_mem p s q hleft⟩
    · exact .inr ⟨h.right.source_mem p s q hright, h.right.target_mem p s q hright⟩
  leftWords _ hp := h.hasPart_left.accepts_startedAt h.left hp
  rightWords _ hp := h.hasPart_right.accepts_startedAt h.right hp

theorem stateCount_automaton : sum.automaton.stateCount = sum.left.stateCount + sum.right.stateCount :=
  length_eq_add (SortedSet.nodup_toList _) (SortedSet.nodup_toList _) (SortedSet.nodup_toList _) h.disjoint
    fun _ => SortedSet.mem_union

/-- The sources tell the edges of the two automata apart. -/
theorem edgeCount_automaton : sum.automaton.edgeCount = sum.left.edgeCount + sum.right.edgeCount := by
  have hdisjoint : ∀ e ∈ sum.left.edges, e ∉ sum.right.edges := by
    rintro ⟨p, s, q⟩ hleft hright
    have hp := h.left.source_mem p s q (mem_edges.1 hleft)
    exact h.disjoint p hp (h.right.source_mem p s q (mem_edges.1 hright))
  have hmem : ∀ e, e ∈ sum.automaton.edges ↔ e ∈ sum.left.edges ∨ e ∈ sum.right.edges := by
    rintro ⟨p, s, q⟩
    rw [mem_edges, mem_edges, mem_edges, hasEdge_automaton]
  rw [← length_edges, ← length_edges, ← length_edges]
  exact length_eq_add (TransitionTable.nodup_edges _) (TransitionTable.nodup_edges _)
    (TransitionTable.nodup_edges _) hdisjoint hmem

end Parts

section Build

variable (hrows : b.table.NoEmptyRow)

include hrows

/-- The states of the right automaton get the next numbers above the left states. -/
theorem image_of_build (hsum : build a b = .ok sum) : sum.left = a ∧
    (∃ f, IsImage f b sum.right) ∧ ∀ q, q ∈ sum.right.states ↔ a.offset ≤ q ∧ q < a.offset + b.stateCount := by
  obtain ⟨_, hb, start, above, hfresh, habove, _, rfl⟩ := exists_of_build hsum
  have himage : IsImage (numberIn b.numberingOrder start) b above := by
    rw [eq_relabel_of_renumber habove]
    exact isImage_relabel hb hrows (numberIn_injective hb start)
  rw [← eq_offset_of_freshState hfresh]
  exact ⟨rfl, ⟨_, himage⟩, (renumber_spec hb hrows habove).2.2.2.2⟩

/-- The numbers above the left states are no left states, so the check for a common state finds none. -/
theorem build_ne_collision (q : StateId) : build a b ≠ .error (.collision q) := by
  intro hcollision
  rcases bind_eq_error.1 hcollision with hcheck | ⟨_, _, hcollision⟩
  · obtain ⟨_, _, hinvalid⟩ := mapError_eq_error.1 hcheck
    cases hinvalid
  rcases bind_eq_error.1 hcollision with hcheck | ⟨_, hb, hcollision⟩
  · obtain ⟨_, _, hinvalid⟩ := mapError_eq_error.1 hcheck
    cases hinvalid
  rcases bind_eq_error.1 hcollision with hexhausted | ⟨start, hfresh, hcollision⟩
  · obtain ⟨_, _, _, hexhausted⟩ := freshState_eq_error.1 hexhausted
    cases hexhausted
  rcases bind_eq_error.1 hcollision with hoverflow | ⟨above, habove, hcollision⟩
  · obtain ⟨_, _, hinvalid⟩ := mapError_eq_error.1 hoverflow
    cases hinvalid
  have hnumbers := (renumber_spec (check_eq_ok_iff.1 hb) hrows (mapError_eq_ok.1 habove)).2.2.2.2
  split at hcollision
  · next r hfound =>
      have hleft : r ∈ a.states := by simpa using List.find?_some hfound
      have hright := ((hnumbers r).1 (List.mem_of_find?_eq_some hfound)).1
      exact absurd (lt_of_freshState hfresh hleft) (Nat.not_lt.2 hright)
  · cases hcollision

end Build

/-- Two automata are never put on a common state. When they are put side by side, the left one stays as it is and the
right one becomes its image on the next numbers from the smallest one above all left states. The sum then holds the
states, symbols and edges of both parts and no others, each state and edge once; no edge leads from one part to the
other, so from every state it accepts the words of the part that the state is in. -/
theorem build_disjointUnion (hb : b.Built) :
    (∀ q, build a b ≠ .error (.collision q)) ∧
    ∀ sum, build a b = .ok sum →
      sum.left = a ∧ (∃ f, IsImage f b sum.right) ∧
      IsLeast { n : Nat | ∀ q ∈ a.states, q < n } a.offset ∧
      (∀ q, q ∈ sum.right.states ↔ a.offset ≤ q ∧ q < a.offset + b.stateCount) ∧
      IsDisjointUnion sum.automaton sum.left sum.right ∧
      sum.automaton.stateCount = a.stateCount + b.stateCount ∧
      sum.automaton.edgeCount = a.edgeCount + b.edgeCount := by
  refine ⟨build_ne_collision hb.noEmptyRow, fun sum hsum => ?_⟩
  have hjoins := joins_of_build hb.noEmptyRow hsum
  obtain ⟨hleft, ⟨f, himage⟩, hnumbers⟩ := image_of_build hb.noEmptyRow hsum
  have hstates : sum.right.stateCount = b.stateCount := himage.stateCount_eq
  have hedges : sum.right.edgeCount = b.edgeCount := himage.edgeCount_eq hjoins.valid
  refine ⟨hleft, ⟨f, himage⟩, a.isLeast_offset, hnumbers, isDisjointUnion_automaton hjoins.separate, ?_, ?_⟩
  · rw [stateCount_automaton hjoins.separate, hleft, hstates]
  · rw [edgeCount_automaton hjoins.separate, hleft, hedges]

/-- The automaton `optionalA` above the three states of the silent cycle. -/
def optionalAAbove : Automaton :=
  { kind := .nfa
    states := .ofList [3, 4]
    alphabet := .ofList ["a", "c"]
    initial := .ofList [3]
    final := .ofList [4]
    table := .ofEdges [⟨3, epsilon, 4⟩, ⟨3, "a", 4⟩] }

/-- The numbers 0 and 2 are states of both operands, and those of the right one become 3 and 4. With the state 2 of the
left one and the state 4 of the right one final, the sum reads from 0 what the silent cycle reads. -/
theorem build_disjointUnion_optionalA :
    optionalA.Built ∧ build silentCycle optionalA = .ok ⟨silentCycle, optionalAAbove⟩ ∧
      (∃ f, IsImage f optionalA optionalAAbove) ∧ silentCycle.offset = 3 ∧
      (mk silentCycle optionalAAbove).automaton.edgeCount = silentCycle.edgeCount + optionalA.edgeCount ∧
      ({ (mk silentCycle optionalAAbove).automaton with final := .ofList [2, 4] }.startedAt 0).accepts ["a", "b", "a"] =
        ({ silentCycle with final := .ofList [2, 4] }.startedAt 0).accepts ["a", "b", "a"] := by
  have hsum : build silentCycle optionalA = .ok ⟨silentCycle, optionalAAbove⟩ := by rfl
  obtain ⟨_, himage, _, _, hunion, _, hedges⟩ := (build_disjointUnion built_optionalA).2 _ hsum
  have hoffset : silentCycle.offset = 3 := by decide +kernel
  exact ⟨built_optionalA, hsum, himage, hoffset, hedges, hunion.leftWords 0 (by decide +kernel) _ _⟩

end DisjointSum

end FiniteAutomata
