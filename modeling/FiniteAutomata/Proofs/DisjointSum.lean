import FiniteAutomata.Combination
import FiniteAutomata.Proofs.Construction
import FiniteAutomata.Proofs.EpsilonRemoval
import FiniteAutomata.Proofs.Numbering

/-! Two automata side by side. The sum is left by the edges of the left automaton from the left states and
by those of the right one from the right states, so each of them goes on accepting its own words. Started
from both it accepts the words of either; with silent edges from the final states of the left one to the
initial states of the right one it accepts a word of the left one followed by a word of the right one,
since no edge leads back. -/

namespace FiniteAutomata.DisjointSum

open Automaton

variable {sum : DisjointSum} {a b : Automaton} {p q r : StateId} {s : Symbol} {w : List Symbol}

/-- Both automata are well-formed and they have no state in common. -/
structure Separate (sum : DisjointSum) : Prop where
  left : sum.left.Valid
  right : sum.right.Valid
  disjoint : ∀ q ∈ sum.left.states, q ∉ sum.right.states

/-- What a caller of the sum can rely on. -/
structure Joins (sum : DisjointSum) (a b : Automaton) : Prop where
  left : sum.left = a
  right : ∃ f, IsIsomorphism b sum.right f
  valid : b.Valid
  separate : sum.Separate

/-- The right automaton is numbered anew, and the numbers are ones that the left automaton does not have. -/
theorem exists_of_build (hsum : build a b = .ok sum) : a.Valid ∧ b.Valid ∧ ∃ start above,
    a.freshState = .ok start ∧ b.renumber start = .ok above ∧ (∀ q ∈ a.states, q ∉ above.states) ∧
      sum = ⟨a, above⟩ := by
  obtain ⟨_, ha, hsum⟩ := bind_eq_ok.1 hsum
  obtain ⟨_, hb, hsum⟩ := bind_eq_ok.1 hsum
  obtain ⟨start, hfresh, hsum⟩ := bind_eq_ok.1 hsum
  obtain ⟨above, habove, hsum⟩ := bind_eq_ok.1 hsum
  refine ⟨check_eq_ok_iff.1 ha, check_eq_ok_iff.1 hb, start, above, hfresh, mapError_eq_ok.1 habove, ?_⟩
  split at hsum
  · cases hsum
  · next hfree =>
      cases hsum
      refine ⟨fun q hq hmem => ?_, rfl⟩
      simpa [hq] using List.find?_eq_none.1 hfree q hmem

theorem joins_of_build (hrows : b.table.NoEmptyRow) (hsum : build a b = .ok sum) : sum.Joins a b := by
  obtain ⟨ha, hb, start, above, _, habove, hdisjoint, rfl⟩ := exists_of_build hsum
  obtain ⟨hcopy, _, hvalid, _⟩ := renumber_spec hb hrows habove
  exact ⟨rfl, ⟨_, hcopy⟩, hb, ha, hvalid, hdisjoint⟩

theorem alphabet_of_build (hsum : build a b = .ok sum) : sum.automaton.alphabet = a.alphabet ∪ b.alphabet := by
  obtain ⟨_, _, start, above, _, habove, _, rfl⟩ := exists_of_build hsum
  rw [eq_relabel_of_renumber habove]
  rfl

theorem Joins.recognizes_right (h : sum.Joins a b) : sum.right.Recognizes w ↔ b.Recognizes w := by
  obtain ⟨f, hf⟩ := h.right
  exact hf.recognizes h.valid h.separate.right

namespace Separate

variable (h : sum.Separate)

include h

theorem hasPart_left : sum.automaton.HasPart sum.left := by
  intro p hp s q
  rw [hasEdge_automaton, or_iff_left_iff_imp]
  intro hedge
  exact absurd (h.right.source_mem p s q hedge) (h.disjoint p hp)

theorem hasPart_right : sum.automaton.HasPart sum.right := by
  intro p hp s q
  rw [hasEdge_automaton, or_iff_right_iff_imp]
  intro hedge
  exact absurd hp (h.disjoint p (h.left.source_mem p s q hedge))

end Separate

section Either

/-- The sum with the marks of both automata. -/
def marked (sum : DisjointSum) : Automaton :=
  { sum.automaton with
    initial := sum.left.initial ∪ sum.right.initial
    final := sum.left.final ∪ sum.right.final }

theorem exists_of_alternatives (hjoined : sum.alternatives = .ok a) :
    ∃ first, sum.marked.freshState = .ok first ∧ a = sum.marked.startingFrom first := by
  obtain ⟨first, hfresh, hjoined⟩ := bind_eq_ok.1 hjoined
  cases hjoined
  exact ⟨first, hfresh, rfl⟩

variable (h : sum.Separate)

include h

theorem valid_marked : sum.marked.Valid where
  initial_mem q hq := by
    rw [marked, SortedSet.mem_union] at hq
    exact SortedSet.mem_union.2 (hq.imp (h.left.initial_mem q) (h.right.initial_mem q))
  final_mem q hq := by
    rw [marked, SortedSet.mem_union] at hq
    exact SortedSet.mem_union.2 (hq.imp (h.left.final_mem q) (h.right.final_mem q))
  source_mem p s q hedge :=
    SortedSet.mem_union.2 ((hasEdge_automaton.1 hedge).imp (h.left.source_mem p s q) (h.right.source_mem p s q))
  target_mem p s q hedge :=
    SortedSet.mem_union.2 ((hasEdge_automaton.1 hedge).imp (h.left.target_mem p s q) (h.right.target_mem p s q))
  symbol_mem p s q hedge := by
    show s = epsilon ∨ s ∈ sum.left.alphabet ∪ sum.right.alphabet
    rw [SortedSet.mem_union]
    rcases hasEdge_automaton.1 hedge with hedge | hedge
    · exact (h.left.symbol_mem p s q hedge).imp_right .inl
    · exact (h.right.symbol_mem p s q hedge).imp_right .inr
  deterministic hkind := by cases hkind

theorem acceptsFrom_marked_left (hp : p ∈ sum.left.states) :
    sum.marked.AcceptsFrom p w ↔ sum.left.AcceptsFrom p w := by
  have hpart : sum.marked.HasPart sum.left := h.hasPart_left
  refine hpart.acceptsFrom_iff h.left hp fun q hq => ?_
  rw [marked, SortedSet.mem_union, or_iff_left_iff_imp]
  exact fun hfinal => absurd (h.right.final_mem q hfinal) (h.disjoint q hq)

theorem acceptsFrom_marked_right (hp : p ∈ sum.right.states) :
    sum.marked.AcceptsFrom p w ↔ sum.right.AcceptsFrom p w := by
  have hpart : sum.marked.HasPart sum.right := h.hasPart_right
  refine hpart.acceptsFrom_iff h.right hp fun q hq => ?_
  rw [marked, SortedSet.mem_union, or_iff_right_iff_imp]
  exact fun hfinal => absurd hq (h.disjoint q (h.left.final_mem q hfinal))

theorem recognizes_marked : sum.marked.Recognizes w ↔ sum.left.Recognizes w ∨ sum.right.Recognizes w := by
  simp only [recognizes_iff, marked, SortedSet.mem_union, or_and_right, exists_or]
  refine or_congr ?_ ?_
  · refine exists_congr fun p => and_congr_right fun hp => ?_
    exact acceptsFrom_marked_left h (h.left.initial_mem p hp)
  · refine exists_congr fun p => and_congr_right fun hp => ?_
    exact acceptsFrom_marked_right h (h.right.initial_mem p hp)

theorem recognizes_alternatives (hjoined : sum.alternatives = .ok a) (hw : epsilon ∉ w) :
    a.Recognizes w ↔ sum.left.Recognizes w ∨ sum.right.Recognizes w := by
  obtain ⟨first, hfresh, rfl⟩ := exists_of_alternatives hjoined
  rw [recognizes_startingFrom (valid_marked h) (not_mem_of_freshState hfresh) hw, recognizes_marked h]

end Either

section Sequence

variable (h : sum.Separate)

include h

theorem valid_sequence : sum.sequence.Valid where
  initial_mem q hq := SortedSet.mem_union.2 (.inl (h.left.initial_mem q hq))
  final_mem q hq := SortedSet.mem_union.2 (.inr (h.right.final_mem q hq))
  source_mem p s q hedge := by
    rcases hasEdge_sequence.1 hedge with hedge | ⟨hfinal, _, _⟩
    · exact (valid_marked h).source_mem p s q hedge
    · exact SortedSet.mem_union.2 (.inl (h.left.final_mem p hfinal))
  target_mem p s q hedge := by
    rcases hasEdge_sequence.1 hedge with hedge | ⟨_, _, hinitial⟩
    · exact (valid_marked h).target_mem p s q hedge
    · exact SortedSet.mem_union.2 (.inr (h.right.initial_mem q hinitial))
  symbol_mem p s q hedge := by
    rcases hasEdge_sequence.1 hedge with hedge | ⟨_, hs, _⟩
    · exact (valid_marked h).symbol_mem p s q hedge
    · exact .inl hs
  deterministic hkind := by cases hkind

theorem hasPart_sequence : sum.sequence.HasPart sum.right := by
  intro p hp s q
  rw [hasEdge_sequence, h.hasPart_right p hp s q, or_iff_left_iff_imp]
  rintro ⟨hfinal, _, _⟩
  exact absurd hp (h.disjoint p (h.left.final_mem p hfinal))

/-- An edge from a left state is one of the left automaton, or it is silent and leads over. -/
theorem hasEdge_sequence_of_mem (hp : p ∈ sum.left.states) : sum.sequence.HasEdge p s q ↔
    sum.left.HasEdge p s q ∨ p ∈ sum.left.final ∧ s = epsilon ∧ q ∈ sum.right.initial := by
  rw [hasEdge_sequence, h.hasPart_left p hp s q]

/-- A path from a left state to a right one leads over once. The induction is on the path: an edge of the
left automaton lengthens the first word, and behind the edge that leads over lies a path of the right
automaton. An epsilon in the word could be consumed by the edge that leads over. -/
theorem exists_split_of_path (hw : epsilon ∉ w) (hp : p ∈ sum.left.states) (hr : r ∈ sum.right.states)
    (hpath : sum.sequence.Path p w r) : ∃ u v, w = u ++ v ∧
      (∃ q ∈ sum.left.final, sum.left.Path p u q) ∧ ∃ q ∈ sum.right.initial, sum.right.Path q v r := by
  induction hpath with
  | nil p => exact absurd hr (h.disjoint p hp)
  | @silent p q r w hedge hrest ih =>
      rcases (hasEdge_sequence_of_mem h hp).1 hedge with hedge | ⟨hfinal, _, hinitial⟩
      · have hq := h.left.target_mem p epsilon q hedge
        obtain ⟨u, v, rfl, ⟨f, hf, hleft⟩, hright⟩ := ih hw hq hr
        exact ⟨u, v, rfl, ⟨f, hf, .silent hedge hleft⟩, hright⟩
      · have hq := h.right.initial_mem q hinitial
        have hright := ((hasPart_sequence h).path_iff h.right hq).1 hrest
        exact ⟨[], w, rfl, ⟨p, hfinal, .nil p⟩, q, hinitial, hright⟩
  | @read p q r s w hedge hrest ih =>
      obtain ⟨hs, hw⟩ := not_or.1 (mt List.mem_cons.2 hw)
      rcases (hasEdge_sequence_of_mem h hp).1 hedge with hedge | ⟨_, hepsilon, _⟩
      · have hq := h.left.target_mem p s q hedge
        obtain ⟨u, v, rfl, ⟨f, hf, hleft⟩, hright⟩ := ih hw hq hr
        exact ⟨s :: u, v, rfl, ⟨f, hf, .read hedge hleft⟩, hright⟩
      · exact absurd hepsilon.symm hs

theorem recognizes_sequence (hw : epsilon ∉ w) : sum.sequence.Recognizes w ↔
    ∃ u v, w = u ++ v ∧ sum.left.Recognizes u ∧ sum.right.Recognizes v := by
  refine ⟨?_, ?_⟩
  · intro hrun
    obtain ⟨p, hp, r, hr, hpath⟩ := hrun
    obtain ⟨u, v, hsplit, ⟨f, hf, hleft⟩, q, hq, hright⟩ :=
      exists_split_of_path h hw (h.left.initial_mem p hp) (h.right.final_mem r hr) hpath
    exact ⟨u, v, hsplit, ⟨p, hp, f, hf, hleft⟩, q, hq, r, hr, hright⟩
  · intro hsplit
    obtain ⟨u, v, rfl, ⟨p, hp, f, hf, hleft⟩, q, hq, r, hr, hright⟩ := hsplit
    have hfirst : sum.sequence.Path p u f :=
      Path.mono (fun p s q hedge => hasEdge_sequence.2 (.inl (hasEdge_automaton.2 (.inl hedge)))) hleft
    have hover : sum.sequence.HasEdge f epsilon q := hasEdge_sequence.2 (.inr ⟨hf, rfl, hq⟩)
    have hsecond := ((hasPart_sequence h).path_iff h.right (h.right.initial_mem q hq)).2 hright
    exact ⟨p, hp, r, hr, hfirst.trans (.silent hover hsecond)⟩

end Sequence

end FiniteAutomata.DisjointSum
