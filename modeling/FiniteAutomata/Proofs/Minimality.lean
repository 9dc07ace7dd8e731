import FiniteAutomata.Proofs.CanonicalNumbering
import Mathlib.Tactic.Choose

/-! Reduced automata are the smallest ones for their words. In every deterministic automaton for the
same words each state of a reduced one has a partner with the same future. Partners of different
states differ, which bounds the numbers of states and edges; between two reduced automata the partners
are unique, and they form an isomorphism. -/

namespace FiniteAutomata.Automaton

variable {a b : Automaton} {i j : StateId} {w : List Symbol}

/-- Every state of `a` is sent to a state of `b` with the same future. -/
def PreservesFutures (a b : Automaton) (f : StateId → StateId) : Prop :=
  ∀ p ∈ a.states, f p ∈ b.states ∧ SameFuture a b p (f p)

/-- Deterministic automata that accept the same words of ordinary symbols accept the same words. -/
theorem Deterministic.recognizes_congr (ha : a.Deterministic) (hb : b.Deterministic)
    (hwords : ∀ w, epsilon ∉ w → (a.Recognizes w ↔ b.Recognizes w)) : ∀ w, a.Recognizes w ↔ b.Recognizes w := by
  intro w
  by_cases hw : epsilon ∈ w
  · have hrejects : ∀ c : Automaton, c.Deterministic → ¬ c.Recognizes w := by
      intro c hc hrecognizes
      obtain ⟨p, _, haccepts⟩ := recognizes_iff.1 hrecognizes
      exact hc.epsilonFree.epsilon_not_mem haccepts hw
    exact iff_of_false (hrejects a ha) (hrejects b hb)
  · exact hwords w hw

section Embedding

variable (ha : a.Trimmed) (hb : b.Valid) (hkind : b.kind = .dfa)
  (hwords : ∀ w, a.Recognizes w ↔ b.Recognizes w)

include hwords in
theorem sameFuture_initial (hi : a.initial.toList = [i]) (hj : b.initial.toList = [j]) :
    SameFuture a b i j := by
  intro w
  rw [← recognizes_iff_of_initial hi, ← recognizes_iff_of_initial hj]
  exact hwords w

include ha hb hkind hwords

theorem exists_partner : ∃ f, PreservesFutures a b f := by
  obtain ⟨i, hi⟩ := ha.deterministic.exists_initial
  obtain ⟨j, hj⟩ := (hb.deterministic hkind).exists_initial
  have hinitial := sameFuture_initial hwords hi hj
  have hpartner : ∀ p, ∃ q, p ∈ a.states → q ∈ b.states ∧ SameFuture a b p q := by
    intro p
    by_cases hp : p ∈ a.states
    · obtain ⟨i', hi', v, hpath⟩ := ha.reached p hp
      rw [(mem_initial_of_singleton hi).1 hi'] at hpath
      obtain ⟨q, hpath', hsame⟩ :=
        ha.deterministic.exists_path (hb.deterministic hkind) ha.productive hpath hinitial
      have hjmem := hb.initial_mem j ((mem_initial_of_singleton hj).2 rfl)
      exact ⟨q, fun _ => ⟨hb.mem_states_of_path hjmem hpath', hsame⟩⟩
    · exact ⟨p, fun hmem => absurd hmem hp⟩
  choose f hf using hpartner
  exact ⟨f, hf⟩

end Embedding

section Counting

variable {f : StateId → StateId} (ha : a.Reduced) (hf : PreservesFutures a b f)

include ha hf

theorem Reduced.injective : ∀ p ∈ a.states, ∀ q ∈ a.states, f p = f q → p = q := by
  intro p hp q hq heq
  have hsame := (hf p hp).2
  rw [heq] at hsame
  exact ha.distinct p hp q hq (hsame.trans (hf q hq).2.symm)

theorem Reduced.stateCount_le : a.stateCount ≤ b.stateCount := by
  have hnodup : (a.states.toList.map f).Nodup :=
    (SortedSet.nodup_toList a.states).map_on fun p hp q hq => ha.injective hf p hp q hq
  have hsubset : a.states.toList.map f ⊆ b.states.toList := by
    intro q hq
    obtain ⟨p, hp, rfl⟩ := List.mem_map.1 hq
    exact (hf p hp).1
  calc a.stateCount = (a.states.toList.map f).length := (List.length_map f).symm
    _ ≤ b.stateCount := (List.subperm_of_subset hnodup hsubset).length_le

/-- An edge is determined by its source and symbol, and the partner of the source has an edge under
that symbol. -/
theorem Reduced.edgeCount_le (hb : b.Deterministic) : a.edgeCount ≤ b.edgeCount := by
  have hnodup : (a.edges.map fun e => (f e.source, e.symbol)).Nodup := by
    apply (TransitionTable.nodup_edges a.table).map_on
    rintro ⟨p, s, q⟩ he ⟨p', s', q'⟩ he' heq
    obtain ⟨hsource, hsymbol⟩ := Prod.mk.inj heq
    have hedge := mem_edges.1 he
    have hedge' := mem_edges.1 he'
    obtain rfl : p = p' :=
      ha.injective hf p (ha.valid.source_mem p s q hedge) p' (ha.valid.source_mem p' s' q' hedge') hsource
    obtain rfl : s = s' := hsymbol
    rw [ha.deterministic.functional p s q q' hedge hedge']
  have hsubset : (a.edges.map fun e => (f e.source, e.symbol)) ⊆
      b.edges.map fun e => (e.source, e.symbol) := by
    intro pair hpair
    obtain ⟨⟨p, s, q⟩, he, rfl⟩ := List.mem_map.1 hpair
    have hedge := mem_edges.1 he
    obtain ⟨q', hedge', _⟩ := ha.deterministic.exists_edge hb (hf p (ha.valid.source_mem p s q hedge)).2
      hedge (ha.productive p s q hedge)
    exact List.mem_map.2 ⟨⟨f p, s, q'⟩, mem_edges.2 hedge', rfl⟩
  calc a.edgeCount = (a.edges.map fun e => (f e.source, e.symbol)).length := by
        rw [List.length_map, length_edges]
    _ ≤ (b.edges.map fun e => (e.source, e.symbol)).length :=
        (List.subperm_of_subset hnodup hsubset).length_le
    _ = b.edgeCount := by rw [List.length_map, length_edges]

end Counting

section Uniqueness

variable {f : StateId → StateId} (ha : a.Reduced) (hb : b.Reduced)
  (hwords : ∀ w, a.Recognizes w ↔ b.Recognizes w)

include ha hb hwords

theorem PreservesFutures.mem_initial_iff (hf : PreservesFutures a b f) {p : StateId} (hp : p ∈ a.states) :
    f p ∈ b.initial ↔ p ∈ a.initial := by
  obtain ⟨i, hi⟩ := ha.deterministic.exists_initial
  obtain ⟨j, hj⟩ := hb.deterministic.exists_initial
  have himem := ha.valid.initial_mem i ((mem_initial_of_singleton hi).2 rfl)
  have hjmem := hb.valid.initial_mem j ((mem_initial_of_singleton hj).2 rfl)
  have himage : f i = j :=
    hb.distinct _ (hf i himem).1 j hjmem ((hf i himem).2.symm.trans (sameFuture_initial hwords hi hj))
  rw [mem_initial_of_singleton hi, mem_initial_of_singleton hj, ← himage]
  refine ⟨?_, ?_⟩
  · exact ha.injective hf p hp i himem
  · intro heq
    rw [heq]

/-- Two reduced automata with the same words differ in the names of their states only. -/
theorem Reduced.exists_isomorphism (halphabet : a.alphabet = b.alphabet) : ∃ f, IsIsomorphism a b f := by
  obtain ⟨f, hf⟩ := exists_partner ha.toTrimmed hb.valid hb.kind hwords
  obtain ⟨g, hg⟩ := exists_partner hb.toTrimmed ha.valid ha.kind fun w => (hwords w).symm
  have hedge : ∀ p ∈ a.states, ∀ s, ∀ q ∈ a.states, b.HasEdge (f p) s (f q) ↔ a.HasEdge p s q := by
    intro p hp s q hq
    have hfp := hf p hp
    have hfq := hf q hq
    refine ⟨?_, ?_⟩
    · intro hedge
      obtain ⟨r, hr, hsame⟩ := hb.deterministic.exists_edge ha.deterministic hfp.2.symm hedge
        (hb.productive _ s _ hedge)
      rwa [ha.distinct q hq r (ha.valid.target_mem p s r hr) (hfq.2.trans hsame)]
    · intro hedge
      obtain ⟨r, hr, hsame⟩ := ha.deterministic.exists_edge hb.deterministic hfp.2 hedge
        (ha.productive p s q hedge)
      rwa [hb.distinct (f q) hfq.1 r (hb.valid.target_mem _ s r hr) (hfq.2.symm.trans hsame)]
  refine ⟨f, halphabet, ha.injective hf, ?_, ?_, ?_, hedge⟩
  · intro q
    refine ⟨?_, ?_⟩
    · intro hq
      have hgq := hg q hq
      have hfg := hf (g q) hgq.1
      exact ⟨g q, hgq.1, hb.distinct _ hfg.1 q hq (hgq.2.trans hfg.2).symm⟩
    · intro himage
      obtain ⟨p, hp, rfl⟩ := himage
      exact (hf p hp).1
  · intro p hp
    exact hf.mem_initial_iff ha hb hwords hp
  · intro p hp
    rw [← ha.deterministic.epsilonFree.acceptsFrom_nil, ← hb.deterministic.epsilonFree.acceptsFrom_nil]
    exact ((hf p hp).2 []).symm

end Uniqueness

end FiniteAutomata.Automaton
