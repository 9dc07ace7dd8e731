import FiniteAutomata.EpsilonElimination
import FiniteAutomata.Proofs.Paths

/-! Removing edges under epsilon keeps the words of an automaton. A new initial state only adds paths
that start with one edge under epsilon. Eliminating those edges is shown state by state: the closure of
a state takes over the role of the paths without a symbol in front of the next symbol and at the end of
the word, so no closure of the targets is needed. -/

namespace FiniteAutomata.Automaton

variable {a b : Automaton} {p q first : StateId} {s : Symbol} {w : List Symbol}

section Start

theorem mem_states_startingFrom : q ∈ (a.startingFrom first).states ↔ q = first ∨ q ∈ a.states :=
  SortedSet.mem_insert

theorem mem_initial_startingFrom : q ∈ (a.startingFrom first).initial ↔ q = first := by
  simp [startingFrom]

theorem mem_final_startingFrom :
    q ∈ (a.startingFrom first).final ↔ q ∈ a.final ∨ q = first ∧ ∃ p ∈ a.initial, p ∈ a.final := by
  have hany : (a.initial.any fun p => decide (p ∈ a.final)) = true ↔ ∃ p ∈ a.initial, p ∈ a.final := by
    simp [SortedSet.any, SortedSet.mem_toList]
  rw [← hany]
  show q ∈ (if _ then _ else _) ↔ _
  split
  · rename_i hempty
    rw [SortedSet.mem_insert, or_comm, hempty]
    exact or_congr_right (and_iff_left rfl).symm
  · rename_i hempty
    exact (or_iff_left fun h => hempty h.2).symm

theorem Valid.startingFrom (h : a.Valid) (first : StateId) : (a.startingFrom first).Valid where
  initial_mem q hq := mem_states_startingFrom.2 (.inl (mem_initial_startingFrom.1 hq))
  final_mem q hq := by
    rcases mem_final_startingFrom.1 hq with hq | ⟨rfl, _⟩
    · exact mem_states_startingFrom.2 (.inr (h.final_mem q hq))
    · exact mem_states_startingFrom.2 (.inl rfl)
  source_mem p s q hedge := by
    rcases hasEdge_startingFrom.1 hedge with hedge | ⟨rfl, _, _⟩
    · exact mem_states_startingFrom.2 (.inr (h.source_mem p s q hedge))
    · exact mem_states_startingFrom.2 (.inl rfl)
  target_mem p s q hedge := by
    rcases hasEdge_startingFrom.1 hedge with hedge | ⟨_, _, hq⟩
    · exact mem_states_startingFrom.2 (.inr (h.target_mem p s q hedge))
    · exact mem_states_startingFrom.2 (.inr (h.initial_mem q hq))
  symbol_mem p s q hedge := by
    rcases hasEdge_startingFrom.1 hedge with hedge | ⟨_, rfl, _⟩
    · exact h.symbol_mem p s q hedge
    · exact .inl rfl
  deterministic hkind := by cases hkind

/-- The old states are left by the old edges only. -/
theorem hasPart_startingFrom (hfirst : first ∉ a.states) : (a.startingFrom first).HasPart a := by
  intro p hp s q
  rw [hasEdge_startingFrom, or_iff_left_iff_imp]
  rintro ⟨rfl, _, _⟩
  exact absurd hp hfirst

theorem acceptsFrom_startingFrom (h : a.Valid) (hfirst : first ∉ a.states) (hp : p ∈ a.states) :
    (a.startingFrom first).AcceptsFrom p w ↔ a.AcceptsFrom p w := by
  refine (hasPart_startingFrom hfirst).acceptsFrom_iff h hp fun q hq => ?_
  rw [mem_final_startingFrom, or_iff_left_iff_imp]
  rintro ⟨rfl, _⟩
  exact absurd hq hfirst

/-- A new initial state keeps the words. -/
theorem recognizes_startingFrom (h : a.Valid) (hfirst : first ∉ a.states) (hw : epsilon ∉ w) :
    (a.startingFrom first).Recognizes w ↔ a.Recognizes w := by
  simp only [recognizes_iff, mem_initial_startingFrom, exists_eq_left]
  have hout : ∀ {s q}, (a.startingFrom first).HasEdge first s q → s = epsilon ∧ q ∈ a.initial := by
    intro s q hedge
    rcases hasEdge_startingFrom.1 hedge with hedge | ⟨_, hs, hq⟩
    · exact absurd (h.source_mem _ _ _ hedge) hfirst
    · exact ⟨hs, hq⟩
  refine ⟨?_, ?_⟩
  · intro hrun
    obtain ⟨q, hq, hpath⟩ := hrun
    cases hpath with
    | nil =>
        rcases mem_final_startingFrom.1 hq with hq | ⟨_, p, hp, hpfinal⟩
        · exact absurd (h.final_mem _ hq) hfirst
        · exact ⟨p, hp, p, hpfinal, .nil p⟩
    | silent hedge hrest =>
        have hp := (hout hedge).2
        exact ⟨_, hp, (acceptsFrom_startingFrom h hfirst (h.initial_mem _ hp)).1 ⟨q, hq, hrest⟩⟩
    | read hedge _ =>
        rw [(hout hedge).1] at hw
        exact absurd List.mem_cons_self hw
  · intro hrun
    obtain ⟨p, hp, haccepts⟩ := hrun
    obtain ⟨q, hq, hpath⟩ := (acceptsFrom_startingFrom h hfirst (h.initial_mem p hp)).2 haccepts
    exact ⟨q, hq, .silent (hasEdge_startingFrom.2 (.inr ⟨rfl, rfl, hp⟩)) hpath⟩

/-- What is needed of an automaton that starts from one state instead of several. -/
theorem withSingleInitial_spec (h : a.Valid) (hb : a.withSingleInitial = .ok b) :
    b.Valid ∧ b.alphabet = a.alphabet ∧ ∀ w, epsilon ∉ w → (b.Recognizes w ↔ a.Recognizes w) := by
  unfold withSingleInitial at hb
  split at hb
  · cases hb
    exact ⟨h, rfl, fun _ _ => Iff.rfl⟩
  · obtain ⟨first, hfresh, hb⟩ := bind_eq_ok.1 hb
    cases hb
    have hfirst := not_mem_of_freshState hfresh
    exact ⟨h.startingFrom first, rfl, fun w hw => recognizes_startingFrom h hfirst hw⟩

/-- Nothing can go wrong but the number for the new state. -/
theorem withSingleInitial_eq_error {failure : OperationFailure} :
    a.withSingleInitial = .error failure ↔ 2 ≤ a.initial.size ∧ a.freshState = .error failure := by
  unfold withSingleInitial
  split
  · next hone => exact iff_of_false nofun fun hmore => absurd hmore.1 (by omega)
  · next hmore =>
      rw [bind_eq_error]
      refine ⟨?_, fun herror => .inl herror.2⟩
      intro herror
      rcases herror with herror | ⟨_, _, hok⟩
      · exact ⟨by omega, herror⟩
      · cases hok

end Start

section Elimination

theorem mem_final_eliminateEpsilon :
    p ∈ a.eliminateEpsilon.final ↔ p ∈ a.states ∧ ∃ q ∈ a.final, a.Path p [] q := by
  have hany : ((a.closure [p]).any fun q => decide (q ∈ a.final)) = true ↔
      ∃ q ∈ a.final, a.Path p [] q := by
    simp only [SortedSet.any, List.any_eq_true, decide_eq_true_eq, SortedSet.mem_toList, mem_closure,
      List.mem_singleton, exists_eq_left]
    exact exists_congr fun q => and_comm
  rw [← hany]
  exact SortedSet.mem_filter

theorem hasEdge_eliminateEpsilon_iff_path :
    a.eliminateEpsilon.HasEdge p s q ↔
      p ∈ a.states ∧ s ≠ epsilon ∧ ∃ p', a.Path p [] p' ∧ a.HasEdge p' s q := by
  rw [hasEdge_eliminateEpsilon]
  simp only [mem_closure, List.mem_singleton, exists_eq_left]

theorem epsilonFree_eliminateEpsilon : a.eliminateEpsilon.EpsilonFree :=
  fun _ _ hedge => (hasEdge_eliminateEpsilon.1 hedge).2.1 rfl

theorem Valid.eliminateEpsilon (h : a.Valid) : a.eliminateEpsilon.Valid where
  initial_mem := h.initial_mem
  final_mem p hp := (mem_final_eliminateEpsilon.1 hp).1
  source_mem p s q hedge := (hasEdge_eliminateEpsilon.1 hedge).1
  target_mem p s q hedge := by
    obtain ⟨_, _, p', _, hedge⟩ := hasEdge_eliminateEpsilon.1 hedge
    exact h.target_mem p' s q hedge
  symbol_mem p s q hedge := by
    obtain ⟨_, hs, p', _, hedge⟩ := hasEdge_eliminateEpsilon.1 hedge
    rcases h.symbol_mem p' s q hedge with rfl | hmem
    · exact absurd rfl hs
    · exact .inr (SortedSet.mem_erase.2 ⟨hmem, hs⟩)
  deterministic hkind := by cases hkind

/-- Eliminating epsilon keeps the words that are accepted from a state. The induction is on the word:
both sides read its first symbol behind the same closure, and end in the same closures. -/
theorem acceptsFrom_eliminateEpsilon (h : a.Valid) (hp : p ∈ a.states) (hw : epsilon ∉ w) :
    a.eliminateEpsilon.AcceptsFrom p w ↔ a.AcceptsFrom p w := by
  induction w generalizing p with
  | nil =>
      rw [epsilonFree_eliminateEpsilon.acceptsFrom_nil, mem_final_eliminateEpsilon, acceptsFrom_nil]
      exact and_iff_right hp
  | cons s w ih =>
      obtain ⟨hs, hw⟩ := not_or.1 (mt List.mem_cons.2 hw)
      rw [epsilonFree_eliminateEpsilon.acceptsFrom_cons, acceptsFrom_cons]
      simp only [hasEdge_eliminateEpsilon_iff_path]
      refine ⟨?_, ?_⟩
      · intro hrun
        obtain ⟨q, ⟨_, _, p', hpath, hedge⟩, hrest⟩ := hrun
        exact ⟨p', q, hpath, hedge, (ih (h.target_mem p' s q hedge) hw).1 hrest⟩
      · intro hrun
        obtain ⟨p', q, hpath, hedge, hrest⟩ := hrun
        exact ⟨q, ⟨hp, Ne.symm hs, p', hpath, hedge⟩, (ih (h.target_mem p' s q hedge) hw).2 hrest⟩

theorem recognizes_eliminateEpsilon (h : a.Valid) (hw : epsilon ∉ w) :
    a.eliminateEpsilon.Recognizes w ↔ a.Recognizes w := by
  rw [recognizes_iff, recognizes_iff]
  refine exists_congr fun p => and_congr_right fun hp => ?_
  exact acceptsFrom_eliminateEpsilon h (h.initial_mem p hp) hw

end Elimination

end FiniteAutomata.Automaton
