import FiniteAutomata.Automaton.Acceptance
import FiniteAutomata.Automaton.Validation
import FiniteAutomata.Proofs.SearchReach

/-! Paths and acceptance. The closure of a list of states is what paths without a symbol reach, and
following the set of states decides whether a path from an initial to a final state consumes a word.
`Automaton.AcceptsFrom` is acceptance from one state; it is given by its values at the empty word and
after one more symbol, and all later arguments about words go through these two. -/

namespace FiniteAutomata

namespace TransitionTable

/-- A chain of edges whose transitions satisfy `keep` leads from one state to another. -/
def Chain (t : TransitionTable) (keep : Transition → Bool) : StateId → StateId → Prop :=
  Relation.ReflTransGen fun p q => ∃ s, keep ⟨s, q⟩ = true ∧ ⟨p, s, q⟩ ∈ t

theorem mem_targets {t : TransitionTable} {keep : Transition → Bool} {p q : StateId} :
    q ∈ ((t.row p).filter keep).toList.map (·.target) ↔ ∃ s, keep ⟨s, q⟩ = true ∧ ⟨p, s, q⟩ ∈ t := by
  rw [List.mem_map]
  refine ⟨?_, ?_⟩
  · intro hmem
    obtain ⟨⟨s, _⟩, hτ, rfl⟩ := hmem
    obtain ⟨hrow, hkeep⟩ := SortedSet.mem_filter.1 hτ
    exact ⟨s, hkeep, hrow⟩
  · intro hstep
    obtain ⟨s, hkeep, hrow⟩ := hstep
    exact ⟨⟨s, q⟩, SortedSet.mem_filter.2 ⟨hrow, hkeep⟩, rfl⟩

/-- A search along a table meets the start and targets of edges only. -/
theorem bounded_targets (t : TransitionTable) (keep : Transition → Bool) (start : List StateId) :
    Search.Bounded (fun q => ((t.row q).filter keep).toList.map (·.target)) (start.length + t.size) start
      (· ∈ start ++ t.edges.map (·.target)) := by
  apply Search.Bounded.of_list
  · exact fun q hq => List.mem_append_left _ hq
  · intro p q hq
    obtain ⟨s, _, hedge⟩ := mem_targets.1 hq
    exact List.mem_append_right _ (List.mem_map.2 ⟨⟨p, s, q⟩, mem_edges.2 hedge, rfl⟩)
  · rw [List.length_append, List.length_map, length_edges]

theorem mem_reach {t : TransitionTable} {keep : Transition → Bool} {start : List StateId} {q : StateId} :
    q ∈ t.reach keep start ↔ ∃ p ∈ start, t.Chain keep p q := by
  rw [reach, Search.mem_reach_iff (bounded_targets t keep start)]
  simp only [Search.Leads, mem_targets, Chain]

end TransitionTable

namespace Automaton

variable {a : Automaton} {p q r : StateId} {s : Symbol} {v w : List Symbol}

theorem Path.trans (hpq : a.Path p v q) (hqr : a.Path q w r) : a.Path p (v ++ w) r := by
  induction hpq with
  | nil => exact hqr
  | silent hedge _ ih => exact .silent hedge (ih hqr)
  | read hedge _ ih => exact .read hedge (ih hqr)

/-- A path is one of another automaton too, as long as it meets only states whose edges the other
automaton has. -/
theorem Path.transfer {b : Automaton} {inside : StateId → Prop}
    (hedges : ∀ p s q, inside p → a.HasEdge p s q → b.HasEdge p s q ∧ inside q) (hp : inside p)
    (hpath : a.Path p w q) : b.Path p w q ∧ inside q := by
  induction hpath with
  | nil p => exact ⟨.nil p, hp⟩
  | silent hedge _ ih =>
      obtain ⟨hedge, hq⟩ := hedges _ _ _ hp hedge
      obtain ⟨hrest, hr⟩ := ih hq
      exact ⟨.silent hedge hrest, hr⟩
  | read hedge _ ih =>
      obtain ⟨hedge, hq⟩ := hedges _ _ _ hp hedge
      obtain ⟨hrest, hr⟩ := ih hq
      exact ⟨.read hedge hrest, hr⟩

theorem Path.mono {b : Automaton} (hedges : ∀ p s q, a.HasEdge p s q → b.HasEdge p s q)
    (hpath : a.Path p w q) : b.Path p w q := by
  have hedges' : ∀ p s q, True → a.HasEdge p s q → b.HasEdge p s q ∧ True :=
    fun p s q _ hedge => ⟨hedges p s q hedge, trivial⟩
  exact (Path.transfer hedges' trivial hpath).1

theorem Valid.mem_states_of_path (h : a.Valid) (hp : p ∈ a.states) (hpath : a.Path p w q) : q ∈ a.states :=
  (Path.transfer (fun p s q _ hedge => ⟨hedge, h.target_mem p s q hedge⟩) hp hpath).2

theorem path_nil_iff :
    a.Path p [] q ↔ Relation.ReflTransGen (fun p q => a.HasEdge p epsilon q) p q := by
  refine ⟨?_, ?_⟩
  · intro h
    generalize hw : ([] : List Symbol) = w at h
    induction h with
    | nil => exact .refl
    | silent hedge _ ih => exact .head hedge (ih hw)
    | read => cases hw
  · intro h
    induction h using Relation.ReflTransGen.head_induction_on with
    | refl => exact .nil q
    | head hedge _ ih => exact .silent hedge ih

/-- The first symbol of a word is consumed by one edge, after some edges under epsilon. -/
theorem path_cons_iff :
    a.Path p (s :: w) r ↔ ∃ q q', a.Path p [] q ∧ a.HasEdge q s q' ∧ a.Path q' w r := by
  refine ⟨?_, ?_⟩
  · intro h
    generalize hv : s :: w = v at h
    induction h with
    | nil => cases hv
    | silent hedge _ ih =>
        obtain ⟨q, q', hpath, hread, hrest⟩ := ih hv
        exact ⟨q, q', .silent hedge hpath, hread, hrest⟩
    | read hedge hrest =>
        cases hv
        exact ⟨_, _, .nil _, hedge, hrest⟩
  · intro hrun
    obtain ⟨q, q', hpath, hread, hrest⟩ := hrun
    exact hpath.trans (.read hread hrest)

theorem mem_closure {start : List StateId} : q ∈ a.closure start ↔ ∃ p ∈ start, a.Path p [] q := by
  have hstep : ∀ p q, (∃ s, Transition.isEpsilon ⟨s, q⟩ = true ∧ ⟨p, s, q⟩ ∈ a.table) ↔
      a.HasEdge p epsilon q := by
    intro p q
    simp only [Transition.isEpsilon, beq_iff_eq, exists_eq_left]
    rfl
  rw [closure, SortedSet.mem_ofList, TransitionTable.mem_reach]
  simp only [TransitionTable.Chain, hstep, path_nil_iff]

theorem mem_foldl_step {start : List StateId} :
    q ∈ w.foldl a.step (a.closure start) ↔ ∃ p ∈ start, a.Path p w q := by
  induction w generalizing start with
  | nil => exact mem_closure
  | cons s w ih =>
      rw [List.foldl_cons, step, ih]
      simp only [List.mem_flatMap, SortedSet.mem_toList, mem_closure, mem_successors, path_cons_iff]
      refine ⟨?_, ?_⟩
      · intro hrun
        obtain ⟨p', ⟨p, ⟨p₀, hp₀, hpath⟩, hedge⟩, hrest⟩ := hrun
        exact ⟨p₀, hp₀, p, p', hpath, hedge, hrest⟩
      · intro hrun
        obtain ⟨p₀, hp₀, p, p', hpath, hedge, hrest⟩ := hrun
        exact ⟨p', ⟨p, ⟨p₀, hp₀, hpath⟩, hedge⟩, hrest⟩

/-- Following the set of states decides acceptance by paths. -/
theorem accepts_iff_recognizes : a.accepts w = true ↔ a.Recognizes w := by
  simp only [accepts, statesAfter, SortedSet.any, List.any_eq_true, decide_eq_true_eq,
    SortedSet.mem_toList, mem_foldl_step, Recognizes]
  refine ⟨?_, ?_⟩
  · intro hrun
    obtain ⟨q, ⟨p, hp, hpath⟩, hq⟩ := hrun
    exact ⟨p, hp, q, hq, hpath⟩
  · intro hrun
    obtain ⟨p, hp, q, hq, hpath⟩ := hrun
    exact ⟨q, ⟨p, hp, hpath⟩, hq⟩

/-- Some path from the state to a final state consumes the word. -/
def AcceptsFrom (a : Automaton) (p : StateId) (w : List Symbol) : Prop := ∃ q ∈ a.final, a.Path p w q

theorem recognizes_iff : a.Recognizes w ↔ ∃ p ∈ a.initial, a.AcceptsFrom p w := Iff.rfl

theorem acceptsFrom_nil : a.AcceptsFrom p [] ↔ ∃ q ∈ a.final, a.Path p [] q := Iff.rfl

theorem acceptsFrom_cons :
    a.AcceptsFrom p (s :: w) ↔ ∃ q q', a.Path p [] q ∧ a.HasEdge q s q' ∧ a.AcceptsFrom q' w := by
  simp only [AcceptsFrom, path_cons_iff]
  refine ⟨?_, ?_⟩
  · intro hrun
    obtain ⟨r, hr, q, q', hpath, hedge, hrest⟩ := hrun
    exact ⟨q, q', hpath, hedge, r, hr, hrest⟩
  · intro hrun
    obtain ⟨q, q', hpath, hedge, r, hr, hrest⟩ := hrun
    exact ⟨r, hr, q, q', hpath, hedge, hrest⟩

theorem Path.acceptsFrom (hpath : a.Path p v q) (h : a.AcceptsFrom q w) : a.AcceptsFrom p (v ++ w) := by
  obtain ⟨r, hr, hrest⟩ := h
  exact ⟨r, hr, hpath.trans hrest⟩

/-- The states of `part` are left by exactly the edges of `part`, so a path that has got there stays
there. -/
def HasPart (a part : Automaton) : Prop :=
  ∀ p ∈ part.states, ∀ s q, a.HasEdge p s q ↔ part.HasEdge p s q

section Part

variable {part : Automaton} (h : a.HasPart part) (hvalid : part.Valid) (hp : p ∈ part.states)

include h hvalid hp

theorem HasPart.path_iff : a.Path p w q ↔ part.Path p w q := by
  refine ⟨fun hpath => ?_, fun hpath => ?_⟩
  · refine (Path.transfer (fun p s q hp hedge => ?_) hp hpath).1
    have hedge := (h p hp s q).1 hedge
    exact ⟨hedge, hvalid.target_mem p s q hedge⟩
  · refine (Path.transfer (fun p s q hp hedge => ?_) hp hpath).1
    exact ⟨(h p hp s q).2 hedge, hvalid.target_mem p s q hedge⟩

/-- From a state of a part the words of the part are accepted, when its states keep their final marks. -/
theorem HasPart.acceptsFrom_iff (hfinal : ∀ q ∈ part.states, q ∈ a.final ↔ q ∈ part.final) :
    a.AcceptsFrom p w ↔ part.AcceptsFrom p w := by
  refine exists_congr fun q => ?_
  rw [h.path_iff hvalid hp]
  exact and_congr_left fun hpath => hfinal q (hvalid.mem_states_of_path hp hpath)

end Part

/-- No edge can be taken without consuming a symbol. -/
def EpsilonFree (a : Automaton) : Prop := ∀ p q, ¬ a.HasEdge p epsilon q

namespace EpsilonFree

theorem path_nil (h : a.EpsilonFree) : a.Path p [] q ↔ p = q := by
  refine ⟨?_, ?_⟩
  · intro hpath
    cases hpath with
    | nil => rfl
    | silent hedge _ => exact absurd hedge (h _ _)
  · rintro rfl
    exact .nil p

theorem acceptsFrom_nil (h : a.EpsilonFree) : a.AcceptsFrom p [] ↔ p ∈ a.final := by
  simp [AcceptsFrom, h.path_nil]

theorem acceptsFrom_cons (h : a.EpsilonFree) :
    a.AcceptsFrom p (s :: w) ↔ ∃ q, a.HasEdge p s q ∧ a.AcceptsFrom q w := by
  rw [Automaton.acceptsFrom_cons]
  simp only [h.path_nil]
  refine ⟨?_, ?_⟩
  · intro hstep
    obtain ⟨_, q, rfl, hedge, hrest⟩ := hstep
    exact ⟨q, hedge, hrest⟩
  · intro hstep
    obtain ⟨q, hedge, hrest⟩ := hstep
    exact ⟨p, q, rfl, hedge, hrest⟩

theorem symbol_mem (h : a.EpsilonFree) (hvalid : a.Valid) (hedge : a.HasEdge p s q) : s ∈ a.alphabet := by
  rcases hvalid.symbol_mem p s q hedge with rfl | hs
  · exact absurd hedge (h p q)
  · exact hs

/-- A word with the epsilon symbol in it cannot be read. -/
theorem epsilon_not_mem (h : a.EpsilonFree) (haccepts : a.AcceptsFrom p w) : epsilon ∉ w := by
  induction w generalizing p with
  | nil => exact List.not_mem_nil
  | cons s w ih =>
      obtain ⟨q, hedge, hrest⟩ := h.acceptsFrom_cons.1 haccepts
      intro hmem
      rcases List.mem_cons.1 hmem with hs | hmem
      · rw [← hs] at hedge
        exact h p q hedge
      · exact ih hrest hmem

end EpsilonFree

end Automaton

end FiniteAutomata
