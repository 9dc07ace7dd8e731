import FiniteAutomata.Automaton.Isomorphism
import FiniteAutomata.Proofs.Trimming

/-! What an isomorphism carries over: edges, paths and futures, hence the words and every property of
deterministic automata that is stated through them. -/

namespace FiniteAutomata.Automaton.IsIsomorphism

variable {a b : Automaton} {f : StateId → StateId} {p p' q q' : StateId} {s : Symbol} {w : List Symbol}
  (h : IsIsomorphism a b f) (ha : a.Valid) (hb : b.Valid)

include h ha hb

theorem hasEdge_iff (hp : p ∈ a.states) : b.HasEdge (f p) s q' ↔ ∃ q, a.HasEdge p s q ∧ f q = q' := by
  refine ⟨?_, ?_⟩
  · intro hedge
    obtain ⟨q, hq, rfl⟩ := (h.states q').1 (hb.target_mem _ _ _ hedge)
    exact ⟨q, (h.edges p hp s q hq).1 hedge, rfl⟩
  · intro hstep
    obtain ⟨q, hedge, rfl⟩ := hstep
    exact (h.edges p hp s q (ha.target_mem p s q hedge)).2 hedge

theorem path_iff (hp : p ∈ a.states) : b.Path (f p) w q' ↔ ∃ q, a.Path p w q ∧ f q = q' := by
  refine ⟨?_, ?_⟩
  · intro hpath
    generalize heq : f p = p' at hpath
    induction hpath generalizing p with
    | nil => exact ⟨p, .nil p, heq⟩
    | silent hedge _ ih =>
        rw [← heq] at hedge
        obtain ⟨q, hold, hq⟩ := (h.hasEdge_iff ha hb hp).1 hedge
        obtain ⟨r, hrest, hr⟩ := ih (ha.target_mem _ _ _ hold) hq
        exact ⟨r, .silent hold hrest, hr⟩
    | read hedge _ ih =>
        rw [← heq] at hedge
        obtain ⟨q, hold, hq⟩ := (h.hasEdge_iff ha hb hp).1 hedge
        obtain ⟨r, hrest, hr⟩ := ih (ha.target_mem _ _ _ hold) hq
        exact ⟨r, .read hold hrest, hr⟩
  · intro hrun
    obtain ⟨q, hpath, rfl⟩ := hrun
    induction hpath with
    | nil => exact .nil _
    | silent hedge _ ih =>
        exact .silent ((h.hasEdge_iff ha hb hp).2 ⟨_, hedge, rfl⟩) (ih (ha.target_mem _ _ _ hedge))
    | read hedge _ ih =>
        exact .read ((h.hasEdge_iff ha hb hp).2 ⟨_, hedge, rfl⟩) (ih (ha.target_mem _ _ _ hedge))

theorem reaches (hp : p ∈ a.states) (hreaches : a.Reaches p q) : b.Reaches (f p) (f q) := by
  obtain ⟨w, hpath⟩ := hreaches
  exact ⟨w, (h.path_iff ha hb hp).2 ⟨q, hpath, rfl⟩⟩

/-- A state and its image have the same future. -/
theorem sameFuture (hp : p ∈ a.states) : SameFuture a b p (f p) := by
  intro w
  refine ⟨?_, ?_⟩
  · intro hrun
    obtain ⟨q, hq, hpath⟩ := hrun
    exact ⟨f q, (h.final q (ha.final_mem q hq)).2 hq, (h.path_iff ha hb hp).2 ⟨q, hpath, rfl⟩⟩
  · intro hrun
    obtain ⟨q', hq', hpath⟩ := hrun
    obtain ⟨q, hold, rfl⟩ := (h.path_iff ha hb hp).1 hpath
    exact ⟨q, (h.final q (ha.mem_states_of_path hp hold)).1 hq', hold⟩

theorem recognizes : b.Recognizes w ↔ a.Recognizes w := by
  rw [recognizes_iff, recognizes_iff]
  refine ⟨?_, ?_⟩
  · intro hrun
    obtain ⟨p', hp', haccepts⟩ := hrun
    obtain ⟨p, hp, rfl⟩ := (h.states p').1 (hb.initial_mem p' hp')
    exact ⟨p, (h.initial p hp).1 hp', (h.sameFuture ha hb hp w).2 haccepts⟩
  · intro hrun
    obtain ⟨p, hp, haccepts⟩ := hrun
    have hmem := ha.initial_mem p hp
    exact ⟨f p, (h.initial p hmem).2 hp, (h.sameFuture ha hb hmem w).1 haccepts⟩

omit ha in
theorem accessible (haccessible : a.Accessible) (hkind : b.kind = .dfa) : b.Accessible where
  kind := hkind
  valid := hb
  reached q' hq' := by
    obtain ⟨q, hq, rfl⟩ := (h.states q').1 hq'
    obtain ⟨i, hi, hreaches⟩ := haccessible.reached q hq
    have hmem := haccessible.valid.initial_mem i hi
    exact ⟨f i, (h.initial i hmem).2 hi, h.reaches haccessible.valid hb hmem hreaches⟩

omit ha in
theorem trimmed (htrimmed : a.Trimmed) (hkind : b.kind = .dfa) : b.Trimmed where
  toAccessible := h.accessible hb htrimmed.toAccessible hkind
  productive p' s q' hedge := by
    obtain ⟨p, hp, rfl⟩ := (h.states p').1 (hb.source_mem p' s q' hedge)
    obtain ⟨q, hold, rfl⟩ := (h.hasEdge_iff htrimmed.valid hb hp).1 hedge
    have hq := htrimmed.valid.target_mem p s q hold
    exact (h.sameFuture htrimmed.valid hb hq).productive_iff.1 (htrimmed.productive p s q hold)

omit ha in
theorem reduced (hreduced : a.Reduced) (hkind : b.kind = .dfa) : b.Reduced where
  toTrimmed := h.trimmed hb hreduced.toTrimmed hkind
  distinct p' hp' q' hq' hfuture := by
    obtain ⟨p, hp, rfl⟩ := (h.states p').1 hp'
    obtain ⟨q, hq, rfl⟩ := (h.states q').1 hq'
    have hpf := h.sameFuture hreduced.valid hb hp
    have hqf := h.sameFuture hreduced.valid hb hq
    rw [hreduced.distinct p hp q hq ((hpf.trans hfuture).trans hqf.symm)]

end FiniteAutomata.Automaton.IsIsomorphism
