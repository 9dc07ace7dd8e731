import FiniteAutomata.Proofs.Paths

/-! Futures of states. Two states, of one automaton or of two, have the same future when the same words
are accepted from them. In deterministic automata a common edge keeps that, so the future of a state is
determined by any word that leads to it; this is what makes minimal automata unique. -/

namespace FiniteAutomata.Automaton

variable {a b c : Automaton} {p p' q q' r : StateId} {s : Symbol} {v w : List Symbol}

/-- Some path leads from one state to the other. -/
def Reaches (a : Automaton) (p q : StateId) : Prop := ∃ w, a.Path p w q

/-- Some word is accepted from the state. -/
def Productive (a : Automaton) (p : StateId) : Prop := ∃ w, a.AcceptsFrom p w

/-- The same words are accepted from `p` in `a` and from `q` in `b`. -/
def SameFuture (a b : Automaton) (p q : StateId) : Prop := ∀ w, a.AcceptsFrom p w ↔ b.AcceptsFrom q w

theorem Reaches.trans (hpq : a.Reaches p q) (hqr : a.Reaches q r) : a.Reaches p r := by
  obtain ⟨v, hv⟩ := hpq
  obtain ⟨w, hw⟩ := hqr
  exact ⟨v ++ w, hv.trans hw⟩

theorem HasEdge.reaches (hedge : a.HasEdge p s q) : a.Reaches p q := ⟨[s], .read hedge (.nil q)⟩

theorem Reaches.productive (hpq : a.Reaches p q) (hq : a.Productive q) : a.Productive p := by
  obtain ⟨v, hpath⟩ := hpq
  obtain ⟨w, haccepts⟩ := hq
  exact ⟨v ++ w, hpath.acceptsFrom haccepts⟩

/-- A state is productive when a path leads from it to a final state. -/
theorem productive_iff_reaches : a.Productive q ↔ ∃ f ∈ a.final, a.Reaches q f := by
  refine ⟨?_, ?_⟩
  · intro hproductive
    obtain ⟨w, f, hf, hpath⟩ := hproductive
    exact ⟨f, hf, w, hpath⟩
  · intro hreaches
    obtain ⟨f, hf, w, hpath⟩ := hreaches
    exact ⟨w, f, hf, hpath⟩

/-- Chains of any edges are the paths. -/
theorem chain_iff_reaches : a.table.Chain (fun _ => true) p q ↔ a.Reaches p q := by
  refine ⟨?_, ?_⟩
  · intro hchain
    induction hchain using Relation.ReflTransGen.head_induction_on with
    | refl => exact ⟨[], .nil q⟩
    | head hstep _ ih =>
        obtain ⟨s, _, hedge⟩ := hstep
        exact (HasEdge.reaches hedge).trans ih
  · intro h
    obtain ⟨w, hpath⟩ := h
    induction hpath with
    | nil => exact .refl
    | silent hedge _ ih => exact .head ⟨epsilon, rfl, hedge⟩ ih
    | read hedge _ ih => exact .head ⟨_, rfl, hedge⟩ ih

namespace SameFuture

theorem refl (a : Automaton) (p : StateId) : SameFuture a a p p := fun _ => Iff.rfl

theorem symm (h : SameFuture a b p q) : SameFuture b a q p := fun w => (h w).symm

theorem trans (hpq : SameFuture a b p q) (hqr : SameFuture b c q r) : SameFuture a c p r :=
  fun w => (hpq w).trans (hqr w)

theorem productive_iff (h : SameFuture a b p q) : a.Productive p ↔ b.Productive q := exists_congr h

end SameFuture

/-- Related states agree on being final, and each edge of one is matched by an edge of the other. -/
structure Bisimulation (a b : Automaton) (r : StateId → StateId → Prop) : Prop where
  final : ∀ p q, r p q → (p ∈ a.final ↔ q ∈ b.final)
  forth : ∀ p q s p', r p q → a.HasEdge p s p' → ∃ q', b.HasEdge q s q' ∧ r p' q'
  back : ∀ p q s q', r p q → b.HasEdge q s q' → ∃ p', a.HasEdge p s p' ∧ r p' q'

theorem Bisimulation.sameFuture {r : StateId → StateId → Prop} (h : Bisimulation a b r)
    (ha : a.EpsilonFree) (hb : b.EpsilonFree) (hpq : r p q) : SameFuture a b p q := by
  intro w
  induction w generalizing p q with
  | nil =>
      rw [ha.acceptsFrom_nil, hb.acceptsFrom_nil]
      exact h.final p q hpq
  | cons s w ih =>
      rw [ha.acceptsFrom_cons, hb.acceptsFrom_cons]
      refine ⟨?_, ?_⟩
      · intro haccepts
        obtain ⟨p', hp, hrest⟩ := haccepts
        obtain ⟨q', hq, hpq'⟩ := h.forth p q s p' hpq hp
        exact ⟨q', hq, (ih hpq').1 hrest⟩
      · intro haccepts
        obtain ⟨q', hq, hrest⟩ := haccepts
        obtain ⟨p', hp, hpq'⟩ := h.back p q s q' hpq hq
        exact ⟨p', hp, (ih hpq').2 hrest⟩

namespace Deterministic

theorem epsilonFree (h : a.Deterministic) : a.EpsilonFree := h.no_epsilon

theorem acceptsFrom_cons_of_edge (h : a.Deterministic) (hedge : a.HasEdge p s q) :
    a.AcceptsFrom p (s :: w) ↔ a.AcceptsFrom q w := by
  rw [h.epsilonFree.acceptsFrom_cons]
  refine ⟨?_, ?_⟩
  · intro haccepts
    obtain ⟨q', hedge', hrest⟩ := haccepts
    rwa [h.functional p s q q' hedge hedge']
  · intro hrest
    exact ⟨q, hedge, hrest⟩

theorem successor?_eq_some_iff (h : a.Deterministic) : a.successor? p s = some q ↔ a.HasEdge p s q := by
  refine ⟨hasEdge_of_successor?, fun hedge => ?_⟩
  cases hsuccessor : a.successor? p s with
  | none => exact absurd hedge (not_hasEdge_of_successor? hsuccessor)
  | some q' => rw [h.functional p s q' q (hasEdge_of_successor? hsuccessor) hedge]

/-- The one initial state. -/
theorem exists_initial (h : a.Deterministic) : ∃ i, a.initial.toList = [i] :=
  List.length_eq_one_iff.1 h.one_initial

/-- Fewer edges keep an automaton deterministic. -/
theorem of_edges (h : a.Deterministic) (hinitial : b.initial.size = 1) (halphabet : b.alphabet = a.alphabet)
    (hedges : ∀ p s q, b.HasEdge p s q → a.HasEdge p s q) : b.Deterministic where
  one_initial := hinitial
  epsilon_not_mem := by
    rw [halphabet]
    exact h.epsilon_not_mem
  no_epsilon p q hedge := h.no_epsilon p q (hedges p epsilon q hedge)
  functional p s q r hq hr := h.functional p s q r (hedges p s q hq) (hedges p s r hr)

/-- Edges under one symbol lead to states with the same future. -/
theorem sameFuture_of_edges (ha : a.Deterministic) (hb : b.Deterministic) (h : SameFuture a b p q)
    (hp : a.HasEdge p s p') (hq : b.HasEdge q s q') : SameFuture a b p' q' := by
  intro w
  rw [← ha.acceptsFrom_cons_of_edge hp, ← hb.acceptsFrom_cons_of_edge hq]
  exact h (s :: w)

/-- An edge to a productive state is matched from every state with the same future. -/
theorem exists_edge (ha : a.Deterministic) (hb : b.Deterministic) (h : SameFuture a b p q)
    (hp : a.HasEdge p s p') (hproductive : a.Productive p') :
    ∃ q', b.HasEdge q s q' ∧ SameFuture a b p' q' := by
  obtain ⟨w, haccepts⟩ := hproductive
  have hcons := (h (s :: w)).1 ((ha.acceptsFrom_cons_of_edge hp).2 haccepts)
  obtain ⟨q', hq, _⟩ := hb.epsilonFree.acceptsFrom_cons.1 hcons
  exact ⟨q', hq, ha.sameFuture_of_edges hb h hp hq⟩

/-- A path through productive states is matched in the same way. -/
theorem exists_path (ha : a.Deterministic) (hb : b.Deterministic)
    (hproductive : ∀ p s q, a.HasEdge p s q → a.Productive q) (hpath : a.Path p w r)
    (h : SameFuture a b p q) : ∃ r', b.Path q w r' ∧ SameFuture a b r r' := by
  induction hpath generalizing q with
  | nil => exact ⟨q, .nil q, h⟩
  | silent hedge _ _ => exact absurd hedge (ha.no_epsilon _ _)
  | read hedge _ ih =>
      obtain ⟨q', hq, h'⟩ := ha.exists_edge hb h hedge (hproductive _ _ _ hedge)
      obtain ⟨r', hpath', hr⟩ := ih h'
      exact ⟨r', .read hq hpath', hr⟩

end Deterministic

end FiniteAutomata.Automaton
