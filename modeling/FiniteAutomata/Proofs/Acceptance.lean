import FiniteAutomata.Proofs.Minimization
import Mathlib.Computability.EpsilonNFA

/-! Acceptance by paths that are written out. A path is a list of labels, one for each edge that it takes: no
label for an edge under epsilon that consumes nothing, and the symbol of the edge otherwise; what it consumes is
the list of its symbols. These are the paths of the usual automata with silent moves, so the words accepted are
those of such an automaton, where a word may hold epsilon as a symbol like any other. A deterministic automaton
has no choice of a path: the next state is the one successor of the last. -/

namespace FiniteAutomata.Automaton

variable {a : Automaton} {p q : StateId} {s : Symbol} {w : List Symbol}

section Marks

/-- Paths do not depend on the marks. -/
theorem path_congr {b : Automaton} (htable : b.table = a.table) : b.Path p w q ↔ a.Path p w q := by
  have hedges : ∀ p s q, b.HasEdge p s q ↔ a.HasEdge p s q := by
    intro p s q
    rw [HasEdge, HasEdge, htable]
  exact ⟨.mono fun p s q => (hedges p s q).1, .mono fun p s q => (hedges p s q).2⟩

/-- The automaton with another initial state in place of its own. -/
def startedAt (a : Automaton) (q : StateId) : Automaton := { a with initial := .ofList [q] }

/-- Acceptance from a state is acceptance when the state is the initial one. -/
theorem accepts_startedAt : (a.startedAt p).accepts w = true ↔ a.AcceptsFrom p w := by
  have hpath : ∀ {p q : StateId}, (a.startedAt p).Path p w q ↔ a.Path p w q := path_congr rfl
  rw [accepts_iff_recognizes, recognizes_iff]
  simp only [startedAt, SortedSet.mem_ofList, List.mem_singleton, exists_eq_left, AcceptsFrom]
  exact exists_congr fun q => and_congr_right fun _ => hpath

end Marks

section Labels

/-- The automaton as one in which moves without a label are silent. An edge under epsilon makes two moves. -/
def toEpsilonNFA (a : Automaton) : εNFA Symbol StateId where
  step p label := { q | a.HasEdge p (label.getD epsilon) q }
  start := { q | q ∈ a.initial }
  accept := { q | q ∈ a.final }

/-- A path consumes a word when the labels of its edges are the symbols of the word. -/
theorem path_iff_labels :
    a.Path p w q ↔ ∃ labels : List (Option Symbol), labels.reduceOption = w ∧ a.toEpsilonNFA.IsPath p q labels := by
  constructor
  · intro hpath
    induction hpath with
    | nil p => exact ⟨[], rfl, .nil p⟩
    | silent hedge _ ih =>
        obtain ⟨labels, hword, hlabels⟩ := ih
        exact ⟨none :: labels, hword, .cons _ _ _ none labels hedge hlabels⟩
    | read hedge _ ih =>
        obtain ⟨labels, hword, hlabels⟩ := ih
        exact ⟨some _ :: labels, congrArg _ hword, .cons _ _ _ (some _) labels hedge hlabels⟩
  · rintro ⟨labels, rfl, hlabels⟩
    induction hlabels with
    | nil p => exact .nil p
    | cons q p r label labels hedge _ ih =>
        cases label with
        | none => exact .silent hedge ih
        | some s => exact .read hedge ih

theorem recognizes_iff_mem_accepts : a.Recognizes w ↔ w ∈ a.toEpsilonNFA.accepts := by
  rw [εNFA.mem_accepts_iff_exists_path]
  simp only [Recognizes, path_iff_labels]
  constructor
  · rintro ⟨p, hp, q, hq, labels, hword, hpath⟩
    exact ⟨p, q, labels, hp, hq, hword, hpath⟩
  · rintro ⟨p, q, labels, hp, hq, hword, hpath⟩
    exact ⟨p, hp, q, hq, labels, hword, hpath⟩

end Labels

section Successors

/-- The state to which the successors under the symbols of a word lead, as long as there are any. -/
def follow? (a : Automaton) (p : StateId) (w : List Symbol) : Option StateId := w.foldlM a.successor? p

theorem follow?_cons : a.follow? p (s :: w) = (a.successor? p s).bind fun q => a.follow? q w := rfl

/-- In a deterministic automaton there is one path for a word, or none. The induction is on the word. -/
theorem Deterministic.path_iff_follow? (h : a.Deterministic) : a.Path p w q ↔ a.follow? p w = some q := by
  induction w generalizing p with
  | nil =>
      rw [h.epsilonFree.path_nil]
      exact Option.some_inj.symm
  | cons s w ih =>
      rw [path_cons_iff, follow?_cons, Option.bind_eq_some_iff]
      simp only [h.epsilonFree.path_nil, ih, h.successor?_eq_some_iff]
      constructor
      · rintro ⟨_, r, rfl, hedge, hrest⟩
        exact ⟨r, hedge, hrest⟩
      · rintro ⟨r, hedge, hrest⟩
        exact ⟨p, r, rfl, hedge, hrest⟩

theorem Deterministic.recognizes_iff_follow? (h : a.Deterministic) : a.Recognizes w ↔
    ∃ first last, a.initialState? = some first ∧ a.follow? first w = some last ∧ last ∈ a.final := by
  obtain ⟨first, hfirst⟩ := h.exists_initial
  simp only [recognizes_iff_of_initial hfirst, initialState?_of_initial hfirst, Option.some.injEq,
    exists_and_left, exists_eq_left', AcceptsFrom, h.path_iff_follow?]
  exact exists_congr fun q => and_comm

end Successors

/-- A word is accepted exactly when a path from an initial to a final state consumes it, whatever the automaton is:
it need not be well-formed, and silent edges may form cycles. In a well-formed deterministic automaton these are the
words whose successors lead from the one initial state to a final one. -/
theorem accepts_iff_labelledPath :
    (∀ (a : Automaton) (w : List Symbol), a.accepts w = true ↔ ∃ p ∈ a.initial, ∃ q ∈ a.final,
      ∃ labels : List (Option Symbol), labels.reduceOption = w ∧ a.toEpsilonNFA.IsPath p q labels) ∧
    (∀ (a : Automaton) (w : List Symbol), a.accepts w = true ↔ w ∈ a.toEpsilonNFA.accepts) ∧
    ∀ a : Automaton, a.kind = .dfa → a.validate = .ok () → ∀ w : List Symbol, a.accepts w = true ↔
      ∃ first last, a.initialState? = some first ∧ a.follow? first w = some last ∧ last ∈ a.final := by
  refine ⟨fun a w => ?_, fun a w => ?_, fun a hkind hvalidate w => ?_⟩
  · rw [accepts_iff_recognizes]
    simp only [Recognizes, path_iff_labels]
  · rw [accepts_iff_recognizes, recognizes_iff_mem_accepts]
  · have hdeterministic := (validate_eq_ok_iff.1 hvalidate).deterministic hkind
    rw [accepts_iff_recognizes, hdeterministic.recognizes_iff_follow?]

/-- An edge under epsilon is taken for the symbol epsilon of a word, and the successors of a deterministic automaton
lead twice to its final state. -/
theorem accepts_iff_labelledPath_unrolled :
    silentCycle.toEpsilonNFA.IsPath 0 2 [some epsilon, some "a"] ∧ silentCycle.accepts [epsilon, "a"] = true ∧
      unrolled.kind = .dfa ∧ unrolled.validate = .ok () ∧ unrolled.follow? 7 ["a", "b", "a"] = some 3 ∧
      unrolled.accepts ["a", "b", "a"] = true := by
  obtain ⟨hlabels, _, hsuccessors⟩ := accepts_iff_labelledPath
  have hsilent : silentCycle.HasEdge 0 epsilon 1 := by decide +kernel
  have hread : silentCycle.HasEdge 1 "a" 2 := by decide +kernel
  have hpath : silentCycle.toEpsilonNFA.IsPath 0 2 [some epsilon, some "a"] :=
    .cons 1 0 2 _ _ hsilent (.cons 2 1 2 _ _ hread (.nil 2))
  have hvalidate : unrolled.validate = .ok () := by decide +kernel
  have hfollow : unrolled.follow? 7 ["a", "b", "a"] = some 3 := by decide +kernel
  have haccepts := (hsuccessors unrolled rfl hvalidate _).2 ⟨7, 3, by decide +kernel, hfollow, by decide +kernel⟩
  exact ⟨hpath, (hlabels silentCycle _).2 ⟨0, by decide +kernel, 2, by decide +kernel, _, rfl, hpath⟩, rfl, hvalidate,
    hfollow, haccepts⟩

end FiniteAutomata.Automaton
