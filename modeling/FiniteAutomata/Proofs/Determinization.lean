import FiniteAutomata.Determinization
import FiniteAutomata.Proofs.EpsilonRemoval
import FiniteAutomata.Proofs.SubsetLanguage
import FiniteAutomata.Proofs.Validity

/-! Determinization gives a well-formed deterministic automaton for the same words. The limit plays no
part in this: it only decides whether there is a result. -/

namespace FiniteAutomata.Automaton

variable {a d : Automaton} {limit : Option Nat} {w : List Symbol}

section EmptyLanguage

variable {alphabet : SortedSet Symbol}

theorem not_hasEdge_emptyLanguage {p q : StateId} {s : Symbol} : ¬ (emptyLanguage alphabet).HasEdge p s q :=
  TransitionTable.not_mem_empty _

theorem not_acceptsFrom_emptyLanguage {p : StateId} : ¬ (emptyLanguage alphabet).AcceptsFrom p w := by
  intro h
  obtain ⟨q, hq, _⟩ := h
  exact SortedSet.not_mem_empty q hq

theorem not_recognizes_emptyLanguage : ¬ (emptyLanguage alphabet).Recognizes w := by
  intro h
  obtain ⟨p, _, haccepts⟩ := recognizes_iff.1 h
  exact not_acceptsFrom_emptyLanguage haccepts

theorem valid_emptyLanguage (hepsilon : epsilon ∉ alphabet) : (emptyLanguage alphabet).Valid where
  initial_mem _ hq := hq
  final_mem q hq := absurd hq (SortedSet.not_mem_empty q)
  source_mem _ _ _ hedge := absurd hedge not_hasEdge_emptyLanguage
  target_mem _ _ _ hedge := absurd hedge not_hasEdge_emptyLanguage
  symbol_mem _ _ _ hedge := absurd hedge not_hasEdge_emptyLanguage
  deterministic _ :=
    { one_initial := rfl
      epsilon_not_mem := hepsilon
      no_epsilon := fun _ _ => not_hasEdge_emptyLanguage
      functional := fun _ _ _ _ hedge => absurd hedge not_hasEdge_emptyLanguage }

end EmptyLanguage

/-- What a caller of the determinization can rely on. -/
structure Determinizes (a d : Automaton) : Prop where
  kind : d.kind = .dfa
  valid : d.Valid
  alphabet : d.alphabet = a.alphabet.erase epsilon
  recognizes : ∀ w, epsilon ∉ w → (d.Recognizes w ↔ a.Recognizes w)

theorem erase_epsilon_eq_self {alphabet : SortedSet Symbol} (h : epsilon ∉ alphabet) :
    alphabet.erase epsilon = alphabet := by
  apply SortedSet.ext
  intro s
  rw [SortedSet.mem_erase, and_iff_left_iff_imp]
  rintro hs rfl
  exact h hs

theorem erase_epsilon_erase (alphabet : SortedSet Symbol) :
    (alphabet.erase epsilon).erase epsilon = alphabet.erase epsilon :=
  erase_epsilon_eq_self (alphabet.not_mem_erase epsilon)

theorem determinizes_self (h : a.Valid) (hkind : a.kind = .dfa) : a.Determinizes a where
  kind := hkind
  valid := h
  alphabet := (erase_epsilon_eq_self (h.deterministic hkind).epsilon_not_mem).symm
  recognizes _ _ := Iff.rfl

theorem determinizes_emptyLanguage (hinitial : a.initial = ∅) :
    a.Determinizes (emptyLanguage (a.alphabet.erase epsilon)) where
  kind := rfl
  valid := valid_emptyLanguage (by simp)
  alphabet := rfl
  recognizes w _ := by
    refine iff_of_false not_recognizes_emptyLanguage fun h => ?_
    obtain ⟨p, hp, _⟩ := recognizes_iff.1 h
    rw [hinitial] at hp
    exact SortedSet.not_mem_empty p hp

/-- The three phases of the construction, one after the other. -/
theorem determinizes_subsets {single : Automaton} {m : SubsetMemo} (h : a.Valid)
    (hsingle : a.withSingleInitial = .ok single)
    (hmemo : SubsetMemo.build single.eliminateEpsilon limit = .ok m) :
    a.Determinizes (m.toAutomaton single.eliminateEpsilon) := by
  obtain ⟨hvalid, halphabet, hrecognizes⟩ := withSingleInitial_spec h hsingle
  have hcomplete := SubsetMemo.complete_of_build hvalid.eliminateEpsilon hmemo
  have hepsilon : epsilon ∉ single.eliminateEpsilon.alphabet := single.alphabet.not_mem_erase epsilon
  refine ⟨rfl, m.valid_toAutomaton hepsilon, ?_, fun w hw => ?_⟩
  · rw [← halphabet]
    rfl
  · calc (m.toAutomaton single.eliminateEpsilon).Recognizes w ↔ single.eliminateEpsilon.Recognizes w :=
          hcomplete.recognizes hvalid.eliminateEpsilon epsilonFree_eliminateEpsilon hepsilon
      _ ↔ single.Recognizes w := recognizes_eliminateEpsilon hvalid hw
      _ ↔ a.Recognizes w := hrecognizes w hw

/-- What the operation can return: the automaton itself, the automaton without words, or the automaton of
the subset construction. -/
theorem determinize_eq_ok : a.determinize limit = .ok d ↔ a.Valid ∧ (a.kind = .dfa ∧ a = d ∨
    a.kind ≠ .dfa ∧ (a.initial = ∅ ∧ emptyLanguage (a.alphabet.erase epsilon) = d ∨
      a.initial ≠ ∅ ∧ ∃ single m, a.withSingleInitial = .ok single ∧
        SubsetMemo.build single.eliminateEpsilon limit = .ok m ∧
          m.toAutomaton single.eliminateEpsilon = d)) := by
  rw [determinize, bind_eq_ok, ← check_eq_ok_iff, Unique.exists_iff]
  refine and_congr_right fun _ => ?_
  simp only [isDeterministic, beq_iff_eq, SortedSet.isEmpty_iff]
  by_cases hkind : a.kind = .dfa
  · simp [hkind, pure, Except.pure]
  by_cases hempty : a.initial = ∅
  · simp [hkind, hempty, pure, Except.pure]
  · simp [hkind, hempty, bind_eq_ok, pure, Except.pure]

theorem determinize_spec (hd : a.determinize limit = .ok d) : a.Valid ∧ a.Determinizes d := by
  obtain ⟨hvalid, hresult⟩ := determinize_eq_ok.1 hd
  refine ⟨hvalid, ?_⟩
  rcases hresult with ⟨hdfa, rfl⟩ | ⟨_, ⟨hempty, rfl⟩ | ⟨_, single, m, hsingle, hmemo, rfl⟩⟩
  · exact determinizes_self hvalid hdfa
  · exact determinizes_emptyLanguage hempty
  · exact determinizes_subsets hvalid hsingle hmemo

/-- A result does not depend on the limit that admits it. -/
theorem determinize_unlimited (hd : a.determinize limit = .ok d) : a.determinize none = .ok d := by
  obtain ⟨hvalid, hresult⟩ := determinize_eq_ok.1 hd
  refine determinize_eq_ok.2 ⟨hvalid, hresult.imp_right fun hnfa => ⟨hnfa.1, hnfa.2.imp_right fun hsets => ?_⟩⟩
  obtain ⟨hinitial, single, m, hsingle, hmemo, heq⟩ := hsets
  exact ⟨hinitial, single, m, hsingle, SubsetMemo.build_unlimited hmemo, heq⟩

/-- A deterministic automaton is its own determinization, whatever the limit. -/
theorem determinize_eq_self (h : a.Valid) (hkind : a.kind = .dfa) : a.determinize limit = .ok a := by
  rw [determinize, check_eq_ok_iff.2 h, isDeterministic, hkind]
  rfl

/-- Determinization keeps all words of ordinary symbols, also of symbols outside the alphabet. -/
theorem determinize_preserves_words (hd : a.determinize limit = .ok d) (hw : epsilon ∉ w) :
    d.accepts w = a.accepts w := by
  rw [Bool.eq_iff_iff, accepts_iff_recognizes, accepts_iff_recognizes]
  exact (determinize_spec hd).2.recognizes w hw

/-- Two initial states on a cycle of silent edges, for the words in which `a` and `b` alternate and that
begin and end with `a`. -/
def silentCycle : Automaton :=
  { kind := .nfa
    states := .ofList [0, 1, 2]
    alphabet := .ofList ["a", "b"]
    initial := .ofList [0, 1]
    final := .ofList [2]
    table := .ofEdges [⟨0, epsilon, 1⟩, ⟨1, epsilon, 0⟩, ⟨1, "a", 2⟩, ⟨2, "b", 0⟩] }

/-- Three sets of states of the cycle are reached. -/
def silentCycleSubsets : Automaton :=
  { kind := .dfa
    states := .ofList [0, 1, 2]
    alphabet := .ofList ["a", "b"]
    initial := .ofList [0]
    final := .ofList [1]
    table := .ofEdges [⟨0, "a", 1⟩, ⟨1, "b", 2⟩, ⟨2, "a", 1⟩] }

theorem determinize_preserves_words_silentCycle :
    silentCycle.determinize (some 3) = .ok silentCycleSubsets ∧ epsilon ∉ ["a", "b", "a"] ∧
      silentCycleSubsets.accepts ["a", "b", "a"] = silentCycle.accepts ["a", "b", "a"] := by
  have hd : silentCycle.determinize (some 3) = .ok silentCycleSubsets := by decide +kernel
  have hw : epsilon ∉ ["a", "b", "a"] := by decide
  exact ⟨hd, hw, determinize_preserves_words hd hw⟩

end FiniteAutomata.Automaton
