import FiniteAutomata.Proofs.Minimality
import FiniteAutomata.Proofs.Quotient

/-! What minimization returns: the one automaton that is reduced, numbered in its own breadth-first
order, and accepts the given words over the given alphabet. Such an automaton is unique, so it does not
matter which automaton is minimized, and minimizing once more changes nothing; since it is reduced, no
deterministic automaton for the same words is smaller. -/

namespace FiniteAutomata.Automaton

variable {a b d m n : Automaton} {limit : Option Nat} {w : List Symbol} {start : Nat}

/-- What a caller of the minimization can rely on. -/
structure Minimizes (a m : Automaton) : Prop where
  reduced : m.Reduced
  rows : m.table.NoEmptyRow
  renumber : m.renumber 0 = .ok m
  alphabet : m.alphabet = a.alphabet.erase epsilon
  recognizes : ∀ w, epsilon ∉ w → (m.Recognizes w ↔ a.Recognizes w)

/-- The minimized automaton is determined by its words and its alphabet. -/
theorem Minimizes.unique (hm : a.Minimizes m) (hn : b.Minimizes n)
    (halphabet : a.alphabet.erase epsilon = b.alphabet.erase epsilon)
    (hwords : ∀ w, epsilon ∉ w → (a.Recognizes w ↔ b.Recognizes w)) : m = n := by
  have hsame : ∀ w, m.Recognizes w ↔ n.Recognizes w := by
    apply hm.reduced.deterministic.recognizes_congr hn.reduced.deterministic
    intro w hw
    calc m.Recognizes w ↔ a.Recognizes w := hm.recognizes w hw
      _ ↔ b.Recognizes w := hwords w hw
      _ ↔ n.Recognizes w := (hn.recognizes w hw).symm
  obtain ⟨f, hf⟩ := hm.reduced.exists_isomorphism hn.reduced hsame
    (by rw [hm.alphabet, hn.alphabet, halphabet])
  have hrenumber := renumber_eq_of_isIsomorphism hf hm.reduced.toAccessible hn.reduced.toAccessible
    hm.rows hn.rows 0
  rw [hm.renumber, hn.renumber] at hrenumber
  exact Except.ok.inj hrenumber

section Reduce

theorem Trimmed.renumber (h : a.Trimmed) (hrows : a.table.NoEmptyRow) (hb : a.renumber start = .ok b) :
    b.Trimmed ∧ b.table.NoEmptyRow ∧ ∃ f, IsIsomorphism a b f := by
  obtain ⟨hisomorphism, hkind, hvalid, hrowsb, _⟩ := renumber_spec h.valid hrows hb
  exact ⟨hisomorphism.trimmed hvalid h (hkind.trans h.kind), hrowsb, _, hisomorphism⟩

theorem Trimmed.numbered (h : a.Trimmed) (hrows : a.table.NoEmptyRow) (hb : a.renumber 0 = .ok b) :
    b.Numbered := by
  obtain ⟨htrimmed, _, f, hf⟩ := h.renumber hrows hb
  intro q
  rw [(renumber_spec h.valid hrows hb).2.2.2.2, Nat.zero_add,
    stateCount_eq hf h.toAccessible htrimmed.toAccessible]
  exact and_iff_right (Nat.zero_le q)

theorem reduced_merged (h : b.Trimmed) (hnumbered : b.Numbered) :
    (b.quotient b.refinement.table).Reduced :=
  reduced_quotient h hnumbered (classifies_refinement h hnumbered)

theorem reduce_spec (h : a.Trimmed) (hrows : a.table.NoEmptyRow) (hm : a.reduce = .ok m) :
    m.Reduced ∧ m.table.NoEmptyRow ∧ m.renumber 0 = .ok m ∧ m.alphabet = a.alphabet ∧
      ∀ w, m.Recognizes w ↔ a.Recognizes w := by
  obtain ⟨b, hb, hm⟩ := bind_eq_ok.1 hm
  obtain ⟨htrimmed, _, f, hf⟩ := h.renumber hrows hb
  have hnumbered := h.numbered hrows hb
  have hreduced := reduced_merged htrimmed hnumbered
  obtain ⟨hg, hkind, hvalid, hrowsm, _⟩ := renumber_spec hreduced.valid noEmptyRow_quotient hm
  have hreducedm := hg.reduced hvalid hreduced (hkind.trans hreduced.kind)
  refine ⟨hreducedm, hrowsm, ?_, ?_, ?_⟩
  · rw [← renumber_eq_of_isIsomorphism hg hreduced.toAccessible hreducedm.toAccessible
      noEmptyRow_quotient hrowsm 0]
    exact hm
  · rw [← hg.alphabet, hf.alphabet]
    rfl
  · intro w
    calc m.Recognizes w ↔ (b.quotient b.refinement.table).Recognizes w :=
          hg.recognizes hreduced.valid hvalid
      _ ↔ b.Recognizes w :=
          recognizes_quotient htrimmed hnumbered (classifies_refinement htrimmed hnumbered)
      _ ↔ a.Recognizes w := hf.recognizes h.valid htrimmed.valid

/-- As long as the states can be numbered there is a result. -/
theorem exists_reduce (h : a.Trimmed) (hrows : a.table.NoEmptyRow)
    (hcount : a.stateCount ≤ StateId.largest + 1) : ∃ m, a.reduce = .ok m := by
  have hfits : ∀ c : Automaton, c.stateCount ≤ StateId.largest + 1 →
      c.stateCount = 0 ∨ 0 + (c.stateCount - 1) ≤ StateId.largest := by
    intro c hc
    omega
  have hb := (renumber_eq_ok h.valid).2 ⟨hfits a hcount, rfl⟩
  obtain ⟨htrimmed, _, f, hf⟩ := h.renumber hrows hb
  have hnumbered := h.numbered hrows hb
  have hle := stateCount_quotient_le htrimmed hnumbered (classifies_refinement htrimmed hnumbered)
  rw [stateCount_eq hf h.toAccessible htrimmed.toAccessible] at hle
  have hm := (renumber_eq_ok (reduced_merged htrimmed hnumbered).valid).2
    ⟨hfits _ (hle.trans hcount), rfl⟩
  exact ⟨_, bind_eq_ok.2 ⟨_, hb, hm⟩⟩

end Reduce

theorem minimize_spec (hm : a.minimize limit = .ok m) : a.Valid ∧ a.Minimizes m := by
  obtain ⟨d, hd, hm⟩ := bind_eq_ok.1 hm
  obtain ⟨hvalid, hdeterminizes⟩ := determinize_spec hd
  obtain ⟨htrimmed, halphabet, hwords⟩ := trim_spec hdeterminizes.valid hdeterminizes.kind
  obtain ⟨hreduced, hrows, hrenumber, halphabetm, hwordsm⟩ :=
    reduce_spec htrimmed (noEmptyRow_trim d) (mapError_eq_ok.1 hm)
  refine ⟨hvalid, hreduced, hrows, hrenumber, ?_, ?_⟩
  · rw [halphabetm, halphabet, hdeterminizes.alphabet]
  · intro w hw
    calc m.Recognizes w ↔ d.trim.Recognizes w := hwordsm w
      _ ↔ d.Recognizes w := hwords w
      _ ↔ a.Recognizes w := hdeterminizes.recognizes w hw

/-- Minimization goes through the determinization, so it makes no difference to determinize first. -/
theorem minimize_determinize {limit' : Option Nat} (hd : a.determinize limit = .ok d) :
    d.minimize limit' = a.minimize none := by
  obtain ⟨_, hdeterminizes⟩ := determinize_spec hd
  rw [minimize, minimize, determinize_unlimited hd,
    determinize_eq_self hdeterminizes.valid hdeterminizes.kind]

/-- A result does not depend on the limit that admits it. -/
theorem minimize_unlimited (hm : a.minimize limit = .ok m) : a.minimize none = .ok m := by
  obtain ⟨d, hd, hm⟩ := bind_eq_ok.1 hm
  exact bind_eq_ok.2 ⟨d, determinize_unlimited hd, hm⟩

theorem Minimizes.minimize_eq_self (hm : a.Minimizes m) : m.minimize limit = .ok m := by
  have hvalid := hm.reduced.valid
  have hkind := hm.reduced.kind
  have hfits := ((renumber_eq_ok hvalid).1 hm.renumber).1
  have hle := stateCount_trim_le hvalid hkind
  obtain ⟨m', hm'⟩ := exists_reduce (trim_spec hvalid hkind).1 (noEmptyRow_trim m) (by omega)
  have hresult : m.minimize limit = .ok m' :=
    bind_eq_ok.2 ⟨m, determinize_eq_self hvalid hkind, mapError_eq_ok.2 hm'⟩
  have halphabet : m.alphabet.erase epsilon = a.alphabet.erase epsilon := by
    rw [erase_epsilon_eq_self hm.reduced.deterministic.epsilon_not_mem, hm.alphabet]
  rw [hresult, (minimize_spec hresult).2.unique hm halphabet hm.recognizes]

theorem minimize_accepts_iff (hm : a.minimize limit = .ok m) (hw : epsilon ∉ w) :
    m.accepts w = true ↔ a.Recognizes w := by
  rw [accepts_iff_recognizes]
  exact (minimize_spec hm).2.recognizes w hw

/-- Minimization keeps all words of ordinary symbols. -/
theorem minimize_preserves_words (hm : a.minimize limit = .ok m) (hw : epsilon ∉ w) :
    m.accepts w = a.accepts w := by
  rw [Bool.eq_iff_iff, minimize_accepts_iff hm hw, accepts_iff_recognizes]

/-- The smallest deterministic automaton for the words of the silent cycle. -/
def alternating : Automaton :=
  { kind := .dfa
    states := .ofList [0, 1]
    alphabet := .ofList ["a", "b"]
    initial := .ofList [0]
    final := .ofList [1]
    table := .ofEdges [⟨0, "a", 1⟩, ⟨1, "b", 0⟩] }

theorem minimize_preserves_words_silentCycle :
    silentCycle.minimize (some 3) = .ok alternating ∧ epsilon ∉ ["a", "b", "a"] ∧
      alternating.accepts ["a", "b", "a"] = silentCycle.accepts ["a", "b", "a"] := by
  have hm : silentCycle.minimize (some 3) = .ok alternating := by decide +kernel
  have hw : epsilon ∉ ["a", "b", "a"] := by decide
  exact ⟨hm, hw, minimize_preserves_words hm hw⟩

/-- Automata with the same result accept the same words. -/
theorem accepts_eq_of_minimize_eq {limit' : Option Nat} (hm : a.minimize limit = .ok m)
    (hm' : b.minimize limit' = .ok m) (hw : epsilon ∉ w) : a.accepts w = b.accepts w := by
  rw [Bool.eq_iff_iff]
  calc a.accepts w = true ↔ a.Recognizes w := accepts_iff_recognizes
    _ ↔ m.accepts w = true := (minimize_accepts_iff hm hw).symm
    _ ↔ b.Recognizes w := minimize_accepts_iff hm' hw
    _ ↔ b.accepts w = true := accepts_iff_recognizes.symm

/-- No deterministic automaton for the same words has fewer states or fewer edges, whatever its states
and its alphabet are. -/
theorem minimize_minimal (hm : a.minimize limit = .ok m) (hb : b.validate = .ok ()) (hkind : b.kind = .dfa)
    (hwords : ∀ w, epsilon ∉ w → b.accepts w = a.accepts w) :
    m.stateCount ≤ b.stateCount ∧ m.edgeCount ≤ b.edgeCount := by
  have hreduced := (minimize_spec hm).2.reduced
  have hvalid := validate_eq_ok_iff.1 hb
  have hdeterministic := hvalid.deterministic hkind
  have hsame : ∀ w, m.Recognizes w ↔ b.Recognizes w := by
    apply hreduced.deterministic.recognizes_congr hdeterministic
    intro w hw
    calc m.Recognizes w ↔ a.Recognizes w := (minimize_spec hm).2.recognizes w hw
      _ ↔ a.accepts w = true := accepts_iff_recognizes.symm
      _ ↔ b.accepts w = true := by rw [hwords w hw]
      _ ↔ b.Recognizes w := accepts_iff_recognizes
  obtain ⟨f, hf⟩ := exists_partner hreduced.toTrimmed hvalid hkind hsame
  exact ⟨hreduced.stateCount_le hf, hreduced.edgeCount_le hf hdeterministic⟩

/-- Another automaton for the words of the silent cycle, with two states that have the same future and
one from which no word is accepted. -/
def unrolled : Automaton :=
  { kind := .dfa
    states := .ofList [3, 5, 7, 9]
    alphabet := .ofList ["a", "b"]
    initial := .ofList [7]
    final := .ofList [3]
    table := .ofEdges [⟨7, "a", 3⟩, ⟨3, "b", 5⟩, ⟨5, "a", 3⟩, ⟨5, "b", 9⟩] }

theorem minimize_minimal_unrolled :
    silentCycle.minimize (some 3) = .ok alternating ∧ unrolled.validate = .ok () ∧ unrolled.kind = .dfa ∧
      (∀ w, epsilon ∉ w → unrolled.accepts w = silentCycle.accepts w) ∧
      alternating.stateCount ≤ unrolled.stateCount ∧ alternating.edgeCount ≤ unrolled.edgeCount := by
  have hm : silentCycle.minimize (some 3) = .ok alternating := by decide +kernel
  have hm' : unrolled.minimize none = .ok alternating := by decide +kernel
  have hvalid : unrolled.validate = .ok () := by decide +kernel
  have hwords : ∀ w, epsilon ∉ w → unrolled.accepts w = silentCycle.accepts w :=
    fun w => accepts_eq_of_minimize_eq hm' hm
  exact ⟨hm, hvalid, rfl, hwords, minimize_minimal hm hvalid rfl hwords⟩

/-- Minimization is a canonical form: the results of two automata are equal exactly when the automata
have the same words and the same alphabet, the result is its own result, and determinizing first makes
no difference. -/
theorem minimize_canonical {limit' : Option Nat} (hm : a.minimize limit = .ok m)
    (hn : b.minimize limit' = .ok n) :
    (m = n ↔ (∀ w, epsilon ∉ w → a.accepts w = b.accepts w) ∧
      a.alphabet.erase epsilon = b.alphabet.erase epsilon) ∧
    (∀ k, m.minimize k = .ok m) ∧
    (∃ d, a.determinize limit = .ok d) ∧
    ∀ l d, a.determinize l = .ok d → ∀ k, d.minimize k = .ok m := by
  have hmspec := (minimize_spec hm).2
  have hnspec := (minimize_spec hn).2
  refine ⟨⟨?_, ?_⟩, ?_, ?_, ?_⟩
  · intro heq
    subst heq
    refine ⟨fun w hw => accepts_eq_of_minimize_eq hm hn hw, ?_⟩
    rw [← hmspec.alphabet, ← hnspec.alphabet]
  · intro hsame
    obtain ⟨hwords, halphabet⟩ := hsame
    apply hmspec.unique hnspec halphabet
    intro w hw
    rw [← accepts_iff_recognizes, ← accepts_iff_recognizes, hwords w hw]
  · intro k
    exact hmspec.minimize_eq_self
  · obtain ⟨d, hd, _⟩ := bind_eq_ok.1 hm
    exact ⟨d, hd⟩
  · intro l d hd k
    rw [minimize_determinize hd, minimize_unlimited hm]

theorem minimize_canonical_unrolled :
    silentCycle.minimize (some 3) = .ok alternating ∧ unrolled.minimize none = .ok alternating ∧
      (∀ w, epsilon ∉ w → silentCycle.accepts w = unrolled.accepts w) ∧
      alternating.minimize (some 0) = .ok alternating ∧
      silentCycleSubsets.minimize none = .ok alternating := by
  have hm : silentCycle.minimize (some 3) = .ok alternating := by decide +kernel
  have hn : unrolled.minimize none = .ok alternating := by decide +kernel
  have hd : silentCycle.determinize none = .ok silentCycleSubsets := by decide +kernel
  obtain ⟨hiff, hidempotent, _, hdeterminize⟩ := minimize_canonical hm hn
  exact ⟨hm, hn, (hiff.1 rfl).1, hidempotent (some 0), hdeterminize none _ hd none⟩

end FiniteAutomata.Automaton
