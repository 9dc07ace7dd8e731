import FiniteAutomata.Words
import Mathlib.Algebra.BigOperators.Group.Finset.Basic
import Mathlib.Data.List.Shortlex

/-! The list of all short words. Each round puts every symbol behind every word of the round before, so the words of
a round are those with one symbol more. In each round they stand in the order of their symbols, and a later round
holds longer words, so no word is listed twice. -/

namespace FiniteAutomata

variable {symbols w : List Symbol} {n : Nat}

section Rounds

/-- The words of one round: those that have `n` symbols. -/
def wordsOfLength (symbols : List Symbol) : (n : Nat) → List (List Symbol)
  | 0 => [[]]
  | n + 1 => extendWords symbols (wordsOfLength symbols n)

/-- The rounds follow each other. -/
theorem wordsFrom_wordsOfLength (symbols : List Symbol) (n k : Nat) :
    wordsFrom symbols n (wordsOfLength symbols k) = (List.range' k (n + 1)).flatMap (wordsOfLength symbols) := by
  induction n generalizing k with
  | zero => simp [wordsFrom]
  | succ n ih => rw [wordsFrom, List.range'_succ, List.flatMap_cons, ← ih (k + 1), wordsOfLength]

theorem mem_wordsOfLength : w ∈ wordsOfLength symbols n ↔ w.length = n ∧ ∀ s ∈ w, s ∈ symbols := by
  induction n generalizing w with
  | zero =>
      rw [wordsOfLength, List.mem_singleton, List.length_eq_zero_iff]
      exact (and_iff_left_of_imp fun hw => by simp [hw]).symm
  | succ n ih =>
      simp only [wordsOfLength, mem_extendWords, ih]
      constructor
      · rintro ⟨v, ⟨rfl, hv⟩, s, hs, rfl⟩
        refine ⟨by simp, fun t ht => ?_⟩
        rcases List.mem_append.1 ht with ht | ht
        · exact hv t ht
        · rwa [List.mem_singleton.1 ht]
      · rintro ⟨hlength, hw⟩
        rcases List.eq_nil_or_concat' w with rfl | ⟨v, s, rfl⟩
        · cases hlength
        · simp only [List.mem_append, List.mem_singleton] at hw
          refine ⟨v, ⟨?_, fun t ht => hw t (.inl ht)⟩, s, hw s (.inr rfl), rfl⟩
          simpa using hlength

/-- Each word of the round before goes on with every symbol. -/
theorem length_wordsOfLength (symbols : List Symbol) (n : Nat) :
    (wordsOfLength symbols n).length = symbols.length ^ n := by
  have hextend : ∀ words, (extendWords symbols words).length = words.length * symbols.length := by
    intro words
    simp [extendWords, List.length_flatMap]
  induction n with
  | zero => rfl
  | succ n ih => rw [wordsOfLength, hextend, ih, pow_succ]

/-- The first difference of two words of one length decides, whatever stands behind them. -/
theorem lex_append {v v' : List Symbol} (hlt : List.Lex (· < ·) v v') (hlength : v.length = v'.length)
    (w w' : List Symbol) : List.Lex (· < ·) (v ++ w) (v' ++ w') := by
  induction hlt with
  | nil => cases hlength
  | cons _ ih => exact .cons (ih (Nat.succ.inj hlength))
  | rel hlt => exact .rel hlt

/-- Ordered words stay in order when symbols are put behind them: the symbols matter only behind one and the same
word. -/
theorem pairwise_wordsOfLength (hsymbols : symbols.Pairwise (· < ·)) (n : Nat) :
    (wordsOfLength symbols n).Pairwise (List.Lex (· < ·)) := by
  induction n with
  | zero => exact List.pairwise_singleton _ _
  | succ n ih =>
      refine List.pairwise_flatMap.2 ⟨fun v _ => ?_, ?_⟩
      · rw [List.pairwise_map]
        exact hsymbols.imp fun hlt => List.Lex.append_left _ (.rel hlt) v
      · apply ih.imp_of_mem
        intro v v' hv hv' hlt w hw w' hw'
        obtain ⟨s, _, rfl⟩ := List.mem_map.1 hw
        obtain ⟨s', _, rfl⟩ := List.mem_map.1 hw'
        exact lex_append hlt ((mem_wordsOfLength.1 hv).1.trans (mem_wordsOfLength.1 hv').1.symm) _ _

end Rounds

section Words

variable (symbols : List Symbol) (n : Nat)

/-- The symbols that words are made of. -/
def ordinarySymbols : List Symbol := ((SortedSet.ofList symbols).erase epsilon).toList

theorem mem_ordinarySymbols {s : Symbol} : s ∈ ordinarySymbols symbols ↔ s ∈ symbols ∧ s ≠ epsilon := by
  rw [ordinarySymbols, SortedSet.mem_toList, SortedSet.mem_erase, SortedSet.mem_ofList]

theorem pairwise_ordinarySymbols : (ordinarySymbols symbols).Pairwise (· < ·) :=
  ((SortedSet.ofList symbols).erase epsilon).ascending.imp compareOfLessAndEq_eq_lt.1

theorem length_ordinarySymbols : (ordinarySymbols symbols).length = (symbols.toFinset.erase epsilon).card := by
  have hnodup : (ordinarySymbols symbols).Nodup := SortedSet.nodup_toList _
  have hset : (ordinarySymbols symbols).toFinset = symbols.toFinset.erase epsilon := by
    ext s
    rw [List.mem_toFinset, mem_ordinarySymbols, Finset.mem_erase, List.mem_toFinset, and_comm]
  rw [← hset, List.toFinset_card_of_nodup hnodup]

theorem wordsUpTo_eq_flatMap :
    wordsUpTo symbols n = (List.range (n + 1)).flatMap (wordsOfLength (ordinarySymbols symbols)) := by
  rw [List.range_eq_range']
  exact wordsFrom_wordsOfLength _ n 0

theorem mem_wordsUpTo : w ∈ wordsUpTo symbols n ↔ w.length ≤ n ∧ ∀ s ∈ w, s ∈ symbols ∧ s ≠ epsilon := by
  simp only [wordsUpTo_eq_flatMap, List.mem_flatMap, List.mem_range, Nat.lt_succ_iff, mem_wordsOfLength,
    mem_ordinarySymbols]
  constructor
  · rintro ⟨i, hi, rfl, hsymbols⟩
    exact ⟨hi, hsymbols⟩
  · rintro ⟨hlength, hsymbols⟩
    exact ⟨w.length, hlength, rfl, hsymbols⟩

/-- The words of a round are in order, and those of a later round are longer. -/
theorem pairwise_wordsUpTo : (wordsUpTo symbols n).Pairwise (List.Shortlex (· < ·)) := by
  rw [wordsUpTo_eq_flatMap]
  refine List.pairwise_flatMap.2 ⟨fun i _ => ?_, ?_⟩
  · apply (pairwise_wordsOfLength (pairwise_ordinarySymbols symbols) i).imp_of_mem
    intro v w hv hw hlt
    exact .of_lex ((mem_wordsOfLength.1 hv).1.trans (mem_wordsOfLength.1 hw).1.symm) hlt
  · apply List.pairwise_lt_range.imp
    intro i j hlt v hv w hw
    apply List.Shortlex.of_length_lt
    rwa [(mem_wordsOfLength.1 hv).1, (mem_wordsOfLength.1 hw).1]

theorem nodup_wordsUpTo : (wordsUpTo symbols n).Nodup := by
  apply (pairwise_wordsUpTo symbols n).imp
  rintro v _ hlt rfl
  exact Std.Asymm.asymm v v hlt hlt

theorem length_wordsUpTo :
    (wordsUpTo symbols n).length = ∑ i ∈ Finset.range (n + 1), (symbols.toFinset.erase epsilon).card ^ i := by
  rw [wordsUpTo_eq_flatMap, List.length_flatMap, ← length_ordinarySymbols]
  simp only [length_wordsOfLength]
  rfl

end Words

/-- All words of at most `n` of the given symbols are listed, each once, shorter words first and words of one length
in the order of their symbols. A symbol that is given twice counts once, and epsilon does not count. -/
theorem wordsUpTo_enumerates (symbols : List Symbol) (n : Nat) :
    (∀ w, (wordsUpTo symbols n).count w =
      if w.length ≤ n ∧ ∀ s ∈ w, s ∈ symbols ∧ s ≠ epsilon then 1 else 0) ∧
    (wordsUpTo symbols n).Pairwise (List.Shortlex (· < ·)) ∧
    (wordsUpTo symbols n).length = ∑ i ∈ Finset.range (n + 1), (symbols.toFinset.erase epsilon).card ^ i := by
  refine ⟨fun w => ?_, pairwise_wordsUpTo symbols n, length_wordsUpTo symbols n⟩
  rw [(nodup_wordsUpTo symbols n).count]
  simp only [mem_wordsUpTo]

example : wordsUpTo ["b", "a", epsilon, "b"] 2 =
    [[], ["a"], ["b"], ["a", "a"], ["a", "b"], ["b", "a"], ["b", "b"]] := by decide

end FiniteAutomata
