import FiniteAutomata.Proofs.NormalForm
import Mathlib.Computability.Language
import Mathlib.Order.ConditionallyCompleteLattice.Basic

/-! Algebraic laws of the operations. The result of an operation is determined by its ordinary symbols and its
words, and these are determined by those of the operands. On sets of symbols the operations are the union, and
on languages they are the sum, the meet and the product, so the laws of sets and languages hold of the results
as equality of automata: of their numbers, marks and edges, and not only of their words. -/

namespace FiniteAutomata

namespace Automaton

variable {a b m n : Automaton}

/-- The accepted words of ordinary symbols. -/
def language (a : Automaton) : Language Symbol := fun w => epsilon ∉ w ∧ a.Recognizes w

theorem mem_language {w : List Symbol} : w ∈ a.language ↔ epsilon ∉ w ∧ a.Recognizes w := Iff.rfl

/-- A word without epsilon is cut into words without epsilon. -/
theorem mem_language_mul {w : List Symbol} : w ∈ a.language * b.language ↔
    epsilon ∉ w ∧ ∃ u v, w = u ++ v ∧ a.Recognizes u ∧ b.Recognizes v := by
  rw [Language.mem_mul]
  refine ⟨?_, ?_⟩
  · intro hcut
    obtain ⟨u, hu, v, hv, rfl⟩ := hcut
    exact ⟨fun hmem => (List.mem_append.1 hmem).elim hu.1 hv.1, u, v, rfl, hu.2, hv.2⟩
  · intro hcut
    obtain ⟨hw, u, v, rfl, hu, hv⟩ := hcut
    exact ⟨u, ⟨fun hmem => hw (List.mem_append_left v hmem), hu⟩, v,
      ⟨fun hmem => hw (List.mem_append_right u hmem), hv⟩, rfl⟩

/-- What the result of an operation depends on: the symbols other than epsilon, and the words. -/
def meaning (a : Automaton) : SortedSet Symbol × Language Symbol := (a.alphabet.erase epsilon, a.language)

/-- A minimized automaton has the meaning of the automaton that it minimizes. -/
theorem Minimizes.meaning_eq (hm : a.Minimizes m) : m.meaning = a.meaning := by
  have halphabet : m.alphabet.erase epsilon = a.alphabet.erase epsilon := by
    rw [hm.alphabet, erase_epsilon_erase]
  have hlanguage : m.language = a.language :=
    Language.ext fun w => and_congr_right fun hw => hm.recognizes w hw
  rw [meaning, meaning, halphabet, hlanguage]

/-- Minimized automata are equal when they have the same meaning. -/
theorem Minimizes.eq_of_meaning (hm : a.Minimizes m) (hn : b.Minimizes n) (h : m.meaning = n.meaning) : m = n := by
  rw [hm.meaning_eq, hn.meaning_eq] at h
  obtain ⟨halphabet, hlanguage⟩ := Prod.mk.inj h
  refine hm.unique hn halphabet fun w hw => ?_
  have hmem : w ∈ a.language ↔ w ∈ b.language := by rw [hlanguage]
  rwa [mem_language, mem_language, and_iff_right hw, and_iff_right hw] at hmem

end Automaton

namespace CommandLine

open Automaton

variable {a b c r m : Automaton}

/-- Under some limit the operation returns the result. -/
def UnaryOperation.Gives (operation : UnaryOperation) (a r : Automaton) : Prop :=
  ∃ limit, operation.apply limit a = .ok r

/-- Under some limit the operation returns the result. -/
def BinaryOperation.Gives (operation : BinaryOperation) (a b r : Automaton) : Prop :=
  ∃ limit, operation.apply limit a b = .ok r

namespace BinaryOperation

/-- The operation on the words of automata. -/
def onLanguages : BinaryOperation → Language Symbol → Language Symbol → Language Symbol
  | union, l, k => l + k
  | intersection, l, k => l ⊓ k
  | concatenation, l, k => l * k

/-- The operation on meanings. A result has the symbols of both operands, whatever the operation. -/
def onMeanings (operation : BinaryOperation) (x y : SortedSet Symbol × Language Symbol) :
    SortedSet Symbol × Language Symbol :=
  (x.1 ∪ y.1, operation.onLanguages x.2 y.2)

section Meanings

variable {operation : BinaryOperation} {limit : Option Nat} {x y z : SortedSet Symbol × Language Symbol}

/-- The words of a result are what the operation makes of the words of its operands. -/
theorem language_of_apply (hb : b.Built) (hr : operation.apply limit a b = .ok r) :
    r.language = operation.onLanguages a.language b.language := by
  apply Language.ext
  intro w
  cases operation with
  | union =>
      obtain ⟨sum, joined, hsum, hjoined, hminimizes⟩ := exists_of_union hr
      have hjoins := DisjointSum.joins_of_build hb.noEmptyRow hsum
      rw [onLanguages, Language.mem_add, mem_language, mem_language, mem_language, ← and_or_left]
      refine and_congr_right fun hw => ?_
      rw [hminimizes.recognizes w hw, DisjointSum.recognizes_alternatives hjoins.separate hjoined hw,
        hjoins.left, hjoins.recognizes_right]
  | intersection =>
      obtain ⟨left, right, hleft, hright, hminimizes⟩ := exists_of_intersection hr
      have hleftdet := hleft.valid.deterministic hleft.kind
      have hrightdet := hright.valid.deterministic hright.kind
      show _ ↔ w ∈ a.language ∧ w ∈ b.language
      rw [mem_language, mem_language, mem_language, ← and_and_left]
      refine and_congr_right fun hw => ?_
      rw [hminimizes.recognizes w hw, Product.recognizes_product hleft.valid hleftdet hrightdet,
        hleft.recognizes w hw, hright.recognizes w hw]
  | concatenation =>
      obtain ⟨sum, hsum, hminimizes⟩ := exists_of_concatenation hr
      have hjoins := DisjointSum.joins_of_build hb.noEmptyRow hsum
      rw [onLanguages, mem_language_mul, mem_language]
      refine and_congr_right fun hw => ?_
      rw [hminimizes.recognizes w hw, DisjointSum.recognizes_sequence hjoins.separate hw, hjoins.left]
      simp only [hjoins.recognizes_right]

theorem Gives.meaning_eq (hb : b.Built) (hr : operation.Gives a b r) :
    r.meaning = operation.onMeanings a.meaning b.meaning := by
  obtain ⟨limit, hr⟩ := hr
  obtain ⟨c, halphabet, hminimizes⟩ := exists_minimizes hr
  refine Prod.ext ?_ (language_of_apply hb hr)
  show r.alphabet.erase epsilon = a.alphabet.erase epsilon ∪ b.alphabet.erase epsilon
  rw [hminimizes.alphabet, erase_epsilon_erase, halphabet, erase_epsilon_union]

theorem Gives.built (hr : operation.Gives a b r) : r.Built := by
  obtain ⟨limit, hr⟩ := hr
  exact BinaryOperation.built hr

/-- Results are equal when they have the same meaning, also those of different operations. -/
theorem Gives.eq_of_meaning {operation' : BinaryOperation} {a' b' r' : Automaton}
    (hr : operation.Gives a b r) (hr' : operation'.Gives a' b' r') (h : r.meaning = r'.meaning) : r = r' := by
  obtain ⟨limit, hr⟩ := hr
  obtain ⟨limit', hr'⟩ := hr'
  obtain ⟨c, _, hc⟩ := exists_minimizes hr
  obtain ⟨c', _, hc'⟩ := exists_minimizes hr'
  exact hc.eq_of_meaning hc' h

end Meanings

section Laws

variable (operation : BinaryOperation) (x y z : SortedSet Symbol × Language Symbol)

theorem onMeanings_comm (h : operation ≠ concatenation) : operation.onMeanings x y = operation.onMeanings y x := by
  apply Prod.ext
  · exact SortedSet.union_comm x.1 y.1
  · cases operation with
    | union => exact add_comm x.2 y.2
    | intersection => exact inf_comm x.2 y.2
    | concatenation => exact absurd rfl h

theorem onMeanings_assoc : operation.onMeanings (operation.onMeanings x y) z =
    operation.onMeanings x (operation.onMeanings y z) := by
  apply Prod.ext
  · exact SortedSet.union_assoc x.1 y.1 z.1
  · cases operation with
    | union => exact add_assoc x.2 y.2 z.2
    | intersection => exact inf_assoc x.2 y.2 z.2
    | concatenation => exact mul_assoc x.2 y.2 z.2

theorem onMeanings_self (h : operation ≠ concatenation) : operation.onMeanings x x = x := by
  apply Prod.ext
  · exact SortedSet.union_self x.1
  · cases operation with
    | union => exact add_idem x.2
    | intersection => exact inf_idem x.2
    | concatenation => exact absurd rfl h

theorem onMeanings_union_left : operation.onMeanings x (union.onMeanings y z) =
    union.onMeanings (operation.onMeanings x y) (operation.onMeanings x z) := by
  apply Prod.ext
  · exact SortedSet.union_union_distrib_left x.1 y.1 z.1
  · cases operation with
    | union => exact sup_sup_distrib_left x.2 y.2 z.2
    | intersection => exact inf_sup_left x.2 y.2 z.2
    | concatenation => exact mul_add x.2 y.2 z.2

theorem onMeanings_union_right : operation.onMeanings (union.onMeanings x y) z =
    union.onMeanings (operation.onMeanings x z) (operation.onMeanings y z) := by
  apply Prod.ext
  · exact SortedSet.union_union_distrib_right x.1 y.1 z.1
  · cases operation with
    | union => exact sup_sup_distrib_right x.2 y.2 z.2
    | intersection => exact inf_sup_right x.2 y.2 z.2
    | concatenation => exact add_mul x.2 y.2 z.2

end Laws

end BinaryOperation

/-- The laws of the operations hold as equality of automata, whatever the limits of the calls: union and
intersection do not depend on the order of their operands, all operations are associative, the union and the
intersection of an automaton with itself are its minimization, and every operation distributes over the union
on both sides. -/
theorem operations_algebraic (ha : a.Built) (hb : b.Built) (hc : c.Built) :
    (∀ (operation : BinaryOperation) (r r' : Automaton), operation ≠ .concatenation →
      operation.Gives a b r → operation.Gives b a r' → r = r') ∧
    (∀ (operation : BinaryOperation) (ab bc r r' : Automaton),
      operation.Gives a b ab → operation.Gives ab c r →
      operation.Gives b c bc → operation.Gives a bc r' → r = r') ∧
    (∀ (operation : BinaryOperation) (r m : Automaton), operation ≠ .concatenation →
      operation.Gives a a r → UnaryOperation.minimization.Gives a m → r = m) ∧
    (∀ (operation : BinaryOperation) (bc ab ac r r' : Automaton),
      BinaryOperation.union.Gives b c bc → operation.Gives a bc r →
      operation.Gives a b ab → operation.Gives a c ac → BinaryOperation.union.Gives ab ac r' → r = r') ∧
    ∀ (operation : BinaryOperation) (ab ac bc r r' : Automaton),
      BinaryOperation.union.Gives a b ab → operation.Gives ab c r →
      operation.Gives a c ac → operation.Gives b c bc → BinaryOperation.union.Gives ac bc r' → r = r' := by
  refine ⟨?_, ?_, ?_, ?_, ?_⟩
  · intro operation r r' hne hr hr'
    apply hr.eq_of_meaning hr'
    rw [hr.meaning_eq hb, hr'.meaning_eq ha, operation.onMeanings_comm _ _ hne]
  · intro operation ab bc r r' hab hr hbc hr'
    apply hr.eq_of_meaning hr'
    rw [hr.meaning_eq hc, hab.meaning_eq hb, hr'.meaning_eq hbc.built, hbc.meaning_eq hc,
      operation.onMeanings_assoc]
  · intro operation r m hne hr hm
    obtain ⟨limit, hm⟩ := hm
    have hminimizes := (minimize_spec hm).2
    have hmeaning := hr.meaning_eq ha
    obtain ⟨limit', hr⟩ := hr
    obtain ⟨d, _, hd⟩ := BinaryOperation.exists_minimizes hr
    apply hd.eq_of_meaning hminimizes
    rw [hmeaning, hminimizes.meaning_eq, operation.onMeanings_self _ hne]
  · intro operation bc ab ac r r' hbc hr hab hac hr'
    apply hr.eq_of_meaning hr'
    rw [hr.meaning_eq hbc.built, hbc.meaning_eq hc, hr'.meaning_eq hac.built, hab.meaning_eq hb,
      hac.meaning_eq hc, operation.onMeanings_union_left]
  · intro operation ab ac bc r r' hab hr hac hbc hr'
    apply hr.eq_of_meaning hr'
    rw [hr.meaning_eq hc, hab.meaning_eq hb, hr'.meaning_eq hbc.built, hac.meaning_eq hc,
      hbc.meaning_eq hc, operation.onMeanings_union_right]

/-- The empty word and the word `a`, over the symbols of both operands. -/
def atMostA : Automaton :=
  { kind := .dfa
    states := .ofList [0, 1]
    alphabet := .ofList ["a", "b", "c"]
    initial := .ofList [0]
    final := .ofList [0, 1]
    table := .ofEdges [⟨0, "a", 1⟩] }

def alternatingThenA : Automaton :=
  { kind := .dfa
    states := .ofList [0, 1, 2]
    alphabet := .ofList ["a", "b", "c"]
    initial := .ofList [0]
    final := .ofList [2]
    table := .ofEdges [⟨0, "a", 1⟩, ⟨1, "a", 2⟩, ⟨1, "b", 0⟩] }

theorem operations_algebraic_silentCycle :
    (silentCycle.Built ∧ optionalA.Built ∧ onlyA.Built) ∧
    (BinaryOperation.union.Gives silentCycle optionalA alternatingOrEmpty ∧
      BinaryOperation.union.Gives optionalA silentCycle alternatingOrEmpty ∧
      ∀ r', BinaryOperation.union.Gives optionalA silentCycle r' → alternatingOrEmpty = r') ∧
    (BinaryOperation.union.Gives optionalA onlyA atMostA ∧
      BinaryOperation.concatenation.Gives silentCycle atMostA alternatingThenOptionalA ∧
      BinaryOperation.concatenation.Gives silentCycle optionalA alternatingThenOptionalA ∧
      BinaryOperation.concatenation.Gives silentCycle onlyA alternatingThenA ∧
      BinaryOperation.union.Gives alternatingThenOptionalA alternatingThenA alternatingThenOptionalA ∧
      ∀ r', BinaryOperation.union.Gives alternatingThenOptionalA alternatingThenA r' →
        alternatingThenOptionalA = r') := by
  have ha : silentCycle.Built := built_iff.2 ⟨by decide +kernel, by decide +kernel,
    TransitionTable.noEmptyRow_ofEdges _⟩
  have hc : onlyA.Built := built_iff.2 ⟨by decide +kernel, by decide +kernel,
    TransitionTable.noEmptyRow_ofEdges _⟩
  have hab : BinaryOperation.union.Gives silentCycle optionalA alternatingOrEmpty :=
    ⟨none, by decide +kernel⟩
  have hba : BinaryOperation.union.Gives optionalA silentCycle alternatingOrEmpty := ⟨some 9, by decide +kernel⟩
  have hbc : BinaryOperation.union.Gives optionalA onlyA atMostA := ⟨none, by decide +kernel⟩
  have hr : BinaryOperation.concatenation.Gives silentCycle atMostA alternatingThenOptionalA :=
    ⟨none, by decide +kernel⟩
  have hleft : BinaryOperation.concatenation.Gives silentCycle optionalA alternatingThenOptionalA :=
    ⟨some 9, by decide +kernel⟩
  have hright : BinaryOperation.concatenation.Gives silentCycle onlyA alternatingThenA :=
    ⟨none, by decide +kernel⟩
  have hr' : BinaryOperation.union.Gives alternatingThenOptionalA alternatingThenA alternatingThenOptionalA :=
    ⟨none, by decide +kernel⟩
  obtain ⟨hcomm, _, _, hdistrib, _⟩ := operations_algebraic ha built_optionalA hc
  exact ⟨⟨ha, built_optionalA, hc⟩, ⟨hab, hba, fun r' => hcomm .union _ r' (by decide) hab⟩, hbc, hr,
    hleft, hright, hr', fun r' => hdistrib .concatenation _ _ _ _ r' hbc hr hleft hright⟩

end CommandLine

end FiniteAutomata
