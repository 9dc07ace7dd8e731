/-!
States, symbols and transitions. A state is a natural number of 64 bits, a symbol is any string, and
the transitions of one state are ordered by symbol first and target second.
-/

namespace FiniteAutomata

open Std

abbrev StateId := Nat

def StateId.largest : StateId := 0xFFFFFFFFFFFFFFFF

abbrev Symbol := String

/-- The symbol of the transitions that consume no input. -/
def epsilon : Symbol := "*"

structure Transition where
  symbol : Symbol
  target : StateId
deriving DecidableEq

namespace Transition

instance : Ord Transition := ⟨compareLex (compareOn symbol) (compareOn target)⟩

instance : TransOrd Transition :=
  inferInstanceAs (TransCmp (compareLex (compareOn symbol) (compareOn target)))

instance : LawfulEqOrd Transition where
  compare_self := compareLex_eq_eq.2 ⟨ReflCmp.compare_self, ReflCmp.compare_self⟩
  eq_of_compare {s t} h := by
    obtain ⟨hs, ht⟩ := compareLex_eq_eq.1 h
    obtain ⟨a, q⟩ := s
    obtain ⟨b, r⟩ := t
    obtain rfl : a = b := LawfulEqCmp.compare_eq_iff_eq.1 hs
    obtain rfl : q = r := LawfulEqCmp.compare_eq_iff_eq.1 ht
    rfl

def isEpsilon (t : Transition) : Bool := t.symbol == epsilon

def mapTarget (f : StateId → StateId) (t : Transition) : Transition := { t with target := f t.target }

def describe (t : Transition) : String := s!"({t.symbol}, {t.target})"

/-- A smaller symbol goes first, and under one symbol a smaller target. -/
theorem compare_eq_lt_iff {s t : Transition} :
    compare s t = .lt ↔
      compare s.symbol t.symbol = .lt ∨ s.symbol = t.symbol ∧ compare s.target t.target = .lt := by
  show ((compare s.symbol t.symbol).then (compare s.target t.target)) = .lt ↔ _
  rw [Ordering.then_eq_lt, LawfulEqCmp.compare_eq_iff_eq]

theorem compare_eq_lt_iff_lt {s t : Transition} :
    compare s t = .lt ↔ s.symbol < t.symbol ∨ s.symbol = t.symbol ∧ s.target < t.target := by
  have hsymbol : compare s.symbol t.symbol = .lt ↔ s.symbol < t.symbol := compareOfLessAndEq_eq_lt
  rw [compare_eq_lt_iff, hsymbol, Nat.compare_eq_lt]

end Transition

structure Edge where
  source : StateId
  symbol : Symbol
  target : StateId
deriving DecidableEq

end FiniteAutomata
