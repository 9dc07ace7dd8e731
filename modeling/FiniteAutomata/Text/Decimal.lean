import FiniteAutomata.Transition

/-!
State numbers in decimal. What `render` writes, `parse?` reads back.
-/

namespace FiniteAutomata.Text.Decimal

/-- The decimal digits of a number, without leading zeros. -/
def render (n : Nat) : List Char := Nat.toDigits 10 n

def isNumeral (cs : List Char) : Bool := !cs.isEmpty && cs.all Char.isDigit

/-- The number that a text of one digit or more stands for, when a state can have it. -/
def parse? (cs : List Char) : Option StateId :=
  if isNumeral cs ∧ Nat.ofDigitChars 10 cs 0 ≤ StateId.largest then some (Nat.ofDigitChars 10 cs 0)
  else none

theorem isNumeral_render (n : Nat) : isNumeral (render n) = true := by
  simp only [isNumeral, render, Bool.and_eq_true, Bool.not_eq_true', List.all_eq_true]
  exact ⟨by simp, fun c hc => Nat.isDigit_of_mem_toDigits (by decide) (by decide) hc⟩

/-- A number that a state can have is read back from its digits. -/
theorem parse?_render {n : Nat} (h : n ≤ StateId.largest) : parse? (render n) = some n := by
  have hval : Nat.ofDigitChars 10 (render n) 0 = n := Nat.ofDigitChars_toDigits (by decide) (by decide)
  simp [parse?, isNumeral_render, hval, h]

end FiniteAutomata.Text.Decimal
