/-!
Draws from a stream of 64-bit words. Every draw takes the next word or the next two words of the
stream, so that a stream determines all results.
-/

namespace FiniteAutomata.Random

abbrev WordStream := Nat → UInt64

namespace WordStream

/-- The word that the generator SplitMix64 with this seed makes after `n` others. -/
def splitMix (seed : UInt64) (n : Nat) : UInt64 :=
  let z := seed + UInt64.ofNat (n + 1) * 0x9E3779B97F4A7C15
  let z := (z ^^^ (z >>> 30)) * 0xBF58476D1CE4E5B9
  let z := (z ^^^ (z >>> 27)) * 0x94D049BB133111EB
  z ^^^ (z >>> 31)

def ofList (words : List UInt64) (seed : UInt64) : WordStream := fun n =>
  words[n]?.getD (splitMix seed (n - words.length))

end WordStream

/-- A stream, of which the words before `position` are used up. -/
structure Source where
  words : WordStream
  position : Nat := 0

abbrev Draw := StateM Source

namespace Draw

def word : Draw UInt64 := fun source =>
  (source.words source.position, { source with position := source.position + 1 })

/-- The number of half words. -/
def halfWords : Nat := 0x100000000

def halfWord : Draw Nat := do
  let w ← word
  return w.toNat % halfWords

def isBelow (threshold : UInt64) : Draw Bool := do
  let w ← word
  return decide (w < threshold)

/-- A number below `n`, as the high half of a half word times `n`. When the low half leaves room for a
carry, a second half word decides whether there is one. -/
def below (n : Nat) : Draw Nat := do
  let product := (← halfWord) * n
  let high := product / halfWords
  let low := product % halfWords
  if low > halfWords - n then
    let product := (← halfWord) * n
    return if halfWords ≤ low + product / halfWords then high + 1 else high
  else
    return high

/-- A carry never lifts the result to `n`: below the largest result there is room for it, and at the
largest one the low half is too small. -/
theorem below_lt {n : Nat} (h : 0 < n) (source : Source) : (below n source).1 < n := by
  have hx : (source.words source.position).toNat % halfWords < halfWords := Nat.mod_lt _ (by decide)
  have hmul := Nat.mul_le_mul_right n (Nat.le_sub_one_of_lt hx)
  change (@ite (Draw Nat) _ _ _ _ _).1 < n
  generalize (source.words source.position).toNat % halfWords * n = product at hmul ⊢
  rw [halfWords] at *
  split
  · change (if _ ≤ _ then product / 4294967296 + 1 else product / 4294967296) < n
    split <;> omega
  · change product / 4294967296 < n
    omega

end Draw

end FiniteAutomata.Random
