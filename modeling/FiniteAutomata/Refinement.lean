import FiniteAutomata.Automaton

/-!
Equivalent states of a deterministic automaton with the states 0 to n - 1. A table marks the pairs
that may be equivalent; passes over the table remove marks until a pass removes none.
-/

namespace FiniteAutomata

/-- A mark for some of the pairs of numbers below a bound. -/
structure PairTable where
  rows : Array (Array Bool)
deriving DecidableEq

namespace PairTable

def ofPredicate (n : Nat) (p : Nat → Nat → Bool) : PairTable :=
  ⟨Array.ofFn fun i : Fin n => Array.ofFn fun j : Fin n => p i j⟩

def marked (t : PairTable) (i j : Nat) : Bool := (t.rows[i]?.bind (·[j]?)).getD false

def erase (t : PairTable) (i j : Nat) : PairTable := ⟨t.rows.modify i (·.setIfInBounds j false)⟩

/-- The smallest number up to `i` that has a mark with `i`. -/
def representative (t : PairTable) (i : Nat) : Nat :=
  ((List.range (i + 1)).find? fun j => t.marked i j).getD i

theorem marked_ofPredicate {n i j : Nat} {p : Nat → Nat → Bool} (hi : i < n) (hj : j < n) :
    (ofPredicate n p).marked i j = p i j := by
  simp [marked, ofPredicate, hi, hj]

theorem marked_erase (t : PairTable) (i j k l : Nat) :
    (t.erase i j).marked k l = (t.marked k l && !(decide (k = i) && decide (l = j))) := by
  by_cases hk : k = i
  · subst hk
    cases hr : t.rows[k]? with
    | none => simp [marked, erase, Array.getElem?_modify, hr]
    | some r =>
      by_cases hl : l = j
      · subst hl
        by_cases hlt : l < r.size <;>
          simp [marked, erase, Array.getElem?_modify, hr, hlt]
      · simp [marked, erase, Array.getElem?_modify, hr, hl, Ne.symm hl]
  · simp [marked, erase, Array.getElem?_modify, hk, Ne.symm hk]

end PairTable

/-- The table that a refinement ends with, and the number of passes, of which the last one changes
nothing. -/
structure Refinement where
  table : PairTable
  passes : Nat

namespace Automaton

/-- Whether two states have as many edges, and those of `i` lead under each symbol to targets that are
marked with those of `j`. -/
def edgesAgree (a : Automaton) (t : PairTable) (i j : StateId) : Bool :=
  (a.row i).size == (a.row j).size &&
    (a.row i).toList.all fun τ => (a.successor? j τ.symbol).any fun q => t.marked τ.target q

/-- The table with both marks of a pair removed when the edges of its states do not agree. -/
def refinePair (a : Automaton) (t : PairTable) (i j : StateId) : PairTable :=
  if t.marked i j && !a.edgesAgree t i j then (t.erase i j).erase j i else t

/-- One pass over the pairs below `n`, in ascending order and with the smaller number second. -/
def refinePass (a : Automaton) (n : Nat) (t : PairTable) : PairTable :=
  (List.range n).foldl (fun t i => (List.range i).foldl (fun t j => a.refinePair t i j) t) t

/-- Passes until one changes nothing, at most `fuel` of them. -/
def refineFrom (a : Automaton) (n : Nat) : (fuel : Nat) → PairTable → Refinement
  | 0, t => { table := t, passes := 0 }
  | fuel + 1, t =>
    let next := a.refinePass n t
    if next = t then { table := next, passes := 1 }
    else
      let rest := refineFrom a n fuel next
      { rest with passes := rest.passes + 1 }

/-- The refinement of the pairs of which both or none of the states is final. Each pass but the last
removes a mark, of which there are n². -/
def refinement (a : Automaton) : Refinement :=
  let n := a.stateCount
  a.refineFrom n (n * n + 1) (.ofPredicate n fun i j => decide (i ∈ a.final) == decide (j ∈ a.final))

end Automaton

end FiniteAutomata
