import FiniteAutomata.Proofs.Checked
import FiniteAutomata.Proofs.Numbering
import FiniteAutomata.Proofs.Product
import FiniteAutomata.Proofs.SubsetLanguage
import FiniteAutomata.Proofs.Tours

/-! Numbering is defined everywhere. Renumbering adds the position of each state to the start, which is never
too large once the last number has been tried. The searches that number what they find look up the number of
everything that they take from the queue; it is there, because an element gets its number when it is put
into the queue. -/

namespace FiniteAutomata

open Checked

section Renumber

/-- Fails when the last of `count` numbers from `start` on is too large. -/
def checkNumbers (start count : Nat) : Checked Fault Unit :=
  if count = 0 then return ()
  else do
    let last ← defined (checkedSub count 1)
    if (checkedAdd start last).isNone then throw (.idOverflow start count)

/-- The numbers from `start` on for the elements of a list, each the sum of the start and a position. -/
def numbersFrom (start : Nat) (order : List StateId) : Option (List (StateId × StateId)) :=
  order.zipIdx.mapM fun entry => (checkedAdd start entry.2).map fun number => (entry.1, number)

/-- `renumber` with all its sums. -/
def Automaton.renumberChecked (a : Automaton) (start : Nat) : Checked Fault Automaton := do
  let order := a.numberingOrder
  checkNumbers start order.length
  let numbers ← defined (numbersFrom start order)
  return a.relabel fun q => (numbers.lookup q).getD q

variable {start count : Nat} {order : List StateId}

theorem runs_checkNumbers (hfits : count = 0 ∨ start + (count - 1) ≤ StateId.largest) :
    Runs (checkNumbers start count) (.ok ()) := by
  rw [checkNumbers]
  split
  · exact .pure ()
  · next hcount =>
      rw [checkedSub_eq_some (Nat.pos_of_ne_zero hcount)]
      have hlast := checkedAdd_eq_some (hfits.resolve_left hcount)
      show Runs (if (checkedAdd start (count - 1)).isNone then _ else _) _
      rw [hlast]
      exact .pure ()

theorem runs_checkNumbers_overflow (hcount : count ≠ 0) (hlarge : StateId.largest < start + (count - 1)) :
    Runs (checkNumbers start count) (.error (.idOverflow start count)) := by
  rw [checkNumbers, if_neg hcount, checkedSub_eq_some (Nat.pos_of_ne_zero hcount)]
  show Runs (if (checkedAdd start (count - 1)).isNone then _ else _) _
  rw [checkedAdd_eq_none hlarge]
  exact .throw _

/-- All sums are defined when the largest one is. -/
theorem numbersFrom_eq_some (hnodup : order.Nodup)
    (hfits : order.length = 0 ∨ start + (order.length - 1) ≤ StateId.largest) :
    numbersFrom start order = some (order.map fun q => (q, Automaton.numberIn order start q)) := by
  have hsums : numbersFrom start order = some (order.zipIdx.map fun entry => (entry.1, start + entry.2)) := by
    apply mapM_eq_some
    rintro ⟨q, position⟩ hentry
    have hposition : position < order.length := (List.mem_zipIdx' hentry).1
    rw [checkedAdd_eq_some (by omega)]
    rfl
  rw [hsums, Option.some.injEq]
  apply List.ext_getElem
  · rw [List.length_map, List.length_map, List.length_zipIdx]
  · intro i hi _
    rw [List.length_map, List.length_zipIdx] at hi
    rw [List.getElem_map, List.getElem_map, List.getElem_zipIdx,
      Automaton.numberIn_of_mem (List.getElem_mem hi), hnodup.idxOf_getElem, Nat.zero_add]

/-- What the numbers say about a state is its new number; a state without a number keeps its own. -/
theorem lookup_numbers (order : List StateId) (start : Nat) (q : StateId) :
    ((order.map fun q => (q, Automaton.numberIn order start q)).lookup q).getD q =
      Automaton.numberIn order start q := by
  by_cases hq : q ∈ order
  · rw [List.lookup_graph _ hq, Option.getD_some]
  · have hindex : order.idxOf? q = none := List.idxOf?_eq_none_iff.2 hq
    rw [lookup_graph_eq_none hq, Option.getD_none, Automaton.numberIn, hindex]

/-- Renumbering needs no sum that is too large. -/
theorem Automaton.runs_renumberChecked (a : Automaton) (start : Nat) :
    Runs (a.renumberChecked start) (a.renumber start) := by
  by_cases hlarge : a.numberingOrder ≠ [] ∧ StateId.largest < start + (a.numberingOrder.length - 1)
  · have hcount : a.numberingOrder.length ≠ 0 := List.length_eq_zero_iff.not.2 hlarge.1
    rw [renumber_eq, if_pos hlarge]
    exact (runs_checkNumbers_overflow hcount hlarge.2).bind_error
  · have hfits : a.numberingOrder.length = 0 ∨
        start + (a.numberingOrder.length - 1) ≤ StateId.largest := by
      rwa [not_and_or, not_not, Nat.not_lt, ← List.length_eq_zero_iff] at hlarge
    rw [renumber_eq, if_neg hlarge]
    apply (runs_checkNumbers hfits).bind_ok
    apply (Runs.defined (numbersFrom_eq_some a.nodup_numberingOrder hfits)).bind_ok
    simp only [lookup_numbers]
    exact .pure _

end Renumber

section Operations

/-- `SubsetMemo.toAutomaton` with the look-up of each set that is visited. A set becomes final when it is
visited. -/
def SubsetMemo.toAutomatonChecked (m : SubsetMemo) (a : Automaton) : Option Automaton :=
  Tour.run (m.row a.alphabet) (·.any fun q => decide (q ∈ a.final)) (fun _ => false) (1 + m.size)
    (.start (fun _ => false) a.alphabet a.initial)

/-- The automaton of the subsets is defined for every table, complete or not. -/
theorem SubsetMemo.toAutomatonChecked_eq (m : SubsetMemo) (a : Automaton) :
    m.toAutomatonChecked a = some (m.toAutomaton a) := by
  rw [toAutomatonChecked, Tour.run_start (m.rows a.alphabet a.initial), toAutomaton_eq_ofSearch]
  simp only [Bool.or_false]

/-- `Product.automaton` with the look-up of each pair that is visited. A pair becomes final when it is
discovered. -/
def Product.automatonChecked (a b : Automaton) : Option Automaton :=
  match a.initialState?, b.initialState? with
  | some p, some q =>
    let final := fun pair => decide (pair.1 ∈ a.final) && decide (pair.2 ∈ b.final)
    Tour.run (row a b) (fun _ => false) final (1 + a.edgeCount * b.edgeCount)
      (.start final (a.alphabet ∪ b.alphabet) (p, q))
  | _, _ => some (.emptyLanguage (a.alphabet ∪ b.alphabet))

/-- The product is defined for any two automata. -/
theorem Product.automatonChecked_eq (a b : Automaton) : automatonChecked a b = some (automaton a b) := by
  cases hp : a.initialState? with
  | none => rw [automatonChecked, automaton, hp]
  | some p =>
      cases hq : b.initialState? with
      | none => rw [automatonChecked, automaton, hp, hq]
      | some q =>
          rw [automatonChecked, hp, hq, automaton_eq_ofSearch hp hq]
          apply (Tour.run_start (rows_product a b (p, q))).trans
          simp only [Bool.false_or]

end Operations

end FiniteAutomata
