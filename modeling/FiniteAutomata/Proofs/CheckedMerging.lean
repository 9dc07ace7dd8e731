import FiniteAutomata.Proofs.CheckedNumbering
import FiniteAutomata.Proofs.Minimization

/-! Minimization needs nothing that is not defined. Pruning counts no more states than there were. What is
left is numbered from zero, so its states are the numbers below their count, and these are the indices of the
table of pairs and of the list of representatives. -/

namespace FiniteAutomata

open Checked

namespace Search

variable {α : Type} [DecidableEq α] {next : α → List α} {next' : α → Option (List α)}

/-- `explore` for successors that have to be defined. It is not defined when the fuel is used up. -/
def exploreChecked (next : α → Option (List α)) : (fuel : Nat) → (done queue : List α) → Option (List α)
  | _, done, [] => some done
  | 0, _, _ :: _ => none
  | fuel + 1, done, a :: queue => do
    let successors ← next a
    exploreChecked next fuel (done ++ [a]) (queue ++ fresh (done ++ a :: queue) successors)

theorem exploreChecked_eq {bound : Nat} {start : List α} {inside : α → Prop}
    (h : Bounded next bound start inside) (hnext : ∀ a, next' a = some (next a)) (fuel : Nat)
    {done queue : List α} (hfrontier : Frontier next done queue) (hinside : ∀ a ∈ done ++ queue, inside a)
    (hfuel : bound ≤ done.length + fuel) :
    exploreChecked next' fuel done queue = some (explore next fuel done queue) := by
  refine h.induction (motive := fun fuel done queue =>
    exploreChecked next' fuel done queue = some (explore next fuel done queue)) ?_ ?_ fuel hfrontier hinside hfuel
  · intro fuel done _
    rw [explore_nil]
    cases fuel <;> rfl
  · intro fuel done a queue hrest
    rw [exploreChecked, hnext, explore]
    exact hrest

end Search

namespace PairTable

variable {t : PairTable} {n i j k l : Nat}

/-- The mark of a pair, which has to be inside the table. -/
def mark? (t : PairTable) (i j : Nat) : Option Bool := t.rows[i]?.bind (·[j]?)

/-- `erase` for a pair that has to be inside the table. -/
def eraseChecked (t : PairTable) (i j : Nat) : Option PairTable := (t.mark? i j).map fun _ => t.erase i j

/-- `representative` with all the marks that it reads. -/
def representativeChecked (t : PairTable) (i : Nat) : Option StateId :=
  ((List.range (i + 1)).findM? fun j => t.mark? i j).map (·.getD i)

/-- The table has an entry for exactly the pairs of numbers below `n`. -/
def Covers (n : Nat) (t : PairTable) : Prop := ∀ i j, (t.mark? i j).isSome ↔ i < n ∧ j < n

theorem Covers.mark?_eq_some (h : Covers n t) (hi : i < n) (hj : j < n) : t.mark? i j = some (t.marked i j) := by
  obtain ⟨b, hb⟩ := Option.isSome_iff_exists.1 ((h i j).2 ⟨hi, hj⟩)
  show t.mark? i j = some ((t.mark? i j).getD false)
  rw [hb]
  rfl

theorem covers_ofPredicate (n : Nat) (p : Nat → Nat → Bool) : Covers n (ofPredicate n p) := by
  intro i j
  by_cases hi : i < n <;> by_cases hj : j < n <;> simp [mark?, ofPredicate, hi, hj]

theorem mark?_erase (t : PairTable) (i j k l : Nat) :
    (t.erase i j).mark? k l = (t.mark? k l).map fun b => b && !(decide (k = i) && decide (l = j)) := by
  rw [mark?, mark?, erase, Array.getElem?_modify]
  by_cases hk : i = k
  · subst hk
    cases t.rows[i]? with
    | none => simp
    | some row =>
        by_cases hl : j = l
        · subst hl
          by_cases hlt : j < row.size <;> simp [hlt]
        · simp [hl, Ne.symm hl]
  · simp [hk, Ne.symm hk]

theorem Covers.erase (h : Covers n t) (i j : Nat) : Covers n (t.erase i j) := by
  intro k l
  rw [mark?_erase, Option.isSome_map]
  exact h k l

theorem Covers.eraseChecked (h : Covers n t) (hi : i < n) (hj : j < n) :
    t.eraseChecked i j = some (t.erase i j) := by
  rw [PairTable.eraseChecked, h.mark?_eq_some hi hj]
  rfl

theorem Covers.representativeChecked (h : Covers n t) (hi : i < n) :
    t.representativeChecked i = some (t.representative i) := by
  have hmarks : ∀ j ∈ List.range (i + 1), t.mark? i j = some (t.marked i j) := by
    intro j hj
    exact h.mark?_eq_some hi (Nat.lt_of_le_of_lt (Nat.le_of_lt_succ (List.mem_range.1 hj)) hi)
  rw [PairTable.representativeChecked, findM?_eq_some hmarks]
  rfl

end PairTable

namespace Automaton

variable {a : Automaton} {t : PairTable} {n i j : Nat}

section Refinement

/-- `edgesAgree` with all the marks that it reads. -/
def edgesAgreeChecked (a : Automaton) (t : PairTable) (i j : StateId) : Option Bool :=
  if (a.row i).size ≠ (a.row j).size then some false
  else (a.row i).toList.allM fun τ =>
    match a.successor? j τ.symbol with
    | some q => t.mark? τ.target q
    | none => some false

/-- `refinePair` with all the marks that it reads and writes. -/
def refinePairChecked (a : Automaton) (t : PairTable) (i j : StateId) : Option PairTable := do
  if !(← t.mark? i j) then return t
  if ← a.edgesAgreeChecked t i j then return t
  let unmarked ← t.eraseChecked i j
  unmarked.eraseChecked j i

def refinePassChecked (a : Automaton) (n : Nat) (t : PairTable) : Option PairTable :=
  (List.range n).foldlM (fun t i => (List.range i).foldlM (fun t j => a.refinePairChecked t i j) t) t

/-- `refineFrom`, which is not defined when the fuel is used up. -/
def refineFromChecked (a : Automaton) (n : Nat) : (fuel : Nat) → PairTable → Option Refinement
  | 0, _ => none
  | fuel + 1, t => do
    let next ← a.refinePassChecked n t
    if next = t then return { table := next, passes := 1 }
    let rest ← refineFromChecked a n fuel next
    return { rest with passes := rest.passes + 1 }

def refinementChecked (a : Automaton) : Option Refinement :=
  let n := a.stateCount
  a.refineFromChecked n (n * n + 1) (.ofPredicate n fun i j => decide (i ∈ a.final) == decide (j ∈ a.final))

variable (htargets : ∀ p s q, a.HasEdge p s q → q < n)

include htargets

theorem edgesAgreeChecked_eq (h : t.Covers n) (i j : StateId) :
    a.edgesAgreeChecked t i j = some (a.edgesAgree t i j) := by
  rw [edgesAgreeChecked, edgesAgree]
  split
  · next hsize => rw [beq_eq_false_iff_ne.2 hsize, Bool.false_and]
  · next hsize =>
      rw [beq_iff_eq.2 (not_not.1 hsize), Bool.true_and]
      apply allM_eq_some
      intro τ hτ
      cases hq : a.successor? j τ.symbol with
      | none => rfl
      | some q => exact h.mark?_eq_some (htargets _ _ _ hτ) (htargets _ _ _ (hasEdge_of_successor? hq))

theorem refinePairChecked_eq (h : t.Covers n) (hi : i < n) (hj : j < n) :
    a.refinePairChecked t i j = some (a.refinePair t i j) ∧ (a.refinePair t i j).Covers n := by
  rw [refinePairChecked, refinePair, h.mark?_eq_some hi hj, edgesAgreeChecked_eq htargets h]
  cases hmarked : t.marked i j with
  | false => exact ⟨rfl, h⟩
  | true =>
      cases hagree : a.edgesAgree t i j with
      | true => exact ⟨rfl, h⟩
      | false =>
          refine ⟨?_, (h.erase i j).erase j i⟩
          show (t.eraseChecked i j >>= fun unmarked => unmarked.eraseChecked j i) = _
          rw [h.eraseChecked hi hj]
          exact (h.erase i j).eraseChecked hj hi

theorem refinePassChecked_eq (h : t.Covers n) :
    a.refinePassChecked n t = some (a.refinePass n t) ∧ (a.refinePass n t).Covers n := by
  refine foldlM_eq_some (PairTable.Covers n) (fun t h i hi => ?_) h
  refine foldlM_eq_some (PairTable.Covers n) (fun t h j hj => ?_) h
  have hi := List.mem_range.1 hi
  exact refinePairChecked_eq htargets h hi ((List.mem_range.1 hj).trans hi)

/-- The passes end before the fuel does, since each of them but the last removes a mark. -/
theorem refineFromChecked_eq (h : t.Covers n) (fuel : Nat) (hfuel : (t.marks n).card < fuel) :
    a.refineFromChecked n fuel t = some (a.refineFrom n fuel t) ∧ (a.refineFrom n fuel t).table.Covers n := by
  induction fuel generalizing t with
  | zero => omega
  | succ fuel ih =>
      obtain ⟨hpass, hcovers⟩ := refinePassChecked_eq htargets h
      rw [refineFromChecked, refineFrom, hpass]
      by_cases hfixed : a.refinePass n t = t
      · rw [if_pos hfixed]
        refine ⟨?_, hcovers⟩
        exact if_pos hfixed
      · have hless := Finset.card_lt_card ((refinePass_eq_or_ssubset).resolve_left hfixed)
        obtain ⟨hrest, hcoversRest⟩ := ih hcovers (by omega)
        rw [if_neg hfixed]
        refine ⟨?_, hcoversRest⟩
        apply (if_neg hfixed).trans
        rw [hrest]
        rfl

theorem refinementChecked_eq (hn : a.stateCount = n) :
    a.refinementChecked = some a.refinement ∧ a.refinement.table.Covers n := by
  subst hn
  exact refineFromChecked_eq htargets (PairTable.covers_ofPredicate _ _) _
    (Nat.lt_succ_of_le (PairTable.card_marks_le _ _))

omit htargets in
/-- A target that is not a number below the count of states is outside the table. -/
example : Option.isNone (refinementChecked
    { kind := .dfa
      states := .ofList [0, 1]
      table := .ofEdges [⟨0, "a", 7⟩, ⟨1, "a", 7⟩] }) = true := by decide

end Refinement

section Quotient

/-- The representatives of all states below `n`. -/
def representativesChecked (n : Nat) (t : PairTable) : Option (List StateId) :=
  (List.range n).mapM t.representativeChecked

/-- `mergedEdges` with the look-up of each target among the representatives. -/
def mergedEdgesChecked (a : Automaton) (representatives : List StateId) (q : StateId) : Option (List Edge) :=
  (a.row q).toList.mapM fun τ => representatives[τ.target]?.map fun target => ⟨q, τ.symbol, target⟩

/-- `quotient` with all look-ups of representatives. -/
def quotientChecked (a : Automaton) (representatives : List StateId) : Option Automaton := do
  let first ← representatives[a.initialState?.getD 0]?
  let kept ← Search.exploreChecked (fun q => (a.mergedEdgesChecked representatives q).map (·.map (·.target)))
    (1 + a.edgeCount) [] [first]
  let edges ← kept.mapM (a.mergedEdgesChecked representatives)
  return {
    kind := .dfa
    states := .ofList kept
    alphabet := a.alphabet
    initial := .ofList [first]
    final := .ofList (kept.filter fun q => decide (q ∈ a.final))
    table := .ofEdges edges.flatten }

theorem representativesChecked_eq (h : t.Covers n) :
    representativesChecked n t = some ((List.range n).map t.representative) :=
  mapM_eq_some fun _ hi => h.representativeChecked (List.mem_range.1 hi)

theorem getElem?_representatives (hi : i < n) :
    ((List.range n).map t.representative)[i]? = some (t.representative i) := by
  rw [List.getElem?_map, List.getElem?_range hi]
  rfl

variable (htargets : ∀ p s q, a.HasEdge p s q → q < n)

include htargets

theorem mergedEdgesChecked_eq (q : StateId) :
    a.mergedEdgesChecked ((List.range n).map t.representative) q = some (a.mergedEdges t q) := by
  apply mapM_eq_some
  intro τ hτ
  rw [getElem?_representatives (htargets _ _ _ hτ)]
  rfl

theorem quotientChecked_eq (hinitial : a.initialState?.getD 0 < n) :
    a.quotientChecked ((List.range n).map t.representative) = some (a.quotient t) := by
  have hnext : ∀ q, (a.mergedEdgesChecked ((List.range n).map t.representative) q).map (·.map (·.target)) =
      some ((a.mergedEdges t q).map (·.target)) := by
    intro q
    rw [mergedEdgesChecked_eq htargets]
    rfl
  have hbounded := bounded_mergedTargets a t
  have hkept := Search.exploreChecked_eq hbounded hnext _ (.init _ _) (Search.inside_of_fresh hbounded)
    (Nat.le_add_left _ _)
  rw [quotientChecked, getElem?_representatives hinitial]
  show (Search.exploreChecked _ _ [] (Search.fresh [] [a.mergedInitial t]) >>= _) = _
  rw [hkept]
  show ((a.keptStates t).mapM (a.mergedEdgesChecked ((List.range n).map t.representative)) >>= _) = _
  rw [mapM_eq_some fun q _ => mergedEdgesChecked_eq htargets q, quotient, List.flatMap_def]
  rfl

end Quotient

section Pruning

/-- `reachablePart` with the number of states that it removes. -/
def reachablePartChecked (a : Automaton) : Option Automaton :=
  match a.initialState? with
  | none => some (emptyLanguage a.alphabet)
  | some first => do
    let part := a.partReachedFrom first
    let _ ← checkedSub a.stateCount part.stateCount
    return part

/-- `usefulPart` with the number of states that it removes, unless the words are the empty language. -/
def usefulPartChecked (a : Automaton) : Option Automaton :=
  let part := a.productivePart
  if a.final.isEmpty || part.initial.isEmpty then some (emptyLanguage a.alphabet)
  else do
    let _ ← checkedSub a.stateCount part.stateCount
    return part

def trimChecked (a : Automaton) : Option Automaton := do
  let reachable ← a.reachablePartChecked
  reachable.usefulPartChecked

variable {first : StateId}

theorem reachablePartChecked_eq (h : a.Valid) (hi : a.initial.toList = [first]) :
    a.reachablePartChecked = some (a.partReachedFrom first) := by
  have hle : (a.partReachedFrom first).stateCount ≤ a.stateCount :=
    stateCount_le_of_subset fun q hq => ((mem_states_partReachedFrom h hi).1 hq).1
  rw [reachablePartChecked, initialState?_of_initial hi]
  show (checkedSub a.stateCount (a.partReachedFrom first).stateCount >>= _) = _
  rw [checkedSub_eq_some hle]
  rfl

theorem usefulPartChecked_eq (h : a.Valid) : a.usefulPartChecked = some a.usefulPart := by
  have hle : a.productivePart.stateCount ≤ a.stateCount :=
    stateCount_le_of_subset fun q hq => ((mem_states_productivePart h).1 hq).1
  rw [usefulPartChecked, usefulPart, checkedSub_eq_some hle]
  split <;> rfl

/-- Pruning a well-formed deterministic automaton counts no state that was not there. -/
theorem trimChecked_eq (h : a.Valid) (hkind : a.kind = .dfa) : a.trimChecked = some a.trim := by
  obtain ⟨first, hi⟩ := (h.deterministic hkind).exists_initial
  rw [trimChecked, reachablePartChecked_eq h hi, trim, reachablePart_of_initial hi]
  exact usefulPartChecked_eq (accessible_partReachedFrom h hi hkind).valid

end Pruning

/-- `reduce` with all the sums, marks and look-ups that it needs. -/
def reduceChecked (a : Automaton) : Checked Fault Automaton := do
  let numbered ← a.renumberChecked 0
  let refinement ← defined numbered.refinementChecked
  let representatives ← defined (representativesChecked numbered.stateCount refinement.table)
  let merged ← defined (numbered.quotientChecked representatives)
  merged.renumberChecked 0

/-- Merging the states of a trimmed automaton reads nothing outside the table and the representatives, since
the states are the numbers below their count. -/
theorem runs_reduceChecked (h : a.Trimmed) (hrows : a.table.NoEmptyRow) : Runs a.reduceChecked a.reduce := by
  refine (a.runs_renumberChecked 0).bind fun numbered hnumbered => ?_
  obtain ⟨htrimmed, _, _⟩ := h.renumber hrows hnumbered
  have hbelow := h.numbered hrows hnumbered
  have htargets : ∀ p s q, numbered.HasEdge p s q → q < numbered.stateCount := fun p s q hedge =>
    (hbelow q).1 (htrimmed.valid.target_mem p s q hedge)
  obtain ⟨hrefinement, hcovers⟩ := refinementChecked_eq htargets rfl
  have hinitial : numbered.initialState?.getD 0 < numbered.stateCount := by
    obtain ⟨first, hi⟩ := htrimmed.deterministic.exists_initial
    rw [initialState?_of_initial hi, Option.getD_some, ← hbelow]
    exact htrimmed.valid.initial_mem first ((mem_initial_of_singleton hi).2 rfl)
  apply (Runs.defined hrefinement).bind_ok
  apply (Runs.defined (representativesChecked_eq hcovers)).bind_ok
  apply (Runs.defined (quotientChecked_eq htargets hinitial)).bind_ok
  exact runs_renumberChecked _ 0

end Automaton

end FiniteAutomata
