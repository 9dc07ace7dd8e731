import FiniteAutomata.CommandLine.Job
import FiniteAutomata.Proofs.CheckedMerging

/-! Whatever the operations need is defined. Each operation is written once more with every look-up, index, sum
and difference that has to be defined, and it runs to the result of the operation on all automata, also on
those that are not well-formed: the phases that rely on a well-formed automaton come after the check of the
operands, and get it from the phases before them. -/

namespace FiniteAutomata

open Checked

namespace Automaton

variable (a b : Automaton) (limit : Option Nat)

/-- `determinize` with the look-ups of the second search. -/
def determinizeChecked : Checked OperationFailure Automaton := do
  total a.check
  if a.isDeterministic then return a
  if a.initial.isEmpty then return emptyLanguage (a.alphabet.erase epsilon)
  let single ← total a.withSingleInitial
  let epsilonFree := single.eliminateEpsilon
  let memo ← total (SubsetMemo.build epsilonFree limit)
  defined (memo.toAutomatonChecked epsilonFree)

/-- `minimize` with all that pruning, renumbering and merging need. -/
def minimizeChecked : Checked OperationFailure Automaton := do
  let deterministic ← a.determinizeChecked limit
  let trimmed ← defined deterministic.trimChecked
  trimmed.reduceChecked.adapt .invalid

def normalizeChecked : Checked OperationFailure Automaton := do
  let deterministic ← a.determinizeChecked limit
  deterministic.minimizeChecked limit

theorem runs_determinizeChecked : Runs (a.determinizeChecked limit) (a.determinize limit) := by
  refine (Runs.total a.check).bind fun _ _ => ?_
  by_cases hkind : a.isDeterministic = true
  · rw [if_pos hkind, if_pos hkind]
    exact .pure a
  rw [if_neg hkind, if_neg hkind]
  by_cases hinitial : a.initial.isEmpty = true
  · rw [if_pos hinitial, if_pos hinitial]
    exact .pure _
  rw [if_neg hinitial, if_neg hinitial]
  refine (Runs.total a.withSingleInitial).bind fun single _ => ?_
  refine (Runs.total (SubsetMemo.build _ limit)).bind fun memo _ => ?_
  exact .defined (memo.toAutomatonChecked_eq _)

/-- The determinized automaton is well-formed, so it can be pruned, and what is left can be merged. -/
theorem runs_minimizeChecked : Runs (a.minimizeChecked limit) (a.minimize limit) := by
  refine (a.runs_determinizeChecked limit).bind fun d hd => ?_
  obtain ⟨_, hdeterminizes⟩ := determinize_spec hd
  apply (Runs.defined (trimChecked_eq hdeterminizes.valid hdeterminizes.kind)).bind_ok
  have htrimmed := (trim_spec hdeterminizes.valid hdeterminizes.kind).1
  exact (runs_reduceChecked htrimmed (noEmptyRow_trim d)).adapt OperationFailure.invalid

theorem runs_normalizeChecked : Runs (a.normalizeChecked limit) (a.normalize limit) :=
  (a.runs_determinizeChecked limit).bind fun d _ => d.runs_minimizeChecked limit

end Automaton

/-- `DisjointSum.build` with the sums of the renumbering. -/
def DisjointSum.buildChecked (left right : Automaton) : Checked OperationFailure DisjointSum := do
  total left.check
  total right.check
  let start ← total left.freshState
  let above ← (right.renumberChecked start).adapt .invalid
  match above.states.toList.find? fun q => decide (q ∈ left.states) with
  | some q => throw (.collision q)
  | none => return { left, right := above }

theorem DisjointSum.runs_buildChecked (left right : Automaton) :
    Runs (buildChecked left right) (build left right) := by
  refine (Runs.total left.check).bind fun _ _ => ?_
  refine (Runs.total right.check).bind fun _ _ => ?_
  refine (Runs.total left.freshState).bind fun start _ => ?_
  refine ((right.runs_renumberChecked start).adapt OperationFailure.invalid).bind fun above _ => ?_
  cases above.states.toList.find? fun q => decide (q ∈ left.states) with
  | some q => exact .throw _
  | none => exact .pure _

namespace Automaton

variable (a b : Automaton) (limit : Option Nat)

def unionChecked : Checked OperationFailure Automaton := do
  let sum ← DisjointSum.buildChecked a b
  let joined ← total sum.alternatives
  joined.normalizeChecked limit

def concatenationChecked : Checked OperationFailure Automaton := do
  let sum ← DisjointSum.buildChecked a b
  sum.sequence.normalizeChecked limit

/-- `intersection` with the look-ups of the product. -/
def intersectionChecked : Checked OperationFailure Automaton := do
  total a.check
  total b.check
  let left ← a.determinizeChecked limit
  let right ← b.determinizeChecked limit
  let product ← defined (Product.automatonChecked left right)
  product.normalizeChecked limit

theorem runs_unionChecked : Runs (a.unionChecked b limit) (a.union b limit) := by
  refine (DisjointSum.runs_buildChecked a b).bind fun sum _ => ?_
  exact (Runs.total sum.alternatives).bind fun joined _ => joined.runs_normalizeChecked limit

theorem runs_concatenationChecked : Runs (a.concatenationChecked b limit) (a.concatenation b limit) :=
  (DisjointSum.runs_buildChecked a b).bind fun sum _ => sum.sequence.runs_normalizeChecked limit

theorem runs_intersectionChecked : Runs (a.intersectionChecked b limit) (a.intersection b limit) := by
  refine (Runs.total a.check).bind fun _ _ => ?_
  refine (Runs.total b.check).bind fun _ _ => ?_
  refine (a.runs_determinizeChecked limit).bind fun left _ => ?_
  refine (b.runs_determinizeChecked limit).bind fun right _ => ?_
  apply (Runs.defined (Product.automatonChecked_eq left right)).bind_ok
  exact runs_normalizeChecked _ limit

end Automaton

namespace CommandLine

/-- The operation with all that it needs to be defined. -/
def UnaryOperation.applyChecked (limit : Option Nat) :
    UnaryOperation → Automaton → Checked OperationFailure Automaton
  | determinization, a => a.determinizeChecked limit
  | minimization, a => a.minimizeChecked limit

/-- The operation with all that it needs to be defined. -/
def BinaryOperation.applyChecked (limit : Option Nat) :
    BinaryOperation → Automaton → Automaton → Checked OperationFailure Automaton
  | union, a, b => a.unionChecked b limit
  | intersection, a, b => a.intersectionChecked b limit
  | concatenation, a, b => a.concatenationChecked b limit

/-- No operation and no renumbering ever needs a look-up, an index, a sum or a difference that is not defined,
whatever the automata, the limit and the start are. -/
theorem operations_defined :
    (∀ (operation : UnaryOperation) limit a, Runs (operation.applyChecked limit a) (operation.apply limit a)) ∧
    (∀ (operation : BinaryOperation) limit a b,
      Runs (operation.applyChecked limit a b) (operation.apply limit a b)) ∧
    ∀ (a : Automaton) start, Runs (a.renumberChecked start) (a.renumber start) := by
  refine ⟨?_, ?_, ?_⟩
  · intro operation limit a
    cases operation with
    | determinization => exact a.runs_determinizeChecked limit
    | minimization => exact a.runs_minimizeChecked limit
  · intro operation limit a b
    cases operation with
    | union => exact a.runs_unionChecked b limit
    | intersection => exact a.runs_intersectionChecked b limit
    | concatenation => exact a.runs_concatenationChecked b limit
  · exact fun a start => a.runs_renumberChecked start

end CommandLine

end FiniteAutomata
