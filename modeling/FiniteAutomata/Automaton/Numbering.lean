import FiniteAutomata.Automaton.Validation

/-!
Numbering the states of an automaton in breadth-first order. For a deterministic automaton whose
states are all reached, the new numbers depend on the symbols only and not on the old numbers.
-/

namespace FiniteAutomata.Automaton

/-- The automaton with `f` applied to every state and to both ends of every edge. Where `f` maps the
sources of two rows to one state, the row of the larger source is kept. -/
def relabel (f : StateId → StateId) (a : Automaton) : Automaton :=
  { kind := a.kind
    states := a.states.map f
    alphabet := a.alphabet
    initial := a.initial.map f
    final := a.final.map f
    table := a.table.relabel f }

/-- The states reached from the initial ones, in breadth-first order. -/
def reachable (a : Automaton) : List StateId := a.table.reach (fun _ => true) a.initial.toList

/-- The order in which states are numbered: the reached ones in breadth-first order, then the other
states in ascending order. -/
def numberingOrder (a : Automaton) : List StateId :=
  let reached := a.reachable
  reached ++ a.states.toList.filter fun q => !decide (q ∈ reached)

/-- The number of `q` when the elements of `order` are numbered from `start`; what is not in `order`
keeps its number. -/
def numberIn (order : List StateId) (start : StateId) (q : StateId) : StateId :=
  match order.idxOf? q with
  | some i => start + i
  | none => q

/-- Applies `f` to the states, to their marks and to both ends of every edge, one after another. -/
def relabelInPlace (f : StateId → StateId) : StateM Automaton Unit := do
  modify fun a => { a with states := a.states.map f }
  modify fun a => { a with initial := a.initial.map f }
  modify fun a => { a with final := a.final.map f }
  modify fun a => { a with table := a.table.relabel f }

/-- Numbers the states from `start` in `numberingOrder`, as long as the last number is one that a state
can have. -/
def renumberInPlace (start : StateId) : ExceptT Fault (StateM Automaton) Unit := do
  let order := (← get).numberingOrder
  if order ≠ [] ∧ StateId.largest < start + (order.length - 1) then
    throw (.idOverflow start order.length)
  relabelInPlace (numberIn order start)

/-- A copy of the automaton with its states numbered from `start`. -/
def renumber (a : Automaton) (start : StateId) : Except Fault Automaton :=
  match (renumberInPlace start).run.run a with
  | (.ok (), b) => .ok b
  | (.error fault, _) => .error fault

variable {a : Automaton} {start : StateId}

/-- When the numbers run out, nothing has been assigned yet. -/
theorem run_renumberInPlace : (renumberInPlace start).run.run a =
    if a.numberingOrder ≠ [] ∧ StateId.largest < start + (a.numberingOrder.length - 1) then
      (.error (.idOverflow start a.numberingOrder.length), a)
    else
      (.ok (), a.relabel (numberIn a.numberingOrder start)) := by
  unfold renumberInPlace
  rw [ExceptT.run_bind, StateT.run_bind]
  show StateT.run (ExceptT.run (if a.numberingOrder ≠ [] ∧ _ then _ else _)) a = _
  split
  · rfl
  · rfl

theorem renumber_eq : a.renumber start =
    if a.numberingOrder ≠ [] ∧ StateId.largest < start + (a.numberingOrder.length - 1) then
      .error (.idOverflow start a.numberingOrder.length)
    else
      .ok (a.relabel (numberIn a.numberingOrder start)) := by
  rw [renumber, run_renumberInPlace]
  by_cases hoverflow : a.numberingOrder ≠ [] ∧ StateId.largest < start + (a.numberingOrder.length - 1)
  · rw [if_pos hoverflow, if_pos hoverflow]
  · rw [if_neg hoverflow, if_neg hoverflow]

theorem run_renumberInPlace_of_ok {b : Automaton} (h : a.renumber start = .ok b) :
    (renumberInPlace start).run.run a = (.ok (), b) := by
  unfold renumber at h
  split at h
  · next hrun =>
    cases h
    exact hrun
  · cases h

/-- A renumbering that fails leaves the automaton as it was. -/
theorem run_renumberInPlace_of_error {fault : Fault} (h : a.renumber start = .error fault) :
    (renumberInPlace start).run.run a = (.error fault, a) := by
  rw [renumber_eq] at h
  split at h
  · next hoverflow =>
    cases h
    rw [run_renumberInPlace, if_pos hoverflow]
  · cases h

end FiniteAutomata.Automaton
