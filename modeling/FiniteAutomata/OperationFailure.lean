import FiniteAutomata.Automaton.Validation

/-!
Failures of the operations that build one automaton from others.
-/

namespace FiniteAutomata

inductive OperationFailure where
  /-- More sets of states were found than the limit allows. -/
  | limitExceeded (limit : Nat)
  | collision (state : StateId)
  /-- A state above the largest one is needed, and that one is the largest number of all. -/
  | idsExhausted (largest : StateId)
  | invalid (fault : Fault)
deriving DecidableEq

def OperationFailure.message : OperationFailure → String
  | .limitExceeded limit => s!"Subset construction discovered more than {limit} states"
  | .collision q => s!"The state ranges of both operands overlap at state {q}"
  | .idsExhausted q => s!"No state index is available above {q}"
  | .invalid fault => fault.message

theorem bind_eq_ok {ε α β : Type} {x : Except ε α} {f : α → Except ε β} {b : β} :
    (x >>= f) = .ok b ↔ ∃ a, x = .ok a ∧ f a = .ok b := by
  cases x with
  | error e => simp [bind, Except.bind]
  | ok a => simp [bind, Except.bind]

theorem bind_eq_error {ε α β : Type} {x : Except ε α} {f : α → Except ε β} {e : ε} :
    (x >>= f) = .error e ↔ x = .error e ∨ ∃ a, x = .ok a ∧ f a = .error e := by
  cases x with
  | error e' => simp [bind, Except.bind]
  | ok a => simp [bind, Except.bind]

theorem mapError_eq_ok {ε ε' α : Type} {x : Except ε α} {f : ε → ε'} {a : α} :
    x.mapError f = .ok a ↔ x = .ok a := by
  cases x with
  | error e => exact iff_of_false (fun h => nomatch h) (fun h => nomatch h)
  | ok b =>
      refine ⟨fun h => ?_, fun h => ?_⟩
      · cases h
        rfl
      · cases h
        rfl

theorem mapError_eq_error {ε ε' α : Type} {x : Except ε α} {f : ε → ε'} {e' : ε'} :
    x.mapError f = .error e' ↔ ∃ e, x = .error e ∧ f e = e' := by
  cases x with
  | error e =>
      refine ⟨fun h => ⟨e, rfl, Except.error.inj h⟩, ?_⟩
      rintro ⟨_, h, rfl⟩
      cases h
      rfl
  | ok a =>
      refine iff_of_false (fun h => nomatch h) ?_
      rintro ⟨_, h, _⟩
      cases h

namespace Automaton

/-- The smallest number above all states. -/
def freshState (a : Automaton) : Except OperationFailure StateId :=
  match a.largestState? with
  | none => .ok 0
  | some q => if q < StateId.largest then .ok (q + 1) else .error (.idsExhausted q)

theorem freshState_eq_error {a : Automaton} {failure : OperationFailure} : a.freshState = .error failure ↔
    ∃ q, a.largestState? = some q ∧ StateId.largest ≤ q ∧ failure = .idsExhausted q := by
  unfold freshState
  cases hmax : a.largestState? with
  | none => simp
  | some q =>
      by_cases hlt : q < StateId.largest
      · simp [hlt, Nat.not_le.2 hlt]
      · simp [hlt, Nat.not_lt.1 hlt, eq_comm]

theorem lt_of_freshState {a : Automaton} {first q : StateId} (h : a.freshState = .ok first)
    (hq : q ∈ a.states) : q < first := by
  unfold freshState at h
  cases hmax : a.largestState? with
  | none =>
      rw [SortedSet.eq_empty_of_max? hmax] at hq
      exact absurd hq (SortedSet.not_mem_empty q)
  | some m =>
      simp only [hmax] at h
      split at h
      · cases h
        rcases SortedSet.compare_max? hmax hq with rfl | hlt
        · exact Nat.lt_succ_self q
        · exact Nat.lt_succ_of_lt (Nat.compare_eq_lt.1 hlt)
      · cases h

/-- The number is not in use. -/
theorem not_mem_of_freshState {a : Automaton} {first : StateId} (h : a.freshState = .ok first) :
    first ∉ a.states :=
  fun hmem => Nat.lt_irrefl first (lt_of_freshState h hmem)

def check (a : Automaton) : Except OperationFailure Unit := a.validate.mapError .invalid

end Automaton

end FiniteAutomata
