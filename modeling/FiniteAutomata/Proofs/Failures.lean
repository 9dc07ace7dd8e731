import FiniteAutomata.Proofs.Combination
import FiniteAutomata.Proofs.Relabelling

/-! The failures of determinization and minimization without a limit. A well-formed automaton is rejected in
one case only: it needs a new initial state and has no number left for it. The subset construction always
ends, trimming adds no state, and the numbers from 0 on suffice for what is left, so nothing goes wrong after
that as long as the states can be numbered at all. Every automaton on the way is well-formed. -/

namespace FiniteAutomata.Automaton

variable {a b c d m : Automaton} {failure : OperationFailure} {q start : StateId}

section Numbers

/-- All states are numbers of 64 bits. -/
def InRange (a : Automaton) : Prop := ∀ q : Nat, q ∈ a.states → q ≤ StateId.largest

instance (a : Automaton) : Decidable a.InRange :=
  inferInstanceAs (Decidable (∀ q ∈ a.states.toList, q ≤ StateId.largest))

/-- An automaton as a program can hold it: built step by step, from states that are numbers of 64 bits. -/
structure Representable (a : Automaton) : Prop where
  built : a.Built
  inRange : a.InRange

/-- There are no more states than numbers of 64 bits. -/
def Numberable (a : Automaton) : Prop := a.stateCount ≤ StateId.largest + 1

instance (a : Automaton) : Decidable a.Numberable :=
  inferInstanceAs (Decidable (a.stateCount ≤ StateId.largest + 1))

/-- One above the largest state, or 0 when there are no states. -/
def offset (a : Automaton) : Nat :=
  match a.largestState? with
  | none => 0
  | some q => q + 1

theorem largestState?_eq_some_iff : a.largestState? = some q ↔ q ∈ a.states ∧ ∀ p ∈ a.states, p ≤ q := by
  have hle : ∀ {m p}, a.largestState? = some m → p ∈ a.states → p ≤ m := by
    intro m p hmax hp
    rcases SortedSet.compare_max? hmax hp with rfl | hlt
    · exact Nat.le_refl p
    · exact Nat.le_of_lt (Nat.compare_eq_lt.1 hlt)
  refine ⟨?_, ?_⟩
  · intro hmax
    exact ⟨List.mem_of_getLast? hmax, fun p => hle hmax⟩
  · intro hlargest
    obtain ⟨hq, habove⟩ := hlargest
    cases hmax : a.largestState? with
    | none =>
        rw [SortedSet.eq_empty_of_max? hmax] at hq
        exact absurd hq (SortedSet.not_mem_empty q)
    | some m => rw [Nat.le_antisymm (habove m (List.mem_of_getLast? hmax)) (hle hmax hq)]

theorem InRange.largestState?_iff (h : a.InRange) :
    a.largestState? = some StateId.largest ↔ StateId.largest ∈ a.states :=
  largestState?_eq_some_iff.trans (and_iff_left h)

/-- The largest number of all is the only one that has no successor. -/
theorem InRange.freshState_eq (h : a.InRange) :
    a.freshState = if a.largestState? = some StateId.largest then .error (.idsExhausted StateId.largest)
      else .ok a.offset := by
  unfold freshState offset
  cases hmax : a.largestState? with
  | none => simp
  | some q =>
      have hle := h q (largestState?_eq_some_iff.1 hmax).1
      by_cases heq : q = StateId.largest
      · simp [heq]
      · simp [heq, Nat.lt_of_le_of_ne hle heq]

theorem InRange.freshState_eq_error (h : a.InRange) : a.freshState = .error failure ↔
    a.largestState? = some StateId.largest ∧ failure = .idsExhausted StateId.largest := by
  rw [h.freshState_eq]
  split
  · next hlargest => simp [hlargest, eq_comm]
  · next hlargest => simp [hlargest]

theorem le_largest_of_freshState (hfresh : a.freshState = .ok start) : start ≤ StateId.largest := by
  unfold freshState at hfresh
  split at hfresh
  · cases hfresh
    exact Nat.zero_le _
  · split at hfresh
    · next hlt =>
        cases hfresh
        exact hlt
    · cases hfresh

end Numbers

/-- The failures of determinization and of minimization. -/
inductive Rejects (a : Automaton) : OperationFailure → Prop where
  | invalid {fault : Fault} (hfault : a.validate = .error fault) : Rejects a (.invalid fault)
  | exhausted (hvalidate : a.validate = .ok ()) (hkind : a.kind = .nfa) (hinitial : 2 ≤ a.initial.size)
      (hlargest : a.largestState? = some StateId.largest) : Rejects a (.idsExhausted StateId.largest)

theorem rejects_of_fault {fault : Fault} (hfault : a.validate = .error fault) :
    a.Rejects failure ↔ failure = .invalid fault := by
  refine ⟨fun h => ?_, ?_⟩
  · cases h with
    | invalid hfault' =>
        rw [hfault] at hfault'
        cases hfault'
        rfl
    | exhausted hvalidate =>
        rw [hfault] at hvalidate
        cases hvalidate
  · rintro rfl
    exact .invalid hfault

theorem Valid.rejects_iff (h : a.Valid) : a.Rejects failure ↔ a.kind = .nfa ∧ 2 ≤ a.initial.size ∧
    a.largestState? = some StateId.largest ∧ failure = .idsExhausted StateId.largest := by
  have hvalidate := validate_eq_ok_iff.2 h
  refine ⟨fun hrejects => ?_, ?_⟩
  · cases hrejects with
    | invalid hfault =>
        rw [hvalidate] at hfault
        cases hfault
    | exhausted _ hkind hinitial hlargest => exact ⟨hkind, hinitial, hlargest, rfl⟩
  · rintro ⟨hkind, hinitial, hlargest, rfl⟩
    exact .exhausted hvalidate hkind hinitial hlargest

/-- Without a limit a well-formed automaton is determinized unless it needs a state that it cannot have. -/
theorem determinize_eq_error (hrange : a.InRange) :
    a.determinize none = .error failure ↔ a.Rejects failure := by
  cases hvalidate : a.validate with
  | error fault =>
      have hfails : a.determinize none = .error (.invalid fault) := by
        rw [determinize, check, hvalidate]
        rfl
      rw [rejects_of_fault hvalidate, hfails, Except.error.injEq, eq_comm]
  | ok =>
      have h := validate_eq_ok_iff.1 hvalidate
      rw [h.rejects_iff]
      cases hkind : a.kind with
      | dfa =>
          rw [determinize_eq_self h hkind]
          refine iff_of_false ?_ ?_
          · rintro ⟨⟩
          · rintro ⟨⟨⟩, _⟩
      | nfa =>
          by_cases hinitial : a.initial = ∅
          · have hd : a.determinize none = .ok (emptyLanguage (a.alphabet.erase epsilon)) :=
              determinize_eq_ok.2 ⟨h, .inr ⟨by simp [hkind], .inl ⟨hinitial, rfl⟩⟩⟩
            rw [hd, hinitial]
            refine iff_of_false ?_ fun hmore => absurd hmore.2.1 (by decide)
            rintro ⟨⟩
          · rw [determinize_eq h hkind hinitial, bind_eq_error, withSingleInitial_eq_error,
              hrange.freshState_eq_error, and_iff_right rfl, or_iff_left]
            rintro ⟨_, _, hok⟩
            cases hok

section Marks

theorem rowFault?_ne_unknownState {p q : StateId} {seen : List Symbol} {ts : List Transition} :
    rowFault? p seen ts ≠ some (.unknownState q) := by
  induction ts generalizing seen with
  | nil => rintro ⟨⟩
  | cons t ts ih =>
      rw [rowFault?]
      split
      · rintro ⟨⟩
      split
      · rintro ⟨⟩
      · exact ih

theorem determinismFault?_ne_unknownState : a.determinismFault? ≠ some (.unknownState q) := by
  rw [determinismFault?]
  split
  · rintro ⟨⟩
  split
  · rintro ⟨⟩
  · intro hfault
    obtain ⟨_, _, hrow⟩ := List.exists_of_findSome?_eq_some hfault
    exact rowFault?_ne_unknownState hrow

theorem edgeFault?_ne_unknownState {e : Edge} : a.edgeFault? e ≠ some (.unknownState q) := by
  rw [edgeFault?]
  split
  · rintro ⟨⟩
  split <;> rintro ⟨⟩

/-- The marks of an automaton that was built step by step are on its states. -/
theorem Built.validate_ne_unknownState (h : a.Built) : a.validate ≠ .error (.unknownState q) := by
  have hfirst : a.firstFault? ≠ some (.unknownState q) := by
    intro hfault
    rcases (Option.orElse_eq_some _ _ _).1 hfault with hmark | ⟨_, hfault⟩
    · rw [markFault?_eq_none.2 h.marks_mem] at hmark
      cases hmark
    rcases (Option.orElse_eq_some _ _ _).1 hfault with hedge | ⟨_, hkind⟩
    · obtain ⟨_, _, hedge⟩ := List.exists_of_findSome?_eq_some hedge
      exact edgeFault?_ne_unknownState hedge
    · split at hkind
      · exact determinismFault?_ne_unknownState hkind
      · cases hkind
  rw [validate]
  split
  · next fault hfault =>
      rintro ⟨⟩
      exact hfirst hfault
  · rintro ⟨⟩

end Marks

/-- No failure is a collision of numbers or a mark on an unknown state. -/
theorem Rejects.ne_collision (ha : a.Built) (h : a.Rejects failure) (q : StateId) :
    failure ≠ .collision q ∧ failure ≠ .invalid (.unknownState q) := by
  cases h with
  | invalid hfault =>
      refine ⟨nofun, ?_⟩
      rintro ⟨⟩
      exact ha.validate_ne_unknownState hfault
  | exhausted => exact ⟨nofun, nofun⟩

section Totality

variable (hd : a.determinize none = .ok d) (hcount : d.Numberable)

include hd hcount

/-- What is determinized is also minimized, as long as its states can be numbered. -/
theorem exists_minimize : ∃ m, a.minimize none = .ok m := by
  have hdeterminizes := (determinize_spec hd).2
  have htrimmed := (trim_spec hdeterminizes.valid hdeterminizes.kind).1
  have hle := stateCount_trim_le hdeterminizes.valid hdeterminizes.kind
  obtain ⟨m, hm⟩ := exists_reduce htrimmed (noEmptyRow_trim d) (hle.trans hcount)
  exact ⟨m, bind_eq_ok.2 ⟨d, hd, mapError_eq_ok.2 hm⟩⟩

theorem exists_normalize : ∃ m, a.normalize none = .ok m := by
  obtain ⟨m, hm⟩ := exists_minimize hd hcount
  exact ⟨m, bind_eq_ok.2 ⟨d, hd, (minimize_determinize hd).trans hm⟩⟩

end Totality

section Sequel

variable (hrange : a.InRange) (hcount : ∀ d, a.determinize none = .ok d → d.Numberable)

include hrange hcount

/-- Minimization fails with the determinization. -/
theorem minimize_eq_error : a.minimize none = .error failure ↔ a.Rejects failure := by
  rw [minimize, bind_eq_error, determinize_eq_error hrange, or_iff_left]
  rintro ⟨d, hd, herror⟩
  obtain ⟨m, hm⟩ := exists_minimize hd (hcount d hd)
  obtain ⟨_, hd', hm⟩ := bind_eq_ok.1 hm
  rw [hd] at hd'
  cases hd'
  rw [hm] at herror
  cases herror

theorem normalize_eq_error : a.normalize none = .error failure ↔ a.Rejects failure := by
  rw [normalize, bind_eq_error, determinize_eq_error hrange, or_iff_left]
  rintro ⟨d, hd, herror⟩
  obtain ⟨m, hm⟩ := exists_minimize hd (hcount d hd)
  rw [minimize_determinize hd, hm] at herror
  cases herror

end Sequel

section Phases

/-- The automaton with at most one initial state that a determinization goes on with. -/
structure Simplifies (a single : Automaton) : Prop where
  validate : a.validate = .ok ()
  kind : a.kind = .nfa
  initial : a.initial ≠ ∅
  result : a.withSingleInitial = .ok single

/-- The automata that a determinization builds, one after the other. -/
inductive DeterminizationPhase (a : Automaton) : Automaton → Prop where
  | single {single : Automaton} (h : a.Simplifies single) : DeterminizationPhase a single
  | epsilonFree {single : Automaton} (h : a.Simplifies single) : DeterminizationPhase a single.eliminateEpsilon
  | result {d : Automaton} (hd : a.determinize none = .ok d) : DeterminizationPhase a d

/-- The automata that a minimization builds, one after the other. -/
inductive MinimizationPhase (a : Automaton) : Automaton → Prop where
  | determinization {c : Automaton} (h : a.DeterminizationPhase c) : MinimizationPhase a c
  | reachablePart {d : Automaton} (hd : a.determinize none = .ok d) : MinimizationPhase a d.reachablePart
  | trim {d : Automaton} (hd : a.determinize none = .ok d) : MinimizationPhase a d.trim
  | numbered {d b : Automaton} (hd : a.determinize none = .ok d) (hb : d.trim.renumber 0 = .ok b) :
      MinimizationPhase a b
  | quotient {d b : Automaton} (hd : a.determinize none = .ok d) (hb : d.trim.renumber 0 = .ok b) :
      MinimizationPhase a (b.quotient b.refinement.table)
  | result {m : Automaton} (hm : a.minimize none = .ok m) : MinimizationPhase a m

/-- The automata that a determinization with a minimization after it builds. -/
inductive NormalizationPhase (a : Automaton) : Automaton → Prop where
  | determinization {c : Automaton} (h : a.DeterminizationPhase c) : NormalizationPhase a c
  | minimization {d c : Automaton} (hd : a.determinize none = .ok d) (h : d.MinimizationPhase c) :
      NormalizationPhase a c

theorem DeterminizationPhase.valid (h : a.DeterminizationPhase c) : c.Valid := by
  cases h with
  | single h => exact (withSingleInitial_spec (validate_eq_ok_iff.1 h.validate) h.result).1
  | epsilonFree h => exact (withSingleInitial_spec (validate_eq_ok_iff.1 h.validate) h.result).1.eliminateEpsilon
  | result hd => exact (determinize_spec hd).2.valid

theorem MinimizationPhase.valid (h : a.MinimizationPhase c) : c.Valid := by
  have htrimmed : ∀ {d}, a.determinize none = .ok d → d.trim.Trimmed := fun hd =>
    (trim_spec (determinize_spec hd).2.valid (determinize_spec hd).2.kind).1
  cases h with
  | determinization h => exact h.valid
  | reachablePart hd =>
      have hdeterminizes := (determinize_spec hd).2
      obtain ⟨i, hi⟩ := (hdeterminizes.valid.deterministic hdeterminizes.kind).exists_initial
      rw [reachablePart_of_initial hi]
      exact (accessible_partReachedFrom hdeterminizes.valid hi hdeterminizes.kind).valid
  | trim hd => exact (htrimmed hd).valid
  | numbered hd hb => exact ((htrimmed hd).renumber (noEmptyRow_trim _) hb).1.valid
  | quotient hd hb =>
      have hrows := noEmptyRow_trim
      exact (reduced_merged ((htrimmed hd).renumber (hrows _) hb).1 ((htrimmed hd).numbered (hrows _) hb)).valid
  | result hm => exact (minimize_spec hm).2.reduced.valid

theorem NormalizationPhase.valid (h : a.NormalizationPhase c) : c.Valid := by
  cases h with
  | determinization h => exact h.valid
  | minimization _ h => exact h.valid

end Phases

end FiniteAutomata.Automaton
