import FiniteAutomata.CommandLine.Job
import FiniteAutomata.Proofs.Failures

/-! The failures of the operations on two automata without a limit. A sum can fail at four places, in this
order: at the validation of the operands, at the number above the left states, at the last number of the right
states, and at the number for a new initial state above all of them. The third and the fourth place are one
number apart. Behind a sum or a product nothing fails that the determinization of it would not report, and the
automata handed over there are well-formed. -/

namespace FiniteAutomata

open Automaton

variable {a b c above : Automaton} {sum : DisjointSum} {failure : OperationFailure}

namespace DisjointSum

/-- The failures of an operation on a sum, where `fresh` says whether a state above all others is needed. -/
inductive Rejects (a b : Automaton) (fresh : Prop) : OperationFailure → Prop where
  | left {fault : Fault} (hleft : a.validate = .error fault) : Rejects a b fresh (.invalid fault)
  | right {fault : Fault} (hleft : a.validate = .ok ()) (hright : b.validate = .error fault) :
      Rejects a b fresh (.invalid fault)
  | exhausted (hleft : a.validate = .ok ()) (hright : b.validate = .ok ())
      (hlargest : a.largestState? = some StateId.largest) : Rejects a b fresh (.idsExhausted StateId.largest)
  | overflow (hleft : a.validate = .ok ()) (hright : b.validate = .ok ())
      (hlargest : a.largestState? ≠ some StateId.largest) (hcount : 0 < b.stateCount)
      (hlast : a.offset + b.stateCount - 1 > StateId.largest) :
      Rejects a b fresh (.invalid (.idOverflow a.offset b.stateCount))
  | noneAbove (hleft : a.validate = .ok ()) (hright : b.validate = .ok ())
      (hlargest : a.largestState? ≠ some StateId.largest) (hcount : 0 < b.stateCount)
      (hlast : a.offset + b.stateCount - 1 = StateId.largest) (hfresh : fresh) :
      Rejects a b fresh (.idsExhausted StateId.largest)

theorem Rejects.ne_collision {fresh : Prop} (ha : a.Built) (hb : b.Built) (h : Rejects a b fresh failure)
    (q : StateId) : failure ≠ .collision q ∧ failure ≠ .invalid (.unknownState q) := by
  cases h with
  | left hleft => exact Automaton.Rejects.ne_collision ha (.invalid hleft) q
  | right _ hright => exact Automaton.Rejects.ne_collision hb (.invalid hright) q
  | exhausted | overflow | noneAbove => exact ⟨nofun, nofun⟩

section Build

variable (ha : a.Valid) (hb : b.Valid) (hrange : a.InRange)

include ha hb hrange

/-- The first number for the right states is missing. -/
theorem build_of_largest (hlargest : a.largestState? = some StateId.largest) :
    build a b = .error (.idsExhausted StateId.largest) := by
  have hfresh := hrange.freshState_eq_error.2 ⟨hlargest, rfl⟩
  refine bind_eq_error.2 (.inr ⟨(), check_eq_ok_iff.2 ha, ?_⟩)
  refine bind_eq_error.2 (.inr ⟨(), check_eq_ok_iff.2 hb, ?_⟩)
  exact bind_eq_error.2 (.inl hfresh)

variable (hlargest : a.largestState? ≠ some StateId.largest)

include hlargest

/-- The last number for the right states is missing. -/
theorem build_of_overflow (hoverflow : 0 < b.stateCount ∧ a.offset + b.stateCount - 1 > StateId.largest) :
    build a b = .error (.invalid (.idOverflow a.offset b.stateCount)) := by
  have hfresh : a.freshState = .ok a.offset := by rw [hrange.freshState_eq, if_neg hlargest]
  have hrenumber := (renumber_eq_error hb).2 ⟨rfl, hoverflow⟩
  refine bind_eq_error.2 (.inr ⟨(), check_eq_ok_iff.2 ha, ?_⟩)
  refine bind_eq_error.2 (.inr ⟨(), check_eq_ok_iff.2 hb, ?_⟩)
  refine bind_eq_error.2 (.inr ⟨a.offset, hfresh, ?_⟩)
  exact bind_eq_error.2 (.inl (mapError_eq_error.2 ⟨_, hrenumber, rfl⟩))

/-- When no number is missing there is a sum, since the right states get numbers above the left ones. -/
theorem build_of_fits (hrows : b.table.NoEmptyRow)
    (hfits : ¬ (0 < b.stateCount ∧ a.offset + b.stateCount - 1 > StateId.largest)) :
    ∃ above, build a b = .ok ⟨a, above⟩ ∧
      ∀ q : Nat, q ∈ above.states ↔ a.offset ≤ q ∧ q < a.offset + b.stateCount := by
  have hfresh : a.freshState = .ok a.offset := by rw [hrange.freshState_eq, if_neg hlargest]
  have habove := exists_renumber hb hfits
  have hnumbers := (renumber_spec hb hrows habove).2.2.2.2
  refine ⟨_, ?_, hnumbers⟩
  refine bind_eq_ok.2 ⟨(), check_eq_ok_iff.2 ha, bind_eq_ok.2 ⟨(), check_eq_ok_iff.2 hb, ?_⟩⟩
  refine bind_eq_ok.2 ⟨a.offset, hfresh, bind_eq_ok.2 ⟨_, mapError_eq_ok.2 habove, ?_⟩⟩
  split
  · next q hfound =>
      have hleft : q ∈ a.states := by simpa using List.find?_some hfound
      have hright := ((hnumbers q).1 (List.mem_of_find?_eq_some hfound)).1
      exact absurd (lt_of_freshState hfresh hleft) (Nat.not_lt.2 hright)
  · rfl

end Build

theorem build_of_left {fault : Fault} (hleft : a.validate = .error fault) :
    build a b = .error (.invalid fault) :=
  bind_eq_error.2 (.inl (mapError_eq_error.2 ⟨fault, hleft, rfl⟩))

theorem build_of_right {fault : Fault} (hleft : a.validate = .ok ()) (hright : b.validate = .error fault) :
    build a b = .error (.invalid fault) := by
  refine bind_eq_error.2 (.inr ⟨(), mapError_eq_ok.2 hleft, ?_⟩)
  exact bind_eq_error.2 (.inl (mapError_eq_error.2 ⟨fault, hright, rfl⟩))

section Outcome

variable (hrange : a.InRange) (hrows : b.table.NoEmptyRow)

include hrange hrows

/-- When there is no sum, one of the first four reasons applies. -/
theorem rejects_of_build {fresh : Prop} (hbuild : build a b = .error failure) : Rejects a b fresh failure := by
  cases hleft : a.validate with
  | error fault =>
      rw [build_of_left hleft] at hbuild
      cases hbuild
      exact .left hleft
  | ok =>
      cases hright : b.validate with
      | error fault =>
          rw [build_of_right hleft hright] at hbuild
          cases hbuild
          exact .right hleft hright
      | ok =>
          have ha := validate_eq_ok_iff.1 hleft
          have hb := validate_eq_ok_iff.1 hright
          by_cases hlargest : a.largestState? = some StateId.largest
          · rw [build_of_largest ha hb hrange hlargest] at hbuild
            cases hbuild
            exact .exhausted hleft hright hlargest
          by_cases hoverflow : 0 < b.stateCount ∧ a.offset + b.stateCount - 1 > StateId.largest
          · rw [build_of_overflow ha hb hrange hlargest hoverflow] at hbuild
            cases hbuild
            exact .overflow hleft hright hlargest hoverflow.1 hoverflow.2
          · obtain ⟨above, hsum, _⟩ := build_of_fits ha hb hrange hlargest hrows hoverflow
            rw [hsum] at hbuild
            cases hbuild

/-- When there is a sum, no number is missing for its states. -/
theorem fits_of_build (hsum : build a b = .ok sum) : a.largestState? ≠ some StateId.largest ∧
    ¬ (0 < b.stateCount ∧ a.offset + b.stateCount - 1 > StateId.largest) ∧
    ∀ q : Nat, q ∈ sum.automaton.states ↔ q ∈ a.states ∨ a.offset ≤ q ∧ q < a.offset + b.stateCount := by
  obtain ⟨ha, hb, _⟩ := exists_of_build hsum
  have hlargest : a.largestState? ≠ some StateId.largest := by
    intro hlargest
    rw [build_of_largest ha hb hrange hlargest] at hsum
    cases hsum
  have hfits : ¬ (0 < b.stateCount ∧ a.offset + b.stateCount - 1 > StateId.largest) := by
    intro hoverflow
    rw [build_of_overflow ha hb hrange hlargest hoverflow] at hsum
    cases hsum
  obtain ⟨above, hsum', habove⟩ := build_of_fits ha hb hrange hlargest hrows hfits
  rw [hsum'] at hsum
  cases hsum
  refine ⟨hlargest, hfits, fun q => ?_⟩
  rw [← habove]
  exact SortedSet.mem_union

theorem inRange_automaton (hsum : build a b = .ok sum) : sum.automaton.InRange := by
  obtain ⟨_, hfits, hmem⟩ := fits_of_build hrange hrows hsum
  intro q hq
  rcases (hmem q).1 hq with hq | hq
  · exact hrange q hq
  · omega

/-- The largest number of a sum is that of the last right state, unless there are no right states. -/
theorem largestState?_automaton_iff (hsum : build a b = .ok sum) :
    sum.automaton.largestState? = some StateId.largest ↔
      0 < b.stateCount ∧ a.offset + b.stateCount - 1 = StateId.largest := by
  obtain ⟨hlargest, hfits, hmem⟩ := fits_of_build hrange hrows hsum
  rw [ne_eq, hrange.largestState?_iff] at hlargest
  rw [(inRange_automaton hrange hrows hsum).largestState?_iff, hmem, or_iff_right hlargest]
  omega

/-- An operation on a sum is rejected at the sum, or because it needs a state above the largest number. -/
theorem bind_build_eq_error {f : DisjointSum → Except OperationFailure Automaton} {fresh : Prop}
    (hf : ∀ sum, build a b = .ok sum → (f sum = .error failure ↔
      fresh ∧ sum.automaton.largestState? = some StateId.largest ∧ failure = .idsExhausted StateId.largest)) :
    (build a b >>= f) = .error failure ↔ Rejects a b fresh failure := by
  rw [bind_eq_error]
  refine ⟨?_, fun hrejects => ?_⟩
  · rintro (hbuild | ⟨sum, hsum, herror⟩)
    · exact rejects_of_build hrange hrows hbuild
    · obtain ⟨hfresh, hlast, rfl⟩ := (hf sum hsum).1 herror
      obtain ⟨hlargest, _, _⟩ := fits_of_build hrange hrows hsum
      obtain ⟨ha, hb, _⟩ := exists_of_build hsum
      obtain ⟨hcount, hlast⟩ := (largestState?_automaton_iff hrange hrows hsum).1 hlast
      exact .noneAbove (validate_eq_ok_iff.2 ha) (validate_eq_ok_iff.2 hb) hlargest hcount hlast hfresh
  · cases hrejects with
    | left hleft => exact .inl (build_of_left hleft)
    | right hleft hright => exact .inl (build_of_right hleft hright)
    | exhausted hleft hright hlargest =>
        exact .inl (build_of_largest (validate_eq_ok_iff.1 hleft) (validate_eq_ok_iff.1 hright) hrange hlargest)
    | overflow hleft hright hlargest hcount hlast =>
        exact .inl (build_of_overflow (validate_eq_ok_iff.1 hleft) (validate_eq_ok_iff.1 hright) hrange hlargest
          ⟨hcount, hlast⟩)
    | noneAbove hleft hright hlargest hcount hlast hfresh =>
        have hfits : ¬ (0 < b.stateCount ∧ a.offset + b.stateCount - 1 > StateId.largest) := by
          rw [hlast]
          exact fun hoverflow => Nat.lt_irrefl _ hoverflow.2
        obtain ⟨above, hsum, _⟩ := build_of_fits (validate_eq_ok_iff.1 hleft) (validate_eq_ok_iff.1 hright)
          hrange hlargest hrows hfits
        have hsumlargest := (largestState?_automaton_iff hrange hrows hsum).2 ⟨hcount, hlast⟩
        exact .inr ⟨_, hsum, (hf _ hsum).2 ⟨hfresh, hsumlargest, rfl⟩⟩

end Outcome

section Combined

variable (h : sum.Separate) (hrange : sum.automaton.InRange)

include h hrange

/-- Both automata started together need a state above all others, and nothing else is missing. -/
theorem normalize_alternatives_eq_error
    (hcount : ∀ c d, sum.alternatives = .ok c → c.determinize none = .ok d → d.Numberable) :
    (sum.alternatives >>= (·.normalize none)) = .error failure ↔
      sum.automaton.largestState? = some StateId.largest ∧ failure = .idsExhausted StateId.largest := by
  have hmarked : sum.marked.InRange := hrange
  rw [bind_eq_error, or_iff_left]
  · rw [alternatives, bind_eq_error, or_iff_left]
    · exact hmarked.freshState_eq_error
    · rintro ⟨_, _, hok⟩
      cases hok
  · rintro ⟨c, hc, herror⟩
    obtain ⟨first, hfresh, rfl⟩ := exists_of_alternatives hc
    have hstates : (sum.marked.startingFrom first).InRange := by
      intro q hq
      rcases mem_states_startingFrom.1 hq with rfl | hq
      · exact le_largest_of_freshState hfresh
      · exact hmarked q hq
    rw [normalize_eq_error hstates fun d => hcount _ d hc,
      ((valid_marked h).startingFrom first).rejects_iff] at herror
    have hone : (sum.marked.startingFrom first).initial.size = 1 := rfl
    rw [hone] at herror
    exact absurd herror.2.1 (by decide)

/-- Both automata in a row need a new initial state when the left one has several. -/
theorem normalize_sequence_eq_error (hcount : ∀ d, sum.sequence.determinize none = .ok d → d.Numberable) :
    sum.sequence.normalize none = .error failure ↔ 2 ≤ sum.left.initial.size ∧
      sum.automaton.largestState? = some StateId.largest ∧ failure = .idsExhausted StateId.largest := by
  have hstates : sum.sequence.InRange := hrange
  rw [normalize_eq_error hstates hcount, (valid_sequence h).rejects_iff]
  exact and_iff_right rfl

end Combined

/-- The automata that an operation on a sum builds, where `combine` makes one automaton of the sum. -/
inductive Phase (combine : DisjointSum → Except OperationFailure Automaton) (a b : Automaton) :
    Automaton → Prop where
  | right {sum : DisjointSum} (hsum : build a b = .ok sum) : Phase combine a b sum.right
  | merged {sum : DisjointSum} (hsum : build a b = .ok sum) : Phase combine a b sum.automaton
  | combined {sum : DisjointSum} {c : Automaton} (hsum : build a b = .ok sum) (hc : combine sum = .ok c) :
      Phase combine a b c
  | normalization {sum : DisjointSum} {c d : Automaton} (hsum : build a b = .ok sum)
      (hc : combine sum = .ok c) (h : c.NormalizationPhase d) : Phase combine a b d

theorem Separate.valid_merged (h : sum.Separate) : sum.automaton.Valid where
  initial_mem q hq := absurd hq (SortedSet.not_mem_empty q)
  final_mem q hq := absurd hq (SortedSet.not_mem_empty q)
  source_mem := (valid_marked h).source_mem
  target_mem := (valid_marked h).target_mem
  symbol_mem := (valid_marked h).symbol_mem
  deterministic hkind := by cases hkind

theorem Phase.valid {combine : DisjointSum → Except OperationFailure Automaton} (hrows : b.table.NoEmptyRow)
    (hcombine : ∀ sum c, sum.Separate → combine sum = .ok c → c.Valid) (h : Phase combine a b c) : c.Valid := by
  cases h with
  | right hsum => exact (joins_of_build hrows hsum).separate.right
  | merged hsum => exact (joins_of_build hrows hsum).separate.valid_merged
  | combined hsum hc => exact hcombine _ _ (joins_of_build hrows hsum).separate hc
  | normalization _ _ h => exact h.valid

end DisjointSum

namespace Product

/-- The failures of an operation on a product. -/
inductive Rejects (a b : Automaton) : OperationFailure → Prop where
  | left {fault : Fault} (hleft : a.validate = .error fault) : Rejects a b (.invalid fault)
  | right {fault : Fault} (hleft : a.validate = .ok ()) (hright : b.validate = .error fault) :
      Rejects a b (.invalid fault)
  | leftDeterminization {failure : OperationFailure} (hleft : a.validate = .ok ()) (hright : b.validate = .ok ())
      (hrejects : a.Rejects failure) : Rejects a b failure
  | rightDeterminization {failure : OperationFailure} (hleft : a.validate = .ok ()) (hright : b.validate = .ok ())
      (hnone : ∀ failure, ¬ a.Rejects failure) (hrejects : b.Rejects failure) : Rejects a b failure

theorem Rejects.ne_collision (ha : a.Built) (hb : b.Built) (h : Rejects a b failure) (q : StateId) :
    failure ≠ .collision q ∧ failure ≠ .invalid (.unknownState q) := by
  cases h with
  | left hleft => exact Automaton.Rejects.ne_collision ha (.invalid hleft) q
  | right _ hright => exact Automaton.Rejects.ne_collision hb (.invalid hright) q
  | leftDeterminization _ _ hrejects => exact hrejects.ne_collision ha q
  | rightDeterminization _ _ _ hrejects => exact hrejects.ne_collision hb q

/-- The automata that an operation on a product builds. -/
inductive Phase (a b : Automaton) : Automaton → Prop where
  | left {c : Automaton} (hright : b.validate = .ok ()) (h : a.DeterminizationPhase c) : Phase a b c
  | right {left c : Automaton} (hleft : a.determinize none = .ok left) (h : b.DeterminizationPhase c) :
      Phase a b c
  | product {left right : Automaton} (hleft : a.determinize none = .ok left)
      (hright : b.determinize none = .ok right) : Phase a b (automaton left right)
  | normalization {left right c : Automaton} (hleft : a.determinize none = .ok left)
      (hright : b.determinize none = .ok right) (h : (automaton left right).NormalizationPhase c) : Phase a b c

theorem valid_of_determinize {left right : Automaton} (hleft : a.determinize none = .ok left)
    (hright : b.determinize none = .ok right) :
    (automaton left right).kind = .dfa ∧ (automaton left right).Valid := by
  have hl := (determinize_spec hleft).2
  have hr := (determinize_spec hright).2
  exact valid_automaton (hl.valid.deterministic hl.kind) (hr.valid.deterministic hr.kind)

theorem Phase.valid (h : Phase a b c) : c.Valid := by
  cases h with
  | left _ h => exact h.valid
  | right _ h => exact h.valid
  | product hleft hright => exact (valid_of_determinize hleft hright).2
  | normalization _ _ h => exact h.valid

/-- Behind the determinizations nothing fails. -/
theorem intersection_eq_error (ha : a.InRange) (hb : b.InRange) (hcount : ∀ c, Phase a b c → c.Numberable) :
    a.intersection b none = .error failure ↔ Rejects a b failure := by
  refine ⟨fun herror => ?_, fun hrejects => ?_⟩
  · rcases bind_eq_error.1 herror with hcheck | ⟨_, hleft, herror⟩
    · obtain ⟨fault, hleft, rfl⟩ := mapError_eq_error.1 hcheck
      exact .left hleft
    have hleft := mapError_eq_ok.1 hleft
    rcases bind_eq_error.1 herror with hcheck | ⟨_, hright, herror⟩
    · obtain ⟨fault, hright, rfl⟩ := mapError_eq_error.1 hcheck
      exact .right hleft hright
    have hright := mapError_eq_ok.1 hright
    rcases bind_eq_error.1 herror with hd | ⟨left, hd, herror⟩
    · exact .leftDeterminization hleft hright ((determinize_eq_error ha).1 hd)
    rcases bind_eq_error.1 herror with hd' | ⟨right, hd', herror⟩
    · refine .rightDeterminization hleft hright (fun failure hrejects => ?_) ((determinize_eq_error hb).1 hd')
      rw [← determinize_eq_error ha, hd] at hrejects
      cases hrejects
    · obtain ⟨hkind, hvalid⟩ := valid_of_determinize hd hd'
      obtain ⟨m, hm⟩ := exists_normalize (determinize_eq_self hvalid hkind) (hcount _ (.product hd hd'))
      rw [hm] at herror
      cases herror
  · have hchecks : a.validate = .ok () → b.validate = .ok () → (a.intersection b none = .error failure ↔
        (do
          let left ← a.determinize none
          let right ← b.determinize none
          (automaton left right).normalize none) = .error failure) := by
      intro hleft hright
      rw [intersection, check, hleft, check, hright]
      rfl
    cases hrejects with
    | left hleft => exact bind_eq_error.2 (.inl (mapError_eq_error.2 ⟨_, hleft, rfl⟩))
    | right hleft hright =>
        refine bind_eq_error.2 (.inr ⟨(), mapError_eq_ok.2 hleft, ?_⟩)
        exact bind_eq_error.2 (.inl (mapError_eq_error.2 ⟨_, hright, rfl⟩))
    | leftDeterminization hleft hright hrejects =>
        rw [hchecks hleft hright]
        exact bind_eq_error.2 (.inl ((determinize_eq_error ha).2 hrejects))
    | rightDeterminization hleft hright hnone hrejects =>
        rw [hchecks hleft hright]
        cases hd : a.determinize none with
        | error failure => exact absurd ((determinize_eq_error ha).1 hd) (hnone failure)
        | ok left =>
            refine bind_eq_error.2 (.inr ⟨left, rfl, ?_⟩)
            exact bind_eq_error.2 (.inl ((determinize_eq_error hb).2 hrejects))

end Product

namespace CommandLine

/-- The automata that an operation builds. -/
def UnaryOperation.Phase : UnaryOperation → Automaton → Automaton → Prop
  | determinization, a => a.DeterminizationPhase
  | minimization, a => a.MinimizationPhase

namespace BinaryOperation

/-- The automata that an operation builds. -/
def Phase : BinaryOperation → Automaton → Automaton → Automaton → Prop
  | union => DisjointSum.Phase DisjointSum.alternatives
  | intersection => Product.Phase
  | concatenation => DisjointSum.Phase fun sum => .ok sum.sequence

/-- The failures of an operation. A union needs a new initial state, a concatenation needs one when its left
operand has several. -/
def Rejects : BinaryOperation → Automaton → Automaton → OperationFailure → Prop
  | union, a, b => DisjointSum.Rejects a b True
  | intersection, a, b => Product.Rejects a b
  | concatenation, a, b => DisjointSum.Rejects a b (2 ≤ a.initial.size)

end BinaryOperation

theorem UnaryOperation.apply_eq_error {operation : UnaryOperation} (hrange : a.InRange)
    (hcount : ∀ c, operation.Phase a c → c.Numberable) :
    operation.apply none a = .error failure ↔ a.Rejects failure := by
  cases operation with
  | determinization => exact determinize_eq_error hrange
  | minimization => exact minimize_eq_error hrange fun d hd => hcount d (.determinization (.result hd))

theorem UnaryOperation.valid_of_phase {operation : UnaryOperation} (h : operation.Phase a c) : c.Valid := by
  cases operation with
  | determinization => exact DeterminizationPhase.valid h
  | minimization => exact MinimizationPhase.valid h

namespace BinaryOperation

variable {operation : BinaryOperation}

theorem apply_eq_error (ha : a.InRange) (hb : b.InRange) (hrows : b.table.NoEmptyRow)
    (hcount : ∀ c, operation.Phase a b c → c.Numberable) :
    operation.apply none a b = .error failure ↔ operation.Rejects a b failure := by
  cases operation with
  | union =>
      refine DisjointSum.bind_build_eq_error ha hrows fun sum hsum => ?_
      rw [and_iff_right trivial]
      refine DisjointSum.normalize_alternatives_eq_error (DisjointSum.joins_of_build hrows hsum).separate
        (DisjointSum.inRange_automaton ha hrows hsum) fun c d hc hd => ?_
      exact hcount d (.normalization hsum hc (.determinization (.result hd)))
  | intersection => exact Product.intersection_eq_error ha hb hcount
  | concatenation =>
      refine DisjointSum.bind_build_eq_error ha hrows fun sum hsum => ?_
      have hjoins := DisjointSum.joins_of_build hrows hsum
      rw [← hjoins.left]
      refine DisjointSum.normalize_sequence_eq_error hjoins.separate
        (DisjointSum.inRange_automaton ha hrows hsum) fun d hd => ?_
      exact hcount d (.normalization hsum rfl (.determinization (.result hd)))

theorem valid_of_phase (hrows : b.table.NoEmptyRow) (h : operation.Phase a b c) : c.Valid := by
  cases operation with
  | union =>
      refine DisjointSum.Phase.valid hrows (fun sum c hseparate hc => ?_) h
      obtain ⟨first, _, rfl⟩ := DisjointSum.exists_of_alternatives hc
      exact (DisjointSum.valid_marked hseparate).startingFrom first
  | intersection => exact Product.Phase.valid h
  | concatenation =>
      refine DisjointSum.Phase.valid hrows (fun sum c hseparate hc => ?_) h
      cases hc
      exact DisjointSum.valid_sequence hseparate

theorem Rejects.ne_collision (ha : a.Built) (hb : b.Built) (h : operation.Rejects a b failure) (q : StateId) :
    failure ≠ .collision q ∧ failure ≠ .invalid (.unknownState q) := by
  cases operation with
  | union => exact DisjointSum.Rejects.ne_collision ha hb h q
  | intersection => exact Product.Rejects.ne_collision ha hb h q
  | concatenation => exact DisjointSum.Rejects.ne_collision ha hb h q

end BinaryOperation

/-- Without a limit, and as long as all states can be numbered, the operations fail for the listed reasons and
for no others. All automata that they build are well-formed, so no validation inside of them fails; no two
ranges of numbers collide and no mark is on an unknown state. The number that a sum lacks for a new state is
the one after its largest, which is that of the last right state. -/
theorem failures_exact :
    (∀ (operation : UnaryOperation) (a : Automaton), a.Representable →
      (∀ c, operation.Phase a c → c.Numberable) →
        (∀ failure, operation.apply none a = .error failure ↔ a.Rejects failure) ∧
        (∀ c, operation.Phase a c → c.validate = .ok ()) ∧
        ∀ failure, operation.apply none a = .error failure → ∀ q,
          failure ≠ .collision q ∧ failure ≠ .invalid (.unknownState q)) ∧
    (∀ (operation : BinaryOperation) (a b : Automaton), a.Representable → b.Representable →
      (∀ c, operation.Phase a b c → c.Numberable) →
        (∀ failure, operation.apply none a b = .error failure ↔ operation.Rejects a b failure) ∧
        (∀ c, operation.Phase a b c → c.validate = .ok ()) ∧
        ∀ failure, operation.apply none a b = .error failure → ∀ q,
          failure ≠ .collision q ∧ failure ≠ .invalid (.unknownState q)) ∧
    ∀ (a b : Automaton) (sum : DisjointSum), a.Representable → b.Representable →
      DisjointSum.build a b = .ok sum →
        (sum.automaton.largestState? = some StateId.largest ↔
          0 < b.stateCount ∧ a.offset + b.stateCount - 1 = StateId.largest) := by
  refine ⟨fun operation a ha hcount => ?_, fun operation a b ha hb hcount => ?_, fun a b sum ha hb hsum => ?_⟩
  · have hfails : ∀ failure, operation.apply none a = .error failure ↔ a.Rejects failure :=
      fun failure => UnaryOperation.apply_eq_error ha.inRange hcount
    refine ⟨hfails, fun c hc => validate_eq_ok_iff.2 (UnaryOperation.valid_of_phase hc), ?_⟩
    exact fun failure herror => ((hfails failure).1 herror).ne_collision ha.built
  · have hrows := hb.built.noEmptyRow
    have hfails : ∀ failure, operation.apply none a b = .error failure ↔ operation.Rejects a b failure :=
      fun failure => BinaryOperation.apply_eq_error ha.inRange hb.inRange hrows hcount
    refine ⟨hfails, fun c hc => validate_eq_ok_iff.2 (BinaryOperation.valid_of_phase hrows hc), ?_⟩
    exact fun failure herror => BinaryOperation.Rejects.ne_collision ha.built hb.built ((hfails failure).1 herror)
  · exact DisjointSum.largestState?_automaton_iff ha.inRange hb.built.noEmptyRow hsum

/-- One state, above which one number is left. -/
def nextToLast : Automaton := (empty .nfa).addInitial (StateId.largest - 1)

/-- One state with the last number. -/
def last : Automaton := (empty .dfa).addInitial StateId.largest

theorem numberable_phases_silentCycle (c : Automaton)
    (hc : UnaryOperation.determinization.Phase silentCycle c) : c.Numberable := by
  have hsingle : silentCycle.withSingleInitial = .ok (silentCycle.startingFrom 3) := by decide +kernel
  have hd : silentCycle.determinize none = .ok silentCycleSubsets := by decide +kernel
  cases hc with
  | single h =>
      have heq := hsingle.symm.trans h.result
      cases heq
      decide +kernel
  | epsilonFree h =>
      have heq := hsingle.symm.trans h.result
      cases heq
      decide +kernel
  | result h =>
      have heq := hd.symm.trans h
      cases heq
      decide +kernel

theorem numberable_phases_nextToLast (c : Automaton)
    (hc : BinaryOperation.union.Phase nextToLast (emptyLanguage ∅) c) : c.Numberable := by
  have hsum : DisjointSum.build nextToLast (emptyLanguage ∅) = .ok ⟨nextToLast, last⟩ := rfl
  have hnone : DisjointSum.alternatives ⟨nextToLast, last⟩ = .error (.idsExhausted StateId.largest) := rfl
  cases hc with
  | right h =>
      have heq := hsum.symm.trans h
      cases heq
      decide +kernel
  | merged h =>
      have heq := hsum.symm.trans h
      cases heq
      decide +kernel
  | combined h hcombined | normalization h hcombined =>
      have heq := hsum.symm.trans h
      cases heq
      exact nomatch hnone.symm.trans hcombined

/-- The phases of a determinization that succeeds are well-formed. A right state gets the last number, and then
the union has none for its initial state. -/
theorem failures_exact_nextToLast :
    silentCycle.Representable ∧ (∀ c, UnaryOperation.determinization.Phase silentCycle c → c.Numberable) ∧
      (∀ c, UnaryOperation.determinization.Phase silentCycle c → c.validate = .ok ()) ∧
      nextToLast.Representable ∧ (emptyLanguage ∅).Representable ∧
      (∀ c, BinaryOperation.union.Phase nextToLast (emptyLanguage ∅) c → c.Numberable) ∧
      nextToLast.union (emptyLanguage ∅) none = .error (.idsExhausted StateId.largest) := by
  have hvalid : silentCycle.Valid := validate_eq_ok_iff.1 (by decide +kernel)
  have hcycle : silentCycle.Representable :=
    ⟨hvalid.built (TransitionTable.noEmptyRow_ofEdges _), by decide +kernel⟩
  have hnext : nextToLast.Representable := ⟨(Built.empty .nfa).addInitial _, by decide +kernel⟩
  have hempty : (emptyLanguage ∅).Representable := ⟨.emptyLanguage ∅, by decide +kernel⟩
  have hrejects : BinaryOperation.union.Rejects nextToLast (emptyLanguage ∅) (.idsExhausted StateId.largest) :=
    .noneAbove (by decide +kernel) (by decide +kernel) (by decide +kernel) (by decide +kernel)
      (by decide +kernel) trivial
  have hunary := failures_exact.1 .determinization silentCycle hcycle numberable_phases_silentCycle
  have hbinary := failures_exact.2.1 .union nextToLast (emptyLanguage ∅) hnext hempty numberable_phases_nextToLast
  exact ⟨hcycle, numberable_phases_silentCycle, hunary.2.1, hnext, hempty, numberable_phases_nextToLast,
    (hbinary.1 _).2 hrejects⟩

end CommandLine

end FiniteAutomata
