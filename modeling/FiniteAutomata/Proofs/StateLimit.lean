import FiniteAutomata.CommandLine.Job
import FiniteAutomata.Proofs.Determinization

/-! What a limit on the number of state sets can do. It stops a computation or leaves it alone, and a
larger limit stops no more computations than a smaller one. This holds of the one check in the search
for state sets, and it is handed on from there through every sequence of computations. The search is
stopped exactly when it would find more sets than the limit, and these are the states of its result. -/

namespace FiniteAutomata

variable {α β : Type} {limit k : Nat}

theorem exists_error_iff {ε : Type} {x : Except ε α} : (∃ e, x = .error e) ↔ ¬ ∃ a, x = .ok a := by
  cases x with
  | error e => simp
  | ok a => simp

/-- A limit stops a computation with a failure that names the limit, or it changes nothing, and what one
limit lets through every larger one lets through. -/
structure OnlyStops (f : Option Nat → Except OperationFailure α) : Prop where
  unlimited_or_stopped : ∀ k, f (some k) = f none ∨ f (some k) = .error (.limitExceeded k)
  monotone : ∀ k k' r, k ≤ k' → f (some k) = .ok r → f (some k') = .ok r

namespace OnlyStops

variable {f : Option Nat → Except OperationFailure α} {g : Option Nat → α → Except OperationFailure β}

theorem const (x : Except OperationFailure α) : OnlyStops fun _ => x :=
  ⟨fun _ => .inl rfl, fun _ _ _ _ h => h⟩

/-- The limit of a sequence is that of its parts. -/
theorem bind (hf : OnlyStops f) (hg : ∀ a, OnlyStops fun limit => g limit a) :
    OnlyStops fun limit => f limit >>= g limit where
  unlimited_or_stopped k := by
    rcases hf.unlimited_or_stopped k with heq | hstopped
    · simp only [heq]
      cases hnone : f none with
      | error fault => exact .inl rfl
      | ok a => exact (hg a).unlimited_or_stopped k
    · simp only [hstopped]
      exact .inr rfl
  monotone k k' r hle h := by
    obtain ⟨a, ha, hr⟩ := bind_eq_ok.1 h
    exact bind_eq_ok.2 ⟨a, hf.monotone k k' a hle ha, (hg a).monotone k k' r hle hr⟩

end OnlyStops

namespace SubsetMemo

open Automaton

variable {a : Automaton} {m : SubsetMemo}

section Stops

theorem checkLimit_eq_ok {count : Nat} {u : Unit} : checkLimit (some k) count = .ok u ↔ count ≤ k := by
  rw [checkLimit]
  split
  · next hlt => exact iff_of_false (fun h => nomatch h) (Nat.not_le.2 hlt)
  · next hle => exact iff_of_true rfl (Nat.not_lt.1 hle)

theorem onlyStops_checkLimit (count : Nat) : OnlyStops fun limit => checkLimit limit count where
  unlimited_or_stopped k := by
    simp only [checkLimit]
    split
    · exact .inr rfl
    · exact .inl rfl
  monotone _ _ _ hle h := checkLimit_eq_ok.2 ((checkLimit_eq_ok.1 h).trans hle)

theorem onlyStops_discover (found sets : List (SortedSet StateId)) :
    OnlyStops fun limit => discover limit found sets := by
  induction sets generalizing found with
  | nil => exact .const _
  | cons set sets ih =>
      simp only [discover]
      split
      · exact ih found
      · exact (onlyStops_checkLimit _).bind fun _ => (ih (set :: found)).bind fun _ => .const _

theorem onlyStops_explore (a : Automaton) (fuel : Nat) (visited queue : List (SortedSet StateId))
    (m : SubsetMemo) : OnlyStops fun limit => explore a limit fuel visited queue m := by
  induction fuel generalizing visited queue m with
  | zero => exact .const _
  | succ fuel ih =>
      cases queue with
      | nil => exact .const _
      | cons set queue => exact (onlyStops_discover _ _).bind fun new => ih _ _ _

theorem onlyStops_build (a : Automaton) : OnlyStops fun limit => build a limit :=
  (onlyStops_checkLimit 1).bind fun _ => onlyStops_explore a _ _ _ _

end Stops

section Threshold

/-- New sets are let through exactly when there is room for all of them beside those already found. -/
theorem exists_discover_iff {found sets : List (SortedSet StateId)} (hfound : found.length ≤ k) :
    (∃ new, discover (some k) found sets = .ok new) ↔
      found.length + (Search.fresh found sets).length ≤ k := by
  induction sets generalizing found with
  | nil => simpa [discover, Search.fresh] using hfound
  | cons set sets ih =>
      rw [discover, Search.fresh]
      split
      · exact ih hfound
      · simp only [bind_eq_ok, checkLimit_eq_ok]
        rw [List.length_cons]
        refine ⟨?_, ?_⟩
        · intro hok
          obtain ⟨_, _, hroom, rest, hrest, _⟩ := hok
          have hhead : (set :: found).length ≤ k := hroom
          have htail := (ih hhead).1 ⟨rest, hrest⟩
          rw [List.length_cons] at htail
          omega
        · intro hroom
          have hhead : (set :: found).length ≤ k := by
            rw [List.length_cons]
            omega
          have htail : (set :: found).length + (Search.fresh (set :: found) sets).length ≤ k := by
            rw [List.length_cons]
            omega
          obtain ⟨rest, hrest⟩ := (ih hhead).2 htail
          exact ⟨_, (), hhead, rest, hrest, rfl⟩

/-- The search is let through exactly when all that it finds is within the limit. The induction follows the
visits; what has been found so far is a beginning of all that is found. -/
theorem exists_explore_iff (fuel : Nat) {visited queue : List (SortedSet StateId)}
    (hfound : (visited ++ queue).length ≤ k) : (∃ m', explore a (some k) fuel visited queue m = .ok m') ↔
      (Search.explore a.followingSets fuel visited queue).length ≤ k := by
  induction fuel generalizing visited queue m with
  | zero => exact iff_of_true ⟨m, rfl⟩ hfound
  | succ fuel ih =>
      cases queue with
      | nil => exact iff_of_true ⟨m, rfl⟩ (by simpa [Search.explore] using hfound)
      | cons set queue =>
          have hvisit := Search.visit_append a.followingSets visited queue set
          have hroom : (∃ new, discover (some k) (visited ++ set :: queue) (a.followingSets set) = .ok new) ↔
              (visited ++ [set] ++ (queue ++ Search.fresh (visited ++ set :: queue) (a.followingSets set))).length
                ≤ k := by
            rw [exists_discover_iff hfound, ← List.length_append, ← hvisit]
          rw [Search.explore]
          refine ⟨?_, ?_⟩
          · intro hok
            obtain ⟨m', hok⟩ := hok
            obtain ⟨new, hnew, hok⟩ := bind_eq_ok.1 hok
            have hle := hroom.1 ⟨new, hnew⟩
            rw [discover_eq_ok hnew] at hok
            exact (ih hle).1 ⟨m', hok⟩
          · intro hlength
            have hle := (Search.prefix_explore a.followingSets fuel _ _).length_le.trans hlength
            obtain ⟨new, hnew⟩ := hroom.2 hle
            obtain ⟨m', hok⟩ := (ih (m := m.record set (a.subsetRow set)) hle).2 hlength
            refine ⟨m', bind_eq_ok.2 ⟨new, hnew, ?_⟩⟩
            rw [discover_eq_ok hnew]
            exact hok

theorem exists_build_iff : (∃ m, build a (some k) = .ok m) ↔ a.reachedSets.length ≤ k := by
  have hreached : Search.explore a.followingSets a.setCount [] [a.initial] = a.reachedSets := rfl
  have hfirst : 1 ≤ a.reachedSets.length :=
    (Search.prefix_explore a.followingSets a.setCount [] [a.initial]).length_le
  simp only [build, bind_eq_ok, checkLimit_eq_ok]
  refine ⟨?_, ?_⟩
  · intro hok
    obtain ⟨m, _, hone, hok⟩ := hok
    rw [← hreached]
    exact (exists_explore_iff a.setCount hone).1 ⟨m, hok⟩
  · intro hlength
    have hone := hfirst.trans hlength
    rw [← hreached] at hlength
    obtain ⟨m, hok⟩ := (exists_explore_iff a.setCount hone).2 hlength
    exact ⟨m, (), hone, hok⟩

/-- The states are the numbers of the sets. -/
theorem stateCount_toAutomaton (m : SubsetMemo) (a : Automaton) :
    (m.toAutomaton a).stateCount = (m.numbering a).length := stateCount_ofSearch

end Threshold

end SubsetMemo

namespace Automaton

variable {a d : Automaton}

theorem onlyStops_determinize (a : Automaton) : OnlyStops a.determinize := by
  refine (OnlyStops.const a.check).bind fun _ => ?_
  split
  · exact .const _
  split
  · exact .const _
  exact (OnlyStops.const a.withSingleInitial).bind fun single =>
    (SubsetMemo.onlyStops_build _).bind fun _ => .const _

theorem onlyStops_minimize (a : Automaton) : OnlyStops a.minimize :=
  (onlyStops_determinize a).bind fun _ => .const _

theorem onlyStops_normalize (a : Automaton) : OnlyStops a.normalize :=
  (onlyStops_determinize a).bind onlyStops_minimize

theorem onlyStops_union (a b : Automaton) : OnlyStops (a.union b) :=
  (OnlyStops.const (DisjointSum.build a b)).bind fun sum =>
    (OnlyStops.const sum.alternatives).bind onlyStops_normalize

theorem onlyStops_concatenation (a b : Automaton) : OnlyStops (a.concatenation b) :=
  (OnlyStops.const (DisjointSum.build a b)).bind fun sum => onlyStops_normalize sum.sequence

theorem onlyStops_intersection (a b : Automaton) : OnlyStops (a.intersection b) :=
  (OnlyStops.const a.check).bind fun _ => (OnlyStops.const b.check).bind fun _ =>
    (onlyStops_determinize a).bind fun left => (onlyStops_determinize b).bind fun right =>
      onlyStops_normalize (Product.automaton left right)

/-- Determinizing an automaton that is not deterministic fails exactly when the result would have more states
than the limit. -/
theorem determinize_fails_iff (hkind : a.kind ≠ .dfa) (hinitial : a.initial ≠ ∅)
    (hd : a.determinize none = .ok d) :
    (∃ failure, a.determinize (some k) = .error failure) ↔ k < d.stateCount := by
  rw [exists_error_iff]
  obtain ⟨hvalid, hresult⟩ := determinize_eq_ok.1 hd
  rcases hresult with ⟨hdfa, _⟩ | ⟨_, ⟨hempty, _⟩ | ⟨_, single, m, hsingle, hmemo, rfl⟩⟩
  · exact absurd hdfa hkind
  · exact absurd hempty hinitial
  have hfree := (withSingleInitial_spec hvalid hsingle).1.eliminateEpsilon
  have hcomplete := SubsetMemo.complete_of_build hfree hmemo
  rw [SubsetMemo.stateCount_toAutomaton, hcomplete.numbering_eq hfree epsilonFree_eliminateEpsilon, ← Nat.not_le,
    ← SubsetMemo.exists_build_iff]
  refine not_congr ⟨?_, ?_⟩
  · intro hlimited
    obtain ⟨r, hr⟩ := hlimited
    obtain ⟨_, hresult⟩ := determinize_eq_ok.1 hr
    rcases hresult with ⟨hdfa, _⟩ | ⟨_, ⟨hempty, _⟩ | ⟨_, single', m', hsingle', hmemo', _⟩⟩
    · exact absurd hdfa hkind
    · exact absurd hempty hinitial
    · rw [hsingle] at hsingle'
      cases hsingle'
      exact ⟨m', hmemo'⟩
  · intro hbuild
    obtain ⟨m', hmemo'⟩ := hbuild
    exact ⟨_, determinize_eq_ok.2 ⟨hvalid, .inr ⟨hkind, .inr ⟨hinitial, single, m', hsingle, hmemo', rfl⟩⟩⟩⟩

end Automaton

namespace CommandLine

open Automaton

/-- In every operation the limit decides only whether there is a result. A determinization that searches for
sets of states has one exactly when the limit is not below the number of its states. -/
theorem limit_onlyStops :
    (∀ (operation : UnaryOperation) (a : Automaton), OnlyStops fun limit => operation.apply limit a) ∧
    (∀ (operation : BinaryOperation) (a b : Automaton), OnlyStops fun limit => operation.apply limit a b) ∧
    ∀ (a d : Automaton) (k : Nat), a.kind = .nfa → a.initial ≠ ∅ → a.determinize none = .ok d →
      ((∃ failure, a.determinize (some k) = .error failure) ↔ k < d.stateCount) := by
  refine ⟨?_, ?_, ?_⟩
  · intro operation a
    cases operation with
    | determinization => exact onlyStops_determinize a
    | minimization => exact onlyStops_minimize a
  · intro operation a b
    cases operation with
    | union => exact onlyStops_union a b
    | intersection => exact onlyStops_intersection a b
    | concatenation => exact onlyStops_concatenation a b
  · intro a d k hkind hinitial hd
    exact determinize_fails_iff (by rw [hkind]; decide) hinitial hd

theorem limit_onlyStops_silentCycle :
    silentCycle.kind = .nfa ∧ silentCycle.initial ≠ ∅ ∧ silentCycle.determinize none = .ok silentCycleSubsets ∧
      silentCycleSubsets.stateCount = 3 ∧ (∃ failure, silentCycle.determinize (some 2) = .error failure) ∧
      ¬ ∃ failure, silentCycle.determinize (some 3) = .error failure := by
  have hinitial : silentCycle.initial ≠ ∅ := by decide
  have hd : silentCycle.determinize none = .ok silentCycleSubsets := by decide +kernel
  have hcount : silentCycleSubsets.stateCount = 3 := rfl
  have hthreshold := fun k => limit_onlyStops.2.2 silentCycle silentCycleSubsets k rfl hinitial hd
  rw [hcount] at hthreshold
  exact ⟨rfl, hinitial, hd, hcount, (hthreshold 2).2 (by decide), mt (hthreshold 3).1 (by decide)⟩

end CommandLine

end FiniteAutomata
