import FiniteAutomata.Proofs.Minimization
import FiniteAutomata.Proofs.PartitionRounds
import FiniteAutomata.Proofs.Pruning

/-! The loop over the table of pairs. A pass removes marks while it reads them, so it is at least as fine as a round
that looks at all pairs at once, and by the invariant of the refinement it never separates states with the same
future. Rounds that separate states are fewer than the states, hence so are the passes that remove a mark; one more
pass finds nothing to remove, and the table that it leaves is the one of the states with the same future. -/

namespace FiniteAutomata

namespace Automaton

variable {a b d : Automaton} {classes : Setoid StateId} {t : PairTable} {n i j k l : Nat}
  {pairs : List (Nat × Nat)}

section InPlace

theorem marked_of_foldl_refinePair
    (hmarked : (pairs.foldl (fun t pair => a.refinePair t pair.1 pair.2) t).marked k l = true) :
    t.marked k l = true := by
  induction pairs generalizing t with
  | nil => exact hmarked
  | cons pair pairs ih => exact marked_of_refinePair (ih hmarked)

theorem marked_of_refinePass (hmarked : (a.refinePass n t).marked k l = true) : t.marked k l = true := by
  rw [refinePass_eq_foldl] at hmarked
  exact marked_of_foldl_refinePair hmarked

/-- The marks that a pair was compared with are among those from before the pass. -/
theorem Deterministic.matching_of_foldl_refinePair (h : a.Deterministic) {related : StateId → StateId → Prop}
    (hrelated : ∀ p q, t.marked p q = true → related p q) (hpair : (i, j) ∈ pairs)
    (hmarked : (pairs.foldl (fun t pair => a.refinePair t pair.1 pair.2) t).marked i j = true) :
    a.Matching related i j := by
  induction pairs generalizing t with
  | nil => exact absurd hpair List.not_mem_nil
  | cons pair pairs ih =>
      rw [List.foldl_cons] at hmarked
      rcases List.mem_cons.1 hpair with rfl | hpair
      · have hagree := h.edgesAgree_iff.1 (edgesAgree_of_refinePair (marked_of_foldl_refinePair hmarked))
        exact hagree.matching.mono hrelated
      · exact ih (fun p q hpq => hrelated p q (marked_of_refinePair hpq)) hpair hmarked

/-- A pass separates all that a round separates. -/
theorem Trimmed.round_of_refinePass (h : a.Trimmed) (ht : a.Refines t)
    (hclasses : ∀ p q, t.marked p q = true → classes p q) (hi : i < n) (hj : j < n)
    (hmarked : (a.refinePass n t).marked i j = true) : h.deterministic.round classes i j := by
  have hbelow : ∀ i j, j < i → i < n → (a.refinePass n t).marked i j = true →
      h.deterministic.round classes i j := by
    intro i j hji hi hmarked
    refine ⟨hclasses i j (marked_of_refinePass hmarked), ?_⟩
    rw [refinePass_eq_foldl] at hmarked
    exact h.deterministic.matching_of_foldl_refinePair hclasses (mem_pairsBelow.2 ⟨hji, hi⟩) hmarked
  rcases Nat.lt_trichotomy i j with hlt | rfl | hlt
  · exact Setoid.symm' _ (hbelow j i hlt hj ((ht.refinePass h n).symmetric i j hmarked))
  · exact Setoid.refl' _ i
  · exact hbelow i j hlt hi hmarked

end InPlace

section Passes

/-- The table that the refinement begins with. -/
def finalityTable (a : Automaton) : PairTable :=
  .ofPredicate a.stateCount fun i j => decide (i ∈ a.final) == decide (j ∈ a.final)

theorem marked_finalityTable_iff : a.finalityTable.marked i j = true ↔
    (i < a.stateCount ∧ j < a.stateCount) ∧ (i ∈ a.final ↔ j ∈ a.final) := by
  rw [finalityTable, PairTable.marked_ofPredicate_iff, beq_iff_eq, decide_eq_decide]

/-- The table after some passes. -/
def tableAfter (a : Automaton) (passes : Nat) : PairTable := (a.refinePass a.stateCount)^[passes] a.finalityTable

theorem tableAfter_succ (a : Automaton) (k : Nat) :
    a.tableAfter (k + 1) = a.refinePass a.stateCount (a.tableAfter k) := Function.iterate_succ_apply' _ _ _

theorem lt_stateCount_of_tableAfter (hmarked : (a.tableAfter k).marked i j = true) :
    i < a.stateCount ∧ j < a.stateCount := by
  induction k with
  | zero => exact (marked_finalityTable_iff.1 hmarked).1
  | succ k ih =>
      rw [tableAfter_succ] at hmarked
      exact ih (marked_of_refinePass hmarked)

variable (h : a.Trimmed) (hnumbered : a.Numbered)

include h hnumbered

theorem refines_tableAfter (k : Nat) : a.Refines (a.tableAfter k) := by
  induction k with
  | zero => exact refines_ofPredicate h hnumbered
  | succ k ih =>
      rw [tableAfter_succ]
      exact ih.refinePass h _

/-- Passes are never behind as many rounds. -/
theorem rounds_of_tableAfter (hmarked : (a.tableAfter k).marked i j = true) : h.deterministic.rounds k i j := by
  induction k generalizing i j with
  | zero => exact decide_eq_decide.2 (marked_finalityTable_iff.1 hmarked).2
  | succ k ih =>
      obtain ⟨hi, hj⟩ := lt_stateCount_of_tableAfter hmarked
      rw [tableAfter_succ] at hmarked
      rw [h.deterministic.rounds_succ]
      exact h.round_of_refinePass (refines_tableAfter h hnumbered k) (fun _ _ => ih) hi hj hmarked

/-- Fewer passes remove a mark than there are states. -/
theorem exists_tableAfter_succ_eq : ∃ k < a.stateCount, a.tableAfter (k + 1) = a.tableAfter k := by
  obtain ⟨first, hfirst⟩ := h.deterministic.exists_initial
  have hmem := h.valid.initial_mem first ((mem_initial_of_singleton hfirst).2 rfl)
  obtain ⟨k, hk, hfuture⟩ := h.deterministic.exists_round_sameFuture h.valid hmem
  refine ⟨k, hk, ?_⟩
  rw [tableAfter_succ]
  -- After that many passes only pairs with the same future are marked, and no pass removes these.
  refine (refinePass_eq_or_ssubset (n := a.stateCount)).resolve_right fun hless => ?_
  obtain ⟨⟨i, j⟩, hbefore, hafter⟩ := Finset.exists_of_ssubset hless
  obtain ⟨hbelow, hmarked⟩ := PairTable.mem_marks.1 hbefore
  have hi := (hnumbered i).2 hbelow.1
  have hj := (hnumbered j).2 hbelow.2
  have hsame := hfuture i hi j hj (rounds_of_tableAfter h hnumbered hmarked)
  have hstays := ((refines_tableAfter h hnumbered k).refinePass h a.stateCount).complete i hi j hj hsame
  exact hafter (PairTable.mem_marks.2 ⟨hbelow, hstays⟩)

end Passes

section Loop

/-- The table with the two marks of a pair removed when its edges do not agree, and the flag that is set then. -/
def refinePairFlagged (a : Automaton) (current : PairTable × Bool) (i j : StateId) : PairTable × Bool :=
  if current.1.marked i j && !a.edgesAgree current.1 i j then ((current.1.erase i j).erase j i, true)
  else current

def refinePassFlagged (a : Automaton) (n : Nat) (t : PairTable) : PairTable × Bool :=
  (List.range n).foldl (fun current i =>
    (List.range i).foldl (fun current j => a.refinePairFlagged current i j) current) (t, false)

/-- The flag is set exactly when the table has changed: no mark comes back. -/
theorem foldl_refinePairFlagged (changed : Bool) :
    pairs.foldl (fun current pair => a.refinePairFlagged current pair.1 pair.2) (t, changed) =
      (pairs.foldl (fun t pair => a.refinePair t pair.1 pair.2) t,
        changed || decide (pairs.foldl (fun t pair => a.refinePair t pair.1 pair.2) t ≠ t)) := by
  induction pairs generalizing t changed with
  | nil => simp
  | cons pair pairs ih =>
      obtain ⟨i, j⟩ := pair
      rw [List.foldl_cons, List.foldl_cons]
      by_cases hremoved : (t.marked i j && !a.edgesAgree t i j) = true
      · -- The mark of this pair is gone, and what follows does not bring it back.
        have hchanged : pairs.foldl (fun t pair => a.refinePair t pair.1 pair.2) (a.refinePair t i j) ≠ t := by
          intro hsame
          have hmarked := (Bool.and_eq_true_iff.1 hremoved).1
          rw [← hsame] at hmarked
          simp [edgesAgree_of_refinePair (marked_of_foldl_refinePair hmarked)] at hremoved
        have hflagged : a.refinePairFlagged (t, changed) i j = (a.refinePair t i j, true) := by
          rw [refinePairFlagged, refinePair, if_pos hremoved, if_pos hremoved]
        rw [hflagged, ih, Bool.true_or, decide_eq_true hchanged, Bool.or_true]
      · have hsame : a.refinePair t i j = t := if_neg hremoved
        have hflagged : a.refinePairFlagged (t, changed) i j = (t, changed) := if_neg hremoved
        rw [hflagged, hsame, ih]

theorem refinePassFlagged_eq (a : Automaton) (n : Nat) (t : PairTable) :
    a.refinePassFlagged n t = (a.refinePass n t, decide (a.refinePass n t ≠ t)) := by
  have hpairs : a.refinePassFlagged n t =
      (pairsBelow n).foldl (fun current pair => a.refinePairFlagged current pair.1 pair.2) (t, false) := by
    rw [refinePassFlagged, pairsBelow, List.foldl_flatMap]
    simp only [List.foldl_map]
  rw [hpairs, foldl_refinePairFlagged, Bool.false_or, refinePass_eq_foldl]

/-- The variables of the loop: the table, whether the last pass removed a mark, and the number of passes. -/
structure LoopState where
  table : PairTable
  changed : Bool
  iteration : Nat

/-- One turn: a pass over all pairs, with the flag cleared before it. -/
def turn (a : Automaton) (s : LoopState) : LoopState :=
  let pass := a.refinePassFlagged a.stateCount s.table
  { table := pass.1, changed := pass.2, iteration := s.iteration + 1 }

/-- The variables after some turns. Unlike for the refinement there is no bound on how many turns are made. -/
def loopAfter (a : Automaton) (turns : Nat) : LoopState :=
  a.turn^[turns] { table := a.finalityTable, changed := true, iteration := 0 }

/-- The loop makes `k` turns: the flag is set before each of them, and it is not set after the last. -/
def EndsAfter (a : Automaton) (k : Nat) : Prop :=
  (∀ turns < k, (a.loopAfter turns).changed = true) ∧ (a.loopAfter k).changed = false

theorem loopAfter_succ (a : Automaton) (k : Nat) : a.loopAfter (k + 1) = a.turn (a.loopAfter k) :=
  Function.iterate_succ_apply' _ _ _

theorem table_loopAfter (a : Automaton) (k : Nat) : (a.loopAfter k).table = a.tableAfter k := by
  induction k with
  | zero => rfl
  | succ k ih => rw [loopAfter_succ, turn, refinePassFlagged_eq, ih, tableAfter_succ]

theorem iteration_loopAfter (a : Automaton) (k : Nat) : (a.loopAfter k).iteration = k := by
  induction k with
  | zero => rfl
  | succ k ih => rw [loopAfter_succ, turn, ih]

theorem changed_loopAfter_succ (a : Automaton) (k : Nat) :
    (a.loopAfter (k + 1)).changed = decide (a.tableAfter (k + 1) ≠ a.tableAfter k) := by
  rw [loopAfter_succ, turn, refinePassFlagged_eq, table_loopAfter, tableAfter_succ]

/-- The loop ends with the first pass that removes nothing. -/
theorem endsAfter_succ (hfirst : ∀ m < k, a.tableAfter (m + 1) ≠ a.tableAfter m)
    (hlast : a.tableAfter (k + 1) = a.tableAfter k) : a.EndsAfter (k + 1) := by
  refine ⟨fun turns hturns => ?_, ?_⟩
  · cases turns with
    | zero => rfl
    | succ m =>
        rw [changed_loopAfter_succ]
        exact decide_eq_true (hfirst m (Nat.lt_of_succ_lt_succ hturns))
  · rw [changed_loopAfter_succ]
    exact decide_eq_false (not_not.2 hlast)

/-- The bounded loop makes the same passes when the bound is large enough. -/
theorem refineFrom_eq (fuel : Nat) (hfuel : k < fuel)
    (hfirst : ∀ m < k, (a.refinePass n)^[m + 1] t ≠ (a.refinePass n)^[m] t)
    (hlast : (a.refinePass n)^[k + 1] t = (a.refinePass n)^[k] t) :
    a.refineFrom n fuel t = { table := (a.refinePass n)^[k + 1] t, passes := k + 1 } := by
  induction k generalizing t fuel with
  | zero =>
      obtain ⟨fuel, rfl⟩ := Nat.exists_eq_succ_of_ne_zero (Nat.ne_of_gt hfuel)
      exact if_pos hlast
  | succ k ih =>
      obtain ⟨fuel, rfl⟩ := Nat.exists_eq_succ_of_ne_zero (Nat.ne_of_gt (Nat.zero_lt_of_lt hfuel))
      have hrest := ih fuel (Nat.lt_of_succ_lt_succ hfuel) (t := a.refinePass n t)
        (fun m hm => hfirst (m + 1) (Nat.succ_lt_succ hm)) hlast
      have hchanged : a.refinePass n t ≠ t := hfirst 0 (Nat.succ_pos k)
      rw [refineFrom, if_neg hchanged, hrest]
      rfl

/-- The loop ends with the first pass that removes nothing, and the bound on the passes of the refinement is never
reached. -/
theorem exists_endsAfter (h : a.Trimmed) (hnumbered : a.Numbered) : ∃ k < a.stateCount, a.EndsAfter (k + 1) ∧
    a.tableAfter (k + 1) = a.tableAfter k ∧ a.refinement = { table := a.tableAfter (k + 1), passes := k + 1 } := by
  have hexists := exists_tableAfter_succ_eq h hnumbered
  obtain ⟨hlt, hlast⟩ := Nat.find_spec hexists
  have hfirst : ∀ m < Nat.find hexists, a.tableAfter (m + 1) ≠ a.tableAfter m := fun m hm hsame =>
    Nat.find_min hexists hm ⟨hm.trans hlt, hsame⟩
  have hfuel : Nat.find hexists < a.stateCount * a.stateCount + 1 :=
    hlt.trans_le ((Nat.le_mul_self _).trans (Nat.le_succ _))
  exact ⟨_, hlt, endsAfter_succ hfirst hlast, hlast, refineFrom_eq _ hfuel hfirst hlast⟩

end Loop

section Result

theorem trimmed_and_numbered_of_trim (hvalidate : d.validate = .ok ()) (hkind : d.kind = .dfa)
    (hb : d.trim.renumber 0 = .ok b) : b.Trimmed ∧ b.Numbered ∧ b.stateCount = d.trim.stateCount := by
  have htrimmed := (trim_spec (validate_eq_ok_iff.1 hvalidate) hkind).1
  obtain ⟨htrimmedb, _, f, hf⟩ := htrimmed.renumber (noEmptyRow_trim d) hb
  exact ⟨htrimmedb, htrimmed.numbered (noEmptyRow_trim d) hb,
    stateCount_eq hf htrimmed.toAccessible htrimmedb.toAccessible⟩

/-- Whatever deterministic automaton is trimmed, the loop over its table ends. It makes at least one turn and no more
turns than there are states, and the last of them changes nothing; so the count of turns stays within the bound that is
asserted of it. The refinement makes the same turns and is not cut off before the last. -/
theorem refinement_loop_ends (hvalidate : d.validate = .ok ()) (hkind : d.kind = .dfa)
    (hb : d.trim.renumber 0 = .ok b) : ∃ k, 0 < k ∧ k ≤ max d.trim.stateCount 1 ∧ b.EndsAfter k ∧
      (b.loopAfter k).table = (b.loopAfter (k - 1)).table ∧
      (∀ turns ≤ k, (b.loopAfter turns).iteration ≤ max b.stateCount 1 + 1) ∧
      b.refinement = { table := (b.loopAfter k).table, passes := k } := by
  obtain ⟨htrimmed, hnumbered, hcount⟩ := trimmed_and_numbered_of_trim hvalidate hkind hb
  obtain ⟨k, hlt, hends, hlast, hrefinement⟩ := exists_endsAfter htrimmed hnumbered
  have hle : k + 1 ≤ max b.stateCount 1 := hlt.trans_le (Nat.le_max_left _ _)
  refine ⟨k + 1, Nat.succ_pos k, hcount ▸ hle, hends, ?_, ?_, ?_⟩
  · rw [table_loopAfter, table_loopAfter]
    exact hlast
  · intro turns hturns
    rw [iteration_loopAfter]
    exact (hturns.trans hle).trans (Nat.le_succ _)
  · rw [table_loopAfter]
    exact hrefinement

/-- The chain without its excess, numbered from its initial state. -/
def numberedChain : Automaton :=
  { kind := .dfa
    states := .ofList [0, 1, 2]
    alphabet := .ofList ["a", "b"]
    initial := .ofList [0]
    final := .ofList [0, 1, 2]
    table := .ofEdges [⟨0, "a", 1⟩, ⟨1, "a", 2⟩] }

/-- The first two states are told apart by the second turn only, so there are as many turns as states. -/
theorem refinement_loop_ends_numberedChain :
    (chainWithExcess [4, 6, 9]).validate = .ok () ∧
      (chainWithExcess [4, 6, 9]).trim.renumber 0 = .ok numberedChain ∧
      (chainWithExcess [4, 6, 9]).trim.stateCount = 3 ∧ numberedChain.EndsAfter 3 ∧
      (numberedChain.loopAfter 3).table = (numberedChain.loopAfter 2).table ∧
      (numberedChain.loopAfter 2).table ≠ (numberedChain.loopAfter 1).table ∧
      numberedChain.refinement = { table := (numberedChain.loopAfter 3).table, passes := 3 } := by
  have hvalid : (chainWithExcess [4, 6, 9]).validate = .ok () := by decide +kernel
  have hb : (chainWithExcess [4, 6, 9]).trim.renumber 0 = .ok numberedChain := by decide +kernel
  have hcount : (chainWithExcess [4, 6, 9]).trim.stateCount = 3 := by decide +kernel
  have hchanges : (numberedChain.loopAfter 2).table ≠ (numberedChain.loopAfter 1).table := by decide +kernel
  have hpasses : numberedChain.refinement.passes = 3 := by decide +kernel
  obtain ⟨k, _, _, hends, hlast, _, hrefinement⟩ := refinement_loop_ends hvalid rfl hb
  obtain rfl : k = 3 := by rw [← hpasses, hrefinement]
  exact ⟨hvalid, hb, hcount, hends, hlast, hchanges, hrefinement⟩

/-- The table that remains holds exactly the pairs of states from which the same words are accepted. So its marks are
an equivalence, and a state is represented by the smallest state of its class. -/
theorem refinement_decides_futures (hvalidate : d.validate = .ok ()) (hkind : d.kind = .dfa)
    (hb : d.trim.renumber 0 = .ok b) : b.Numbered ∧
    (∀ i < b.stateCount, ∀ j < b.stateCount,
      b.refinement.table.marked i j = true ↔ ∀ w, b.AcceptsFrom i w ↔ b.AcceptsFrom j w) ∧
    Equivalence (fun i j : Fin b.stateCount => b.refinement.table.marked i j = true) ∧
    ∀ i < b.stateCount, IsLeast { j | j < b.stateCount ∧ ∀ w, b.AcceptsFrom i w ↔ b.AcceptsFrom j w }
      (b.refinement.table.representative i) := by
  obtain ⟨htrimmed, hnumbered, _⟩ := trimmed_and_numbered_of_trim hvalidate hkind hb
  have hclassifies := classifies_refinement htrimmed hnumbered
  have hmarked : ∀ i < b.stateCount, ∀ j < b.stateCount,
      b.refinement.table.marked i j = true ↔ SameFuture b b i j := fun i hi j hj =>
    hclassifies i ((hnumbered i).2 hi) j ((hnumbered j).2 hj)
  refine ⟨hnumbered, hmarked, hclassifies.equivalence hnumbered, fun i hi => ?_⟩
  have hclass : { j | j ∈ b.states ∧ SameFuture b b i j } = { j | j < b.stateCount ∧ SameFuture b b i j } := by
    ext j
    exact and_congr_left fun _ => hnumbered j
  have hleast := isLeast_representative hnumbered hclassifies ((hnumbered i).2 hi)
  rwa [hclass] at hleast

/-- What trimming leaves of the unrolled automaton, numbered from its initial state. -/
def numberedUnrolled : Automaton :=
  { kind := .dfa
    states := .ofList [0, 1, 2]
    alphabet := .ofList ["a", "b"]
    initial := .ofList [0]
    final := .ofList [1]
    table := .ofEdges [⟨0, "a", 1⟩, ⟨1, "b", 2⟩, ⟨2, "a", 1⟩] }

theorem refinement_decides_futures_numberedUnrolled :
    unrolled.validate = .ok () ∧ unrolled.trim.renumber 0 = .ok numberedUnrolled ∧
      (∀ w, numberedUnrolled.AcceptsFrom 2 w ↔ numberedUnrolled.AcceptsFrom 0 w) ∧
      (¬ ∀ w, numberedUnrolled.AcceptsFrom 1 w ↔ numberedUnrolled.AcceptsFrom 0 w) ∧
      IsLeast { j | j < numberedUnrolled.stateCount ∧
        ∀ w, numberedUnrolled.AcceptsFrom 2 w ↔ numberedUnrolled.AcceptsFrom j w } 0 := by
  have hvalid : unrolled.validate = .ok () := by decide +kernel
  have hb : unrolled.trim.renumber 0 = .ok numberedUnrolled := by decide +kernel
  have hsame : numberedUnrolled.refinement.table.marked 2 0 = true := by decide +kernel
  have hdiffer : ¬ numberedUnrolled.refinement.table.marked 1 0 = true := by decide +kernel
  have hleast : numberedUnrolled.refinement.table.representative 2 = 0 := by decide +kernel
  obtain ⟨_, hmarked, _, hrepresentative⟩ := refinement_decides_futures hvalid rfl hb
  have hfirst := hrepresentative 2 (by decide +kernel)
  rw [hleast] at hfirst
  exact ⟨hvalid, hb, (hmarked 2 (by decide +kernel) 0 (by decide +kernel)).1 hsame,
    fun hfuture => hdiffer ((hmarked 1 (by decide +kernel) 0 (by decide +kernel)).2 hfuture), hfirst⟩

end Result

end Automaton

end FiniteAutomata
