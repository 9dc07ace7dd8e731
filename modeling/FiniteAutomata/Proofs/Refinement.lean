import FiniteAutomata.Proofs.Futures
import FiniteAutomata.Proofs.Trimming
import FiniteAutomata.Refinement
import Mathlib.Data.Finset.Prod

/-! The refinement of a trimmed automaton marks exactly the pairs of states with the same future. No
pass removes the mark of such a pair, because its edges agree. A pass that changes the table removes
marks, so the fuel is enough to reach a table that a pass leaves as it is; in that table the edges of
all marked pairs agree, and the marks are a bisimulation. -/

namespace FiniteAutomata

namespace PairTable

variable {t t' : PairTable} {n i j k l : Nat}

/-- The marked pairs below `n`. -/
def marks (n : Nat) (t : PairTable) : Finset (Nat × Nat) :=
  (Finset.range n ×ˢ Finset.range n).filter fun pair => t.marked pair.1 pair.2 = true

theorem mem_marks : (i, j) ∈ t.marks n ↔ (i < n ∧ j < n) ∧ t.marked i j = true := by
  rw [marks, Finset.mem_filter, Finset.mem_product, Finset.mem_range, Finset.mem_range]

theorem card_marks_le (n : Nat) (t : PairTable) : (t.marks n).card ≤ n * n := by
  have hle := Finset.card_filter_le (Finset.range n ×ˢ Finset.range n)
    fun pair => t.marked pair.1 pair.2 = true
  rwa [Finset.card_product, Finset.card_range] at hle

theorem marked_ofPredicate_iff {p : Nat → Nat → Bool} :
    (ofPredicate n p).marked i j = true ↔ (i < n ∧ j < n) ∧ p i j = true := by
  by_cases hbelow : i < n ∧ j < n
  · rw [marked_ofPredicate hbelow.1 hbelow.2, and_iff_right hbelow]
  · refine iff_of_false ?_ fun hmarked => hbelow hmarked.1
    rw [marked, ofPredicate]
    by_cases hi : i < n
    · have hj : ¬ j < n := fun hj => hbelow ⟨hi, hj⟩
      simp [hi, hj]
    · simp [hi]

theorem marked_erase_iff :
    (t.erase i j).marked k l = true ↔ t.marked k l = true ∧ ¬ (k = i ∧ l = j) := by
  rw [marked_erase]
  simp only [Bool.and_eq_true, Bool.not_eq_true', Bool.and_eq_false_iff, decide_eq_false_iff_not]
  rw [Classical.not_and_iff_not_or_not]

theorem marks_erase_subset : (t.erase i j).marks n ⊆ t.marks n := by
  rintro ⟨k, l⟩ hmem
  rw [mem_marks, marked_erase_iff] at hmem
  exact mem_marks.2 ⟨hmem.1, hmem.2.1⟩

theorem marks_erase_ssubset (hi : i < n) (hj : j < n) (hmarked : t.marked i j = true) :
    (t.erase i j).marks n ⊂ t.marks n := by
  refine (Finset.ssubset_iff_of_subset marks_erase_subset).2
    ⟨(i, j), mem_marks.2 ⟨⟨hi, hj⟩, hmarked⟩, ?_⟩
  rw [mem_marks, marked_erase_iff]
  intro hmem
  exact hmem.2.2 ⟨rfl, rfl⟩

/-- The representative is the smallest number that is marked with `i`. -/
theorem representative_spec (hself : t.marked i i = true) :
    t.marked i (t.representative i) = true ∧ ∀ k, t.marked i k = true → t.representative i ≤ k := by
  cases hfind : (List.range (i + 1)).find? fun j => t.marked i j with
  | none =>
      have hnone := List.find?_range_eq_none.1 hfind i (Nat.lt_succ_self i)
      simp [hself] at hnone
  | some first =>
      obtain ⟨hfirst, hmem, hbelow⟩ := List.find?_range_eq_some.1 hfind
      rw [representative, hfind, Option.getD_some]
      refine ⟨hfirst, fun k hk => Nat.le_of_not_lt fun hlt => ?_⟩
      have hunmarked := hbelow k hlt
      simp [hk] at hunmarked

section Fold

variable {α : Type} {step : PairTable → α → PairTable} {pairs : List α}
  (hstep : ∀ t, ∀ pair ∈ pairs, step t pair = t ∨ (step t pair).marks n ⊂ t.marks n)

include hstep

/-- Steps that each remove a mark or change nothing do so together. -/
theorem foldl_eq_or_ssubset :
    pairs.foldl step t = t ∨ (pairs.foldl step t).marks n ⊂ t.marks n := by
  induction pairs generalizing t with
  | nil => exact .inl rfl
  | cons pair pairs ih =>
      obtain ⟨hhead, htail⟩ := forall_and.1 fun t => List.forall_mem_cons.1 (hstep t)
      rw [List.foldl_cons]
      rcases ih htail (t := step t pair) with hrest | hrest
      · rw [hrest]
        exact hhead t
      · rcases hhead t with hsame | hless
        · rw [hsame] at hrest ⊢
          exact .inr hrest
        · exact .inr (hrest.trans hless)

/-- When all steps together change nothing, no step does. -/
theorem step_eq_of_foldl_eq (hfixed : pairs.foldl step t = t) : ∀ pair ∈ pairs, step t pair = t := by
  induction pairs with
  | nil => exact List.forall_mem_nil _
  | cons pair pairs ih =>
      obtain ⟨hhead, htail⟩ := forall_and.1 fun t => List.forall_mem_cons.1 (hstep t)
      rw [List.foldl_cons] at hfixed
      have hsame : step t pair = t := by
        rcases hhead t with hsame | hless
        · exact hsame
        · have hrest := foldl_eq_or_ssubset htail (t := step t pair)
          rw [hfixed] at hrest
          rcases hrest with hrest | hrest
          · exact hrest.symm
          · exact absurd (hrest.trans hless) (ssubset_irrefl _)
      rw [hsame] at hfixed
      exact List.forall_mem_cons.2 ⟨hsame, ih htail hfixed⟩

end Fold

end PairTable

namespace Automaton

variable {a : Automaton} {t : PairTable} {n i j p q : Nat} {s : Symbol}

section Matching

/-- Two states have edges under the same symbols, and the targets of edges under one symbol are related. -/
def Matching (a : Automaton) (related : StateId → StateId → Prop) (p q : StateId) : Prop :=
  (∀ s, (∃ p', a.HasEdge p s p') ↔ ∃ q', a.HasEdge q s q') ∧
    ∀ s p' q', a.HasEdge p s p' → a.HasEdge q s q' → related p' q'

theorem Matching.mono {related related' : StateId → StateId → Prop} (hle : ∀ p q, related p q → related' p q)
    (hmatching : a.Matching related p q) : a.Matching related' p q :=
  ⟨hmatching.1, fun s p' q' hp hq => hle p' q' (hmatching.2 s p' q' hp hq)⟩

/-- States have the same future when they are related by a relation that the final states respect and the edges
carry on. -/
theorem sameFuture_of_matching {related : StateId → StateId → Prop} (hvalid : a.Valid) (hepsilon : a.EpsilonFree)
    (hfinal : ∀ p q, related p q → (p ∈ a.final ↔ q ∈ a.final))
    (hmatching : ∀ p ∈ a.states, ∀ q ∈ a.states, related p q → a.Matching related p q)
    (hp : p ∈ a.states) (hq : q ∈ a.states) (hpq : related p q) : SameFuture a a p q := by
  have hbisimulation : Bisimulation a a fun p q => (p ∈ a.states ∧ q ∈ a.states) ∧ related p q := by
    refine ⟨fun p q hpq => hfinal p q hpq.2, ?_, ?_⟩
    · intro p q s p' hpq hedge
      obtain ⟨hsymbols, htargets⟩ := hmatching p hpq.1.1 q hpq.1.2 hpq.2
      obtain ⟨q', hedge'⟩ := (hsymbols s).1 ⟨p', hedge⟩
      exact ⟨q', hedge', ⟨hvalid.target_mem p s p' hedge, hvalid.target_mem q s q' hedge'⟩,
        htargets s p' q' hedge hedge'⟩
    · intro p q s q' hpq hedge'
      obtain ⟨hsymbols, htargets⟩ := hmatching p hpq.1.1 q hpq.1.2 hpq.2
      obtain ⟨p', hedge⟩ := (hsymbols s).2 ⟨q', hedge'⟩
      exact ⟨p', hedge, ⟨hvalid.target_mem p s p' hedge, hvalid.target_mem q s q' hedge'⟩,
        htargets s p' q' hedge hedge'⟩
  exact hbisimulation.sameFuture hepsilon hepsilon ⟨⟨hp, hq⟩, hpq⟩

end Matching

section EdgesAgree

/-- Two states have edges under the same symbols, and the targets of edges under one symbol are
marked. -/
def Agree (a : Automaton) (t : PairTable) (i j : StateId) : Prop :=
  (∀ s, (∃ p, a.HasEdge i s p) ↔ ∃ q, a.HasEdge j s q) ∧
    ∀ s p q, a.HasEdge i s p → a.HasEdge j s q → t.marked p q = true

/-- Agreement is matching by the marks. -/
theorem Agree.matching (h : a.Agree t i j) : a.Matching (fun p q => t.marked p q = true) i j := h

theorem mem_symbols : s ∈ (a.row i).toList.map (·.symbol) ↔ ∃ q, a.HasEdge i s q := by
  rw [List.mem_map]
  refine ⟨?_, ?_⟩
  · intro hstep
    obtain ⟨⟨_, q⟩, hedge, rfl⟩ := hstep
    exact ⟨q, hedge⟩
  · intro hstep
    obtain ⟨q, hedge⟩ := hstep
    exact ⟨⟨s, q⟩, hedge, rfl⟩

theorem Deterministic.nodup_symbols (h : a.Deterministic) (i : StateId) :
    ((a.row i).toList.map (·.symbol)).Nodup := by
  apply (SortedSet.nodup_toList (a.row i)).map_on
  rintro ⟨s, p⟩ hp ⟨s', q⟩ hq heq
  obtain rfl : s = s' := heq
  rw [h.functional i s p q hp hq]

/-- Comparing the numbers of edges and looking up the targets from one side is enough. -/
theorem Deterministic.edgesAgree_iff (h : a.Deterministic) :
    a.edgesAgree t i j = true ↔ a.Agree t i j := by
  rw [edgesAgree, Bool.and_eq_true, beq_iff_eq, List.all_eq_true]
  have hlength : ∀ i, ((a.row i).toList.map (·.symbol)).length = (a.row i).size :=
    fun i => List.length_map _
  refine ⟨?_, ?_⟩
  · intro hagree
    obtain ⟨hsize, hmarked⟩ := hagree
    have hlookup : ∀ s p, a.HasEdge i s p → ∃ q, a.HasEdge j s q ∧ t.marked p q = true := by
      intro s p hedge
      obtain ⟨q, hq, hpq⟩ := (Option.any_eq_true _ _).1 (hmarked ⟨s, p⟩ hedge)
      exact ⟨q, hasEdge_of_successor? hq, hpq⟩
    have hsubset : (a.row i).toList.map (·.symbol) ⊆ (a.row j).toList.map (·.symbol) := by
      intro s hs
      obtain ⟨p, hedge⟩ := mem_symbols.1 hs
      obtain ⟨q, hq, _⟩ := hlookup s p hedge
      exact mem_symbols.2 ⟨q, hq⟩
    have hperm := (List.subperm_of_subset (h.nodup_symbols i) hsubset).perm_of_length_le
      (by rw [hlength, hlength, hsize])
    refine ⟨fun s => ?_, fun s p q hp hq => ?_⟩
    · rw [← mem_symbols, ← mem_symbols, hperm.mem_iff]
    · obtain ⟨q', hq', hpq⟩ := hlookup s p hp
      rwa [h.functional j s q q' hq hq']
  · intro hagree
    obtain ⟨hsymbols, hmarked⟩ := hagree
    refine ⟨?_, ?_⟩
    · rw [← hlength, ← hlength]
      refine ((List.perm_ext_iff_of_nodup (h.nodup_symbols i) (h.nodup_symbols j)).2 ?_).length_eq
      intro s
      rw [mem_symbols, mem_symbols, hsymbols]
    · rintro ⟨s, p⟩ hedge
      obtain ⟨q, hq⟩ := (hsymbols s).1 ⟨p, hedge⟩
      exact (Option.any_eq_true _ _).2 ⟨q, h.successor?_eq_some_iff.2 hq, hmarked s p q hedge hq⟩

theorem Agree.symm (h : a.Agree t i j) (hsymm : ∀ p q, t.marked p q = true → t.marked q p = true) :
    a.Agree t j i :=
  ⟨fun s => (h.1 s).symm, fun s p q hp hq => hsymm q p (h.2 s q p hq hp)⟩

end EdgesAgree

/-- The invariant of the refinement: states with the same future stay marked, and no marked pair is
told apart by the empty word. -/
structure Refines (a : Automaton) (t : PairTable) : Prop where
  symmetric : ∀ i j, t.marked i j = true → t.marked j i = true
  final : ∀ i j, t.marked i j = true → (i ∈ a.final ↔ j ∈ a.final)
  complete : ∀ i ∈ a.states, ∀ j ∈ a.states, SameFuture a a i j → t.marked i j = true

section Pass

/-- The pairs in the order in which a pass looks at them. -/
def pairsBelow (n : Nat) : List (Nat × Nat) :=
  (List.range n).flatMap fun i => (List.range i).map fun j => (i, j)

theorem mem_pairsBelow : (i, j) ∈ pairsBelow n ↔ j < i ∧ i < n := by
  simp only [pairsBelow, List.mem_flatMap, List.mem_map, List.mem_range, Prod.mk.injEq]
  refine ⟨?_, ?_⟩
  · intro hpair
    obtain ⟨i, hi, j, hj, rfl, rfl⟩ := hpair
    exact ⟨hj, hi⟩
  · intro hpair
    obtain ⟨hj, hi⟩ := hpair
    exact ⟨i, hi, j, hj, rfl, rfl⟩

theorem refinePass_eq_foldl :
    a.refinePass n t = (pairsBelow n).foldl (fun t pair => a.refinePair t pair.1 pair.2) t := by
  rw [refinePass, pairsBelow, List.foldl_flatMap]
  simp only [List.foldl_map]

/-- Looking at a pair marks nothing. -/
theorem marked_of_refinePair {k l : Nat} (hmarked : (a.refinePair t i j).marked k l = true) :
    t.marked k l = true := by
  rw [refinePair] at hmarked
  split at hmarked
  · rw [PairTable.marked_erase_iff, PairTable.marked_erase_iff] at hmarked
    exact hmarked.1.1
  · exact hmarked

/-- A pair that is still marked after it was looked at has edges that agree. -/
theorem edgesAgree_of_refinePair (hmarked : (a.refinePair t i j).marked i j = true) :
    a.edgesAgree t i j = true := by
  have hbefore := marked_of_refinePair hmarked
  by_contra hdiffer
  have hremoved : (t.marked i j && !a.edgesAgree t i j) = true := by
    rw [hbefore, Bool.eq_false_of_not_eq_true hdiffer]
    rfl
  rw [refinePair, if_pos hremoved, PairTable.marked_erase_iff, PairTable.marked_erase_iff] at hmarked
  exact hmarked.1.2 ⟨rfl, rfl⟩

/-- A pair that is looked at keeps its marks, or both of them are removed. -/
theorem refinePair_eq_or_ssubset (hi : i < n) (hj : j < n) :
    a.refinePair t i j = t ∨ (a.refinePair t i j).marks n ⊂ t.marks n := by
  rw [refinePair]
  split
  · next hremoved =>
      rw [Bool.and_eq_true] at hremoved
      right
      exact PairTable.marks_erase_subset.trans_ssubset (PairTable.marks_erase_ssubset hi hj hremoved.1)
  · exact .inl rfl

theorem refinePair_step : ∀ t, ∀ pair ∈ pairsBelow n, a.refinePair t pair.1 pair.2 = t ∨
    (a.refinePair t pair.1 pair.2).marks n ⊂ t.marks n := by
  rintro t ⟨i, j⟩ hpair
  obtain ⟨hj, hi⟩ := mem_pairsBelow.1 hpair
  exact refinePair_eq_or_ssubset hi (hj.trans hi)

theorem refinePass_eq_or_ssubset :
    a.refinePass n t = t ∨ (a.refinePass n t).marks n ⊂ t.marks n := by
  rw [refinePass_eq_foldl]
  exact PairTable.foldl_eq_or_ssubset refinePair_step

/-- In a table that a pass leaves as it is the edges of all marked pairs agree. -/
theorem Deterministic.agree_of_refinePass_eq (h : a.Deterministic) (hfixed : a.refinePass n t = t)
    (hj : j < i) (hi : i < n) (hmarked : t.marked i j = true) : a.Agree t i j := by
  rw [refinePass_eq_foldl] at hfixed
  have hsame := PairTable.step_eq_of_foldl_eq refinePair_step hfixed (i, j) (mem_pairsBelow.2 ⟨hj, hi⟩)
  rw [← h.edgesAgree_iff]
  apply edgesAgree_of_refinePair
  rw [hsame, hmarked]

/-- A search for a fixed table that has more fuel than there are marks finds one. -/
theorem refinePass_refineFrom (fuel : Nat) (hfuel : (t.marks n).card < fuel) :
    a.refinePass n (a.refineFrom n fuel t).table = (a.refineFrom n fuel t).table := by
  induction fuel generalizing t with
  | zero => omega
  | succ fuel ih =>
      rw [refineFrom]
      split
      · next hfixed =>
          show a.refinePass n (a.refinePass n t) = a.refinePass n t
          rw [hfixed, hfixed]
      · next hchanged =>
          apply ih
          have hless := Finset.card_lt_card (refinePass_eq_or_ssubset.resolve_left hchanged)
          omega

end Pass

section Invariant

variable (h : a.Trimmed)

include h

theorem Trimmed.agree_of_sameFuture (ht : a.Refines t) (hsame : SameFuture a a i j) : a.Agree t i j := by
  have hdeterministic := h.deterministic
  refine ⟨fun s => ⟨?_, ?_⟩, fun s p q hp hq => ?_⟩
  · intro hstep
    obtain ⟨p, hp⟩ := hstep
    obtain ⟨q, hq, _⟩ := hdeterministic.exists_edge hdeterministic hsame hp (h.productive i s p hp)
    exact ⟨q, hq⟩
  · intro hstep
    obtain ⟨q, hq⟩ := hstep
    obtain ⟨p, hp, _⟩ := hdeterministic.exists_edge hdeterministic hsame.symm hq (h.productive j s q hq)
    exact ⟨p, hp⟩
  · exact ht.complete p (h.valid.target_mem i s p hp) q (h.valid.target_mem j s q hq)
      (hdeterministic.sameFuture_of_edges hdeterministic hsame hp hq)

theorem Refines.refinePair (ht : a.Refines t) (i j : Nat) : a.Refines (a.refinePair t i j) := by
  rw [Automaton.refinePair]
  split
  · next hremoved =>
      have hmarked : ∀ k l, ((t.erase i j).erase j i).marked k l = true ↔
          (t.marked k l = true ∧ ¬ (k = i ∧ l = j)) ∧ ¬ (k = j ∧ l = i) := by
        intro k l
        rw [PairTable.marked_erase_iff, PairTable.marked_erase_iff]
      refine ⟨fun k l hkl => ?_, fun k l hkl => ?_, fun k hk l hl hsame => ?_⟩
      · rw [hmarked] at hkl ⊢
        exact ⟨⟨ht.symmetric k l hkl.1.1, fun heq => hkl.2 heq.symm⟩, fun heq => hkl.1.2 heq.symm⟩
      · exact ht.final k l ((hmarked k l).1 hkl).1.1
      · -- A pair with the same future has agreeing edges, so it is not the one that was removed.
        have hdiffer : ¬ SameFuture a a i j := by
          intro hsame
          have hagree := h.deterministic.edgesAgree_iff.2 (h.agree_of_sameFuture ht hsame)
          simp [hagree] at hremoved
        rw [hmarked]
        refine ⟨⟨ht.complete k hk l hl hsame, ?_⟩, ?_⟩
        · intro hpair
          obtain ⟨rfl, rfl⟩ := hpair
          exact hdiffer hsame
        · intro hpair
          obtain ⟨rfl, rfl⟩ := hpair
          exact hdiffer hsame.symm
  · exact ht

theorem Refines.refinePass (ht : a.Refines t) (n : Nat) : a.Refines (a.refinePass n t) := by
  rw [refinePass_eq_foldl]
  exact List.foldlRecOn _ _ ht fun t ht pair _ => ht.refinePair h pair.1 pair.2

theorem Refines.refineFrom (ht : a.Refines t) (n fuel : Nat) :
    a.Refines (a.refineFrom n fuel t).table := by
  induction fuel generalizing t with
  | zero => exact ht
  | succ fuel ih =>
      rw [Automaton.refineFrom]
      split
      · exact ht.refinePass h n
      · exact ih (ht.refinePass h n)

end Invariant

section Result

/-- The states of the automaton are the numbers from 0 on. -/
def Numbered (a : Automaton) : Prop := ∀ q, q ∈ a.states ↔ q < a.stateCount

/-- The marks of the table are the pairs of states with the same future. -/
def Classifies (t : PairTable) (a : Automaton) : Prop :=
  ∀ p ∈ a.states, ∀ q ∈ a.states, t.marked p q = true ↔ SameFuture a a p q

variable (h : a.Trimmed) (hnumbered : a.Numbered)

include h hnumbered

theorem refines_ofPredicate :
    a.Refines (.ofPredicate a.stateCount fun i j => decide (i ∈ a.final) == decide (j ∈ a.final)) where
  symmetric i j hmarked := by
    rw [PairTable.marked_ofPredicate_iff, beq_iff_eq] at hmarked ⊢
    exact ⟨hmarked.1.symm, hmarked.2.symm⟩
  final i j hmarked := by
    rw [PairTable.marked_ofPredicate_iff, beq_iff_eq, decide_eq_decide] at hmarked
    exact hmarked.2
  complete i hi j hj hsame := by
    rw [PairTable.marked_ofPredicate_iff, beq_iff_eq, decide_eq_decide]
    refine ⟨⟨(hnumbered i).1 hi, (hnumbered j).1 hj⟩, ?_⟩
    rw [← h.deterministic.epsilonFree.acceptsFrom_nil, ← h.deterministic.epsilonFree.acceptsFrom_nil]
    exact hsame []

theorem refines_refinement : a.Refines a.refinement.table :=
  (refines_ofPredicate h hnumbered).refineFrom h _ _

theorem agree_refinement (hp : p ∈ a.states) (hq : q ∈ a.states)
    (hmarked : a.refinement.table.marked p q = true) : a.Agree a.refinement.table p q := by
  have hrefines := refines_refinement h hnumbered
  have hfixed : a.refinePass a.stateCount a.refinement.table = a.refinement.table :=
    refinePass_refineFrom _ (Nat.lt_succ_of_le (PairTable.card_marks_le _ _))
  rcases Nat.lt_trichotomy p q with hlt | heq | hlt
  · have hagree := h.deterministic.agree_of_refinePass_eq hfixed hlt ((hnumbered q).1 hq)
      (hrefines.symmetric p q hmarked)
    exact hagree.symm hrefines.symmetric
  · rw [heq]
    exact h.agree_of_sameFuture hrefines (.refl a q)
  · exact h.deterministic.agree_of_refinePass_eq hfixed hlt ((hnumbered p).1 hp) hmarked

/-- The refinement marks exactly the pairs of states with the same future. -/
theorem classifies_refinement : Classifies a.refinement.table a := by
  intro p hp q hq
  have hrefines := refines_refinement h hnumbered
  refine ⟨?_, ?_⟩
  · intro hmarked
    exact sameFuture_of_matching h.valid h.deterministic.epsilonFree hrefines.final
      (fun p hp q hq hpq => (agree_refinement h hnumbered hp hq hpq).matching) hp hq hmarked
  · exact hrefines.complete p hp q hq

end Result

end Automaton

end FiniteAutomata
