import FiniteAutomata.Proofs.CanonicalNumbering

/-! Numbering an automaton twice. In a nondeterministic automaton the order of the numbers depends on the old
numbers, for they decide which of several initial states, or of several targets under one symbol, comes first.
But the new numbers go up in the order in which the states are discovered. So the discoveries of each visit keep
their order under the new numbers, the states are found again as they were found before, and a second numbering
gives what it would have given at first. -/

namespace FiniteAutomata

open Std

namespace Search

variable {α β : Type} {R : α → α → Prop} {g : α → β}

/-- `b` has a source in the list that comes before all sources of `c`. -/
def SourceBefore (R : α → α → Prop) (g : α → β) (l : List α) (b c : β) : Prop :=
  ∃ x ∈ l, g x = b ∧ ∀ y ∈ l, g y = c → R x y

theorem SourceBefore.cons {l : List α} {b c : β} (h : SourceBefore R g l b c) {x : α} (hx : g x ≠ c) :
    SourceBefore R g (x :: l) b c := by
  obtain ⟨z, hz, hzb, hbefore⟩ := h
  exact ⟨z, List.mem_cons_of_mem x hz, hzb, List.forall_mem_cons.2 ⟨fun heq => absurd heq hx, hbefore⟩⟩

variable [DecidableEq β]

/-- What is new is listed by the first sources. -/
theorem pairwise_fresh_map {l : List α} (h : l.Pairwise R) (seen : List β) :
    (fresh seen (l.map g)).Pairwise (SourceBefore R g l) := by
  induction l generalizing seen with
  | nil => exact .nil
  | cons x l ih =>
      obtain ⟨hx, hl⟩ := List.pairwise_cons.1 h
      -- What is still new after `g x` has been seen does not come from `x`.
      have htail : ∀ seen, g x ∈ seen → (fresh seen (l.map g)).Pairwise (SourceBefore R g (x :: l)) := by
        intro seen hseen
        apply (ih hl seen).imp_of_mem
        intro b c _ hc hbefore
        apply hbefore.cons
        rintro rfl
        exact (mem_fresh.1 hc).2 hseen
      rw [List.map_cons, fresh]
      split
      · next hseen => exact htail seen hseen
      · refine List.pairwise_cons.2 ⟨fun c hc => ?_, htail _ List.mem_cons_self⟩
        refine ⟨x, List.mem_cons_self, rfl, List.forall_mem_cons.2 ⟨fun heq => ?_, fun y hy _ => hx y hy⟩⟩
        exact absurd (heq ▸ List.mem_cons_self) (mem_fresh.1 hc).2

theorem fresh_of_nodup {l seen : List β} (h : l.Nodup) (hseen : ∀ b ∈ l, b ∉ seen) : fresh seen l = l := by
  induction l generalizing seen with
  | nil => rfl
  | cons b l ih =>
      obtain ⟨hb, hl⟩ := List.nodup_cons.1 h
      obtain ⟨hnew, hseen⟩ := List.forall_mem_cons.1 hseen
      rw [fresh, if_neg hnew, ih hl fun c hc hmem => ?_]
      rcases List.mem_cons.1 hmem with rfl | hmem
      · exact hb hc
      · exact hseen c hc hmem

end Search

namespace Automaton

variable {a b c : Automaton} {f : StateId → StateId} {p : StateId} {seen : List StateId} {t s : StateId}

/-- The numbers go up along the order in which they are given. -/
theorem pairwise_numberIn (a : Automaton) (start : StateId) : a.numberingOrder.Pairwise fun p q =>
    numberIn a.numberingOrder start p < numberIn a.numberingOrder start q := by
  rw [List.pairwise_iff_getElem]
  intro i j hi hj hlt
  rw [numberIn_of_mem (List.getElem_mem hi), numberIn_of_mem (List.getElem_mem hj),
    a.nodup_numberingOrder.idxOf_getElem, a.nodup_numberingOrder.idxOf_getElem]
  exact Nat.add_lt_add_left hlt start

section Rows

/-- The targets of the edges of a state. -/
abbrev targets (a : Automaton) (p : StateId) : List StateId := (a.row p).toList.map (·.target)

theorem mem_targets {q : StateId} : q ∈ a.targets p ↔ ∃ s, a.HasEdge p s q := by
  rw [targets, List.mem_map]
  refine ⟨?_, ?_⟩
  · rintro ⟨⟨s, _⟩, hedge, rfl⟩
    exact ⟨s, hedge⟩
  · rintro ⟨s, hedge⟩
    exact ⟨⟨s, q⟩, hedge, rfl⟩

theorem mem_states_of_targets (ha : a.Valid) {q : StateId} (hq : q ∈ Search.fresh seen (a.targets p)) :
    q ∈ a.states := by
  obtain ⟨s, hedge⟩ := mem_targets.1 (Search.mem_fresh.1 hq).1
  exact ha.target_mem p s q hedge

/-- The order of the new targets in a row: by the smallest symbol and, under the same symbol, by the number. -/
abbrev TargetBefore (row : SortedSet Transition) : StateId → StateId → Prop :=
  Search.SourceBefore (fun σ τ => compare σ τ = .lt) Transition.target row.toList

theorem TargetBefore.asymm {row : SortedSet Transition} {q r : StateId} (hq : TargetBefore row q r) :
    ¬ TargetBefore row r q := by
  intro hr
  obtain ⟨σ, hσ, rfl, hbeforeσ⟩ := hq
  obtain ⟨τ, hτ, rfl, hbeforeτ⟩ := hr
  have hlt : compare σ τ = .lt := hbeforeσ τ hτ rfl
  have hgt : compare τ σ = .lt := hbeforeτ σ hσ rfl
  exact absurd (TransCmp.lt_trans hlt hgt) (by simp)

variable (h : IsIsomorphism a b f) (ha : a.Valid) (hb : b.Valid)

include h ha hb

theorem mem_row_map (hp : p ∈ a.states) {s : Symbol} {q' : StateId} :
    ⟨s, q'⟩ ∈ b.row (f p) ↔ ∃ q, ⟨s, q⟩ ∈ a.row p ∧ f q = q' :=
  h.hasEdge_iff ha hb hp

/-- A renaming that keeps the order of two targets keeps the order in which they are discovered. -/
theorem TargetBefore.map (hp : p ∈ a.states) {q r : StateId} (hr : r ∈ a.states) (hlt : f q < f r)
    (hbefore : TargetBefore (a.row p) q r) : TargetBefore (b.row (f p)) (f q) (f r) := by
  obtain ⟨⟨s, q⟩, hq, rfl, hfirst⟩ := hbefore
  refine ⟨⟨s, f q⟩, (mem_row_map h ha hb hp).2 ⟨q, hq, rfl⟩, rfl, ?_⟩
  rintro ⟨s', _⟩ hedge rfl
  obtain ⟨r', hr', heq⟩ := (mem_row_map h ha hb hp).1 hedge
  obtain rfl := h.injective r' (ha.target_mem p s' r' hr') r hr heq
  have hcompare := Transition.compare_eq_lt_iff.1 (hfirst ⟨s', r'⟩ hr' rfl)
  exact Transition.compare_eq_lt_iff.2 (hcompare.imp_right fun hsame => ⟨hsame.1, Nat.compare_eq_lt.2 hlt⟩)

/-- A visit of an image discovers the images. -/
theorem mem_fresh_targets_iff (hp : p ∈ a.states) (hseen : ∀ q ∈ seen, q ∈ a.states) {q' : StateId} :
    q' ∈ Search.fresh (seen.map f) (b.targets (f p)) ↔ q' ∈ (Search.fresh seen (a.targets p)).map f := by
  rw [Search.mem_fresh, mem_targets]
  refine ⟨?_, ?_⟩
  · rintro ⟨⟨s, hedge⟩, hnew⟩
    obtain ⟨q, hold, rfl⟩ := (h.hasEdge_iff ha hb hp).1 hedge
    exact List.mem_map_of_mem (Search.mem_fresh.2 ⟨mem_targets.2 ⟨s, hold⟩, mt List.mem_map_of_mem hnew⟩)
  · intro hq'
    obtain ⟨q, hq, rfl⟩ := List.mem_map.1 hq'
    obtain ⟨htarget, hnew⟩ := Search.mem_fresh.1 hq
    obtain ⟨s, hedge⟩ := mem_targets.1 htarget
    refine ⟨⟨s, (h.hasEdge_iff ha hb hp).2 ⟨q, hedge, rfl⟩⟩, fun hold => hnew ?_⟩
    have hinjective := fun p q hp hq => h.injective p hp q hq
    exact (Search.mem_map_of_inside f hinjective hseen (ha.target_mem p s q hedge)).1 hold

/-- What a visit discovers is renamed in its order, as long as the names go up along it. -/
theorem fresh_targets_map (hp : p ∈ a.states) (hseen : ∀ q ∈ seen, q ∈ a.states)
    (hascending : (Search.fresh seen (a.targets p)).Pairwise fun q r => f q < f r) :
    Search.fresh (seen.map f) (b.targets (f p)) = (Search.fresh seen (a.targets p)).map f := by
  have hnodup : ((Search.fresh seen (a.targets p)).map f).Nodup :=
    List.pairwise_map.2 (hascending.imp Nat.ne_of_lt)
  have hperm : (Search.fresh (seen.map f) (b.targets (f p))).Perm ((Search.fresh seen (a.targets p)).map f) :=
    (List.perm_ext_iff_of_nodup (Search.nodup_fresh _ _) hnodup).2 fun q' => mem_fresh_targets_iff h ha hb hp hseen
  have hordered : ((Search.fresh seen (a.targets p)).map f).Pairwise (TargetBefore (b.row (f p))) := by
    rw [List.pairwise_map]
    apply (hascending.and (Search.pairwise_fresh_map (a.row p).ascending seen)).imp_of_mem
    rintro q r - hr ⟨hlt, hbefore⟩
    exact TargetBefore.map h ha hb hp (mem_states_of_targets ha hr) hlt hbefore
  -- Both lists hold the same states in the order of the row of the image, and there is only one such list.
  exact hperm.eq_of_pairwise (fun q r _ _ hq hr => absurd hr (TargetBefore.asymm hq))
    (Search.pairwise_fresh_map (b.row (f p)).ascending (seen.map f)) hordered

end Rows

section Order

/-- A set of names is listed by the names of a list along which they go up. -/
theorem toList_eq_map {names : SortedSet StateId} {l : List StateId} (hl : l.Pairwise fun p q => f p < f q)
    (hmem : ∀ q', q' ∈ names ↔ ∃ q ∈ l, f q = q') : names.toList = l.map f := by
  apply SortedSet.toList_eq
  · exact List.pairwise_map.2 (hl.imp Nat.compare_eq_lt.2)
  · intro q'
    rw [hmem, List.mem_map]

variable (h : IsIsomorphism a b f) (ha : a.Valid) (hb : b.Valid)

include h ha hb

/-- The initial states are the first ones of the numbering. -/
theorem initial_toList_eq_map (hascending : a.reachable.Pairwise fun p q => f p < f q) :
    b.initial.toList = a.initial.toList.map f := by
  have hfresh : Search.fresh [] a.initial.toList = a.initial.toList :=
    Search.fresh_of_nodup (SortedSet.nodup_toList a.initial) fun _ _ => List.not_mem_nil
  have hprefix := Search.prefix_explore (fun q => (a.row q).toList.map (·.target))
    (a.initial.toList.length + a.table.size) [] (Search.fresh [] a.initial.toList)
  rw [List.nil_append, hfresh] at hprefix
  rw [reachable_eq_reach, Search.reach, hfresh] at hascending
  apply toList_eq_map (hascending.sublist hprefix.sublist)
  intro q'
  refine ⟨fun hq' => ?_, ?_⟩
  · obtain ⟨q, hq, rfl⟩ := (h.states q').1 (hb.initial_mem q' hq')
    exact ⟨q, (h.initial q hq).1 hq', rfl⟩
  · rintro ⟨q, hq, rfl⟩
    exact (h.initial q (ha.initial_mem q hq)).2 hq

/-- The states are discovered again in their order. -/
theorem reachable_eq_map (hascending : a.reachable.Pairwise fun p q => f p < f q) :
    b.reachable = a.reachable.map f := by
  have hinitial := initial_toList_eq_map h ha hb hascending
  rw [reachable_eq_reach] at hascending
  rw [reachable_eq_reach, reachable_eq_reach]
  have hinside : ∀ q ∈ Search.reach a.targets (a.initial.toList.length + a.table.size) a.initial.toList,
      q ∈ a.states := by
    intro q hq
    exact ha.mem_states_of_reachable (reachable_eq_reach a ▸ hq)
  refine Search.reach_map_of_fresh f ?_ a.bounded_row_targets.reached b.bounded_row_targets ?_ hascending
  · intro p seen hp hseen
    exact fresh_targets_map h ha hb (hinside p hp) fun q hq => hinside q (hseen q hq)
  · rw [hinitial]
    refine Search.fresh_map f ?_ (List.forall_mem_nil (· ∈ a.states)) ha.initial_mem
    exact fun p q hp hq => h.injective p hp q hq

/-- So are the states that are not reached, which come last and by their numbers. -/
theorem numberingOrder_eq_map (hascending : a.numberingOrder.Pairwise fun p q => f p < f q) :
    b.numberingOrder = a.numberingOrder.map f := by
  obtain ⟨hreached, hrest, _⟩ := List.pairwise_append.1 hascending
  have hreachable := reachable_eq_map h ha hb hreached
  have hunreached : (b.states.filter fun q => !decide (q ∈ b.reachable)).toList =
      (a.states.toList.filter fun q => !decide (q ∈ a.reachable)).map f := by
    apply toList_eq_map hrest
    intro q'
    have hmem : ∀ q ∈ a.states, f q ∈ b.reachable ↔ q ∈ a.reachable := by
      intro q hq
      rw [hreachable]
      exact Search.mem_map_of_inside f (fun p q hp hq => h.injective p hp q hq)
        (fun q hq => ha.mem_states_of_reachable hq) hq
    rw [SortedSet.mem_filter, h.states]
    refine ⟨?_, ?_⟩
    · rintro ⟨⟨q, hq, rfl⟩, hnew⟩
      rw [decide_eq_decide.2 (hmem q hq)] at hnew
      exact ⟨q, List.mem_filter.2 ⟨hq, hnew⟩, rfl⟩
    · rintro ⟨q, hq, rfl⟩
      obtain ⟨hq, hnew⟩ := List.mem_filter.1 hq
      rw [← decide_eq_decide.2 (hmem q hq)] at hnew
      exact ⟨⟨q, hq, rfl⟩, hnew⟩
  calc b.numberingOrder
      = b.reachable ++ (b.states.filter fun q => !decide (q ∈ b.reachable)).toList := rfl
    _ = a.reachable.map f ++ (a.states.toList.filter fun q => !decide (q ∈ a.reachable)).map f := by
      rw [hunreached, hreachable]
    _ = a.numberingOrder.map f := List.map_append.symm

end Order

section Absorption

/-- A numbered automaton is numbered as the automaton itself would be, whatever the first number is. -/
theorem renumber_eq_of_renumber (ha : a.Valid) (hrows : a.table.NoEmptyRow) (hb : a.renumber t = .ok b)
    (s : StateId) : b.renumber s = a.renumber s := by
  obtain ⟨hisomorphism, hkind, hvalid, hrowsb, _⟩ := renumber_spec ha hrows hb
  have horder := numberingOrder_eq_map hisomorphism ha hvalid (a.pairwise_numberIn t)
  exact (renumber_eq_of_numberingOrder_map hisomorphism ha hvalid hkind.symm hrows hrowsb horder s).symm

/-- Numbering absorbs an earlier numbering: wherever both succeed, the result is that of the second one alone. In
particular numbering again from the same number changes nothing. -/
theorem renumber_absorbs (hbuilt : a.Built) (hvalidate : a.validate = .ok ()) (hb : a.renumber t = .ok b)
    (hc : a.renumber s = .ok c) : b.renumber s = .ok c ∧ c.renumber s = .ok c := by
  have ha := validate_eq_ok_iff.1 hvalidate
  have hagain {t : StateId} {b : Automaton} (hb : a.renumber t = .ok b) : b.renumber s = a.renumber s :=
    renumber_eq_of_renumber ha hbuilt.noEmptyRow hb s
  exact ⟨(hagain hb).trans hc, (hagain hc).trans hc⟩

/-- Two initial states, each with several targets under one symbol, and two states that are not reached. -/
def crossed : Automaton :=
  { kind := .nfa
    states := .ofList [9, 7, 5, 4, 3, 1]
    alphabet := .ofList ["a", "b"]
    initial := .ofList [7, 4]
    final := .ofList [3]
    table := .ofEdges [⟨4, "b", 9⟩, ⟨4, "b", 3⟩, ⟨4, "a", 9⟩, ⟨7, "a", 4⟩, ⟨7, "a", 3⟩, ⟨5, "*", 1⟩, ⟨1, "a", 9⟩] }

theorem renumber_absorbs_crossed :
    ∃ b c, crossed.Built ∧ crossed.validate = .ok () ∧ crossed.renumber 100 = .ok b ∧ crossed.renumber 3 = .ok c ∧
      crossed.numberingOrder = [4, 7, 9, 3, 1, 5] ∧ b.renumber 3 = .ok c ∧ c.renumber 3 = .ok c := by
  have hvalidate : crossed.validate = .ok () := by decide +kernel
  have hbuilt := (validate_eq_ok_iff.1 hvalidate).built (TransitionTable.noEmptyRow_ofEdges _)
  have hb : crossed.renumber 100 = .ok (crossed.relabel (numberIn crossed.numberingOrder 100)) := by
    decide +kernel
  have hc : crossed.renumber 3 = .ok (crossed.relabel (numberIn crossed.numberingOrder 3)) := by decide +kernel
  have horder : crossed.numberingOrder = [4, 7, 9, 3, 1, 5] := by decide +kernel
  exact ⟨_, _, hbuilt, hvalidate, hb, hc, horder, renumber_absorbs hbuilt hvalidate hb hc⟩

end Absorption

end Automaton

end FiniteAutomata
