import FiniteAutomata.Proofs.CanonicalNumbering
import FiniteAutomata.Proofs.Renumbering
import FiniteAutomata.Proofs.Validity

/-! The test for isomorphism. Two automata are walked through in step from their initial states, and the states
that are met together become partners; the test gives up when a state would get a second partner. The pairs stay
one to one, and all that is compared of two partners is whether they are final, how many edges leave them, and
whether each edge of the left one is matched. In deterministic automata equal numbers make up for the other
direction. So the test finds an isomorphism whenever there is one, as long as every state is reached. -/

namespace FiniteAutomata.Automaton

variable {a b : Automaton} {f : StateId → StateId} {p p₀ p' q q₀ q' : StateId} {s : Symbol}
  {pairs joined result : Pairing} {ts : List Transition} {fuel i : Nat}

namespace Pairing

/-- No state has two partners. -/
structure OneToOne (pairs : Pairing) : Prop where
  left : (pairs.map Prod.fst).Nodup
  right : (pairs.map Prod.snd).Nodup

theorem mem_left (h : (p, q) ∈ pairs) : p ∈ pairs.map Prod.fst := List.mem_map.2 ⟨(p, q), h, rfl⟩

theorem mem_right (h : (p, q) ∈ pairs) : q ∈ pairs.map Prod.snd := List.mem_map.2 ⟨(p, q), h, rfl⟩

theorem exists_of_mem_left (h : p ∈ pairs.map Prod.fst) : ∃ q, (p, q) ∈ pairs := by
  obtain ⟨⟨_, q⟩, hmem, rfl⟩ := List.mem_map.1 h
  exact ⟨q, hmem⟩

theorem exists_of_mem_right (h : q ∈ pairs.map Prod.snd) : ∃ p, (p, q) ∈ pairs := by
  obtain ⟨⟨p, _⟩, hmem, rfl⟩ := List.mem_map.1 h
  exact ⟨p, hmem⟩

theorem rightOf?_eq_none : pairs.rightOf? p = none ↔ p ∉ pairs.map Prod.fst := by
  simp only [rightOf?, Option.map_eq_none_iff, List.find?_eq_none, beq_iff_eq, List.mem_map, not_exists, not_and]

theorem leftOf?_eq_none : pairs.leftOf? q = none ↔ q ∉ pairs.map Prod.snd := by
  simp only [leftOf?, Option.map_eq_none_iff, List.find?_eq_none, beq_iff_eq, List.mem_map, not_exists, not_and]

theorem mem_of_rightOf? (h : pairs.rightOf? p = some q) : (p, q) ∈ pairs := by
  obtain ⟨⟨p', q'⟩, hfind, rfl⟩ := Option.map_eq_some_iff.1 h
  have heq : p' = p := by simpa using List.find?_some hfind
  exact heq ▸ List.mem_of_find?_eq_some hfind

namespace OneToOne

variable (h : pairs.OneToOne)

include h

theorem right_unique (hq : (p, q) ∈ pairs) (hq' : (p, q') ∈ pairs) : q = q' :=
  congrArg Prod.snd (List.inj_on_of_nodup_map h.left hq hq' rfl)

theorem left_unique (hp : (p, q) ∈ pairs) (hp' : (p', q) ∈ pairs) : p = p' :=
  congrArg Prod.fst (List.inj_on_of_nodup_map h.right hp hp' rfl)

theorem rightOf?_eq_some : pairs.rightOf? p = some q ↔ (p, q) ∈ pairs := by
  refine ⟨mem_of_rightOf?, fun hmem => ?_⟩
  cases hright : pairs.rightOf? p with
  | none => exact absurd (mem_left hmem) (rightOf?_eq_none.1 hright)
  | some q' => rw [h.right_unique (mem_of_rightOf? hright) hmem]

/-- Two states are joined when they are partners, or when neither of them has one. -/
theorem join?_eq_some : pairs.join? p q = some joined ↔ (p, q) ∈ pairs ∧ joined = pairs ∨
    (p ∉ pairs.map Prod.fst ∧ q ∉ pairs.map Prod.snd) ∧ joined = pairs ++ [(p, q)] := by
  rw [join?, ← rightOf?_eq_none, ← leftOf?_eq_none, ← h.rightOf?_eq_some]
  cases hright : pairs.rightOf? p with
  | none => cases hleft : pairs.leftOf? q <;> simp [eq_comm]
  | some q' =>
      cases hleft : pairs.leftOf? q with
      | none =>
          have hne : q' ≠ q := by
            rintro rfl
            exact leftOf?_eq_none.1 hleft (mem_right (mem_of_rightOf? hright))
          simp [hne]
      | some _ => by_cases heq : q = q' <;> simp [heq, eq_comm]

theorem concat (hp : p ∉ pairs.map Prod.fst) (hq : q ∉ pairs.map Prod.snd) : OneToOne (pairs ++ [(p, q)]) where
  left := by simpa using h.left.concat hp
  right := by simpa using h.right.concat hq

end OneToOne

theorem oneToOne_singleton (p q : StateId) : OneToOne [(p, q)] :=
  ⟨List.nodup_singleton p, List.nodup_singleton q⟩

end Pairing

open Pairing

section Steps

/-- The targets of transitions are joined to those of their matches, and no other states are. -/
theorem joinTargets?_spec (h : pairs.OneToOne) (hjoin : joinTargets? b q pairs ts = some joined) :
    joined.OneToOne ∧ pairs <+: joined ∧
      (∀ t ∈ ts, ∃ q', b.successor? q t.symbol = some q' ∧ (t.target, q') ∈ joined) ∧
      ∀ p' q', (p', q') ∈ joined → (p', q') ∈ pairs ∨
        ∃ t ∈ ts, t.target = p' ∧ b.successor? q t.symbol = some q' := by
  induction ts generalizing pairs with
  | nil =>
      obtain rfl : pairs = joined := Option.some.inj hjoin
      exact ⟨h, List.prefix_rfl, nofun, fun _ _ => .inl⟩
  | cons t ts ih =>
      obtain ⟨target, htarget, hjoin⟩ := Option.bind_eq_some_iff.1 hjoin
      obtain ⟨next, hnext, hjoin⟩ := Option.bind_eq_some_iff.1 hjoin
      have hstep : next.OneToOne ∧ pairs <+: next ∧ (t.target, target) ∈ next ∧
          ∀ p' q', (p', q') ∈ next → (p', q') ∈ pairs ∨ t.target = p' ∧ target = q' := by
        rcases h.join?_eq_some.1 hnext with ⟨hmem, rfl⟩ | ⟨⟨hleft, hright⟩, rfl⟩
        · exact ⟨h, List.prefix_rfl, hmem, fun _ _ => .inl⟩
        · refine ⟨h.concat hleft hright, List.prefix_append _ _, by simp, fun p' q' hmem => ?_⟩
          simpa [eq_comm] using hmem
      obtain ⟨hnextOne, hprefix, htargets, hnew⟩ := hstep
      obtain ⟨hone, hprefix', hmatched, hnew'⟩ := ih hnextOne hjoin
      refine ⟨hone, hprefix.trans hprefix', ?_, fun p' q' hmem => ?_⟩
      · exact List.forall_mem_cons.2 ⟨⟨target, htarget, hprefix'.subset htargets⟩, hmatched⟩
      · rcases hnew' p' q' hmem with hmem | ⟨u, hu, hmove⟩
        · rcases hnew p' q' hmem with hmem | ⟨rfl, rfl⟩
          · exact .inl hmem
          · exact .inr ⟨t, List.mem_cons_self, rfl, htarget⟩
        · exact .inr ⟨u, List.mem_cons_of_mem t hu, hmove⟩

/-- Two partners agree when both are final or neither is, as many edges leave one as the other, and the edges of
the left one lead to the left partners of targets on the right. -/
structure PartnersAgree (a b : Automaton) (pairs : Pairing) (p q : StateId) : Prop where
  final : p ∈ a.final ↔ q ∈ b.final
  size : (a.row p).size = (b.row q).size
  forth : ∀ s p', a.HasEdge p s p' → ∃ q', b.HasEdge q s q' ∧ (p', q') ∈ pairs

theorem PartnersAgree.mono (h : PartnersAgree a b pairs p q) (hsubset : pairs ⊆ joined) :
    PartnersAgree a b joined p q where
  final := h.final
  size := h.size
  forth s p' hedge := by
    obtain ⟨q', hedge', hmem⟩ := h.forth s p' hedge
    exact ⟨q', hedge', hsubset hmem⟩

/-- The invariant of the walk: the pairs come from common paths, and those before the position `i` agree. -/
structure Walked (a b : Automaton) (p₀ q₀ : StateId) (i : Nat) (pairs : Pairing) : Prop where
  oneToOne : pairs.OneToOne
  first : (p₀, q₀) ∈ pairs
  reached : ∀ p q, (p, q) ∈ pairs → a.Reaches p₀ p ∧ b.Reaches q₀ q
  agree : ∀ j < i, ∀ p q, pairs[j]? = some (p, q) → PartnersAgree a b pairs p q

theorem Walked.init (a b : Automaton) (p₀ q₀ : StateId) : Walked a b p₀ q₀ 0 [(p₀, q₀)] where
  oneToOne := oneToOne_singleton p₀ q₀
  first := List.mem_singleton_self _
  reached p q hmem := by
    obtain ⟨rfl, rfl⟩ := Prod.mk.inj (List.mem_singleton.1 hmem)
    exact ⟨⟨[], .nil p⟩, ⟨[], .nil q⟩⟩
  agree _ hj := absurd hj (Nat.not_lt_zero _)

theorem Walked.visit (h : Walked a b p₀ q₀ i pairs) (hpair : pairs[i]? = some (p, q))
    (hfinal : p ∈ a.final ↔ q ∈ b.final) (hsize : (a.row p).size = (b.row q).size)
    (hjoin : joinTargets? b q pairs (a.row p).toList = some joined) : Walked a b p₀ q₀ (i + 1) joined := by
  obtain ⟨hone, hprefix, hmatched, hnew⟩ := joinTargets?_spec h.oneToOne hjoin
  have hmem := List.mem_of_getElem? hpair
  refine ⟨hone, hprefix.subset h.first, fun p' q' hmem' => ?_, fun j hj p' q' hpair' => ?_⟩
  · rcases hnew p' q' hmem' with hold | ⟨t, ht, rfl, hsuccessor⟩
    · exact h.reached p' q' hold
    · obtain ⟨hp, hq⟩ := h.reached p q hmem
      have hedge : a.HasEdge p t.symbol t.target := ht
      exact ⟨hp.trans hedge.reaches, hq.trans (hasEdge_of_successor? hsuccessor).reaches⟩
  · have hold : pairs[j]? = some (p', q') := by
      have hlt : j < pairs.length := by
        have := (List.getElem?_eq_some_iff.1 hpair).1
        omega
      obtain ⟨more, hmore⟩ := hprefix
      rw [← hpair', ← hmore, List.getElem?_append_left hlt]
    rcases Nat.lt_succ_iff_lt_or_eq.1 hj with hlt | rfl
    · exact (h.agree j hlt p' q' hold).mono hprefix.subset
    · obtain ⟨rfl, rfl⟩ := Prod.mk.inj (Option.some.inj (hpair.symm.trans hold))
      refine ⟨hfinal, hsize, fun s p' hedge => ?_⟩
      obtain ⟨q', hsuccessor, hmem'⟩ := hmatched ⟨s, p'⟩ hedge
      exact ⟨q', hasEdge_of_successor? hsuccessor, hmem'⟩

end Steps

section Walks

/-- The walk has passed all of its pairs. -/
abbrev WalkedAll (a b : Automaton) (p₀ q₀ : StateId) (pairs : Pairing) : Prop :=
  Walked a b p₀ q₀ pairs.length pairs

theorem Walked.left_mem_reachable (h : Walked a b p₀ q₀ i pairs) (hp₀ : p₀ ∈ a.initial) :
    ∀ p ∈ pairs.map Prod.fst, p ∈ a.reachable := by
  intro p hp
  obtain ⟨q, hmem⟩ := exists_of_mem_left hp
  exact mem_reachable.2 ⟨p₀, hp₀, (h.reached p q hmem).1⟩

/-- The left partners are different reached states, of which there is at most one for each edge besides the
initial one. -/
theorem Walked.length_le (h : Walked a b p₀ q₀ i pairs) (hinitial : a.initial.toList = [p₀]) :
    pairs.length ≤ 1 + a.edgeCount := by
  have hbound := a.bounded_row_targets.reached.length_le _ h.oneToOne.left fun p hp => by
    rw [← reachable_eq_reach]
    exact h.left_mem_reachable ((mem_initial_of_singleton hinitial).2 rfl) p hp
  rwa [List.length_map, hinitial] at hbound

theorem Walked.all (h : Walked a b p₀ q₀ i pairs) (hi : pairs.length ≤ i) : WalkedAll a b p₀ q₀ pairs where
  oneToOne := h.oneToOne
  first := h.first
  reached := h.reached
  agree j hj := h.agree j (Nat.lt_of_lt_of_le hj hi)

/-- What the walk returns it has passed to the end: there are no more pairs than it may look at. -/
theorem Walked.comparePairs? (h : Walked a b p₀ q₀ i pairs) (hinitial : a.initial.toList = [p₀])
    (hfuel : 1 + a.edgeCount ≤ i + fuel) (hresult : comparePairs? a b fuel i pairs = some result) :
    WalkedAll a b p₀ q₀ result := by
  induction fuel generalizing i pairs with
  | zero =>
      obtain rfl : pairs = result := Option.some.inj hresult
      exact h.all ((h.length_le hinitial).trans hfuel)
  | succ fuel ih =>
      rw [Automaton.comparePairs?] at hresult
      split at hresult
      · next hpair =>
        obtain rfl : pairs = result := Option.some.inj hresult
        exact h.all (List.getElem?_eq_none_iff.1 hpair)
      · next p q hpair =>
        split at hresult
        · next hagree =>
          obtain ⟨joined, hjoin, hresult⟩ := Option.bind_eq_some_iff.1 hresult
          refine ih (h.visit hpair (decide_eq_decide.1 hagree.1) hagree.2 hjoin) ?_ hresult
          omega
        · cases hresult

/-- The left partners are closed under edges, so they are the states that are reached. -/
theorem WalkedAll.mem_left_iff (h : WalkedAll a b p₀ q₀ pairs) : p ∈ pairs.map Prod.fst ↔ a.Reaches p₀ p := by
  refine ⟨fun hp => ?_, fun hreaches => ?_⟩
  · obtain ⟨q, hmem⟩ := exists_of_mem_left hp
    exact (h.reached p q hmem).1
  · rw [← chain_iff_reaches] at hreaches
    induction hreaches with
    | refl => exact mem_left h.first
    | tail _ hstep ih =>
        obtain ⟨s, _, hedge⟩ := hstep
        obtain ⟨q, hmem⟩ := exists_of_mem_left ih
        obtain ⟨j, hj⟩ := List.mem_iff_getElem?.1 hmem
        obtain ⟨q', _, hmem'⟩ := (h.agree j (List.getElem?_eq_some_iff.1 hj).1 _ _ hj).forth _ _ hedge
        exact mem_left hmem'

theorem WalkedAll.agree_of_mem (h : WalkedAll a b p₀ q₀ pairs) (hmem : (p, q) ∈ pairs) :
    PartnersAgree a b pairs p q := by
  obtain ⟨j, hj⟩ := List.mem_iff_getElem?.1 hmem
  exact h.agree j (List.getElem?_eq_some_iff.1 hj).1 p q hj

end Walks

section States

variable (ha : a.Valid) (hp₀ : p₀ ∈ a.initial)

include ha hp₀

theorem WalkedAll.left_subset (h : WalkedAll a b p₀ q₀ pairs) : ∀ p ∈ pairs.map Prod.fst, p ∈ a.states := by
  intro p hp
  obtain ⟨w, hpath⟩ := h.mem_left_iff.1 hp
  exact ha.mem_states_of_path (ha.initial_mem p₀ hp₀) hpath

omit hp₀ in
theorem WalkedAll.right_subset {b : Automaton} (h : WalkedAll b a p₀ q₀ pairs) (hq₀ : q₀ ∈ a.initial) :
    ∀ q ∈ pairs.map Prod.snd, q ∈ a.states := by
  intro q hq
  obtain ⟨p, hmem⟩ := exists_of_mem_right hq
  obtain ⟨w, hpath⟩ := (h.reached p q hmem).2
  exact ha.mem_states_of_path (ha.initial_mem q₀ hq₀) hpath

omit ha hp₀ in
/-- As many different states as there are in all are all of them. -/
theorem mem_iff_of_length_eq {states : SortedSet StateId} {l : List StateId} (hnodup : l.Nodup)
    (hsubset : ∀ q ∈ l, q ∈ states) (hlength : l.length = states.size) (q : StateId) : q ∈ states ↔ q ∈ l := by
  have hperm := (List.subperm_of_subset hnodup hsubset).perm_of_length_le hlength.ge
  rw [← SortedSet.mem_toList, hperm.mem_iff]

/-- The states are counted to see whether all of them are reached. -/
theorem WalkedAll.length_eq_iff (h : WalkedAll a b p₀ q₀ pairs) :
    pairs.length = a.stateCount ↔ ∀ q ∈ a.states, a.Reaches p₀ q := by
  rw [← List.length_map Prod.fst]
  refine ⟨fun hlength q hq => ?_, fun hreached => ?_⟩
  · exact h.mem_left_iff.1 ((mem_iff_of_length_eq h.oneToOne.left (h.left_subset ha hp₀) hlength q).1 hq)
  · have hperm := (List.perm_ext_iff_of_nodup h.oneToOne.left (SortedSet.nodup_toList a.states)).2 fun q =>
      ⟨h.left_subset ha hp₀ q, fun hq => h.mem_left_iff.2 (hreached q hq)⟩
    exact hperm.length_eq

end States

section Soundness

variable (hda : a.Deterministic) (hdb : b.Deterministic)

include hda hdb

/-- The symbols of the left edges are among those of the right ones, and there are as many of them. -/
theorem PartnersAgree.back (h : PartnersAgree a b pairs p q) (hedge : b.HasEdge q s q') :
    ∃ p', a.HasEdge p s p' ∧ (p', q') ∈ pairs := by
  have hnodup := nodup_symbols_iff.2 hda.functional p
  have hsubset : (a.row p).toList.map (·.symbol) ⊆ (b.row q).toList.map (·.symbol) := by
    intro t ht
    obtain ⟨⟨_, p'⟩, hedge', rfl⟩ := List.mem_map.1 ht
    obtain ⟨q'', hmatch, _⟩ := h.forth _ p' hedge'
    exact List.mem_map.2 ⟨⟨_, q''⟩, hmatch, rfl⟩
  have hlength : ((b.row q).toList.map (·.symbol)).length ≤ ((a.row p).toList.map (·.symbol)).length := by
    rw [List.length_map, List.length_map]
    exact h.size.ge
  have hperm := (List.subperm_of_subset hnodup hsubset).perm_of_length_le hlength
  obtain ⟨⟨_, p'⟩, hedge', rfl⟩ := List.mem_map.1 (hperm.mem_iff.2 (List.mem_map.2 ⟨⟨s, q'⟩, hedge, rfl⟩))
  obtain ⟨q'', hmatch, hmem⟩ := h.forth _ p' hedge'
  rw [hdb.functional q _ q'' q' hmatch hedge] at hmem
  exact ⟨p', hedge', hmem⟩

variable (ha : a.Valid) (hb : b.Valid) (hp₀ : a.initial.toList = [p₀]) (hq₀ : b.initial.toList = [q₀])

include ha hb hp₀ hq₀

/-- A walk that meets as many states as there are on both sides has found an isomorphism. -/
theorem WalkedAll.isIsomorphism (h : WalkedAll a b p₀ q₀ pairs) (halphabet : a.alphabet = b.alphabet)
    (hcount : a.stateCount = b.stateCount) (hlength : pairs.length = a.stateCount) :
    IsIsomorphism a b fun p => (pairs.rightOf? p).getD p := by
  have hleft := mem_iff_of_length_eq h.oneToOne.left
    (h.left_subset ha ((mem_initial_of_singleton hp₀).2 rfl)) (by rw [List.length_map]; exact hlength)
  have hright := mem_iff_of_length_eq h.oneToOne.right
    (h.right_subset hb ((mem_initial_of_singleton hq₀).2 rfl))
    (by rw [List.length_map]; exact hlength.trans hcount)
  have hpartner : ∀ {p q}, (p, q) ∈ pairs → (pairs.rightOf? p).getD p = q := by
    intro p q hmem
    rw [h.oneToOne.rightOf?_eq_some.2 hmem, Option.getD_some]
  have hpair : ∀ p ∈ a.states, (p, (pairs.rightOf? p).getD p) ∈ pairs := by
    intro p hp
    obtain ⟨q, hmem⟩ := exists_of_mem_left ((hleft p).1 hp)
    rwa [hpartner hmem]
  refine ⟨halphabet, fun p hp q hq heq => ?_, fun q => ⟨fun hq => ?_, ?_⟩, fun p hp => ?_, fun p hp => ?_,
    fun p hp s q hq => ⟨fun hedge => ?_, fun hedge => ?_⟩⟩
  · exact h.oneToOne.left_unique (hpair p hp) (heq ▸ hpair q hq)
  · obtain ⟨p, hmem⟩ := exists_of_mem_right ((hright q).1 hq)
    exact ⟨p, (hleft p).2 (mem_left hmem), hpartner hmem⟩
  · rintro ⟨p, hp, rfl⟩
    exact (hright _).2 (mem_right (hpair p hp))
  · rw [mem_initial_of_singleton hp₀, mem_initial_of_singleton hq₀]
    refine ⟨fun heq => ?_, ?_⟩
    · exact h.oneToOne.left_unique (heq ▸ hpair p hp) h.first
    · rintro rfl
      exact hpartner h.first
  · exact (h.agree_of_mem (hpair p hp)).final.symm
  · obtain ⟨q', hedge', hmem⟩ := (h.agree_of_mem (hpair p hp)).back hda hdb hedge
    rwa [← h.oneToOne.left_unique hmem (hpair q hq)]
  · obtain ⟨q', hedge', hmem⟩ := (h.agree_of_mem (hpair p hp)).forth s q hedge
    rwa [hpartner hmem]

end Soundness

section Completeness

variable (h : IsIsomorphism a b f) (ha : a.Accessible) (hb : b.Accessible)

/-- Every pair consists of a state and its image, and no state has two partners. -/
structure Follows (a : Automaton) (f : StateId → StateId) (pairs : Pairing) : Prop where
  oneToOne : pairs.OneToOne
  image : ∀ p q, (p, q) ∈ pairs → p ∈ a.states ∧ f p = q

include h

/-- A state and its image can always be joined. -/
theorem Follows.join? (hfollows : Follows a f pairs) (hp : p ∈ a.states) :
    ∃ joined, pairs.join? p (f p) = some joined ∧ Follows a f joined := by
  by_cases hleft : p ∈ pairs.map Prod.fst
  · obtain ⟨q, hmem⟩ := exists_of_mem_left hleft
    obtain rfl := (hfollows.image p q hmem).2
    exact ⟨pairs, hfollows.oneToOne.join?_eq_some.2 (.inl ⟨hmem, rfl⟩), hfollows⟩
  · have hright : f p ∉ pairs.map Prod.snd := by
      intro hright
      obtain ⟨p', hmem⟩ := exists_of_mem_right hright
      obtain ⟨hp', heq⟩ := hfollows.image p' _ hmem
      obtain rfl := h.injective p' hp' p hp heq
      exact hleft (mem_left hmem)
    refine ⟨pairs ++ [(p, f p)], hfollows.oneToOne.join?_eq_some.2 (.inr ⟨⟨hleft, hright⟩, rfl⟩),
      hfollows.oneToOne.concat hleft hright, fun p' q' hmem => ?_⟩
    rcases List.mem_append.1 hmem with hmem | hmem
    · exact hfollows.image p' q' hmem
    · obtain ⟨rfl, rfl⟩ := Prod.mk.inj (List.mem_singleton.1 hmem)
      exact ⟨hp, rfl⟩

include ha hb

/-- So can the targets of edges and their images, to which the edges from the image of the source lead. -/
theorem Follows.joinTargets? (hfollows : Follows a f pairs) (hp : p ∈ a.states) (hts : ∀ t ∈ ts, t ∈ a.row p) :
    ∃ joined, Automaton.joinTargets? b (f p) pairs ts = some joined ∧ Follows a f joined := by
  induction ts generalizing pairs with
  | nil => exact ⟨pairs, rfl, hfollows⟩
  | cons t ts ih =>
      obtain ⟨ht, hts⟩ := List.forall_mem_cons.1 hts
      have hedge : a.HasEdge p t.symbol t.target := ht
      have htarget := ha.valid.target_mem p t.symbol t.target hedge
      have hsuccessor : b.successor? (f p) t.symbol = some (f t.target) :=
        hb.deterministic.successor?_eq_some_iff.2 ((h.edges p hp t.symbol t.target htarget).2 hedge)
      obtain ⟨next, hnext, hfollows⟩ := hfollows.join? h htarget
      obtain ⟨joined, hjoined, hfollows⟩ := ih hfollows hts
      refine ⟨joined, ?_, hfollows⟩
      rw [Automaton.joinTargets?, hsuccessor, Option.bind_eq_bind, Option.bind_some, hnext, Option.bind_eq_bind,
        Option.bind_some, hjoined]

/-- The walk never gives up when there is an isomorphism. -/
theorem Follows.comparePairs? (hfollows : Follows a f pairs) (fuel i : Nat) :
    ∃ result, Automaton.comparePairs? a b fuel i pairs = some result := by
  induction fuel generalizing i pairs with
  | zero => exact ⟨pairs, rfl⟩
  | succ fuel ih =>
      rw [Automaton.comparePairs?]
      split
      · exact ⟨pairs, rfl⟩
      · next p q hpair =>
        obtain ⟨hp, rfl⟩ := hfollows.image p q (List.mem_of_getElem? hpair)
        have hsize : (a.row p).size = (b.row (f p)).size := by
          rw [SortedSet.size, SortedSet.size, row_map h ha hb hp, List.length_map]
        obtain ⟨joined, hjoined, hfollows⟩ := hfollows.joinTargets? h ha hb hp fun t ht => ht
        obtain ⟨result, hresult⟩ := ih hfollows (i + 1)
        refine ⟨result, ?_⟩
        rw [if_pos ⟨decide_eq_decide.2 (h.final p hp).symm, hsize⟩, hjoined, Option.bind_eq_bind, Option.bind_some,
          hresult]

omit ha hb in
/-- An isomorphism makes the right automaton the image of the left one. -/
theorem isImage (ha : a.Valid) (hb : b.Valid) (hkind : b.kind = a.kind) : IsImage f a b where
  kind := hkind
  alphabet := h.alphabet.symm
  injective := h.injective
  states := h.states
  initial q' := by
    refine ⟨fun hq' => ?_, ?_⟩
    · obtain ⟨q, hq, rfl⟩ := (h.states q').1 (hb.initial_mem q' hq')
      exact ⟨q, (h.initial q hq).1 hq', rfl⟩
    · rintro ⟨q, hq, rfl⟩
      exact (h.initial q (ha.initial_mem q hq)).2 hq
  final q' := by
    refine ⟨fun hq' => ?_, ?_⟩
    · obtain ⟨q, hq, rfl⟩ := (h.states q').1 (hb.final_mem q' hq')
      exact ⟨q, (h.final q hq).1 hq', rfl⟩
    · rintro ⟨q, hq, rfl⟩
      exact (h.final q (ha.final_mem q hq)).2 hq
  edges p' s q' := by
    refine ⟨fun hedge => ?_, ?_⟩
    · obtain ⟨p, hp, rfl⟩ := (h.states p').1 (hb.source_mem p' s q' hedge)
      obtain ⟨q, hold, rfl⟩ := (h.hasEdge_iff ha hb hp).1 hedge
      exact ⟨p, q, hold, rfl, rfl⟩
    · rintro ⟨p, q, hedge, rfl, rfl⟩
      exact (h.edges p (ha.source_mem p s q hedge) s q (ha.target_mem p s q hedge)).2 hedge

end Completeness

section Test

/-- The test compares the counts, walks to the end and counts the pairs. -/
theorem isIsomorphic_eq_true (hp₀ : a.initial.toList = [p₀]) (hq₀ : b.initial.toList = [q₀]) :
    a.isIsomorphic b = true ↔
      (a.alphabet = b.alphabet ∧ a.stateCount = b.stateCount ∧ a.edgeCount = b.edgeCount) ∧
        ∃ result, comparePairs? a b (1 + a.edgeCount) 0 [(p₀, q₀)] = some result ∧
          result.length = a.stateCount := by
  rw [isIsomorphic, initialState?_of_initial hp₀, initialState?_of_initial hq₀]
  dsimp only
  cases comparePairs? a b (1 + a.edgeCount) 0 [(p₀, q₀)] <;> simp

/-- The test says yes to two well-formed deterministic automata exactly when they are isomorphic and every state
of the left one is reached. -/
theorem isIsomorphic_iff (hvalida : a.validate = .ok ()) (hvalidb : b.validate = .ok ()) (hkinda : a.kind = .dfa)
    (hkindb : b.kind = .dfa) : a.isIsomorphic b = true ↔
      (∃ f, IsIsomorphism a b f) ∧ ∀ q ∈ a.states, ∃ i ∈ a.initial, a.Reaches i q := by
  have ha := validate_eq_ok_iff.1 hvalida
  have hb := validate_eq_ok_iff.1 hvalidb
  have hda := ha.deterministic hkinda
  have hdb := hb.deterministic hkindb
  obtain ⟨p₀, hp₀⟩ := hda.exists_initial
  obtain ⟨q₀, hq₀⟩ := hdb.exists_initial
  have hmem₀ : p₀ ∈ a.initial := (mem_initial_of_singleton hp₀).2 rfl
  have hreached : (∀ q ∈ a.states, ∃ i ∈ a.initial, a.Reaches i q) ↔ ∀ q ∈ a.states, a.Reaches p₀ q := by
    simp only [mem_initial_of_singleton hp₀, exists_eq_left]
  have hwalked {result} (hresult : comparePairs? a b (1 + a.edgeCount) 0 [(p₀, q₀)] = some result) :
      WalkedAll a b p₀ q₀ result :=
    (Walked.init a b p₀ q₀).comparePairs? hp₀ (Nat.zero_add _).ge hresult
  rw [isIsomorphic_eq_true hp₀ hq₀, hreached]
  refine ⟨?_, ?_⟩
  · rintro ⟨⟨halphabet, hcount, _⟩, result, hresult, hlength⟩
    have h := hwalked hresult
    exact ⟨⟨_, h.isIsomorphism hda hdb ha hb hp₀ hq₀ halphabet hcount hlength⟩,
      (h.length_eq_iff ha hmem₀).1 hlength⟩
  · rintro ⟨⟨f, hf⟩, hall⟩
    have hacca : a.Accessible := ⟨hkinda, ha, hreached.2 hall⟩
    have haccb : b.Accessible := hf.accessible hb hacca hkindb
    have hedges := (isImage hf ha hb (hkindb.trans hkinda.symm)).edgeCount_eq ha
    have himage : f p₀ = q₀ :=
      (mem_initial_of_singleton hq₀).1 ((hf.initial p₀ (ha.initial_mem p₀ hmem₀)).2 hmem₀)
    have hfollows : Follows a f [(p₀, q₀)] := by
      refine ⟨oneToOne_singleton p₀ q₀, fun p q hmem => ?_⟩
      obtain ⟨rfl, rfl⟩ := Prod.mk.inj (List.mem_singleton.1 hmem)
      exact ⟨ha.initial_mem p hmem₀, himage⟩
    obtain ⟨result, hresult⟩ := hfollows.comparePairs? hf hacca haccb (1 + a.edgeCount) 0
    exact ⟨⟨hf.alphabet, (stateCount_eq hf hacca haccb).symm, hedges.symm⟩, result, hresult,
      ((hwalked hresult).length_eq_iff ha hmem₀).2 hall⟩

/-- A renamed automaton passes the test, one with another final state does not, and an automaton with a state
that is never reached does not even pass it against itself. -/
theorem isIsomorphic_iff_fork :
    (∃ f, IsIsomorphism (fork 8 5 3 5) (fork 4 7 9 7) f) ∧
    (∀ q ∈ (fork 8 5 3 5).states, ∃ i ∈ (fork 8 5 3 5).initial, (fork 8 5 3 5).Reaches i q) ∧
    (¬ ∃ f, IsIsomorphism (fork 8 5 3 5) (fork 8 5 3 3) f) ∧
    ¬ ∀ q ∈ ((fork 8 5 3 5).addState 6).states, ∃ i ∈ ((fork 8 5 3 5).addState 6).initial,
      ((fork 8 5 3 5).addState 6).Reaches i q := by
  have hvalidate : ∀ x ∈ [fork 8 5 3 5, fork 4 7 9 7, fork 8 5 3 3, (fork 8 5 3 5).addState 6],
      x.validate = .ok () := by decide +kernel
  simp only [List.forall_mem_cons] at hvalidate
  obtain ⟨hvalidl, hvalidm, hvalidn, hvalidu, -⟩ := hvalidate
  have hsame := isIsomorphic_iff hvalidl hvalidm rfl rfl
  have hdiffer := isIsomorphic_iff hvalidl hvalidn rfl rfl
  have hself := isIsomorphic_iff hvalidu hvalidu rfl rfl
  have hyes : (fork 8 5 3 5).isIsomorphic (fork 4 7 9 7) = true := by decide +kernel
  have hno : (fork 8 5 3 5).isIsomorphic (fork 8 5 3 3) ≠ true := by decide +kernel
  have hunreached : ((fork 8 5 3 5).addState 6).isIsomorphic ((fork 8 5 3 5).addState 6) ≠ true := by
    decide +kernel
  obtain ⟨hisomorphic, hreached⟩ := hsame.1 hyes
  refine ⟨hisomorphic, hreached, fun hother => hno (hdiffer.2 ⟨hother, hreached⟩), fun hall => ?_⟩
  exact hunreached (hself.2 ⟨⟨id, .refl _⟩, hall⟩)

end Test

end FiniteAutomata.Automaton
