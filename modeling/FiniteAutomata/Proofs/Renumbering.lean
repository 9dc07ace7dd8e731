import FiniteAutomata.Proofs.Combination

/-! The outcome of renumbering a well-formed automaton. Either the last of the new numbers would be above the
largest one, and then the automaton stays as it is, or the result is the image of the automaton under a
one-to-one map of its states onto the next numbers from the start. An image has as many edges and accepts the
same words, whatever numbers the old and the new states have in common. -/

namespace FiniteAutomata.Automaton

variable {a b : Automaton} {f : StateId → StateId} {start : Nat} {fault : Fault}

/-- The states, marks and edges of `b` are the images of those of `a`, and no two states have the same image. -/
structure IsImage (f : StateId → StateId) (a b : Automaton) : Prop where
  kind : b.kind = a.kind
  alphabet : b.alphabet = a.alphabet
  injective : ∀ p ∈ a.states, ∀ q ∈ a.states, f p = f q → p = q
  states : ∀ q', q' ∈ b.states ↔ ∃ q ∈ a.states, f q = q'
  initial : ∀ q', q' ∈ b.initial ↔ ∃ q ∈ a.initial, f q = q'
  final : ∀ q', q' ∈ b.final ↔ ∃ q ∈ a.final, f q = q'
  edges : ∀ p' s q', b.HasEdge p' s q' ↔ ∃ p q, a.HasEdge p s q ∧ f p = p' ∧ f q = q'

theorem isImage_relabel (h : a.Valid) (hrows : a.table.NoEmptyRow)
    (hf : ∀ p ∈ a.states, ∀ q ∈ a.states, f p = f q → p = q) : IsImage f a (a.relabel f) where
  kind := rfl
  alphabet := rfl
  injective := hf
  states _ := SortedSet.mem_map
  initial _ := SortedSet.mem_map
  final _ := SortedSet.mem_map
  edges _ _ _ := hasEdge_relabel h hrows hf

/-- The images of different edges are different, so none is lost. -/
theorem IsImage.edgeCount_eq (himage : IsImage f a b) (h : a.Valid) : b.edgeCount = a.edgeCount := by
  have hnodup : (a.edges.map fun e => (⟨f e.source, e.symbol, f e.target⟩ : Edge)).Nodup := by
    apply (TransitionTable.nodup_edges a.table).map_on
    rintro ⟨p, s, q⟩ he ⟨p', s', q'⟩ he' heq
    obtain ⟨hsource, hsymbol, htarget⟩ := Edge.mk.inj heq
    have hedge := mem_edges.1 he
    have hedge' := mem_edges.1 he'
    rw [himage.injective p (h.source_mem p s q hedge) p' (h.source_mem p' s' q' hedge') hsource,
      himage.injective q (h.target_mem p s q hedge) q' (h.target_mem p' s' q' hedge') htarget,
      show s = s' from hsymbol]
  have hmem : ∀ e, e ∈ b.edges ↔ e ∈ a.edges.map fun e => (⟨f e.source, e.symbol, f e.target⟩ : Edge) := by
    rintro ⟨p', s, q'⟩
    rw [mem_edges, himage.edges, List.mem_map]
    refine ⟨?_, ?_⟩
    · intro hedges
      obtain ⟨p, q, hedge, rfl, rfl⟩ := hedges
      exact ⟨⟨p, s, q⟩, mem_edges.2 hedge, rfl⟩
    · intro hedges
      obtain ⟨⟨p, s, q⟩, he, heq⟩ := hedges
      cases heq
      exact ⟨p, q, mem_edges.1 he, rfl, rfl⟩
  have hperm := (List.perm_ext_iff_of_nodup (TransitionTable.nodup_edges b.table) hnodup).2 hmem
  calc b.edgeCount = b.edges.length := b.length_edges.symm
    _ = (a.edges.map fun e => (⟨f e.source, e.symbol, f e.target⟩ : Edge)).length := hperm.length_eq
    _ = a.edgeCount := by rw [List.length_map, length_edges]

section Outcome

variable (h : a.Valid)

include h

/-- The numbers run out when there is a state and the last number is above the largest one. -/
theorem renumber_eq_error : a.renumber start = .error fault ↔
    fault = .idOverflow start a.stateCount ∧ 0 < a.stateCount ∧ StateId.largest < start + a.stateCount - 1 := by
  have hlarge : (a.numberingOrder ≠ [] ∧ StateId.largest < start + (a.numberingOrder.length - 1)) ↔
      0 < a.stateCount ∧ StateId.largest < start + a.stateCount - 1 := by
    rw [← length_numberingOrder h, List.length_pos_iff]
    refine and_congr_right fun hne => ?_
    have hpos := List.length_pos_iff.2 hne
    rw [Nat.add_sub_assoc hpos]
  rw [← hlarge, renumber_eq, ← length_numberingOrder h]
  split
  · next hoverflow =>
      rw [Except.error.injEq, and_iff_left hoverflow]
      exact eq_comm
  · next hfits =>
      refine iff_of_false ?_ fun herror => hfits herror.2
      intro hok
      cases hok

/-- As long as the numbers do not run out there is a result. -/
theorem exists_renumber (hfits : ¬ (0 < a.stateCount ∧ StateId.largest < start + a.stateCount - 1)) :
    a.renumber start = .ok (a.relabel (numberIn a.numberingOrder start)) := by
  refine (renumber_eq_ok h).2 ⟨?_, rfl⟩
  rcases Nat.eq_zero_or_pos a.stateCount with hzero | hpos
  · exact .inl hzero
  · right
    rw [← Nat.add_sub_assoc hpos]
    exact Nat.not_lt.1 fun hlarge => hfits ⟨hpos, hlarge⟩

end Outcome

/-- Renumbering fails exactly when there are states and the last of the new numbers is above the largest one,
and in place it then leaves the automaton as it is. Otherwise it maps the states one to one onto the next numbers from the start; the
result is the image of the automaton, it is well-formed, has as many edges, and accepts the same words. -/
theorem renumber_isImage_or_overflow (ha : a.Built) (hvalidate : a.validate = .ok ()) (start : StateId) :
    (∀ fault, a.renumber start = .error fault ↔ fault = .idOverflow start a.stateCount ∧
      0 < a.stateCount ∧ StateId.largest < start + a.stateCount - 1) ∧
    (∀ fault, a.renumber start = .error fault → (renumberInPlace start).run.run a = (.error fault, a)) ∧
    (¬ (0 < a.stateCount ∧ StateId.largest < start + a.stateCount - 1) →
      ∃ f b, a.renumber start = .ok b ∧ (renumberInPlace start).run.run a = (.ok (), b) ∧ IsImage f a b ∧
        (∀ number, number ∈ b.states ↔ start ≤ number ∧ number < start + a.stateCount) ∧
        b.edgeCount = a.edgeCount ∧ b.validate = .ok () ∧ ∀ w, b.accepts w = a.accepts w) := by
  have h := validate_eq_ok_iff.1 hvalidate
  refine ⟨fun fault => renumber_eq_error h, fun fault => run_renumberInPlace_of_error, fun hfits => ?_⟩
  have hb := exists_renumber h hfits
  obtain ⟨hisomorphism, _, hvalid, _, hnumbers⟩ := renumber_spec h ha.noEmptyRow hb
  have himage := isImage_relabel h ha.noEmptyRow (numberIn_injective h start)
  refine ⟨_, _, hb, run_renumberInPlace_of_ok hb, himage, hnumbers, himage.edgeCount_eq h,
    validate_eq_ok_iff.2 hvalid, fun w => ?_⟩
  rw [Bool.eq_iff_iff, accepts_iff_recognizes, accepts_iff_recognizes]
  exact hisomorphism.recognizes h hvalid

/-- Two states still fit below the largest number, and one step further they do not. -/
theorem renumber_isImage_or_overflow_optionalA :
    optionalA.Built ∧ optionalA.validate = .ok () ∧ optionalA.stateCount = 2 ∧
      (∃ f b, optionalA.renumber (StateId.largest - 1) = .ok b ∧ IsImage f optionalA b ∧
        ∀ w, b.accepts w = optionalA.accepts w) ∧
      optionalA.renumber StateId.largest = .error (.idOverflow StateId.largest 2) ∧
      (renumberInPlace StateId.largest).run.run optionalA =
        (.error (.idOverflow StateId.largest 2), optionalA) := by
  have hvalidate : optionalA.validate = .ok () := by decide +kernel
  have hcount : optionalA.stateCount = 2 := by decide +kernel
  obtain ⟨_, _, hresult⟩ := renumber_isImage_or_overflow built_optionalA hvalidate (StateId.largest - 1)
  obtain ⟨hfault, hkeep, _⟩ := renumber_isImage_or_overflow built_optionalA hvalidate StateId.largest
  rw [hcount] at hresult hfault
  obtain ⟨f, b, hb, _, himage, _, _, _, hwords⟩ := hresult (by decide)
  have herror := (hfault _).2 ⟨rfl, by decide, by decide⟩
  exact ⟨built_optionalA, hvalidate, hcount, ⟨f, b, hb, himage, hwords⟩, herror, hkeep _ herror⟩

end FiniteAutomata.Automaton
