import FiniteAutomata.Proofs.Failures

/-! What validation reports. The edges are looked at in ascending order of source, symbol and target, and only
when all of them stay inside the states and the alphabet is it asked whether an automaton that claims to be
deterministic is. The first violation in this order is the one that is reported, so every report describes a
violation, and no automaton has two reports. -/

namespace FiniteAutomata

open Std

/-- The order of the edges: by source, then by symbol, then by target. -/
def Edge.Before (d e : Edge) : Prop :=
  d.source < e.source ∨ d.source = e.source ∧ (d.symbol < e.symbol ∨ d.symbol = e.symbol ∧ d.target < e.target)

namespace Automaton

variable {a : Automaton} {P : Edge → Prop} {d e : Edge} {p : StateId} {fault : Fault}

section Order

/-- In an ordered list, what comes before an element stands in front of it. -/
theorem mem_of_pairwise_append {α : Type} {R : α → α → Prop} {before after : List α} {x y : α}
    (hasymm : ∀ x y, R x y → ¬ R y x) (hordered : (before ++ y :: after).Pairwise R)
    (hx : x ∈ before ++ y :: after) (hxy : R x y) : x ∈ before := by
  obtain ⟨_, htail, _⟩ := List.pairwise_append.1 hordered
  rcases List.mem_append.1 hx with hx | hx
  · exact hx
  rcases List.mem_cons.1 hx with rfl | hx
  · exact absurd hxy (hasymm x x hxy)
  · exact absurd hxy (hasymm y x ((List.pairwise_cons.1 htail).1 x hx))

/-- In a row the order of the edges is that of the transitions. -/
theorem before_iff_compare {σ τ : Transition} :
    Edge.Before ⟨p, σ.symbol, σ.target⟩ ⟨p, τ.symbol, τ.target⟩ ↔ compare σ τ = .lt := by
  simp [Edge.Before, Transition.compare_eq_lt_iff_lt]

theorem before_asymm (d e : Edge) (h : d.Before e) : ¬ e.Before d := by
  have hlt : ∀ {s t : Symbol}, s < t → ¬ t < s := String.lt_asymm
  unfold Edge.Before at h ⊢
  grind

theorem before_trichotomy (d e : Edge) : d.Before e ∨ d = e ∨ e.Before d := by
  obtain ⟨p, s, q⟩ := d
  obtain ⟨p', s', q'⟩ := e
  have hsource := Nat.lt_trichotomy p p'
  have hsymbol := Std.lt_trichotomy s s'
  have htarget := Nat.lt_trichotomy q q'
  simp only [Edge.Before, Edge.mk.injEq]
  grind

theorem pairwise_before_edges (a : Automaton) : a.edges.Pairwise Edge.Before := by
  refine List.pairwise_flatMap.2 ⟨fun r _ => ?_, ?_⟩
  · rw [List.pairwise_map]
    exact r.2.ascending.imp before_iff_compare.2
  · apply a.table.rows.ascending.imp
    intro r r' hlt d hd e he
    obtain ⟨_, _, rfl⟩ := List.mem_map.1 hd
    obtain ⟨_, _, rfl⟩ := List.mem_map.1 he
    exact .inl (Nat.compare_eq_lt.1 hlt)

/-- An edge with the property, before which no edge has it. -/
structure IsFirst (a : Automaton) (P : Edge → Prop) (e : Edge) : Prop where
  mem : e ∈ a.edges
  holds : P e
  first : ∀ d ∈ a.edges, d.Before e → ¬ P d

theorem IsFirst.unique (hd : a.IsFirst P d) (he : a.IsFirst P e) : d = e := by
  rcases before_trichotomy d e with hbefore | heq | hbefore
  · exact absurd hd.holds (he.first d hd.mem hbefore)
  · exact heq
  · exact absurd he.holds (hd.first e he.mem hbefore)

/-- What stands before an edge in the list of all edges are the edges before it. -/
theorem mem_of_edges_eq {before after : List Edge} (hedges : a.edges = before ++ e :: after) :
    d ∈ before ↔ d ∈ a.edges ∧ d.Before e := by
  have hordered := a.pairwise_before_edges
  rw [hedges] at hordered ⊢
  refine ⟨fun hd => ⟨List.mem_append_left _ hd, ?_⟩, fun hd => ?_⟩
  · exact (List.pairwise_append.1 hordered).2.2 d hd e List.mem_cons_self
  · exact mem_of_pairwise_append before_asymm hordered hd.1 hd.2

/-- A scan of the edges stops at the first one that it objects to. -/
theorem findSome?_edges_eq_some {f : Edge → Option Fault} :
    a.edges.findSome? f = some fault ↔ ∃ e, a.IsFirst (fun e => f e ≠ none) e ∧ f e = some fault := by
  rw [List.findSome?_eq_some_iff]
  refine ⟨?_, ?_⟩
  · intro hscan
    obtain ⟨before, e, after, hedges, hfault, hnone⟩ := hscan
    refine ⟨e, ⟨by simp [hedges], by simp [hfault], fun d hd hbefore => ?_⟩, hfault⟩
    exact not_not.2 (hnone d ((mem_of_edges_eq hedges).2 ⟨hd, hbefore⟩))
  · intro hscan
    obtain ⟨e, hfirst, hfault⟩ := hscan
    obtain ⟨before, after, hedges⟩ := List.append_of_mem hfirst.mem
    refine ⟨before, e, after, hedges, hfault, fun d hd => ?_⟩
    obtain ⟨hmem, hbefore⟩ := (mem_of_edges_eq hedges).1 hd
    exact not_not.1 (hfirst.first d hmem hbefore)

end Order

/-- One of the ends of the edge is not a state, or its symbol is neither epsilon nor in the alphabet. -/
def Escapes (a : Automaton) (e : Edge) : Prop :=
  e.source ∉ a.states ∨ e.target ∉ a.states ∨ e.symbol ≠ epsilon ∧ e.symbol ∉ a.alphabet

/-- The edge is under epsilon, or its source has an earlier edge under the same symbol. -/
def Branches (a : Automaton) (e : Edge) : Prop :=
  e.symbol = epsilon ∨ ∃ d ∈ a.edges, d.Before e ∧ d.source = e.source ∧ d.symbol = e.symbol

/-- The reports of validation and the violations that they describe. Determinism is asked for when no edge
escapes, and then the number of initial states comes first and the alphabet before the edges. -/
inductive Reports (a : Automaton) : Fault → Prop where
  | danglingEdge {e : Edge} (hfirst : a.IsFirst a.Escapes e) (hends : e.source ∉ a.states ∨ e.target ∉ a.states) :
      Reports a (.danglingEdge e.source e.symbol e.target)
  | unknownSymbol {e : Edge} (hfirst : a.IsFirst a.Escapes e) (hsource : e.source ∈ a.states)
      (htarget : e.target ∈ a.states) : Reports a (.unknownSymbol e.source e.symbol)
  | initialStateCount (hedges : ∀ e ∈ a.edges, ¬ a.Escapes e) (hkind : a.kind = .dfa)
      (hcount : a.initial.size ≠ 1) : Reports a (.initialStateCount a.initial.size)
  | epsilonSymbol (hedges : ∀ e ∈ a.edges, ¬ a.Escapes e) (hkind : a.kind = .dfa) (hcount : a.initial.size = 1)
      (halphabet : epsilon ∈ a.alphabet) : Reports a .epsilonInDfa
  | epsilonEdge {e : Edge} (hedges : ∀ e ∈ a.edges, ¬ a.Escapes e) (hkind : a.kind = .dfa)
      (hcount : a.initial.size = 1) (halphabet : epsilon ∉ a.alphabet) (hfirst : a.IsFirst a.Branches e)
      (hsymbol : e.symbol = epsilon) : Reports a .epsilonInDfa
  | nondeterministic {e : Edge} (hedges : ∀ e ∈ a.edges, ¬ a.Escapes e) (hkind : a.kind = .dfa)
      (hcount : a.initial.size = 1) (halphabet : epsilon ∉ a.alphabet) (hfirst : a.IsFirst a.Branches e)
      (hsymbol : e.symbol ≠ epsilon) : Reports a (.nondeterministic e.source e.symbol)

section Edges

theorem edgeFault?_ne_none : a.edgeFault? e ≠ none ↔ a.Escapes e := by
  rw [ne_eq, edgeFault?_eq_none, Escapes]
  tauto

theorem edgeFault?_eq_some : a.edgeFault? e = some fault ↔
    (e.source ∉ a.states ∨ e.target ∉ a.states) ∧ fault = .danglingEdge e.source e.symbol e.target ∨
    (e.source ∈ a.states ∧ e.target ∈ a.states) ∧ a.Escapes e ∧ fault = .unknownSymbol e.source e.symbol := by
  unfold edgeFault? Escapes
  by_cases hsource : e.source ∈ a.states <;> by_cases htarget : e.target ∈ a.states <;>
    by_cases hsymbol : e.symbol ≠ epsilon ∧ e.symbol ∉ a.alphabet <;>
    simp [hsource, htarget, hsymbol, eq_comm]

/-- The scan of the edges reports the first one that escapes. -/
theorem findSome?_edgeFault?_eq_some : a.edges.findSome? a.edgeFault? = some fault ↔
    ∃ e, a.IsFirst a.Escapes e ∧ a.edgeFault? e = some fault := by
  rw [findSome?_edges_eq_some]
  simp only [edgeFault?_ne_none]

theorem findSome?_edgeFault?_eq_none_iff :
    a.edges.findSome? a.edgeFault? = none ↔ ∀ e ∈ a.edges, ¬ a.Escapes e := by
  simp only [List.findSome?_eq_none_iff, ← edgeFault?_ne_none, not_not]

end Edges

section Rows

variable {seen : List Symbol} {ts : List Transition}

/-- A row is given up at the first transition under epsilon or under a symbol that has occurred. -/
theorem rowFault?_eq_some (hfault : rowFault? p seen ts = some fault) : ∃ before t after,
    ts = before ++ t :: after ∧ rowFault? p seen before = none ∧
      (t.symbol = epsilon ∧ fault = .epsilonInDfa ∨ t.symbol ≠ epsilon ∧
        (t.symbol ∈ seen ∨ ∃ u ∈ before, u.symbol = t.symbol) ∧ fault = .nondeterministic p t.symbol) := by
  induction ts generalizing seen with
  | nil => simp [rowFault?] at hfault
  | cons t ts ih =>
      rw [rowFault?] at hfault
      by_cases hepsilon : t.symbol = epsilon
      · rw [if_pos (by simpa [Transition.isEpsilon] using hepsilon)] at hfault
        exact ⟨[], t, ts, rfl, rfl, .inl ⟨hepsilon, (Option.some.inj hfault).symm⟩⟩
      rw [if_neg (by simpa [Transition.isEpsilon] using hepsilon)] at hfault
      by_cases hseen : t.symbol ∈ seen
      · rw [if_pos hseen] at hfault
        exact ⟨[], t, ts, rfl, rfl, .inr ⟨hepsilon, .inl hseen, (Option.some.inj hfault).symm⟩⟩
      rw [if_neg hseen] at hfault
      obtain ⟨before, u, after, rfl, hbefore, hu⟩ := ih hfault
      refine ⟨t :: before, u, after, rfl, ?_, hu.imp_right fun hrepeat => ?_⟩
      · rw [rowFault?, if_neg (by simpa [Transition.isEpsilon] using hepsilon), if_neg hseen, hbefore]
      · obtain ⟨hne, hoccurs, hfault⟩ := hrepeat
        refine ⟨hne, ?_, hfault⟩
        rcases hoccurs with hoccurs | ⟨v, hv, heq⟩
        · rcases List.mem_cons.1 hoccurs with heq | hoccurs
          · exact .inr ⟨t, List.mem_cons_self, heq.symm⟩
          · exact .inl hoccurs
        · exact .inr ⟨v, List.mem_cons_of_mem t hv, heq⟩

theorem mem_edges_of_row {t : Transition} : ⟨p, t.symbol, t.target⟩ ∈ a.edges ↔ t ∈ a.row p := by
  rw [mem_edges, hasEdge_iff_mem_row]

/-- Where the scan of a row has found nothing, no transition branches off from the earlier ones. -/
theorem not_branches_of_rowFault? {t : Transition} (hclosed : ∀ u ∈ a.row p, compare u t = .lt → u ∈ ts)
    (ht : t ∈ ts) (hnone : rowFault? p [] ts = none) : ¬ a.Branches ⟨p, t.symbol, t.target⟩ := by
  obtain ⟨hsymbols, hnodup⟩ := rowFault?_eq_none.1 hnone
  intro hbranches
  rcases hbranches with hepsilon | ⟨⟨q, s, r⟩, hmem, hbefore, hsource, hsymbol⟩
  · exact (hsymbols t ht).1 hepsilon
  · obtain rfl : q = p := hsource
    obtain rfl : s = t.symbol := hsymbol
    have hlt : compare (⟨t.symbol, r⟩ : Transition) t = .lt := before_iff_compare.1 hbefore
    have hu := hclosed ⟨t.symbol, r⟩ (mem_edges_of_row.1 hmem) hlt
    have heq := List.inj_on_of_nodup_map hnodup hu ht rfl
    rw [heq] at hlt
    exact absurd hlt (by simp)

theorem mem_entries_row {q : StateId} (hrow : a.row q ≠ ∅) : (q, a.row q) ∈ a.table.rows.entries :=
  SortedMap.mem_entries_iff.2 (TransitionTable.find?_eq_of_row hrow)

theorem row_eq_of_mem_entries {q : StateId} {row : SortedSet Transition}
    (hentry : (q, row) ∈ a.table.rows.entries) : a.row q = row := by
  rw [Automaton.row, TransitionTable.row, SortedMap.mem_entries_iff.1 hentry, Option.getD_some]

/-- The scan of the rows reports the first edge that branches off. The rows before it were scanned to their
ends, and its own row up to the edge. -/
theorem exists_first_of_rows
    (hfault : (a.table.rows.entries.findSome? fun r => rowFault? r.1 [] r.2.toList) = some fault) :
    ∃ e, a.IsFirst a.Branches e ∧ (e.symbol = epsilon ∧ fault = .epsilonInDfa ∨
      e.symbol ≠ epsilon ∧ fault = .nondeterministic e.source e.symbol) := by
  obtain ⟨above, ⟨p, row⟩, below, hentries, hrow, habove⟩ := List.findSome?_eq_some_iff.1 hfault
  obtain ⟨before, t, after, hsplit, hbefore, ht⟩ := rowFault?_eq_some hrow
  obtain rfl : a.row p = row := row_eq_of_mem_entries (hentries ▸ List.mem_append_right above List.mem_cons_self)
  have hrows := a.table.rows.ascending
  rw [hentries] at hrows
  have hordered := (a.row p).ascending
  rw [hsplit] at hordered
  have hmem : ∀ u, u ∈ a.row p ↔ u ∈ before ++ t :: after := by
    intro u
    rw [← SortedSet.mem_toList, hsplit]
  refine ⟨⟨p, t.symbol, t.target⟩, ⟨?_, ?_, ?_⟩, ?_⟩
  · rw [mem_edges_of_row, hmem]
    exact List.mem_append_right before List.mem_cons_self
  · rcases ht with ⟨hepsilon, _⟩ | ⟨_, hoccurs, _⟩
    · exact .inl hepsilon
    · obtain ⟨u, hu, heq⟩ := hoccurs.resolve_left List.not_mem_nil
      have hlt := (List.pairwise_append.1 hordered).2.2 u hu t List.mem_cons_self
      refine .inr ⟨⟨p, u.symbol, u.target⟩, ?_, before_iff_compare.2 hlt, rfl, heq⟩
      rw [mem_edges_of_row, hmem]
      exact List.mem_append_left _ hu
  · intro d hd hearlier
    obtain ⟨q, s, r⟩ := d
    have hd : (⟨s, r⟩ : Transition) ∈ a.row q := mem_edges_of_row.1 hd
    rcases hearlier with hlt | ⟨heq, hlt⟩
    · have hne : a.row q ≠ ∅ := fun hempty => SortedSet.not_mem_empty _ (hempty ▸ hd)
      have hentry := mem_entries_row hne
      rw [hentries] at hentry
      have habove_mem := mem_of_pairwise_append (fun _ _ => OrientedCmp.not_lt_of_lt) hrows hentry
        (Nat.compare_eq_lt.2 hlt)
      exact not_branches_of_rowFault? (fun u hu _ => hu) hd (habove _ habove_mem)
    · obtain rfl : q = p := heq
      have hlt : compare (⟨s, r⟩ : Transition) t = .lt := before_iff_compare.1 (.inr ⟨rfl, hlt⟩)
      have hbefore_mem : ∀ u ∈ a.row q, compare u t = .lt → u ∈ before := fun u hu =>
        mem_of_pairwise_append (fun _ _ => OrientedCmp.not_lt_of_lt) hordered ((hmem u).1 hu)
      refine not_branches_of_rowFault? (fun u hu hult => ?_) (hbefore_mem _ hd hlt) hbefore
      exact hbefore_mem u hu (TransCmp.lt_trans hult hlt)
  · rcases ht with ⟨hepsilon, hfault⟩ | ⟨hne, _, hfault⟩
    · exact .inl ⟨hepsilon, hfault⟩
    · exact .inr ⟨hne, hfault⟩

/-- Without a first edge that branches off there is none at all, and then every row passes. -/
theorem findSome?_rows_eq_some :
    (a.table.rows.entries.findSome? fun r => rowFault? r.1 [] r.2.toList) = some fault ↔
      ∃ e, a.IsFirst a.Branches e ∧ (e.symbol = epsilon ∧ fault = .epsilonInDfa ∨
        e.symbol ≠ epsilon ∧ fault = .nondeterministic e.source e.symbol) := by
  refine ⟨exists_first_of_rows, ?_⟩
  intro hreport
  obtain ⟨e, hfirst, hfault⟩ := hreport
  cases hscan : a.table.rows.entries.findSome? fun r => rowFault? r.1 [] r.2.toList with
  | none =>
      obtain ⟨hsilent, hfunctional⟩ := rows_faultless_iff.1 hscan
      obtain ⟨p, s, q⟩ := e
      rcases hfirst.holds with hepsilon | ⟨⟨p', s', q'⟩, hmem, hbefore, hsource, hsymbol⟩
      · obtain rfl : s = epsilon := hepsilon
        exact absurd (mem_edges.1 hfirst.mem) (hsilent p q)
      · obtain rfl : p' = p := hsource
        obtain rfl : s' = s := hsymbol
        obtain rfl := hfunctional p' s' q' q (mem_edges.1 hmem) (mem_edges.1 hfirst.mem)
        exact absurd hbefore (before_asymm _ _ hbefore)
  | some found =>
      obtain ⟨d, hd, hfound⟩ := exists_first_of_rows hscan
      obtain rfl := hd.unique hfirst
      rcases hfault with ⟨hepsilon, rfl⟩ | ⟨hne, rfl⟩
      · exact congrArg some (hfound.resolve_right fun h => h.1 hepsilon).2
      · exact congrArg some (hfound.resolve_left fun h => hne h.1).2

end Rows

section Reports

theorem validate_eq_error : a.validate = .error fault ↔ a.firstFault? = some fault := by
  rw [validate]
  cases a.firstFault? <;> simp

theorem determinismFault?_eq_some : a.determinismFault? = some fault ↔
    a.initial.size ≠ 1 ∧ fault = .initialStateCount a.initial.size ∨
    a.initial.size = 1 ∧ epsilon ∈ a.alphabet ∧ fault = .epsilonInDfa ∨
    a.initial.size = 1 ∧ epsilon ∉ a.alphabet ∧ ∃ e, a.IsFirst a.Branches e ∧
      (e.symbol = epsilon ∧ fault = .epsilonInDfa ∨
        e.symbol ≠ epsilon ∧ fault = .nondeterministic e.source e.symbol) := by
  rw [determinismFault?, ← findSome?_rows_eq_some]
  by_cases hcount : a.initial.size = 1 <;> by_cases halphabet : epsilon ∈ a.alphabet <;>
    simp [hcount, halphabet, eq_comm]

/-- The marks of what can be built are never at fault, so the edges come first and then the kind. -/
theorem Built.firstFault?_eq_some (h : a.Built) : a.firstFault? = some fault ↔
    a.edges.findSome? a.edgeFault? = some fault ∨
    (∀ e ∈ a.edges, ¬ a.Escapes e) ∧ a.kind = .dfa ∧ a.determinismFault? = some fault := by
  rw [firstFault?, markFault?_eq_none.2 h.marks_mem, ← findSome?_edgeFault?_eq_none_iff]
  cases hscan : a.edges.findSome? a.edgeFault? <;> simp [isDeterministic]

theorem Built.validate_eq_error_iff (h : a.Built) : a.validate = .error fault ↔ a.Reports fault := by
  rw [validate_eq_error, h.firstFault?_eq_some, findSome?_edgeFault?_eq_some, determinismFault?_eq_some]
  refine ⟨?_, fun hreport => ?_⟩
  · rintro (⟨e, hfirst, hfault⟩ | ⟨hedges, hkind, hfault⟩)
    · rcases edgeFault?_eq_some.1 hfault with ⟨hends, rfl⟩ | ⟨⟨hsource, htarget⟩, _, rfl⟩
      · exact .danglingEdge hfirst hends
      · exact .unknownSymbol hfirst hsource htarget
    · rcases hfault with ⟨hcount, rfl⟩ | ⟨hcount, halphabet, rfl⟩ | ⟨hcount, halphabet, e, hfirst, hfault⟩
      · exact .initialStateCount hedges hkind hcount
      · exact .epsilonSymbol hedges hkind hcount halphabet
      · rcases hfault with ⟨hsymbol, rfl⟩ | ⟨hsymbol, rfl⟩
        · exact .epsilonEdge hedges hkind hcount halphabet hfirst hsymbol
        · exact .nondeterministic hedges hkind hcount halphabet hfirst hsymbol
  · cases hreport with
    | danglingEdge hfirst hends => exact .inl ⟨_, hfirst, edgeFault?_eq_some.2 (.inl ⟨hends, rfl⟩)⟩
    | unknownSymbol hfirst hsource htarget =>
        exact .inl ⟨_, hfirst, edgeFault?_eq_some.2 (.inr ⟨⟨hsource, htarget⟩, hfirst.holds, rfl⟩)⟩
    | initialStateCount hedges hkind hcount => exact .inr ⟨hedges, hkind, .inl ⟨hcount, rfl⟩⟩
    | epsilonSymbol hedges hkind hcount halphabet =>
        exact .inr ⟨hedges, hkind, .inr (.inl ⟨hcount, halphabet, rfl⟩)⟩
    | epsilonEdge hedges hkind hcount halphabet hfirst hsymbol =>
        exact .inr ⟨hedges, hkind, .inr (.inr ⟨hcount, halphabet, _, hfirst, .inl ⟨hsymbol, rfl⟩⟩)⟩
    | nondeterministic hedges hkind hcount halphabet hfirst hsymbol =>
        exact .inr ⟨hedges, hkind, .inr (.inr ⟨hcount, halphabet, _, hfirst, .inr ⟨hsymbol, rfl⟩⟩)⟩

/-- Validation decides whether an automaton is well-formed: all edges stay inside the states and the alphabet,
up to epsilon, and one that claims to be deterministic has one initial state, no epsilon and at most one edge
for each state and symbol. What it reports of any other automaton is the first violation. -/
theorem validate_decides (h : a.Built) :
    (a.validate = .ok () ↔
      (∀ p s q, a.HasEdge p s q → p ∈ a.states ∧ q ∈ a.states ∧ (s ≠ epsilon → s ∈ a.alphabet)) ∧
      (a.kind = .dfa → a.initial.size = 1 ∧ epsilon ∉ a.alphabet ∧ (∀ p q, ¬ a.HasEdge p epsilon q) ∧
        ∀ p s q r, a.HasEdge p s q → a.HasEdge p s r → q = r)) ∧
    ∀ fault, a.validate = .error fault ↔ a.Reports fault := by
  refine ⟨?_, fun fault => h.validate_eq_error_iff⟩
  rw [validate_eq_ok_iff]
  refine ⟨fun hvalid => ⟨fun p s q hedge => ?_, fun hkind => ?_⟩, fun hconditions => ?_⟩
  · have hsymbol := hvalid.symbol_mem p s q hedge
    exact ⟨hvalid.source_mem p s q hedge, hvalid.target_mem p s q hedge, hsymbol.resolve_left⟩
  · have hdeterministic := hvalid.deterministic hkind
    exact ⟨hdeterministic.one_initial, hdeterministic.epsilon_not_mem, hdeterministic.no_epsilon,
      hdeterministic.functional⟩
  · obtain ⟨hedges, hdeterministic⟩ := hconditions
    refine ⟨h.marks_mem.1, h.marks_mem.2, fun p s q hedge => (hedges p s q hedge).1,
      fun p s q hedge => (hedges p s q hedge).2.1, fun p s q hedge => ?_, fun hkind => ?_⟩
    · exact or_iff_not_imp_left.2 (hedges p s q hedge).2.2
    · obtain ⟨hcount, halphabet, hsilent, hfunctional⟩ := hdeterministic hkind
      exact ⟨hcount, halphabet, hsilent, hfunctional⟩

/-- Two initial states, and three edges of which one has an unknown symbol and one leaves no state. -/
def tangled : Automaton :=
  ((((((empty .dfa).addSymbol "a").addInitial 0).addInitial 1).addEdge ⟨2, "a", 0⟩).addEdge ⟨0, "b", 1⟩).addEdge
    ⟨0, "a", 1⟩

/-- One violation after the other is reported as they are put right. -/
theorem validate_decides_tangled :
    tangled.Built ∧ tangled.Reports (.unknownSymbol 0 "b") ∧
      (tangled.addSymbol "b").Reports (.danglingEdge 2 "a" 0) ∧
      ((tangled.addSymbol "b").addState 2).Reports (.initialStateCount 2) := by
  have hbuilt : tangled.Built :=
    ((((((Built.empty .dfa).addSymbol "a").addInitial 0).addInitial 1).addEdge _).addEdge _).addEdge _
  refine ⟨hbuilt, ?_, ?_, ?_⟩
  · exact ((validate_decides hbuilt).2 _).1 (by decide +kernel)
  · exact ((validate_decides (hbuilt.addSymbol "b")).2 _).1 (by decide +kernel)
  · exact ((validate_decides ((hbuilt.addSymbol "b").addState 2)).2 _).1 (by decide +kernel)

end Reports

end Automaton

end FiniteAutomata
