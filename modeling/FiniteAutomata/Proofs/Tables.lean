import FiniteAutomata.Automaton.Numbering
import Mathlib.Data.List.Nodup

/-! Transition tables up to their edges. Tables that are built edge by edge hold no empty row, so two of
them with the same edges are equal. Relabelling such a table by a function that keeps its sources apart
relabels its edges, and does not make rows empty. -/

namespace FiniteAutomata.TransitionTable

variable {t t' : TransitionTable} {p q : StateId} {s : Symbol} {e : Edge}

/-- No source is listed without a transition. -/
def NoEmptyRow (t : TransitionTable) : Prop := ∀ p row, t.rows.find? p = some row → row ≠ ∅

theorem exists_mem_of_find? (h : t.NoEmptyRow) {row : SortedSet Transition}
    (hrow : t.rows.find? p = some row) : ∃ s q, ⟨p, s, q⟩ ∈ t := by
  have hne := h p row hrow
  cases hlist : row.toList with
  | nil => exact absurd (SortedSet.isEmpty_iff.1 (List.isEmpty_iff.2 hlist)) hne
  | cons τ rest =>
      refine ⟨τ.symbol, τ.target, ?_⟩
      rw [mem_iff, TransitionTable.row, hrow, Option.getD_some, ← SortedSet.mem_toList, hlist]
      exact List.mem_cons_self

theorem find?_eq_none_of_row (h : t.NoEmptyRow) (hrow : t.row p = ∅) : t.rows.find? p = none := by
  cases hfind : t.rows.find? p with
  | none => rfl
  | some row =>
      rw [TransitionTable.row, hfind] at hrow
      exact absurd hrow (h p row hfind)

theorem find?_eq_of_row (hrow : t.row p ≠ ∅) : t.rows.find? p = some (t.row p) := by
  cases hfind : t.rows.find? p with
  | none =>
      rw [TransitionTable.row, hfind] at hrow
      exact absurd rfl hrow
  | some row => rw [TransitionTable.row, hfind, Option.getD_some]

/-- Tables without empty rows are determined by their edges. -/
theorem ext_of_edges (h : t.NoEmptyRow) (h' : t'.NoEmptyRow) (hedges : ∀ e, e ∈ t ↔ e ∈ t') : t = t' := by
  have hrow : ∀ p, t.row p = t'.row p := by
    intro p
    apply SortedSet.ext
    rintro ⟨s, q⟩
    exact hedges ⟨p, s, q⟩
  have hrows : t.rows = t'.rows := by
    apply SortedMap.ext
    intro p
    by_cases hempty : t.row p = ∅
    · rw [find?_eq_none_of_row h hempty, find?_eq_none_of_row h' (hrow p ▸ hempty)]
    · rw [find?_eq_of_row hempty, find?_eq_of_row (hrow p ▸ hempty), hrow p]
  obtain ⟨rows⟩ := t
  obtain ⟨rows'⟩ := t'
  rw [show rows = rows' from hrows]

theorem noEmptyRow_empty : (∅ : TransitionTable).NoEmptyRow := by
  intro p row hrow
  cases hrow

theorem NoEmptyRow.insert (h : t.NoEmptyRow) (e : Edge) : (t.insert e).NoEmptyRow := by
  intro p row hrow
  rw [TransitionTable.insert, SortedMap.find?_insert] at hrow
  split at hrow
  · cases hrow
    intro hempty
    have hmem : ⟨e.symbol, e.target⟩ ∈ (t.row e.source).insert ⟨e.symbol, e.target⟩ :=
      SortedSet.mem_insert.2 (.inl rfl)
    rw [hempty] at hmem
    exact SortedSet.not_mem_empty _ hmem
  · exact h p row hrow

theorem NoEmptyRow.insertAll (h : t.NoEmptyRow) (edges : List Edge) : (t.insertAll edges).NoEmptyRow := by
  induction edges generalizing t with
  | nil => exact h
  | cons e edges ih => exact ih (h.insert e)

theorem noEmptyRow_ofEdges (edges : List Edge) : (ofEdges edges).NoEmptyRow :=
  noEmptyRow_empty.insertAll edges

/-- Every edge is listed once. -/
theorem nodup_edges (t : TransitionTable) : t.edges.Nodup := by
  refine List.nodup_flatMap.2 ⟨?_, ?_⟩
  · intro r _
    apply (SortedSet.nodup_toList r.2).map
    rintro ⟨s, q⟩ ⟨s', q'⟩ heq
    cases heq
    rfl
  · apply t.rows.ascending.imp
    intro r r' hlt e he he'
    obtain ⟨_, _, rfl⟩ := List.mem_map.1 he
    obtain ⟨_, _, heq⟩ := List.mem_map.1 he'
    have hsource : r'.1 = r.1 := congrArg Edge.source heq
    rw [hsource] at hlt
    simp at hlt

section Relabel

variable {f : StateId → StateId}

/-- The function keeps the sources of the table apart. -/
def SeparatesSources (f : StateId → StateId) (t : TransitionTable) : Prop :=
  ∀ d e, d ∈ t → e ∈ t → f d.source = f e.source → d.source = e.source

theorem row_ne_empty (h : e ∈ t) : t.row e.source ≠ ∅ := by
  intro hempty
  rw [mem_iff, hempty] at h
  exact SortedSet.not_mem_empty _ h

theorem nodup_relabelled_keys (h : t.NoEmptyRow) (hf : SeparatesSources f t) :
    ((t.rows.entries.map fun r => (f r.1, r.2.map (Transition.mapTarget f))).map Prod.fst).Nodup := by
  rw [List.map_map]
  have hentries : t.rows.entries.Nodup := t.rows.ascending.imp fun hlt heq => by
    rw [heq] at hlt
    simp at hlt
  apply hentries.map_on
  rintro ⟨p, row⟩ hp ⟨p', row'⟩ hp' heq
  rw [SortedMap.mem_entries_iff] at hp hp'
  obtain ⟨s, q, hedge⟩ := exists_mem_of_find? h hp
  obtain ⟨s', q', hedge'⟩ := exists_mem_of_find? h hp'
  obtain rfl : p = p' := hf _ _ hedge hedge' heq
  rw [hp] at hp'
  rw [Option.some.inj hp']

theorem find?_relabel (h : t.NoEmptyRow) (hf : SeparatesSources f t) {row : SortedSet Transition} :
    (t.relabel f).rows.find? p = some row ↔
      ∃ p' row', t.rows.find? p' = some row' ∧ f p' = p ∧ row'.map (Transition.mapTarget f) = row := by
  rw [relabel, SortedMap.find?_ofList (nodup_relabelled_keys h hf), List.mem_map]
  simp only [Prod.exists, Prod.mk.injEq, SortedMap.mem_entries_iff]

theorem mem_relabel (h : t.NoEmptyRow) (hf : SeparatesSources f t) :
    ⟨p, s, q⟩ ∈ t.relabel f ↔ ∃ p' q', ⟨p', s, q'⟩ ∈ t ∧ f p' = p ∧ f q' = q := by
  refine ⟨?_, ?_⟩
  · intro hedge
    have hfind := find?_eq_of_row (row_ne_empty hedge)
    obtain ⟨p', row', hrow', rfl, hrow⟩ := (find?_relabel h hf).1 hfind
    rw [mem_iff, ← hrow, SortedSet.mem_map] at hedge
    obtain ⟨⟨s', q'⟩, hτ, heq⟩ := hedge
    cases heq
    refine ⟨p', q', ?_, rfl, rfl⟩
    rwa [mem_iff, TransitionTable.row, hrow', Option.getD_some]
  · intro hstep
    obtain ⟨p', q', hedge, rfl, rfl⟩ := hstep
    have hfind := find?_eq_of_row (row_ne_empty hedge)
    have hrow := (find?_relabel h hf).2 ⟨p', _, hfind, rfl, rfl⟩
    rw [mem_iff, TransitionTable.row, hrow, Option.getD_some, SortedSet.mem_map]
    exact ⟨⟨s, q'⟩, hedge, rfl⟩

/-- Relabelling empties no row, also where it puts one row in place of another. -/
theorem NoEmptyRow.relabel (h : t.NoEmptyRow) (f : StateId → StateId) : (t.relabel f).NoEmptyRow := by
  intro p row hrow hempty
  obtain ⟨⟨p', row'⟩, hentry, heq⟩ := List.mem_map.1 (SortedMap.mem_of_find?_ofList hrow)
  cases heq
  have hrow' := SortedMap.mem_entries_iff.1 hentry
  obtain ⟨s, q, hedge⟩ := exists_mem_of_find? h hrow'
  rw [mem_iff, TransitionTable.row, hrow', Option.getD_some] at hedge
  have hmem : Transition.mapTarget f ⟨s, q⟩ ∈ row'.map (Transition.mapTarget f) :=
    SortedSet.mem_map.2 ⟨⟨s, q⟩, hedge, rfl⟩
  rw [hempty] at hmem
  exact SortedSet.not_mem_empty _ hmem

end Relabel

end FiniteAutomata.TransitionTable
